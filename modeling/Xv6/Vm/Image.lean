import Xv6.Vm.Inv

/-!
# A new image

`kexec` builds a new address space from free pages. Until it commits, the process keeps its old
table; on an error the new one is freed. The pages below the size of the new image have no holes, so
memory bounds the size whatever the program headers ask for.
-/

namespace Xv6.Vm

open Finset

variable {T : Type} [DecidableEq T] {L : Layout} {s s' s'' s₀ : St T} {r va pa v sz : ℕ}
  {e : Pte} {p : Proc}

/-- The table at `r` was made from free pages of `s₀`, for the process `p` with the new size `sz`. -/
structure Image.Building (L : Layout) (p : Proc) (r sz : ℕ) (s₀ s : St T) : Prop extends
    Frame r s₀ s where
  new : r ∈ s₀.free
  ok : PtOk (s.tbl r)
  bag : bag r s = (s₀.free : Multiset ℕ)
  proc_ok : ProcOk L (s.tbl r) ⟨sz, r, p.trapframe⟩
  full : ∀ v < npages sz, ((s.tbl r).pte v).isSome

open Image (Building)

theorem Image.Building.space (h : Building L p r sz s₀ s) (hf : FreeOk L s₀) : Space L r s :=
  .of_bag hf h.ok h.bag

theorem Created.building (h : Created L p.trapframe r s₀ s) : Building L p r 0 s₀ s where
  toFrame := h.toFrame
  new := h.new
  ok := h.ok
  bag := h.bag
  proc_ok := by
    apply procOk_of_high (Nat.zero_le _)
    · intro v _
      rw [h.pte]
    · intro v _ hv
      rw [h.pte, procPtes_none _ hv]
  full v hv := absurd hv (by simp [npages, pgsize])

/-- Only the contents of pages changed. -/
structure MemOnly (s s' : St T) : Prop where
  free : s'.free = s.free
  tbl : s'.tbl = s.tbl
  proc : s'.proc = s.proc

theorem MemOnly.refl (s : St T) : MemOnly s s := ⟨rfl, rfl, rfl⟩

theorem MemOnly.trans (h : MemOnly s s') (h' : MemOnly s' s'') : MemOnly s s'' :=
  ⟨h'.free.trans h.free, h'.tbl.trans h.tbl, h'.proc.trans h.proc⟩

theorem memOnly_setMem (s : St T) (pa : ℕ) (x : Page) : MemOnly s (s.setMem pa x) := ⟨rfl, rfl, rfl⟩

theorem Image.Building.memOnly (h : Building L p r sz s₀ s) (hm : MemOnly s s') :
    Building L p r sz s₀ s' where
  proc := hm.proc.trans h.proc
  tbl r' hr := by rw [hm.tbl, h.tbl r' hr]
  new := h.new
  ok := by
    rw [hm.tbl]
    exact h.ok
  bag := by
    rw [← h.bag]
    unfold Vm.bag
    rw [hm.free, hm.tbl]
  proc_ok := by
    rw [hm.tbl]
    exact h.proc_ok
  full := by
    rw [hm.tbl]
    exact h.full

abbrev Image.as (p : Proc) (r sz : ℕ) : Proc := ⟨sz, r, p.trapframe⟩

theorem Image.Building.addrSpace (h : Building L p r sz s₀ s) (hf : FreeOk L s₀) :
    AddrSpace L (Image.as p r sz) s := ⟨h.space hf, h.proc_ok⟩

/-- The free pages are some of those that were free. -/
theorem Image.Building.free_subset (h : Building L p r sz s₀ s) : ∀ pa ∈ s.free, pa ∈ s₀.free := by
  intro pa hpa
  rw [← Multiset.mem_coe, ← h.bag]
  exact mem_bag_of_free hpa

theorem Image.Building.page_free (h : Building L p r sz s₀ s) (hv : v < npages sz)
    (he : (s.tbl r).pte v = some e) : e.pa ∈ s₀.free := by
  rw [← Multiset.mem_coe, ← h.bag]
  exact mem_bag_of_pte (hv.trans_le (npages_le h.proc_ok.sz_le)) he

/-- Only pages that were free were written to. -/
def Unwritten (s₀ s : St T) : Prop := ∀ pa ∉ s₀.free, s.mem pa = s₀.mem pa

/-- New pages are zeroed, and so is what lies above the size. -/
theorem Zeroed.byte {newsz : ℕ} {perm : Perm} (hsp : AddrSpace L (Image.as p r sz) s)
    (hz : Zeroed r (npages sz) (npages newsz) s s')
    (hfill : Filled perm (npages sz) (npages newsz) (s.tbl r).pte (s'.tbl r).pte)
    (hle : npages sz ≤ npages newsz) :
    (umem s' (Image.as p r newsz)).byte = (umem s (Image.as p r sz)).byte := by
  funext a
  unfold umem
  dsimp only
  by_cases hold : a / pgsize < npages sz
  · rw [if_pos (by omega), if_pos hold, hfill.old _ (by omega)]
    cases he : (s.tbl r).pte (a / pgsize) with
    | none => rfl
    | some e =>
      show s'.mem e.pa _ = s.mem e.pa _
      rw [hz.mem _ (hsp.notMem_free hold he)]
  · rw [if_neg hold]
    split_ifs with hnew
    · obtain ⟨e, he, -, hzero⟩ := hz.page _ (by omega) hnew
      rw [he]
      show s'.mem e.pa _ = 0
      rw [hzero]
    · rfl

theorem Image.Building.uvmalloc (hf : FreeOk L s₀) (h : Building L p r sz s₀ s) (newsz : ℕ)
    (xperm : Perm) :
    Tot (uvmalloc L r sz newsz xperm) s fun sz' s' =>
      (sz' = 0 → Building L p r sz s₀ s' ∧ (s'.tbl r).pte = (s.tbl r).pte) ∧
      (sz' ≠ 0 → sz' = max sz newsz ∧ Building L p r sz' s₀ s' ∧
        Filled { xperm with r := true, u := true } (npages sz) (npages sz') (s.tbl r).pte
          (s'.tbl r).pte ∧
        (umem s' (Image.as p r sz')).byte = (umem s (Image.as p r sz)).byte) ∧
      (Unwritten s₀ s → Unwritten s₀ s') := by
  have hsz : sz ≤ trapframeVa := h.proc_ok.sz_le
  apply tot_mono (uvmalloc_zeroed (h.space hf) hsz h.proc_ok.none (.inr h.full))
  rintro sz' s' ⟨hk, hz, hnz, hmem⟩
  have hframe := h.toFrame.trans hk.toFrame
  refine ⟨fun h0 => ⟨⟨hframe, h.new, hk.ok, hk.bag.trans h.bag, ?_, ?_⟩, hz h0⟩, fun h0 => ?_,
    fun hu pa hpa => by rw [hmem pa fun hc => hpa (h.free_subset pa hc), hu pa hpa]⟩
  · apply procOk_of_high hsz
    · intro v hv
      rw [hz h0]
      exact h.proc_ok.high h.ok v hv
    · intro v hv hv'
      rw [hz h0]
      exact h.proc_ok.none v hv hv'
  · rw [hz h0]
    exact h.full
  · obtain ⟨hmax, hle, hfill, hzero⟩ := hnz h0
    have hpages : npages sz ≤ npages sz' := by
      unfold npages pgsize
      omega
    refine ⟨hmax, ⟨hframe, h.new, hk.ok, hk.bag.trans h.bag, ?_, ?_⟩, hfill,
      hzero.byte (h.addrSpace hf) hfill hpages⟩
    · exact h.proc_ok.grow h.ok (by show sz ≤ sz'; omega) hle hfill
    · intro v hv
      by_cases hlt : v < npages sz
      · rw [hfill.old v (by omega)]
        exact h.full v hlt
      · obtain ⟨pa, hpa⟩ := hfill.new v (by omega) hv
        rw [hpa]
        rfl

/-- Every page of the image is one that user code may access. -/
def AllUser (tbl : Tbl) (sz : ℕ) : Prop :=
  ∀ v < npages sz, ∃ e, tbl.pte v = some e ∧ e.perm.u = true

theorem AllUser.filled {tbl tbl' : Tbl} {sz' : ℕ} {perm : Perm} (h : AllUser tbl sz)
    (hu : perm.u) (hf : Filled perm (npages sz) (npages sz') tbl.pte tbl'.pte) :
    AllUser tbl' sz' := by
  intro v hv
  by_cases hlt : v < npages sz
  · rw [hf.old v (by omega)]
    exact h v hlt
  · obtain ⟨pa, hpa⟩ := hf.new v (by omega) hv
    exact ⟨_, hpa, hu⟩

/-- On an error the new table is freed. -/
theorem Image.Building.free (hf : FreeOk L s₀) (hb : Building L p r sz s₀ s) :
    Tot (procFreepagetable L r sz) s fun _ s' => Restored s₀ s' ∧
      (Unwritten s₀ s → Unwritten s₀ s') := by
  apply tot_mono ((frees_procFreepagetable sz).tot
    (procFreepagetable_tot (hb.space hf) hb.proc_ok.sz_le hb.proc_ok.leaf))
  rintro _ s' ⟨⟨hfr, hfree⟩, hof⟩
  have hbag : (s'.free : Multiset ℕ) = s₀.free := hfree.trans hb.bag
  refine ⟨(hb.toFrame.trans hfr).restored hb.new hbag, fun hu pa hpa => ?_⟩
  have hpa' : pa ∉ s'.free := fun hc => hpa (Multiset.mem_coe.1 (hbag ▸ Multiset.mem_coe.2 hc))
  rw [hof.mem pa hpa', hu pa hpa]

/-! ## Loading segments -/

theorem Image.Building.walkaddr_page (hf : FreeOk L s₀) (h : Building L p r sz s₀ s)
    (hu : AllUser (s.tbl r) sz) {w k : ℕ} (hlt : w + k < npages sz) :
    ∃ e, (s.tbl r).pte (w + k) = some e ∧
      walkaddr r (u64 ((w * pgsize : ℕ) + (k * pgsize : ℕ) : ℤ)) s = .ok (e.pa, s) ∧ e.pa ≠ 0 := by
  have hup : npages sz ≤ userPages := npages_le h.proc_ok.sz_le
  have hpage : u64 ((w * pgsize : ℕ) + (k * pgsize : ℕ) : ℤ) / pgsize = w + k := by
    have : ((w * pgsize : ℕ) + (k * pgsize : ℕ) : ℤ) = (((w + k) * pgsize : ℕ) : ℤ) := by
      push_cast
      ring
    rw [this, u64_of_lt, div_pgsize]
    have := mul_pgsize_lt (v := w + k) (by unfold userPages at hup; omega)
    unfold maxva at this
    omega
  obtain ⟨e, he, heu⟩ := hu (w + k) hlt
  have hpa : userPa (s.tbl r) (w + k) = e.pa := by
    unfold userPa
    rw [he]
    exact if_pos heu
  refine ⟨e, he, ?_, ((h.space hf).page _ (mem_bag_of_pte (by omega) he)).ne_zero⟩
  rw [walkaddr_eq h.ok, hpage, hpa]

theorem loadsegLoop_tot (ph : Ph) {w : ℕ} (hf : FreeOk L s₀) (n : ℕ) : ∀ {s : St T} {k : ℕ},
    Building L p r sz s₀ s → AllUser (s.tbl r) sz → w + k + n ≤ npages sz →
    Tot (loadsegLoop r (w * pgsize) ph n (k * pgsize)) s fun _ s' => MemOnly s s' := by
  induction n with
  | zero => exact fun _ _ _ => tot_pure (.refl _)
  | succ n ih =>
    intro s k h hu hn
    obtain ⟨e, he, hwalk, hne⟩ := h.walkaddr_page hf hu (w := w) (k := k) (by omega)
    unfold loadsegLoop
    apply tot_bind_eq hwalk
    rw [if_neg hne]
    cases ph.file (k * pgsize / pgsize) with
    | none => exact tot_pure (.refl s)
    | some l =>
      apply tot_modify
      rw [show k * pgsize + pgsize = (k + 1) * pgsize by ring]
      have hm : ∀ x, MemOnly s (s.setMem e.pa x) := memOnly_setMem s e.pa
      apply tot_mono (ih (h.memOnly (hm _)) hu (by omega))
      exact fun _ _ hm' => (hm _).trans hm'

/-- `loadseg` finds every page of a segment that lies below the size. -/
theorem loadseg_tot {ph : Ph} (hf : FreeOk L s₀) (h : Building L p r sz s₀ s)
    (hu : AllUser (s.tbl r) sz) (hal : ph.vaddr % pgsize = 0) (hle : ph.vaddr + ph.filesz ≤ sz) :
    Tot (loadseg r ph.vaddr ph) s fun _ s' => MemOnly s s' := by
  have hv : ph.vaddr = ph.vaddr / pgsize * pgsize := (Nat.div_mul_cancel (Nat.dvd_of_mod_eq_zero hal)).symm
  have hmod : ph.filesz % 2 ^ 32 ≤ ph.filesz := Nat.mod_le _ _
  have hn : ph.vaddr / pgsize + 0 + (ph.filesz % 2 ^ 32 + pgsize - 1) / pgsize ≤ npages sz := by
    unfold npages pgsize at *
    omega
  have htot := loadsegLoop_tot ph (k := 0) hf _ h hu hn
  rw [Nat.zero_mul, ← hv] at htot
  exact htot

theorem execLoad_tot (hf : FreeOk L s₀) : ∀ (phs : List (Option Ph)) {sz : ℕ} {s : St T},
    (∀ ph ∈ phs.filterMap id, ph.vaddr < 2 ^ 64 ∧ ph.memsz < 2 ^ 64) →
    Building L p r sz s₀ s → AllUser (s.tbl r) sz →
    Tot (execLoad L r phs sz) s fun x s' => Building L p r x.2 s₀ s' ∧
      (x.1 → AllUser (s'.tbl r) x.2) := by
  intro phs
  induction phs with
  | nil => exact fun _ h hu => tot_pure ⟨h, fun _ => hu⟩
  | cons o phs ih =>
    intro sz s hargs h hu
    cases o with
    | none => exact tot_pure ⟨h, nofun⟩
    | some ph =>
      obtain ⟨hvaddr, hmemsz⟩ := hargs ph (by simp)
      have hargs' : ∀ ph ∈ phs.filterMap id, ph.vaddr < 2 ^ 64 ∧ ph.memsz < 2 ^ 64 := by
        intro ph' hph'
        apply hargs
        show ph' ∈ ph :: phs.filterMap id
        exact List.mem_cons_of_mem _ hph'
      unfold execLoad
      split_ifs with hload hfile hwrap hal
      · exact ih hargs' h hu
      · exact tot_pure ⟨h, nofun⟩
      · exact tot_pure ⟨h, nofun⟩
      · exact tot_pure ⟨h, nofun⟩
      -- the sum did not wrap around
      have hend : u64 (ph.vaddr + ph.memsz) = ph.vaddr + ph.memsz := by
        unfold u64 at *
        omega
      apply tot_bind
      apply tot_mono (h.uvmalloc hf (u64 (ph.vaddr + ph.memsz)) (flags2perm ph.flags))
      rintro sz1 s1 ⟨hz, hnz, -⟩
      split_ifs with h0
      · exact tot_pure ⟨(hz h0).1, nofun⟩
      · obtain ⟨hmax, hb1, hfill, -⟩ := hnz h0
        have hu1 : AllUser (s1.tbl r) sz1 := hu.filled rfl hfill
        apply tot_bind
        apply tot_mono (loadseg_tot hf hb1 hu1 (by omega) (by omega))
        intro ok s2 hm
        have hb2 := hb1.memOnly hm
        split_ifs
        · apply ih hargs' hb2
          rw [hm.tbl]
          exact hu1
        · exact tot_pure ⟨hb2, nofun⟩

end Xv6.Vm
