import Xv6.Vm.User

/-!
# The invariant of all address spaces

Every page of memory is free or belongs to one process, as its trapframe, as a page of its table or
as a user page, and every address space is well formed. Each function that creates, grows, copies or
frees an address space keeps the invariant.
-/

namespace Xv6.Vm

open Function Finset

variable {T : Type} [DecidableEq T] [Fintype T] {L : Layout} {s s' s'' : St T} {r va pa v : ℕ}
  {e : Pte} {p : Proc} {t t' : T} {U : Multiset ℕ}

@[simp] theorem setProc_proc (s : St T) (t : T) (o : Option Proc) : (s.setProc t o).proc t = o :=
  update_self ..

/-! ## Ownership -/

/-- The pages of a process. -/
noncomputable def owns (s : St T) (p : Proc) : Multiset ℕ :=
  {p.trapframe} + {p.pagetable} + pages (s.tbl p.pagetable)

/-- The pages of the process in a slot. -/
noncomputable def slotOwns (s : St T) (t : T) : Multiset ℕ := (s.proc t).elim 0 (owns s)

/-- The pages of all processes except the one in slot `t`. -/
noncomputable def others (t : T) (s : St T) : Multiset ℕ := ∑ t' ∈ univ.erase t, slotOwns s t'

/-- All pages. -/
noncomputable def allPages (s : St T) : Multiset ℕ := (s.free : Multiset ℕ) + ∑ t, slotOwns s t

theorem allPages_eq (t : T) (s : St T) :
    allPages s = (s.free : Multiset ℕ) + slotOwns s t + others t s := by
  unfold allPages others
  rw [← add_sum_erase univ (slotOwns s) (mem_univ t), add_assoc]

theorem slotOwns_some (h : s.proc t = some p) : slotOwns s t = owns s p := by
  unfold slotOwns
  rw [h]
  rfl

theorem slotOwns_none (h : s.proc t = none) : slotOwns s t = 0 := by
  unfold slotOwns
  rw [h]
  rfl

theorem allPages_bag (h : s.proc t = some p) :
    allPages s = bag p.pagetable s + {p.trapframe} + others t s := by
  rw [allPages_eq t, slotOwns_some h]
  unfold owns bag
  abel

theorem slotOwns_congr (hproc : s'.proc t = s.proc t)
    (htbl : ∀ p, s.proc t = some p → s'.tbl p.pagetable = s.tbl p.pagetable) :
    slotOwns s' t = slotOwns s t := by
  unfold slotOwns
  rw [hproc]
  cases hp : s.proc t with
  | none => rfl
  | some p =>
    show owns s' p = owns s p
    unfold owns
    rw [htbl p hp]

/-- The invariant, where the pages of memory that the processes and the free list share are `U`. -/
structure Inv (L : Layout) (U : Multiset ℕ) (s : St T) : Prop where
  all : allPages s = U
  ok : ∀ t p, s.proc t = some p → PtOk (s.tbl p.pagetable) ∧ ProcOk L (s.tbl p.pagetable) p
  page : ∀ pa ∈ allPages s, PageOk L pa
  once : ∀ pa, (allPages s).count pa ≤ 1

variable (h : Inv L U s)

include h

theorem Inv.nodup : (allPages s).Nodup := Multiset.nodup_iff_count_le_one.2 h.once

/-- A table whose bag is part of all pages. -/
theorem Inv.space_of_le (ok : PtOk (s'.tbl r)) (hle : bag r s' ≤ allPages s) : Space L r s' :=
  ⟨ok, fun pa hpa => h.page pa (Multiset.mem_of_le hle hpa),
    Multiset.nodup_iff_count_le_one.1 (Multiset.nodup_of_le hle h.nodup)⟩

theorem Inv.space (hp : s.proc t = some p) : Space L p.pagetable s := by
  apply h.space_of_le (h.ok t p hp).1
  rw [allPages_bag hp, add_assoc]
  exact Multiset.le_add_right _ _

theorem Inv.addrSpace (hp : s.proc t = some p) : AddrSpace L p s :=
  ⟨h.space hp, (h.ok t p hp).2⟩

theorem Inv.freeOk : FreeOk L s := by
  have hle : (s.free : Multiset ℕ) ≤ allPages s := Multiset.le_add_right _ _
  constructor
  · exact fun pa hpa => h.page pa (Multiset.mem_of_le hle hpa)
  · exact Multiset.coe_nodup.1 (Multiset.nodup_of_le hle h.nodup)

theorem Inv.notMem_free (hp : s.proc t = some p) (hpa : pa ∈ owns s p) : pa ∉ s.free := by
  have hn := h.nodup
  rw [allPages_eq t, slotOwns_some hp] at hn
  have hdis := Multiset.disjoint_of_nodup_add (Multiset.nodup_add.1 hn).1
  exact fun hf => Multiset.disjoint_left.1 hdis (Multiset.mem_coe.2 hf) hpa

omit h in
theorem mem_owns_pagetable : p.pagetable ∈ owns s p := by
  unfold owns
  simp

omit h in
theorem mem_owns_trapframe : p.trapframe ∈ owns s p := by
  unfold owns
  simp

theorem Inv.pagetable_ne {p' : Proc} (hp : s.proc t = some p) (hp' : s.proc t' = some p')
    (hne : t' ≠ t) : p'.pagetable ≠ p.pagetable := by
  have hn := h.nodup
  rw [allPages_eq t, slotOwns_some hp] at hn
  have hdis := Multiset.disjoint_of_nodup_add hn
  have hmem : p'.pagetable ∈ others t s := by
    unfold others
    rw [Multiset.mem_sum]
    refine ⟨t', mem_erase.2 ⟨hne, mem_univ t'⟩, ?_⟩
    rw [slotOwns_some hp']
    exact mem_owns_pagetable
  intro he
  rw [he] at hmem
  apply Multiset.disjoint_left.1 hdis _ hmem
  exact Multiset.mem_add.2 (.inr mem_owns_pagetable)

/-- The invariant holds again after a change to slot `t` that loses no page and leaves the tables of
the other processes alone. -/
theorem Inv.change (t : T) (hproc : ∀ t' ≠ t, s'.proc t' = s.proc t')
    (htbl : ∀ t' ≠ t, ∀ p, s.proc t' = some p → s'.tbl p.pagetable = s.tbl p.pagetable)
    (hbal : (s'.free : Multiset ℕ) + slotOwns s' t = (s.free : Multiset ℕ) + slotOwns s t)
    (hok : ∀ p, s'.proc t = some p → PtOk (s'.tbl p.pagetable) ∧ ProcOk L (s'.tbl p.pagetable) p) :
    Inv L U s' := by
  have hothers : others t s' = others t s := by
    apply sum_congr rfl
    intro t' ht'
    have hne := (mem_erase.1 ht').1
    exact slotOwns_congr (hproc t' hne) (htbl t' hne)
  have hall : allPages s' = allPages s := by
    rw [allPages_eq t, allPages_eq t s, hbal, hothers]
  constructor
  · rw [hall, h.all]
  · intro t' p hp
    by_cases ht : t' = t
    · exact hok p (ht ▸ hp)
    · rw [hproc t' ht] at hp
      rw [htbl t' ht p hp]
      exact h.ok t' p hp
  · rw [hall]
    exact h.page
  · rw [hall]
    exact h.once

/-- A function worked on the table of the process in slot `t`, and its size may have changed. -/
theorem Inv.kept (hp : s.proc t = some p) (hk : Kept p.pagetable s s') (sz : ℕ)
    (hok : ProcOk L (s'.tbl p.pagetable) { p with sz := sz }) :
    Inv L U (s'.setProc t (some { p with sz := sz })) := by
  have hself := setProc_proc s' t (some { p with sz := sz })
  apply h.change t
  · intro t' hne
    show update s'.proc t _ t' = _
    rw [update_of_ne hne, hk.proc]
  · exact fun t' hne p' hp' => hk.tbl _ (h.pagetable_ne hp hp' hne)
  · rw [slotOwns_some hself, slotOwns_some hp]
    have := hk.bag
    unfold bag at this
    unfold owns
    show (s'.free : Multiset ℕ) + ({p.trapframe} + {p.pagetable} + pages (s'.tbl p.pagetable)) = _
    calc (s'.free : Multiset ℕ) + ({p.trapframe} + {p.pagetable} + pages (s'.tbl p.pagetable))
        = (s'.free : Multiset ℕ) + {p.pagetable} + pages (s'.tbl p.pagetable) + {p.trapframe} := by
          abel
      _ = _ := by
          rw [this]
          abel
  · intro p' hp'
    rw [hself] at hp'
    cases hp'
    exact ⟨hk.ok, hok⟩

omit h in
theorem setProc_self (h : s.proc t = some p) : s.setProc t (some p) = s := by
  unfold St.setProc
  rw [← h, update_eq_self]

theorem Inv.sound (hp : s.proc t = some p) (hs : Sound L p s s') : Inv L U s' := by
  have := h.kept hp hs.toKept p.sz hs.proc_ok
  rwa [setProc_self (by rw [hs.proc, hp])] at this

theorem Inv.restored (hr : Restored s s') : Inv L U s' := by
  have htbl : ∀ t p, s.proc t = some p → s'.tbl p.pagetable = s.tbl p.pagetable := fun t p hp =>
    hr.tbl _ (h.notMem_free hp mem_owns_pagetable)
  have hall : allPages s' = allPages s := by
    unfold allPages
    rw [hr.free]
    congr 1
    apply sum_congr rfl
    intro t _
    exact slotOwns_congr (by rw [hr.proc]) (htbl t)
  constructor
  · rw [hall, h.all]
  · intro t p hp
    rw [hr.proc] at hp
    rw [htbl t p hp]
    exact h.ok t p hp
  · rw [hall]
    exact h.page
  · rw [hall]
    exact h.once

/-! ## Creating and freeing processes -/

theorem allocproc_tot (hslot : s.proc t = none) :
    Tot (allocproc L t) s fun o s' => Inv L U s' ∧
      ∀ np, o = some np → np.sz = 0 ∧ s'.proc = update s.proc t (some np) := by
  unfold allocproc
  apply tot_kalloc
  · intro _
    exact tot_pure ⟨h, nofun⟩
  intro tf l hl
  have hfree : FreeOk L (s.take tf l) := by
    have hf := h.freeOk
    constructor
    · exact fun pa hpa => hf.page pa (by rw [hl]; exact List.mem_cons_of_mem _ hpa)
    · have := hf.nodup
      rw [hl] at this
      exact (List.nodup_cons.1 this).2
  have htf : PageOk L tf := h.freeOk.page tf (by rw [hl]; exact List.mem_cons_self)
  have hroot : ∀ r ∉ s.free, r ∉ (s.take tf l).free := by
    intro r hr hm
    apply hr
    rw [hl]
    exact List.mem_cons_of_mem _ hm
  apply tot_bind
  apply tot_mono (procPagetable_tot tf hfree)
  rintro o s1 ⟨hnone, hsome, -⟩
  cases o with
  | none =>
    have hr := hnone rfl
    dsimp only
    apply tot_bind_eq (kfree_ok htf)
    have hr' : Restored s (s1.give tf) := by
      refine ⟨hr.proc, fun r hr0 => hr.tbl r (hroot r hr0), ?_⟩
      · show ((tf :: s1.free : List ℕ) : Multiset ℕ) = s.free
        rw [hl, ← Multiset.cons_coe, hr.free, Multiset.cons_coe]
        rfl
    exact tot_pure ⟨h.restored hr', nofun⟩
  | some r =>
    have hc := hsome r rfl
    apply tot_modify
    have htbl : ∀ r' ∉ s.free, s1.tbl r' = s.tbl r' := by
      intro r' hr'
      apply hc.tbl r'
      rintro rfl
      exact hroot r' hr' hc.new
    have hself := setProc_proc s1 t (some ⟨0, r, tf⟩)
    refine tot_pure ⟨?_, ?_⟩
    · apply h.change t
      · intro t' hne
        show update s1.proc t _ t' = _
        rw [update_of_ne hne, hc.proc]
        rfl
      · exact fun t' _ p hp => htbl _ (h.notMem_free hp mem_owns_pagetable)
      · rw [slotOwns_some hself, slotOwns_none hslot, add_zero, hl, ← Multiset.cons_coe]
        have hb := hc.bag
        unfold bag at hb
        unfold owns
        show (s1.free : Multiset ℕ) + ({tf} + {r} + pages (s1.tbl r)) = tf ::ₘ (l : Multiset ℕ)
        have : (l : Multiset ℕ) = (s1.free : Multiset ℕ) + {r} + pages (s1.tbl r) := hb.symm
        rw [this, ← Multiset.singleton_add]
        abel
      · intro p hp
        rw [hself] at hp
        cases hp
        refine ⟨hc.ok, procOk_of_high (Nat.zero_le _) (fun v _ => ?_) fun v _ hv => ?_⟩
        · show (s1.tbl r).pte v = _
          rw [hc.pte]
        · show (s1.tbl r).pte v = _
          rw [hc.pte, procPtes_none tf hv]
    · rintro _ ⟨⟩
      refine ⟨rfl, ?_⟩
      show update s1.proc t _ = _
      rw [hc.proc]
      rfl

theorem freeproc_tot (hp : s.proc t = some p) : Tot (freeproc L t p) s fun _ s' => Inv L U s' := by
  have htf : PageOk L p.trapframe := by
    apply h.page
    rw [allPages_bag hp]
    simp
  obtain ⟨hok, hproc⟩ := h.ok t p hp
  have hsp : Space L p.pagetable (s.give p.trapframe) := by
    apply h.space_of_le (show PtOk ((s.give p.trapframe).tbl p.pagetable) from hok)
    rw [bag_give, allPages_bag hp]
    exact Multiset.le_add_right _ _
  unfold freeproc
  apply tot_bind_eq (kfree_ok htf)
  apply tot_bind
  apply tot_mono (procFreepagetable_tot hsp hproc.sz_le hproc.leaf)
  rintro _ s1 ⟨hf, hb⟩
  apply tot_modify_end
  have hself := setProc_proc s1 t none
  apply h.change t
  · intro t' hne
    show update s1.proc t _ t' = _
    rw [update_of_ne hne, hf.proc]
    rfl
  · exact fun t' hne p' hp' => hf.tbl _ (h.pagetable_ne hp hp' hne)
  · rw [slotOwns_none hself, add_zero, slotOwns_some hp]
    show (s1.free : Multiset ℕ) = _
    rw [hb, bag_give]
    unfold bag owns
    abel
  · intro p' hp'
    rw [hself] at hp'
    cases hp'

/-! ## `sbrk` and `fork` -/

omit h in
theorem u64_add {n : ℤ} {sz : ℕ} (h0 : 0 ≤ (sz : ℤ) + n) (h1 : (sz : ℤ) + n < 2 ^ 64) :
    (u64 (sz + n) : ℤ) = sz + n := by
  unfold u64
  omega

omit h in
theorem ProcOk.shrink {tbl tbl' : Tbl} {newsz : ℕ} (hok : PtOk tbl) (h : ProcOk L tbl p)
    (hle : newsz ≤ p.sz) (hpte : tbl'.pte = clear tbl.pte (npages newsz) (npages p.sz)) :
    ProcOk L tbl' { p with sz := newsz } := by
  have hup := npages_le h.sz_le
  apply procOk_of_high
  · exact hle.trans h.sz_le
  · intro v hv
    rw [hpte]
    unfold clear
    rw [if_neg (by omega)]
    exact h.high hok v hv
  · intro v hv hv'
    have hv0 : npages newsz ≤ v := hv
    rw [hpte]
    unfold clear
    split_ifs with hc
    · rfl
    · exact h.none v (by omega) hv'

omit h in
theorem ProcOk.grow {tbl tbl' : Tbl} {newsz : ℕ} {perm : Perm} (hok : PtOk tbl) (h : ProcOk L tbl p)
    (hle : p.sz ≤ newsz) (hsz : newsz ≤ trapframeVa)
    (hf : Filled perm (npages p.sz) (npages newsz) tbl.pte tbl'.pte) :
    ProcOk L tbl' { p with sz := newsz } := by
  have hup := npages_le hsz
  have hmono := npages_mono hle
  apply procOk_of_high hsz
  · intro v hv
    rw [hf.old v (by omega)]
    exact h.high hok v hv
  · intro v hv hv'
    have hv0 : npages newsz ≤ v := hv
    rw [hf.old v (by omega)]
    exact h.none v (by omega) hv'

theorem growproc_tot {n : ℤ} (hp : s.proc t = some p) (hb : 0 ≤ n → (p.sz : ℤ) + n ≤ trapframeVa) :
    Tot (growproc L t p n) s fun _ s' => Inv L U s' := by
  obtain ⟨hok, hproc⟩ := h.ok t p hp
  have hsp := h.space hp
  have hsz := hproc.sz_le
  unfold growproc
  split_ifs with hpos hneg
  · have hle := hb (by omega)
    have hnew : u64 (p.sz + n) ≤ trapframeVa := by
      have := u64_add (by omega) (by unfold trapframeVa trampolineVa maxva pgsize at hle; omega : (p.sz : ℤ) + n < 2 ^ 64)
      omega
    apply tot_bind
    apply tot_mono (uvmalloc_zeroed hsp hsz hproc.none (.inl hnew))
    rintro sz s1 ⟨hk, hz, hnz, -⟩
    split_ifs with h0
    · have hs : Sound L p s s1 := ⟨hk, hproc.congr (hz h0)⟩
      exact tot_pure (h.sound hp hs)
    · obtain ⟨hmax, hle', hf, -⟩ := hnz h0
      apply tot_modify
      exact tot_pure (h.kept hp hk _ (hproc.grow hok (by omega) hle' hf))
  · apply tot_bind
    apply tot_mono (uvmdealloc_tot hsp hsz)
    rintro sz s1 ⟨hmin, hk, hpte⟩
    apply tot_modify
    apply tot_pure
    apply h.kept hp hk
    by_cases h0 : u64 (p.sz + n) ≤ p.sz
    · have he : sz = u64 (p.sz + n) := by omega
      rw [he]
      exact hproc.shrink hok h0 hpte
    · have he : sz = p.sz := by omega
      rw [he]
      rw [clear_empty _ (npages_mono (by omega))] at hpte
      apply hproc.shrink hok le_rfl
      rw [hpte, clear_empty _ le_rfl]
  · apply tot_modify
    exact tot_pure (h.kept hp (.refl hok) _ hproc)

theorem sysSbrk_tot {n mode : ℤ} (hp : s.proc t = some p)
    (hb : 0 ≤ n → (p.sz : ℤ) + n ≤ trapframeVa) :
    Tot (sysSbrk L t p n mode) s fun _ s' => Inv L U s' := by
  obtain ⟨hok, hproc⟩ := h.ok t p hp
  unfold sysSbrk
  split_ifs with heager hwrap
  · apply tot_bind
    apply tot_mono (growproc_tot h hp hb)
    intro ok s1 h1
    split_ifs
    · exact tot_pure h1
    · exact tot_pure h1
  · exact tot_pure h
  · apply tot_modify
    apply tot_pure
    apply h.kept hp (.refl hok)
    have h0 : 0 ≤ n := by
      by_contra hlt
      exact heager (.inr (by omega))
    have hle := hb h0
    have hnew := u64_add (by omega)
      (by unfold trapframeVa trampolineVa maxva pgsize at hle; omega : (p.sz : ℤ) + n < 2 ^ 64)
    -- no page is mapped, the table is that of a larger process
    have hge : p.sz ≤ u64 (p.sz + n) := by omega
    apply procOk_of_high
    · show u64 (p.sz + n) ≤ trapframeVa
      omega
    · exact fun v hv => hproc.high hok v hv
    · intro v hv hv'
      exact hproc.none v ((npages_mono hge).trans hv) hv'

theorem kfork_tot (hp : s.proc t = some p) (hslot : s.proc t' = none) :
    Tot (kfork L p t') s fun _ s' => Inv L U s' := by
  unfold kfork
  apply tot_bind
  apply tot_mono (allocproc_tot h hslot)
  rintro o s1 ⟨h1, hs⟩
  cases o with
  | none => exact tot_pure h1
  | some np =>
    obtain ⟨hsz0, hproc1⟩ := hs np rfl
    have hne : t ≠ t' := by
      rintro rfl
      rw [hslot] at hp
      cases hp
    have hp1 : s1.proc t = some p := by rw [hproc1, update_of_ne hne, hp]
    have hnp : s1.proc t' = some np := by rw [hproc1, update_self]
    obtain ⟨hok, hpok⟩ := h1.ok t p hp1
    obtain ⟨hoknp, hnpok⟩ := h1.ok t' np hnp
    have hroots := h1.pagetable_ne hnp hp1 hne
    have hnone : ∀ v < userPages, (s1.tbl np.pagetable).pte v = none := by
      intro v hv
      apply hnpok.none v _ hv
      rw [hsz0]
      exact Nat.zero_le v
    dsimp only
    apply tot_bind
    apply tot_mono (uvmcopy_copied hroots (h1.space hnp) hok hpok.sz_le hnone)
    rintro ok s2 ⟨hk, hhigh, hsucc, hfail⟩
    have hhigh' : ∀ v, userPages ≤ v → (s2.tbl np.pagetable).pte v = procPtes L np.trapframe v :=
      fun v hv => (hhigh v hv).trans (hnpok.high hoknp v hv)
    cases ok with
    | true =>
      apply tot_modify
      apply tot_pure
      apply h1.kept hnp hk
      apply procOk_of_high
      · exact hpok.sz_le
      · exact hhigh'
      · exact (hsucc rfl).1
    | false =>
      have hs2 : Sound L np s1 s2 := by
        refine ⟨hk, procOk_of_high hnpok.sz_le hhigh' fun v _ hv => (hfail rfl).1 v hv⟩
      have h2 := h1.sound hnp hs2
      apply tot_bind
      apply tot_mono (freeproc_tot h2 (by rw [hk.proc, hnp]))
      exact fun _ _ h3 => tot_pure h3

omit h

end Xv6.Vm
