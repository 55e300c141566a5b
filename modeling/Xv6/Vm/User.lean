import Xv6.Cells
import Xv6.Vm.Access

/-!
# User memory

`umem s p` is the memory that the process `p` sees: a page below its size that is not mapped yet
counts as a zeroed page.
-/

namespace Xv6.Vm

open Function Finset

variable {T : Type} [DecidableEq T] {L : Layout} {s s' : St T} {v va pa : ℕ} {e : Pte} {p c : Proc}

/-- The memory of a process, byte by byte. -/
@[ext] structure UMem where
  /-- The permissions, for the addresses below the size. -/
  perm : ℕ → Option Perm
  byte : ℕ → UInt8

namespace UMem

/-- The byte at `a`, if user code may access it. -/
def get (m : UMem) (a : ℕ) : Option UInt8 :=
  (m.perm a).bind fun q => if q.u then some (m.byte a) else none

/-- User code may write at `a`. -/
def can (m : UMem) (a : ℕ) : Bool := (m.perm a).any fun q => q.u && q.w

def read (m : UMem) (va len : ℕ) : Bool × List UInt8 := Cells.read m.get va len

def readStr (m : UMem) (va max : ℕ) : Bool × List UInt8 := Cells.readTo (· == 0) m.get va max

def write (m : UMem) (va : ℕ) (src : List UInt8) : Bool × UMem :=
  ((Cells.write m.can m.byte va src).1, { m with byte := (Cells.write m.can m.byte va src).2 })

end UMem

/-- The permissions of a page that `vmfault` maps. -/
def lazyPerm : Perm := { w := true, u := true, r := true }

/-- What the process `p` sees. -/
def umem (s : St T) (p : Proc) : UMem where
  perm a :=
    if a / pgsize < npages p.sz then
      some (((s.tbl p.pagetable).pte (a / pgsize)).elim lazyPerm Pte.perm)
    else none
  byte a :=
    if a / pgsize < npages p.sz then
      ((s.tbl p.pagetable).pte (a / pgsize)).elim 0 fun e => s.mem e.pa (a % pgsize)
    else 0

/-- The address space of `p` is well formed. -/
structure AddrSpace (L : Layout) (p : Proc) (s : St T) : Prop where
  space : Space L p.pagetable s
  proc_ok : ProcOk L (s.tbl p.pagetable) p

theorem AddrSpace.sound (h : AddrSpace L p s) (hs : Sound L p s s') : AddrSpace L p s' :=
  ⟨h.space.kept hs.toKept, hs.proc_ok⟩

theorem npages_le_iff {sz : ℕ} : npages sz ≤ v ↔ sz ≤ v * pgsize := by
  unfold npages pgsize
  omega

theorem AddrSpace.lt_userPages (h : AddrSpace L p s) (hv : v < npages p.sz) : v < userPages :=
  hv.trans_le (npages_le h.proc_ok.sz_le)

/-- A mapped page is not free. -/
theorem AddrSpace.notMem_free (h : AddrSpace L p s) (hv : v < npages p.sz)
    (he : (s.tbl p.pagetable).pte v = some e) : e.pa ∉ s.free :=
  h.space.notMem_free (h.lt_userPages hv) he

theorem AddrSpace.pa_inj (h : AddrSpace L p s) {w : ℕ} {f : Pte} (hv : v < npages p.sz)
    (hw : w < npages p.sz) (he : (s.tbl p.pagetable).pte v = some e)
    (hf : (s.tbl p.pagetable).pte w = some f) (hpa : f.pa = e.pa) : w = v :=
  h.space.pa_inj (h.lt_userPages hv) (h.lt_userPages hw) he hf hpa

theorem AddrSpace.pa_ne_zero (h : AddrSpace L p s) (hv : v < npages p.sz)
    (he : (s.tbl p.pagetable).pte v = some e) : e.pa ≠ 0 :=
  (h.space.page _ (mem_bag_of_pte (h.lt_userPages hv) he)).ne_zero

theorem AddrSpace.of_userPa (h : AddrSpace L p s) (hne : userPa (s.tbl p.pagetable) v ≠ 0) :
    v < npages p.sz ∧ ∃ e, (s.tbl p.pagetable).pte v = some e ∧
      e.pa = userPa (s.tbl p.pagetable) v ∧ e.perm.u := by
  unfold userPa at hne ⊢
  cases he : (s.tbl p.pagetable).pte v with
  | none =>
    rw [he] at hne
    exact absurd rfl hne
  | some e =>
    rw [he] at hne
    dsimp only [Option.elim] at hne ⊢
    have hu : e.perm.u := by
      by_contra hu
      exact hne (if_neg hu)
    rw [if_pos hu]
    refine ⟨?_, e, rfl, rfl, hu⟩
    rcases h.proc_ok.leaf v (by rw [he]; rfl) with hlt | hge
    · exact hlt
    · rw [h.proc_ok.high h.space.ok v hge] at he
      unfold procPtes at he
      by_cases h0 : v = userPages
      · rw [h0, update_self] at he
        cases he
        cases hu
      rw [update_of_ne h0] at he
      rcases update_cases he with ⟨-, he⟩ | ⟨-, he⟩
      · cases he
        cases hu
      · cases he

theorem byte_of_pte (hv : v < npages p.sz) (he : (s.tbl p.pagetable).pte v = some e) {a : ℕ}
    (ha : a / pgsize = v) : (umem s p).byte a = s.mem e.pa (a % pgsize) := by
  subst ha
  unfold umem
  dsimp only
  rw [if_pos hv, he]
  rfl

/-- What a process sees depends on its table and its pages only. -/
theorem umem_of_maps (hc : c.sz ≤ trapframeVa) (htbl : s'.tbl c.pagetable = s.tbl c.pagetable)
    (hmem : ∀ pa, (s.tbl c.pagetable).Maps 0 userPages pa → s'.mem pa = s.mem pa) :
    umem s' c = umem s c := by
  unfold umem
  rw [htbl]
  congr 1
  funext a
  split_ifs with ha
  · cases he : (s.tbl c.pagetable).pte (a / pgsize) with
    | none => rfl
    | some e =>
      have hlt := lt_of_lt_of_le ha (npages_le hc)
      dsimp only [Option.elim]
      rw [hmem e.pa ⟨_, e, Nat.zero_le _, hlt, hlt, he, rfl⟩]
  · rfl

theorem umem_setMem (h : AddrSpace L p s) (hv : va / pgsize < npages p.sz)
    (he : (s.tbl p.pagetable).pte (va / pgsize) = some e) {l : List UInt8}
    (hl : va % pgsize + l.length ≤ pgsize) :
    umem (s.setMem e.pa (putBytes (s.mem e.pa) (va % pgsize) l)) p =
      { umem s p with byte := Cells.put (umem s p).byte va l } := by
  apply UMem.ext
  · rfl
  · funext a
    show (if a / pgsize < npages p.sz then _ else 0) = Cells.put (umem s p).byte va l a
    have hbyte : ∀ {f : Pte}, a / pgsize < npages p.sz →
        (s.tbl p.pagetable).pte (a / pgsize) = some f →
        (umem s p).byte a = s.mem f.pa (a % pgsize) := by
      intro f hlt hf
      unfold umem
      dsimp only
      rw [if_pos hlt, hf]
      rfl
    -- an address of another page is outside of what is written
    have hother : a / pgsize ≠ va / pgsize → Cells.put (umem s p).byte va l a = (umem s p).byte a := by
      intro hne
      by_cases hlt : a < va
      · exact Cells.put_of_lt hlt
      · apply Cells.put_of_ge
        unfold pgsize at *
        omega
    by_cases ha : a / pgsize = va / pgsize
    · rw [if_pos (by omega), ha]
      show Option.elim ((s.tbl p.pagetable).pte (va / pgsize)) _ _ = _
      rw [he]
      show update s.mem e.pa _ e.pa (a % pgsize) = _
      rw [update_self]
      unfold putBytes Cells.put
      rw [hbyte (by omega) (by rw [ha, he])]
      by_cases hle : va ≤ a
      · have hsub : a % pgsize - va % pgsize = a - va := by
          unfold pgsize at *
          omega
        rw [if_pos hle, if_pos (by unfold pgsize at *; omega), hsub]
      · rw [if_neg hle, if_neg (by unfold pgsize at *; omega)]
    · rw [hother ha]
      by_cases hlt : a / pgsize < npages p.sz
      · rw [if_pos hlt]
        show Option.elim ((s.tbl p.pagetable).pte (a / pgsize)) _ _ = _
        cases hf : (s.tbl p.pagetable).pte (a / pgsize) with
        | none =>
          unfold umem
          dsimp only
          rw [if_pos hlt, hf]
          rfl
        | some f =>
          have hne : f.pa ≠ e.pa := fun hpa => ha (h.pa_inj hv hlt he hf hpa)
          rw [hbyte hlt hf]
          show update s.mem e.pa _ f.pa (a % pgsize) = _
          rw [update_of_ne hne]
      · rw [if_neg hlt]
        unfold umem
        dsimp only
        rw [if_neg hlt]

theorem can_of_pte (hv : v < npages p.sz) (he : (s.tbl p.pagetable).pte v = some e)
    (hu : e.perm.u) {a : ℕ} (ha : a / pgsize = v) : (umem s p).can a = e.perm.w := by
  unfold UMem.can umem
  dsimp only
  rw [ha, if_pos hv, he]
  show (e.perm.u && e.perm.w) = e.perm.w
  rw [hu, Bool.true_and]

theorem can_of_get {m : UMem} {a : ℕ} (h : m.get a = none) : m.can a = false := by
  unfold UMem.get at h
  unfold UMem.can
  cases hq : m.perm a with
  | none => rfl
  | some q =>
    rw [hq] at h
    by_cases hu : q.u = true
    · rw [Option.bind_some, if_pos hu] at h
      cases h
    · show (q.u && q.w) = false
      rw [Bool.not_eq_true] at hu
      rw [hu, Bool.false_and]

theorem umem_fresh (h : AddrSpace L p s)
    (hnone : (s.tbl p.pagetable).pte v = none)
    (hf : Fresh p.pagetable v ⟨lazyPerm, pa⟩ (fun _ => 0) s s') : umem s' p = umem s p := by
  apply UMem.ext
  · funext a
    unfold umem
    dsimp only
    rw [hf.pte]
    by_cases ha : a / pgsize = v
    · rw [ha, update_self, hnone]
      rfl
    · rw [update_of_ne ha]
  · funext a
    unfold umem
    dsimp only
    rw [hf.pte]
    split_ifs with hlt
    · by_cases ha : a / pgsize = v
      · rw [ha, update_self, hnone]
        show s'.mem pa _ = 0
        rw [hf.page]
      · rw [update_of_ne ha]
        cases he : (s.tbl p.pagetable).pte (a / pgsize) with
        | none => rfl
        | some e =>
          show s'.mem e.pa _ = s.mem e.pa _
          rw [hf.mem _ (h.notMem_free hlt he)]
    · rfl

theorem get_of_pte (hv : v < npages p.sz) (he : (s.tbl p.pagetable).pte v = some e)
    (hu : e.perm.u) {a : ℕ} (ha : a / pgsize = v) :
    (umem s p).get a = some (s.mem e.pa (a % pgsize)) := by
  unfold UMem.get umem
  dsimp only
  rw [ha, if_pos hv, if_pos hv, he]
  exact if_pos hu

theorem get_of_ge {a : ℕ} (ha : npages p.sz ≤ a / pgsize) : (umem s p).get a = none := by
  unfold UMem.get umem
  dsimp only
  rw [if_neg (by omega)]
  rfl

theorem get_of_not_user (he : (s.tbl p.pagetable).pte v = some e) (hu : e.perm.u ≠ true) {a : ℕ}
    (ha : a / pgsize = v) : (umem s p).get a = none := by
  by_cases hv : v < npages p.sz
  · unfold UMem.get umem
    dsimp only
    rw [ha, if_pos hv, he]
    exact if_neg hu
  · exact get_of_ge (by omega)

/-- A page that is not mapped yet is all zeros to user code. -/
theorem get_of_lazy (hv : va / pgsize < npages p.sz)
    (hnone : (s.tbl p.pagetable).pte (va / pgsize) = none) : (umem s p).get va = some 0 := by
  unfold UMem.get umem
  dsimp only
  rw [if_pos hv, if_pos hv, hnone]
  rfl

end Xv6.Vm
