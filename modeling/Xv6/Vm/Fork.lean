import Xv6.Vm.Runs

/-!
# `fork` copies memory

`uvmcopy` gives the child a copy of every page that is mapped in the parent, on pages of its own, or
it fails and gives back what it took. The two processes share no page, so whatever one of them does
later, the memory of the other stays as it is.
-/

namespace Xv6.Vm

open Finset

variable {T : Type} [DecidableEq T] {L : Layout} {s s' s₀ : St T} {r r' old new sz va pa : ℕ}
  {p c : Proc}

/-! ## Tables that share no page -/

/-- The tables at `r` and `r'` are well formed and map different user pages. -/
structure Apart (L : Layout) (r r' : ℕ) (s : St T) : Prop where
  ne : r ≠ r'
  left : Space L r s
  right : Space L r' s
  apart : ∀ pa, (s.tbl r).Maps 0 userPages pa → ¬(s.tbl r').Maps 0 userPages pa

theorem Apart.symm (h : Apart L r r' s) : Apart L r' r s :=
  ⟨h.ne.symm, h.right, h.left, fun pa hr hr' => h.apart pa hr' hr⟩

theorem Space.maps_notMem_free (h : Space L r s) (hm : (s.tbl r).Maps 0 userPages pa) :
    pa ∉ s.free := by
  obtain ⟨k, e, -, -, hk, he, rfl⟩ := hm
  exact h.notMem_free hk he

/-- A table that is not worked on stays well formed. -/
theorem Space.of_within (h : Space L r' s) (hne : r' ≠ r) (hw : Within r s s') (h' : Space L r s') :
    Space L r' s' := by
  have htbl := hw.tbl r' hne
  have hnodup : s'.free.Nodup := by
    have := h'.nodup
    unfold bag at this
    exact Multiset.coe_nodup.1 (Multiset.nodup_add.1 (Multiset.nodup_add.1 this).1).1
  have hle : bag r' s' ≤ bag r' s := by
    unfold bag
    rw [htbl]
    gcongr
    exact Multiset.le_iff_subset (Multiset.coe_nodup.2 hnodup) |>.2 fun pa => hw.free pa
  exact ⟨by rw [htbl]; exact h.ok, fun pa hpa => h.page pa (Multiset.mem_of_le hle hpa),
    fun pa => (Multiset.count_le_of_le pa hle).trans (h.once pa)⟩

/-- Work within one of the tables changes neither the other one nor its pages. -/
theorem Apart.work (h : Apart L r r' s) (hw : Within r s s') (h' : Space L r s') :
    Apart L r r' s' ∧ s'.tbl r' = s.tbl r' ∧
      ∀ pa, (s.tbl r').Maps 0 userPages pa → s'.mem pa = s.mem pa := by
  have htbl := hw.tbl r' h.ne.symm
  refine ⟨⟨h.ne, h', h.right.of_within h.ne.symm hw h', fun pa hr hr' => ?_⟩, htbl, fun pa hm => ?_⟩
  · rw [htbl] at hr'
    rcases hw.maps pa hr with hm | hf
    · exact h.apart pa hm hr'
    · exact h.right.maps_notMem_free hr' hf
  · exact hw.mem pa (h.right.maps_notMem_free hm) fun hr => h.apart pa hr hm

/-- The states that work of two processes, with tables at `r` and `r'`, leads to. -/
inductive Later (L : Layout) (r r' : ℕ) (s₀ : St T) : St T → Prop
  | refl : Later L r r' s₀ s₀
  | left {s s' : St T} : Later L r r' s₀ s → Within r s s' → Space L r s' → Later L r r' s₀ s'
  | right {s s' : St T} : Later L r r' s₀ s → Within r' s s' → Space L r' s' → Later L r r' s₀ s'

theorem Later.apart (hl : Later L r r' s₀ s) (h : Apart L r r' s₀) : Apart L r r' s := by
  induction hl with
  | refl => exact h
  | left _ hw h' ih => exact (ih.work hw h').1
  | right _ hw h' ih => exact (ih.symm.work hw h').1.symm

/-- A write of `p` does not change what `c` sees. -/
theorem Apart.copyout (h : Apart L p.pagetable c.pagetable s) (hp : ProcOk L (s.tbl p.pagetable) p)
    (hc : c.sz ≤ trapframeVa) (va : ℕ) (src : List UInt8) :
    Tot (copyout L p p.pagetable va src) s fun _ s' =>
      umem s' c = umem s c ∧ Within p.pagetable s s' ∧ Space L p.pagetable s' := by
  apply tot_mono (copyoutLoop_exact src.length le_rfl ⟨h.left, hp⟩)
  rintro ok s' ⟨-, -, hs, hw⟩
  have hsp := h.left.kept hs.toKept
  obtain ⟨-, htbl, hmem⟩ := h.work hw hsp
  exact ⟨umem_of_maps hc htbl hmem, hw, hsp⟩

/-! ## The copy -/

/-- The table at `new` maps copies of exactly the pages below `sz` that the table at `old` maps, each
on a page of its own. -/
structure Duplicate (old new sz : ℕ) (s : St T) : Prop where
  flags : ∀ v < npages sz,
    ((s.tbl new).pte v).map Pte.perm = ((s.tbl old).pte v).map Pte.perm
  bytes : ∀ v < npages sz, ∀ e e', (s.tbl old).pte v = some e → (s.tbl new).pte v = some e' →
    s.mem e'.pa = s.mem e.pa
  above : ∀ v, npages sz ≤ v → v < userPages → (s.tbl new).pte v = none
  apart : ∀ pa, (s.tbl new).Maps 0 userPages pa → pa ∉ pages (s.tbl old) ∧ pa ≠ old
  once : ∀ v < userPages, ∀ w < userPages, ∀ e e', (s.tbl new).pte v = some e →
    (s.tbl new).pte w = some e' → e'.pa = e.pa → w = v

theorem Copied.free_of_maps (h : Copied old new 0 (npages sz) s s')
    (habove : ∀ v, npages sz ≤ v → v < userPages → (s'.tbl new).pte v = .none)
    (hm : (s'.tbl new).Maps 0 userPages pa) : pa ∈ s.free := by
  obtain ⟨v, e', -, hv, -, he', rfl⟩ := hm
  have hlt : v < npages sz := by
    by_contra hge
    rw [habove v (by omega) hv] at he'
    cases he'
  cases he : (s.tbl old).pte v with
  | none =>
    rw [h.none v (Nat.zero_le _) hlt he] at he'
    cases he'
  | some e =>
    obtain ⟨pa, hpa, hpte, -⟩ := h.some v (Nat.zero_le _) hlt e he
    obtain rfl := Option.some.inj (hpte.symm.trans he')
    exact hpa

theorem Copied.within (hk : Kept new s s') (hnone : ∀ v < userPages, (s.tbl new).pte v = .none)
    (habove : ∀ v, npages sz ≤ v → v < userPages → (s'.tbl new).pte v = .none)
    (h : Copied old new 0 (npages sz) s s') : Within new s s' where
  toFrame := hk.toFrame
  free := hk.free_subset fun v hv e he => by
    rw [hnone v hv] at he
    cases he
  mem pa hpa _ := h.mem pa hpa
  maps _ hm := .inr (h.free_of_maps habove hm)

theorem Duplicate.disjoint (h : Duplicate old new sz s) (hm : (s.tbl old).Maps 0 userPages pa) :
    ¬(s.tbl new).Maps 0 userPages pa := by
  intro hm'
  obtain ⟨k, e, -, -, hk, he, rfl⟩ := hm
  exact (h.apart _ hm').1 (mem_pages hk he)

end Xv6.Vm
