import Xv6.Vm.Life

/-!
# The address space of a process

The address space of a process `p` is well formed (`ProcOk`): only pages below its size are mapped,
and the trapframe and the trampoline. `walkaddr` and `ismapped` look up its table.
-/

namespace Xv6.Vm

open Function Finset

variable {T : Type} [DecidableEq T] {L : Layout} {s s' s'' : St T} {r va pa v : ℕ} {t : Tbl}
  {e : Pte} {p : Proc}

/-- The table `t` is that of `p`. -/
structure ProcOk (L : Layout) (t : Tbl) (p : Proc) : Prop where
  sz_le : p.sz ≤ trapframeVa
  trampoline : t.pte (userPages + 1) = some ⟨{ r := true, x := true }, L.trampoline⟩
  trapframe : t.pte userPages = some ⟨{ r := true, w := true }, p.trapframe⟩
  leaf : ∀ v, (t.pte v).isSome → v < npages p.sz ∨ userPages ≤ v

/-- Only the leaf entries matter. -/
theorem ProcOk.congr {t' : Tbl} (h : ProcOk L t p) (hpte : t'.pte = t.pte) : ProcOk L t' p where
  sz_le := h.sz_le
  trampoline := by rw [hpte]; exact h.trampoline
  trapframe := by rw [hpte]; exact h.trapframe
  leaf := by rw [hpte]; exact h.leaf

/-- The physical address that `walkaddr` finds for page `v`, or 0. -/
def userPa (t : Tbl) (v : ℕ) : ℕ := (t.pte v).elim 0 fun e => if e.perm.u then e.pa else 0

theorem PageOk.ne_zero (h : PageOk L pa) : pa ≠ 0 := by
  have := L.base_le
  have := h.2.1
  unfold kernBase at *
  omega

theorem div_pgsize (v : ℕ) : v * pgsize / pgsize = v :=
  Nat.mul_div_cancel _ (by unfold pgsize; norm_num)

theorem mul_pgsize_lt (hv : v < 2 ^ 26) : v * pgsize < maxva := by
  unfold maxva pgsize
  omega

theorem PtOk.pte_none (h : PtOk t) (hv : 2 ^ 26 ≤ v) : t.pte v = none := by
  by_contra hne
  have := h.pte_lt (Option.isSome_iff_ne_none.2 hne)
  omega

/-- Where `walk` finds no entry, nothing is mapped. -/
theorem PtOk.pte_none_of_low (h : PtOk t) (hl : t.low (va / 2 ^ 21) = none) :
    t.pte (va / pgsize) = none := by
  by_contra hne
  have := h.pte_low _ (Option.isSome_iff_ne_none.2 hne)
  rw [div_pgsize_div, hl] at this
  exact absurd this (by simp)

theorem PtOk.low_of_pte (h : PtOk t) (hp : (t.pte (va / pgsize)).isSome) :
    (t.low (va / 2 ^ 21)).isSome := by
  rw [← div_pgsize_div]
  exact h.pte_low _ hp

theorem walkaddr_eq (h : PtOk (s.tbl r)) : walkaddr r va s = .ok (userPa (s.tbl r) (va / pgsize), s) := by
  unfold walkaddr
  split_ifs with hge
  · have hnone : (s.tbl r).pte (va / pgsize) = none := by
      apply h.pte_none
      unfold maxva at hge
      unfold pgsize
      omega
    unfold userPa
    rw [hnone]
    rfl
  · rw [bind_ok (walk_false h (by omega))]
    cases hl : (s.tbl r).low (va / 2 ^ 21) with
    | none =>
      unfold userPa
      rw [h.pte_none_of_low hl]
      rfl
    | some m =>
      rw [Option.isSome_some, if_pos rfl, bind_ok rfl]
      unfold userPa
      cases (s.tbl r).pte (va / pgsize) with
      | none => rfl
      | some e =>
        dsimp only [Option.elim]
        split_ifs <;> rfl

theorem ismapped_eq (h : PtOk (s.tbl r)) (hva : va < maxva) :
    ismapped r va s = .ok (((s.tbl r).pte (va / pgsize)).isSome, s) := by
  unfold ismapped
  rw [bind_ok (walk_false h hva)]
  cases hl : (s.tbl r).low (va / 2 ^ 21) with
  | none =>
    rw [h.pte_none_of_low hl]
    rfl
  | some m => rfl

theorem lt_npages {sz : ℕ} (h : v * pgsize < sz) : v < npages sz := by
  unfold npages pgsize at *
  omega

/-! ## The top of the table -/

theorem procPtes_none (trapframe : ℕ) (hv : v < userPages) : procPtes L trapframe v = none := by
  unfold procPtes
  rw [update_of_ne (by omega), update_of_ne (by omega)]

theorem procOk_of_high {tbl : Tbl} (hsz : p.sz ≤ trapframeVa)
    (hhigh : ∀ v, userPages ≤ v → tbl.pte v = procPtes L p.trapframe v)
    (hnone : ∀ v, npages p.sz ≤ v → v < userPages → tbl.pte v = none) : ProcOk L tbl p where
  sz_le := hsz
  trampoline := by
    rw [hhigh _ (by omega)]
    unfold procPtes
    rw [update_of_ne (by omega), update_self]
  trapframe := by
    rw [hhigh _ le_rfl]
    exact update_self ..
  leaf v hv := by
    by_contra hn
    rw [hnone v (by omega) (by omega)] at hv
    exact absurd hv (by simp)

theorem ProcOk.high {tbl : Tbl} (hok : PtOk tbl) (h : ProcOk L tbl p) :
    ∀ v, userPages ≤ v → tbl.pte v = procPtes L p.trapframe v := by
  intro v hv
  by_cases h0 : v = userPages
  · rw [h0, h.trapframe]
    unfold procPtes
    rw [update_self]
  by_cases h1 : v = userPages + 1
  · rw [h1, h.trampoline]
    unfold procPtes
    rw [update_of_ne (by omega), update_self]
  · rw [hok.pte_none (by unfold userPages at *; omega)]
    unfold procPtes
    rw [update_of_ne h0, update_of_ne h1]

theorem ProcOk.none {tbl : Tbl} (h : ProcOk L tbl p) :
    ∀ v, npages p.sz ≤ v → v < userPages → tbl.pte v = none := by
  intro v hv hv'
  by_contra hne
  have := h.leaf v (Option.isSome_iff_ne_none.2 hne)
  omega

/-! ## Work on an address space -/

/-- The address space of `p` stays well formed. -/
structure Sound (L : Layout) (p : Proc) (s s' : St T) : Prop extends Kept p.pagetable s s' where
  proc_ok : ProcOk L (s'.tbl p.pagetable) p

theorem Sound.refl (h : Space L p.pagetable s) (hp : ProcOk L (s.tbl p.pagetable) p) :
    Sound L p s s := ⟨.refl h.ok, hp⟩

theorem Sound.trans (h : Sound L p s s') (h' : Sound L p s' s'') : Sound L p s s'' :=
  ⟨h.toKept.trans h'.toKept, h'.proc_ok⟩

theorem Sound.setMem (h : Space L p.pagetable s) (hp : ProcOk L (s.tbl p.pagetable) p) (pa : ℕ)
    (x : Page) : Sound L p s (s.setMem pa x) :=
  ⟨⟨⟨frame_setMem s _ pa x, h.ok, rfl⟩, .refl _⟩, hp⟩

/-- Copying out within one page that is mapped for writing only writes to it. -/
theorem copyout_page {dstva : ℕ} {src : List UInt8} (h : PtOk (s.tbl r)) (hsrc : src ≠ [])
    (hfit : dstva % pgsize + src.length ≤ pgsize) (he : (s.tbl r).pte (dstva / pgsize) = some e)
    (hu : e.perm.u) (hw : e.perm.w) (hpa : e.pa ≠ 0) :
    Tot (copyout L p r dstva src) s fun ok s' => ok ∧
      s' = s.setMem e.pa (putBytes (s.mem e.pa) (dstva % pgsize) src) := by
  have hdown : pgrounddown dstva = dstva / pgsize * pgsize := rfl
  have hdiv : pgrounddown dstva / pgsize = dstva / pgsize := div_pgsize _
  have hlt : dstva / pgsize < 2 ^ 26 := h.pte_lt (by rw [he]; rfl)
  have hmax : pgrounddown dstva < maxva := mul_pgsize_lt hlt
  have hoff : dstva - pgrounddown dstva = dstva % pgsize := by
    rw [hdown, Nat.mul_comm]
    have := Nat.div_add_mod dstva pgsize
    omega
  obtain ⟨c, l, rfl⟩ := List.exists_cons_of_ne_nil hsrc
  have huser : userPa (s.tbl r) (dstva / pgsize) = e.pa := by
    unfold userPa
    rw [he]
    exact if_pos hu
  unfold copyout
  rw [List.length_cons]
  unfold copyoutLoop
  dsimp only
  rw [if_neg (by omega)]
  unfold faultIn
  rw [Kern.bind_assoc]
  apply tot_bind_eq (walkaddr_eq h)
  rw [hdiv, huser, if_neg hpa]
  apply tot_bind_eq rfl
  rw [if_neg hpa]
  apply tot_bind_eq (walk_false h hmax)
  rw [h.low_of_pte (by rw [hdiv, he]; rfl), if_pos rfl]
  apply tot_get
  rw [he]
  dsimp only
  rw [if_pos hw]
  apply tot_modify
  rw [hoff, min_eq_right (by omega), List.drop_length, List.take_length]
  unfold copyoutLoop
  exact tot_pure ⟨rfl, rfl⟩

end Xv6.Vm
