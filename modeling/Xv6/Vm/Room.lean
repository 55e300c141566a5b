import Xv6.Vm.Copy
import Xv6.Vm.Stack

/-!
# The pages that growing takes

`uvmalloc` succeeds if and only if there are free pages for the new pages and for the page-table
pages that are missing over them.
-/

namespace Xv6.Vm

open Finset
open Image (Building)

variable {T : Type} [DecidableEq T] {L : Layout} {s s₀ : St T} {r sz : ℕ} {p : Proc}

theorem Ico_eq_insert (k n : ℕ) : Ico k (k + (n + 1)) = insert k (Ico (k + 1) (k + 1 + n)) := by
  ext v
  rw [mem_insert, mem_Ico, mem_Ico]
  omega

theorem uvmallocLoop_need {xperm : Perm} {o : ℕ} (n : ℕ) : ∀ {s : St T} {k : ℕ}, Space L r s → o ≤ k →
    (∀ v, k ≤ v → v < userPages → (s.tbl r).pte v = none) → k + n ≤ userPages →
    Tot (uvmallocLoop L r (o * pgsize) xperm n (k * pgsize)) s fun ok _ =>
      (ok ↔ (s.tbl r).need (Ico k (k + n)) ≤ s.free.length) := by
  induction n with
  | zero =>
    intro s k _ _ _ _
    refine tot_pure ⟨fun _ => ?_, fun _ => rfl⟩
    rw [Nat.add_zero, Ico_self]
    exact Nat.zero_le _
  | succ n ih =>
    intro s k h ho hnone hn
    have hk : k < userPages := by omega
    have hk' : k < 2 ^ 26 := by
      unfold userPages at hk
      omega
    have hksz : k * pgsize ≤ trapframeVa := by
      unfold userPages at hk
      unfold trapframeVa trampolineVa maxva pgsize
      omega
    have hmem : k ∈ Ico k (k + (n + 1)) := mem_Ico.2 ⟨le_rfl, by omega⟩
    have hlow : 1 + (s.tbl r).missing k ≤ (s.tbl r).need (Ico k (k + (n + 1))) := le_need hmem
    -- both errors end by unmapping what is above `o`
    have hfail : ∀ s1 : St T, Space L r s1 → s.free.length < 1 + (s.tbl r).missing k →
        Tot (do
          let _ ← uvmdealloc L r (k * pgsize) (o * pgsize)
          return false : K T Bool) s1 fun ok _ =>
          (ok ↔ (s.tbl r).need (Ico k (k + (n + 1))) ≤ s.free.length) := by
      intro s1 h1 hlt
      apply tot_bind
      apply tot_mono (uvmdealloc_tot h1 hksz)
      intro _ _ _
      exact tot_pure ⟨nofun, fun hle => by omega⟩
    unfold uvmallocLoop
    apply tot_kalloc
    · intro h0
      apply hfail s h
      rw [h0, List.length_nil]
      omega
    · intro pa l hf
      have hlen : s.free.length = l.length + 1 := by rw [hf, List.length_cons]
      apply tot_modify
      apply tot_bind
      have hok : PtOk ((((s.take pa l).setMem pa fun _ => 0).tbl) r) := h.ok
      apply tot_mono (tot_and (mappages_fresh h hf hk (hnone k le_rfl hk) _)
        (mappages_exact hok hk' (hnone k le_rfl hk)))
      rintro ok s1 ⟨⟨hfresh, hlost, -⟩, hiff, hfree⟩
      have hiff : ok ↔ (s.tbl r).missing k ≤ l.length := hiff
      have hfree : ok → l.length = s1.free.length + (s.tbl r).missing k ∧
        (s.tbl r).Over (s1.tbl r) k := hfree
      cases ok with
      | false =>
        obtain ⟨hk1, -, -⟩ := hlost rfl
        rw [if_neg (by simp)]
        apply tot_bind_eq (kfree_ok (h.page pa (mem_bag_of_free (by rw [hf]; exact List.mem_cons_self))))
        apply hfail _ (h.kept hk1)
        by_contra hge
        exact absurd (hiff.2 (by omega)) (by decide)
      | true =>
        have hf1 := hfresh rfl
        obtain ⟨hcount, hover⟩ := hfree rfl
        rw [if_pos rfl, show k * pgsize + pgsize = (k + 1) * pgsize by ring]
        have hnone' : ∀ v, k + 1 ≤ v → v < userPages → (s1.tbl r).pte v = none := by
          intro v hv hv'
          rw [hf1.pte, Function.update_of_ne (by omega : v ≠ k)]
          exact hnone v (by omega) hv'
        apply tot_mono (ih (h.kept hf1.toKept) (by omega) hnone' (by omega))
        intro ok s2 hres
        rw [hres, Ico_eq_insert, hover.need_insert (by rw [mem_Ico]; omega)]
        omega

/-- The stack needs its page, the guard, and the page-table pages over them. -/
theorem noRoom_iff (hf : FreeOk L s₀) (h : Building L p r sz s₀ s) :
    NoRoom L r sz s ↔ s.free.length < (s.tbl r).need (Ico (npages sz) (npages sz + 2)) := by
  have hsz : sz ≤ trapframeVa := h.proc_ok.sz_le
  have hfull := (h.space hf).full_le h.full
  have hround : pgroundup sz = npages sz * pgsize := pgroundup_eq hsz
  have hnew : u64 (pgroundup sz + (userStack + 1) * pgsize) = (npages sz + 2) * pgsize :=
    execStack_size hsz
  have htot : Tot (uvmalloc L r (pgroundup sz) (u64 (pgroundup sz + (userStack + 1) * pgsize))
      { w := true }) s fun sz' _ =>
      (sz' ≠ 0 ↔ (s.tbl r).need (Ico (npages sz) (npages sz + 2)) ≤ s.free.length) := by
    unfold uvmalloc
    rw [hnew, if_neg (by rw [hround]; exact Nat.not_lt.2 (Nat.mul_le_mul_right _ (by omega)))]
    dsimp only
    have hle : pgroundup sz ≤ trapframeVa := by
      rw [hround, trapframeVa_eq]
      exact Nat.mul_le_mul_right _ (npages_le hsz)
    have hcount : ((npages sz + 2) * pgsize - npages sz * pgsize + pgsize - 1) / pgsize = 2 := by
      unfold pgsize
      omega
    rw [pgroundup_eq hle, npages_pgroundup hsz, hcount]
    apply tot_bind
    apply tot_mono (uvmallocLoop_need 2 (k := npages sz) (h.space hf) le_rfl h.proc_ok.none
      (by unfold userPages; omega))
    intro ok s' hok
    rw [← hok]
    have hpos : (npages sz + 2) * pgsize ≠ 0 := by
      unfold pgsize
      omega
    cases ok with
    | true => exact tot_pure ⟨fun _ => rfl, fun _ => hpos⟩
    | false => exact tot_pure ⟨fun hc => absurd rfl hc, nofun⟩
  obtain ⟨sz', s', he, hiff⟩ := htot
  constructor
  · rintro ⟨s'', he'⟩
    obtain ⟨h0, -⟩ := Prod.mk.inj (Except.ok.inj (he.symm.trans he'))
    by_contra hge
    exact hiff.2 (by omega) h0
  · intro hlt
    refine ⟨s', ?_⟩
    rw [he]
    have : sz' = 0 := by
      by_contra hne
      have := hiff.1 hne
      omega
    rw [this]

end Xv6.Vm
