import Mathlib

/-!
# What a table of slots holds

Slots that are empty or hold one item. `held I f` is the multiset of the items in the slots `I`;
filling or emptying a slot changes it by that item. A conservation law for items that move between
several tables is then an equation of multisets.
-/

namespace Xv6

open Finset

variable {ι α : Type} {I : Finset ι} {f g : ι → Option α} {i : ι}

/-- The numbers below `n`, in a form that is never evaluated. -/
noncomputable def below (n : ℕ) : Finset ℕ := (Set.finite_Iio n).toFinset

theorem mem_below {n k : ℕ} : k ∈ below n ↔ k < n := by
  unfold below
  rw [Set.Finite.mem_toFinset, Set.mem_Iio]

/-- Changing one summand. -/
theorem sum_update_add {M : Type} [AddCommMonoid M] [DecidableEq ι] (h : i ∈ I) (F : ι → M) (x : M) :
    ∑ k ∈ I, Function.update F i x k + F i = ∑ k ∈ I, F k + x := by
  rw [sum_update_of_mem h, sdiff_singleton_eq_erase, ← add_sum_erase I F h]
  abel

/-- The items in the slots `I`. -/
def held (I : Finset ι) (f : ι → Option α) : Multiset α := ∑ i ∈ I, ((f i).toList : Multiset α)

theorem held_congr (h : ∀ i ∈ I, f i = g i) : held I f = held I g := by
  unfold held
  exact sum_congr rfl fun i hi => by rw [h i hi]

theorem held_update [DecidableEq ι] (h : i ∈ I) (x : Option α) :
    held I (Function.update f i x) + ((f i).toList : Multiset α) =
      held I f + (x.toList : Multiset α) := by
  unfold held
  rw [← sum_update_add h (fun k => ((f k).toList : Multiset α))]
  congr 1
  apply sum_congr rfl
  intro k _
  exact Function.apply_update (fun _ (o : Option α) => (o.toList : Multiset α)) f i x k

/-- Filling an empty slot. -/
theorem held_fill [DecidableEq ι] (h : i ∈ I) (hf : f i = none) (a : α) :
    held I (Function.update f i (some a)) = held I f + {a} := by
  have := held_update (f := f) h (some a)
  rw [hf] at this
  simpa using this

theorem held_take [DecidableEq ι] (h : i ∈ I) {a : α} (hf : f i = some a) :
    held I (Function.update f i none) + {a} = held I f := by
  have := held_update (f := f) h none
  rw [hf] at this
  simpa using this

theorem held_update_of_notMem [DecidableEq ι] (h : i ∉ I) (x : Option α) :
    held I (Function.update f i x) = held I f := by
  apply held_congr
  intro k hk
  have hne : k ≠ i := fun he => h (he ▸ hk)
  rw [Function.update_of_ne hne]

theorem held_none (h : ∀ i ∈ I, f i = none) : held I f = 0 := by
  unfold held
  apply sum_eq_zero
  intro i hi
  rw [h i hi]
  rfl

theorem mem_held (h : i ∈ I) {a : α} (hf : f i = some a) : a ∈ held I f := by
  unfold held
  rw [Multiset.mem_sum]
  exact ⟨i, h, by simp [hf]⟩

theorem exists_of_mem_held {a : α} (h : a ∈ held I f) : ∃ i ∈ I, f i = some a := by
  unfold held at h
  rw [Multiset.mem_sum] at h
  obtain ⟨i, hi, hm⟩ := h
  exact ⟨i, hi, Option.mem_toList.1 (Multiset.mem_coe.1 hm)⟩

theorem held_mono (h : ∀ i ∈ I, ∀ a, f i = some a → g i = some a) : held I f ≤ held I g := by
  unfold held
  apply sum_le_sum
  intro i hi
  cases hf : f i with
  | none => exact Multiset.zero_le _
  | some a => rw [h i hi a hf]

theorem eq_of_held_nodup [DecidableEq ι] (hn : (held I f).Nodup) {j : ι} (hi : i ∈ I) (hj : j ∈ I)
    {a : α} (hfi : f i = some a) (hfj : f j = some a) : j = i := by
  by_contra hne
  unfold held at hn
  rw [← add_sum_erase I _ hi] at hn
  have hdis := Multiset.disjoint_of_nodup_add hn
  apply Multiset.disjoint_left.1 hdis (show a ∈ _ by simp [hfi])
  rw [Multiset.mem_sum]
  exact ⟨j, mem_erase.2 ⟨hne, hj⟩, by simp [hfj]⟩

theorem card_le_card_held {J : Finset ι} (h : J ⊆ I) (hf : ∀ i ∈ J, (f i).isSome) :
    #J ≤ (held I f).card := by
  unfold held
  show #J ≤ Multiset.cardHom (∑ i ∈ I, ((f i).toList : Multiset α))
  rw [map_sum]
  calc #J = ∑ i ∈ J, Multiset.cardHom ((f i).toList : Multiset α) := by
        rw [card_eq_sum_ones]
        apply sum_congr rfl
        intro i hi
        obtain ⟨a, ha⟩ := Option.isSome_iff_exists.1 (hf i hi)
        simp [ha]
    _ ≤ _ := sum_le_sum_of_subset h

end Xv6
