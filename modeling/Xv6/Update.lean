import Mathlib

/-!
# Functions changed at one argument

How a value of a changed function is found: at the argument it was changed at, or where it was
before.
-/

namespace Xv6

open Function

variable {α β γ : Type} [DecidableEq α] {f : α → β} {a b : α} {x y : β}

theorem update_proj_cases (p : β → γ) {y : γ} (h : p (update f a x b) = y) :
    b = a ∧ p x = y ∨ b ≠ a ∧ p (f b) = y := by
  by_cases hb : b = a
  · rw [hb, update_self] at h
    exact .inl ⟨hb, h⟩
  · rw [update_of_ne hb] at h
    exact .inr ⟨hb, h⟩

theorem update_cases (h : update f a x b = y) : b = a ∧ x = y ∨ b ≠ a ∧ f b = y :=
  update_proj_cases id h

/-! The same for functions of two arguments. -/

theorem update_row_cases {δ : Type} {f : α → γ → δ} {g : γ → δ} {d : γ} {y : δ}
    (h : update f a g b d = y) : b = a ∧ g d = y ∨ b ≠ a ∧ f b d = y :=
  update_proj_cases (fun g : γ → δ => g d) h

theorem update_update_cases {δ : Type} [DecidableEq γ] {f : α → γ → δ} {c d : γ} {x y : δ}
    (h : update f a (update (f a) c x) b d = y) :
    (b = a ∧ d = c) ∧ x = y ∨ ¬(b = a ∧ d = c) ∧ f b d = y := by
  obtain ⟨rfl, hd⟩ | ⟨hb, hd⟩ := update_row_cases h
  · exact (update_cases hd).imp (fun h => ⟨⟨rfl, h.1⟩, h.2⟩) fun h => ⟨fun hd => h.1 hd.2, h.2⟩
  · exact .inr ⟨fun hd => hb hd.1, hd⟩

theorem update_of (h : f b = y) (hx : b = a → x = y) : update f a x b = y := by
  by_cases hb : b = a
  · rw [hb, update_self]
    exact hx hb
  · rwa [update_of_ne hb]

theorem update_update_of {δ : Type} [DecidableEq γ] {f : α → γ → δ} {c d : γ} {x y : δ}
    (h : f b d = y) (hx : b = a → d = c → x = y) : update f a (update (f a) c x) b d = y := by
  by_cases hb : b = a
  · subst hb
    rw [update_self]
    exact update_of h (hx rfl)
  · rwa [update_of_ne hb]

/-- A component of the values of a changed function. -/
theorem update_proj (p : β → γ) (f : α → β) (a : α) (x : β) :
    (fun b => p (update f a x b)) = update (fun b => p (f b)) a (p x) := by
  funext b
  by_cases h : b = a
  · subst h
    rw [update_self, update_self]
  · rw [update_of_ne h, update_of_ne h]

end Xv6
