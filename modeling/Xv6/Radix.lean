import Mathlib

/-!
# Trees of pages

A tree is stored in pages: `kid a i` is the page that entry `i` of page `a` points to, if there is
one. A page of the tree is known by the path of indices that leads to it, the last index first. In an
unshared tree no page is at the end of two paths.
-/

namespace Xv6.Radix

variable {α ι : Type} {kid kid' : α → ι → Option α} {root a c : α} {i : ι} {p q : List ι} {D : ℕ}

/-- The page at the end of a path. -/
def node (kid : α → ι → Option α) (root : α) : List ι → Option α
  | [] => some root
  | i :: p => (node kid root p).bind fun a => kid a i

/-- No page is at the end of two paths of at most `D` indices. -/
def Unshared (kid : α → ι → Option α) (root : α) (D : ℕ) : Prop :=
  ∀ p q a, p.length ≤ D → q.length ≤ D → node kid root p = some a → node kid root q = some a → p = q

theorem node_cons (h : node kid root p = some a) : node kid root (i :: p) = kid a i := by
  show (node kid root p).bind _ = _
  rw [h]
  rfl

/-- The pages at the ends of the longest paths do not matter. -/
theorem node_congr (h : ∀ p a, p.length < D → node kid root p = some a → ∀ i, kid' a i = kid a i) :
    ∀ q, q.length ≤ D → node kid' root q = node kid root q := by
  intro q
  induction q with
  | nil => exact fun _ => rfl
  | cons k q ih =>
    intro hq
    rw [List.length_cons] at hq
    show (node kid' root q).bind _ = (node kid root q).bind _
    rw [ih (by omega)]
    cases hn : node kid root q with
    | none => rfl
    | some b => exact h q b (by omega) hn k

/-- A new page `c`, without entries, at entry `i` of the page at the end of `p`. -/
structure Adds (kid kid' : α → ι → Option α) (root a c : α) (i : ι) (p : List ι) (D : ℕ) : Prop where
  length : p.length < D
  parent : node kid root p = some a
  empty : kid a i = none
  fresh : ∀ q, q.length ≤ D → node kid root q ≠ some c
  self : kid' a i = some c
  new : ∀ k, kid' c k = none
  other : ∀ b k, b ≠ c → ¬(b = a ∧ k = i) → kid' b k = kid b k

/-- The new page is the only change. -/
theorem Adds.node [DecidableEq ι] (h : Adds kid kid' root a c i p D) (hu : Unshared kid root D) :
    ∀ q, q.length ≤ D →
      Radix.node kid' root q = if q = i :: p then some c else Radix.node kid root q := by
  intro q
  induction q with
  | nil =>
    intro _
    rw [if_neg nofun]
    rfl
  | cons k q ih =>
    intro hq
    rw [List.length_cons] at hq
    show (Radix.node kid' root q).bind _ = _
    rw [ih (by omega)]
    by_cases hqp : q = i :: p
    · -- below the new page there is nothing, as before
      have hne : k :: q ≠ i :: p := fun he => by
        have := congrArg List.length he
        rw [hqp, List.length_cons, List.length_cons] at this
        omega
      have hold : Radix.node kid root (k :: q) = none := by
        show (Radix.node kid root q).bind _ = none
        rw [hqp, node_cons h.parent, h.empty]
        rfl
      rw [if_pos hqp, if_neg hne, hold]
      exact h.new k
    · rw [if_neg hqp]
      cases hn : Radix.node kid root q with
      | none =>
        have hne : k :: q ≠ i :: p := fun he => by
          rw [(List.cons.inj he).2, h.parent] at hn
          cases hn
        rw [if_neg hne]
        show none = (Radix.node kid root q).bind _
        rw [hn]
        rfl
      | some b =>
        have hbc : b ≠ c := fun he => h.fresh q (by omega) (he ▸ hn)
        show kid' b k = _
        by_cases hki : k :: q = i :: p
        · obtain ⟨rfl, rfl⟩ := List.cons.inj hki
          obtain rfl := Option.some.inj (hn.symm.trans h.parent)
          rw [if_pos rfl, h.self]
        · rw [if_neg hki, node_cons hn]
          apply h.other b k hbc
          rintro ⟨rfl, rfl⟩
          exact hki (by rw [hu q p b (by omega) h.length.le hn h.parent])

theorem Adds.unshared [DecidableEq ι] (h : Adds kid kid' root a c i p D) (hu : Unshared kid root D) :
    Unshared kid' root D := by
  intro q₁ q₂ b h₁ h₂ hn₁ hn₂
  rw [h.node hu q₁ h₁] at hn₁
  rw [h.node hu q₂ h₂] at hn₂
  split_ifs at hn₁ hn₂ with he₁ he₂ he₂
  · rw [he₁, he₂]
  · rw [← Option.some.inj hn₁] at hn₂
    exact absurd hn₂ (h.fresh q₂ h₂)
  · rw [← Option.some.inj hn₂] at hn₁
    exact absurd hn₁ (h.fresh q₁ h₁)
  · exact hu q₁ q₂ b h₁ h₂ hn₁ hn₂

end Xv6.Radix
