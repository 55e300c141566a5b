import Mathlib

/-!
# Ordered cycles

A linked list that runs through a finite set of nodes in increasing order and from its greatest node
back to the least. Nodes are put in behind their predecessor and taken out again, and a walk along
the links comes to every node.
-/

namespace Xv6

open Finset

variable {α : Type} [LinearOrder α] {next next' : α → α} {F : Finset α} {a x y b : α}

/-- `next` leads from every node of `F` to the next greater one, and from the greatest node to the
least one, `a`. -/
structure Cyclic (next : α → α) (F : Finset α) (a : α) : Prop where
  mem : a ∈ F
  least : ∀ y ∈ F, a ≤ y
  next_mem : ∀ x ∈ F, next x ∈ F
  step : ∀ x ∈ F, (x < next x ∧ ∀ y ∈ F, x < y → next x ≤ y) ∨ (next x = a ∧ ∀ y ∈ F, y ≤ x)

namespace Cyclic

/-- A place for `b` in the cycle: `x` is the greatest node below it. -/
def Before (F : Finset α) (x b : α) : Prop := x ∈ F ∧ x < b ∧ ∀ y ∈ F, y < b → y ≤ x

theorem single (h : next a = a) : Cyclic next {a} a where
  mem := mem_singleton_self a
  least := fun y hy => (mem_singleton.1 hy).ge
  next_mem := by
    intro x hx
    rw [mem_singleton.1 hx, h]
    exact mem_singleton_self a
  step := by
    intro x hx
    rw [mem_singleton.1 hx]
    exact .inr ⟨h, fun y hy => (mem_singleton.1 hy).le⟩

variable (h : Cyclic next F a)

include h

theorem congr (he : ∀ x ∈ F, next' x = next x) : Cyclic next' F a :=
  { h with
    next_mem := fun x hx => he x hx ▸ h.next_mem x hx, step := fun x hx => he x hx ▸ h.step x hx }

theorem lt_of_next_ne (hx : x ∈ F) (hn : next x ≠ a) : x < next x :=
  (h.step x hx).elim And.left fun hw => absurd hw.1 hn

theorem next_ne_self (hx : x ∈ F) (hn : next x ≠ a) : next x ≠ x :=
  (h.lt_of_next_ne hx hn).ne'

/-- The successor of the node before `b` comes after `b`, or is the first node. -/
theorem next_of_before (hb : Before F x b) (hF : b ∉ F) :
    (b < next x ∧ ∀ y ∈ F, b < y → next x ≤ y) ∨ (next x = a ∧ ∀ y ∈ F, y < b) := by
  rcases h.step x hb.1 with ⟨hlt, hy⟩ | ⟨ha, hy⟩
  · left
    constructor
    · rcases lt_trichotomy (next x) b with hn | hn | hn
      · exact absurd (hb.2.2 _ (h.next_mem x hb.1) hn) (not_le.2 hlt)
      · exact absurd (hn ▸ h.next_mem x hb.1) hF
      · exact hn
    · exact fun y hyF hby => hy y hyF (hb.2.1.trans hby)
  · exact .inr ⟨ha, fun y hyF => (hy y hyF).trans_lt hb.2.1⟩

/-- Putting a node behind the one before it. -/
theorem insert (hb : Before F x b) (hF : b ∉ F) (hx' : next' x = b) (hb' : next' b = next x)
    (he : ∀ y ∈ F, y ≠ x → next' y = next y) : Cyclic next' (insert b F) a where
  mem := mem_insert_of_mem h.mem
  least := by
    intro y hy
    rcases mem_insert.1 hy with rfl | hy
    · exact (h.least x hb.1).trans hb.2.1.le
    · exact h.least y hy
  next_mem := by
    intro y hy
    rcases mem_insert.1 hy with rfl | hy
    · rw [hb']
      exact mem_insert_of_mem (h.next_mem x hb.1)
    · by_cases hyx : y = x
      · rw [hyx, hx']
        exact mem_insert_self b F
      · rw [he y hy hyx]
        exact mem_insert_of_mem (h.next_mem y hy)
  step := by
    intro y hy
    rcases mem_insert.1 hy with rfl | hyF
    · rw [hb']
      rcases h.next_of_before hb hF with ⟨hlt, hz⟩ | ⟨ha, hz⟩
      · refine .inl ⟨hlt, fun z hzF hyz => ?_⟩
        exact hz z (mem_of_mem_insert_of_ne hzF hyz.ne') hyz
      · refine .inr ⟨ha, fun z hzF => ?_⟩
        rcases mem_insert.1 hzF with rfl | hzF
        · exact le_rfl
        · exact (hz z hzF).le
    · by_cases hyx : y = x
      · subst hyx
        rw [hx']
        refine .inl ⟨hb.2.1, fun z hzF hyz => ?_⟩
        rcases mem_insert.1 hzF with rfl | hzF
        · exact le_rfl
        · by_contra hlt
          exact absurd (hb.2.2 z hzF (not_le.1 hlt)) (not_le.2 hyz)
      · rw [he y hyF hyx]
        rcases h.step y hyF with ⟨hlt, hz⟩ | ⟨ha, hz⟩
        · refine .inl ⟨hlt, fun z hzF hyz => ?_⟩
          rcases mem_insert.1 hzF with rfl | hzF
          · exact (hz x hb.1 (lt_of_le_of_ne (hb.2.2 y hyF hyz) hyx)).trans hb.2.1.le
          · exact hz z hzF hyz
        · refine .inr ⟨ha, fun z hzF => ?_⟩
          rcases mem_insert.1 hzF with rfl | hzF
          · by_contra hlt
            exact hyx ((hb.2.2 y hyF (not_le.1 hlt)).antisymm (hz x hb.1))
          · exact hz z hzF

/-- Taking out the node behind `x`. -/
theorem erase (hx : x ∈ F) (hn : next x ≠ a) (hx' : next' x = next (next x))
    (he : ∀ y ∈ F, y ≠ x → y ≠ next x → next' y = next y) : Cyclic next' (F.erase (next x)) a := by
  have hlt := h.lt_of_next_ne hx hn
  have hmin : ∀ y ∈ F, x < y → next x ≤ y := (h.step x hx).elim And.right fun hw => absurd hw.1 hn
  have hnF := h.next_mem x hx
  constructor
  · exact mem_erase.2 ⟨hn.symm, h.mem⟩
  · exact fun y hy => h.least y (mem_of_mem_erase hy)
  · intro y hy
    obtain ⟨hyn, hyF⟩ := mem_erase.1 hy
    by_cases hyx : y = x
    · rw [hyx, hx']
      refine mem_erase.2 ⟨?_, h.next_mem _ hnF⟩
      rcases h.step _ hnF with ⟨hl, -⟩ | ⟨ha, -⟩
      · exact hl.ne'
      · exact ha.trans_ne hn.symm
    · rw [he y hyF hyx hyn]
      refine mem_erase.2 ⟨fun hyy => ?_, h.next_mem y hyF⟩
      -- two nodes with the same successor
      rcases h.step y hyF with ⟨hl, hm⟩ | ⟨ha, -⟩
      · rw [hyy] at hl hm
        rcases lt_trichotomy x y with hxy | hxy | hxy
        · exact absurd (hmin y hyF hxy) (not_le.2 hl)
        · exact hyx hxy.symm
        · exact absurd (hm x hx hxy) (not_le.2 hlt)
      · exact hn (hyy ▸ ha)
  · intro y hy
    obtain ⟨hyn, hyF⟩ := mem_erase.1 hy
    by_cases hyx : y = x
    · rw [hyx, hx']
      rcases h.step _ hnF with ⟨hl, hm⟩ | ⟨ha, hm⟩
      · refine .inl ⟨hlt.trans hl, fun z hz hxz => ?_⟩
        obtain ⟨hzn, hzF⟩ := mem_erase.1 hz
        exact hm z hzF (lt_of_le_of_ne (hmin z hzF hxz) (Ne.symm hzn))
      · refine .inr ⟨ha, fun z hz => ?_⟩
        obtain ⟨hzn, hzF⟩ := mem_erase.1 hz
        by_contra hxz
        exact hzn ((hm z hzF).antisymm (hmin z hzF (not_le.1 hxz)))
    · rw [he y hyF hyx hyn]
      rcases h.step y hyF with ⟨hl, hm⟩ | ⟨ha, hm⟩
      · exact .inl ⟨hl, fun z hz hyz => hm z (mem_of_mem_erase hz) hyz⟩
      · exact .inr ⟨ha, fun z hz => hm z (mem_of_mem_erase hz)⟩

/-! ## Walking along the links -/

/-- How many links lead from `x` to `y`, counted by the nodes between them. -/
def dist (F : Finset α) (y x : α) : ℕ :=
  if x ≤ y then (F.filter fun z => x ≤ z ∧ z < y).card
  else (F.filter fun z => x ≤ z ∨ z < y).card

/-- Each step towards `y` shortens the way. -/
theorem dist_next (hx : x ∈ F) (hy : y ∈ F) (hxy : x ≠ y) : dist F y (next x) < dist F y x := by
  unfold dist
  rcases h.step x hx with ⟨hl, hm⟩ | ⟨ha, hm⟩
  · by_cases hle : x ≤ y
    · rw [if_pos hle, if_pos (hm y hy (lt_of_le_of_ne hle hxy))]
      apply card_lt_card
      refine (ssubset_iff_of_subset ?_).2 ⟨x, ?_, ?_⟩
      · intro z hz
        obtain ⟨hzF, h1, h2⟩ := mem_filter.1 hz
        exact mem_filter.2 ⟨hzF, hl.le.trans h1, h2⟩
      · exact mem_filter.2 ⟨hx, le_rfl, lt_of_le_of_ne hle hxy⟩
      · exact fun hz => absurd (mem_filter.1 hz).2.1 (not_le.2 hl)
    · rw [if_neg hle, if_neg fun hn => hle (hl.le.trans hn)]
      apply card_lt_card
      refine (ssubset_iff_of_subset ?_).2 ⟨x, ?_, ?_⟩
      · intro z hz
        obtain ⟨hzF, hz⟩ := mem_filter.1 hz
        exact mem_filter.2 ⟨hzF, hz.imp_left hl.le.trans⟩
      · exact mem_filter.2 ⟨hx, .inl le_rfl⟩
      · intro hz
        rcases (mem_filter.1 hz).2 with h1 | h1
        · exact absurd h1 (not_le.2 hl)
        · exact hle h1.le
  · have hyx : y < x := lt_of_le_of_ne (hm y hy) (Ne.symm hxy)
    rw [ha, if_pos (h.least y hy), if_neg (not_le.2 hyx)]
    apply card_lt_card
    refine (ssubset_iff_of_subset ?_).2 ⟨x, ?_, ?_⟩
    · intro z hz
      obtain ⟨hzF, h1, h2⟩ := mem_filter.1 hz
      exact mem_filter.2 ⟨hzF, .inr h2⟩
    · exact mem_filter.2 ⟨hx, .inl le_rfl⟩
    · exact fun hz => absurd (mem_filter.1 hz).2.2 (not_lt.2 hyx.le)

/-- Induction along the links, up to a node `y`. -/
theorem induction {P : α → Prop} (hy : y ∈ F) (h0 : P y) (hs : ∀ x ∈ F, x ≠ y → P (next x) → P x)
    (hx : x ∈ F) : P x := by
  induction hn : dist F y x using Nat.strong_induction_on generalizing x with
  | h n ih =>
    by_cases hxy : x = y
    · rwa [hxy]
    · have hd := h.dist_next hx hy hxy
      exact hs x hx hxy (ih _ (hn ▸ hd) (h.next_mem x hx) rfl)

/-- The links lead from every node to every other: there is one cycle. -/
theorem reaches (hx : x ∈ F) (hy : y ∈ F) : ∃ k, next^[k] x = y := by
  apply h.induction hy ⟨0, rfl⟩ ?_ hx
  rintro x - - ⟨k, hk⟩
  exact ⟨k + 1, hk⟩

/-- The walk from behind `y` back to `y` comes to every node. -/
theorem walk (hy : y ∈ F) :
    ∃ k, next^[k] (next y) = y ∧ (∀ i < k, next^[i] (next y) ≠ y) ∧
      ∀ z ∈ F, ∃ i ≤ k, next^[i] (next y) = z := by
  classical
  have hn := h.next_mem y hy
  have hex := h.reaches hn hy
  refine ⟨Nat.find hex, Nat.find_spec hex, fun i hi => Nat.find_min hex hi, fun z hz => ?_⟩
  obtain ⟨j, hj⟩ := h.reaches hn hz
  have hp : Function.IsPeriodicPt next (Nat.find hex + 1) (next y) := by
    show next^[Nat.find hex + 1] (next y) = next y
    rw [Function.iterate_succ_apply', Nat.find_spec hex]
  refine ⟨j % (Nat.find hex + 1), Nat.le_of_lt_succ (Nat.mod_lt _ (Nat.succ_pos _)), ?_⟩
  rw [hp.iterate_mod_apply, hj]

theorem iterate_mem (hx : x ∈ F) (k : ℕ) : next^[k] x ∈ F := by
  induction k generalizing x with
  | zero => exact hx
  | succ k ih => exact ih (h.next_mem x hx)

end Cyclic

end Xv6
