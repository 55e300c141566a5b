import Mathlib

/-!
# Memory, cell by cell

Reading and writing a range of cells of a memory in which some cells cannot be accessed: the access
stops at the first such cell. Each operation may be done in chunks.
-/

namespace Xv6.Cells

variable {β : Type}

/-- Read `n` cells from `a` on; returns whether all could be read, and those before the first that
could not. -/
def read (m : ℕ → Option β) : ℕ → ℕ → Bool × List β
  | _, 0 => (true, [])
  | a, n + 1 =>
    match m a with
    | none => (false, [])
    | some c => ((read m (a + 1) n).1, c :: (read m (a + 1) n).2)

/-- The elements up to the first with `stop`, and whether there is one. -/
def upTo (stop : β → Bool) : List β → Bool × List β
  | [] => (false, [])
  | c :: l => if stop c then (true, [c]) else ((upTo stop l).1, c :: (upTo stop l).2)

/-- Read from `a` on to the first cell with `stop`, but at most `n` cells. -/
def readTo (stop : β → Bool) (m : ℕ → Option β) : ℕ → ℕ → Bool × List β
  | _, 0 => (false, [])
  | a, n + 1 =>
    match m a with
    | none => (false, [])
    | some c =>
      if stop c then (true, [c])
      else ((readTo stop m (a + 1) n).1, c :: (readTo stop m (a + 1) n).2)

/-- The memory with `l` at `a`. -/
def put (m : ℕ → β) (a : ℕ) (l : List β) : ℕ → β := fun i =>
  if a ≤ i then (l[i - a]?).getD (m i) else m i

/-- Write from `a` on, to the first cell that cannot be written. -/
def write (can : ℕ → Bool) : (ℕ → β) → ℕ → List β → Bool × (ℕ → β)
  | m, _, [] => (true, m)
  | m, a, c :: l => if can a then write can (Function.update m a c) (a + 1) l else (false, m)

variable {m : ℕ → Option β} {f : ℕ → β} {stop : β → Bool} {a : ℕ}

theorem range_succ_map (f : ℕ → β) (n : ℕ) :
    (List.range (n + 1)).map f = f 0 :: (List.range n).map fun i => f (i + 1) := by
  rw [List.range_succ_eq_map, List.map_cons, List.map_map]
  rfl

theorem read_none {n : ℕ} (h : m a = none) : read m a (n + 1) = (false, []) := by
  unfold read
  rw [h]

theorem read_some {n : ℕ} {c : β} (h : m a = some c) :
    read m a (n + 1) = ((read m (a + 1) n).1, c :: (read m (a + 1) n).2) := by
  conv_lhs => unfold read
  rw [h]

/-- Reading a first chunk of `n` cells, all of which can be read. -/
theorem read_add (n k : ℕ) : ∀ {a : ℕ} {f : ℕ → β}, (∀ i < n, m (a + i) = some (f i)) →
    read m a (n + k) = ((read m (a + n) k).1, (List.range n).map f ++ (read m (a + n) k).2) := by
  induction n with
  | zero =>
    intro a f _
    rw [Nat.zero_add]
    rfl
  | succ n ih =>
    intro a f h
    have h0 : m a = some (f 0) := h 0 (by omega)
    have ih' := ih (a := a + 1) (f := fun i => f (i + 1)) fun i hi => by
      rw [show a + 1 + i = a + (i + 1) by omega]
      exact h (i + 1) (by omega)
    rw [show n + 1 + k = n + k + 1 by omega, range_succ_map, read_some h0, ih',
      show a + 1 + n = a + (n + 1) by omega]
    rfl

theorem read_of_stop {n k : ℕ} (hk : k ≤ n) (h : ∀ i < k, m (a + i) = some (f i))
    (hs : k < n → m (a + k) = none) : read m a n = (decide (k = n), (List.range k).map f) := by
  have hread := read_add k (n - k) h
  rw [Nat.add_sub_cancel' hk] at hread
  rw [hread]
  cases hz : n - k with
  | zero =>
    rw [decide_eq_true (by omega)]
    exact Prod.ext rfl (List.append_nil _)
  | succ j =>
    rw [read_none (hs (by omega)), decide_eq_false (by omega), List.append_nil]

theorem read_getElem? (n : ℕ) : ∀ a i, i < (read m a n).2.length →
    (read m a n).2[i]? = m (a + i) ∧ m (a + i) ≠ none := by
  induction n with
  | zero => exact fun _ _ h => absurd h (Nat.not_lt_zero _)
  | succ n ih =>
    intro a i hi
    cases h : m a with
    | none =>
      rw [read_none h] at hi
      exact absurd hi (Nat.not_lt_zero _)
    | some c =>
      rw [read_some h] at hi ⊢
      cases i with
      | zero => simp [h]
      | succ i =>
        rw [List.getElem?_cons_succ, show a + (i + 1) = a + 1 + i by omega]
        exact ih (a + 1) i (by simpa using hi)

theorem length_read_of_true (n : ℕ) : ∀ a, (read m a n).1 → (read m a n).2.length = n := by
  induction n with
  | zero => exact fun _ _ => rfl
  | succ n ih =>
    intro a ht
    cases h : m a with
    | none => simp [read_none h] at ht
    | some c =>
      rw [read_some h] at ht ⊢
      exact congrArg Nat.succ (ih (a + 1) ht)

theorem read_stop (n : ℕ) : ∀ a, (read m a n).1 = false →
    (read m a n).2.length < n ∧ m (a + (read m a n).2.length) = none := by
  induction n with
  | zero => exact fun _ h => nomatch h
  | succ n ih =>
    intro a hf
    cases h : m a with
    | none => rw [read_none h]; exact ⟨Nat.succ_pos n, h⟩
    | some c =>
      rw [read_some h] at hf ⊢
      obtain ⟨h1, h2⟩ := ih (a + 1) hf
      refine ⟨Nat.succ_lt_succ h1, ?_⟩
      rw [← h2]
      exact congrArg m (Nat.add_right_comm a _ 1)

theorem readTo_none {n : ℕ} (h : m a = none) : readTo stop m a (n + 1) = (false, []) := by
  unfold readTo
  rw [h]

theorem readTo_some {n : ℕ} {c : β} (h : m a = some c) :
    readTo stop m a (n + 1) = if stop c then (true, [c])
      else ((readTo stop m (a + 1) n).1, c :: (readTo stop m (a + 1) n).2) := by
  conv_lhs => unfold readTo
  rw [h]

theorem length_readTo_le (n : ℕ) : ∀ a, (readTo stop m a n).2.length ≤ n := by
  induction n with
  | zero => exact fun _ => le_rfl
  | succ n ih =>
    intro a
    cases h : m a with
    | none => rw [readTo_none h]; exact Nat.zero_le _
    | some c =>
      rw [readTo_some h]
      split_ifs
      · exact Nat.succ_le_succ (Nat.zero_le n)
      · exact Nat.succ_le_succ (ih (a + 1))

/-- The first cell with `stop` from `a` on is number `k`, and all up to it can be read. -/
def EndsAt (stop : β → Bool) (m : ℕ → Option β) (a k : ℕ) : Prop :=
  (∀ j < k, ∃ c, m (a + j) = some c ∧ stop c = false) ∧ ∃ c, m (a + k) = some c ∧ stop c = true

theorem endsAt_succ {k : ℕ} {c : β} (h : m a = some c) (hs : stop c = false) :
    EndsAt stop m a (k + 1) ↔ EndsAt stop m (a + 1) k := by
  unfold EndsAt
  rw [show a + (k + 1) = a + 1 + k by omega]
  refine and_congr_left fun _ => ⟨fun hj j hlt => ?_, fun hj j hlt => ?_⟩
  · rw [show a + 1 + j = a + (j + 1) by omega]
    exact hj (j + 1) (by omega)
  · cases j with
    | zero => exact ⟨c, h, hs⟩
    | succ j =>
      rw [show a + (j + 1) = a + 1 + j by omega]
      exact hj j (by omega)

theorem readTo_eq_true_iff (n : ℕ) : ∀ a,
    (readTo stop m a n).1 ↔ ∃ k < n, EndsAt stop m a k := by
  induction n with
  | zero => simp [readTo]
  | succ n ih =>
    intro a
    cases h : m a with
    | none =>
      rw [readTo_none h]
      refine ⟨nofun, fun ⟨k, _, hlt, c, hc, _⟩ => ?_⟩
      cases k with
      | zero =>
        rw [Nat.add_zero, h] at hc
        cases hc
      | succ k =>
        obtain ⟨d, hd, -⟩ := hlt 0 (by omega)
        rw [Nat.add_zero, h] at hd
        cases hd
    | some c =>
      rw [readTo_some h]
      by_cases hs : stop c = true
      · rw [if_pos hs]
        exact ⟨fun _ => ⟨0, by omega, by simp, c, h, hs⟩, fun _ => rfl⟩
      · rw [if_neg hs, ih (a + 1)]
        rw [Bool.not_eq_true] at hs
        constructor
        · rintro ⟨k, hk, he⟩
          exact ⟨k + 1, by omega, (endsAt_succ h hs).2 he⟩
        · rintro ⟨k, hk, he⟩
          cases k with
          | zero =>
            obtain ⟨-, d, hd, hstop⟩ := he
            rw [Nat.add_zero, h] at hd
            rw [← Option.some.inj hd, hs] at hstop
            cases hstop
          | succ k => exact ⟨k, by omega, (endsAt_succ h hs).1 he⟩

/-- What is read up to the first cell with `stop`. -/
theorem readTo_of_endsAt (n : ℕ) : ∀ {a k : ℕ}, k < n → EndsAt stop m a k →
    (readTo stop m a n).2.length = k + 1 ∧ ∀ j ≤ k, (readTo stop m a n).2[j]? = m (a + j) := by
  induction n with
  | zero => exact fun h => absurd h (Nat.not_lt_zero _)
  | succ n ih =>
    intro a k hk he
    cases k with
    | zero =>
      obtain ⟨-, c, hc, hs⟩ := he
      rw [Nat.add_zero] at hc
      rw [readTo_some hc, if_pos hs]
      refine ⟨rfl, fun j hj => ?_⟩
      obtain rfl : j = 0 := by omega
      rw [Nat.add_zero, hc]
      rfl
    | succ k =>
      obtain ⟨c, hc, hs⟩ := he.1 0 (by omega)
      rw [Nat.add_zero] at hc
      obtain ⟨hlen, hget⟩ := ih (by omega) ((endsAt_succ hc hs).1 he)
      rw [readTo_some hc, if_neg (by rw [hs]; simp)]
      refine ⟨by rw [List.length_cons, hlen], fun j hj => ?_⟩
      cases j with
      | zero => exact hc.symm
      | succ j =>
        rw [List.getElem?_cons_succ, hget j (by omega), show a + 1 + j = a + (j + 1) by omega]

/-- The first chunk ends the reading if it has the cell with `stop`. -/
theorem readTo_add (stop : β → Bool) (n k : ℕ) : ∀ {a : ℕ} {f : ℕ → β}, (∀ i < n, m (a + i) = some (f i)) →
    readTo stop m a (n + k) =
      if (upTo stop ((List.range n).map f)).1 then upTo stop ((List.range n).map f)
      else ((readTo stop m (a + n) k).1,
        (upTo stop ((List.range n).map f)).2 ++ (readTo stop m (a + n) k).2) := by
  induction n with
  | zero =>
    intro a f _
    rw [Nat.zero_add]
    rfl
  | succ n ih =>
    intro a f h
    have h0 : m a = some (f 0) := h 0 (by omega)
    have ih' := ih (a := a + 1) (f := fun i => f (i + 1)) fun i hi => by
      rw [show a + 1 + i = a + (i + 1) by omega]
      exact h (i + 1) (by omega)
    rw [show n + 1 + k = n + k + 1 by omega, range_succ_map, readTo_some h0]
    unfold upTo
    by_cases hs : stop (f 0) = true
    · rw [if_pos hs, if_pos hs, if_pos rfl]
    · rw [if_neg hs, if_neg hs, ih', show a + 1 + n = a + (n + 1) by omega]
      dsimp only
      split_ifs <;> rfl

theorem put_nil (m : ℕ → β) (a : ℕ) : put m a [] = m := by
  funext i
  unfold put
  split_ifs <;> rfl

theorem put_cons (m : ℕ → β) (a : ℕ) (c : β) (l : List β) :
    put m a (c :: l) = put (Function.update m a c) (a + 1) l := by
  funext i
  unfold put
  by_cases h : i = a
  · subst h
    rw [if_pos le_rfl, if_neg (by omega), Function.update_self, Nat.sub_self]
    rfl
  · rw [Function.update_of_ne h]
    by_cases hle : a ≤ i
    · rw [if_pos hle, if_pos (by omega), show i - a = i - (a + 1) + 1 by omega, List.getElem?_cons_succ]
    · rw [if_neg hle, if_neg (by omega)]

theorem put_of_lt {m : ℕ → β} {l : List β} {i : ℕ} (h : i < a) : put m a l i = m i := if_neg (by omega)

theorem put_of_ge {m : ℕ → β} {l : List β} {i : ℕ} (h : a + l.length ≤ i) : put m a l i = m i := by
  unfold put
  rw [if_pos (by omega), List.getElem?_eq_none (by omega)]
  rfl

theorem put_of_mem {m : ℕ → β} {l : List β} {i : ℕ} {c : β} (h : a ≤ i) (hc : l[i - a]? = some c) :
    put m a l i = c := by
  unfold put
  rw [if_pos h, hc]
  rfl

theorem put_append (m : ℕ → β) (a : ℕ) (l l' : List β) :
    put m a (l ++ l') = put (put m a l) (a + l.length) l' := by
  induction l generalizing m a with
  | nil => rw [put_nil, List.nil_append, List.length_nil, Nat.add_zero]
  | cons c l ih =>
    rw [List.cons_append, put_cons, ih, put_cons, List.length_cons,
      show a + 1 + l.length = a + (l.length + 1) by omega]

theorem write_false {can : ℕ → Bool} {m : ℕ → β} {c : β} {l : List β} (h : can a = false) :
    write can m a (c :: l) = (false, m) := by
  unfold write
  rw [h]
  rfl

theorem write_append {can : ℕ → Bool} (l l' : List β) : ∀ {m : ℕ → β} {a : ℕ},
    (∀ i < l.length, can (a + i)) →
    write can m a (l ++ l') = write can (put m a l) (a + l.length) l' := by
  induction l with
  | nil =>
    intro m a _
    rw [put_nil]
    rfl
  | cons c l ih =>
    intro m a h
    have h0 : can a := h 0 (by simp)
    rw [List.cons_append, put_cons, List.length_cons]
    conv_lhs => unfold write
    rw [h0, if_pos rfl, ih fun i hi => by
      rw [show a + 1 + i = a + (i + 1) by omega]
      exact h (i + 1) (by simpa using hi)]
    rw [show a + 1 + l.length = a + (l.length + 1) by omega]

theorem write_of_stop {can : ℕ → Bool} {m : ℕ → β} {l : List β} {k : ℕ} (hk : k ≤ l.length)
    (h : ∀ i < k, can (a + i)) (hs : k < l.length → can (a + k) = false) :
    write can m a l = (decide (k = l.length), put m a (l.take k)) := by
  have hlen : (l.take k).length = k := List.length_take_of_le hk
  have hwrite := write_append (m := m) (a := a) (l.take k) (l.drop k) (by rwa [hlen])
  rw [List.take_append_drop, hlen] at hwrite
  rw [hwrite]
  have hdrop := List.length_drop (i := k) (l := l)
  cases hd : l.drop k with
  | nil =>
    rw [hd, List.length_nil] at hdrop
    rw [decide_eq_true (by omega)]
    rfl
  | cons c l' =>
    rw [hd, List.length_cons] at hdrop
    rw [write_false (hs (by omega)), decide_eq_false (by omega)]

end Xv6.Cells
