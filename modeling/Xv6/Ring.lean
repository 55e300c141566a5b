import Mathlib

/-!
# Rings with wrapping counters

A ring of `c` slots is filled at a counter `w` and emptied at a counter `r`. The counters are
unsigned machine integers that are never reset: the slot of a counter is its value modulo `c`, and
the number of items is the difference of the counters, which wraps around with them. The slots do
not get out of step when a counter wraps around because `c` divides the range of the counters.
-/

namespace Xv6.Ring

variable {α : Type} {n c : ℕ} {r w : BitVec n} {d : ℕ → α}

/-- The number of items in the ring. -/
def count (r w : BitVec n) : ℕ := (w - r).toNat

/-- The slot of a counter. -/
def slot (c : ℕ) (i : BitVec n) : ℕ := i.toNat % c

/-- The items, oldest first. -/
def items (c : ℕ) (data : ℕ → α) (r w : BitVec n) : List α :=
  (List.range (count r w)).map fun k => data ((r.toNat + k) % c)

theorem length_items : (items c d r w).length = count r w := by
  unfold items
  rw [List.length_map, List.length_range]

theorem count_self (r : BitVec n) : count r r = 0 := by
  unfold count
  rw [BitVec.sub_self]
  rfl

theorem count_eq_zero : count r w = 0 ↔ r = w := by
  constructor
  · intro h
    have hz : w - r = 0#n := BitVec.eq_of_toNat_eq (by rw [show (w - r).toNat = 0 from h]; rfl)
    exact (sub_eq_zero.1 hz).symm
  · rintro rfl
    exact count_self r

theorem items_self (r : BitVec n) : items c d r r = [] := by
  unfold items
  rw [count_self]
  rfl

/-- What the distance of the counters says about their values. -/
theorem toNat_eq (r w : BitVec n) : w.toNat = (r.toNat + count r w) % 2 ^ n := by
  unfold count
  rw [← BitVec.toNat_add, BitVec.add_comm, BitVec.sub_add_cancel]

theorem count_eq_iff {k : ℕ} (hk : k < 2 ^ n) : count r w = k ↔ w = r + BitVec.ofNat n k := by
  constructor
  · rintro rfl
    unfold count
    rw [BitVec.ofNat_toNat, BitVec.setWidth_eq, BitVec.add_comm, BitVec.sub_add_cancel]
  · rintro rfl
    unfold count
    rw [BitVec.add_comm, BitVec.add_sub_cancel, BitVec.toNat_ofNat, Nat.mod_eq_of_lt hk]

theorem count_push (h : count r w + 1 < 2 ^ n) : count r (w + 1#n) = count r w + 1 := by
  have hw := (count_eq_iff (by omega)).1 (rfl : count r w = count r w)
  rw [count_eq_iff h]
  conv_lhs => rw [hw]
  rw [BitVec.add_assoc, ← BitVec.ofNat_add]

theorem count_pop (h : r ≠ w) : count (r + 1#n) w + 1 = count r w := by
  have hpos : 0 < count r w := Nat.pos_of_ne_zero fun h0 => h (count_eq_zero.1 h0)
  have hlt : count r w < 2 ^ n := (w - r).isLt
  have hw := (count_eq_iff hlt).1 (rfl : count r w = count r w)
  have : count (r + 1#n) w = count r w - 1 := by
    rw [count_eq_iff (by omega), BitVec.add_assoc, ← BitVec.ofNat_add,
      show 1 + (count r w - 1) = count r w by omega]
    exact hw
  omega

/-- The slot to be filled comes after those in use. -/
theorem slot_eq (hc : c ∣ 2 ^ n) : slot c w = (r.toNat + count r w) % c := by
  unfold slot
  rw [toNat_eq r w, Nat.mod_mod_of_dvd _ hc]

/-- Different positions less than `c` apart have different slots. -/
theorem slot_ne {a i k : ℕ} (hik : i < k) (hkc : k - i < c) : (a + i) % c ≠ (a + k) % c := by
  intro he
  have hdvd : c ∣ (a + k) - (a + i) := (Nat.modEq_iff_dvd' (by omega)).1 he
  have := Nat.le_of_dvd (by omega) hdvd
  omega

/-- Writing the slot to be filled does not touch the items. -/
theorem items_write (hc : c ∣ 2 ^ n) (hlt : count r w < c) (x : α) :
    items c (Function.update d (slot c w) x) r w = items c d r w := by
  unfold items
  rw [slot_eq (r := r) hc]
  apply List.map_congr_left
  intro k hk
  exact Function.update_of_ne (slot_ne (List.mem_range.1 hk) (by omega)) ..

theorem items_advance (hc : c ∣ 2 ^ n) (hn : count r w + 1 < 2 ^ n) :
    items c d r (w + 1#n) = items c d r w ++ [d (slot c w)] := by
  unfold items
  rw [count_push hn, List.range_succ, List.map_append, List.map_singleton, slot_eq (r := r) hc]

theorem items_push (hc : c ∣ 2 ^ n) (hlt : count r w < c) (hn : count r w + 1 < 2 ^ n) (x : α) :
    items c (Function.update d (slot c w) x) r (w + 1#n) = items c d r w ++ [x] := by
  rw [items_advance hc hn, items_write hc hlt, Function.update_self]

theorem items_pop (hc : c ∣ 2 ^ n) (h : r ≠ w) :
    items c d r w = d (slot c r) :: items c d (r + 1#n) w := by
  have hslot : ∀ k, ((r + 1#n).toNat + k) % c = (r.toNat + (k + 1)) % c := by
    intro k
    have hmod : (r + 1#n).toNat % c = (r.toNat + 1) % c := by
      rw [BitVec.toNat_add, Nat.mod_mod_of_dvd _ hc]
      rw [BitVec.toNat_ofNat, Nat.add_mod, Nat.mod_mod_of_dvd _ hc, ← Nat.add_mod]
    rw [Nat.add_mod, hmod, ← Nat.add_mod]
    congr 1
    omega
  unfold items
  rw [← count_pop h, List.range_succ_eq_map, List.map_cons, List.map_map]
  congr 1
  apply List.map_congr_left
  intro k _
  exact congrArg d (hslot k).symm

theorem count_back (h : r ≠ w) : count r (w - 1#n) + 1 = count r w := by
  have hpos : 0 < count r w := Nat.pos_of_ne_zero fun h0 => h (count_eq_zero.1 h0)
  have hlt : count r w < 2 ^ n := (w - r).isLt
  have hw := (count_eq_iff hlt).1 (rfl : count r w = count r w)
  have : count r (w - 1#n) = count r w - 1 := by
    rw [count_eq_iff (by omega), sub_eq_iff_eq_add, BitVec.add_assoc, ← BitVec.ofNat_add,
      Nat.sub_add_cancel hpos]
    exact hw
  omega

theorem items_back (hc : c ∣ 2 ^ n) (h : r ≠ w) :
    items c d r w = items c d r (w - 1#n) ++ [d (slot c (w - 1#n))] := by
  have hlt : count r w < 2 ^ n := (w - r).isLt
  rw [← items_advance hc (by rw [count_back h]; exact hlt), BitVec.sub_add_cancel]

/-- The items up to an earlier counter. -/
theorem items_take {v : BitVec n} (h : count r v ≤ count r w) :
    items c d r v = (items c d r w).take (count r v) := by
  unfold items
  rw [← List.map_take, List.take_range, Nat.min_eq_left h]

/-- Two counters in front of a third. -/
theorem count_count {v : BitVec n} (h : count r v ≤ count r w) :
    count v w = count r w - count r v := by
  have hlt : count r w < 2 ^ n := (w - r).isLt
  have hv := (count_eq_iff (by omega)).1 (rfl : count r v = count r v)
  have hw := (count_eq_iff hlt).1 (rfl : count r w = count r w)
  rw [count_eq_iff (by omega)]
  calc w = r + BitVec.ofNat n (count r w) := hw
    _ = r + BitVec.ofNat n (count r v + (count r w - count r v)) := by rw [Nat.add_sub_cancel' h]
    _ = r + BitVec.ofNat n (count r v) + BitVec.ofNat n (count r w - count r v) := by
      rw [BitVec.ofNat_add, BitVec.add_assoc]
    _ = v + BitVec.ofNat n (count r w - count r v) := by rw [← hv]

end Xv6.Ring
