import Mathlib

/-!
# Strings and memory of the user library

`strchr` and `memmove` of `ulib.c`. A string is the list of bytes from where a pointer points to;
what is read at the end of the list is the terminating `\0`. A buffer is the list of its bytes, and
a pointer into it is an offset.
-/

namespace Xv6.User

def ch (c : Char) : UInt8 := c.toUInt8

def chr (s : List UInt8) (i : ℕ) : UInt8 := s.getD i 0

theorem length_pos_of_chr {s : List UInt8} (h : chr s 0 ≠ 0) : 0 < s.length := by
  cases s with
  | nil => exact absurd rfl h
  | cons b s => exact Nat.succ_pos _

theorem ne_zero_of_notMem {b : UInt8} {s : List UInt8} (h : 0 ∉ b :: s) : b ≠ 0 :=
  fun hb => h (hb ▸ List.mem_cons_self)

/-- Before the end of a string stands no `\0`. -/
theorem chr_eq_zero {s : List UInt8} (h : 0 ∉ s) : chr s 0 = 0 ↔ s = [] := by
  cases s with
  | nil => exact iff_of_true rfl rfl
  | cons b s => exact iff_of_false (ne_zero_of_notMem h) (List.cons_ne_nil b s)

/-- The offset of the first `c` before the end of the string. -/
def strchr : List UInt8 → UInt8 → Option ℕ
  | [], _ => none
  | b :: s, c => if b = 0 then none else if b = c then some 0 else (strchr s c).map (· + 1)

theorem isSome_strchr {s : List UInt8} (h : 0 ∉ s) (c : UInt8) :
    (strchr s c).isSome ↔ c ∈ s := by
  induction s with
  | nil => exact iff_of_false Bool.false_ne_true List.not_mem_nil
  | cons b s ih =>
    specialize ih fun hs => h (List.mem_cons_of_mem b hs)
    unfold strchr
    rw [if_neg (ne_zero_of_notMem h), List.mem_cons, ← ih]
    split
    next hb => exact iff_of_true rfl (.inl hb.symm)
    next hb =>
      rw [Option.isSome_map]
      exact ⟨.inr, fun hor => hor.resolve_left fun hc => hb hc.symm⟩

/-! ## memmove -/

/-- The loop that copies upwards, for a source after the destination. -/
def moveUp (buf : List UInt8) (dst src : ℕ) : ℕ → List UInt8
  | 0 => buf
  | n + 1 => moveUp (buf.set dst (buf.getD src 0)) (dst + 1) (src + 1) n

/-- The loop that copies downwards, from the ends of the two ranges. -/
def moveDown (buf : List UInt8) (dst src : ℕ) : ℕ → List UInt8
  | 0 => buf
  | n + 1 => moveDown (buf.set (dst + n) (buf.getD (src + n) 0)) dst src n

/-- Copies `n` bytes within a buffer; the ranges may overlap. -/
def memmove (buf : List UInt8) (dst src n : ℕ) : List UInt8 :=
  if src > dst then moveUp buf dst src n else moveDown buf dst src n

theorem getD_set (l : List UInt8) {i : ℕ} (hi : i < l.length) (b : UInt8) (j : ℕ) :
    (l.set i b).getD j 0 = if j = i then b else l.getD j 0 := by
  rw [List.getD_eq_getElem?_getD, List.getD_eq_getElem?_getD, List.getElem?_set]
  by_cases h : i = j
  · rw [if_pos h, if_pos hi, if_pos h.symm]
    rfl
  · rw [if_neg h, if_neg (Ne.symm h)]

/-- Copying upwards never overwrites a byte that is still to be read. -/
theorem moveUp_getD {buf : List UInt8} {dst src n : ℕ} (h : dst < src) (hn : src + n ≤ buf.length)
    (i : ℕ) : (moveUp buf dst src n).getD i 0 =
      if dst ≤ i ∧ i < dst + n then buf.getD (src + (i - dst)) 0 else buf.getD i 0 := by
  induction n generalizing buf dst src with
  | zero => exact (if_neg (by omega)).symm
  | succ n ih =>
    have hd : dst < buf.length := by omega
    show (moveUp (buf.set dst (buf.getD src 0)) (dst + 1) (src + 1) n).getD i 0 = _
    rw [ih (by omega) (by rw [List.length_set]; omega), getD_set buf hd, getD_set buf hd]
    by_cases hi : i = dst
    · subst hi
      rw [if_neg (by omega), if_pos rfl, if_pos (by omega), Nat.sub_self, Nat.add_zero]
    · by_cases hr : dst + 1 ≤ i ∧ i < dst + 1 + n
      · rw [if_pos hr, if_neg (by omega), if_pos (by omega)]
        congr 1
        omega
      · rw [if_neg hr, if_neg hi, if_neg (by omega)]

/-- Copying downwards never overwrites a byte that is still to be read. -/
theorem moveDown_getD {buf : List UInt8} {dst src n : ℕ} (h : src ≤ dst)
    (hn : dst + n ≤ buf.length) (i : ℕ) : (moveDown buf dst src n).getD i 0 =
      if dst ≤ i ∧ i < dst + n then buf.getD (src + (i - dst)) 0 else buf.getD i 0 := by
  induction n generalizing buf with
  | zero => exact (if_neg (by omega)).symm
  | succ n ih =>
    have hd : dst + n < buf.length := by omega
    show (moveDown (buf.set (dst + n) (buf.getD (src + n) 0)) dst src n).getD i 0 = _
    rw [ih (by rw [List.length_set]; omega), getD_set buf hd, getD_set buf hd]
    by_cases hi : i = dst + n
    · subst hi
      rw [if_neg (by omega), if_pos rfl, if_pos (by omega), Nat.add_sub_cancel_left]
    · by_cases hr : dst ≤ i ∧ i < dst + n
      · rw [if_pos hr, if_neg (by omega), if_pos (by omega)]
      · rw [if_neg hr, if_neg hi, if_neg (by omega)]

theorem memmove_getD {buf : List UInt8} {dst src n : ℕ} (hs : src + n ≤ buf.length)
    (hd : dst + n ≤ buf.length) (i : ℕ) : (memmove buf dst src n).getD i 0 =
      if dst ≤ i ∧ i < dst + n then buf.getD (src + (i - dst)) 0 else buf.getD i 0 := by
  unfold memmove
  split
  next h => exact moveUp_getD h hs i
  next h => exact moveDown_getD (by omega) hd i

end Xv6.User
