import Mathlib

/-!
# Formatted output

`printint` and `printf` of the kernel (`kernel/printf.c`) and of the user library (`user/printf.c`).
The two have the same conversions; they differ in the digits, in the type of the number that
`printint` divides, and in how they print a character.
-/

namespace Xv6.Printf

/-! ## Numerals -/

/-- The numeral of an integer. -/
def numeral (base : ℕ) (v : ℤ) : List Char :=
  if v < 0 then '-' :: Nat.toDigits base v.natAbs else Nat.toDigits base v.natAbs

/-- The value of a digit in either case. -/
def digitValue (c : Char) : ℕ :=
  if c ≤ '9' then c.toNat - '0'.toNat
  else if c ≤ 'F' then c.toNat - 'A'.toNat + 10 else c.toNat - 'a'.toNat + 10

def parseNat (base : ℕ) (s : List Char) : ℕ := s.foldl (fun n c => base * n + digitValue c) 0

/-- The integer that a numeral stands for. -/
def parse (base : ℕ) : List Char → ℤ
  | '-' :: s => -(parseNat base s)
  | s => parseNat base s

/-! ## The source -/

/-- What the two versions differ in: the table of digits, the width of `x` in `printint`, and
`consputc` or `putc`. -/
structure Lib where
  digits : List Char
  width : ℕ
  putc : BitVec 64 → List Char

/-- `consputc`, which has a value for a backspace. -/
def consputc (c : BitVec 64) : List Char :=
  if c = 0x100 then ['\x08', ' ', '\x08'] else [Char.ofNat (c.toNat % 256)]

def kernel : Lib := ⟨"0123456789abcdef".toList, 64, consputc⟩

def user : Lib := ⟨"0123456789ABCDEF".toList, 32, fun c => [Char.ofNat (c.toNat % 256)]⟩

/-- `do buf[i++] = digits[x % base]; while((x /= base) != 0)`. There is room for `room` more
characters in `buf`, and a store past its end fails. The last character comes first. -/
def putDigits (digits : List Char) (base : ℕ) : ℕ → ℕ → List Char → Option (List Char)
  | 0, _, _ => none
  | room + 1, x, buf =>
    let buf := digits.getD (x % base) '\x00' :: buf
    if x / base ≠ 0 then putDigits digits base room (x / base) buf else some buf

/-- The characters that `printint` prints, if it does not store past the end of `buf[20]`. -/
def printint (L : Lib) (xx : BitVec 64) (base : ℕ) (sign : Bool) : Option (List Char) :=
  let neg := sign && xx.slt 0
  let x := (if neg then -xx else xx).setWidth L.width
  (putDigits L.digits base 20 x.toNat []).bind fun buf =>
    if neg then if buf.length < 20 then some ('-' :: buf) else none else some buf

/-- `f` gives the letters of the digits below `base`. -/
structure Letters (base : ℕ) (f : Char → Char) : Prop where
  base_gt : 1 < base
  value : ∀ d < base, digitValue (f (Nat.digitChar d)) = d
  ne_minus : ∀ d < base, f (Nat.digitChar d) ≠ '-'
  minus : f '-' = '-'

theorem letters_lower {base : ℕ} (h : base = 10 ∨ base = 16) : Letters base id := by
  rcases h with rfl | rfl <;> exact ⟨by decide, by decide, by decide, by decide⟩

variable {base : ℕ} {f : Char → Char} {L : Lib} {xx : BitVec 64} {sign : Bool}

theorem Letters.read (h : Letters base f) (x : ℕ) :
    parseNat base ((Nat.toDigits base x).map f) = x ∧ '-' ∉ (Nat.toDigits base x).map f := by
  induction x using Nat.strong_induction_on with
  | _ x ih =>
    by_cases hx : x < base
    · rw [Nat.toDigits_of_lt_base hx]
      refine ⟨?_, fun hm => h.ne_minus x hx (List.mem_singleton.1 hm).symm⟩
      show base * 0 + digitValue (f (Nat.digitChar x)) = x
      rw [h.value x hx, Nat.mul_zero, Nat.zero_add]
    · have hle : base ≤ x := Nat.le_of_not_lt hx
      have hb := h.base_gt
      have hlt : x % base < base := Nat.mod_lt x (by omega)
      obtain ⟨hval, hminus⟩ := ih (x / base) (Nat.div_lt_self (by omega) hb)
      rw [Nat.toDigits_of_base_le hb hle, List.map_append]
      refine ⟨?_, fun hm => ?_⟩
      · unfold parseNat at hval ⊢
        rw [List.foldl_append, hval]
        show base * (x / base) + digitValue (f (Nat.digitChar (x % base))) = x
        rw [h.value _ hlt]
        exact Nat.div_add_mod x base
      · rcases List.mem_append.1 hm with hm | hm
        · exact hminus hm
        · exact h.ne_minus _ hlt (List.mem_singleton.1 hm).symm

theorem parse_eq {s : List Char} (h : '-' ∉ s) : parse base s = parseNat base s := by
  unfold parse
  split
  · exact absurd List.mem_cons_self h
  · rfl

theorem Letters.parse_numeral (h : Letters base f) (v : ℤ) :
    parse base ((numeral base v).map f) = v := by
  obtain ⟨hval, hminus⟩ := h.read v.natAbs
  unfold numeral
  split
  · rw [List.map_cons, h.minus]
    show -((parseNat base _ : ℕ) : ℤ) = v
    rw [hval]
    omega
  · rw [parse_eq hminus, hval]
    omega

/-- The digits of `x`, in the letters of a table. -/
theorem putDigits_eq {digits : List Char} (hb : 1 < base)
    (hf : ∀ d < base, digits.getD d '\x00' = f (Nat.digitChar d)) (room : ℕ) {x : ℕ}
    (hroom : 0 < room) (hx : x < base ^ room) (buf : List Char) :
    putDigits digits base room x buf = some ((Nat.toDigits base x).map f ++ buf) := by
  induction room generalizing x buf with
  | zero => exact absurd hroom (Nat.lt_irrefl 0)
  | succ room ih =>
    have hlt : x % base < base := Nat.mod_lt x (by omega)
    unfold putDigits
    rw [hf _ hlt]
    dsimp only
    by_cases hxb : x < base
    · rw [if_neg (by rw [Nat.div_eq_of_lt hxb]; simp), Nat.mod_eq_of_lt hxb,
        Nat.toDigits_of_lt_base hxb]
      rfl
    · have hle : base ≤ x := Nat.le_of_not_lt hxb
      have hdiv : x / base < base ^ room := Nat.div_lt_of_lt_mul (by rwa [← pow_succ'])
      have hroom' : 0 < room := by
        by_contra h0
        obtain rfl : room = 0 := by omega
        rw [zero_add, pow_one] at hx
        omega
      rw [if_pos (Nat.div_pos hle (by omega)).ne', ih hroom' hdiv, Nat.toDigits_of_base_le hb hle,
        List.map_append, List.append_assoc]
      rfl

/-- The value that `printint` is to print. -/
def value (sign : Bool) (xx : BitVec 64) : ℤ := if sign then xx.toInt else xx.toNat

theorem neg_iff : (sign && xx.slt 0) ↔ value sign xx < 0 := by
  cases sign with
  | false => simp [value]
  | true => simp [value, BitVec.slt]

theorem natAbs_value : (if sign && xx.slt 0 then -xx else xx).toNat = (value sign xx).natAbs := by
  cases sign with
  | false => rfl
  | true =>
    have hx := xx.isLt
    have hint := xx.toInt_eq_toNat_cond
    show (if decide (xx.toInt < 0) = true then -xx else xx).toNat = xx.toInt.natAbs
    split at hint
    next h => rw [if_neg (by simp; omega), hint, Int.natAbs_natCast]
    next h =>
      rw [if_pos (by simp; omega), hint, BitVec.toNat_neg, Nat.mod_eq_of_lt (by omega)]
      omega

theorem natAbs_value_lt : (value sign xx).natAbs < 2 ^ 64 := by
  rw [← natAbs_value]
  exact BitVec.isLt _

theorem natAbs_value_le (h : value sign xx < 0) : (value sign xx).natAbs ≤ 2 ^ 63 := by
  cases sign with
  | false => exact absurd h (by simp [value])
  | true =>
    have := BitVec.le_toInt xx
    simp only [value] at h ⊢
    omega

/-- `printint` is exact for a value that its `x` and its buffer can hold. -/
theorem printint_eq (h : Letters base f)
    (hf : ∀ d < base, L.digits.getD d '\x00' = f (Nat.digitChar d))
    (hw : (value sign xx).natAbs < 2 ^ L.width) (h20 : (value sign xx).natAbs < base ^ 20)
    (h19 : value sign xx < 0 → (value sign xx).natAbs < base ^ 19) :
    printint L xx base sign = some ((numeral base (value sign xx)).map f) := by
  unfold printint
  dsimp only
  rw [BitVec.toNat_setWidth, natAbs_value, Nat.mod_eq_of_lt hw,
    putDigits_eq h.base_gt hf 20 (by omega) h20, List.append_nil]
  show (if (sign && xx.slt 0) = true then _ else _) = _
  unfold numeral
  by_cases hneg : value sign xx < 0
  · have hlen := (Nat.length_toDigits_le_iff h.base_gt (by omega : 0 < 19)).2 (h19 hneg)
    rw [if_pos (neg_iff.2 hneg), if_pos (by rw [List.length_map]; omega), if_pos hneg, List.map_cons,
      h.minus]
  · rw [if_neg fun hc => hneg (neg_iff.1 hc), if_neg hneg]

theorem kernel_letters (hb : base = 10 ∨ base = 16) :
    ∀ d < base, kernel.digits.getD d '\x00' = id (Nat.digitChar d) := by
  rcases hb with rfl | rfl <;> decide

theorem natAbs_value_room (hb : base = 10 ∨ base = 16) (sign : Bool) (xx : BitVec 64) :
    (value sign xx).natAbs < base ^ 20 ∧
      (value sign xx < 0 → (value sign xx).natAbs < base ^ 19) := by
  have hlt : (value sign xx).natAbs < 2 ^ 64 := natAbs_value_lt
  rcases hb with rfl | rfl <;> refine ⟨by omega, fun h => ?_⟩ <;> have := natAbs_value_le h <;> omega

theorem printint_kernel (hb : base = 10 ∨ base = 16) :
    printint kernel xx base sign = some (numeral base (value sign xx)) := by
  obtain ⟨h20, h19⟩ := natAbs_value_room hb sign xx
  rw [printint_eq (letters_lower hb) (kernel_letters hb) natAbs_value_lt h20 h19, List.map_id]

theorem length_numeral (hb : base = 10 ∨ base = 16) :
    (numeral base (value sign xx)).length ≤ 20 := by
  obtain ⟨h20, h19⟩ := natAbs_value_room hb sign xx
  have hgt := (letters_lower hb).base_gt
  unfold numeral
  split
  next h =>
    have := (Nat.length_toDigits_le_iff hgt (by omega : 0 < 19)).2 (h19 h)
    rw [List.length_cons]
    omega
  next h => exact (Nat.length_toDigits_le_iff hgt (by omega)).2 h20

/-- `printint` of the kernel prints the numeral of its argument without leaving `buf[20]`. -/
theorem printint_exact (xx : BitVec 64) (base : ℕ) (hb : base = 10 ∨ base = 16) (sign : Bool) :
    ∃ s, printint kernel xx base sign = some s ∧ s = numeral base (value sign xx) ∧
      s.length ≤ 20 ∧ parse base s = value sign xx ∧
      (s.head? = some '-' ↔ sign = true ∧ xx.toInt < 0) := by
  have hread := (letters_lower hb).parse_numeral (value sign xx)
  have hminus := ((letters_lower hb).read (value sign xx).natAbs).2
  have hneg : sign = true ∧ xx.toInt < 0 ↔ value sign xx < 0 := by cases sign <;> simp [value]
  rw [List.map_id] at hread hminus
  refine ⟨_, printint_kernel hb, rfl, length_numeral hb, hread, ?_⟩
  rw [hneg]
  unfold numeral
  split
  next h => exact iff_of_true rfl h
  next h => exact iff_of_false (fun hc => hminus (List.mem_of_mem_head? hc)) h

/-- The most negative number takes all of the buffer. -/
theorem printint_exact_min :
    printint kernel (BitVec.ofInt 64 (-2 ^ 63)) 10 true = some "-9223372036854775808".toList ∧
      ∃ s, printint kernel (BitVec.ofInt 64 (-2 ^ 63)) 10 true = some s ∧ s.length ≤ 20 := by
  obtain ⟨s, hs, -, hlen, -⟩ := printint_exact (BitVec.ofInt 64 (-2 ^ 63)) 10 (.inl rfl) true
  exact ⟨by decide, s, hs, hlen⟩

/-! ## Conversions -/

/-- A conversion for integers: its letters, its base, whether it is signed and for 64 bits. -/
structure IntConv where
  letters : List Char
  base : ℕ
  sign : Bool
  long : Bool
  deriving DecidableEq

variable {c : IntConv}

/-- The argument as a `long long`. -/
def IntConv.arg (c : IntConv) (a : BitVec 64) : BitVec 64 :=
  if c.long then a else if c.sign then (a.setWidth 32).signExtend 64 else (a.setWidth 32).setWidth 64

end Xv6.Printf
