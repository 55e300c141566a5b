import Mathlib

/-!
# Parameters and disk blocks

The constants of `param.h` and `fs.h`, and disk blocks as byte strings with a view as an array of
32-bit words (`(uint*)bp->data`).
-/

namespace Xv6

/-- The largest number of blocks one file-system operation writes. -/
def maxOpBlocks : ℕ := 10

def logBlocks : ℕ := maxOpBlocks * 3

def nbuf : ℕ := maxOpBlocks * 3

def rootDev : ℕ := 1

def bsize : ℕ := 1024

/-- The bytes of a block; only the offsets below `bsize` are stored. -/
abbrev Block := ℕ → UInt8

namespace Block

/-- Word `i` of a block, little endian. -/
def word (b : Block) (i : ℕ) : ℕ :=
  (b (4 * i)).toNat + 2 ^ 8 * (b (4 * i + 1)).toNat + 2 ^ 16 * (b (4 * i + 2)).toNat +
    2 ^ 24 * (b (4 * i + 3)).toNat

/-- The block with word `i` replaced by `v`. -/
def setWord (b : Block) (i v : ℕ) : Block := fun p =>
  if p / 4 = i then UInt8.ofNat (v / 2 ^ (8 * (p % 4))) else b p

theorem word_setWord_ne (b : Block) {i j : ℕ} (v : ℕ) (h : j ≠ i) :
    (b.setWord i v).word j = b.word j := by
  unfold word setWord
  rw [if_neg (by omega), if_neg (by omega), if_neg (by omega), if_neg (by omega)]

theorem word_setWord (b : Block) (i : ℕ) {v : ℕ} (hv : v < 2 ^ 32) :
    (b.setWord i v).word i = v := by
  have byte : ∀ k < 4, b.setWord i v (4 * i + k) = UInt8.ofNat (v / 2 ^ (8 * k)) := by
    intro k hk
    unfold setWord
    rw [if_pos (by omega), show (4 * i + k) % 4 = k by omega]
  have h0 := byte 0 (by omega)
  rw [Nat.add_zero] at h0
  unfold word
  rw [h0, byte 1 (by omega), byte 2 (by omega), byte 3 (by omega)]
  simp only [UInt8.toNat_ofNat', Nat.mul_zero, Nat.pow_zero, Nat.div_one, Nat.mul_one]
  omega

end Block

end Xv6
