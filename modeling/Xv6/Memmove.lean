import Xv6.User.Ulib

/-!
# memmove

The two versions of `memmove`, of the kernel's `string.c` and of the user library's `ulib.c`, on a
memory of 64-bit addresses. Both have the effect of reading the whole source before writing, and
they choose the direction of the copy by different tests.
-/

namespace Xv6.Memory

open Function

/-- The byte at each address. -/
abbrev Mem := BitVec 64 → UInt8

/-- `while(n-- > 0) *d++ = *s++`. -/
def copyUp (m : Mem) (d s : BitVec 64) : ℕ → Mem
  | 0 => m
  | n + 1 => copyUp (update m d (m s)) (d + 1) (s + 1) n

/-- `while(n-- > 0) *--d = *--s`. -/
def copyDown (m : Mem) (d s : BitVec 64) : ℕ → Mem
  | 0 => m
  | n + 1 => copyDown (update m (d - 1) (m (s - 1))) (d - 1) (s - 1) n

/-- `memmove` of the kernel, where `n` is a `uint`. -/
def Kernel.memmove (m : Mem) (dst src : BitVec 64) (n : BitVec 32) : Mem × BitVec 64 :=
  if n = 0 then (m, dst)
  else
    let len := n.setWidth 64
    if src < dst ∧ src + len > dst then (copyDown m (dst + len) (src + len) n.toNat, dst)
    else (copyUp m dst src n.toNat, dst)

/-- `memmove` of the user library, where `n` is an `int`. -/
def User.memmove (m : Mem) (vdst vsrc : BitVec 64) (n : BitVec 32) : Mem × BitVec 64 :=
  let len := n.signExtend 64
  if vsrc > vdst then (copyUp m vdst vsrc n.toInt.toNat, vdst)
  else (copyDown m (vdst + len) (vsrc + len) n.toInt.toNat, vdst)

/-- The memory after the `n` bytes at `src` have been copied to `dst`. -/
def moved (m : Mem) (dst src : BitVec 64) (n : ℕ) : Mem := fun a =>
  if dst.toNat ≤ a.toNat ∧ a.toNat < dst.toNat + n then m (src + (a - dst)) else m a

variable {m : Mem} {dst src : BitVec 64} {n : ℕ}

/-! ## The two loops -/

/-- Copying upwards never overwrites a byte that is still to be read, unless the destination begins
behind the start of the source and before its end. -/
theorem copyUp_eq (hd : dst.toNat + n ≤ 2 ^ 64) (hs : src.toNat + n ≤ 2 ^ 64)
    (h : dst.toNat ≤ src.toNat ∨ src.toNat + n ≤ dst.toNat) :
    copyUp m dst src n = moved m dst src n := by
  funext a
  induction n generalizing m dst src with
  | zero => exact (if_neg (by omega)).symm
  | succ n ih =>
    have hshift : src + 1 + (a - (dst + 1)) = src + (a - dst) := by bv_omega
    rw [copyUp, ih (by bv_omega) (by bv_omega) (by bv_omega)]
    unfold moved
    rw [hshift]
    by_cases ha : a = dst
    · subst ha
      rw [if_neg (by bv_omega), update_self, if_pos (by omega), BitVec.sub_self, BitVec.add_zero]
    · rw [update_of_ne ha]
      by_cases hr : (dst + 1).toNat ≤ a.toNat ∧ a.toNat < (dst + 1).toNat + n
      · rw [if_pos hr, if_pos (by bv_omega), update_of_ne (by bv_omega)]
      · rw [if_neg hr, if_neg (by bv_omega)]

/-- Copying downwards from the ends of the two ranges never overwrites a byte that is still to be
read, if the destination does not begin before the source. -/
theorem copyDown_eq (hd : dst.toNat + n ≤ 2 ^ 64) (h : src.toNat ≤ dst.toNat) :
    copyDown m (dst + BitVec.ofNat 64 n) (src + BitVec.ofNat 64 n) n = moved m dst src n := by
  funext a
  induction n generalizing m with
  | zero => exact (if_neg (by omega)).symm
  | succ n ih =>
    have hlast : ∀ p : BitVec 64, p + BitVec.ofNat 64 (n + 1) - 1 = p + BitVec.ofNat 64 n := by
      intro p
      bv_omega
    rw [copyDown, hlast, hlast, ih (by omega)]
    unfold moved
    by_cases ha : a = dst + BitVec.ofNat 64 n
    · subst ha
      have hoff : dst + BitVec.ofNat 64 n - dst = BitVec.ofNat 64 n := by bv_omega
      rw [if_neg (by bv_omega), update_self, if_pos (by bv_omega), hoff]
    · rw [update_of_ne ha]
      by_cases hr : dst.toNat ≤ a.toNat ∧ a.toNat < dst.toNat + n
      · rw [if_pos hr, if_pos (by omega), update_of_ne (by bv_omega)]
      · rw [if_neg hr, if_neg (by bv_omega)]

/-! ## The two versions -/

theorem Kernel.memmove_eq {n : BitVec 32} (hd : dst.toNat + n.toNat ≤ 2 ^ 64)
    (hs : src.toNat + n.toNat ≤ 2 ^ 64) :
    Kernel.memmove m dst src n = (moved m dst src n.toNat, dst) := by
  unfold Kernel.memmove
  by_cases h0 : n = 0
  · have hm : moved m dst src n.toNat = m := by
      funext a
      rw [h0]
      exact if_neg (by bv_omega)
    rw [if_pos h0, hm]
  · have hlen : n.setWidth 64 = BitVec.ofNat 64 n.toNat := (BitVec.ofNat_toNat 64 n).symm
    rw [if_neg h0]
    dsimp only
    split
    next h =>
      rw [hlen, copyDown_eq hd (by bv_omega)]
    next h =>
      rw [copyUp_eq hd hs (by bv_omega)]

theorem User.memmove_eq {n : BitVec 32} (hn : 0 ≤ n.toInt) (hd : dst.toNat + n.toNat ≤ 2 ^ 64)
    (hs : src.toNat + n.toNat ≤ 2 ^ 64) :
    User.memmove m dst src n = (moved m dst src n.toNat, dst) := by
  have hmsb : n.msb = false := by
    rw [BitVec.msb_eq_toInt]
    exact decide_eq_false (by omega)
  have hlen : n.signExtend 64 = BitVec.ofNat 64 n.toNat := by
    rw [BitVec.signExtend_eq_setWidth_of_msb_false hmsb, BitVec.ofNat_toNat]
  have hcount : n.toInt.toNat = n.toNat := by
    rw [BitVec.toInt_eq_toNat_of_msb hmsb]
    rfl
  unfold User.memmove
  dsimp only
  rw [hcount, hlen]
  split
  next h => rw [copyUp_eq hd hs (by bv_omega)]
  next h => rw [copyDown_eq hd (by bv_omega)]

/-- A buffer in memory changes as the list of its bytes does. -/
theorem User.memmove_buffer {b : BitVec 64} {buf : List UInt8} (hb : b.toNat + buf.length ≤ 2 ^ 64)
    (hbuf : ∀ i < buf.length, m (b + BitVec.ofNat 64 i) = buf.getD i 0) {d s n : ℕ}
    (hn : n < 2 ^ 31) (hd : d + n ≤ buf.length) (hs : s + n ≤ buf.length) :
    ∀ i < buf.length, (User.memmove m (b + BitVec.ofNat 64 d) (b + BitVec.ofNat 64 s)
      (BitVec.ofNat 32 n)).1 (b + BitVec.ofNat 64 i) = (Xv6.User.memmove buf d s n).getD i 0 := by
  intro i hi
  have hlen : (BitVec.ofNat 32 n).toNat = n := by bv_omega
  have hint : 0 ≤ (BitVec.ofNat 32 n).toInt := by
    rw [BitVec.toInt_eq_toNat_of_lt (by omega)]
    exact Int.natCast_nonneg _
  rw [User.memmove_eq hint (by bv_omega) (by bv_omega), Xv6.User.memmove_getD hs hd, hlen]
  dsimp only [moved]
  by_cases hr : d ≤ i ∧ i < d + n
  · rw [if_pos hr, if_pos (by bv_omega), ← hbuf _ (by omega)]
    congr 1
    bv_omega
  · rw [if_neg hr, if_neg (by bv_omega)]
    exact hbuf i hi

theorem memmove_buffer_down : (User.memmove (fun a => UInt8.ofNat a.toNat) 0 1 3).1 2 = 3 :=
  @User.memmove_buffer (fun a => UInt8.ofNat a.toNat) 0 [0, 1, 2, 3] (by decide) (by decide) 0 1 3
    (by decide) (by decide) (by decide) 2 (by decide)

/-- The bytes at `dst` are those that were at `src`, and all others are unchanged. -/
structure Moves (m m' : Mem) (dst src : BitVec 64) (n : ℕ) : Prop where
  bytes : ∀ i < n, m' (dst + BitVec.ofNat 64 i) = m (src + BitVec.ofNat 64 i)
  others : ∀ a : BitVec 64, a.toNat < dst.toNat ∨ dst.toNat + n ≤ a.toNat → m' a = m a

theorem moves_moved (hd : dst.toNat + n ≤ 2 ^ 64) : Moves m (moved m dst src n) dst src n where
  bytes := by
    intro i hi
    unfold moved
    rw [if_pos (by bv_omega)]
    congr 1
    bv_omega
  others := fun a ha => if_neg (by omega)

/-- Whatever the overlap, both versions copy the source and change nothing else, and so they have the
same effect where `n` is an `int`. -/
theorem memmove_moves (m : Mem) (dst src : BitVec 64) (n : BitVec 32)
    (hd : dst.toNat + n.toNat ≤ 2 ^ 64) (hs : src.toNat + n.toNat ≤ 2 ^ 64) :
    Moves m (Kernel.memmove m dst src n).1 dst src n.toNat ∧
      (0 ≤ n.toInt → Moves m (User.memmove m dst src n).1 dst src n.toNat ∧
        User.memmove m dst src n = Kernel.memmove m dst src n) := by
  refine ⟨?_, fun hn => ?_⟩
  · rw [Kernel.memmove_eq hd hs]
    exact moves_moved hd
  · rw [User.memmove_eq hn hd hs, Kernel.memmove_eq hd hs]
    exact ⟨moves_moved hd, rfl⟩

/-- Three bytes are moved up by one. -/
theorem memmove_moves_overlapping :
    (Kernel.memmove (fun a => UInt8.ofNat a.toNat) 1 0 3).1 3 = 2 ∧
      (User.memmove (fun a => UInt8.ofNat a.toNat) 1 0 3).1 3 = 2 := by
  obtain ⟨hk, hu⟩ := memmove_moves (fun a => UInt8.ofNat a.toNat) 1 0 3 (by decide) (by decide)
  exact ⟨hk.bytes 2 (by decide), (hu (by decide)).1.bytes 2 (by decide)⟩

end Xv6.Memory
