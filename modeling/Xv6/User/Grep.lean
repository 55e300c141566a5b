import Xv6.User.Match

/-!
# grep

The loop of `grep.c` that reads the input into a buffer, prints the lines that match and moves the
unfinished line to the front of the buffer. The input comes in chunks: a read returns the next chunk,
or as much of it as was asked for.
-/

namespace Xv6.User.Grep

def bufSize : ℕ := 1024

def nl : UInt8 := ch '\n'

/-! ## The loop -/

/-- What is still to come from a descriptor. -/
abbrev Fd := List (List UInt8)

/-- `read` for `k` bytes: the bytes it returns, none at the end of the input. -/
def read : Fd → ℕ → List UInt8 × Fd
  | [], _ => ([], [])
  | c :: fd, k => if c.length ≤ k then (c, fd) else (c.take k, c.drop k :: fd)

/-- Writes bytes into a buffer at offset `m`. -/
def store (buf : List UInt8) (m : ℕ) (bytes : List UInt8) : List UInt8 :=
  buf.take m ++ bytes ++ buf.drop (m + bytes.length)

theorem strchr_lt {s : List UInt8} {c : UInt8} {d : ℕ} (h : strchr s c = some d) :
    d < s.length := by
  induction s generalizing d with
  | nil => exact nomatch h
  | cons b s ih =>
    unfold strchr at h
    split_ifs at h with h0 hc
    · cases h
      exact Nat.succ_pos _
    · obtain ⟨e, he, rfl⟩ := Option.map_eq_some_iff.1 h
      exact Nat.succ_lt_succ (ih he)

/-- The loop over the lines in the buffer from offset `p` on. The newline of a line is overwritten
while the line is matched, and put back only if it is printed. -/
def scan (pattern buf : List UInt8) (p : ℕ) (out : List UInt8) : List UInt8 × ℕ × List UInt8 :=
  match h : strchr (buf.drop p) nl with
  | none => (buf, p, out)
  | some d =>
    let q := p + d
    if matchRe pattern ((buf.set q 0).drop p) then
      let buf1 := (buf.set q 0).set q nl
      scan pattern buf1 (q + 1) (out ++ (buf1.drop p).take (q + 1 - p))
    else scan pattern (buf.set q 0) (q + 1) out
termination_by buf.length - p
decreasing_by
  all_goals
    have hd := strchr_lt h
    rw [List.length_drop] at hd
    simp only [List.length_set]
    omega

/-- The end of the loop's body: what is left after offset `p` moves to the front. -/
def shift (buf : List UInt8) (m p : ℕ) : List UInt8 × ℕ :=
  if m > 0 then (memmove buf 0 p (m - p), m - p) else (buf, m)

/-- What comes after the last newline. -/
def unfinished : List UInt8 → List UInt8
  | [] => []
  | b :: s => if nl ∈ b :: s then unfinished s else b :: s

/-- The buffer between two reads: the unfinished line stands at its front. -/
structure Holds (buf : List UInt8) (m : ℕ) (s : List UInt8) : Prop where
  size : buf.length = bufSize
  room : m < bufSize
  front : buf.take m = s

theorem Holds.length {buf s : List UInt8} {m : ℕ} (h : Holds buf m s) : s.length = m := by
  rw [← h.front, List.length_take, h.size]
  exact min_eq_left h.room.le

namespace X86

/-- The end of the loop's body. -/
def shift (buf : List UInt8) (m p : ℕ) : List UInt8 × ℕ :=
  Grep.shift buf (if p = 0 then 0 else m) p

end X86

/-- The chunks are what successive reads return: each fits into the buffer behind the line that is
unfinished before it. -/
def Fits : List UInt8 → Fd → Prop
  | _, [] => True
  | s, c :: fd => s.length + c.length < bufSize ∧ Fits (unfinished (s ++ c)) fd

end Xv6.User.Grep
