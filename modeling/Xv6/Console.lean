import Xv6.Ring

/-!
# The console

`consoleintr` and `consoleread` of `console.c`. The input buffer is a ring with three counters: what
is between `r` and `w` can be read, and what is between `w` and `e` can still be edited.

Each call of `consoleread` has a name. A call keeps `cons.lock` from `acquire`, or from its return
from `sleep`, until it releases the lock or sleeps again; such a stay in the critical section is one
step, and so is a call of `consoleintr`. A call that sleeps may go on at any time.

The state also records the keys and the characters taken from the buffer, and what each call got; no
step reads them.
-/

namespace Xv6.Console

def inputBufSize : ℕ := 128

/-- `C(x)`. -/
def ctrl (x : Char) : UInt8 := (x.toNat - '@'.toNat).toUInt8

def newline : UInt8 := 10
def carriageReturn : UInt8 := 13
def delete : UInt8 := 0x7f

/-- `cons`, without its lock. -/
structure Cons where
  buf : ℕ → UInt8
  r : BitVec 32
  w : BitVec 32
  e : BitVec 32

/-! ## Input -/

namespace Cons

def erase (s : Cons) : Cons := { s with e := s.e - 1 }

/-- The loop of `C('U')`, which runs at most `cons.e - cons.w` times. -/
def killLine : ℕ → Cons → Cons
  | 0, s => s
  | n + 1, s =>
    if s.e ≠ s.w ∧ s.buf (Ring.slot inputBufSize (s.e - 1)) ≠ newline then killLine n s.erase else s

def store (c : UInt8) (s : Cons) : Cons :=
  { s with buf := Function.update s.buf (Ring.slot inputBufSize s.e) c, e := s.e + 1 }

/-- A character that is not a command, after the check that it fits. -/
def input (c : UInt8) (s : Cons) : Cons :=
  if c = newline ∨ c = ctrl 'D' ∨ ((s.store c).e - (s.store c).r).toNat = inputBufSize then
    { s.store c with w := (s.store c).e }
  else s.store c

def consoleintr (c : UInt8) (s : Cons) : Cons :=
  if c = ctrl 'P' then s
  else if c = ctrl 'U' then killLine (Ring.count s.w s.e) s
  else if c = ctrl 'H' ∨ c = delete then
    if s.e ≠ s.w then s.erase else s
  else if c ≠ 0 ∧ (s.e - s.r).toNat < inputBufSize then
    s.input (if c = carriageReturn then newline else c)
  else s

def next (s : Cons) : UInt8 := s.buf (Ring.slot inputBufSize s.r)

end Cons

/-! ## Reading -/

/-- What happens at the console, as a line editor sees it. -/
inductive Event where
  | key (c : UInt8)
  | take

/-- What a call gets for a character of the buffer. -/
inductive Taken where
  | byte (c : UInt8)
  | eof
  deriving DecidableEq

/-- The console, with the events and what the calls named by `K` got. -/
structure St (K : Type) where
  cons : Cons
  trace : List Event
  log : List (K × Taken)

variable {K : Type}

namespace St

variable (s : St K)

def key (c : UInt8) : St K :=
  { s with cons := s.cons.consoleintr c, trace := s.trace ++ [.key c] }

/-- `cons.r++`, with what call `k` gets. -/
def take (got : List (K × Taken)) : St K :=
  { cons := { s.cons with r := s.cons.r + 1 }
    trace := s.trace ++ [.take]
    log := s.log ++ got }

/-- `cons.r++` and then `cons.r--`. -/
def putBack : St K := { s with cons := { s.cons with r := s.cons.r + 1 - 1 } }

end St

/-- How a stay in the critical section ends: the function returns, or it sleeps with `n` bytes left
to read. -/
inductive Exit where
  | ret (r : ℤ)
  | sleep (n : ℕ)

/-- The loop of `consoleread` for call `k`, with `n` bytes left to read; `dst i` says whether
`either_copyout` can write byte `i`. -/
def consoleread (k : K) (dst : ℕ → Bool) (killed : Bool) (target : ℕ) : ℕ → St K → St K × Exit
  | 0, s => (s, .ret target)
  | n + 1, s =>
    if s.cons.r = s.cons.w then (s, if killed then .ret (-1) else .sleep (n + 1))
    else if s.cons.next = ctrl 'D' then
      (if n + 1 < target then s.putBack else s.take [(k, .eof)], .ret (target - (n + 1)))
    else if dst (target - (n + 1)) = false then (s.take [], .ret (target - (n + 1)))
    else if s.cons.next = newline then (s.take [(k, .byte newline)], .ret (target - n))
    else consoleread k dst killed target n (s.take [(k, .byte s.cons.next)])

/-! ## Runs -/

/-- What a call is doing: it was not made yet, it sleeps with `n` bytes left, or it has returned. -/
inductive Phase where
  | idle
  | asleep (target n : ℕ)
  | done (r : ℤ)

/-- The console and the calls. -/
structure Conf (K : Type) where
  st : St K
  phase : K → Phase

def Phase.next (target : ℕ) : Exit → Phase
  | .ret r => .done r
  | .sleep n => .asleep target n

variable [DecidableEq K]

/-- Call `k` leaves the critical section. -/
def Conf.leave (x : Conf K) (k : K) (target : ℕ) (y : St K × Exit) : Conf K :=
  ⟨y.1, Function.update x.phase k (.next target y.2)⟩

def valid : ℕ → Bool := fun _ => true

inductive Step : Conf K → Conf K → Prop
  | key {x} (c : UInt8) : Step x { x with st := x.st.key c }
  | read {x k} (n : BitVec 32) (killed) : x.phase k = .idle →
      Step x (x.leave k n.toInt.toNat
        (consoleread k valid killed n.toInt.toNat n.toInt.toNat x.st))
  | wake {x k target n} (killed) : x.phase k = .asleep target n →
      Step x (x.leave k target (consoleread k valid killed target n x.st))

def Reach : Conf K → Conf K → Prop := Relation.ReflTransGen Step

/-- The console at boot, with any contents of the buffer. -/
def start (buf : ℕ → UInt8) : Conf K := ⟨⟨⟨buf, 0, 0, 0⟩, [], []⟩, fun _ => .idle⟩

/-! ## The line editor -/

/-- A line editor: the text that was read, the text that can be read, and the current line. -/
structure Editor where
  taken : List UInt8
  unread : List UInt8
  line : List UInt8

namespace Editor

variable (ed : Editor)

def committed : List UInt8 := ed.taken ++ ed.unread

def size : ℕ := ed.unread.length + ed.line.length

/-- The current line becomes text. -/
def commit : Editor := { ed with unread := ed.unread ++ ed.line, line := [] }

def type (c : UInt8) : Editor := { ed with line := ed.line ++ [c] }

/-- A key that is not a command. -/
def insert (c : UInt8) : Editor :=
  if c = newline ∨ c = ctrl 'D' ∨ (ed.type c).size = inputBufSize then (ed.type c).commit
  else ed.type c

def key (c : UInt8) : Editor :=
  if c = ctrl 'P' ∨ c = 0 then ed
  else if c = ctrl 'U' then { ed with line := [] }
  else if c = ctrl 'H' ∨ c = delete then { ed with line := ed.line.dropLast }
  else if ed.size < inputBufSize then ed.insert (if c = carriageReturn then newline else c)
  else ed

def take : Editor :=
  { ed with taken := ed.taken ++ ed.unread.take 1, unread := ed.unread.drop 1 }

def step : Event → Editor
  | .key c => ed.key c
  | .take => ed.take

def run (trace : List Event) : Editor := trace.foldl step ⟨[], [], []⟩

end Editor

/-! ## The ring holds what the editor holds -/

/-- The buffer has the text that can be read and the current line. -/
structure Sim (s : Cons) (ed : Editor) : Prop where
  ring : Ring.items inputBufSize s.buf s.r s.e = ed.unread ++ ed.line
  count : Ring.count s.r s.w = ed.unread.length
  size : ed.size ≤ inputBufSize
  line : newline ∉ ed.line

section

variable {s : Cons} {ed : Editor}

theorem Sim.count_e (h : Sim s ed) : Ring.count s.r s.e = ed.size := by
  rw [← Ring.length_items, h.ring, List.length_append]
  rfl

theorem Sim.le (h : Sim s ed) : Ring.count s.r s.w ≤ Ring.count s.r s.e := by
  rw [h.count, h.count_e]
  exact Nat.le_add_right _ _

theorem Sim.count_line (h : Sim s ed) : Ring.count s.w s.e = ed.line.length := by
  rw [Ring.count_count h.le, h.count, h.count_e]
  exact Nat.add_sub_cancel_left _ _

theorem Sim.items (h : Sim s ed) : Ring.items inputBufSize s.buf s.r s.w = ed.unread := by
  rw [Ring.items_take h.le, h.ring, h.count, List.take_left]

theorem Sim.e_eq_w (h : Sim s ed) : s.e = s.w ↔ ed.line = [] := by
  rw [← List.length_eq_zero_iff, ← h.count_line, Ring.count_eq_zero, eq_comm]

theorem Sim.r_ne_e (h : Sim s ed) (hl : ed.line ≠ []) : s.r ≠ s.e := by
  rw [ne_eq, ← Ring.count_eq_zero, h.count_e]
  have := List.length_pos_of_ne_nil hl
  unfold Editor.size
  omega

/-- The last character of the line, and the ring without it. -/
theorem Sim.last (h : Sim s ed) (hl : ed.line ≠ []) :
    Ring.items inputBufSize s.buf s.r (s.e - 1) = ed.unread ++ ed.line.dropLast ∧
      s.buf (Ring.slot inputBufSize (s.e - 1)) = ed.line.getLast hl := by
  have hback := Ring.items_back (c := inputBufSize) (d := s.buf) (by decide) (h.r_ne_e hl)
  rw [h.ring, ← List.dropLast_append_getLast hl, ← List.append_assoc] at hback
  obtain ⟨hd, hc⟩ := List.append_inj' hback rfl
  exact ⟨hd.symm, (List.singleton_inj.1 hc).symm⟩

theorem Sim.erase (h : Sim s ed) (hl : ed.line ≠ []) :
    Sim s.erase { ed with line := ed.line.dropLast } where
  ring := (h.last hl).1
  count := h.count
  size := by
    refine le_trans (Nat.add_le_add_left ?_ _) h.size
    rw [List.length_dropLast]
    exact Nat.sub_le _ _
  line := fun hm => h.line (List.mem_of_mem_dropLast hm)

/-- Every character of the line is erased: none of them is a newline. -/
theorem Sim.killLine {n : ℕ} {t u l : List UInt8} (h : Sim s ⟨t, u, l⟩) (hn : l.length = n) :
    Sim (Cons.killLine n s) ⟨t, u, []⟩ := by
  induction n generalizing s l with
  | zero =>
    obtain rfl := List.length_eq_zero_iff.1 hn
    exact h
  | succ n ih =>
    have hl : l ≠ [] := List.ne_nil_of_length_eq_add_one hn
    have hne : s.buf (Ring.slot inputBufSize (s.e - 1)) ≠ newline := by
      rw [(h.last hl).2]
      exact fun he => h.line (he ▸ List.getLast_mem hl)
    rw [Cons.killLine, if_pos ⟨fun he => hl (h.e_eq_w.1 he), hne⟩]
    refine ih (h.erase hl) ?_
    rw [List.length_dropLast, hn]
    rfl

theorem size_type (ed : Editor) (c : UInt8) : (ed.type c).size = ed.size + 1 := by
  show ed.unread.length + (ed.line ++ [c]).length = ed.size + 1
  rw [List.length_append]
  rfl

theorem Sim.store (h : Sim s ed) (hs : ed.size < inputBufSize) (c : UInt8) :
    Ring.items inputBufSize (s.store c).buf (s.store c).r (s.store c).e =
        ed.unread ++ (ed.line ++ [c]) ∧
      Ring.count (s.store c).r (s.store c).e = (ed.type c).size := by
  have hlt : Ring.count s.r s.e < inputBufSize := h.count_e ▸ hs
  have hn : Ring.count s.r s.e + 1 < 2 ^ 32 := by
    unfold inputBufSize at hlt
    omega
  constructor
  · show Ring.items inputBufSize (Function.update s.buf (Ring.slot inputBufSize s.e) c) s.r
      (s.e + 1#32) = _
    rw [Ring.items_push (by decide) hlt hn, h.ring, List.append_assoc]
  · show Ring.count s.r (s.e + 1#32) = _
    rw [Ring.count_push hn, h.count_e, size_type]

theorem Sim.input (h : Sim s ed) (hs : ed.size < inputBufSize) (c : UInt8) :
    Sim (s.input c) (ed.insert c) := by
  obtain ⟨hring, hcount⟩ := h.store hs c
  have hsize : (ed.type c).size ≤ inputBufSize := by
    rw [size_type]
    exact hs
  have hfull : ((s.store c).e - (s.store c).r).toNat = (ed.type c).size := hcount
  unfold Cons.input Editor.insert
  rw [hfull]
  split_ifs with hc
  · refine ⟨?_, ?_, ?_, List.not_mem_nil⟩
    · show Ring.items inputBufSize (s.store c).buf (s.store c).r (s.store c).e =
        (ed.unread ++ (ed.line ++ [c])) ++ []
      rw [hring, List.append_nil]
    · show Ring.count (s.store c).r (s.store c).e = (ed.unread ++ (ed.line ++ [c])).length
      rw [hcount, List.length_append]
      rfl
    · show (ed.unread ++ (ed.line ++ [c])).length + 0 ≤ inputBufSize
      rw [List.length_append]
      exact hsize
  · refine ⟨hring, h.count, hsize, fun hm => ?_⟩
    rcases List.mem_append.1 hm with hm | hm
    · exact h.line hm
    · exact hc (.inl (List.mem_singleton.1 hm).symm)

theorem Sim.key (h : Sim s ed) (c : UInt8) : Sim (s.consoleintr c) (ed.key c) := by
  have hfull : (s.e - s.r).toNat = ed.size := h.count_e
  unfold Cons.consoleintr Editor.key
  rw [hfull]
  by_cases hp : c = ctrl 'P'
  · rw [if_pos hp, if_pos (.inl hp)]
    exact h
  by_cases h0 : c = 0
  · subst h0
    rw [if_neg (by decide), if_neg (by decide), if_neg (by decide), if_neg fun h => h.1 rfl,
      if_pos (.inr rfl)]
    exact h
  rw [if_neg hp, if_neg (not_or.2 ⟨hp, h0⟩)]
  by_cases hu : c = ctrl 'U'
  · rw [if_pos hu, if_pos hu, h.count_line]
    exact h.killLine rfl
  rw [if_neg hu, if_neg hu]
  by_cases hb : c = ctrl 'H' ∨ c = delete
  · rw [if_pos hb, if_pos hb]
    by_cases he : s.e = s.w
    · rw [if_neg (not_not.2 he)]
      obtain ⟨t, u, l⟩ := ed
      obtain rfl : l = [] := h.e_eq_w.1 he
      exact h
    · rw [if_pos he]
      exact h.erase fun hl => he (h.e_eq_w.2 hl)
  rw [if_neg hb, if_neg hb]
  by_cases hs : ed.size < inputBufSize
  · rw [if_pos ⟨h0, hs⟩, if_pos hs]
    exact h.input hs _
  · rw [if_neg fun h => hs h.2, if_neg hs]
    exact h

theorem key_unread (ed : Editor) (c : UInt8) : ∃ u, (ed.key c).unread = ed.unread ++ u := by
  unfold Editor.key Editor.insert
  split_ifs
  all_goals first
    | exact ⟨[], (List.append_nil _).symm⟩
    | exact ⟨_, rfl⟩

theorem Sim.take (h : Sim s ed) (hne : s.r ≠ s.w) :
    ∃ u, ed.unread = s.next :: u ∧ Sim { s with r := s.r + 1 } ed.take := by
  have hpop := Ring.items_pop (c := inputBufSize) (d := s.buf) (by decide) hne
  have hre : s.r ≠ s.e := fun he => hne (Ring.count_eq_zero.1 (Nat.eq_zero_of_le_zero
    (h.le.trans (Ring.count_eq_zero.2 he).le)))
  have hpop' := Ring.items_pop (c := inputBufSize) (d := s.buf) (by decide) hre
  have hw := Ring.count_pop hne
  rw [h.items] at hpop
  rw [h.ring, hpop, List.cons_append, List.cons.injEq] at hpop'
  have hsize := h.size
  have hcount := h.count
  obtain ⟨t, u, l⟩ := ed
  obtain rfl := hpop
  refine ⟨_, rfl, hpop'.2.symm, Ring.length_items.symm, ?_, h.line⟩
  exact (Nat.add_le_add_right (Nat.le_succ _) _).trans hsize

theorem consoleintr_r (c : UInt8) (s : Cons) : (s.consoleintr c).r = s.r := by
  have hkill (n : ℕ) (s : Cons) : (Cons.killLine n s).r = s.r := by
    induction n generalizing s with
    | zero => rfl
    | succ n ih =>
      unfold Cons.killLine
      split_ifs
      · exact ih s.erase
      · rfl
  unfold Cons.consoleintr Cons.input
  split_ifs
  · rfl
  · exact hkill _ s
  all_goals rfl

/-- Input neither changes nor erases what can be read. -/
theorem Sim.keep (h : Sim s ed) (c : UInt8) :
    Ring.items inputBufSize (s.consoleintr c).buf s.r s.w = Ring.items inputBufSize s.buf s.r s.w ∧
      Ring.count s.r s.w ≤ Ring.count s.r (s.consoleintr c).w := by
  obtain ⟨u, hu⟩ := key_unread ed c
  have hk := h.key c
  have hw : Ring.count s.r (s.consoleintr c).w = (ed.unread ++ u).length := by
    rw [← hu, ← hk.count, consoleintr_r]
  have hi : Ring.items inputBufSize (s.consoleintr c).buf s.r (s.consoleintr c).w =
      ed.unread ++ u := by
    rw [← hu, ← hk.items, consoleintr_r]
  have hle : Ring.count s.r s.w ≤ Ring.count s.r (s.consoleintr c).w := by
    rw [hw, h.count, List.length_append]
    exact Nat.le_add_right _ _
  refine ⟨?_, hle⟩
  rw [Ring.items_take hle, hi, h.items, h.count, List.take_left]

end

/-! ## What the calls get -/

def Taken.char : Taken → UInt8
  | .byte c => c
  | .eof => ctrl 'D'

def Taken.byte? : Taken → Option UInt8
  | .byte c => some c
  | .eof => none

def St.got (s : St K) (k : K) : List Taken := (s.log.filter (·.1 = k)).map (·.2)

def St.delivered (s : St K) : List UInt8 := s.log.filterMap (·.2.byte?)

def St.bytes (s : St K) (k : K) : List UInt8 := (s.got k).filterMap Taken.byte?

/-- The editor has the same text. -/
structure Inv (s : St K) : Prop where
  sim : Sim s.cons (Editor.run s.trace)
  log : s.log.map (·.2.char) = (Editor.run s.trace).taken
  byte : ∀ x ∈ s.log, x.2 ≠ .byte (ctrl 'D')

/-- Call `k` has got `m` bytes and no newline. -/
def Open (k : K) (m : ℕ) (s : St K) : Prop :=
  ∃ g : List UInt8, s.got k = g.map .byte ∧ newline ∉ g ∧ g.length = m

/-- Call `k` has returned `r`: it has got an end of file, or bytes up to a newline at most. -/
def Closed (k : K) (r : ℤ) (s : St K) : Prop :=
  s.got k = [.eof] ∧ r = 0 ∨
    ∃ g : List UInt8, s.got k = g.map .byte ∧ newline ∉ g.dropLast ∧ (r = g.length ∨ r = -1)

/-- What a call has got in its phase. -/
def CallInv (s : St K) (k : K) : Phase → Prop
  | .idle => s.got k = []
  | .asleep target n => ∃ m, Open k m s ∧ m + n = target
  | .done r => Closed k r s

section

variable {s : St K} {k : K}

theorem run_concat (trace : List Event) (e : Event) :
    Editor.run (trace ++ [e]) = (Editor.run trace).step e := List.foldl_concat _ _ _ _

omit [DecidableEq K] in
theorem Inv.key (h : Inv s) (c : UInt8) : Inv (s.key c) := by
  have htaken : (Editor.run (s.trace ++ [.key c])).taken = (Editor.run s.trace).taken := by
    rw [run_concat]
    show (Editor.key _ c).taken = _
    unfold Editor.key Editor.insert
    split_ifs <;> rfl
  refine ⟨?_, h.log.trans htaken.symm, h.byte⟩
  show Sim _ (Editor.run (s.trace ++ [.key c]))
  rw [run_concat]
  exact h.sim.key c

omit [DecidableEq K] in
theorem Inv.take (h : Inv s) (hne : s.cons.r ≠ s.cons.w) {t : Taken} (ht : t.char = s.cons.next)
    (hb : t ≠ .byte (ctrl 'D')) : Inv (s.take [(k, t)]) := by
  obtain ⟨u, hu, hsim⟩ := h.sim.take hne
  refine ⟨?_, ?_, ?_⟩
  · show Sim _ (Editor.run (s.trace ++ [.take]))
    rw [run_concat]
    exact hsim
  · show (s.log ++ [(k, t)]).map (·.2.char) = (Editor.run (s.trace ++ [.take])).taken
    rw [run_concat, List.map_append, h.log]
    show _ = (Editor.run s.trace).taken ++ (Editor.run s.trace).unread.take 1
    rw [hu]
    show _ ++ [t.char] = _
    rw [ht]
    rfl
  · intro x hx
    rcases List.mem_append.1 hx with hx | hx
    · exact h.byte x hx
    · rw [List.mem_singleton.1 hx]
      exact hb

theorem got_take_self (s : St K) (k : K) (t : Taken) : (s.take [(k, t)]).got k = s.got k ++ [t] := by
  show ((s.log ++ [(k, t)]).filter _).map _ = _
  rw [List.filter_append, List.map_append, List.filter_cons_of_pos (by simp)]
  rfl

theorem got_take_of_ne {k' : K} (h : k' ≠ k) (t : Taken) : (s.take [(k, t)]).got k' = s.got k' := by
  show ((s.log ++ [(k, t)]).filter _).map _ = _
  rw [List.filter_append, List.filter_cons_of_neg (by simpa using h.symm), List.filter_nil,
    List.append_nil]
  rfl

omit [DecidableEq K] in
theorem putBack_eq (s : St K) : s.putBack = s := by
  unfold St.putBack
  rw [BitVec.add_sub_cancel]

theorem Open.take {m : ℕ} (h : Open k m s) {c : UInt8} (hc : c ≠ newline) :
    Open k (m + 1) (s.take [(k, .byte c)]) := by
  obtain ⟨g, hg, hnl, rfl⟩ := h
  refine ⟨g ++ [c], ?_, ?_, List.length_append⟩
  · rw [got_take_self, hg, List.map_append]
    rfl
  · intro hm
    rcases List.mem_append.1 hm with hm | hm
    · exact hnl hm
    · exact hc (List.mem_singleton.1 hm).symm

/-- A call returns with the bytes it has got. -/
theorem Open.closed {m : ℕ} (h : Open k m s) {r : ℤ} (hr : r = m ∨ r = -1) : Closed k r s := by
  obtain ⟨g, hg, hnl, rfl⟩ := h
  exact .inr ⟨g, hg, fun hm => hnl (List.mem_of_mem_dropLast hm), hr⟩

theorem Open.closed_newline {m : ℕ} (h : Open k m s) :
    Closed k (m + 1) (s.take [(k, .byte newline)]) := by
  obtain ⟨g, hg, hnl, rfl⟩ := h
  refine .inr ⟨g ++ [newline], ?_, ?_, .inl ?_⟩
  · rw [got_take_self, hg, List.map_append]
    rfl
  · rwa [List.dropLast_concat]
  · rw [List.length_append]
    rfl

theorem consoleread_spec (killed : Bool) {target : ℕ} (n : ℕ) {m : ℕ} (hi : Inv s)
    (ho : Open k m s) (hm : m + n = target) :
    Inv (consoleread k valid killed target n s).1 ∧
      (∀ k' ≠ k, (consoleread k valid killed target n s).1.got k' = s.got k') ∧
      CallInv (consoleread k valid killed target n s).1 k
        (.next target (consoleread k valid killed target n s).2) := by
  induction n generalizing s m with
  | zero =>
    subst hm
    exact ⟨hi, fun _ _ => rfl, ho.closed (.inl rfl)⟩
  | succ n ih =>
    rw [consoleread]
    by_cases hrw : s.cons.r = s.cons.w
    · rw [if_pos hrw]
      refine ⟨hi, fun _ _ => rfl, ?_⟩
      cases killed with
      | true => exact ho.closed (.inr rfl)
      | false => exact ⟨m, ho, hm⟩
    rw [if_neg hrw]
    by_cases hd : s.cons.next = ctrl 'D'
    · rw [if_pos hd]
      by_cases hlt : n + 1 < target
      · rw [if_pos hlt, putBack_eq]
        refine ⟨hi, fun _ _ => rfl, ho.closed (.inl ?_)⟩
        omega
      · rw [if_neg hlt]
        refine ⟨hi.take hrw hd.symm (by simp), fun k' hk => got_take_of_ne hk _, .inl ⟨?_, ?_⟩⟩
        · obtain ⟨g, hg, -, hgm⟩ := ho
          obtain rfl := List.length_eq_zero_iff.1 (hgm.trans (by omega))
          rw [got_take_self, hg]
          rfl
        · omega
    rw [if_neg hd, if_neg (by simp [valid])]
    by_cases hnl : s.cons.next = newline
    · rw [if_pos hnl]
      refine ⟨hi.take hrw hnl.symm (by decide), fun k' hk => got_take_of_ne hk _, ?_⟩
      have hr : (target : ℤ) - n = m + 1 := by omega
      show Closed k (target - n) _
      rw [hr]
      exact ho.closed_newline
    · rw [if_neg hnl]
      have hb : Taken.byte s.cons.next ≠ .byte (ctrl 'D') := fun he => hd (Taken.byte.inj he)
      obtain ⟨h1, h2, h3⟩ := ih (hi.take hrw rfl hb) (ho.take hnl) (by omega)
      exact ⟨h1, fun k' hk => (h2 k' hk).trans (got_take_of_ne hk _), h3⟩

end

/-! ## All runs -/

/-- The invariant of the console and its calls. -/
structure Good (x : Conf K) : Prop where
  inv : Inv x.st
  call : ∀ k, CallInv x.st k (x.phase k)

theorem good_start (buf : ℕ → UInt8) : Good (start buf : Conf K) := by
  refine ⟨⟨⟨Ring.items_self _, Ring.count_self _, Nat.zero_le _, List.not_mem_nil⟩, rfl, ?_⟩,
    fun k => rfl⟩
  exact fun x hx => nomatch hx

theorem CallInv.congr {s s' : St K} {k : K} {p : Phase} (h : s'.got k = s.got k)
    (hc : CallInv s k p) : CallInv s' k p := by
  cases p <;> simpa only [CallInv, Open, Closed, h] using hc

theorem Good.leave {x : Conf K} {k : K} {target : ℕ} {y : St K × Exit} (h : Good x) (hi : Inv y.1)
    (ho : ∀ k' ≠ k, y.1.got k' = x.st.got k') (hc : CallInv y.1 k (.next target y.2)) :
    Good (x.leave k target y) := by
  refine ⟨hi, fun k' => ?_⟩
  show CallInv y.1 k' (Function.update x.phase k _ k')
  by_cases hk : k' = k
  · subst hk
    rw [Function.update_self]
    exact hc
  · rw [Function.update_of_ne hk]
    exact (h.call k').congr (ho k' hk)

theorem Good.step {x y : Conf K} (h : Good x) (hs : Step x y) : Good y := by
  cases hs with
  | key c => exact ⟨h.inv.key c, fun k => (h.call k).congr rfl⟩
  | @read k n killed hk =>
    have hc := h.call k
    rw [hk] at hc
    obtain ⟨h1, h2, h3⟩ := consoleread_spec killed n.toInt.toNat h.inv
      ⟨[], hc, List.not_mem_nil, rfl⟩ (Nat.zero_add _)
    exact h.leave h1 h2 h3
  | @wake k target n killed hk =>
    have hc := h.call k
    rw [hk] at hc
    obtain ⟨m, ho, hm⟩ := hc
    obtain ⟨h1, h2, h3⟩ := consoleread_spec killed n h.inv ho hm
    exact h.leave h1 h2 h3

theorem good_of_reach {buf : ℕ → UInt8} {x : Conf K} (h : Reach (start buf) x) : Good x := by
  induction h with
  | refl => exact good_start buf
  | tail _ hs ih => exact ih.step hs

/-! ## The line discipline -/

section

variable {x : Conf K}

/-- An end of file is all that its call gets, and the call returns 0. -/
theorem Good.eof (h : Good x) {k : K} (hk : (k, .eof) ∈ x.st.log) :
    x.st.got k = [.eof] ∧ x.phase k = .done 0 := by
  have hm : Taken.eof ∈ x.st.got k :=
    List.mem_map.2 ⟨(k, .eof), List.mem_filter.2 ⟨hk, decide_eq_true rfl⟩, rfl⟩
  have hno (g : List UInt8) (hg : x.st.got k = g.map .byte) : False := by
    rw [hg] at hm
    obtain ⟨c, -, hc⟩ := List.mem_map.1 hm
    exact nomatch hc
  have hc := h.call k
  cases hp : x.phase k with
  | idle =>
    rw [hp] at hc
    exact (hno [] hc).elim
  | asleep target n =>
    rw [hp] at hc
    obtain ⟨m, ⟨g, hg, -⟩, -⟩ := hc
    exact (hno g hg).elim
  | done r =>
    rw [hp] at hc
    rcases hc with ⟨hg, rfl⟩ | ⟨g, hg, -⟩
    · exact ⟨hg, rfl⟩
    · exact (hno g hg).elim

theorem bytes_of_got {s : St K} {k : K} {g : List UInt8} (hg : s.got k = g.map .byte) :
    s.bytes k = g := by
  rw [St.bytes, hg, List.filterMap_map]
  exact List.filterMap_some

/-- No call gets bytes beyond a newline. -/
theorem Good.newline (h : Good x) (k : K) : newline ∉ (x.st.bytes k).dropLast := by
  have hc := h.call k
  cases hp : x.phase k with
  | idle =>
    rw [hp] at hc
    rw [St.bytes, hc]
    exact List.not_mem_nil
  | asleep target n =>
    rw [hp] at hc
    obtain ⟨m, ⟨g, hg, hnl, -⟩, -⟩ := hc
    rw [bytes_of_got hg]
    exact fun hm => hnl (List.mem_of_mem_dropLast hm)
  | done r =>
    rw [hp] at hc
    rcases hc with ⟨hg, -⟩ | ⟨g, hg, hnl, -⟩
    · rw [St.bytes, hg]
      exact List.not_mem_nil
    · rwa [bytes_of_got hg]

/-- A call that was not killed returns the number of its bytes. -/
theorem Good.ret (h : Good x) {k : K} {r : ℤ} (hk : x.phase k = .done r) :
    r = -1 ∨ r = (x.st.bytes k).length := by
  have hc := h.call k
  rw [hk] at hc
  rcases hc with ⟨hg, rfl⟩ | ⟨g, hg, -, hr⟩
  · right
    rw [St.bytes, hg]
    rfl
  · rw [bytes_of_got hg]
    exact hr.symm

omit [DecidableEq K] in
/-- The bytes delivered are the text taken, without the ends of file. -/
theorem delivered_eq {log : List (K × Taken)} (h : ∀ y ∈ log, y.2 ≠ .byte (ctrl 'D')) :
    log.filterMap (·.2.byte?) = (log.map (·.2.char)).filter (· ≠ ctrl 'D') := by
  induction log with
  | nil => rfl
  | cons y log ih =>
    have ih := ih fun z hz => h z (List.mem_cons_of_mem y hz)
    obtain ⟨k, t⟩ := y
    cases t with
    | eof => exact ih
    | byte c =>
      have hc : decide (c ≠ ctrl 'D') :=
        decide_eq_true fun he => h (k, .byte c) List.mem_cons_self (congrArg _ he)
      rw [List.map_cons, List.filter_cons]
      exact (congrArg (c :: ·) ih).trans (if_pos hc).symm

omit [DecidableEq K] in
theorem count_eof {log : List (K × Taken)} (h : ∀ y ∈ log, y.2 ≠ .byte (ctrl 'D')) :
    log.countP (·.2 = .eof) = (log.map (·.2.char)).count (ctrl 'D') := by
  rw [List.count, List.countP_map]
  refine List.countP_congr fun y hy => ?_
  have hb := h y hy
  obtain ⟨k, t⟩ := y
  cases t with
  | eof => exact iff_of_true rfl rfl
  | byte c => exact iff_of_false (by simp) fun he => hb (congrArg Taken.byte (eq_of_beq he))

end

/-- What the console does, in every state of every run: the counters are in order; input neither
changes nor erases what can be read; the text that was taken and what can be read are the text that
the line editor committed, the bytes delivered being that text without the ends of file; no call gets
bytes beyond a newline; and each end of file that was taken is all that one call got, which has
returned 0. -/
theorem console_line_discipline {buf : ℕ → UInt8} {x : Conf K} (h : Reach (start buf) x) :
    (Ring.count x.st.cons.r x.st.cons.w ≤ Ring.count x.st.cons.r x.st.cons.e ∧
      Ring.count x.st.cons.r x.st.cons.e ≤ inputBufSize) ∧
    (∀ c, (x.st.cons.consoleintr c).r = x.st.cons.r ∧
      Ring.items inputBufSize (x.st.cons.consoleintr c).buf x.st.cons.r x.st.cons.w =
        Ring.items inputBufSize x.st.cons.buf x.st.cons.r x.st.cons.w ∧
      Ring.count x.st.cons.r x.st.cons.w ≤ Ring.count x.st.cons.r (x.st.cons.consoleintr c).w) ∧
    (Editor.run x.st.trace).committed = x.st.log.map (·.2.char) ++
      Ring.items inputBufSize x.st.cons.buf x.st.cons.r x.st.cons.w ∧
    (Editor.run x.st.trace).committed.filter (· ≠ ctrl 'D') = x.st.delivered ++
      (Ring.items inputBufSize x.st.cons.buf x.st.cons.r x.st.cons.w).filter (· ≠ ctrl 'D') ∧
    (∀ k, newline ∉ (x.st.bytes k).dropLast) ∧
    (∀ k r, x.phase k = .done r → r = -1 ∨ r = (x.st.bytes k).length) ∧
    (Editor.run x.st.trace).committed.count (ctrl 'D') = x.st.log.countP (·.2 = .eof) +
      (Ring.items inputBufSize x.st.cons.buf x.st.cons.r x.st.cons.w).count (ctrl 'D') ∧
    ∀ k, (k, .eof) ∈ x.st.log → x.st.got k = [.eof] ∧ x.phase k = .done 0 := by
  have hg := good_of_reach h
  have hsim := hg.inv.sim
  have htext : (Editor.run x.st.trace).committed = x.st.log.map (·.2.char) ++
      Ring.items inputBufSize x.st.cons.buf x.st.cons.r x.st.cons.w := by
    rw [hg.inv.log, hsim.items]
    rfl
  refine ⟨⟨hsim.le, hsim.count_e.trans_le hsim.size⟩, fun c => ⟨consoleintr_r c _, hsim.keep c⟩,
    htext, ?_, hg.newline, fun k r => hg.ret, ?_, fun k => hg.eof⟩
  · rw [htext, List.filter_append, St.delivered, delivered_eq hg.inv.byte]
  · rw [htext, List.count_append, count_eof hg.inv.byte]

/-- A line is typed and read. -/
theorem console_line_discipline_line : ∃ x : Conf Unit, Reach (start fun _ => 0) x ∧
    x.st.delivered = [104, 10] ∧ newline ∉ (x.st.bytes ()).dropLast := by
  have h1 : Step (start fun _ => 0 : Conf Unit) _ := .key 104
  have h2 := Step.key 13 (x := { (start fun _ => 0 : Conf Unit) with
    st := (start fun _ => 0 : Conf Unit).st.key 104 })
  have h3 := Step.read (k := ()) 8 false rfl (x := { (start fun _ => 0 : Conf Unit) with
    st := ((start fun _ => 0 : Conf Unit).st.key 104).key 13 })
  have h := ((Relation.ReflTransGen.single h1).tail h2).tail h3
  exact ⟨_, h, by decide, (console_line_discipline h).2.2.2.2.1 ()⟩

end Xv6.Console
