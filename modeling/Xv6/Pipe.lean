import Xv6.Ring

/-!
# Pipes

`pipewrite`, `piperead` and `pipeclose` of `pipe.c`. Any number of threads use one pipe. A thread
keeps `pi->lock` from `acquire`, or from its return from `sleep`, until it releases the lock or
sleeps again; such a stay in the critical section is one step. A thread that sleeps may go on at any
time: its loop tests its condition again, and a killed thread does not wait for a wakeup.

The state also records the bytes that were accepted and those that were dequeued; no step reads
them.
-/

namespace Xv6.Pipe

def pipeSize : ℕ := 512

structure Pipe where
  data : ℕ → UInt8
  nread : BitVec 32
  nwrite : BitVec 32
  readopen : Bool
  writeopen : Bool

/-- The pipe, and what went in and out. -/
structure St where
  pipe : Pipe
  accepted : List UInt8
  dequeued : List UInt8

/-- The pipe after `pipealloc`, in a page with any contents. -/
def pipealloc (data : ℕ → UInt8) : St := ⟨⟨data, 0, 0, true, true⟩, [], []⟩

namespace St

variable (s : St)

/-- `pi->data[pi->nwrite++ % PIPESIZE] = ch`. -/
def put (ch : UInt8) : St :=
  { s with
    pipe := { s.pipe with
      data := Function.update s.pipe.data (Ring.slot pipeSize s.pipe.nwrite) ch
      nwrite := s.pipe.nwrite + 1 }
    accepted := s.accepted ++ [ch] }

/-- `ch = pi->data[pi->nread++ % PIPESIZE]`. -/
def take : St :=
  { s with
    pipe := { s.pipe with nread := s.pipe.nread + 1 }
    dequeued := s.dequeued ++ [s.pipe.data (Ring.slot pipeSize s.pipe.nread)] }

def pipeclose (writable : Bool) : St :=
  if writable then { s with pipe := { s.pipe with writeopen := false } }
  else { s with pipe := { s.pipe with readopen := false } }

end St

/-- How a stay in the critical section ends: the function returns, or it sleeps after `i` bytes. -/
inductive Exit where
  | ret (r : ℤ)
  | sleep (i : ℕ)
  deriving DecidableEq

/-- The loop of `pipewrite` from byte `i` on, of which `m` are left. `src j` is byte `j` of the
source if `copyin` can read it, and `killed j` what `killed(pr)` returns before that byte. -/
def pipewrite (src : ℕ → Option UInt8) (killed : ℕ → Bool) (s : St) (i : ℕ) : ℕ → St × Exit
  | 0 => (s, .ret i)
  | m + 1 =>
    if s.pipe.readopen = false ∨ killed i = true then (s, .ret (-1))
    else if s.pipe.nwrite = s.pipe.nread + BitVec.ofNat 32 pipeSize then (s, .sleep i)
    else
      match src i with
      | none => (s, .ret i)
      | some ch => pipewrite src killed (s.put ch) (i + 1) m

/-- The second loop of `piperead` from byte `i` on, of which `m` are left; `dst j` says whether
`copyout` can write byte `j`. -/
def readLoop (dst : ℕ → Bool) (s : St) (i : ℕ) : ℕ → St × Exit
  | 0 => (s, .ret i)
  | m + 1 =>
    if s.pipe.nread = s.pipe.nwrite then (s, .ret i)
    else if dst i then readLoop dst s.take (i + 1) m
    -- the byte is lost
    else (s.take, .ret i)

/-- `piperead` from the test of its first loop on. -/
def piperead (dst : ℕ → Bool) (killed : Bool) (n : ℤ) (s : St) : St × Exit :=
  if s.pipe.nread = s.pipe.nwrite ∧ s.pipe.writeopen = true then
    if killed then (s, .ret (-1)) else (s, .sleep 0)
  else readLoop dst s 0 n.toNat

/-! ## Runs -/

/-- What a thread is doing: nothing, or sleeping in a call for `n` bytes after `i` of them. -/
inductive Phase where
  | idle
  | write (n : ℤ) (i : ℕ)
  | read (n : ℤ)

variable {T : Type} [DecidableEq T]

/-- The state and the calls that sleep. -/
structure Conf (T : Type) where
  st : St
  phase : T → Phase

/-- The phase after a stay in the critical section. -/
def Phase.next (asleep : ℕ → Phase) : Exit → Phase
  | .ret _ => .idle
  | .sleep i => asleep i

/-- Thread `t` leaves the critical section. -/
def Conf.leave (c : Conf T) (t : T) (asleep : ℕ → Phase) (x : St × Exit) : Conf T :=
  ⟨x.1, Function.update c.phase t (.next asleep x.2)⟩

inductive Step : Conf T → Conf T → Prop
  | write {c t} (n src killed) : c.phase t = .idle →
      Step c (c.leave t (.write n) (pipewrite src killed c.st 0 n.toNat))
  | rewrite {c t n i} (src killed) : c.phase t = .write n i →
      Step c (c.leave t (.write n) (pipewrite src killed c.st i (n.toNat - i)))
  | read {c t} (n dst killed) : c.phase t = .idle →
      Step c (c.leave t (fun _ => .read n) (piperead dst killed n c.st))
  | reread {c t n} (dst killed) : c.phase t = .read n →
      Step c (c.leave t (fun _ => .read n) (piperead dst killed n c.st))
  | close {c} (writable) : Step c { c with st := c.st.pipeclose writable }

def Reach : Conf T → Conf T → Prop := Relation.ReflTransGen Step

def start (data : ℕ → UInt8) : Conf T := ⟨pipealloc data, fun _ => .idle⟩

/-! ## The invariant -/

/-- The bytes in the ring. -/
def Pipe.items (p : Pipe) : List UInt8 := Ring.items pipeSize p.data p.nread p.nwrite

structure Inv (s : St) : Prop where
  count : Ring.count s.pipe.nread s.pipe.nwrite ≤ pipeSize
  fifo : s.accepted = s.dequeued ++ s.pipe.items

theorem inv_pipealloc (data : ℕ → UInt8) : Inv (pipealloc data) := by
  constructor
  · show Ring.count 0 0 ≤ pipeSize
    rw [Ring.count_self]
    exact Nat.zero_le _
  · show [] = [] ++ Ring.items pipeSize data 0 0
    rw [Ring.items_self]
    rfl

variable {s : St}

theorem Inv.put (h : Inv s) (hfull : s.pipe.nwrite ≠ s.pipe.nread + BitVec.ofNat 32 pipeSize)
    (ch : UInt8) : Inv (s.put ch) := by
  have hcount := h.count
  have hne : Ring.count s.pipe.nread s.pipe.nwrite ≠ pipeSize := fun he =>
    hfull ((Ring.count_eq_iff (by decide)).1 he)
  have hlt : Ring.count s.pipe.nread s.pipe.nwrite < pipeSize := by omega
  have hn : Ring.count s.pipe.nread s.pipe.nwrite + 1 < 2 ^ 32 := by
    unfold pipeSize at hlt
    omega
  constructor
  · show Ring.count s.pipe.nread (s.pipe.nwrite + 1#32) ≤ pipeSize
    rw [Ring.count_push hn]
    exact hlt
  · show s.accepted ++ [ch] = s.dequeued ++ Ring.items pipeSize
      (Function.update s.pipe.data (Ring.slot pipeSize s.pipe.nwrite) ch) s.pipe.nread
      (s.pipe.nwrite + 1#32)
    rw [Ring.items_push (by decide) hlt hn, h.fifo, List.append_assoc]
    rfl

theorem Inv.take (h : Inv s) (hne : s.pipe.nread ≠ s.pipe.nwrite) : Inv s.take := by
  have hcount := h.count
  have hpop := Ring.count_pop hne
  constructor
  · show Ring.count (s.pipe.nread + 1#32) s.pipe.nwrite ≤ pipeSize
    omega
  · show s.accepted = (s.dequeued ++ [_]) ++ Ring.items pipeSize _ (s.pipe.nread + 1#32) s.pipe.nwrite
    rw [h.fifo, List.append_assoc]
    congr 1
    exact Ring.items_pop (by decide) hne

theorem Inv.pipewrite (src : ℕ → Option UInt8) (killed : ℕ → Bool) (m : ℕ) :
    ∀ {s : St} {i : ℕ}, Inv s → Inv (pipewrite src killed s i m).1 := by
  induction m with
  | zero => exact fun h => h
  | succ m ih =>
    intro s i h
    unfold Pipe.pipewrite
    split_ifs with hclosed hfull
    · exact h
    · exact h
    · cases src i with
      | none => exact h
      | some ch => exact ih (h.put hfull ch)

theorem Inv.readLoop (dst : ℕ → Bool) (m : ℕ) :
    ∀ {s : St} {i : ℕ}, Inv s → Inv (readLoop dst s i m).1 := by
  induction m with
  | zero => exact fun h => h
  | succ m ih =>
    intro s i h
    unfold Pipe.readLoop
    split_ifs with hempty
    · exact h
    · exact ih (h.take hempty)
    · exact h.take hempty

theorem Inv.piperead (h : Inv s) (dst : ℕ → Bool) (killed : Bool) (n : ℤ) :
    Inv (piperead dst killed n s).1 := by
  unfold Pipe.piperead
  split_ifs
  · exact h
  · exact h
  · exact h.readLoop dst n.toNat

theorem Inv.pipeclose (h : Inv s) (writable : Bool) : Inv (s.pipeclose writable) := by
  unfold St.pipeclose
  split_ifs <;> exact ⟨h.count, h.fifo⟩

theorem Inv.step {c c' : Conf T} (h : Inv c.st) (hs : Step c c') : Inv c'.st := by
  cases hs with
  | write n src killed => exact h.pipewrite src killed _
  | rewrite src killed => exact h.pipewrite src killed _
  | read n dst killed => exact h.piperead dst killed n
  | reread dst killed => exact h.piperead dst killed _
  | close writable => exact h.pipeclose writable

theorem reach_inv {data : ℕ → UInt8} {c : Conf T} (h : Reach (start data) c) : Inv c.st := by
  induction h with
  | refl => exact inv_pipealloc data
  | tail _ hs ih => exact ih.step hs

/-! ## First in, first out -/

theorem length_readLoop (dst : ℕ → Bool) (m : ℕ) : ∀ {s : St} {i : ℕ},
    s.dequeued.length ≤ (readLoop dst s i m).1.dequeued.length := by
  induction m with
  | zero => exact fun {_ _} => le_rfl
  | succ m ih =>
    intro s i
    have htake : s.dequeued.length ≤ s.take.dequeued.length := by
      show _ ≤ (s.dequeued ++ [_]).length
      rw [List.length_append]
      exact Nat.le_add_right _ _
    unfold readLoop
    split_ifs
    · exact le_rfl
    · exact htake.trans ih
    · exact htake

/-- A `piperead` that ends without dequeuing anything finds the pipe empty and its write end
closed, unless it returns -1 or sleeps. -/
theorem piperead_zero {dst : ℕ → Bool} {killed : Bool} {n : ℤ} {s' : St} (hn : 0 < n)
    (h : piperead dst killed n s = (s', .ret 0)) (hd : s'.dequeued = s.dequeued) :
    s.pipe.nread = s.pipe.nwrite ∧ s.pipe.writeopen = false := by
  unfold piperead at h
  split_ifs at h with hwait hkill
  · exact absurd (Exit.ret.inj (congrArg Prod.snd h)) (by decide)
  · exact absurd (congrArg Prod.snd h) nofun
  · have hempty : s.pipe.nread = s.pipe.nwrite := by
      by_contra hne
      obtain ⟨m, hm⟩ : ∃ m, n.toNat = m + 1 := ⟨n.toNat - 1, by omega⟩
      have hlen : s.take.dequeued.length ≤ s'.dequeued.length := by
        rw [hm] at h
        unfold readLoop at h
        rw [if_neg hne] at h
        split_ifs at h
        · have hs : (readLoop dst s.take 1 m).1 = s' := congrArg Prod.fst h
          rw [← hs]
          exact length_readLoop dst m
        · have hs : s.take = s' := congrArg Prod.fst h
          rw [hs]
      rw [hd] at hlen
      have : s.take.dequeued.length = s.dequeued.length + 1 := List.length_append
      omega
    refine ⟨hempty, ?_⟩
    by_contra hne
    exact hwait ⟨hempty, eq_true_of_ne_false hne⟩

/-- **A pipe is a queue**: in every run the ring holds at most `pipeSize` bytes, the bytes accepted
are those dequeued followed by those in the ring, and `piperead` reports the end of the data only
when the pipe is empty and its write end is closed. -/
theorem pipe_fifo {data : ℕ → UInt8} {c : Conf T} (h : Reach (start data) c) :
    (c.st.pipe.nwrite - c.st.pipe.nread).toNat ≤ pipeSize ∧
    c.st.accepted = c.st.dequeued ++
      ((List.range (c.st.pipe.nwrite - c.st.pipe.nread).toNat).map fun k =>
        c.st.pipe.data ((c.st.pipe.nread.toNat + k) % pipeSize)) ∧
    c.st.dequeued <+: c.st.accepted ∧
    ∀ dst killed n s', 0 < n → piperead dst killed n c.st = (s', .ret 0) →
      s'.dequeued = c.st.dequeued → c.st.pipe.nread = c.st.pipe.nwrite ∧ c.st.pipe.writeopen = false := by
  have hi := reach_inv h
  refine ⟨hi.count, hi.fifo, ⟨_, hi.fifo.symm⟩, ?_⟩
  intro dst killed n s' hn he hd
  exact piperead_zero hn he hd

/-- Two bytes are written, and one of them read. -/
theorem pipe_fifo_two : ∃ c : Conf (Fin 2), Reach (start fun _ => 0) c ∧
    c.st.accepted = [7, 8] ∧ c.st.dequeued = [7] ∧ c.st.dequeued <+: c.st.accepted := by
  have hw := Step.write (c := start (T := Fin 2) fun _ => 0) (t := 0) 2
    (fun j => [7, 8][j]?) (fun _ => false) rfl
  have hr := Step.read (t := 1) 1 (fun _ => true) false
    (show (Conf.leave (start (T := Fin 2) fun _ => 0) 0 (.write 2)
      (pipewrite (fun j => [7, 8][j]?) (fun _ => false) (pipealloc fun _ => 0) 0 2)).phase 1 = .idle
      from rfl)
  have hreach := (Relation.ReflTransGen.single hw).tail hr
  exact ⟨_, hreach, by decide, by decide +kernel, (pipe_fifo hreach).2.2.1⟩

/-! ## Reading to a destination that can be written -/

/-- The bytes that the second loop of `piperead` stores in user memory. -/
def readStores (dst : ℕ → Bool) (s : St) (i : ℕ) : ℕ → List UInt8
  | 0 => []
  | m + 1 =>
    if s.pipe.nread = s.pipe.nwrite then []
    else if dst i then
      s.pipe.data (Ring.slot pipeSize s.pipe.nread) :: readStores dst s.take (i + 1) m
    else []

theorem items_take (hne : s.pipe.nread ≠ s.pipe.nwrite) :
    s.pipe.items = s.pipe.data (Ring.slot pipeSize s.pipe.nread) :: s.take.pipe.items :=
  Ring.items_pop (by decide) hne

/-- The bytes that `piperead` stores in user memory from the test of its first loop on. -/
def stored (dst : ℕ → Bool) (n : ℤ) (s : St) : List UInt8 :=
  if s.pipe.nread = s.pipe.nwrite ∧ s.pipe.writeopen = true then []
  else readStores dst s 0 n.toNat

def oneByte : St := (pipealloc fun _ => 0).put 7

end Xv6.Pipe
