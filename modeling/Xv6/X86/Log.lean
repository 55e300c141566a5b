import Xv6.Holdings
import Xv6.Threads.Prog

/-!
# The log of the x86 kernel

`begin_op`, `log_write`, `end_op` and `commit` of the x86 kernel's `log.c` on any number of threads.
What `log.lock` protects is changed in one action; `log_write` reads `log.lh.n`, `log.size` and
`log.outstanding` before it takes the lock, and each of these reads is an action of its own. Blocks
have no contents here.

`op t` lists the distinct blocks that the current operation of thread `t` has logged, and `wrote`
the blocks that `write_log` has written; no action reads them.
-/

namespace Xv6.X86

open Function Xv6.Threads Finset

/-- The largest number of blocks that an operation writes. -/
def maxOpBlocks : ℕ := 10

def logSize : ℕ := maxOpBlocks * 3

/-- The number of blocks that `mkfs` gives to the log. -/
def nlog : ℕ := logSize

/-- `struct log`. Entry `i` of `block` is `lh.block[i]`, and its length is `lh.n`. -/
structure Log (T : Type) where
  start : ℕ
  size : ℕ
  outstanding : ℤ
  committing : Bool
  block : List ℕ
  op : T → Option (List ℕ)
  wrote : List ℕ

inductive LogAct where
  /-- `begin_op`, when it need not sleep. -/
  | reserve
  | getN
  | getSize
  | getOutstanding
  /-- `log_write` under `log.lock`. -/
  | append (b : ℕ)
  /-- `end_op` under `log.lock`; returns `do_commit`. -/
  | leave
  /-- One round of `write_log`. -/
  | writeLog (tail : ℕ)
  /-- `log.lh.n = 0`. -/
  | clear
  /-- `log.committing = 0`. -/
  | finish
  | panic (msg : String)

@[reducible] def LogAct.Ret : LogAct → Type
  | .getN => ℕ
  | .getSize => ℕ
  | .getOutstanding => ℤ
  | .leave => Bool
  | .panic _ => Empty
  | _ => Unit

variable {T : Type} [DecidableEq T]

/-- The distinct blocks of an operation that logs `b`. -/
def logged (b : ℕ) (l : List ℕ) : List ℕ := if b ∈ l then l else b :: l

def logExec : (a : LogAct) → T → Log T → Outcome (Log T) a.Ret
  | .reserve, t, s =>
    if s.committing then .wait
    else if s.block.length + (s.outstanding + 1) * maxOpBlocks > logSize then .wait
    else .done ()
      { s with outstanding := s.outstanding + 1, op := update s.op t (some []) }
  | .getN, _, s => .done s.block.length s
  | .getSize, _, s => .done s.size s
  | .getOutstanding, _, s => .done s.outstanding s
  | .append b, t, s => .done ()
      { s with
        block := if b ∈ s.block then s.block else s.block ++ [b]
        op := update s.op t ((s.op t).map (logged b)) }
  | .leave, t, s =>
    if s.committing then .panic "log.committing"
    else .done (decide (s.outstanding - 1 = 0))
      { s with
        outstanding := s.outstanding - 1
        committing := decide (s.outstanding - 1 = 0)
        op := update s.op t none }
  | .writeLog tail, _, s => .done () { s with wrote := (s.start + tail + 1) :: s.wrote }
  | .clear, _, s => .done () { s with block := [] }
  | .finish, _, s => .done () { s with committing := false }
  | .panic m, _, _ => .panic m

abbrev LogP := Prog LogAct LogAct.Ret

abbrev logDo (a : LogAct) : LogP a.Ret := Prog.perform a

def beginOp : LogP Unit := logDo .reserve

/-- The caller has modified block `b`. -/
def logWrite (b : ℕ) : LogP Unit := do
  let n ← logDo .getN
  if n ≥ logSize then .act (.panic "too big a transaction") Empty.elim
  else do
    let n ← logDo .getN
    let size ← logDo .getSize
    if (n : ℤ) ≥ size - 1 then .act (.panic "too big a transaction") Empty.elim
    else do
      let o ← logDo .getOutstanding
      if o < 1 then .act (.panic "log_write outside of trans") Empty.elim
      else logDo (.append b)

/-- The loop of `write_log`; `fuel` bounds the rounds. -/
def writeLogFrom : ℕ → ℕ → LogP Unit
  | _, 0 => return ()
  | tail, fuel + 1 => do
    let n ← logDo .getN
    if tail < n then do
      logDo (.writeLog tail)
      writeLogFrom (tail + 1) fuel
    else return ()

/-- `commit`. Installing the blocks and writing the header change nothing that is modelled. -/
def commit : LogP Unit := do
  let n ← logDo .getN
  if n > 0 then do
    writeLogFrom 0 (logSize + 1)
    logDo .clear
  else return ()

def endOp : LogP Unit := do
  let doCommit ← logDo .leave
  if doCommit then do
    commit
    logDo .finish
  else return ()

inductive LogCall where
  | beginOp
  | logWrite (b : ℕ)
  | endOp

/-- The clients: calls are made in operations, and an operation logs at most `k` distinct blocks. -/
def logMay (k : ℕ) : LogCall → T → Log T → Prop
  | .beginOp, t, s => s.op t = none
  | .logWrite b, t, s =>
    match s.op t with
    | none => False
    | some l => b ∈ l ∨ l.length < k
  | .endOp, t, s => s.op t ≠ none

/-- Any number of threads whose operations log at most `k` distinct blocks each. -/
def logSys (k : ℕ) : Sys T LogAct LogAct.Ret LogCall (Log T) where
  exec := logExec
  may := logMay k
  code := fun c _ =>
    match c with
    | .beginOp => beginOp
    | .logWrite b => logWrite b
    | .endOp => endOp
  cond := fun _ _ _ => True

/-- The log after `initlog`. -/
def initlog (start : ℕ) : Log T where
  start := start
  size := nlog
  outstanding := 0
  committing := false
  block := []
  op := fun _ => none
  wrote := []

/-! ## The invariant -/

/-- A thread commits, and has cleared the log or not, or does not commit. -/
inductive Stage where
  | client
  | commit
  | cleared
  deriving DecidableEq

/-- The ghost value of a thread: its operation and its stage. -/
structure LogGh where
  op : Option (List ℕ)
  stage : Stage

/-- The blocks that an operation may still log. -/
def room (k : ℕ) : Option (List ℕ) → ℕ
  | none => 0
  | some l => k - l.length

def inOp : Option (List ℕ) → ℕ
  | none => 0
  | some _ => 1

variable [Fintype T]

/-- The log has room for what the operations may still log. -/
structure LogInv (start : ℕ) (s : Log T) (G : T → LogGh) : Prop where
  start_eq : s.start = start
  size_eq : s.size = nlog
  op_eq : ∀ t, s.op t = (G t).op
  out : s.outstanding = ∑ t, (inOp (s.op t) : ℤ)
  space : s.block.length + ∑ t, room (maxOpBlocks - 1) (s.op t) ≤ 28
  absorbed : ∀ {t l b}, s.op t = some l → b ∈ l → b ∈ s.block
  committer : ∀ {t}, (G t).stage ≠ .client → s.committing ∧ s.outstanding = 0
  one : ∀ {t u}, (G t).stage ≠ .client → (G u).stage ≠ .client → t = u
  cleared : ∀ {t}, (G t).stage = .cleared → s.block = []
  busy : s.committing → s.outstanding = 0
  quiet : s.committing = false → s.outstanding = 0 → s.block = []
  wrote : ∀ b ∈ s.wrote, start ≤ b ∧ b < start + nlog

section Rules

variable {start : ℕ} {s : Log T} {G : T → LogGh} {t : T} {g : LogGh} {α : Type}
  {Q : α → LogGh → Prop} {R : Unit → LogGh → Prop}

/-- `Ok` for operations that log at most nine blocks. Nothing panics. -/
abbrev LogOk (start : ℕ) {α : Type} (t : T) (p : LogP α) (g : LogGh) (Q : α → LogGh → Prop) : Prop :=
  Ok (logSys (maxOpBlocks - 1)) (LogInv start) (fun _ => False) t p g Q

theorem sum_op_update {M : Type} [AddCommMonoid M] (F : Option (List ℕ) → M) (x : Option (List ℕ)) :
    ∑ u, F (update s.op t x u) + F (s.op t) = ∑ u, F (s.op u) + F x := by
  have h := sum_update_add (mem_univ t) (fun u => F (s.op u)) (F x)
  have hfun : ∀ u, F (update s.op t x u) = update (fun u => F (s.op u)) t (F x) u := by
    intro u
    exact apply_update (fun _ => F) s.op t x u
  rw [sum_congr rfl fun u _ => hfun u]
  exact h

theorem LogInv.out_nonneg (h : LogInv start s G) : 0 ≤ s.outstanding := by
  rw [h.out]
  exact sum_nonneg fun u _ => by omega

/-- The room that the operations have is at most nine blocks each. -/
theorem LogInv.room_le (h : LogInv start s G) :
    (∑ u, room (maxOpBlocks - 1) (s.op u) : ℕ) ≤ 9 * s.outstanding := by
  rw [h.out, mul_sum]
  push_cast
  apply sum_le_sum
  intro u _
  cases s.op u with
  | none => simp [room, inOp]
  | some l =>
    simp only [room, inOp, maxOpBlocks]
    omega

theorem LogInv.out_pos (h : LogInv start s G) (ht : s.op t ≠ none) : 1 ≤ s.outstanding := by
  rw [h.out, ← add_sum_erase univ _ (mem_univ t)]
  have hrest : (0 : ℤ) ≤ ∑ u ∈ univ.erase t, (inOp (s.op u) : ℤ) := sum_nonneg fun u _ => by omega
  cases hop : s.op t with
  | none => exact absurd hop ht
  | some l =>
    have hone : inOp (some l) = 1 := rfl
    rw [hone]
    push_cast
    omega

theorem ok_reserve (hs : g.stage = .client) (hop : g.op = none)
    (hk : R () ⟨some [], .client⟩) : LogOk start t beginOp g R := by
  intro s G h hg _
  subst hg
  change (∀ m, logExec .reserve t s = .panic m → False) ∧ ∀ b s', logExec .reserve t s = .done b s' →
    ∃ g', LogInv start s' (update G t g') ∧ R () g'
  simp only [logExec]
  split
  · exact ⟨(fun m hm => by cases hm), fun b s' hd => by cases hd⟩
  · rename_i hcom
    split
    · exact ⟨(fun m hm => by cases hm), fun b s' hd => by cases hd⟩
    · rename_i hspace
      refine ⟨(fun m hm => by cases hm), ?_⟩
      intro b s' hd
      cases hd
      refine ⟨_, ?_, hk⟩
      have hnone : s.op t = none := (h.op_eq t).trans hop
      have hroom := h.room_le
      have hnn := h.out_nonneg
      have hclient : ∀ {u}, (update G t ⟨some [], .client⟩ u).stage ≠ .client → False := by
        intro u hu
        by_cases hut : u = t
        · rw [hut, update_self] at hu
          exact hu rfl
        · rw [update_of_ne hut] at hu
          exact hcom (h.committer hu).1
      constructor
      · exact h.start_eq
      · exact h.size_eq
      · intro u
        show update s.op t _ u = _
        by_cases hut : u = t
        · subst hut
          rw [update_self, update_self]
        · rw [update_of_ne hut, update_of_ne hut]
          exact h.op_eq u
      · have hsum := sum_op_update (s := s) (t := t) (fun o => (inOp o : ℤ)) (some [])
        rw [hnone] at hsum
        simp only [inOp, Nat.cast_zero, Nat.cast_one, add_zero] at hsum
        rw [h.out]
        exact hsum.symm
      · have hsum := sum_op_update (s := s) (t := t) (room (maxOpBlocks - 1)) (some [])
        rw [hnone] at hsum
        have hzero : room (maxOpBlocks - 1) none = 0 := rfl
        have hnine : room (maxOpBlocks - 1) (some []) = 9 := rfl
        rw [hzero, hnine, add_zero] at hsum
        simp only [maxOpBlocks, logSize] at hspace
        push_cast at hspace
        show s.block.length + ∑ u, room (maxOpBlocks - 1) (update s.op t (some []) u) ≤ 28
        rw [hsum]
        by_cases h0 : s.outstanding = 0
        · have hb := h.quiet (by simpa using hcom) h0
          rw [h0] at hroom
          rw [hb, List.length_nil]
          omega
        · omega
      · intro u l b hu hb
        change update s.op t (some []) u = some l at hu
        obtain ⟨rfl, ⟨⟩⟩ | ⟨-, hu⟩ := update_cases hu
        · cases hb
        · exact h.absorbed hu hb
      · intro u hu
        exact (hclient hu).elim
      · intro u v hu
        exact (hclient hu).elim
      · intro u hu
        exact (hclient (by rw [hu]; simp)).elim
      · intro hc
        exact absurd hc hcom
      · intro _ h0
        change s.outstanding + 1 = 0 at h0
        omega
      · exact h.wrote

theorem log_done {a : LogAct} {k : a.Ret → LogP α}
    (h : ∀ s G, LogInv start s G → G t = g → ∃ b s', logExec a t s = .done b s' ∧
      ∃ g', LogInv start s' (update G t g') ∧ LogOk start t (k b) g' Q) :
    LogOk start t (.act a k) g Q :=
  ok_done fun s G hI hg _ => h s G hI hg

theorem ok_getN {k : ℕ → LogP α} (hk : ∀ n ≤ 28, LogOk start t (k n) g Q) :
    LogOk start t (.act .getN k) g Q := by
  apply log_done
  intro s G h hg
  refine ⟨_, _, rfl, g, ?_, hk _ ?_⟩
  · rwa [← hg, update_eq_self]
  · have := h.space
    omega

theorem ok_getSize {k : ℕ → LogP α} (hk : LogOk start t (k nlog) g Q) :
    LogOk start t (.act .getSize k) g Q := by
  apply log_done
  intro s G h hg
  refine ⟨_, _, rfl, g, ?_, ?_⟩
  · rwa [← hg, update_eq_self]
  · rw [h.size_eq]
    exact hk

theorem ok_getOutstanding {k : ℤ → LogP α} (hop : g.op ≠ none)
    (hk : ∀ o, 1 ≤ o → LogOk start t (k o) g Q) : LogOk start t (.act .getOutstanding k) g Q := by
  apply log_done
  intro s G h hg
  refine ⟨_, _, rfl, g, ?_, hk _ (h.out_pos (t := t) ?_)⟩
  · rwa [← hg, update_eq_self]
  · rw [h.op_eq t, hg]
    exact hop

theorem ok_append {k : Unit → LogP α} {b : ℕ} {l : List ℕ} (hop : g.op = some l)
    (hs : g.stage = .client) (hb : b ∈ l ∨ l.length < maxOpBlocks - 1)
    (hk : LogOk start t (k ()) ⟨some (logged b l), .client⟩ Q) :
    LogOk start t (.act (.append b) k) g Q := by
  apply log_done
  intro s G h hg
  subst hg
  refine ⟨_, _, rfl, _, ?_, hk⟩
  have hsome : s.op t = some l := (h.op_eq t).trans hop
  have hpos := h.out_pos (t := t) (by rw [hsome]; simp)
  rw [hsome, Option.map_some]
  have hstage : ∀ {u}, (update G t ⟨some (logged b l), .client⟩ u).stage = (G u).stage := by
    intro u
    by_cases hut : u = t
    · rw [hut, update_self, hs]
    · rw [update_of_ne hut]
  have hnew : b ∈ (if b ∈ s.block then s.block else s.block ++ [b]) := by
    split
    · assumption
    · simp
  have hold : ∀ {x}, x ∈ s.block → x ∈ (if b ∈ s.block then s.block else s.block ++ [b]) := by
    intro x hx
    split
    · exact hx
    · exact List.mem_append_left _ hx
  constructor
  · exact h.start_eq
  · exact h.size_eq
  · intro u
    show update s.op t _ u = _
    by_cases hut : u = t
    · subst hut
      rw [update_self, update_self]
    · rw [update_of_ne hut, update_of_ne hut]
      exact h.op_eq u
  · have hsum := sum_op_update (s := s) (t := t) (fun o => (inOp o : ℤ)) (some (logged b l))
    rw [hsome] at hsum
    rw [h.out]
    exact (add_right_cancel hsum).symm
  · have hsum := sum_op_update (s := s) (t := t) (room (maxOpBlocks - 1)) (some (logged b l))
    rw [hsome] at hsum
    have hsp := h.space
    have hroom : ∀ l, room (maxOpBlocks - 1) (some l) = maxOpBlocks - 1 - l.length := fun _ => rfl
    rw [hroom, hroom] at hsum
    show (if b ∈ s.block then s.block else s.block ++ [b]).length +
      ∑ u, room (maxOpBlocks - 1) (update s.op t (some (logged b l)) u) ≤ 28
    by_cases hin : b ∈ s.block
    · rw [if_pos hin]
      have hlen : l.length ≤ (logged b l).length := by
        unfold logged
        split
        · exact le_rfl
        · simp
      omega
    · -- a new block of the log is a new block of the operation
      have hbl : b ∉ l := fun hbl => hin (h.absorbed hsome hbl)
      have hlt := hb.resolve_left hbl
      rw [if_neg hin, List.length_append, List.length_singleton]
      rw [logged, if_neg hbl, List.length_cons] at hsum
      rw [logged, if_neg hbl]
      omega
  · intro u l' x hu hx
    change update s.op t _ u = some l' at hu
    obtain ⟨rfl, ⟨⟩⟩ | ⟨-, hu⟩ := update_cases hu
    · unfold logged at hx
      split at hx
      · exact hold (h.absorbed hsome hx)
      · rcases List.mem_cons.1 hx with rfl | hx
        · exact hnew
        · exact hold (h.absorbed hsome hx)
    · exact hold (h.absorbed hu hx)
  · intro u hu
    rw [hstage] at hu
    exact h.committer hu
  · intro u v hu hv
    rw [hstage] at hu hv
    exact h.one hu hv
  · intro u hu
    rw [hstage] at hu
    have h0 := (h.committer (t := u) (by rw [hu]; simp)).2
    omega
  · exact h.busy
  · intro _ h0
    change s.outstanding = 0 at h0
    omega
  · exact h.wrote

theorem ok_leave {k : Bool → LogP α} (hop : g.op ≠ none) (hs : g.stage = .client)
    (ht : LogOk start t (k true) ⟨none, .commit⟩ Q) (hf : LogOk start t (k false) ⟨none, .client⟩ Q) :
    LogOk start t (.act .leave k) g Q := by
  apply log_done
  intro s G h hg
  subst hg
  have hsome : s.op t ≠ none := by
    rw [h.op_eq t]
    exact hop
  have hpos := h.out_pos hsome
  have hcom : s.committing = false := by
    cases hc : s.committing with
    | false => rfl
    | true =>
      have := h.busy hc
      omega
  have hclient : ∀ {u}, u ≠ t → (G u).stage = .client := by
    intro u _
    by_contra hu
    have := (h.committer hu).2
    omega
  -- the operation is over; the last one commits
  have key : ∀ st, (st = .commit ↔ s.outstanding - 1 = 0) → st ≠ .cleared →
      LogInv start { s with
        outstanding := s.outstanding - 1
        committing := decide (s.outstanding - 1 = 0)
        op := update s.op t none } (update G t ⟨none, st⟩) := by
    intro st hst hcl
    have hstage : ∀ {u}, (update G t ⟨none, st⟩ u).stage ≠ .client → u = t ∧ st = .commit := by
      intro u hu
      by_cases hut : u = t
      · rw [hut, update_self] at hu
        refine ⟨hut, ?_⟩
        cases st with
        | client => exact absurd rfl hu
        | commit => rfl
        | cleared => exact absurd rfl hcl
      · rw [update_of_ne hut] at hu
        exact absurd (hclient hut) hu
    constructor
    · exact h.start_eq
    · exact h.size_eq
    · intro u
      show update s.op t _ u = _
      by_cases hut : u = t
      · subst hut
        rw [update_self, update_self]
      · rw [update_of_ne hut, update_of_ne hut]
        exact h.op_eq u
    · obtain ⟨l, hl⟩ := Option.ne_none_iff_exists'.1 hsome
      have hsum := sum_op_update (s := s) (t := t) (fun o => (inOp o : ℤ)) none
      rw [hl] at hsum
      have hzero : inOp none = 0 := rfl
      have hone : inOp (some l) = 1 := rfl
      rw [hzero, hone] at hsum
      have hout := h.out
      show s.outstanding - 1 = ∑ u, (inOp (update s.op t none u) : ℤ)
      push_cast at hsum
      omega
    · have hsum := sum_op_update (s := s) (t := t) (room (maxOpBlocks - 1)) none
      have hsp := h.space
      have hzero : room (maxOpBlocks - 1) none = 0 := rfl
      show s.block.length + ∑ u, room (maxOpBlocks - 1) (update s.op t none u) ≤ 28
      omega
    · intro u l b hu hb
      change update s.op t none u = some l at hu
      rcases update_cases hu with ⟨-, hu⟩ | ⟨-, hu⟩
      · cases hu
      · exact h.absorbed hu hb
    · intro u hu
      have h0 := hst.1 (hstage hu).2
      exact ⟨by simpa using h0, h0⟩
    · intro u v hu hv
      exact (hstage hu).1.trans (hstage hv).1.symm
    · intro u hu
      have hst' := (hstage (u := u) (by rw [hu]; simp)).1
      rw [hst', update_self] at hu
      exact absurd hu hcl
    · intro hc
      simpa using hc
    · intro hc h0
      have : ¬ s.outstanding - 1 = 0 := by simpa using hc
      exact absurd h0 this
    · exact h.wrote
  by_cases h0 : s.outstanding - 1 = 0
  · refine ⟨true, _, ?_, _, key .commit (by simp [h0]) (by simp), ht⟩
    simp only [logExec, hcom]
    simp [h0]
  · refine ⟨false, _, ?_, _, key .client (by simp [h0]) (by simp), hf⟩
    simp only [logExec, hcom]
    simp [h0]

/-- A change of the stage of the committing thread, of the log and of what has been written. -/
theorem LogInv.commit (h : LogInv start s G) (hs : (G t).stage ≠ .client) {st : Stage}
    {s' : Log T} (heq : s' = { s with block := s'.block, wrote := s'.wrote })
    (hblock : s'.block = s.block ∨ s'.block = []) (hst : st = .commit ∨ (st = .cleared ∧ s'.block = []))
    (hw : ∀ b ∈ s'.wrote, start ≤ b ∧ b < start + nlog) :
    LogInv start s' (update G t { G t with stage := st }) := by
  obtain ⟨hcom, hout⟩ := h.committer hs
  have hnone : ∀ u, s.op u = none := by
    intro u
    by_contra hu
    have := h.out_pos hu
    omega
  have hstage : ∀ {u}, (update G t { G t with stage := st } u).stage ≠ .client → u = t := by
    intro u hu
    by_contra hut
    rw [update_of_ne hut] at hu
    exact hut (h.one hu hs)
  rw [heq]
  constructor
  · exact h.start_eq
  · exact h.size_eq
  · intro u
    by_cases hut : u = t
    · subst hut
      rw [update_self]
      exact h.op_eq u
    · rw [update_of_ne hut]
      exact h.op_eq u
  · exact h.out
  · have hsp := h.space
    have hlen : s'.block.length ≤ s.block.length := by
      rcases hblock with hb | hb <;> simp [hb]
    show s'.block.length + ∑ u, room (maxOpBlocks - 1) (s.op u) ≤ 28
    omega
  · intro u l b hu
    change s.op u = some l at hu
    rw [hnone u] at hu
    cases hu
  · intro u _
    exact ⟨hcom, hout⟩
  · intro u v hu hv
    exact (hstage hu).trans (hstage hv).symm
  · intro u hu
    have hut := hstage (u := u) (by rw [hu]; simp)
    rw [hut, update_self] at hu
    rcases hst with hst | hst
    · exact absurd (hst.symm.trans hu) (by simp)
    · exact hst.2
  · exact h.busy
  · intro hc
    change s.committing = false at hc
    rw [hcom] at hc
    cases hc
  · exact hw

theorem ok_writeLog {k : Unit → LogP α} {tail : ℕ} (hs : g.stage = .commit) (hop : g.op = none)
    (ht : tail < 28) (hk : LogOk start t (k ()) g Q) : LogOk start t (.act (.writeLog tail) k) g Q := by
  apply log_done
  intro s G h hg
  subst hg
  refine ⟨_, _, rfl, { G t with stage := .commit }, ?_, ?_⟩
  · refine h.commit (by rw [hs]; simp) rfl (.inl rfl) (.inl rfl) ?_
    intro b hb
    rcases List.mem_cons.1 hb with rfl | hb
    · rw [h.start_eq]
      simp only [nlog, logSize, maxOpBlocks]
      omega
    · exact h.wrote b hb
  · rw [← hs]
    exact hk

theorem ok_clear {k : Unit → LogP α} (hs : g.stage = .commit)
    (hk : LogOk start t (k ()) { g with stage := .cleared } Q) :
    LogOk start t (.act .clear k) g Q := by
  apply log_done
  intro s G h hg
  subst hg
  exact ⟨_, _, rfl, _, h.commit (by rw [hs]; simp) rfl (.inr rfl) (.inr ⟨rfl, rfl⟩) h.wrote, hk⟩

theorem ok_getN_commit {k : ℕ → LogP α} (hs : g.stage = .commit)
    (h0 : LogOk start t (k 0) { g with stage := .cleared } Q)
    (hk : ∀ n, 0 < n → LogOk start t (k n) g Q) : LogOk start t (.act .getN k) g Q := by
  apply log_done
  intro s G h hg
  subst hg
  by_cases hn : s.block.length = 0
  · refine ⟨0, s, by simp [logExec, hn], _, ?_, h0⟩
    have hb : s.block = [] := List.eq_nil_of_length_eq_zero hn
    exact h.commit (by rw [hs]; simp) rfl (.inl rfl) (.inr ⟨rfl, hb⟩) h.wrote
  · refine ⟨_, _, rfl, G t, ?_, hk _ (by omega)⟩
    rwa [update_eq_self]

theorem ok_finish (hs : g.stage = .cleared) (hop : g.op = none) (hk : R () ⟨none, .client⟩) :
    LogOk start t (logDo .finish) g R := by
  apply log_done
  intro s G h hg
  subst hg
  refine ⟨_, _, rfl, ⟨none, .client⟩, ?_, hk⟩
  have hblock := h.cleared hs
  have hclient : ∀ {u}, (update G t ⟨none, .client⟩ u).stage = .client := by
    intro u
    by_cases hut : u = t
    · rw [hut, update_self]
    · rw [update_of_ne hut]
      by_contra hu
      exact hut (h.one hu (by rw [hs]; simp))
  constructor
  · exact h.start_eq
  · exact h.size_eq
  · intro u
    by_cases hut : u = t
    · subst hut
      rw [update_self]
      exact (h.op_eq u).trans hop
    · rw [update_of_ne hut]
      exact h.op_eq u
  · exact h.out
  · exact h.space
  · exact h.absorbed
  · intro u hu
    exact absurd hclient hu
  · intro u v hu
    exact absurd hclient hu
  · intro u hu
    rw [hclient] at hu
    cases hu
  · intro hc
    cases hc
  · intro _ _
    exact hblock
  · exact h.wrote

/-! ## Calls -/

theorem ok_logWrite {b : ℕ} {l : List ℕ} (hop : g.op = some l) (hs : g.stage = .client)
    (hb : b ∈ l ∨ l.length < maxOpBlocks - 1) (hk : R () ⟨some (logged b l), .client⟩) :
    LogOk start t (logWrite b) g R := by
  simp only [logWrite, Prog.perform_bind]
  apply ok_getN
  intro n hn
  have hsize : ¬ n ≥ logSize := by
    simp only [logSize, maxOpBlocks]
    omega
  rw [if_neg hsize]
  apply ok_getN
  intro m hm
  apply ok_getSize
  have hlog : ¬ (m : ℤ) ≥ nlog - 1 := by
    simp only [nlog, logSize, maxOpBlocks]
    omega
  rw [if_neg hlog]
  refine ok_getOutstanding (by simp [hop]) ?_
  intro o ho
  rw [if_neg (not_lt.2 ho)]
  exact ok_append hop hs hb hk

theorem ok_writeLogFrom (hs : g.stage = .commit) (hop : g.op = none) (tail fuel : ℕ)
    (hk : R () g) : LogOk start t (writeLogFrom tail fuel) g R := by
  induction fuel generalizing tail with
  | zero => exact hk
  | succ fuel ih =>
    simp only [writeLogFrom, Prog.perform_bind]
    apply ok_getN
    intro n hn
    split
    · exact ok_writeLog hs hop (by omega) (ih (tail + 1))
    · exact hk

theorem ok_endOp (hop : g.op ≠ none) (hs : g.stage = .client) (hk : R () ⟨none, .client⟩) :
    LogOk start t endOp g R := by
  simp only [endOp, Prog.perform_bind]
  refine ok_leave hop hs ?_ ?_
  · rw [if_pos rfl]
    simp only [commit, Prog.perform_bind]
    refine ok_bind (ok_getN_commit rfl ?_ ?_)
    · exact ok_finish rfl rfl hk
    · intro n hn
      rw [if_pos hn]
      refine ok_bind (ok_writeLogFrom rfl rfl 0 _ ?_)
      exact ok_clear rfl (ok_finish rfl rfl hk)
  · rw [if_neg (by simp)]
    exact hk

end Rules

/-! ## Every run -/

theorem logInv_init (start : ℕ) : LogInv start (initlog start : Log T) fun _ => ⟨none, .client⟩ where
  start_eq := rfl
  size_eq := rfl
  op_eq := fun _ => rfl
  out := by simp [initlog, inOp]
  space := by simp [initlog, room]
  absorbed := fun hu => by cases hu
  committer := fun hu => absurd rfl hu
  one := fun hu => absurd rfl hu
  cleared := fun hu => by cases hu
  busy := fun hc => by cases hc
  quiet := fun _ _ => rfl
  wrote := fun b hb => by cases hb

theorem reach_log {start : ℕ} {c : Conf T LogAct LogAct.Ret (Log T)}
    (h : Reach (logSys (maxOpBlocks - 1)) (idle (initlog start)) c) :
    Good (logSys (maxOpBlocks - 1)) (LogInv start) (fun _ => False) (fun g => g.stage = .client) c := by
  have hgood : Good (logSys (maxOpBlocks - 1)) (LogInv start) (fun _ => False)
      (fun g => g.stage = .client) (idle (initlog start : Log T)) :=
    ⟨_, logInv_init start, fun _ => rfl⟩
  refine reach_ok ?_ hgood h
  intro s G t x hI hr hm
  refine ⟨G t, by rwa [update_eq_self], ?_⟩
  cases x with
  | beginOp =>
    have hop : s.op t = none := hm
    exact ok_reserve hr ((hI.op_eq t).symm.trans hop) rfl
  | logWrite b =>
    have hm' : logMay (maxOpBlocks - 1) (.logWrite b) t s := hm
    simp only [logMay] at hm'
    split at hm'
    · exact hm'.elim
    · rename_i l hl
      exact ok_logWrite ((hI.op_eq t).symm.trans hl) hr hm' rfl
  | endOp =>
    have hop : s.op t ≠ none := hm
    exact ok_endOp (by rw [← hI.op_eq t]; exact hop) hr rfl

/-- **The log of the x86 kernel, for operations that log at most nine blocks.** In every run in which
no operation logs more than `maxOpBlocks - 1` distinct blocks, nothing panics, the log never holds
more than `log.size - 1` blocks, and `write_log` writes only blocks of the log. -/
theorem x86_log_space {start : ℕ} {c : Conf T LogAct LogAct.Ret (Log T)}
    (h : Reach (logSys (maxOpBlocks - 1)) (idle (initlog start)) c) :
    c.msg = none ∧ c.state.block.length ≤ c.state.size - 1 ∧
      ∀ b ∈ c.state.wrote, c.state.start ≤ b ∧ b < c.state.start + c.state.size := by
  have hgood := reach_log h
  obtain ⟨G, hI⟩ := hgood.inv
  refine ⟨?_, ?_, ?_⟩
  · cases c with
    | live s thr => rfl
    | dead m s => exact hgood.1.elim
  · have := hI.space
    rw [hI.size_eq]
    simp only [nlog, logSize, maxOpBlocks]
    omega
  · rw [hI.start_eq, hI.size_eq]
    exact hI.wrote

/-! ## A full log -/

instance (k : ℕ) (x : LogCall) (t : T) (s : Log T) : Decidable ((logSys k).may x t s) :=
  match x with
  | .beginOp => inferInstanceAs (Decidable (s.op t = none))
  | .logWrite b =>
    match h : s.op t with
    | none => .isFalse fun hm => by simp [logSys, logMay, h] at hm
    | some l => decidable_of_iff (b ∈ l ∨ l.length < k) (by simp [logSys, logMay, h])
  | .endOp => inferInstanceAs (Decidable (s.op t ≠ none))

instance (k : ℕ) (a : LogAct) (t : T) (s : Log T) : Decidable ((logSys k).cond a t s) :=
  inferInstanceAs (Decidable True)

/-- Thread `t` makes a call and takes `n` actions. -/
def logSteps (t : Fin 3) (x : LogCall) (n : ℕ) : List (Fin 3 × Option LogCall) :=
  (t, some x) :: List.replicate n (t, none)

def logBegins : List (Fin 3 × Option LogCall) :=
  (List.finRange 3).flatMap fun t => logSteps t .beginOp 1

/-- Thread `t` logs `n` blocks of its own. -/
def logBlocks (t : Fin 3) (n : ℕ) : List (Fin 3 × Option LogCall) :=
  (List.range n).flatMap fun i => logSteps t (.logWrite (100 * t + i)) 5

def logNine : List (Fin 3 × Option LogCall) :=
  logBegins ++ (List.finRange 3).flatMap fun t => logBlocks t 9

theorem x86_log_space_nine : ∃ c : Conf (Fin 3) LogAct LogAct.Ret (Log (Fin 3)),
    c.state.block.length = 27 ∧ c.msg = none := by
  have hrun : ((run (logSys (maxOpBlocks - 1)) logNine (idle (initlog 2))).any fun c =>
      c.state.block.length == 27) = true := by decide
  cases hc : run (logSys (maxOpBlocks - 1)) logNine (idle (initlog 2)) with
  | none =>
    rw [hc] at hrun
    cases hrun
  | some c =>
    rw [hc] at hrun
    exact ⟨c, beq_iff_eq.1 hrun, (x86_log_space (reach_of_run hc)).1⟩

/-- Three operations that log ten blocks each: the last `log_write` panics. -/
theorem x86_log_write_panics : ∃ s, Reach (logSys maxOpBlocks) (idle (initlog 2 : Log (Fin 3)))
    (.dead "too big a transaction" s) :=
  reach_dead_of_run (by decide +kernel : (run (logSys maxOpBlocks)
    (logBegins ++ logBlocks 0 10 ++ logBlocks 1 10 ++ logBlocks 2 9 ++ logSteps 2 (.logWrite 209) 4)
    (idle (initlog 2 : Log (Fin 3)))).bind Conf.msg = some "too big a transaction")

end Xv6.X86
