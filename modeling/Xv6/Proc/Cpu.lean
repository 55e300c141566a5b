import Xv6.Proc.Model

/-!
# Locks and CPUs

What a thread knows about the state is its ghost value. The invariant of the process table is a
conjunction of parts, each about a few components of the state and of the ghost values. This module
has the first two: `Locks` says that a CPU holds the locks that the ghost value of the thread it
executes says, and that a thread which no CPU executes holds at most the lock of its process; `Cpus`
says which process a CPU has as `c->proc`, and in which state it is.
-/

namespace Xv6.Proc

open Function (update update_self update_of_ne)
open Xv6.Threads

/-- The thread of a slot that has not been started or has exited, or any other thread. -/
inductive Kind where
  | parked
  | busy
  deriving DecidableEq

/-- The ghost value of a thread. -/
structure Gh where
  kind : Kind
  /-- The locks that the CPU holds when it executes the thread. -/
  held : Lk → Bool
  /-- The lock that the thread is acquiring. -/
  spins : Option Lk
  /-- The scheduler has this process as `c->proc`. -/
  pick : Option ProcId
  /-- The state of the thread's process when a CPU executes it. -/
  mine : PState
  /-- The states of slots that the thread creates or reaps. -/
  know : ProcId → Option PState
  /-- The pid and the exit status of a zombie. -/
  zinfo : Option (ProcId × ℤ × ℤ)
  /-- A child of the thread's process, known under `wait_lock`. -/
  kid : Option ProcId
  /-- The new process, until it has a current directory. -/
  bare : Option ProcId
  /-- The new process, once its parent has been recorded. -/
  child : Option ProcId
  /-- The parent of the thread's process, known under `wait_lock`. -/
  par : Option ProcId
  /-- Processes that are not children of the thread's process, known under `wait_lock`. -/
  rep : ProcId → Bool
  /-- The parent of the thread's process does not sleep in `kwait`, known under `wait_lock`. -/
  woken : Bool
  /-- Processes that are not zombie children of the thread's process, known under `wait_lock`. -/
  scan : ProcId → Bool
  /-- The thread goes to sleep in `kwait`. -/
  noz : Bool
  /-- The processes that the thread has still to wake on a channel. -/
  due : Chan → ProcId → Bool
  /-- The condition that the thread goes to sleep on. -/
  commit : Option ℕ
  /-- The thread has seen that it holds the only reference to this inode. -/
  last : Option InodeId
  own : InodeId → ℕ
  cwd : Option InodeId
  /-- The sleep-locks that the thread's process holds. -/
  sl : InodeId → Bool
  /-- The thread has seen the `killed` flag of its process. -/
  marked : Bool

/-- Only the lock of `p`. -/
def only (p : ProcId) : Lk → Bool := fun l => decide (l = .proc p)

/-- The ghost value of a thread that holds no lock, of a process with these references and
sleep-locks. -/
def Gh.call (own : InodeId → ℕ) (cwd : Option InodeId) (sl : InodeId → Bool) (marked : Bool) : Gh where
  kind := .busy
  held := fun _ => false
  spins := none
  pick := none
  mine := .running
  know := fun _ => none
  zinfo := none
  kid := none
  bare := none
  child := none
  par := none
  rep := fun _ => false
  woken := false
  scan := fun _ => false
  noz := false
  due := fun _ _ => false
  commit := none
  last := none
  own := own
  cwd := cwd
  sl := sl
  marked := marked

/-- The ghost value of the thread of a slot that has not been started or has exited. -/
def Gh.parked (p : ProcId) : Gh :=
  { Gh.call (fun _ => 0) none (fun _ => false) false with kind := .parked, held := only p }

variable {ncpu : ℕ}

/-! ## Locks -/

/-- A CPU holds the locks that the thread it executes knows of. -/
structure Locks (on : Fin ncpu → Thr ncpu) (holder : Lk → Option (Fin ncpu))
    (spin : Fin ncpu → Option Lk) (held : Thr ncpu → Lk → Bool) (spins : Thr ncpu → Option Lk)
    (pick : Thr ncpu → Option ProcId) : Prop where
  sched : ∀ {c c'}, on c = .sched c' → c' = c
  holds : ∀ {l c}, holder l = some c ↔ held (on c) l = true
  off : ∀ {p}, (∀ c, on c ≠ .proc p) → held (.proc p) = only p ∧ spins (.proc p) = none
  away : ∀ {c p}, on c = .proc p →
    held (.sched c) = only p ∧ spins (.sched c) = none ∧ pick (.sched c) = some p
  spinning : ∀ c, spin c = spins (on c)

section Locks

variable {on : Fin ncpu → Thr ncpu} {holder : Lk → Option (Fin ncpu)} {spin : Fin ncpu → Option Lk}
  {held : Thr ncpu → Lk → Bool} {spins : Thr ncpu → Option Lk} {pick : Thr ncpu → Option ProcId}
  {c c' : Fin ncpu} {t u : Thr ncpu} {l : Lk} {p : ProcId}

variable (h : Locks on holder spin held spins pick)

include h

/-- A process's thread that holds a lock other than that of its process is executed. -/
theorem Locks.on_of_held (hu : held (.proc p) l) (hl : l ≠ .proc p) :
    ∃ c, on c = .proc p := by
  by_contra hoff
  push Not at hoff
  rw [(h.off hoff).1] at hu
  simp [only, hl] at hu

/-- Mutual exclusion: another process's thread that holds the lock holds the lock of its own
process, and is not executed. -/
theorem Locks.excl (hc : on c = t) (ht : held t l) (hu : held (.proc p) l)
    (hne : .proc p ≠ t) : l = .proc p ∧ ∀ c, on c ≠ .proc p := by
  have hoff : ∀ c, on c ≠ .proc p := by
    intro c' hc'
    have h1 : holder l = some c := h.holds.2 (by rw [hc]; exact ht)
    have h2 : holder l = some c' := h.holds.2 (by rw [hc']; exact hu)
    rw [h1] at h2
    cases h2
    exact hne (hc'.symm.trans hc)
  rw [(h.off hoff).1] at hu
  exact ⟨by simpa [only] using hu, hoff⟩

theorem Locks.excl' (hc : on c = t) (ht : held t l) (hu : held (.proc p) l)
    (hl : ∀ q, l ≠ .proc q) : .proc p = t := by
  by_contra hne
  exact hl p (h.excl hc ht hu hne).1

theorem Locks.sched_ne (hc : on c = t) (hp : on c' = .proc p) : .sched c' ≠ t := by
  intro he
  cases h.sched (hc.trans he.symm)
  rw [hc, ← he] at hp
  cases hp

theorem Locks.setSpin (hc : on c = t) (hinj : ∀ c', on c' = t → c' = c) (x : Option Lk) :
    Locks on holder (update spin c x) held (update spins t x) pick := by
  refine { h with off := ?_, away := ?_, spinning := ?_ }
  · intro p hoff
    have hne : .proc p ≠ t := fun he => hoff c (hc.trans he.symm)
    rw [update_of_ne hne]
    exact h.off hoff
  · intro c' p hp
    rw [update_of_ne (h.sched_ne hc hp)]
    exact h.away hp
  · intro c'
    by_cases hcc : c' = c
    · subst hcc
      rw [update_self, hc, update_self]
    · have hne : on c' ≠ t := fun he => hcc (hinj c' he)
      rw [update_of_ne hcc, update_of_ne hne]
      exact h.spinning c'

theorem Locks.setHeld (hc : on c = t) (hinj : ∀ c', on c' = t → c' = c) {x : Option (Fin ncpu)}
    {b : Bool} (hx : x = if b then some c else none) (hl : ∀ c', holder l = some c' → c' = c) :
    Locks on (update holder l x) spin
      (update held t (update (held t) l b)) spins pick := by
  refine { h with holds := ?_, off := ?_, away := ?_ }
  · intro m c'
    by_cases hcc : c' = c
    · subst hcc
      rw [hc, update_self]
      by_cases hm : m = l
      · subst hm
        rw [update_self, update_self, hx]
        cases b <;> simp
      · rw [update_of_ne hm, update_of_ne hm, h.holds, hc]
    · have hne : on c' ≠ t := fun he => hcc (hinj c' he)
      rw [update_of_ne hne]
      by_cases hm : m = l
      · subst hm
        rw [update_self, hx, ← h.holds]
        constructor
        · intro he
          cases b <;> simp at he
          exact absurd he.symm hcc
        · intro he
          exact absurd (hl c' he) hcc
      · rw [update_of_ne hm]
        exact h.holds
  · intro p hoff
    have hne : .proc p ≠ t := fun he => hoff c (hc.trans he.symm)
    rw [update_of_ne hne]
    exact h.off hoff
  · intro c' p hp
    rw [update_of_ne (h.sched_ne hc hp)]
    exact h.away hp

omit h in
/-- A process that no CPU executes, before CPU `c` switched from another thread. -/
theorem off_of_update (hne : on c ≠ .proc p) (hoff : ∀ c', update on c t c' ≠ .proc p) (c' : Fin ncpu) :
    on c' ≠ .proc p :=
  fun hc' => hoff c' (update_of hc' fun he => absurd (he ▸ hc') hne)

/-- CPU `c` switches to a thread that holds the same locks. -/
theorem Locks.switch (hh : held t = held (on c)) (hs : spins t = spins (on c)) :
    (∀ {l c'}, holder l = some c' ↔ held (update on c t c') l) ∧
      ∀ c', spin c' = spins (update on c t c') := by
  have key : ∀ c', held (update on c t c') = held (on c') ∧
      spins (update on c t c') = spins (on c') := by
    intro c'
    by_cases hcc : c' = c
    · rw [hcc, update_self]
      exact ⟨hh, hs⟩
    · rw [update_of_ne hcc]
      exact ⟨rfl, rfl⟩
  refine ⟨fun {l c'} => ?_, fun c' => ?_⟩
  · rw [(key c').1]
    exact h.holds
  · rw [(key c').2]
    exact h.spinning c'

/-- The scheduler of `c`, which holds only the lock of `p`, switches to `p`. -/
theorem Locks.enter (hc : on c = .sched c) (hoff : ∀ c', on c' ≠ .proc p)
    (hh : held (.sched c) = only p) (hs : spins (.sched c) = none) :
    Locks (update on c (.proc p)) holder spin held spins
      (update pick (.sched c) (some p)) := by
  obtain ⟨holds, spinning⟩ := h.switch (c := c) (t := .proc p) (by rw [hc, hh, (h.off hoff).1])
    (by rw [hc, hs, (h.off hoff).2])
  refine ⟨?_, holds, ?_, ?_, spinning⟩
  · intro c₁ c₂ he
    obtain ⟨-, ⟨⟩⟩ | ⟨-, he⟩ := update_cases he
    exact h.sched he
  · intro q hq
    exact h.off (off_of_update (by simp [hc]) hq)
  · intro c' q hq
    obtain ⟨rfl, ⟨⟩⟩ | ⟨hcc, hq⟩ := update_cases hq
    · exact ⟨hh, hs, update_self ..⟩
    · have hne : Thr.sched c' ≠ .sched c := by simpa using hcc
      rw [update_of_ne hne]
      exact h.away hq

/-- The thread of `p`, which holds only the lock of `p`, switches to the scheduler. -/
theorem Locks.leave (hc : on c = .proc p) (hh : held (.proc p) = only p)
    (hs : spins (.proc p) = none) : Locks (update on c (.sched c)) holder spin held spins pick := by
  obtain ⟨holds, spinning⟩ := h.switch (c := c) (t := .sched c) (by rw [hc, hh, (h.away hc).1])
    (by rw [hc, hs, (h.away hc).2.1])
  refine ⟨?_, holds, ?_, ?_, spinning⟩
  · intro c₁ c₂ he
    obtain ⟨rfl, ⟨⟩⟩ | ⟨-, he⟩ := update_cases he
    · rfl
    · exact h.sched he
  · intro q hq
    by_cases hqp : q = p
    · rw [hqp]
      exact ⟨hh, hs⟩
    · refine h.off (off_of_update ?_ hq)
      rw [hc]
      exact fun he => hqp (Thr.proc.inj he).symm
  · intro c' q hq
    obtain ⟨-, ⟨⟩⟩ | ⟨-, hq⟩ := update_cases hq
    exact h.away hq

/-- The scheduler forgets which process it ran. -/
theorem Locks.setPick (hc : on c = .sched c) (x : Option ProcId) :
    Locks on holder spin held spins (update pick (.sched c) x) := by
  refine { h with away := ?_ }
  intro c' p hp
  rw [update_of_ne (h.sched_ne hc hp)]
  exact h.away hp

end Locks

/-! ## CPUs -/

/-- Which process a CPU has as `c->proc`, and in which state it is. -/
structure Cpus (on : Fin ncpu → Thr ncpu) (cpuProc : Fin ncpu → Option ProcId)
    (holder : Lk → Option (Fin ncpu)) (state : ProcId → PState) (pick : Thr ncpu → Option ProcId)
    (mine : Thr ncpu → PState) : Prop where
  proc : ∀ {c p}, on c = .proc p → cpuProc c = some p
  sched : ∀ {c}, on c = .sched c → cpuProc c = pick (.sched c)
  one : ∀ {c c' p}, cpuProc c = some p → cpuProc c' = some p → c = c'
  runs : ∀ {c p}, cpuProc c = some p → state p = .running ∨ holder (.proc p) = some c
  running : ∀ {p}, state p = .running → ∃ c, cpuProc c = some p
  mine_eq : ∀ {c p}, on c = .proc p → state p = mine (.proc p)
  away : ∀ {p}, (∀ c, on c ≠ .proc p) → mine (.proc p) = .running
  back : ∀ {c p}, on c = .sched c → cpuProc c = some p → state p ≠ .running

section Cpus

variable {on : Fin ncpu → Thr ncpu} {cpuProc : Fin ncpu → Option ProcId}
  {holder : Lk → Option (Fin ncpu)} {state : ProcId → PState} {pick : Thr ncpu → Option ProcId}
  {mine : Thr ncpu → PState} {c c' : Fin ncpu} {t : Thr ncpu} {l : Lk} {p q : ProcId} {st : PState}

variable (h : Cpus on cpuProc holder state pick mine)

include h

/-- A thread is executed by one CPU. -/
theorem Cpus.inj (hs : ∀ {c c'}, on c = .sched c' → c' = c) (hc : on c = t) (hc' : on c' = t) :
    c' = c := by
  cases t with
  | sched c'' => rw [← hs hc, ← hs hc']
  | proc p => exact h.one (h.proc hc') (h.proc hc)

theorem Cpus.not_busy (hst : state q ≠ .running) (hl : holder (.proc q) = some c)
    (hc : cpuProc c ≠ some q) (c' : Fin ncpu) : on c' ≠ .proc q ∧ cpuProc c' ≠ some q := by
  have key : cpuProc c' ≠ some q := by
    intro he
    rcases h.runs he with h1 | h1
    · exact hst h1
    · rw [hl] at h1
      cases h1
      exact hc he
  exact ⟨fun he => key (h.proc he), key⟩

/-- Releasing a lock: that of a process only if the CPU does not have it as `c->proc`, or if it
runs. -/
theorem Cpus.setHolder (x : Option (Fin ncpu))
    (hx : ∀ p, l = .proc p → state p = .running ∨ (∀ c, cpuProc c = some p → x = some c)) :
    Cpus on cpuProc (update holder l x) state pick mine := by
  refine { h with runs := ?_ }
  intro c p hp
  by_cases hl : l = .proc p
  · rcases hx p hl with h1 | h1
    · exact .inl h1
    · subst hl
      rw [update_self]
      exact .inr (h1 c hp)
  · rw [update_of_ne (Ne.symm hl)]
    exact h.runs hp

theorem Cpus.setState (hst : state q ≠ .running) (hst' : st ≠ .running) (hoff : ∀ c, on c ≠ .proc q)
    :
    Cpus on cpuProc holder (update state q st) pick mine := by
  refine { h with runs := ?_, running := ?_, mine_eq := ?_, back := ?_ }
  · intro c p hp
    refine (h.runs hp).imp_left fun hr => update_of hr ?_
    rintro rfl
    exact absurd hr hst
  · intro p hp
    obtain ⟨-, hp⟩ | ⟨-, hp⟩ := update_cases hp
    · exact absurd hp hst'
    · exact h.running hp
  · intro c p hp
    refine update_of (h.mine_eq hp) ?_
    rintro rfl
    exact absurd hp (hoff c)
  · intro c p hc hp he
    obtain ⟨-, he⟩ | ⟨-, he⟩ := update_cases he
    · exact hst' he
    · exact h.back hc hp he

theorem Cpus.setSelf (hc : on c = .proc p) (hl : holder (.proc p) = some c) (hst : st ≠ .running) :
    Cpus on cpuProc holder (update state p st) pick (update mine (.proc p) st) := by
  refine { h with runs := ?_, running := ?_, mine_eq := ?_, away := ?_, back := ?_ }
  · intro c' q hq
    by_cases hqp : q = p
    · subst hqp
      cases h.one (h.proc hc) hq
      exact .inr hl
    · rw [update_of_ne hqp]
      exact h.runs hq
  · intro q hq
    obtain ⟨-, hq⟩ | ⟨-, hq⟩ := update_cases hq
    · exact absurd hq hst
    · exact h.running hq
  · intro c' q hq
    by_cases hqp : q = p
    · rw [hqp, update_self, update_self]
    · have hne : Thr.proc q ≠ (.proc p : Thr ncpu) := by simpa using hqp
      rw [update_of_ne hqp, update_of_ne hne]
      exact h.mine_eq hq
  · intro q hq
    exact update_of (h.away hq) fun he => absurd (hc.trans he.symm) (hq c)
  · intro c' q hc' hq he
    obtain ⟨-, he⟩ | ⟨-, he⟩ := update_cases he
    · exact hst he
    · exact h.back hc' hq he

theorem Cpus.enter (hc : on c = .sched c) (hoff : ∀ c', on c' ≠ .proc p ∧ cpuProc c' ≠ some p)
    (hnone : cpuProc c = none) :
    Cpus (update on c (.proc p)) (update cpuProc c (some p)) holder
      (update state p .running) (update pick (.sched c) (some p)) mine where
  proc := by
    intro c' q hq
    obtain ⟨rfl, ⟨⟩⟩ | ⟨hcc, hq⟩ := update_cases hq
    · exact update_self ..
    · rw [update_of_ne hcc]
      exact h.proc hq
  sched := by
    intro c' he
    obtain ⟨-, ⟨⟩⟩ | ⟨hcc, he⟩ := update_cases he
    have hne : Thr.sched c' ≠ .sched c := by simpa using hcc
    rw [update_of_ne hcc, update_of_ne hne]
    exact h.sched he
  one := by
    intro c₁ c₂ q h1 h2
    obtain ⟨rfl, ⟨⟩⟩ | ⟨-, h1⟩ := update_cases h1
    · obtain ⟨rfl, -⟩ | ⟨-, h2⟩ := update_cases h2
      · rfl
      · exact absurd h2 (hoff c₂).2
    · obtain ⟨-, ⟨⟩⟩ | ⟨-, h2⟩ := update_cases h2
      · exact absurd h1 (hoff c₁).2
      · exact h.one h1 h2
  runs := by
    intro c' q hq
    obtain ⟨-, ⟨⟩⟩ | ⟨-, hq⟩ := update_cases hq
    · exact .inl (update_self ..)
    · exact (h.runs hq).imp_left fun hr => update_of hr fun _ => rfl
  running := by
    intro q hq
    obtain ⟨rfl, -⟩ | ⟨-, hq⟩ := update_cases hq
    · exact ⟨c, update_self ..⟩
    · obtain ⟨c', hc'⟩ := h.running hq
      refine ⟨c', update_of hc' ?_⟩
      rintro rfl
      rw [hnone] at hc'
      cases hc'
  mine_eq := by
    intro c' q hq
    obtain ⟨-, ⟨⟩⟩ | ⟨-, hq'⟩ := update_cases hq
    · rw [update_self, h.away fun c' => (hoff c').1]
    · refine update_of (h.mine_eq hq') ?_
      rintro rfl
      exact absurd hq' (hoff c').1
  away := fun hq => h.away (off_of_update (by simp [hc]) hq)
  back := by
    intro c' q hc' hq
    obtain ⟨-, ⟨⟩⟩ | ⟨hcc, hc'⟩ := update_cases hc'
    rw [update_of_ne hcc] at hq
    have hqp : q ≠ p := fun he => (hoff c').2 (he ▸ hq)
    rw [update_of_ne hqp]
    exact h.back hc' hq

theorem Cpus.leave (hc : on c = .proc p) (hinj : ∀ c', on c' = .proc p → c' = c)
    (hp : pick (.sched c) = some p) (hst : state p ≠ .running) :
    Cpus (update on c (.sched c)) cpuProc holder state pick
      (update mine (.proc p) .running) := by
  refine { h with proc := ?_, sched := ?_, mine_eq := ?_, away := ?_, back := ?_ }
  · intro c' q hq
    obtain ⟨-, ⟨⟩⟩ | ⟨-, hq⟩ := update_cases hq
    exact h.proc hq
  · intro c' he
    obtain ⟨rfl, -⟩ | ⟨-, he⟩ := update_cases he
    · rw [hp]
      exact h.proc hc
    · exact h.sched he
  · intro c' q hq
    obtain ⟨-, ⟨⟩⟩ | ⟨hcc, hq⟩ := update_cases hq
    have hne : Thr.proc q ≠ (.proc p : Thr ncpu) := by
      rintro ⟨⟩
      exact hcc (hinj c' hq)
    rw [update_of_ne hne]
    exact h.mine_eq hq
  · intro q hq
    by_cases hqp : Thr.proc q = (.proc p : Thr ncpu)
    · rw [hqp, update_self]
    · rw [update_of_ne hqp]
      refine h.away (off_of_update ?_ hq)
      rw [hc]
      exact Ne.symm hqp
  · intro c' q hc' hq
    obtain ⟨rfl, -⟩ | ⟨-, hc'⟩ := update_cases hc'
    · rw [h.proc hc] at hq
      cases hq
      exact hst
    · exact h.back hc' hq

/-- The scheduler clears `c->proc` when it holds the lock of the process, which no longer runs. -/
theorem Cpus.clear (hc : on c = .sched c) :
    Cpus on (update cpuProc c none) holder state (update pick (.sched c) none)
      mine := by
  have old : ∀ {c' q}, update cpuProc c none c' = some q → cpuProc c' = some q := by
    intro c' q hq
    obtain ⟨-, ⟨⟩⟩ | ⟨-, hq⟩ := update_cases hq
    exact hq
  refine { h with
    proc := ?_, sched := ?_, one := fun h1 h2 => h.one (old h1) (old h2)
    runs := fun hq => h.runs (old hq), running := ?_, back := fun hc' hq => h.back hc' (old hq) }
  · intro c' q hq
    refine update_of (h.proc hq) ?_
    rintro rfl
    rw [hc] at hq
    cases hq
  · intro c' he
    by_cases hcc : c' = c
    · rw [hcc, update_self, update_self]
    · have hne : Thr.sched c' ≠ .sched c := by simpa using hcc
      rw [update_of_ne hcc, update_of_ne hne]
      exact h.sched he
  · intro q hq
    obtain ⟨c', hc'⟩ := h.running hq
    refine ⟨c', update_of hc' ?_⟩
    rintro rfl
    exact absurd hq (h.back hc hc')

end Cpus

end Xv6.Proc
