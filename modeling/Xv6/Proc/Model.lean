import Xv6.Threads.Prog

/-!
# Processes, the scheduler, sleep and wakeup

`proc.c` and `sleeplock.c` of the riscv kernel on any number of CPUs, with the parts of `fs.c` that
count references to inodes and take `itable.lock`. A kernel thread is the scheduler of a CPU or the
kernel thread of a process, and `on c` is the thread that CPU `c` executes: `swtch` changes it, and
a thread that no CPU executes does not move. `acquire` and `release` are actions of their own, and
so is every access to the fields that a lock protects. `myproc()` in the thread of a process is
that process.

A timer interrupt that preempts a process in the kernel is a call of `yield` at a point where the
process holds no lock; how many there are at each such point is read from the sequence `timer` of
the state, which is arbitrary. Whether memory can be allocated, and how often a loop around `sleep`
goes round before the end of the run that is looked at, are arguments of a call.

The field `hist` records what happened, newest event first; no action reads it. Entry `k` of `own`
is the number of references to inode `k` that a process holds besides its current directory.
-/

namespace Xv6.Proc

open Function (update)
open Xv6.Threads

def nproc : ℕ := 64

abbrev ProcId := Fin nproc

abbrev InodeId := Fin 50

inductive PState where
  | unused
  | used
  | sleeping
  | runnable
  | running
  | zombie
  deriving DecidableEq

/-- What a process can sleep on: a process, a condition of the kernel, or the sleep-lock of an
inode. -/
inductive Chan where
  | proc (p : ProcId)
  | cond (i : ℕ)
  | slk (k : InodeId)
  deriving DecidableEq

/-- The spin-locks: `p->lock`, `wait_lock`, `pid_lock`, `itable.lock`, the lock inside the sleep-lock
of an inode, and the locks that protect conditions. -/
inductive Lk where
  | proc (p : ProcId)
  | wait
  | pid
  | itable
  | slk (k : InodeId)
  | cond (i : ℕ)
  deriving DecidableEq

inductive Thr (ncpu : ℕ) where
  | sched (c : Fin ncpu)
  | proc (p : ProcId)
  deriving DecidableEq

/-- Where the saved context of a process resumes: in `forkret`, in a call of `sched`, or in the last
one of `kexit`. -/
inductive Ctx where
  | forkret
  | kernel
  | exited
  deriving DecidableEq

inductive Event where
  /-- `allocproc` gave slot `q` to a new process; `busy` says whether a CPU was executing on the
  kernel stack of `q` or had it as `c->proc`. -/
  | created (q : ProcId) (pid : ℤ) (busy : Bool)
  /-- `freeproc` freed slot `q`. -/
  | freed (q : ProcId) (busy : Bool)
  /-- `kkill pid` found slot `q` in state `st` and returned 0. -/
  | kill (pid : ℤ) (q : ProcId) (st : PState)
  | fault (p : ProcId)
  /-- Process `p` is terminated with status -1 because its `killed` flag is set. -/
  | killedExit (p : ProcId)
  | exit (q : ProcId) (pid status : ℤ)
  /-- `kwait` of `p` returns `pid` and copied `status` for the slot `q`, whose parent is `par`. -/
  | reap (p q : ProcId) (pid status : ℤ) (par : Option ProcId)
  /-- `kwait` of `p` failed to copy the status of `q`. -/
  | waitFail (p q : ProcId)
  /-- `sleep` returns to `p`; `held` says whether its CPU holds the condition lock `l`. -/
  | awake (p : ProcId) (l : Lk) (held : Bool)
  deriving DecidableEq

/-- The state of the machine: the fields of `proc[p]`, of the spin-locks, of `cpus[c]`, of the inode
table and of the conditions. -/
structure St (ncpu : ℕ) where
  state : ProcId → PState
  chan : ProcId → Option Chan
  killed : ProcId → Bool
  xstate : ProcId → ℤ
  pid : ProcId → ℤ
  parent : ProcId → Option ProcId
  ctx : ProcId → Ctx
  cwd : ProcId → Option InodeId
  own : ProcId → InodeId → ℕ
  /-- `lk->cpu`, if the lock is held. -/
  holder : Lk → Option (Fin ncpu)
  noff : Fin ncpu → ℕ
  /-- The lock that a CPU is spinning on. -/
  spin : Fin ncpu → Option Lk
  /-- `c->proc`. -/
  cpuProc : Fin ncpu → Option ProcId
  on : Fin ncpu → Thr ncpu
  nextpid : ℤ
  cond : ℕ → Bool
  ref : InodeId → ℤ
  /-- `ip->valid && ip->nlink == 0`. -/
  dead : InodeId → Bool
  /-- The process that holds the sleep-lock. -/
  slocked : InodeId → Option ProcId
  /-- How many timer interrupts there are at the next points where a process can be preempted. -/
  timer : ℕ → ℕ
  hist : List Event

def initproc : ProcId := ⟨0, by decide⟩

/-! ## Atomic actions -/

inductive Act where
  /-- `acquire` up to its loop. -/
  | spin (l : Lk)
  /-- The loop of `acquire`. -/
  | take (l : Lk)
  | release (l : Lk)
  /-- The scheduler's test of `p->state`. A process that can run becomes `c->proc`, and the CPU
  switches to it: `swtch(&c->context, &p->context)`. -/
  | pick (p : ProcId)
  /-- `c->proc = 0`. -/
  | clear
  /-- `p->state = RUNNABLE` in `yield`. -/
  | giveUp
  /-- `p->chan = chan; p->state = SLEEPING`. -/
  | doze (ch : Chan)
  | sched (ctx : Ctx)
  /-- `p->chan = 0`. -/
  | tidy
  /-- `sleep` returns. -/
  | awake (l : Lk)
  /-- Timer interrupts arrive. -/
  | ticks
  | start
  /-- The body of the loop of `wakeup`. -/
  | wake (q : ProcId) (ch : Option Chan)
  /-- The body of the loop of `kkill`. -/
  | kill (q : ProcId) (pid : ℤ)
  | getKilled (q : ProcId)
  | setKilled
  | isUnused (q : ProcId)
  | takePid
  /-- `p->pid = …; p->state = USED`. -/
  | setUsed (q : ProcId) (pid : ℤ)
  /-- `p->context.ra = (uint64)forkret`. -/
  | setContext (q : ProcId)
  | free (q : ProcId)
  /-- `np->parent = p`. -/
  | setParent (q : ProcId)
  /-- `np->state = RUNNABLE`. -/
  | setRunnable (q : ProcId)
  /-- `pp->parent == p`. -/
  | isChild (q : ProcId)
  /-- `if(pp->parent == p) pp->parent = initproc`. -/
  | adopt (q : ProcId)
  | getParent
  /-- `p->xstate = status; p->state = ZOMBIE`. -/
  | die (status : ℤ)
  /-- The pid and the exit status of a zombie. -/
  | isZombie (q : ProcId)
  /-- `freeproc` in `kwait`, which returns this pid and has copied this status. -/
  | reap (q : ProcId) (pid status : ℤ)
  | waitFail (q : ProcId)
  | noteKilled
  | getCond (i : ℕ)
  | setCond (i : ℕ) (b : Bool)
  | getLocked (k : InodeId)
  /-- `acquiresleep`'s test of `lk->locked`, which locks the inode if it can. -/
  | tryLock (k : InodeId)
  | unlock (k : InodeId)
  /-- `ip->ref++` for a reference of the process itself. -/
  | refInc (k : InodeId)
  /-- `np->cwd = idup(p->cwd)` inside its critical section. -/
  | dupCwd (q : ProcId)
  | getRef (k : InodeId)
  /-- `ip->ref--` for a reference of the process itself. -/
  | refDec (k : InodeId)
  /-- `ip->ref--` for the current directory. -/
  | dropCwd (k : InodeId)
  | getDead (k : InodeId)
  | setDead (k : InodeId) (b : Bool)
  | getOwn (k : InodeId)
  | getCwd
  | panic (msg : String)
  /-- A loop around `sleep` that is not followed further. -/
  | stop

@[reducible] def Act.Ret : Act → Type
  | .pick _ => Bool
  | .kill _ _ => Bool
  | .getKilled _ => Bool
  | .isUnused _ => Bool
  | .ticks => ℕ
  | .takePid => ℤ
  | .isChild _ => Bool
  | .adopt _ => Bool
  | .getParent => Option ProcId
  | .isZombie _ => Option (ℤ × ℤ)
  | .getCond _ => Bool
  | .getLocked _ => Option ProcId
  | .tryLock _ => Bool
  | .getRef _ => ℤ
  | .getDead _ => Bool
  | .getOwn _ => ℕ
  | .getCwd => Option InodeId
  | .panic _ => Empty
  | .stop => Empty
  | _ => Unit

variable {ncpu : ℕ}

namespace St

def cpuOf (s : St ncpu) (t : Thr ncpu) : Option (Fin ncpu) :=
  (List.finRange ncpu).find? fun c => decide (s.on c = t)

/-- A CPU executes on the kernel stack of `q` or has it as `c->proc`. -/
def busy (s : St ncpu) (q : ProcId) : Bool :=
  (List.finRange ncpu).any fun c => decide (s.on c = .proc q ∨ s.cpuProc c = some q)

/-- `freeproc`. The current directory was given up by `kexit`, or was never set. -/
def free (s : St ncpu) (q : ProcId) : St ncpu :=
  { s with
    pid := update s.pid q 0
    parent := update s.parent q none
    chan := update s.chan q none
    killed := update s.killed q false
    xstate := update s.xstate q 0
    state := update s.state q .unused
    hist := .freed q (s.busy q) :: s.hist }

end St

/-- The number of references that process `p` holds to inode `k`. -/
def refs (own : ProcId → InodeId → ℕ) (cwd : ProcId → Option InodeId) (p : ProcId) (k : InodeId) : ℕ :=
  own p k + if cwd p = some k then 1 else 0

/-- What a process's thread does with an action on CPU `c`. -/
def execProc (c : Fin ncpu) (p : ProcId) : (a : Act) → St ncpu → Outcome (St ncpu) a.Ret
  | .giveUp, s => .done () { s with state := update s.state p .runnable }
  | .doze ch, s => .done ()
      { s with chan := update s.chan p (some ch), state := update s.state p .sleeping }
  | .sched ctx, s =>
    if s.holder (.proc p) ≠ some c then .panic "sched p->lock"
    else if s.noff c ≠ 1 then .panic "sched locks"
    else if s.state p = .running then .panic "sched RUNNING"
    else .done () { s with on := update s.on c (.sched c), ctx := update s.ctx p ctx }
  | .tidy, s => .done () { s with chan := update s.chan p none }
  | .awake l, s => .done () { s with hist := .awake p l (decide (s.holder l = some c)) :: s.hist }
  | .ticks, s => .done (s.timer 0) { s with timer := fun n => s.timer (n + 1) }
  | .start, s => .done () { s with ctx := update s.ctx p .kernel }
  | .setKilled, s => .done ()
      { s with killed := update s.killed p true, hist := .fault p :: s.hist }
  | .takePid, s => .done s.nextpid { s with nextpid := Int.bmod (s.nextpid + 1) (2 ^ 32) }
  | .isUnused q, s => .done (decide (s.state q = .unused)) s
  | .setUsed q pid, s => .done ()
      { s with
        pid := update s.pid q pid
        state := update s.state q .used
        hist := .created q pid (s.busy q) :: s.hist }
  | .setContext q, s => .done () { s with ctx := update s.ctx q .forkret }
  | .free q, s => .done () (s.free q)
  | .setParent q, s => .done () { s with parent := update s.parent q (some p) }
  | .setRunnable q, s => .done () { s with state := update s.state q .runnable }
  | .isChild q, s => .done (decide (s.parent q = some p)) s
  | .adopt q, s =>
    if s.parent q = some p then
      .done true { s with parent := update s.parent q (some initproc) }
    else .done false s
  | .getParent, s => .done (s.parent p) s
  | .die status, s => .done ()
      { s with
        xstate := update s.xstate p status
        state := update s.state p .zombie
        hist := .exit p (s.pid p) status :: s.hist }
  | .isZombie q, s => .done (if s.state q = .zombie then some (s.pid q, s.xstate q) else none) s
  | .reap q pid status, s => .done ()
      ({ s with hist := .reap p q pid status (s.parent q) :: s.hist }.free q)
  | .waitFail q, s => .done () { s with hist := .waitFail p q :: s.hist }
  | .noteKilled, s => .done () { s with hist := .killedExit p :: s.hist }
  | .getLocked k, s => .done (s.slocked k) s
  | .tryLock k, s =>
    match s.slocked k with
    | some _ => .done false s
    | none => .done true { s with slocked := update s.slocked k (some p) }
  | .unlock k, s => .done () { s with slocked := update s.slocked k none }
  | .refInc k, s => .done ()
      { s with
        ref := update s.ref k (s.ref k + 1)
        own := update s.own p (update (s.own p) k (s.own p k + 1)) }
  | .dupCwd q, s =>
    match s.cwd p with
    | none => .done () s
    | some k => .done ()
        { s with
          ref := update s.ref k (s.ref k + 1)
          cwd := update s.cwd q (some k) }
  | .getRef k, s => .done (s.ref k) s
  | .refDec k, s => .done ()
      { s with
        ref := update s.ref k (s.ref k - 1)
        own := update s.own p (update (s.own p) k (s.own p k - 1)) }
  | .dropCwd k, s => .done ()
      { s with
        ref := update s.ref k (s.ref k - 1)
        cwd := update s.cwd p none }
  | .getDead k, s => .done (s.dead k) s
  | .setDead k b, s => .done () { s with dead := update s.dead k b }
  | .getOwn k, s => .done (s.own p k) s
  | .getCwd, s => .done (s.cwd p) s
  | .panic m, _ => .panic m
  | _, _ => .wait

def execOn (c : Fin ncpu) (t : Thr ncpu) : (a : Act) → St ncpu → Outcome (St ncpu) a.Ret
  | .spin l, s =>
    if s.holder l = some c then .panic "acquire"
    else .done ()
      { s with noff := update s.noff c (s.noff c + 1), spin := update s.spin c (some l) }
  | .take l, s =>
    match s.holder l with
    | some _ => .wait
    | none => .done ()
        { s with holder := update s.holder l (some c), spin := update s.spin c none }
  | .release l, s =>
    if s.holder l ≠ some c then .panic "release"
    else .done ()
      { s with holder := update s.holder l none, noff := update s.noff c (s.noff c - 1) }
  | .pick p, s =>
    if s.state p = .runnable then
      .done true
        { s with
          state := update s.state p .running
          cpuProc := update s.cpuProc c (some p)
          on := update s.on c (.proc p) }
    else .done false s
  | .clear, s => .done () { s with cpuProc := update s.cpuProc c none }
  | .wake q ch, s =>
    if s.state q = .sleeping ∧ s.chan q = ch then
      .done () { s with state := update s.state q .runnable }
    else .done () s
  | .kill q pid, s =>
    if s.pid q = pid then
      .done true
        { s with
          killed := update s.killed q true
          state := if s.state q = .sleeping then update s.state q .runnable else s.state
          hist := .kill pid q (s.state q) :: s.hist }
    else .done false s
  | .getKilled q, s => .done (s.killed q) s
  | .getCond i, s => .done (s.cond i) s
  | .setCond i b, s => .done () { s with cond := update s.cond i b }
  | .panic m, _ => .panic m
  | a, s =>
    match t with
    | .proc p => execProc c p a s
    | .sched _ => .wait

def exec (a : Act) (t : Thr ncpu) (s : St ncpu) : Outcome (St ncpu) a.Ret :=
  match s.cpuOf t with
  | none => .wait
  | some c => execOn c t a s

/-! ## Locks and scheduling -/

abbrev P := Prog Act Act.Ret

abbrev perform (a : Act) : P a.Ret := Prog.perform a

def panic {α : Type} (msg : String) : P α := .act (.panic msg) Empty.elim

/-- The end of the part of a run that is looked at. -/
def stop {α : Type} : P α := .act .stop Empty.elim

def acquire (l : Lk) : P Unit := do
  perform (.spin l)
  perform (.take l)

def release (l : Lk) : P Unit := perform (.release l)

def scanProcs : List ProcId → P Unit
  | [] => return ()
  | p :: l => do
    acquire (.proc p)
    let found ← perform (.pick p)
    if found then do
      -- the process has switched back
      perform .clear
      release (.proc p)
      scanProcs l
    else do
      release (.proc p)
      scanProcs l

/-- One round of the scheduler. -/
def scheduler : P Unit := scanProcs (List.finRange nproc)

/-- Give up the CPU for one scheduling round. -/
def yield (p : ProcId) : P Unit := do
  acquire (.proc p)
  perform .giveUp
  perform (.sched .kernel)
  release (.proc p)

/-- `n` timer interrupts. -/
def yields (p : ProcId) : ℕ → P Unit
  | 0 => return ()
  | n + 1 => do
    yield p
    yields p n

/-- The timer interrupts at a point where the process holds no lock. -/
def preempt (p : ProcId) : P Unit := do
  let n ← perform .ticks
  yields p n

/-- A fork child's very first scheduling. -/
def forkret (p : ProcId) : P Unit := do
  perform .start
  release (.proc p)

/-- Sleep on a channel, releasing the condition lock `l`; reacquires it when awakened. -/
def sleep (p : ProcId) (ch : Chan) (l : Lk) : P Unit := do
  acquire (.proc p)
  release l
  perform (.doze ch)
  perform (.sched .kernel)
  perform .tidy
  release (.proc p)
  preempt p
  acquire l
  perform (.awake l)

def wakeupFrom (me : Option ProcId) (ch : Option Chan) : List ProcId → P Unit
  | [] => return ()
  | q :: l =>
    if me = some q then wakeupFrom me ch l
    else do
      acquire (.proc q)
      perform (.wake q ch)
      release (.proc q)
      wakeupFrom me ch l

/-- Wake up all processes sleeping on a channel. -/
def wakeup (me : Option ProcId) (ch : Option Chan) : P Unit := wakeupFrom me ch (List.finRange nproc)

def kkillFrom (p : ProcId) (pid : ℤ) : List ProcId → P Bool
  | [] => return false
  | q :: l => do
    preempt p
    acquire (.proc q)
    let hit ← perform (.kill q pid)
    release (.proc q)
    if hit then return true else kkillFrom p pid l

/-- Kill the process with the given pid; returns whether there is one. -/
def kkill (p : ProcId) (pid : ℤ) : P Bool := kkillFrom p pid (List.finRange nproc)

def setkilled (p : ProcId) : P Unit := do
  acquire (.proc p)
  perform .setKilled
  release (.proc p)

def killed (p : ProcId) : P Bool := do
  acquire (.proc p)
  let k ← perform (.getKilled p)
  release (.proc p)
  return k

/-! ## Sleep-locks and references to inodes -/

def acquiresleepLoop (p : ProcId) (k : InodeId) : ℕ → P Unit
  | 0 => stop
  | n + 1 => do
    let locked ← perform (.tryLock k)
    if locked then release (.slk k)
    else do
      sleep p (.slk k) (.slk k)
      acquiresleepLoop p k n

def acquiresleep (p : ProcId) (k : InodeId) (n : ℕ) : P Unit := do
  acquire (.slk k)
  acquiresleepLoop p k n

def releasesleep (p : ProcId) (k : InodeId) : P Unit := do
  acquire (.slk k)
  perform (.unlock k)
  wakeup (some p) (some (.slk k))
  release (.slk k)

def holdingsleep (p : ProcId) (k : InodeId) : P Bool := do
  acquire (.slk k)
  let l ← perform (.getLocked k)
  release (.slk k)
  return decide (l = some p)

/-- A new reference of process `p`: `iget` of an inode that is in the table, or `idup`. -/
def iref (k : InodeId) : P Unit := do
  acquire .itable
  perform (.refInc k)
  release .itable

def ilock (p : ProcId) (k : InodeId) (n : ℕ) : P Unit := do
  let r ← perform (.getRef k)
  if r < 1 then panic "ilock"
  else do
    preempt p
    acquiresleep p k n

def iunlock (p : ProcId) (k : InodeId) : P Unit := do
  let h ← holdingsleep p k
  let r ← perform (.getRef k)
  if h = false ∨ r < 1 then panic "iunlock"
  else do
    preempt p
    releasesleep p k

/-- `iput`, where `dec` drops the reference. -/
def iputWith (dec : Act) (p : ProcId) (k : InodeId) (n : ℕ) : P Unit := do
  acquire .itable
  let r ← perform (.getRef k)
  let dead ← perform (.getDead k)
  if r = 1 ∧ dead = true then do
    acquiresleep p k n
    release .itable
    preempt p
    perform (.setDead k false)
    releasesleep p k
    preempt p
    acquire .itable
    let _ ← perform dec
    release .itable
  else do
    let _ ← perform dec
    release .itable

def iput (p : ProcId) (k : InodeId) (n : ℕ) : P Unit := iputWith (.refDec k) p k n

/-! ## Creating processes -/

/-- Which of the memory allocations of `kfork` succeed: of the trapframe, of the page table and of
the user memory. -/
structure Mem where
  trapframe : Bool
  pagetable : Bool
  memory : Bool

/-- The part of `allocproc` after an unused slot has been found. -/
def allocFound (m : Mem) (q : ProcId) : P (Option ProcId) := do
  acquire .pid
  let pid ← perform .takePid
  release .pid
  perform (.setUsed q pid)
  if m.trapframe = false ∨ m.pagetable = false then do
    perform (.free q)
    release (.proc q)
    return none
  else do
    perform (.setContext q)
    return some q

def allocFrom (p : ProcId) (m : Mem) : List ProcId → P (Option ProcId)
  | [] => return none
  | q :: l => do
    preempt p
    acquire (.proc q)
    let u ← perform (.isUnused q)
    if u then allocFound m q
    else do
      release (.proc q)
      allocFrom p m l

/-- Look in the process table for an unused slot; returns it with its lock held. -/
def allocproc (p : ProcId) (m : Mem) : P (Option ProcId) := allocFrom p m (List.finRange nproc)

/-- Create a new process, copying the parent. -/
def kfork (p : ProcId) (m : Mem) : P Unit := do
  let r ← allocproc p m
  match r with
  | none => return ()
  | some np =>
    if m.memory then do
      acquire .itable
      perform (.dupCwd np)
      release .itable
      release (.proc np)
      preempt p
      acquire .wait
      perform (.setParent np)
      release .wait
      preempt p
      acquire (.proc np)
      perform (.setRunnable np)
      release (.proc np)
    else do
      perform (.free np)
      release (.proc np)

/-! ## Exit and wait -/

def reparentFrom (p : ProcId) : List ProcId → P Unit
  | [] => return ()
  | pp :: l => do
    let mine ← perform (.adopt pp)
    if mine then do
      wakeup (some p) (some (.proc initproc))
      reparentFrom p l
    else reparentFrom p l

/-- Pass `p`'s abandoned children to init. -/
def reparent (p : ProcId) : P Unit := reparentFrom p (List.finRange nproc)

/-- `kexit`'s loop over the open files, inode by inode. -/
def closeFrom (p : ProcId) (n : ℕ) : List InodeId → P Unit
  | [] => return ()
  | k :: l => do
    let m ← perform (.getOwn k)
    Prog.loop m fun _ => do
      preempt p
      iput p k n
    closeFrom p n l

/-- `iput(p->cwd)` in `kexit`. -/
def closeCwd (p : ProcId) (n : ℕ) : P Unit := do
  let cwd ← perform .getCwd
  match cwd with
  | none => return ()
  | some k => iputWith (.dropCwd k) p k n

/-- Exit the current process. Does not return: the thread ends in `sched`. -/
def kexit (p : ProcId) (n : ℕ) (status : ℤ) : P Unit :=
  if p = initproc then panic "init exiting"
  else do
    closeFrom p n (List.finRange 50)
    preempt p
    closeCwd p n
    preempt p
    acquire .wait
    reparent p
    let par ← perform .getParent
    wakeup (some p) (par.map .proc)
    acquire (.proc p)
    perform (.die status)
    release .wait
    perform (.sched .exited)

/-- How a scan of the process table by `kwait` ends: `kwait` returns, or there was no zombie and
there were children or not. -/
inductive Scan where
  | returned
  | none (havekids : Bool)

/-- `kwait`'s scan of the process table. `copy` says whether `copyout` succeeds. -/
def waitScan (p : ProcId) (copy : Bool) : Bool → List ProcId → P Scan
  | kids, [] => return .none kids
  | kids, pp :: l => do
    let mine ← perform (.isChild pp)
    if mine then do
      acquire (.proc pp)
      let z ← perform (.isZombie pp)
      match z with
      | some (pid, status) =>
        if copy then do
          perform (.reap pp pid status)
          release (.proc pp)
          release .wait
          return .returned
        else do
          perform (.waitFail pp)
          release (.proc pp)
          release .wait
          return .returned
      | none => do
        release (.proc pp)
        waitScan p copy true l
    else waitScan p copy kids l

def waitLoop (p : ProcId) (copy : Bool) : ℕ → P Unit
  | 0 => stop
  | n + 1 => do
    let r ← waitScan p copy false (List.finRange nproc)
    match r with
    | .returned => return ()
    | .none kids =>
      if kids then do
        let k ← killed p
        if k then release .wait
        else do
          sleep p (.proc p) .wait
          waitLoop p copy n
      else release .wait

def kwait (p : ProcId) (copy : Bool) (n : ℕ) : P Unit := do
  preempt p
  acquire .wait
  waitLoop p copy n

/-! ## Conditions -/

/-- Sleep until condition `i` holds, and then clear it if `consume` is set. -/
def awaitLoop (lk : ℕ → ℕ) (p : ProcId) (i : ℕ) (consume : Bool) : ℕ → P Unit
  | 0 => stop
  | n + 1 => do
    let b ← perform (.getCond i)
    if b then
      if consume then do
        perform (.setCond i false)
        release (.cond (lk i))
      else release (.cond (lk i))
    else do
      sleep p (.cond i) (.cond (lk i))
      awaitLoop lk p i consume n

/-- A sleeper: `acquire lk; while(!cond) sleep(chan, lk)`. -/
def await (lk : ℕ → ℕ) (p : ProcId) (i : ℕ) (consume : Bool) (n : ℕ) : P Unit := do
  acquire (.cond (lk i))
  awaitLoop lk p i consume n

/-- A waker: makes condition `i` true and calls `wakeup` while it holds the lock. -/
def signal (lk : ℕ → ℕ) (me : Option ProcId) (i : ℕ) : P Unit := do
  acquire (.cond (lk i))
  perform (.setCond i true)
  wakeup me (some (.cond i))
  release (.cond (lk i))

/-- Make condition `i` false. -/
def reset (lk : ℕ → ℕ) (i : ℕ) : P Unit := do
  acquire (.cond (lk i))
  perform (.setCond i false)
  release (.cond (lk i))

/-! ## The machine -/

inductive Syscall where
  | fork (m : Mem)
  | exit (status : ℤ)
  | wait (copy : Bool) (n : ℕ)
  | kill (pid : ℤ)

/-- What an idle thread can do: a round of the scheduler or a device interrupt on an idle CPU, and
for a process in user space or in the kernel, a trap or one of the functions that it calls there. -/
inductive Call where
  | schedule
  | intr (i : ℕ)
  | forkret
  | resume
  | trap (c : Syscall) (n : ℕ)
  | fault (n : ℕ)
  | yield
  | await (i : ℕ) (consume : Bool) (n : ℕ)
  | signal (i : ℕ)
  | reset (i : ℕ)
  | iref (k : InodeId)
  | ilock (k : InodeId) (n : ℕ)
  | iunlock (k : InodeId)
  | iput (k : InodeId) (n : ℕ)
  | unlink (k : InodeId)

/-- `usertrap`'s last check: a killed process exits. -/
def exitIfKilled (p : ProcId) (n : ℕ) : P Unit := do
  preempt p
  let k ← killed p
  if k then do
    perform .noteKilled
    kexit p n (-1)
  else return ()

def syscall (p : ProcId) : Syscall → P Unit
  | .fork m => kfork p m
  | .wait copy n => kwait p copy n
  | .kill pid => do
    let _ ← kkill p pid
    return ()
  | .exit _ => return ()

/-- `usertrap` for a system call. -/
def usertrap (p : ProcId) (n : ℕ) (c : Syscall) : P Unit := do
  let k ← killed p
  if k then do
    perform .noteKilled
    kexit p n (-1)
  else
    match c with
    | .exit status => kexit p n status
    | c => do
      syscall p c
      exitIfKilled p n

def code (lk : ℕ → ℕ) : Call → (t : Thr ncpu) → P Unit
  | .schedule, _ => scheduler
  | .intr i, _ => signal lk none i
  | .forkret, .proc p => forkret p
  | .resume, .proc _ => panic "zombie exit"
  | .trap c n, .proc p => usertrap p n c
  | .fault n, .proc p => do
    setkilled p
    exitIfKilled p n
  | .yield, .proc p => yield p
  | .await i b n, .proc p => await lk p i b n
  | .signal i, .proc p => signal lk (some p) i
  | .reset i, .proc _ => reset lk i
  | .iref k, .proc _ => iref k
  | .ilock k n, .proc p => ilock p k n
  | .iunlock k, .proc p => iunlock p k
  | .iput k n, .proc p => iput p k n
  | .unlink k, .proc _ => perform (.setDead k true)
  | _, _ => return ()

/-- What the clients of the functions owe. System calls are made without a sleep-lock; an inode is
locked, unlocked and changed only by a process that holds a reference to it, which is not given up
while the inode is locked. With `nz`, processes never kill the process 0. -/
def ClientOk (nz : Bool) (s : St ncpu) (p : ProcId) : Call → Prop
  | .trap (.kill pid) _ => (∀ k, s.slocked k ≠ some p) ∧ (nz = true → pid ≠ 0)
  | .trap _ _ => ∀ k, s.slocked k ≠ some p
  | .fault _ => ∀ k, s.slocked k ≠ some p
  | .ilock k _ => 1 ≤ refs s.own s.cwd p k
  | .iunlock k => s.slocked k = some p
  | .iput k _ => 1 ≤ s.own p k ∧ (s.slocked k = some p → 2 ≤ refs s.own s.cwd p k)
  | .unlink k => s.slocked k = some p
  | _ => True

/-- The calls that a thread can make when its last one has returned. -/
def may (nz : Bool) (c : Call) (t : Thr ncpu) (s : St ncpu) : Prop :=
  match c, t with
  | .schedule, .sched _ => True
  | .intr _, .sched _ => True
  | .schedule, .proc _ => False
  | .intr _, .proc _ => False
  | _, .sched _ => False
  | .forkret, .proc p => (s.cpuOf (.proc p)).isSome ∧ s.ctx p = .forkret
  | .resume, .proc p => (s.cpuOf (.proc p)).isSome ∧ s.ctx p = .exited
  | c, .proc p => (s.cpuOf (.proc p)).isSome ∧ s.ctx p = .kernel ∧ ClientOk nz s p c

/-- The machine. A call names the thread that makes it. -/
def sys (lk : ℕ → ℕ) (nz : Bool) : Sys (Thr ncpu) Act Act.Ret (Thr ncpu × Call) (St ncpu) where
  exec := exec
  may := fun c t s => c.1 = t ∧ may nz c.2 t s
  code := fun c _ => code lk c.2 c.1
  cond := fun _ _ _ => True

/-- The state after `userinit`, whose process has inode 0 as its current directory. -/
def boot (timer : ℕ → ℕ) : St ncpu where
  state := update (fun _ => .unused) initproc .runnable
  chan := fun _ => none
  killed := fun _ => false
  xstate := fun _ => 0
  pid := update (fun _ => 0) initproc 1
  parent := fun _ => none
  ctx := update (fun _ => .exited) initproc .forkret
  cwd := update (fun _ => none) initproc (some 0)
  own := fun _ _ => 0
  holder := fun _ => none
  noff := fun _ => 0
  spin := fun _ => none
  cpuProc := fun _ => none
  on := .sched
  nextpid := 2
  cond := fun _ => false
  ref := update (fun _ => 0) 0 1
  dead := fun _ => false
  slocked := fun _ => none
  timer := timer
  hist := []

end Xv6.Proc
