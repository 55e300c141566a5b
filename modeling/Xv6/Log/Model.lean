import Xv6.Block
import Xv6.Threads.Solo

/-!
# The buffer cache and the log

`bio.c` and `log.c` of the riscv kernel. The shared state holds the disk, the buffer cache and the
in-memory log. Every critical section of a spinlock is one atomic action, and so is every access to
a buffer under its sleep-lock; `virtio_disk_rw` reads or writes one block atomically. The functions
of the source are programs over these actions.

The field `hist` records what happened, newest event first. No action reads it; the fields `op`,
`nextOp` and `users` are the same kind of bookkeeping about the clients.
-/

namespace Xv6.Log

open Function (update)
open Xv6.Threads

abbrev BufId := Fin nbuf

/-- `struct buf`. The sleep-lock is the thread that holds it. -/
structure Buf (T : Type) where
  valid : Bool
  dev : ℕ
  blockno : ℕ
  lock : Option T
  refcnt : ℤ
  data : Block

/-- What happened in a run. -/
inductive Event where
  /-- A holder stored `d` into the buffer of block `b` during operation `op`. -/
  | store (op b : ℕ) (d : Block)
  /-- Operation `op` called `log_write` on block `b` with contents `d`. -/
  | logw (op b : ℕ) (d : Block)
  /-- `end_op` found no other operation outstanding: the group is closed. -/
  | closed
  | committed
  /-- `bread` of block `b` returned contents `d`. -/
  | bread (b : ℕ) (d : Block)
  /-- `bwrite` wrote `d` to block `b`. -/
  | wrote (b : ℕ) (d : Block)
  | pin (b : ℕ)
  | unpin (b : ℕ)

/-- An operation between its `begin_op` and its `end_op`, with the distinct blocks it logged. -/
structure Op where
  id : ℕ
  blocks : List ℕ

/-- The state of the buffer cache, the log and the disk. -/
structure St (T : Type) where
  disk : ℕ → Block
  buf : BufId → Buf T
  /-- The buffers from `bcache.head.next` to `bcache.head.prev`. -/
  lru : List BufId
  dev : ℕ
  start : ℕ
  outstanding : ℤ
  committing : Bool
  /-- `log.lh`: the first `n` entries of `block`, with `n` the length. -/
  lh : List ℕ
  /-- The threads that sleep on `&log`. -/
  asleep : T → Bool
  op : T → Option Op
  nextOp : ℕ
  /-- The threads that are between `bget` and the end of `brelse`, with their buffers. -/
  users : List (T × BufId)
  hist : List Event

/-! ## The log header block -/

/-- `hb->block[k..] = l`, where `block[i]` is word `i + 1` of the block. -/
def setBlocks (b : Block) (k : ℕ) : List ℕ → Block
  | [] => b
  | x :: l => setBlocks (b.setWord (k + 1) x) (k + 1) l

/-- `write_head`: `hb->n = log.lh.n` and `hb->block[i] = log.lh.block[i]`. -/
def setHead (b : Block) (lh : List ℕ) : Block := setBlocks (b.setWord 0 lh.length) 0 lh

/-- `read_head`: the block numbers of a header block. -/
def getHead (b : Block) : List ℕ := (List.range (b.word 0)).map fun i => b.word (i + 1)

/-- The blocks of the on-disk log: the header and `logBlocks` data blocks. -/
def InLog (start b : ℕ) : Prop := start ≤ b ∧ b ≤ start + logBlocks

instance (start b : ℕ) : Decidable (InLog start b) := by unfold InLog; infer_instance

/-! ## Atomic actions -/

inductive Act where
  | beginOp
  | endOp
  | endCommit
  | logWrite (i : BufId)
  | lhN
  | lhBlock (k : ℕ)
  | lhClear
  | headOut (i : BufId)
  | headIn (i : BufId)
  | bget (dev blockno : ℕ)
  | acquiresleep (i : BufId)
  | bfill (i : BufId)
  | store (i : BufId) (d : Block)
  | memmove (dst src : BufId)
  | bwrite (i : BufId)
  | releasesleep (i : BufId)
  | bput (i : BufId)
  | bunpin (i : BufId)

def Act.Ret : Act → Type
  | .endOp => Bool
  | .lhN => ℕ
  | .lhBlock _ => ℕ
  | .bget _ _ => BufId
  | _ => Unit

namespace St

variable {T : Type} [DecidableEq T] (s : St T)

def setBuf (i : BufId) (b : Buf T) : St T := { s with buf := update s.buf i b }

def emit (e : Event) : St T := { s with hist := e :: s.hist }

/-- Thread `t` starts to use buffer `i`. -/
def enter (t : T) (i : BufId) : St T := { s with users := (t, i) :: s.users }

/-- Thread `t` is done with buffer `i`. -/
def leave (t : T) (i : BufId) : St T := { s with users := s.users.erase (t, i) }

/-- `wakeup(&log)`. -/
def wakeup : St T := { s with asleep := fun _ => false }

/-- One round of the loop of `begin_op`; a sleeping thread waits for its wakeup. -/
def beginOp (t : T) : Outcome (St T) Unit :=
  if s.asleep t then .wait
  else if s.committing then .done () { s with asleep := update s.asleep t true }
  else if s.lh.length + (s.outstanding + 1) * maxOpBlocks > logBlocks then
    .done () { s with asleep := update s.asleep t true }
  else .done () { s with
    outstanding := s.outstanding + 1
    op := update s.op t (some ⟨s.nextOp, []⟩)
    nextOp := s.nextOp + 1 }

/-- The first critical section of `end_op`; returns `do_commit`. -/
def endOp (t : T) : Outcome (St T) Bool :=
  if s.committing then .panic "log.committing"
  else if s.outstanding - 1 = 0 then
    .done true ({ s with
      outstanding := s.outstanding - 1
      committing := true
      op := update s.op t none }.emit .closed)
  else
    .done false { s with
      outstanding := s.outstanding - 1
      op := update s.op t none }.wakeup

/-- The last critical section of `end_op`. -/
def endCommit : St T := ({ s with committing := false }.emit .committed).wakeup

/-- The number of the operation that `t` is in. -/
def opId (t : T) : ℕ := ((s.op t).map Op.id).getD 0

/-- `t`'s operation has logged block `b`. -/
def noteOp (t : T) (b : ℕ) : St T :=
  { s with op := update s.op t ((s.op t).map fun o => ⟨o.id, insert b o.blocks⟩) }

/-- `log_write`, with `bpin` inside its critical section. -/
def logWrite (i : BufId) (t : T) : Outcome (St T) Unit :=
  if s.lh.length ≥ logBlocks then .panic "too big a transaction"
  else if s.outstanding < 1 then .panic "log_write outside of trans"
  else
    let b := s.buf i
    let s' := (s.emit (.logw (s.opId t) b.blockno b.data)).noteOp t b.blockno
    if b.blockno ∈ s.lh then .done () s'  -- log absorption
    else .done () (({ s' with lh := s.lh ++ [b.blockno] }.setBuf i
      { b with refcnt := b.refcnt + 1 }).emit (.pin b.blockno))

/-- `bget` up to `acquiresleep`: the cached buffer, or the least recently used unused one. -/
def bget (dev blockno : ℕ) (t : T) : Outcome (St T) BufId :=
  match s.lru.find? fun i => (s.buf i).dev = dev ∧ (s.buf i).blockno = blockno with
  | some i => .done i ((s.setBuf i { s.buf i with refcnt := (s.buf i).refcnt + 1 }).enter t i)
  | none =>
    match s.lru.reverse.find? fun i => (s.buf i).refcnt = 0 with
    | some i => .done i ((s.setBuf i
        { s.buf i with dev := dev, blockno := blockno, valid := false, refcnt := 1 }).enter t i)
    | none => .panic "bget: no buffers"

def acquiresleep (i : BufId) (t : T) : Outcome (St T) Unit :=
  match (s.buf i).lock with
  | none => .done () (s.setBuf i { s.buf i with lock := some t })
  | some _ => .wait

/-- The rest of `bread`: read the block unless the buffer is valid. -/
def bfill (i : BufId) : St T :=
  let b := s.buf i
  if b.valid then s.emit (.bread b.blockno b.data)
  else (s.setBuf i { b with data := s.disk b.blockno, valid := true }).emit
    (.bread b.blockno (s.disk b.blockno))

def store (i : BufId) (d : Block) (t : T) : St T :=
  (s.setBuf i { s.buf i with data := d }).emit (.store (s.opId t) (s.buf i).blockno d)

def memmove (dst src : BufId) : St T :=
  s.setBuf dst { s.buf dst with data := (s.buf src).data }

def bwrite (i : BufId) (t : T) : Outcome (St T) Unit :=
  if (s.buf i).lock = some t then
    .done () ({ s with disk := update s.disk (s.buf i).blockno (s.buf i).data }.emit
      (.wrote (s.buf i).blockno (s.buf i).data))
  else .panic "bwrite"

/-- The first half of `brelse`. -/
def releasesleep (i : BufId) (t : T) : Outcome (St T) Unit :=
  if (s.buf i).lock = some t then .done () (s.setBuf i { s.buf i with lock := none })
  else .panic "brelse"

/-- The second half of `brelse`. -/
def bput (i : BufId) (t : T) : St T :=
  let s' := (s.setBuf i { s.buf i with refcnt := (s.buf i).refcnt - 1 }).leave t i
  if (s.buf i).refcnt - 1 = 0 then { s' with lru := i :: s.lru.erase i } else s'

def bunpin (i : BufId) : St T :=
  (s.setBuf i { s.buf i with refcnt := (s.buf i).refcnt - 1 }).emit (.unpin (s.buf i).blockno)

end St

variable {T : Type} [DecidableEq T]

def exec : (a : Act) → T → St T → Outcome (St T) a.Ret
  | .beginOp, t, s => s.beginOp t
  | .endOp, t, s => s.endOp t
  | .endCommit, _, s => .done () s.endCommit
  | .logWrite i, t, s => s.logWrite i t
  | .lhN, _, s => .done s.lh.length s
  | .lhBlock k, _, s => .done (s.lh.getD k 0) s
  | .lhClear, _, s => .done () { s with lh := [] }
  | .headOut i, _, s => .done () (s.setBuf i { s.buf i with data := setHead (s.buf i).data s.lh })
  | .headIn i, _, s => .done () { s with lh := getHead (s.buf i).data }
  | .bget dev b, t, s => s.bget dev b t
  | .acquiresleep i, t, s => s.acquiresleep i t
  | .bfill i, _, s => .done () (s.bfill i)
  | .store i d, t, s => .done () (s.store i d t)
  | .memmove i j, _, s => .done () (s.memmove i j)
  | .bwrite i, t, s => s.bwrite i t
  | .releasesleep i, t, s => s.releasesleep i t
  | .bput i, t, s => .done () (s.bput i t)
  | .bunpin i, _, s => .done () (s.bunpin i)

/-! ## The functions of the source -/

abbrev P := Prog Act Act.Ret

abbrev perform (a : Act) : P a.Ret := Prog.perform a

def bread (dev blockno : ℕ) : P BufId := do
  let i : BufId ← perform (.bget dev blockno)
  perform (.acquiresleep i)
  perform (.bfill i)
  return i

def brelse (i : BufId) : P Unit := do
  perform (.releasesleep i)
  perform (.bput i)

/-- One round of the loop of `install_trans`. -/
def installOne (dev start : ℕ) (recovering : Bool) (tail : ℕ) : P Unit := do
  let lbuf ← bread dev (start + tail + 1)
  let b : ℕ ← perform (.lhBlock tail)
  let dbuf ← bread dev b
  perform (.memmove dbuf lbuf)
  perform (.bwrite dbuf)
  if recovering = false then
    perform (.bunpin dbuf)
  brelse lbuf
  brelse dbuf

def installTrans (dev start : ℕ) (recovering : Bool) : P Unit := do
  let n : ℕ ← perform .lhN
  Prog.loop n (installOne dev start recovering)

def readHead (dev start : ℕ) : P Unit := do
  let buf ← bread dev start
  perform (.headIn buf)
  brelse buf

def writeHead (dev start : ℕ) : P Unit := do
  let buf ← bread dev start
  perform (.headOut buf)
  perform (.bwrite buf)
  brelse buf

def recoverFromLog (dev start : ℕ) : P Unit := do
  readHead dev start
  installTrans dev start true
  perform .lhClear
  writeHead dev start

/-- One round of the loop of `write_log`. -/
def writeLogOne (dev start tail : ℕ) : P Unit := do
  let to' ← bread dev (start + tail + 1)
  let b : ℕ ← perform (.lhBlock tail)
  let from' ← bread dev b
  perform (.memmove to' from')
  perform (.bwrite to')
  brelse from'
  brelse to'

def writeLog (dev start : ℕ) : P Unit := do
  let n : ℕ ← perform .lhN
  Prog.loop n (writeLogOne dev start)

def commit (dev start : ℕ) : P Unit := do
  let n : ℕ ← perform .lhN
  if n > 0 then
    writeLog dev start
    writeHead dev start
    installTrans dev start false
    perform .lhClear
    writeHead dev start

def endOp (dev start : ℕ) : P Unit := do
  let doCommit : Bool ← perform .endOp
  if doCommit = true then
    commit dev start
    perform .endCommit

/-! ## The clients -/

inductive Call where
  | beginOp
  | endOp
  | bread (b : ℕ)
  | store (i : BufId) (d : Block)
  | logWrite (i : BufId)
  | brelse (i : BufId)

/-- When a client thread makes a call. Block numbers are of type `uint`; contents are modified and
logged by a holder of the buffer, inside an operation and outside the log area. -/
def May : Call → T → St T → Prop
  | .beginOp, t, s => (s.op t).isNone
  | .endOp, t, s => (s.op t).isSome
  | .bread b, _, _ => b < 2 ^ 32
  | .store i _, t, s => (s.buf i).lock = some t ∧ (s.op t).isSome ∧
      ¬ InLog s.start (s.buf i).blockno
  | .logWrite i, t, s => (s.buf i).lock = some t ∧ (s.op t).isSome ∧
      ¬ InLog s.start (s.buf i).blockno
  | .brelse i, t, s => (s.buf i).lock = some t

instance (c : Call) (t : T) (s : St T) : Decidable (May c t s) := by
  cases c <;> (simp only [May]; infer_instance)

def code : Call → St T → P Unit
  | .beginOp, _ => perform .beginOp
  | .endOp, s => endOp s.dev s.start
  | .bread b, s => bread s.dev b >>= fun _ => .ret ()
  | .store i d, _ => perform (.store i d)
  | .logWrite i, _ => perform (.logWrite i)
  | .brelse i, _ => brelse i

/-- The system of all clients, whose actions meet `cond`. -/
def sys (cond : Act → T → St T → Prop) : Sys T Act Act.Ret Call (St T) where
  exec := exec
  may := May
  code := code
  cond := cond

/-! ## Booting -/

/-- The state after `binit`, when `initlog` has set `log.dev` and `log.start`. -/
def binit (dev start : ℕ) (d : ℕ → Block) : St T where
  disk := d
  buf := fun _ => ⟨false, 0, 0, none, 0, fun _ => 0⟩
  lru := (List.finRange nbuf).reverse
  dev := dev
  start := start
  outstanding := 0
  committing := false
  lh := []
  asleep := fun _ => false
  op := fun _ => none
  nextOp := 0
  users := []
  hist := []

/-- `readsb` reads block 1. -/
def readsb (dev : ℕ) : P Unit := do
  let bp ← bread dev 1
  brelse bp

/-- `fsinit` up to the return of `initlog`. -/
def fsinit (dev start : ℕ) : P Unit := do
  readsb dev
  recoverFromLog dev start

/-- The state in which the clients start: a thread completed `fsinit` on disk `d`. -/
def Booted (dev start : ℕ) (d : ℕ → Block) (s : St T) : Prop :=
  ∃ t s', solo exec t (fsinit dev start) (binit dev start d) = some ((), s') ∧
    s = { s' with hist := [] }

/-- The disks that crashes leave, each after any number of steps of `fsinit` on the disk that the
crash before it left. -/
inductive Crashes (dev start : ℕ) (t : T) : (ℕ → Block) → (ℕ → Block) → Prop
  | refl (d) : Crashes dev start t d d
  | crash {d s d'} : s ∈ trail exec t (fsinit dev start) (binit dev start d) →
      Crashes dev start t s.disk d' → Crashes dev start t d d'

end Xv6.Log
