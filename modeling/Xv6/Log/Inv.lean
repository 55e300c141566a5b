import Xv6.Log.History

/-!
# The invariant of the buffer cache and the log

`Inv` relates a state to the ghost values of the threads. At most one thread runs `commit`; its
ghost value says how far it got (`Stage`). `Bio` is about reference counts and sleep-locks, `Mem`
about the in-memory log, `Grp` about the operations and their groups, `Data` about the contents of
buffers, `Disk` about the contents of the disk, `Coh` about what disciplined clients see, `Res`
about the reserved log space and `Wake` about the threads that sleep in `begin_op`.

A `Mode` chooses the assumptions on the clients under which a result is proved; `cond` states them
as conditions on the state in which an action is taken.
-/

namespace Xv6.Log

open Xv6.Threads

/-- How far `commit` of the group `gr` of the blocks `l` got. -/
inductive Stage where
  | client
  /-- `k` blocks were copied to the log area. -/
  | wlog (l : List ℕ) (gr : Group) (k : ℕ)
  /-- The header was written, `k` home blocks were written and `u` buffers unpinned. -/
  | inst (l : List ℕ) (gr : Group) (k u : ℕ)
  /-- The in-memory header was cleared; the one on disk was not. -/
  | clr (l : List ℕ) (gr : Group)
  /-- The header on disk was cleared. -/
  | fin

/-- The number of groups that are closed and not committed. -/
def Stage.closed : Stage → ℕ
  | .client => 0
  | _ => 1

/-- The ghost value of a thread. -/
structure Gh where
  /-- Buffers that the thread holds, with their blocks. -/
  kn : BufId → Option ℕ := fun _ => none
  /-- The buffer that `bget` returned and that is not locked yet, with its block. -/
  pend : Option (BufId × ℕ) := none
  /-- The buffer that was locked and not filled yet. -/
  raw : Option BufId := none
  /-- The buffer that was unlocked and not put back yet. -/
  rel : Option BufId := none
  /-- The log-area buffer that was modified and not written yet, with its new contents. -/
  md : Option (BufId × Block) := none
  inOp : Bool := false
  stage : Stage := .client

/-- A thread that is not inside any call. -/
def Gh.Rest (g : Gh) : Prop :=
  g.pend = none ∧ g.raw = none ∧ g.rel = none ∧ g.stage = .client

/-- The assumptions on the clients. -/
structure Mode where
  /-- Every modification is logged before the buffer is released and the operation ends. -/
  disc : Bool := false
  /-- Every operation logs at most `maxOpBlocks` distinct blocks. -/
  lim : Bool := false
  /-- No block that is already logged is logged again while the log is full. -/
  full : Bool := false
  /-- A block that is not cached is requested only while some buffer is not in use. -/
  space : Bool := false

variable {T : Type} [DecidableEq T]

/-- The buffers in use: those of logged blocks that are not installed yet, and those that some
thread is using. -/
def inUse (s : St T) : Finset BufId :=
  Finset.univ.filter fun i =>
    ((s.buf i).dev = s.dev ∧ pinned s.hist (s.buf i).blockno = true) ∨ i ∈ s.users.map Prod.snd

def Cached (s : St T) (dev b : ℕ) : Prop := ∃ i, (s.buf i).dev = dev ∧ (s.buf i).blockno = b

instance (s : St T) (dev b : ℕ) : Decidable (Cached s dev b) := by
  unfold Cached; infer_instance

/-- The condition of mode `m` on the state in which an action is taken. -/
def cond (m : Mode) : Act → T → St T → Prop
  | .releasesleep i, _, s => m.disc → dirty s.hist (s.buf i).blockno = false
  | .endOp, t, s => m.disc → ∀ i, (s.buf i).lock = some t → dirty s.hist (s.buf i).blockno = false
  | .logWrite i, t, s =>
    (m.lim → ∀ o ∈ s.op t, (insert (s.buf i).blockno o.blocks).length ≤ maxOpBlocks) ∧
    (m.full → s.lh.length = logBlocks → (s.buf i).blockno ∉ s.lh)
  | .bget dev b, _, s => m.space → Cached s dev b ∨ (inUse s).card < nbuf
  | _, _, _ => True

instance (m : Mode) (a : Act) (t : T) (s : St T) : Decidable (cond m a t s) := by
  cases a <;> (simp only [cond]; infer_instance)

/-- The panics that mode `m` does not exclude. -/
def pan (m : Mode) (msg : String) : Prop :=
  (msg = "too big a transaction" ∧ ¬ (m.lim ∧ m.full)) ∨ (msg = "bget: no buffers" ∧ ¬ m.space)

/-! ## The parts of the invariant -/

section Parts

variable (dev start : ℕ) (d₀ : ℕ → Block)

/-- Reference counts, sleep-locks and the LRU list. -/
structure Bio (s : St T) (kn : T → BufId → Option ℕ) (pend : T → Option (BufId × ℕ))
    (raw rel : T → Option BufId) : Prop where
  mem : ∀ i, i ∈ s.lru
  nodup : s.lru.Nodup
  uniq : ∀ i j, (s.buf i).dev = dev → (s.buf j).dev = dev →
    (s.buf i).blockno = (s.buf j).blockno → i = j
  used : ∀ p ∈ s.users, (s.buf p.2).dev = dev ∧ (s.buf p.2).blockno < 2 ^ 32
  lock : ∀ t i, (s.buf i).lock = some t → (t, i) ∈ s.users
  known : ∀ t i b, kn t i = some b → (s.buf i).lock = some t ∧ (s.buf i).blockno = b
  pending : ∀ t i b, pend t = some (i, b) → (t, i) ∈ s.users ∧ (s.buf i).blockno = b
  rawLock : ∀ t i, raw t = some i → (s.buf i).lock = some t
  relUsed : ∀ t i, rel t = some i → (s.buf i).lock ≠ some t ∧ (t, i) ∈ s.users
  valid : ∀ t i, (s.buf i).lock = some t → raw t ≠ some i → (s.buf i).valid = true
  ref : ∀ i, (s.buf i).refcnt = (s.users.map Prod.snd).count i +
    if (s.buf i).dev = dev ∧ pinned s.hist (s.buf i).blockno = true then 1 else 0
  kept : ∀ b, pinned s.hist b → Cached s dev b

/-- The blocks of the group that is being committed. -/
def Stage.blocks (lh : List ℕ) : Stage → List ℕ
  | .clr l _ => l
  | _ => lh

/-- The blocks of the group that are still pinned. -/
def Stage.pinned (lh : List ℕ) : Stage → List ℕ
  | .inst _ _ _ u => lh.drop u
  | .clr _ _ => []
  | .fin => []
  | _ => lh

/-- The blocks of the group that are not installed yet. -/
def Stage.waiting (lh : List ℕ) : Stage → List ℕ
  | .inst _ _ k _ => lh.drop k
  | .clr _ _ => []
  | .fin => []
  | _ => lh

/-- The in-memory log. -/
structure Mem (s : St T) (st : Stage) : Prop where
  nodup : s.lh.Nodup
  home : ∀ b ∈ s.lh, ¬ InLog start b ∧ b < 2 ^ 32
  len : s.lh.length ≤ logBlocks
  comm : s.committing ↔ st ≠ .client
  noOp : st ≠ .client → ∀ t, s.op t = none
  pin : ∀ b, pinned s.hist b ↔ b ∈ st.pinned s.lh
  npin : ∀ b, pins s.hist b = unpins s.hist b + if pinned s.hist b = true then 1 else 0
  late : ∀ b, uninstalled s.hist b → b ∈ st.waiting s.lh

/-- The group that is being collected or committed. -/
def curGroup (h : List Event) : Stage → Group
  | .client => openGroup h
  | _ => (groups h).headD fun _ => none

/-- Operations and their groups. -/
structure Grp (s : St T) (st : Stage) : Prop where
  shut : st ≠ .client → groups s.hist ≠ [] ∧ ∀ b, openGroup s.hist b = none
  dom : st ≠ .fin → ∀ b, (curGroup s.hist st b).isSome ↔ b ∈ st.blocks s.lh
  count : (groups s.hist).length = commits s.hist + st.closed
  once : ∀ op n n', WroteIn s.hist op n → WroteIn s.hist op n' → n = n'
  old : ∀ op n, WroteIn s.hist op n → op < s.nextOp
  now : ∀ t o, s.op t = some o → o.id < s.nextOp ∧
    ∀ n, WroteIn s.hist o.id n → n = (groups s.hist).length

/-- Contents of buffers: logged blocks have the contents of their group, and buffers of the log
area have the contents of the disk unless the committing thread just modified them. -/
structure Data (s : St T) (md : T → Option (BufId × Block)) (st : Stage) : Prop where
  logged : ∀ b x, pinned s.hist b → curGroup s.hist st b = some x →
    ∃ i, (s.buf i).dev = dev ∧ (s.buf i).blockno = b ∧ (s.buf i).valid ∧ (s.buf i).data = x
  area : ∀ i, (s.buf i).dev = dev → InLog start (s.buf i).blockno → (s.buf i).valid →
    (s.buf i).data = s.disk (s.buf i).blockno ∨ ∃ t, md t = some (i, (s.buf i).data)
  mdLock : ∀ t i x, md t = some (i, x) → (s.buf i).lock = some t ∧ (s.buf i).data = x

/-- The log area holds the contents of group `g` for the blocks `l`. -/
def Copied (disk : ℕ → Block) (l : List ℕ) (g : Group) (k : ℕ) : Prop :=
  ∀ j b, j < k → l[j]? = some b → g b = some (disk (start + j + 1))

/-- The home blocks of `disk` are those of `d`. -/
def Home (disk d : ℕ → Block) : Prop := ∀ b, ¬ InLog start b → disk b = d b

/-- The disk at a stage of `commit`, with the groups `gs` closed so far. -/
def Disk (disk : ℕ → Block) (lh : List ℕ) (gs : List Group) : Stage → Prop
  | .client => (disk start).word 0 = 0 ∧ Home start disk (applyGroups gs d₀)
  | .wlog l gr k => lh = l ∧ (gs.headD fun _ => none) = gr ∧
      (disk start).word 0 = 0 ∧ Home start disk (applyGroups gs.tail d₀) ∧
      k ≤ l.length ∧ Copied start disk l gr k
  | .inst l gr k u => lh = l ∧ (gs.headD fun _ => none) = gr ∧
      getHead (disk start) = l ∧ k ≤ l.length ∧ u ≤ k ∧ Copied start disk l gr l.length ∧
      ∀ b, ¬ InLog start b → disk b =
        if b ∈ l.take k then applyGroups gs d₀ b else applyGroups gs.tail d₀ b
  | .clr l gr => lh = [] ∧ (gs.headD fun _ => none) = gr ∧
      getHead (disk start) = l ∧ l.Nodup ∧ (∀ b ∈ l, ¬ InLog start b ∧ b < 2 ^ 32) ∧
      l.length ≤ logBlocks ∧ Copied start disk l gr l.length ∧
      Home start disk (applyGroups gs d₀)
  | .fin => lh = [] ∧ (disk start).word 0 = 0 ∧ Home start disk (applyGroups gs d₀)

/-- What disciplined clients see. -/
structure Coh (s : St T) (raw : T → Option BufId) (st : Stage) : Prop where
  buf : ∀ i, (s.buf i).dev = dev → (s.buf i).valid → ¬ InLog start (s.buf i).blockno →
    (s.buf i).data = contents d₀ s.hist (s.buf i).blockno ∨ dirty s.hist (s.buf i).blockno = true
  held : ∀ b, dirty s.hist b → ∃ i t, (s.buf i).dev = dev ∧ (s.buf i).blockno = b ∧
    (s.buf i).lock = some t ∧ raw t ≠ some i ∧ (s.op t).isSome
  disk : ∀ b, ¬ InLog start b → pinned s.hist b = false → s.disk b = contents d₀ s.hist b
  grp : ∀ b x, pinned s.hist b → curGroup s.hist st b = some x →
    x = contents d₀ s.hist b ∨ dirty s.hist b = true
  breads : BreadsOk start d₀ s.hist

/-- The log space that the operation of a thread may still need. -/
def room (o : Option Op) : ℤ := (o.map fun o => (maxOpBlocks - o.blocks.length : ℤ)).getD 0

def busy (o : Option Op) : ℤ := if o.isSome then 1 else 0

/-- Reserved log space. -/
structure Res [Fintype T] (s : St T) : Prop where
  fits : s.lh.length + ∑ t, room (s.op t) ≤ logBlocks
  op : ∀ t o, s.op t = some o → o.blocks.length ≤ maxOpBlocks ∧ ∀ b ∈ o.blocks, b ∈ s.lh

/-- An empty log while no operation is running, and why threads sleep in `begin_op`. -/
structure Wake (s : St T) (st : Stage) (G : T → Gh) : Prop where
  empty : st = .client → (∀ t, s.op t = none) → s.lh = []
  sleep : ∀ t, s.asleep t → s.committing ∨
    s.lh.length + (s.outstanding + 1) * maxOpBlocks > logBlocks
  awake : ∀ t, (G t).inOp ∨ (G t).stage ≠ .client → s.asleep t = false

end Parts

/-- The invariant of mode `m`, over the initial disk `d₀`. -/
structure InvAt [Fintype T] (m : Mode) (dev start : ℕ) (d₀ : ℕ → Block) (s : St T) (G : T → Gh)
    (st : Stage) : Prop where
  devEq : s.dev = dev
  startEq : s.start = start
  role : ∀ t, (G t).stage = .client ∨ (G t).stage = st
  solo : ∀ t u, (G t).stage ≠ .client → (G u).stage ≠ .client → t = u
  run : st ≠ .client → ∃ t, (G t).stage = st
  quiet : ∀ t, (G t).stage = .client → (G t).md = none
  inOp : ∀ t, (G t).inOp = (s.op t).isSome
  bio : Bio dev s (fun t => (G t).kn) (fun t => (G t).pend) (fun t => (G t).raw)
    fun t => (G t).rel
  mem : Mem start s st
  out : s.outstanding = ∑ t, busy (s.op t)
  grp : Grp s st
  data : Data dev start s (fun t => (G t).md) st
  disk : Disk start d₀ s.disk s.lh (groups s.hist) st
  wrote : s.disk = written d₀ s.hist
  coh : m.disc → Coh dev start d₀ s (fun t => (G t).raw) st
  res : m.lim → Res s
  wake : Wake s st G

def Inv [Fintype T] (m : Mode) (dev start : ℕ) (d₀ : ℕ → Block) (s : St T) (G : T → Gh) : Prop :=
  ∃ st, InvAt m dev start d₀ s G st

end Xv6.Log
