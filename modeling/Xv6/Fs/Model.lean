import Xv6.Block
import Xv6.Cells
import Xv6.Threads.Solo

/-!
# Blocks and inodes

The block and inode layers of `fs.c` in the riscv kernel. The shared state holds the bitmap, the
blocks, the on-disk inodes and the inode table. Every critical section of a spinlock is one atomic
action, and so is every use of a buffer between `bread` and `brelse`. The buffer cache and the log
are not repeated here: a block is what `bread` returns, and transactions are counted for each thread.

The fields of an in-memory inode that its sleep-lock protects belong to the thread that holds the
lock: the functions pass them along in an `Ip`, `ilock` reads them from the inode table and
`iunlock` stores them back.

The functions are programs over these actions. They are generic in `Env`, the kernel tables that
hold references to inodes (open files and current directories).
-/

namespace Xv6.Fs

open Function (update)
open Xv6.Threads

def ndirect : ℕ := 12

def nindirect : ℕ := bsize / 4

def maxFile : ℕ := ndirect + nindirect

/-- The number of bits in a bitmap block. -/
def bpb : ℕ := bsize * 8

def nInode : ℕ := 50

/-- The type of an inode: `0`, `T_DIR`, `T_FILE` and `T_DEVICE`. -/
inductive Kind where
  | free
  | dir
  | file
  | device
  deriving DecidableEq

/-- The fields of `struct dinode`, which are also those that the sleep-lock of a `struct inode`
protects. `addrs` has `ndirect + 1` elements. -/
structure Dinode where
  type : Kind
  major : ℤ
  minor : ℤ
  nlink : ℤ
  size : ℕ
  addrs : ℕ → ℕ

/-- The value of a 16-bit signed field to which `x` is stored. -/
def short (x : ℤ) : ℤ := Int.bmod x (2 ^ 16)

/-- `memset(dip, 0, sizeof(*dip)); dip->type = type`. -/
def Dinode.fresh (type : Kind) : Dinode := ⟨type, 0, 0, 0, 0, fun _ => 0⟩

abbrev SlotId := Fin nInode

/-- `struct inode`. The sleep-lock is the thread that holds it. -/
structure Inode (T : Type) where
  inum : ℕ
  ref : ℤ
  lock : Option T
  valid : Bool
  d : Dinode

/-- The superblock. The blocks below `nmeta` are the boot block, the superblock, the log, the inode
blocks and the bitmap. -/
structure Sb where
  size : ℕ
  ninodes : ℕ
  nmeta : ℕ
  nmeta_pos : 0 < nmeta
  nmeta_le : nmeta ≤ size
  size_lt : size < 2 ^ 32

/-- The kernel tables that hold references to inodes, what can be done to them, and the number of
references to each entry of the inode table. -/
structure Env (T : Type) where
  X : Type
  E : Type
  Ret : E → Type
  exec : (e : E) → T → X → Outcome X (Ret e)
  refs : X → SlotId → ℕ

/-- The state of the file system. `op` counts the transactions that a thread has begun and not ended.
`reading` and `readAlloc` record the threads that are inside
`readi`, and whether a thread inside `readi` has allocated a block; no action reads them. -/
structure St (T X : Type) where
  bit : ℕ → Bool
  blk : ℕ → Block
  din : ℕ → Dinode
  inode : SlotId → Inode T
  op : T → ℤ
  reading : T → Bool
  readAlloc : Bool
  tables : X

/-! ## Atomic actions -/

/-- The atomic actions. -/
inductive Act (E : Type) where
  | beginOp
  | endOp
  /-- `balloc`'s search of one bitmap block, which sets the first clear bit. -/
  | bscan (k : ℕ)
  | bzero (b : ℕ)
  | bclear (b : ℕ)
  | bread (b : ℕ)
  /-- `((uint*)bp->data)[i] = v; log_write(bp)`. -/
  | setWord (b i v : ℕ)
  /-- `memmove(bp->data + off, l, …)`. -/
  | put (b off : ℕ) (l : List UInt8)
  /-- `ialloc`'s test of one on-disk inode, which claims it if it is free. -/
  | dialloc (i : ℕ) (type : Kind)
  /-- The fields of an on-disk inode, read from its block. -/
  | dread (i : ℕ)
  | iupdate (i : ℕ) (d : Dinode)
  | iget (i : ℕ)
  | idup (k : SlotId)
  /-- `ilock` up to `acquiresleep`. -/
  | acquire (k : SlotId)
  /-- `ilock` after `acquiresleep`. -/
  | load (k : SlotId)
  | iunlock (k : SlotId) (d : Dinode)
  /-- `iput` up to its first `release`. -/
  | iputBegin (k : SlotId)
  | invalidate (k : SlotId) (d : Dinode)
  | releasesleep (k : SlotId)
  /-- `iput` from its second `acquire`. -/
  | iputEnd (k : SlotId)
  | readBegin
  | readEnd
  | panic (msg : String)
  | ext (e : E)

variable {T : Type} {V : Env T}

@[reducible] def Act.Ret (V : Env T) : Act V.E → Type
  | .bscan _ => Option ℕ
  | .bread _ => Block
  | .dialloc _ _ => Bool
  | .dread _ => Dinode
  | .iget _ => SlotId
  | .load _ => ℕ × Dinode
  | .iputBegin _ => Option (ℕ × Dinode)
  | .panic _ => Empty
  | .ext e => V.Ret e
  | _ => Unit

namespace St

variable {X : Type} [DecidableEq T]

def setInode (s : St T X) (k : SlotId) (f : Inode T → Inode T) : St T X :=
  { s with inode := update s.inode k (f (s.inode k)) }

def setBlk (s : St T X) (b : ℕ) (x : Block) : St T X := { s with blk := update s.blk b x }

def setBit (s : St T X) (b : ℕ) (x : Bool) : St T X := { s with bit := update s.bit b x }

def setDin (s : St T X) (i : ℕ) (d : Dinode) : St T X := { s with din := update s.din i d }

/-- The first clear bit that bitmap block `k` has for a block of the disk. -/
def firstClear (sb : Sb) (s : St T X) (k : ℕ) : Option ℕ :=
  (List.range' (k * bpb) (min bpb (sb.size - k * bpb))).find? fun b => !s.bit b

/-- The entry of the inode table for inode `i`. -/
def inTable (s : St T X) (i : ℕ) : Option SlotId :=
  (List.finRange nInode).find? fun k => decide (0 < (s.inode k).ref ∧ (s.inode k).inum = i)

/-- The first unused entry of the inode table. -/
def emptySlot (s : St T X) : Option SlotId :=
  (List.finRange nInode).find? fun k => decide ((s.inode k).ref = 0)

end St

section exec

variable [DecidableEq T] (sb : Sb) (t : T) (s : St T V.X)

/-- `balloc`'s search of bitmap block `k`. -/
def execBscan (k : ℕ) : Outcome (St T V.X) (Option ℕ) :=
  match s.firstClear sb k with
  | none => .done none s
  | some b => .done (some b) { s.setBit b true with readAlloc := s.readAlloc || s.reading t }

def execBclear (b : ℕ) : Outcome (St T V.X) Unit :=
  if s.bit b = false then .panic "freeing free block" else .done () (s.setBit b false)

def execDialloc (i : ℕ) (type : Kind) : Outcome (St T V.X) Bool :=
  if (s.din i).type = .free then .done true (s.setDin i (.fresh type)) else .done false s

def execIget (i : ℕ) : Outcome (St T V.X) SlotId :=
  match s.inTable i with
  | some k => .done k (s.setInode k fun ip => { ip with ref := ip.ref + 1 })
  | none =>
    match s.emptySlot with
    | none => .panic "iget: no inodes"
    | some k => .done k (s.setInode k fun ip => { ip with inum := i, ref := 1, valid := false })

def execAcquire (k : SlotId) : Outcome (St T V.X) Unit :=
  if (s.inode k).ref < 1 then .panic "ilock"
  else
    match (s.inode k).lock with
    | some _ => .wait
    | none => .done () (s.setInode k fun ip => { ip with lock := some t })

/-- `ilock` after `acquiresleep`: reads the inode from the disk if necessary. -/
def execLoad (k : SlotId) : Outcome (St T V.X) (ℕ × Dinode) :=
  if (s.inode k).valid then .done ((s.inode k).inum, (s.inode k).d) s
  else if (s.din (s.inode k).inum).type = .free then .panic "ilock: no type"
  else .done ((s.inode k).inum, s.din (s.inode k).inum)
    (s.setInode k fun ip => { ip with valid := true, d := s.din ip.inum })

def execIunlock (k : SlotId) (d : Dinode) : Outcome (St T V.X) Unit :=
  if (s.inode k).lock ≠ some t ∨ (s.inode k).ref < 1 then .panic "iunlock"
  else .done () (s.setInode k fun ip => { ip with d := d, lock := none })

/-- `iput` up to its first `release`: drops the reference, or locks the inode in order to free it. -/
def execIputBegin (k : SlotId) : Outcome (St T V.X) (Option (ℕ × Dinode)) :=
  if (s.inode k).ref = 1 ∧ (s.inode k).valid = true ∧ (s.inode k).d.nlink = 0 then
    match (s.inode k).lock with
    | some _ => .panic "sched locks"
    | none => .done (some ((s.inode k).inum, (s.inode k).d))
        (s.setInode k fun ip => { ip with lock := some t })
  else .done none (s.setInode k fun ip => { ip with ref := ip.ref - 1 })

def exec : (a : Act V.E) → T → St T V.X → Outcome (St T V.X) (a.Ret V)
  | .beginOp, t, s => .done () { s with op := update s.op t (s.op t + 1) }
  | .endOp, t, s => .done () { s with op := update s.op t (s.op t - 1) }
  | .bscan k, t, s => execBscan sb t s k
  | .bzero b, _, s => .done () (s.setBlk b fun _ => 0)
  | .bclear b, _, s => execBclear s b
  | .bread b, _, s => .done (s.blk b) s
  | .setWord b i v, _, s => .done () (s.setBlk b ((s.blk b).setWord i v))
  | .put b off l, _, s => .done () (s.setBlk b (Cells.put (s.blk b) off l))
  | .dialloc i type, _, s => execDialloc s i type
  | .dread i, _, s => .done (s.din i) s
  | .iupdate i d, _, s => .done () (s.setDin i d)
  | .iget i, _, s => execIget s i
  | .idup k, _, s => .done () (s.setInode k fun ip => { ip with ref := ip.ref + 1 })
  | .acquire k, t, s => execAcquire t s k
  | .load k, _, s => execLoad s k
  | .iunlock k d, t, s => execIunlock t s k d
  | .iputBegin k, t, s => execIputBegin t s k
  | .invalidate k d, _, s => .done () (s.setInode k fun ip => { ip with valid := false, d := d })
  | .releasesleep k, _, s => .done () (s.setInode k fun ip => { ip with lock := none })
  | .iputEnd k, _, s => .done () (s.setInode k fun ip => { ip with ref := ip.ref - 1 })
  | .readBegin, t, s => .done () { s with reading := update s.reading t true }
  | .readEnd, t, s => .done () { s with reading := update s.reading t false }
  | .panic m, _, _ => .panic m
  | .ext e, t, s =>
    match V.exec e t s.tables with
    | .wait => .wait
    | .panic m => .panic m
    | .done b x => .done b { s with tables := x }

end exec

/-! ## Blocks -/

abbrev P (V : Env T) := Prog (Act V.E) (Act.Ret V)

abbrev perform (a : Act V.E) : P V (a.Ret V) := Prog.perform a

def panic {α : Type} (msg : String) : P V α := .act (.panic msg) Empty.elim

def beginOp : P V Unit := perform .beginOp

def endOp : P V Unit := perform .endOp

def bread (b : ℕ) : P V Block := perform (.bread b)

def bfree (b : ℕ) : P V Unit := perform (.bclear b)

def ballocFrom (k : ℕ) : ℕ → P V ℕ
  | 0 => return 0
  | n + 1 => do
    let r ← perform (.bscan k)
    match r with
    | some b => do
      perform (.bzero b)
      return b
    | none => ballocFrom (k + 1) n

/-- Allocate a zeroed disk block; returns 0 if out of disk space. -/
def balloc (sb : Sb) : P V ℕ := ballocFrom 0 ((sb.size + bpb - 1) / bpb)

/-! ## Inodes -/

structure Ip where
  slot : SlotId
  inum : ℕ
  d : Dinode

namespace Ip

def setAddr (ip : Ip) (n b : ℕ) : Ip :=
  { ip with d := { ip.d with addrs := update ip.d.addrs n b } }

def setSize (ip : Ip) (n : ℕ) : Ip := { ip with d := { ip.d with size := n } }

def setType (ip : Ip) (type : Kind) : Ip := { ip with d := { ip.d with type := type } }

def setNlink (ip : Ip) (x : ℤ) : Ip := { ip with d := { ip.d with nlink := short x } }

def setDev (ip : Ip) (major minor : ℤ) : Ip := { ip with d := { ip.d with major, minor } }

end Ip

def iget (i : ℕ) : P V SlotId := perform (.iget i)

def idup (k : SlotId) : P V SlotId := do
  perform (.idup k)
  return k

/-- `ialloc` from inode `i` on, of which `n` are left. -/
def iallocFrom (type : Kind) (i : ℕ) : ℕ → P V (Option SlotId)
  | 0 => return none
  | n + 1 => do
    let claimed ← perform (.dialloc i type)
    if claimed then do
      let k ← iget i
      return some k
    else iallocFrom type (i + 1) n

/-- Allocate an inode, which is not locked; `none` if there is no free one. -/
def ialloc (sb : Sb) (type : Kind) : P V (Option SlotId) := iallocFrom type 1 (sb.ninodes - 1)

def iupdate (ip : Ip) : P V Unit := perform (.iupdate ip.inum ip.d)

def ilock (k : SlotId) : P V Ip := do
  perform (.acquire k)
  let (i, d) ← perform (.load k)
  return ⟨k, i, d⟩

def iunlock (ip : Ip) : P V Unit := perform (.iunlock ip.slot ip.d)

/-- `itrunc`'s loop over the direct blocks, from `i` on, of which `n` are left. -/
def freeDirect (ip : Ip) (i : ℕ) : ℕ → P V Ip
  | 0 => return ip
  | n + 1 =>
    if ip.d.addrs i = 0 then freeDirect ip (i + 1) n
    else do
      bfree (ip.d.addrs i)
      freeDirect (ip.setAddr i 0) (i + 1) n

/-- `itrunc`'s loop over the indirect block `a`, from word `j` on, of which `n` are left. -/
def freeWords (a : Block) (j : ℕ) : ℕ → P V Unit
  | 0 => return ()
  | n + 1 =>
    if a.word j = 0 then freeWords a (j + 1) n
    else do
      bfree (a.word j)
      freeWords a (j + 1) n

/-- The part of `itrunc` that frees the indirect block and the blocks that it lists. -/
def freeIndirect (ip : Ip) : P V Ip :=
  if ip.d.addrs ndirect = 0 then return ip
  else do
    let a ← bread (ip.d.addrs ndirect)
    freeWords a 0 nindirect
    bfree (ip.d.addrs ndirect)
    return ip.setAddr ndirect 0

def itrunc (ip : Ip) : P V Ip := do
  let ip ← freeDirect ip 0 ndirect
  let ip ← freeIndirect ip
  iupdate (ip.setSize 0)
  return ip.setSize 0

def ifree (ip : Ip) : P V Unit := do
  let ip ← itrunc ip
  iupdate (ip.setType .free)
  perform (.invalidate ip.slot (ip.setType .free).d)
  perform (.releasesleep ip.slot)
  perform (.iputEnd ip.slot)

/-- Drop a reference to an in-memory inode. If that was the last reference and the inode has no
links to it, free the inode (and its content) on disk. -/
def iput (k : SlotId) : P V Unit := do
  let last ← perform (.iputBegin k)
  match last with
  | none => return ()
  | some (i, d) => ifree ⟨k, i, d⟩

def iunlockput (ip : Ip) : P V Unit := do
  iunlock ip
  iput ip.slot

/-- The loop of `ireclaim` from inode `i` on, of which `n` are left. -/
def ireclaimFrom (i : ℕ) : ℕ → P V Unit
  | 0 => return ()
  | n + 1 => do
    let d ← perform (.dread i)
    if d.type ≠ .free ∧ d.nlink = 0 then do
      -- is an orphaned inode
      let k ← iget i
      beginOp
      let ip ← ilock k
      iunlock ip
      iput k
      endOp
      ireclaimFrom (i + 1) n
    else ireclaimFrom (i + 1) n

/-- Free the inodes that were unlinked but still in use when the system stopped. -/
def ireclaim (sb : Sb) : P V Unit := ireclaimFrom 1 (sb.ninodes - 1)

/-! ## Inode content -/

/-- The part of `bmap` that looks up word `j` of the indirect block. -/
def bmapIndirect (sb : Sb) (ip : Ip) (j : ℕ) : P V (ℕ × Ip) := do
  let a ← bread (ip.d.addrs ndirect)
  if a.word j = 0 then do
    let b ← balloc sb
    if b = 0 then return (0, ip)
    else do
      perform (.setWord (ip.d.addrs ndirect) j b)
      return (b, ip)
  else return (a.word j, ip)

/-- The disk block address of block `bn` of an inode. If there is no such block, `bmap` allocates
one; the address is 0 if out of disk space. -/
def bmap (sb : Sb) (ip : Ip) (bn : ℕ) : P V (ℕ × Ip) :=
  if bn < ndirect then
    if ip.d.addrs bn = 0 then do
      let b ← balloc sb
      if b = 0 then return (0, ip) else return (b, ip.setAddr bn b)
    else return (ip.d.addrs bn, ip)
  else if bn - ndirect < nindirect then
    if ip.d.addrs ndirect = 0 then do
      let b ← balloc sb
      if b = 0 then return (0, ip) else bmapIndirect sb (ip.setAddr ndirect b) (bn - ndirect)
    else bmapIndirect sb ip (bn - ndirect)
  else panic "bmap: out of range"

/-- The bytes `off, …, off + m - 1` of a block. -/
def bytes (x : Block) (off m : ℕ) : List UInt8 := (List.range m).map fun i => x (off + i)

/-- The loop of `readi`; `dst p` says whether the copy of the piece at `p` succeeds, and `acc` holds
what was copied. The last argument bounds the number of rounds. -/
def readiFrom (sb : Sb) (dst : ℕ → Bool) (ip : Ip) (tot off n : ℕ) (acc : List UInt8) :
    ℕ → P V (ℤ × List UInt8 × Ip)
  | 0 => return (tot, acc, ip)
  | fuel + 1 =>
    if tot < n then do
      let (addr, ip) ← bmap sb ip (off / bsize)
      if addr = 0 then return (tot, acc, ip)
      else do
        let x ← bread addr
        let m := min (n - tot) (bsize - off % bsize)
        if dst tot then
          readiFrom sb dst ip (tot + m) (off + m) n (acc ++ bytes x (off % bsize) m) fuel
        else return (-1, acc, ip)
    else return (tot, acc, ip)

/-- Read data from an inode. Returns the result, the bytes that were copied and the inode. -/
def readi (sb : Sb) (dst : ℕ → Bool) (ip : Ip) (off n : ℕ) : P V (ℤ × List UInt8 × Ip) := do
  perform .readBegin
  let r ←
    if ip.d.size < off ∨ (off + n) % 2 ^ 32 < off then pure (0, [], ip)
    else readiFrom sb dst ip 0 off (min n (ip.d.size - off)) [] (min n (ip.d.size - off))
  perform .readEnd
  return r

/-- The loop of `writei`; `src p` is byte `p` of the source, if it can be read. Bytes that were
copied before the source faulted stay in the buffer. Returns also the offset reached. -/
def writeiFrom (sb : Sb) (src : ℕ → Option UInt8) (ip : Ip) (tot off n : ℕ) :
    ℕ → P V (ℕ × ℕ × Ip)
  | 0 => return (tot, off, ip)
  | fuel + 1 =>
    if tot < n then do
      let (addr, ip) ← bmap sb ip (off / bsize)
      if addr = 0 then return (tot, off, ip)
      else do
        let m := min (n - tot) (bsize - off % bsize)
        let c := Cells.read src tot m
        perform (.put addr (off % bsize) c.2)
        if c.1 then writeiFrom sb src ip (tot + m) (off + m) n fuel
        else return (tot, off, ip)
    else return (tot, off, ip)

/-- Write data to an inode. Returns the number of bytes written, or -1, and the inode. -/
def writei (sb : Sb) (src : ℕ → Option UInt8) (ip : Ip) (off n : ℕ) : P V (ℤ × Ip) :=
  if ip.d.size < off ∨ (off + n) % 2 ^ 32 < off then return (-1, ip)
  else if maxFile * bsize < (off + n) % 2 ^ 32 then return (-1, ip)
  else do
    let (tot, off, ip) ← writeiFrom sb src ip 0 off n n
    iupdate (ip.setSize (max ip.d.size off))
    return (tot, ip.setSize (max ip.d.size off))

end Xv6.Fs
