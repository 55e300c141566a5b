import Xv6.Fs.Dir
import Xv6.Kern

/-!
# The inode layer of the x86 kernel

The inode, directory and path-name layers of the x86 `fs.c` and the system calls of `sysfile.c` that
use them, run one call after another by any processes. Unlike in the riscv kernel, `iput` always
takes the sleep-lock of the inode, and running out of inodes or blocks is a panic.

A directory is the array of its entries: block addresses are left out, and an inode records how many
data blocks it has and whether it has an indirect block, so that `balloc` runs out when the disk is
full. The contents of files are not modelled. A call that sleeps on a sleep-lock stops the run, since
no other process is inside a call to release it; `Stop.sleep p q` records that `p` waits for `q`.
-/

namespace Xv6.X86.Fs

open Function (update)
open Xv6.Fs (Kind Name Dirent dot dotdot rootIno short slash direntSize dirsiz)

def bsize : ℕ := 512

def ndirect : ℕ := 12

def nindirect : ℕ := bsize / 4

def maxFile : ℕ := ndirect + nindirect

def nInode : ℕ := 50

def nFile : ℕ := 100

def nOfile : ℕ := 16

abbrev SlotId := Fin nInode

/-- `struct dinode`. In place of the addresses, `data` is the number of data blocks and `ind` says
whether there is an indirect block. -/
structure Dinode where
  type : Kind
  major : ℤ
  minor : ℤ
  nlink : ℤ
  size : ℕ
  data : ℕ
  ind : Bool
  deriving DecidableEq

/-- `memset(dip, 0, sizeof(*dip)); dip->type = type`. -/
def Dinode.fresh (type : Kind) : Dinode := ⟨type, 0, 0, 0, 0, 0, false⟩

/-- `struct inode`; `lock` is the process that holds the sleep-lock. -/
structure Inode (P : Type) where
  inum : ℕ
  ref : ℤ
  lock : Option P
  valid : Bool
  d : Dinode

/-- `struct file`, as far as inodes go. -/
structure File where
  ref : ℕ
  ip : Option SlotId

/-- The state: the number of free blocks, the on-disk inodes and directory contents, the inode cache,
the current directories and the open files. -/
structure St (P : Type) where
  nfree : ℕ
  din : ℕ → Dinode
  ent : ℕ → ℕ → Dirent
  inode : SlotId → Inode P
  cwd : P → SlotId
  ofile : P → Fin nOfile → Option (Fin nFile)
  ftable : Fin nFile → File

/-- Why a call does not return. -/
inductive Stop (P : Type) where
  | panic (msg : String)
  /-- `p` sleeps on a sleep-lock that `q` holds. -/
  | sleep (p q : P)
  deriving DecidableEq

variable {P : Type} [DecidableEq P]

/-- Programs of the kernel. -/
abbrev M (P α : Type) := StateT (St P) (Except (Stop P)) α

def panic {α : Type} (msg : String) : M P α := throw (.panic msg)

namespace St

def setInode (s : St P) (k : SlotId) (f : Inode P → Inode P) : St P :=
  { s with inode := update s.inode k (f (s.inode k)) }

/-- The state with `f` applied to the fields of entry `k` that are also on disk. -/
def setD (s : St P) (k : SlotId) (f : Dinode → Dinode) : St P :=
  s.setInode k fun ip => { ip with d := f ip.d }

def setDin (s : St P) (i : ℕ) (d : Dinode) : St P := { s with din := update s.din i d }

def setEnt (s : St P) (i j : ℕ) (de : Dirent) : St P :=
  { s with ent := update s.ent i (update (s.ent i) j de) }

def inCache (s : St P) (i : ℕ) : Option SlotId :=
  (List.finRange nInode).find? fun k => decide (0 < (s.inode k).ref ∧ (s.inode k).inum = i)

def emptySlot (s : St P) : Option SlotId :=
  (List.finRange nInode).find? fun k => decide ((s.inode k).ref = 0)

/-- The first free on-disk inode of `ninodes`. -/
def freeInode (s : St P) (ninodes : ℕ) : Option ℕ :=
  (List.range' 1 (ninodes - 1)).find? fun i => decide ((s.din i).type = .free)

end St

/-! ## Inodes -/

/-- Find the inode with number `i` in the cache, or take an unused entry for it. -/
def iget (i : ℕ) : M P SlotId := do
  let s ← get
  match s.inCache i with
  | some k => do
    modify fun s => s.setInode k fun ip => { ip with ref := ip.ref + 1 }
    return k
  | none =>
    match s.emptySlot with
    | none => panic "iget: no inodes"
    | some k => do
      modify fun s => s.setInode k fun ip => { ip with inum := i, ref := 1, valid := false }
      return k

def ialloc (ninodes : ℕ) (type : Kind) : M P SlotId := do
  let s ← get
  match s.freeInode ninodes with
  | none => panic "ialloc: no inodes"
  | some i => do
    modify fun s => s.setDin i (.fresh type)
    iget i

def iupdate (k : SlotId) : M P Unit :=
  modify fun s => s.setDin (s.inode k).inum (s.inode k).d

def idup (k : SlotId) : M P SlotId := do
  modify fun s => s.setInode k fun ip => { ip with ref := ip.ref + 1 }
  return k

/-- Process `p` takes the sleep-lock of entry `k`. -/
def acquiresleep (p : P) (k : SlotId) : M P Unit := do
  let s ← get
  match (s.inode k).lock with
  | some q => throw (.sleep p q)
  | none => modify fun s => s.setInode k fun ip => { ip with lock := some p }

def releasesleep (k : SlotId) : M P Unit :=
  modify fun s => s.setInode k fun ip => { ip with lock := none }

/-- `ilock` after `acquiresleep`: reads the inode from disk if necessary. -/
def load (k : SlotId) : M P Unit := do
  let s ← get
  if (s.inode k).valid then pure ()
  else do
    modify fun s => s.setInode k fun ip => { ip with d := s.din ip.inum, valid := true }
    if (s.din (s.inode k).inum).type = .free then panic "ilock: no type"

def ilock (p : P) (k : SlotId) : M P Unit := do
  let s ← get
  if (s.inode k).ref < 1 then panic "ilock"
  else do
    acquiresleep p k
    load k

def iunlock (p : P) (k : SlotId) : M P Unit := do
  let s ← get
  if (s.inode k).lock ≠ some p ∨ (s.inode k).ref < 1 then panic "iunlock" else releasesleep k

/-- The number of blocks of an inode. -/
def Dinode.blocks (d : Dinode) : ℕ := d.data + if d.ind then 1 else 0

def itrunc (k : SlotId) : M P Unit := do
  modify fun s => { s with nfree := s.nfree + (s.inode k).d.blocks }
  modify fun s => s.setD k fun d => { d with size := 0, data := 0, ind := false }
  iupdate k

def ifree (k : SlotId) : M P Unit := do
  itrunc k
  modify fun s => s.setD k fun d => { d with type := .free }
  iupdate k
  modify fun s => s.setInode k fun ip => { ip with valid := false }

def iput (p : P) (k : SlotId) : M P Unit := do
  acquiresleep p k
  let s ← get
  if (s.inode k).valid = true ∧ (s.inode k).d.nlink = 0 ∧ (s.inode k).ref = 1 then ifree k
  else pure ()
  releasesleep k
  modify fun s => s.setInode k fun ip => { ip with ref := ip.ref - 1 }

def iunlockput (p : P) (k : SlotId) : M P Unit := do
  iunlock p k
  iput p k

/-! ## Inode content -/

def balloc : M P Unit := do
  let s ← get
  if s.nfree = 0 then panic "balloc: out of blocks"
  else modify fun s => { s with nfree := s.nfree - 1 }

/-- The part of `bmap` that looks up a block that the indirect block lists. -/
def bmapIndirect (k : SlotId) : M P Unit := do
  let s ← get
  if (s.inode k).d.ind then pure ()
  else do
    balloc
    modify fun s => s.setD k fun d => { d with ind := true }
  balloc
  modify fun s => s.setD k fun d => { d with data := d.data + 1 }

/-- Look up block `bn` of an inode without holes, or allocate it. -/
def bmap (k : SlotId) (bn : ℕ) : M P Unit := do
  let s ← get
  if bn < (s.inode k).d.data then pure ()
  else if bn < ndirect then do
    balloc
    modify fun s => s.setD k fun d => { d with data := d.data + 1 }
  else if bn - ndirect < nindirect then bmapIndirect k
  else panic "bmap: out of range"

/-- `readi` of directory entry `j`; panics if it cannot be read. -/
def readDirent (msg : String) (k : SlotId) (j : ℕ) : M P Dirent := do
  let s ← get
  if (j + 1) * direntSize ≤ (s.inode k).d.size then do
    bmap k (j * direntSize / bsize)
    return s.ent (s.inode k).inum j
  else panic msg

/-- `writei` of directory entry `j`; returns whether it was written. -/
def writeDirent (k : SlotId) (j : ℕ) (de : Dirent) : M P Bool := do
  let s ← get
  if (s.inode k).d.size < j * direntSize then return false
  else if maxFile * bsize < (j + 1) * direntSize then return false
  else do
    bmap k (j * direntSize / bsize)
    modify fun s => s.setEnt (s.inode k).inum j de
    if (s.inode k).d.size < (j + 1) * direntSize then do
      modify fun s => s.setD k fun d => { d with size := (j + 1) * direntSize }
      iupdate k
      return true
    else return true

/-! ## Directories -/

/-- The loop of `dirlookup` from entry `j` on. -/
def dirlookupFrom (k : SlotId) (name : Name) (j : ℕ) : ℕ → M P (Option (SlotId × ℕ))
  | 0 => return none
  | fuel + 1 => do
    let s ← get
    if j * direntSize < (s.inode k).d.size then do
      let de ← readDirent "dirlookup read" k j
      if de.inum = 0 then dirlookupFrom k name (j + 1) fuel
      else if de.name = name then do
        let k' ← iget de.inum
        return some (k', j)
      else dirlookupFrom k name (j + 1) fuel
    else return none

/-- Look for a directory entry in a directory. Returns the inode and the index of the entry. -/
def dirlookup (k : SlotId) (name : Name) : M P (Option (SlotId × ℕ)) := do
  let s ← get
  if (s.inode k).d.type = .dir then dirlookupFrom k name 0 ((s.inode k).d.size + 1)
  else panic "dirlookup not DIR"

/-- `dirlink`'s search for an empty directory entry from entry `j` on. -/
def emptyDirentFrom (k : SlotId) (j : ℕ) : ℕ → M P ℕ
  | 0 => return j
  | fuel + 1 => do
    let s ← get
    if j * direntSize < (s.inode k).d.size then do
      let de ← readDirent "dirlink read" k j
      if de.inum = 0 then return j else emptyDirentFrom k (j + 1) fuel
    else return j

/-- Write a new directory entry into a directory. Returns whether that succeeded. -/
def dirlink (p : P) (k : SlotId) (name : Name) (inum : ℕ) : M P Bool := do
  let found ← dirlookup k name
  match found with
  | some (k', _) => do
    iput p k'
    return false
  | none => do
    let s ← get
    let j ← emptyDirentFrom k 0 ((s.inode k).d.size + 1)
    let ok ← writeDirent k j ⟨inum % 2 ^ 16, name⟩
    if ok then return true else panic "dirlink"

/-! ## Paths -/

/-- The next path element and the path that follows it, without leading slashes. -/
def skipelem (path : List UInt8) : Option (Name × List UInt8) :=
  match path.dropWhile (· == slash) with
  | [] => none
  | c :: l => some (((c :: l).takeWhile (· != slash)).take dirsiz,
      ((c :: l).dropWhile (· != slash)).dropWhile (· == slash))

/-- The loop of `namex` from the inode `k` on, with the path that is left. The last argument bounds
the number of path elements. -/
def namexFrom (p : P) (parent : Bool) (k : SlotId) (path : List UInt8) :
    ℕ → M P (Option (SlotId × Name))
  | 0 => return none
  | fuel + 1 =>
    match skipelem path with
    | none =>
      if parent then do
        iput p k
        return none
      else return some (k, [])
    | some (name, rest) => do
      ilock p k
      let s ← get
      if (s.inode k).d.type ≠ .dir then do
        iunlockput p k
        return none
      else if parent = true ∧ rest = [] then do
        iunlock p k
        return some (k, name)
      else do
        let found ← dirlookup k name
        match found with
        | none => do
          iunlockput p k
          return none
        | some (next, _) => do
          iunlockput p k
          namexFrom p parent next rest fuel

/-- Look up the inode for a path name, or that of its parent directory and the last name. -/
def namex (p : P) (parent : Bool) (path : List UInt8) : M P (Option (SlotId × Name)) := do
  let s ← get
  let k ← if path.head? = some slash then iget rootIno else idup (s.cwd p)
  namexFrom p parent k path (path.length + 1)

def namei (p : P) (path : List UInt8) : M P (Option (SlotId × Name)) := namex p false path

def nameiparent (p : P) (path : List UInt8) : M P (Option (SlotId × Name)) := namex p true path

/-! ## System calls -/

/-- `ip->nlink = ip->nlink + x; iupdate(ip)`. -/
def addNlink (k : SlotId) (x : ℤ) : M P Unit := do
  modify fun s => s.setD k fun d => { d with nlink := short (d.nlink + x) }
  iupdate k

/-- The end of `sys_link` after its label `bad`. -/
def linkBad (p : P) (k : SlotId) : M P ℤ := do
  ilock p k
  addNlink k (-1)
  iunlockput p k
  return -1

/-- The part of `sys_link` that makes the entry for the inode `k`. -/
def linkEntry (p : P) (k : SlotId) (new : List UInt8) : M P ℤ := do
  let r ← nameiparent p new
  match r with
  | none => linkBad p k
  | some (dk, name) => do
    ilock p dk
    let s ← get
    let ok ← dirlink p dk name (s.inode k).inum
    iunlockput p dk
    if ok then do
      iput p k
      return 0
    else linkBad p k

def sysLink (p : P) (old new : List UInt8) : M P ℤ := do
  let r ← namei p old
  match r with
  | none => return -1
  | some (k, _) => do
    ilock p k
    let s ← get
    if (s.inode k).d.type = .dir then do
      iunlockput p k
      return -1
    else do
      addNlink k 1
      iunlock p k
      linkEntry p k new

/-- The loop of `isdirempty` from entry `j` on. -/
def isdiremptyFrom (k : SlotId) (j : ℕ) : ℕ → M P Bool
  | 0 => return true
  | fuel + 1 => do
    let s ← get
    if j * direntSize < (s.inode k).d.size then do
      let de ← readDirent "isdirempty: readi" k j
      if de.inum ≠ 0 then return false else isdiremptyFrom k (j + 1) fuel
    else return true

/-- Is the directory empty except for `.` and `..`? -/
def isdirempty (k : SlotId) : M P Bool := do
  let s ← get
  isdiremptyFrom k 2 ((s.inode k).d.size + 1)

/-- The part of `sys_unlink` that removes entry `j` of `dk`, which names `k`; both are locked. -/
def unlinkEntry (p : P) (dk k : SlotId) (j : ℕ) : M P ℤ := do
  let ok ← writeDirent dk j .none
  if ok then do
    let s ← get
    if (s.inode k).d.type = .dir then addNlink dk (-1) else pure ()
    iunlockput p dk
    addNlink k (-1)
    iunlockput p k
    return 0
  else panic "unlink: writei"

/-- The part of `sys_unlink` for the entry `name` of `dk`, which is locked. -/
def unlinkName (p : P) (dk : SlotId) (name : Name) : M P ℤ := do
  let found ← dirlookup dk name
  match found with
  | none => do
    iunlockput p dk
    return -1
  | some (k, j) => do
    ilock p k
    let s ← get
    if (s.inode k).d.nlink < 1 then panic "unlink: nlink < 1"
    else do
      let empty ← if (s.inode k).d.type = .dir then isdirempty k else pure true
      if empty then unlinkEntry p dk k j
      else do
        iunlockput p k
        iunlockput p dk
        return -1

def sysUnlink (p : P) (path : List UInt8) : M P ℤ := do
  let r ← nameiparent p path
  match r with
  | none => return -1
  | some (dk, name) => do
    ilock p dk
    if name = dot ∨ name = dotdot then do
      iunlockput p dk
      return -1
    else unlinkName p dk name

/-- The part of `create` that makes the entries of a new directory `k` in `dk`. -/
def createDots (p : P) (dk k : SlotId) : M P Unit := do
  addNlink dk 1
  let s ← get
  let ok ← dirlink p k dot (s.inode k).inum
  if ok then do
    let ok ← dirlink p k dotdot (s.inode dk).inum
    if ok then pure () else panic "create dots"
  else panic "create dots"

/-- The part of `create` after the new inode `k` has been allocated. -/
def createInode (p : P) (dk k : SlotId) (name : Name) (type : Kind) (major minor : ℤ) :
    M P (Option SlotId) := do
  ilock p k
  modify fun s => s.setD k fun d => { d with major, minor, nlink := 1 }
  iupdate k
  if type = .dir then createDots p dk k else pure ()
  let s ← get
  let ok ← dirlink p dk name (s.inode k).inum
  if ok then do
    iunlockput p dk
    return some k
  else panic "create: dirlink"

/-- Create the inode for a new path name; returns it locked. An existing file is returned if a file
is asked for. -/
def create (ninodes : ℕ) (p : P) (path : List UInt8) (type : Kind) (major minor : ℤ) :
    M P (Option SlotId) := do
  let r ← nameiparent p path
  match r with
  | none => return none
  | some (dk, name) => do
    ilock p dk
    let found ← dirlookup dk name
    match found with
    | some (k, _) => do
      iunlockput p dk
      ilock p k
      let s ← get
      if type = .file ∧ (s.inode k).d.type = .file then return some k
      else do
        iunlockput p k
        return none
    | none => do
      let k ← ialloc ninodes type
      createInode p dk k name type major minor

/-- The first unused entry of the file table. -/
def St.freeFile (s : St P) : Option (Fin nFile) :=
  (List.finRange nFile).find? fun f => decide ((s.ftable f).ref = 0)

/-- The first unused descriptor of process `p`. -/
def St.freeFd (s : St P) (p : P) : Option (Fin nOfile) :=
  (List.finRange nOfile).find? fun fd => decide (s.ofile p fd = none)

/-- The end of `sys_open` for the locked inode `k`. A file that got no descriptor is closed again,
which only drops its reference. -/
def openInode (p : P) (k : SlotId) : M P ℤ := do
  let s ← get
  match s.freeFile, s.freeFd p with
  | some f, some fd => do
    modify fun s => { s with
      ofile := update s.ofile p (update (s.ofile p) fd (some f)) }
    iunlock p k
    modify fun s => { s with ftable := update s.ftable f ⟨1, some k⟩ }
    return fd.val
  | _, _ => do
    iunlockput p k
    return -1

/-- `O_CREATE` is set. -/
def isCreate (omode : ℕ) : Bool := omode.testBit 9

def sysOpen (ninodes : ℕ) (p : P) (path : List UInt8) (omode : ℕ) : M P ℤ :=
  if isCreate omode then do
    let r ← create ninodes p path .file 0 0
    match r with
    | none => return -1
    | some k => openInode p k
  else do
    let r ← namei p path
    match r with
    | none => return -1
    | some (k, _) => do
      ilock p k
      let s ← get
      if (s.inode k).d.type = .dir ∧ omode ≠ 0 then do
        iunlockput p k
        return -1
      else openInode p k

/-- The end of `sys_mkdir` and of `sys_mknod`. -/
def dropCreated (p : P) : Option SlotId → M P ℤ
  | none => return -1
  | some k => do
    iunlockput p k
    return 0

def sysMkdir (ninodes : ℕ) (p : P) (path : List UInt8) : M P ℤ := do
  let r ← create ninodes p path .dir 0 0
  dropCreated p r

def sysMknod (ninodes : ℕ) (p : P) (path : List UInt8) (major minor : ℤ) : M P ℤ := do
  let r ← create ninodes p path .device (short major) (short minor)
  dropCreated p r

def sysChdir (p : P) (path : List UInt8) : M P ℤ := do
  let r ← namei p path
  match r with
  | none => return -1
  | some (k, _) => do
    ilock p k
    let s ← get
    if (s.inode k).d.type ≠ .dir then do
      iunlockput p k
      return -1
    else do
      iunlock p k
      iput p (s.cwd p)
      modify fun s => { s with cwd := update s.cwd p k }
      return 0

inductive Call where
  | link (old new : List UInt8)
  | unlink (path : List UInt8)
  | open (path : List UInt8) (omode : ℕ)
  | mkdir (path : List UInt8)
  | mknod (path : List UInt8) (major minor : ℤ)
  | chdir (path : List UInt8)

def syscall (ninodes : ℕ) (p : P) : Call → M P ℤ
  | .link old new => sysLink p old new
  | .unlink path => sysUnlink p path
  | .open path omode => sysOpen ninodes p path omode
  | .mkdir path => sysMkdir ninodes p path
  | .mknod path major minor => sysMknod ninodes p path major minor
  | .chdir path => sysChdir p path

end Xv6.X86.Fs
