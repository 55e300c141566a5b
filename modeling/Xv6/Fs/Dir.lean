import Xv6.Fs.Model

/-!
# Directories and path names

The directory and path-name layers of `fs.c`, and `create` and `isdirempty` of `sysfile.c`. A string
is a list of bytes, which is followed by a NUL. A name is the contents of a buffer of `dirsiz` bytes,
in which a NUL may be missing; it is read by `strncmp` and `strncpy` only, which stop at `dirsiz`.
-/

namespace Xv6.Fs

open Xv6.Threads

def dirsiz : ℕ := 14

def direntSize : ℕ := 16

def rootIno : ℕ := 1

/-- A name: the bytes up to its end, or those of a buffer. -/
abbrev Name := List UInt8

/-! ## Strings -/

/-- `strncmp` of `string.c`. -/
def strncmp : List UInt8 → List UInt8 → ℕ → ℤ
  | _, _, 0 => 0
  | p, q, n + 1 =>
    if p.headD 0 ≠ 0 ∧ p.headD 0 = q.headD 0 then strncmp p.tail q.tail n
    else (p.headD 0).toNat - (q.headD 0).toNat

/-- The `n` bytes that `strncpy` of `string.c` stores. -/
def strncpy (t : List UInt8) : ℕ → List UInt8
  | 0 => []
  | n + 1 => if t.headD 0 = 0 then List.replicate (n + 1) 0 else t.headD 0 :: strncpy t.tail n

def namecmp (s t : Name) : ℤ := strncmp s t dirsiz

/-! ## Directory entries -/

/-- `struct dirent`. -/
structure Dirent where
  inum : ℕ
  name : Name
  deriving DecidableEq

namespace Dirent

/-- The bytes of a directory entry whose name was copied by `strncpy`. -/
def toBytes (de : Dirent) : List UInt8 :=
  UInt8.ofNat de.inum :: UInt8.ofNat (de.inum / 2 ^ 8) :: strncpy de.name dirsiz

/-- The directory entry with these bytes. -/
def ofBytes (l : List UInt8) : Dirent where
  inum := (l.getD 0 0).toNat + 2 ^ 8 * (l.getD 1 0).toNat
  name := l.drop 2

/-- The entry after `memset(&de, 0, sizeof(de))`. -/
def none : Dirent := ⟨0, []⟩

end Dirent

def dot : Name := [46]

def dotdot : Name := [46, 46]

variable {T : Type} {V : Env T}

/-! ## Directories -/

/-- Read directory entry `j`; panics if it cannot be read. -/
def readDirent (sb : Sb) (msg : String) (dp : Ip) (j : ℕ) : P V (Dirent × Ip) := do
  let (r, l, dp) ← readi sb (fun _ => true) dp (j * direntSize) direntSize
  if r = direntSize then return (.ofBytes l, dp) else panic msg

/-- The loop of `dirlookup` from entry `j` on. -/
def dirlookupFrom (sb : Sb) (dp : Ip) (name : Name) (j : ℕ) : ℕ → P V (Option (SlotId × ℕ) × Ip)
  | 0 => return (none, dp)
  | fuel + 1 =>
    if j * direntSize < dp.d.size then do
      let (de, dp) ← readDirent sb "dirlookup read" dp j
      if de.inum = 0 then dirlookupFrom sb dp name (j + 1) fuel
      else if namecmp name de.name = 0 then do
        let k ← iget de.inum
        return (some (k, j), dp)
      else dirlookupFrom sb dp name (j + 1) fuel
    else return (none, dp)

/-- Look for a directory entry in a directory. Returns the inode and the index of the entry. -/
def dirlookup (sb : Sb) (dp : Ip) (name : Name) : P V (Option (SlotId × ℕ) × Ip) :=
  if dp.d.type = .dir then dirlookupFrom sb dp name 0 (dp.d.size + 1)
  else panic "dirlookup not DIR"

/-- `dirlink`'s search for an empty directory entry from entry `j` on. -/
def emptyDirentFrom (sb : Sb) (dp : Ip) (j : ℕ) : ℕ → P V (ℕ × Ip)
  | 0 => return (j, dp)
  | fuel + 1 =>
    if j * direntSize < dp.d.size then do
      let (de, dp) ← readDirent sb "dirlink read" dp j
      if de.inum = 0 then return (j, dp) else emptyDirentFrom sb dp (j + 1) fuel
    else return (j, dp)

/-- Write directory entry `j`; returns whether all of it was written. -/
def writeDirent (sb : Sb) (dp : Ip) (j : ℕ) (de : Dirent) : P V (Bool × Ip) := do
  let (r, dp) ← writei sb (fun p => de.toBytes[p]?) dp (j * direntSize) direntSize
  return (decide (r = direntSize), dp)

/-- Write a new directory entry into a directory. Returns whether that succeeded. -/
def dirlink (sb : Sb) (dp : Ip) (name : Name) (inum : ℕ) : P V (Bool × Ip) := do
  let (found, dp) ← dirlookup sb dp name
  match found with
  | some (k, _) => do
    iput k
    return (false, dp)
  | none => do
    let (j, dp) ← emptyDirentFrom sb dp 0 (dp.d.size + 1)
    writeDirent sb dp j ⟨inum % 2 ^ 16, name⟩

/-- `isdirempty` from entry `j` on. -/
def isdiremptyFrom (sb : Sb) (dp : Ip) (j : ℕ) : ℕ → P V (Bool × Ip)
  | 0 => return (true, dp)
  | fuel + 1 =>
    if j * direntSize < dp.d.size then do
      let (de, dp) ← readDirent sb "isdirempty: readi" dp j
      if de.inum ≠ 0 then return (false, dp) else isdiremptyFrom sb dp (j + 1) fuel
    else return (true, dp)

def isdirempty (sb : Sb) (dp : Ip) : P V (Bool × Ip) := isdiremptyFrom sb dp 2 (dp.d.size + 1)

/-! ## Paths -/

def slash : UInt8 := 47

/-- The buffer `name` after a path element has been copied to it: a short element is followed by a
NUL, and what was behind it stays. -/
def copyElem (elem name : Name) : Name :=
  if dirsiz ≤ elem.length then elem.take dirsiz else elem ++ 0 :: name.drop (elem.length + 1)

/-- Copy the next path element to the buffer `name`. Returns the buffer and the path that follows
the element, without leading slashes. -/
def skipelem (path : List UInt8) (name : Name) : Option (Name × List UInt8) :=
  match path.dropWhile (· == slash) with
  | [] => none
  | c :: l => some (copyElem ((c :: l).takeWhile (· != slash)) name,
      ((c :: l).dropWhile (· != slash)).dropWhile (· == slash))

/-- The loop of `namex` from the inode `k` on, with the path that is left and the buffer for the
name. The last argument bounds the number of path elements. -/
def namexFrom (sb : Sb) (parent : Bool) (k : SlotId) (path : List UInt8) (name : Name) :
    ℕ → P V (Option (SlotId × Name))
  | 0 => return none
  | fuel + 1 =>
    match skipelem path name with
    | none =>
      if parent then do
        iput k
        return none
      else return some (k, name)
    | some (name, rest) => do
      let ip ← ilock k
      if ip.d.type ≠ .dir then do
        iunlockput ip
        return none
      else if parent = true ∧ rest = [] then do
        iunlock ip
        return some (k, name)
      else do
        let (found, ip) ← dirlookup sb ip name
        match found with
        | none => do
          iunlockput ip
          return none
        | some (next, _) => do
          iunlockput ip
          namexFrom sb parent next rest name fuel

/-- Look up the inode for a path name, or that of its parent directory and the last name. `name` is
what the buffer for the name holds before. -/
def namex (sb : Sb) (cwd : SlotId) (parent : Bool) (path : List UInt8) (name : Name) :
    P V (Option (SlotId × Name)) := do
  let k ← if path.head? = some slash then iget rootIno else idup cwd
  namexFrom sb parent k path name (path.length + 1)

def namei (sb : Sb) (cwd : SlotId) (path : List UInt8) (name : Name) : P V (Option SlotId) := do
  let r ← namex sb cwd false path name
  return r.map Prod.fst

def nameiparent (sb : Sb) (cwd : SlotId) (path : List UInt8) (name : Name) :
    P V (Option (SlotId × Name)) :=
  namex sb cwd true path name

/-! ## Creating an inode -/

/-- The end of `create` when something went wrong: de-allocate `ip`. -/
def createFail (ip dp : Ip) : P V (Option Ip) := do
  iupdate (ip.setNlink 0)
  iunlockput (ip.setNlink 0)
  iunlockput dp
  return none

/-- The part of `create` that makes the entries of a new directory. -/
def createDots (sb : Sb) (ip dp : Ip) : P V (Bool × Ip) := do
  let (ok, ip) ← dirlink sb ip dot ip.inum
  if ok then dirlink sb ip dotdot dp.inum else return (false, ip)

def createInode (sb : Sb) (dp : Ip) (k : SlotId) (name : Name) (type : Kind) (major minor : ℤ) :
    P V (Option Ip) := do
  let ip ← ilock k
  let ip := (ip.setDev major minor).setNlink 1
  iupdate ip
  let (ok, ip) ← if type = .dir then createDots sb ip dp else pure (true, ip)
  if ok then do
    let (ok, dp) ← dirlink sb dp name ip.inum
    if ok then
      if type = .dir then do
        -- now that success is guaranteed: for ".."
        let dp := dp.setNlink (dp.d.nlink + 1)
        iupdate dp
        iunlockput dp
        return some ip
      else do
        iunlockput dp
        return some ip
    else createFail ip dp
  else createFail ip dp

/-- Create the inode for a new path name; returns it locked. An existing file or device is returned
if a file is asked for. `name` is what the buffer for the name holds before. -/
def create (sb : Sb) (cwd : SlotId) (path : List UInt8) (name : Name) (type : Kind)
    (major minor : ℤ) : P V (Option Ip) := do
  let r ← nameiparent sb cwd path name
  match r with
  | none => return none
  | some (k, name) => do
    let dp ← ilock k
    let (found, dp) ← dirlookup sb dp name
    match found with
    | some (k, _) => do
      iunlockput dp
      let ip ← ilock k
      if type = .file ∧ (ip.d.type = .file ∨ ip.d.type = .device) then return some ip
      else do
        iunlockput ip
        return none
    | none => do
      let r ← ialloc sb type
      match r with
      | none => do
        iunlockput dp
        return none
      | some k => createInode sb dp k name type major minor

end Xv6.Fs
