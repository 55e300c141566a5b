import Xv6.Fs.Content
import Xv6.Fs.Dir
import Xv6.Vm.Proc

/-!
# `exec` of a file

`kexec` of `exec.c` on the contents of a file. The headers are structures of little-endian fields.
Offsets in the file are passed to `readi` as `uint`.
-/

namespace Xv6.Exec

open Fs (readResult slash)
open Vm (Layout Proc K pgsize u64 walkaddr putBytes uvmalloc flags2perm procPagetable
  procFreepagetable execStack uint64Bytes)

/-! ## `elf.h` -/

/-- The value of little-endian bytes. -/
def ofBytes : List UInt8 → ℕ
  | [] => 0
  | b :: l => b.toNat + 2 ^ 8 * ofBytes l

/-- The field of `n` bytes at offset `off`. -/
def field (l : List UInt8) (off n : ℕ) : ℕ := ofBytes ((l.drop off).take n)

def elfMagic : ℕ := 0x464C457F

/-- The fields of `struct elfhdr` that `kexec` reads. -/
structure Elfhdr where
  magic : ℕ
  entry : ℕ
  phoff : ℕ
  phnum : ℕ

def elfhdrSize : ℕ := 64

def Elfhdr.ofBytes (l : List UInt8) : Elfhdr where
  magic := field l 0 4
  entry := field l 24 8
  phoff := field l 32 8
  phnum := field l 56 2

/-- The fields of `struct proghdr` that `kexec` reads. -/
structure Proghdr where
  type : ℕ
  flags : ℕ
  off : ℕ
  vaddr : ℕ
  filesz : ℕ
  memsz : ℕ

def proghdrSize : ℕ := 56

def Proghdr.ofBytes (l : List UInt8) : Proghdr where
  type := field l 0 4
  flags := field l 4 4
  off := field l 8 8
  vaddr := field l 16 8
  filesz := field l 32 8
  memsz := field l 40 8

def elfProgLoad : ℕ := 1

/-! ## Loading -/

variable {T : Type}

/-- The loop of `loadseg`, for `n` more pages. -/
def loadsegLoop (file : List UInt8) (pagetable va offset sz : ℕ) : ℕ → ℕ → K T Bool
  | 0, _ => return true
  | n + 1, i => do
    let pa ← walkaddr pagetable (u64 (va + i))
    if pa = 0 then kpanic "loadseg: address should exist"
    else
      let len := if sz - i < pgsize then sz - i else pgsize
      let l := readResult file ((offset + i) % 2 ^ 32) len
      modify fun s => s.setMem pa (putBytes (s.mem pa) 0 l)
      if l.length ≠ len then return false
      else loadsegLoop file pagetable va offset sz n (i + pgsize)

/-- Load a segment; returns whether all of it was read. `offset` and `sz` are `uint`. -/
def loadseg (file : List UInt8) (pagetable va offset sz : ℕ) : K T Bool :=
  loadsegLoop file pagetable va offset sz ((sz + pgsize - 1) / pgsize) 0

/-- The loop of `kexec` over the program headers, for `n` more headers from `off` on; returns
whether it succeeded, and `sz`. -/
def loadLoop (L : Layout) (file : List UInt8) (pagetable : ℕ) : ℕ → ℕ → ℕ → K T (Bool × ℕ)
  | 0, _, sz => return (true, sz)
  | n + 1, off, sz => do
    let l := readResult file off proghdrSize
    if l.length ≠ proghdrSize then return (false, sz)
    else
      let ph := Proghdr.ofBytes l
      if ph.type ≠ elfProgLoad then loadLoop L file pagetable n ((off + proghdrSize) % 2 ^ 32) sz
      else if ph.memsz < ph.filesz then return (false, sz)
      else if u64 (ph.vaddr + ph.memsz) < ph.vaddr then return (false, sz)
      else if ph.vaddr % pgsize ≠ 0 then return (false, sz)
      else
        let sz1 ← uvmalloc L pagetable sz (u64 (ph.vaddr + ph.memsz)) (flags2perm ph.flags)
        if sz1 = 0 then return (false, sz)
        else if ← loadseg file pagetable ph.vaddr (ph.off % 2 ^ 32) (ph.filesz % 2 ^ 32) then
          loadLoop L file pagetable n ((off + proghdrSize) % 2 ^ 32) sz1
        else return (false, sz1)

/-- `kexec` until the file is closed; returns the page table and `sz`, or frees the table. -/
def load (L : Layout) (p : Proc) (file : List UInt8) : K T (Option (ℕ × ℕ)) := do
  let l := readResult file 0 elfhdrSize
  if l.length ≠ elfhdrSize then return none
  else
    let elf := Elfhdr.ofBytes l
    if elf.magic ≠ elfMagic then return none
    else
      match ← procPagetable L p.trapframe with
      | none => return none
      | some pagetable =>
        -- `int off = elf.phoff`
        let (ok, sz) ← loadLoop L file pagetable elf.phnum (elf.phoff % 2 ^ 32) 0
        if ok then return some (pagetable, sz)
        else
          procFreepagetable L pagetable sz
          return none

/-! ## Processes -/

/-- Address spaces and the names of the processes. -/
structure St (T : Type) where
  vm : Vm.St T
  /-- `p->name`, 16 bytes. -/
  name : T → List UInt8

/-- Work on the address spaces only. -/
def liftVm {α : Type} (x : K T α) : Kern (St T) α := fun s =>
  match x s.vm with
  | .ok (a, vm) => .ok (a, { s with vm := vm })
  | .error m => .error m

/-- `safestrcpy` of `string.c`: the contents of `s` after `t` was copied to it. A short string is
followed by two NULs. -/
def safestrcpy (s t : List UInt8) (n : ℕ) : List UInt8 :=
  if t.length < n - 1 then t ++ 0 :: 0 :: s.drop (t.length + 2)
  else t.take (n - 1) ++ 0 :: s.drop n

def last (path : List UInt8) : List UInt8 := (path.reverse.takeWhile (· != slash)).reverse

def setReg (trapframe off x : ℕ) : K T PUnit :=
  modify fun s => s.setMem trapframe (putBytes (s.mem trapframe) off (uint64Bytes [x]))

/-- The offsets in `struct trapframe`. -/
def epcOff : ℕ := 24

def spOff : ℕ := 48

def a1Off : ℕ := 120

variable [DecidableEq T]

def commit (L : Layout) (t : T) (p : Proc) (path : List UInt8) (pagetable sz sp entry : ℕ) :
    Kern (St T) Unit := do
  liftVm (setReg p.trapframe a1Off sp)
  modify fun s => { s with name := Function.update s.name t (safestrcpy (s.name t) (last path) 16) }
  liftVm (do
    modify fun s => s.setProc t (some { p with pagetable := pagetable, sz := sz })
    setReg p.trapframe epcOff entry
    setReg p.trapframe spOff sp
    procFreepagetable L p.pagetable p.sz)

/-- `kexec` of process `p` in slot `t` for a file with contents `file`. -/
def kexec (L : Layout) (t : T) (p : Proc) (path file : List UInt8) (argv : List (List UInt8)) :
    Kern (St T) ℤ := do
  match ← liftVm (load L p file) with
  | none => return -1
  | some (pagetable, sz) =>
    match ← liftVm (execStack L p pagetable sz argv) with
    | none => return -1
    | some (sz1, sp) =>
      commit L t p path pagetable sz1 sp (Elfhdr.ofBytes (readResult file 0 elfhdrSize)).entry
      return argv.length

end Xv6.Exec
