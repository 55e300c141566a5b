import Xv6.Vm.Model

/-!
# Processes and their address spaces

The functions of `proc.c`, `sysproc.c` and `exec.c` that own page tables, and the system of all
processes. A system call or a page fault of a process is one step.
-/

namespace Xv6.Vm

variable {T : Type} [DecidableEq T]

/-! ## `proc.c` -/

/-- A page table with only the trampoline and the trapframe; `none` if memory is exhausted. -/
def procPagetable (L : Layout) (trapframe : ℕ) : K T (Option ℕ) := do
  match ← uvmcreate with
  | none => return none
  | some pagetable =>
    if ← mappages pagetable trampolineVa pgsize L.trampoline { r := true, x := true } then
      if ← mappages pagetable trapframeVa pgsize trapframe { r := true, w := true } then
        return some pagetable
      else
        uvmunmap L pagetable trampolineVa 1 false
        uvmfree L pagetable 0
        return none
    else
      uvmfree L pagetable 0
      return none

def procFreepagetable (L : Layout) (pagetable sz : ℕ) : K T Unit := do
  uvmunmap L pagetable trampolineVa 1 false
  uvmunmap L pagetable trapframeVa 1 false
  uvmfree L pagetable sz

/-- Fill the unused slot `t`; returns the process, or `none` if memory is exhausted. -/
def allocproc (L : Layout) (t : T) : K T (Option Proc) := do
  match ← kalloc with
  | none => return none
  | some trapframe =>
    match ← procPagetable L trapframe with
    | none =>
      kfree L trapframe
      return none
    | some pagetable =>
      modify fun s => s.setProc t (some ⟨0, pagetable, trapframe⟩)
      return some ⟨0, pagetable, trapframe⟩

/-- Free slot `t`, whose process is `p`. -/
def freeproc (L : Layout) (t : T) (p : Proc) : K T Unit := do
  kfree L p.trapframe
  procFreepagetable L p.pagetable p.sz
  modify fun s => s.setProc t none

def growproc (L : Layout) (t : T) (p : Proc) (n : ℤ) : K T Bool := do
  if n > 0 then
    let sz ← uvmalloc L p.pagetable p.sz (u64 (p.sz + n)) { w := true }
    if sz = 0 then return false
    else
      modify fun s => s.setProc t (some { p with sz := sz })
      return true
  else if n < 0 then
    let sz ← uvmdealloc L p.pagetable p.sz (u64 (p.sz + n))
    modify fun s => s.setProc t (some { p with sz := sz })
    return true
  else
    modify fun s => s.setProc t (some { p with sz := p.sz })
    return true

/-- Returns whether it succeeded; slot `t'` is unused. -/
def kfork (L : Layout) (p : Proc) (t' : T) : K T Bool := do
  match ← allocproc L t' with
  | none => return false
  | some np =>
    if ← uvmcopy L p.pagetable np.pagetable p.sz then
      modify fun s => s.setProc t' (some { np with sz := p.sz })
      return true
    else
      freeproc L t' np
      return false

/-! ## `sysproc.c` -/

def sbrkEager : ℤ := 1

/-- `sys_sbrk(n, mode)`; returns the old size, or -1. -/
def sysSbrk (L : Layout) (t : T) (p : Proc) (n mode : ℤ) : K T ℕ := do
  if mode = sbrkEager ∨ n < 0 then
    if ← growproc L t p n then return p.sz else return u64 (-1)
  else if u64 (p.sz + n) < p.sz then return u64 (-1)
  else
    modify fun s => s.setProc t (some { p with sz := u64 (p.sz + n) })
    return p.sz

/-! ## `exec.c` -/

/-- A program header as it was read, with the pages of file contents that `readi` returns for its
segment, or `none` where `readi` fails. -/
structure Ph where
  load : Bool
  flags : ℕ
  vaddr : ℕ
  filesz : ℕ
  memsz : ℕ
  file : ℕ → Option (List UInt8)

/-- What `kexec` reads of a file: whether it starts with an ELF header, and the program headers, with
`none` where `readi` fails. -/
structure Image where
  elf : Bool
  phs : List (Option Ph)

def flags2perm (flags : ℕ) : Perm := { x := flags % 2 = 1, w := flags / 2 % 2 = 1 }

/-- The loop of `loadseg`, for `n` more pages. -/
def loadsegLoop (pagetable va : ℕ) (ph : Ph) : ℕ → ℕ → K T Bool
  | 0, _ => return true
  | n + 1, i => do
    let pa ← walkaddr pagetable (u64 (va + i))
    if pa = 0 then kpanic "loadseg: address should exist"
    else
      match ph.file (i / pgsize) with
      | none => return false
      | some l =>
        modify fun s => s.setMem pa (putBytes (s.mem pa) 0 (l.take pgsize))
        loadsegLoop pagetable va ph n (i + pgsize)

/-- Returns whether the whole segment was read; its size is passed as a `uint`. -/
def loadseg (pagetable va : ℕ) (ph : Ph) : K T Bool :=
  loadsegLoop pagetable va ph ((ph.filesz % 2 ^ 32 + pgsize - 1) / pgsize) 0

/-- The loop of `kexec` over the program headers; returns whether it succeeded, and `sz`. -/
def execLoad (L : Layout) (pagetable : ℕ) : List (Option Ph) → ℕ → K T (Bool × ℕ)
  | [], sz => return (true, sz)
  | none :: _, sz => return (false, sz)
  | some ph :: phs, sz => do
    if ph.load = false then execLoad L pagetable phs sz
    else if ph.memsz < ph.filesz then return (false, sz)
    else if u64 (ph.vaddr + ph.memsz) < ph.vaddr then return (false, sz)
    else if ph.vaddr % pgsize ≠ 0 then return (false, sz)
    else
      let sz1 ← uvmalloc L pagetable sz (u64 (ph.vaddr + ph.memsz)) (flags2perm ph.flags)
      if sz1 = 0 then return (false, sz)
      else if ← loadseg pagetable ph.vaddr ph then execLoad L pagetable phs sz1
      else return (false, sz1)

/-- The loop of `kexec` that copies the argument strings; returns `sp` and the addresses in
`ustack`, or `none` on an error. -/
def execArgs (L : Layout) (p : Proc) (pagetable stackbase : ℕ) : List (List UInt8) → ℕ → List ℕ →
    K T (Option (ℕ × List ℕ))
  | [], sp, ustack => return some (sp, ustack)
  | arg :: argv, sp, ustack => do
    if ustack.length ≥ maxArg then return none
    else
      let sp := u64 ((sp : ℤ) - (arg.length + 1))
      let sp := sp - sp % 16
      if sp < stackbase then return none
      else if ← copyout L p pagetable sp (arg ++ [0]) then
        execArgs L p pagetable stackbase argv sp (ustack ++ [sp])
      else return none

/-- The bytes of an array of `uint64`. -/
def uint64Bytes (l : List ℕ) : List UInt8 :=
  l.flatMap fun x => (List.range 8).map fun i => UInt8.ofNat (x / 2 ^ (8 * i))

/-- What `kexec` does between loading the program and committing: make the stack and copy the
arguments to it. Returns the size and `sp`; on an error the table is freed. -/
def execStack (L : Layout) (p : Proc) (pagetable sz : ℕ) (argv : List (List UInt8)) :
    K T (Option (ℕ × ℕ)) := do
  let sz := pgroundup sz
  let sz1 ← uvmalloc L pagetable sz (u64 (sz + (userStack + 1) * pgsize)) { w := true }
  if sz1 = 0 then
    procFreepagetable L pagetable sz
    return none
  else
    -- the first page is the stack guard
    uvmclear pagetable (sz1 - (userStack + 1) * pgsize)
    let stackbase := sz1 - userStack * pgsize
    match ← execArgs L p pagetable stackbase argv sz1 [] with
    | none =>
      procFreepagetable L pagetable sz1
      return none
    | some (sp, ustack) =>
      let sp := u64 ((sp : ℤ) - (ustack.length + 1) * 8)
      let sp := sp - sp % 16
      if sp < stackbase then
        procFreepagetable L pagetable sz1
        return none
      else if ← copyout L p pagetable sp (uint64Bytes (ustack ++ [0])) then
        return some (sz1, sp)
      else
        procFreepagetable L pagetable sz1
        return none

def kexec (L : Layout) (t : T) (p : Proc) (img : Image) (argv : List (List UInt8)) : K T Bool := do
  if img.elf = false then return false
  else
    match ← procPagetable L p.trapframe with
    | none => return false
    | some pagetable =>
      let (ok, sz) ← execLoad L pagetable img.phs 0
      if ok = false then
        procFreepagetable L pagetable sz
        return false
      else
        let sz := pgroundup sz
        let sz1 ← uvmalloc L pagetable sz (u64 (sz + (userStack + 1) * pgsize)) { w := true }
        if sz1 = 0 then
          procFreepagetable L pagetable sz
          return false
        else
          uvmclear pagetable (sz1 - (userStack + 1) * pgsize)
          let stackbase := sz1 - userStack * pgsize
          match ← execArgs L p pagetable stackbase argv sz1 [] with
          | none =>
            procFreepagetable L pagetable sz1
            return false
          | some (sp, ustack) =>
            let sp := u64 ((sp : ℤ) - (ustack.length + 1) * 8)
            let sp := sp - sp % 16
            if sp < stackbase then
              procFreepagetable L pagetable sz1
              return false
            else if ← copyout L p pagetable sp (uint64Bytes (ustack ++ [0])) then
              -- commit to the user image
              modify fun s => s.setProc t (some { p with pagetable := pagetable, sz := sz1 })
              procFreepagetable L p.pagetable p.sz
              return true
            else
              procFreepagetable L pagetable sz1
              return false

/-! ## The system -/

/-- The steps of the processes. -/
inductive Call (T : Type) where
  | userinit (t : T)
  | sbrk (t : T) (n mode : ℤ)
  | fault (t : T) (va : ℕ)
  | copyin (t : T) (va len : ℕ)
  | copyout (t : T) (va : ℕ) (src : List UInt8)
  | copyinstr (t : T) (va max : ℕ)
  | fork (t t' : T)
  | exec (t : T) (img : Image) (argv : List (List UInt8))
  /-- `kwait` of the parent frees the process. -/
  | free (t : T)

/-- Run `f` for the process in slot `t`. -/
def withProc {α : Type} (t : T) (f : Proc → K T α) : K T Unit := do
  let s ← get
  match s.proc t with
  | none => return ()
  | some p =>
    let _ ← f p
    return ()

def step (L : Layout) : Call T → K T Unit
  | .userinit t => do
    let s ← get
    match s.proc t with
    | none =>
      let _ ← allocproc L t
      return ()
    | some _ => return ()
  | .sbrk t n mode => withProc t fun p => sysSbrk L t p n mode
  | .fault t va => withProc t fun p => vmfault L p p.pagetable va
  | .copyin t va len => withProc t fun p => copyin L p p.pagetable va len
  | .copyout t va src => withProc t fun p => copyout L p p.pagetable va src
  | .copyinstr t va max => withProc t fun p => copyinstr p.pagetable va max
  | .fork t t' => do
    let s ← get
    match s.proc t' with
    | none => withProc t fun p => kfork L p t'
    | some _ => return ()
  | .exec t img argv => withProc t fun p => kexec L t p img argv
  | .free t => withProc t fun p => freeproc L t p

/-- What the types of the source and `sys_exec` say about the arguments of a step. -/
def ArgsOk : Call T → Prop
  | .sbrk _ n _ => -2 ^ 31 ≤ n ∧ n < 2 ^ 31
  | .fault _ va => va < 2 ^ 64
  | .copyin _ va len => va < 2 ^ 64 ∧ len < 2 ^ 64
  | .copyout _ va src => va < 2 ^ 64 ∧ src.length < 2 ^ 64
  | .copyinstr _ va max => va < 2 ^ 64 ∧ max < 2 ^ 64
  | .exec _ img argv => (∀ ph ∈ img.phs.filterMap id, ph.vaddr < 2 ^ 64 ∧ ph.memsz < 2 ^ 64) ∧
      ∀ arg ∈ argv, arg.length < pgsize
  | _ => True

/-- A growing `sbrk` stays below the trapframe. -/
def Below : Call T → St T → Prop
  | .sbrk t n _, s => 0 ≤ n → ∀ p ∈ s.proc t, (p.sz : ℤ) + n ≤ trapframeVa
  | _, _ => True

/-- The states of the runs that start in `s₀` and whose steps meet `cond`. -/
inductive Reach (L : Layout) (cond : Call T → St T → Prop) (s₀ : St T) : St T → Prop
  | refl : Reach L cond s₀ s₀
  | step {s s' c} : Reach L cond s₀ s → ArgsOk c → cond c s → step L c s = .ok ((), s') →
      Reach L cond s₀ s'

/-- The state after `kinit`, with the pages `l` free and no process. -/
def kinit (l : List ℕ) : St T where
  free := l
  mem := fun _ _ => 1
  tbl := fun _ => .empty
  proc := fun _ => none

end Xv6.Vm
