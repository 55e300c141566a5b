import Xv6.Files.Basic
import Xv6.Threads.Prog

/-!
# The file table

`file.c`, `pipealloc`, `pipeclose`, and the calls `open`, `dup`, `close`, `pipe`, `fork`, `exit` and
`wait` as far as they concern descriptors. Processes run their calls interleaved; a critical section
of `ftable.lock` or of a pipe's lock is one action, and so is each access of a process to its own
descriptors. A call's arguments say what the parts of the kernel that are left out return: the
inode that `open` finds, the page of `kalloc`, whether there is memory for a child and whether
`copyout` succeeds.

The last four fields of the state count the pages and inode references of files, for the statement
of the theorem; no action reads them.
-/

namespace Xv6.Ftable

open Function (update)
open Xv6.Threads Xv6.Files

inductive PState where
  | unused
  /-- `USED`: a child that `fork` is making. -/
  | embryo
  | live
  | zombie
  deriving DecidableEq

structure St where
  file : Fid → File
  ofile : Tid → Fd → Option Fid
  proc : Tid → PState
  initproc : Tid
  /-- What the page of a pipe contains. -/
  pipe : ℕ → Pipe
  /-- The pages that are pipes. -/
  live : ℕ → Bool
  /-- How often `pipealloc` got a page from `kalloc`, and how often `pipeclose` freed it. -/
  kallocs : ℕ → ℕ
  kfrees : ℕ → ℕ
  /-- How many references to an inode `open` gave to a file, and how many `fileclose` put. -/
  opened : ℕ → ℕ
  puts : ℕ → ℕ

inductive Act where
  | argfd (fd : Fd)
  | filealloc
  | filedup (f : Fid)
  /-- The critical section of `fileclose`. -/
  | dropRef (f : Fid)
  /-- The critical section of `pipeclose`. -/
  | closeEnd (pi : ℕ) (writable : Bool)
  | kfree (pi : ℕ)
  | kalloc (page : Option ℕ)
  | makePipe (f0 f1 : Fid) (pi : ℕ)
  | iput (ip : ℕ)
  | fdalloc (f : Fid)
  | clearFd (fd : Fd)
  | setFile (f : Fid) (device : Bool) (ip : ℕ) (readable writable : Bool)
  | allocproc (mem : Bool)
  | setChild (np : Tid) (fd : Fd) (f : Fid)
  | start (np : Tid)
  | exit
  | reap (pp : Tid)

abbrev Ret : Act → Type
  | .argfd _ => Option Fid
  | .filealloc => Option Fid
  | .dropRef _ => Option File
  | .closeEnd .. => Bool
  | .kalloc _ => Option ℕ
  | .fdalloc _ => Option Fd
  | .allocproc _ => Option Tid
  | _ => Unit

namespace St

variable (s : St)

def setFile (f : Fid) (x : File) : St := { s with file := update s.file f x }

def setOfile (t : Tid) (fd : Fd) (x : Option Fid) : St :=
  { s with ofile := update s.ofile t (update (s.ofile t) fd x) }

def setPipe (pi : ℕ) (x : Pipe) : St := { s with pipe := update s.pipe pi x }

def setProc (t : Tid) (x : PState) : St := { s with proc := update s.proc t x }

def freeFile : Option Fid := (List.finRange nfile).find? fun f => (s.file f).ref = 0

def freeFd (t : Tid) : Option Fd := (List.finRange nofile).find? fun fd => s.ofile t fd = none

def freeProc : Option Tid := (List.finRange nproc).find? fun t => s.proc t = .unused

end St

def exec : (a : Act) → Tid → St → Outcome St (Ret a)
  | .argfd fd, t, s => .done (s.ofile t fd) s
  | .filealloc, _, s =>
    match s.freeFile with
    | none => .done none s
    | some f => .done (some f) (s.setFile f { s.file f with ref := 1 })
  | .filedup f, _, s =>
    if (s.file f).ref < 1 then .panic "filedup"
    else .done () (s.setFile f { s.file f with ref := (s.file f).ref + 1 })
  | .dropRef f, _, s =>
    if (s.file f).ref < 1 then .panic "fileclose"
    else if (s.file f).ref - 1 > 0 then
      .done none (s.setFile f { s.file f with ref := (s.file f).ref - 1 })
    else .done (some (s.file f)) (s.setFile f { s.file f with ref := 0, type := .none })
  | .closeEnd pi writable, _, s =>
    let x := (s.pipe pi).close writable
    .done (!x.readopen && !x.writeopen) (s.setPipe pi x)
  | .kfree pi, _, s => .done () { s with
      live := update s.live pi false
      kfrees := update s.kfrees pi (s.kfrees pi + 1) }
  | .kalloc none, _, s => .done none s
  -- `kalloc` never returns a page that is in use
  | .kalloc (some pi), _, s =>
    if s.live pi then .done none s
    else .done (some pi) { s with
      live := update s.live pi true
      kallocs := update s.kallocs pi (s.kallocs pi + 1) }
  | .makePipe f0 f1 pi, _, s =>
    let s := s.setPipe pi ⟨true, true⟩
    let s := s.setFile f0
      { s.file f0 with type := .pipe, readable := true, writable := false, pipe := pi }
    .done () (s.setFile f1
      { s.file f1 with type := .pipe, readable := false, writable := true, pipe := pi })
  | .iput ip, _, s => .done () { s with puts := update s.puts ip (s.puts ip + 1) }
  | .fdalloc f, t, s =>
    match s.freeFd t with
    | none => .done none s
    | some fd => .done (some fd) (s.setOfile t fd (some f))
  | .clearFd fd, t, s => .done () (s.setOfile t fd none)
  | .setFile f device ip readable writable, _, s =>
    .done () { s.setFile f { s.file f with
        type := if device then .device else .inode
        ip := ip
        readable := readable
        writable := writable } with
      opened := update s.opened ip (s.opened ip + 1) }
  | .allocproc mem, _, s =>
    match s.freeProc with
    | none => .done none s
    | some np => if mem then .done (some np) (s.setProc np .embryo) else .done none s
  | .setChild np fd f, _, s => .done () (s.setOfile np fd (some f))
  | .start np, _, s => .done () (s.setProc np .live)
  | .exit, t, s => .done () (s.setProc t .zombie)
  | .reap pp, _, s => .done () (if s.proc pp = .zombie then s.setProc pp .unused else s)

abbrev P (α : Type) := Prog Act Ret α

abbrev perform (a : Act) : P (Ret a) := Prog.perform a

/-! ## The functions of the source -/

def argfd (fd : Fd) : P (Option Fid) := perform (.argfd fd)

def filealloc : P (Option Fid) := perform .filealloc

def filedup (f : Fid) : P Unit := perform (.filedup f)

def kalloc (page : Option ℕ) : P (Option ℕ) := perform (.kalloc page)

def kfree (pi : ℕ) : P Unit := perform (.kfree pi)

def iput (ip : ℕ) : P Unit := perform (.iput ip)

def fdalloc (f : Fid) : P (Option Fd) := perform (.fdalloc f)

def clearFd (fd : Fd) : P Unit := perform (.clearFd fd)

def pipeclose (pi : ℕ) (writable : Bool) : P Unit := do
  let last ← perform (.closeEnd pi writable)
  if last then kfree pi else return ()

/-- What `fileclose` does after its critical section. -/
def closed : Option File → P Unit
  | none => return ()
  | some ff =>
    match ff.type with
    | .none => return ()
    | .pipe => pipeclose ff.pipe ff.writable
    | .inode | .device => iput ff.ip

def fileclose (f : Fid) : P Unit := do
  let ff ← perform (.dropRef f)
  closed ff

/-- Returns the files for reading and for writing. -/
def pipealloc (page : Option ℕ) : P (Option (Fid × Fid)) := do
  match ← filealloc with
  | none => return none
  | some f0 =>
    match ← filealloc with
    | none =>
      fileclose f0
      return none
    | some f1 =>
      match ← kalloc page with
      | none =>
        fileclose f0
        fileclose f1
        return none
      | some pi =>
        perform (.makePipe f0 f1 pi)
        return some (f0, f1)

def sysDup (fd : Fd) : P Unit := do
  match ← argfd fd with
  | none => return ()
  | some f =>
    match ← fdalloc f with
    | none => return ()
    | some _ => filedup f

def sysClose (fd : Fd) : P Unit := do
  match ← argfd fd with
  | none => return ()
  | some f =>
    clearFd fd
    fileclose f

/-- `found` is the inode that `create` or `namei` returned and whether it is a device, or `none` if
`open` fails before it asks for a file. -/
def sysOpen (found : Option (ℕ × Bool)) (readable writable : Bool) : P Unit :=
  match found with
  | none => return ()
  | some (ip, device) => do
    match ← filealloc with
    | none => return ()
    | some f =>
      match ← fdalloc f with
      | none => fileclose f
      | some _ => perform (.setFile f device ip readable writable)

/-- `copy` says whether both `copyout` calls succeed. -/
def sysPipe (page : Option ℕ) (copy : Bool) : P Unit := do
  match ← pipealloc page with
  | none => return ()
  | some (rf, wf) =>
    match ← fdalloc rf with
    | none =>
      fileclose rf
      fileclose wf
    | some fd0 =>
      match ← fdalloc wf with
      | none =>
        clearFd fd0
        fileclose rf
        fileclose wf
      | some fd1 =>
        if copy then return ()
        else
          clearFd fd0
          clearFd fd1
          fileclose rf
          fileclose wf

def dupFiles (np : Tid) : List Fd → P Unit
  | [] => return ()
  | fd :: l => do
    match ← argfd fd with
    | none => dupFiles np l
    | some f =>
      filedup f
      perform (.setChild np fd f)
      dupFiles np l

/-- `mem` says whether `allocproc` and `uvmcopy` find the memory for the child. -/
def kfork (mem : Bool) : P Unit := do
  match ← perform (.allocproc mem) with
  | none => return ()
  | some np =>
    dupFiles np (List.finRange nofile)
    perform (.start np)

def closeFiles : List Fd → P Unit
  | [] => return ()
  | fd :: l => do
    match ← argfd fd with
    | none => closeFiles l
    | some f =>
      fileclose f
      clearFd fd
      closeFiles l

def kexit : P Unit := do
  closeFiles (List.finRange nofile)
  perform .exit

/-! ## The system -/

inductive Call where
  | open (found : Option (ℕ × Bool)) (readable writable : Bool)
  | dup (fd : Fd)
  | close (fd : Fd)
  | pipe (page : Option ℕ) (copy : Bool)
  | fork (mem : Bool)
  | exit
  | wait (pp : Tid)

def code : Call → P Unit
  | .open found readable writable => sysOpen found readable writable
  | .dup fd => sysDup fd
  | .close fd => sysClose fd
  | .pipe page copy => sysPipe page copy
  | .fork mem => kfork mem
  | .exit => kexit
  | .wait pp => perform (.reap pp)

/-- A process makes calls once `fork` has made it and until it exits; `init` does not exit. -/
def sys : Sys Tid Act Ret Call St where
  exec := exec
  may := fun c t s => s.proc t = .live ∧ (c = .exit → t ≠ s.initproc)
  code := fun c _ => code c
  cond := fun _ _ _ => True

/-- One process, with no files. -/
def boot (t : Tid) : St where
  file := fun _ => {}
  ofile := fun _ _ => none
  proc := update (fun _ => .unused) t .live
  initproc := t
  pipe := fun _ => ⟨false, false⟩
  live := fun _ => false
  kallocs := fun _ => 0
  kfrees := fun _ => 0
  opened := fun _ => 0
  puts := fun _ => 0

end Xv6.Ftable
