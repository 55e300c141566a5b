import Mathlib

/-!
# Files, descriptors and pipe ends

The data types of `file.h` and `pipe.c` that the models of the file table share.
-/

namespace Xv6.Files

def nproc : ℕ := 64

def nofile : ℕ := 16

def nfile : ℕ := 100

abbrev Tid := Fin nproc

abbrev Fd := Fin nofile

/-- An entry of `ftable`. -/
abbrev Fid := Fin nfile

inductive FdType where
  | none | pipe | inode | device
  deriving DecidableEq

/-- `struct file`; the pipe is known by the page that holds it. -/
structure File where
  type : FdType := .none
  ref : ℕ := 0
  readable : Bool := false
  writable : Bool := false
  pipe : ℕ := 0
  ip : ℕ := 0

/-- Which ends of a pipe are open. -/
structure Pipe where
  readopen : Bool
  writeopen : Bool

def Pipe.close (x : Pipe) (writable : Bool) : Pipe :=
  if writable then { x with writeopen := false } else { x with readopen := false }

def Pipe.isOpen (x : Pipe) (writable : Bool) : Bool := if writable then x.writeopen else x.readopen

end Xv6.Files
