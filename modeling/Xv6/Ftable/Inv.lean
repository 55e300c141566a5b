import Xv6.Ftable.Model
import Xv6.Holdings

/-!
# The invariant of the file table

While calls are in progress the reference counts are not the numbers of descriptors: a call may hold
a reference that is in no descriptor, a descriptor may be filled before its reference is counted,
and the end of a pipe or the inode of a file is released after the file. What a call has in hand is
its ghost value; each count is then a sum over the table and the processes.
-/

namespace Xv6.Ftable

open Function Xv6.Threads Xv6.Files

/-- One end of the pipe in a page. -/
structure PipeEnd where
  page : ℕ
  writable : Bool
  deriving DecidableEq

/-- What a call of a process has in hand. -/
structure Gh where
  busy : Bool := false
  /-- References that are in no descriptor. -/
  hold : List Fid := []
  /-- Descriptors that hold no reference. -/
  debt : List Fid := []
  /-- Files that have no type yet. -/
  fresh : List Fid := []
  /-- Pipe ends that are still to be closed. -/
  ends : List PipeEnd := []
  /-- Pages that are no pipes yet, or no longer. -/
  pages : List ℕ := []
  /-- Inodes that are still to be put. -/
  inodes : List ℕ := []
  /-- The child that is being made, and the first of its descriptors that is still empty. -/
  child : Option (Tid × ℕ) := none
  /-- Descriptors that were read. -/
  saw : List (Fd × Fid) := []
  /-- The number of descriptors that `exit` has closed. -/
  closed : ℕ := 0

/-! ## Counting -/

/-- How many descriptors of process `u` refer to `f`. -/
def own (s : St) (u : Tid) (f : Fid) : ℕ := (held Finset.univ (s.ofile u)).count f

/-- The references to `f` that process `u` accounts for. -/
def net (s : St) (H D : Tid → List Fid) (u : Tid) (f : Fid) : ℕ :=
  own s u f + (H u).count f - (D u).count f

/-- The pipe end that a file is. -/
def ends (x : File) : List PipeEnd := if x.type = .pipe then [⟨x.pipe, x.writable⟩] else []

/-- The inode that a file refers to. -/
def inodes (x : File) : List ℕ := if x.type = .inode ∨ x.type = .device then [x.ip] else []

/-- How often `a` occurs in the lists `F`. -/
def total {ι α : Type} [Fintype ι] [DecidableEq α] (F : ι → List α) (a : α) : ℕ :=
  ∑ i, (F i).count a

theorem sum_change {ι : Type} [Fintype ι] [DecidableEq ι] {F F' : ι → ℕ} (i : ι)
    (h : ∀ k ≠ i, F' k = F k) : ∑ k, F' k + F i = ∑ k, F k + F' i := by
  have hF : F' = update F i (F' i) := by
    funext k
    by_cases hk : k = i
    · rw [hk, update_self]
    · rw [update_of_ne hk, h k hk]
  conv_lhs => rw [hF]
  exact sum_update_add (Finset.mem_univ i) F (F' i)

theorem total_change {ι α : Type} [Fintype ι] [DecidableEq ι] [DecidableEq α] {F F' : ι → List α}
    (i : ι) (h : ∀ k ≠ i, F' k = F k) (a : α) :
    total F' a + (F i).count a = total F a + (F' i).count a := by
  have hc : ∀ k ≠ i, (F' k).count a = (F k).count a := fun k hk => by rw [h k hk]
  exact sum_change i hc

theorem total_update {ι α : Type} [Fintype ι] [DecidableEq ι] [DecidableEq α] {F : ι → List α}
    (i : ι) (x : List α) (a : α) :
    total (update F i x) a + (F i).count a = total F a + x.count a := by
  have hne : ∀ k ≠ i, update F i x k = F k := fun k hk => update_of_ne hk ..
  have := total_change i hne a
  rwa [update_self] at this

theorem count_le_total {ι α : Type} [Fintype ι] [DecidableEq α] {F : ι → List α} (i : ι) (a : α) :
    (F i).count a ≤ total F a :=
  Finset.single_le_sum (f := fun k => (F k).count a) (fun _ _ => Nat.zero_le _) (Finset.mem_univ i)

/-! ## The parts -/

/-- The reference counts. -/
structure Refs (s : St) (H D : Tid → List Fid) : Prop where
  ref : ∀ f, (s.file f).ref = ∑ u, net s H D u f
  debt : ∀ u f, (D u).count f ≤ own s u f
  zero : ∀ f, (s.file f).ref = 0 → (s.file f).type = .none

/-- A file without a type is used by the call that makes it only. -/
structure Fresh (s : St) (H D N : Tid → List Fid) : Prop where
  type : ∀ t, ∀ f ∈ N t, (s.file f).type = .none
  ref : ∀ t, ∀ f ∈ N t, (s.file f).ref = 1
  mine : ∀ t, ∀ f ∈ N t, ∀ u ≠ t, net s H D u f = 0

/-- How many files and calls stand for a pipe end. -/
def endCount (s : St) (E : Tid → List PipeEnd) (e : PipeEnd) : ℕ :=
  total (fun f => ends (s.file f)) e + total E e

/-- A page is no pipe; or it is in the hands of a call; or it is a pipe, an end of which is open
exactly if one file or call stands for it, and one end is open. `n` calls have the page in hand, and
`c` counts the files and calls for its ends. -/
def PageOk (c : Bool → ℕ) (n : ℕ) (live : Bool) (x : Pipe) (kallocs kfrees : ℕ) : Prop :=
  (live = false ∧ n = 0 ∧ (∀ w, c w = 0) ∧ kallocs = kfrees) ∨
  (live = true ∧ n = 1 ∧ (∀ w, c w = 0) ∧ kallocs = kfrees + 1) ∨
  (live = true ∧ n = 0 ∧ (∀ w, c w = if x.isOpen w then 1 else 0) ∧ (∃ w, x.isOpen w = true) ∧
    kallocs = kfrees + 1)

/-- The pages and the open ends of the pipes. -/
def Ends (s : St) (E : Tid → List PipeEnd) (A : Tid → List ℕ) : Prop :=
  ∀ pi, PageOk (fun w => endCount s E ⟨pi, w⟩) (total A pi) (s.live pi) (s.pipe pi) (s.kallocs pi)
    (s.kfrees pi)

/-- The inode references of files. -/
def Inodes (s : St) (I : Tid → List ℕ) : Prop :=
  ∀ ip, s.opened ip = s.puts ip + total (fun f => inodes (s.file f)) ip + total I ip

/-- The processes and their descriptors. -/
structure Procs (s : St) (C : Tid → Option (Tid × ℕ)) (W : Tid → List (Fd × Fid)) (K : Tid → ℕ) :
    Prop where
  empty : ∀ u, s.proc u = .unused ∨ s.proc u = .zombie → ∀ fd, s.ofile u fd = none
  embryo : ∀ t u k, C t = some (u, k) → s.proc u = .embryo
  rest : ∀ t u k, C t = some (u, k) → ∀ fd : Fd, k ≤ fd.val → s.ofile u fd = none
  once : ∀ t t' u k k', C t = some (u, k) → C t' = some (u, k') → t' = t
  saw : ∀ t, ∀ x ∈ W t, s.ofile t x.1 = some x.2
  closed : ∀ t, ∀ fd : Fd, fd.val < K t → s.ofile t fd = none

structure Inv (s : St) (G : Tid → Gh) : Prop where
  refs : Refs s (fun u => (G u).hold) fun u => (G u).debt
  fresh : Fresh s (fun u => (G u).hold) (fun u => (G u).debt) fun u => (G u).fresh
  ends : Ends s (fun u => (G u).ends) fun u => (G u).pages
  inodes : Inodes s fun u => (G u).inodes
  procs : Procs s (fun u => (G u).child) (fun u => (G u).saw) fun u => (G u).closed
  /-- A process that is not running has no call in progress. -/
  live : ∀ u, s.proc u ≠ .live → G u = {}

abbrev FtOk {α : Type} (t : Tid) (p : P α) (g : Gh) (Q : α → Gh → Prop) : Prop :=
  Ok sys Inv (fun _ => False) t p g Q

end Xv6.Ftable
