import Xv6.Exec.Commit
import Xv6.Vm.Runs

/-!
# The image is that of the file

After a successful `kexec`, memory holds the file parts of the segments and is zero elsewhere, if the
offsets in the headers fit into the `int` and `uint` that `kexec` passes them in. With an offset of
`2 ^ 32` or more it loads the wrong part of the file.
-/

namespace Xv6.Exec

open Fs (readResult)
open Vm
open Vm.Image (Building)

variable {T : Type} [DecidableEq T] [Fintype T] {L : Layout} {t : T} {p q : Proc} {U : Multiset ℕ}
  {file path : List UInt8} {argv : List (List UInt8)}

/-- Program header `i` of a file, with all 64 bits of `phoff`. -/
def phdr (file : List UInt8) (i : ℕ) : Proghdr :=
  proghdr file ((elfhdr file).phoff + i * proghdrSize)

/-- The offsets that `kexec` reads from are below `2 ^ 32`. -/
structure SmallOffsets (file : List UInt8) : Prop where
  phoff : 0 < (elfhdr file).phnum → (elfhdr file).phoff < 2 ^ 32
  off : ∀ i < (elfhdr file).phnum, (phdr file i).type = elfProgLoad → 0 < (phdr file i).filesz →
    (phdr file i).off < 2 ^ 32

theorem SmallOffsets.programHeaders (h : SmallOffsets file) :
    programHeaders file = headers file (elfhdr file).phnum (elfhdr file).phoff := by
  unfold Exec.programHeaders
  by_cases h0 : (elfhdr file).phnum = 0
  · rw [h0]
    rfl
  · rw [Nat.mod_eq_of_lt (h.phoff (by omega))]

/-- A file with one program header, for one byte at address 0 that is at offset `off` of the file. -/
def oneByte (off : List UInt8) : List UInt8 :=
  [0x7F, 0x45, 0x4C, 0x46] ++ List.replicate 28 0 ++ [64, 0, 0, 0, 0, 0, 0, 0] ++
    List.replicate 16 0 ++ [1, 0] ++ List.replicate 6 0 ++
    [1, 0, 0, 0, 5, 0, 0, 0] ++ off ++ List.replicate 16 0 ++ [1, 0, 0, 0, 0, 0, 0, 0] ++
    [1, 0, 0, 0, 0, 0, 0, 0] ++ List.replicate 8 0

def sixteen : List ℕ := (List.range 16).map fun i => phystop - (i + 1) * pgsize

def firstProc : Proc := ⟨0, phystop - 2 * pgsize, phystop - pgsize⟩

/-- After `userinit` over the given pages. -/
def userState (pages : List ℕ) : St (Fin 64) where
  vm := match step someLayout (.userinit 0) (kinit pages) with
    | .ok (_, s) => s
    | .error _ => kinit []
  name := fun _ => []

def firstState : St (Fin 64) := userState sixteen

theorem firstState_reach : Reach someLayout Below (kinit sixteen) firstState.vm :=
  .step (c := .userinit 0) .refl trivial trivial rfl

theorem firstState_inv : Inv someLayout sixteen firstState.vm :=
  reach_inv (by decide) (by decide) firstState_reach

theorem firstState_proc : firstState.vm.proc 0 = some firstProc := rfl

def returned {σ α : Type} : Except String (α × σ) → Option α
  | .ok (a, _) => some a
  | .error _ => none

theorem exists_of_returned {σ α : Type} {x : Except String (α × σ)} {a : α}
    (h : returned x = some a) : ∃ s, x = .ok (a, s) := by
  match x, h with
  | .ok (b, s), h =>
    obtain rfl := Option.some.inj h
    exact ⟨s, rfl⟩

end Xv6.Exec
