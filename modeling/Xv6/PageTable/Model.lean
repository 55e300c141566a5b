import Xv6.Vm.Model

/-!
# Page tables in memory

`walk`, `mappages`, `uvmcreate` and `uvmunmap` of `vm.c` on the words of physical memory. A page-table
page holds 512 words of 64 bits; a page-table entry is the number of a physical page and ten flags.
-/

namespace Xv6.PageTable

open Vm (Layout PageOk maxva pgsize u64)

/-! ## `riscv.h` -/

def pgshift : ℕ := 12

def pteV : ℕ := 1 <<< 0

/-- The page-table entry without flags for a physical address. -/
def pa2pte (pa : ℕ) : ℕ := (((pa % 2 ^ 64) >>> 12) <<< 10) % 2 ^ 64

def pte2pa (pte : ℕ) : ℕ := ((pte >>> 10) <<< 12) % 2 ^ 64

def pteFlags (pte : ℕ) : ℕ := pte &&& 0x3FF

def pxmask : ℕ := 0x1FF

def pxshift (level : ℕ) : ℕ := pgshift + 9 * level

/-- The index into the page at `level` for a virtual address. -/
def px (level va : ℕ) : ℕ := (va >>> pxshift level) &&& pxmask

/-! ## Memory -/

/-- Physical memory: the free list, and the words of each page, of which only the first 512 matter. -/
structure St where
  free : List ℕ
  word : ℕ → ℕ → ℕ

namespace St

variable (s : St)

def setWord (pa i w : ℕ) : St :=
  { s with word := Function.update s.word pa (Function.update (s.word pa) i w) }

/-- Every byte of the page becomes `c`. -/
def memset (pa c : ℕ) : St :=
  { s with word := Function.update s.word pa fun _ => c * 0x0101010101010101 }

end St

abbrev K (α : Type) := Kern St α

def kalloc : K (Option ℕ) := do
  let s ← get
  match s.free with
  | [] => return none
  | r :: l =>
    modify fun s => { s.memset r 5 with free := l }
    return some r

def kfree (L : Layout) (pa : ℕ) : K Unit := do
  if PageOk L pa then modify fun s => { s.memset pa 1 with free := pa :: s.free }
  else kpanic "kfree"

/-! ## `vm.c` -/

/-- The loop of `walk` from `level` down to 1; returns the page at level 0. -/
def walkLoop (va : ℕ) (alloc : Bool) : ℕ → ℕ → K (Option ℕ)
  | 0, pagetable => return some pagetable
  | level + 1, pagetable => do
    let s ← get
    let pte := s.word pagetable (px (level + 1) va)
    if pte &&& pteV ≠ 0 then walkLoop va alloc level (pte2pa pte)
    else if alloc = false then return none
    else
      match ← kalloc with
      | none => return none
      | some new =>
        modify fun s => s.memset new 0
        modify fun s => s.setWord pagetable (px (level + 1) va) (pa2pte new ||| pteV)
        walkLoop va alloc level new

/-- Where the leaf entry for `va` is: its page and its index. -/
def walk (pagetable va : ℕ) (alloc : Bool) : K (Option (ℕ × ℕ)) := do
  if va ≥ maxva then kpanic "walk"
  else
    match ← walkLoop va alloc 2 pagetable with
    | none => return none
    | some pagetable => return some (pagetable, px 0 va)

/-- The loop of `mappages`, for `n` more pages. `perm` is the value of the `int` as a `uint64`. -/
def mappagesLoop (pagetable perm : ℕ) : ℕ → ℕ → ℕ → K Bool
  | 0, _, _ => return true
  | n + 1, a, pa => do
    match ← walk pagetable a true with
    | none => return false
    | some (page, i) =>
      let s ← get
      if s.word page i &&& pteV ≠ 0 then kpanic "mappages: remap"
      else
        modify fun s => s.setWord page i (pa2pte pa ||| perm ||| pteV)
        mappagesLoop pagetable perm n (u64 (a + pgsize)) (u64 (pa + pgsize))

/-- Returns whether every needed page-table page could be allocated. -/
def mappages (pagetable va size pa perm : ℕ) : K Bool := do
  if va % pgsize ≠ 0 then kpanic "mappages: va not aligned"
  else if size % pgsize ≠ 0 then kpanic "mappages: size not aligned"
  else if size = 0 then kpanic "mappages: size"
  else mappagesLoop pagetable perm (size / pgsize) va pa

/-- Returns `none` if memory is exhausted. -/
def uvmcreate : K (Option ℕ) := do
  match ← kalloc with
  | none => return none
  | some pagetable =>
    modify fun s => s.memset pagetable 0
    return some pagetable

/-- The loop of `uvmunmap`, for `n` more pages. -/
def uvmunmapLoop (L : Layout) (pagetable : ℕ) (doFree : Bool) : ℕ → ℕ → K Unit
  | 0, _ => return ()
  | n + 1, a => do
    match ← walk pagetable a false with
    | none => uvmunmapLoop L pagetable doFree n (a + pgsize)
    | some (page, i) =>
      let s ← get
      if s.word page i &&& pteV = 0 then uvmunmapLoop L pagetable doFree n (a + pgsize)
      else
        (if doFree then kfree L (pte2pa (s.word page i)) else pure ())
        modify fun s => s.setWord page i 0
        uvmunmapLoop L pagetable doFree n (a + pgsize)

def uvmunmap (L : Layout) (pagetable va npages : ℕ) (doFree : Bool) : K Unit := do
  if va % pgsize ≠ 0 then kpanic "uvmunmap: not aligned"
  -- the bound `va + npages*PGSIZE` wraps around
  else uvmunmapLoop L pagetable doFree ((u64 (va + npages * pgsize) - va) / pgsize) va

/-! ## The encoding -/

theorem px_eq (level va : ℕ) : px level va = va / 2 ^ (12 + 9 * level) % 512 := by
  unfold px pxshift pgshift pxmask
  rw [Nat.shiftRight_eq_div_pow, show (0x1FF : ℕ) = 2 ^ 9 - 1 by norm_num,
    Nat.and_two_pow_sub_one_eq_mod]

theorem pa2pte_eq {pa : ℕ} (h : pa < 2 ^ 56) : pa2pte pa = pa / 4096 * 1024 := by
  unfold pa2pte
  rw [Nat.shiftRight_eq_div_pow, Nat.shiftLeft_eq]
  omega

theorem pte2pa_eq {w : ℕ} (h : w < 2 ^ 54) : pte2pa w = w / 1024 * 4096 := by
  unfold pte2pa
  rw [Nat.shiftRight_eq_div_pow, Nat.shiftLeft_eq]
  omega

theorem pteFlags_eq (w : ℕ) : pteFlags w = w % 1024 := by
  unfold pteFlags
  rw [show (0x3FF : ℕ) = 2 ^ 10 - 1 by norm_num, Nat.and_two_pow_sub_one_eq_mod]

theorem and_pteV (w : ℕ) : w &&& pteV = w % 2 := Nat.and_one_is_mod w

/-- The flags do not touch the page number. -/
theorem pa2pte_or {pa f : ℕ} (h : pa < 2 ^ 56) (hf : f < 1024) :
    pa2pte pa ||| f = pa / 4096 * 1024 + f := by
  rw [pa2pte_eq h, Nat.mul_comm, show (1024 : ℕ) = 2 ^ 10 by norm_num,
    ← Nat.two_pow_add_eq_or_of_lt (by norm_num; omega)]

/-- For a page below `2 ^ 56`, the encoding loses neither the address nor the flags. -/
theorem pte_encode {pa f : ℕ} (hal : pa % pgsize = 0) (h : pa < 2 ^ 56) (hf : f < 1024) :
    pte2pa (pa2pte pa ||| f) = pa ∧ pteFlags (pa2pte pa ||| f) = f := by
  unfold pgsize at hal
  rw [pa2pte_or h hf, pte2pa_eq (by omega), pteFlags_eq]
  omega

end Xv6.PageTable
