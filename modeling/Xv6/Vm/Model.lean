import Xv6.Kern

/-!
# User address spaces

`kalloc.c`, the user part of `vm.c`, and the parts of `proc.c`, `sysproc.c` and `exec.c` that build,
grow, copy and free address spaces. Addresses and sizes are `uint64` values.

A page table is known by the address of its root page. Its three levels are kept flat: `mid i` is
the page that entry `i` of the root points to, `low j` the page that entry `j % 512` of page
`mid (j / 512)` points to, and `pte v` the entry for the page at `v * pgsize`. A cleared or unset
entry is `none`.
-/

namespace Xv6.Vm

open Function (update)

def pgsize : ℕ := 4096

def maxva : ℕ := 2 ^ 38

/-- The page of `trampoline.S`, the highest one. -/
def trampolineVa : ℕ := maxva - pgsize

/-- The page of `p->trapframe`, just below. -/
def trapframeVa : ℕ := trampolineVa - pgsize

def kernBase : ℕ := 0x80000000

def phystop : ℕ := kernBase + 128 * 1024 * 1024

def maxArg : ℕ := 32

def userStack : ℕ := 1

/-- The value of a `uint64` expression. -/
def u64 (x : ℤ) : ℕ := (x % 2 ^ 64).toNat

def pgroundup (x : ℕ) : ℕ := u64 (x + pgsize - 1) / pgsize * pgsize

def pgrounddown (x : ℕ) : ℕ := x / pgsize * pgsize

/-- An `int` that is passed as a `uint64`. -/
def intArg (x : ℕ) : ℕ := u64 (Int.bmod x (2 ^ 32))

/-- The contents of a physical page; only the offsets below `pgsize` matter. -/
abbrev Page := ℕ → UInt8

/-- Access bits of a page-table entry. -/
structure Perm where
  r : Bool := false
  w : Bool := false
  x : Bool := false
  u : Bool := false
  deriving DecidableEq

/-- A valid leaf entry. -/
structure Pte where
  perm : Perm
  pa : ℕ
  deriving DecidableEq

/-- The entries of a page table below its root page. -/
structure Tbl where
  mid : ℕ → Option ℕ
  low : ℕ → Option ℕ
  pte : ℕ → Option Pte

/-- A page table whose root page is cleared. -/
def Tbl.empty : Tbl := ⟨fun _ => none, fun _ => none, fun _ => none⟩

/-- What the address space of a process needs of `struct proc`. -/
structure Proc where
  sz : ℕ
  pagetable : ℕ
  trapframe : ℕ

/-- Where the linker put the kernel: the symbols `end` and `trampoline`. -/
structure Layout where
  kend : ℕ
  trampoline : ℕ
  base_le : kernBase ≤ kend
  trampoline_lt : trampoline < kend

/-- Physical memory and the address spaces of the processes. -/
structure St (T : Type) where
  /-- `kmem.freelist`. -/
  free : List ℕ
  mem : ℕ → Page
  tbl : ℕ → Tbl
  /-- The slots of `proc[]`, with `none` for `UNUSED`. -/
  proc : T → Option Proc

variable {T : Type} [DecidableEq T]

abbrev K (T α : Type) := Kern (St T) α

namespace St

variable (s : St T)

def setMem (pa : ℕ) (x : Page) : St T := { s with mem := update s.mem pa x }

def setTbl (pagetable : ℕ) (t : Tbl) : St T := { s with tbl := update s.tbl pagetable t }

def setProc (t : T) (p : Option Proc) : St T := { s with proc := update s.proc t p }

/-- Entry `v` of the leaf level. -/
def setPte (pagetable v : ℕ) (e : Option Pte) : St T :=
  s.setTbl pagetable
    { s.tbl pagetable with pte := update (s.tbl pagetable).pte v e }

/-- A cleared page becomes the level-1 page at entry `i` of the root. -/
def setMid (pagetable i pa : ℕ) : St T :=
  let t := s.tbl pagetable
  s.setTbl pagetable
    { mid := update t.mid i (some pa)
      low := fun j => if j / 512 = i then none else t.low j
      pte := fun v => if v / 512 / 512 = i then none else t.pte v }

/-- A cleared page becomes the level-0 page number `j`. -/
def setLow (pagetable j pa : ℕ) : St T :=
  let t := s.tbl pagetable
  s.setTbl pagetable
    { mid := t.mid
      low := update t.low j (some pa)
      pte := fun v => if v / 512 = j then none else t.pte v }

end St

/-! ## `kalloc.c` -/

/-- Returns `none` if memory is exhausted. -/
def kalloc : K T (Option ℕ) := do
  let s ← get
  match s.free with
  | [] => return none
  | r :: l =>
    modify fun s => { s.setMem r (fun _ => 5) with free := l }
    return some r

/-- What `kfree` requires of an address. -/
def PageOk (L : Layout) (pa : ℕ) : Prop := pa % pgsize = 0 ∧ L.kend ≤ pa ∧ pa < phystop

instance (L : Layout) (pa : ℕ) : Decidable (PageOk L pa) := by unfold PageOk; infer_instance

def kfree (L : Layout) (pa : ℕ) : K T Unit := do
  if PageOk L pa then
    modify fun s => { s.setMem pa (fun _ => 1) with free := pa :: s.free }
  else kpanic "kfree"

/-! ## `vm.c` -/

/-- Returns whether the leaf entry for `va` exists. -/
def walk (pagetable va : ℕ) (alloc : Bool) : K T Bool := do
  if va ≥ maxva then kpanic "walk"
  else
    let s ← get
    let ok ← (match (s.tbl pagetable).mid (va / 2 ^ 30) with
      | some _ => return true
      | none =>
        if alloc then do
          match ← kalloc with
          | none => return false
          | some pa =>
            modify fun s => s.setMid pagetable (va / 2 ^ 30) pa
            return true
        else return false : K T Bool)
    if ok then
      let s ← get
      match (s.tbl pagetable).low (va / 2 ^ 21) with
      | some _ => return true
      | none =>
        if alloc then
          match ← kalloc with
          | none => return false
          | some pa =>
            modify fun s => s.setLow pagetable (va / 2 ^ 21) pa
            return true
        else return false
    else return false

/-- The physical address, or 0 if `va` is not mapped for the user. -/
def walkaddr (pagetable va : ℕ) : K T ℕ := do
  if va ≥ maxva then return 0
  else if ← walk pagetable va false then
    let s ← get
    match (s.tbl pagetable).pte (va / pgsize) with
    | none => return 0
    | some e => if e.perm.u then return e.pa else return 0
  else return 0

def mappagesLoop (pagetable : ℕ) (perm : Perm) : ℕ → ℕ → ℕ → K T Bool
  | 0, _, _ => return true
  | n + 1, a, pa => do
    if ← walk pagetable a true then
      let s ← get
      if ((s.tbl pagetable).pte (a / pgsize)).isSome then kpanic "mappages: remap"
      else
        modify fun s => s.setPte pagetable (a / pgsize) (some ⟨perm, pa⟩)
        mappagesLoop pagetable perm n (a + pgsize) (pa + pgsize)
    else return false

def mappages (pagetable va size pa : ℕ) (perm : Perm) : K T Bool := do
  if va % pgsize ≠ 0 then kpanic "mappages: va not aligned"
  else if size % pgsize ≠ 0 then kpanic "mappages: size not aligned"
  else if size = 0 then kpanic "mappages: size"
  else mappagesLoop pagetable perm (size / pgsize) va pa

def uvmcreate : K T (Option ℕ) := do
  match ← kalloc with
  | none => return none
  | some pa =>
    modify fun s => s.setTbl pa .empty
    return some pa

def uvmunmapLoop (L : Layout) (pagetable : ℕ) (doFree : Bool) : ℕ → ℕ → K T Unit
  | 0, _ => return ()
  | n + 1, a => do
    if ← walk pagetable a false then
      let s ← get
      match (s.tbl pagetable).pte (a / pgsize) with
      | none => uvmunmapLoop L pagetable doFree n (a + pgsize)
      | some e =>
        if doFree then kfree L e.pa
        modify fun s => s.setPte pagetable (a / pgsize) none
        uvmunmapLoop L pagetable doFree n (a + pgsize)
    else uvmunmapLoop L pagetable doFree n (a + pgsize)

def uvmunmap (L : Layout) (pagetable va npages : ℕ) (doFree : Bool) : K T Unit := do
  if va % pgsize ≠ 0 then kpanic "uvmunmap: not aligned"
  -- the bound `va + npages*PGSIZE` wraps around
  else uvmunmapLoop L pagetable doFree ((u64 (va + npages * pgsize) - va) / pgsize) va

def uvmdealloc (L : Layout) (pagetable oldsz newsz : ℕ) : K T ℕ := do
  if newsz ≥ oldsz then return oldsz
  else if pgroundup newsz < pgroundup oldsz then
    uvmunmap L pagetable (pgroundup newsz)
      (intArg ((pgroundup oldsz - pgroundup newsz) / pgsize)) true
    return newsz
  else return newsz

/-- The loop of `uvmalloc`, for `n` more pages; returns whether it ended without an error. -/
def uvmallocLoop (L : Layout) (pagetable oldsz : ℕ) (xperm : Perm) : ℕ → ℕ → K T Bool
  | 0, _ => return true
  | n + 1, a => do
    match ← kalloc with
    | none =>
      let _ ← uvmdealloc L pagetable a oldsz
      return false
    | some mem =>
      modify fun s => s.setMem mem fun _ => 0
      if ← mappages pagetable a pgsize mem { xperm with r := true, u := true } then
        uvmallocLoop L pagetable oldsz xperm n (a + pgsize)
      else
        kfree L mem
        let _ ← uvmdealloc L pagetable a oldsz
        return false

/-- Returns the new size, or 0 on error. -/
def uvmalloc (L : Layout) (pagetable oldsz newsz : ℕ) (xperm : Perm) : K T ℕ := do
  if newsz < oldsz then return oldsz
  else
    let oldsz := pgroundup oldsz
    if ← uvmallocLoop L pagetable oldsz xperm ((newsz - oldsz + pgsize - 1) / pgsize) oldsz then
      return newsz
    else return 0

/-- The loop over the entries `k..511` of level-0 page `j` in `freewalk`. An entry without access
bits would be taken for a page table. -/
def freewalkLeaf (pagetable j : ℕ) : ℕ → K T Unit
  | 0 => return ()
  | n + 1 => do
    let s ← get
    match (s.tbl pagetable).pte (j * 512 + (511 - n)) with
    | none => freewalkLeaf pagetable j n
    | some e =>
      if e.perm.r ∨ e.perm.w ∨ e.perm.x then kpanic "freewalk: leaf"
      else kpanic "freewalk: not a page table"

/-- The loop over the entries of level-1 page `i` in `freewalk`, for the last `n` entries. -/
def freewalkMid (L : Layout) (pagetable i : ℕ) : ℕ → K T Unit
  | 0 => return ()
  | n + 1 => do
    let j := i * 512 + (511 - n)
    let s ← get
    match (s.tbl pagetable).low j with
    | none => freewalkMid L pagetable i n
    | some pa =>
      freewalkLeaf pagetable j 512
      kfree L pa
      modify fun s => s.setTbl pagetable
        { s.tbl pagetable with low := update (s.tbl pagetable).low j none }
      freewalkMid L pagetable i n

/-- The loop over the entries of the root page in `freewalk`, for the last `n` entries. -/
def freewalkRoot (L : Layout) (pagetable : ℕ) : ℕ → K T Unit
  | 0 => return ()
  | n + 1 => do
    let i := 511 - n
    let s ← get
    match (s.tbl pagetable).mid i with
    | none => freewalkRoot L pagetable n
    | some pa =>
      freewalkMid L pagetable i 512
      kfree L pa
      modify fun s => s.setTbl pagetable
        { s.tbl pagetable with mid := update (s.tbl pagetable).mid i none }
      freewalkRoot L pagetable n

def freewalk (L : Layout) (pagetable : ℕ) : K T Unit := do
  freewalkRoot L pagetable 512
  kfree L pagetable

def uvmfree (L : Layout) (pagetable sz : ℕ) : K T Unit := do
  if sz > 0 then
    uvmunmap L pagetable 0 (pgroundup sz / pgsize) true
  freewalk L pagetable

/-- The loop of `uvmcopy`, for `n` more pages; returns whether it ended without an error. -/
def uvmcopyLoop (L : Layout) (old new : ℕ) : ℕ → ℕ → K T Bool
  | 0, _ => return true
  | n + 1, i => do
    if ← walk old i false then
      let s ← get
      match (s.tbl old).pte (i / pgsize) with
      | none => uvmcopyLoop L old new n (i + pgsize)
      | some e =>
        match ← kalloc with
        | none =>
          uvmunmap L new 0 (i / pgsize) true
          return false
        | some mem =>
          modify fun s => s.setMem mem (s.mem e.pa)
          if ← mappages new i pgsize mem e.perm then
            uvmcopyLoop L old new n (i + pgsize)
          else
            kfree L mem
            uvmunmap L new 0 (i / pgsize) true
            return false
    else uvmcopyLoop L old new n (i + pgsize)

def uvmcopy (L : Layout) (old new sz : ℕ) : K T Bool :=
  uvmcopyLoop L old new ((sz + pgsize - 1) / pgsize) 0

/-- Used by `exec` for the user stack guard page. -/
def uvmclear (pagetable va : ℕ) : K T Unit := do
  if ← walk pagetable va false then
    modify fun s => s.setPte pagetable (va / pgsize)
      (((s.tbl pagetable).pte (va / pgsize)).map fun e => { e with perm.u := false })
  else kpanic "uvmclear"

def ismapped (pagetable va : ℕ) : K T Bool := do
  if ← walk pagetable va false then
    let s ← get
    return ((s.tbl pagetable).pte (va / pgsize)).isSome
  else return false

/-- Returns the physical address, or 0. The process is `myproc()`. -/
def vmfault (L : Layout) (p : Proc) (pagetable va : ℕ) : K T ℕ := do
  if va ≥ p.sz then return 0
  else if ← ismapped pagetable (pgrounddown va) then return 0
  else
    match ← kalloc with
    | none => return 0
    | some mem =>
      modify fun s => s.setMem mem fun _ => 0
      if ← mappages p.pagetable (pgrounddown va) pgsize mem { w := true, u := true, r := true } then
        return mem
      else
        kfree L mem
        return 0

/-- `walkaddr`, or else `vmfault`, for the page at `va0`. -/
def faultIn (L : Layout) (p : Proc) (pagetable va0 : ℕ) : K T ℕ := do
  let pa0 ← walkaddr pagetable va0
  if pa0 = 0 then vmfault L p pagetable va0 else return pa0

/-- `memmove` of `src` to offset `off` of the page at `pa`. -/
def putBytes (x : Page) (off : ℕ) (src : List UInt8) : Page := fun i =>
  if off ≤ i then (src[i - off]?).getD (x i) else x i

/-- The bytes `off..off + n - 1` of a page. -/
def getBytes (x : Page) (off n : ℕ) : List UInt8 := (List.range n).map fun i => x (off + i)

/-- The loop of `copyout`, for at most `fuel` pages. -/
def copyoutLoop (L : Layout) (p : Proc) (pagetable : ℕ) : ℕ → ℕ → List UInt8 → K T Bool
  | _, _, [] => return true
  | 0, _, _ => return true
  | fuel + 1, dstva, src => do
    let va0 := pgrounddown dstva
    if va0 ≥ maxva then return false
    else
      let pa0 ← faultIn L p pagetable va0
      if pa0 = 0 then return false
      else
        if ← walk pagetable va0 false then
          let s ← get
          match (s.tbl pagetable).pte (va0 / pgsize) with
          | none => return false
          | some e =>
            if e.perm.w then
              let n := min (pgsize - (dstva - va0)) src.length
              modify fun s => s.setMem pa0 (putBytes (s.mem pa0) (dstva - va0) (src.take n))
              copyoutLoop L p pagetable fuel (u64 (va0 + pgsize)) (src.drop n)
            else return false
        -- `*pte` with a null `pte` traps in the kernel
        else kpanic "kerneltrap"

/-- Copy from kernel to user; returns whether it succeeded. -/
def copyout (L : Layout) (p : Proc) (pagetable dstva : ℕ) (src : List UInt8) : K T Bool :=
  copyoutLoop L p pagetable src.length dstva src

/-- The loop of `copyin`, for at most `fuel` pages; `dst` is what was copied so far. -/
def copyinLoop (L : Layout) (p : Proc) (pagetable : ℕ) : ℕ → ℕ → ℕ → List UInt8 →
    K T (Bool × List UInt8)
  | _, _, 0, dst => return (true, dst)
  | 0, _, _, dst => return (true, dst)
  | fuel + 1, srcva, len, dst => do
    let va0 := pgrounddown srcva
    let pa0 ← faultIn L p pagetable va0
    if pa0 = 0 then return (false, dst)
    else
      let n := min (pgsize - (srcva - va0)) len
      let s ← get
      copyinLoop L p pagetable fuel (u64 (va0 + pgsize)) (len - n)
        (dst ++ getBytes (s.mem pa0) (srcva - va0) n)

/-- Copy from user to kernel; returns whether it succeeded and the bytes that were copied. -/
def copyin (L : Layout) (p : Proc) (pagetable srcva len : ℕ) : K T (Bool × List UInt8) :=
  copyinLoop L p pagetable len srcva len []

/-- The bytes up to the first NUL, and whether there is one. -/
def takeStr : List UInt8 → List UInt8 × Bool
  | [] => ([], false)
  | c :: l => if c = 0 then ([0], true) else ((c :: (takeStr l).1), (takeStr l).2)

/-- The loop of `copyinstr`, for at most `fuel` pages. -/
def copyinstrLoop (pagetable : ℕ) : ℕ → ℕ → ℕ → List UInt8 → K T (Bool × List UInt8)
  | _, _, 0, dst => return (false, dst)
  | 0, _, _, dst => return (false, dst)
  | fuel + 1, srcva, max, dst => do
    let va0 := pgrounddown srcva
    let pa0 ← walkaddr pagetable va0
    if pa0 = 0 then return (false, dst)
    else
      let n := min (pgsize - (srcva - va0)) max
      let s ← get
      let r := takeStr (getBytes (s.mem pa0) (srcva - va0) n)
      if r.2 then return (true, dst ++ r.1)
      else copyinstrLoop pagetable fuel (u64 (va0 + pgsize)) (max - n) (dst ++ r.1)

/-- Copy a NUL-terminated string; returns whether a NUL was found and the bytes copied. -/
def copyinstr (pagetable srcva max : ℕ) : K T (Bool × List UInt8) :=
  copyinstrLoop pagetable max srcva max []

end Xv6.Vm
