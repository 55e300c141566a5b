import Mathlib

/-!
# The memory allocator of the user library

`free`, `morecore` and `malloc` of `umalloc.c`: a circular list of free blocks through the static
header `base`. Addresses are natural numbers; a block begins with its header, and its size is counted
in headers. The loops run on fuel, which a list that is not circular would exhaust.

`sbrk` is a parameter. It is asked with the number of its earlier calls and the memory they gave,
so that every answer of the kernel is possible each time.
-/

namespace Xv6.User.Malloc

/-- `sizeof(Header)`. -/
def unit : ℕ := 16

/-- `union header`. -/
structure Header where
  ptr : ℕ
  size : ℕ

/-- The headers in memory, `freep` (null before the first call), and for the calls of `sbrk` so far
their number and the start and length of what they gave. -/
structure St where
  hdr : ℕ → Header
  freep : ℕ
  calls : ℕ
  regions : List (ℕ × ℕ)

namespace St

variable (s : St) (a b x : ℕ)

def ptr : ℕ := (s.hdr a).ptr

def size : ℕ := (s.hdr a).size

def setPtr : St := { s with hdr := Function.update s.hdr a { s.hdr a with ptr := x } }

def setSize : St := { s with hdr := Function.update s.hdr a { s.hdr a with size := x } }

/-- The address is in memory that a call of `sbrk` gave. -/
def Got : Prop := ∃ r ∈ s.regions, r.1 ≤ x ∧ x < r.1 + r.2

/-- The number of bytes that `sbrk` has given. -/
def total : ℕ := (s.regions.map Prod.snd).sum

@[simp] theorem ptr_setPtr_self : (s.setPtr a x).ptr a = x := by
  simp [setPtr, ptr]

@[simp] theorem size_setSize_self : (s.setSize a x).size a = x := by
  simp [setSize, size]

variable {a b}

theorem ptr_setPtr (h : b ≠ a) : (s.setPtr a x).ptr b = s.ptr b := by
  simp [setPtr, ptr, h]

theorem size_setSize (h : b ≠ a) : (s.setSize a x).size b = s.size b := by
  simp [setSize, size, h]

@[simp] theorem size_setPtr : (s.setPtr a x).size b = s.size b := by
  by_cases h : b = a
  · simp [setPtr, size, h]
  · simp [setPtr, size, h]

@[simp] theorem ptr_setSize : (s.setSize a x).ptr b = s.ptr b := by
  by_cases h : b = a
  · simp [setSize, ptr, h]
  · simp [setSize, ptr, h]

end St

/-! ## free -/

/-- The loop of `free`: the listed block after which `bp` belongs. -/
def findPlace (s : St) (bp : ℕ) : ℕ → ℕ → Option ℕ
  | 0, _ => none
  | fuel + 1, p =>
    if bp > p ∧ bp < s.ptr p then some p
    else if p ≥ s.ptr p ∧ (bp > p ∨ bp < s.ptr p) then some p
    else findPlace s bp fuel (s.ptr p)

/-- Joins `bp` with the block after `p`, if they touch. -/
def joinUpper (s : St) (p bp : ℕ) : St :=
  if bp + unit * s.size bp = s.ptr p then
    (s.setSize bp ((s.size bp + s.size (s.ptr p)) % 2 ^ 32)).setPtr bp (s.ptr (s.ptr p))
  else s.setPtr bp (s.ptr p)

/-- Joins `p` with `bp` if they touch, or else links `bp` behind `p`. -/
def joinLower (s : St) (p bp : ℕ) : St :=
  if p + unit * s.size p = bp then
    (s.setSize p ((s.size p + s.size bp) % 2 ^ 32)).setPtr p (s.ptr bp)
  else s.setPtr p bp

/-- The part of `free` after its loop. -/
def release (s : St) (p bp : ℕ) : St := { joinLower (joinUpper s p bp) p bp with freep := p }

def free (fuel : ℕ) (s : St) (ap : ℕ) : Option St :=
  (findPlace s (ap - unit) fuel s.freep).map fun p => release s p (ap - unit)

/-! ## malloc -/

/-- `nunits` of a request. -/
def units (nbytes : ℕ) : ℕ := ((nbytes + unit - 1) / unit + 1) % 2 ^ 32

/-- The product `nu * sizeof(Header)` as the `int` parameter of `sbrk`. -/
def sbrkArg (nu : ℕ) : ℤ := Int.bmod ((nu * unit : ℕ) : ℤ) (2 ^ 32)

/-- What `morecore` asks for at least. -/
def moreUnits (nu : ℕ) : ℕ := if nu < 4096 then 4096 else nu

/-- `sbrk` has returned `a` when asked for `n` bytes. -/
def St.grow (s : St) (a : ℕ) (n : ℤ) : St :=
  { s with
    calls := s.calls + 1
    regions := if 0 < n then (a, n.toNat) :: s.regions else s.regions }

theorem St.regions_grow (s : St) (a : ℕ) {n : ℤ} (h : 0 < n) :
    (s.grow a n).regions = (a, n.toNat) :: s.regions := if_pos h

section

variable (base : ℕ) (sbrk : ℕ → List (ℕ × ℕ) → ℤ → Option ℕ)

/-- `morecore`; it returns a null pointer if `sbrk` fails. -/
def morecore (fuel : ℕ) (s : St) (nu : ℕ) : Option (St × ℕ) :=
  match sbrk s.calls s.regions (sbrkArg (moreUnits nu)) with
  | none => some ({ s with calls := s.calls + 1 }, 0)
  | some a =>
    let s1 := (s.grow a (sbrkArg (moreUnits nu))).setSize a (moreUnits nu)
    (free fuel s1 (a + unit)).map fun s => (s, s.freep)

/-- Takes `nunits` from the block `p`, the one after `prevp`: the whole block, or its end. -/
def takeFrom (s : St) (nunits prevp p : ℕ) : St × ℕ :=
  if s.size p = nunits then
    ({ s.setPtr prevp (s.ptr p) with freep := prevp }, p + unit)
  else
    let s1 := s.setSize p (s.size p - nunits)
    let q := p + unit * s1.size p
    ({ s1.setSize q nunits with freep := prevp }, q + unit)

def search (nunits : ℕ) : ℕ → St → ℕ → ℕ → Option (St × ℕ)
  | 0, _, _, _ => none
  | fuel + 1, s, prevp, p =>
    if s.size p ≥ nunits then some (takeFrom s nunits prevp p)
    else if p = s.freep then
      (morecore sbrk fuel s nunits).bind fun (s', q) =>
        if q = 0 then some (s', 0) else search nunits fuel s' q (s'.ptr q)
    else search nunits fuel s p (s.ptr p)

/-- The first call makes a list of `base` alone. -/
def init (s : St) : St :=
  if s.freep = 0 then { (s.setPtr base base).setSize base 0 with freep := base } else s

def malloc (fuel : ℕ) (s : St) (nbytes : ℕ) : Option (St × ℕ) :=
  let s := init base s
  search sbrk (units nbytes) fuel s s.freep (s.ptr s.freep)

/-- A positive request that `sbrk` grants gives memory that was not given before, above `base`. The
memory of a process has less than `2 ^ 32` headers (it is taken from a physical memory of 128 MB). -/
structure Fresh : Prop where
  above : ∀ k rs n a, 0 < n → sbrk k rs n = some a → base + unit ≤ a
  apart : ∀ k rs n a, 0 < n → sbrk k rs n = some a →
    ∀ r ∈ rs, a + n.toNat ≤ r.1 ∨ r.1 + r.2 ≤ a
  limit : ∀ k rs n a, 0 < n → sbrk k rs n = some a →
    (rs.map Prod.snd).sum + n.toNat < unit * 2 ^ 32

/-! ## Programs that use the allocator -/

end

/-- A call returns `v`: it does with enough fuel. -/
def Returns {α : Type} (f : ℕ → Option α) (v : α) : Prop := ∃ n, ∀ fuel ≥ n, f fuel = some v

theorem Returns.unique {α : Type} {f : ℕ → Option α} {v v' : α} (h : Returns f v)
    (h' : Returns f v') : v = v' := by
  obtain ⟨n, hn⟩ := h
  obtain ⟨m, hm⟩ := h'
  exact Option.some.inj ((hn _ (le_max_left n m)).symm.trans (hm _ (le_max_right n m)))

section

variable (base : ℕ) (sbrk : ℕ → List (ℕ × ℕ) → ℤ → Option ℕ)

/-- The allocator and the program's blocks: their headers, and how many bytes each was asked for. -/
structure World where
  st : St
  live : Finset ℕ
  asked : ℕ → ℕ

/-- The largest request for which the argument of `sbrk` is an `int`. -/
def maxRequest : ℕ := 2 ^ 31 - 32

/-- A request is small enough for `sbrk`, or a listed block has room for it. -/
def Servable (s : St) (nbytes : ℕ) : Prop :=
  nbytes ≤ maxRequest ∨
    ∃ k, units nbytes ≤ (init base s).size ((init base s).ptr^[k] (init base s).freep)

/-- The state after `malloc` has returned `r`. -/
def World.gave (w : World) (s : St) (r nbytes : ℕ) : World where
  st := s
  live := if r = 0 then w.live else insert (r - unit) w.live
  asked := if r = 0 then w.asked else Function.update w.asked (r - unit) nbytes

/-- What a program reaches by calls of `malloc`, and of `free` for its blocks. -/
inductive Reach : World → Prop
  | start (w : World) (h : w.st.freep = 0) (hr : w.st.regions = []) (hl : w.live = ∅) : Reach w
  | malloc (w : World) (s : St) (nbytes r : ℕ) (hw : Reach w) (hn : nbytes < 2 ^ 32)
      (hs : Servable base w.st nbytes)
      (h : Returns (fun fuel => malloc base sbrk fuel w.st nbytes) (s, r)) :
      Reach (w.gave s r nbytes)
  | free (w : World) (s : St) (b : ℕ) (hw : Reach w) (hb : b ∈ w.live)
      (h : Returns (fun fuel => free fuel w.st (b + unit)) s) :
      Reach { w with st := s, live := w.live.erase b }

end

end Xv6.User.Malloc
