import Xv6.Cells

/-!
# The multiprocessor table of the x86 kernel

`mpinit` of `mp.c` walks over the entries of the table that the firmware left in memory. The entries
have no length field: the type in the first byte says how long an entry is. Memory is indexed by
kernel virtual addresses.
-/

namespace Xv6.X86.Mp

def kernbase : ℕ := 0x80000000

def ncpuMax : ℕ := 8

def p2v (a : ℕ) : ℕ := (a + kernbase) % 2 ^ 32

/-- The little-endian number in the `n` bytes at `a`. -/
def number (mem : ℕ → UInt8) (a : ℕ) : ℕ → ℕ
  | 0 => 0
  | n + 1 => (mem a).toNat + 256 * number mem (a + 1) n

def sum (mem : ℕ → UInt8) (addr len : ℕ) : UInt8 :=
  ((List.range len).map fun i => mem (addr + i)).foldl (· + ·) 0

/-- `memcmp` with the signature `s` finds no difference. -/
def signed (mem : ℕ → UInt8) (a : ℕ) (s : List UInt8) : Bool :=
  (List.range s.length).map (fun i => mem (a + i)) == s

/-- The loop of `mpsearch1` with `n` places left to look at. -/
def mpsearch1From (mem : ℕ → UInt8) (p : ℕ) : ℕ → Option ℕ
  | 0 => none
  | n + 1 =>
    if signed mem p [95, 77, 80, 95] ∧ sum mem p 16 = 0 then some p
    else mpsearch1From mem (p + 16) n

def mpsearch1 (mem : ℕ → UInt8) (a len : ℕ) : Option ℕ := mpsearch1From mem (p2v a) ((len + 15) / 16)

def mpsearch (mem : ℕ → UInt8) : Option ℕ :=
  let ebda := number mem (p2v 0x40E) 2 * 16
  let base := number mem (p2v 0x413) 2 * 1024
  if ebda ≠ 0 then mpsearch1 mem ebda 1024 <|> mpsearch1 mem 0xF0000 0x10000
  else mpsearch1 mem ((base + (2 ^ 32 - 1024)) % 2 ^ 32) 1024 <|> mpsearch1 mem 0xF0000 0x10000

/-- The length of the table at `conf`. -/
def confLength (mem : ℕ → UInt8) (conf : ℕ) : ℕ := number mem (conf + 4) 2

/-- The addresses of `struct mp` and of `struct mpconf`. -/
def mpconfig (mem : ℕ → UInt8) : Option (ℕ × ℕ) :=
  match mpsearch mem with
  | none => none
  | some mp =>
    if number mem (mp + 4) 4 = 0 then none
    else
      let conf := p2v (number mem (mp + 4) 4)
      if signed mem conf [80, 67, 77, 80] = false then none
      else if mem (conf + 6) ≠ 1 ∧ mem (conf + 6) ≠ 4 then none
      else if sum mem conf (confLength mem conf) ≠ 0 then none
      else some (mp, conf)

/-- What `mpinit` finds. `apicids` are those of `cpus[0]` to `cpus[ncpu - 1]`. -/
structure Found where
  apicids : List UInt8
  ioapicid : UInt8
  ismp : Bool
  deriving DecidableEq

/-- One round of the loop of `mpinit`, for the entry at `p`. -/
def entry (mem : ℕ → UInt8) (p : ℕ) (f : Found) : ℕ × Found :=
  match mem p with
  | 0 => (p + 20, if f.apicids.length < ncpuMax then { f with apicids := f.apicids ++ [mem (p + 1)] } else f)
  | 2 => (p + 8, { f with ioapicid := mem (p + 1) })
  | 1 | 3 | 4 => (p + 8, f)
  | _ => (p, { f with ismp := false })

/-- The loop of `mpinit`, if it ends after at most `n` rounds. -/
def entries (mem : ℕ → UInt8) (e : ℕ) : ℕ → ℕ → Found → Option Found
  | 0, _, _ => none
  | n + 1, p, f => if p < e then entries mem e n (entry mem p f).1 (entry mem p f).2 else some f

/-- The machine that `mpinit` found: the entries, the address of the local APIC, and whether the
interrupt mode register was set. -/
structure Machine where
  found : Found
  lapic : ℕ
  imcr : Bool
  deriving DecidableEq

/-- `mpinit`, if its loop ends after at most `n` rounds; an error is a panic. -/
def mpinit (mem : ℕ → UInt8) (n : ℕ) : Option (Except String Machine) :=
  match mpconfig mem with
  | none => some (.error "Expect to run on an SMP")
  | some (mp, conf) =>
    match entries mem (conf + confLength mem conf) n (conf + 44) ⟨[], 0, true⟩ with
    | none => none
    | some f =>
      if f.ismp = false then some (.error "Didn't find a suitable machine")
      else some (.ok ⟨f, number mem (conf + 36) 4, decide (mem (mp + 12) ≠ 0)⟩)

/-! ## Tables with known entries -/

/-- The length of an entry, for the five known types. -/
def entrySize : UInt8 → Option ℕ
  | 0 => some 20
  | 1 | 2 | 3 | 4 => some 8
  | _ => none

/-- The entries from `p` to `e` are at the addresses of a list, and all of them are known. -/
inductive Known (mem : ℕ → UInt8) (e : ℕ) : ℕ → List ℕ → Prop
  | nil {p : ℕ} (h : e ≤ p) : Known mem e p []
  | cons {p k : ℕ} {l : List ℕ} (h : p < e) (hk : entrySize (mem p) = some k)
      (hl : Known mem e (p + k) l) : Known mem e p (p :: l)

/-- The ids in the entries of type `t`, in table order. -/
def ids (mem : ℕ → UInt8) (t : UInt8) (l : List ℕ) : List UInt8 :=
  (l.filter fun p => mem p = t).map fun p => mem (p + 1)

/-- The processors and the I/O APIC of further entries are recorded. -/
def Found.record (mem : ℕ → UInt8) (f : Found) (l : List ℕ) : Found :=
  { f with
    apicids := f.apicids ++ (ids mem 0 l).take (ncpuMax - f.apicids.length)
    ioapicid := (ids mem 2 l).getLast?.getD f.ioapicid }

variable {mem : ℕ → UInt8} {e p : ℕ}

theorem Found.record_nil (f : Found) : f.record mem [] = f := by
  simp [Found.record, ids]

theorem ids_cons (t : UInt8) (l : List ℕ) :
    ids mem t (p :: l) = if mem p = t then mem (p + 1) :: ids mem t l else ids mem t l := by
  unfold ids
  by_cases h : mem p = t <;> simp [h]

/-- A known entry is recorded, and the loop goes on behind it. -/
theorem entry_eq {k : ℕ} (f : Found) (hk : entrySize (mem p) = some k) (l : List ℕ) :
    (entry mem p f).1 = p + k ∧ (entry mem p f).2.record mem l = f.record mem (p :: l) := by
  unfold entrySize at hk
  unfold entry Found.record
  rw [ids_cons, ids_cons]
  split at hk <;> cases hk
  all_goals rename_i ht; rw [ht]
  · refine ⟨rfl, ?_⟩
    by_cases hlt : f.apicids.length < ncpuMax
    · have h1 : ncpuMax - f.apicids.length = ncpuMax - (f.apicids.length + 1) + 1 := by omega
      simp [hlt, h1]
    · have h1 : ncpuMax - f.apicids.length = 0 := by omega
      simp [hlt, h1]
  · exact ⟨rfl, rfl⟩
  · refine ⟨rfl, ?_⟩
    simp [List.getLast?_cons]
  · exact ⟨rfl, rfl⟩
  · exact ⟨rfl, rfl⟩

theorem Known.entries {l : List ℕ} (h : Known mem e p l) (f : Found) (n : ℕ) (hn : l.length < n) :
    entries mem e n p f = some (f.record mem l) := by
  induction h generalizing f n with
  | nil h =>
    obtain ⟨n, rfl⟩ := Nat.exists_eq_succ_of_ne_zero (Nat.ne_zero_of_lt hn)
    unfold Mp.entries
    rw [if_neg (not_lt.2 h), f.record_nil]
  | cons h hk _ ih =>
    obtain ⟨n, rfl⟩ := Nat.exists_eq_succ_of_ne_zero (Nat.ne_zero_of_lt hn)
    obtain ⟨hp, hr⟩ := entry_eq f hk _
    unfold Mp.entries
    rw [if_pos h, hp, ih _ _ (Nat.lt_of_succ_lt_succ hn), hr]

/-- The loop never leaves an entry of an unknown type. -/
theorem entry_unknown (hk : entrySize (mem p) = none) (f : Found) : (entry mem p f).1 = p := by
  unfold entry
  split
  all_goals first | rfl | (rename_i ht; rw [ht] at hk; cases hk)

theorem known_of_entries {n : ℕ} {f f' : Found} (h : entries mem e n p f = some f') :
    ∃ l, Known mem e p l := by
  induction n generalizing p f with
  | zero => cases h
  | succ n ih =>
    by_cases hp : p < e
    · cases hk : entrySize (mem p) with
      | some k =>
        unfold entries at h
        rw [if_pos hp, (entry_eq f hk []).1] at h
        obtain ⟨l, hl⟩ := ih h
        exact ⟨p :: l, .cons hp hk hl⟩
      | none =>
        unfold entries at h
        rw [if_pos hp, entry_unknown hk] at h
        exact ih h
    · exact ⟨[], .nil (not_lt.1 hp)⟩

/-! ## Termination -/

variable {mp conf : ℕ}

/-- Where the entries are known, `mpinit` returns. It records the first processors and the last
I/O APIC. -/
theorem mpinit_records {l : List ℕ} (hc : mpconfig mem = some (mp, conf))
    (hl : Known mem (conf + confLength mem conf) (conf + 44) l) :
    ∃ m : Machine, (∀ n, l.length < n → mpinit mem n = some (.ok m)) ∧
      m.found.apicids = (ids mem 0 l).take ncpuMax ∧ m.found.apicids.length ≤ ncpuMax ∧
      m.found.ioapicid = (ids mem 2 l).getLast?.getD 0 := by
  refine ⟨⟨(⟨[], 0, true⟩ : Found).record mem l, number mem (conf + 36) 4,
    decide (mem (mp + 12) ≠ 0)⟩, ?_, rfl, List.length_take_le _ _, rfl⟩
  intro n hn
  unfold mpinit
  rw [hc]
  dsimp only
  rw [hl.entries _ n hn]
  rfl

/-- Where an entry is not known, `mpinit` does not return. -/
theorem mpinit_diverges (hc : mpconfig mem = some (mp, conf))
    (h : ∀ l, ¬ Known mem (conf + confLength mem conf) (conf + 44) l) (n : ℕ) :
    mpinit mem n = none := by
  unfold mpinit
  rw [hc]
  dsimp only
  split
  · rfl
  · rename_i hf
    obtain ⟨l, hl⟩ := known_of_entries hf
    exact absurd hl (h l)

/-- A memory in which the firmware left a table. -/
def firmware (table : List UInt8) : ℕ → UInt8 :=
  Cells.put (Cells.put (Cells.put (fun _ => 0) (p2v 0x40F) [0x10]) (p2v 0x10000)
    [95, 77, 80, 95, 0, 0, 2, 0, 1, 4, 158, 0, 0, 0, 0, 0]) (p2v 0x20000) table

/-- A table with one processor and one I/O APIC. -/
def goodTable : List UInt8 :=
  [80, 67, 77, 80, 72, 0, 1, 123] ++ List.replicate 36 0 ++ [0, 3] ++ List.replicate 18 0 ++
    [2, 7] ++ List.replicate 6 0

/-- A table with one entry, of type 5. -/
def badTable : List UInt8 := [80, 67, 77, 80, 45, 0, 1, 157] ++ List.replicate 36 0 ++ [5]

set_option maxRecDepth 1000 in
theorem mpinit_records_one : ∃ n m, mpinit (firmware goodTable) n = some (.ok m) ∧
    m.found.apicids = [3] ∧ m.found.ioapicid = 7 := by
  have hc : mpconfig (firmware goodTable) = some (p2v 0x10000, p2v 0x20000) := by decide
  have hl : Known (firmware goodTable) (p2v 0x20000 + confLength (firmware goodTable) (p2v 0x20000))
      (p2v 0x20000 + 44) [p2v 0x20000 + 44, p2v 0x20000 + 64] :=
    .cons (by decide) rfl (.cons (by decide) rfl (.nil (by decide)))
  obtain ⟨m, hm, ha, -, hi⟩ := mpinit_records hc hl
  exact ⟨3, m, hm 3 (by decide), by rw [ha]; decide, by rw [hi]; decide⟩

theorem mpinit_unknown_diverges : (mpconfig (firmware badTable)).isSome ∧
    ∀ n, mpinit (firmware badTable) n = none := by
  have hc : mpconfig (firmware badTable) = some (p2v 0x10000, p2v 0x20000) := by decide
  refine ⟨by rw [hc]; rfl, mpinit_diverges hc ?_⟩
  intro l hl
  cases hl with
  | nil h => exact absurd h (by decide)
  | cons h hk => cases (show none = some _ from hk)

end Xv6.X86.Mp
