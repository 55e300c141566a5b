import Xv6.Fs.Dir
import Xv6.Fs.Content

/-!
# Directories as maps

The entries of a directory, as a list, and the map from names to inode numbers that they stand for.
`namecmp` compares the `key`s of names: their bytes up to a NUL, `dirsiz` at most. The entries are
`Unique` if no two of them that are in use have the same key.
-/

namespace Xv6.Fs

/-! ## Names -/

/-- The bytes of a string up to its NUL, `n` at most. -/
def upToNul (s : List UInt8) (n : ℕ) : List UInt8 := (s.take n).takeWhile (· ≠ 0)

/-- The part of a name that directories distinguish. -/
def key (name : Name) : Name := upToNul name dirsiz

variable {p q : List UInt8} {n : ℕ}

theorem upToNul_zero : upToNul p 0 = [] := by simp [upToNul]

theorem upToNul_nul (h : p.headD 0 = 0) : upToNul p n = [] := by
  cases n with
  | zero => exact upToNul_zero
  | succ n =>
    cases p with
    | nil => rfl
    | cons c l =>
      have : c = 0 := h
      simp [upToNul, this]

theorem upToNul_cons (h : p.headD 0 ≠ 0) :
    upToNul p (n + 1) = p.headD 0 :: upToNul p.tail n := by
  cases p with
  | nil => exact absurd rfl h
  | cons c l =>
    have : c ≠ 0 := h
    simp [upToNul, this]

theorem strncmp_eq_zero_iff : strncmp p q n = 0 ↔ upToNul p n = upToNul q n := by
  induction n generalizing p q with
  | zero => simp [strncmp, upToNul_zero]
  | succ n ih =>
    unfold strncmp
    split_ifs with h
    · rw [ih, upToNul_cons h.1, upToNul_cons (h.2 ▸ h.1), h.2, List.cons.injEq]
      exact ⟨fun h' => ⟨rfl, h'⟩, fun h' => h'.2⟩
    · have hsub : ((p.headD 0).toNat : ℤ) - (q.headD 0).toNat = 0 ↔ p.headD 0 = q.headD 0 := by
        rw [sub_eq_zero, Nat.cast_inj, UInt8.toNat_inj]
      rw [hsub]
      by_cases hp : p.headD 0 = 0
      · rw [upToNul_nul hp, hp]
        by_cases hq : q.headD 0 = 0
        · rw [upToNul_nul hq, hq]
          exact ⟨fun _ => rfl, fun _ => rfl⟩
        · rw [upToNul_cons hq]
          exact ⟨fun h' => absurd h'.symm hq, fun h' => nomatch h'⟩
      · have hne : p.headD 0 ≠ q.headD 0 := fun h' => h ⟨hp, h'⟩
        rw [upToNul_cons hp]
        refine ⟨fun h' => absurd h' hne, fun h' => ?_⟩
        by_cases hq : q.headD 0 = 0
        · rw [upToNul_nul hq] at h'
          cases h'
        · rw [upToNul_cons hq, List.cons.injEq] at h'
          exact absurd h'.1 hne

/-- Names are compared by their keys. -/
theorem namecmp_eq_zero_iff {s t : Name} : namecmp s t = 0 ↔ key s = key t := strncmp_eq_zero_iff

theorem length_strncpy : (strncpy p n).length = n := by
  induction n generalizing p with
  | zero => rfl
  | succ n ih =>
    unfold strncpy
    split_ifs
    · exact List.length_replicate
    · rw [List.length_cons, ih]

theorem upToNul_strncpy : upToNul (strncpy p n) n = upToNul p n := by
  induction n generalizing p with
  | zero => rw [upToNul_zero, upToNul_zero]
  | succ n ih =>
    unfold strncpy
    split_ifs with h
    · rw [upToNul_nul h]
      exact upToNul_nul rfl
    · rw [upToNul_cons (p := p) h, ← ih]
      exact upToNul_cons h

theorem key_strncpy (name : Name) : key (strncpy name dirsiz) = key name := upToNul_strncpy

/-! ## Entries -/

theorem length_toBytes (de : Dirent) : de.toBytes.length = direntSize := by
  unfold Dirent.toBytes
  rw [List.length_cons, List.length_cons, length_strncpy]
  rfl

/-- The entry that is read back: the name is what `strncpy` has stored. -/
def Dirent.stored (de : Dirent) : Dirent := ⟨de.inum, strncpy de.name dirsiz⟩

theorem ofBytes_toBytes {de : Dirent} (h : de.inum < 2 ^ 16) : .ofBytes de.toBytes = de.stored := by
  unfold Dirent.ofBytes Dirent.toBytes Dirent.stored
  congr 1
  show (UInt8.ofNat de.inum).toNat + 2 ^ 8 * (UInt8.ofNat (de.inum / 2 ^ 8)).toNat = de.inum
  rw [UInt8.toNat_ofNat', UInt8.toNat_ofNat']
  omega

/-- The entries of a directory with content `c`. -/
def entries (c : List UInt8) : List Dirent :=
  (List.range (c.length / direntSize)).map fun j => .ofBytes ((c.drop (j * direntSize)).take direntSize)

variable {c : List UInt8} {j : ℕ}

theorem length_entries : (entries c).length = c.length / direntSize := by simp [entries]

theorem getElem?_entries (h : j < c.length / direntSize) :
    (entries c)[j]? = some (.ofBytes ((c.drop (j * direntSize)).take direntSize)) := by
  unfold entries
  rw [List.getElem?_map, List.getElem?_range h]
  rfl

/-- `es'` is `es` with entry `j` replaced, or with one more entry. -/
def Puts (es es' : List Dirent) (j : ℕ) (de : Dirent) : Prop :=
  ∀ x, es'[x]? = if x = j then some de else es[x]?

theorem slice_splice_self {l : List UInt8} {off : ℕ} (h : off ≤ c.length) :
    ((splice c off l).drop off).take l.length = l := by
  refine List.ext_getElem? fun p => ?_
  rw [List.getElem?_take, List.getElem?_drop, getElem?_splice h]
  split_ifs with h1 h2
  · omega
  · congr 1
    omega
  · omega
  · exact (List.getElem?_eq_none (by omega)).symm

theorem slice_splice_ne {l : List UInt8} {off pos : ℕ} (h : off ≤ c.length)
    (hne : pos + n ≤ off ∨ off + l.length ≤ pos) :
    ((splice c off l).drop pos).take n = (c.drop pos).take n := by
  refine List.ext_getElem? fun p => ?_
  rw [List.getElem?_take, List.getElem?_drop, List.getElem?_take, List.getElem?_drop,
    getElem?_splice h]
  split_ifs <;> first | rfl | omega

/-- What writing an entry does to the entries. -/
theorem puts_splice {l : List UInt8} (hl : l.length = direntSize) (hc : c.length % direntSize = 0)
    (hj : j * direntSize ≤ c.length) :
    Puts (entries c) (entries (splice c (j * direntSize) l)) j (.ofBytes l) := by
  have hlen := length_splice (l := l) hj
  rw [hl] at hlen
  intro x
  split_ifs with hx
  · have hself : ((splice c (j * direntSize) l).drop (j * direntSize)).take direntSize = l := by
      conv_rhs => rw [← slice_splice_self (l := l) hj]
      rw [hl]
    rw [hx, getElem?_entries, hself]
    rw [hlen]
    unfold direntSize at *
    omega
  · by_cases hlt : x < c.length / direntSize
    · rw [getElem?_entries hlt, getElem?_entries, slice_splice_ne hj]
      · rw [hl]
        unfold direntSize at *
        omega
      · rw [hlen]
        unfold direntSize at *
        omega
    · have h1 : (entries c)[x]? = none := List.getElem?_eq_none (by rw [length_entries]; omega)
      rw [h1]
      refine List.getElem?_eq_none ?_
      rw [length_entries, hlen]
      unfold direntSize at *
      omega

/-! ## The map -/

/-- The entry is in use and has this name. -/
def Dirent.Is (de : Dirent) (name : Name) : Prop := de.inum ≠ 0 ∧ namecmp name de.name = 0

instance (de : Dirent) (name : Name) : Decidable (de.Is name) := instDecidableAnd

/-- The inode number that the entries give for a name. -/
def lookup (es : List Dirent) (name : Name) : Option ℕ :=
  (es.find? fun de => decide (de.Is name)).map Dirent.inum

/-- No two entries that are in use have the same name. -/
def Unique (es : List Dirent) : Prop :=
  ∀ (x y : ℕ) (de de' : Dirent), es[x]? = some de → es[y]? = some de' → de.inum ≠ 0 → de'.inum ≠ 0 →
    key de.name = key de'.name → x = y

variable {es es' : List Dirent} {de : Dirent} {name : Name}

theorem is_iff : de.Is name ↔ de.inum ≠ 0 ∧ key de.name = key name := by
  unfold Dirent.Is
  rw [namecmp_eq_zero_iff]
  exact and_congr_right fun _ => eq_comm

theorem lookup_eq_none : lookup es name = none ↔ ∀ (x : ℕ) (de : Dirent), es[x]? = some de → ¬ de.Is name := by
  unfold lookup
  rw [Option.map_eq_none_iff, List.find?_eq_none]
  constructor
  · intro h x de hx
    simpa using h de (List.mem_of_getElem? hx)
  · intro h de hde
    obtain ⟨x, hx⟩ := List.mem_iff_getElem?.1 hde
    simpa using h x de hx

/-- A name has one entry at most. -/
theorem lookup_eq_some (hu : Unique es) {i : ℕ} :
    lookup es name = some i ↔ ∃ x : ℕ, ∃ de : Dirent, es[x]? = some de ∧ de.Is name ∧ de.inum = i := by
  unfold lookup
  rw [Option.map_eq_some_iff]
  constructor
  · rintro ⟨de, hde, rfl⟩
    obtain ⟨x, hx⟩ := List.mem_iff_getElem?.1 (List.mem_of_find?_eq_some hde)
    exact ⟨x, de, hx, by simpa using List.find?_some hde, rfl⟩
  · rintro ⟨x, de, hx, his, rfl⟩
    cases hf : es.find? fun de => decide (de.Is name) with
    | none =>
      have := List.find?_eq_none.1 hf de (List.mem_of_getElem? hx)
      exact absurd his (by simpa using this)
    | some de' =>
      obtain ⟨y, hy⟩ := List.mem_iff_getElem?.1 (List.mem_of_find?_eq_some hf)
      have his' : de'.Is name := by simpa using List.find?_some hf
      rw [is_iff] at his his'
      have hxy := hu x y de de' hx hy his.1 his'.1 (his.2.trans his'.2.symm)
      rw [hxy, hy] at hx
      exact ⟨de', rfl, by rw [Option.some.inj hx]⟩

namespace Puts

variable (h : Puts es es' j de)
include h

theorem unique_add (hu : Unique es) (hnone : lookup es name = none) (hk : key de.name = key name) :
    Unique es' := by
  intro x y a b hx hy ha hb hab
  rw [h x] at hx
  rw [h y] at hy
  have hno : ∀ (z : ℕ) (e : Dirent), es[z]? = some e → e.inum ≠ 0 → key e.name ≠ key de.name := by
    intro z e hz hc he
    exact lookup_eq_none.1 hnone z e hz (is_iff.2 ⟨hc, he.trans hk⟩)
  split_ifs at hx hy with h1 h2 h2
  · rw [h1, h2]
  · obtain rfl := Option.some.inj hx
    exact absurd hab.symm (hno y b hy hb)
  · obtain rfl := Option.some.inj hy
    exact absurd hab (hno x a hx ha)
  · exact hu x y a b hx hy ha hb hab

theorem unique_clear (hu : Unique es) (h0 : de.inum = 0) : Unique es' := by
  intro x y a b hx hy ha hb hab
  rw [h x] at hx
  rw [h y] at hy
  split_ifs at hx hy with h1 h2 h2
  · rw [h1, h2]
  · obtain rfl := Option.some.inj hx
    exact absurd h0 ha
  · obtain rfl := Option.some.inj hy
    exact absurd h0 hb
  · exact hu x y a b hx hy ha hb hab

theorem lookup_add (hu : Unique es) (hnone : lookup es name = none) (hk : key de.name = key name)
    (h0 : de.inum ≠ 0) (hfree : ∀ a, es[j]? = some a → a.inum = 0) (name' : Name) :
    lookup es' name' = if key name' = key name then some de.inum else lookup es name' := by
  have hu' := h.unique_add hu hnone hk
  split_ifs with hn
  · rw [lookup_eq_some hu']
    exact ⟨j, de, by rw [h j, if_pos rfl], is_iff.2 ⟨h0, hk.trans hn.symm⟩, rfl⟩
  · refine Option.ext fun i => ?_
    rw [lookup_eq_some hu', lookup_eq_some hu]
    constructor
    · rintro ⟨x, a, hx, his, hi⟩
      rw [h x] at hx
      split_ifs at hx with hxj
      · obtain rfl := Option.some.inj hx
        exact absurd ((is_iff.1 his).2.symm.trans hk) hn
      · exact ⟨x, a, hx, his, hi⟩
    · rintro ⟨x, a, hx, his, hi⟩
      have hxj : x ≠ j := by
        rintro rfl
        exact his.1 (hfree a hx)
      exact ⟨x, a, by rw [h x, if_neg hxj, hx], his, hi⟩

theorem lookup_clear (hu : Unique es) (h0 : de.inum = 0) {old : Dirent} (hold : es[j]? = some old)
    (his : old.Is name) (name' : Name) :
    lookup es' name' = if key name' = key name then none else lookup es name' := by
  have hu' := h.unique_clear hu h0
  split_ifs with hn
  · rw [lookup_eq_none]
    intro x a hx hax
    rw [h x] at hx
    split_ifs at hx with hxj
    · obtain rfl := Option.some.inj hx
      exact hax.1 h0
    · rw [is_iff] at his hax
      exact hxj (hu x j a old hx hold hax.1 his.1 (hax.2.trans (hn.trans his.2.symm)))
  · refine Option.ext fun i => ?_
    rw [lookup_eq_some hu', lookup_eq_some hu]
    constructor
    · rintro ⟨x, a, hx, hax, hi⟩
      rw [h x] at hx
      split_ifs at hx with hxj
      · obtain rfl := Option.some.inj hx
        exact absurd h0 hax.1
      · exact ⟨x, a, hx, hax, hi⟩
    · rintro ⟨x, a, hx, hax, hi⟩
      have hxj : x ≠ j := by
        rintro rfl
        obtain rfl := Option.some.inj (hold.symm.trans hx)
        exact hn ((is_iff.1 hax).2.symm.trans (is_iff.1 his).2)
      exact ⟨x, a, by rw [h x, if_neg hxj, hx], hax, hi⟩

end Puts

end Xv6.Fs
