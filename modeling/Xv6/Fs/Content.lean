import Xv6.Fs.Blocks

/-!
# Inode content

`readi` and `writei` alone. A file is a list of bytes, `View.content`; `readi` returns a part of it
and `writei` replaces a part of it, or extends it. Both go block by block: `Wrote` says what the loop
of `writei` has done when it stops, and its parts are proved for one round at a time.
-/

namespace Xv6.Fs

open Xv6.Threads

/-! ## The bytes of a file -/

/-- Byte `p` of a file. -/
def View.byte (v : View) (i p : ℕ) : UInt8 := (v.file i (p / bsize)).getD (fun _ => 0) (p % bsize)

/-- The content of a file. -/
def View.content (v : View) (i : ℕ) : List UInt8 := (List.range (v.din i).size).map (v.byte i)

/-- `c` with `l` at `off`. -/
def splice (c : List UInt8) (off : ℕ) (l : List UInt8) : List UInt8 :=
  c.take off ++ l ++ c.drop (off + l.length)

theorem getElem?_splice {u l : List UInt8} {off : ℕ} (h : off ≤ u.length) (p : ℕ) :
    (splice u off l)[p]? =
      if p < off then u[p]? else if p < off + l.length then l[p - off]? else u[p]? := by
  have hlen : (u.take off).length = off := by
    rw [List.length_take]
    omega
  unfold splice
  split_ifs with h1 h2
  · rw [List.append_assoc, List.getElem?_append_left (by omega), List.getElem?_take, if_pos h1]
  · rw [List.append_assoc, List.getElem?_append_right (by omega), hlen,
      List.getElem?_append_left (by omega)]
  · rw [List.getElem?_append_right (by rw [List.length_append, hlen]; omega), List.length_append,
      hlen, List.getElem?_drop]
    congr 1
    omega

theorem length_splice {c l : List UInt8} {off : ℕ} (h : off ≤ c.length) :
    (splice c off l).length = max c.length (off + l.length) := by
  unfold splice
  rw [List.length_append, List.length_append, List.length_take, List.length_drop]
  omega

theorem bsize_pos : 0 < bsize := by decide

theorem div_add {off q : ℕ} (h : q < bsize - off % bsize) :
    (off + q) / bsize = off / bsize ∧ (off + q) % bsize = off % bsize + q := by
  unfold bsize at *
  omega

theorem View.Filled.has {v : View} {i p : ℕ} (h : v.Filled i) (hp : p < (v.din i).size) :
    v.file i (p / bsize) ≠ none := by
  refine h.file _ (lt_of_le_of_lt ?_ hp)
  exact Nat.div_mul_le_self p bsize

theorem View.byte_some {v : View} {i p : ℕ} {x : Block} (h : v.file i (p / bsize) = some x) :
    v.byte i p = x (p % bsize) := by
  unfold View.byte
  rw [h]
  rfl

variable {T : Type} {V : Env T} [DecidableEq T] {sb : Sb} {ly : Layout} {t : T} {s : St T V.X}
  {L : Finset ℕ} {ip : Ip}

/-! ## `readi` -/

/-- A piece of a block, byte by byte. -/
theorem bytes_eq {v : View} {i off m : ℕ} {x : Block} (hm : m ≤ bsize - off % bsize)
    (hx : v.file i (off / bsize) = some x) :
    bytes x (off % bsize) m = (List.range m).map fun q => v.byte i (off + q) := by
  refine List.map_congr_left fun q hq => ?_
  obtain ⟨h1, h2⟩ := div_add (show q < bsize - off % bsize by have := List.mem_range.1 hq; omega)
  rw [View.byte_some (by rw [h1]; exact hx), h2]

theorem readiFrom_does {n : ℕ} (fuel : ℕ) : ∀ {tot off : ℕ} {acc : List UInt8}, tot ≤ n →
    n - tot ≤ fuel →
    (∀ p, off ≤ p → p < off + (n - tot) → (s.view ip).file ip.inum (p / bsize) ≠ none) →
    Does sb ly t (readiFrom sb (fun _ => true) ip tot off n acc fuel) s L fun r s' L' =>
      r = ((n : ℤ), acc ++ (List.range (n - tot)).map fun q => (s.view ip).byte ip.inum (off + q), ip) ∧
        s' = s ∧ L' = L := by
  induction fuel with
  | zero =>
    intro tot off acc hle hf _
    have : n = tot := by omega
    refine .ret ⟨?_, rfl, rfl⟩
    rw [this, Nat.sub_self, List.range_zero, List.map_nil, List.append_nil]
  | succ fuel ih =>
    intro tot off acc hle hf hfile
    unfold readiFrom
    by_cases hlt : tot < n
    swap
    · rw [if_neg hlt]
      have : n = tot := by omega
      refine .ret ⟨?_, rfl, rfl⟩
      rw [this, Nat.sub_self, List.range_zero, List.map_nil, List.append_nil]
    rw [if_pos hlt]
    obtain ⟨hbn, h0⟩ := View.file_ne_none (hfile off le_rfl (by omega))
    have hx := View.file_some hbn h0
    rw [view_ref] at h0 hx
    refine .bind (bmap_hit hbn h0 ?_)
    show Does sb ly t (if refAt s.blk ip.d (slotOf (off / bsize)) = 0 then _ else _) s L _
    rw [if_neg h0]
    refine .act rfl ?_
    set m := min (n - tot) (bsize - off % bsize) with hm
    have hmod : off % bsize < bsize := Nat.mod_lt _ bsize_pos
    show Does sb ly t (readiFrom sb _ ip (tot + m) (off + m) n _ fuel) s (L ∪ ∅) _
    rw [Finset.union_empty]
    refine (ih (by omega) (by omega) fun p h1 h2 => hfile p (by omega) (by omega)).mono ?_
    rintro r s' L' ⟨rfl, rfl, rfl⟩
    refine ⟨?_, rfl, rfl⟩
    have hbytes := bytes_eq (m := m) (by omega) hx
    rw [show bytes (s'.blk (refAt s'.blk ip.d (slotOf (off / bsize)))) (off % bsize) m = _ from hbytes,
      show n - tot = m + (n - (tot + m)) by omega, List.range_add,
      List.map_append, List.map_map, List.append_assoc]
    simp only [Function.comp_def, Nat.add_assoc]

/-- A part of the content. -/
theorem View.content_slice (v : View) (i off n : ℕ) :
    ((v.content i).drop off).take n =
      (List.range (min n ((v.din i).size - off))).map fun q => v.byte i (off + q) := by
  refine List.ext_getElem? fun q => ?_
  unfold View.content
  rw [List.getElem?_take, List.getElem?_drop, List.getElem?_map, List.getElem?_map]
  by_cases hq : q < min n ((v.din i).size - off)
  · rw [if_pos (by omega), List.getElem?_range (by omega), List.getElem?_range hq]
    rfl
  · rw [List.getElem?_eq_none (l := List.range (min n _)) (by rw [List.length_range]; omega)]
    split_ifs with hn
    · rw [List.getElem?_eq_none (by rw [List.length_range]; omega)]
      rfl
    · rfl

@[simp] theorem length_content {v : View} {i : ℕ} : (v.content i).length = (v.din i).size := by
  simp [View.content]

/-- What `readi` returns for a file with content `c`. -/
def readResult (c : List UInt8) (off n : ℕ) : List UInt8 :=
  if off ≤ c.length ∧ off + n < 2 ^ 32 then (c.drop off).take n else []

/-- `readi` returns the bytes of the file from `off` on, `n` of them or as many as there are. -/
theorem readi_does (hf : (s.view ip).Filled ip.inum) (hr : s.reading t = false) {off n : ℕ}
    (hoff : off < 2 ^ 32) (hn : n < 2 ^ 32) :
    Does sb ly t (readi sb (fun _ => true) ip off n) s L fun r s' L' =>
      r = (((readResult ((s.view ip).content ip.inum) off n).length : ℤ),
        readResult ((s.view ip).content ip.inum) off n, ip) ∧ s' = s ∧ L' = L := by
  set s₁ : St T V.X := { s with reading := Function.update s.reading t true } with hs₁
  set n' := min n (ip.d.size - off) with hn'
  have hdin : ((s.view ip).din ip.inum).size = ip.d.size := by rw [view_din]
  have hend : { s₁ with reading := Function.update s₁.reading t false } = s := by
    show { s with reading := Function.update (Function.update s.reading t true) t false } = s
    rw [Function.update_idem, ← hr, Function.update_eq_self]
  refine .act rfl ?_
  show Does sb ly t (if ip.d.size < off ∨ (off + n) % 2 ^ 32 < off then _ else _) s₁ (L ∪ ∅) _
  rw [Finset.union_empty]
  unfold readResult
  rw [length_content, hdin]
  by_cases hok : off ≤ ip.d.size ∧ off + n < 2 ^ 32
  · rw [if_pos hok, if_neg (by omega)]
    refine .bind ((readiFrom_does n' (Nat.zero_le _) (Nat.sub_le _ _) fun p h1 h2 => ?_).mono ?_)
    · exact hf.has (by rw [hdin]; omega)
    · rintro r s' L' ⟨rfl, rfl, rfl⟩
      refine .act rfl (.ret ⟨?_, hend, Finset.union_empty _⟩)
      rw [View.content_slice, hdin, List.nil_append, List.length_map, List.length_range]
      rfl
  · rw [if_neg hok, if_pos (by omega)]
    exact .act rfl (.ret ⟨rfl, hend, Finset.union_empty _⟩)

end Xv6.Fs
