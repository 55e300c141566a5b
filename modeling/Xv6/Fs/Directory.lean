import Xv6.Fs.ByteArray
import Xv6.Fs.Entries
import Xv6.Fs.Table

/-!
# Directories

The functions on directories alone: what they do to the entries. A directory entry never crosses the
end of a block, so that `writei` writes all of it or nothing.
-/

namespace Xv6.Fs

open Xv6.Threads

variable {T : Type} {V : Env T} {sb : Sb} {ly : Layout} {t : T} {s : St T V.X}
  {L : Finset ℕ} {dp : Ip} {name : Name} {j : ℕ}

/-- The entries of a directory, as the thread that has locked it sees them. -/
def St.dir {X : Type} (s : St T X) (dp : Ip) : List Dirent := entries ((s.view dp).content dp.inum)

/-- A locked directory with whole entries. -/
structure IsDir (sb : Sb) (s : St T V.X) (dp : Ip) : Prop where
  wf : (s.view dp).Wf sb
  type : dp.d.type = .dir
  filled : (s.view dp).Filled dp.inum
  whole : dp.d.size % direntSize = 0

theorem length_dir {X : Type} {s : St T X} : (s.dir dp).length = dp.d.size / direntSize := by
  unfold St.dir
  rw [length_entries, length_content, view_din]

theorem lt_size {X : Type} {s : St T X} (hj : j < (s.dir dp).length) :
    j * direntSize < dp.d.size := by
  rw [length_dir] at hj
  unfold direntSize at *
  omega

namespace IsDir

variable (h : IsDir sb s dp)
include h

theorem live : dp.d.type ≠ .free := by
  rw [h.type]
  decide

theorem size_le : dp.d.size ≤ maxFile * bsize := by
  have := h.filled.size_le
  rwa [view_din] at this

theorem lt_length (hj : j * direntSize < dp.d.size) : j < (s.dir dp).length := by
  rw [length_dir]
  have := h.whole
  unfold direntSize at *
  omega

end IsDir

/-! ## What writing an entry does -/

/-- The bytes of an entry, as a source for `writei`. -/
abbrev Dirent.src (de : Dirent) : ℕ → Option UInt8 := fun p => de.toBytes[p]?

theorem src_ne_none {de : Dirent} {p : ℕ} (hp : p < direntSize) : de.src p ≠ none := by
  have : p < de.toBytes.length := by rwa [length_toBytes]
  show de.toBytes[p]? ≠ none
  rw [List.getElem?_eq_getElem this]
  exact Option.some_ne_none _

theorem cleanFault_src {de : Dirent} {off size : ℕ} : CleanFault de.src off direntSize size :=
  fun _ hp hnone _ => absurd hnone (src_ne_none hp)

theorem range_src (de : Dirent) :
    ((List.range direntSize).map fun q => (de.src q).getD 0) = de.toBytes := by
  refine List.ext_getElem? fun p => ?_
  rw [List.getElem?_map]
  by_cases hp : p < direntSize
  · have : p < de.toBytes.length := by rwa [length_toBytes]
    rw [List.getElem?_range hp, List.getElem?_eq_getElem this]
    show some ((de.toBytes[p]?).getD 0) = _
    rw [List.getElem?_eq_getElem this]
    rfl
  · rw [List.getElem?_eq_none (by rw [List.length_range]; omega),
      List.getElem?_eq_none (by rw [length_toBytes]; omega)]
    rfl

/-- What writing entry `j` of a directory does: all of the entry is written, or nothing. -/
structure Entered (sb : Sb) (ly : Layout) (s : St T V.X) (dp : Ip) (j : ℕ) (de : Dirent)
    (L : Finset ℕ) (ok : Bool) (dp' : Ip) (s' : St T V.X) (L' : Finset ℕ) : Prop where
  written : Written sb ly de.src (j * direntSize) direntSize s dp L (if ok then direntSize else 0)
    dp' s' L'
  isDir : IsDir sb s' dp'
  full : ok = false → (s.view dp).file dp.inum (j * direntSize / bsize) = none
  puts : ok → Puts (s.dir dp) (s'.dir dp') j (.ofBytes de.toBytes)
  same : ok = false → s'.dir dp' = s.dir dp

variable (h : IsDir sb s dp)

include h

theorem Written.entered {de : Dirent} {tot : ℕ} {dp' : Ip} {s' : St T V.X} {L' : Finset ℕ}
    (hj : j ≤ (s.dir dp).length)
    (hw : Written sb ly de.src (j * direntSize) direntSize s dp L tot dp' s' L') :
    Entered sb ly s dp j de L (decide (tot = direntSize)) dp' s' L' := by
  have hwhole := h.whole
  have hlen : (s.dir dp).length = _ := length_dir
  have hoff : j * direntSize ≤ dp.d.size := by
    unfold direntSize at *
    omega
  -- the entry does not cross the end of a block
  have htot : tot = 0 ∨ tot = direntSize := by
    by_contra hc
    have hle := hw.le
    have := (hw.stop (by omega)).2
    unfold direntSize bsize at *
    omega
  have hcontent := hw.content hoff cleanFault_src
  have hclen : ((s.view dp).content dp.inum).length = dp.d.size := by rw [length_content, view_din]
  have hfields := hw.fields
  have hsize : dp'.d.size = max dp.d.size (j * direntSize + tot) := by rw [hfields]
  refine
    { written := ?_
      isDir := ?_
      full := fun hok => ?_
      puts := fun hok => ?_
      same := fun hok => ?_ }
  · rcases htot with rfl | rfl
    · exact hw
    · exact hw
  · refine ⟨hw.wf, by rw [hfields]; exact h.type, by rw [hw.inum]; exact hw.filled, ?_⟩
    rw [hsize]
    rcases htot with rfl | rfl
    · rw [Nat.add_zero, max_eq_left hoff]
      exact hwhole
    · unfold direntSize at *
      omega
  · have hne : tot ≠ direntSize := by simpa using hok
    have hlt : tot < direntSize := lt_of_le_of_ne hw.le hne
    rcases (hw.stop hlt).1 with ⟨-, hfull⟩ | ⟨k, hk, hnone⟩
    · rwa [show tot = 0 by omega, Nat.add_zero] at hfull
    · exact absurd hnone (src_ne_none (by omega))
  · have he : tot = direntSize := by simpa using hok
    subst he
    unfold St.dir
    rw [hw.inum, hcontent, range_src]
    exact puts_splice (length_toBytes de) (by rw [hclen]; exact hwhole) (by rw [hclen]; exact hoff)
  · have he : tot = 0 := by
      have hne : tot ≠ direntSize := by simpa using hok
      omega
    subst he
    unfold St.dir
    rw [hw.inum, hcontent]
    unfold splice
    simp

variable [DecidableEq T]

/-! ## Reading entries -/

theorem readDirent_does (hr : s.reading t = false) (msg : String) (hj : j < (s.dir dp).length) :
    Does sb ly t (readDirent sb msg dp j) s L fun r s' L' =>
      (s.dir dp)[j]? = some r.1 ∧ r.2 = dp ∧ s' = s ∧ L' = L := by
  have hlen : (s.dir dp).length = _ := length_dir
  have hwhole := h.whole
  have hle := h.size_le
  have hmax : maxFile * bsize < 2 ^ 31 := by decide
  set c := (s.view dp).content dp.inum with hc
  have hclen : c.length = dp.d.size := by rw [hc, length_content, view_din]
  have hj' : j * direntSize + direntSize ≤ c.length := by
    unfold direntSize at *
    omega
  have hres : readResult c (j * direntSize) direntSize =
      (c.drop (j * direntSize)).take direntSize := by
    unfold readResult
    rw [if_pos]
    unfold direntSize at *
    omega
  have hreslen : (readResult c (j * direntSize) direntSize).length = direntSize := by
    rw [hres, List.length_take, List.length_drop]
    omega
  refine .bind ((readi_does h.filled hr (by omega) (by decide)).mono ?_)
  rintro r s' L' ⟨rfl, rfl, rfl⟩
  show Does sb ly t (if ((readResult c _ _).length : ℤ) = direntSize then _ else _) _ _ _
  rw [if_pos (by rw [hreslen])]
  refine .ret ⟨?_, rfl, rfl, rfl⟩
  show (entries c)[j]? = some (Dirent.ofBytes (readResult c _ _))
  rw [hres, getElem?_entries]
  rw [hclen, ← hlen]
  exact hj

/-- `dirlookup` gets the inode of the first entry with the name. -/
theorem dirlookupFrom_goes (hr : s.reading t = false)
    {Q : Option (SlotId × ℕ) × Ip → St T V.X → Finset ℕ → Prop} {E : String → St T V.X → Prop}
    (hnone : lookup (s.dir dp) name = none → Q (none, dp) s L)
    (hsome : ∀ j de, (s.dir dp)[j]? = some de → de.Is name →
      Goes sb ly t (iget de.inum : P V SlotId) s L (fun k s' L' => Q (some (k, j), dp) s' L') E)
    (fuel : ℕ) : ∀ {j : ℕ}, (s.dir dp).length - j < fuel →
      (∀ x < j, ∀ de, (s.dir dp)[x]? = some de → ¬ de.Is name) →
      Goes sb ly t (dirlookupFrom sb dp name j fuel) s L Q E := by
  induction fuel with
  | zero => exact fun hf => absurd hf (Nat.not_lt_zero _)
  | succ fuel ih =>
    intro j hf hbefore
    unfold dirlookupFrom
    by_cases hj : j * direntSize < dp.d.size
    · have hlt := h.lt_length hj
      rw [if_pos hj]
      refine .bind (((readDirent_does h hr _ hlt).goes).mono ?_ fun m s' hE => hE)
      rintro ⟨de, dp'⟩ s' L' ⟨hde, rfl, rfl, rfl⟩
      have hnext : ¬ de.Is name → Goes sb ly t (dirlookupFrom sb dp' name (j + 1) fuel) s' L' Q E := by
        intro hno
        refine ih (by omega) fun x hx de' hx' => ?_
        by_cases hxj : x = j
        · rw [hxj] at hx'
          obtain rfl := Option.some.inj (hde.symm.trans hx')
          exact hno
        · exact hbefore x (by omega) de' hx'
      show Goes sb ly t (if de.inum = 0 then _ else if namecmp name de.name = 0 then _ else _) s' L' Q E
      split_ifs with h0 h1
      · exact hnext fun his => his.1 h0
      · exact .bind ((hsome j de hde ⟨h0, h1⟩).mono (fun k s' L' hQ => .ret hQ) fun _ _ hE => hE)
      · exact hnext fun his => h1 his.2
    · rw [if_neg hj]
      refine .ret (hnone (lookup_eq_none.2 fun x de hx => hbefore x ?_ de hx))
      by_contra hxj
      have hlt : x < (s.dir dp).length := by
        by_contra hge
        rw [List.getElem?_eq_none (by omega)] at hx
        cases hx
      have := lt_size hlt
      unfold direntSize at *
      omega

theorem dirlookup_goes (hr : s.reading t = false)
    {Q : Option (SlotId × ℕ) × Ip → St T V.X → Finset ℕ → Prop} {E : String → St T V.X → Prop}
    (hnone : lookup (s.dir dp) name = none → Q (none, dp) s L)
    (hsome : ∀ j de, (s.dir dp)[j]? = some de → de.Is name →
      Goes sb ly t (iget de.inum : P V SlotId) s L (fun k s' L' => Q (some (k, j), dp) s' L') E) :
    Goes sb ly t (dirlookup sb dp name) s L Q E := by
  unfold dirlookup
  rw [if_pos h.type]
  refine dirlookupFrom_goes h hr hnone hsome _ ?_ fun x hx => absurd hx (Nat.not_lt_zero _)
  rw [length_dir]
  unfold direntSize
  omega

/-- The first `j` entries are in use, and entry `j` is free or the next one. -/
structure FreeAt (es : List Dirent) (j : ℕ) : Prop where
  le : j ≤ es.length
  used : ∀ x < j, ∀ de, es[x]? = some de → de.inum ≠ 0
  free : ∀ de, es[j]? = some de → de.inum = 0

/-- `dirlink` looks for a free entry. -/
theorem emptyDirentFrom_does (hr : s.reading t = false) (fuel : ℕ) :
    ∀ {j : ℕ}, (s.dir dp).length - j < fuel → j ≤ (s.dir dp).length →
      (∀ x < j, ∀ de, (s.dir dp)[x]? = some de → de.inum ≠ 0) →
      Does sb ly t (emptyDirentFrom sb dp j fuel) s L fun r s' L' =>
        FreeAt (s.dir dp) r.1 ∧ r.2 = dp ∧ s' = s ∧ L' = L := by
  induction fuel with
  | zero => exact fun hf => absurd hf (Nat.not_lt_zero _)
  | succ fuel ih =>
    intro j hf hle hused
    unfold emptyDirentFrom
    by_cases hj : j * direntSize < dp.d.size
    · have hlt := h.lt_length hj
      rw [if_pos hj]
      refine .bind ((readDirent_does h hr _ hlt).mono ?_)
      rintro ⟨de, dp'⟩ s' L' ⟨hde, rfl, rfl, rfl⟩
      show Does sb ly t (if de.inum = 0 then _ else _) s' L' _
      split_ifs with h0
      · refine .ret ⟨⟨hle, hused, fun de' hde' => ?_⟩, rfl, rfl, rfl⟩
        obtain rfl := Option.some.inj (hde.symm.trans hde')
        exact h0
      · refine ih (by omega) hlt fun x hx de' hx' => ?_
        by_cases hxj : x = j
        · rw [hxj] at hx'
          obtain rfl := Option.some.inj (hde.symm.trans hx')
          exact h0
        · exact hused x (by omega) de' hx'
    · rw [if_neg hj]
      refine .ret ⟨⟨hle, hused, fun de hde => ?_⟩, rfl, rfl, rfl⟩
      have hlt : j < (s.dir dp).length := by
        by_contra hge
        rw [List.getElem?_eq_none (by omega)] at hde
        cases hde
      exact absurd (lt_size hlt) hj

theorem writeDirent_does (hj : j ≤ (s.dir dp).length)
    (hmax : j * direntSize + direntSize ≤ maxFile * bsize) (de : Dirent) :
    Does sb ly t (writeDirent sb dp j de) s L fun r s' L' =>
      Entered sb ly s dp j de L r.1 r.2 s' L' := by
  have hlen : (s.dir dp).length = _ := length_dir
  refine .bind ((writei_does h.wf h.live h.filled ?_ hmax).mono ?_)
  · unfold direntSize at *
    omega
  · rintro ⟨r, dp'⟩ s' L' ⟨tot, rfl, hw⟩
    refine .ret ?_
    have := Written.entered h hj hw
    show Entered sb ly s dp j de L (decide ((tot : ℤ) = direntSize)) dp' s' L'
    simpa only [Nat.cast_inj] using this

theorem writeDirent_rejects (hj : j ≤ (s.dir dp).length)
    (hmax : maxFile * bsize < j * direntSize + direntSize) (de : Dirent) :
    Does sb ly t (writeDirent sb dp j de) s L fun r s' L' =>
      r = (false, dp) ∧ s' = s ∧ L' = L := by
  have hlen : (s.dir dp).length = _ := length_dir
  have hle := h.size_le
  have hm : maxFile * bsize < 2 ^ 31 := by decide
  refine .bind ((writei_rejects ?_ (by decide) (.inr (.inr hmax))).mono ?_)
  · unfold direntSize at *
    omega
  · rintro r s' L' ⟨rfl, rfl, rfl⟩
    exact .ret ⟨rfl, rfl, rfl⟩

/-! ## `dirlink` -/

/-- What `dirlink` does: nothing if the name is there or if the directory is full; otherwise it writes
an entry in the first free place, if the disk is not full. -/
inductive Linked (sb : Sb) (ly : Layout) (s : St T V.X) (dp : Ip) (name : Name) (inum : ℕ)
    (L : Finset ℕ) : Bool × Ip → St T V.X → Finset ℕ → Prop where
  | present {s' : St T V.X} (h : lookup (s.dir dp) name ≠ none) (hs : Stirred s s') :
      Linked sb ly s dp name inum L (false, dp) s' L
  | full (h : lookup (s.dir dp) name = none) : Linked sb ly s dp name inum L (false, dp) s L
  | entered {j : ℕ} {ok : Bool} {dp' : Ip} {s' : St T V.X} {L' : Finset ℕ}
      (h : lookup (s.dir dp) name = none) (hj : FreeAt (s.dir dp) j)
      (he : Entered sb ly s dp j ⟨inum % 2 ^ 16, name⟩ L ok dp' s' L') :
      Linked sb ly s dp name inum L (ok, dp') s' L'

theorem dirlink_goes (hr : s.reading t = false) (inum : ℕ) :
    Goes sb ly t (dirlink sb dp name inum) s L (Linked sb ly s dp name inum L) fun m s' =>
      m = "iget: no inodes" ∧ s' = s ∧ ∀ k, (s.inode k).ref ≠ 0 := by
  refine .bind (dirlookup_goes h hr (fun hnone => ?_) fun j de hde his => ?_)
  · refine .bind ((emptyDirentFrom_does h hr _ ?_ (Nat.zero_le _) fun x hx =>
      absurd hx (Nat.not_lt_zero _)).goes.mono ?_ fun _ _ hE => hE)
    · rw [length_dir]
      unfold direntSize
      omega
    · rintro ⟨j, dp'⟩ s' L' ⟨hj, rfl, rfl, rfl⟩
      by_cases hmax : j * direntSize + direntSize ≤ maxFile * bsize
      · refine (writeDirent_does h hj.le hmax _).goes.mono ?_ fun _ _ hE => hE
        exact fun r s' L' he => .entered hnone hj he
      · refine (writeDirent_rejects h hj.le (not_le.1 hmax) _).goes.mono ?_ fun _ _ hE => hE
        rintro r s' L' ⟨rfl, rfl, rfl⟩
        exact .full hnone
  · refine (iget_goes de.inum).mono ?_ fun m s' hE => ⟨hE.1, hE.2.1, hE.2.2.1⟩
    rintro k s' L' ⟨hgot, rfl⟩
    refine .bind ((iput_got hgot).goes.mono ?_ fun _ _ hE => hE)
    rintro - s'' L'' ⟨hs, rfl⟩
    refine .ret (.present (fun hnone => ?_) hs)
    exact lookup_eq_none.1 hnone j de hde his

end Xv6.Fs
