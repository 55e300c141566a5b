import Xv6.Fs.Directory

/-!
# A directory is a finite map

`dirlookup` finds what the entries say, `dirlink` adds a name, zeroing the entry that `dirlookup`
found removes it, and no sequence of these gives a name two entries.
-/

namespace Xv6.Fs

open Xv6.Threads

variable {T : Type} {V : Env T} {sb : Sb} {t : T} {s : St T V.X} {dp : Ip} {name : Name}

/-- A locked directory in which no name has two entries. -/
structure DirMap (sb : Sb) (t : T) (s : St T V.X) (dp : Ip) : Prop where
  isDir : IsDir sb s dp
  unique : Unique (s.dir dp)
  reading : s.reading t = false

/-- The view does not depend on the inode table. -/
theorem Stirred.dir {s' : St T V.X} (h : Stirred s s') : s'.dir dp = s.dir dp := by
  rw [h.rest]
  rfl

theorem Stirred.dirMap {s' : St T V.X} (h : Stirred s s') (hd : DirMap sb t s dp) :
    DirMap sb t s' dp := by
  rw [h.rest]
  exact ⟨⟨hd.isDir.wf, hd.isDir.type, hd.isDir.filled, hd.isDir.whole⟩, hd.unique, hd.reading⟩

/-- The map after `dirlink` or after an entry was zeroed. -/
def Maps (es es' : List Dirent) (name : Name) (r : Option ℕ) : Prop :=
  ∀ name', lookup es' name' = if key name' = key name then r else lookup es name'

variable {ly : Layout} {L L' : Finset ℕ} {s' : St T V.X} {ok : Bool} {dp' : Ip} {inum j : ℕ}

theorem Puts.length_le {es es' : List Dirent} {de : Dirent} (h : Puts es es' j de)
    (hj : j < es.length) : es'.length = es.length := by
  refine le_antisymm ?_ ?_
  · by_contra hc
    have := h es.length
    rw [if_neg (by omega), List.getElem?_eq_none le_rfl] at this
    rw [List.getElem?_eq_none_iff] at this
    omega
  · by_contra hc
    have := h es'.length
    rw [List.getElem?_eq_none le_rfl] at this
    split_ifs at this with he
    rw [eq_comm, List.getElem?_eq_none_iff] at this
    omega

/-- What `dirlink` does to the map. -/
theorem Linked.maps (h : Linked sb ly s dp name inum L (ok, dp') s' L') (hd : DirMap sb t s dp)
    (h0 : 0 < inum) (hi : inum < 2 ^ 16) :
    DirMap sb t s' dp' ∧
      (ok → lookup (s.dir dp) name = none ∧ Maps (s.dir dp) (s'.dir dp') name (some inum)) ∧
      (ok = false → s'.dir dp' = s.dir dp) ∧
      ((∃ x : ℕ, ∃ de : Dirent, (s.dir dp)[x]? = some de ∧ de.inum = 0) →
        (s'.dir dp').length = (s.dir dp).length) := by
  cases h with
  | present hne hs =>
    refine ⟨hs.dirMap hd, fun hc => absurd hc Bool.false_ne_true, fun _ => hs.dir, fun _ => ?_⟩
    rw [hs.dir]
  | full hnone => exact ⟨hd, fun hc => absurd hc Bool.false_ne_true, fun _ => rfl, fun _ => rfl⟩
  | @entered j _ _ _ _ hnone hj he =>
    have hmod : inum % 2 ^ 16 = inum := Nat.mod_eq_of_lt hi
    have hread : s'.reading t = false := by rw [he.written.reading, hd.reading]
    cases ok with
    | false =>
      have hsame := he.same rfl
      refine ⟨⟨he.isDir, by rw [hsame]; exact hd.unique, hread⟩,
        fun hc => absurd hc Bool.false_ne_true, fun _ => hsame, fun _ => by rw [hsame]⟩
    | true =>
      have hput := he.puts rfl
      rw [hmod, ofBytes_toBytes hi] at hput
      have hkey : key (strncpy name dirsiz) = key name := key_strncpy name
      refine ⟨⟨he.isDir, hput.unique_add hd.unique hnone hkey, hread⟩, fun _ => ⟨hnone, ?_⟩,
        fun hc => absurd hc.symm Bool.false_ne_true, ?_⟩
      · exact hput.lookup_add hd.unique hnone hkey h0.ne' hj.free
      · rintro ⟨x, de, hx, hde⟩
        apply hput.length_le
        by_contra hlt
        have hxlt : x < (s.dir dp).length := by
          by_contra hge
          rw [List.getElem?_eq_none (by omega)] at hx
          cases hx
        exact hj.used x (by omega) de hx hde

variable [DecidableEq T]

/-- What `dirlookup` returns, and that it panics only if the inode table is full. -/
theorem dirlookup_finds (h : DirMap sb t s dp) (name : Name) :
    Goes sb ⟨0, 0⟩ t (dirlookup sb dp name) s ∅ (fun r s' _ => r.2 = dp ∧
        r.1.map (fun x => (s'.inode x.1).inum) = lookup (s.dir dp) name ∧
        (∀ x, r.1 = some x → ∃ de, (s.dir dp)[x.2]? = some de ∧ de.Is name) ∧
        s' = { s with inode := s'.inode })
      fun _ _ => ∀ k, (s.inode k).ref ≠ 0 := by
  refine dirlookup_goes h.isDir h.reading (fun hnone => ?_) fun j de hde his => ?_
  · exact ⟨rfl, hnone.symm, fun x hx => absurd hx.symm (Option.some_ne_none x), rfl⟩
  · refine (iget_goes de.inum).mono ?_ fun m s' hE => hE.2.2.1
    rintro k s' L' ⟨hgot, -⟩
    refine ⟨rfl, ?_, ?_, ?_⟩
    · rw [Option.map_some, hgot.inum]
      exact ((lookup_eq_some h.unique).2 ⟨j, de, hde, his, rfl⟩).symm
    · rintro x hx
      obtain rfl := Option.some.inj hx
      exact ⟨de, hde, his⟩
    · cases hgot <;> rfl

/-- One operation on a directory: a `dirlink` that returns, or the removal of the entry that
`dirlookup` found. -/
inductive DirStep (sb : Sb) (t : T) : St T V.X × Ip → St T V.X × Ip → Prop where
  | link {s s' : St T V.X} {dp dp' : Ip} {name : Name} {inum : ℕ} {ok : Bool} (h0 : 0 < inum)
      (hi : inum < 2 ^ 16)
      (h : solo (exec sb) t (dirlink sb dp name inum) s = some ((ok, dp'), s')) :
      DirStep sb t (s, dp) (s', dp')
  | unlink {s s₁ s' : St T V.X} {dp dp₁ dp' : Ip} {name : Name} {k : SlotId} {j : ℕ} {ok : Bool}
      (h : solo (exec sb) t (dirlookup sb dp name) s = some ((some (k, j), dp₁), s₁))
      (h' : solo (exec sb) t (writeDirent sb dp₁ j .none) s₁ = some ((ok, dp'), s')) :
      DirStep sb t (s, dp) (s', dp')

/-- Zeroing the entry that `dirlookup` found. -/
theorem clear_does {s₁ : St T V.X} {dp₁ : Ip} {k : SlotId} (hd : DirMap sb t s dp)
    (h : solo (exec sb) t (dirlookup sb dp name) s = some ((some (k, j), dp₁), s₁)) :
    Does sb ⟨0, 0⟩ t (writeDirent sb dp₁ j .none) s₁ ∅ fun r s' _ =>
      r.1 ∧ DirMap sb t s' r.2 ∧ Maps (s.dir dp) (s'.dir r.2) name none ∧
        (s'.dir r.2).length = (s.dir dp).length := by
  obtain ⟨-, hdp, -, hentry, hs⟩ := (dirlookup_finds hd name).solo h
  obtain ⟨de, hde, his⟩ := hentry _ rfl
  simp only at hdp hde
  subst hdp
  have hd₁ : DirMap sb t s₁ dp₁ := by
    rw [hs]
    exact ⟨⟨hd.isDir.wf, hd.isDir.type, hd.isDir.filled, hd.isDir.whole⟩, hd.unique, hd.reading⟩
  have hdir : s₁.dir dp₁ = s.dir dp₁ := by rw [hs]; rfl
  have hj : j < (s₁.dir dp₁).length := by
    rw [hdir]
    by_contra hge
    rw [List.getElem?_eq_none (by omega)] at hde
    cases hde
  have hsize := lt_size hj
  have hle := hd₁.isDir.size_le
  have hwhole := hd₁.isDir.whole
  refine (writeDirent_does hd₁.isDir hj.le ?_ _).mono ?_
  · unfold direntSize maxFile bsize at *
    omega
  · rintro ⟨ok, dp'⟩ s' L' he
    have hok : ok := by
      cases ok with
      | true => rfl
      | false => exact absurd (he.full rfl) (hd₁.isDir.filled.has (by rw [view_din]; exact hsize))
    subst hok
    have hput := he.puts rfl
    rw [ofBytes_toBytes (by decide), hdir] at hput
    refine ⟨rfl, ⟨he.isDir, hput.unique_clear hd.unique rfl, ?_⟩, ?_, ?_⟩
    · rw [he.written.reading, hd₁.reading]
    · exact hput.lookup_clear hd.unique rfl hde his
    · rw [hdir] at hj
      exact hput.length_le hj

theorem DirStep.dirMap {x y : St T V.X × Ip} (h : DirStep sb t x y) (hd : DirMap sb t x.1 x.2) :
    DirMap sb t y.1 y.2 := by
  cases h with
  | @link s s' dp dp' name inum ok h0 hi h =>
    have hg : Goes sb ⟨0, 0⟩ t (dirlink sb dp name inum) s ∅ _ _ :=
      dirlink_goes hd.isDir hd.reading inum
    obtain ⟨L', hl⟩ := hg.solo h
    exact (hl.maps hd h0 hi).1
  | unlink h h' =>
    obtain ⟨r, s'', L', hs, hl⟩ := (clear_does hd h).solo
    rw [h'] at hs
    obtain ⟨rfl, rfl⟩ := Prod.mk.inj (Option.some.inj hs)
    exact hl.2.1

end Xv6.Fs
