import Xv6.Fs.Blocks

/-!
# The inode table

`iget` and `iput` alone: `iget` finds the entry of an inode or takes an unused one, and `iput` drops
the reference again. `Stirred` says that two states differ in unused entries of the table only.
-/

namespace Xv6.Fs

open Function Xv6.Threads

variable {T X : Type} {sb : Sb} {ly : Layout} {t : T} {i : ℕ} {k : SlotId}

section

variable {s s' : St T X}

theorem inTable_some (h : s.inTable i = some k) : 0 < (s.inode k).ref ∧ (s.inode k).inum = i := by
  unfold St.inTable at h
  simpa using List.find?_some h

theorem inTable_none (h : s.inTable i = none) (k : SlotId) :
    ¬ (0 < (s.inode k).ref ∧ (s.inode k).inum = i) := by
  unfold St.inTable at h
  have := List.find?_eq_none.1 h k (List.mem_finRange k)
  simpa using this

theorem emptySlot_some (h : s.emptySlot = some k) : (s.inode k).ref = 0 := by
  unfold St.emptySlot at h
  simpa using List.find?_some h

theorem emptySlot_none (h : s.emptySlot = none) (k : SlotId) : (s.inode k).ref ≠ 0 := by
  unfold St.emptySlot at h
  have := List.find?_eq_none.1 h k (List.mem_finRange k)
  simpa using this

@[simp] theorem setInode_self (f : Inode T → Inode T) : (s.setInode k f).inode k = f (s.inode k) :=
  update_self ..

theorem setInode_ne {l : SlotId} (h : l ≠ k) (f : Inode T → Inode T) :
    (s.setInode k f).inode l = s.inode l := update_of_ne h ..

theorem setInode_setInode (f g : Inode T → Inode T) :
    (s.setInode k f).setInode k g = s.setInode k (g ∘ f) := by
  unfold St.setInode
  simp only [update_idem, update_self, Function.comp]

theorem setInode_id (f : Inode T → Inode T) (h : f (s.inode k) = s.inode k) : s.setInode k f = s := by
  unfold St.setInode
  rw [h, update_eq_self]

/-- What `iget` does: it finds the entry of the inode, or takes an unused one. -/
inductive Got (s : St T X) (i : ℕ) (k : SlotId) : St T X → Prop where
  | found (href : 0 < (s.inode k).ref) (hi : (s.inode k).inum = i) :
      Got s i k (s.setInode k fun ip => { ip with ref := ip.ref + 1 })
  | taken (hno : ∀ l, ¬ (0 < (s.inode l).ref ∧ (s.inode l).inum = i)) (href : (s.inode k).ref = 0) :
      Got s i k (s.setInode k fun ip => { ip with inum := i, ref := 1, valid := false })

theorem Got.inum (h : Got s i k s') :
    (s'.inode k).inum = i := by
  cases h with
  | found href hi =>
    rw [setInode_self]
    exact hi
  | taken hno href => rw [setInode_self]

/-- The states differ in unused entries of the inode table only. -/
structure Stirred (s s' : St T X) : Prop where
  rest : s' = { s with inode := s'.inode }
  inode : ∀ k, s'.inode k = s.inode k ∨
    (s.inode k).ref = 0 ∧ (s'.inode k).ref = 0 ∧ (s'.inode k).lock = (s.inode k).lock

theorem Stirred.refl (s : St T X) : Stirred s s := ⟨rfl, fun _ => .inl rfl⟩

end

variable {V : Env T} {s : St T V.X} {L : Finset ℕ} [DecidableEq T]

theorem iget_goes (i : ℕ) :
    Goes sb ly t (iget i : P V SlotId) s L (fun k s' L' => Got s i k s' ∧ L' = L) fun m s' =>
      m = "iget: no inodes" ∧ s' = s ∧ (∀ k, (s.inode k).ref ≠ 0) ∧ s.inTable i = none := by
  cases hi : s.inTable i with
  | some k =>
    obtain ⟨href, hinum⟩ := inTable_some hi
    refine .act (b := k) ?_ (.ret ⟨.found href hinum, Finset.union_empty _⟩)
    simp only [exec, execIget, hi]
  | none =>
    cases he : s.emptySlot with
    | some k =>
      refine .act (b := k) ?_ (.ret ⟨.taken (inTable_none hi) (emptySlot_some he),
        Finset.union_empty _⟩)
      simp only [exec, execIget, hi, he]
    | none =>
      refine .panics (m := "iget: no inodes") ?_ ⟨rfl, rfl, emptySlot_none he, rfl⟩
      simp only [exec, execIget, hi, he]

/-- `iput` of a reference that is not the last one to an inode without links. -/
theorem iput_drop (h : ¬ ((s.inode k).ref = 1 ∧ (s.inode k).valid ∧ (s.inode k).d.nlink = 0)) :
    Does sb ly t (iput k : P V Unit) s L fun _ s' L' =>
      s' = s.setInode k (fun ip => { ip with ref := ip.ref - 1 }) ∧ L' = L := by
  have he : exec sb (.iputBegin k) t s =
      .done none (s.setInode k fun ip => { ip with ref := ip.ref - 1 }) := by
    simp only [exec, execIputBegin, if_neg h]
  exact .act he (.ret ⟨rfl, Finset.union_empty _⟩)

theorem iput_got {s' : St T V.X} (h : Got s i k s') :
    Does sb ly t (iput k : P V Unit) s' L fun _ s'' L' => Stirred s s'' ∧ L' = L := by
  cases h with
  | found href hi =>
    refine (iput_drop ?_).mono ?_
    · rw [setInode_self]
      intro hc
      have : (s.inode k).ref + 1 = 1 := hc.1
      omega
    · rintro - s'' L' ⟨rfl, rfl⟩
      rw [setInode_setInode, setInode_id]
      · exact ⟨.refl s, rfl⟩
      · simp
  | taken hno href =>
    refine (iput_drop ?_).mono ?_
    · rw [setInode_self]
      intro hc
      exact absurd hc.2.1 Bool.false_ne_true
    · rintro - s'' L' ⟨rfl, rfl⟩
      rw [setInode_setInode]
      refine ⟨⟨rfl, fun l => ?_⟩, rfl⟩
      by_cases hl : l = k
      · subst hl
        rw [setInode_self]
        exact .inr ⟨href, rfl, rfl⟩
      · rw [setInode_ne hl]
        exact .inl rfl

end Xv6.Fs
