import Xv6.Fs.DirMap

/-!
# Inodes in hand

A well-formed file system that one thread works on alone. `Sound` is about the disk: blocks are not
shared, files have no holes, directories have whole entries that name allocated inodes. `Held` is
about the inode table: it holds what it held before, and the references and the locks that the
thread has gained since. `Kept` says that no allocated inode is waiting to be freed, so that a
reference that the thread gained can be dropped again.
-/

namespace Xv6.Fs

open Function Finset Xv6.Threads

variable {T X : Type} {sb : Sb} {t : T} {i : ℕ} {k : SlotId}

/-! ## The disk -/

def St.disk (s : St T X) : View := ⟨s.bit, s.blk, s.din⟩

def View.dir (v : View) (i : ℕ) : List Dirent := entries (v.content i)

/-- A well-formed file system. -/
structure Sound (sb : Sb) (v : View) : Prop where
  wf : v.Wf sb
  filled : ∀ i, v.Live i → v.Filled i
  whole : ∀ i, (v.din i).type = .dir → (v.din i).size % direntSize = 0
  unique : ∀ i, (v.din i).type = .dir → Unique (v.dir i)
  entry : ∀ i, (v.din i).type = .dir → ∀ de ∈ v.dir i, de.inum ≠ 0 → v.Live de.inum
  root : (v.din rootIno).type = .dir

theorem live_of_dir {v : View} (h : (v.din i).type = .dir) : v.Live i := by
  unfold View.Live
  rw [h]
  decide

/-- Every allocated inode has a link, or the table `tab` has a reference to it. -/
def Kept (tab : SlotId → Inode T) (v : View) : Prop :=
  ∀ i, v.Live i → (v.din i).nlink ≠ 0 ∨ ∃ k, 0 < (tab k).ref ∧ (tab k).inum = i

/-- The inode of entry `k`, as `ilock` returns it. -/
def St.ip (s : St T X) (k : SlotId) : Ip := ⟨k, (s.inode k).inum, s.din (s.inode k).inum⟩

section

variable {s s' : St T X}

/-- A thread that has locked an inode and not changed it sees what is on the disk. -/
theorem view_eq_disk {ip : Ip} (h : ip.d = s.din ip.inum) : s.view ip = s.disk := by
  unfold St.view St.disk
  rw [h, update_eq_self]

theorem view_ip : s.view (s.ip k) = s.disk := view_eq_disk rfl

theorem dir_ip : s.dir (s.ip k) = s.disk.dir (s.inode k).inum := by
  unfold St.dir View.dir
  rw [view_ip]
  rfl

theorem ip_congr (hi : (s'.inode k).inum = (s.inode k).inum)
    (hd : s'.din = s.din) : s'.ip k = s.ip k := by
  unfold St.ip
  rw [hi, hd]

/-- The states differ in the inode table only. -/
def OnlyTable (s s' : St T X) : Prop := s' = { s with inode := s'.inode }

theorem OnlyTable.refl (s : St T X) : OnlyTable s s := rfl

theorem OnlyTable.trans {s₁ s₂ s₃ : St T X} (h : OnlyTable s₁ s₂) (h' : OnlyTable s₂ s₃) :
    OnlyTable s₁ s₃ := by
  unfold OnlyTable at *
  rw [h', h]

theorem inum_setInode {f : Inode T → Inode T} (hf : (f (s.inode k)).inum = (s.inode k).inum)
    (l : SlotId) : ((s.setInode k f).inode l).inum = (s.inode l).inum := by
  by_cases hl : l = k
  · rw [hl, setInode_self, hf]
  · rw [setInode_ne hl]

theorem OnlyTable.disk (h : OnlyTable s s') : s'.disk = s.disk := by
  rw [h]
  rfl

theorem OnlyTable.din (h : OnlyTable s s') : s'.din = s.din := by rw [h]

/-- What neither the disk nor the inode table holds has not changed. -/
structure Elsewhere (s s' : St T X) : Prop where
  op : s'.op = s.op
  reading : s'.reading = s.reading
  tables : s'.tables = s.tables

theorem Elsewhere.refl (s : St T X) : Elsewhere s s := ⟨rfl, rfl, rfl⟩

theorem Elsewhere.trans {s₁ s₂ s₃ : St T X} (h : Elsewhere s₁ s₂) (h' : Elsewhere s₂ s₃) :
    Elsewhere s₁ s₃ :=
  ⟨h'.op.trans h.op, h'.reading.trans h.reading, h'.tables.trans h.tables⟩

theorem OnlyTable.elsewhere {s s' : St T X} (h : OnlyTable s s') : Elsewhere s s' := by
  rw [h]
  exact ⟨rfl, rfl, rfl⟩

end

theorem Sound.isDir {V : Env T} {s : St T V.X} (h : Sound sb s.disk)
    (hk : (s.din (s.inode k).inum).type = .dir) : IsDir sb s (s.ip k) where
  wf := by
    rw [view_ip]
    exact h.wf
  type := hk
  filled := by
    rw [view_ip]
    exact h.filled _ (live_of_dir hk)
  whole := h.whole _ hk

/-! ## The inode table -/

/-- The table of `s` is the table `tab`, with `c k` more references to entry `k`. The entries in `Λ`
are locked by `t`; the others are not locked, and agree with the disk. -/
structure Held (t : T) (tab : SlotId → Inode T) (c : SlotId → ℕ) (Λ : Finset SlotId) (s : St T X) :
    Prop where
  nonneg : ∀ k, 0 ≤ (tab k).ref
  ref : ∀ k, (s.inode k).ref = (tab k).ref + c k
  inum : ∀ k, 0 < (tab k).ref → (s.inode k).inum = (tab k).inum
  lock : ∀ k, (s.inode k).lock = if k ∈ Λ then some t else none
  locked : ∀ k ∈ Λ, 0 < (s.inode k).ref ∧ (s.inode k).valid = true
  once : ∀ k l, 0 < (s.inode k).ref → 0 < (s.inode l).ref → (s.inode k).inum = (s.inode l).inum →
    k = l
  live : ∀ k, 0 < (s.inode k).ref → s.disk.Live (s.inode k).inum
  synced : ∀ k ∉ Λ, 0 < (s.inode k).ref → (s.inode k).valid →
    (s.inode k).d = s.din (s.inode k).inum
  reading : s.reading t = false

variable {tab : SlotId → Inode T} {c c' : SlotId → ℕ} {Λ Λ' : Finset SlotId}

namespace Held

variable {s s' : St T X}

variable (h : Held t tab c Λ s)

include h

theorem nonneg' (k : SlotId) : 0 ≤ (s.inode k).ref := by
  have := h.nonneg k
  rw [h.ref k]
  omega

omit h in
theorem pos (h : Held t tab (c + Pi.single k 1) Λ s) : 0 < (s.inode k).ref := by
  have := h.nonneg k
  rw [h.ref k, Pi.add_apply, Pi.single_eq_same]
  omega

theorem pos_of (hk : 0 < (tab k).ref) : 0 < (s.inode k).ref := by
  rw [h.ref k]
  omega

/-- The same table, seen from the present. -/
theorem rebase : Held t s.inode 0 Λ s where
  nonneg := h.nonneg'
  ref k := by simp
  inum _ _ := rfl
  lock := h.lock
  locked := h.locked
  once := h.once
  live := h.live
  synced := h.synced
  reading := h.reading

theorem kept {v : View} (hk : Kept tab v) : Kept s.inode v := by
  intro i hi
  rcases hk i hi with hn | ⟨k, hpos, hik⟩
  · exact .inl hn
  · exact .inr ⟨k, h.pos_of hpos, (h.inum k hpos).trans hik⟩

omit h in
/-- An inode with no links has a reference that was there before. -/
theorem not_last (h : Held t tab (c + Pi.single k 1) Λ s) (hkept : Kept tab s.disk) (hk : k ∉ Λ) :
    ¬ ((s.inode k).ref = 1 ∧ (s.inode k).valid ∧ (s.inode k).d.nlink = 0) := by
  rintro ⟨hone, hv, hn⟩
  have hpos := h.pos
  rw [h.synced k hk hpos hv] at hn
  have href := h.ref k
  rw [Pi.add_apply, Pi.single_eq_same] at href
  have hnn := h.nonneg k
  rcases hkept _ (h.live k hpos) with hne | ⟨l, hl, hli⟩
  · exact hne hn
  · obtain rfl := h.once l k (h.pos_of hl) hpos ((h.inum l hl).trans hli)
    omega

/-- Entry `k` is replaced, with the same number and the same number of references. -/
theorem setInode {f : Inode T → Inode T} (href : (f (s.inode k)).ref = (s.inode k).ref)
    (hinum : (f (s.inode k)).inum = (s.inode k).inum)
    (hlock : ∀ l, (if l = k then (f (s.inode k)).lock else (s.inode l).lock) =
      if l ∈ Λ' then some t else none) (hlocked : ∀ l ∈ Λ', l ≠ k → l ∈ Λ)
    (hk : k ∈ Λ' → 0 < (s.inode k).ref ∧ (f (s.inode k)).valid)
    (hother : ∀ l ∉ Λ', l ≠ k → l ∉ Λ)
    (hsync : k ∉ Λ' → 0 < (s.inode k).ref → (f (s.inode k)).valid →
      (f (s.inode k)).d = s.din (s.inode k).inum) : Held t tab c Λ' (s.setInode k f) := by
  have hr : ∀ l, ((s.setInode k f).inode l).ref = (s.inode l).ref := by
    intro l
    by_cases hl : l = k
    · rw [hl, setInode_self, href]
    · rw [setInode_ne hl]
  have hi : ∀ l, ((s.setInode k f).inode l).inum = (s.inode l).inum := inum_setInode hinum
  refine
    { nonneg := h.nonneg
      ref := fun l => by rw [hr, h.ref]
      inum := fun l hl => by rw [hi, h.inum l hl]
      lock := fun l => ?_
      locked := fun l hl => ?_
      once := fun a b ha hb hab => ?_
      live := fun l hl => ?_
      synced := fun l hl hpos hv => ?_
      reading := h.reading }
  · rw [← hlock l]
    by_cases hl : l = k
    · rw [if_pos hl, hl, setInode_self]
    · rw [if_neg hl, setInode_ne hl]
  · rw [hr]
    by_cases hlk : l = k
    · rw [hlk] at hl ⊢
      rw [setInode_self]
      exact hk hl
    · rw [setInode_ne hlk]
      exact h.locked l (hlocked l hl hlk)
  · rw [hr] at ha hb
    rw [hi, hi] at hab
    exact h.once a b ha hb hab
  · rw [hr] at hl
    rw [hi]
    exact h.live l hl
  · rw [hr] at hpos
    by_cases hlk : l = k
    · rw [hlk] at hl hpos hv ⊢
      rw [setInode_self] at hv ⊢
      rw [hinum]
      exact hsync hl hpos hv
    · rw [setInode_ne hlk] at hv ⊢
      exact h.synced l (hother l hl hlk) hpos hv

theorem setRef {f : Inode T → Inode T} (hc : ∀ l ≠ k, c' l = c l)
    (href : (f (s.inode k)).ref = (tab k).ref + c' k) (hpos : 0 < (s.inode k).ref)
    (hinum : (f (s.inode k)).inum = (s.inode k).inum)
    (hlock : (f (s.inode k)).lock = (s.inode k).lock)
    (hvalid : (f (s.inode k)).valid = (s.inode k).valid) (hd : (f (s.inode k)).d = (s.inode k).d)
    (hΛ : k ∈ Λ → 0 < (f (s.inode k)).ref) : Held t tab c' Λ (s.setInode k f) := by
  have hi : ∀ l, ((s.setInode k f).inode l).inum = (s.inode l).inum := inum_setInode hinum
  have hused : ∀ l, 0 < ((s.setInode k f).inode l).ref → 0 < (s.inode l).ref := by
    intro l hl
    by_cases hlk : l = k
    · rw [hlk]
      exact hpos
    · rwa [setInode_ne hlk] at hl
  refine
    { nonneg := h.nonneg
      ref := fun l => ?_
      inum := fun l hl => by rw [hi, h.inum l hl]
      lock := fun l => ?_
      locked := fun l hl => ?_
      once := fun a b ha hb hab => ?_
      live := fun l hl => ?_
      synced := fun l hl hp hv => ?_
      reading := h.reading }
  · by_cases hlk : l = k
    · rw [hlk, setInode_self, href]
    · rw [setInode_ne hlk, h.ref l, hc l hlk]
  · by_cases hlk : l = k
    · rw [hlk, setInode_self, hlock, h.lock]
    · rw [setInode_ne hlk, h.lock]
  · by_cases hlk : l = k
    · rw [hlk] at hl ⊢
      rw [setInode_self, hvalid]
      exact ⟨hΛ hl, (h.locked k hl).2⟩
    · rw [setInode_ne hlk]
      exact h.locked l hl
  · rw [hi, hi] at hab
    exact h.once a b (hused a ha) (hused b hb) hab
  · rw [hi]
    exact h.live l (hused l hl)
  · rw [hi]
    have hp' := hused l hp
    by_cases hlk : l = k
    · rw [hlk] at hl hv hp' ⊢
      rw [setInode_self, hvalid] at hv
      rw [setInode_self, hd]
      exact h.synced k hl hp' hv
    · rw [setInode_ne hlk] at hv ⊢
      exact h.synced l hl hp' hv

theorem take (href : (s.inode k).ref = 0) (hi : s.disk.Live i)
    (hno : ∀ l, ¬ (0 < (s.inode l).ref ∧ (s.inode l).inum = i)) :
    Held t tab (c + Pi.single k 1) Λ
      (s.setInode k fun ip => { ip with inum := i, ref := 1, valid := false }) := by
  have hr := h.ref k
  have hn := h.nonneg k
  have htab : (tab k).ref = 0 := by omega
  have hck : c k = 0 := by omega
  have hkΛ : k ∉ Λ := by
    intro hk
    have := (h.locked k hk).1
    omega
  refine
    { nonneg := h.nonneg
      ref := fun l => ?_
      inum := fun l hl => ?_
      lock := fun l => ?_
      locked := fun l hl => ?_
      once := fun a b ha hb hab => ?_
      live := fun l hl => ?_
      synced := fun l hl hp hv => ?_
      reading := h.reading }
  · by_cases hlk : l = k
    · rw [hlk, setInode_self, Pi.add_apply, Pi.single_eq_same, htab, hck]
      rfl
    · rw [setInode_ne hlk, h.ref l, Pi.add_apply, Pi.single_eq_of_ne hlk, Nat.add_zero]
  · have hlk : l ≠ k := by
      rintro rfl
      omega
    rw [setInode_ne hlk]
    exact h.inum l hl
  · by_cases hlk : l = k
    · rw [hlk, setInode_self, ← h.lock k]
    · rw [setInode_ne hlk, h.lock]
  · have hlk : l ≠ k := by
      rintro rfl
      exact hkΛ hl
    rw [setInode_ne hlk]
    exact h.locked l hl
  · by_cases hak : a = k
    · by_cases hbk : b = k
      · rw [hak, hbk]
      · rw [hak, setInode_self, setInode_ne hbk] at hab
        rw [setInode_ne hbk] at hb
        exact absurd ⟨hb, hab.symm⟩ (hno b)
    · by_cases hbk : b = k
      · rw [hbk, setInode_self, setInode_ne hak] at hab
        rw [setInode_ne hak] at ha
        exact absurd ⟨ha, hab⟩ (hno a)
      · rw [setInode_ne hak] at ha hab
        rw [setInode_ne hbk] at hb hab
        exact h.once a b ha hb hab
  · by_cases hlk : l = k
    · rw [hlk, setInode_self]
      exact hi
    · rw [setInode_ne hlk] at hl ⊢
      exact h.live l hl
  · by_cases hlk : l = k
    · rw [hlk, setInode_self] at hv
      exact absurd hv Bool.false_ne_true
    · rw [setInode_ne hlk] at hp hv ⊢
      exact h.synced l hl hp hv

omit h

theorem setOp (h : Held t tab c Λ s) (f : T → ℤ) : Held t tab c Λ { s with op := f } :=
  ⟨h.nonneg, h.ref, h.inum, h.lock, h.locked, h.once, h.live, h.synced, h.reading⟩

end Held

/-! ## A file system at rest -/

/-- One reference to the entry that is returned. -/
def hand : Option SlotId → SlotId → ℕ
  | none => 0
  | some k => Pi.single k 1

/-- A well-formed file system of which no inode is locked. -/
structure Quiet {V : Env T} (sb : Sb) (t : T) (s : St T V.X) : Prop where
  sound : Sound sb s.disk
  held : Held t s.inode 0 ∅ s
  kept : Kept s.inode s.disk

/-- The number of references to inode `i`. -/
def St.refs (s : St T X) (i : ℕ) : ℤ :=
  ∑ k, if (s.inode k).inum = i then (s.inode k).ref else 0

/-- Nothing has changed, except that there is one more reference to the inode `o`, if any. -/
structure Gained {V : Env T} (sb : Sb) (t : T) (s s' : St T V.X) (o : Option ℕ) : Prop where
  only : OnlyTable s s'
  quiet : Quiet sb t s'
  refs : ∀ i, s'.refs i = s.refs i + if o = some i then 1 else 0

theorem Held.refs {s s' : St T X} {o : Option SlotId}
    (h : Held t s.inode (0 + hand o) Λ s') (i : ℕ) :
    s'.refs i = s.refs i + if o.map (fun k => (s'.inode k).inum) = some i then 1 else 0 := by
  have hslot : ∀ k, (if (s'.inode k).inum = i then (s'.inode k).ref else 0) =
      (if (s.inode k).inum = i then (s.inode k).ref else 0) +
        if (s'.inode k).inum = i then (hand o k : ℤ) else 0 := by
    intro k
    have href := h.ref k
    rw [zero_add] at href
    by_cases hpos : 0 < (s.inode k).ref
    · rw [h.inum k hpos, href]
      split_ifs <;> simp
    · have h0 : (s.inode k).ref = 0 := le_antisymm (not_lt.1 hpos) (h.nonneg k)
      rw [href, h0, ite_self, zero_add, zero_add]
  have hhand : (∑ k, if (s'.inode k).inum = i then (hand o k : ℤ) else 0) =
      if o.map (fun k => (s'.inode k).inum) = some i then 1 else 0 := by
    cases o with
    | none => simp [hand]
    | some k₀ =>
      rw [sum_eq_single k₀]
      · simp [hand]
      · intro k _ hk
        simp [hand, Pi.single_eq_of_ne hk]
      · exact fun hc => absurd (mem_univ _) hc
  unfold St.refs
  rw [← hhand, ← sum_add_distrib]
  exact sum_congr rfl fun k _ => hslot k

theorem Quiet.gained {V : Env T} {s s' : St T V.X} (h : Quiet sb t s) {o : Option SlotId}
    (hh : Held t s.inode (0 + hand o) ∅ s') (ho : OnlyTable s s') :
    Gained sb t s s' (o.map fun k => (s'.inode k).inum) where
  only := ho
  quiet := ⟨by rw [ho.disk]; exact h.sound, hh.rebase, by rw [ho.disk]; exact hh.kept h.kept⟩
  refs := hh.refs

/-- A transaction that has begun and ended. -/
theorem OnlyTable.endOp [DecidableEq T] {s s' : St T X}
    (h : OnlyTable { s with op := update s.op t (s.op t + 1) } s') :
    OnlyTable s { s' with op := update s'.op t (s'.op t - 1) } := by
  have hop : update s'.op t (s'.op t - 1) = s.op := by
    rw [h.elsewhere.op]
    show update (update s.op t _) t (update s.op t _ t - 1) = s.op
    rw [update_self, update_idem, add_sub_cancel_right, update_eq_self]
  unfold OnlyTable at h ⊢
  rw [hop, h]

/-! ## Operations on the table -/

variable {V : Env T} [DecidableEq T] {ly : Layout} {L : Finset ℕ} {s : St T V.X}

theorem iget_held (h : Held t tab c Λ s) (hi : s.disk.Live i) :
    Goes sb ly t (iget i : P V SlotId) s L
      (fun k s' L' => Held t tab (c + Pi.single k 1) Λ s' ∧ (s'.inode k).inum = i ∧
        (∀ l, 0 < (s.inode l).ref → (s'.inode l).inum = (s.inode l).inum) ∧
        OnlyTable s s' ∧ L' = L)
      fun m s' => m = "iget: no inodes" ∧ s' = s ∧ ∀ k, (s.inode k).ref ≠ 0 := by
  refine (iget_goes i).mono ?_ fun m s' hE => ⟨hE.1, hE.2.1, hE.2.2.1⟩
  rintro k s' L' ⟨hgot, rfl⟩
  have hinum := hgot.inum
  cases hgot with
  | found href hik =>
    refine ⟨h.setRef (fun l hl => ?_) ?_ href rfl rfl rfl rfl ?_, hinum, fun l _ => ?_, rfl, rfl⟩
    · rw [Pi.add_apply, Pi.single_eq_of_ne hl, Nat.add_zero]
    · show (s.inode k).ref + 1 = _
      rw [h.ref k, Pi.add_apply, Pi.single_eq_same]
      push_cast
      ring
    · intro _
      show 0 < (s.inode k).ref + 1
      omega
    · exact inum_setInode rfl l
  | taken hno href =>
    refine ⟨h.take href hi hno, hinum, fun l hl => ?_, rfl, rfl⟩
    have hlk : l ≠ k := by
      rintro rfl
      omega
    rw [setInode_ne hlk]

theorem idup_held (h : Held t tab c Λ s) (hk : 0 < (s.inode k).ref) :
    Does sb ly t (idup k : P V SlotId) s L fun r s' L' =>
      r = k ∧ Held t tab (c + Pi.single k 1) Λ s' ∧
        (∀ l, (s'.inode l).inum = (s.inode l).inum) ∧ OnlyTable s s' ∧ L' = L := by
  refine .act rfl (.ret ⟨rfl, h.setRef (fun l hl => ?_) ?_ hk rfl rfl rfl rfl ?_, fun l => ?_, rfl,
    union_empty _⟩)
  · rw [Pi.add_apply, Pi.single_eq_of_ne hl, Nat.add_zero]
  · show (s.inode k).ref + 1 = _
    rw [h.ref k, Pi.add_apply, Pi.single_eq_same]
    push_cast
    ring
  · intro _
    show 0 < (s.inode k).ref + 1
    omega
  · exact inum_setInode rfl l

theorem ilock_held (h : Held t tab c Λ s) (hk : k ∉ Λ) (hpos : 0 < (s.inode k).ref) :
    Does sb ly t (ilock k : P V Ip) s L fun ip s' L' =>
      ip = s.ip k ∧ Held t tab c (insert k Λ) s' ∧
        (∀ l, (s'.inode l).inum = (s.inode l).inum) ∧ OnlyTable s s' ∧ L' = L := by
  have hlock : (s.inode k).lock = none := by rw [h.lock k, if_neg hk]
  have hlive : (s.din (s.inode k).inum).type ≠ .free := h.live k hpos
  have hlocks : ∀ l, (if l = k then some t else (s.inode l).lock) =
      if l ∈ insert k Λ then some t else none := by
    intro l
    by_cases hl : l = k
    · rw [if_pos hl, if_pos (by rw [hl]; exact mem_insert_self _ _)]
    · rw [if_neg hl, h.lock l]
      by_cases hlΛ : l ∈ Λ
      · rw [if_pos hlΛ, if_pos (mem_insert_of_mem hlΛ)]
      · rw [if_neg hlΛ, if_neg fun hc => hlΛ (mem_of_mem_insert_of_ne hc hl)]
  have hin : ∀ l ∈ insert k Λ, l ≠ k → l ∈ Λ := fun l hl hne => mem_of_mem_insert_of_ne hl hne
  have hout : ∀ l ∉ insert k Λ, l ≠ k → l ∉ Λ := fun l hl _ hc => hl (mem_insert_of_mem hc)
  have hnot : k ∉ insert k Λ → 0 < (s.inode k).ref → ∀ {P : Prop}, P :=
    fun hc => absurd (mem_insert_self k Λ) hc
  have hacquire : exec (V := V) sb (.acquire k) t s =
      .done () (s.setInode k fun ip => { ip with lock := some t }) := by
    show execAcquire t s k = _
    unfold execAcquire
    rw [if_neg (by omega), hlock]
  refine .act hacquire ?_
  by_cases hv : (s.inode k).valid = true
  · have hload : exec (V := V) sb (.load k) t (s.setInode k fun ip => { ip with lock := some t }) =
        .done ((s.inode k).inum, (s.inode k).d)
          (s.setInode k fun ip => { ip with lock := some t }) := by
      show execLoad _ k = _
      unfold execLoad
      rw [setInode_self, if_pos hv]
    refine .act hload (.ret ⟨?_, ?_, fun l => ?_, rfl, ?_⟩)
    · show (⟨k, _, _⟩ : Ip) = s.ip k
      rw [h.synced k hk hpos hv]
      rfl
    · exact h.setInode rfl rfl hlocks hin (fun _ => ⟨hpos, hv⟩) hout fun hc hp => hnot hc hp
    · exact inum_setInode rfl l
    · simp [logged]
  · have hload : exec (V := V) sb (.load k) t (s.setInode k fun ip => { ip with lock := some t }) =
        .done ((s.inode k).inum, s.din (s.inode k).inum) (s.setInode k fun ip =>
          { ip with lock := some t, valid := true, d := s.din ip.inum }) := by
      show execLoad _ k = _
      unfold execLoad
      rw [setInode_self, if_neg hv]
      show (if (s.din (s.inode k).inum).type = .free then _ else _) = _
      rw [if_neg hlive, setInode_setInode]
      rfl
    refine .act hload (.ret ⟨rfl, ?_, fun l => ?_, rfl, ?_⟩)
    · exact h.setInode rfl rfl hlocks hin (fun _ => ⟨hpos, rfl⟩) hout fun hc hp => hnot hc hp
    · exact inum_setInode rfl l
    · simp [logged]

theorem iunlock_held {ip : Ip} (h : Held t tab c Λ s) (hk : ip.slot ∈ Λ) (hip : ip = s.ip ip.slot) :
    Does sb ly t (iunlock ip : P V Unit) s L fun _ s' L' =>
      Held t tab c (Λ.erase ip.slot) s' ∧ (∀ l, (s'.inode l).inum = (s.inode l).inum) ∧
        (s'.inode ip.slot).valid ∧ OnlyTable s s' ∧ L' = L := by
  have hpos := (h.locked _ hk).1
  have hunlock : exec (V := V) sb (.iunlock ip.slot ip.d) t s =
      .done () (s.setInode ip.slot fun x => { x with d := ip.d, lock := none }) := by
    show execIunlock t s ip.slot ip.d = _
    unfold execIunlock
    rw [if_neg]
    rw [h.lock, if_pos hk]
    rintro (hc | hc)
    · exact hc rfl
    · omega
  refine .act hunlock (.ret ⟨?_, fun l => ?_, ?_, rfl, union_empty _⟩)
  · refine h.setInode rfl rfl (fun l => ?_) (fun l hl _ => mem_of_mem_erase hl)
      (fun hc => absurd hc (notMem_erase _ _)) (fun l hl hne hc => ?_) fun _ _ _ => ?_
    · by_cases hl : l = ip.slot
      · rw [if_pos hl, if_neg (by rw [hl]; exact notMem_erase _ _)]
      · rw [if_neg hl, h.lock l]
        by_cases hlΛ : l ∈ Λ
        · rw [if_pos hlΛ, if_pos (mem_erase.2 ⟨hl, hlΛ⟩)]
        · rw [if_neg hlΛ, if_neg fun hc => hlΛ (mem_of_mem_erase hc)]
    · exact hl (mem_erase.2 ⟨hne, hc⟩)
    · show ip.d = _
      rw [hip]
      rfl
  · exact inum_setInode rfl l
  · rw [setInode_self]
    exact (h.locked _ hk).2

theorem iput_held (h : Held t tab (c + Pi.single k 1) Λ s) (hkept : Kept tab s.disk) (hk : k ∉ Λ) :
    Does sb ly t (iput k : P V Unit) s L fun _ s' L' =>
      Held t tab c Λ s' ∧ (∀ l, (s'.inode l).inum = (s.inode l).inum) ∧ OnlyTable s s' ∧
        L' = L := by
  refine (iput_drop (h.not_last hkept hk)).mono ?_
  rintro - s' L' ⟨rfl, rfl⟩
  refine ⟨h.setRef (fun l hl => ?_) ?_ h.pos rfl rfl rfl rfl fun hc => absurd hc hk, fun l => ?_, rfl,
    rfl⟩
  · rw [Pi.add_apply, Pi.single_eq_of_ne hl, Nat.add_zero]
  · show (s.inode k).ref - 1 = _
    rw [h.ref k, Pi.add_apply, Pi.single_eq_same]
    push_cast
    ring
  · exact inum_setInode rfl l

theorem iunlockput_held {ip : Ip} (h : Held t tab (c + Pi.single ip.slot 1) Λ s)
    (hkept : Kept tab s.disk) (hk : ip.slot ∈ Λ) (hip : ip = s.ip ip.slot) :
    Does sb ly t (iunlockput ip : P V Unit) s L fun _ s' L' =>
      Held t tab c (Λ.erase ip.slot) s' ∧ (∀ l, (s'.inode l).inum = (s.inode l).inum) ∧
        OnlyTable s s' ∧ L' = L := by
  refine .bind ((iunlock_held h hk hip).mono ?_)
  rintro - s₁ L₁ ⟨h₁, hi₁, -, ho₁, rfl⟩
  rw [← ho₁.disk] at hkept
  refine (iput_held h₁ hkept (notMem_erase _ _)).mono ?_
  rintro - s₂ L₂ ⟨h₂, hi₂, ho₂, rfl⟩
  exact ⟨h₂, fun l => by rw [hi₂, hi₁], ho₁.trans ho₂, rfl⟩

end Xv6.Fs
