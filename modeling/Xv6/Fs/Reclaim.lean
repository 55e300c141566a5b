import Xv6.Fs.Free

/-!
# Orphans

When the kernel starts, `ireclaim` frees the inodes that have no links: they were unlinked while they
were in use, and the system stopped before their last reference was dropped.
-/

namespace Xv6.Fs

open Function Finset Xv6.Threads

/-- Inode `i` is allocated and has no links. -/
def View.Orphan (v : View) (i : ℕ) : Prop := (v.din i).type ≠ .free ∧ (v.din i).nlink = 0

instance (v : View) (i : ℕ) : Decidable (v.Orphan i) := instDecidableAnd

/-- The orphans among the `n` inodes from `i` on. -/
def View.orphans (v : View) (i n : ℕ) : Finset ℕ := (Finset.Ico i (i + n)).filter v.Orphan

section orphans

variable {v : View} {i j n : ℕ}

theorem mem_orphans : j ∈ v.orphans i n ↔ i ≤ j ∧ j < i + n ∧ v.Orphan j := by
  simp [View.orphans, and_assoc]

theorem orphans_zero : v.orphans i 0 = ∅ := by simp [View.orphans]

theorem orphans_skip (h : ¬ v.Orphan i) : v.orphans (i + 1) n = v.orphans i (n + 1) := by
  ext j
  rw [mem_orphans, mem_orphans]
  constructor
  · rintro ⟨h1, h2, h3⟩
    exact ⟨by omega, by omega, h3⟩
  · rintro ⟨h1, h2, h3⟩
    have : j ≠ i := by
      rintro rfl
      exact h h3
    exact ⟨by omega, by omega, h3⟩

/-- The inodes behind an orphan that has been freed. -/
theorem orphans_next (h : v.Orphan i) :
    {i} ∪ (v.reclaim {i}).orphans (i + 1) n = v.orphans i (n + 1) := by
  have hsame : ∀ j, i + 1 ≤ j → ((v.reclaim {i}).Orphan j ↔ v.Orphan j) := by
    intro j hj
    unfold View.Orphan
    rw [din_reclaim (by simp; omega)]
  ext j
  rw [mem_union, mem_singleton, mem_orphans, mem_orphans]
  constructor
  · rintro (rfl | ⟨h1, h2, h3⟩)
    · exact ⟨le_rfl, by omega, h⟩
    · exact ⟨by omega, by omega, (hsame j h1).1 h3⟩
  · rintro ⟨h1, h2, h3⟩
    rcases h1.eq_or_lt with rfl | hlt
    · exact .inl rfl
    · exact .inr ⟨hlt, by omega, (hsame j hlt).2 h3⟩

end orphans

/-- The kernel has started on this disk: the inode table is empty. -/
structure Booted {T X : Type} (sb : Sb) (t : T) (s : St T X) : Prop where
  wf : s.disk.Wf sb
  ref : ∀ k, (s.inode k).ref = 0
  lock : ∀ k, (s.inode k).lock = none
  reading : s.reading t = false

variable {T : Type} {V : Env T} {sb : Sb} {t : T} {s : St T V.X}

theorem Booted.held (h : Booted sb t s) : Held t s.inode 0 ∅ s := by
  have hno : ∀ k, ¬ 0 < (s.inode k).ref := fun k => by rw [h.ref k]; omega
  refine ⟨fun k => (h.ref k).ge, fun k => by simp, fun _ _ => rfl, fun k => ?_, fun k hk => ?_,
    fun k _ hk => absurd hk (hno k), fun k hk => absurd hk (hno k),
    fun k _ hk => absurd hk (hno k), h.reading⟩
  · rw [h.lock k, if_neg (notMem_empty k)]
  · exact absurd hk (notMem_empty k)

variable [DecidableEq T] {ly : Layout} {L : Finset ℕ}

/-- One round of `ireclaim` for an orphan: a transaction in which the inode is freed. -/
theorem reclaimOne_goes (h : Booted sb t s) {i : ℕ} (horphan : s.disk.Orphan i) {α : Type}
    {p : P V α} {Q : α → St T V.X → Finset ℕ → Prop} {E : String → St T V.X → Prop}
    (hp : ∀ s', Booted sb t s' → s'.disk = s.disk.reclaim {i} → Elsewhere s s' →
      Goes sb ly t p s' (L ∪ freeLog ly s.disk i) Q E) :
    Goes sb ly t (do
      let k ← iget i
      beginOp
      let ip ← ilock k
      iunlock ip
      iput k
      endOp
      p) s L Q E := by
  refine .bind ((iget_held h.held horphan.1).mono ?_ ?_)
  · rintro k s₁ L₁ ⟨hh₁, hi₁, -, ho₁, rfl⟩
    have hpos := hh₁.pos
    refine .bind (.act rfl (.ret ?_))
    rw [show L₁ ∪ logged ly (.beginOp : Act V.E) () = L₁ from union_empty L₁]
    set s₂ : St T V.X := { s₁ with op := update s₁.op t (s₁.op t + 1) } with hs₂
    have hh₂ : Held t s.inode (0 + Pi.single k 1) ∅ s₂ := hh₁.setOp _
    refine .bind ((ilock_held hh₂ (notMem_empty k) hpos).goes.mono ?_ fun _ _ hE => hE)
    rintro ip s₃ L₃ ⟨rfl, hh₃, hi₃, ho₃, rfl⟩
    rw [← ip_congr (hi₃ k) ho₃.din]
    have hmem : (s₃.ip k).slot ∈ insert k (∅ : Finset SlotId) := mem_insert_self _ _
    refine .bind ((iunlock_held hh₃ hmem rfl).goes.mono ?_ fun _ _ hE => hE)
    rintro - s₄ L₄ ⟨hh₄, hi₄, hv₄, ho₄, rfl⟩
    rw [show (insert k (∅ : Finset SlotId)).erase (s₃.ip k).slot = ∅ by
      show (insert k (∅ : Finset SlotId)).erase k = ∅
      simp] at hh₄
    have hdisk : s₄.disk = s.disk := by
      rw [ho₄.disk, ho₃.disk, hs₂]
      exact ho₁.disk
    have hinum : (s₄.inode k).inum = i := by rw [hi₄, hi₃, hs₂, hi₁]
    have hone : (s₄.inode k).ref = 1 := by
      rw [hh₄.ref k, h.ref k, zero_add, zero_add, Pi.single_eq_same]
      rfl
    have hnlink : (s₄.din (s₄.inode k).inum).nlink = 0 := by
      rw [hinum]
      show (s₄.disk.din i).nlink = 0
      rw [hdisk]
      exact horphan.2
    refine .bind ((iput_frees hh₄ (notMem_empty k) (by rw [hdisk]; exact h.wf) hone hv₄
      hnlink).goes.mono ?_ fun _ _ hE => hE)
    rintro - s₅ L₅ ⟨hh₅, hd₅, he₅, -, rfl⟩
    rw [hinum, hdisk] at hd₅ ⊢
    refine .bind (.act rfl (.ret ?_))
    rw [show ∀ M : Finset ℕ, M ∪ logged ly (.endOp : Act V.E) () = M from union_empty]
    have he : Elsewhere s₂ s₅ := (ho₃.elsewhere.trans ho₄.elsewhere).trans he₅
    have hop : update s₅.op t (s₅.op t - 1) = s.op := by
      rw [he.op, hs₂]
      show update (update s₁.op t _) t (update s₁.op t _ t - 1) = s.op
      rw [update_self, update_idem, add_sub_cancel_right, update_eq_self,
        ho₁.elsewhere.op]
    have hread : s₅.reading = s.reading := by
      rw [he.reading, hs₂]
      exact ho₁.elsewhere.reading
    refine hp _ ?_ hd₅ ⟨hop, hread, ?_⟩
    · refine ⟨?_, fun l => ?_, fun l => ?_, ?_⟩
      · show s₅.disk.Wf sb
        rw [hd₅]
        exact h.wf.reclaim fun j hj => by rw [mem_singleton.1 hj]; exact horphan.1
      · show (s₅.inode l).ref = 0
        rw [hh₅.ref l, h.ref l]
        rfl
      · show (s₅.inode l).lock = none
        rw [hh₅.lock l, if_neg (notMem_empty l)]
      · show s₅.reading t = false
        rw [hread, h.reading]
    · show s₅.tables = s.tables
      rw [he.tables, hs₂]
      exact ho₁.elsewhere.tables
  · rintro m s' ⟨-, -, hfull⟩
    exact absurd (h.ref ⟨0, by decide⟩) (hfull _)

theorem ireclaimFrom_goes (n : ℕ) : ∀ {i : ℕ} {s : St T V.X} {L : Finset ℕ}, Booted sb t s →
    Goes sb ly t (ireclaimFrom i n : P V Unit) s L
      (fun _ s' _ => Booted sb t s' ∧ s'.disk = s.disk.reclaim (s.disk.orphans i n) ∧ Elsewhere s s')
      fun _ _ => False := by
  induction n with
  | zero =>
    intro i s L h
    refine .ret ⟨h, ?_, .refl s⟩
    rw [orphans_zero, reclaim_empty]
  | succ n ih =>
    intro i s L h
    unfold ireclaimFrom
    refine .act rfl ?_
    show Goes sb ly t (if (s.din i).type ≠ .free ∧ (s.din i).nlink = 0 then _ else _) s _ _ _
    by_cases ho : (s.din i).type ≠ .free ∧ (s.din i).nlink = 0
    · rw [if_pos ho]
      have horphan : s.disk.Orphan i := ho
      refine reclaimOne_goes h horphan fun s' h' hd he => ?_
      refine (ih h').mono ?_ fun _ _ hE => hE
      rintro - s'' - ⟨h'', hd', he'⟩
      refine ⟨h'', ?_, he.trans he'⟩
      rw [hd', hd, reclaim_reclaim, orphans_next horphan]
      rw [disjoint_left]
      intro j hj hj'
      have := (mem_orphans.1 hj').1
      rw [mem_singleton.1 hj] at this
      omega
    · rw [if_neg ho]
      have horphan : ¬ s.disk.Orphan i := ho
      refine (ih h).mono ?_ fun _ _ hE => hE
      rintro - s' - ⟨h', hd, he⟩
      exact ⟨h', by rw [hd, orphans_skip horphan], he⟩

theorem ireclaimFrom_none (n : ℕ) : ∀ {i : ℕ} {L : Finset ℕ},
    (∀ j, i ≤ j → j < i + n → ¬ s.disk.Orphan j) →
    Does sb ly t (ireclaimFrom i n : P V Unit) s L fun _ s' _ => s' = s := by
  induction n with
  | zero => exact fun _ => .ret rfl
  | succ n ih =>
    intro i L h
    unfold ireclaimFrom
    refine .act rfl ?_
    show Does sb ly t (if (s.din i).type ≠ .free ∧ (s.din i).nlink = 0 then _ else _) s _ _
    have hi : ¬ ((s.din i).type ≠ .free ∧ (s.din i).nlink = 0) := h i le_rfl (by omega)
    rw [if_neg hi]
    exact ih fun j h1 h2 => h j (by omega) (by omega)

/-- **Orphans are reclaimed when the kernel starts.** `ireclaim` returns, and then no inode below
`ninodes` is allocated without links. The blocks of the orphans have become free, and no others. The
other inodes, their contents and the directory entries have not changed. All references have been
released, every transaction has ended, and running `ireclaim` again changes nothing. -/
theorem ireclaim_frees_orphans (sb : Sb) (t : T) (s : St T V.X) (h : Booted sb t s)
    (hzero : (s.din 0).type = .free) :
    ∃ s', solo (exec sb) t (ireclaim sb) s = some ((), s') ∧
      (∀ i < sb.ninodes, ¬ s'.disk.Orphan i) ∧
      (∀ b, s'.bit b = false ↔ s.bit b = false ∨
        ∃ i < sb.ninodes, s.disk.Orphan i ∧ b ≠ 0 ∧ ∃ k < nslot, s.disk.ref i k = b) ∧
      (∀ i, ¬ (i < sb.ninodes ∧ s.disk.Orphan i) → s'.din i = s.din i ∧
        s'.disk.content i = s.disk.content i ∧ s'.disk.dir i = s.disk.dir i) ∧
      (∀ k, (s'.inode k).ref = 0 ∧ (s'.inode k).lock = none) ∧
      s'.op = s.op ∧
      solo (exec sb) t (ireclaim sb) s' = some ((), s') := by
  have hg : Goes sb ⟨0, 0⟩ t (ireclaim sb : P V Unit) s ∅ _ _ := ireclaimFrom_goes _ h
  obtain ⟨⟨⟩, s', -, hs, h', hd, he⟩ := hg.returns
  have hmem : ∀ i, i ∈ s.disk.orphans 1 (sb.ninodes - 1) ↔ i < sb.ninodes ∧ s.disk.Orphan i := by
    intro i
    rw [mem_orphans]
    constructor
    · rintro ⟨h1, h2, h3⟩
      exact ⟨by omega, h3⟩
    · rintro ⟨h1, h2⟩
      have : i ≠ 0 := by
        rintro rfl
        exact h2.1 hzero
      exact ⟨by omega, by omega, h2⟩
  have hnone : ∀ i < sb.ninodes, ¬ s'.disk.Orphan i := by
    intro i hi ho
    unfold View.Orphan at ho
    rw [hd] at ho
    by_cases hm : i ∈ s.disk.orphans 1 (sb.ninodes - 1)
    · rw [din_reclaim_mem hm] at ho
      exact ho.1 rfl
    · rw [din_reclaim hm] at ho
      exact hm ((hmem i).2 ⟨hi, ho⟩)
  refine ⟨s', hs, hnone, fun b => ?_, fun i hi => ?_, fun k => ⟨h'.ref k, h'.lock k⟩, he.op, ?_⟩
  · have hbit : s'.bit b = (s.disk.reclaim (s.disk.orphans 1 (sb.ninodes - 1))).bit b := by
      rw [← hd]
      rfl
    rw [hbit, bit_reclaim]
    constructor
    · intro hb
      split_ifs at hb with hm
      · obtain ⟨i, hi, hbi⟩ := mem_biUnion.1 hm
        obtain ⟨hlt, ho⟩ := (hmem i).1 hi
        exact .inr ⟨i, hlt, ho, mem_blocks_iff.1 hbi⟩
      · exact .inl hb
    · rintro (hb | ⟨i, hlt, ho, hbi⟩)
      · split_ifs
        · rfl
        · exact hb
      · rw [if_pos (mem_biUnion.2 ⟨i, (hmem i).2 ⟨hlt, ho⟩, mem_blocks_iff.2 hbi⟩)]
  · have hm : i ∉ s.disk.orphans 1 (sb.ninodes - 1) := fun hc => hi ((hmem i).1 hc)
    rw [hd]
    refine ⟨?_, content_reclaim hm, dir_reclaim hm⟩
    show s'.disk.din i = s.disk.din i
    rw [hd, din_reclaim hm]
  · have hagain : Does sb ⟨0, 0⟩ t (ireclaim sb : P V Unit) s' ∅ _ :=
      ireclaimFrom_none _ fun j h1 h2 => hnone j (by omega)
    obtain ⟨⟨⟩, s'', -, hs'', rfl⟩ := hagain.solo
    exact hs''

/-- A file of three bytes, in block 5, without links. -/
def anOrphan : St Unit noTables.X :=
  { oneInode .file 3 with din := fun i => { (oneInode .file 3).din i with nlink := 0 } }

theorem anOrphan_booted : Booted smallDisk () anOrphan where
  wf := by
    have hview : oneFile.view theFile = oneFile.disk := view_eq_disk rfl
    have halike : Alike oneFile.disk anOrphan.disk := ⟨rfl, rfl, fun _ => rfl, fun _ => rfl⟩
    apply halike.wf
    rw [← hview]
    exact oneInode_wf
  ref _ := rfl
  lock _ := rfl
  reading := rfl

theorem ireclaim_frees_orphans_one :
    ∃ s', solo (exec smallDisk) () (ireclaim (V := noTables) smallDisk) anOrphan = some ((), s') ∧
      ¬ s'.disk.Orphan 1 ∧ s'.bit 5 = false := by
  obtain ⟨s', hs, hnone, hbit, -⟩ := ireclaim_frees_orphans (V := noTables) smallDisk () anOrphan
    anOrphan_booted rfl
  refine ⟨s', hs, hnone 1 (by decide), (hbit 5).2 (.inr ⟨1, by decide, ?_, by decide, 0, by decide, rfl⟩)⟩
  exact ⟨by decide, rfl⟩

end Xv6.Fs
