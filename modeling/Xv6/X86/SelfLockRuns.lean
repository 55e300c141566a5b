import Xv6.Holdings
import Xv6.X86.SelfLock

/-!
# No process waits for itself on an inode in the x86 kernel

The one call that takes a sleep-lock it holds is `sys_link` of a file to a name `.`, or to `..` in the
root: `dirlink` finds the directory itself under that name and drops the reference with `iput`, which
takes the lock that `sys_link` holds. In every run without such a call no call sleeps at all.
-/

namespace Xv6.X86.Fs

open Function Finset

open Xv6.Fs (Kind Name Dirent dot dotdot rootIno short skipelem slash direntSize)

variable {P : Type} [DecidableEq P] {s s' : St P} {p : P} {B : SlotId → ℕ} {L R : List SlotId}
  {k : SlotId}

/-! ## System calls -/

/-- `sys_link` of a file to a name under which the parent directory lists itself. -/
def LinksSelf (s : St P) (p : P) (old new : List UInt8) : Prop :=
  ∃ i x D name, s.resolve p false old = some (i, x) ∧ (s.din i).type ≠ .dir ∧
    s.resolve p true new = some (D, name) ∧ (name = dot ∨ D = rootIno ∧ name = dotdot)

theorem linkBad_ok (h : Inv s p B [] (k :: R)) :
    Ok (linkBad p k) s fun _ s' => Inv s' p B [] R ∧ Frame B R ∅ s s' := by
  refine safe_bind (safe_mono (ilock_ok h List.mem_cons_self List.not_mem_nil) ?_)
  rintro - s₁ ⟨h₁, hf₁, -⟩
  refine safe_bind (safe_mono (addNlink_ok h₁ List.mem_cons_self (-1)) fun _ s₂ q => ?_)
  refine safe_bind (safe_mono (iunlockput_ok (h₁.quiet q) List.not_mem_nil) ?_)
  rintro - s₃ ⟨h₃, hf₃⟩
  exact safe_pure ⟨h₃, (hf₁.trans q.frame).tail.trans hf₃⟩

theorem linkEntry_ok {new : List UInt8} (h : Inv s p B [] [k]) (hB : 0 < B (s.cwd p))
    (hfree : (s.din (s.inode k).inum).type ≠ .free) (hdir : (s.din (s.inode k).inum).type ≠ .dir)
    (hnew : ∀ D name, s.resolve p true new = some (D, name) →
      name ≠ dot ∧ ¬(D = rootIno ∧ name = dotdot)) :
    Ok (linkEntry p k new) s fun _ s' => Inv s' p B [] [] ∧ Frame B [] Set.univ s s' := by
  refine safe_bind (safe_mono (namex_ok h hB) ?_)
  rintro (_ | ⟨dk, name⟩) s₁ ⟨hf₁, hr⟩
  · refine safe_mono (linkBad_ok hr) ?_
    rintro - s₂ ⟨h₂, hf₂⟩
    exact ⟨h₂, (hf₁.tail.trans hf₂).mono (Set.empty_subset _)⟩
  · obtain ⟨h₁, hres⟩ := hr
    obtain ⟨hdot, hroot⟩ := hnew _ _ hres
    refine safe_bind (safe_mono (ilock_ok h₁ List.mem_cons_self List.not_mem_nil) ?_)
    rintro - s₂ ⟨h₂, hf₂, -, -, hinum₂⟩
    -- the inode to link is not a directory, so it is not the directory that is locked
    have hf₁₂ : Frame B [k] ∅ s s₂ := hf₁.trans hf₂.tail
    have htype := hf₁₂.type List.mem_cons_self (Set.notMem_empty _) hfree
    have hsmall : (s₂.inode k).inum < 2 ^ 16 := h₂.small k (h₂.ref_mem (by simp))
    refine safe_get (safe_bind (safe_mono (dirlink_ok h₂ List.mem_cons_self ?_ ?_) ?_))
    · intro ht s₃ k' j hfd _ k'' hk''
      rw [List.mem_singleton.1 hk'']
      rw [← hinum₂] at hroot
      exact Ne.symm (hfd.ne h₂ ht hdot hroot)
    · intro ht _
      refine ⟨Nat.mod_lt _ (by norm_num), fun he => ?_⟩
      simp only [Nat.mod_eq_of_lt hsmall] at he
      rw [← he, htype] at ht
      exact absurd ht hdir
    · rintro ok s₃ ⟨h₃, hf₃, -⟩
      have hf₁₃ : Frame B [k] Set.univ s s₃ :=
        (hf₁₂.mono (Set.subset_univ _)).trans (hf₃.tail.mono (Set.subset_univ _))
      refine safe_bind (safe_mono (iunlockput_ok h₃ List.not_mem_nil) ?_)
      rintro - s₄ ⟨h₄, hf₄⟩
      have hf₁₄ := hf₁₃.trans (hf₄.mono (Set.subset_univ _))
      refine safe_ite (fun _ => ?_) fun _ => ?_
      · refine safe_bind (safe_mono (iput_ok h₄ List.not_mem_nil) ?_)
        rintro - s₅ ⟨h₅, hf₅⟩
        exact safe_pure ⟨h₅, hf₁₄.tail.trans (hf₅.mono (Set.subset_univ _))⟩
      · refine safe_mono (linkBad_ok h₄) ?_
        rintro - s₅ ⟨h₅, hf₅⟩
        exact ⟨h₅, hf₁₄.tail.trans (hf₅.mono (Set.subset_univ _))⟩

theorem sysLink_ok {old new : List UInt8} (h : Inv s p B [] []) (hB : 0 < B (s.cwd p))
    (hself : ¬LinksSelf s p old new) :
    Ok (sysLink p old new) s fun _ s' => Inv s' p B [] [] ∧ Frame B [] Set.univ s s' := by
  refine safe_bind (safe_mono (namex_ok h hB) ?_)
  rintro (_ | ⟨k, x⟩) s₁ ⟨hf₁, hr⟩
  · exact safe_pure ⟨hr, hf₁.mono (Set.empty_subset _)⟩
  · obtain ⟨h₁, hres⟩ := hr
    refine safe_bind (safe_mono (ilock_ok h₁ List.mem_cons_self List.not_mem_nil) ?_)
    rintro - s₂ ⟨h₂, hf₂, hdin₂, -, hinum₂⟩
    obtain ⟨ht₂, -, hfree₂⟩ := h₂.locked List.mem_cons_self
    refine safe_get (safe_ite (fun _ => ?_) fun hdir => ?_)
    · refine safe_bind (safe_mono (iunlockput_ok h₂ List.not_mem_nil) ?_)
      rintro - s₃ ⟨h₃, hf₃⟩
      exact safe_pure ⟨h₃, ((hf₁.trans hf₂.tail).trans hf₃).mono (Set.empty_subset _)⟩
    · rw [ht₂] at hdir
      refine safe_bind (safe_mono (addNlink_ok h₂ List.mem_cons_self 1) fun _ s₃ q => ?_)
      refine safe_bind (safe_mono (iunlock_ok (h₂.quiet q) List.not_mem_nil) ?_)
      rintro - s₄ ⟨h₄, hf₄, hdin₄, -, hinum₄⟩
      have hf : Frame B [] ∅ s s₄ := hf₁.trans ((hf₂.trans q.frame).trans hf₄).tail
      have htype : (s₄.din (s₄.inode k).inum).type = (s₂.din (s₂.inode k).inum).type := by
        rw [hinum₄, hdin₄, (q.slot k).1, (q.din _).1]
      have hcwd : s₄.cwd = s.cwd := hf.cwd
      refine safe_mono (linkEntry_ok h₄ (hcwd ▸ hB) (htype ▸ hfree₂) (htype ▸ hdir) ?_) ?_
      · intro D name hD
        have hD' := resolve_mono hf hB hD
        have hnot : ¬(name = dot ∨ D = rootIno ∧ name = dotdot) := by
          intro hc
          refine hself ⟨_, x, D, name, hres, ?_, hD', hc⟩
          rw [hinum₂, hdin₂] at hdir hfree₂
          rwa [← (hf₁.same _ (Set.notMem_empty _) hfree₂).1]
        exact ⟨fun hd => hnot (Or.inl hd), fun hr => hnot (Or.inr hr)⟩
      · rintro - s₅ ⟨h₅, hf₅⟩
        exact ⟨h₅, (hf.mono (Set.empty_subset _)).trans hf₅⟩

theorem unlinkEntry_ok {dk : SlotId} {j : ℕ} (h : Inv s p B [k, dk] [k, dk]) (hne : k ≠ dk) :
    Ok (unlinkEntry p dk k j) s fun _ s' => Inv s' p B [] [] ∧ Frame B [] Set.univ s s' := by
  have hk : k ∉ [dk] := fun hm => hne (List.mem_singleton.1 hm)
  have hdk : dk ∉ [k] := fun hm => hne (List.mem_singleton.1 hm).symm
  refine safe_bind (safe_mono (writeDirent_ok h (by simp) fun h0 => absurd rfl h0) ?_)
  rintro (_ | _) s₁ ⟨h₁, hf₁, -⟩
  · exact panic_ok
  · have hrest : ∀ s₂, Quiet s₁ s₂ → Ok (do
        iunlockput p dk
        addNlink k (-1)
        iunlockput p k
        return 0) s₂ fun (_ : ℤ) s' => Inv s' p B [] [] ∧ Frame B [] Set.univ s s' := by
      intro s₂ q
      have h₂ : Inv s₂ p B [dk, k] [dk, k] := by
        have h₂ := (h₁.quiet q).perm (List.Perm.swap dk k [])
        exact ⟨fun k' => (h₂.lock k').trans (if_congr (by simp [or_comm]) rfl rfl),
          fun k' hk' => h₂.valid k' (by simpa [or_comm] using hk'), fun k' hk' => hk', h₂.refs,
          h₂.uniq, h₂.small, h₂.mem, h₂.ents⟩
      refine safe_bind (safe_mono (iunlockput_ok h₂ hdk) ?_)
      rintro - s₃ ⟨h₃, hf₃⟩
      refine safe_bind (safe_mono (addNlink_ok h₃ List.mem_cons_self (-1)) fun _ s₄ q' => ?_)
      refine safe_bind (safe_mono (iunlockput_ok (h₃.quiet q') List.not_mem_nil) ?_)
      rintro - s₅ ⟨h₅, hf₅⟩
      have hf₁₂ : Frame B [k] Set.univ s s₂ :=
        ((hf₁.mono (Set.subset_univ _)).trans q.frame).perm (List.Perm.swap dk k []) |>.tail
      have hf₁₄ := hf₁₂.trans ((hf₃.trans q'.frame).mono (Set.empty_subset _))
      exact safe_pure ⟨h₅, hf₁₄.tail.trans (hf₅.mono (Set.empty_subset _))⟩
    refine safe_get (safe_ite (fun _ => ?_) fun _ => hrest s₁ Quiet.refl)
    exact safe_bind (safe_mono (addNlink_ok h₁ (by simp) (-1)) fun _ s₂ q => hrest s₂ q)

theorem unlinkName_ok {dk : SlotId} {name : Name} (h : Inv s p B [dk] [dk]) (hdot : name ≠ dot)
    (hdotdot : name ≠ dotdot) :
    Ok (unlinkName p dk name) s fun _ s' => Inv s' p B [] [] ∧ Frame B [] Set.univ s s' := by
  refine safe_bind (safe_mono (dirlookup_ok h List.mem_cons_self) ?_)
  rintro (_ | ⟨k, j⟩) s₁ ⟨hf₁, -, ht, hr⟩
  · refine safe_bind (safe_mono (iunlockput_ok hr.1 List.not_mem_nil) ?_)
    rintro - s₂ ⟨h₂, hf₂⟩
    exact safe_pure ⟨h₂, (hf₁.tail.trans hf₂).mono (Set.empty_subset _)⟩
  · obtain ⟨hfd, -⟩ := hr
    have hne : k ≠ dk := by
      rintro rfl
      have hi := hf₁.inum k (by simp)
      exact hfd.ne h ht hdot (fun hc => hdotdot hc.2) hi
    have hk : k ∉ [dk] := fun hm => hne (List.mem_singleton.1 hm)
    refine safe_bind (safe_mono (ilock_ok hfd.inv List.mem_cons_self hk) ?_)
    rintro - s₂ ⟨h₂, hf₂, -⟩
    have hf₁₂ : Frame B [dk] ∅ s s₂ := hf₁.trans hf₂.tail
    refine safe_get (safe_ite (fun _ => panic_ok) fun _ => ?_)
    have hrest : ∀ b s₃, Quiet s₂ s₃ → Ok (
        if b = true then unlinkEntry p dk k j
        else do
          iunlockput p k
          iunlockput p dk
          return -1) s₃ fun _ s' => Inv s' p B [] [] ∧ Frame B [] Set.univ s s' := by
      intro b s₃ q
      have h₃ := h₂.quiet q
      have hf₁₃ : Frame B [dk] Set.univ s s₃ :=
        (hf₁₂.trans q.frame).mono (Set.empty_subset _)
      refine safe_ite (fun _ => ?_) fun _ => ?_
      · refine safe_mono (unlinkEntry_ok h₃ hne) ?_
        rintro - s₄ ⟨h₄, hf₄⟩
        exact ⟨h₄, hf₁₃.tail.trans hf₄⟩
      · refine safe_bind (safe_mono (iunlockput_ok h₃ hk) ?_)
        rintro - s₄ ⟨h₄, hf₄⟩
        refine safe_bind (safe_mono (iunlockput_ok h₄ List.not_mem_nil) ?_)
        rintro - s₅ ⟨h₅, hf₅⟩
        have hf₄₅ := hf₄.tail.trans hf₅
        exact safe_pure ⟨h₅, hf₁₃.tail.trans (hf₄₅.mono (Set.empty_subset _))⟩
    refine safe_ite (fun _ => ?_) fun _ => hrest true s₂ Quiet.refl
    exact safe_bind (safe_get (safe_mono isdiremptyFrom_ok fun b s₃ q => hrest b s₃ q))

theorem sysUnlink_ok {path : List UInt8} (h : Inv s p B [] []) (hB : 0 < B (s.cwd p)) :
    Ok (sysUnlink p path) s fun _ s' => Inv s' p B [] [] ∧ Frame B [] Set.univ s s' := by
  refine safe_bind (safe_mono (namex_ok h hB) ?_)
  rintro (_ | ⟨dk, name⟩) s₁ ⟨hf₁, hr⟩
  · exact safe_pure ⟨hr, hf₁.mono (Set.empty_subset _)⟩
  · refine safe_bind (safe_mono (ilock_ok hr.1 List.mem_cons_self List.not_mem_nil) ?_)
    rintro - s₂ ⟨h₂, hf₂, -⟩
    have hf : Frame B [] Set.univ s s₂ := (hf₁.trans hf₂.tail).mono (Set.empty_subset _)
    refine safe_ite (fun _ => ?_) fun hn => ?_
    · refine safe_bind (safe_mono (iunlockput_ok h₂ List.not_mem_nil) ?_)
      rintro - s₃ ⟨h₃, hf₃⟩
      exact safe_pure ⟨h₃, hf.trans (hf₃.mono (Set.empty_subset _))⟩
    · rw [not_or] at hn
      refine safe_mono (unlinkName_ok h₂ hn.1 hn.2) ?_
      rintro - s₃ ⟨h₃, hf₃⟩
      exact ⟨h₃, hf.trans hf₃⟩

theorem createInode_ok {dk : SlotId} {name : Name} {type : Kind} {major minor : ℤ}
    (h : Inv s p B [dk] [k, dk]) (hne : (s.inode k).inum ≠ (s.inode dk).inum)
    (hz : (s.din (s.inode k).inum).size = 0)
    (hnone : s.lookup (s.inode dk).inum name = none) :
    Ok (createInode p dk k name type major minor) s fun r s' => Frame B [] Set.univ s s' ∧
      ∃ k', r = some k' ∧ Inv s' p B [k'] [k'] := by
  have hkd : k ≠ dk := fun he => hne (he ▸ rfl)
  have hk : k ∉ [dk] := fun hm => hkd (List.mem_singleton.1 hm)
  have hdk : dk ∉ [k] := fun hm => hkd (List.mem_singleton.1 hm).symm
  refine safe_bind (safe_mono (ilock_ok h List.mem_cons_self hk) ?_)
  rintro - s₁ ⟨h₁, hf₁, hdin₁, hent₁, hinum₁⟩
  refine safe_bind (safe_modify ?_)
  have q₂ : Quiet s₁ (s₁.setD k fun d => { d with major := major, minor := minor, nlink := 1 }) :=
    Quiet.setD (fun _ => rfl) fun _ => rfl
  refine safe_bind (safe_mono (iupdate_ok (h₁.quiet q₂) List.mem_cons_self) fun _ s₃ q₃ => ?_)
  have q := q₂.trans q₃
  have h₃ := h₁.quiet q
  have hi₃ : ∀ k', (s₃.inode k').inum = (s.inode k').inum := fun k' =>
    (q.slot k').1.trans (hinum₁ k')
  have hf₃ : Frame B [k, dk] ∅ s s₃ := hf₁.trans q.frame
  have hnone₃ : s₃.lookup (s.inode dk).inum name = none := by
    rw [q.sameDirs.lookup]
    exact (lookup_congr (by rw [hdin₁]) (by rw [hent₁]) name).trans hnone
  -- whatever is written to the new inode, the directory it goes to is as before
  have hrest : ∀ s₄, Inv s₄ p B [k, dk] [k, dk] →
      Frame B [k, dk] {(s₃.inode k).inum} s₃ s₄ → Ok (do
        let s ← get
        let ok ← dirlink p dk name (s.inode k).inum
        if ok = true then do
          iunlockput p dk
          return some k
        else panic "create: dirlink") s₄ fun r s' => Frame B [] Set.univ s s' ∧
          ∃ k', r = some k' ∧ Inv s' p B [k'] [k'] := by
    intro s₄ h₄ hf₄
    have hX : (s₃.inode dk).inum ∉ ({(s₃.inode k).inum} : Set ℕ) := by
      intro hm
      rw [Set.mem_singleton_iff, hi₃, hi₃] at hm
      exact hne hm.symm
    obtain ⟨hid, -, hz₄, he₄⟩ := h₃.keeps (by simp) hf₄ hX
    have hik : (s₄.inode k).inum = (s₃.inode k).inum := hf₄.inum k (by simp)
    have hnone₄ : s₄.lookup (s₄.inode dk).inum name = none := by
      rw [hid, lookup_congr hz₄ he₄, hi₃]
      exact hnone₃
    have hde : (s₄.inode k).inum = (s₄.inode dk).inum → name = dot := by
      intro he
      rw [hik, hid, hi₃, hi₃] at he
      exact absurd he hne
    refine safe_get (safe_bind (safe_mono (dirlink_new_ok h₄ (by simp) hnone₄ hde
      (h₄.small k (h₄.ref_mem (by simp)))) ?_))
    rintro (_ | _) s₅ ⟨h₅, hf₅, -⟩
    · exact panic_ok
    · have h₅' : Inv s₅ p B [dk, k] [dk, k] := by
        have h₅' := h₅.perm (List.Perm.swap dk k [])
        exact ⟨fun k' => (h₅'.lock k').trans (if_congr (by simp [or_comm]) rfl rfl),
          fun k' hk' => h₅'.valid k' (by simpa [or_comm] using hk'), fun k' hk' => hk', h₅'.refs,
          h₅'.uniq, h₅'.small, h₅'.mem, h₅'.ents⟩
      refine safe_bind (safe_mono (iunlockput_ok h₅' hdk) ?_)
      rintro - s₆ ⟨h₆, hf₆⟩
      have hf₅' : Frame B [] Set.univ s s₅ :=
        (((hf₃.mono (Set.subset_univ _)).trans (hf₄.mono (Set.subset_univ _))).trans
          (hf₅.mono (Set.subset_univ _))).tail.tail
      exact safe_pure ⟨hf₅'.trans (hf₆.tail.mono (Set.subset_univ _)), k, rfl, h₆⟩
  refine safe_ite (fun _ => ?_) fun _ => hrest s₃ h₃ Frame.refl
  refine safe_bind (safe_mono (createDots_ok h₃ ?_ ?_) ?_)
  · rw [hi₃, hi₃]
    exact hne
  · rw [hi₃, (q.din _).2, hdin₁]
    exact hz
  · rintro - s₄ ⟨h₄, hf₄⟩
    exact hrest s₄ h₄ hf₄

theorem create_ok {ninodes : ℕ} (hn : ninodes ≤ 2 ^ 16) {path : List UInt8} {type : Kind}
    {major minor : ℤ} (h : Inv s p B [] []) (hB : 0 < B (s.cwd p)) :
    Ok (create ninodes p path type major minor) s fun r s' => Frame B [] Set.univ s s' ∧
      match r with
      | none => Inv s' p B [] []
      | some k => Inv s' p B [k] [k] := by
  refine safe_bind (safe_mono (namex_ok h hB) ?_)
  rintro (_ | ⟨dk, name⟩) s₁ ⟨hf₁, hr⟩
  · exact safe_pure ⟨hf₁.mono (Set.empty_subset _), hr⟩
  · refine safe_bind (safe_mono (ilock_ok hr.1 List.mem_cons_self List.not_mem_nil) ?_)
    rintro - s₂ ⟨h₂, hf₂, -⟩
    have hf₁₂ : Frame B [] ∅ s s₂ := hf₁.trans hf₂.tail
    refine safe_bind (safe_mono (dirlookup_ok h₂ List.mem_cons_self) ?_)
    rintro (_ | ⟨k, j⟩) s₃ ⟨hf₃, hs₃, ht, hr⟩
    · obtain ⟨h₃, hnone⟩ := hr
      obtain ⟨hi₃, -⟩ := h₂.keeps List.mem_cons_self hf₃ (Set.notMem_empty _)
      refine safe_bind (safe_mono (ialloc_ok hn h₃) ?_)
      rintro k s₄ ⟨h₄, hfree, hf₄, hfresh⟩
      have hne : (s₃.inode dk).inum ≠ (s₄.inode k).inum := by
        intro he
        rw [← he] at hfree
        exact (h₃.locked List.mem_cons_self).2.2 hfree
      obtain ⟨hi₄, -, hz₄, he₄⟩ := h₃.keeps List.mem_cons_self hf₄ hne
      refine safe_mono (createInode_ok h₄ ?_ ?_ ?_) ?_
      · rw [hi₄]
        exact Ne.symm hne
      · rw [hfresh]
        rfl
      · rw [hi₄, lookup_congr hz₄ he₄, hs₃.lookup, hi₃]
        exact hnone
      · rintro r s₅ ⟨hf₅, k', rfl, h₅⟩
        have hf₁₄ : Frame B [] Set.univ s s₄ := ((hf₁₂.trans hf₃.tail).mono (Set.subset_univ _)).trans
          (hf₄.tail.mono (Set.subset_univ _))
        exact ⟨hf₁₄.trans hf₅, h₅⟩
    · obtain ⟨hfd, -⟩ := hr
      refine safe_bind (safe_mono (iunlockput_ok (hfd.inv.perm (List.Perm.swap dk k []))
        List.not_mem_nil) ?_)
      rintro - s₄ ⟨h₄, hf₄⟩
      refine safe_bind (safe_mono (ilock_ok h₄ List.mem_cons_self List.not_mem_nil) ?_)
      rintro - s₅ ⟨h₅, hf₅, -⟩
      have hf : Frame B [] ∅ s s₅ := (hf₁₂.trans hf₃.tail).trans (hf₄.trans hf₅).tail
      refine safe_get (safe_ite (fun _ => ?_) fun _ => ?_)
      · exact safe_pure ⟨hf.mono (Set.empty_subset _), h₅⟩
      · refine safe_bind (safe_mono (iunlockput_ok h₅ List.not_mem_nil) ?_)
        rintro - s₆ ⟨h₆, hf₆⟩
        exact safe_pure ⟨(hf.trans hf₆).mono (Set.empty_subset _), h₆⟩

theorem dropCreated_ok {r : Option SlotId}
    (h : match r with
      | none => Inv s p B [] []
      | some k => Inv s p B [k] [k]) :
    Ok (dropCreated p r) s fun _ s' => Inv s' p B [] [] ∧ Frame B [] Set.univ s s' := by
  cases r with
  | none => exact safe_pure ⟨h, Frame.refl⟩
  | some k =>
    refine safe_bind (safe_mono (iunlockput_ok h List.not_mem_nil) ?_)
    rintro - s₁ ⟨h₁, hf₁⟩
    exact safe_pure ⟨h₁, hf₁.mono (Set.empty_subset _)⟩

/-! ## References held between calls -/

/-- The reference that an open file holds. -/
def File.refTo (f : File) (k : SlotId) : ℕ := if 0 < f.ref ∧ f.ip = some k then 1 else 0

/-- The number of current directories and open files that refer to entry `k`. -/
def St.base [Fintype P] (s : St P) (k : SlotId) : ℕ :=
  (∑ q, if s.cwd q = k then 1 else 0) + ∑ f, (s.ftable f).refTo k

/-- No call is in progress; every reference is counted, every valid inode is the one on disk, and a
directory names itself as `.` only, or as `..` in the root. -/
structure WellFormed [Fintype P] (s : St P) : Prop where
  unlocked : ∀ k, (s.inode k).lock = none
  refs : ∀ k, (s.base k : ℤ) ≤ (s.inode k).ref
  uniq : ∀ k k', 0 < (s.inode k).ref → 0 < (s.inode k').ref →
    (s.inode k).inum = (s.inode k').inum → k = k'
  small : ∀ k, 0 < (s.inode k).ref → (s.inode k).inum < 2 ^ 16
  mem : ∀ k, 0 < (s.inode k).ref → (s.inode k).valid →
    (s.inode k).d.type = (s.din (s.inode k).inum).type ∧
      (s.inode k).d.size = (s.din (s.inode k).inum).size ∧
      (s.din (s.inode k).inum).type ≠ .free
  ents : ∀ i, (s.din i).type = .dir → ∀ j, (j + 1) * direntSize ≤ (s.din i).size →
    SelfOk i (s.ent i j)

variable [Fintype P]

omit [DecidableEq P] in
theorem WellFormed.inv (h : WellFormed s) (p : P) : Inv s p s.base [] [] :=
  ⟨fun k => by rw [if_neg List.not_mem_nil]; exact h.unlocked k,
    fun _ hk => absurd hk List.not_mem_nil, fun _ hk => hk,
    fun k => by rw [List.count_nil, Nat.cast_zero, add_zero]; exact h.refs k, h.uniq,
    h.small, h.mem, h.ents⟩

omit [DecidableEq P] in
theorem Inv.wellFormed (h : Inv s p B [] []) (hB : B = s.base) : WellFormed s := by
  subst hB
  refine ⟨fun k => by rw [h.lock k, if_neg List.not_mem_nil], fun k => ?_, h.uniq, h.small, h.mem,
    h.ents⟩
  have := h.refs k
  rwa [List.count_nil, Nat.cast_zero, add_zero] at this

omit [DecidableEq P] in
theorem Frame.base {X : Set ℕ} (hf : Frame B R X s s') : s.base = s'.base := by
  funext k
  rw [St.base, St.base, hf.cwd, hf.ftable]

omit [DecidableEq P] in
theorem base_cwd (s : St P) (p : P) : 0 < s.base (s.cwd p) := by
  have h : (if s.cwd p = s.cwd p then 1 else 0) ≤
      ∑ q, if s.cwd q = s.cwd p then 1 else 0 :=
    single_le_sum (f := fun q => if s.cwd q = s.cwd p then 1 else 0)
      (fun _ _ => Nat.zero_le _) (mem_univ p)
  rw [if_pos rfl] at h
  unfold St.base
  omega

/-- Process `p` changes its current directory. -/
theorem base_setCwd (s : St P) (p : P) (k k' : SlotId) :
    ({ s with cwd := update s.cwd p k } : St P).base k' +
      (if s.cwd p = k' then 1 else 0) = s.base k' + if k = k' then 1 else 0 := by
  have h := sum_update_add (mem_univ p) (fun q => if s.cwd q = k' then 1 else 0)
    (if k = k' then 1 else 0)
  have he : ∀ q, (if update s.cwd p k q = k' then 1 else 0) =
      update (fun q => if s.cwd q = k' then 1 else 0) p (if k = k' then 1 else 0) q := by
    intro q
    by_cases hq : q = p
    · rw [hq, update_self, update_self]
    · rw [update_of_ne hq, update_of_ne hq]
  rw [← sum_congr rfl fun q _ => he q] at h
  simp only [St.base]
  omega

omit [DecidableEq P] in
/-- An unused file gets the inode of entry `k`. -/
theorem base_setFile (s : St P) {f : Fin nFile} (hf : (s.ftable f).ref = 0) (k k' : SlotId) :
    ({ s with ftable := update s.ftable f ⟨1, some k⟩ } : St P).base k' =
      s.base k' + if k = k' then 1 else 0 := by
  have h := sum_update_add (mem_univ f) (fun g => (s.ftable g).refTo k')
    ((⟨1, some k⟩ : File).refTo k')
  have he : ∀ g, (update s.ftable f ⟨1, some k⟩ g).refTo k' =
      update (fun g => (s.ftable g).refTo k') f ((⟨1, some k⟩ : File).refTo k') g := by
    intro g
    by_cases hg : g = f
    · rw [hg, update_self, update_self]
    · rw [update_of_ne hg, update_of_ne hg]
  have hnew : (⟨1, some k⟩ : File).refTo k' = if k = k' then 1 else 0 := by
    simp [File.refTo]
  have hold : (s.ftable f).refTo k' = 0 := by
    simp [File.refTo, hf]
  rw [← sum_congr rfl fun g _ => he g, hold, hnew] at h
  simp only [St.base]
  omega

theorem openInode_ok (h : Inv s p s.base [k] [k]) :
    Ok (openInode p k) s fun _ s' => WellFormed s' := by
  unfold openInode
  apply safe_get
  have hfail : Ok (do
      iunlockput p k
      return -1) s fun (_ : ℤ) s' => WellFormed s' := by
    refine safe_bind (safe_mono (iunlockput_ok h List.not_mem_nil) ?_)
    rintro - s₁ ⟨h₁, hf₁⟩
    exact safe_pure (h₁.wellFormed hf₁.base)
  cases hfile : s.freeFile with
  | none => exact hfail
  | some f =>
    cases hfd : s.freeFd p with
    | none => exact hfail
    | some fd =>
      have href : (s.ftable f).ref = 0 := by simpa using List.find?_some hfile
      refine safe_bind (safe_modify ?_)
      have h₁ : ∀ o, Inv { s with ofile := o } p s.base [k] [k] := fun _ =>
        ⟨h.lock, h.valid, h.sub, h.refs, h.uniq, h.small, h.mem, h.ents⟩
      refine safe_bind (safe_mono (iunlock_ok (h₁ _) List.not_mem_nil) ?_)
      rintro - s₂ ⟨h₂, hf₂, -⟩
      refine safe_bind (safe_modify (safe_pure ?_))
      have hbase : s₂.base = s.base := by
        rw [← hf₂.base]
        rfl
      have href₂ : (s₂.ftable f).ref = 0 := by
        rw [hf₂.ftable]
        exact href
      refine ⟨fun k' => ?_, fun k' => ?_, h₂.uniq, h₂.small, h₂.mem, h₂.ents⟩
      · exact (h₂.lock k').trans (if_neg List.not_mem_nil)
      · have hc : [k].count k' = if k = k' then 1 else 0 := by simp [List.count_singleton]
        rw [base_setFile s₂ href₂, hbase, Nat.cast_add, ← hc]
        exact h₂.refs k'

theorem sysOpen_ok {ninodes : ℕ} (hn : ninodes ≤ 2 ^ 16) {path : List UInt8} {omode : ℕ}
    (h : WellFormed s) : Ok (sysOpen ninodes p path omode) s fun _ s' => WellFormed s' := by
  unfold sysOpen
  refine safe_ite (fun _ => ?_) fun _ => ?_
  · refine safe_bind (safe_mono (create_ok hn (h.inv p) (base_cwd s p)) ?_)
    rintro (_ | k) s₁ ⟨hf₁, h₁⟩
    · exact safe_pure (Inv.wellFormed h₁ hf₁.base)
    · exact openInode_ok (hf₁.base ▸ h₁)
  · refine safe_bind (safe_mono (namex_ok (h.inv p) (base_cwd s p)) ?_)
    rintro (_ | ⟨k, x⟩) s₁ ⟨hf₁, hr⟩
    · exact safe_pure (Inv.wellFormed hr hf₁.base)
    · refine safe_bind (safe_mono (ilock_ok hr.1 List.mem_cons_self List.not_mem_nil) ?_)
      rintro - s₂ ⟨h₂, hf₂, -⟩
      have hf := hf₁.trans hf₂.tail
      refine safe_get (safe_ite (fun _ => ?_) fun _ => openInode_ok (hf.base ▸ h₂))
      refine safe_bind (safe_mono (iunlockput_ok h₂ List.not_mem_nil) ?_)
      rintro - s₃ ⟨h₃, hf₃⟩
      exact safe_pure (h₃.wellFormed (hf.trans hf₃).base)

/-- `iput` of the current directory of `p`, while `p` holds a reference to the new one. -/
theorem iput_cwd_ok (h : Inv s p s.base [] [k]) :
    Ok (iput p (s.cwd p)) s fun _ s' => WellFormed { s' with cwd := update s'.cwd p k } := by
  -- the reference of the current directory is counted with those of the call
  set B : SlotId → ℕ := fun k' => s.base k' - if s.cwd p = k' then 1 else 0 with hBdef
  have hB : ∀ k', B k' + (if s.cwd p = k' then 1 else 0) = s.base k' := by
    intro k'
    by_cases hk' : s.cwd p = k'
    · have := base_cwd s p
      rw [hk'] at this
      simp only [hBdef, if_pos hk']
      omega
    · simp only [hBdef, if_neg hk', Nat.sub_zero, Nat.add_zero]
  have h' : Inv s p B [] [s.cwd p, k] := by
    refine ⟨h.lock, h.valid, fun _ hk => absurd hk List.not_mem_nil, fun k' => ?_, h.uniq, h.small,
      h.mem, h.ents⟩
    have h1 := h.refs k'
    have h2 := hB k'
    have hc : [s.cwd p, k].count k' = [k].count k' + if s.cwd p = k' then 1 else 0 := by
      rw [List.count_cons]
      simp
    rw [hc]
    omega
  refine safe_mono (iput_ok h' List.not_mem_nil) ?_
  rintro - s₁ ⟨h₁, hf₁⟩
  refine ⟨fun k' => ?_, fun k' => ?_, h₁.uniq, h₁.small, h₁.mem, h₁.ents⟩
  · exact (h₁.lock k').trans (if_neg List.not_mem_nil)
  · have h1 := h₁.refs k'
    have h2 := base_setCwd s₁ p k k'
    have h3 := hB k'
    have hc : [k].count k' = if k = k' then 1 else 0 := by simp [List.count_singleton]
    rw [← hf₁.base, hf₁.cwd] at h2
    rw [hf₁.cwd]
    rw [hc] at h1
    simp only at h2 ⊢
    omega

theorem sysChdir_ok {path : List UInt8} (h : WellFormed s) :
    Ok (sysChdir p path) s fun _ s' => WellFormed s' := by
  refine safe_bind (safe_mono (namex_ok (h.inv p) (base_cwd s p)) ?_)
  rintro (_ | ⟨k, x⟩) s₁ ⟨hf₁, hr⟩
  · exact safe_pure (Inv.wellFormed hr hf₁.base)
  · refine safe_bind (safe_mono (ilock_ok hr.1 List.mem_cons_self List.not_mem_nil) ?_)
    rintro - s₂ ⟨h₂, hf₂, -⟩
    have hf := hf₁.trans hf₂.tail
    refine safe_get (safe_ite (fun _ => ?_) fun _ => ?_)
    · refine safe_bind (safe_mono (iunlockput_ok h₂ List.not_mem_nil) ?_)
      rintro - s₃ ⟨h₃, hf₃⟩
      exact safe_pure (h₃.wellFormed (hf.trans hf₃).base)
    · refine safe_bind (safe_mono (iunlock_ok h₂ List.not_mem_nil) ?_)
      rintro - s₃ ⟨h₃, hf₃, -⟩
      have hbase : s.base = s₃.base := (hf.trans hf₃.tail).base
      have hcwd : s₃.cwd = s₂.cwd := hf₃.cwd
      rw [← hcwd]
      refine safe_bind (safe_mono (iput_cwd_ok (hbase ▸ h₃)) fun _ s₄ h₄ => ?_)
      exact safe_bind (safe_modify (safe_pure h₄))

/-! ## Runs -/

theorem syscall_ok {ninodes : ℕ} (hn : ninodes ≤ 2 ^ 16) {c : Call} (h : WellFormed s)
    (hc : ∀ old new, c = .link old new → ¬LinksSelf s p old new) :
    Ok (syscall ninodes p c) s fun _ s' => WellFormed s' := by
  have hdone : ∀ (r : ℤ) s', Inv s' p s.base [] [] ∧ Frame s.base [] Set.univ s s' → WellFormed s' :=
    fun _ _ hr => hr.1.wellFormed hr.2.base
  have hdrop : ∀ type major minor path, Ok (do
      let r ← create ninodes p path type major minor
      dropCreated p r) s fun _ s' => WellFormed s' := by
    intro type major minor path
    refine safe_bind (safe_mono (create_ok hn (h.inv p) (base_cwd s p)) ?_)
    rintro r s₁ ⟨hf₁, h₁⟩
    exact safe_mono (dropCreated_ok h₁) fun _ _ hr => hr.1.wellFormed (hf₁.trans hr.2).base
  cases c with
  | link old new =>
    exact safe_mono (sysLink_ok (h.inv p) (base_cwd s p) (hc old new rfl)) hdone
  | unlink path => exact safe_mono (sysUnlink_ok (h.inv p) (base_cwd s p)) hdone
  | «open» path omode => exact sysOpen_ok hn h
  | mkdir path => exact hdrop .dir 0 0 path
  | mknod path major minor => exact hdrop .device (short major) (short minor) path
  | chdir path => exact sysChdir_ok h

/-- System calls by any processes, one after another. -/
def runCalls (ninodes : ℕ) : List (P × Call) → M P Unit
  | [] => pure ()
  | (p, c) :: calls => do
    let _ ← syscall ninodes p c
    runCalls ninodes calls

/-- No `sys_link` of the run names the parent directory itself. -/
def NoSelfLink (ninodes : ℕ) : List (P × Call) → St P → Prop
  | [], _ => True
  | (p, c) :: calls, s => (∀ old new, c = .link old new → ¬LinksSelf s p old new) ∧
      ∀ r s', syscall ninodes p c s = .ok (r, s') → NoSelfLink ninodes calls s'

theorem runCalls_ok {ninodes : ℕ} (hn : ninodes ≤ 2 ^ 16) {calls : List (P × Call)}
    (h : WellFormed s) (hc : NoSelfLink ninodes calls s) :
    Ok (runCalls ninodes calls) s fun _ s' => WellFormed s' := by
  induction calls generalizing s with
  | nil => exact safe_pure h
  | cons pc calls ih =>
    obtain ⟨p, c⟩ := pc
    obtain ⟨hself, hrest⟩ := hc
    refine safe_bind (safe_mono_eq (syscall_ok hn h hself) fun r s' hx h' => ?_)
    exact ih h' (hrest r s' hx)

/-- In every run without a `sys_link` that names the parent directory itself, no process sleeps on an
inode lock, its own or another's. -/
theorem no_self_deadlock {ninodes : ℕ} (hn : ninodes ≤ 2 ^ 16) {s : St P} (h : WellFormed s)
    {calls : List (P × Call)} (hc : NoSelfLink ninodes calls s) (p q : P) :
    runCalls ninodes calls s ≠ .error (.sleep p q) := by
  intro he
  obtain ⟨msg, hmsg⟩ := (runCalls_ok hn h hc).error he
  cases hmsg

/-! ## A run that stops -/

def slot0 : SlotId := ⟨0, by decide⟩

/-- The root directory with one file, `f`; one process, whose current directory is the root. -/
def boot : St (Fin 1) where
  nfree := 900
  din i := if i = 1 then ⟨.dir, 0, 0, 2, 48, 1, false⟩
    else if i = 2 then ⟨.file, 0, 0, 1, 0, 0, false⟩ else .fresh .free
  ent i j := if i = 1 then
      if j = 0 then ⟨1, dot⟩ else if j = 1 then ⟨1, dotdot⟩ else if j = 2 then ⟨2, [102]⟩ else .none
    else .none
  inode k := if k = slot0 then ⟨1, 1, none, false, .fresh .free⟩ else ⟨0, 0, none, false, .fresh .free⟩
  cwd _ := slot0
  ofile _ _ := none
  ftable _ := ⟨0, none⟩

theorem boot_wellFormed : WellFormed boot := by
  have hzero : ∀ k, 0 < (boot.inode k).ref → k = slot0 := by
    intro k hr
    by_contra hk
    simp [boot, hk] at hr
  refine ⟨fun k => ?_, fun k => ?_, fun k k' hr hr' _ => ?_, fun k hr => ?_, fun k _ hv => ?_,
    fun i ht j hj => ?_⟩
  · simp only [boot]
    split <;> rfl
  · have hfiles : ∑ f, (boot.ftable f).refTo k = 0 := sum_eq_zero fun _ _ => rfl
    have hcwd : (∑ q, if boot.cwd q = k then 1 else 0) = if slot0 = k then 1 else 0 := by
      rw [Fin.sum_univ_one]
      rfl
    rw [St.base, hfiles, hcwd]
    by_cases hk : slot0 = k
    · subst hk
      decide
    · rw [if_neg hk]
      simp [boot, Ne.symm hk]
  · rw [hzero k hr, hzero k' hr']
  · rw [hzero k hr]
    decide
  · simp only [boot] at hv
    split at hv <;> cases hv
  · by_cases hi : i = 1
    · subst hi
      have hj' : (j + 1) * 16 ≤ 48 := hj
      have hj3 : j < 3 := by omega
      intro _
      interval_cases j <;> decide
    · exfalso
      simp only [boot, if_neg hi] at ht
      split at ht <;> cases ht

/-- `sys_link` of `f` to `.` waits for the lock of the root, which it holds. -/
theorem link_dot_self_deadlock :
    WellFormed boot ∧ runCalls 200 [(0, .link [102] dot)] boot = .error (.sleep 0 0) :=
  ⟨boot_wellFormed, rfl⟩

/-- `f` gets a second name `g`, and loses its first. -/
theorem no_self_deadlock_link :
    runCalls 200 [(0, .link [102] [103]), (0, .unlink [102])] boot ≠ .error (.sleep 0 0) := by
  have hc : NoSelfLink 200 [(0, .link [102] [103]), (0, .unlink [102])] boot := by
    refine ⟨?_, fun _ _ _ => ⟨(fun _ _ h => by cases h), fun _ _ _ => trivial⟩⟩
    rintro old new h ⟨i, x, D, name, -, -, hres, hname⟩
    cases h
    have hg : boot.resolve 0 true [103] = some (1, [103]) := by decide
    rw [hg] at hres
    cases hres
    revert hname
    decide
  exact no_self_deadlock (by decide) boot_wellFormed hc 0 0

end Xv6.X86.Fs
