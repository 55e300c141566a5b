import Xv6.X86.Fs

/-!
# Sleep-locks of inodes in the x86 kernel

`Inv s p B L R` describes a state inside a call of process `p`, which holds the locks of the entries
`L` of the inode cache and one reference for each element of `R`, while `B` counts the references
that current directories and open files hold. It says that no directory other than the root names
itself, except by `.`, which is what keeps a call from taking a lock twice.

`Frame B R X s s'` is what a function leaves alone: entries that are still referenced keep their
inode, and an inode outside `X` that is still allocated keeps its type, its size and its content.
-/

namespace Xv6.X86.Fs

open Function

open Xv6.Fs (Kind Name Dirent dot dotdot rootIno short skipelem slash direntSize)

variable {P : Type}

/-! ## Pure path resolution -/

namespace St

variable (s : St P)

/-- What `dirlookupFrom` finds in directory `i`. -/
def lookupFrom (i : ℕ) (name : Name) (j : ℕ) : ℕ → Option ℕ
  | 0 => none
  | fuel + 1 =>
    if j * direntSize < (s.din i).size then
      if (s.ent i j).inum = 0 then lookupFrom i name (j + 1) fuel
      else if (s.ent i j).name = name then some (s.ent i j).inum
      else lookupFrom i name (j + 1) fuel
    else none

/-- The inode that directory `i` lists under `name`. -/
def lookup (i : ℕ) (name : Name) : Option ℕ := s.lookupFrom i name 0 ((s.din i).size + 1)

/-- Where `namexFrom` ends when it starts at inode `i`. -/
def walkFrom (parent : Bool) (i : ℕ) (path : List UInt8) : ℕ → Option (ℕ × Name)
  | 0 => none
  | fuel + 1 =>
    match skipelem path with
    | none => if parent then none else some (i, [])
    | some (name, rest) =>
      if (s.din i).type ≠ .dir then none
      else if parent = true ∧ rest = [] then some (i, name)
      else
        match s.lookup i name with
        | none => none
        | some i' => walkFrom parent i' rest fuel

/-- The inode that `path` names for process `p`, or that of its parent directory and the last
name. -/
def resolve (p : P) (parent : Bool) (path : List UInt8) : Option (ℕ × Name) :=
  s.walkFrom parent (if path.head? = some slash then rootIno else (s.inode (s.cwd p)).inum) path
    (path.length + 1)

end St

theorem lookupFrom_eq_none {s : St P} {i : ℕ} {name : Name} {j fuel : ℕ}
    (hf : (s.din i).size < j + fuel) :
    s.lookupFrom i name j fuel = none ↔
      ∀ j' ≥ j, j' * direntSize < (s.din i).size → (s.ent i j').inum = 0 ∨ (s.ent i j').name ≠ name := by
  have hd : ∀ j, j * direntSize = 16 * j := fun j => Nat.mul_comm j 16
  induction fuel generalizing j with
  | zero =>
    simp only [St.lookupFrom, true_iff]
    intro j' hj hlt
    rw [hd] at hlt
    omega
  | succ fuel ih =>
    have hstep := ih (j := j + 1) (by omega)
    unfold St.lookupFrom
    by_cases hj : j * direntSize < (s.din i).size
    · rw [if_pos hj]
      by_cases h0 : (s.ent i j).inum = 0
      · rw [if_pos h0]
        apply hstep.trans
        constructor
        · intro h j' hj' hlt
          rcases Nat.eq_or_lt_of_le hj' with rfl | hj'
          · exact Or.inl h0
          · exact h j' hj' hlt
        · exact fun h j' hj' => h j' (by omega)
      · rw [if_neg h0]
        by_cases hn : (s.ent i j).name = name
        · rw [if_pos hn]
          constructor
          · intro h
            cases h
          · intro h
            rcases h j (le_refl j) hj with h | h
            · exact absurd h h0
            · exact absurd hn h
        · rw [if_neg hn]
          apply hstep.trans
          constructor
          · intro h j' hj' hlt
            rcases Nat.eq_or_lt_of_le hj' with rfl | hj'
            · exact Or.inr hn
            · exact h j' hj' hlt
          · exact fun h j' hj' => h j' (by omega)
    · rw [if_neg hj]
      simp only [true_iff]
      intro j' hj' hlt
      rw [hd] at hj hlt
      omega

theorem lookup_eq_none {s : St P} {i : ℕ} {name : Name} :
    s.lookup i name = none ↔
      ∀ j, j * direntSize < (s.din i).size → (s.ent i j).inum = 0 ∨ (s.ent i j).name ≠ name := by
  rw [St.lookup, lookupFrom_eq_none (by omega)]
  exact ⟨fun h j => h j (Nat.zero_le j), fun h j _ => h j⟩

theorem lookupFrom_congr {s s' : St P} {i : ℕ} (hs : (s'.din i).size = (s.din i).size)
    (he : s'.ent i = s.ent i) (name : Name) (j fuel : ℕ) :
    s'.lookupFrom i name j fuel = s.lookupFrom i name j fuel := by
  induction fuel generalizing j with
  | zero => rfl
  | succ fuel ih => simp only [St.lookupFrom, hs, he, ih]

theorem lookup_congr {s s' : St P} {i : ℕ} (hs : (s'.din i).size = (s.din i).size)
    (he : s'.ent i = s.ent i) (name : Name) : s'.lookup i name = s.lookup i name := by
  rw [St.lookup, St.lookup, hs, lookupFrom_congr hs he]

/-! ## The invariant -/

/-- An entry of directory `i` that names `i` itself is `.`, or `..` in the root. -/
def SelfOk (i : ℕ) (de : Dirent) : Prop :=
  de.inum ≠ 0 → de.inum < 2 ^ 16 ∧
    (de.inum = i → de.name = dot ∨ i = rootIno ∧ de.name = dotdot)

/-- The state inside a call of `p`, which holds the locks `L` and the references `R`. -/
structure Inv (s : St P) (p : P) (B : SlotId → ℕ) (L R : List SlotId) : Prop where
  lock : ∀ k, (s.inode k).lock = if k ∈ L then some p else none
  valid : ∀ k ∈ L, (s.inode k).valid = true
  sub : ∀ k ∈ L, k ∈ R
  refs : ∀ k, (B k + R.count k : ℤ) ≤ (s.inode k).ref
  uniq : ∀ k k', 0 < (s.inode k).ref → 0 < (s.inode k').ref →
    (s.inode k).inum = (s.inode k').inum → k = k'
  small : ∀ k, 0 < (s.inode k).ref → (s.inode k).inum < 2 ^ 16
  mem : ∀ k, 0 < (s.inode k).ref → (s.inode k).valid →
    (s.inode k).d.type = (s.din (s.inode k).inum).type ∧
      (s.inode k).d.size = (s.din (s.inode k).inum).size ∧
      (s.din (s.inode k).inum).type ≠ .free
  ents : ∀ i, (s.din i).type = .dir → ∀ j, (j + 1) * direntSize ≤ (s.din i).size →
    SelfOk i (s.ent i j)

/-- What a function leaves alone. -/
structure Frame (B : SlotId → ℕ) (R : List SlotId) (X : Set ℕ) (s s' : St P) : Prop where
  cwd : s'.cwd = s.cwd
  ftable : s'.ftable = s.ftable
  inum : ∀ k, 0 < B k + R.count k → (s'.inode k).inum = (s.inode k).inum
  alive : ∀ k, 0 < B k + R.count k → (s.din (s.inode k).inum).type ≠ .free →
    (s'.din (s.inode k).inum).type ≠ .free
  same : ∀ i ∉ X, (s'.din i).type ≠ .free →
    (s'.din i).type = (s.din i).type ∧ (s'.din i).size = (s.din i).size ∧ s'.ent i = s.ent i

variable {s s' s'' : St P} {p : P} {B : SlotId → ℕ} {L R : List SlotId} {X Y : Set ℕ} {k : SlotId}

theorem Frame.refl : Frame B R X s s :=
  ⟨rfl, rfl, fun _ _ => rfl, fun _ _ h => h, fun _ _ _ => ⟨rfl, rfl, rfl⟩⟩

theorem Frame.trans (h : Frame B R X s s') (h' : Frame B R X s' s'') : Frame B R X s s'' := by
  refine ⟨h'.cwd.trans h.cwd, h'.ftable.trans h.ftable,
    fun k hk => (h'.inum k hk).trans (h.inum k hk), fun k hk ha => ?_, fun i hi ha => ?_⟩
  · have h1 := h.alive k hk ha
    rw [← h.inum k hk] at h1 ⊢
    exact h'.alive k hk h1
  · obtain ⟨ht, hz, he⟩ := h'.same i hi ha
    obtain ⟨ht', hz', he'⟩ := h.same i hi (ht ▸ ha)
    exact ⟨ht.trans ht', hz.trans hz', he.trans he'⟩

theorem Frame.mono (h : Frame B R X s s') (hX : X ⊆ Y) : Frame B R Y s s' :=
  ⟨h.cwd, h.ftable, h.inum, h.alive, fun i hi => h.same i fun hx => hi (hX hx)⟩

/-- A function that keeps the references `k :: R` keeps the references `R`. -/
theorem Frame.tail (h : Frame B (k :: R) X s s') : Frame B R X s s' := by
  have hc : ∀ k', 0 < B k' + R.count k' → 0 < B k' + (k :: R).count k' := by
    intro k' hk'
    have := List.count_le_count_cons (a := k') (b := k) (l := R)
    omega
  exact ⟨h.cwd, h.ftable, fun k' hk' => h.inum k' (hc k' hk'),
    fun k' hk' => h.alive k' (hc k' hk'), h.same⟩

theorem Inv.perm {R' : List SlotId} (h : Inv s p B L R) (hp : R.Perm R') : Inv s p B L R' :=
  ⟨h.lock, h.valid, fun k hk => hp.mem_iff.1 (h.sub k hk), fun k => hp.count_eq k ▸ h.refs k, h.uniq,
    h.small, h.mem, h.ents⟩

theorem Inv.drop (h : Inv s p B L (k :: R)) (hL : k ∉ L) : Inv s p B L R := by
  refine ⟨h.lock, h.valid, fun k' hk' => ?_, fun k' => ?_, h.uniq, h.small, h.mem, h.ents⟩
  · rcases List.mem_cons.1 (h.sub k' hk') with rfl | hR
    · exact absurd hk' hL
    · exact hR
  · have := h.refs k'
    have := List.count_le_count_cons (a := k') (b := k) (l := R)
    omega

theorem Frame.perm {R' : List SlotId} (h : Frame B R X s s') (hp : R.Perm R') :
    Frame B R' X s s' :=
  ⟨h.cwd, h.ftable, fun k hk => h.inum k (by rwa [hp.count_eq]),
    fun k hk => h.alive k (by rwa [hp.count_eq]), h.same⟩

/-- A referenced inode that was locked once keeps its type. -/
theorem Frame.type (hf : Frame B R X s s') (hk : k ∈ R)
    (hX : (s.inode k).inum ∉ X) (ha : (s.din (s.inode k).inum).type ≠ .free) :
    (s'.din (s'.inode k).inum).type = (s.din (s.inode k).inum).type := by
  have hpos : 0 < B k + R.count k := by
    have := List.count_pos_iff.2 hk
    omega
  rw [hf.inum k hpos]
  exact (hf.same _ hX (hf.alive k hpos ha)).1

namespace Inv

variable (h : Inv s p B L R)

include h

theorem ref_pos (hk : 0 < B k + R.count k) : 0 < (s.inode k).ref := by
  have := h.refs k
  omega

theorem ref_mem (hk : k ∈ R) : 0 < (s.inode k).ref :=
  h.ref_pos (by have := List.count_pos_iff.2 hk; omega)

theorem locked (hk : k ∈ L) : (s.inode k).d.type = (s.din (s.inode k).inum).type ∧
    (s.inode k).d.size = (s.din (s.inode k).inum).size ∧ (s.din (s.inode k).inum).type ≠ .free :=
  h.mem k (h.ref_mem (h.sub k hk)) (h.valid k hk)

/-- A locked inode keeps its content through a function that leaves it alone. -/
theorem keeps (hk : k ∈ L) (hf : Frame B R X s s') (hX : (s.inode k).inum ∉ X) :
    (s'.inode k).inum = (s.inode k).inum ∧
      (s'.din (s.inode k).inum).type = (s.din (s.inode k).inum).type ∧
      (s'.din (s.inode k).inum).size = (s.din (s.inode k).inum).size ∧
      s'.ent (s.inode k).inum = s.ent (s.inode k).inum := by
  have hpos : 0 < B k + R.count k := by
    have := List.count_pos_iff.2 (h.sub k hk)
    omega
  obtain ⟨-, -, ht⟩ := h.locked hk
  exact ⟨hf.inum k hpos, hf.same _ hX (hf.alive k hpos ht)⟩

end Inv

/-! ## Changing one entry of the inode cache -/

theorem setInode_self (s : St P) (k : SlotId) (f : Inode P → Inode P) :
    (s.setInode k f).inode k = f (s.inode k) := update_self ..

theorem setInode_of_ne {k' : SlotId} (hk : k' ≠ k) (f : Inode P → Inode P) :
    (s.setInode k f).inode k' = s.inode k' := update_of_ne hk ..

theorem setInode_setInode (s : St P) (k : SlotId) (f g : Inode P → Inode P) :
    (s.setInode k f).setInode k g = s.setInode k fun ip => g (f ip) := by
  simp only [St.setInode, update_self, update_idem]

theorem Inv.set {f : Inode P → Inode P} {L' R' : List SlotId} (h : Inv s p B L R)
    (hlock : (f (s.inode k)).lock = if k ∈ L' then some p else none)
    (hvalid : k ∈ L' → (f (s.inode k)).valid) (hL : ∀ k' ≠ k, (k' ∈ L' ↔ k' ∈ L))
    (hsub : ∀ k' ∈ L', k' ∈ R') (hrefs : (B k + R'.count k : ℤ) ≤ (f (s.inode k)).ref)
    (hR : ∀ k' ≠ k, R'.count k' ≤ R.count k')
    (huniq : 0 < (f (s.inode k)).ref → ∀ k' ≠ k, 0 < (s.inode k').ref →
      (s.inode k').inum ≠ (f (s.inode k)).inum)
    (hsmall : 0 < (f (s.inode k)).ref → (f (s.inode k)).inum < 2 ^ 16)
    (hmem : 0 < (f (s.inode k)).ref → (f (s.inode k)).valid →
      (f (s.inode k)).d.type = (s.din (f (s.inode k)).inum).type ∧
        (f (s.inode k)).d.size = (s.din (f (s.inode k)).inum).size ∧
        (s.din (f (s.inode k)).inum).type ≠ .free) :
    Inv (s.setInode k f) p B L' R' := by
  constructor
  · intro k'
    by_cases hk : k' = k
    · rw [hk, setInode_self]
      exact hlock
    · rw [setInode_of_ne hk, h.lock k']
      exact if_congr (hL k' hk).symm rfl rfl
  · intro k' hk'
    by_cases hk : k' = k
    · rw [hk, setInode_self]
      exact hvalid (hk ▸ hk')
    · rw [setInode_of_ne hk]
      exact h.valid k' ((hL k' hk).1 hk')
  · exact hsub
  · intro k'
    by_cases hk : k' = k
    · rw [hk, setInode_self]
      exact hrefs
    · rw [setInode_of_ne hk]
      have := h.refs k'
      have := hR k' hk
      omega
  · intro k₁ k₂ h₁ h₂ he
    by_cases hk₁ : k₁ = k <;> by_cases hk₂ : k₂ = k
    · rw [hk₁, hk₂]
    · rw [hk₁, setInode_self] at h₁ he
      rw [setInode_of_ne hk₂] at h₂ he
      exact absurd he.symm (huniq h₁ k₂ hk₂ h₂)
    · rw [hk₂, setInode_self] at h₂ he
      rw [setInode_of_ne hk₁] at h₁ he
      exact absurd he (huniq h₂ k₁ hk₁ h₁)
    · rw [setInode_of_ne hk₁] at h₁ he
      rw [setInode_of_ne hk₂] at h₂ he
      exact h.uniq k₁ k₂ h₁ h₂ he
  · intro k' hr
    by_cases hk : k' = k
    · rw [hk, setInode_self] at hr ⊢
      exact hsmall hr
    · rw [setInode_of_ne hk] at hr ⊢
      exact h.small k' hr
  · intro k' hr hv
    by_cases hk : k' = k
    · rw [hk, setInode_self] at hr hv ⊢
      exact hmem hr hv
    · rw [setInode_of_ne hk] at hr hv ⊢
      exact h.mem k' hr hv
  · exact h.ents

/-- The entry keeps its inode number. -/
theorem Inv.touch {f : Inode P → Inode P} {L' R' : List SlotId} (h : Inv s p B L R)
    (hr : 0 < (s.inode k).ref) (hi : (f (s.inode k)).inum = (s.inode k).inum)
    (hlock : (f (s.inode k)).lock = if k ∈ L' then some p else none)
    (hvalid : k ∈ L' → (f (s.inode k)).valid) (hL : ∀ k' ≠ k, (k' ∈ L' ↔ k' ∈ L))
    (hsub : ∀ k' ∈ L', k' ∈ R') (hrefs : (B k + R'.count k : ℤ) ≤ (f (s.inode k)).ref)
    (hR : ∀ k' ≠ k, R'.count k' ≤ R.count k')
    (hmem : (f (s.inode k)).valid →
      (f (s.inode k)).d.type = (s.din (s.inode k).inum).type ∧
        (f (s.inode k)).d.size = (s.din (s.inode k).inum).size ∧
        (s.din (s.inode k).inum).type ≠ .free) :
    Inv (s.setInode k f) p B L' R' :=
  h.set hlock hvalid hL hsub hrefs hR
    (fun _ k' hk' hr' he => hk' (h.uniq k' k hr' hr (he.trans hi))) (fun _ => hi ▸ h.small k hr)
    fun _ => hi.symm ▸ hmem

theorem Inv.incRef (h : Inv s p B L R) (hr : 0 < (s.inode k).ref) :
    Inv (s.setInode k fun ip => { ip with ref := ip.ref + 1 }) p B L (k :: R) := by
  refine h.touch hr rfl (h.lock k) (h.valid k) (fun _ _ => Iff.rfl)
    (fun k' hk' => List.mem_cons_of_mem k (h.sub k' hk')) ?_ (fun k' hk' => ?_) (h.mem k hr)
  · have := h.refs k
    rw [List.count_cons_self]
    push_cast
    show _ ≤ (s.inode k).ref + 1
    omega
  · rw [List.count_cons_of_ne (Ne.symm hk')]

theorem setInode_inum {f : Inode P → Inode P} (hf : (f (s.inode k)).inum = (s.inode k).inum)
    (k' : SlotId) : ((s.setInode k f).inode k').inum = (s.inode k').inum := by
  by_cases hk : k' = k
  · rw [hk, setInode_self, hf]
  · rw [setInode_of_ne hk]

theorem Frame.set {f : Inode P → Inode P}
    (hf : 0 < B k + R.count k → (f (s.inode k)).inum = (s.inode k).inum) :
    Frame B R X s (s.setInode k f) := by
  refine ⟨rfl, rfl, fun k' hk' => ?_, fun _ _ h => h, fun _ _ _ => ⟨rfl, rfl, rfl⟩⟩
  by_cases hk : k' = k
  · rw [hk, setInode_self]
    exact hf (hk ▸ hk')
  · rw [setInode_of_ne hk]

/-- `iupdate` and writes to directories change the disk only. -/
theorem Inv.disk (h : Inv s p B L R) (n : ℕ) (din : ℕ → Dinode) (ent : ℕ → ℕ → Dirent)
    (hmem : ∀ k, 0 < (s.inode k).ref → (s.inode k).valid →
      (s.inode k).d.type = (din (s.inode k).inum).type ∧
        (s.inode k).d.size = (din (s.inode k).inum).size ∧
        (din (s.inode k).inum).type ≠ .free)
    (hents : ∀ i, (din i).type = .dir → ∀ j, (j + 1) * direntSize ≤ (din i).size →
      SelfOk i (ent i j)) :
    Inv { s with nfree := n, din := din, ent := ent } p B L R :=
  ⟨h.lock, h.valid, h.sub, h.refs, h.uniq, h.small, hmem, hents⟩

/-! ## Inodes -/

variable {α : Type}

/-- From `s` the program panics, or it returns with `Q`; it does not sleep. -/
abbrev Ok (x : M P α) (s : St P) (Q : α → St P → Prop) : Prop :=
  Safe (fun e => ∃ msg, e = Stop.panic msg) x s Q

theorem panic_ok {msg : String} {Q : α → St P → Prop} : Ok (panic msg) s Q := ⟨msg, rfl⟩

theorem iget_ok (h : Inv s p B L R) {i : ℕ} (hi : i < 2 ^ 16) :
    Ok (iget i) s fun k s' => Inv s' p B L (k :: R) ∧ Frame B R ∅ s s' ∧
      (s'.inode k).inum = i ∧ s'.din = s.din ∧ s'.ent = s.ent := by
  unfold iget
  apply safe_get
  cases hc : s.inCache i with
  | some k =>
    obtain ⟨hr, he⟩ : 0 < (s.inode k).ref ∧ (s.inode k).inum = i := by
      simpa using List.find?_some hc
    refine safe_bind (safe_modify (safe_pure ⟨h.incRef hr, Frame.set fun _ => rfl, ?_, rfl, rfl⟩))
    rw [setInode_self]
    exact he
  | none =>
    have hnone : ∀ k, 0 < (s.inode k).ref → (s.inode k).inum ≠ i := by
      intro k hr he
      have := List.find?_eq_none.1 hc k (List.mem_finRange k)
      simp [hr, he] at this
    cases hs : s.emptySlot with
    | none => exact panic_ok
    | some k =>
      have hr : (s.inode k).ref = 0 := by simpa using List.find?_some hs
      have hB : B k + R.count k = 0 := by
        have := h.refs k
        omega
      have hL : k ∉ L := by
        intro hk
        have := h.ref_mem (h.sub k hk)
        omega
      refine safe_bind (safe_modify (safe_pure ⟨?_, Frame.set fun hk => ?_, ?_, rfl, rfl⟩))
      · refine h.set (h.lock k) (fun hk => absurd hk hL) (fun _ _ => Iff.rfl)
          (fun k' hk' => List.mem_cons_of_mem k (h.sub k' hk')) ?_ (fun k' hk' => ?_) ?_
          (fun _ => hi) (fun _ hv => by cases hv)
        · rw [List.count_cons_self]
          push_cast
          show (B k + (R.count k + 1) : ℤ) ≤ 1
          omega
        · rw [List.count_cons_of_ne (Ne.symm hk')]
        · exact fun _ k' _ hr' => hnone k' hr'
      · omega
      · rw [setInode_self]

theorem idup_ok (h : Inv s p B L R) (hk : 0 < B k + R.count k) :
    Ok (idup k) s fun k' s' => k' = k ∧ Inv s' p B L (k :: R) ∧ Frame B R ∅ s s' ∧
      s'.din = s.din ∧ s'.ent = s.ent := by
  exact safe_bind (safe_modify (safe_pure ⟨rfl, h.incRef (h.ref_pos hk), Frame.set fun _ => rfl, rfl,
    rfl⟩))

/-- The state after `ifree`. -/
theorem ifree_eq (s : St P) (k : SlotId) : ifree k s = .ok ((),
    { s with
      nfree := s.nfree + (s.inode k).d.blocks
      din := update s.din (s.inode k).inum
        { (s.inode k).d with size := 0, data := 0, ind := false, type := .free }
      inode := update s.inode k { s.inode k with
        valid := false
        d := { (s.inode k).d with size := 0, data := 0, ind := false, type := .free } } }) := by
  simp [ifree, itrunc, iupdate, bind, StateT.bind, modify, modifyGet, MonadStateOf.modifyGet,
    StateT.modifyGet, Except.bind, pure, Except.pure, St.setD, St.setInode, St.setDin]

theorem ilock_ok (h : Inv s p B L R) (hk : k ∈ R) (hL : k ∉ L) :
    Ok (ilock p k) s fun _ s' => Inv s' p B (k :: L) R ∧ Frame B R ∅ s s' ∧
      s'.din = s.din ∧ s'.ent = s.ent ∧ ∀ k', (s'.inode k').inum = (s.inode k').inum := by
  have hr := h.ref_mem hk
  -- the state after the lock is taken and the fields are read
  have hset : ∀ f : Inode P → Inode P, (f (s.inode k)).lock = some p →
      (f (s.inode k)).valid → (f (s.inode k)).inum = (s.inode k).inum →
      (f (s.inode k)).ref = (s.inode k).ref →
      ((f (s.inode k)).d.type = (s.din (s.inode k).inum).type ∧
        (f (s.inode k)).d.size = (s.din (s.inode k).inum).size ∧
        (s.din (s.inode k).inum).type ≠ .free) →
      Inv (s.setInode k f) p B (k :: L) R := by
    intro f hl hv hi href hd
    refine h.touch hr hi ?_ (fun _ => hv) (fun k' hk' => ?_) (fun k' hk' => ?_) ?_
      (fun _ _ => le_refl _) fun _ => hd
    · rw [if_pos List.mem_cons_self, hl]
    · simp [hk']
    · rcases List.mem_cons.1 hk' with rfl | hk'
      · exact hk
      · exact h.sub k' hk'
    · rw [href]
      exact h.refs k
  unfold ilock
  refine safe_get (safe_ite (fun _ => panic_ok) fun _ => safe_bind ?_)
  have hnone : (s.inode k).lock = none := by rw [h.lock k, if_neg hL]
  unfold acquiresleep
  apply safe_get
  rw [hnone]
  apply safe_modify
  unfold load
  refine safe_get (safe_ite (fun hv => ?_) fun hv => ?_)
  · rw [setInode_self] at hv
    refine safe_pure ⟨hset _ rfl hv rfl rfl (h.mem k hr hv), Frame.set fun _ => rfl, rfl, rfl,
      setInode_inum rfl⟩
  · refine safe_bind (safe_modify (safe_ite (fun _ => panic_ok) fun ht => safe_pure ?_))
    rw [setInode_setInode]
    rw [setInode_self] at ht
    exact ⟨hset _ rfl rfl rfl rfl ⟨rfl, rfl, ht⟩, Frame.set fun _ => rfl, rfl, rfl,
      setInode_inum rfl⟩

theorem iput_ok (h : Inv s p B L (k :: R)) (hL : k ∉ L) :
    Ok (iput p k) s fun _ s' => Inv s' p B L R ∧ Frame B R ∅ s s' := by
  have hr := h.ref_mem (k := k) List.mem_cons_self
  have hrefs : (B k + R.count k : ℤ) ≤ (s.inode k).ref - 1 := by
    have := h.refs k
    rw [List.count_cons_self] at this
    push_cast at this
    omega
  have hset : ∀ f : Inode P → Inode P, (f (s.inode k)).lock = none →
      (f (s.inode k)).inum = (s.inode k).inum → (f (s.inode k)).ref = (s.inode k).ref - 1 →
      ((f (s.inode k)).valid →
        (s.inode k).valid ∧ (f (s.inode k)).d = (s.inode k).d) →
      Inv (s.setInode k f) p B L R := by
    intro f hl hi href hd
    refine h.touch hr hi ?_ (fun hk => absurd hk hL) (fun _ _ => Iff.rfl) (fun k' hk' => ?_) ?_
      (fun k' hk' => ?_) fun hv => ?_
    · rw [if_neg hL, hl]
    · rcases List.mem_cons.1 (h.sub k' hk') with rfl | hR
      · exact absurd hk' hL
      · exact hR
    · rw [href]
      exact hrefs
    · rw [List.count_cons_of_ne (Ne.symm hk')]
    · obtain ⟨hv', hd'⟩ := hd hv
      rw [hd']
      exact h.mem k hr hv'
  unfold iput
  have hnone : (s.inode k).lock = none := by rw [h.lock k, if_neg hL]
  apply safe_bind
  unfold acquiresleep
  apply safe_get
  rw [hnone]
  refine safe_modify (safe_get (safe_ite (fun hc => safe_bind ?_) fun _ => ?_))
  · -- the last reference to an inode without links: its on-disk inode becomes free
    rw [setInode_self] at hc
    have hzero : B k + R.count k = 0 := by
      have : (s.inode k).ref = 1 := hc.2.2
      omega
    refine safe_of_eq (ifree_eq _ k) (safe_bind (safe_modify (safe_modify ?_)))
    have hother : ∀ k', 0 < (s.inode k').ref → k' ≠ k → (s.inode k').inum ≠ (s.inode k).inum :=
      fun k' hr' hk' he => hk' (h.uniq k' k hr' hr he)
    rw [setInode_setInode]
    constructor
    · have h' := hset (fun ip => { ip with
        lock := none, valid := false, ref := ip.ref - 1
        d := { ip.d with size := 0, data := 0, ind := false, type := .free } }) rfl rfl rfl
        nofun
      have := h'.disk (s.nfree + (s.inode k).d.blocks)
        (update s.din (s.inode k).inum
          { (s.inode k).d with size := 0, data := 0, ind := false, type := .free }) s.ent
        (fun k' hr' hv' => ?_) (fun i ht j hj => ?_)
      · convert this using 1
        simp only [St.setInode, update_self, update_idem]
      · by_cases hk' : k' = k
        · rw [hk', setInode_self] at hv'
          cases hv'
        · rw [setInode_of_ne hk'] at hr' hv' ⊢
          rw [update_of_ne (hother k' hr' hk')]
          exact h.mem k' hr' hv'
      · by_cases hi : i = (s.inode k).inum
        · rw [hi, update_self] at ht
          cases ht
        · rw [update_of_ne hi] at ht hj
          exact h.ents i ht j hj
    · refine ⟨rfl, rfl, fun k' hk' => ?_, fun k' hk' ha => ?_, fun i _ ht => ?_⟩
      · by_cases hkk : k' = k
        · rw [hkk] at hk'
          omega
        · simp [St.setInode, hkk]
      · have hkk : k' ≠ k := by
          rintro rfl
          omega
        have hr' : 0 < (s.inode k').ref := by
          have := h.refs k'
          rw [List.count_cons_of_ne (Ne.symm hkk)] at this
          omega
        simpa [St.setInode, update_of_ne (hother k' hr' hkk)] using ha
      · by_cases hi : i = (s.inode k).inum
        · simp [St.setInode, hi] at ht
        · simp [St.setInode, update_of_ne hi]
  · refine safe_bind (safe_modify (safe_modify ?_))
    rw [setInode_setInode, setInode_setInode]
    exact ⟨hset _ rfl rfl rfl fun hv => ⟨hv, rfl⟩, Frame.set fun _ => rfl⟩

/-! ## Functions that keep the directories as they are -/

/-- The cache and the disk are as before, up to fields that the invariant does not mention. -/
structure Quiet (s s' : St P) : Prop where
  cwd : s'.cwd = s.cwd
  ftable : s'.ftable = s.ftable
  ent : s'.ent = s.ent
  din : ∀ i, (s'.din i).type = (s.din i).type ∧ (s'.din i).size = (s.din i).size
  slot : ∀ k, (s'.inode k).inum = (s.inode k).inum ∧ (s'.inode k).ref = (s.inode k).ref ∧
    (s'.inode k).lock = (s.inode k).lock ∧ (s'.inode k).valid = (s.inode k).valid
  d : ∀ k, (s'.inode k).d.type = (s.inode k).d.type ∧ (s'.inode k).d.size = (s.inode k).d.size

theorem Quiet.refl : Quiet s s :=
  ⟨rfl, rfl, rfl, fun _ => ⟨rfl, rfl⟩, fun _ => ⟨rfl, rfl, rfl, rfl⟩, fun _ => ⟨rfl, rfl⟩⟩

theorem Quiet.trans (h : Quiet s s') (h' : Quiet s' s'') : Quiet s s'' := by
  refine ⟨h'.cwd.trans h.cwd, h'.ftable.trans h.ftable, h'.ent.trans h.ent, fun i => ?_,
    fun k => ?_, fun k => ?_⟩
  · exact ⟨(h'.din i).1.trans (h.din i).1, (h'.din i).2.trans (h.din i).2⟩
  · obtain ⟨a, b, c, d⟩ := h.slot k
    obtain ⟨a', b', c', d'⟩ := h'.slot k
    exact ⟨a'.trans a, b'.trans b, c'.trans c, d'.trans d⟩
  · exact ⟨(h'.d k).1.trans (h.d k).1, (h'.d k).2.trans (h.d k).2⟩

theorem Quiet.frame (q : Quiet s s') : Frame B R X s s' := by
  refine ⟨q.cwd, q.ftable, fun k _ => (q.slot k).1, fun k _ ha => ?_, fun i _ _ => ?_⟩
  · rw [(q.din _).1]
    exact ha
  · exact ⟨(q.din i).1, (q.din i).2, congrFun q.ent i⟩

/-- The entries of the cache have the same inodes, references and locks. -/
theorem Inv.of (h : Inv s p B L R)
    (hs : ∀ k, (s'.inode k).inum = (s.inode k).inum ∧ (s'.inode k).ref = (s.inode k).ref ∧
      (s'.inode k).lock = (s.inode k).lock ∧ (s'.inode k).valid = (s.inode k).valid)
    (hmem : ∀ k, 0 < (s.inode k).ref → (s.inode k).valid →
      (s'.inode k).d.type = (s'.din (s.inode k).inum).type ∧
        (s'.inode k).d.size = (s'.din (s.inode k).inum).size ∧
        (s'.din (s.inode k).inum).type ≠ .free)
    (hents : ∀ i, (s'.din i).type = .dir → ∀ j, (j + 1) * direntSize ≤ (s'.din i).size →
      SelfOk i (s'.ent i j)) : Inv s' p B L R := by
  have hi := fun k => (hs k).1
  have hr := fun k => (hs k).2.1
  have hl := fun k => (hs k).2.2.1
  have hv := fun k => (hs k).2.2.2
  refine ⟨?_, ?_, h.sub, ?_, ?_, ?_, ?_, hents⟩ <;> simp only [hi, hr, hl, hv]
  exacts [h.lock, h.valid, h.refs, h.uniq, h.small, hmem]

theorem Inv.quiet (h : Inv s p B L R) (q : Quiet s s') : Inv s' p B L R := by
  refine h.of q.slot (fun k hr hv => ?_) fun i ht j hj => ?_
  · rw [(q.d k).1, (q.d k).2, (q.din _).1, (q.din _).2]
    exact h.mem k hr hv
  · rw [(q.din i).1] at ht
    rw [(q.din i).2] at hj
    rw [q.ent]
    exact h.ents i ht j hj

theorem setD_slot (f : Dinode → Dinode) (k' : SlotId) :
    ((s.setD k f).inode k').inum = (s.inode k').inum ∧
      ((s.setD k f).inode k').ref = (s.inode k').ref ∧
      ((s.setD k f).inode k').lock = (s.inode k').lock ∧
      ((s.setD k f).inode k').valid = (s.inode k').valid := by
  by_cases hk : k' = k
  · rw [hk, St.setD, setInode_self]
    exact ⟨rfl, rfl, rfl, rfl⟩
  · rw [St.setD, setInode_of_ne hk]
    exact ⟨rfl, rfl, rfl, rfl⟩

theorem Quiet.setD {f : Dinode → Dinode} (ht : ∀ d, (f d).type = d.type)
    (hz : ∀ d, (f d).size = d.size) : Quiet s (s.setD k f) := by
  refine ⟨rfl, rfl, rfl, fun _ => ⟨rfl, rfl⟩, setD_slot f, fun k' => ?_⟩
  by_cases hk : k' = k
  · rw [hk, St.setD, setInode_self]
    exact ⟨ht _, hz _⟩
  · rw [St.setD, setInode_of_ne hk]
    exact ⟨rfl, rfl⟩

theorem Quiet.setNfree (n : ℕ) : Quiet s { s with nfree := n } :=
  ⟨rfl, rfl, rfl, fun _ => ⟨rfl, rfl⟩, fun _ => ⟨rfl, rfl, rfl, rfl⟩, fun _ => ⟨rfl, rfl⟩⟩

theorem iupdate_ok (h : Inv s p B L R) (hk : k ∈ L) : Ok (iupdate k) s fun _ s' => Quiet s s' := by
  obtain ⟨ht, hz, -⟩ := h.locked hk
  refine safe_modify ⟨rfl, rfl, rfl, fun i => ?_, fun _ => ⟨rfl, rfl, rfl, rfl⟩,
    fun _ => ⟨rfl, rfl⟩⟩
  by_cases hi : i = (s.inode k).inum
  · rw [hi]
    simp only [St.setDin, update_self]
    exact ⟨ht, hz⟩
  · simp only [St.setDin, update_of_ne hi]
    exact ⟨trivial, trivial⟩

theorem addNlink_ok (h : Inv s p B L R) (hk : k ∈ L) (x : ℤ) :
    Ok (addNlink k x) s fun _ s' => Quiet s s' := by
  refine safe_bind (safe_modify ?_)
  have q : Quiet s (s.setD k fun d => { d with nlink := short (d.nlink + x) }) :=
    Quiet.setD (fun _ => rfl) fun _ => rfl
  exact safe_mono (iupdate_ok (h.quiet q) hk) fun _ _ q' => q.trans q'

theorem balloc_ok : Ok balloc s fun _ s' => Quiet s s' :=
  safe_get (safe_ite (fun _ => panic_ok) fun _ => safe_modify (Quiet.setNfree _))

theorem bmapIndirect_ok : Ok (bmapIndirect k) s fun _ s' => Quiet s s' := by
  have hrest : ∀ s₁ : St P, Quiet s s₁ → Ok (do
      balloc
      modify fun s => s.setD k fun d => { d with data := d.data + 1 }) s₁ fun _ s' => Quiet s s' := by
    intro s₁ q
    refine safe_bind (safe_mono balloc_ok fun _ s₂ q' => safe_modify ?_)
    exact q.trans (q'.trans (Quiet.setD (fun _ => rfl) fun _ => rfl))
  unfold bmapIndirect
  refine safe_get (safe_ite (fun _ => hrest s Quiet.refl) fun _ => ?_)
  refine safe_bind (safe_mono balloc_ok fun _ s₁ q => safe_bind (safe_modify (hrest _ ?_)))
  exact q.trans (Quiet.setD (fun _ => rfl) fun _ => rfl)

theorem bmap_ok {bn : ℕ} : Ok (bmap k bn) s fun _ s' => Quiet s s' := by
  unfold bmap
  refine safe_get (safe_ite (fun _ => safe_pure Quiet.refl) fun _ => safe_ite (fun _ => ?_) fun _ =>
    safe_ite (fun _ => bmapIndirect_ok) fun _ => panic_ok)
  refine safe_bind (safe_mono balloc_ok fun _ s₁ q => safe_modify ?_)
  exact q.trans (Quiet.setD (fun _ => rfl) fun _ => rfl)

theorem readDirent_ok {msg : String} {j : ℕ} : Ok (readDirent msg k j) s fun de s' => Quiet s s' ∧
    (j + 1) * direntSize ≤ (s.inode k).d.size ∧ de = s.ent (s.inode k).inum j := by
  unfold readDirent
  refine safe_get (safe_ite (fun hj => ?_) fun _ => panic_ok)
  exact safe_bind (safe_mono bmap_ok fun _ s₁ q => safe_pure ⟨q, hj, rfl⟩)

/-! ## Directories -/

/-- The state after a write to the content of the locked directory `k`. -/
theorem Inv.put (h : Inv s p B L R) (hk : k ∈ L) {d : Dinode} {e : ℕ → Dirent}
    (ht : d.type = (s.inode k).d.type)
    (he : d.type = .dir → ∀ j, (j + 1) * direntSize ≤ d.size → SelfOk (s.inode k).inum (e j)) :
    Inv { s.setD k fun _ => d with
      din := update s.din (s.inode k).inum d
      ent := update s.ent (s.inode k).inum e } p B L R := by
  have hr := h.ref_mem (h.sub k hk)
  have hfree : d.type ≠ .free := by
    obtain ⟨h1, -, h2⟩ := h.locked hk
    rwa [ht, h1]
  refine h.of (fun k' => setD_slot (fun _ => d) k') (fun k' hr' hv' => ?_) fun i hti j hj => ?_
  · by_cases hk' : k' = k
    · rw [hk']
      simp only [St.setD, St.setInode, update_self]
      exact ⟨trivial, trivial, hfree⟩
    · have hi : (s.inode k').inum ≠ (s.inode k).inum := fun hi => hk' (h.uniq k' k hr' hr hi)
      simp only [St.setD, St.setInode, update_of_ne hk', update_of_ne hi]
      exact h.mem k' hr' hv'
  · by_cases hi : i = (s.inode k).inum
    · subst hi
      simp only [update_self] at hti hj ⊢
      exact he hti j hj
    · simp only [update_of_ne hi] at hti hj ⊢
      exact h.ents i hti j hj

theorem writeDirent_ok (h : Inv s p B L R) (hk : k ∈ L) {j : ℕ} {de : Dirent}
    (hde : SelfOk (s.inode k).inum de) :
    Ok (writeDirent k j de) s fun ok s' => Inv s' p B L R ∧ Frame B R {(s.inode k).inum} s s' ∧
      (ok → j * direntSize ≤ (s.din (s.inode k).inum).size ∧
        s'.ent (s.inode k).inum = update (s.ent (s.inode k).inum) j de ∧
        (s'.din (s.inode k).inum).size =
          max (s.din (s.inode k).inum).size ((j + 1) * direntSize)) := by
  obtain ⟨htype, hsize, hfree⟩ := h.locked hk
  have hents : (s.din (s.inode k).inum).type = .dir → j * direntSize ≤ (s.inode k).d.size →
      ∀ j', (j' + 1) * direntSize ≤ max (s.inode k).d.size ((j + 1) * direntSize) →
      SelfOk (s.inode k).inum (update (s.ent (s.inode k).inum) j de j') := by
    intro ht hj j' hj'
    by_cases hjj : j' = j
    · rw [hjj, update_self]
      exact hde
    · rw [update_of_ne hjj]
      refine h.ents _ ht j' ?_
      have hd : direntSize = 16 := rfl
      rw [hd] at hj hj' ⊢
      omega
  unfold writeDirent
  refine safe_get (safe_ite (fun _ => safe_pure ⟨h, Frame.refl, fun h => by cases h⟩) fun hj =>
    safe_ite (fun _ => safe_pure ⟨h, Frame.refl, fun h => by cases h⟩) fun _ => ?_)
  rw [Nat.not_lt] at hj
  refine safe_bind (safe_mono bmap_ok fun _ s₁ q => safe_bind (safe_modify ?_))
  have h₁ := h.quiet q
  obtain ⟨hi, -, -, -⟩ := q.slot k
  have hent₁ : s₁.ent = s.ent := q.ent
  refine safe_ite (fun hgrow => ?_) fun hfit => ?_
  · -- the directory grows: its size goes to the in-memory inode and to the disk
    refine safe_bind (safe_modify (safe_bind (safe_modify (safe_pure ?_))))
    set d : Dinode := { (s₁.inode k).d with size := (j + 1) * direntSize } with hd
    have hmax : max (s.din (s.inode k).inum).size ((j + 1) * direntSize) = (j + 1) * direntSize := by
      rw [← hsize]
      omega
    have heq : ((((s₁.setEnt (s₁.inode k).inum j de).setD k fun d =>
        { d with size := (j + 1) * direntSize }).setDin
          (((s₁.setEnt (s₁.inode k).inum j de).setD k fun d =>
            { d with size := (j + 1) * direntSize }).inode k).inum
          (((s₁.setEnt (s₁.inode k).inum j de).setD k fun d =>
            { d with size := (j + 1) * direntSize }).inode k).d)) =
        { s₁.setD k fun _ => d with
          din := update s₁.din (s₁.inode k).inum d
          ent := update s₁.ent (s₁.inode k).inum
            (update (s₁.ent (s₁.inode k).inum) j de) } := by
      simp only [St.setEnt, St.setD, St.setInode, St.setDin, update_self, hd]
    rw [heq]
    refine ⟨h₁.put hk rfl ?_, ?_, fun _ => ⟨hsize ▸ hj, ?_, ?_⟩⟩
    · intro ht j' hj'
      rw [hi, hent₁]
      refine hents ?_ hj j' (hj'.trans (le_max_right _ _))
      rw [← htype, ← (q.d k).1]
      exact ht
    · refine ⟨q.cwd, q.ftable, fun k' _ => ?_, fun k' _ ha => ?_, fun i hX _ => ?_⟩
      · rw [← (q.slot k').1]
        by_cases hk' : k' = k
        · simp [St.setD, St.setInode, hk']
        · simp [St.setD, St.setInode, hk']
      · by_cases hi' : (s.inode k').inum = (s₁.inode k).inum
        · simp only [hi', update_self, hd]
          rw [(q.d k).1, htype]
          exact hfree
        · simp only [update_of_ne hi']
          rw [(q.din _).1]
          exact ha
      · have hi' : i ≠ (s₁.inode k).inum := fun he => hX (he.trans hi)
        simp only [update_of_ne hi']
        exact ⟨(q.din i).1, (q.din i).2, congrFun hent₁ i⟩
    · simp only [hi, update_self, hent₁]
    · simp only [hi, update_self, hmax, hd]
  · refine safe_pure ⟨?_, ?_, fun _ => ⟨hsize ▸ hj, ?_, ?_⟩⟩
    · refine h₁.disk s₁.nfree s₁.din _ h₁.mem fun i ht j' hj' => ?_
      by_cases hi' : i = (s₁.inode k).inum
      · subst hi'
        rw [update_self, hi, hent₁]
        rw [hi] at ht hj'
        rw [(q.din _).1] at ht
        rw [(q.din _).2, ← hsize] at hj'
        exact hents ht hj j' (hj'.trans (le_max_left _ _))
      · rw [update_of_ne hi']
        exact h₁.ents i ht j' hj'
    · refine ⟨q.cwd, q.ftable, fun k' _ => (q.slot k').1, fun k' _ ha => ?_, fun i hX _ => ?_⟩
      · show (s₁.din _).type ≠ _
        rw [(q.din _).1]
        exact ha
      · have hi' : i ≠ (s₁.inode k).inum := fun he => hX (he.trans hi)
        refine ⟨(q.din i).1, (q.din i).2, ?_⟩
        simp only [St.setEnt, update_of_ne hi', hent₁]
    · simp only [St.setEnt, hi, update_self, hent₁]
    · show (s₁.din _).size = _
      rw [(q.din _).2, ← hsize]
      omega

/-- What `dirlookup` of the locked directory `k` does. -/
structure Found (s s' : St P) (p : P) (B : SlotId → ℕ) (L R : List SlotId) (k : SlotId) (name : Name)
    (k' : SlotId) (j : ℕ) : Prop where
  inv : Inv s' p B L (k' :: R)
  le : (j + 1) * direntSize ≤ (s.din (s.inode k).inum).size
  inum : (s'.inode k').inum = (s.ent (s.inode k).inum j).inum
  ne_zero : (s.ent (s.inode k).inum j).inum ≠ 0
  name : (s.ent (s.inode k).inum j).name = name

/-- The directories are as before. -/
def SameDirs (s s' : St P) : Prop :=
  s'.ent = s.ent ∧ ∀ i, (s'.din i).type = (s.din i).type ∧ (s'.din i).size = (s.din i).size

theorem Quiet.sameDirs (q : Quiet s s') : SameDirs s s' := ⟨q.ent, q.din⟩

theorem SameDirs.trans (h : SameDirs s s') (h' : SameDirs s' s'') : SameDirs s s'' :=
  ⟨h'.1.trans h.1, fun i => ⟨(h'.2 i).1.trans (h.2 i).1, (h'.2 i).2.trans (h.2 i).2⟩⟩

theorem SameDirs.lookup (h : SameDirs s s') (i : ℕ) (name : Name) :
    s'.lookup i name = s.lookup i name :=
  lookup_congr (h.2 i).2 (congrFun h.1 i) name

theorem dirlookupFrom_ok {name : Name} {j fuel : ℕ} (h : Inv s p B L R) (hk : k ∈ L)
    (ht : (s.din (s.inode k).inum).type = .dir) :
    Ok (dirlookupFrom k name j fuel) s fun r s' => Frame B R ∅ s s' ∧ SameDirs s s' ∧
      match r with
      | none => Inv s' p B L R ∧ s.lookupFrom (s.inode k).inum name j fuel = none
      | some (k', j') => Found s s' p B L R k name k' j' ∧
          s.lookupFrom (s.inode k).inum name j fuel = some (s'.inode k').inum := by
  induction fuel generalizing s j with
  | zero => exact safe_pure ⟨Frame.refl, Quiet.refl.sameDirs, h, rfl⟩
  | succ fuel ih =>
    unfold dirlookupFrom St.lookupFrom
    apply safe_get
    rw [(h.locked hk).2.1]
    refine safe_ite (fun hj => ?_) fun hj => ?_
    · rw [if_pos hj]
      refine safe_bind (safe_mono readDirent_ok ?_)
      rintro de s₁ ⟨q, hle, rfl⟩
      have h₁ := h.quiet q
      have hi : (s₁.inode k).inum = (s.inode k).inum := (q.slot k).1
      have hnext : Ok (dirlookupFrom k name (j + 1) fuel) s₁ fun r s' =>
          Frame B R ∅ s s' ∧ SameDirs s s' ∧
          match r with
          | none => Inv s' p B L R ∧ s.lookupFrom (s.inode k).inum name (j + 1) fuel = none
          | some (k', j') => Found s s' p B L R k name k' j' ∧
              s.lookupFrom (s.inode k).inum name (j + 1) fuel = some (s'.inode k').inum := by
        refine safe_mono (ih h₁ (by rw [hi, (q.din _).1]; exact ht)) ?_
        rintro r s₂ ⟨hf, hs, hr⟩
        refine ⟨q.frame.trans hf, q.sameDirs.trans hs, ?_⟩
        rw [hi, lookupFrom_congr (q.din _).2 (congrFun q.ent _)] at hr
        cases r with
        | none => exact hr
        | some r =>
          obtain ⟨⟨a, b, c, d, e⟩, hl⟩ := hr
          rw [hi] at b c d e
          rw [(q.din _).2] at b
          rw [q.ent] at c d e
          exact ⟨⟨a, b, c, d, e⟩, hl⟩
      refine safe_ite (fun h0 => ?_) fun h0 => ?_
      · rw [if_pos h0]
        exact hnext
      · rw [if_neg h0]
        rw [(h.locked hk).2.1] at hle
        refine safe_ite (fun hn => ?_) fun hn => ?_
        · rw [if_pos hn]
          obtain ⟨hsmall, -⟩ := h.ents _ ht j hle h0
          refine safe_bind (safe_mono (iget_ok h₁ hsmall) ?_)
          rintro k' s₂ ⟨h₂, hf, hinum, hdin, hent⟩
          refine safe_pure ⟨q.frame.trans hf, q.sameDirs.trans ⟨hent, fun i => ?_⟩,
            ⟨h₂, hle, hinum, h0, hn⟩, ?_⟩
          · rw [hdin]
            exact ⟨rfl, rfl⟩
          · rw [hinum]
        · rw [if_neg hn]
          exact hnext
    · rw [if_neg hj]
      exact safe_pure ⟨Frame.refl, Quiet.refl.sameDirs, h, rfl⟩

theorem dirlookup_ok {name : Name} (h : Inv s p B L R) (hk : k ∈ L) :
    Ok (dirlookup k name) s fun r s' => Frame B R ∅ s s' ∧ SameDirs s s' ∧
      (s.din (s.inode k).inum).type = .dir ∧
      match r with
      | none => Inv s' p B L R ∧ s.lookup (s.inode k).inum name = none
      | some (k', j') => Found s s' p B L R k name k' j' ∧
          s.lookup (s.inode k).inum name = some (s'.inode k').inum := by
  obtain ⟨ht, hz, -⟩ := h.locked hk
  unfold dirlookup
  refine safe_get (safe_ite (fun hd => ?_) fun _ => panic_ok)
  rw [hz]
  refine safe_mono (dirlookupFrom_ok h hk (ht ▸ hd)) ?_
  rintro r s' ⟨hf, hs, hr⟩
  exact ⟨hf, hs, ht ▸ hd, hr⟩

/-- An entry that is not `.`, and not `..` in the root, names another inode than the locked directory
it is in. -/
theorem Found.ne {name : Name} {k' : SlotId} {j : ℕ} (hf : Found s s' p B L R k name k' j)
    (h : Inv s p B L R) (ht : (s.din (s.inode k).inum).type = .dir) (hdot : name ≠ dot)
    (hroot : ¬((s.inode k).inum = rootIno ∧ name = dotdot)) :
    (s'.inode k').inum ≠ (s.inode k).inum := by
  intro he
  obtain ⟨-, hself⟩ := h.ents _ ht j hf.le hf.ne_zero
  rcases hself (hf.inum.symm.trans he) with hn | ⟨hr, hn⟩
  · exact hdot (hf.name.symm.trans hn)
  · exact hroot ⟨hr, hf.name.symm.trans hn⟩

theorem emptyDirentFrom_ok {j fuel : ℕ} :
    Ok (emptyDirentFrom k j fuel) s fun _ s' => Quiet s s' := by
  induction fuel generalizing s j with
  | zero => exact safe_pure Quiet.refl
  | succ fuel ih =>
    unfold emptyDirentFrom
    refine safe_get (safe_ite (fun _ => safe_bind (safe_mono readDirent_ok ?_)) fun _ =>
      safe_pure Quiet.refl)
    rintro de s₁ ⟨q, -⟩
    exact safe_ite (fun _ => safe_pure q) fun _ => safe_mono ih fun _ _ q' => q.trans q'

theorem dirlink_ok {name : Name} {inum : ℕ} (h : Inv s p B L R) (hk : k ∈ L)
    (hfound : (s.din (s.inode k).inum).type = .dir → ∀ s₁ k' j, Found s s₁ p B L R k name k' j →
      s.lookup (s.inode k).inum name = some (s₁.inode k').inum →
      ∀ k'' ∈ L, (s.inode k'').inum ≠ (s₁.inode k').inum)
    (hde : (s.din (s.inode k).inum).type = .dir →
      SelfOk (s.inode k).inum ⟨inum % 2 ^ 16, name⟩) :
    Ok (dirlink p k name inum) s fun ok s' => Inv s' p B L R ∧
      Frame B R {(s.inode k).inum} s s' ∧
      (ok → ∀ name' ≠ name, s.lookup (s.inode k).inum name' = none →
        s'.lookup (s.inode k).inum name' = none) := by
  unfold dirlink
  refine safe_bind (safe_mono (dirlookup_ok h hk) ?_)
  rintro (_ | ⟨k', j⟩) s₁ ⟨hf₁, hs₁, ht, hr⟩
  · obtain ⟨h₁, -⟩ := hr
    refine safe_get (safe_bind (safe_mono emptyDirentFrom_ok fun j s₂ q => ?_))
    have h₂ := h₁.quiet q
    obtain ⟨hi, -⟩ := h.keeps hk (hf₁.trans q.frame) (Set.notMem_empty _)
    have hs₂ := hs₁.trans q.sameDirs
    refine safe_bind (safe_mono (writeDirent_ok h₂ hk (hi ▸ hde ht)) ?_)
    rintro (_ | _) s₃ ⟨h₃, hf₃, hw⟩
    · exact panic_ok
    · rw [hi] at hf₃ hw
      obtain ⟨hj, he, hz⟩ := hw rfl
      refine safe_pure ⟨h₃, ((hf₁.trans q.frame).mono (Set.empty_subset _)).trans hf₃, ?_⟩
      intro _ name' hn hnone
      rw [← hs₂.lookup, lookup_eq_none] at hnone
      rw [lookup_eq_none]
      intro j' hj'
      rw [he]
      by_cases hjj : j' = j
      · rw [hjj, update_self]
        exact Or.inr (Ne.symm hn)
      · rw [update_of_ne hjj]
        apply hnone
        have hd : direntSize = 16 := rfl
        rw [hz, hd] at hj'
        rw [hd] at hj ⊢
        omega
  · obtain ⟨hf, hl⟩ := hr
    have hk' : k' ∉ L := by
      intro hm
      obtain ⟨hi, -⟩ := h.keeps hm hf₁ (Set.notMem_empty _)
      exact hfound ht s₁ k' j hf hl k' hm hi.symm
    refine safe_bind (safe_mono (iput_ok hf.inv hk') ?_)
    rintro - s₂ ⟨h₂, hf₂⟩
    exact safe_pure ⟨h₂, (hf₁.trans hf₂).mono (Set.empty_subset _), fun h => by cases h⟩

/-- A new name in a directory whose contents are known not to have it. -/
theorem dirlink_new_ok {name : Name} {inum : ℕ} (h : Inv s p B L R) (hk : k ∈ L)
    (hnone : s.lookup (s.inode k).inum name = none)
    (hde : inum = (s.inode k).inum → name = dot) (hsmall : inum < 2 ^ 16) :
    Ok (dirlink p k name inum) s fun ok s' => Inv s' p B L R ∧
      Frame B R {(s.inode k).inum} s s' ∧
      (ok → ∀ name' ≠ name, s.lookup (s.inode k).inum name' = none →
        s'.lookup (s.inode k).inum name' = none) := by
  refine dirlink_ok h hk (fun _ s₁ k' j _ hl => ?_) fun _ _ => ?_
  · rw [hnone] at hl
    cases hl
  · simp only [Nat.mod_eq_of_lt hsmall]
    exact ⟨hsmall, fun he => Or.inl (hde he)⟩

theorem ialloc_ok {ninodes : ℕ} {type : Kind} (hn : ninodes ≤ 2 ^ 16) (h : Inv s p B L R) :
    Ok (ialloc ninodes type) s fun k s' => Inv s' p B L (k :: R) ∧
      (s.din (s'.inode k).inum).type = .free ∧ Frame B R {(s'.inode k).inum} s s' ∧
      s'.din (s'.inode k).inum = .fresh type := by
  unfold ialloc
  apply safe_get
  cases hc : s.freeInode ninodes with
  | none => exact panic_ok
  | some i =>
    have hfree : (s.din i).type = .free := by simpa using List.find?_some hc
    have hi : i < 2 ^ 16 := by
      have := List.mem_range'_1.1 (List.mem_of_find?_eq_some hc)
      omega
    have hslot : ∀ k, 0 < (s.inode k).ref → (s.inode k).valid → (s.inode k).inum ≠ i := by
      intro k hr hv he
      exact (h.mem k hr hv).2.2 (he ▸ hfree)
    have h₁ : Inv (s.setDin i (.fresh type)) p B L R := by
      refine h.disk s.nfree _ s.ent (fun k hr hv => ?_) fun i' ht j hj => ?_
      · rw [update_of_ne (hslot k hr hv)]
        exact h.mem k hr hv
      · by_cases hi' : i' = i
        · rw [hi', update_self] at hj
          have hz : (Dinode.fresh type).size = 0 := rfl
          have hd : direntSize = 16 := rfl
          rw [hz, hd] at hj
          omega
        · rw [update_of_ne hi'] at ht hj
          exact h.ents i' ht j hj
    have hf₁ : Frame B R {i} s (s.setDin i (.fresh type)) := by
      refine ⟨rfl, rfl, fun _ _ => rfl, fun k _ ha => ?_, fun i' hX _ => ?_⟩
      · have hne : (s.inode k).inum ≠ i := fun he => ha (he ▸ hfree)
        simp only [St.setDin, update_of_ne hne]
        exact ha
      · have hne : i' ≠ i := fun he => hX he
        simp only [St.setDin, update_of_ne hne]
        exact ⟨trivial, trivial, trivial⟩
    refine safe_bind (safe_modify (safe_mono (iget_ok h₁ hi) ?_))
    rintro k s₂ ⟨h₂, hf₂, hinum, hdin, -⟩
    rw [hinum]
    refine ⟨h₂, hfree, hf₁.trans (hf₂.mono (Set.empty_subset _)), ?_⟩
    rw [hdin]
    exact update_self ..

theorem createDots_ok {dk : SlotId} (h : Inv s p B [k, dk] [k, dk])
    (hne : (s.inode k).inum ≠ (s.inode dk).inum) (hz : (s.din (s.inode k).inum).size = 0) :
    Ok (createDots p dk k) s fun _ s' => Inv s' p B [k, dk] [k, dk] ∧
      Frame B [k, dk] {(s.inode k).inum} s s' := by
  refine safe_bind (safe_mono (addNlink_ok h (by simp) 1) fun _ s₁ q => ?_)
  have h₁ := h.quiet q
  obtain ⟨hi, -⟩ := q.slot k
  obtain ⟨hdi, -⟩ := q.slot dk
  -- the new directory is still empty
  have hempty : ∀ name, s₁.lookup (s₁.inode k).inum name = none := by
    intro name
    rw [lookup_eq_none]
    intro j hj
    rw [hi, (q.din _).2, hz] at hj
    exact absurd hj (Nat.not_lt_zero _)
  have hsmall : (s₁.inode k).inum < 2 ^ 16 := h₁.small k (h₁.ref_mem (by simp))
  have hsmall' : (s₁.inode dk).inum < 2 ^ 16 := h₁.small dk (h₁.ref_mem (by simp))
  refine safe_get (safe_bind (safe_mono (dirlink_new_ok h₁ (by simp) (hempty dot) (fun _ => rfl)
    hsmall) ?_))
  rintro (_ | _) s₂ ⟨h₂, hf₂, hl₂⟩
  · exact panic_ok
  · have hk₂ : (s₂.inode k).inum = (s₁.inode k).inum := hf₂.inum k (by simp)
    have hnone : s₂.lookup (s₂.inode k).inum dotdot = none := by
      rw [hk₂]
      exact hl₂ rfl dotdot (by decide) (hempty dotdot)
    have hde : (s₁.inode dk).inum = (s₂.inode k).inum → dotdot = dot := by
      intro he
      rw [hk₂, hi, hdi] at he
      exact absurd he.symm hne
    refine safe_bind (safe_mono (dirlink_new_ok h₂ (by simp) hnone hde hsmall') ?_)
    rintro (_ | _) s₃ ⟨h₃, hf₃, -⟩
    · exact panic_ok
    · rw [hk₂] at hf₃
      have hf := hf₂.trans hf₃
      rw [hi] at hf
      exact safe_pure ⟨h₃, q.frame.trans hf⟩

theorem isdiremptyFrom_ok {j fuel : ℕ} :
    Ok (isdiremptyFrom k j fuel) s fun _ s' => Quiet s s' := by
  induction fuel generalizing s j with
  | zero => exact safe_pure Quiet.refl
  | succ fuel ih =>
    unfold isdiremptyFrom
    refine safe_get (safe_ite (fun _ => safe_bind (safe_mono readDirent_ok ?_)) fun _ =>
      safe_pure Quiet.refl)
    rintro de s₁ ⟨q, -⟩
    exact safe_ite (fun _ => safe_pure q) fun _ => safe_mono ih fun _ _ q' => q.trans q'

variable [DecidableEq P]

theorem iunlock_ok (h : Inv s p B (k :: L) R) (hL : k ∉ L) :
    Ok (iunlock p k) s fun _ s' => Inv s' p B L R ∧ Frame B R ∅ s s' ∧
      s'.din = s.din ∧ s'.ent = s.ent ∧ ∀ k', (s'.inode k').inum = (s.inode k').inum := by
  have hr := h.ref_mem (h.sub k List.mem_cons_self)
  unfold iunlock
  refine safe_get (safe_ite (fun _ => panic_ok) fun _ => safe_modify ?_)
  refine ⟨h.touch hr rfl ?_ (fun hk => absurd hk hL) (fun k' hk' => ?_)
    (fun k' hk' => h.sub k' (List.mem_cons_of_mem k hk')) (h.refs k) (fun _ _ => le_refl _)
    (h.mem k hr), Frame.set fun _ => rfl, rfl, rfl, setInode_inum rfl⟩
  · rw [if_neg hL]
  · simp [hk']

theorem iunlockput_ok (h : Inv s p B (k :: L) (k :: R)) (hL : k ∉ L) :
    Ok (iunlockput p k) s fun _ s' => Inv s' p B L R ∧ Frame B R ∅ s s' := by
  unfold iunlockput
  refine safe_bind (safe_mono (iunlock_ok h hL) ?_)
  rintro - s₁ ⟨h₁, hf₁, -⟩
  refine safe_mono (iput_ok h₁ hL) ?_
  rintro - s₂ ⟨h₂, hf₂⟩
  exact ⟨h₂, hf₁.tail.trans hf₂⟩

/-! ## Paths -/

omit [DecidableEq P] in
/-- A path that can be resolved in a state could be resolved before: directories only go away. -/
theorem walkFrom_mono (hf : Frame B R ∅ s s') {parent : Bool} {i : ℕ} {path : List UInt8} {fuel : ℕ}
    {x : ℕ × Name} (h : s'.walkFrom parent i path fuel = some x) :
    s.walkFrom parent i path fuel = some x := by
  induction fuel generalizing i path with
  | zero => exact h
  | succ fuel ih =>
    unfold St.walkFrom at h ⊢
    cases hp : skipelem path with
    | none =>
      rw [hp] at h
      exact h
    | some q =>
      obtain ⟨name, rest⟩ := q
      simp only [hp] at h ⊢
      by_cases ht : (s'.din i).type = .dir
      · obtain ⟨ht', hz, he⟩ := hf.same i (Set.notMem_empty i) (by rw [ht]; decide)
        rw [if_neg (not_not.2 ht)] at h
        rw [if_neg (not_not.2 (ht'.symm.trans ht))]
        rw [lookup_congr hz he] at h
        by_cases hlast : parent ∧ rest = []
        · rw [if_pos hlast] at h ⊢
          exact h
        · rw [if_neg hlast] at h ⊢
          cases hl : s.lookup i name with
          | none =>
            rw [hl] at h
            cases h
          | some i' =>
            rw [hl] at h
            exact ih h
      · rw [if_pos ht] at h
        cases h

omit [DecidableEq P] in
theorem resolve_mono (hf : Frame B R ∅ s s') (hB : 0 < B (s.cwd p)) {parent : Bool}
    {path : List UInt8} {x : ℕ × Name} (h : s'.resolve p parent path = some x) :
    s.resolve p parent path = some x := by
  unfold St.resolve at h ⊢
  rw [hf.cwd, hf.inum (s.cwd p) (by omega)] at h
  exact walkFrom_mono hf h

theorem namexFrom_ok {parent : Bool} {path : List UInt8} {fuel : ℕ} (h : Inv s p B [] (k :: R)) :
    Ok (namexFrom p parent k path fuel) s fun r s' => Frame B R ∅ s s' ∧
      match r with
      | none => Inv s' p B [] R
      | some (k', name) => Inv s' p B [] (k' :: R) ∧
          s.walkFrom parent (s.inode k).inum path fuel = some ((s'.inode k').inum, name) := by
  induction fuel generalizing s k path with
  | zero => exact safe_pure ⟨Frame.refl, h.drop List.not_mem_nil⟩
  | succ fuel ih =>
    unfold namexFrom St.walkFrom
    cases hp : skipelem path with
    | none =>
      refine safe_ite (fun hpar => ?_) fun hpar => ?_
      · refine safe_bind (safe_mono (iput_ok h (List.not_mem_nil)) ?_)
        rintro - s₁ ⟨h₁, hf₁⟩
        exact safe_pure ⟨hf₁, h₁⟩
      · simp only [hpar]
        exact safe_pure ⟨Frame.refl, h, rfl⟩
    | some q =>
      obtain ⟨name, rest⟩ := q
      refine safe_bind (safe_mono (ilock_ok h List.mem_cons_self List.not_mem_nil) ?_)
      rintro - s₁ ⟨h₁, hf₁, hdin₁, hent₁, hinum₁⟩
      obtain ⟨ht₁, -, -⟩ := h₁.locked List.mem_cons_self
      rw [hinum₁ k, hdin₁] at ht₁
      refine safe_get (safe_ite (fun ht => ?_) fun ht => safe_ite (fun hlast => ?_) fun hlast => ?_)
      · refine safe_bind (safe_mono (iunlockput_ok h₁ List.not_mem_nil) ?_)
        rintro - s₂ ⟨h₂, hf₂⟩
        exact safe_pure ⟨hf₁.tail.trans hf₂, h₂⟩
      · refine safe_bind (safe_mono (iunlock_ok h₁ List.not_mem_nil) ?_)
        rintro - s₂ ⟨h₂, hf₂, -, -, hinum₂⟩
        refine safe_pure ⟨(hf₁.trans hf₂).tail, h₂, ?_⟩
        rw [ht₁, not_not] at ht
        simp only [ht, ne_eq, not_true_eq_false, if_false, hlast, and_self, if_true]
        rw [hinum₂, hinum₁]
      · refine safe_bind (safe_mono (dirlookup_ok h₁ List.mem_cons_self) ?_)
        rw [ht₁, not_not] at ht
        have hs₁ : SameDirs s s₁ := ⟨hent₁, fun i => by rw [hdin₁]; exact ⟨rfl, rfl⟩⟩
        rintro (_ | ⟨k', j⟩) s₂ ⟨hf₂, hs₂, -, hr⟩
        · refine safe_bind (safe_mono (iunlockput_ok hr.1 List.not_mem_nil) ?_)
          rintro - s₃ ⟨h₃, hf₃⟩
          exact safe_pure ⟨(hf₁.trans hf₂).tail.trans hf₃, h₃⟩
        · obtain ⟨hfd, hl⟩ := hr
          rw [hinum₁, hs₁.lookup] at hl
          have h₂ := hfd.inv.perm (List.Perm.swap k k' R)
          refine safe_bind (safe_mono (iunlockput_ok h₂ List.not_mem_nil) ?_)
          rintro - s₃ ⟨h₃, hf₃⟩
          refine safe_mono (ih h₃) ?_
          rintro r s₄ ⟨hf₄, hr⟩
          have hf₁₃ : Frame B R ∅ s s₃ := (hf₁.trans hf₂).tail.trans hf₃.tail
          refine ⟨hf₁₃.trans hf₄, ?_⟩
          cases r with
          | none => exact hr
          | some r =>
            refine ⟨hr.1, ?_⟩
            have hi : (s₃.inode k').inum = (s₂.inode k').inum :=
              hf₃.inum k' (by rw [List.count_cons_self]; omega)
            have hw := walkFrom_mono hf₁₃ hr.2
            rw [hi] at hw
            simp only [ht, ne_eq, not_true_eq_false, if_false, hlast, hl]
            exact hw

theorem namex_ok {parent : Bool} {path : List UInt8} (h : Inv s p B [] R) (hB : 0 < B (s.cwd p)) :
    Ok (namex p parent path) s fun r s' => Frame B R ∅ s s' ∧
      match r with
      | none => Inv s' p B [] R
      | some (k', name) => Inv s' p B [] (k' :: R) ∧
          s.resolve p parent path = some ((s'.inode k').inum, name) := by
  have hwalk : ∀ k s₁, Inv s₁ p B [] (k :: R) → Frame B R ∅ s s₁ →
      (s₁.inode k).inum = (if path.head? = some slash then rootIno else (s.inode (s.cwd p)).inum) →
      Ok (namexFrom p parent k path (path.length + 1)) s₁ fun r s' => Frame B R ∅ s s' ∧
        match r with
        | none => Inv s' p B [] R
        | some (k', name) => Inv s' p B [] (k' :: R) ∧
            s.resolve p parent path = some ((s'.inode k').inum, name) := by
    intro k s₁ h₁ hf₁ hi
    refine safe_mono (namexFrom_ok h₁) ?_
    rintro r s₂ ⟨hf₂, hr⟩
    refine ⟨hf₁.trans hf₂, ?_⟩
    cases r with
    | none => exact hr
    | some r =>
      refine ⟨hr.1, ?_⟩
      rw [St.resolve, ← hi]
      exact walkFrom_mono hf₁ hr.2
  unfold namex
  refine safe_get (safe_ite (fun hroot => ?_) fun hroot => ?_)
  · refine safe_bind (safe_mono (iget_ok h (by decide)) ?_)
    rintro k s₁ ⟨h₁, hf₁, hi, -, -⟩
    exact hwalk k s₁ h₁ hf₁ (by rw [hi, if_pos hroot])
  · refine safe_bind (safe_mono (idup_ok h (k := s.cwd p) (by omega)) ?_)
    rintro k s₁ ⟨rfl, h₁, hf₁, -, -⟩
    exact hwalk _ s₁ h₁ hf₁ (by rw [hf₁.inum _ (by omega), if_neg hroot])

end Xv6.X86.Fs
