import Xv6.PageTable.Tree

/-!
# Page tables as maps

`mappages` and `uvmunmap` change the map of a page table at the pages of their range only, in every
state that `uvmcreate`, `walk`, `mappages` and `uvmunmap` can reach.
-/

namespace Xv6.PageTable

open Vm (Layout PageOk maxva pgsize u64)

variable {L : Layout} {root : ℕ} {s s' s'' : St}

/-! ## `walk` -/

theorem kalloc_nil (h : s.free = []) : kalloc s = .ok (none, s) := by
  obtain ⟨free, word⟩ := s
  obtain rfl : free = [] := h
  rfl

theorem kalloc_cons {c : ℕ} {l : List ℕ} (h : s.free = c :: l) :
    kalloc s = .ok (some c, { s.memset c 5 with free := l }) := by
  obtain ⟨free, word⟩ := s
  obtain rfl : free = c :: l := h
  rfl

/-- The path from a page at `level`, whose own path is `p`, to level 0. -/
def down (va : ℕ) : ℕ → List ℕ → List ℕ
  | 0, p => p
  | level + 1, p => down va level (px (level + 1) va :: p)

theorem down_two (va : ℕ) : down va 2 [] = path va := rfl

theorem page_down_none (va : ℕ) : ∀ level {p}, s.page root p = none →
    s.page root (down va level p) = none
  | 0, _, h => h
  | level + 1, p, h => by
    apply page_down_none va level
    show (s.page root p).bind _ = none
    rw [h]
    rfl

/-- Without allocation `walk` only reads. -/
theorem walkLoop_find (va : ℕ) : ∀ {level p a}, s.page root p = some a →
    walkLoop va false level a s = .ok (s.page root (down va level p), s)
  | 0, p, a, h => by
    show Except.ok (some a, s) = _
    rw [show down va 0 p = p from rfl, h]
  | level + 1, p, a, h => by
    have hk : s.page root (px (level + 1) va :: p) = s.kid a (px (level + 1) va) := Radix.node_cons h
    unfold walkLoop
    show (if s.word a (px (level + 1) va) &&& pteV ≠ 0 then
      walkLoop va false level (pte2pa (s.word a (px (level + 1) va)))
      else if false = false then return none else _) s = _
    by_cases hv : s.word a (px (level + 1) va) &&& pteV ≠ 0
    · rw [if_pos hv]
      apply walkLoop_find va
      rw [hk, St.kid, if_pos hv]
    · rw [if_neg hv, if_pos rfl, down, page_down_none va level]
      · rfl
      · rw [hk, St.kid, if_neg hv]

theorem walk_panics {va : ℕ} (hva : maxva ≤ va) (alloc : Bool) :
    walk root va alloc s = .error "walk" := by
  unfold walk
  rw [if_pos hva]
  rfl

theorem walk_find {va : ℕ} (hva : va < maxva) :
    walk root va false s = .ok ((s.page root (path va)).map fun a => (a, px 0 va), s) := by
  unfold walk
  rw [if_neg (by omega), bind_ok (walkLoop_find va (p := []) rfl), down_two]
  cases s.page root (path va) <;> rfl

/-- The tree may have grown, the map is the same. -/
structure Grown (L : Layout) (root : ℕ) (s s' : St) : Prop where
  tree : Tree L root s'
  lookup : ∀ x, lookup s' root x = lookup s root x
  suffix : s'.free <:+ s.free

theorem Tree.grown (ht : Tree L root s) : Grown L root s s := ⟨ht, fun _ => rfl, List.suffix_rfl⟩

theorem Grown.trans (h : Grown L root s s') (h' : Grown L root s' s'') : Grown L root s s'' :=
  ⟨h'.tree, fun x => (h'.lookup x).trans (h.lookup x), h'.suffix.trans h.suffix⟩

/-- What `walk` with allocation finds, or that no page was left for it. -/
def Walked (root : ℕ) (p : List ℕ) (r : Option ℕ) (s : St) : Prop :=
  match r with
  | none => s.free = []
  | some a => s.page root p = some a

theorem walkLoop_alloc (va : ℕ) : ∀ {level p a s}, Tree L root s → p.length + level = 2 →
    s.page root p = some a → Tot (walkLoop va true level a) s fun r s' =>
      Grown L root s s' ∧ Walked root (down va level p) r s'
  | 0, _, _, _, ht, _, ha => tot_pure ⟨ht.grown, ha⟩
  | level + 1, p, a, s, ht, hp, ha => by
    have hk : s.page root (px (level + 1) va :: p) = s.kid a (px (level + 1) va) :=
      Radix.node_cons ha
    have hp' : (px (level + 1) va :: p).length + level = 2 := by
      rw [List.length_cons]
      omega
    unfold walkLoop
    apply tot_get
    by_cases hv : s.word a (px (level + 1) va) &&& pteV ≠ 0
    · rw [if_pos hv]
      apply walkLoop_alloc va ht hp'
      rw [hk, St.kid, if_pos hv]
    · rw [if_neg hv, if_neg (by decide)]
      have hi : s.kid a (px (level + 1) va) = none := by rw [St.kid, if_neg hv]
      cases hf : s.free with
      | nil =>
        exact tot_bind_eq (kalloc_nil hf) (tot_pure ⟨ht.grown, hf⟩)
      | cons c l =>
        obtain ⟨ht', hc, -, hlk⟩ := ht.newPage hf (by omega) ha hi
        refine tot_bind_eq (kalloc_cons hf) (tot_modify (tot_modify ?_))
        refine tot_mono (walkLoop_alloc va ht' hp' hc) fun r s' hr => ⟨?_, hr.2⟩
        refine Grown.trans ⟨ht', hlk, ?_⟩ hr.1
        rw [hf]
        exact List.suffix_cons c l

/-- With allocation, the map stays as it is. -/
theorem walk_alloc (ht : Tree L root s) {va : ℕ} (hva : va < maxva) :
    Tot (walk root va true) s fun r s' => Grown L root s s' ∧
      Walked root (path va) (r.map Prod.fst) s' ∧ ∀ e ∈ r, e.2 = px 0 va := by
  unfold walk
  rw [if_neg (by omega)]
  refine tot_bind (tot_mono (walkLoop_alloc va ht (p := []) rfl rfl) fun r s' hr => ?_)
  cases r with
  | none => exact tot_pure ⟨hr.1, hr.2, nofun⟩
  | some a =>
    refine tot_pure ⟨hr.1, hr.2, fun e he => ?_⟩
    rw [← Option.some.inj he]

/-! ## `mappages` -/

/-- The entry for page `i` of a range that is mapped. -/
def entry (pa perm i : ℕ) : ℕ := pa2pte (pa + i * pgsize) ||| perm ||| pteV

/-- The `n` pages from `va` on are mapped to those from `pa` on, and nothing else changes. -/
def Mapped (root va pa perm n : ℕ) (s s' : St) : Prop :=
  ∀ x, lookup s' root x = if va ≤ x ∧ x < va + n * pgsize then
    some (entry pa perm ((x - va) / pgsize)) else lookup s root x

theorem pa2pte_congr {x y : ℕ} (h : x % 2 ^ 64 = y % 2 ^ 64) : pa2pte x = pa2pte y := by
  unfold pa2pte
  rw [h]

theorem entry_succ (pa perm i : ℕ) :
    entry (u64 ((pa : ℤ) + pgsize)) perm i = entry pa perm (i + 1) := by
  unfold entry
  rw [pa2pte_congr]
  unfold u64 pgsize
  omega

theorem mapped_zero (root va pa perm : ℕ) (s : St) : Mapped root va pa perm 0 s s := by
  intro x
  rw [if_neg (by omega)]

/-- The first page of the range, then the others. -/
theorem Mapped.cons {va pa perm n a : ℕ} (ht : Tree L root s) (hva : va < maxva)
    (hal : va % pgsize = 0) (ha : s.page root (path va) = some a)
    (h : Mapped root (va + pgsize) (u64 ((pa : ℤ) + pgsize)) perm n
      (s.setWord a (px 0 va) (pa2pte pa ||| perm ||| pteV)) s') :
    Mapped root va pa perm (n + 1) s s' := by
  have hp : pgsize = 4096 := rfl
  intro x
  rw [h x, ht.lookup_setWord hva ha, valid_entry]
  by_cases h₁ : va + pgsize ≤ x ∧ x < va + pgsize + n * pgsize
  · rw [if_pos h₁, if_pos (by rw [Nat.succ_mul]; omega), entry_succ]
    congr 2
    rw [hp] at h₁ hal ⊢
    omega
  · rw [if_neg h₁]
    by_cases h₂ : x / pgsize = va / pgsize
    · have hx : (x - va) / pgsize = 0 := by
        rw [hp] at h₂ hal ⊢
        omega
      have hr : va ≤ x ∧ x < va + (n + 1) * pgsize := by
        rw [Nat.succ_mul]
        rw [hp] at h₂ hal ⊢
        omega
      rw [if_pos h₂, if_pos hr, hx]
      unfold entry
      rw [Nat.zero_mul, Nat.add_zero]
    · have hr : ¬(va ≤ x ∧ x < va + (n + 1) * pgsize) := by
        rw [Nat.succ_mul]
        rw [hp] at h₁ h₂ hal ⊢
        omega
      rw [if_neg h₂, if_neg hr]

/-- What `mappages` does: the whole range is mapped, or a prefix of it and no page is left. -/
def Mappages (L : Layout) (root va pa perm n : ℕ) (s : St) (r : Bool) (s' : St) : Prop :=
  Tree L root s' ∧ s'.free <:+ s.free ∧
    if r then va + n * pgsize ≤ maxva ∧ Mapped root va pa perm n s s'
    else s'.free = [] ∧ ∃ k < n, Mapped root va pa perm k s s'

theorem Mapped.grown {va pa perm n : ℕ} (h : Grown L root s s')
    (hm : Mapped root va pa perm n s' s'') : Mapped root va pa perm n s s'' := by
  intro x
  rw [hm x, h.lookup]

/-- `mappages` panics only if a page of the range is mapped, or above `MAXVA`. -/
theorem mappagesLoop_safe {perm : ℕ} : ∀ {n va pa s}, Tree L root s → va % pgsize = 0 →
    va ≤ maxva →
    Safe (fun _ => maxva < va + n * pgsize ∨ ∃ x, va ≤ x ∧ x < va + n * pgsize ∧
      lookup s root x ≠ none) (mappagesLoop root perm n va pa) s
      (Mappages L root va pa perm n s)
  | 0, va, pa, s, ht, _, hle => by
    refine safe_pure ⟨ht, List.suffix_rfl, ?_⟩
    rw [if_pos rfl, Nat.zero_mul, Nat.add_zero]
    exact ⟨hle, mapped_zero root va pa perm s⟩
  | n + 1, va, pa, s, ht, hal, hle => by
    have hp : pgsize = 4096 := rfl
    have hmod : maxva % pgsize = 0 := by decide
    unfold mappagesLoop
    by_cases hva : va < maxva
    · obtain ⟨r, s₁, he, hg, hw, hi⟩ := walk_alloc ht hva
      apply safe_bind
      apply safe_of_eq he
      cases r with
      | none =>
        refine safe_pure ⟨hg.tree, hg.suffix, ?_⟩
        exact ⟨hw, 0, by omega, (mapped_zero root va pa perm s₁).grown hg⟩
      | some e =>
        obtain ⟨a, i⟩ := e
        obtain rfl : i = px 0 va := hi (a, i) rfl
        have ha : s₁.page root (path va) = some a := hw
        apply safe_get
        by_cases hv : s₁.word a (px 0 va) &&& pteV ≠ 0
        · -- the page is mapped already
          rw [if_pos hv]
          show _ ∨ _
          refine Or.inr ⟨va, le_rfl, by rw [Nat.succ_mul]; omega, ?_⟩
          rw [← hg.lookup, lookup_eq hva ha, valid, if_pos hv]
          nofun
        · rw [if_neg hv]
          apply safe_bind
          apply safe_modify
          have hal' : (va + pgsize) % pgsize = 0 := by
            rw [Nat.add_mod_right]
            exact hal
          have hle' : va + pgsize ≤ maxva := by
            rw [hp] at hal hmod ⊢
            omega
          have hu : u64 ((va : ℤ) + pgsize) = va + pgsize := by
            have : maxva = 2 ^ 38 := rfl
            unfold u64
            omega
          rw [hu]
          have ht₂ := hg.tree.setWord (w := pa2pte pa ||| perm ||| pteV) ha
          have hlk := hg.tree.lookup_setWord (w := pa2pte pa ||| perm ||| pteV) hva ha
          refine safe_imp (mappagesLoop_safe ht₂ hal' hle') ?_ ?_
          · rintro e (h | ⟨x, hx₁, hx₂, hx⟩)
            · exact .inl (by rw [Nat.succ_mul]; omega)
            · have hne : ¬x / pgsize = va / pgsize := by
                rw [hp] at hx₁ ⊢
                omega
              rw [hlk, if_neg hne, hg.lookup] at hx
              exact .inr ⟨x, by omega, by rw [Nat.succ_mul]; omega, hx⟩
          · rintro r s' ⟨ht', hsuf, hr⟩
            refine ⟨ht', hsuf.trans hg.suffix, ?_⟩
            cases r with
            | true =>
              exact ⟨by rw [Nat.succ_mul]; have := hr.1; omega,
                (hr.2.cons hg.tree hva hal ha).grown hg⟩
            | false =>
              obtain ⟨hnil, k, hk, hm⟩ := hr
              exact ⟨hnil, k + 1, by omega, (hm.cons hg.tree hva hal ha).grown hg⟩
    · -- `walk` panics
      refine safe_bind_error (walk_panics (by omega) _) (.inl ?_)
      rw [Nat.succ_mul]
      omega

theorem mappages_safe (ht : Tree L root s) (va size pa perm : ℕ) :
    Safe (fun _ => ¬(va % pgsize = 0 ∧ size % pgsize = 0 ∧ 0 < size ∧ va + size ≤ maxva ∧
      ∀ x, va ≤ x → x < va + size → lookup s root x = none)) (mappages root va size pa perm) s
      (Mappages L root va pa perm (size / pgsize) s) := by
  unfold mappages
  refine safe_ite (fun h hc => h hc.1) fun hal => safe_ite (fun h hc => h hc.2.1) fun hsz =>
    safe_ite (fun h hc => ?_) fun h0 => ?_
  · omega
  rw [not_not] at hal hsz
  have hmul : size / pgsize * pgsize = size := Nat.div_mul_cancel (Nat.dvd_of_mod_eq_zero hsz)
  by_cases hle : va ≤ maxva
  · refine safe_imp (mappagesLoop_safe ht hal hle) ?_ fun _ _ h => h
    rintro e (h | ⟨x, hx₁, hx₂, hx⟩) hc
    · rw [hmul] at h
      omega
    · rw [hmul] at hx₂
      exact hx (hc.2.2.2.2 x hx₁ hx₂)
  · -- the first `walk` panics
    obtain ⟨n, hn⟩ : ∃ n, size / pgsize = n + 1 := by
      apply Nat.exists_eq_succ_of_ne_zero
      intro hz
      rw [hz, Nat.zero_mul] at hmul
      exact h0 hmul.symm
    rw [hn]
    unfold mappagesLoop
    refine safe_bind_error (walk_panics (by omega) _) fun hc => ?_
    omega

/-! ## `uvmunmap` -/

/-- The `n` pages from `va` on are not mapped, and nothing else changes. -/
def Unmapped (root va n : ℕ) (s s' : St) : Prop :=
  ∀ x, lookup s' root x = if va ≤ x ∧ x < va + n * pgsize then none else lookup s root x

/-- The physical pages that the `n` pages from `va` on are mapped to, in this order. -/
def mappedPages (s : St) (root : ℕ) : ℕ → ℕ → List ℕ
  | 0, _ => []
  | n + 1, va => ((lookup s root va).map pte2pa).toList ++ mappedPages s root n (va + pgsize)

theorem mappedPages_congr : ∀ {n va}, (∀ x, va ≤ x → lookup s' root x = lookup s root x) →
    mappedPages s' root n va = mappedPages s root n va
  | 0, _, _ => rfl
  | n + 1, va, h => by
    unfold mappedPages
    rw [h va le_rfl, mappedPages_congr fun x hx => h x (by omega)]

/-- The pages of a range may be freed: each is mapped once there and has no other use. -/
structure Owned (L : Layout) (root n va : ℕ) (s : St) : Prop where
  nodup : (mappedPages s root n va).Nodup
  ok : ∀ pa ∈ mappedPages s root n va, PageOk L pa
  notFree : ∀ pa ∈ mappedPages s root n va, pa ∉ s.free
  notTable : ∀ pa ∈ mappedPages s root n va, ∀ p, p.length ≤ 2 → s.page root p ≠ some pa

/-- What `uvmunmap` does, with the list of the pages it frees. -/
structure Cleared (L : Layout) (root va n : ℕ) (l : List ℕ) (s s' : St) : Prop where
  tree : Tree L root s'
  map : Unmapped root va n s s'
  free : s'.free = l ++ s.free

/-- The pages that `uvmunmap` frees. -/
def freed (s : St) (root n va : ℕ) (doFree : Bool) : List ℕ :=
  if doFree then (mappedPages s root n va).reverse else []

theorem Unmapped.cons {va n : ℕ} (hal : va % pgsize = 0)
    (h₁ : ∀ x, lookup s' root x = if x / pgsize = va / pgsize then none else lookup s root x)
    (h : Unmapped root (va + pgsize) n s' s'') : Unmapped root va (n + 1) s s'' := by
  have hp : pgsize = 4096 := rfl
  intro x
  rw [h x, h₁ x]
  have hiff : (va ≤ x ∧ x < va + (n + 1) * pgsize) ↔
      (va + pgsize ≤ x ∧ x < va + pgsize + n * pgsize) ∨ x / pgsize = va / pgsize := by
    rw [Nat.succ_mul]
    rw [hp] at hal ⊢
    omega
  by_cases hr : va + pgsize ≤ x ∧ x < va + pgsize + n * pgsize
  · rw [if_pos hr, if_pos (hiff.2 (.inl hr))]
  · by_cases hx : x / pgsize = va / pgsize
    · rw [if_neg hr, if_pos hx, if_pos (hiff.2 (.inr hx))]
    · rw [if_neg hr, if_neg hx, if_neg fun hc => (hiff.1 hc).elim hr hx]

/-- One round of the loop that clears an entry. -/
theorem Cleared.cons {va n : ℕ} {l l' : List ℕ} (hal : va % pgsize = 0)
    (h₁ : ∀ x, lookup s' root x = if x / pgsize = va / pgsize then none else lookup s root x)
    (hf : s'.free = l ++ s.free) (h : Cleared L root (va + pgsize) n l' s' s'') :
    Cleared L root va (n + 1) (l' ++ l) s s'' where
  tree := h.tree
  map := h.map.cons hal h₁
  free := by rw [h.free, hf, List.append_assoc]

theorem Owned.tail {n va : ℕ} (h : Owned L root (n + 1) va s)
    (hlk : ∀ x, va + pgsize ≤ x → lookup s' root x = lookup s root x)
    (hpg : ∀ p, p.length ≤ 2 → s'.page root p = s.page root p)
    (hf : s'.free = ((lookup s root va).map pte2pa).toList ++ s.free) :
    Owned L root n (va + pgsize) s' := by
  have hm := mappedPages_congr (n := n) hlk
  have hmem : ∀ pa ∈ mappedPages s root n (va + pgsize), pa ∈ mappedPages s root (n + 1) va :=
    fun pa hpa => List.mem_append_right _ hpa
  have hnd := h.nodup
  unfold mappedPages at hnd
  refine ⟨?_, ?_, ?_, ?_⟩
  · rw [hm]
    exact hnd.of_append_right
  · rw [hm]
    exact fun pa hpa => h.ok pa (hmem pa hpa)
  · rw [hm, hf]
    intro pa hpa hc
    rcases List.mem_append.1 hc with hc | hc
    · exact List.disjoint_of_nodup_append hnd hc hpa
    · exact h.notFree pa (hmem pa hpa) hc
  · rw [hm]
    intro pa hpa p hp
    rw [hpg p hp]
    exact h.notTable pa (hmem pa hpa) p hp

theorem Tree.kfree (ht : Tree L root s) {pa : ℕ} (hok : PageOk L pa) (hnf : pa ∉ s.free)
    (hnt : ∀ p, p.length ≤ 2 → s.page root p ≠ some pa) :
    Frame root s { s.memset pa 1 with free := pa :: s.free } ∧
      Tree L root { s.memset pa 1 with free := pa :: s.free } := by
  have hfr : Frame root s { s.memset pa 1 with free := pa :: s.free } := fun p a hp ha =>
    memset_word_ne (s := s) 1 fun he => hnt p hp (he ▸ ha)
  refine ⟨hfr, hfr.tree ht ?_ ?_ (List.nodup_cons.2 ⟨hnf, ht.nodup⟩)⟩
  · intro p a hp ha hm
    rcases List.mem_cons.1 hm with rfl | hm
    · exact hnt p hp ha
    · exact (ht.page p a hp ha).2 hm
  · intro a ha
    rcases List.mem_cons.1 ha with rfl | ha
    · exact hok
    · exact ht.free a ha

/-- The state when the entry for `va` is cleared, after its page may have been freed. -/
theorem uvmunmap_round (ht : Tree L root s) {va n a w : ℕ} {doFree : Bool} (hva : va < maxva)
    (ha : s.page root (path va) = some a) (hlk : lookup s root va = some w)
    (ho : doFree → Owned L root (n + 1) va s) :
    Tot (if doFree then PageTable.kfree L (pte2pa w) else pure ()) s fun _ s₁ =>
      Tree L root (s₁.setWord a (px 0 va) 0) ∧
      (∀ x, lookup (s₁.setWord a (px 0 va) 0) root x =
        if x / pgsize = va / pgsize then none else lookup s root x) ∧
      (∀ p, p.length ≤ 2 → (s₁.setWord a (px 0 va) 0).page root p = s.page root p) ∧
      s₁.free = (if doFree then [pte2pa w] else []) ++ s.free := by
  -- it is enough that the tree holds what it held
  have key : ∀ s₁, Frame root s s₁ → Tree L root s₁ →
      Tree L root (s₁.setWord a (px 0 va) 0) ∧
      (∀ x, lookup (s₁.setWord a (px 0 va) 0) root x =
        if x / pgsize = va / pgsize then none else lookup s root x) ∧
      ∀ p, p.length ≤ 2 → (s₁.setWord a (px 0 va) 0).page root p = s.page root p := by
    intro s₁ hfr ht₁
    have ha₁ := (hfr.page (length_path va).le).trans ha
    refine ⟨ht₁.setWord ha₁, fun x => ?_, fun p hp => ?_⟩
    · rw [ht₁.lookup_setWord hva ha₁, hfr.lookup]
      rfl
    · rw [ht₁.page_setWord ha₁ hp, hfr.page hp]
  cases doFree with
  | false =>
    obtain ⟨h₁, h₂, h₃⟩ := key s (fun _ _ _ _ => rfl) ht
    exact tot_pure ⟨h₁, h₂, h₃, rfl⟩
  | true =>
    have hm : pte2pa w ∈ mappedPages s root (n + 1) va := by
      unfold mappedPages
      rw [hlk]
      exact List.mem_append_left _ (List.mem_singleton.2 rfl)
    have ho := ho rfl
    obtain ⟨hfr, ht₁⟩ := ht.kfree (ho.ok _ hm) (ho.notFree _ hm) (ho.notTable _ hm)
    obtain ⟨h₁, h₂, h₃⟩ := key _ hfr ht₁
    rw [if_pos rfl]
    unfold PageTable.kfree
    rw [if_pos (ho.ok _ hm)]
    exact tot_modify_end ⟨h₁, h₂, h₃, rfl⟩

theorem uvmunmapLoop_safe {doFree : Bool} : ∀ {n va s}, Tree L root s → va % pgsize = 0 →
    (doFree → Owned L root n va s) →
    Safe (fun _ => maxva < va + n * pgsize) (uvmunmapLoop L root doFree n va) s
      fun _ s' => Cleared L root va n (freed s root n va doFree) s s'
  | 0, va, s, ht, _, _ => by
    refine safe_pure ⟨ht, fun x => ?_, ?_⟩
    · rw [if_neg (by omega)]
    · cases doFree <;> rfl
  | n + 1, va, s, ht, hal, ho => by
    have hp : 0 < pgsize := by decide
    have hal' : (va + pgsize) % pgsize = 0 := by
      rw [Nat.add_mod_right]
      exact hal
    have hoff : ∀ {x}, va + pgsize ≤ x → ¬x / pgsize = va / pgsize := by
      intro x hx
      have : pgsize = 4096 := rfl
      rw [this] at hx ⊢
      omega
    have hlim : ∀ e : String, maxva < va + pgsize + n * pgsize → maxva < va + (n + 1) * pgsize := by
      intro _ h
      rw [Nat.succ_mul]
      omega
    unfold uvmunmapLoop
    by_cases hva : va < maxva
    · apply safe_bind
      apply safe_of_eq (walk_find hva)
      -- a page that is not mapped is left alone
      have skip : lookup s root va = none →
          Safe (fun _ => maxva < va + (n + 1) * pgsize)
            (uvmunmapLoop L root doFree n (va + pgsize)) s
            fun _ s' => Cleared L root va (n + 1) (freed s root (n + 1) va doFree) s s' := by
        intro hnone
        have ho' : doFree → Owned L root n (va + pgsize) s := fun hd =>
          (ho hd).tail (fun _ _ => rfl) (fun _ _ => rfl) (by rw [hnone]; rfl)
        refine safe_imp (uvmunmapLoop_safe ht hal' ho') hlim fun _ s' hc => ?_
        have hfr : freed s root (n + 1) va doFree = freed s root n (va + pgsize) doFree ++ [] := by
          unfold freed
          rw [mappedPages, hnone, List.append_nil]
          rfl
        rw [hfr]
        refine hc.cons hal (fun x => ?_) rfl
        split
        · next hx => rw [lookup_page hx, hnone]
        · rfl
      cases ha : s.page root (path va) with
      | none => exact skip (lookup_none ha)
      | some a =>
        have hlk := lookup_eq hva ha
        apply safe_get
        by_cases hv : s.word a (px 0 va) &&& pteV = 0
        · rw [if_pos hv]
          apply skip
          rw [hlk, valid, if_neg (not_not.2 hv)]
        · rw [if_neg hv]
          rw [valid, if_pos hv] at hlk
          obtain ⟨_, s₁, he, ht₂, hlk₂, hpg, hf⟩ := uvmunmap_round ht hva ha hlk ho
          have hmap : ((lookup s root va).map pte2pa).toList = [pte2pa (s.word a (px 0 va))] := by
            rw [hlk]
            rfl
          have ho' : doFree → Owned L root n (va + pgsize) (s₁.setWord a (px 0 va) 0) := by
            intro hd
            refine (ho hd).tail (fun x hx => ?_) hpg ?_
            · rw [hlk₂, if_neg (hoff hx)]
            · rw [setWord_free, hf, if_pos hd, hmap]
          have hfr : freed s root (n + 1) va doFree =
              freed (s₁.setWord a (px 0 va) 0) root n (va + pgsize) doFree ++
                if doFree then [pte2pa (s.word a (px 0 va))] else [] := by
            unfold freed
            rw [mappedPages_congr fun x hx => (hlk₂ x).trans (if_neg (hoff hx)), mappedPages, hmap,
              List.reverse_append]
            cases doFree <;> rfl
          apply safe_bind
          apply safe_of_eq he
          apply safe_bind
          apply safe_modify
          refine safe_imp (uvmunmapLoop_safe ht₂ hal' ho') hlim fun _ s' hc => ?_
          rw [hfr]
          exact hc.cons hal hlk₂ hf
    · refine safe_bind_error (walk_panics (by omega) _) ?_
      rw [Nat.succ_mul]
      omega

/-- The number of rounds of the loop of `uvmunmap`: its bound wraps around. -/
def rounds (va npages : ℕ) : ℕ := (u64 ((va : ℤ) + npages * pgsize) - va) / pgsize

theorem uvmunmap_safe (ht : Tree L root s) (va npages : ℕ) (doFree : Bool)
    (ho : doFree → Owned L root (rounds va npages) va s) :
    Safe (fun _ => ¬(va % pgsize = 0 ∧ va + rounds va npages * pgsize ≤ maxva))
      (uvmunmap L root va npages doFree) s fun _ s' =>
      Cleared L root va (rounds va npages) (freed s root (rounds va npages) va doFree) s s' := by
  unfold uvmunmap
  refine safe_ite (fun h hc => h hc.1) fun hal => ?_
  rw [not_not] at hal
  exact safe_imp (uvmunmapLoop_safe ht hal ho) (fun _ h hc => Nat.not_le.2 h hc.2) fun _ _ h => h

/-! ## Reachable page tables -/

/-- `uvmcreate` makes an empty map. -/
theorem uvmcreate_tree (hf : ∀ a ∈ s.free, PageOk L a) (hn : s.free.Nodup)
    (h : uvmcreate s = .ok (some root, s')) : Tree L root s' ∧ ∀ x, lookup s' root x = none := by
  unfold uvmcreate at h
  cases hl : s.free with
  | nil =>
    rw [bind_ok (kalloc_nil hl)] at h
    cases h
  | cons c l =>
    rw [bind_ok (kalloc_cons hl)] at h
    obtain ⟨hc, rfl⟩ := Prod.mk.inj (Except.ok.inj h)
    obtain rfl := Option.some.inj hc
    rw [hl] at hf hn
    have hkid : ∀ i, ({ s.memset c 5 with free := l }.memset c 0).kid c i = none := by
      intro i
      unfold St.kid
      rw [memset_word_self]
      rfl
    -- the tree has only its root
    have hpage : ∀ i p, ({ s.memset c 5 with free := l }.memset c 0).page c (i :: p) = none := by
      intro i p
      induction p generalizing i with
      | nil => exact (Radix.node_cons rfl).trans (hkid i)
      | cons k p ih =>
        show (St.page _ c (k :: p)).bind _ = none
        rw [ih k]
        rfl
    have hroot : ∀ p a, ({ s.memset c 5 with free := l }.memset c 0).page c p = some a →
        p = [] ∧ a = c := by
      intro p a ha
      cases p with
      | nil => exact ⟨rfl, (Option.some.inj ha).symm⟩
      | cons i p =>
        rw [hpage] at ha
        cases ha
    refine ⟨⟨?_, ?_, ?_, (List.nodup_cons.1 hn).2⟩, ?_⟩
    · intro p q a _ _ hp hq
      rw [(hroot p a hp).1, (hroot q a hq).1]
    · intro p a _ ha
      rw [(hroot p a ha).2]
      exact ⟨hf c List.mem_cons_self, (List.nodup_cons.1 hn).1⟩
    · exact fun a ha => hf a (List.mem_cons_of_mem _ ha)
    · exact fun x => lookup_none (hpage _ _)

/-- The states of memory in which `root` is a page table made by these functions. Between the calls,
memory outside the tree may change in any way. -/
inductive Reach (L : Layout) (root : ℕ) : St → Prop
  | create {s s' : St} : (∀ a ∈ s.free, PageOk L a) → s.free.Nodup →
      uvmcreate s = .ok (some root, s') → Reach L root s'
  | walk {s s' : St} (va : ℕ) (alloc : Bool) (r : Option (ℕ × ℕ)) : Reach L root s →
      walk root va alloc s = .ok (r, s') → Reach L root s'
  | mappages {s s' : St} (va size pa perm : ℕ) (r : Bool) : Reach L root s →
      mappages root va size pa perm s = .ok (r, s') → Reach L root s'
  | uvmunmap {s s' : St} (va npages : ℕ) (doFree : Bool) : Reach L root s →
      (doFree = true → Owned L root (rounds va npages) va s) →
      uvmunmap L root va npages doFree s = .ok ((), s') → Reach L root s'
  | other {s s' : St} : Reach L root s → Frame root s s' →
      (∀ p a, p.length ≤ 2 → s.page root p = some a → a ∉ s'.free) →
      (∀ a ∈ s'.free, PageOk L a) → s'.free.Nodup → Reach L root s'

theorem walk_false_state {va : ℕ} {r : Option (ℕ × ℕ)} (h : walk root va false s = .ok (r, s')) :
    s' = s := by
  by_cases hva : va < maxva
  · rw [walk_find hva] at h
    exact (Prod.mk.inj (Except.ok.inj h)).2.symm
  · rw [walk_panics (by omega)] at h
    cases h

theorem walk_grown (ht : Tree L root s) {va : ℕ} {alloc : Bool} {r : Option (ℕ × ℕ)}
    (h : walk root va alloc s = .ok (r, s')) : Grown L root s s' := by
  cases alloc with
  | false =>
    rw [walk_false_state h]
    exact ht.grown
  | true =>
    by_cases hva : va < maxva
    · obtain ⟨r', s₁, he, hg, -⟩ := walk_alloc ht hva
      obtain ⟨-, rfl⟩ := Prod.mk.inj (Except.ok.inj (h.symm.trans he))
      exact hg
    · rw [walk_panics (by omega)] at h
      cases h

theorem Reach.tree (h : Reach L root s) : Tree L root s := by
  induction h with
  | create hf hn h => exact (uvmcreate_tree hf hn h).1
  | walk va alloc r _ h ih => exact (walk_grown ih h).tree
  | mappages va size pa perm r _ h ih => exact ((mappages_safe ih va size pa perm).of_ok h).1
  | uvmunmap va npages doFree _ ho h ih => exact ((uvmunmap_safe ih va npages doFree ho).of_ok h).tree
  | other _ hfr hu hf hn ih => exact hfr.tree ih hu hf hn

end Xv6.PageTable
