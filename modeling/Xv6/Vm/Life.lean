import Xv6.Vm.Frees
import Xv6.Vm.Space

/-!
# Growing, copying and freeing address spaces

`uvmalloc` and `uvmcopy` either map every page they are asked for, or give back what they took.
Freeing a table returns its whole bag to the free list.
-/

namespace Xv6.Vm

open Function Finset

variable {T : Type} [DecidableEq T] {L : Layout} {s s' s'' : St T} {r r' va pa v : ℕ} {t : Tbl}
  {e : Pte} {perm : Perm}

/-! ## `uvmalloc` -/

/-- Exactly the entries from `v` up to `w` are new, with permissions `perm`. -/
structure Filled (perm : Perm) (v w : ℕ) (f f' : ℕ → Option Pte) : Prop where
  new : ∀ k, v ≤ k → k < w → ∃ pa, f' k = some ⟨perm, pa⟩
  old : ∀ k, ¬(v ≤ k ∧ k < w) → f' k = f k

theorem filled_empty {f : ℕ → Option Pte} {w : ℕ} (h : w ≤ v) : Filled perm v w f f :=
  ⟨fun k h1 h2 => by omega, fun _ _ => rfl⟩

theorem Filled.cons {f f' : ℕ → Option Pte} {w : ℕ} (h : v < w)
    (hf : Filled perm (v + 1) w (update f v (some ⟨perm, pa⟩)) f') :
    Filled perm v w f f' := by
  constructor
  · intro k hk hk'
    by_cases he : k = v
    · subst he
      refine ⟨pa, ?_⟩
      rw [hf.old k (by omega), update_self]
    · exact hf.new k (by omega) hk'
  · intro k hk
    have hne : k ≠ v := by omega
    rw [hf.old k (by omega), update_of_ne hne]

/-- The pages from `v` up to `w` are zeroed pages that were free, and only free pages changed. -/
structure Zeroed (r v w : ℕ) (s s' : St T) : Prop where
  page : ∀ k, v ≤ k → k < w → ∃ e, (s'.tbl r).pte k = some e ∧ e.pa ∈ s.free ∧ s'.mem e.pa = fun _ => 0
  mem : ∀ pa ∉ s.free, s'.mem pa = s.mem pa

theorem zeroed_empty {w : ℕ} (s : St T) (h : w ≤ v) : Zeroed r v w s s :=
  ⟨fun k h1 h2 => by omega, fun _ _ => rfl⟩

theorem Fresh.free_subset {x : Page} (h : Fresh r v e x s s') : ∀ pa ∈ s'.free, pa ∈ s.free := by
  obtain ⟨l, hl, -⟩ := h.drop
  intro pa hpa
  rw [hl]
  exact List.mem_append_right _ hpa

theorem Zeroed.cons {w : ℕ} (h : Space L r s) (hv : v < userPages)
    (hf : Fresh r v e (fun _ => 0) s s') (hz : Zeroed r (v + 1) w s' s'')
    (hold : (s''.tbl r).pte v = (s'.tbl r).pte v) : Zeroed r v w s s'' := by
  have he : (s'.tbl r).pte v = some e := by rw [hf.pte, update_self]
  constructor
  · intro k hk hk'
    by_cases hkv : k = v
    · subst hkv
      refine ⟨e, hold.trans he, hf.new, ?_⟩
      rw [hz.mem _ ((h.kept hf.toKept).notMem_free hv he), hf.page]
    · obtain ⟨f, hp, hfree, h0⟩ := hz.page k (by omega) hk'
      exact ⟨f, hp, hf.free_subset _ hfree, h0⟩
  · intro pa hpa
    rw [hz.mem pa fun hm => hpa (hf.free_subset _ hm), hf.mem pa hpa]

/-- Mapping a page that was free adds no other page to a range. -/
theorem Fresh.maps {x : Page} {o w : ℕ} (h : Fresh r v e x s s') (hpa : pa ∉ s.free)
    (hm : (s'.tbl r).Maps o w pa) : (s.tbl r).Maps o w pa := by
  obtain ⟨k, f, h1, h2, h3, hf, rfl⟩ := hm
  rw [h.pte] at hf
  by_cases hk : k = v
  · subst hk
    rw [update_self] at hf
    rw [← Option.some.inj hf] at hpa
    exact absurd h.new hpa
  · rw [update_of_ne hk] at hf
    exact ⟨k, f, h1, h2, h3, hf, rfl⟩

/-- What the loop of `uvmalloc`, which began at page `o`, does for `n` pages from page `k` on. On an
error the pages from `o` on are unmapped again. -/
structure GrowLoop (perm : Perm) (r o k n : ℕ) (s : St T) (ok : Bool) (s' : St T) : Prop where
  kept : Kept r s s'
  done : ok → (k + n ≤ userPages ∨ ∀ v < k + n, ((s'.tbl r).pte v).isSome) ∧
    Filled perm k (k + n) (s.tbl r).pte (s'.tbl r).pte ∧ Zeroed r k (k + n) s s'
  undone : ok = false → (s'.tbl r).pte = clear (s.tbl r).pte o userPages ∧
    ∀ pa ∉ s.free, ¬(s.tbl r).Maps o userPages pa → s'.mem pa = s.mem pa

theorem uvmallocLoop_tot {xperm : Perm} {o : ℕ} (n : ℕ) : ∀ {s : St T} {k : ℕ}, Space L r s → o ≤ k →
    (∀ v, k ≤ v → v < userPages → (s.tbl r).pte v = none) →
    (k + n ≤ userPages ∨ ∀ v < k, ((s.tbl r).pte v).isSome) →
    Tot (uvmallocLoop L r (o * pgsize) xperm n (k * pgsize)) s
      (GrowLoop { xperm with r := true, u := true } r o k n s) := by
  induction n with
  | zero =>
    intro s k h _ _ hb
    exact tot_pure ⟨.refl h.ok, fun _ => ⟨hb, filled_empty (by omega), zeroed_empty s (by omega)⟩, nofun⟩
  | succ n ih =>
    intro s k h ho hnone hb
    have hk : k < userPages := by
      rcases hb with hb | hb
      · omega
      · have := h.full_le hb
        unfold userPages
        omega
    have hksz : k * pgsize ≤ trapframeVa := by
      unfold userPages at hk
      unfold trapframeVa trampolineVa maxva pgsize
      omega
    -- both errors end by unmapping what is above `o`
    have hfail : ∀ s1 : St T, Kept r s s1 → (s1.tbl r).pte = (s.tbl r).pte →
        (∀ pa ∉ s.free, s1.mem pa = s.mem pa) →
        Tot (do
          let _ ← uvmdealloc L r (k * pgsize) (o * pgsize)
          return false : K T Bool) s1
          (GrowLoop { xperm with r := true, u := true } r o k (n + 1) s) := by
      intro s1 hk1 hp1 hm1
      apply tot_bind
      apply tot_mono (uvmdealloc_unmapped (h.kept hk1) hksz)
      rintro _ s2 ⟨-, hk2, hu⟩
      rw [npages_mul, npages_mul] at hu
      refine tot_pure ⟨hk1.trans hk2, nofun, fun _ => ⟨?_, fun pa hpa hnot => ?_⟩⟩
      · rw [hu.pte, hp1]
        funext v
        unfold clear
        by_cases hv : o ≤ v ∧ v < userPages
        · rw [if_pos hv]
          split_ifs with hlt
          · rfl
          · exact hnone v (by omega) hv.2
        · rw [if_neg hv, if_neg (by omega)]
      · rw [hu.mem pa, hm1 pa hpa]
        rintro ⟨v, f, h1, h2, h3, hf, rfl⟩
        rw [hp1] at hf
        exact hnot ⟨v, f, h1, h3, h3, hf, rfl⟩
    unfold uvmallocLoop
    apply tot_kalloc
    · intro _
      exact hfail s (.refl h.ok) rfl fun _ _ => rfl
    · intro pa l hf
      apply tot_modify
      apply tot_bind
      apply tot_mono (mappages_fresh h hf hk (hnone k le_rfl hk) _)
      rintro ok s1 ⟨hfresh, hlost, -⟩
      cases ok with
      | false =>
        obtain ⟨hk1, hp1, hm1⟩ := hlost rfl
        rw [if_neg (by simp)]
        apply tot_bind_eq (kfree_ok (h.page pa (mem_bag_of_free (by rw [hf]; exact List.mem_cons_self))))
        exact hfail _ hk1 hp1 hm1
      | true =>
        have hf1 := hfresh rfl
        rw [if_pos rfl, show k * pgsize + pgsize = (k + 1) * pgsize by ring]
        have hnone' : ∀ v, k + 1 ≤ v → v < userPages → (s1.tbl r).pte v = none := by
          intro v hv hv'
          rw [hf1.pte, update_of_ne (by omega : v ≠ k)]
          exact hnone v (by omega) hv'
        have hb' : k + 1 + n ≤ userPages ∨ ∀ v < k + 1, ((s1.tbl r).pte v).isSome := by
          rcases hb with hb | hb
          · left
            omega
          · right
            intro v hv
            rw [hf1.pte]
            by_cases he : v = k
            · rw [he, update_self]
              rfl
            · rw [update_of_ne he]
              exact hb v (by omega)
        apply tot_mono (ih (h.kept hf1.toKept) (by omega) hnone' hb')
        rintro ok s2 ⟨hk2, hsucc, hfailed⟩
        refine ⟨hf1.toKept.trans hk2, fun hok => ?_, fun hok => ?_⟩
        · obtain ⟨hb2, hfill, hzero⟩ := hsucc hok
          have hkept := hfill.old k (by omega)
          rw [hf1.pte] at hfill
          rw [show k + 1 + n = k + (n + 1) by omega] at hb2 hfill hzero
          exact ⟨hb2, hfill.cons (by omega), hzero.cons h hk hf1 hkept⟩
        · obtain ⟨hp2, hm2⟩ := hfailed hok
          refine ⟨?_, fun pa hpa hnot => ?_⟩
          · rw [hp2, hf1.pte]
            funext v
            unfold clear
            by_cases hv : o ≤ v ∧ v < userPages
            · rw [if_pos hv, if_pos hv]
            · rw [if_neg hv, if_neg hv, update_of_ne (by omega : v ≠ k)]
          · rw [hm2 pa (fun hm => hpa (hf1.free_subset _ hm)) fun hm => hnot (hf1.maps hpa hm),
              hf1.mem pa hpa]

/-- Growing below the trapframe, or growing a table without holes, which memory bounds. -/
theorem uvmalloc_zeroed {xperm : Perm} {oldsz newsz : ℕ} (h : Space L r s) (hold : oldsz ≤ trapframeVa)
    (hnone : ∀ v, npages oldsz ≤ v → v < userPages → (s.tbl r).pte v = none)
    (hb : newsz ≤ trapframeVa ∨ ∀ v < npages oldsz, ((s.tbl r).pte v).isSome) :
    Tot (uvmalloc L r oldsz newsz xperm) s fun sz s' => Kept r s s' ∧
      (sz = 0 → (s'.tbl r).pte = (s.tbl r).pte) ∧
      (sz ≠ 0 → sz = max oldsz newsz ∧ sz ≤ trapframeVa ∧
        Filled { xperm with r := true, u := true } (npages oldsz) (npages sz) (s.tbl r).pte
          (s'.tbl r).pte ∧ Zeroed r (npages oldsz) (npages sz) s s') ∧
      ∀ pa ∉ s.free, s'.mem pa = s.mem pa := by
  have hle := npages_le hold
  unfold uvmalloc
  split_ifs with hlt
  · exact tot_pure ⟨.refl h.ok, fun _ => rfl, fun _ => ⟨by omega, hold, filled_empty le_rfl,
      zeroed_empty s le_rfl⟩, fun _ _ => rfl⟩
  · dsimp only
    rw [pgroundup_eq hold]
    have hcount : npages oldsz + (newsz - npages oldsz * pgsize + pgsize - 1) / pgsize =
        max (npages oldsz) (npages newsz) := by
      have := npages_mono (by omega : oldsz ≤ newsz)
      unfold npages pgsize at *
      omega
    have hmax : max (npages oldsz) (npages newsz) = npages newsz :=
      max_eq_right (npages_mono (by omega))
    have hb' : npages oldsz + (newsz - npages oldsz * pgsize + pgsize - 1) / pgsize ≤ userPages ∨
        ∀ v < npages oldsz, ((s.tbl r).pte v).isSome := by
      rcases hb with hb | hb
      · left
        rw [hcount, hmax]
        exact npages_le hb
      · exact .inr hb
    apply tot_bind
    apply tot_mono (uvmallocLoop_tot _ h le_rfl hnone hb')
    rintro ok s' ⟨hk, hsucc, hfail⟩
    cases ok with
    | false =>
      obtain ⟨hpte, hmem⟩ := hfail rfl
      refine tot_pure ⟨hk, fun _ => ?_, fun hne => absurd rfl hne, fun pa hpa => hmem pa hpa ?_⟩
      · rw [hpte]
        funext v
        unfold clear
        split_ifs with hv
        · exact (hnone v hv.1 hv.2).symm
        · rfl
      · rintro ⟨v, f, h1, h2, -, hf, -⟩
        rw [hnone v h1 h2] at hf
        cases hf
    | true =>
      obtain ⟨hb2, hfill, hzero⟩ := hsucc rfl
      rw [hcount, hmax] at hb2 hfill hzero
      have hbound : newsz ≤ trapframeVa := by
        have hup : npages newsz ≤ userPages := by
          rcases hb2 with hb2 | hb2
          · exact hb2
          · have := (h.kept hk).full_le hb2
            unfold userPages
            omega
        unfold npages userPages at hup
        unfold trapframeVa trampolineVa maxva pgsize at *
        omega
      have hsz : newsz = max oldsz newsz := by omega
      refine tot_pure ⟨hk, fun h0 => ?_, fun _ => ⟨hsz, hbound, hfill, hzero⟩, hzero.mem⟩
      funext v
      apply hfill.old
      rw [h0]
      have : npages 0 = 0 := rfl
      omega

/-! ## `freewalk` and `uvmfree` -/

theorem freewalkLeaf_eq {j : ℕ} (h : ∀ v, (s.tbl r).pte v = none) (n : ℕ) :
    freewalkLeaf r j n s = .ok ((), s) := by
  induction n with
  | zero => rfl
  | succ n ih =>
    unfold freewalkLeaf
    rw [bind_ok rfl]
    simp only [h]
    exact ih

/-- A node of the table goes back to the free list. -/
theorem bag_give_node (hp : pages t + {pa} = pages (s.tbl r)) :
    bag r ((s.give pa).setTbl r t) = bag r s := by
  rw [bag_setTbl]
  show ((pa :: s.free : List ℕ) : Multiset ℕ) + {r} + _ = _
  unfold bag
  rw [← hp, ← Multiset.cons_coe, ← Multiset.singleton_add]
  abel

theorem freeLow_one (h : Space L r s) (hnone : ∀ v, (s.tbl r).pte v = none) {j : ℕ}
    (hj : (s.tbl r).low j = some pa) :
    Balanced r s ((s.give pa).setTbl r ((s.tbl r).withLow j none)) := by
  refine ⟨(frame_give s r pa).trans (frame_setTbl _ r _), ?_, ?_⟩
  · rw [setTbl_tbl]
    constructor
    · exact h.ok.mid_lt
    · intro k hk
      by_cases he : k = j
      · rw [he]
        exact h.ok.low_mid j (by rw [hj]; rfl)
      · exact h.ok.low_mid k (isSome_of_update he hk)
    · intro v hv
      have : (s.tbl r).pte v = none := hnone v
      exact absurd hv (by simp [Tbl.withLow, this])
  · have := pages_withLow (t := s.tbl r) (h.ok.low_lt (by rw [hj]; rfl)) none
    rw [hj] at this
    exact bag_give_node (by simpa using this)

theorem freeMid_one (h : Space L r s) {i : ℕ} (hlow : ∀ j, j / 512 = i → (s.tbl r).low j = none)
    (hi : (s.tbl r).mid i = some pa) :
    Balanced r s ((s.give pa).setTbl r ((s.tbl r).withMid i none)) := by
  refine ⟨(frame_give s r pa).trans (frame_setTbl _ r _), ?_, ?_⟩
  · rw [setTbl_tbl]
    constructor
    · intro k hk
      by_cases he : k = i
      · rw [he]
        exact h.ok.mid_lt i (by rw [hi]; rfl)
      · exact h.ok.mid_lt k (isSome_of_update he hk)
    · intro j hj
      have hne : j / 512 ≠ i := by
        intro he
        have hj' : ((s.tbl r).low j).isSome := hj
        rw [hlow j he] at hj'
        exact absurd hj' (by simp)
      show (update (s.tbl r).mid i none (j / 512)).isSome
      rw [update_of_ne hne]
      exact h.ok.low_mid j hj
    · exact h.ok.pte_low
  · have := pages_withMid (t := s.tbl r) (h.ok.mid_lt i (by rw [hi]; rfl)) none
    rw [hi] at this
    exact bag_give_node (by simpa using this)

theorem Space.page_low (h : Space L r s) {j : ℕ} (hj : (s.tbl r).low j = some pa) : PageOk L pa := by
  apply h.page
  have hlt := h.ok.low_lt (j := j) (by rw [hj]; rfl)
  have : pa ∈ held (below (2 ^ 17)) (s.tbl r).low := mem_held (mem_below.2 hlt) hj
  unfold bag pages
  simp only [Multiset.mem_add]
  exact .inr (.inl (.inr this))

theorem Space.page_mid (h : Space L r s) {i : ℕ} (hi : (s.tbl r).mid i = some pa) : PageOk L pa := by
  apply h.page
  have hlt := h.ok.mid_lt i (by rw [hi]; rfl)
  have : pa ∈ held (below 256) (s.tbl r).mid := mem_held (mem_below.2 hlt) hi
  unfold bag pages
  simp only [Multiset.mem_add]
  exact .inr (.inl (.inl this))

/-- A loop over `[c, b)` that removes the entry at `c` first. -/
theorem cleared_cons {f : ℕ → Option ℕ} {a b c d : ℕ} (hc : c = a) (hd : d = a + 1) (hab : a < b)
    (j : ℕ) : (if d ≤ j ∧ j < b then none else update f a none j) =
      if c ≤ j ∧ j < b then none else f j := by
  subst hc hd
  by_cases he : j = c
  · rw [he, update_self, ite_self, if_pos ⟨le_rfl, hab⟩]
  · rw [update_of_ne he]
    exact if_congr (by omega) rfl rfl

theorem cleared_skip {f : ℕ → Option ℕ} {a b c d : ℕ} (hf : f a = none) (hc : c = a)
    (hd : d = a + 1) (hab : a < b) (j : ℕ) : (if d ≤ j ∧ j < b then none else f j) =
      if c ≤ j ∧ j < b then none else f j := by
  rw [← cleared_cons hc hd hab, ← hf, update_eq_self]

theorem freewalkMid_tot {i : ℕ} (n : ℕ) : ∀ {s : St T}, n ≤ 512 → Space L r s →
    (∀ v, (s.tbl r).pte v = none) →
    Tot (freewalkMid L r i n) s fun _ s' => Balanced r s s' ∧ (∀ v, (s'.tbl r).pte v = none) ∧
      (s'.tbl r).mid = (s.tbl r).mid ∧
      ∀ j, (s'.tbl r).low j =
        if i * 512 + (512 - n) ≤ j ∧ j < i * 512 + 512 then none else (s.tbl r).low j := by
  induction n with
  | zero =>
    intro s _ h hnone
    exact tot_pure ⟨.refl h.ok, hnone, rfl, fun j => by rw [if_neg (by omega)]⟩
  | succ n ih =>
    intro s hn h hnone
    unfold freewalkMid
    dsimp only
    apply tot_get
    cases hj : (s.tbl r).low (i * 512 + (511 - n)) with
    | none =>
      apply tot_mono (ih (by omega) h hnone)
      rintro _ s' ⟨hk, hp, hm, hl⟩
      refine ⟨hk, hp, hm, fun j => ?_⟩
      rw [hl j]
      exact cleared_skip hj (by omega) (by omega) (by omega) j
    | some pa =>
      have hk := freeLow_one h hnone hj
      apply tot_bind_eq (freewalkLeaf_eq hnone 512)
      apply tot_bind_eq (kfree_ok (h.page_low hj))
      apply tot_modify
      apply tot_mono (ih (s := (s.give pa).setTbl r ((s.tbl r).withLow _ none)) (by omega) (h.balanced hk)
        (by rw [setTbl_tbl]; exact hnone))
      rintro _ s' ⟨hk', hp, hm, hl⟩
      refine ⟨hk.trans hk', hp, ?_, fun j => ?_⟩
      · rw [hm, setTbl_tbl]
        rfl
      · rw [hl j, setTbl_tbl]
        exact cleared_cons (by omega) (by omega) (by omega) j

theorem freewalkRoot_tot (n : ℕ) : ∀ {s : St T}, n ≤ 512 → Space L r s →
    (∀ v, (s.tbl r).pte v = none) →
    Tot (freewalkRoot L r n) s fun _ s' => Balanced r s s' ∧ (∀ v, (s'.tbl r).pte v = none) ∧
      ∀ i, (s'.tbl r).mid i = if 512 - n ≤ i ∧ i < 512 then none else (s.tbl r).mid i := by
  induction n with
  | zero =>
    intro s _ h hnone
    exact tot_pure ⟨.refl h.ok, hnone, fun i => by rw [if_neg (by omega)]⟩
  | succ n ih =>
    intro s hn h hnone
    unfold freewalkRoot
    dsimp only
    apply tot_get
    cases hi : (s.tbl r).mid (511 - n) with
    | none =>
      apply tot_mono (ih (by omega) h hnone)
      rintro _ s' ⟨hk, hp, hm⟩
      refine ⟨hk, hp, fun i => ?_⟩
      rw [hm i]
      exact cleared_skip hi (by omega) (by omega) (by omega) i
    | some pa =>
      apply tot_bind
      apply tot_mono (freewalkMid_tot 512 le_rfl h hnone)
      rintro _ s1 ⟨hk1, hp1, hm1, hl1⟩
      have h1 := h.balanced hk1
      have hi1 : (s1.tbl r).mid (511 - n) = some pa := by rw [hm1, hi]
      have hlow : ∀ j, j / 512 = 511 - n → (s1.tbl r).low j = none := by
        intro j hj
        rw [hl1 j, if_pos (by omega)]
      have hk2 := freeMid_one h1 hlow hi1
      apply tot_bind_eq (kfree_ok (h1.page_mid hi1))
      apply tot_modify
      apply tot_mono (ih (s := (s1.give pa).setTbl r ((s1.tbl r).withMid _ none)) (by omega)
        (h1.balanced hk2) (by rw [setTbl_tbl]; exact hp1))
      rintro _ s' ⟨hk', hp, hm⟩
      refine ⟨hk1.trans (hk2.trans hk'), hp, fun i => ?_⟩
      rw [hm i, setTbl_tbl]
      rw [← hm1]
      exact cleared_cons (by omega) (by omega) (by omega) i

theorem pages_of_none (h : PtOk t) (hmid : ∀ i, t.mid i = none) : pages t = 0 := by
  have hlow : ∀ j, t.low j = none := by
    intro j
    by_contra hne
    have := h.low_mid j (Option.isSome_iff_ne_none.2 hne)
    rw [hmid] at this
    exact absurd this (by simp)
  have hpte : ∀ v, userPage t v = none := by
    intro v
    by_contra hne
    have hs : (t.pte v).isSome := by
      have := Option.isSome_iff_ne_none.2 hne
      unfold userPage at this
      rwa [Option.isSome_map] at this
    have := h.pte_low v hs
    rw [hlow] at this
    exact absurd this (by simp)
  unfold pages
  rw [held_none fun i _ => hmid i, held_none fun j _ => hlow j, held_none fun v _ => hpte v]
  rfl

/-- `freewalk` never meets a leaf here, and frees every page of the table. -/
theorem freewalk_tot (h : Space L r s) (hnone : ∀ v, (s.tbl r).pte v = none) :
    Tot (freewalk L r) s fun _ s' => Frame r s s' ∧ (s'.free : Multiset ℕ) = bag r s := by
  unfold freewalk
  apply tot_bind
  apply tot_mono (freewalkRoot_tot 512 le_rfl h hnone)
  rintro _ s1 ⟨hk, -, hm⟩
  have hmid : ∀ i, (s1.tbl r).mid i = none := by
    intro i
    rw [hm i]
    split_ifs with hi
    · rfl
    · by_contra hne
      have := h.ok.mid_lt i (Option.isSome_iff_ne_none.2 hne)
      omega
  apply tot_of_eq (kfree_ok ((h.balanced hk).page r mem_bag_root))
  refine ⟨hk.toFrame.trans (frame_give s1 r r), ?_⟩
  rw [← hk.bag]
  unfold bag
  rw [pages_of_none hk.ok hmid, add_zero]
  show ((r :: s1.free : List ℕ) : Multiset ℕ) = _
  rw [← Multiset.cons_coe, ← Multiset.singleton_add, add_comm]

theorem uvmfree_tot {sz : ℕ} (h : Space L r s) (hsz : sz ≤ trapframeVa)
    (hleaf : ∀ v, ((s.tbl r).pte v).isSome → v < npages sz) :
    Tot (uvmfree L r sz) s fun _ s' => Frame r s s' ∧ (s'.free : Multiset ℕ) = bag r s := by
  have hle := npages_le hsz
  unfold uvmfree
  by_cases h0 : sz > 0
  · rw [if_pos h0]
    apply tot_bind
    rw [pgroundup_eq hsz, Nat.mul_div_cancel _ (by unfold pgsize; norm_num)]
    have htot := uvmunmap_tot true (v := 0) (n := npages sz) h
      (by unfold userPages at hle; omega) (fun k _ hk => ⟨fun _ => by omega, fun _ => rfl⟩)
    rw [Nat.zero_mul] at htot
    apply tot_mono htot
    rintro _ s1 ⟨hk, hp⟩
    have hnone : ∀ v, (s1.tbl r).pte v = none := by
      intro v
      by_contra hne
      have hs := Option.isSome_iff_ne_none.2 hne
      rw [hp] at hs
      obtain ⟨hs', hn⟩ := isSome_of_clear hs
      have := hleaf v hs'
      omega
    apply tot_mono (freewalk_tot (h.kept hk) hnone)
    rintro _ s2 ⟨hf, hb⟩
    exact ⟨hk.toFrame.trans hf, hb.trans hk.bag⟩
  · rw [if_neg h0]
    apply freewalk_tot h
    intro v
    by_contra hne
    have := hleaf v (Option.isSome_iff_ne_none.2 hne)
    have hz : sz = 0 := by omega
    rw [hz] at this
    exact absurd this (by simp [npages, pgsize])

/-! ## The table of a process -/

theorem trampolineVa_eq : trampolineVa = (userPages + 1) * pgsize := by
  unfold trampolineVa maxva userPages pgsize
  norm_num

theorem trapframeVa_eq : trapframeVa = userPages * pgsize := by
  unfold trapframeVa trampolineVa maxva userPages pgsize
  norm_num

theorem procFreepagetable_tot {sz : ℕ} (h : Space L r s) (hsz : sz ≤ trapframeVa)
    (hleaf : ∀ v, ((s.tbl r).pte v).isSome → v < npages sz ∨ userPages ≤ v) :
    Tot (procFreepagetable L r sz) s fun _ s' => Frame r s s' ∧
      (s'.free : Multiset ℕ) = bag r s := by
  have hhigh : ∀ v, userPages ≤ v → ∀ k, v ≤ k → k < v + 1 → (false ↔ k < userPages) :=
    fun v hv k hk _ => ⟨nofun, fun _ => by omega⟩
  unfold procFreepagetable
  rw [trampolineVa_eq, trapframeVa_eq]
  apply tot_bind
  apply tot_mono (uvmunmap_tot false h (by unfold userPages; omega) (hhigh _ (by omega)))
  rintro _ s1 ⟨hk1, hp1⟩
  apply tot_bind
  apply tot_mono (uvmunmap_tot false (h.kept hk1) (by unfold userPages; omega) (hhigh _ (by omega)))
  rintro _ s2 ⟨hk2, hp2⟩
  have hk := hk1.trans hk2
  apply tot_mono (uvmfree_tot (h.kept hk) hsz ?_)
  · rintro _ s3 ⟨hf, hb⟩
    exact ⟨hk.toFrame.trans hf, hb.trans hk.bag⟩
  · intro v hv
    have hlt := hk.ok.pte_lt hv
    rw [hp2] at hv
    obtain ⟨hv1, hn2⟩ := isSome_of_clear hv
    rw [hp1] at hv1
    obtain ⟨hv0, hn1⟩ := isSome_of_clear hv1
    rcases hleaf v hv0 with hl | hl
    · exact hl
    · unfold userPages at *
      omega

/-- The leaf entries of a new process. -/
def procPtes (L : Layout) (trapframe : ℕ) : ℕ → Option Pte :=
  update (update (fun _ => none) (userPages + 1)
    (some ⟨{ r := true, x := true }, L.trampoline⟩))
    userPages (some ⟨{ r := true, w := true }, trapframe⟩)

/-- A new table at `r`, made of free pages. -/
structure Created (L : Layout) (trapframe r : ℕ) (s s' : St T) : Prop extends Frame r s s' where
  new : r ∈ s.free
  ok : PtOk (s'.tbl r)
  pte : (s'.tbl r).pte = procPtes L trapframe
  bag : bag r s' = (s.free : Multiset ℕ)

/-- The free list is what it was, up to order, and no table in use was touched. -/
structure Restored (s s' : St T) : Prop where
  proc : s'.proc = s.proc
  tbl : ∀ r ∉ s.free, s'.tbl r = s.tbl r
  free : (s'.free : Multiset ℕ) = s.free

theorem Restored.refl (s : St T) : Restored s s := ⟨rfl, fun _ _ => rfl, rfl⟩

theorem Frame.restored (h : Frame r s s') (hr : r ∈ s.free)
    (hf : (s'.free : Multiset ℕ) = s.free) : Restored s s' where
  proc := h.proc
  tbl r' hr' := h.tbl r' fun he => hr' (he ▸ hr)
  free := hf

/-- All free pages are distinct pages of physical memory. -/
structure FreeOk (L : Layout) (s : St T) : Prop where
  page : ∀ pa ∈ s.free, PageOk L pa
  nodup : s.free.Nodup

theorem Space.of_bag (hf : FreeOk L s) (ok : PtOk (s'.tbl r))
    (hb : bag r s' = (s.free : Multiset ℕ)) : Space L r s' := by
  constructor
  · exact ok
  · rw [hb]
    exact hf.page
  · rw [hb]
    exact Multiset.nodup_iff_count_le_one.1 (Multiset.coe_nodup.2 hf.nodup)

theorem procPagetable_tot (trapframe : ℕ) (hf : FreeOk L s) :
    Tot (procPagetable L trapframe) s fun o s' =>
      (o = none → Restored s s') ∧ (∀ r, o = some r → Created L trapframe r s s') ∧
      ∀ pa ∉ s.free, s'.mem pa = s.mem pa := by
  unfold procPagetable uvmcreate
  apply tot_bind
  apply tot_kalloc
  · intro h0
    exact tot_pure (tot_pure ⟨fun _ => .refl s, nofun, fun _ _ => rfl⟩)
  intro r l hl
  apply tot_modify
  apply tot_pure
  -- the empty table
  have hr : r ∈ s.free := by
    rw [hl]
    exact List.mem_cons_self
  have hframe : Frame r s ((s.take r l).setTbl r .empty) :=
    (frame_take s r r l).trans (frame_setTbl _ r _)
  have hbag : bag r ((s.take r l).setTbl r .empty) = (s.free : Multiset ℕ) := by
    rw [bag_setTbl, pages_empty, add_zero, hl, ← Multiset.cons_coe, ← Multiset.singleton_add,
      add_comm]
    rfl
  have hok : PtOk (((s.take r l).setTbl r .empty).tbl r) := by
    rw [setTbl_tbl]
    exact .empty
  have hsp : Space L r ((s.take r l).setTbl r .empty) := .of_bag hf hok hbag
  have hpte : (((s.take r l).setTbl r .empty).tbl r).pte = fun _ => none := by
    rw [setTbl_tbl]
    rfl
  have hmem0 : ∀ pa ∉ s.free, ((s.take r l).setTbl r .empty).mem pa = s.mem pa := by
    intro pa hpa
    have hne : pa ≠ r := by
      rintro rfl
      exact hpa hr
    exact update_of_ne hne _ _
  have hfree0 : ∀ pa ∉ s.free, pa ∉ ((s.take r l).setTbl r .empty).free := fun pa hpa hc =>
    hpa (by rw [hl]; exact List.mem_cons_of_mem _ hc)
  generalize (s.take r l).setTbl r .empty = s0 at *
  have hundo : ∀ s1 : St T, Kept r s0 s1 → (∀ v, (s1.tbl r).pte v = none) →
      (∀ pa ∉ s.free, s1.mem pa = s.mem pa) →
      Tot (do
        uvmfree L r 0
        return none : K T (Option ℕ)) s1 fun o s' =>
        (o = none → Restored s s') ∧ (∀ r, o = some r → Created L trapframe r s s') ∧
        ∀ pa ∉ s.free, s'.mem pa = s.mem pa := by
    intro s1 hk hnone hmem1
    apply tot_bind
    apply tot_mono ((frees_uvmfree 0).tot (uvmfree_tot (h := hsp.kept hk) (Nat.zero_le _) fun v hv => by
      rw [hnone v] at hv
      exact absurd hv (by simp)))
    rintro _ s2 ⟨⟨hfr, hb⟩, hof⟩
    have hfree : (s2.free : Multiset ℕ) = s.free := by rw [hb, hk.bag, hbag]
    refine tot_pure ⟨fun _ => ?_, nofun, fun pa hpa => ?_⟩
    · exact (hframe.trans (hk.toFrame.trans hfr)).restored hr hfree
    · have hpa2 : pa ∉ s2.free := fun hc => hpa (Multiset.mem_coe.1 (hfree ▸ Multiset.mem_coe.2 hc))
      rw [hof.mem pa hpa2, hmem1 pa hpa]
  dsimp only
  rw [trampolineVa_eq, trapframeVa_eq]
  apply tot_bind
  apply tot_mono (mappages_one (v := userPages + 1) hok (by unfold userPages; omega) (by rw [hpte]))
  rintro ok s1 ⟨hm1, hg1, -⟩
  cases ok with
  | false =>
    have hg := hg1 rfl
    rw [if_neg (by simp)]
    refine hundo s1 hg.kept (fun v => by rw [hg.pte, hpte]) fun pa hpa => ?_
    rw [hg.mem pa (hfree0 pa hpa), hmem0 pa hpa]
  | true =>
    have hm := hm1 rfl
    have hk1 : Kept r s0 s1 := by
      refine ⟨⟨hm.toFrame, hm.ok, ?_⟩, hm.nodes⟩
      rw [hm.bag, if_neg (by omega), add_zero]
    have hmem1 : ∀ pa ∉ s.free, s1.mem pa = s.mem pa := fun pa hpa => by
      rw [hm.mem pa (hfree0 pa hpa), hmem0 pa hpa]
    have hfree1 : ∀ pa ∉ s.free, pa ∉ s1.free := fun pa hpa hc => by
      obtain ⟨l', hl', -⟩ := hm.drop
      exact hfree0 pa hpa (by rw [hl']; exact List.mem_append_right _ hc)
    rw [if_pos rfl]
    apply tot_bind
    have hnone1 : (s1.tbl r).pte userPages = none := by
      rw [hm.pte, update_of_ne (by omega), hpte]
    apply tot_mono (mappages_one (v := userPages) hm.ok (by unfold userPages; omega) hnone1)
    rintro ok s2 ⟨hm2, hg2, -⟩
    cases ok with
    | true =>
      have hm' := hm2 rfl
      refine tot_pure ⟨nofun, ?_, fun pa hpa => ?_⟩
      rotate_left
      · rw [hm'.mem pa (hfree1 pa hpa), hmem1 pa hpa]
      rintro _ ⟨⟩
      refine ⟨hframe.trans (hk1.toFrame.trans hm'.toFrame), hr, hm'.ok, ?_, ?_⟩
      · rw [hm'.pte, hm.pte, hpte]
        rfl
      · rw [hm'.bag, if_neg (by omega), add_zero, hk1.bag, hbag]
    | false =>
      have hg := hg2 rfl
      have hk2 := hk1.trans hg.kept
      rw [if_neg (by simp)]
      apply tot_bind
      apply tot_mono (uvmunmap_unmapped false (v := userPages + 1) (n := 1) (hsp.kept hk2)
        (by unfold userPages; omega) fun k hk _ => ⟨nofun, fun _ => by omega⟩)
      rintro _ s3 ⟨hk3, hp3⟩
      refine hundo s3 (hk2.trans hk3) (fun v => ?_) fun pa hpa => ?_
      · rw [hp3.pte, hg.pte, hm.pte, hpte]
        unfold clear
        by_cases hv : v = userPages + 1
        · rw [if_pos (by omega)]
        · rw [update_of_ne hv]
          split_ifs <;> rfl
      · rw [hp3.mem pa (by rintro ⟨k, e, hk, -, hlt, -⟩; omega), hg.mem pa (hfree1 pa hpa),
          hmem1 pa hpa]

/-! ## `uvmcopy` -/

/-- The entries from `v` up to `w` of the table at `new` are copies of those of the table at `old`, on
pages that were free. Only free pages changed. -/
structure Copied (old new v w : ℕ) (s s' : St T) : Prop where
  some : ∀ k, v ≤ k → k < w → ∀ e, (s.tbl old).pte k = some e → ∃ pa ∈ s.free,
    (s'.tbl new).pte k = some ⟨e.perm, pa⟩ ∧ s'.mem pa = s.mem e.pa
  none : ∀ k, v ≤ k → k < w → (s.tbl old).pte k = none → (s'.tbl new).pte k = none
  below : ∀ k < v, (s'.tbl new).pte k = (s.tbl new).pte k
  mem : ∀ pa ∉ s.free, s'.mem pa = s.mem pa

/-- The user pages of the table at `old` are not free. -/
def Occupied (old : ℕ) (s : St T) : Prop :=
  ∀ k < userPages, ∀ e, (s.tbl old).pte k = some e → e.pa ∉ s.free

section Copied

variable {old new k n : ℕ}

theorem copied_empty (s : St T) (h : n ≤ k) : Copied old new k n s s :=
  ⟨fun _ h1 h2 => by omega, fun _ h1 h2 => by omega, fun _ _ => rfl, fun _ _ => rfl⟩

/-- Nothing is mapped at `k` in either table. -/
theorem Copied.skip (hold : (s.tbl old).pte k = .none) (hnew : (s.tbl new).pte k = .none)
    (h : Copied old new (k + 1) n s s') : Copied old new k n s s' where
  some v hv hv' e he := by
    have hne : v ≠ k := by
      rintro rfl
      rw [hold] at he
      cases he
    exact h.some v (by omega) hv' e he
  none v hv hv' he := by
    by_cases hvk : v = k
    · rw [hvk, h.below k (by omega), hnew]
    · exact h.none v (by omega) hv' he
  below v hv := h.below v (by omega)
  mem := h.mem

theorem Copied.cons (hne : old ≠ new) (h : Space L new s) (hk : k < userPages)
    (hocc : Occupied old s) (hle : n ≤ userPages) (he : (s.tbl old).pte k = .some e)
    (hf : Fresh new k ⟨e.perm, pa⟩ (s.mem e.pa) s s') (hc : Copied old new (k + 1) n s' s'') :
    Copied old new k n s s'' := by
  have htbl : s'.tbl old = s.tbl old := hf.tbl old hne
  have hpte : (s'.tbl new).pte k = .some ⟨e.perm, pa⟩ := by rw [hf.pte, update_self]
  constructor
  · intro v hv hv' f hfe
    by_cases hvk : v = k
    · subst hvk
      rw [he] at hfe
      obtain rfl := Option.some.inj hfe
      refine ⟨pa, hf.new, (hc.below v (by omega)).trans hpte, ?_⟩
      rw [hc.mem pa ((h.kept hf.toKept).notMem_free hk hpte)]
      exact hf.page
    · obtain ⟨q, hq, hqe, hqm⟩ := hc.some v (by omega) hv' f (by rw [htbl]; exact hfe)
      refine ⟨q, hf.free_subset q hq, hqe, ?_⟩
      rw [hqm, hf.mem _ (hocc v (by omega) f hfe)]
  · intro v hv hv' hnone
    have hvk : v ≠ k := by
      rintro rfl
      rw [he] at hnone
      cases hnone
    exact hc.none v (by omega) hv' (by rw [htbl]; exact hnone)
  · intro v hv
    rw [hc.below v (by omega), hf.pte, update_of_ne (by omega : v ≠ k)]
  · intro a ha
    rw [hc.mem a fun hm => ha (hf.free_subset a hm), hf.mem a ha]

end Copied

/-- What the loop of `uvmcopy` does for `n` pages from page `k` on. The copy has leaf entries only
where the old table has some. -/
structure CopyLoop (old new k n : ℕ) (s : St T) (ok : Bool) (s' : St T) : Prop where
  kept : Kept new s s'
  high : ∀ v, userPages ≤ v → (s'.tbl new).pte v = (s.tbl new).pte v
  done : ok → (∀ v, k + n ≤ v → v < userPages → (s'.tbl new).pte v = none) ∧
    (Occupied old s → Copied old new k (k + n) s s')
  undone : ok = false → (∀ v < userPages, (s'.tbl new).pte v = none) ∧
    ∀ pa ∉ s.free, ¬(s.tbl new).Maps 0 userPages pa → s'.mem pa = s.mem pa

theorem uvmcopyLoop_tot {old new : ℕ} (hne : old ≠ new) (n : ℕ) : ∀ {s : St T} {k : ℕ},
    Space L new s → PtOk (s.tbl old) → k + n ≤ userPages →
    (∀ v, k ≤ v → v < userPages → (s.tbl new).pte v = none) →
    Tot (uvmcopyLoop L old new n (k * pgsize)) s (CopyLoop old new k n s) := by
  induction n with
  | zero =>
    intro s k h _ _ hnone
    exact tot_pure ⟨.refl h.ok, fun _ _ => rfl, fun _ => ⟨fun v hv => hnone v hv, fun _ =>
      copied_empty s (by omega)⟩, nofun⟩
  | succ n ih =>
    intro s k h hold hn hnone
    have hdiv : k * pgsize / pgsize = k := Nat.mul_div_cancel _ (by unfold pgsize; norm_num)
    have hva : k * pgsize < maxva := by
      unfold userPages at hn
      unfold maxva pgsize
      omega
    have hnext : k * pgsize + pgsize = (k + 1) * pgsize := by ring
    have hend : k + 1 + n = k + (n + 1) := by omega
    have hskip : (s.tbl old).pte k = none →
        Tot (uvmcopyLoop L old new n ((k + 1) * pgsize)) s (CopyLoop old new k (n + 1) s) := by
      intro hk0
      apply tot_mono (ih h hold (by omega) fun v hv hv' => hnone v (by omega) hv')
      rintro ok s' ⟨hk, hhigh, hsucc, hfail⟩
      refine ⟨hk, hhigh, fun hok => ?_, hfail⟩
      obtain ⟨habove, hcop⟩ := hsucc hok
      rw [hend] at habove hcop
      exact ⟨habove, fun hocc => (hcop hocc).skip hk0 (hnone k le_rfl (by omega))⟩
    -- both errors unmap the pages below `k`
    have herr : ∀ s1 : St T, Kept new s s1 → (s1.tbl new).pte = (s.tbl new).pte →
        (∀ pa ∉ s.free, s1.mem pa = s.mem pa) →
        Tot (do
          uvmunmap L new 0 k true
          return false : K T Bool) s1 (CopyLoop old new k (n + 1) s) := by
      intro s1 hk1 hp1 hm1
      have htot := uvmunmap_unmapped true (v := 0) (n := k) (h.kept hk1)
        (by unfold userPages at hn; omega) (fun v _ hv => ⟨fun _ => by omega, fun _ => rfl⟩)
      rw [Nat.zero_mul] at htot
      apply tot_bind
      apply tot_mono htot
      rintro _ s2 ⟨hk2, hu⟩
      refine tot_pure ⟨hk1.trans hk2, fun v hv => ?_, nofun, fun _ => ⟨fun v hv => ?_, fun pa hpa hnot => ?_⟩⟩
      · rw [hu.pte, hp1]
        unfold clear
        rw [if_neg (by omega)]
      · rw [hu.pte, hp1]
        unfold clear
        split_ifs with hlt
        · rfl
        · exact hnone v (by omega) hv
      · rw [hu.mem pa, hm1 pa hpa]
        rintro ⟨v, f, h1, h2, h3, hf, rfl⟩
        rw [hp1] at hf
        exact hnot ⟨v, f, h1, h3, h3, hf, rfl⟩
    unfold uvmcopyLoop
    apply tot_bind_eq (walk_false hold hva)
    rw [hnext, hdiv]
    cases hlow : (s.tbl old).low (k * pgsize / 2 ^ 21) with
    | none =>
      apply hskip
      by_contra hsome
      have := hold.pte_low k (Option.isSome_iff_ne_none.2 hsome)
      rw [← hdiv, div_pgsize_div, hlow] at this
      exact absurd this (by simp)
    | some m =>
      rw [Option.isSome_some, if_pos rfl]
      apply tot_get
      cases he : (s.tbl old).pte k with
      | none => exact hskip he
      | some e =>
        apply tot_kalloc
        · intro _
          exact herr s (.refl h.ok) rfl fun _ _ => rfl
        · intro pa l hf
          apply tot_modify
          apply tot_bind
          apply tot_mono (mappages_fresh h hf (by omega) (hnone k le_rfl (by omega)) _)
          rintro ok s1 ⟨hfresh, hlost, -⟩
          cases ok with
          | false =>
            obtain ⟨hk1, hp1, hm1⟩ := hlost rfl
            rw [if_neg (by simp)]
            apply tot_bind_eq (kfree_ok (h.page pa (mem_bag_of_free (by rw [hf]; exact List.mem_cons_self))))
            exact herr _ hk1 hp1 hm1
          | true =>
            have hf1 := hfresh rfl
            rw [if_pos rfl]
            have hold1 : PtOk (s1.tbl old) := by rwa [hf1.tbl old hne]
            have hnone1 : ∀ v, k + 1 ≤ v → v < userPages → (s1.tbl new).pte v = none := by
              intro v hv hv'
              rw [hf1.pte, update_of_ne (by omega : v ≠ k)]
              exact hnone v (by omega) hv'
            apply tot_mono (ih (h.kept hf1.toKept) hold1 (by omega) hnone1)
            rintro ok s2 ⟨hk2, hhigh, hsucc, hfail⟩
            refine ⟨hf1.toKept.trans hk2, fun v hv => ?_, fun hok => ?_, fun hok => ?_⟩
            · rw [hhigh v hv, hf1.pte, update_of_ne (by omega : v ≠ k)]
            · obtain ⟨habove, hcop⟩ := hsucc hok
              rw [hend] at habove hcop
              refine ⟨habove, fun hocc => ?_⟩
              -- the page that is copied is not the one that was just allocated
              have hsrc : (s.take pa l).mem e.pa = s.mem e.pa := by
                apply update_of_ne
                rintro rfl
                exact hocc k (by omega) e he (by rw [hf]; exact List.mem_cons_self)
              rw [hsrc] at hf1
              have hocc1 : Occupied old s1 := by
                intro v hv f hfe hm
                rw [hf1.tbl old hne] at hfe
                exact hocc v hv f hfe (hf1.free_subset _ hm)
              exact (hcop hocc1).cons hne h (by omega) hocc hn he hf1
            · obtain ⟨hno, hm2⟩ := hfail hok
              refine ⟨hno, fun a ha hnot => ?_⟩
              rw [hm2 a (fun hm => ha (hf1.free_subset _ hm)) fun hm => hnot (hf1.maps ha hm),
                hf1.mem a ha]

theorem uvmcopy_copied {old new sz : ℕ} (hne : old ≠ new) (h : Space L new s)
    (hold : PtOk (s.tbl old)) (hsz : sz ≤ trapframeVa)
    (hnone : ∀ v < userPages, (s.tbl new).pte v = none) :
    Tot (uvmcopy L old new sz) s fun ok s' => Kept new s s' ∧
      (∀ v, userPages ≤ v → (s'.tbl new).pte v = (s.tbl new).pte v) ∧
      (ok → (∀ v, npages sz ≤ v → v < userPages → (s'.tbl new).pte v = none) ∧
        (Occupied old s → Copied old new 0 (npages sz) s s')) ∧
      (ok = false → (∀ v < userPages, (s'.tbl new).pte v = none) ∧
        ∀ pa ∉ s.free, s'.mem pa = s.mem pa) := by
  have hle := npages_le hsz
  have htot := uvmcopyLoop_tot hne (npages sz) (k := 0) h hold (by omega) fun v _ hv => hnone v hv
  rw [Nat.zero_mul] at htot
  apply tot_mono htot
  rintro ok s' ⟨hk, hhigh, hsucc, hfail⟩
  rw [Nat.zero_add] at hsucc
  refine ⟨hk, hhigh, hsucc, fun hok => ⟨(hfail hok).1, fun pa hpa => (hfail hok).2 pa hpa ?_⟩⟩
  rintro ⟨v, f, -, hv, -, hf, -⟩
  rw [hnone v hv] at hf
  cases hf

/-! ## `uvmclear` -/

theorem uvmclear_tot (h : Space L r s) (hv : v < userPages) (he : (s.tbl r).pte v = some e) :
    Tot (uvmclear r (v * pgsize)) s fun _ s' => Kept r s s' ∧
      (s'.tbl r).pte =
        update (s.tbl r).pte v (some { e with perm := { e.perm with u := false } }) ∧
      s'.mem = s.mem := by
  have hdiv : v * pgsize / pgsize = v := Nat.mul_div_cancel _ (by unfold pgsize; norm_num)
  have hva : v * pgsize < maxva := by
    unfold userPages at hv
    unfold maxva pgsize
    omega
  have hlow : ((s.tbl r).low (v / 512)).isSome := h.ok.pte_low v (by rw [he]; rfl)
  have hlow' : ((s.tbl r).low (v * pgsize / 2 ^ 21)).isSome := by
    rw [← div_pgsize_div, hdiv]
    exact hlow
  unfold uvmclear
  apply tot_bind_eq (walk_false h.ok hva)
  rw [hlow', if_pos rfl]
  apply tot_modify_end
  rw [hdiv, he, setPte_eq]
  refine ⟨⟨⟨frame_setTbl s r _, ?_, ?_⟩, ?_⟩, ?_, rfl⟩
  · rw [setTbl_tbl]
    exact h.ok.withPte _ fun _ => hlow
  · have hu : userPage (s.tbl r) v = some e.pa := by
      unfold userPage
      rw [he]
      rfl
    have := pages_withPte (t := s.tbl r) hv (some { e with perm := { e.perm with u := false } })
    rw [hu] at this
    have hp : pages ((s.tbl r).withPte v (some { e with perm := { e.perm with u := false } })) =
        pages (s.tbl r) := by simpa using this
    rw [bag_setTbl, Option.map_some, hp]
    rfl
  · rw [setTbl_tbl]
    exact Tbl.nodes_withPte _ v _
  · rw [setTbl_tbl]
    rfl

end Xv6.Vm
