import Xv6.Vm.Table

/-!
# The functions of `vm.c` on one page table

Each function keeps the bag of the table that it works on (`Kept`), and its lemma says which leaf
entries it changes. Under the stated conditions on the addresses none of them panics.
-/

namespace Xv6.Vm

open Function Finset

variable {T : Type} [DecidableEq T] {L : Layout} {s s' s'' : St T} {r r' va pa v : ℕ} {t : Tbl}
  {e : Pte} {perm : Perm}

/-! ## Spaces -/

/-- The pages of the table at `r` and the free pages are distinct pages of physical memory. -/
structure Space (L : Layout) (r : ℕ) (s : St T) : Prop where
  ok : PtOk (s.tbl r)
  page : ∀ pa ∈ bag r s, PageOk L pa
  once : ∀ pa, (bag r s).count pa ≤ 1

theorem Space.nodup (h : Space L r s) : (bag r s).Nodup := Multiset.nodup_iff_count_le_one.2 h.once

/-- No page is lost by work on the table at `r`. -/
structure Balanced (r : ℕ) (s s' : St T) : Prop extends Frame r s s' where
  ok : PtOk (s'.tbl r)
  bag : bag r s' = bag r s

theorem Balanced.refl (h : PtOk (s.tbl r)) : Balanced r s s := ⟨.refl r s, h, rfl⟩

theorem Balanced.trans (h : Balanced r s s') (h' : Balanced r s' s'') : Balanced r s s'' :=
  ⟨h.toFrame.trans h'.toFrame, h'.ok, h'.bag.trans h.bag⟩

/-- What every function but `freewalk` keeps that works on the table at `r`. -/
structure Kept (r : ℕ) (s s' : St T) : Prop extends Balanced r s s' where
  nodes : (s.tbl r).Nodes (s'.tbl r)

theorem Kept.refl (h : PtOk (s.tbl r)) : Kept r s s := ⟨.refl h, .refl _⟩

theorem Kept.trans (h : Kept r s s') (h' : Kept r s' s'') : Kept r s s'' :=
  ⟨h.toBalanced.trans h'.toBalanced, h.nodes.trans h'.nodes⟩

theorem Grown.kept {n : ℕ} (h : Grown r n s s') : Kept r s s' := ⟨⟨h.toFrame, h.ok, h.bag⟩, h.nodes⟩

theorem Space.balanced (h : Space L r s) (hk : Balanced r s s') : Space L r s' := by
  constructor
  · exact hk.ok
  · rw [hk.bag]
    exact h.page
  · rw [hk.bag]
    exact h.once

theorem Space.kept (h : Space L r s) (hk : Kept r s s') : Space L r s' := h.balanced hk.toBalanced

theorem mem_bag_of_free (h : pa ∈ s.free) : pa ∈ bag r s := by
  unfold bag
  rw [Multiset.mem_add, Multiset.mem_add]
  exact .inl (.inl h)

theorem mem_bag_of_pte (hv : v < userPages) (he : (s.tbl r).pte v = some e) : e.pa ∈ bag r s := by
  unfold bag
  rw [Multiset.mem_add]
  exact .inr (mem_pages hv he)

theorem mem_bag_root : r ∈ bag r s := by
  unfold bag
  rw [Multiset.mem_add, Multiset.mem_add]
  exact .inl (.inr (Multiset.mem_singleton_self r))

/-- A mapped user page is not free. -/
theorem Space.notMem_free (h : Space L r s) (hv : v < userPages) (he : (s.tbl r).pte v = some e) :
    e.pa ∉ s.free := by
  have hn := h.nodup
  unfold bag at hn
  have hdis := Multiset.disjoint_of_nodup_add hn
  exact fun hf => Multiset.disjoint_left.1 hdis (Multiset.mem_add.2 (.inl (Multiset.mem_coe.2 hf)))
    (mem_pages hv he)

theorem Space.pa_inj (h : Space L r s) {w : ℕ} {f : Pte} (hv : v < userPages) (hw : w < userPages)
    (he : (s.tbl r).pte v = some e) (hf : (s.tbl r).pte w = some f) (hpa : f.pa = e.pa) : w = v := by
  have hn := h.nodup
  unfold bag pages at hn
  have hheld := (Multiset.nodup_add.1 (Multiset.nodup_add.1 hn).2.1).2.1
  apply eq_of_held_nodup hheld (mem_below.2 hv) (mem_below.2 hw)
    (show userPage _ v = some e.pa by unfold userPage; rw [he]; rfl)
  unfold userPage
  rw [hf, ← hpa]
  rfl

theorem bag_take {l : List ℕ} (h : s.free = pa :: l) : bag r (s.take pa l) + {pa} = bag r s := by
  unfold bag
  rw [h, ← Multiset.cons_coe, ← Multiset.singleton_add]
  show (l : Multiset ℕ) + {r} + pages (s.tbl r) + {pa} = _
  abel

theorem bag_give : bag r (s.give pa) = bag r s + {pa} := by
  unfold bag
  show ((pa :: s.free : List ℕ) : Multiset ℕ) + {r} + pages (s.tbl r) = _
  rw [← Multiset.cons_coe, ← Multiset.singleton_add]
  abel

theorem bag_setTbl (t : Tbl) : bag r (s.setTbl r t) = (s.free : Multiset ℕ) + {r} + pages t := by
  unfold bag
  rw [setTbl_tbl, setTbl_free]

theorem card_le {m : Multiset ℕ} (h : m.Nodup) (hp : ∀ pa ∈ m, PageOk L pa) : m.card ≤ 2 ^ 15 := by
  have hsub : m.toFinset.image (· / pgsize) ⊆ Ico (kernBase / pgsize) (phystop / pgsize) := by
    intro x hx
    obtain ⟨pa, hpa, rfl⟩ := mem_image.1 hx
    obtain ⟨hmod, hlo, hhi⟩ := hp pa (Multiset.mem_toFinset.1 hpa)
    have := L.base_le
    rw [mem_Ico]
    unfold phystop kernBase pgsize at *
    omega
  have hinj : Set.InjOn (· / pgsize) (m.toFinset : Set ℕ) := by
    intro a ha b hb hab
    have ha' := (hp a (Multiset.mem_toFinset.1 ha)).1
    have hb' := (hp b (Multiset.mem_toFinset.1 hb)).1
    dsimp only at hab
    unfold pgsize at *
    omega
  calc m.card = #m.toFinset := (Multiset.toFinset_card_of_nodup h).symm
    _ = #(m.toFinset.image (· / pgsize)) := (card_image_of_injOn hinj).symm
    _ ≤ #(Ico (kernBase / pgsize) (phystop / pgsize)) := card_le_card hsub
    _ = 2 ^ 15 := by
      rw [Nat.card_Ico]
      rfl

/-- Memory is exhausted long before a table without holes reaches the trapframe. -/
theorem Space.full_le (h : Space L r s) {k : ℕ} (hk : ∀ v < k, ((s.tbl r).pte v).isSome) :
    k ≤ 2 ^ 15 := by
  by_contra hlt
  have hsub : range (2 ^ 15 + 1) ⊆ below userPages := by
    intro v hv
    have := mem_range.1 hv
    rw [mem_below]
    unfold userPages
    omega
  have hsome : ∀ v ∈ range (2 ^ 15 + 1), (userPage (s.tbl r) v).isSome := by
    intro v hv
    have := mem_range.1 hv
    unfold userPage
    rw [Option.isSome_map]
    exact hk v (by omega)
  have hcard := card_le_card_held hsub hsome
  have hbag := card_le h.nodup h.page
  unfold bag pages at hbag
  rw [card_range] at hcard
  simp only [Multiset.card_add] at hbag
  omega

/-! ## `mappages` -/

/-- Page `v` was mapped in the table at `r`. -/
structure Mapped (r v : ℕ) (e : Pte) (s s' : St T) : Prop extends Frame r s s' where
  ok : PtOk (s'.tbl r)
  nodes : (s.tbl r).Nodes (s'.tbl r)
  pte : (s'.tbl r).pte = update (s.tbl r).pte v (some e)
  bag : bag r s' = bag r s + if v < userPages then {e.pa} else 0
  drop : ∃ l, s.free = l ++ s'.free ∧ l.length ≤ 2
  mem : ∀ pa ∉ s.free, s'.mem pa = s.mem pa

theorem setPte_eq (s : St T) (r v : ℕ) (x : Option Pte) :
    s.setPte r v x = s.setTbl r ((s.tbl r).withPte v x) := rfl

theorem Grown.mapped (h : Grown r 2 s s') (hv : (s.tbl r).pte v = none)
    (hlow : ((s'.tbl r).low (v / 512)).isSome) (e : Pte) :
    Mapped r v e s (s'.setPte r v (some e)) := by
  refine { h with
    toFrame := h.toFrame.trans (frame_setTbl s' r _), ok := ?_, nodes := ?_, pte := ?_, bag := ?_ }
  · rw [setPte_eq, setTbl_tbl]
    exact h.ok.withPte _ fun _ => hlow
  · rw [setPte_eq, setTbl_tbl]
    exact h.nodes.trans (Tbl.nodes_withPte _ v _)
  · rw [setPte_eq, setTbl_tbl, ← h.pte]
    rfl
  · rw [setPte_eq, bag_setTbl, ← h.bag]
    unfold Vm.bag
    split_ifs with hlt
    · have hu : userPage (s'.tbl r) v = none := by
        unfold userPage
        rw [h.pte, hv]
        rfl
      have := pages_withPte (t := s'.tbl r) hlt (some e)
      rw [hu] at this
      have hp : pages ((s'.tbl r).withPte v (some e)) = pages (s'.tbl r) + {e.pa} := by
        simpa using this
      rw [hp]
      abel
    · rw [pages_withPte_high (by omega), add_zero]

theorem mappages_one (h : PtOk (s.tbl r)) (hv : v < 2 ^ 26) (hnone : (s.tbl r).pte v = none) :
    Tot (mappages r (v * pgsize) pgsize pa perm) s fun ok s' =>
      (ok → Mapped r v ⟨perm, pa⟩ s s') ∧ (ok = false → Grown r 2 s s') ∧
      (2 ≤ s.free.length → ok) := by
  have hdiv : v * pgsize / pgsize = v := Nat.mul_div_cancel _ (by unfold pgsize; norm_num)
  have hva : v * pgsize < maxva := by
    unfold maxva pgsize
    omega
  unfold mappages
  rw [if_neg (by rw [Nat.mul_mod_left]; simp), if_neg (by rw [Nat.mod_self]; simp),
    if_neg (by unfold pgsize; norm_num), Nat.div_self (by unfold pgsize; norm_num)]
  unfold mappagesLoop
  apply tot_bind
  apply tot_mono (walk_true h hva)
  rintro ok s1 ⟨hg, hlow, hok⟩
  cases ok with
  | false => exact tot_pure ⟨nofun, fun _ => hg, fun hl => absurd (hok hl) (by simp)⟩
  | true =>
    rw [if_pos rfl]
    apply tot_get
    rw [hdiv, hg.pte, hnone, if_neg (by simp)]
    apply tot_modify
    unfold mappagesLoop
    refine tot_pure ⟨fun _ => hg.mapped hnone ?_ _, nofun, fun _ => rfl⟩
    have := hlow rfl
    rwa [← div_pgsize_div, hdiv] at this

/-- A new page `v`, with contents `x`. -/
structure Fresh (r v : ℕ) (e : Pte) (x : Page) (s s' : St T) : Prop extends Kept r s s' where
  pte : (s'.tbl r).pte = update (s.tbl r).pte v (some e)
  new : e.pa ∈ s.free
  page : s'.mem e.pa = x
  drop : ∃ l, s.free = l ++ s'.free ∧ l.length ≤ 3
  mem : ∀ pa ∉ s.free, s'.mem pa = s.mem pa

/-- Mapping the page that was just allocated; it is given back on an error. -/
theorem mappages_fresh (h : Space L r s) {l : List ℕ} (hf : s.free = pa :: l) (hv : v < userPages)
    (hnone : (s.tbl r).pte v = none) (x : Page) :
    Tot (mappages r (v * pgsize) pgsize pa perm) ((s.take pa l).setMem pa x) fun ok s' =>
      (ok → Fresh r v ⟨perm, pa⟩ x s s') ∧
      (ok = false → Kept r s (s'.give pa) ∧ (s'.tbl r).pte = (s.tbl r).pte ∧
        ∀ a ∉ s.free, (s'.give pa).mem a = s.mem a) ∧
      (3 ≤ s.free.length → ok) := by
  have hbag : bag r ((s.take pa l).setMem pa x) + {pa} = bag r s := bag_take hf
  have hframe : Frame r s ((s.take pa l).setMem pa x) :=
    (frame_take s r pa l).trans (frame_setMem _ r pa x)
  have hmem : ∀ a ∉ s.free, ((s.take pa l).setMem pa x).mem a = s.mem a := by
    intro a ha
    have hne : a ≠ pa := by
      rintro rfl
      exact ha (by rw [hf]; exact List.mem_cons_self)
    show update (update s.mem pa _) pa x a = s.mem a
    rw [update_of_ne hne, update_of_ne hne]
  have hnot : pa ∉ l := by
    intro hm
    have hn := h.nodup
    unfold bag at hn
    rw [hf] at hn
    have := (Multiset.nodup_add.1 (Multiset.nodup_add.1 hn).1).1
    exact (List.nodup_cons.1 (Multiset.coe_nodup.1 this)).1 hm
  have hlt : v < 2 ^ 26 := by
    unfold userPages at hv
    omega
  apply tot_mono (mappages_one (s := (s.take pa l).setMem pa x) h.ok hlt hnone)
  rintro ok s' ⟨hmapped, hgrown, hok⟩
  refine ⟨fun hk => ?_, fun hk => ?_, fun hl => ?_⟩
  · have hm := hmapped hk
    constructor
    · refine ⟨⟨hframe.trans hm.toFrame, hm.ok, ?_⟩, hm.nodes⟩
      rw [hm.bag, if_pos hv, hbag]
    · exact hm.pte
    · rw [hf]
      exact List.mem_cons_self
    · rw [hm.mem pa hnot]
      exact update_self ..
    · obtain ⟨l', hl', hlen⟩ := hm.drop
      refine ⟨pa :: l', ?_, ?_⟩
      · rw [hf, List.cons_append, ← hl']
        rfl
      · rw [List.length_cons]
        omega
    · intro a ha
      rw [hm.mem a (fun hm' => ha (by rw [hf]; exact List.mem_cons_of_mem _ hm')), hmem a ha]
  · have hg := hgrown hk
    refine ⟨⟨⟨hframe.trans (hg.toFrame.trans (frame_give s' r pa)), hg.ok, ?_⟩, hg.nodes⟩, hg.pte,
      fun a ha => ?_⟩
    · rw [bag_give, hg.bag, hbag]
    · have hne : a ≠ pa := by
        rintro rfl
        exact ha (by rw [hf]; exact List.mem_cons_self)
      show update s'.mem pa _ a = s.mem a
      rw [update_of_ne hne, hg.mem a fun hm' => ha (by rw [hf]; exact List.mem_cons_of_mem _ hm'),
        hmem a ha]
  · apply hok
    rw [hf, List.length_cons] at hl
    show 2 ≤ l.length
    omega

/-! ## `uvmunmap` and `uvmdealloc` -/

/-- The leaf entries with those from `v` up to `w` cleared. -/
def clear (f : ℕ → Option Pte) (v w : ℕ) : ℕ → Option Pte := fun k =>
  if v ≤ k ∧ k < w then none else f k

theorem clear_empty (f : ℕ → Option Pte) {v w : ℕ} (h : w ≤ v) : clear f v w = f := by
  funext k
  unfold clear
  rw [if_neg (by omega)]

theorem clear_succ (f : ℕ → Option Pte) {v w : ℕ} (h : v < w) :
    clear (update f v none) (v + 1) w = clear f v w := by
  funext k
  unfold clear
  by_cases hk : k = v
  · subst hk
    rw [if_neg (by omega), if_pos (by omega), update_self]
  · rw [update_of_ne hk]
    by_cases hr : v ≤ k ∧ k < w
    · rw [if_pos hr, if_pos (by omega)]
    · rw [if_neg hr, if_neg (by omega)]

theorem isSome_of_clear {f : ℕ → Option Pte} {v w k : ℕ} (h : (clear f v w k).isSome) :
    (f k).isSome ∧ ¬(v ≤ k ∧ k < w) := by
  unfold clear at h
  split_ifs at h with hk
  · exact absurd h (by simp)
  · exact ⟨h, hk⟩

/-- `pa` is a user page that the table maps between `v` and `w`. -/
def Tbl.Maps (t : Tbl) (v w pa : ℕ) : Prop :=
  ∃ k e, v ≤ k ∧ k < w ∧ k < userPages ∧ t.pte k = some e ∧ e.pa = pa

/-- The entries from `v` up to `w` were cleared, and their user pages freed. -/
structure Unmapped (r v w : ℕ) (s s' : St T) : Prop where
  pte : (s'.tbl r).pte = clear (s.tbl r).pte v w
  free : ∃ l, s'.free = l ++ s.free ∧ ∀ pa, pa ∈ l ↔ (s.tbl r).Maps v w pa
  mem : ∀ pa, ¬(s.tbl r).Maps v w pa → s'.mem pa = s.mem pa

theorem Unmapped.refl {w : ℕ} (s : St T) (h : w ≤ v) : Unmapped r v w s s where
  pte := (clear_empty _ h).symm
  free := ⟨[], rfl, fun pa => ⟨nofun, fun ⟨k, _, h1, h2, _⟩ => by omega⟩⟩
  mem _ _ := rfl

/-- Nothing is mapped at `v`. -/
theorem Unmapped.skip {w : ℕ} (hlt : v < w) (hv : (s.tbl r).pte v = none)
    (h : Unmapped r (v + 1) w s s') : Unmapped r v w s s' := by
  have hiff : ∀ pa, (s.tbl r).Maps (v + 1) w pa ↔ (s.tbl r).Maps v w pa := by
    intro pa
    refine ⟨fun ⟨k, e, h1, h2⟩ => ⟨k, e, by omega, h2⟩, fun ⟨k, e, h1, h2, h3, he, hpa⟩ => ?_⟩
    have hne : k ≠ v := by
      rintro rfl
      rw [hv] at he
      cases he
    exact ⟨k, e, by omega, h2, h3, he, hpa⟩
  obtain ⟨l, hl, hmem⟩ := h.free
  refine ⟨?_, ⟨l, hl, fun pa => (hmem pa).trans (hiff pa)⟩, fun pa hpa => h.mem pa fun hm => hpa ((hiff pa).1 hm)⟩
  rw [h.pte, ← clear_succ _ hlt, update_eq_self_iff.2 hv.symm]

/-- One iteration that finds a mapped page. User pages are freed, the two others are not. -/
theorem unmap_one (h : Space L r s) (he : (s.tbl r).pte v = some e) :
    Kept r s ((if v < userPages then s.give e.pa else s).setPte r v none) := by
  have hok : PtOk ((s.tbl r).withPte v none) := h.ok.withPte _ nofun
  have hnodes : (s.tbl r).Nodes ((s.tbl r).withPte v none) := Tbl.nodes_withPte _ v none
  split_ifs with hv
  · refine ⟨⟨(frame_give s r e.pa).trans (frame_setTbl _ r _), ?_, ?_⟩, ?_⟩
    · rw [setPte_eq, setTbl_tbl]
      exact hok
    · have hu : userPage (s.tbl r) v = some e.pa := by
        unfold userPage
        rw [he]
        rfl
      have := pages_withPte (t := s.tbl r) hv none
      rw [hu] at this
      have hp : pages ((s.tbl r).withPte v none) + {e.pa} = pages (s.tbl r) := by
        simpa using this
      rw [setPte_eq, bag_setTbl]
      show ((e.pa :: s.free : List ℕ) : Multiset ℕ) + {r} + pages ((s.tbl r).withPte v none) = _
      unfold bag
      rw [← hp, ← Multiset.cons_coe, ← Multiset.singleton_add]
      abel
    · rw [setPte_eq, setTbl_tbl]
      exact hnodes
  · refine ⟨⟨frame_setTbl _ r _, ?_, ?_⟩, ?_⟩
    · rw [setPte_eq, setTbl_tbl]
      exact hok
    · rw [setPte_eq, bag_setTbl, pages_withPte_high (by omega)]
      rfl
    · rw [setPte_eq, setTbl_tbl]
      exact hnodes

theorem Unmapped.cons {w : ℕ} (hlt : v < w) (he : (s.tbl r).pte v = some e)
    (h : Unmapped r (v + 1) w ((if v < userPages then s.give e.pa else s).setPte r v none) s') :
    Unmapped r v w s s' := by
  have htbl : ((if v < userPages then s.give e.pa else s).tbl r) = s.tbl r := by split_ifs <;> rfl
  have hpte : (((if v < userPages then s.give e.pa else s).setPte r v none).tbl r).pte =
      update (s.tbl r).pte v none := by
    rw [setPte_eq, setTbl_tbl, htbl]
    rfl
  -- the pages of the range are that of `v` and those of the other entries
  have hiff : ∀ pa, (s.tbl r).Maps v w pa ↔ (v < userPages ∧ pa = e.pa) ∨
      (((if v < userPages then s.give e.pa else s).setPte r v none).tbl r).Maps (v + 1) w pa := by
    intro pa
    unfold Tbl.Maps
    rw [hpte]
    constructor
    · rintro ⟨k, f, h1, h2, h3, hf, rfl⟩
      by_cases hk : k = v
      · subst hk
        rw [he] at hf
        exact .inl ⟨h3, congrArg Pte.pa (Option.some.inj hf).symm⟩
      · exact .inr ⟨k, f, by omega, h2, h3, by rw [update_of_ne hk]; exact hf, rfl⟩
    · rintro (⟨h3, rfl⟩ | ⟨k, f, h1, h2, h3, hf, rfl⟩)
      · exact ⟨v, e, le_rfl, hlt, h3, he, rfl⟩
      · rw [update_of_ne (by omega : k ≠ v)] at hf
        exact ⟨k, f, by omega, h2, h3, hf, rfl⟩
  obtain ⟨l, hl, hmem⟩ := h.free
  refine ⟨?_, ?_, fun pa hpa => ?_⟩
  · rw [h.pte, hpte, clear_succ _ hlt]
  · by_cases hv : v < userPages
    · refine ⟨l ++ [e.pa], ?_, fun pa => ?_⟩
      · rw [hl, if_pos hv, List.append_assoc]
        rfl
      · rw [List.mem_append, List.mem_singleton, hmem, hiff, or_comm]
        simp only [hv, true_and]
    · refine ⟨l, ?_, fun pa => ?_⟩
      · rw [hl, if_neg hv]
        rfl
      · rw [hmem, hiff]
        simp only [hv, false_and, false_or]
  · rw [hiff, not_or] at hpa
    rw [h.mem pa hpa.2]
    split_ifs with hv
    · exact update_of_ne (fun hne => hpa.1 ⟨hv, hne⟩) _ _
    · rfl

theorem uvmunmapLoop_tot {doFree : Bool} (n : ℕ) : ∀ {s : St T} {v : ℕ}, Space L r s →
    v + n ≤ 2 ^ 26 → (∀ k, v ≤ k → k < v + n → (doFree ↔ k < userPages)) →
    Tot (uvmunmapLoop L r doFree n (v * pgsize)) s fun _ s' => Kept r s s' ∧
      Unmapped r v (v + n) s s' := by
  induction n with
  | zero =>
    intro s v h _ _
    exact tot_pure ⟨.refl h.ok, .refl s (by omega)⟩
  | succ n ih =>
    intro s v h hn hfree
    have hdiv : v * pgsize / pgsize = v := Nat.mul_div_cancel _ (by unfold pgsize; norm_num)
    have hva : v * pgsize < maxva := by
      unfold maxva pgsize
      omega
    have hnext : v * pgsize + pgsize = (v + 1) * pgsize := by ring
    have hend : v + 1 + n = v + (n + 1) := by omega
    -- where nothing is mapped the loop goes on with the same state
    have hskip : (s.tbl r).pte v = none →
        Tot (uvmunmapLoop L r doFree n ((v + 1) * pgsize)) s fun _ s' => Kept r s s' ∧
          Unmapped r v (v + (n + 1)) s s' := by
      intro hnone
      apply tot_mono (ih h (by omega) fun k hk hk' => hfree k (by omega) (by omega))
      rintro _ s' ⟨hk, hu⟩
      rw [hend] at hu
      exact ⟨hk, hu.skip (by omega) hnone⟩
    unfold uvmunmapLoop
    apply tot_bind_eq (walk_false h.ok hva)
    rw [hnext]
    cases hlow : (s.tbl r).low (v * pgsize / 2 ^ 21) with
    | none =>
      apply hskip
      by_contra hne
      have := h.ok.pte_low v (Option.isSome_iff_ne_none.2 hne)
      rw [← hdiv, div_pgsize_div, hlow] at this
      exact absurd this (by simp)
    | some m =>
      rw [Option.isSome_some, if_pos rfl]
      apply tot_get
      rw [hdiv]
      cases he : (s.tbl r).pte v with
      | none => exact hskip he
      | some e =>
        have hk := unmap_one h he
        have hfree_v := hfree v le_rfl (by omega)
        have hrest : Tot (do
            modify fun s => s.setPte r v none
            uvmunmapLoop L r doFree n ((v + 1) * pgsize) : K T Unit)
            (if v < userPages then s.give e.pa else s) fun _ s' => Kept r s s' ∧
              Unmapped r v (v + (n + 1)) s s' := by
          apply tot_modify
          apply tot_mono (ih (h.kept hk) (by omega) fun k hk hk' => hfree k (by omega) (by omega))
          rintro _ s' ⟨hk', hu⟩
          rw [hend] at hu
          exact ⟨hk.trans hk', hu.cons (by omega) he⟩
        dsimp only
        by_cases hv : v < userPages
        · rw [if_pos hv] at hrest
          rw [if_pos (hfree_v.2 hv)]
          exact tot_bind_eq (kfree_ok (h.page _ (mem_bag_of_pte hv he))) hrest
        · rw [if_neg hv] at hrest
          rw [if_neg (fun hd => hv (hfree_v.1 hd))]
          exact hrest

theorem uvmunmap_unmapped (doFree : Bool) {n : ℕ} (h : Space L r s) (hn : v + n ≤ 2 ^ 26)
    (hfree : ∀ k, v ≤ k → k < v + n → (doFree ↔ k < userPages)) :
    Tot (uvmunmap L r (v * pgsize) n doFree) s fun _ s' => Kept r s s' ∧
      Unmapped r v (v + n) s s' := by
  have hcount : (u64 ((v * pgsize : ℕ) + (n : ℤ) * pgsize) - v * pgsize) / pgsize = n := by
    have : ((v * pgsize : ℕ) + (n : ℤ) * pgsize) = (((v + n) * pgsize : ℕ) : ℤ) := by
      push_cast
      ring
    rw [this, u64_of_lt (by unfold pgsize; omega)]
    unfold pgsize
    omega
  unfold uvmunmap
  rw [if_neg (by rw [Nat.mul_mod_left]; simp), hcount]
  exact uvmunmapLoop_tot n h hn hfree

theorem uvmunmap_tot (doFree : Bool) {n : ℕ} (h : Space L r s) (hn : v + n ≤ 2 ^ 26)
    (hfree : ∀ k, v ≤ k → k < v + n → (doFree ↔ k < userPages)) :
    Tot (uvmunmap L r (v * pgsize) n doFree) s fun _ s' => Kept r s s' ∧
      (s'.tbl r).pte = clear (s.tbl r).pte v (v + n) :=
  tot_mono (uvmunmap_unmapped doFree h hn hfree) fun _ _ ⟨hk, hu⟩ => ⟨hk, hu.pte⟩

theorem intArg_of_lt {x : ℕ} (h : x < 2 ^ 31) : intArg x = x := by
  have hb : Int.bmod x (2 ^ 32) = x := by
    apply Int.bmod_eq_of_le <;> omega
  unfold intArg
  rw [hb, u64_of_lt (by omega)]

theorem uvmdealloc_unmapped {oldsz newsz : ℕ} (h : Space L r s) (hold : oldsz ≤ trapframeVa) :
    Tot (uvmdealloc L r oldsz newsz) s fun sz s' => sz = min oldsz newsz ∧ Kept r s s' ∧
      Unmapped r (npages newsz) (npages oldsz) s s' := by
  unfold uvmdealloc
  split_ifs with hge hlt
  · exact tot_pure ⟨by omega, .refl h.ok, .refl s (npages_mono hge)⟩
  · rw [pgroundup_eq hold, pgroundup_eq (by omega : newsz ≤ trapframeVa)] at *
    have hle := npages_le hold
    have hlt' : npages newsz < npages oldsz := Nat.lt_of_mul_lt_mul_right hlt
    have hcount : intArg ((npages oldsz * pgsize - npages newsz * pgsize) / pgsize) =
        npages oldsz - npages newsz := by
      rw [← Nat.sub_mul, Nat.mul_div_cancel _ (by unfold pgsize; norm_num)]
      apply intArg_of_lt
      unfold userPages at hle
      omega
    rw [hcount]
    apply tot_bind
    apply tot_mono (uvmunmap_unmapped true h ?_ ?_)
    · rintro _ s' ⟨hk, hu⟩
      rw [show npages newsz + (npages oldsz - npages newsz) = npages oldsz by omega] at hu
      exact tot_pure ⟨by omega, hk, hu⟩
    · unfold userPages at hle
      omega
    · intro k _ hk
      refine ⟨fun _ => by omega, fun _ => rfl⟩
  · refine tot_pure ⟨by omega, .refl h.ok, .refl s ?_⟩
    rw [pgroundup_eq hold, pgroundup_eq (by omega : newsz ≤ trapframeVa)] at hlt
    by_contra hne
    exact hlt (Nat.mul_lt_mul_of_pos_right (by omega) (by unfold pgsize; norm_num))

theorem uvmdealloc_tot {oldsz newsz : ℕ} (h : Space L r s) (hold : oldsz ≤ trapframeVa) :
    Tot (uvmdealloc L r oldsz newsz) s fun sz s' => sz = min oldsz newsz ∧ Kept r s s' ∧
      (s'.tbl r).pte = clear (s.tbl r).pte (npages newsz) (npages oldsz) :=
  tot_mono (uvmdealloc_unmapped h hold) fun _ _ ⟨hsz, hk, hu⟩ => ⟨hsz, hk, hu.pte⟩

end Xv6.Vm
