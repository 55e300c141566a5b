import Xv6.Holdings
import Xv6.Update
import Xv6.Vm.Proc

/-!
# Page tables and the pages they use

`bag r s` is every page that is free or that the page table at `r` uses: its own pages and the user
pages it maps. The functions of `vm.c` move pages between the free list and one page table, so they
keep the bag of that table, and they leave every other table alone (`Frame`).
-/

namespace Xv6.Vm

open Function Finset

variable {T : Type} [DecidableEq T] {L : Layout} {s s' s'' : St T} {r r' va pa : ℕ} {t : Tbl}

/-! ## Sizes -/

/-- The number of pages below the trapframe. -/
def userPages : ℕ := 2 ^ 26 - 2

/-- The number of pages that hold `sz` bytes. -/
def npages (sz : ℕ) : ℕ := (sz + pgsize - 1) / pgsize

theorem u64_of_lt {x : ℕ} (h : x < 2 ^ 64) : u64 x = x := by
  unfold u64
  omega

theorem pgroundup_eq {sz : ℕ} (h : sz ≤ trapframeVa) : pgroundup sz = npages sz * pgsize := by
  unfold pgroundup npages
  unfold trapframeVa trampolineVa maxva pgsize at *
  have : ((sz : ℤ) + (4096 : ℕ) - 1) = ((sz + 4096 - 1 : ℕ) : ℤ) := by omega
  rw [this, u64_of_lt (by omega)]

theorem npages_le {sz : ℕ} (h : sz ≤ trapframeVa) : npages sz ≤ userPages := by
  unfold npages userPages
  unfold trapframeVa trampolineVa maxva pgsize at *
  omega

theorem npages_mono {sz sz' : ℕ} (h : sz ≤ sz') : npages sz ≤ npages sz' := by
  unfold npages
  apply Nat.div_le_div_right
  omega

theorem npages_mul (n : ℕ) : npages (n * pgsize) = n := by
  unfold npages pgsize
  omega

theorem div_pgsize_div (va : ℕ) : va / pgsize / 512 = va / 2 ^ 21 := by
  rw [Nat.div_div_eq_div_mul]
  rfl

theorem div_two_pow_div (va : ℕ) : va / 2 ^ 21 / 512 = va / 2 ^ 30 := by
  rw [Nat.div_div_eq_div_mul]
  norm_num

/-! ## Well-formed tables -/

/-- The entries of a level exist only where the level above has a page. -/
structure PtOk (t : Tbl) : Prop where
  mid_lt : ∀ i, (t.mid i).isSome → i < 256
  low_mid : ∀ j, (t.low j).isSome → (t.mid (j / 512)).isSome
  pte_low : ∀ v, (t.pte v).isSome → (t.low (v / 512)).isSome

/-- The user pages of a table, below the trapframe. -/
def userPage (t : Tbl) (v : ℕ) : Option ℕ := (t.pte v).map Pte.pa

/-- The pages of a table below its root, and the user pages that it maps. -/
noncomputable def pages (t : Tbl) : Multiset ℕ :=
  held (below 256) t.mid + held (below (2 ^ 17)) t.low + held (below userPages) (userPage t)

/-- The free pages and those that the table at `r` uses. -/
noncomputable def bag (r : ℕ) (s : St T) : Multiset ℕ := (s.free : Multiset ℕ) + {r} + pages (s.tbl r)

theorem PtOk.low_lt (h : PtOk t) {j : ℕ} (hj : (t.low j).isSome) : j < 2 ^ 17 := by
  have := h.mid_lt _ (h.low_mid j hj)
  omega

theorem PtOk.pte_lt (h : PtOk t) {v : ℕ} (hv : (t.pte v).isSome) : v < 2 ^ 26 := by
  have := h.low_lt (h.pte_low v hv)
  omega

theorem PtOk.empty : PtOk .empty := ⟨nofun, nofun, nofun⟩

theorem pages_empty : pages .empty = 0 := by
  have hmid : held (below 256) Tbl.empty.mid = 0 := held_none fun _ _ => rfl
  have hlow : held (below (2 ^ 17)) Tbl.empty.low = 0 := held_none fun _ _ => rfl
  have hpte : held (below userPages) (userPage Tbl.empty) = 0 := held_none fun _ _ => rfl
  unfold pages
  rw [hmid, hlow, hpte]
  rfl

theorem mem_pages (hv : va < userPages) {e : Pte} (he : t.pte va = some e) : e.pa ∈ pages t := by
  have hu : userPage t va = some e.pa := by
    unfold userPage
    rw [he]
    rfl
  unfold pages
  rw [Multiset.mem_add]
  right
  exact mem_held (mem_below.2 hv) hu

/-! ## Changing one entry -/

namespace Tbl

def withMid (t : Tbl) (i : ℕ) (x : Option ℕ) : Tbl := { t with mid := update t.mid i x }

def withLow (t : Tbl) (j : ℕ) (x : Option ℕ) : Tbl := { t with low := update t.low j x }

def withPte (t : Tbl) (v : ℕ) (x : Option Pte) : Tbl := { t with pte := update t.pte v x }

end Tbl

theorem pages_withMid {i : ℕ} (hi : i < 256) (x : Option ℕ) :
    pages (t.withMid i x) + ((t.mid i).toList : Multiset ℕ) =
      pages t + (x.toList : Multiset ℕ) := by
  have := held_update (f := t.mid) (mem_below.2 hi) x
  show held _ (update t.mid i x) + held _ t.low + held _ (userPage t) + _ =
    held _ t.mid + held _ t.low + held _ (userPage t) + _
  rw [add_right_comm, add_right_comm (held _ _), this]
  abel

theorem pages_withLow {j : ℕ} (hj : j < 2 ^ 17) (x : Option ℕ) :
    pages (t.withLow j x) + ((t.low j).toList : Multiset ℕ) =
      pages t + (x.toList : Multiset ℕ) := by
  have := held_update (f := t.low) (mem_below.2 hj) x
  show held _ t.mid + held _ (update t.low j x) + held _ (userPage t) + _ =
    held _ t.mid + held _ t.low + held _ (userPage t) + _
  rw [add_right_comm, add_assoc (held _ _), this]
  abel

theorem userPage_withPte (v : ℕ) (x : Option Pte) :
    userPage (t.withPte v x) = update (userPage t) v (x.map Pte.pa) := by
  funext k
  exact apply_update (fun _ (o : Option Pte) => o.map Pte.pa) t.pte v x k

/-- A user page moves in or out of the table. -/
theorem pages_withPte {v : ℕ} (hv : v < userPages) (x : Option Pte) :
    pages (t.withPte v x) + ((userPage t v).toList : Multiset ℕ) =
      pages t + ((x.map Pte.pa).toList : Multiset ℕ) := by
  have := held_update (f := userPage t) (mem_below.2 hv) (x.map Pte.pa)
  unfold pages
  rw [userPage_withPte]
  show held _ t.mid + held _ t.low + _ + _ = _
  rw [add_assoc, this]
  abel

/-- The trapframe and the trampoline do not count as pages of the table. -/
theorem pages_withPte_high {v : ℕ} (hv : userPages ≤ v) (x : Option Pte) :
    pages (t.withPte v x) = pages t := by
  have hn : v ∉ below userPages := fun h => by
    have := mem_below.1 h
    omega
  unfold pages
  rw [userPage_withPte, held_update_of_notMem hn]
  rfl

theorem isSome_update {α : Type} {f : ℕ → Option α} {i k : ℕ} (x : α) (h : (f k).isSome) :
    (update f i (some x) k).isSome := by
  by_cases hk : k = i
  · subst hk
    rw [update_self]
    rfl
  · rwa [update_of_ne hk]

theorem isSome_of_update {α : Type} {f : ℕ → Option α} {i k : ℕ} {x : Option α} (hk : k ≠ i)
    (h : (update f i x k).isSome) : (f k).isSome := by
  rwa [update_of_ne hk] at h

theorem PtOk.withMid (h : PtOk t) {i : ℕ} (hi : i < 256) (pa : ℕ) : PtOk (t.withMid i (some pa)) where
  mid_lt k hk := by
    by_cases he : k = i
    · omega
    · exact h.mid_lt k (isSome_of_update he hk)
  low_mid j hj := isSome_update pa (h.low_mid j hj)
  pte_low := h.pte_low

theorem PtOk.withLow (h : PtOk t) {j : ℕ} (hj : (t.mid (j / 512)).isSome) (pa : ℕ) :
    PtOk (t.withLow j (some pa)) where
  mid_lt := h.mid_lt
  low_mid k hk := by
    by_cases he : k = j
    · rwa [he]
    · exact h.low_mid k (isSome_of_update he hk)
  pte_low v hv := isSome_update pa (h.pte_low v hv)

theorem PtOk.withPte (h : PtOk t) {v : ℕ} (x : Option Pte)
    (hv : x.isSome → (t.low (v / 512)).isSome) : PtOk (t.withPte v x) where
  mid_lt := h.mid_lt
  low_mid := h.low_mid
  pte_low k hk := by
    by_cases he : k = v
    · subst he
      apply hv
      have hx : (t.withPte k x).pte k = x := update_self ..
      rwa [hx] at hk
    · exact h.pte_low k (isSome_of_update he hk)

/-! ## Frames -/

/-- Nothing changed but memory, the free list and the table at `r`. -/
structure Frame (r : ℕ) (s s' : St T) : Prop where
  proc : s'.proc = s.proc
  tbl : ∀ r' ≠ r, s'.tbl r' = s.tbl r'

theorem Frame.refl (r : ℕ) (s : St T) : Frame r s s := ⟨rfl, fun _ _ => rfl⟩

theorem Frame.trans (h : Frame r s s') (h' : Frame r s' s'') : Frame r s s'' where
  proc := h'.proc.trans h.proc
  tbl r' hr := (h'.tbl r' hr).trans (h.tbl r' hr)

theorem frame_setTbl (s : St T) (r : ℕ) (t : Tbl) : Frame r s (s.setTbl r t) where
  proc := rfl
  tbl _ hr := update_of_ne hr _ _

@[simp] theorem setTbl_tbl (s : St T) (r : ℕ) (t : Tbl) : (s.setTbl r t).tbl r = t :=
  update_self ..

@[simp] theorem setTbl_free (s : St T) (r : ℕ) (t : Tbl) : (s.setTbl r t).free = s.free := rfl

/-! ## `kalloc` and `kfree` -/

/-- The state after `kalloc` took `pa` and left `l`. -/
def St.take (s : St T) (pa : ℕ) (l : List ℕ) : St T := { s.setMem pa (fun _ => 5) with free := l }

/-- The state after `kfree` of `pa`. -/
def St.give (s : St T) (pa : ℕ) : St T := { s.setMem pa (fun _ => 1) with free := pa :: s.free }

theorem kalloc_nil (h : s.free = []) : kalloc s = .ok (none, s) := by
  unfold kalloc
  rw [bind_ok rfl]
  simp only [h]
  rfl

theorem kalloc_cons {l : List ℕ} (h : s.free = pa :: l) :
    kalloc s = .ok (some pa, s.take pa l) := by
  unfold kalloc
  rw [bind_ok rfl]
  simp only [h]
  rfl

theorem tot_kalloc {β : Type} {f : Option ℕ → K T β} {Q : β → St T → Prop}
    (h0 : s.free = [] → Tot (f none) s Q)
    (h1 : ∀ pa l, s.free = pa :: l → Tot (f (some pa)) (s.take pa l) Q) :
    Tot (kalloc >>= f) s Q := by
  cases hl : s.free with
  | nil => exact tot_bind_eq (kalloc_nil hl) (h0 hl)
  | cons pa l => exact tot_bind_eq (kalloc_cons hl) (h1 pa l hl)

theorem kfree_ok (h : PageOk L pa) : kfree L pa s = .ok ((), s.give pa) := by
  unfold kfree
  rw [if_pos h]
  rfl

theorem frame_take (s : St T) (r pa : ℕ) (l : List ℕ) : Frame r s (s.take pa l) :=
  ⟨rfl, fun _ _ => rfl⟩

theorem frame_give (s : St T) (r pa : ℕ) : Frame r s (s.give pa) := ⟨rfl, fun _ _ => rfl⟩

theorem frame_setMem (s : St T) (r pa : ℕ) (x : Page) : Frame r s (s.setMem pa x) :=
  ⟨rfl, fun _ _ => rfl⟩

/-! ## `walk` -/

/-- Without `alloc`, `walk` only looks. -/
theorem walk_false (h : PtOk (s.tbl r)) (hva : va < maxva) :
    walk r va false s = .ok (((s.tbl r).low (va / 2 ^ 21)).isSome, s) := by
  unfold walk
  rw [if_neg (by omega), bind_ok rfl]
  cases hm : (s.tbl r).mid (va / 2 ^ 30) with
  | none =>
    have hl : (s.tbl r).low (va / 2 ^ 21) = none := by
      by_contra hne
      have := h.low_mid _ (Option.isSome_iff_ne_none.2 hne)
      rw [div_two_pow_div, hm] at this
      exact absurd this (by simp)
    rw [hl]
    rfl
  | some m =>
    dsimp only
    rw [bind_ok rfl, if_pos rfl, bind_ok rfl]
    cases hl : (s.tbl r).low (va / 2 ^ 21) <;> rfl

/-- The page-table pages of `t` are also those of `t'`. -/
structure Tbl.Nodes (t t' : Tbl) : Prop where
  mid : ∀ i pa, t.mid i = some pa → t'.mid i = some pa
  low : ∀ j pa, t.low j = some pa → t'.low j = some pa

theorem Tbl.Nodes.refl (t : Tbl) : t.Nodes t := ⟨fun _ _ h => h, fun _ _ h => h⟩

theorem Tbl.Nodes.trans {t t' t'' : Tbl} (h : t.Nodes t') (h' : t'.Nodes t'') : t.Nodes t'' :=
  ⟨fun i pa hi => h'.mid i pa (h.mid i pa hi), fun j pa hj => h'.low j pa (h.low j pa hj)⟩

theorem Tbl.nodes_withMid {t : Tbl} {i : ℕ} (hi : t.mid i = none) (x : Option ℕ) :
    t.Nodes (t.withMid i x) where
  mid k pa hk := by
    have hne : k ≠ i := by
      rintro rfl
      rw [hi] at hk
      cases hk
    show update t.mid i x k = some pa
    rw [update_of_ne hne, hk]
  low _ _ hj := hj

theorem Tbl.nodes_withLow {t : Tbl} {j : ℕ} (hj : t.low j = none) (x : Option ℕ) :
    t.Nodes (t.withLow j x) where
  mid _ _ hi := hi
  low k pa hk := by
    have hne : k ≠ j := by
      rintro rfl
      rw [hj] at hk
      cases hk
    show update t.low j x k = some pa
    rw [update_of_ne hne, hk]

theorem Tbl.nodes_withPte (t : Tbl) (v : ℕ) (x : Option Pte) : t.Nodes (t.withPte v x) :=
  ⟨fun _ _ h => h, fun _ _ h => h⟩

/-- Page-table pages were added to the table at `r`, at most `n` of them. -/
structure Grown (r n : ℕ) (s s' : St T) : Prop extends Frame r s s' where
  ok : PtOk (s'.tbl r)
  nodes : (s.tbl r).Nodes (s'.tbl r)
  pte : (s'.tbl r).pte = (s.tbl r).pte
  bag : bag r s' = bag r s
  drop : ∃ l, s.free = l ++ s'.free ∧ l.length ≤ n
  mem : ∀ pa ∉ s.free, s'.mem pa = s.mem pa

theorem Grown.refl (h : PtOk (s.tbl r)) : Grown r 0 s s where
  toFrame := .refl r s
  ok := h
  nodes := .refl _
  pte := rfl
  bag := rfl
  drop := ⟨[], rfl, le_rfl⟩
  mem _ _ := rfl

theorem Grown.trans {n m : ℕ} (h : Grown r n s s') (h' : Grown r m s' s'') :
    Grown r (n + m) s s'' where
  toFrame := h.toFrame.trans h'.toFrame
  ok := h'.ok
  nodes := h.nodes.trans h'.nodes
  pte := h'.pte.trans h.pte
  bag := h'.bag.trans h.bag
  drop := by
    obtain ⟨l, hl, hn⟩ := h.drop
    obtain ⟨l', hl', hm⟩ := h'.drop
    refine ⟨l ++ l', ?_, ?_⟩
    · rw [hl, hl', List.append_assoc]
    · rw [List.length_append]
      omega
  mem pa hpa := by
    obtain ⟨l, hl, -⟩ := h.drop
    rw [h'.mem pa (fun hm => hpa (by rw [hl]; exact List.mem_append_right _ hm)), h.mem pa hpa]

theorem Grown.le {n m : ℕ} (h : Grown r n s s') (hnm : n ≤ m) : Grown r m s s' := by
  refine { h with drop := ?_ }
  obtain ⟨l, hl, hn⟩ := h.drop
  exact ⟨l, hl, hn.trans hnm⟩

/-- A new page-table page, at a place where the level below is still empty. -/
theorem grown_take {l : List ℕ} {t : Tbl} (hf : s.free = pa :: l) (ok : PtOk t)
    (hnodes : (s.tbl r).Nodes t) (hpte : t.pte = (s.tbl r).pte) (hp : pages t = pages (s.tbl r) + {pa}) :
    Grown r 1 s ((s.take pa l).setTbl r t) where
  toFrame := (frame_take s r pa l).trans (frame_setTbl _ r t)
  ok := by rwa [setTbl_tbl]
  nodes := by rwa [setTbl_tbl]
  pte := by rw [setTbl_tbl, hpte]
  bag := by
    unfold Vm.bag
    rw [setTbl_tbl, hp, hf]
    show (l : Multiset ℕ) + {r} + (pages (s.tbl r) + {pa}) = _
    rw [← Multiset.cons_coe, ← Multiset.singleton_add]
    abel
  drop := ⟨[pa], hf, le_rfl⟩
  mem a ha := by
    apply update_of_ne
    rintro rfl
    exact ha (by rw [hf]; exact List.mem_cons_self)

theorem setMid_eq (h : PtOk (s.tbl r)) {i : ℕ} (hi : (s.tbl r).mid i = none) (pa : ℕ) :
    s.setMid r i pa = s.setTbl r ((s.tbl r).withMid i (some pa)) := by
  have hlow : ∀ j, j / 512 = i → (s.tbl r).low j = none := by
    rintro j rfl
    by_contra hne
    have := h.low_mid j (Option.isSome_iff_ne_none.2 hne)
    rw [hi] at this
    exact absurd this (by simp)
  have hpte : ∀ v, v / 512 / 512 = i → (s.tbl r).pte v = none := by
    intro v hv
    by_contra hne
    have := h.pte_low v (Option.isSome_iff_ne_none.2 hne)
    rw [hlow _ hv] at this
    exact absurd this (by simp)
  unfold St.setMid Tbl.withMid
  dsimp only
  congr 2
  · funext j
    split_ifs with hj
    · exact (hlow j hj).symm
    · rfl
  · funext v
    split_ifs with hv
    · exact (hpte v hv).symm
    · rfl

theorem setLow_eq (h : PtOk (s.tbl r)) {j : ℕ} (hj : (s.tbl r).low j = none) (pa : ℕ) :
    s.setLow r j pa = s.setTbl r ((s.tbl r).withLow j (some pa)) := by
  unfold St.setLow Tbl.withLow
  dsimp only
  congr 2
  funext v
  split_ifs with hv
  · by_contra hne
    have := h.pte_low v (Option.isSome_iff_ne_none.2 (Ne.symm hne))
    rw [hv, hj] at this
    exact absurd this (by simp)
  · rfl

theorem grown_setMid (h : PtOk (s.tbl r)) {i : ℕ} (hi : (s.tbl r).mid i = none) (hlt : i < 256)
    {l : List ℕ} (hf : s.free = pa :: l) : Grown r 1 s ((s.take pa l).setMid r i pa) := by
  rw [setMid_eq (s := s.take pa l) h hi]
  apply grown_take hf (h.withMid hlt pa) (Tbl.nodes_withMid hi _) rfl
  have := pages_withMid (t := s.tbl r) hlt (some pa)
  rw [hi] at this
  simpa using this

theorem grown_setLow (h : PtOk (s.tbl r)) {j : ℕ} (hj : (s.tbl r).low j = none)
    (hm : ((s.tbl r).mid (j / 512)).isSome) {l : List ℕ} (hf : s.free = pa :: l) :
    Grown r 1 s ((s.take pa l).setLow r j pa) := by
  have hlt : j < 2 ^ 17 := by
    have := h.mid_lt _ hm
    omega
  rw [setLow_eq (s := s.take pa l) h hj]
  apply grown_take hf (h.withLow hm pa) (Tbl.nodes_withLow hj _) rfl
  have := pages_withLow (t := s.tbl r) hlt (some pa)
  rw [hj] at this
  simpa using this

/-- With `alloc`, `walk` adds at most two page-table pages, and succeeds if two pages are free. -/
theorem walk_true (h : PtOk (s.tbl r)) (hva : va < maxva) :
    Tot (walk r va true) s fun ok s' => Grown r 2 s s' ∧
      (ok → ((s'.tbl r).low (va / 2 ^ 21)).isSome) ∧ (2 ≤ s.free.length → ok) := by
  have hlt : va / 2 ^ 30 < 256 := by
    unfold maxva at hva
    omega
  unfold walk
  rw [if_neg (by omega)]
  apply tot_get
  apply tot_bind
  -- the root level
  refine tot_mono (Q := fun (ok : Bool) s' => Grown r 1 s s' ∧
    (ok → ((s'.tbl r).mid (va / 2 ^ 30)).isSome) ∧ (1 ≤ s.free.length → ok)) ?_ ?_
  · cases hm : (s.tbl r).mid (va / 2 ^ 30) with
    | some m => exact tot_pure ⟨(Grown.refl h).le (by omega), fun _ => by rw [hm]; rfl, fun _ => rfl⟩
    | none =>
      rw [if_pos rfl]
      apply tot_kalloc
      · intro hf
        exact tot_pure ⟨(Grown.refl h).le (by omega), by simp, fun hl => by simp [hf] at hl⟩
      · intro pa l hf
        apply tot_modify
        refine tot_pure ⟨grown_setMid h hm hlt hf, fun _ => ?_, fun _ => rfl⟩
        simp [St.setMid]
  rintro ok s1 ⟨hg, hsome, hok⟩
  obtain ⟨l1, hl1, hlen⟩ := hg.drop
  have hlen' : s.free.length = l1.length + s1.free.length := by rw [hl1, List.length_append]
  cases ok with
  | false =>
    refine tot_pure ⟨hg.le (by omega), by simp, fun hl => ?_⟩
    exact absurd (hok (by omega)) (by simp)
  | true =>
    rw [if_pos rfl]
    apply tot_get
    cases hl : (s1.tbl r).low (va / 2 ^ 21) with
    | some m => exact tot_pure ⟨hg.le (by omega), fun _ => by rw [hl]; rfl, fun _ => rfl⟩
    | none =>
      rw [if_pos rfl]
      apply tot_kalloc
      · intro hf
        refine tot_pure ⟨hg.le (by omega), by simp, fun hl => ?_⟩
        rw [hf, List.length_nil] at hlen'
        omega
      · intro pa l hf
        apply tot_modify
        have hm : ((s1.tbl r).mid (va / 2 ^ 21 / 512)).isSome := by
          rw [div_two_pow_div]
          exact hsome rfl
        refine tot_pure ⟨hg.trans (grown_setLow hg.ok hl hm hf), fun _ => ?_, fun _ => rfl⟩
        simp [St.setLow]

end Xv6.Vm
