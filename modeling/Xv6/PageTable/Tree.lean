import Xv6.Radix
import Xv6.PageTable.Model

/-!
# The tree of a page table

The page-table pages form an unshared tree of three levels. `lookup` is the map that it stores.
`walk` extends the tree and keeps the map; a leaf entry that is stored changes the map at one page.
-/

namespace Xv6.PageTable

open Function

open Radix (node Unshared)
open Vm (Layout PageOk maxva pgsize u64 phystop kernBase)

variable {L : Layout} {root : ℕ} {s s' : St}

/-- The page that a valid entry of an upper level points to. -/
def St.kid (s : St) (page i : ℕ) : Option ℕ :=
  if s.word page i &&& pteV ≠ 0 then some (pte2pa (s.word page i)) else none

abbrev St.page (s : St) (root : ℕ) (p : List ℕ) : Option ℕ := node s.kid root p

/-- The path of `va` to level 0. -/
def path (va : ℕ) : List ℕ := [px 1 va, px 2 va]

def valid (w : ℕ) : Option ℕ := if w &&& pteV ≠ 0 then some w else none

/-- The valid leaf entry for an address below `MAXVA`. -/
def lookup (s : St) (root va : ℕ) : Option ℕ :=
  if va < maxva then (s.page root (path va)).bind fun a => valid (s.word a (px 0 va)) else none

/-- The pages of the page table form an unshared tree and are not free. -/
structure Tree (L : Layout) (root : ℕ) (s : St) : Prop where
  unshared : Unshared s.kid root 2
  page : ∀ p a, p.length ≤ 2 → s.page root p = some a → PageOk L a ∧ a ∉ s.free
  free : ∀ a ∈ s.free, PageOk L a
  nodup : s.free.Nodup

/-! ## Addresses -/

theorem pageOk_lt {pa : ℕ} (h : PageOk L pa) : pa < 2 ^ 56 := by
  have h2 := h.2.2
  unfold phystop kernBase at h2
  omega

/-- Two addresses below `MAXVA` with the same indices are in the same page. -/
theorem px_inj {x y : ℕ} (hx : x < maxva) (hy : y < maxva) :
    (path x = path y ∧ px 0 x = px 0 y) ↔ x / pgsize = y / pgsize := by
  unfold maxva at hx hy
  unfold path pgsize
  rw [List.cons.injEq, List.cons.injEq, px_eq, px_eq, px_eq, px_eq, px_eq, px_eq]
  norm_num
  omega

theorem length_path (va : ℕ) : (path va).length = 2 := rfl

theorem lookup_eq {va a : ℕ} (hva : va < maxva) (h : s.page root (path va) = some a) :
    lookup s root va = valid (s.word a (px 0 va)) := by
  unfold lookup
  rw [if_pos hva, h]
  rfl

theorem lookup_none {va : ℕ} (h : s.page root (path va) = none) : lookup s root va = none := by
  unfold lookup
  rw [h]
  split <;> rfl

theorem lookup_of_le {va : ℕ} (h : maxva ≤ va) : lookup s root va = none := by
  unfold lookup
  rw [if_neg (by omega)]

theorem lookup_page {x y : ℕ} (h : x / pgsize = y / pgsize) :
    lookup s root x = lookup s root y := by
  have hm : maxva = 2 ^ 26 * pgsize := by decide
  have hp : 0 < pgsize := by decide
  have hlt : x < maxva ↔ y < maxva := by
    rw [hm, ← Nat.div_lt_iff_lt_mul hp, h, Nat.div_lt_iff_lt_mul hp]
  by_cases hx : x < maxva
  · obtain ⟨h1, h0⟩ := (px_inj hx (hlt.1 hx)).2 h
    unfold lookup
    rw [if_pos hx, if_pos (hlt.1 hx), h1, h0]
  · rw [lookup_of_le (by omega), lookup_of_le (by omega)]

/-! ## Writing to memory -/

theorem setWord_word (s : St) (a i w b k : ℕ) :
    (s.setWord a i w).word b k = if b = a ∧ k = i then w else s.word b k := by
  unfold St.setWord
  show update s.word a (update (s.word a) i w) b k = _
  by_cases hb : b = a
  · rw [hb, update_self]
    by_cases hk : k = i
    · rw [hk, update_self, if_pos ⟨rfl, rfl⟩]
    · rw [update_of_ne hk, if_neg fun h => hk h.2]
  · rw [update_of_ne hb, if_neg fun h => hb h.1]

theorem setWord_free (s : St) (a i w : ℕ) : (s.setWord a i w).free = s.free := rfl

theorem memset_word_self (s : St) (a c k : ℕ) :
    (s.memset a c).word a k = c * 0x0101010101010101 :=
  congrFun (update_self a _ s.word) k

theorem memset_word_ne {a b : ℕ} (c : ℕ) (h : b ≠ a) : (s.memset a c).word b = s.word b :=
  update_of_ne h _ _

theorem kid_congr {a : ℕ} (h : s'.word a = s.word a) : s'.kid a = s.kid a := by
  unfold St.kid
  rw [h]

/-- The pages of the tree hold what they held. -/
def Frame (root : ℕ) (s s' : St) : Prop :=
  ∀ p a, p.length ≤ 2 → s.page root p = some a → s'.word a = s.word a

theorem Frame.page (h : Frame root s s') {p : List ℕ} (hp : p.length ≤ 2) :
    s'.page root p = s.page root p := by
  apply Radix.node_congr (D := 2) _ p hp
  intro p a hp ha i
  rw [kid_congr (h p a hp.le ha)]

theorem Frame.lookup (h : Frame root s s') (va : ℕ) :
    lookup s' root va = PageTable.lookup s root va := by
  unfold PageTable.lookup
  rw [h.page (length_path va).le]
  split
  · cases ha : s.page root (path va) with
    | none => rfl
    | some a =>
      show valid (s'.word a _) = valid (s.word a _)
      rw [h _ a (length_path va).le ha]
  · rfl

theorem Frame.tree (h : Frame root s s') (ht : Tree L root s)
    (hu : ∀ p a, p.length ≤ 2 → s.page root p = some a → a ∉ s'.free)
    (hf : ∀ a ∈ s'.free, PageOk L a) (hn : s'.free.Nodup) : Tree L root s' where
  unshared p q a hp hq hpa hqa :=
    ht.unshared p q a hp hq ((h.page hp).symm.trans hpa) ((h.page hq).symm.trans hqa)
  page p a hp ha :=
    have ha' := (h.page hp).symm.trans ha
    ⟨(ht.page p a hp ha').1, hu p a hp ha'⟩
  free := hf
  nodup := hn

/-! ## A leaf entry -/

section Leaf

variable {va a w : ℕ}

/-- The upper levels do not change when a leaf entry is stored. -/
theorem Tree.page_setWord (ht : Tree L root s) (ha : s.page root (path va) = some a)
    {p : List ℕ} (hp : p.length ≤ 2) :
    (s.setWord a (px 0 va) w).page root p = s.page root p := by
  apply Radix.node_congr (D := 2) _ p hp
  intro q b hq hb i
  have hne : b ≠ a := fun he => by
    have := ht.unshared q (path va) a hq.le (length_path va).le (he ▸ hb) ha
    rw [this, length_path] at hq
    omega
  have hw : (s.setWord a (px 0 va) w).word b = s.word b :=
    funext fun k => by rw [setWord_word, if_neg fun h => hne h.1]
  rw [kid_congr hw]

theorem Tree.setWord (ht : Tree L root s) (ha : s.page root (path va) = some a) :
    Tree L root (s.setWord a (px 0 va) w) where
  unshared p q b hp hq hpb hqb :=
    ht.unshared p q b hp hq ((ht.page_setWord ha hp).symm.trans hpb)
      ((ht.page_setWord ha hq).symm.trans hqb)
  page p b hp hb := ht.page p b hp ((ht.page_setWord ha hp).symm.trans hb)
  free := ht.free
  nodup := ht.nodup

theorem Tree.lookup_setWord (ht : Tree L root s) (hva : va < maxva)
    (ha : s.page root (path va) = some a) (x : ℕ) :
    lookup (s.setWord a (px 0 va) w) root x =
      if x / pgsize = va / pgsize then valid w else lookup s root x := by
  by_cases hx : x / pgsize = va / pgsize
  · rw [if_pos hx, lookup_page hx, lookup_eq hva ((ht.page_setWord ha (length_path va).le).trans ha),
      setWord_word, if_pos ⟨rfl, rfl⟩]
  · rw [if_neg hx]
    unfold lookup
    rw [ht.page_setWord ha (length_path x).le]
    by_cases hxm : x < maxva
    · rw [if_pos hxm, if_pos hxm]
      cases hb : s.page root (path x) with
      | none => rfl
      | some b =>
        show valid ((s.setWord a (px 0 va) w).word b _) = valid (s.word b _)
        rw [setWord_word, if_neg]
        rintro ⟨rfl, h0⟩
        have hpath := ht.unshared _ _ b (length_path x).le (length_path va).le hb ha
        exact hx ((px_inj hxm hva).1 ⟨hpath, h0⟩)
    · rw [if_neg hxm, if_neg hxm]

end Leaf

/-! ## A new page -/

/-- `s'` has a new cleared page `c` at entry `i` of the page `a`, taken from the free list. -/
def newPage (s : St) (a i c : ℕ) (l : List ℕ) : St :=
  ({ s.memset c 5 with free := l }.memset c 0).setWord a i (pa2pte c ||| pteV)

section NewPage

variable {a i c : ℕ} {l p : List ℕ}

theorem newPage_word (s : St) (a i c : ℕ) (l : List ℕ) (b k : ℕ) :
    (newPage s a i c l).word b k =
      if b = a ∧ k = i then pa2pte c ||| pteV else if b = c then 0 else s.word b k := by
  unfold newPage
  rw [setWord_word]
  by_cases h : b = a ∧ k = i
  · rw [if_pos h, if_pos h]
  · rw [if_neg h, if_neg h]
    by_cases hb : b = c
    · rw [if_pos hb, hb]
      rw [memset_word_self, Nat.zero_mul]
    · rw [if_neg hb, memset_word_ne _ hb]
      exact congrFun (memset_word_ne (s := s) 5 hb) k

theorem valid_entry {pa f : ℕ} : valid (pa2pte pa ||| f ||| pteV) = some (pa2pte pa ||| f ||| pteV) := by
  unfold valid
  rw [if_pos]
  rw [and_pteV, show pteV = 1 from rfl, Nat.or_mod_two_pow (n := 1)]
  rcases Nat.mod_two_eq_zero_or_one (pa2pte pa ||| f) with h | h <;> simp [h]

theorem Tree.adds (ht : Tree L root s) (hl : s.free = c :: l) (hp : p.length < 2)
    (ha : s.page root p = some a) (hi : s.kid a i = none) :
    Radix.Adds s.kid (newPage s a i c l).kid root a c i p 2 := by
  have hc : PageOk L c := ht.free c (by rw [hl]; exact List.mem_cons_self)
  have hfresh : ∀ q, q.length ≤ 2 → s.page root q ≠ some c := fun q hq hqc =>
    (ht.page q c hq hqc).2 (by rw [hl]; exact List.mem_cons_self)
  have hac : a ≠ c := fun he => hfresh p hp.le (he ▸ ha)
  have henc := pte_encode hc.1 (pageOk_lt hc) (f := 1) (by norm_num)
  refine ⟨hp, ha, hi, hfresh, ?_, ?_, ?_⟩
  · have hw : (newPage s a i c l).word a i = pa2pte c ||| pteV := by
      rw [newPage_word, if_pos ⟨rfl, rfl⟩]
    unfold St.kid
    rw [hw, if_pos]
    · exact congrArg some henc.1
    · rw [and_pteV]
      show (pa2pte c ||| 1) % 2 ≠ 0
      rw [pa2pte_or (pageOk_lt hc) (by norm_num)]
      omega
  · intro k
    have hw : (newPage s a i c l).word c k = 0 := by
      rw [newPage_word, if_neg fun h => hac h.1.symm, if_pos rfl]
    unfold St.kid
    rw [hw]
    rfl
  · intro b k hb hbk
    have hw : (newPage s a i c l).word b k = s.word b k := by
      rw [newPage_word, if_neg hbk, if_neg hb]
    unfold St.kid
    rw [hw]

/-- A page-table page is added: the map stays as it is. -/
theorem Tree.newPage (ht : Tree L root s) (hl : s.free = c :: l) (hp : p.length < 2)
    (ha : s.page root p = some a) (hi : s.kid a i = none) :
    Tree L root (newPage s a i c l) ∧
      (newPage s a i c l).page root (i :: p) = some c ∧
      (∀ q b, q.length ≤ 2 → s.page root q = some b →
        (PageTable.newPage s a i c l).page root q = some b) ∧
      ∀ va, lookup (PageTable.newPage s a i c l) root va = lookup s root va := by
  have hadd := ht.adds hl hp ha hi
  have hnode : ∀ q, q.length ≤ 2 → (PageTable.newPage s a i c l).page root q =
      if q = i :: p then some c else s.page root q := hadd.node ht.unshared
  have hac : a ≠ c := fun he => hadd.fresh p hp.le (he ▸ ha)
  have hnil : s.page root (i :: p) = none := (Radix.node_cons ha).trans hi
  have hnd := ht.nodup
  rw [hl] at hnd
  refine ⟨⟨hadd.unshared ht.unshared, ?_, ?_, (List.nodup_cons.1 hnd).2⟩, ?_, ?_, ?_⟩
  · intro q b hq hb
    rw [hnode q hq] at hb
    split at hb
    · obtain rfl := Option.some.inj hb
      exact ⟨ht.free c (by rw [hl]; exact List.mem_cons_self), (List.nodup_cons.1 hnd).1⟩
    · obtain ⟨hok, hnf⟩ := ht.page q b hq hb
      rw [hl] at hnf
      exact ⟨hok, fun h => hnf (List.mem_cons_of_mem _ h)⟩
  · intro b hb
    exact ht.free b (by rw [hl]; exact List.mem_cons_of_mem _ hb)
  · rw [hnode _ (by rw [List.length_cons]; omega), if_pos rfl]
  · intro q b hq hb
    rw [hnode q hq, if_neg]
    · exact hb
    · rintro rfl
      rw [hnil] at hb
      cases hb
  · intro va
    unfold lookup
    rw [hnode _ (length_path va).le]
    split
    · by_cases hq : path va = i :: p
      · -- the new leaf page is empty
        rw [if_pos hq, hq, hnil]
        show valid ((PageTable.newPage s a i c l).word c _) = none
        rw [newPage_word, if_neg fun h => hac h.1.symm, if_pos rfl]
        rfl
      · rw [if_neg hq]
        cases hb : s.page root (path va) with
        | none => rfl
        | some b =>
          have hba : b ≠ a := fun he => by
            have := congrArg List.length
              (ht.unshared _ _ a (length_path va).le hp.le (he ▸ hb) ha)
            rw [length_path] at this
            omega
          have hbc : b ≠ c := fun he => hadd.fresh _ (length_path va).le (he ▸ hb)
          show valid ((PageTable.newPage s a i c l).word b _) = valid (s.word b _)
          rw [newPage_word, if_neg fun h => hba h.1, if_neg hbc]
    · rfl

end NewPage

end Xv6.PageTable
