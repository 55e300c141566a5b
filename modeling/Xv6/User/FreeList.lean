import Xv6.Cyclic
import Xv6.Tiling
import Xv6.User.Malloc

/-!
# The free list of the allocator

The free list is an ordered cycle through `base`, and its blocks together with the live ones tile the
memory that `sbrk` gave. `free` puts a block into its place and joins it with its neighbours; `malloc`
takes the first block that is large enough, and asks `sbrk` for a new one when there is none.
-/

namespace Xv6.User.Malloc

open Function Finset

/-- The length of a block in bytes. -/
def St.len (s : St) (b : ℕ) : ℕ := unit * s.size b

/-- The blocks: those that begin at `F` are free, but for the empty one of `base`, and those that
begin at `live` are live. No two free blocks touch. -/
structure Blocks (base : ℕ) (s : St) (live F : Finset ℕ) : Prop where
  base_size : s.size base = 0
  disjoint : Disjoint F live
  tiles : Tiles s.len (F.erase base ∪ live) {x | s.Got x} s.total
  coalesced : ∀ b ∈ F.erase base, ∀ c ∈ F, b + s.len b ≠ c
  above : ∀ x, s.Got x → base + unit ≤ x
  limit : s.total < unit * 2 ^ 32

/-- The representation invariant: the free blocks are an ordered cycle. -/
structure FreeList (base : ℕ) (s : St) (live F : Finset ℕ) : Prop where
  blocks : Blocks base s live F
  cycle : Cyclic s.ptr F base
  freep : s.freep ∈ F

variable {base : ℕ} {s s' : St} {live F : Finset ℕ} {b c p bp q x n : ℕ}

theorem unit_pos : 0 < unit := by decide

theorem got_eq (hr : s'.regions = s.regions) : {x | s'.Got x} = {x | s.Got x} := by
  unfold St.Got
  rw [hr]

theorem total_eq (hr : s'.regions = s.regions) : s'.total = s.total := by
  unfold St.total
  rw [hr]

namespace Blocks

theorem free_mem (h : b ∈ F) (hb : b ≠ base) : b ∈ F.erase base ∪ live :=
  mem_union_left _ (mem_erase.2 ⟨hb, h⟩)

theorem live_mem (h : b ∈ live) : b ∈ F.erase base ∪ live := mem_union_right _ h

variable (h : Blocks base s live F)

include h

theorem base_lt (hb : b ∈ F.erase base ∪ live) : base < b := by
  have hu := unit_pos
  have := h.above b (h.tiles.start_mem hb)
  omega

theorem notMem (hb : b ∈ live) : b ∉ F :=
  fun hF => (disjoint_left.1 h.disjoint hF) hb

/-- The size of two joined blocks does not overflow. -/
theorem size_add (hb : b ∈ F.erase base ∪ live) (hc : c ∈ F.erase base ∪ live) (hbc : b ≠ c) :
    (s.size b + s.size c) % 2 ^ 32 = s.size b + s.size c := by
  have ha := h.tiles.len_add_le hb hc hbc
  have hl := h.limit
  unfold St.len unit at ha
  unfold unit at hl
  exact Nat.mod_eq_of_lt (by omega)

/-- What is left to show when `sbrk` was not called. -/
theorem of_tiles {live' F' : Finset ℕ} (hb : s'.size base = s.size base)
    (hr : s'.regions = s.regions) (hd : Disjoint F' live')
    (ht : Tiles s'.len (F'.erase base ∪ live') {x | s.Got x} s.total)
    (hc : ∀ b ∈ F'.erase base, ∀ c ∈ F', b + s'.len b ≠ c) : Blocks base s' live' F' := by
  refine ⟨hb.trans h.base_size, hd, ?_, hc, ?_, ?_⟩
  · rwa [got_eq hr, total_eq hr]
  · intro x hx
    exact h.above x (by rwa [St.Got, hr] at hx)
  · rw [total_eq hr]
    exact h.limit

theorem congr (hs : ∀ x, s'.size x = s.size x) (hr : s'.regions = s.regions) :
    Blocks base s' live F := by
  have hlen : s'.len = s.len := by
    funext x
    rw [St.len, St.len, hs]
  exact h.of_tiles (hs base) hr h.disjoint (hlen ▸ h.tiles) (hlen ▸ h.coalesced)

/-- A live block takes in the free block that follows it. -/
theorem joinUpper (hb : bp ∈ live) (hq : q ∈ F) (hj : bp + s.len bp = q)
    (hs : s'.size bp = s.size bp + s.size q) (he : ∀ x ≠ bp, s'.size x = s.size x)
    (hr : s'.regions = s.regions) :
    Blocks base s' live (F.erase q) ∧ ∀ c ∈ F.erase q, bp + s'.len bp ≠ c := by
  have hbB : bp ∈ F.erase base ∪ live := live_mem hb
  have hbase := h.base_lt hbB
  have hqb : q ≠ base := by omega
  have hql : q ∉ live := fun hl => h.notMem hl hq
  have hlen : s'.len bp = s.len bp + s.len q := by
    unfold St.len
    rw [hs, Nat.mul_add]
  have heq (x : ℕ) (hx : x ≠ bp) : s'.len x = s.len x := by
    unfold St.len
    rw [he x hx]
  constructor
  · refine h.of_tiles (he base hbase.ne) hr ?_ ?_ ?_
    · exact h.disjoint.mono_left (erase_subset _ _)
    · have ht := h.tiles.merge hbB (free_mem hq hqb) hj hlen fun x _ hx _ => heq x hx
      rwa [erase_union_distrib, erase_eq_of_notMem hql, erase_right_comm] at ht
    · intro b hbF c hc
      have hbF' : b ∈ F.erase base := erase_subset_erase _ (erase_subset _ _) hbF
      rw [heq b fun hbb => h.notMem hb (hbb ▸ mem_of_mem_erase hbF')]
      exact h.coalesced b hbF' c (mem_of_mem_erase hc)
  · intro c hc hbc
    refine h.coalesced q (mem_erase.2 ⟨hqb, hq⟩) c (mem_of_mem_erase hc) ?_
    omega

/-- A free block takes in the live block that follows it. -/
theorem joinLower (hb : bp ∈ live) (hp : p ∈ F) (hj : p + s.len p = bp)
    (hu : ∀ c ∈ F, bp + s.len bp ≠ c) (hs : s'.size p = s.size p + s.size bp)
    (he : ∀ x ≠ p, s'.size x = s.size x) (hr : s'.regions = s.regions) :
    Blocks base s' (live.erase bp) F := by
  have hbB : bp ∈ F.erase base ∪ live := live_mem hb
  have hpb : p ≠ base := by
    rintro rfl
    have := h.base_lt hbB
    rw [St.len, h.base_size] at hj
    omega
  have hlen : s'.len p = s.len p + s.len bp := by
    unfold St.len
    rw [hs, Nat.mul_add]
  have heq (x : ℕ) (hx : x ≠ p) : s'.len x = s.len x := by
    unfold St.len
    rw [he x hx]
  refine h.of_tiles (he base hpb.symm) hr ?_ ?_ ?_
  · exact h.disjoint.mono_right (erase_subset _ _)
  · have ht := h.tiles.merge (free_mem hp hpb) hbB hj hlen fun x _ hx _ => heq x hx
    rwa [erase_union_distrib, erase_eq_of_notMem fun hm => h.notMem hb (mem_of_mem_erase hm)] at ht
  · intro b hbF c hc
    by_cases hbp : b = p
    · subst hbp
      intro hbc
      refine hu c hc ?_
      omega
    · rw [heq b hbp]
      exact h.coalesced b hbF c hc

/-- A live block that touches no free block becomes free. -/
theorem link (hb : bp ∈ live) (hu : ∀ c ∈ F, bp + s.len bp ≠ c)
    (hl : ∀ b ∈ F.erase base, b + s.len b ≠ bp) : Blocks base s (live.erase bp) (insert bp F) := by
  have hbB : bp ∈ F.erase base ∪ live := live_mem hb
  have hbase := h.base_lt hbB
  refine h.of_tiles rfl rfl ?_ ?_ ?_
  · rw [disjoint_insert_left]
    exact ⟨notMem_erase bp live, h.disjoint.mono_right (erase_subset _ _)⟩
  · have hB : (insert bp F).erase base ∪ live.erase bp = F.erase base ∪ live := by
      rw [erase_insert_of_ne hbase.ne', insert_union, ← union_insert, insert_erase hb]
    rw [hB]
    exact h.tiles
  · intro b hbF c hc
    rw [erase_insert_of_ne hbase.ne', mem_insert] at hbF
    rcases hbF with rfl | hbF
    · rcases mem_insert.1 hc with rfl | hc
      · have := h.tiles.pos c hbB
        omega
      · exact hu c hc
    · rcases mem_insert.1 hc with rfl | hc
      · exact hl b hbF
      · exact h.coalesced b hbF c hc

/-- A free block becomes live as a whole. -/
theorem unlink (hp : p ∈ F) (hpb : p ≠ base) : Blocks base s (insert p live) (F.erase p) := by
  refine h.of_tiles rfl rfl ?_ ?_ ?_
  · rw [disjoint_insert_right]
    exact ⟨notMem_erase p F, h.disjoint.mono_left (erase_subset _ _)⟩
  · have hB : (F.erase p).erase base ∪ insert p live = F.erase base ∪ live := by
      rw [erase_right_comm, union_insert, ← insert_union, insert_erase (mem_erase.2 ⟨hpb, hp⟩)]
    rw [hB]
    exact h.tiles
  · intro b hb c hc
    exact h.coalesced b (erase_subset_erase _ (erase_subset _ _) hb) c (mem_of_mem_erase hc)

/-- The end of a free block becomes a live block of `n` headers. -/
theorem carve (hp : p ∈ F) (hn : 0 < n) (hlt : n < s.size p) (hq : q = p + unit * (s.size p - n))
    (hsp : s'.size p = s.size p - n) (hsq : s'.size q = n)
    (he : ∀ x ≠ p, x ≠ q → s'.size x = s.size x) (hr : s'.regions = s.regions) :
    Blocks base s' (insert q live) F ∧ q ∉ F ∧ q ∉ live := by
  have hpb : p ≠ base := by
    rintro rfl
    rw [h.base_size] at hlt
    omega
  have hpB : p ∈ F.erase base ∪ live := free_mem hp hpb
  have hu := unit_pos
  have hk : 0 < unit * (s.size p - n) := Nat.mul_pos hu (by omega)
  have hkl : unit * (s.size p - n) < s.len p := by
    unfold St.len
    exact Nat.mul_lt_mul_of_pos_left (by omega) hu
  have hqB : q ∉ F.erase base ∪ live := by
    intro hB
    have := h.tiles.apart p hpB q hB (by omega)
    omega
  have hbase := h.base_lt hpB
  have hqF : q ∉ F := fun hF => hqB (free_mem hF (by omega))
  have hql : q ∉ live := fun hl => hqB (live_mem hl)
  have heq (x : ℕ) (h1 : x ≠ p) (h2 : x ≠ q) : s'.len x = s.len x := by
    unfold St.len
    rw [he x h1 h2]
  refine ⟨h.of_tiles (he base hpb.symm (by omega)) hr ?_ ?_ ?_, hqF, hql⟩
  · rw [disjoint_insert_right]
    exact ⟨hqF, h.disjoint⟩
  · have hlp : s'.len p = unit * (s.size p - n) := by rw [St.len, hsp]
    have hlq : s'.len (p + unit * (s.size p - n)) = s.len p - unit * (s.size p - n) := by
      rw [← hq, St.len, St.len, hsq, ← Nat.mul_sub, Nat.sub_sub_self hlt.le]
    have ht := h.tiles.split hpB hk hkl hlp hlq fun x hx h1 => heq x h1 fun h2 => hqB (h2 ▸ hx)
    rwa [← hq, ← union_insert] at ht
  · intro b hb c hc
    by_cases hbp : b = p
    · subst hbp
      have hlen : b + s'.len b = q := by
        unfold St.len
        rw [hsp, hq]
      rintro rfl
      exact hqF (hlen ▸ hc)
    · rw [heq b hbp fun hbq => hqF (hbq ▸ mem_of_mem_erase hb)]
      exact h.coalesced b hb c hc

/-- A new block from `sbrk`, live until it is put on the list. -/
theorem grow (hn : 0 < n) (hs : s'.size q = n) (he : ∀ x ≠ q, s'.size x = s.size x)
    (hr : s'.regions = (q, unit * n) :: s.regions) (habove : base + unit ≤ q)
    (hap : ∀ r ∈ s.regions, q + unit * n ≤ r.1 ∨ r.1 + r.2 ≤ q)
    (hlim : s.total + unit * n < unit * 2 ^ 32) : Blocks base s' (insert q live) F ∧ q ∉ live := by
  have hu := unit_pos
  have hpos : 0 < unit * n := Nat.mul_pos hu hn
  have hfresh (x : ℕ) (h1 : q ≤ x) (h2 : x < q + unit * n) : ¬s.Got x := by
    rintro ⟨r, hr, h3, h4⟩
    rcases hap r hr with h5 | h5 <;> omega
  have hqB : q ∉ F.erase base ∪ live := fun hB =>
    hfresh q le_rfl (by omega) (h.tiles.start_mem hB)
  have hqF : q ∉ F := fun hF => hqB (free_mem hF (by omega))
  have hgot : {x | s'.Got x} = {x | s.Got x} ∪ {x | q ≤ x ∧ x < q + unit * n} := by
    ext x
    simp only [Set.mem_ofPred_eq, Set.mem_union, St.Got, hr, List.exists_mem_cons_iff]
    exact or_comm
  have htot : s'.total = s.total + unit * n := by
    unfold St.total
    rw [hr, List.map_cons, List.sum_cons, Nat.add_comm]
  have hlen : s'.len q = unit * n := by rw [St.len, hs]
  have heq (x : ℕ) (hx : x ≠ q) : s'.len x = s.len x := by rw [St.len, St.len, he x hx]
  refine ⟨⟨?_, ?_, ?_, ?_, ?_, ?_⟩, fun hl => hqB (live_mem hl)⟩
  · rw [he base (by omega), h.base_size]
  · rw [disjoint_insert_right]
    exact ⟨hqF, h.disjoint⟩
  · rw [hgot, htot, union_insert]
    exact h.tiles.add hpos hfresh hlen fun x hx => heq x fun hxq => hqB (hxq ▸ hx)
  · intro b hb c hc
    rw [heq b fun hbq => hqF (hbq ▸ mem_of_mem_erase hb)]
    exact h.coalesced b hb c hc
  · intro x hx
    have hx' : x ∈ {x | s.Got x} ∪ {x | q ≤ x ∧ x < q + unit * n} := hgot ▸ hx
    rcases hx' with hx' | hx'
    · exact h.above x hx'
    · exact habove.trans hx'.1
  · rwa [htot]

end Blocks

/-! ## free -/

theorem exists_before (hF : base ∈ F) (hb : base < bp) : ∃ p, Cyclic.Before F p bp := by
  have hne : (F.filter (· < bp)).Nonempty := ⟨base, mem_filter.2 ⟨hF, hb⟩⟩
  obtain ⟨hpF, hpb⟩ := mem_filter.1 (max'_mem _ hne)
  exact ⟨_, hpF, hpb, fun y hy hyb => le_max' _ y (mem_filter.2 ⟨hy, hyb⟩)⟩

/-- The loop of `free` ends at the block before the place of `bp`. -/
theorem findPlace_eq (h : Cyclic s.ptr F base) (hb : Cyclic.Before F p bp) (hF : bp ∉ F)
    (hx : x ∈ F) : ∃ n, ∀ fuel ≥ n, findPlace s bp fuel x = some p := by
  have hbase : base < bp := (h.least p hb.1).trans_lt hb.2.1
  refine h.induction (P := fun x => ∃ n, ∀ fuel ≥ n, findPlace s bp fuel x = some p) hb.1 ?_ ?_ hx
  · refine ⟨1, fun fuel hf => ?_⟩
    obtain ⟨fuel, rfl⟩ := Nat.exists_eq_add_of_le' hf
    unfold findPlace
    rcases h.next_of_before hb hF with ⟨hlt, -⟩ | ⟨hw, -⟩
    · rw [if_pos ⟨hb.2.1, hlt⟩]
    · have hle := h.least p hb.1
      rw [if_neg (by omega), if_pos ⟨by omega, .inl hb.2.1⟩]
  · rintro x hxF hxp ⟨n, hn⟩
    refine ⟨n + 1, fun fuel hf => ?_⟩
    obtain ⟨fuel, rfl⟩ := Nat.exists_eq_add_of_le' (show 1 ≤ fuel by omega)
    unfold findPlace
    have hle : x < bp → x < p := fun hlt => lt_of_le_of_ne (hb.2.2 x hxF hlt) hxp
    have hstep := h.step x hxF
    rw [if_neg ?_, if_neg ?_]
    · exact hn fuel (by omega)
    · rintro ⟨hge, hor⟩
      rcases hstep with ⟨hlt, -⟩ | ⟨hw, hy⟩
      · omega
      · have hpx := hy p hb.1
        rcases hor with hlt | hlt
        · have := hle hlt
          omega
        · omega
    · rintro ⟨h1, h2⟩
      rcases hstep with ⟨-, hy⟩ | ⟨hw, -⟩
      · have h3 := hy p hb.1 (hle h1)
        have h4 := hb.2.1
        omega
      · omega

/-- `bp` is ready to be put behind `p`: its own link leads to the block that is to follow it, which
it does not touch. -/
structure Opened (base : ℕ) (s : St) (p bp : ℕ) (live F : Finset ℕ) : Prop where
  blocks : Blocks base s live F
  mem : bp ∈ live
  place : Cyclic.Before F p bp
  cycle : Cyclic (update s.ptr p (s.ptr bp)) F base
  upper : ∀ c ∈ F, bp + s.len bp ≠ c

theorem joinUpper_opened (h : FreeList base s live F) (hb : bp ∈ live)
    (hp : Cyclic.Before F p bp) :
    ∃ F', Opened base (joinUpper s p bp) p bp live F' ∧ s.size bp ≤ (joinUpper s p bp).size bp := by
  have hbF := h.blocks.notMem hb
  have hbB : bp ∈ F.erase base ∪ live := Blocks.live_mem hb
  have hbase := h.blocks.base_lt hbB
  have hpb : p ≠ bp := hp.2.1.ne
  have hqF := h.cycle.next_mem p hp.1
  unfold joinUpper
  split
  next hj =>
    -- the block after `p` goes into `bp`
    have hlt : bp < s.ptr p := hj ▸ Nat.lt_add_of_pos_right (h.blocks.tiles.pos bp hbB)
    have hqb : s.ptr p ≠ base := by omega
    have hsum := h.blocks.size_add hbB (Blocks.free_mem hqF hqb) hlt.ne
    rw [hsum]
    let s1 := (s.setSize bp (s.size bp + s.size (s.ptr p))).setPtr bp (s.ptr (s.ptr p))
    have hs1 : s1.size bp = s.size bp + s.size (s.ptr p) := by simp [s1]
    have he1 (x : ℕ) (hx : x ≠ bp) : s1.size x = s.size x := by
      rw [St.size_setPtr, St.size_setSize _ _ hx]
    have hbl := h.blocks.joinUpper hb hqF hj hs1 he1 rfl
    refine ⟨F.erase (s.ptr p), ⟨hbl.1, hb, ?_, ?_, hbl.2⟩, by simp⟩
    · exact ⟨mem_erase.2 ⟨by have := hp.2.1; omega, hp.1⟩, hp.2.1,
        fun y hy => hp.2.2 y (mem_of_mem_erase hy)⟩
    · refine h.cycle.erase hp.1 hqb ?_ ?_
      · rw [update_self, St.ptr_setPtr_self]
      · intro y hy hyp _
        rw [update_of_ne hyp, St.ptr_setPtr _ _ (ne_of_mem_of_not_mem hy hbF), St.ptr_setSize]
  next hj =>
    refine ⟨F, ⟨h.blocks.congr (fun x => by simp) rfl, hb, hp, ?_, ?_⟩, by simp⟩
    · refine h.cycle.congr fun y hy => ?_
      by_cases hyp : y = p
      · rw [hyp, update_self, St.ptr_setPtr_self]
      · rw [update_of_ne hyp, St.ptr_setPtr _ _ (ne_of_mem_of_not_mem hy hbF)]
    · intro c hc hbc
      rw [St.len, St.size_setPtr] at hbc
      have hbc' : bp < c := by
        have := h.blocks.tiles.pos bp hbB
        unfold St.len at this
        omega
      rcases h.cycle.next_of_before hp hbF with ⟨hlt, hmin⟩ | ⟨-, hall⟩
      · have h1 := hmin c hc hbc'
        have h2 := h.blocks.tiles.apart bp hbB _ (Blocks.free_mem hqF (by omega)) hlt
        unfold St.len at h2
        exact hj (by omega)
      · have := hall c hc
        omega

theorem Opened.joinLower (h : Opened base s p bp live F) :
    ∃ F', FreeList base { joinLower s p bp with freep := p } (live.erase bp) F' ∧
      ∃ c ∈ F', s.size bp ≤ (joinLower s p bp).size c := by
  have hbF := h.blocks.notMem h.mem
  have hbB : bp ∈ F.erase base ∪ live := Blocks.live_mem h.mem
  have hpb : p ≠ bp := h.place.2.1.ne
  unfold Malloc.joinLower
  split
  next hj =>
    have hpbase : p ≠ base := by
      rintro rfl
      rw [h.blocks.base_size] at hj
      omega
    rw [h.blocks.size_add (Blocks.free_mem h.place.1 hpbase) hbB hpb]
    refine ⟨F, ⟨?_, ?_, h.place.1⟩, p, h.place.1, by simp⟩
    · refine h.blocks.joinLower h.mem h.place.1 hj h.upper ?_ ?_ rfl
      · show ((s.setSize p (s.size p + s.size bp)).setPtr p (s.ptr bp)).size p = _
        simp
      · intro x hx
        show ((s.setSize p (s.size p + s.size bp)).setPtr p (s.ptr bp)).size x = _
        rw [St.size_setPtr, St.size_setSize _ _ hx]
    · refine h.cycle.congr fun y _ => ?_
      show ((s.setSize p (s.size p + s.size bp)).setPtr p (s.ptr bp)).ptr y = _
      by_cases hyp : y = p
      · rw [hyp, update_self, St.ptr_setPtr_self]
      · rw [update_of_ne hyp, St.ptr_setPtr _ _ hyp, St.ptr_setSize]
  next hj =>
    refine ⟨insert bp F, ⟨?_, ?_, mem_insert_of_mem h.place.1⟩, bp, mem_insert_self bp F, by simp⟩
    · have hlower : ∀ b ∈ F.erase base, b + s.len b ≠ bp := by
        intro b hb hbb
        obtain ⟨hbase, hbF'⟩ := mem_erase.1 hb
        have hpos := h.blocks.tiles.pos b (mem_union_left _ hb)
        have hle := h.place.2.2 b hbF' (by omega)
        rcases hle.eq_or_lt with rfl | hlt
        · exact hj hbb
        · have hpbase : p ≠ base := by
            have := h.cycle.least b hbF'
            omega
          have := h.blocks.tiles.apart b (mem_union_left _ hb) p
            (Blocks.free_mem h.place.1 hpbase) hlt
          have := h.place.2.1
          omega
      exact (h.blocks.link h.mem h.upper hlower).congr
        (fun x => show (s.setPtr p bp).size x = _ from St.size_setPtr _ _) rfl
    · refine h.cycle.insert h.place hbF ?_ ?_ ?_
      · exact St.ptr_setPtr_self _ _ _
      · rw [update_self]
        exact St.ptr_setPtr _ _ hpb.symm
      · intro y _ hyp
        rw [update_of_ne hyp]
        exact St.ptr_setPtr _ _ hyp

theorem size_release (s : St) (h1 : x ≠ p) (h2 : x ≠ bp) : (release s p bp).size x = s.size x := by
  have hu : (joinUpper s p bp).size x = s.size x := by
    unfold joinUpper
    split
    · rw [St.size_setPtr, St.size_setSize _ _ h2]
    · rw [St.size_setPtr]
  rw [← hu]
  show (joinLower (joinUpper s p bp) p bp).size x = _
  unfold joinLower
  split
  · rw [St.size_setPtr, St.size_setSize _ _ h1]
  · rw [St.size_setPtr]

/-- `free` of a live block returns. The block is on the list afterwards, alone or as part of another
block; the other live blocks are as before. -/
theorem free_spec (h : FreeList base s live F) (hb : b ∈ live) :
    ∃ s' F', Returns (fun fuel => free fuel s (b + unit)) s' ∧
      FreeList base s' (live.erase b) F' ∧ (∀ x ∈ live.erase b, s'.size x = s.size x) ∧
      ∃ c ∈ F', s.size b ≤ s'.size c := by
  have hbB : b ∈ F.erase base ∪ live := Blocks.live_mem hb
  obtain ⟨p, hp⟩ := exists_before h.cycle.mem (h.blocks.base_lt hbB)
  obtain ⟨n, hn⟩ := findPlace_eq h.cycle hp (h.blocks.notMem hb) h.freep
  obtain ⟨F1, h1, hs1⟩ := joinUpper_opened h hb hp
  obtain ⟨F2, h2, c, hc, hs2⟩ := h1.joinLower
  refine ⟨release s p b, F2, ⟨n, ?_⟩, h2, ?_, c, hc, hs1.trans hs2⟩
  · intro fuel hf
    show free fuel s (b + unit) = _
    unfold free
    rw [Nat.add_sub_cancel, hn fuel hf]
    rfl
  · intro x hx
    obtain ⟨hxb, hxl⟩ := mem_erase.1 hx
    exact size_release s (fun hxp => h.blocks.notMem hxl (hxp ▸ hp.1)) hxb

end Xv6.User.Malloc
