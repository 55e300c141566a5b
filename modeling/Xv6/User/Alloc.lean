import Xv6.User.FreeList

/-!
# malloc

The loop of `malloc` walks along the free list until it finds a block that is large enough. When it
has come around without one, `sbrk` is asked for a new block, which is put on the list and found by a
second round at the latest.
-/

namespace Xv6.User.Malloc

open Finset

variable {base : ℕ} {sbrk : ℕ → List (ℕ × ℕ) → ℤ → Option ℕ} {s s' : St} {live F : Finset ℕ}
  {b p q x n r prev nbytes : ℕ}

/-! ## Taking a block -/

/-- `malloc` has returned a new live block of `n` headers; the other live blocks are as before. -/
def Gave (base : ℕ) (s : St) (live : Finset ℕ) (n : ℕ) (s' : St) (r : ℕ) : Prop :=
  ∃ b F', r = b + unit ∧ b ∉ live ∧ FreeList base s' (insert b live) F' ∧ s'.size b = n ∧
    ∀ x ∈ live, s'.size x = s.size x

theorem takeFrom_spec (h : FreeList base s live F) (hprev : prev ∈ F) (hn : 0 < n)
    (hfit : n ≤ s.size (s.ptr prev)) :
    Gave base s live n (takeFrom s n prev (s.ptr prev)).1 (takeFrom s n prev (s.ptr prev)).2 := by
  have hpF := h.cycle.next_mem prev hprev
  have hpb : s.ptr prev ≠ base := by
    intro hb
    rw [hb, h.blocks.base_size] at hfit
    omega
  have hne := h.cycle.next_ne_self hprev hpb
  have hlive (x : ℕ) (hx : x ∈ live) : x ≠ s.ptr prev :=
    fun hxp => h.blocks.notMem hx (hxp ▸ hpF)
  unfold takeFrom
  split
  next hsz =>
    refine ⟨s.ptr prev, F.erase (s.ptr prev), rfl, fun hl => hlive _ hl rfl, ⟨?_, ?_, ?_⟩, ?_, ?_⟩
    · exact (h.blocks.unlink hpF hpb).congr (fun x => St.size_setPtr _ _) rfl
    · exact h.cycle.erase hprev hpb (St.ptr_setPtr_self _ _ _)
        fun y _ hy _ => St.ptr_setPtr _ _ hy
    · exact mem_erase.2 ⟨hne.symm, hprev⟩
    · exact (St.size_setPtr _ _).trans hsz
    · exact fun x _ => St.size_setPtr _ _
  next hsz =>
    have hlt : n < s.size (s.ptr prev) := lt_of_le_of_ne hfit (Ne.symm hsz)
    have hq : s.ptr prev + unit * (s.setSize (s.ptr prev) (s.size (s.ptr prev) - n)).size
        (s.ptr prev) = s.ptr prev + unit * (s.size (s.ptr prev) - n) := by
      rw [St.size_setSize_self]
    simp only [hq]
    generalize hqd : s.ptr prev + unit * (s.size (s.ptr prev) - n) = q
    have hqp : q ≠ s.ptr prev := by
      have := Nat.mul_pos unit_pos (show 0 < s.size (s.ptr prev) - n by omega)
      omega
    let s1 := (s.setSize (s.ptr prev) (s.size (s.ptr prev) - n)).setSize q n
    have hsp : s1.size (s.ptr prev) = s.size (s.ptr prev) - n := by
      rw [St.size_setSize _ _ hqp.symm, St.size_setSize_self]
    have he (x : ℕ) (h1 : x ≠ s.ptr prev) (h2 : x ≠ q) : s1.size x = s.size x := by
      rw [St.size_setSize _ _ h2, St.size_setSize _ _ h1]
    obtain ⟨hbl, hqF, hql⟩ := h.blocks.carve hpF hn hlt hqd.symm hsp
      (St.size_setSize_self _ _ _) he rfl
    refine ⟨q, F, rfl, hql, ⟨?_, ?_, hprev⟩, St.size_setSize_self _ _ _, ?_⟩
    · exact hbl.congr (fun _ => rfl) rfl
    · refine h.cycle.congr fun y _ => ?_
      show s1.ptr y = s.ptr y
      rw [St.ptr_setSize, St.ptr_setSize]
    · exact fun x hx => he x (hlive x hx) fun hxq => hql (hxq ▸ hx)

/-! ## The loop of malloc -/

/-- The blocks that the loop passes: too small, and not the one it started from. -/
def Passes (s : St) (n x i : ℕ) : Prop :=
  ∀ j < i, s.size (s.ptr^[j] x) < n ∧ s.ptr^[j] x ≠ s.freep

theorem Passes.head {i : ℕ} (h : Passes s n x (i + 1)) : s.size x < n ∧ x ≠ s.freep :=
  h 0 (Nat.succ_pos i)

theorem Passes.tail {i : ℕ} (h : Passes s n x (i + 1)) : Passes s n (s.ptr x) i :=
  fun j hj => h (j + 1) (Nat.succ_lt_succ hj)

theorem search_pass {fuel : ℕ} (h : s.size x < n ∧ x ≠ s.freep) :
    search sbrk n (fuel + 1) s prev x = search sbrk n fuel s x (s.ptr x) := by
  rw [search, if_neg (not_le.2 h.1), if_neg h.2]

/-- The loop finds a block. -/
theorem search_found {i : ℕ} (h : Cyclic s.ptr F base) (hprev : prev ∈ F) (hx : s.ptr prev = x)
    (hp : Passes s n x i) (hfit : n ≤ s.size (s.ptr^[i] x)) :
    ∃ prev' ∈ F, s.ptr prev' = s.ptr^[i] x ∧ ∀ fuel,
      search sbrk n (fuel + 1 + i) s prev x = some (takeFrom s n prev' (s.ptr prev')) := by
  induction i generalizing prev x with
  | zero =>
    refine ⟨prev, hprev, hx, fun fuel => ?_⟩
    rw [Nat.add_zero, search, hx]
    exact if_pos hfit
  | succ i ih =>
    have hxF : x ∈ F := hx ▸ h.next_mem prev hprev
    obtain ⟨prev', hp', hptr, he⟩ := ih hxF rfl hp.tail hfit
    refine ⟨prev', hp', hptr, fun fuel => ?_⟩
    rw [← Nat.add_assoc, search_pass hp.head]
    exact he fuel

theorem search_none {k : ℕ} (hp : Passes s n x k) (hk : s.ptr^[k] x = s.freep)
    (hfit : s.size (s.ptr^[k] x) < n) (fuel : ℕ) :
    search sbrk n (fuel + 1 + k) s prev x = (morecore sbrk fuel s n).bind fun (s', q) =>
      if q = 0 then some (s', 0) else search sbrk n fuel s' q (s'.ptr q) := by
  induction k generalizing prev x with
  | zero =>
    rw [Nat.add_zero, search]
    exact (if_neg (not_le.2 hfit)).trans (if_pos hk)
  | succ k ih =>
    rw [← Nat.add_assoc, search_pass hp.head]
    exact ih hp.tail hk hfit

theorem search_fits (sbrk : ℕ → List (ℕ × ℕ) → ℤ → Option ℕ) (h : FreeList base s live F)
    (hn : 0 < n) (hfit : ∃ z ∈ F, n ≤ s.size z) :
    ∃ s' r, Returns (fun fuel => search sbrk n fuel s s.freep (s.ptr s.freep)) (s', r) ∧
      Gave base s live n s' r := by
  classical
  obtain ⟨k, -, hmin, hall⟩ := h.cycle.walk h.freep
  obtain ⟨z, hz, hsz⟩ := hfit
  obtain ⟨i, hik, rfl⟩ := hall z hz
  have hex : ∃ i, n ≤ s.size (s.ptr^[i] (s.ptr s.freep)) := ⟨i, hsz⟩
  have hle : Nat.find hex ≤ k := (Nat.find_min' hex hsz).trans hik
  have hp : Passes s n (s.ptr s.freep) (Nat.find hex) := fun j hj =>
    ⟨not_le.1 (Nat.find_min hex hj), hmin j (hj.trans_le hle)⟩
  obtain ⟨prev, hprev, hptr, he⟩ := search_found h.cycle h.freep rfl hp (Nat.find_spec hex)
  refine ⟨_, _, ⟨1 + Nat.find hex, fun fuel hf => ?_⟩,
    takeFrom_spec h hprev hn (hptr ▸ Nat.find_spec hex)⟩
  obtain ⟨fuel, rfl⟩ := Nat.exists_eq_add_of_le' hf
  rw [← Nat.add_assoc]
  exact he fuel

/-! ## morecore -/

theorem le_moreUnits (n : ℕ) : n ≤ moreUnits n := by
  unfold moreUnits
  split <;> omega

/-- The argument of `sbrk` is what it is meant to be. -/
def Exact (n : ℕ) : Prop := sbrkArg (moreUnits n) = ((unit * moreUnits n : ℕ) : ℤ)

/-- `morecore` fails, or puts a block on the list that is large enough. -/
theorem morecore_spec (hs : Fresh base sbrk) (h : FreeList base s live F) (hx : Exact n) :
    (∀ fuel, morecore sbrk fuel s n = some ({ s with calls := s.calls + 1 }, 0)) ∨
    ∃ s' F', Returns (fun fuel => morecore sbrk fuel s n) (s', s'.freep) ∧
      FreeList base s' live F' ∧ (∀ x ∈ live, s'.size x = s.size x) ∧
      ∃ z ∈ F', n ≤ s'.size z := by
  have hle := le_moreUnits n
  have hu := unit_pos
  have hpos : 0 < moreUnits n := by
    unfold moreUnits
    split <;> omega
  have harg : 0 < sbrkArg (moreUnits n) := by
    rw [hx]
    exact_mod_cast Nat.mul_pos hu hpos
  have hnat : (sbrkArg (moreUnits n)).toNat = unit * moreUnits n := by
    rw [hx]
    exact Int.toNat_natCast _
  generalize hN : sbrkArg (moreUnits n) = N at harg hnat
  cases ha : sbrk s.calls s.regions N with
  | none =>
    left
    intro fuel
    unfold morecore
    rw [hN, ha]
  | some a =>
    right
    let s1 := (s.grow a N).setSize a (moreUnits n)
    have hr1 : s1.regions = (a, unit * moreUnits n) :: s.regions := by
      rw [← hnat]
      exact s.regions_grow a harg
    have he1 (x : ℕ) (hxa : x ≠ a) : s1.size x = s.size x := St.size_setSize _ _ hxa
    have hap := hs.apart _ _ _ _ harg ha
    have hlim := hs.limit _ _ _ _ harg ha
    rw [hnat] at hap hlim
    obtain ⟨hbl, hal⟩ := h.blocks.grow hpos (St.size_setSize_self _ _ _) he1 hr1
      (hs.above _ _ _ _ harg ha) hap hlim
    have hfl : FreeList base s1 (insert a live) F := by
      refine ⟨hbl, h.cycle.congr fun y _ => ?_, h.freep⟩
      exact St.ptr_setSize _ _
    obtain ⟨s', F', ⟨m, hf⟩, h', hsame, z, hz, hsz⟩ := free_spec hfl (mem_insert_self a live)
    rw [erase_insert hal] at h' hsame
    refine ⟨s', F', ⟨m, fun fuel hfu => ?_⟩, h', fun x hxl => ?_, z, hz, ?_⟩
    · show morecore sbrk fuel s n = _
      unfold morecore
      rw [hN, ha]
      show (free fuel s1 (a + unit)).map _ = _
      rw [show free fuel s1 (a + unit) = some s' from hf fuel hfu]
      rfl
    · rw [hsame x hxl, he1 x (ne_of_mem_of_not_mem hxl hal)]
    · rw [St.size_setSize_self] at hsz
      exact hle.trans hsz

/-! ## malloc -/

/-- The loop of `malloc` returns: a null pointer if `sbrk` failed, or else a new block. -/
theorem search_spec (hb : 0 < base) (hs : Fresh base sbrk) (h : FreeList base s live F)
    (hn : 0 < n) (hx : Exact n ∨ ∃ z ∈ F, n ≤ s.size z) :
    ∃ s' r, Returns (fun fuel => search sbrk n fuel s s.freep (s.ptr s.freep)) (s', r) ∧
      (r = 0 ∧ FreeList base s' live F ∧ (∀ x ∈ live, s'.size x = s.size x) ∨
        Gave base s live n s' r) := by
  by_cases hfit : ∃ z ∈ F, n ≤ s.size z
  · obtain ⟨s', r, hm, hg⟩ := search_fits sbrk h hn hfit
    exact ⟨s', r, hm, .inr hg⟩
  · obtain ⟨k, hk, hmin, -⟩ := h.cycle.walk h.freep
    have hF (i : ℕ) : s.ptr^[i] (s.ptr s.freep) ∈ F :=
      h.cycle.iterate_mem (h.cycle.next_mem _ h.freep) i
    have hsmall (i : ℕ) : s.size (s.ptr^[i] (s.ptr s.freep)) < n :=
      not_le.1 fun hle => hfit ⟨_, hF i, hle⟩
    have hloop (fuel : ℕ) : search sbrk n (fuel + 1 + k) s s.freep (s.ptr s.freep) =
        (morecore sbrk fuel s n).bind _ :=
      search_none (fun i hi => ⟨hsmall i, hmin i hi⟩) hk (hsmall k) fuel
    rcases morecore_spec hs h (hx.resolve_right hfit) with hm | ⟨s1, F1, ⟨m, hm⟩, h1, hsame, hz⟩
    · refine ⟨{ s with calls := s.calls + 1 }, 0, ⟨1 + k, fun fuel hf => ?_⟩,
        .inl ⟨rfl, ?_, fun _ _ => rfl⟩⟩
      · obtain ⟨fuel, rfl⟩ := Nat.exists_eq_add_of_le' hf
        show search sbrk n (fuel + (1 + k)) s s.freep (s.ptr s.freep) = _
        rw [← Nat.add_assoc, hloop, hm]
        rfl
      · exact ⟨h.blocks.congr (fun _ => rfl) rfl, h.cycle, h.freep⟩
    · have hne : s1.freep ≠ 0 := (hb.trans_le (h1.cycle.least _ h1.freep)).ne'
      obtain ⟨s', r, ⟨m', hm'⟩, b, F', hr, hbl, h', hsz, hsame'⟩ := search_fits sbrk h1 hn hz
      refine ⟨s', r, ⟨max m m' + 1 + k, fun fuel hf => ?_⟩, .inr ⟨b, F', hr, hbl, h', hsz, ?_⟩⟩
      · obtain ⟨fuel, rfl⟩ := Nat.exists_eq_add_of_le' hf
        show search sbrk n (fuel + (max m m' + 1 + k)) s s.freep (s.ptr s.freep) = _
        have hmore : morecore sbrk (fuel + max m m') s n = some (s1, s1.freep) := hm _ (by omega)
        rw [← Nat.add_assoc, ← Nat.add_assoc, hloop, hmore, Option.bind_some]
        show (if s1.freep = 0 then _ else _) = _
        rw [if_neg hne]
        exact hm' _ (by omega)
      · exact fun x hxl => (hsame' x hxl).trans (hsame x hxl)

/-! ## The numbers of a request -/

theorem units_eq (hn : nbytes < 2 ^ 32) : units nbytes = (nbytes + unit - 1) / unit + 1 := by
  unfold units unit
  exact Nat.mod_eq_of_lt (by omega)

theorem units_pos (hn : nbytes < 2 ^ 32) : 0 < units nbytes := by
  rw [units_eq hn]
  exact Nat.succ_pos _

theorem le_units (hn : nbytes < 2 ^ 32) : nbytes + unit ≤ unit * units nbytes := by
  rw [units_eq hn]
  unfold unit
  omega

theorem exact_of_le (h : nbytes ≤ maxRequest) : Exact (units nbytes) := by
  unfold maxRequest at h
  have hu : units nbytes < 2 ^ 27 := by
    rw [units_eq (by omega)]
    unfold unit
    omega
  have hm : moreUnits (units nbytes) < 2 ^ 27 := by
    unfold moreUnits
    split <;> omega
  unfold Exact sbrkArg unit
  rw [Nat.mul_comm]
  generalize moreUnits (units nbytes) = m at hm
  exact Int.bmod_eq_of_le_mul_two (by omega) (by omega)

/-! ## Runs -/

theorem init_of_ne (h : s.freep ≠ 0) : init base s = s := if_neg h

theorem init_freeList (h : s.freep = 0) (hr : s.regions = []) :
    FreeList base (init base s) ∅ {base} := by
  have he : init base s = { (s.setPtr base base).setSize base 0 with freep := base } := if_pos h
  have hr' : (init base s).regions = [] := by rw [he]; exact hr
  have hgot (x : ℕ) : ¬(init base s).Got x := by
    rintro ⟨r, hm, -⟩
    rw [hr'] at hm
    exact absurd hm List.not_mem_nil
  have htot : (init base s).total = 0 := by
    unfold St.total
    rw [hr']
    rfl
  refine ⟨⟨?_, disjoint_empty_right _, ?_, ?_, fun x hx => absurd hx (hgot x), ?_⟩, ?_, ?_⟩
  · rw [he]
    exact St.size_setSize_self _ _ _
  · have hM : {x | (init base s).Got x} = ∅ := Set.eq_empty_of_forall_notMem hgot
    have hB : ({base} : Finset ℕ).erase base ∪ ∅ = ∅ := by rw [erase_singleton, union_empty]
    rw [hM, hB, htot]
    exact Tiles.empty
  · intro b hb
    rw [erase_singleton] at hb
    exact absurd hb (notMem_empty b)
  · rw [htot]
    exact Nat.mul_pos unit_pos (by decide)
  · apply Cyclic.single
    rw [he]
    exact (St.ptr_setSize _ _).trans (St.ptr_setPtr_self _ _ _)
  · rw [he]
    exact mem_singleton_self base

/-- What every reachable state satisfies: before the first call there is nothing, the list is in
order, and the live blocks have room for what was asked for. -/
structure Good (base : ℕ) (w : World) : Prop where
  empty : w.st.freep = 0 → w.live = ∅ ∧ w.st.regions = []
  list : ∃ F, FreeList base (init base w.st) w.live F
  room : ∀ b ∈ w.live, w.asked b + unit ≤ w.st.len b

variable {w : World}

/-- The first call changes no live block, since there is none. -/
theorem Good.init_size (h : Good base w) (hx : x ∈ w.live) : (init base w.st).size x = w.st.size x := by
  by_cases h0 : w.st.freep = 0
  · rw [(h.empty h0).1] at hx
    exact absurd hx (notMem_empty x)
  · rw [init_of_ne h0]

theorem Good.malloc (hb : 0 < base) (hs : Fresh base sbrk) (h : Good base w)
    (hn : nbytes < 2 ^ 32) (hsv : Servable base w.st nbytes) :
    ∃ s r, Returns (fun fuel => malloc base sbrk fuel w.st nbytes) (s, r) ∧
      (r = 0 ∧ (∃ F, FreeList base s w.live F) ∧ (∀ x ∈ w.live, s.size x = w.st.size x) ∨
        Gave base w.st w.live (units nbytes) s r) := by
  obtain ⟨F, hF⟩ := h.list
  have hx : Exact (units nbytes) ∨ ∃ z ∈ F, units nbytes ≤ (init base w.st).size z :=
    hsv.imp exact_of_le fun ⟨k, hk⟩ => ⟨_, hF.cycle.iterate_mem hF.freep k, hk⟩
  obtain ⟨s, r, hr, ⟨rfl, hl, he⟩ | ⟨b, F', hrb, hbl, hl, hsz, he⟩⟩ :=
    search_spec hb hs hF (units_pos hn) hx
  · exact ⟨s, 0, hr, .inl ⟨rfl, ⟨F, hl⟩, fun x hx => (he x hx).trans (h.init_size hx)⟩⟩
  · exact ⟨s, r, hr, .inr ⟨b, F', hrb, hbl, hl, hsz, fun x hx => (he x hx).trans (h.init_size hx)⟩⟩

theorem Good.free (h : Good base w) (hb : b ∈ w.live) :
    ∃ s, Returns (fun fuel => free fuel w.st (b + unit)) s ∧
      (∃ F, FreeList base s (w.live.erase b) F) ∧
      ∀ x ∈ w.live.erase b, s.size x = w.st.size x := by
  have h0 : w.st.freep ≠ 0 := by
    intro h0
    rw [(h.empty h0).1] at hb
    exact notMem_empty b hb
  obtain ⟨F, hF⟩ := h.list
  rw [init_of_ne h0] at hF
  obtain ⟨s, F', hr, hl, he, -⟩ := free_spec hF hb
  exact ⟨s, hr, ⟨F', hl⟩, he⟩

theorem good_of_list (hb : 0 < base) (h : FreeList base w.st w.live F)
    (hr : ∀ b ∈ w.live, w.asked b + unit ≤ w.st.len b) : Good base w := by
  have hne : w.st.freep ≠ 0 := (hb.trans_le (h.cycle.least _ h.freep)).ne'
  refine ⟨fun h0 => absurd h0 hne, ⟨F, ?_⟩, hr⟩
  rwa [init_of_ne hne]

theorem good_of_reach (hb : 0 < base) (hs : Fresh base sbrk) (h : Reach base sbrk w) :
    Good base w := by
  induction h with
  | start w h hr hl =>
    refine ⟨fun _ => ⟨hl, hr⟩, ⟨{base}, ?_⟩, ?_⟩
    · rw [hl]
      exact init_freeList h hr
    · rw [hl]
      exact fun b hb => absurd hb (notMem_empty b)
  | malloc w s nbytes r hw hn hsv h ih =>
    obtain ⟨s', r', hr, hcase⟩ := ih.malloc hb hs hn hsv
    obtain ⟨rfl, rfl⟩ := Prod.mk.inj (h.unique hr)
    rcases hcase with ⟨rfl, ⟨F, hF⟩, he⟩ | ⟨b, F, rfl, hbl, hF, hsz, he⟩
    · refine good_of_list hb hF fun b hb => ?_
      show w.asked b + unit ≤ unit * s.size b
      rw [he b hb]
      exact ih.room b hb
    · have hlive : (w.gave s (b + unit) nbytes).live = insert b w.live := by
        simp [World.gave, unit]
      have hasked : (w.gave s (b + unit) nbytes).asked = Function.update w.asked b nbytes := by
        simp [World.gave, unit]
      refine good_of_list hb (by rw [hlive]; exact hF) fun x hx => ?_
      rw [hlive] at hx
      rw [hasked]
      show _ ≤ unit * s.size x
      by_cases hxb : x = b
      · rw [hxb, Function.update_self, hsz]
        exact le_units hn
      · have hxl := mem_of_mem_insert_of_ne hx hxb
        rw [Function.update_of_ne hxb, he x hxl]
        exact ih.room x hxl
  | free w s b hw hbl h ih =>
    obtain ⟨s', hr, ⟨F, hF⟩, he⟩ := ih.free hbl
    obtain rfl := h.unique hr
    refine good_of_list hb hF fun x hx => ?_
    show w.asked x + unit ≤ unit * s.size x
    rw [he x hx]
    exact ih.room x (mem_of_mem_erase hx)

/-- `malloc` returns a null pointer or as many bytes as were asked for, in memory that `sbrk` gave
and apart from the live blocks and from the headers of the list. -/
theorem malloc_returns_memory (hb : 0 < base) (hs : Fresh base sbrk) (hw : Reach base sbrk w)
    (hn : nbytes < 2 ^ 32) (hsv : Servable base w.st nbytes) :
    (∃ s r, Returns (fun fuel => malloc base sbrk fuel w.st nbytes) (s, r) ∧
      (r = 0 ∨ ∀ x, r ≤ x → x < r + nbytes →
        s.Got x ∧ (∀ b ∈ w.live, x < b ∨ b + s.len b ≤ x) ∧
          ∀ k, x < s.ptr^[k] s.freep ∨ s.ptr^[k] s.freep + unit ≤ x) ∧
      ∀ b ∈ w.live, s.size b = w.st.size b ∧ w.asked b + unit ≤ s.len b) ∧
    units nbytes = (nbytes + unit - 1) / unit + 1 ∧
    ((∀ k, (init base w.st).size ((init base w.st).ptr^[k] (init base w.st).freep) < units nbytes) →
      sbrkArg (moreUnits (units nbytes)) = ((unit * moreUnits (units nbytes) : ℕ) : ℤ)) := by
  have hg := good_of_reach hb hs hw
  refine ⟨?_, units_eq hn, fun hsmall => ?_⟩
  · obtain ⟨s, r, hr, hcase⟩ := hg.malloc hb hs hn hsv
    have hroom (he : ∀ x ∈ w.live, s.size x = w.st.size x) (b : ℕ) (hbl : b ∈ w.live) :
        s.size b = w.st.size b ∧ w.asked b + unit ≤ s.len b := by
      refine ⟨he b hbl, ?_⟩
      unfold St.len
      rw [he b hbl]
      exact hg.room b hbl
    refine ⟨s, r, hr, ?_⟩
    rcases hcase with ⟨h0, -, he⟩ | ⟨b, F, rfl, hbl, hF, hsz, he⟩
    · exact ⟨.inl h0, hroom he⟩
    · refine ⟨.inr fun x h1 h2 => ?_, hroom he⟩
      have hbB : b ∈ F.erase base ∪ insert b w.live := Blocks.live_mem (mem_insert_self b _)
      have hlt : x < b + s.len b := by
        have := le_units hn
        unfold St.len
        rw [hsz]
        omega
      have hout (c : ℕ) (hc : c ∈ F.erase base ∪ insert b w.live) (hcb : c ≠ b) :
          x < c ∨ c + s.len c ≤ x := by
        by_contra hin
        exact hcb (hF.blocks.tiles.unique hc hbB (by omega) (by omega) (by omega) hlt)
      have hgot : s.Got x := hF.blocks.tiles.mem hbB (by omega) hlt
      refine ⟨hgot, fun c hc => ?_, fun k => ?_⟩
      · exact hout c (Blocks.live_mem (mem_insert_of_mem hc)) (ne_of_mem_of_not_mem hc hbl)
      · have hkF := hF.cycle.iterate_mem hF.freep k
        generalize s.ptr^[k] s.freep = c at hkF
        by_cases hcb : c = base
        · rw [hcb]
          exact .inr (hF.blocks.above x hgot)
        · have hcB : c ∈ F.erase base ∪ insert b w.live := Blocks.free_mem hkF hcb
          have hne : c ≠ b := fun hcb => hF.blocks.notMem (mem_insert_self b _) (hcb ▸ hkF)
          have hpos := hF.blocks.tiles.pos c hcB
          rcases hout c hcB hne with hx | hx
          · exact .inl hx
          · right
            unfold St.len at hpos hx
            have := Nat.le_mul_of_pos_right unit (Nat.pos_of_mul_pos_left hpos)
            omega
  · rcases hsv with hle | ⟨k, hk⟩
    · exact exact_of_le hle
    · exact absurd hk (not_le.2 (hsmall k))

/-! ## A kernel that grants requests -/

/-- The end of the memory that was given, which begins at `heap`. -/
def brk (heap : ℕ) (rs : List (ℕ × ℕ)) : ℕ := rs.foldr (fun r m => max m (r.1 + r.2)) heap

/-- Requests are granted at the end of the memory, up to a limit. -/
def sbrkAbove (heap : ℕ) (_ : ℕ) (rs : List (ℕ × ℕ)) (n : ℤ) : Option ℕ :=
  if (rs.map Prod.snd).sum + n.toNat < unit * 2 ^ 32 then some (brk heap rs) else none

theorem le_brk (heap : ℕ) (rs : List (ℕ × ℕ)) :
    heap ≤ brk heap rs ∧ ∀ r ∈ rs, r.1 + r.2 ≤ brk heap rs := by
  induction rs with
  | nil => exact ⟨le_rfl, fun r hr => absurd hr List.not_mem_nil⟩
  | cons r rs ih =>
    refine ⟨ih.1.trans (le_max_left _ _), fun r' hr => ?_⟩
    rcases List.mem_cons.1 hr with rfl | hr
    · exact le_max_right _ _
    · exact (ih.2 r' hr).trans (le_max_left _ _)

theorem sbrkAbove_some {heap k a : ℕ} {rs : List (ℕ × ℕ)} {m : ℤ}
    (h : sbrkAbove heap k rs m = some a) :
    a = brk heap rs ∧ (rs.map Prod.snd).sum + m.toNat < unit * 2 ^ 32 := by
  unfold sbrkAbove at h
  split at h
  next hl => exact ⟨(Option.some.inj h).symm, hl⟩
  next => exact nomatch h

theorem sbrkAbove_fresh {heap : ℕ} (h : base + unit ≤ heap) : Fresh base (sbrkAbove heap) where
  above := by
    intro k rs m a _ ha
    rw [(sbrkAbove_some ha).1]
    exact h.trans (le_brk heap rs).1
  apart := by
    intro k rs m a _ ha r hr
    rw [(sbrkAbove_some ha).1]
    exact .inr ((le_brk heap rs).2 r hr)
  limit := fun k rs m a _ ha => (sbrkAbove_some ha).2

/-- A program that has not called the allocator. -/
def emptyWorld : World := ⟨⟨fun _ => ⟨0, 0⟩, 0, 0, []⟩, ∅, fun _ => 0⟩

theorem reach_emptyWorld : Reach base sbrk emptyWorld := .start _ rfl rfl rfl

theorem malloc_returns_memory_hundred :
    ∃ s r, Returns (fun fuel => malloc 16 (sbrkAbove 4096) fuel emptyWorld.st 100) (s, r) ∧
      (r = 0 ∨ ∀ x, r ≤ x → x < r + 100 → s.Got x) := by
  obtain ⟨⟨s, r, hr, h, -⟩, -⟩ := malloc_returns_memory (show 0 < 16 by decide)
    (sbrkAbove_fresh (show 16 + unit ≤ 4096 by decide)) reach_emptyWorld
    (show 100 < 2 ^ 32 by decide) (.inl (by decide))
  exact ⟨s, r, hr, h.imp_right fun h x h1 h2 => (h x h1 h2).1⟩

/-- The product for the largest request wraps around to 16: `sbrk` is asked for one header, and the
block that `malloc` returns lies behind the memory that it gave. -/
theorem malloc_wraps :
    sbrkArg (moreUnits (units (2 ^ 32 - 1))) = 16 ∧
      ∃ s, malloc 16 (sbrkAbove 4096) 3 emptyWorld.st (2 ^ 32 - 1) = some (s, 4112) ∧
        s.regions = [(4096, 16)] ∧ ¬s.Got 4112 := by
  refine ⟨by decide, _, rfl, rfl, ?_⟩
  rintro ⟨r, hr, -, h2⟩
  obtain rfl : r = (4096, 16) := List.mem_singleton.1 hr
  exact absurd h2 (by decide)

end Xv6.User.Malloc
