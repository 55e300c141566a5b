import Xv6.Fs.Held

/-!
# Freeing an inode

`itrunc` frees the blocks of a file, and the last `iput` of an inode without links frees the inode.
No block is named twice, so that `bfree` never meets a free block, and the other files are not
touched.
-/

namespace Xv6.Fs

open Function Finset Xv6.Threads

/-! ## Sets of blocks -/

/-- The blocks that `f` names in the `n` places from `i` on. -/
def named (f : ℕ → ℕ) (i n : ℕ) : Finset ℕ := ((Finset.Ico i (i + n)).image f).erase 0

section named

variable {f g : ℕ → ℕ} {b i j n m : ℕ}

theorem mem_named : b ∈ named f i n ↔ b ≠ 0 ∧ ∃ k, i ≤ k ∧ k < i + n ∧ f k = b := by
  simp [named, and_assoc]

theorem named_zero : named f i 0 = ∅ := by simp [named]

theorem named_congr (h : ∀ k, i ≤ k → k < i + n → g k = f k) : named g i n = named f i n := by
  unfold named
  congr 1
  refine image_congr fun k hk => ?_
  obtain ⟨h1, h2⟩ := mem_Ico.1 (mem_coe.1 hk)
  exact h k h1 h2

theorem named_add : named f i (m + n) = named f i m ∪ named f (i + m) n := by
  unfold named
  rw [← erase_union_distrib, ← image_union, Finset.Ico_union_Ico_eq_Ico (by omega)
    (by omega), Nat.add_assoc]

theorem named_one : named f i 1 = if f i = 0 then ∅ else {f i} := by
  ext b
  rw [mem_named]
  split_ifs with h
  · simp only [notMem_empty, iff_false]
    rintro ⟨h0, k, h1, h2, rfl⟩
    exact h0 (by rwa [show k = i by omega])
  · rw [mem_singleton]
    constructor
    · rintro ⟨-, k, h1, h2, rfl⟩
      rw [show k = i by omega]
    · rintro rfl
      exact ⟨h, i, le_rfl, by omega, rfl⟩

theorem named_succ : named f i (n + 1) = (if f i = 0 then ∅ else {f i}) ∪ named f (i + 1) n := by
  rw [Nat.add_comm n 1, named_add, named_one]

theorem named_shift (h : ∀ k < n, g (j + k) = f (i + k)) : named g j n = named f i n := by
  ext b
  rw [mem_named, mem_named]
  refine and_congr_right fun _ => ⟨?_, ?_⟩
  · rintro ⟨k, h1, h2, rfl⟩
    refine ⟨i + (k - j), by omega, by omega, ?_⟩
    rw [← h (k - j) (by omega), Nat.add_sub_cancel' h1]
  · rintro ⟨k, h1, h2, rfl⟩
    refine ⟨j + (k - i), by omega, by omega, ?_⟩
    rw [h (k - i) (by omega), Nat.add_sub_cancel' h1]

end named

variable {T X : Type} {i j : ℕ} {B C : Finset ℕ}

/-- The state in which the blocks of `B` are free. -/
def St.free (s : St T X) (B : Finset ℕ) : St T X :=
  { s with bit := fun b => if b ∈ B then false else s.bit b }

theorem free_empty (s : St T X) : s.free ∅ = s := rfl

theorem free_blk (s : St T X) : (s.free B).blk = s.blk := rfl

theorem free_free (s : St T X) : (s.free B).free C = s.free (B ∪ C) := by
  unfold St.free
  congr 1
  funext b
  simp only [mem_union]
  by_cases hC : b ∈ C
  · rw [if_pos hC, if_pos (.inr hC)]
  · rw [if_neg hC]
    exact if_congr (by tauto) rfl rfl

/-- Every place from `i` on, `n` of them, names a marked block, and no two the same one. -/
def Marks (bit : ℕ → Bool) (f : ℕ → ℕ) (i n : ℕ) : Prop :=
  ∀ k, i ≤ k → k < i + n → f k ≠ 0 →
    bit (f k) = true ∧ ∀ l, i ≤ l → l < i + n → f l = f k → l = k

section marks

variable {bit : ℕ → Bool} {f g : ℕ → ℕ} {n m : ℕ}

theorem Marks.mono (h : Marks bit f i n) (hj : i ≤ j) (hm : j + m ≤ i + n) : Marks bit f j m := by
  intro k h1 h2 h0
  obtain ⟨hb, hu⟩ := h k (by omega) (by omega) h0
  exact ⟨hb, fun l h3 h4 => hu l (by omega) (by omega)⟩

theorem Marks.congr (h : Marks bit f i n) (hg : ∀ k, i ≤ k → k < i + n → g k = f k) :
    Marks bit g i n := by
  intro k h1 h2 h0
  rw [hg k h1 h2] at h0 ⊢
  refine ⟨(h k h1 h2 h0).1, fun l h3 h4 hl => (h k h1 h2 h0).2 l h3 h4 ?_⟩
  rwa [hg l h3 h4] at hl

theorem Marks.shift (h : Marks bit f i n) (hg : ∀ k < n, g (j + k) = f (i + k)) :
    Marks bit g j n := by
  intro k h1 h2 h0
  have hk : g k = f (i + (k - j)) := by rw [← hg _ (by omega), Nat.add_sub_cancel' h1]
  rw [hk] at h0 ⊢
  obtain ⟨hb, hu⟩ := h _ (by omega) (by omega) h0
  refine ⟨hb, fun l h3 h4 hl => ?_⟩
  rw [show g l = f (i + (l - j)) by rw [← hg _ (by omega), Nat.add_sub_cancel' h3]] at hl
  have := hu _ (by omega) (by omega) hl
  omega

/-- Freeing the blocks of other places keeps the marks. -/
theorem Marks.free {s : St T X} (h : Marks s.bit f i n) (hd : i ≤ j) (hm : j + m ≤ i + n) {B : Finset ℕ}
    (hB : ∀ b ∈ B, ∃ l, i ≤ l ∧ l < i + n ∧ f l = b ∧ ¬ (j ≤ l ∧ l < j + m)) :
    Marks (s.free B).bit f j m := by
  intro k h1 h2 h0
  obtain ⟨hb, hu⟩ := h k (by omega) (by omega) h0
  refine ⟨?_, fun l h3 h4 => hu l (by omega) (by omega)⟩
  show (if f k ∈ B then false else s.bit (f k)) = true
  rw [if_neg, hb]
  intro hmem
  obtain ⟨l, h3, h4, hl, hout⟩ := hB _ hmem
  obtain rfl := hu l h3 h4 hl
  exact hout ⟨h1, h2⟩

end marks

/-! ## `itrunc` -/

namespace Ip

/-- The inode without the `n` addresses from `i` on. -/
def clear (ip : Ip) (i n : ℕ) : Ip :=
  { ip with d := { ip.d with addrs := fun k => if i ≤ k ∧ k < i + n then 0 else ip.d.addrs k } }

theorem clear_addrs (ip : Ip) (i n k : ℕ) :
    (ip.clear i n).d.addrs k = if i ≤ k ∧ k < i + n then 0 else ip.d.addrs k := rfl

theorem clear_zero (ip : Ip) : ip.clear i 0 = ip := by
  unfold clear
  simp only [show ∀ k, ¬ (i ≤ k ∧ k < i + 0) from fun k => by omega, if_false]

theorem clear_skip {ip : Ip} (h : ip.d.addrs i = 0) (n : ℕ) : ip.clear (i + 1) n = ip.clear i (n + 1) := by
  have : (fun k => if i + 1 ≤ k ∧ k < i + 1 + n then 0 else ip.d.addrs k) =
      fun k => if i ≤ k ∧ k < i + (n + 1) then 0 else ip.d.addrs k := by
    funext k
    by_cases hk : k = i
    · subst hk
      rw [if_neg (by omega), if_pos (by omega), h]
    · exact if_congr (by omega) rfl rfl
  unfold clear
  rw [this]

theorem clear_setAddr (ip : Ip) (n : ℕ) : (ip.setAddr i 0).clear (i + 1) n = ip.clear i (n + 1) := by
  rw [clear_skip (update_self ..)]
  have : (fun k => if i ≤ k ∧ k < i + (n + 1) then 0 else update ip.d.addrs i 0 k) =
      fun k => if i ≤ k ∧ k < i + (n + 1) then 0 else ip.d.addrs k := by
    funext k
    by_cases hk : k = i
    · subst hk
      rw [if_pos (by omega), if_pos (by omega)]
    · rw [update_of_ne hk]
  unfold clear setAddr
  rw [this]

/-- The inode without its contents. -/
def truncated (ip : Ip) : Ip := (ip.clear 0 (ndirect + 1)).setSize 0

end Ip

/-- The blocks of a file, with its indirect block. -/
def owned (blk : ℕ → Block) (d : Dinode) : Finset ℕ := named (refAt blk d) 0 nslot

variable {V : Env T} [DecidableEq T] {sb : Sb} {ly : Layout} {t : T} {L : Finset ℕ} {s : St T V.X}
  {ip : Ip} {n b : ℕ}

theorem bfree_does (h : s.bit b) :
    Does sb ly t (bfree b : P V Unit) s L fun _ s' L' => s' = s.free {b} ∧ L' = L ∪ {ly.bblock b} := by
  have he : exec (V := V) sb (.bclear b) t s = .done () (s.setBit b false) := by
    show execBclear s b = _
    unfold execBclear
    rw [if_neg (by rw [h]; decide)]
  refine .act he (.ret ⟨?_, rfl⟩)
  unfold St.setBit St.free
  congr 1
  funext x
  by_cases hx : x = b
  · rw [hx, update_self, if_pos (mem_singleton_self b)]
  · rw [update_of_ne hx, if_neg (by simpa using hx)]

theorem freeDirect_does (n : ℕ) : ∀ {i : ℕ} {ip : Ip} {s : St T V.X} {L : Finset ℕ},
    Marks s.bit ip.d.addrs i n →
    Does sb ly t (freeDirect ip i n) s L fun ip' s' L' => ip' = ip.clear i n ∧
      s' = s.free (named ip.d.addrs i n) ∧ L' = L ∪ (named ip.d.addrs i n).image ly.bblock := by
  induction n with
  | zero =>
    intro i ip s L _
    refine .ret ⟨ip.clear_zero.symm, ?_, ?_⟩
    · rw [named_zero, free_empty]
    · rw [named_zero, image_empty, union_empty]
  | succ n ih =>
    intro i ip s L h
    unfold freeDirect
    rw [named_succ]
    split_ifs with h0
    · refine (ih (h.mono (by omega) (by omega))).mono ?_
      rintro ip' s' L' ⟨rfl, rfl, rfl⟩
      rw [empty_union]
      exact ⟨Ip.clear_skip h0 n, rfl, rfl⟩
    · refine .bind ((bfree_does (h i le_rfl (by omega) h0).1).mono ?_)
      rintro - s₁ L₁ ⟨rfl, rfl⟩
      have hkeep : ∀ k, i + 1 ≤ k → k < i + 1 + n → (ip.setAddr i 0).d.addrs k = ip.d.addrs k :=
        fun k hk _ => update_of_ne (by omega) ..
      have hm : Marks (s.free {ip.d.addrs i}).bit ip.d.addrs (i + 1) n := by
        refine h.free (by omega) (by omega) fun b hb => ?_
        exact ⟨i, le_rfl, by omega, (mem_singleton.1 hb).symm, by omega⟩
      refine (ih (hm.congr hkeep)).mono ?_
      rintro ip' s' L' ⟨rfl, rfl, rfl⟩
      rw [named_congr hkeep]
      refine ⟨Ip.clear_setAddr ip n, ?_, ?_⟩
      · rw [free_free]
      · rw [image_union, image_singleton, union_assoc]

theorem freeWords_does (a : Block) (n : ℕ) : ∀ {j : ℕ} {s : St T V.X} {L : Finset ℕ},
    Marks s.bit a.word j n →
    Does sb ly t (freeWords a j n) s L fun _ s' L' =>
      s' = s.free (named a.word j n) ∧ L' = L ∪ (named a.word j n).image ly.bblock := by
  induction n with
  | zero =>
    intro j s L _
    refine .ret ⟨?_, ?_⟩
    · rw [named_zero, free_empty]
    · rw [named_zero, image_empty, union_empty]
  | succ n ih =>
    intro j s L h
    unfold freeWords
    rw [named_succ]
    split_ifs with h0
    · refine (ih (h.mono (by omega) (by omega))).mono ?_
      rintro - s' L' ⟨rfl, rfl⟩
      rw [empty_union]
      exact ⟨rfl, rfl⟩
    · refine .bind ((bfree_does (h j le_rfl (by omega) h0).1).mono ?_)
      rintro - s₁ L₁ ⟨rfl, rfl⟩
      have hm : Marks (s.free {a.word j}).bit a.word (j + 1) n := by
        refine h.free (by omega) (by omega) fun b hb => ?_
        exact ⟨j, le_rfl, by omega, (mem_singleton.1 hb).symm, by omega⟩
      refine (ih hm).mono ?_
      rintro - s' L' ⟨rfl, rfl⟩
      refine ⟨?_, ?_⟩
      · rw [free_free]
      · rw [image_union, image_singleton, union_assoc]

/-- The references that `freeIndirect` frees. -/
theorem freeIndirect_does (h : Marks s.bit (refAt s.blk ip.d) ndirect (1 + nindirect)) :
    Does sb ly t (freeIndirect ip) s L fun ip' s' L' => ip' = ip.setAddr ndirect 0 ∧
      s' = s.free (named (refAt s.blk ip.d) ndirect (1 + nindirect)) ∧
      L' = L ∪ (named (refAt s.blk ip.d) ndirect (1 + nindirect)).image ly.bblock := by
  have hind : refAt s.blk ip.d ndirect = ip.d.addrs ndirect := refAt_direct le_rfl
  unfold freeIndirect
  split_ifs with h0
  · have hnone : named (refAt s.blk ip.d) ndirect (1 + nindirect) = ∅ := by
      refine eq_empty_of_forall_notMem fun b hb => ?_
      obtain ⟨hb0, k, h1, h2, rfl⟩ := mem_named.1 hb
      rcases h1.eq_or_lt with rfl | hlt
      · exact hb0 (hind.trans h0)
      · exact hb0 (refAt_none hlt h0)
    refine .ret ⟨?_, ?_, ?_⟩
    · unfold Ip.setAddr
      rw [← h0, update_eq_self]
    · rw [hnone, free_empty]
    · rw [hnone, image_empty, union_empty]
  · have hword : ∀ k < nindirect,
        (s.blk (ip.d.addrs ndirect)).word (0 + k) = refAt s.blk ip.d (ndirect + 1 + k) := by
      intro k _
      rw [refAt_word (by omega) h0, Nat.zero_add, Nat.add_sub_cancel_left]
    have hmw := (h.mono (j := ndirect + 1) (m := nindirect) (by omega) (by omega)).shift hword
    have hnamed := named_shift hword
    have hsplit : named (refAt s.blk ip.d) ndirect (1 + nindirect) =
        {ip.d.addrs ndirect} ∪ named (refAt s.blk ip.d) (ndirect + 1) nindirect := by
      rw [named_add, named_one, hind, if_neg h0]
    refine .bind (.act rfl (.ret ?_))
    rw [show L ∪ logged ly (.bread (ip.d.addrs ndirect) : Act V.E) (s.blk (ip.d.addrs ndirect)) = L
      from union_empty L]
    refine .bind ((freeWords_does _ _ hmw).mono ?_)
    rintro - s₁ L₁ ⟨rfl, rfl⟩
    rw [hnamed]
    have hbit : (s.free (named (refAt s.blk ip.d) (ndirect + 1) nindirect)).bit (ip.d.addrs ndirect) =
        true := by
      have := h.free (j := ndirect) (m := 1) (B := named (refAt s.blk ip.d) (ndirect + 1) nindirect)
        le_rfl (by omega) fun b hb => by
          obtain ⟨-, k, h1, h2, rfl⟩ := mem_named.1 hb
          exact ⟨k, by omega, by omega, rfl, by omega⟩
      have := (this ndirect le_rfl (by omega) (by rwa [hind])).1
      rwa [hind] at this
    refine .bind ((bfree_does hbit).mono ?_)
    rintro - s₂ L₂ ⟨rfl, rfl⟩
    refine .ret ⟨rfl, ?_, ?_⟩
    · rw [free_free, hsplit, union_comm]
    · rw [hsplit, image_union, image_singleton, union_assoc, union_comm
        (image _ _)]

theorem itrunc_does (h : Marks s.bit (refAt s.blk ip.d) 0 nslot) :
    Does sb ly t (itrunc ip) s L fun ip' s' L' => ip' = ip.truncated ∧
      s' = (s.free (owned s.blk ip.d)).setDin ip.inum ip.truncated.d ∧
      L' = L ∪ (owned s.blk ip.d).image ly.bblock ∪ {ly.iblock ip.inum} := by
  have hlen : nslot = ndirect + (1 + nindirect) := by
    unfold nslot
    omega
  have haddrs : ∀ k, 0 ≤ k → k < 0 + ndirect → ip.d.addrs k = refAt s.blk ip.d k :=
    fun k _ hk => (refAt_direct (by omega)).symm
  have hmd := (h.mono (j := 0) (m := ndirect) le_rfl (by omega)).congr haddrs
  refine .bind ((freeDirect_does ndirect hmd).mono ?_)
  rintro ip₁ s₁ L₁ ⟨rfl, rfl, rfl⟩
  rw [named_congr haddrs]
  -- the indirect block and what it lists are still there
  have href : ∀ k, ndirect ≤ k → k < ndirect + (1 + nindirect) →
      refAt (s.free (named (refAt s.blk ip.d) 0 ndirect)).blk (ip.clear 0 ndirect).d k =
        refAt s.blk ip.d k := by
    intro k h1 _
    have hind : (ip.clear 0 ndirect).d.addrs ndirect = ip.d.addrs ndirect := by
      rw [Ip.clear_addrs, if_neg (by omega)]
    rw [free_blk]
    rcases h1.eq_or_lt with rfl | hlt
    · rw [refAt_direct le_rfl, refAt_direct le_rfl, hind]
    · by_cases h0 : ip.d.addrs ndirect = 0
      · rw [refAt_none hlt (hind.trans h0), refAt_none hlt h0]
      · rw [refAt_word hlt (by rwa [hind]), refAt_word hlt h0, hind]
  have hmi : Marks (s.free (named (refAt s.blk ip.d) 0 ndirect)).bit (refAt s.blk ip.d) ndirect
      (1 + nindirect) := by
    refine h.free (Nat.zero_le _) (by omega) fun b hb => ?_
    obtain ⟨-, k, h1, h2, rfl⟩ := mem_named.1 hb
    exact ⟨k, by omega, by omega, rfl, by omega⟩
  refine .bind ((freeIndirect_does (hmi.congr href)).mono ?_)
  rintro ip₂ s₂ L₂ ⟨rfl, rfl, rfl⟩
  rw [named_congr href]
  have hip : ((ip.clear 0 ndirect).setAddr ndirect 0).setSize 0 = ip.truncated := by
    have : update (fun k => if 0 ≤ k ∧ k < 0 + ndirect then 0 else ip.d.addrs k) ndirect 0 =
        fun k => if 0 ≤ k ∧ k < 0 + (ndirect + 1) then 0 else ip.d.addrs k := by
      funext k
      by_cases hk : k = ndirect
      · rw [hk, update_self, if_pos (by omega)]
      · rw [update_of_ne hk]
        exact if_congr (by omega) rfl rfl
    unfold Ip.truncated Ip.setSize Ip.setAddr Ip.clear
    dsimp only
    rw [this]
  have hall : owned s.blk ip.d = named (refAt s.blk ip.d) 0 ndirect ∪
      named (refAt s.blk ip.d) ndirect (1 + nindirect) := by
    unfold owned
    rw [hlen, named_add, Nat.zero_add]
  refine .act rfl (.ret ⟨hip, ?_, ?_⟩)
  · rw [free_free, hip, hall]
    rfl
  · rw [hall, image_union, union_assoc L]
    rfl

/-! ## Reclaiming inodes -/

/-- The inode after `iput` has freed it. -/
def Dinode.freed (d : Dinode) : Dinode :=
  { d with type := .free, size := 0, addrs := fun k => if k ≤ ndirect then 0 else d.addrs k }

theorem truncated_freed (ip : Ip) : (ip.truncated.setType .free).d = ip.d.freed := by
  have : (fun k => if 0 ≤ k ∧ k < 0 + (ndirect + 1) then 0 else ip.d.addrs k) =
      fun k => if k ≤ ndirect then 0 else ip.d.addrs k := by
    funext k
    exact if_congr (by omega) rfl rfl
  unfold Ip.truncated Ip.setType Ip.setSize Ip.clear Dinode.freed
  dsimp only
  rw [this]

def View.blocks (v : View) (i : ℕ) : Finset ℕ := owned v.blk (v.din i)

/-- The inodes in `S` are freed, with their blocks. -/
def View.reclaim (v : View) (S : Finset ℕ) : View where
  bit b := if b ∈ S.biUnion v.blocks then false else v.bit b
  blk := v.blk
  din i := if i ∈ S then (v.din i).freed else v.din i

section reclaim

variable {v : View} {S S' : Finset ℕ} {i j k b : ℕ}

theorem mem_blocks_iff : b ∈ v.blocks i ↔ b ≠ 0 ∧ ∃ k < nslot, v.ref i k = b := by
  unfold View.blocks owned
  rw [mem_named]
  simp only [Nat.zero_le, true_and, Nat.zero_add]
  rfl

theorem reclaim_empty (v : View) : v.reclaim ∅ = v := rfl

theorem bit_reclaim :
    (v.reclaim S).bit b = if b ∈ S.biUnion v.blocks then false else v.bit b := rfl

theorem din_reclaim (h : j ∉ S) : (v.reclaim S).din j = v.din j := if_neg h

theorem din_reclaim_mem (h : j ∈ S) : (v.reclaim S).din j = (v.din j).freed := if_pos h

theorem live_reclaim : (v.reclaim S).Live j ↔ v.Live j ∧ j ∉ S := by
  unfold View.Live
  by_cases hj : j ∈ S
  · rw [din_reclaim_mem hj]
    exact ⟨fun hc => absurd rfl hc, fun hc => absurd hj hc.2⟩
  · rw [din_reclaim hj]
    exact ⟨fun hc => ⟨hc, hj⟩, fun hc => hc.1⟩

theorem ref_reclaim (h : j ∉ S) : (v.reclaim S).ref j k = v.ref j k := by
  unfold View.ref
  rw [din_reclaim h]
  rfl

theorem file_reclaim (h : j ∉ S) : (v.reclaim S).file j = v.file j := by
  funext n
  exact View.file_congr (ref_reclaim h) fun _ _ => rfl

theorem content_reclaim (h : j ∉ S) : (v.reclaim S).content j = v.content j := by
  unfold View.content View.byte
  rw [din_reclaim h, file_reclaim h]

theorem dir_reclaim (h : j ∉ S) : (v.reclaim S).dir j = v.dir j := by
  unfold View.dir
  rw [content_reclaim h]

theorem blocks_reclaim (h : j ∉ S) : (v.reclaim S).blocks j = v.blocks j := by
  unfold View.blocks
  rw [din_reclaim h]
  rfl

/-- Inodes that are freed one after the other. -/
theorem reclaim_reclaim (h : Disjoint S S') : (v.reclaim S).reclaim S' = v.reclaim (S ∪ S') := by
  have hb : S'.biUnion (v.reclaim S).blocks = S'.biUnion v.blocks :=
    biUnion_congr rfl fun j hj => blocks_reclaim (disjoint_right.1 h hj)
  have hbit : ((v.reclaim S).reclaim S').bit = (v.reclaim (S ∪ S')).bit := by
    funext b
    rw [bit_reclaim, bit_reclaim, bit_reclaim, hb, union_biUnion]
    by_cases h' : b ∈ S'.biUnion v.blocks
    · rw [if_pos h', if_pos (mem_union_right _ h')]
    · rw [if_neg h']
      exact if_congr (by simp [h']) rfl rfl
  have hdin : ((v.reclaim S).reclaim S').din = (v.reclaim (S ∪ S')).din := by
    funext j
    by_cases h' : j ∈ S'
    · rw [din_reclaim_mem h', din_reclaim (disjoint_right.1 h h'),
        din_reclaim_mem (mem_union_right _ h')]
    · rw [din_reclaim h']
      by_cases hj : j ∈ S
      · rw [din_reclaim_mem hj, din_reclaim_mem (mem_union_left _ hj)]
      · rw [din_reclaim hj, din_reclaim (by simp [hj, h'])]
  exact View.ext hbit rfl hdin

theorem View.Wf.marks (hw : v.Wf sb) (hi : v.Live i) : Marks v.bit (v.ref i) 0 nslot := by
  intro k _ hk h0
  rw [Nat.zero_add] at hk
  refine ⟨(hw.used i k hi hk h0).2, fun l _ hl he => ?_⟩
  rw [Nat.zero_add] at hl
  exact (hw.unique i i k l hi hi hk hl h0 he.symm).2.symm

theorem notMem_blocks (hw : v.Wf sb) (hi : v.Live i) (hj : v.Live j) (hij : j ≠ i) (hk : k < nslot) :
    v.ref j k ∉ v.blocks i := by
  intro hmem
  obtain ⟨h0, l, hl, he⟩ := mem_blocks_iff.1 hmem
  exact hij (hw.unique j i k l hj hi hk hl h0 he.symm).1

theorem View.Wf.reclaim (hw : v.Wf sb) (hS : ∀ i ∈ S, v.Live i) : (v.reclaim S).Wf sb where
  used j k hj hk h0 := by
    obtain ⟨hj, hjS⟩ := live_reclaim.1 hj
    rw [ref_reclaim hjS] at h0 ⊢
    refine ⟨(hw.used j k hj hk h0).1, ?_⟩
    show (if v.ref j k ∈ S.biUnion v.blocks then false else _) = true
    rw [if_neg, (hw.used j k hj hk h0).2]
    intro hmem
    obtain ⟨i, hi, hmem⟩ := mem_biUnion.1 hmem
    exact notMem_blocks hw (hS i hi) hj (fun hc => hjS (hc ▸ hi)) hk hmem
  unique i j k l hi hj hk hl h0 he := by
    obtain ⟨hi, hiS⟩ := live_reclaim.1 hi
    obtain ⟨hj, hjS⟩ := live_reclaim.1 hj
    rw [ref_reclaim hiS] at h0 he
    rw [ref_reclaim hjS] at he
    exact hw.unique i j k l hi hj hk hl h0 he
  reserved b hb := by
    show (if b ∈ S.biUnion v.blocks then false else _) = true
    rw [if_neg, hw.reserved b hb]
    intro hmem
    obtain ⟨i, hi, hmem⟩ := mem_biUnion.1 hmem
    obtain ⟨h0, k, hk, rfl⟩ := mem_blocks_iff.1 hmem
    have := hw.data i k (hS i hi) hk h0
    omega
  data j k hj hk h0 := by
    obtain ⟨hj, hjS⟩ := live_reclaim.1 hj
    rw [ref_reclaim hjS] at h0 ⊢
    exact hw.data j k hj hk h0

end reclaim

/-! ## The last `iput` -/

/-- What `iput` logs when it frees inode `i`. -/
def freeLog (ly : Layout) (v : View) (i : ℕ) : Finset ℕ := (v.blocks i).image ly.bblock ∪ {ly.iblock i}

variable {tab : SlotId → Inode T} {c : SlotId → ℕ} {Λ : Finset SlotId} {k : SlotId}

/-- The entry of an inode that has been freed. -/
def Inode.put (x : Inode T) (d : Dinode) : Inode T :=
  { x with ref := x.ref - 1, lock := none, valid := false, d := d }

theorem ifree_does (h : Marks s.bit (refAt s.blk ip.d) 0 nslot) :
    Does sb ly t (ifree ip) s L fun _ s' L' =>
      s' = ((s.free (owned s.blk ip.d)).setDin ip.inum ip.d.freed).setInode ip.slot
        (Inode.put · ip.d.freed) ∧
      L' = L ∪ (owned s.blk ip.d).image ly.bblock ∪ {ly.iblock ip.inum} := by
  refine .bind ((itrunc_does h).mono ?_)
  rintro ip₁ s₁ L₁ ⟨rfl, rfl, rfl⟩
  refine .act rfl (.act rfl (.act rfl (.act rfl (.ret ⟨?_, ?_⟩))))
  · rw [setInode_setInode, setInode_setInode, truncated_freed]
    have hdin : ((s.free (owned s.blk ip.d)).setDin ip.inum ip.truncated.d).setDin
        ip.inum ip.d.freed = (s.free (owned s.blk ip.d)).setDin ip.inum ip.d.freed := by
      unfold St.setDin
      dsimp only
      rw [update_idem]
    rw [show (ip.truncated.setType .free).inum = ip.inum from rfl, hdin]
    rfl
  · simp only [logged, union_empty]
    rw [show (ip.truncated.setType .free).inum = ip.inum from rfl,
      union_assoc _ {ly.iblock ip.inum},
      union_self]

/-- The table after the last reference to inode `i` was dropped and the inode was freed. -/
theorem Held.freed {X : Type} {s s' : St T X} (h : Held t tab (c + Pi.single k 1) Λ s) (hk : k ∉ Λ)
    (hone : (s.inode k).ref = 1) {d : Dinode} (hself : s'.inode k = (s.inode k).put d)
    (hother : ∀ l ≠ k, s'.inode l = s.inode l)
    (hdisk : s'.disk = s.disk.reclaim {(s.inode k).inum}) (hr : s'.reading = s.reading) :
    Held t tab c Λ s' := by
  have htab : (tab k).ref = 0 ∧ c k = 0 := by
    have href := h.ref k
    have := h.nonneg k
    rw [Pi.add_apply, Pi.single_eq_same] at href
    omega
  have hused : ∀ l, 0 < (s'.inode l).ref → l ≠ k := by
    rintro l hl rfl
    rw [hself] at hl
    have : 0 < (s.inode l).ref - 1 := hl
    omega
  have hne : ∀ l ≠ k, 0 < (s.inode l).ref →
      (s.inode l).inum ∉ ({(s.inode k).inum} : Finset ℕ) := by
    intro l hl hp hmem
    exact hl (h.once l k hp (by omega) (mem_singleton.1 hmem))
  refine
    { nonneg := h.nonneg
      ref := fun l => ?_
      inum := fun l hl => ?_
      lock := fun l => ?_
      locked := fun l hl => ?_
      once := fun a b ha hb hab => ?_
      live := fun l hl => ?_
      synced := fun l hl hp hv => ?_
      reading := by rw [hr, h.reading] }
  · by_cases hl : l = k
    · rw [hl, hself, htab.1, htab.2]
      show (s.inode k).ref - 1 = 0 + ((0 : ℕ) : ℤ)
      omega
    · rw [hother l hl, h.ref l, Pi.add_apply, Pi.single_eq_of_ne hl, Nat.add_zero]
  · have hlk : l ≠ k := by
      rintro rfl
      omega
    rw [hother l hlk, h.inum l hl]
  · by_cases hl : l = k
    · rw [hl, hself, if_neg hk]
      rfl
    · rw [hother l hl, h.lock l]
  · have hlk : l ≠ k := by
      rintro rfl
      exact hk hl
    rw [hother l hlk]
    exact h.locked l hl
  · have hak := hused a ha
    have hbk := hused b hb
    rw [hother a hak] at ha hab
    rw [hother b hbk] at hb hab
    exact h.once a b ha hb hab
  · have hlk := hused l hl
    rw [hother l hlk] at hl ⊢
    rw [hdisk]
    exact live_reclaim.2 ⟨h.live l hl, hne l hlk hl⟩
  · have hlk := hused l hp
    rw [hother l hlk] at hp hv ⊢
    have hdin : s'.disk.din (s.inode l).inum = s.disk.din (s.inode l).inum := by
      rw [hdisk, din_reclaim (hne l hlk hp)]
    rw [h.synced l hl hp hv]
    exact hdin.symm

/-- `iput` of the last reference to an inode without links frees the inode and its blocks. -/
theorem iput_frees (h : Held t tab (c + Pi.single k 1) Λ s) (hk : k ∉ Λ) (hw : s.disk.Wf sb)
    (hone : (s.inode k).ref = 1) (hvalid : (s.inode k).valid)
    (hn : (s.din (s.inode k).inum).nlink = 0) :
    Does sb ly t (iput k : P V Unit) s L fun _ s' L' => Held t tab c Λ s' ∧
      s'.disk = s.disk.reclaim {(s.inode k).inum} ∧ Elsewhere s s' ∧
      (∀ l, (s'.inode l).inum = (s.inode l).inum) ∧
      L' = L ∪ freeLog ly s.disk (s.inode k).inum := by
  have hpos : 0 < (s.inode k).ref := by omega
  have hd : (s.inode k).d = s.din (s.inode k).inum := h.synced k hk hpos hvalid
  have hlock : (s.inode k).lock = none := by rw [h.lock k, if_neg hk]
  have hbegin : exec (V := V) sb (.iputBegin k) t s =
      .done (some ((s.inode k).inum, s.din (s.inode k).inum))
        (s.setInode k fun ip => { ip with lock := some t }) := by
    show execIputBegin t s k = _
    unfold execIputBegin
    rw [hd, if_pos ⟨hone, hvalid, hn⟩, hlock]
  have hmarks : Marks s.bit (refAt s.blk (s.din (s.inode k).inum)) 0 nslot :=
    hw.marks (h.live k hpos)
  refine .act hbegin ?_
  rw [show L ∪ logged ly (.iputBegin k : Act V.E) _ = L from union_empty L]
  have hfree : Does sb ly t (ifree ⟨k, (s.inode k).inum, s.din (s.inode k).inum⟩)
    (s.setInode k fun ip => { ip with lock := some t }) L _ := ifree_does hmarks
  apply hfree.mono
  rintro - s' L' ⟨hs', rfl⟩
  dsimp only at hs' ⊢
  have hblocks : owned (s.setInode k fun ip => { ip with lock := some t }).blk
      (s.din (s.inode k).inum) = s.disk.blocks (s.inode k).inum := rfl
  rw [hblocks] at hs' ⊢
  generalize hi : (s.inode k).inum = i at hs' ⊢
  obtain ⟨B, hB⟩ : ∃ B, B = s.disk.blocks i := ⟨_, rfl⟩
  rw [← hB] at hs' ⊢
  have hself : s'.inode k = (s.inode k).put (s.din i).freed := by
    rw [hs', setInode_self]
    show ((s.setInode k fun ip => { ip with lock := some t }).inode k).put _ = _
    rw [setInode_self]
    rfl
  have hother : ∀ l ≠ k, s'.inode l = s.inode l := by
    intro l hl
    rw [hs', setInode_ne hl]
    show (s.setInode k fun ip => { ip with lock := some t }).inode l = _
    rw [setInode_ne hl]
  have hdisk : s'.disk = s.disk.reclaim {i} := by
    rw [hs']
    refine View.ext ?_ rfl ?_
    · funext b
      rw [bit_reclaim, singleton_biUnion, ← hB]
      rfl
    · funext j
      show update s.din i (s.din i).freed j = _
      by_cases hj : j = i
      · rw [hj, update_self, din_reclaim_mem (mem_singleton_self i)]
        rfl
      · rw [update_of_ne hj, din_reclaim (by simpa using hj)]
        rfl
  refine ⟨h.freed hk hone hself hother (by rw [hi]; exact hdisk) ?_, hdisk, ?_, fun l => ?_, ?_⟩
  · rw [hs']
    rfl
  · rw [hs']
    exact ⟨rfl, rfl, rfl⟩
  · by_cases hl : l = k
    · rw [hl, hself]
      rfl
    · rw [hother l hl]
  · unfold freeLog
    rw [union_assoc, hB]

end Xv6.Fs
