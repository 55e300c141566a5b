import Xv6.Fs.Model

/-!
# Block references and files

An inode names its blocks through `addrs` and through the indirect block. `refAt` numbers these
references: the direct ones, the indirect block, and the words of the indirect block. `View.Wf` says
that no block has two references and that every referenced block is marked in use.

Over it, `View.file` is what the layers above see: every inode is a partial map from block indices
to blocks. The operations on blocks are described by what they do to these maps.
-/

namespace Xv6.Fs

open Function

/-- The number of references an inode has. -/
def nslot : ℕ := ndirect + 1 + nindirect

/-- The reference that leads to block `bn` of a file. -/
def slotOf (bn : ℕ) : ℕ := if bn < ndirect then bn else bn + 1

/-- Reference `k` of an inode: the block it names, or 0. -/
def refAt (blk : ℕ → Block) (d : Dinode) (k : ℕ) : ℕ :=
  if k ≤ ndirect then d.addrs k
  else if d.addrs ndirect = 0 then 0
  else (blk (d.addrs ndirect)).word (k - (ndirect + 1))

/-- The bitmap, the blocks and the inodes. -/
@[ext] structure View where
  bit : ℕ → Bool
  blk : ℕ → Block
  din : ℕ → Dinode

namespace View

variable (v : View) (sb : Sb)

def Live (i : ℕ) : Prop := (v.din i).type ≠ .free

def ref (i k : ℕ) : ℕ := refAt v.blk (v.din i) k

def file (i bn : ℕ) : Option Block :=
  if maxFile ≤ bn ∨ v.ref i (slotOf bn) = 0 then none else some (v.blk (v.ref i (slotOf bn)))

/-- Every block is referenced at most once, referenced blocks are data blocks marked in use, and so
are the blocks in front of the data blocks. -/
structure Wf : Prop where
  used : ∀ i k, v.Live i → k < nslot → v.ref i k ≠ 0 →
    v.ref i k < sb.size ∧ v.bit (v.ref i k) = true
  unique : ∀ i j k l, v.Live i → v.Live j → k < nslot → l < nslot → v.ref i k ≠ 0 →
    v.ref i k = v.ref j l → i = j ∧ k = l
  reserved : ∀ b < sb.nmeta, v.bit b = true
  data : ∀ i k, v.Live i → k < nslot → v.ref i k ≠ 0 → sb.nmeta ≤ v.ref i k

/-- A file has no holes below its size. -/
structure Filled (i : ℕ) : Prop where
  file : ∀ bn, bn * bsize < (v.din i).size → v.file i bn ≠ none
  size_le : (v.din i).size ≤ maxFile * bsize

end View

variable {sb : Sb} {v v' : View} {i j k b bn : ℕ}

theorem slotOf_lt (h : bn < maxFile) : slotOf bn < nslot := by
  unfold slotOf nslot
  unfold maxFile at h
  split_ifs <;> omega

theorem slotOf_ne : slotOf bn ≠ ndirect := by
  unfold slotOf
  split_ifs <;> omega

theorem slotOf_inj {m n : ℕ} (h : slotOf m = slotOf n) : m = n := by
  unfold slotOf at h
  split_ifs at h <;> omega

theorem ndirect_lt : ndirect < nslot := by
  unfold nslot
  omega

/-! ## References -/

theorem refAt_direct {blk : ℕ → Block} {d : Dinode} (h : k ≤ ndirect) : refAt blk d k = d.addrs k :=
  if_pos h

theorem refAt_none {blk : ℕ → Block} {d : Dinode} (h : ndirect < k) (h0 : d.addrs ndirect = 0) :
    refAt blk d k = 0 := by
  unfold refAt
  rw [if_neg (by omega), if_pos h0]

theorem refAt_word {blk : ℕ → Block} {d : Dinode} (h : ndirect < k) (h0 : d.addrs ndirect ≠ 0) :
    refAt blk d k = (blk (d.addrs ndirect)).word (k - (ndirect + 1)) := by
  unfold refAt
  rw [if_neg (by omega), if_neg h0]

/-- The references depend on the contents of the indirect block only. -/
theorem refAt_congr {blk blk' : ℕ → Block} {d : Dinode}
    (h : d.addrs ndirect ≠ 0 → blk' (d.addrs ndirect) = blk (d.addrs ndirect)) (k : ℕ) :
    refAt blk' d k = refAt blk d k := by
  unfold refAt
  split_ifs with h1 h2
  · rfl
  · rfl
  · rw [h h2]

theorem View.ref_ndirect : v.ref i ndirect = (v.din i).addrs ndirect := refAt_direct le_rfl

theorem View.file_some (h : bn < maxFile) (h0 : v.ref i (slotOf bn) ≠ 0) :
    v.file i bn = some (v.blk (v.ref i (slotOf bn))) := by
  unfold View.file
  rw [if_neg]
  rintro (h' | h')
  · omega
  · exact h0 h'

theorem View.file_eq_none (h : v.ref i (slotOf bn) = 0) : v.file i bn = none := by
  unfold View.file
  rw [if_pos (Or.inr h)]

theorem View.file_beyond (h : maxFile ≤ bn) : v.file i bn = none := by
  unfold View.file
  rw [if_pos (Or.inl h)]

theorem View.file_ne_none (h : v.file i bn ≠ none) : bn < maxFile ∧ v.ref i (slotOf bn) ≠ 0 := by
  unfold View.file at h
  split_ifs at h with h'
  · exact absurd rfl h
  · push Not at h'
    exact h'

/-- A file depends on its references and on the blocks they name. -/
theorem View.file_congr (hr : v'.ref j (slotOf bn) = v.ref j (slotOf bn))
    (hb : bn < maxFile → v.ref j (slotOf bn) ≠ 0 →
      v'.blk (v.ref j (slotOf bn)) = v.blk (v.ref j (slotOf bn))) : v'.file j bn = v.file j bn := by
  unfold View.file
  rw [hr]
  split_ifs with h
  · rfl
  · push Not at h
    rw [hb h.1 h.2]

/-! ## Views that differ in other fields -/

/-- The two views have the same blocks, and the same inodes but for fields other than `type` and
`addrs`. -/
structure Alike (v v' : View) : Prop where
  bit : v'.bit = v.bit
  blk : v'.blk = v.blk
  type : ∀ i, (v'.din i).type = (v.din i).type
  addrs : ∀ i, (v'.din i).addrs = (v.din i).addrs

namespace Alike

variable (h : Alike v v')
include h

theorem live : v'.Live i ↔ v.Live i := by
  unfold View.Live
  rw [h.type]

theorem ref : v'.ref i k = v.ref i k := by
  unfold View.ref refAt
  rw [h.addrs, h.blk]

theorem file : v'.file = v.file := by
  funext i bn
  exact View.file_congr h.ref fun _ _ => by rw [h.blk]

theorem wf (hw : v.Wf sb) : v'.Wf sb where
  used := by
    intro i k hi
    rw [h.ref, h.bit]
    exact hw.used i k (h.live.1 hi)
  unique := by
    intro i j k l hi hj
    rw [h.ref, h.ref]
    exact hw.unique i j k l (h.live.1 hi) (h.live.1 hj)
  reserved := by
    rw [h.bit]
    exact hw.reserved
  data := by
    intro i k hi
    rw [h.ref]
    exact hw.data i k (h.live.1 hi)

end Alike

/-! ## One more reference -/

/-- `v'` is `v` with one more reference, `k` of inode `i`, to the unused block `b`. -/
structure Adds (sb : Sb) (v v' : View) (i k b : ℕ) : Prop where
  lt : b < sb.size
  free : v.bit b = false
  bit : v'.bit = update v.bit b true
  type : (v'.din i).type = (v.din i).type
  din : ∀ j ≠ i, v'.din j = v.din j
  none : v.ref i k = 0
  own : ∀ l < nslot, v'.ref i l = if l = k then b else v.ref i l
  other : ∀ j ≠ i, v.Live j → ∀ l < nslot, v'.ref j l = v.ref j l
  zero : k ≠ ndirect → v'.blk b = fun _ => 0
  keep : ∀ x ≠ b, x ≠ v.ref i ndirect → v'.blk x = v.blk x

namespace Adds

theorem live (h : Adds sb v v' i k b) : v'.Live j ↔ v.Live j := by
  unfold View.Live
  by_cases hj : j = i
  · rw [hj, h.type]
  · rw [h.din j hj]

theorem ne_zero (hw : v.Wf sb) (h : Adds sb v v' i k b) : b ≠ 0 := by
  rintro rfl
  have := hw.reserved 0 sb.nmeta_pos
  rw [h.free] at this
  cases this

/-- The unused block has no reference. -/
theorem fresh (hw : v.Wf sb) (h : Adds sb v v' i k b) {l : ℕ} (hj : v.Live j) (hl : l < nslot) :
    v.ref j l ≠ b := by
  intro he
  have := (hw.used j l hj hl (he ▸ h.ne_zero hw)).2
  rw [he, h.free] at this
  cases this

/-- A reference of the new state is the new one or an old one. -/
theorem ref_cases (h : Adds sb v v' i k b) {l : ℕ} (hj : v.Live j) (hl : l < nslot) :
    (j = i ∧ l = k ∧ v'.ref j l = b) ∨ (¬ (j = i ∧ l = k) ∧ v'.ref j l = v.ref j l) := by
  by_cases hji : j = i
  · subst hji
    by_cases hlk : l = k
    · exact .inl ⟨rfl, hlk, by rw [h.own l hl, if_pos hlk]⟩
    · exact .inr ⟨fun hc => hlk hc.2, by rw [h.own l hl, if_neg hlk]⟩
  · exact .inr ⟨fun hc => hji hc.1, h.other j hji hj l hl⟩

theorem wf (hw : v.Wf sb) (h : Adds sb v v' i k b) : v'.Wf sb where
  used := by
    intro j l hj hl h0
    rw [h.live] at hj
    rw [h.bit]
    rcases h.ref_cases hj hl with ⟨-, -, he⟩ | ⟨-, he⟩
    · rw [he]
      exact ⟨h.lt, update_self ..⟩
    · rw [he] at h0 ⊢
      rw [update_of_ne (h.fresh hw hj hl)]
      exact hw.used j l hj hl h0
  unique := by
    intro j₁ j₂ l₁ l₂ hj₁ hj₂ hl₁ hl₂ h0 he
    rw [h.live] at hj₁ hj₂
    rcases h.ref_cases hj₁ hl₁ with ⟨rfl, rfl, he₁⟩ | ⟨-, he₁⟩ <;>
      rcases h.ref_cases hj₂ hl₂ with ⟨rfl, rfl, he₂⟩ | ⟨-, he₂⟩
    · exact ⟨rfl, rfl⟩
    · rw [he₁, he₂] at he
      exact absurd he.symm (h.fresh hw hj₂ hl₂)
    · rw [he₁, he₂] at he
      exact absurd he (h.fresh hw hj₁ hl₁)
    · rw [he₁, he₂] at he
      rw [he₁] at h0
      exact hw.unique j₁ j₂ l₁ l₂ hj₁ hj₂ hl₁ hl₂ h0 he
  reserved := by
    intro x hx
    rw [h.bit]
    by_cases hxb : x = b
    · rw [hxb, update_self]
    · rw [update_of_ne hxb]
      exact hw.reserved x hx
  data := by
    intro j l hj hl h0
    rw [h.live] at hj
    rcases h.ref_cases hj hl with ⟨-, -, he⟩ | ⟨-, he⟩
    · rw [he]
      by_contra hlt
      have := hw.reserved b (by omega)
      rw [h.free] at this
      cases this
    · rw [he] at h0 ⊢
      exact hw.data j l hj hl h0

theorem blk_keep (hw : v.Wf sb) (h : Adds sb v v' i k b) (hi : v.Live i) (hj : v.Live j)
    (hbn : bn < maxFile) (h0 : v.ref j (slotOf bn) ≠ 0) :
    v'.blk (v.ref j (slotOf bn)) = v.blk (v.ref j (slotOf bn)) := by
  refine h.keep _ (h.fresh hw hj (slotOf_lt hbn)) fun he => ?_
  exact slotOf_ne (hw.unique j i _ _ hj hi (slotOf_lt hbn) ndirect_lt h0 he).2

theorem file_data (hw : v.Wf sb) (h : Adds sb v v' i (slotOf bn) b) (hi : v.Live i)
    (hbn : bn < maxFile) (hj : v.Live j) {n : ℕ} :
    v'.file j n = if j = i ∧ n = bn then some fun _ => 0 else v.file j n := by
  split_ifs with hc
  · obtain ⟨rfl, rfl⟩ := hc
    have he : v'.ref j (slotOf n) = b := by rw [h.own _ (slotOf_lt hbn), if_pos rfl]
    rw [View.file_some hbn (he ▸ h.ne_zero hw), he, h.zero slotOf_ne]
  · by_cases hn : n < maxFile
    · rcases h.ref_cases hj (slotOf_lt hn) with ⟨rfl, he, -⟩ | ⟨-, he⟩
      · exact absurd ⟨rfl, slotOf_inj he⟩ hc
      · exact View.file_congr he fun _ h0 => h.blk_keep hw hi hj hn h0
    · rw [View.file_beyond (by omega), View.file_beyond (by omega)]

/-- The files after the indirect block was added: nothing changed. -/
theorem file_indirect (hw : v.Wf sb) (h : Adds sb v v' i ndirect b) (hi : v.Live i)
    (hj : v.Live j) : v'.file j = v.file j := by
  funext n
  by_cases hn : n < maxFile
  · rcases h.ref_cases hj (slotOf_lt hn) with ⟨-, he, -⟩ | ⟨-, he⟩
    · exact absurd he slotOf_ne
    · exact View.file_congr he fun _ h0 => h.blk_keep hw hi hj hn h0
  · rw [View.file_beyond (by omega), View.file_beyond (by omega)]

end Adds

/-! ## The ways to add a reference -/

/-- The view after `balloc` gave block `b`. -/
def View.alloc (v : View) (b : ℕ) : View :=
  { v with bit := update v.bit b true, blk := update v.blk b fun _ => 0 }

/-- The view with other `addrs` for inode `i`. -/
def View.setAddrs (v : View) (i : ℕ) (a : ℕ → ℕ) : View :=
  { v with din := update v.din i { v.din i with addrs := a } }

theorem Adds.setAddr (hw : v.Wf sb) (hi : v.Live i) (hk : k ≤ ndirect) (h0 : v.ref i k = 0)
    (hb : v.bit b = false) (hlt : b < sb.size) :
    Adds sb v ((v.alloc b).setAddrs i (update (v.din i).addrs k b)) i k b := by
  have hb0 : b ≠ 0 := by
    rintro rfl
    have := hw.reserved 0 sb.nmeta_pos
    rw [hb] at this
    cases this
  have hfresh : ∀ j, v.Live j → (v.din j).addrs ndirect ≠ 0 → (v.din j).addrs ndirect ≠ b := by
    intro j hj h1 he
    rw [← View.ref_ndirect] at h1 he
    have := (hw.used j ndirect hj ndirect_lt h1).2
    rw [he, hb] at this
    cases this
  refine
    { lt := hlt
      free := hb
      bit := rfl
      type := ?_
      din := fun j hj => update_of_ne hj ..
      none := h0
      own := fun l hl => ?_
      other := fun j hj hl l _ => ?_
      zero := fun _ => update_self ..
      keep := fun x hx _ => update_of_ne hx .. }
  · simp [View.setAddrs, View.alloc]
  · show refAt (update v.blk b fun _ => 0) (update v.din i _ i) l = _
    rw [update_self]
    by_cases hl' : l ≤ ndirect
    · rw [refAt_direct hl']
      show update (v.din i).addrs k b l = _
      by_cases hlk : l = k
      · rw [hlk, update_self, if_pos rfl]
      · rw [update_of_ne hlk, if_neg hlk]
        exact (refAt_direct hl').symm
    · have hl' : ndirect < l := by omega
      rw [if_neg (by omega)]
      by_cases hkn : k = ndirect
      · -- the new indirect block is zero
        subst hkn
        have hold : (v.din i).addrs ndirect = 0 := by rwa [← View.ref_ndirect]
        have hnew : update (v.din i).addrs ndirect b ndirect = b := update_self ..
        refine (refAt_word hl' (hnew.trans_ne hb0)).trans ?_
        show (update v.blk b (fun _ => 0)
          (update (v.din i).addrs ndirect b ndirect)).word _ = _
        rw [hnew, update_self]
        exact (refAt_none hl' hold).symm
      · have hsame : update (v.din i).addrs k b ndirect = (v.din i).addrs ndirect :=
          update_of_ne (Ne.symm hkn) ..
        by_cases hold : (v.din i).addrs ndirect = 0
        · exact (refAt_none hl' (hsame.trans hold)).trans (refAt_none hl' hold).symm
        · refine (refAt_word hl' (hsame.trans_ne hold)).trans ?_
          show (update v.blk b (fun _ => 0)
            (update (v.din i).addrs k b ndirect)).word _ = _
          rw [hsame, update_of_ne (hfresh i hi hold)]
          exact (refAt_word hl' hold).symm
  · show refAt (update v.blk b fun _ => 0) (update v.din i _ j) l = _
    rw [update_of_ne hj]
    exact refAt_congr (fun h1 => update_of_ne (hfresh j hl h1) ..) l

/-- The view with word `w` of block `a` set. -/
def View.setWord (v : View) (a w x : ℕ) : View :=
  { v with blk := update v.blk a ((v.blk a).setWord w x) }

theorem Adds.setWord (hw : v.Wf sb) (hi : v.Live i) {w : ℕ}
    (ha : (v.din i).addrs ndirect ≠ 0) (h0 : (v.blk ((v.din i).addrs ndirect)).word w = 0)
    (hb : v.bit b = false) (hlt : b < sb.size) :
    Adds sb v ((v.alloc b).setWord ((v.din i).addrs ndirect) w b) i (ndirect + 1 + w) b := by
  set a := (v.din i).addrs ndirect with ha'
  have haref : v.ref i ndirect = a := View.ref_ndirect
  have hab : a ≠ b := by
    intro he
    have := (hw.used i ndirect hi ndirect_lt (haref ▸ ha)).2
    rw [haref, he, hb] at this
    cases this
  have hother : ∀ j ≠ i, v.Live j → (v.din j).addrs ndirect ≠ 0 →
      (v.din j).addrs ndirect ≠ b ∧ (v.din j).addrs ndirect ≠ a := by
    intro j hj hl h1
    rw [← View.ref_ndirect] at h1 ⊢
    constructor
    · intro he
      have := (hw.used j ndirect hl ndirect_lt h1).2
      rw [he, hb] at this
      cases this
    · intro he
      exact hj (hw.unique j i _ _ hl hi ndirect_lt ndirect_lt h1 (he.trans haref.symm)).1
  have hnew : ((v.alloc b).setWord a w b).blk a = (v.blk a).setWord w b := by
    show update (v.alloc b).blk a _ a = _
    rw [update_self]
    show (update v.blk b _ a).setWord w b = _
    rw [update_of_ne hab]
  refine
    { lt := hlt
      free := hb
      bit := rfl
      type := rfl
      din := fun _ _ => rfl
      none := ?_
      own := fun l hl => ?_
      other := fun j hj hl l _ => ?_
      zero := fun _ => ?_
      keep := fun x hx hxa => ?_ }
  · show refAt _ _ _ = 0
    rw [refAt_word (by omega) ha, Nat.add_sub_cancel_left]
    exact h0
  · show refAt ((v.alloc b).setWord a w b).blk (v.din i) l = if _ then b else refAt v.blk (v.din i) l
    by_cases hl' : l ≤ ndirect
    · rw [refAt_direct hl', refAt_direct hl', if_neg (by omega)]
    · rw [refAt_word (by omega) ha, refAt_word (by omega) ha, ← ha', hnew]
      split_ifs with hlk
      · rw [hlk, Nat.add_sub_cancel_left]
        exact Block.word_setWord _ _ (hlt.trans sb.size_lt)
      · exact Block.word_setWord_ne _ _ (by omega)
  · refine refAt_congr (fun h1 => ?_) l
    obtain ⟨hb', ha'⟩ := hother j hj hl h1
    exact (update_of_ne ha' ..).trans (update_of_ne hb' ..)
  · show update (update v.blk b _) a _ b = _
    rw [update_of_ne (Ne.symm hab), update_self]
  · rw [haref] at hxa
    show update (update v.blk b _) a _ x = _
    rw [update_of_ne hxa, update_of_ne hx]

/-! ## Writing to a data block -/

/-- The view with block `a` replaced. -/
def View.setBlk (v : View) (a : ℕ) (x : Block) : View := { v with blk := update v.blk a x }

theorem View.ref_setBlk (hw : v.Wf sb) (hi : v.Live i) (hbn : bn < maxFile) (x : Block)
    (hj : v.Live j) (l : ℕ) :
    (v.setBlk (v.ref i (slotOf bn)) x).ref j l = v.ref j l := by
  refine refAt_congr (fun h1 => ?_) l
  -- a data block is not an indirect block
  refine update_of_ne (fun he => ?_) ..
  rw [← View.ref_ndirect] at h1 he
  exact slotOf_ne (hw.unique j i _ _ hj hi ndirect_lt (slotOf_lt hbn) h1 he).2.symm

theorem View.Wf.setBlk (hw : v.Wf sb) (hi : v.Live i) (hbn : bn < maxFile) (x : Block) : (v.setBlk (v.ref i (slotOf bn)) x).Wf sb where
  used := by
    intro j l hj hl
    rw [View.ref_setBlk hw hi hbn x hj]
    exact hw.used j l hj hl
  unique := by
    intro j₁ j₂ l₁ l₂ hj₁ hj₂
    rw [View.ref_setBlk hw hi hbn x hj₁, View.ref_setBlk hw hi hbn x hj₂]
    exact hw.unique j₁ j₂ l₁ l₂ hj₁ hj₂
  reserved := hw.reserved
  data := by
    intro j l hj hl
    rw [View.ref_setBlk hw hi hbn x hj]
    exact hw.data j l hj hl

/-- Writing to block `bn` of a file changes that block of that file only. -/
theorem View.file_setBlk (hw : v.Wf sb) (hi : v.Live i) (hbn : bn < maxFile)
    (h0 : v.ref i (slotOf bn) ≠ 0) (x : Block) (hj : v.Live j) (n : ℕ) :
    (v.setBlk (v.ref i (slotOf bn)) x).file j n = if j = i ∧ n = bn then some x else v.file j n := by
  have hr := View.ref_setBlk hw hi hbn x hj
  split_ifs with hc
  · obtain ⟨rfl, rfl⟩ := hc
    rw [View.file_some hbn (by rwa [hr]), hr]
    exact congrArg some (update_self ..)
  · refine View.file_congr (hr _) fun hn h1 => update_of_ne (fun he => ?_) ..
    obtain ⟨rfl, hs⟩ := hw.unique j i _ _ hj hi (slotOf_lt hn) (slotOf_lt hbn) h1 he
    exact hc ⟨rfl, slotOf_inj hs⟩

end Xv6.Fs
