import Xv6.Fs.Write

/-!
# Files are byte arrays

`readi` and `writei` on the content of a file. A source that faults in the middle of a piece leaves
the bytes in front of the fault in the buffer, although `writei` does not count them; where they are
below the size of the file, `readi` returns them. `CleanFault` excludes such sources.

A piece of `filewrite` is within the blocks that its transaction has reserved.
-/

namespace Xv6.Fs

open Finset Xv6.Threads

variable {T : Type} {V : Env T} {sb : Sb} {ly : Layout} {t : T} {s : St T V.X}
  {L : Finset ℕ} {ip : Ip} {src : ℕ → Option UInt8} {off n : ℕ}

/-! ## The content of a file after `writei` -/

/-- The first byte of the source that cannot be read, if there is one, is the first byte of a piece,
or the piece begins at the end of the file or behind it. Pieces begin at `off` and at the multiples
of `bsize`. -/
def CleanFault (src : ℕ → Option UInt8) (off n size : ℕ) : Prop :=
  ∀ p < n, src p = none → (∀ q < p, src q ≠ none) →
    p - (off + p) % bsize = p ∨ size ≤ off + (p - (off + p) % bsize)

theorem getElem?_content {v : View} {i p : ℕ} (h : p < (v.din i).size) :
    (v.content i)[p]? = some (v.byte i p) := by
  unfold View.content
  rw [List.getElem?_map, List.getElem?_range h]
  rfl

/-- The content, given byte by byte. -/
theorem content_eq_splice {v v' : View} {i tot : ℕ} {l : List UInt8} (hl : l.length = tot)
    (hoff : off ≤ (v.din i).size) (hsize : (v'.din i).size = max (v.din i).size (off + tot))
    (hnew : ∀ q < tot, l[q]? = some (v'.byte i (off + q)))
    (hold : ∀ p < (v.din i).size, (p < off ∨ off + tot ≤ p) → v'.byte i p = v.byte i p) :
    v'.content i = splice (v.content i) off l := by
  refine List.ext_getElem? fun p => ?_
  rw [getElem?_splice (by rw [length_content]; exact hoff), hl]
  split_ifs with h1 h2
  · rw [getElem?_content (by omega), getElem?_content (by omega), hold p (by omega) (.inl h1)]
  · rw [getElem?_content (by omega), hnew (p - off) (by omega), show off + (p - off) = p by omega]
  · by_cases h3 : p < (v.din i).size
    · rw [getElem?_content (by omega), getElem?_content h3, hold p h3 (.inr (by omega))]
    · rw [List.getElem?_eq_none (by rw [length_content]; omega),
        List.getElem?_eq_none (by rw [length_content]; omega)]

/-- With a clean source, nothing below the size has changed outside of what was written. -/
theorem Written.old_of_clean {tot : ℕ} {ip' : Ip} {s' : St T V.X} {L' : Finset ℕ}
    (h : Written sb ly src off n s ip L tot ip' s' L') (hc : CleanFault src off n ip.d.size) :
    ∀ p < ip.d.size, (p < off ∨ off + tot ≤ p) →
      (s'.view ip').byte ip.inum p = (s.view ip).byte ip.inum p := by
  obtain ⟨k, hk, hold⟩ := h.old
  intro p hp hout
  refine hold p hp ?_
  rcases hk with rfl | ⟨hk, hnone, hsome⟩
  · omega
  · -- the fault is at `tot + k`, in the piece that begins at `tot`
    have hmod : (off + tot) % bsize < bsize := Nat.mod_lt _ bsize_pos
    have hle := h.le
    have hpiece := (h.stop (by omega)).2
    have hstart : tot + k - (off + (tot + k)) % bsize = tot := by
      rw [← Nat.add_assoc, (div_add (show k < bsize - (off + tot) % bsize by omega)).2]
      rcases hpiece with hpiece | hpiece
      · omega
      · rw [hpiece]
        omega
    have := hc (tot + k) (by omega) hnone hsome
    rw [hstart] at this
    omega

theorem Written.content {tot : ℕ} {ip' : Ip} {s' : St T V.X} {L' : Finset ℕ}
    (h : Written sb ly src off n s ip L tot ip' s' L') (hoff : off ≤ ip.d.size)
    (hc : CleanFault src off n ip.d.size) :
    (s'.view ip').content ip.inum =
      splice ((s.view ip).content ip.inum) off ((List.range tot).map fun q => (src q).getD 0) := by
  have hsize : ((s'.view ip').din ip.inum).size = max ip.d.size (off + tot) := by
    rw [← h.inum, view_din, h.fields]
  refine content_eq_splice (by rw [List.length_map, List.length_range]) (by rw [view_din]; exact hoff) (by rw [hsize, view_din])
    (fun q hq => ?_) ?_
  · rw [List.getElem?_map, List.getElem?_range hq, Option.map_some, h.new q hq]
    rfl
  · rw [view_din]
    exact h.old_of_clean hc

variable [DecidableEq T]

/-- No other kernel table holds inodes. -/
def noTables : Env Unit := ⟨Unit, Empty, fun _ => Unit, fun e => e.elim, fun _ _ => 0⟩

/-- A disk with three data blocks. -/
def smallDisk : Sb := ⟨8, 4, 5, by decide, by decide, by decide⟩

/-- Inode 1 has `size` zero bytes, in block 5; there are no other inodes. -/
def oneInode (type : Kind) (size : ℕ) : St Unit noTables.X where
  bit b := decide (b < 6)
  blk _ _ := 0
  din i := if i = 1 then ⟨type, 0, 0, 1, size, fun k => if k = 0 then 5 else 0⟩ else .fresh .free
  inode _ := ⟨0, 0, none, false, .fresh .free⟩
  op _ := 0
  reading _ := false
  readAlloc := false
  tables := ()

abbrev firstSlot : SlotId := ⟨0, by decide⟩

/-- The inode, locked. -/
def theInode (type : Kind) (size : ℕ) : Ip := ⟨firstSlot, 1, (oneInode type size).din 1⟩

section oneInode

variable {type : Kind} {size : ℕ}

theorem oneInode_ref {i k : ℕ} (h : ((oneInode type size).view (theInode type size)).ref i k ≠ 0) :
    i = 1 ∧ k = 0 ∧ ((oneInode type size).view (theInode type size)).ref i k = 5 := by
  have hdin : ((oneInode type size).view (theInode type size)).din = (oneInode type size).din :=
    Function.update_eq_self ..
  unfold View.ref at h ⊢
  rw [hdin] at h ⊢
  by_cases hi : i = 1
  · subst hi
    by_cases hk : k = 0
    · subst hk
      exact ⟨rfl, rfl, rfl⟩
    · refine absurd ?_ h
      unfold refAt
      simp [oneInode, hk, ndirect]
  · refine absurd ?_ h
    unfold refAt
    simp [oneInode, hi, Dinode.fresh]

theorem oneInode_wf : ((oneInode type size).view (theInode type size)).Wf smallDisk where
  used i k _ _ h := by
    rw [(oneInode_ref h).2.2]
    exact ⟨by decide, rfl⟩
  unique i j k l _ _ _ _ h he := by
    obtain ⟨rfl, rfl, -⟩ := oneInode_ref h
    obtain ⟨rfl, rfl, -⟩ := oneInode_ref (he ▸ h)
    exact ⟨rfl, rfl⟩
  reserved b h := by
    have : b < 5 := h
    simp [St.view, oneInode]
    omega
  data i k _ _ h := by
    rw [(oneInode_ref h).2.2]
    decide

theorem oneInode_filled (h : size ≤ bsize) :
    ((oneInode type size).view (theInode type size)).Filled 1 where
  file bn hbn := by
    have hlt : bn * bsize < size := hbn
    have : bn = 0 := by
      unfold bsize at *
      omega
    subst this
    exact Option.some_ne_none _
  size_le := h.trans (by decide)

end oneInode

/-- A file of three bytes. -/
abbrev oneFile : St Unit noTables.X := oneInode .file 3

/-- The file, locked. -/
abbrev theFile : Ip := theInode .file 3

/-- The largest piece that `filewrite` passes to `writei`. -/
def maxWrite : ℕ := ((maxOpBlocks - 1 - 1 - 2) / 2) * bsize

theorem card_blocks_le (off : ℕ) (hn : n ≤ maxWrite) :
    (blocks off n).card ≤ 4 ∧ (off % bsize = 0 → (blocks off n).card ≤ 3) := by
  have hmax : maxWrite = 3072 := rfl
  unfold blocks bsize
  rw [Nat.card_Ico]
  omega

theorem hole_le (v : View) (i m : ℕ) : hole v i m ≤ 1 := by
  unfold hole
  split_ifs <;> omega

theorem sum_hole_le_card (v : View) (i : ℕ) (S : Finset ℕ) : ∑ m ∈ S, hole v i m ≤ S.card := by
  have := sum_le_card_nsmul S (hole v i) 1 fun m _ => hole_le v i m
  rwa [smul_eq_mul, Nat.mul_one] at this

/-- At most three of the blocks are missing: the first one is there unless it begins at `off`. -/
theorem sum_hole_le {v : View} {i : ℕ} (hf : v.Filled i) (hoff : off ≤ (v.din i).size)
    (hn : n ≤ maxWrite) : ∑ m ∈ blocks off n, hole v i m ≤ 3 := by
  obtain ⟨h4, h3⟩ := card_blocks_le off hn
  by_cases ha : off % bsize = 0
  · exact (sum_hole_le_card v i _).trans (h3 ha)
  · by_cases hmem : off / bsize ∈ blocks off n
    · have h0 : hole v i (off / bsize) = 0 := by
        refine if_neg (hf.file _ (lt_of_lt_of_le ?_ hoff))
        have := Nat.div_add_mod' off bsize
        omega
      rw [← add_sum_erase _ _ hmem, h0, Nat.zero_add]
      refine (sum_hole_le_card v i _).trans ?_
      rw [card_erase_of_mem hmem]
      omega
    · have hempty : blocks off n = ∅ := by
        refine eq_empty_of_forall_notMem fun m hm => hmem ?_
        unfold blocks at hm ⊢
        rw [mem_Ico] at hm ⊢
        omega
      rw [hempty, sum_empty]
      omega

/-- **A piece of `filewrite` fits its reservation.** The one `writei` of the transaction passes at
most `MAXOPBLOCKS` blocks to `log_write`, wherever it ends and however many bitmap blocks there are. -/
theorem write_piece_reserved (sb : Sb) (ly : Layout) (t : T) (s : St T V.X) (ip : Ip)
    (hw : (s.view ip).Wf sb) (hl : ip.d.type ≠ .free) (hf : (s.view ip).Filled ip.inum)
    (src : ℕ → Option UInt8) (off n : ℕ) (hoff : off ≤ ip.d.size) (hn : n ≤ maxWrite) :
    ∃ r s' L', solo (lexec sb ly) t (writei sb src ip off n) (s, ∅) = some (r, (s', L')) ∧
      L'.card ≤ maxOpBlocks := by
  have hsize : ip.d.size ≤ maxFile * bsize := by
    have := hf.size_le
    rwa [view_din] at this
  by_cases hmax : off + n ≤ maxFile * bsize
  · have h : Does sb ly t (writei sb src ip off n) s ∅ _ := writei_does hw hl hf hoff hmax
    obtain ⟨r, ⟨s', L'⟩, hs, tot, -, hwr⟩ := Runs.solo h
    refine ⟨r, s', L', hs, ?_⟩
    obtain ⟨B, hB, hL⟩ := hwr.log
    have hsum : ∑ m ∈ blocks off n, hole (s.view ip) ip.inum m ≤ 3 :=
      sum_hole_le hf (by rwa [view_din]) hn
    have hni : noIndirect ip.d ≤ 1 := by
      unfold noIndirect
      split_ifs <;> omega
    have ht := card_touched_le s'.blk r.2.d (blocks off n)
    have hb := (card_blocks_le off hn).1
    calc L'.card
        ≤ (∅ ∪ B ∪ touched s'.blk r.2.d (blocks off n) ∪ {ly.iblock ip.inum}).card :=
          card_le_card hL
      _ ≤ B.card + (touched s'.blk r.2.d (blocks off n)).card + 1 := by
          rw [empty_union]
          refine (card_union_le _ _).trans ?_
          rw [card_singleton]
          exact Nat.add_le_add_right (card_union_le _ _) 1
      _ ≤ (3 + 1) + (4 + 1) + 1 := by omega
  · have hlt : maxFile * bsize + maxWrite < 2 ^ 32 := by decide
    have h : Does sb ly t (writei sb src ip off n) s ∅ _ :=
      writei_rejects (by omega) (by omega) (.inr (.inr (by omega)))
    obtain ⟨r, ⟨s', L'⟩, hs, -, -, rfl⟩ := Runs.solo h
    exact ⟨r, s', ∅, hs, Nat.zero_le _⟩

theorem write_piece_reserved_oneInode :
    ∃ r s' L', solo (lexec smallDisk ⟨2, 4⟩) () (writei (V := noTables) smallDisk (fun _ => some 7)
      theFile 3 maxWrite) (oneFile, ∅) = some (r, (s', L')) ∧ L'.card ≤ maxOpBlocks :=
  write_piece_reserved smallDisk ⟨2, 4⟩ () oneFile theFile oneInode_wf (by decide) (oneInode_filled (by decide))
    (fun _ => some 7) 3 maxWrite (by decide) le_rfl

end Xv6.Fs
