import Xv6.Fs.Content

/-!
# Writing to a file

The loop of `writei` alone. A round maps a block of the file and copies a piece of the source into
it; `Stored` says what that does to the files. `Wrote` says what the rounds have done when the loop
stops: at the end, because the disk is full, or because the source cannot be read.
-/

namespace Xv6.Fs

open Function Finset Xv6.Threads

variable {T : Type} {V : Env T} {sb : Sb} {ly : Layout} {t : T} {s : St T V.X}
  {L : Finset ℕ} {ip : Ip}

/-! ## One round -/

/-- Block `bn` of file `i` has been written to: `l` was copied to offset `o`. -/
structure Stored (v v' : View) (i bn o : ℕ) (l : List UInt8) : Prop where
  live : ∀ j, v'.Live j ↔ v.Live j
  file : ∀ j, v.Live j → ∀ n, v'.file j n =
    if j = i ∧ n = bn then some (Cells.put ((v.file j n).getD fun _ => 0) o l) else v.file j n

namespace Stored

variable {v v' : View} {i bn o : ℕ} {l : List UInt8}

theorem file_other (h : Stored v v' i bn o l) {j : ℕ} (hj : v.Live j) (hji : j ≠ i) :
    v'.file j = v.file j := by
  funext n
  rw [h.file j hj n, if_neg fun hc => hji hc.1]

theorem file_own (h : Stored v v' i bn o l) (hi : v.Live i) :
    v'.file i bn = some (Cells.put ((v.file i bn).getD fun _ => 0) o l) := by
  rw [h.file i hi bn, if_pos ⟨rfl, rfl⟩]

theorem file_ne_none (h : Stored v v' i bn o l) (hi : v.Live i) {n : ℕ}
    (hn : v.file i n ≠ none ∨ n = bn) : v'.file i n ≠ none := by
  rw [h.file i hi n]
  split_ifs with hc
  · exact Option.some_ne_none _
  · rcases hn with hn | hn
    · exact hn
    · exact absurd ⟨rfl, hn⟩ hc

/-- A byte that was written. -/
theorem byte_new (h : Stored v v' i bn o l) (hi : v.Live i) {p : ℕ} {c : UInt8}
    (hp : p / bsize = bn) (ho : o ≤ p % bsize) (hc : l[p % bsize - o]? = some c) :
    v'.byte i p = c := by
  rw [View.byte_some (by rw [hp]; exact h.file_own hi)]
  exact Cells.put_of_mem ho hc

theorem byte_old (h : Stored v v' i bn o l) (hi : v.Live i) {p : ℕ}
    (hp : p / bsize ≠ bn ∨ p % bsize < o ∨ o + l.length ≤ p % bsize) :
    v'.byte i p = v.byte i p := by
  unfold View.byte
  rw [h.file i hi]
  split_ifs with hc
  · show Cells.put _ o l (p % bsize) = _
    rcases hp with hp | hp | hp
    · exact absurd hc.2 hp
    · exact Cells.put_of_lt hp
    · exact Cells.put_of_ge hp
  · rfl

end Stored

/-- `bmap` and the copy to the block it returned. -/
theorem Mapped.stored {bn : ℕ} {r : ℕ × Ip} {s' : St T V.X} {L' : Finset ℕ}
    (h : Mapped sb s ip bn L r s' L') (hl : ip.d.type ≠ .free) (hbn : bn < maxFile) (h0 : r.1 ≠ 0)
    (o : ℕ) (l : List UInt8) :
    ((s'.setBlk r.1 (Cells.put (s'.blk r.1) o l)).view r.2).Wf sb ∧
      Stored (s.view ip) ((s'.setBlk r.1 (Cells.put (s'.blk r.1) o l)).view r.2) ip.inum bn o l ∧
      ∀ k, refAt (s'.setBlk r.1 (Cells.put (s'.blk r.1) o l)).blk r.2.d k = refAt s'.blk r.2.d k := by
  have hl' : r.2.d.type ≠ .free := by rw [h.fields]; exact hl
  have haddr : (s'.view r.2).ref r.2.inum (slotOf bn) = r.1 := by rw [view_ref]; exact h.addr h0
  have hlive' : (s'.view r.2).Live r.2.inum := view_live.2 hl'
  have hlive : ∀ j, (s'.view r.2).Live j ↔ (s.view ip).Live j := by
    intro j
    unfold View.Live
    by_cases hj : j = ip.inum
    · rw [hj, view_din, ← h.inum, view_din, h.fields]
    · rw [view_din_ne hj, view_din_ne (h.inum ▸ hj), h.rest.din]
  have hblk : s'.blk r.1 = ((s.view ip).file ip.inum bn).getD fun _ => 0 := by
    have h1 := h.file ip.inum (view_live.2 hl) bn
    rw [if_pos ⟨h0, rfl, rfl⟩, ← h.inum, View.file_some hbn (haddr.trans_ne h0), haddr, h.inum] at h1
    exact Option.some.inj h1
  refine ⟨?_, ⟨fun j => hlive j, fun j hj n => ?_⟩, fun k => ?_⟩
  · have := View.Wf.setBlk h.wf hlive' hbn (Cells.put (s'.blk r.1) o l)
    rwa [haddr] at this
  · have := View.file_setBlk h.wf hlive' hbn (haddr.trans_ne h0) (Cells.put (s'.blk r.1) o l)
      ((hlive j).2 hj) n
    rw [haddr, h.inum] at this
    rw [view_setBlk, this, h.file j hj n]
    split_ifs with h1 h2
    · obtain ⟨rfl, rfl⟩ := h1
      rw [hblk]
    · exact absurd h2.2 h1
    · rfl
  · have := View.ref_setBlk h.wf hlive' hbn (Cells.put (s'.blk r.1) o l) hlive' k
    rwa [haddr, ← view_setBlk, view_ref, view_ref] at this

theorem Mapped.log_put {bn : ℕ} {r : ℕ × Ip} {s' : St T V.X} {L' : Finset ℕ}
    (h : Mapped sb s ip bn L r s' L') (h0 : r.1 ≠ 0) :
    ∃ B : Finset ℕ, B.card + noIndirect r.2.d ≤ hole (s.view ip) ip.inum bn + noIndirect ip.d ∧
      L' ∪ {r.1} ⊆ L ∪ B ∪ touched s'.blk r.2.d {bn} := by
  obtain ⟨B, hB, hL⟩ := h.log
  refine ⟨B, hB, union_subset hL (singleton_subset_iff.2 ?_)⟩
  exact mem_union_right _
    (mem_touched.2 ⟨h0, .inr ⟨bn, mem_singleton_self _, h.addr h0⟩⟩)

/-! ## The loop -/

/-- The blocks of a file that hold the bytes from `off` to `off + len`. -/
def blocks (off len : ℕ) : Finset ℕ := Finset.Ico (off / bsize) ((off + len + bsize - 1) / bsize)

/-- The loop of `writei` has written `r.1 - tot` bytes at `off` and has stopped there. `k` bytes more
have been copied to the buffer if the source could not be read. -/
structure Wrote (sb : Sb) (src : ℕ → Option UInt8) (n : ℕ) (s : St T V.X) (ip : Ip) (tot off : ℕ)
    (L : Finset ℕ) (r : ℕ × ℕ × Ip) (s' : St T V.X) (L' : Finset ℕ) : Prop where
  wf : (s'.view r.2.2).Wf sb
  rest : Rest s s'
  slot : r.2.2.slot = ip.slot
  inum : r.2.2.inum = ip.inum
  fields : r.2.2.d = { ip.d with addrs := r.2.2.d.addrs }
  keep : ∀ k < nslot, refAt s.blk ip.d k ≠ 0 → refAt s'.blk r.2.2.d k = refAt s.blk ip.d k
  ge : tot ≤ r.1
  le : r.1 ≤ n
  pos : r.2.1 = off + (r.1 - tot)
  other : ∀ j, (s.view ip).Live j → j ≠ ip.inum → (s'.view r.2.2).file j = (s.view ip).file j
  grow : ∀ m, (s.view ip).file ip.inum m ≠ none → (s'.view r.2.2).file ip.inum m ≠ none
  new : ∀ q, tot ≤ q → q < r.1 → (s'.view r.2.2).file ip.inum ((off + (q - tot)) / bsize) ≠ none ∧
    src q = some ((s'.view r.2.2).byte ip.inum (off + (q - tot)))
  stop : r.1 < n → ((∀ b < sb.size, s'.bit b) ∧
        (s.view ip).file ip.inum (r.2.1 / bsize) = none ∨
      ∃ k < min (n - r.1) (bsize - r.2.1 % bsize), src (r.1 + k) = none ∧
        ∀ q < k, src (r.1 + q) ≠ none) ∧
    (r.1 = tot ∨ r.2.1 % bsize = 0)
  old : ∃ k, (k = 0 ∨ k < min (n - r.1) (bsize - r.2.1 % bsize) ∧ src (r.1 + k) = none ∧
      ∀ q < k, src (r.1 + q) ≠ none) ∧
    ∀ p, (p < off ∨ r.2.1 + k ≤ p) → (s.view ip).file ip.inum (p / bsize) ≠ none →
      (s'.view r.2.2).byte ip.inum p = (s.view ip).byte ip.inum p
  log : ∃ B : Finset ℕ, B.card + noIndirect r.2.2.d ≤
      ∑ m ∈ blocks off (n - tot), hole (s.view ip) ip.inum m + noIndirect ip.d ∧
    L' ⊆ L ∪ B ∪ touched s'.blk r.2.2.d (blocks off (n - tot))

variable {src : ℕ → Option UInt8} {n tot off : ℕ}

/-- There is nothing left to write. -/
theorem Wrote.done (hw : (s.view ip).Wf sb) (h : tot = n) :
    Wrote sb src n s ip tot off L (tot, off, ip) s L where
  wf := hw
  rest := .refl s
  slot := rfl
  inum := rfl
  fields := rfl
  keep := fun _ _ _ => rfl
  ge := le_rfl
  le := h.le
  pos := by simp
  other := fun _ _ _ => rfl
  grow := fun _ h => h
  new := fun q h1 h2 => absurd h2 (by simpa using h1)
  stop := fun hlt => absurd hlt (by simp [h])
  old := ⟨0, .inl rfl, fun _ _ _ => rfl⟩
  log := ⟨∅, by rw [card_empty]; simp, by
    rw [union_empty]
    exact subset_union_left⟩

theorem mem_blocks (h : tot < n) : off / bsize ∈ blocks off (n - tot) := by
  unfold blocks bsize
  rw [mem_Ico]
  omega

theorem touched_first {blk blk' : ℕ → Block} {d d' : Dinode} (h : tot < n)
    (hbn : off / bsize < maxFile)
    (hkeep : ∀ k < nslot, refAt blk d k ≠ 0 → refAt blk' d' k = refAt blk d k) :
    touched blk d {off / bsize} ⊆ touched blk' d' (blocks off (n - tot)) :=
  touched_subset hkeep (singleton_subset_iff.2 (mem_blocks h)) fun m hm => by
    rwa [mem_singleton.1 hm]

theorem hole_le_sum (h : tot < n) (v : View) (i : ℕ) :
    hole v i (off / bsize) ≤ ∑ m ∈ blocks off (n - tot), hole v i m :=
  single_le_sum (fun _ _ => Nat.zero_le _) (mem_blocks h)

theorem Wrote.full (hl : ip.d.type ≠ .free) (hlt : tot < n) (hbn : off / bsize < maxFile) {r : ℕ × Ip} {s' : St T V.X}
    {L' : Finset ℕ} (h : Mapped sb s ip (off / bsize) L r s' L') (h0 : r.1 = 0) :
    Wrote sb src n s ip tot off L (tot, off, r.2) s' L' := by
  have hfile : ∀ j, (s.view ip).Live j → (s'.view r.2).file j = (s.view ip).file j := by
    intro j hj
    funext m
    rw [h.file j hj m, if_neg fun hc => hc.1 h0]
  have hown := hfile _ (view_live.2 hl)
  exact
    { wf := h.wf
      rest := h.rest
      slot := h.slot
      inum := h.inum
      fields := h.fields
      keep := h.keep
      ge := le_rfl
      le := hlt.le
      pos := by simp
      other := fun j hj _ => hfile j hj
      grow := by
        intro m hm
        rw [hown]
        exact hm
      new := fun q h1 h2 => absurd h2 (by simpa using h1)
      stop := fun _ => ⟨.inl (h.full h0), .inl rfl⟩
      old := by
        refine ⟨0, .inl rfl, fun p _ _ => ?_⟩
        unfold View.byte
        rw [hown]
      log := by
        obtain ⟨B, hB, hL⟩ := h.log
        refine ⟨B, hB.trans (Nat.add_le_add_right (hole_le_sum hlt _ _) _), hL.trans ?_⟩
        exact union_subset_union_right (touched_first hlt hbn fun _ _ _ => rfl) }

/-- The source cannot be read to the end of the piece. -/
theorem Wrote.fault (hl : ip.d.type ≠ .free) (hlt : tot < n) (hbn : off / bsize < maxFile)
    {r : ℕ × Ip} {s' : St T V.X} {L' : Finset ℕ} (h : Mapped sb s ip (off / bsize) L r s' L')
    (h0 : r.1 ≠ 0) (hf : (Cells.read src tot (min (n - tot) (bsize - off % bsize))).1 = false) :
    Wrote sb src n s ip tot off L (tot, off, r.2)
      (s'.setBlk r.1 (Cells.put (s'.blk r.1) (off % bsize)
        (Cells.read src tot (min (n - tot) (bsize - off % bsize))).2)) (L' ∪ {r.1}) := by
  set l := (Cells.read src tot (min (n - tot) (bsize - off % bsize))).2 with hldef
  obtain ⟨hlen, hnone⟩ := Cells.read_stop _ _ hf
  rw [← hldef] at hlen hnone
  have hsome : ∀ q < l.length, src (tot + q) ≠ none := fun q hq => (Cells.read_getElem? _ _ q hq).2
  obtain ⟨hwf, hst, href⟩ := h.stored hl hbn h0 (off % bsize) l
  have hli := (view_live (s := s)).2 hl
  have hmod : off % bsize < bsize := Nat.mod_lt _ bsize_pos
  exact
    { wf := hwf
      rest := ⟨h.rest.din, h.rest.inode, h.rest.op, h.rest.reading, h.rest.tables⟩
      slot := h.slot
      inum := h.inum
      fields := h.fields
      keep := fun k hk hk0 => (href k).trans (h.keep k hk hk0)
      ge := le_rfl
      le := hlt.le
      pos := by simp
      other := fun j hj hji => hst.file_other hj hji
      grow := fun m hm => hst.file_ne_none hli (.inl hm)
      new := fun q h1 h2 => absurd h2 (by simpa using h1)
      stop := fun _ => ⟨.inr ⟨l.length, hlen, hnone, hsome⟩, .inl rfl⟩
      old := by
        refine ⟨l.length, .inr ⟨hlen, hnone, hsome⟩, fun p hp _ => hst.byte_old hli ?_⟩
        have hlen' : l.length < bsize - off % bsize := by omega
        unfold bsize at *
        simp only at hp
        omega
      log := by
        obtain ⟨B, hB, hL⟩ := h.log_put h0
        refine ⟨B, hB.trans (Nat.add_le_add_right (hole_le_sum hlt _ _) _), hL.trans ?_⟩
        exact union_subset_union_right (touched_first hlt hbn fun k _ _ => href k) }

theorem blocks_subset {m : ℕ} (h : tot + m ≤ n) :
    blocks (off + m) (n - (tot + m)) ⊆ blocks off (n - tot) := by
  intro x
  unfold blocks bsize
  rw [mem_Ico, mem_Ico]
  omega

theorem Stored.sum_hole {v v' : View} {i bn o : ℕ} {l : List UInt8} (h : Stored v v' i bn o l)
    (hi : v.Live i) {S S' : Finset ℕ} (hS : S' ⊆ S) (hbn : bn ∈ S) :
    hole v i bn + ∑ m ∈ S', hole v' i m ≤ ∑ m ∈ S, hole v i m := by
  have h1 : ∀ m ≠ bn, hole v' i m = hole v i m := by
    intro m hm
    have : v'.file i m = v.file i m := by rw [h.file i hi, if_neg fun hc => hm hc.2]
    unfold hole
    rw [this]
  have h2 : hole v' i bn = 0 := by
    unfold hole
    rw [h.file_own hi, if_neg (Option.some_ne_none _)]
  calc hole v i bn + ∑ m ∈ S', hole v' i m
      ≤ hole v i bn + ∑ m ∈ S, hole v' i m :=
        Nat.add_le_add_left (sum_le_sum_of_subset hS) _
    _ = hole v i bn + ∑ m ∈ S.erase bn, hole v' i m := by
        rw [← add_sum_erase S _ hbn, h2, Nat.zero_add]
    _ = hole v i bn + ∑ m ∈ S.erase bn, hole v i m := by
        rw [sum_congr rfl fun m hm => h1 m (ne_of_mem_erase hm)]
    _ = ∑ m ∈ S, hole v i m := add_sum_erase S _ hbn

theorem Wrote.step (hl : ip.d.type ≠ .free) (hlt : tot < n) (hbn : off / bsize < maxFile)
    {r : ℕ × Ip} {s' s₂ s'' : St T V.X} {L' L'' : Finset ℕ} {r' : ℕ × ℕ × Ip} {m : ℕ}
    (h : Mapped sb s ip (off / bsize) L r s' L') (h0 : r.1 ≠ 0)
    (hm : m = min (n - tot) (bsize - off % bsize)) (hread : (Cells.read src tot m).1)
    (hs₂ : s₂ = s'.setBlk r.1 (Cells.put (s'.blk r.1) (off % bsize) (Cells.read src tot m).2))
    (hw : Wrote sb src n s₂ r.2 (tot + m) (off + m) (L' ∪ {r.1}) r' s'' L'') :
    Wrote sb src n s ip tot off L r' s'' L'' := by
  set l := (Cells.read src tot m).2 with hldef
  have hlen : l.length = m := Cells.length_read_of_true _ _ hread
  have hget : ∀ q < m, l[q]? = src (tot + q) ∧ src (tot + q) ≠ none := fun q hq =>
    Cells.read_getElem? _ _ q (by rw [← hldef, hlen]; exact hq)
  obtain ⟨-, hst, href⟩ := h.stored hl hbn h0 (off % bsize) l
  rw [← hs₂] at hst href
  have hli := (view_live (s := s)).2 hl
  have hmod : off % bsize < bsize := Nat.mod_lt _ bsize_pos
  have hi : r.2.inum = ip.inum := h.inum
  have hdiv : ∀ q < m, (off + q) / bsize = off / bsize ∧ (off + q) % bsize = off % bsize + q :=
    fun q hq => div_add (by omega)
  exact
    { wf := hw.wf
      rest := by
        have : Rest s s₂ := by
          rw [hs₂]
          exact ⟨h.rest.din, h.rest.inode, h.rest.op, h.rest.reading, h.rest.tables⟩
        exact this.trans hw.rest
      slot := hw.slot.trans h.slot
      inum := hw.inum.trans hi
      fields := by
        have := hw.fields
        rw [h.fields] at this
        exact this
      keep := by
        intro k hk hk0
        have h1 := (href k).trans (h.keep k hk hk0)
        rw [hw.keep k hk (h1 ▸ hk0), h1]
      ge := by
        have := hw.ge
        omega
      le := hw.le
      pos := by
        have := hw.ge
        rw [hw.pos]
        omega
      other := by
        intro j hj hji
        rw [hw.other j ((hst.live j).2 hj) (hi ▸ hji), hst.file_other hj hji]
      grow := by
        intro x hx
        have := hw.grow x (by rw [hi]; exact hst.file_ne_none hli (.inl hx))
        rwa [hi] at this
      new := by
        intro q h1 h2
        by_cases hq : tot + m ≤ q
        · have := hw.new q hq h2
          rwa [hi, show off + m + (q - (tot + m)) = off + (q - tot) by omega] at this
        · obtain ⟨hd, hmod'⟩ := hdiv (q - tot) (by omega)
          obtain ⟨hg, hsome⟩ := hget (q - tot) (by omega)
          rw [show tot + (q - tot) = q by omega] at hg hsome
          obtain ⟨c, hc⟩ := Option.ne_none_iff_exists'.1 hsome
          have hfile : (s₂.view r.2).file ip.inum ((off + (q - tot)) / bsize) ≠ none :=
            hst.file_ne_none hli (.inr hd)
          have hbyte : (s₂.view r.2).byte ip.inum (off + (q - tot)) = c :=
            hst.byte_new hli hd (by omega) (by rw [hmod', Nat.add_sub_cancel_left, hg, hc])
          obtain ⟨k, -, hk⟩ := hw.old
          refine ⟨?_, ?_⟩
          · have := hw.grow _ (by rw [hi]; exact hfile)
            rwa [hi] at this
          · have := hk (off + (q - tot)) (.inl (by omega)) (by rw [hi]; exact hfile)
            rw [hi] at this
            rw [this, hbyte, hc]
      stop := by
        intro hlt'
        obtain ⟨h1, h2⟩ := hw.stop hlt'
        refine ⟨h1.imp_left fun h1 => ⟨h1.1, ?_⟩, .inr ?_⟩
        · by_contra hne
          have := hst.file_ne_none hli (.inl hne)
          rw [← hi] at this
          exact this h1.2
        rcases h2 with h2 | h2
        · have hp := hw.pos
          have hge := hw.le
          rw [hp, h2, Nat.sub_self, Nat.add_zero]
          have : m = bsize - off % bsize := by omega
          rw [this]
          unfold bsize at *
          omega
        · exact h2
      old := by
        obtain ⟨k, hk, hold⟩ := hw.old
        refine ⟨k, hk, fun p hp hfile => ?_⟩
        have hpos := hw.pos
        have hge := hw.ge
        have h1 := hold p (by omega) (by rw [hi]; exact hst.file_ne_none hli (.inl hfile))
        rw [hi] at h1
        rw [h1]
        refine hst.byte_old hli ?_
        rw [hlen]
        have hmb : m ≤ bsize - off % bsize := by omega
        have hp' : p < off ∨ off + m ≤ p := by omega
        clear hp hpos hge hm
        unfold bsize at *
        omega
      log := by
        obtain ⟨B, hB, hL⟩ := h.log_put h0
        obtain ⟨B', hB', hL'⟩ := hw.log
        have hsub : blocks (off + m) (n - (tot + m)) ⊆ blocks off (n - tot) := blocks_subset (by omega)
        have hsum := hst.sum_hole hli hsub (mem_blocks hlt)
        rw [hi] at hB'
        refine ⟨B ∪ B', ?_, fun x hx => ?_⟩
        · have := card_union_le B B'
          omega
        · have hfirst : touched s'.blk r.2.d {off / bsize} ⊆
              touched s''.blk r'.2.2.d (blocks off (n - tot)) :=
            touched_first hlt hbn fun k hk hk0 => by
              rw [hw.keep k hk ((href k).trans_ne hk0), href k]
          have hrest : touched s''.blk r'.2.2.d (blocks (off + m) (n - (tot + m))) ⊆
              touched s''.blk r'.2.2.d (blocks off (n - tot)) := touched_mono hsub
          have hx' := hL' hx
          simp only [mem_union] at hx' ⊢
          rcases hx' with (hx' | hx') | hx'
          · have := hL (mem_union.2 hx')
            simp only [mem_union] at this
            rcases this with (h1 | h1) | h1
            · exact .inl (.inl h1)
            · exact .inl (.inr (.inl h1))
            · exact .inr (hfirst h1)
          · exact .inl (.inr (.inr hx'))
          · exact .inr (hrest hx') }

theorem writeiFrom_does [DecidableEq T] (fuel : ℕ) : ∀ {s : St T V.X} {ip : Ip} {tot off : ℕ}
    {L : Finset ℕ}, (s.view ip).Wf sb → ip.d.type ≠ .free → tot ≤ n → n - tot ≤ fuel →
    off + (n - tot) ≤ maxFile * bsize →
    Does sb ly t (writeiFrom sb src ip tot off n fuel) s L (Wrote sb src n s ip tot off L) := by
  induction fuel with
  | zero =>
    intro s ip tot off L hw _ hle hf _
    exact .ret (.done hw (by omega))
  | succ fuel ih =>
    intro s ip tot off L hw hl hle hf hmax
    unfold writeiFrom
    by_cases hlt : tot < n
    swap
    · rw [if_neg hlt]
      exact .ret (.done hw (by omega))
    rw [if_pos hlt]
    have hbn : off / bsize < maxFile := by
      rw [Nat.div_lt_iff_lt_mul bsize_pos]
      omega
    refine .bind ((bmap_does hw hl hbn).mono fun r s' L' h => ?_)
    show Does sb ly t (if r.1 = 0 then _ else _) s' L' _
    by_cases h0 : r.1 = 0
    · rw [if_pos h0]
      exact .ret (.full hl hlt hbn h h0)
    rw [if_neg h0]
    have hmod : off % bsize < bsize := Nat.mod_lt _ bsize_pos
    set m := min (n - tot) (bsize - off % bsize) with hm
    refine .act rfl ?_
    show Does sb ly t (if (Cells.read src tot m).1 = true then _ else _) _ (L' ∪ {r.1}) _
    cases hread : (Cells.read src tot m).1 with
    | false => exact .ret (.fault hl hlt hbn h h0 hread)
    | true =>
      have hwf := (h.stored hl hbn h0 (off % bsize) (Cells.read src tot m).2).1
      have hl' : r.2.d.type ≠ .free := by rw [h.fields]; exact hl
      exact (ih hwf hl' (by omega) (by omega) (by omega)).mono fun r' s'' L'' hr' =>
        .step hl hlt hbn h h0 hm hread rfl hr'

/-! ## `writei` -/

/-- The view does not depend on what `iupdate` writes for the inode itself. -/
theorem view_setDin {X : Type} {s : St T X} {d : Dinode} :
    (s.setDin ip.inum d).view ip = s.view ip := by
  refine View.ext rfl rfl ?_
  exact update_idem ..

theorem alike_setSize {X : Type} {s : St T X} {m : ℕ} : Alike (s.view ip) (s.view (ip.setSize m)) where
  bit := rfl
  blk := rfl
  type := fun i => by
    show (update s.din ip.inum (ip.setSize m).d i).type = _
    by_cases h : i = ip.inum
    · rw [h, update_self, view_din]
      rfl
    · rw [update_of_ne h, view_din_ne h]
  addrs := fun i => by
    show (update s.din ip.inum (ip.setSize m).d i).addrs = _
    by_cases h : i = ip.inum
    · rw [h, update_self, view_din]
      rfl
    · rw [update_of_ne h, view_din_ne h]

/-- What `writei` does if it accepts its arguments: it writes `tot` bytes at `off`. `k` bytes more
have been copied to the buffer if the source could not be read. -/
structure Written (sb : Sb) (ly : Layout) (src : ℕ → Option UInt8) (off n : ℕ) (s : St T V.X)
    (ip : Ip) (L : Finset ℕ) (tot : ℕ) (ip' : Ip) (s' : St T V.X) (L' : Finset ℕ) : Prop where
  wf : (s'.view ip').Wf sb
  filled : (s'.view ip').Filled ip.inum
  din : s'.din = update s.din ip.inum ip'.d
  inode : s'.inode = s.inode
  op : s'.op = s.op
  reading : s'.reading = s.reading
  tables : s'.tables = s.tables
  slot : ip'.slot = ip.slot
  inum : ip'.inum = ip.inum
  fields : ip'.d = { ip.d with addrs := ip'.d.addrs, size := max ip.d.size (off + tot) }
  le : tot ≤ n
  other : ∀ j, (s.view ip).Live j → j ≠ ip.inum → (s'.view ip').file j = (s.view ip).file j
  new : ∀ q < tot, src q = some ((s'.view ip').byte ip.inum (off + q))
  stop : tot < n → ((∀ b < sb.size, s'.bit b) ∧
        (s.view ip).file ip.inum ((off + tot) / bsize) = none ∨
      ∃ k < min (n - tot) (bsize - (off + tot) % bsize), src (tot + k) = none) ∧
    (tot = 0 ∨ (off + tot) % bsize = 0)
  old : ∃ k, (k = 0 ∨ k < min (n - tot) (bsize - (off + tot) % bsize) ∧ src (tot + k) = none ∧
      ∀ q < tot + k, src q ≠ none) ∧
    ∀ p < ip.d.size, (p < off ∨ off + tot + k ≤ p) →
      (s'.view ip').byte ip.inum p = (s.view ip).byte ip.inum p
  log : ∃ B : Finset ℕ, B.card ≤
      ∑ m ∈ blocks off n, hole (s.view ip) ip.inum m + noIndirect ip.d ∧
    L' ⊆ L ∪ B ∪ touched s'.blk ip'.d (blocks off n) ∪ {ly.iblock ip.inum}

theorem Wrote.written (hf : (s.view ip).Filled ip.inum) (hoff : off ≤ ip.d.size)
    (hmax : off + n ≤ maxFile * bsize) {r : ℕ × ℕ × Ip} {s' : St T V.X} {L' : Finset ℕ}
    (h : Wrote sb src n s ip 0 off L r s' L') :
    Written sb ly src off n s ip L r.1 (r.2.2.setSize (max r.2.2.d.size r.2.1))
      (s'.setDin ip.inum (r.2.2.setSize (max r.2.2.d.size r.2.1)).d) (L' ∪ {ly.iblock ip.inum}) := by
  have hpos : r.2.1 = off + r.1 := h.pos
  have hsize : r.2.2.d.size = ip.d.size := by rw [h.fields]
  set ip' := r.2.2.setSize (max r.2.2.d.size r.2.1) with hip'
  have hview : (s'.setDin ip.inum ip'.d).view ip' = s'.view ip' := by
    rw [← h.inum, show r.2.2.inum = ip'.inum from rfl]
    exact view_setDin
  have hal : Alike (s'.view r.2.2) (s'.view ip') := alike_setSize
  have hbyte : ∀ p, (s'.view ip').byte ip.inum p = (s'.view r.2.2).byte ip.inum p := by
    intro p
    unfold View.byte
    rw [hal.file]
  have hsize' : ((s'.view ip').din ip.inum).size = max ip.d.size (off + r.1) := by
    rw [← h.inum, show r.2.2.inum = ip'.inum from rfl, view_din, ← hsize, ← hpos]
    rfl
  have hdin : ((s.view ip).din ip.inum).size = ip.d.size := by rw [view_din]
  have hle : r.1 ≤ n := h.le
  exact
    { wf := by
        rw [hview]
        exact hal.wf h.wf
      filled := by
        rw [hview]
        constructor
        · intro bn hbn
          rw [hal.file]
          rw [hsize'] at hbn
          by_cases hb : bn * bsize < ip.d.size
          · exact h.grow bn (hf.file bn (by rw [hdin]; exact hb))
          · have := (h.new (bn * bsize - off) (Nat.zero_le _) (by omega)).1
            rwa [Nat.sub_zero, show off + (bn * bsize - off) = bn * bsize by omega,
              Nat.mul_div_cancel _ bsize_pos] at this
        · rw [hsize']
          have := hf.size_le
          rw [hdin] at this
          omega
      din := by
        show update s'.din _ _ = _
        rw [h.rest.din]
      inode := h.rest.inode
      op := h.rest.op
      reading := h.rest.reading
      tables := h.rest.tables
      slot := h.slot
      inum := h.inum
      fields := by
        have h1 : ip'.d = { r.2.2.d with size := max r.2.2.d.size r.2.1 } := rfl
        rw [hsize, hpos] at h1
        rw [h1, h.fields]
      le := hle
      other := by
        intro j hj hji
        rw [hview, hal.file]
        exact h.other j hj hji
      new := by
        intro q hq
        have := (h.new q (Nat.zero_le _) hq).2
        rwa [hview, hbyte]
      stop := by
        intro hlt
        obtain ⟨hwhy, hpiece⟩ := h.stop hlt
        rw [hpos] at hwhy hpiece
        refine ⟨?_, hpiece⟩
        rcases hwhy with h1 | ⟨k, hk, h1, -⟩
        · exact .inl h1
        · exact .inr ⟨k, hk, h1⟩
      old := by
        obtain ⟨k, hk, hold⟩ := h.old
        rw [hpos] at hk hold
        refine ⟨k, ?_, fun p hp hout => ?_⟩
        · rcases hk with hk | ⟨hk, hnone, hsome⟩
          · exact .inl hk
          · refine .inr ⟨hk, hnone, fun q hq => ?_⟩
            by_cases hqt : q < r.1
            · rw [(h.new q (Nat.zero_le _) hqt).2]
              exact Option.some_ne_none _
            · have := hsome (q - r.1) (by omega)
              rwa [show r.1 + (q - r.1) = q by omega] at this
        · rw [hview, hbyte]
          exact hold p hout (hf.has (by rw [hdin]; exact hp))
      log := by
        obtain ⟨B, hB, hL⟩ := h.log
        rw [Nat.sub_zero] at hB hL
        exact ⟨B, by omega, union_subset_union_left hL⟩ }

/-- `writei` with arguments that it accepts. -/
theorem writei_does [DecidableEq T] (hw : (s.view ip).Wf sb) (hl : ip.d.type ≠ .free)
    (hf : (s.view ip).Filled ip.inum) (hoff : off ≤ ip.d.size) (hmax : off + n ≤ maxFile * bsize) :
    Does sb ly t (writei sb src ip off n) s L fun r s' L' =>
      ∃ tot : ℕ, r.1 = tot ∧ Written sb ly src off n s ip L tot r.2 s' L' := by
  have hlt : maxFile * bsize < 2 ^ 32 := by decide
  unfold writei
  rw [if_neg (by rw [Nat.mod_eq_of_lt (by omega)]; omega),
    if_neg (by rw [Nat.mod_eq_of_lt (by omega)]; omega)]
  refine .bind ((writeiFrom_does n hw hl (Nat.zero_le _) (Nat.sub_le _ _) (by omega)).mono
    fun r s' L' h => ?_)
  refine .act rfl (.ret ⟨r.1, rfl, ?_⟩)
  have hi : r.2.2.inum = ip.inum := h.inum
  show Written sb ly src off n s ip L r.1 _ (s'.setDin r.2.2.inum _) (L' ∪ {ly.iblock r.2.2.inum})
  rw [hi]
  exact h.written hf hoff hmax

theorem writei_rejects [DecidableEq T] (hoff : off < 2 ^ 32) (hn : n < 2 ^ 32)
    (h : ip.d.size < off ∨ 2 ^ 32 ≤ off + n ∨ maxFile * bsize < off + n) :
    Does sb ly t (writei sb src ip off n : P V (ℤ × Ip)) s L fun r s' L' =>
      r = (-1, ip) ∧ s' = s ∧ L' = L := by
  unfold writei
  split_ifs with h1 h2
  · exact .ret ⟨rfl, rfl, rfl⟩
  · exact .ret ⟨rfl, rfl, rfl⟩
  · have : (off + n) % 2 ^ 32 = off + n ∨ 2 ^ 32 ≤ off + n := by omega
    omega

end Xv6.Fs
