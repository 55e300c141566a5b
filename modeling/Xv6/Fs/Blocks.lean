import Xv6.Fs.Refs

/-!
# Allocating and mapping blocks

What `balloc` and `bmap` do when they run alone, and the blocks that they pass to `log_write`. The
set of these blocks is a ghost value: `logged` gives the blocks of each action.
-/

namespace Xv6.Fs

open Function Finset Xv6.Threads

variable {T X : Type} {sb : Sb} {s : St T X} {ip : Ip} {t : T} {b k : ℕ}

/-! ## States -/

theorem firstClear_some (h : s.firstClear sb k = some b) :
    s.bit b = false ∧ b < sb.size ∧ b / bpb = k := by
  unfold St.firstClear at h
  have hm := List.mem_of_find?_eq_some h
  have hb := List.find?_some h
  rw [List.mem_range'_1] at hm
  refine ⟨by simpa using hb, by omega, ?_⟩
  rw [Nat.div_eq_iff (by decide)]
  unfold bpb bsize at *
  omega

theorem firstClear_none (h : s.firstClear sb k = none)
    (hb : b < sb.size) (hk : b / bpb = k) : s.bit b := by
  unfold St.firstClear at h
  have := List.find?_eq_none.1 h b (by
    rw [Nat.div_eq_iff (by decide)] at hk
    rw [List.mem_range'_1]
    unfold bpb bsize at *
    omega)
  simpa using this

/-- The state after thread `t` has allocated block `b`. -/
def St.alloc (t : T) (s : St T X) (b : ℕ) : St T X :=
  { s with
    bit := update s.bit b true
    blk := update s.blk b fun _ => 0
    readAlloc := s.readAlloc || s.reading t }

/-- What the operations on the blocks of a file leave unchanged. -/
structure Rest (s s' : St T X) : Prop where
  din : s'.din = s.din
  inode : s'.inode = s.inode
  op : s'.op = s.op
  reading : s'.reading = s.reading
  tables : s'.tables = s.tables

theorem Rest.refl (s : St T X) : Rest s s := ⟨rfl, rfl, rfl, rfl, rfl⟩

theorem Rest.trans {s₁ s₂ s₃ : St T X} (h : Rest s₁ s₂) (h' : Rest s₂ s₃) : Rest s₁ s₃ :=
  ⟨h'.din.trans h.din, h'.inode.trans h.inode, h'.op.trans h.op, h'.reading.trans h.reading,
    h'.tables.trans h.tables⟩

/-! ## The view of a thread that has an inode locked -/

/-- What the thread that holds the lock of `ip` sees. -/
def St.view (s : St T X) (ip : Ip) : View :=
  ⟨s.bit, s.blk, update s.din ip.inum ip.d⟩


@[simp] theorem view_din : (s.view ip).din ip.inum = ip.d := update_self ..

theorem view_din_ne {j : ℕ} (h : j ≠ ip.inum) : (s.view ip).din j = s.din j :=
  update_of_ne h ..

theorem view_live : (s.view ip).Live ip.inum ↔ ip.d.type ≠ .free := by
  unfold View.Live
  rw [view_din]

@[simp] theorem view_ref : (s.view ip).ref ip.inum k = refAt s.blk ip.d k := by
  unfold View.ref
  rw [view_din]
  rfl

theorem setAddr_addrs : (ip.setAddr k b).d.addrs = update ip.d.addrs k b := rfl

theorem view_setAddr :
    s.view (ip.setAddr k b) =
      (s.view ip).setAddrs ip.inum (update ip.d.addrs k b) := by
  refine View.ext rfl rfl ?_
  show update s.din ip.inum _ = update (update s.din ip.inum ip.d) _ _
  rw [update_idem, view_din]
  rfl

theorem view_setBlk {x : Block} : (s.setBlk b x).view ip = (s.view ip).setBlk b x := rfl

/-! ## The blocks that are logged -/

/-- The number of inodes in a block. -/
def ipb : ℕ := bsize / 64

/-- The first inode block and the first bitmap block. -/
structure Layout where
  inodestart : ℕ
  bmapstart : ℕ

variable {V : Env T}

def Layout.iblock (ly : Layout) (i : ℕ) : ℕ := i / ipb + ly.inodestart

/-- The bitmap block that holds the bit of block `b`. -/
def Layout.bblock (ly : Layout) (b : ℕ) : ℕ := b / bpb + ly.bmapstart

/-- The blocks that an action passes to `log_write`. A `put` after which the source turns out to have
faulted is not logged by `writei`; it is counted here as well. -/
def logged (ly : Layout) : (a : Act V.E) → a.Ret V → Finset ℕ
  | .bscan k, r => if r.isSome then {k + ly.bmapstart} else ∅
  | .bzero b, _ => {b}
  | .bclear b, _ => {ly.bblock b}
  | .setWord b _ _, _ => {b}
  | .put b _ _, _ => {b}
  | .dialloc i _, r => if r then {ly.iblock i} else ∅
  | .iupdate i _, _ => {ly.iblock i}
  | _, _ => ∅

variable {ly : Layout} {s : St T V.X} {L : Finset ℕ}

/-! ## What `bmap` does -/

/-- 1 if the inode has no indirect block. -/
def noIndirect (d : Dinode) : ℕ := if d.addrs ndirect = 0 then 1 else 0

/-- 1 if the file has no block `bn`. -/
def hole (v : View) (i bn : ℕ) : ℕ := if v.file i bn = none then 1 else 0

/-- The indirect block of a file and the data blocks with indices in `S`. -/
def touched (blk : ℕ → Block) (d : Dinode) (S : Finset ℕ) : Finset ℕ :=
  (insert (d.addrs ndirect) (S.image fun m => refAt blk d (slotOf m))).erase 0

theorem mem_touched {blk : ℕ → Block} {d : Dinode} {S : Finset ℕ} {x : ℕ} :
    x ∈ touched blk d S ↔ x ≠ 0 ∧ (x = d.addrs ndirect ∨ ∃ m ∈ S, refAt blk d (slotOf m) = x) := by
  simp [touched]

theorem card_touched_le (blk : ℕ → Block) (d : Dinode) (S : Finset ℕ) :
    (touched blk d S).card ≤ S.card + 1 :=
  (card_erase_le.trans (card_insert_le _ _)).trans
    (Nat.add_le_add_right card_image_le 1)

theorem touched_mono {blk : ℕ → Block} {d : Dinode} {S S' : Finset ℕ} (h : S ⊆ S') :
    touched blk d S ⊆ touched blk d S' :=
  erase_subset_erase _ (insert_subset_insert _ (image_subset_image h))

/-- References that are kept. -/
theorem touched_subset {blk blk' : ℕ → Block} {d d' : Dinode} {S S' : Finset ℕ}
    (hkeep : ∀ k < nslot, refAt blk d k ≠ 0 → refAt blk' d' k = refAt blk d k) (hS : S ⊆ S')
    (hlt : ∀ m ∈ S, m < maxFile) : touched blk d S ⊆ touched blk' d' S' := by
  intro x hx
  obtain ⟨h0, hx⟩ := mem_touched.1 hx
  refine mem_touched.2 ⟨h0, ?_⟩
  rcases hx with hx | ⟨m, hm, hx⟩
  · left
    have := hkeep ndirect ndirect_lt
    rw [refAt_direct le_rfl, refAt_direct le_rfl, ← hx] at this
    exact (this h0).symm
  · right
    exact ⟨m, hS hm, by rw [hkeep _ (slotOf_lt (hlt m hm)) (hx ▸ h0), hx]⟩

/-- What `bmap` does: it returns the block that holds block `bn` of the file, which it may have added
to the file, or 0, and then no block is left. It logs a bitmap block for every block it allocates,
the block and the indirect block. -/
structure Mapped (sb : Sb) (s : St T V.X) (ip : Ip) (bn : ℕ) (L : Finset ℕ) (r : ℕ × Ip)
    (s' : St T V.X) (L' : Finset ℕ) : Prop where
  wf : (s'.view r.2).Wf sb
  rest : Rest s s'
  slot : r.2.slot = ip.slot
  inum : r.2.inum = ip.inum
  fields : r.2.d = { ip.d with addrs := r.2.d.addrs }
  keep : ∀ k < nslot, refAt s.blk ip.d k ≠ 0 → refAt s'.blk r.2.d k = refAt s.blk ip.d k
  addr : r.1 ≠ 0 → refAt s'.blk r.2.d (slotOf bn) = r.1
  file : ∀ j, (s.view ip).Live j → ∀ n, (s'.view r.2).file j n =
    if r.1 ≠ 0 ∧ j = ip.inum ∧ n = bn then some (((s.view ip).file j n).getD fun _ => 0)
    else (s.view ip).file j n
  full : r.1 = 0 → (∀ b < sb.size, s'.bit b) ∧ (s.view ip).file ip.inum bn = none
  log : ∃ B : Finset ℕ, B.card + noIndirect r.2.d ≤ hole (s.view ip) ip.inum bn + noIndirect ip.d ∧
    L' ⊆ L ∪ B ∪ touched s'.blk r.2.d {bn}

variable {bn : ℕ}

/-- The block is there. -/
theorem Mapped.hit (hw : (s.view ip).Wf sb) (hbn : bn < maxFile)
    (h0 : refAt s.blk ip.d (slotOf bn) ≠ 0) :
    Mapped sb s ip bn L (refAt s.blk ip.d (slotOf bn), ip) s L where
  wf := hw
  rest := .refl s
  slot := rfl
  inum := rfl
  fields := rfl
  keep := fun _ _ _ => rfl
  addr := fun _ => rfl
  file := by
    intro j _ n
    split_ifs with hc
    · obtain ⟨-, rfl, rfl⟩ := hc
      rw [View.file_some hbn (by rwa [view_ref])]
      rfl
    · rfl
  full := fun h => absurd h h0
  log := ⟨∅, by rw [card_empty, Nat.zero_add]; exact Nat.le_add_left .., by
    rw [union_empty]
    exact subset_union_left⟩

theorem Mapped.miss (hw : (s.view ip).Wf sb) (hfull : ∀ b < sb.size, s.bit b)
    (h0 : refAt s.blk ip.d (slotOf bn) = 0) : Mapped sb s ip bn L (0, ip) s L where
  wf := hw
  rest := .refl s
  slot := rfl
  inum := rfl
  fields := rfl
  keep := fun _ _ _ => rfl
  addr := fun h => absurd rfl h
  file := fun j _ n => by rw [if_neg fun hc => hc.1 rfl]
  full := fun _ => ⟨hfull, View.file_eq_none (by rwa [view_ref])⟩
  log := ⟨∅, by rw [card_empty, Nat.zero_add]; exact Nat.le_add_left .., by
    rw [union_empty]
    exact subset_union_left⟩

theorem hole_eq {v : View} {i : ℕ} (h : v.ref i (slotOf bn) = 0) : hole v i bn = 1 :=
  if_pos (View.file_eq_none h)

theorem Mapped.added (hw : (s.view ip).Wf sb) (hl : ip.d.type ≠ .free) (hbn : bn < maxFile)
    {b : ℕ} {ip' : Ip} {s' : St T V.X}
    (ha : Adds sb (s.view ip) (s'.view ip') ip.inum (slotOf bn) b) (hr : Rest s s')
    (hs : ip'.slot = ip.slot) (hi : ip'.inum = ip.inum)
    (hf : ip'.d = { ip.d with addrs := ip'.d.addrs }) {L' : Finset ℕ}
    (hL : L' = L ∪ {ly.bblock b} ∪ {b} ∨
      L' = L ∪ {ly.bblock b} ∪ {b} ∪ {ip'.d.addrs ndirect} ∧ ip'.d.addrs ndirect ≠ 0)
    (hn : noIndirect ip'.d = noIndirect ip.d) : Mapped sb s ip bn L (b, ip') s' L' := by
  have hown : ∀ k < nslot, refAt s'.blk ip'.d k = if k = slotOf bn then b else refAt s.blk ip.d k := by
    intro k hk
    have := ha.own k hk
    rwa [← hi, view_ref, hi, view_ref] at this
  have h0 : refAt s.blk ip.d (slotOf bn) = 0 := by
    have := ha.none
    rwa [view_ref] at this
  have hb : refAt s'.blk ip'.d (slotOf bn) = b := by rw [hown _ (slotOf_lt hbn), if_pos rfl]
  exact
    { wf := ha.wf hw
      rest := hr
      slot := hs
      inum := hi
      fields := hf
      keep := by
        intro k hk hk0
        rw [hown k hk, if_neg]
        rintro rfl
        exact hk0 h0
      addr := fun _ => hb
      file := by
        intro j hj n
        rw [ha.file_data hw (view_live.2 hl) hbn hj]
        split_ifs with h1 h2 h2
        · obtain ⟨rfl, rfl⟩ := h1
          rw [View.file_eq_none ha.none]
          rfl
        · exact absurd ⟨ha.ne_zero hw, h1⟩ h2
        · exact absurd h2.2 h1
        · rfl
      full := fun h => absurd h (ha.ne_zero hw)
      log := by
        refine ⟨{ly.bblock b}, ?_, ?_⟩
        · rw [hole_eq ha.none, hn, card_singleton]
        · have h1 : L ∪ {ly.bblock b} ∪ {b} ⊆ L ∪ {ly.bblock b} ∪ touched s'.blk ip'.d {bn} := by
            refine union_subset_union_right (singleton_subset_iff.2 ?_)
            exact mem_touched.2 ⟨ha.ne_zero hw, .inr ⟨bn, mem_singleton_self _, hb⟩⟩
          rcases hL with rfl | ⟨rfl, hne⟩
          · exact h1
          · refine union_subset h1 (singleton_subset_iff.2 ?_)
            exact mem_union_right _ (mem_touched.2 ⟨hne, .inl rfl⟩) }

/-- `bmap` after it has added an indirect block. -/
theorem Mapped.indirect (hw : (s.view ip).Wf sb) (hl : ip.d.type ≠ .free) {b : ℕ} {ip₁ : Ip} {s₁ : St T V.X}
    (ha : Adds sb (s.view ip) (s₁.view ip₁) ip.inum ndirect b) (hr : Rest s s₁)
    (hs : ip₁.slot = ip.slot) (hi : ip₁.inum = ip.inum)
    (hf : ip₁.d = { ip.d with addrs := ip₁.d.addrs }) {r : ℕ × Ip} {s' : St T V.X} {L' : Finset ℕ}
    (h : Mapped sb s₁ ip₁ bn (L ∪ {ly.bblock b} ∪ {b}) r s' L') :
    Mapped sb s ip bn L r s' L' := by
  have hown : ∀ k < nslot, refAt s₁.blk ip₁.d k = if k = ndirect then b else refAt s.blk ip.d k := by
    intro k hk
    have := ha.own k hk
    rwa [← hi, view_ref, hi, view_ref] at this
  have hold : ip.d.addrs ndirect = 0 := by
    have := ha.none
    rwa [view_ref, refAt_direct le_rfl] at this
  have hfile : ∀ j, (s.view ip).Live j → (s₁.view ip₁).file j = (s.view ip).file j :=
    fun j hj => ha.file_indirect hw (view_live.2 hl) hj
  have hnd : refAt s₁.blk ip₁.d ndirect = b := by rw [hown _ ndirect_lt, if_pos rfl]
  have hb0 := ha.ne_zero hw
  exact
    { wf := h.wf
      rest := hr.trans h.rest
      slot := h.slot.trans hs
      inum := h.inum.trans hi
      fields := by
        have := h.fields
        rw [hf] at this
        exact this
      keep := by
        intro k hk h0
        have hkn : k ≠ ndirect := by
          rintro rfl
          exact h0 ((refAt_direct le_rfl).trans hold)
        have he : refAt s₁.blk ip₁.d k = refAt s.blk ip.d k := by rw [hown k hk, if_neg hkn]
        rw [h.keep k hk (he ▸ h0), he]
      addr := h.addr
      file := by
        intro j hj n
        rw [h.file j (ha.live.2 hj) n, hfile j hj, hi]
      full := by
        intro h0
        obtain ⟨h1, h2⟩ := h.full h0
        refine ⟨h1, ?_⟩
        rwa [hi, hfile _ (view_live.2 hl)] at h2
      log := by
        obtain ⟨B, hB, hL⟩ := h.log
        have hn : noIndirect ip.d = 1 := if_pos hold
        have hn₁ : noIndirect ip₁.d = 0 := if_neg (by rwa [← refAt_direct le_rfl, hnd])
        have hh : hole (s₁.view ip₁) ip₁.inum bn = hole (s.view ip) ip.inum bn := by
          unfold hole
          rw [hi, hfile _ (view_live.2 hl)]
        have hbr : r.2.d.addrs ndirect = b := by
          have := h.keep ndirect ndirect_lt (hnd ▸ hb0)
          rwa [hnd, refAt_direct le_rfl] at this
        refine ⟨B ∪ {ly.bblock b}, ?_, fun x hx => ?_⟩
        · have := card_union_le B {ly.bblock b}
          rw [card_singleton] at this
          omega
        · have hb' : b ∈ touched s'.blk r.2.d {bn} := mem_touched.2 ⟨hb0, .inl hbr.symm⟩
          have := hL hx
          simp only [mem_union, mem_singleton] at this ⊢
          rcases this with (((h1 | h1) | rfl) | h1) | h1
          · exact .inl (.inl h1)
          · exact .inl (.inr (.inr h1))
          · exact .inr hb'
          · exact .inl (.inr (.inl h1))
          · exact .inr h1 }

/-! ## Running alone -/

variable [DecidableEq T] {α β : Type}

/-- `exec` with the set of logged blocks. -/
abbrev lexec (sb : Sb) (ly : Layout) :
    (a : Act V.E) → T → St T V.X × Finset ℕ → Outcome (St T V.X × Finset ℕ) (a.Ret V) :=
  ghost (exec sb) fun a b L => L ∪ logged ly a b

/-- Alone, `p` returns from `s` with `Q`, which also says which blocks have been logged. -/
def Does (sb : Sb) (ly : Layout) (t : T) (p : P V α) (s : St T V.X) (L : Finset ℕ)
    (Q : α → St T V.X → Finset ℕ → Prop) : Prop :=
  Runs (lexec sb ly) t (fun _ => True) p (s, L) fun x s' => Q x s'.1 s'.2

namespace Does

variable {Q : α → St T V.X → Finset ℕ → Prop}

theorem ret {x : α} (h : Q x s L) : Does sb ly t (.ret x : P V α) s L Q := ⟨trivial, h⟩

theorem act {a : Act V.E} {b : a.Ret V} {s' : St T V.X} {k : a.Ret V → P V α}
    (he : exec sb a t s = .done b s') (h : Does sb ly t (k b) s' (L ∪ logged ly a b) Q) :
    Does sb ly t (.act a k : P V α) s L Q :=
  ⟨trivial, b, _, ghost_done he, h⟩

theorem mono {p : P V α} {Q' : α → St T V.X → Finset ℕ → Prop} (h : Does sb ly t p s L Q)
    (hQ : ∀ x s' L', Q x s' L' → Q' x s' L') : Does sb ly t p s L Q' :=
  Runs.mono h fun x s' => hQ x s'.1 s'.2

theorem bind {p : P V β} {f : β → P V α}
    (h : Does sb ly t p s L fun x s' L' => Does sb ly t (f x) s' L' Q) :
    Does sb ly t (p >>= f) s L Q := Runs.bind h

theorem solo {p : P V α} (h : Does sb ly t p s L Q) :
    ∃ x s' L', solo (exec sb) t p s = some (x, s') ∧ Q x s' L' := Runs.of_ghost h

end Does

/-- Alone, `p` returns from `s` with `Q`, or panics with `E`. -/
def Goes (sb : Sb) (ly : Layout) (t : T) (p : P V α) (s : St T V.X) (L : Finset ℕ)
    (Q : α → St T V.X → Finset ℕ → Prop) (E : String → St T V.X → Prop) : Prop :=
  Ends (lexec sb ly) t p (s, L) (fun x s' => Q x s'.1 s'.2) fun m s' => E m s'.1

theorem Does.goes {p : P V α} {Q : α → St T V.X → Finset ℕ → Prop} {E : String → St T V.X → Prop}
    (h : Does sb ly t p s L Q) : Goes sb ly t p s L Q E := Runs.ends h

namespace Goes

variable {Q : α → St T V.X → Finset ℕ → Prop} {E : String → St T V.X → Prop}

theorem ret {x : α} (h : Q x s L) : Goes sb ly t (.ret x : P V α) s L Q E := h

theorem act {a : Act V.E} {b : a.Ret V} {s' : St T V.X} {k : a.Ret V → P V α}
    (he : exec sb a t s = .done b s') (h : Goes sb ly t (k b) s' (L ∪ logged ly a b) Q E) :
    Goes sb ly t (.act a k : P V α) s L Q E := Ends.act (ghost_done he) h

theorem panics {a : Act V.E} {m : String} {k : a.Ret V → P V α} (he : exec sb a t s = .panic m)
    (h : E m s) : Goes sb ly t (.act a k : P V α) s L Q E := Ends.panics (ghost_panic he) h

theorem mono {p : P V α} {Q' : α → St T V.X → Finset ℕ → Prop} {E' : String → St T V.X → Prop}
    (h : Goes sb ly t p s L Q E) (hQ : ∀ x s' L', Q x s' L' → Q' x s' L')
    (hE : ∀ m s', E m s' → E' m s') : Goes sb ly t p s L Q' E' :=
  Ends.mono h (fun x s' => hQ x s'.1 s'.2) fun m s' => hE m s'.1

theorem bind {p : P V β} {f : β → P V α}
    (h : Goes sb ly t p s L (fun x s' L' => Goes sb ly t (f x) s' L' Q E) E) :
    Goes sb ly t (p >>= f) s L Q E := Ends.bind h

/-- The result of the run, if it returns. -/
theorem solo {p : P V α} (h : Goes sb ly t p s L Q E) {x : α} {s' : St T V.X}
    (hs : Threads.solo (exec sb) t p s = some (x, s')) : ∃ L', Q x s' L' := by
  rw [solo_ghost (f := fun a b L => L ∪ logged ly a b) p s L, Option.map_eq_some_iff] at hs
  obtain ⟨⟨y, s₁, L'⟩, hs, he⟩ := hs
  obtain ⟨rfl, rfl⟩ := Prod.mk.inj he
  exact ⟨L', Ends.solo h hs⟩

/-- The run, without the blocks that it logs. -/
theorem ends {p : P V α} {Q : α → St T V.X → Prop} (h : Goes sb ly t p s L (fun x s' _ => Q x s') E) :
    Ends (exec sb) t p s Q E := Ends.of_ghost h

theorem returns {p : P V α} (h : Goes sb ly t p s L Q fun _ _ => False) :
    ∃ x s' L', Threads.solo (exec sb) t p s = some (x, s') ∧ Q x s' L' := by
  obtain ⟨x, ⟨s', L'⟩, hs, hQ⟩ := Ends.returns h
  refine ⟨x, s', L', ?_, hQ⟩
  rw [solo_ghost p s L, hs]
  rfl

end Goes

/-! ## `balloc` -/

/-- What `balloc` does: it allocates an unused block, or there is none. -/
structure Balloc (sb : Sb) (ly : Layout) (t : T) (s : St T V.X) (L : Finset ℕ) (b : ℕ)
    (s' : St T V.X) (L' : Finset ℕ) : Prop where
  free : s.bit b = false
  lt : b < sb.size
  state : s' = s.alloc t b
  log : L' = L ∪ {ly.bblock b} ∪ {b}

theorem ballocFrom_does (k n : ℕ) :
    Does sb ly t (ballocFrom k n) s L fun b s' L' =>
      (b = 0 ∧ s' = s ∧ L' = L ∧ ∀ b < sb.size, k ≤ b / bpb → b / bpb < k + n → s.bit b) ∨
      Balloc sb ly t s L b s' L' := by
  induction n generalizing k with
  | zero => exact .ret (.inl ⟨rfl, rfl, rfl, fun b _ h1 h2 => by omega⟩)
  | succ n ih =>
    cases hf : s.firstClear sb k with
    | none =>
      have he : exec sb (.bscan k) t s = .done none s := by simp only [exec, execBscan, hf]
      refine .act he ?_
      rw [show logged ly (.bscan k : Act V.E) none = ∅ from rfl, union_empty]
      refine (ih (k + 1)).mono fun b s' L' h => ?_
      rcases h with ⟨hb, hs, hL, hall⟩ | h
      · refine .inl ⟨hb, hs, hL, fun b hb h1 h2 => ?_⟩
        by_cases hbk : b / bpb = k
        · exact firstClear_none hf hb hbk
        · exact hall b hb (by omega) (by omega)
      · exact .inr h
    | some b =>
      obtain ⟨hfree, hlt, hk⟩ := firstClear_some hf
      have he : exec sb (.bscan k) t s =
          .done (some b) { s.setBit b true with readAlloc := s.readAlloc || s.reading t } := by
        simp only [exec, execBscan, hf]
      refine .act he (.act rfl (.ret (.inr ⟨hfree, hlt, rfl, ?_⟩)))
      show L ∪ {k + ly.bmapstart} ∪ {b} = _
      unfold Layout.bblock
      rw [hk]

theorem balloc_does :
    Does sb ly t (balloc sb) s L fun b s' L' =>
      (b = 0 ∧ s' = s ∧ L' = L ∧ ∀ b < sb.size, s.bit b) ∨ Balloc sb ly t s L b s' L' := by
  refine (ballocFrom_does 0 _).mono fun b s' L' h => ?_
  rcases h with ⟨hb, hs, hL, hall⟩ | h
  · refine .inl ⟨hb, hs, hL, fun b hb => hall b hb (Nat.zero_le _) ?_⟩
    unfold bpb bsize
    omega
  · exact .inr h

/-! ## `bmap` -/

/-- `bmap` of a block that the file has. -/
theorem bmap_hit (hbn : bn < maxFile) (h0 : refAt s.blk ip.d (slotOf bn) ≠ 0)
    {Q : ℕ × Ip → St T V.X → Finset ℕ → Prop} (hQ : Q (refAt s.blk ip.d (slotOf bn), ip) s L) :
    Does sb ly t (bmap sb ip bn) s L Q := by
  unfold bmap
  unfold slotOf at h0 hQ
  split_ifs at h0 hQ ⊢ with hd h1 h2 h3
  · rw [refAt_direct (by omega)] at h0
    exact absurd h1 h0
  · rw [refAt_direct (by omega)] at hQ
    exact .ret hQ
  · exact absurd (refAt_none (by omega) h3) h0
  · rw [refAt_word (by omega) h3, Nat.add_sub_add_right] at h0 hQ
    refine .act rfl ?_
    show Does sb ly t (if (s.blk (ip.d.addrs ndirect)).word (bn - ndirect) = 0 then _ else _) s
      (L ∪ ∅) _
    rw [union_empty, if_neg h0]
    exact .ret hQ
  · unfold maxFile at hbn
    omega

section

variable (hw : (s.view ip).Wf sb) (hl : ip.d.type ≠ .free)
include hw hl

theorem bmapDirect_does (hbn : bn < ndirect) (h0 : ip.d.addrs bn = 0) :
    Does sb ly t (do
      let b ← balloc sb
      if b = 0 then return (0, ip) else return (b, ip.setAddr bn b) : P V (ℕ × Ip)) s L
      (Mapped sb s ip bn L) := by
  have hmax : bn < maxFile := by unfold maxFile; omega
  have hs : slotOf bn = bn := if_pos hbn
  have hr : refAt s.blk ip.d (slotOf bn) = 0 := by rw [hs, refAt_direct (by omega), h0]
  refine .bind (balloc_does.mono fun b s' L' h => ?_)
  rcases h with ⟨rfl, rfl, rfl, hfull⟩ | ⟨hfree, hlt, rfl, rfl⟩
  · exact .ret (.miss hw hfull hr)
  · have ha : Adds sb (s.view ip) ((s.alloc t b).view (ip.setAddr bn b)) ip.inum (slotOf bn) b := by
      rw [view_setAddr, hs]
      have h1 : (s.view ip).ref ip.inum bn = 0 := by rw [view_ref, ← hs]; exact hr
      have := Adds.setAddr hw (view_live.2 hl) (by omega) h1 hfree hlt
      rwa [view_din] at this
    have hsame : (ip.setAddr bn b).d.addrs ndirect = ip.d.addrs ndirect :=
      update_of_ne (by omega) ..
    rw [if_neg (ha.ne_zero hw)]
    refine .ret (Mapped.added hw hl hmax ha ⟨rfl, rfl, rfl, rfl, rfl⟩ rfl rfl rfl
      (.inl rfl) ?_)
    unfold noIndirect
    rw [hsame]

theorem bmapIndirect_does {w : ℕ} (hwn : w < nindirect) (ha : ip.d.addrs ndirect ≠ 0)
    (h0 : (s.blk (ip.d.addrs ndirect)).word w = 0) :
    Does sb ly t (bmapIndirect sb ip w) s L (Mapped sb s ip (ndirect + w) L) := by
  have hmax : ndirect + w < maxFile := by unfold maxFile; omega
  have hs : slotOf (ndirect + w) = ndirect + 1 + w := by
    unfold slotOf
    rw [if_neg (by omega)]
    omega
  have href : refAt s.blk ip.d (slotOf (ndirect + w)) = (s.blk (ip.d.addrs ndirect)).word w := by
    rw [hs, refAt_word (by omega) ha, Nat.add_sub_cancel_left]
  refine .act rfl ?_
  show Does sb ly t (if (s.blk (ip.d.addrs ndirect)).word w = 0 then _ else _) s (L ∪ ∅) _
  rw [union_empty, if_pos h0]
  refine .bind (balloc_does.mono fun b s' L' h => ?_)
  rcases h with ⟨rfl, rfl, rfl, hfull⟩ | ⟨hfree, hlt, rfl, rfl⟩
  · exact .ret (.miss hw hfull (href.trans h0))
  · have hA : Adds sb (s.view ip)
        (((s.alloc t b).setBlk (ip.d.addrs ndirect)
          (((s.alloc t b).blk (ip.d.addrs ndirect)).setWord w b)).view ip) ip.inum
        (slotOf (ndirect + w)) b := by
      have := Adds.setWord (w := w) hw (view_live.2 hl) (by rwa [view_din])
        (by rw [view_din]; exact h0) hfree hlt
      rwa [view_din, ← hs] at this
    rw [if_neg (hA.ne_zero hw)]
    exact .act rfl (.ret (.added hw hl hmax hA ⟨rfl, rfl, rfl, rfl, rfl⟩ rfl rfl rfl
      (.inr ⟨rfl, ha⟩) rfl))

/-- `bmap` returns the block that holds block `bn` of a file. -/
theorem bmap_does (hbn : bn < maxFile) :
    Does sb ly t (bmap sb ip bn) s L (Mapped sb s ip bn L) := by
  by_cases h0 : refAt s.blk ip.d (slotOf bn) = 0
  swap
  · exact bmap_hit hbn h0 (.hit hw hbn h0)
  unfold bmap
  by_cases hd : bn < ndirect
  · have hb : ip.d.addrs bn = 0 := by
      rwa [show slotOf bn = bn from if_pos hd, refAt_direct (by omega)] at h0
    rw [if_pos hd, if_pos hb]
    exact bmapDirect_does hw hl hd hb
  · have hwn : bn - ndirect < nindirect := by
      unfold maxFile at hbn
      omega
    have hbn' : ndirect + (bn - ndirect) = bn := by omega
    have hslot : slotOf bn = bn + 1 := if_neg hd
    rw [if_neg hd, if_pos hwn]
    split_ifs with hn
    · refine .bind (balloc_does.mono fun b s' L' h => ?_)
      rcases h with ⟨rfl, rfl, rfl, hfull⟩ | ⟨hfree, hlt, rfl, rfl⟩
      · exact .ret (.miss hw hfull h0)
      · have ha : Adds sb (s.view ip) ((s.alloc t b).view (ip.setAddr ndirect b)) ip.inum ndirect b := by
          rw [view_setAddr]
          have := Adds.setAddr hw (view_live.2 hl) le_rfl
            (by rw [view_ref, refAt_direct le_rfl, hn]) hfree hlt
          rwa [view_din] at this
        have hb0 := ha.ne_zero hw
        have hnew : (ip.setAddr ndirect b).d.addrs ndirect = b := by
          rw [setAddr_addrs, update_self]
        have hzero : ((s.alloc t b).blk ((ip.setAddr ndirect b).d.addrs ndirect)).word
            (bn - ndirect) = 0 := by
          rw [hnew, show (s.alloc t b).blk b = fun _ => 0 from update_self ..]
          rfl
        rw [if_neg hb0]
        have hword : Does sb ly t (bmapIndirect sb (ip.setAddr ndirect b) (bn - ndirect))
            (s.alloc t b) (L ∪ {ly.bblock b} ∪ {b}) _ :=
          bmapIndirect_does (ha.wf hw) hl hwn (hnew.trans_ne hb0) hzero
        rw [hbn'] at hword
        exact hword.mono fun r s' L' h =>
          .indirect hw hl ha ⟨rfl, rfl, rfl, rfl, rfl⟩ rfl rfl rfl h
    · rw [hslot, refAt_word (by omega) hn, Nat.add_sub_add_right] at h0
      have hword : Does sb ly t (bmapIndirect sb ip (bn - ndirect)) s L _ :=
        bmapIndirect_does hw hl hwn hn h0
      rwa [hbn'] at hword

end

end Xv6.Fs
