import Xv6.Log.Clients

/-!
# Proof rules for `commit`

The actions of the committing thread move it from stage to stage: `write_log` copies the group to the
log area, `write_head` commits it, `install_trans` writes it home and unpins it, and the second
`write_head` clears the log.
-/

namespace Xv6.Log

open Function Xv6.Threads

/-! ## The header block -/

theorem word_setBlocks_low (l : List ℕ) (b : Block) {k j : ℕ} (h : j ≤ k) :
    (setBlocks b k l).word j = b.word j := by
  induction l generalizing b k with
  | nil => rfl
  | cons x l ih =>
    show (setBlocks (b.setWord (k + 1) x) (k + 1) l).word j = b.word j
    rw [ih _ (by omega), Block.word_setWord_ne _ _ (by omega)]

theorem word_setBlocks (l : List ℕ) (b : Block) (k i : ℕ) (hl : ∀ x ∈ l, x < 2 ^ 32)
    (hi : i < l.length) : (setBlocks b k l).word (k + 1 + i) = l[i] := by
  induction l generalizing b k i with
  | nil => cases hi
  | cons x l ih =>
    show (setBlocks (b.setWord (k + 1) x) (k + 1) l).word (k + 1 + i) = _
    cases i with
    | zero =>
      rw [word_setBlocks_low _ _ (by omega), Nat.add_zero, Block.word_setWord _ _ (hl x (by simp))]
      rfl
    | succ i =>
      have := ih (b.setWord (k + 1) x) (k + 1) i (fun y hy => hl y (List.mem_cons_of_mem x hy))
        (by simpa using hi)
      rw [show k + 1 + (i + 1) = k + 1 + 1 + i by omega, this]
      rfl

theorem getHead_setHead (b : Block) (l : List ℕ) (hn : l.length ≤ logBlocks)
    (hl : ∀ x ∈ l, x < 2 ^ 32) : getHead (setHead b l) = l := by
  have h0 : (setHead b l).word 0 = l.length := by
    unfold setHead
    rw [word_setBlocks_low _ _ (Nat.zero_le _), Block.word_setWord]
    exact lt_of_le_of_lt hn (by decide)
  unfold getHead
  rw [h0]
  refine List.ext_getElem (by simp) fun i h₁ h₂ => ?_
  simp only [List.getElem_map, List.getElem_range]
  have := word_setBlocks l (b.setWord 0 l.length) 0 i hl h₂
  rwa [show 0 + 1 + i = i + 1 by omega] at this

theorem word_setHead_nil (b : Block) : (setHead b []).word 0 = 0 :=
  Block.word_setWord b 0 (by decide)

/-! ## Moving between stages -/

variable {T : Type} [DecidableEq T] [Fintype T]
variable {m : Mode} {dev start : ℕ} {d₀ : ℕ → Block} {s s' : St T} {G : T → Gh} {st st' : Stage}
  {t : T} {g : Gh} {α : Type} {Q : α → Gh → Prop}

variable (h : InvAt m dev start d₀ s G st)

include h

theorem InvAt.stage_eq (hne : (G t).stage ≠ .client) : st = (G t).stage :=
  ((h.role t).resolve_left hne).symm

theorem InvAt.at_stage (hst : (G t).stage = st') (hne : st' ≠ .client) :
    st = st' ∧ (G t).stage ≠ .client :=
  ⟨(h.stage_eq (hst ▸ hne)).trans hst, hst ▸ hne⟩

theorem InvAt.others (hne : (G t).stage ≠ .client) {u : T} (hu : u ≠ t) :
    (G u).stage = .client := by
  by_contra hc
  exact hu (h.solo u t hc hne)

theorem InvAt.clean (hdis : m.disc) (hne : st ≠ .client) (b : ℕ) : dirty s.hist b = false := by
  by_contra hb
  obtain ⟨i, u, -, -, -, -, ho⟩ := (h.coh hdis).held b (eq_true_of_ne_false hb)
  rw [h.mem.noOp hne u] at ho
  cases ho

omit h in
theorem curGroup_eq (hist : List Event) (h : st ≠ .client) (h' : st' ≠ .client) :
    curGroup hist st' = curGroup hist st := by
  cases st <;> cases st' <;> first | rfl | contradiction

omit h in
theorem closed_eq (h : st ≠ .client) : st.closed = 1 := by
  cases st <;> first | rfl | contradiction

theorem InvAt.wake_move {s' : St T} {g' : Gh} (hne : (G t).stage ≠ .client) (hne' : st' ≠ .client)
    (hc : s'.committing = s.committing) (hsl : s'.asleep = s.asleep) :
    Wake s' st' (update G t g') := by
  have hst : st ≠ .client := by
    rw [h.stage_eq hne]
    exact hne
  refine ⟨fun he => absurd he hne', fun _ _ => .inl ?_, fun u hu => ?_⟩
  · rw [hc]
    exact h.mem.comm.2 hst
  · rw [hsl]
    by_cases hut : u = t
    · subst hut
      exact h.wake.awake u (.inr hne)
    · rw [update_of_ne hut] at hu
      exact h.wake.awake u hu

theorem InvAt.logged_data {i : BufId} {b : ℕ} (hd : (s.buf i).dev = dev)
    (hb : (s.buf i).blockno = b) (hp : pinned s.hist b) :
    curGroup s.hist st b = some (s.buf i).data := by
  obtain ⟨x, j, hg, hdj, hbj, -, hx⟩ := h.pinned_buf hp
  have hji := h.bio.uniq j i hdj hd (by rw [hbj, hb])
  subst hji
  rw [hx, hg]

theorem InvAt.area_data {i : BufId} {b : ℕ} (hkn : (G t).kn i = some b) (hr : (G t).raw = none)
    (hmd : (G t).md = none) (hin : InLog start b) : (s.buf i).data = s.disk b := by
  obtain ⟨hl, hb, hd, hv, -⟩ := h.held_buf hkn hr
  rcases h.data.area i hd (by rw [hb]; exact hin) hv with e | ⟨u, hu⟩
  · rw [e, hb]
  · have hlu := (h.data.mdLock u i _ hu).1
    rw [hl] at hlu
    cases hlu
    rw [hmd] at hu
    cases hu

/-- The committing thread changes a buffer of the log area that it holds. -/
theorem InvAt.modify {i : BufId} {b : ℕ} {x : Block} (hkn : (G t).kn i = some b)
    (hr : (G t).raw = none) (hmd : (G t).md = none) (hin : InLog start b)
    (hne : (G t).stage ≠ .client) : InvAt m dev start d₀ (s.setBuf i { s.buf i with data := x })
      (update G t { G t with md := some (i, x) }) st := by
  obtain ⟨hl, hb, hd, hv, -⟩ := h.held_buf hkn hr
  have hs : Same s (s.setBuf i { s.buf i with data := x }) := same_enter s i _ _
  have hi : (s.setBuf i { s.buf i with data := x }).buf i = { s.buf i with data := x } :=
    setBuf_self s i _
  have hn : ∀ j ≠ i, (s.setBuf i { s.buf i with data := x }).buf j = s.buf j :=
    fun j hj => setBuf_ne s _ hj
  have hlk : ∀ j, ((s.setBuf i { s.buf i with data := x }).buf j).lock = (s.buf j).lock := by
    intro j
    by_cases hj : j = i
    · subst hj; rw [hi]
    · rw [hn j hj]
  -- logged blocks are home blocks
  have hnp : pinned s.hist (s.buf i).blockno ≠ true := by
    intro hp
    have hst := h.stage_eq hne
    have hmem := (h.mem.pin _).1 hp
    have : (s.buf i).blockno ∈ s.lh := by
      cases st with
      | client => exact hmem
      | wlog l gr k => exact hmem
      | inst l gr k u => exact List.mem_of_mem_drop hmem
      | clr l gr => simp [Stage.pinned] at hmem
      | fin => simp [Stage.pinned] at hmem
    exact (h.mem.home _ this).1 (by rw [hb]; exact hin)
  refine h.frame hs rfl rfl (fun hc => absurd hc hne) ?_ ?_ (fun hdis => ?_)
    (h.wake.same hs rfl rfl rfl)
  · simp only [update_eq_self]
    refine h.bio.congr rfl rfl (fun j => ?_) fun _ => rfl
    by_cases hj : j = i
    · subst hj; exact ⟨x, hi⟩
    · exact ⟨(s.buf j).data, hn j hj⟩
  · refine ⟨fun c y hp hg => ?_, fun j hdj hbj hvj => ?_, fun u j y hu => ?_⟩
    · rw [hs.pinned] at hp
      rw [hs.curGroup] at hg
      obtain ⟨j, hdj, hbj, hvj, hyj⟩ := h.data.logged c y hp hg
      have hj : j ≠ i := by rintro rfl; exact hnp (by rw [hbj]; exact hp)
      exact ⟨j, by rw [hn j hj]; exact ⟨hdj, hbj, hvj, hyj⟩⟩
    · by_cases hj : j = i
      · subst hj
        exact Or.inr ⟨t, by rw [update_self, hi]⟩
      · rw [hn j hj] at hdj hbj hvj ⊢
        rcases h.data.area j hdj hbj hvj with e | ⟨u, hu⟩
        · exact Or.inl e
        · refine Or.inr ⟨u, ?_⟩
          have hut : u ≠ t := by rintro rfl; rw [hmd] at hu; cases hu
          rw [update_of_ne hut]
          exact hu
    · obtain ⟨rfl, ⟨⟩⟩ | ⟨hut, hu⟩ := update_cases hu
      · rw [hi]
        exact ⟨hl, rfl⟩
      · rw [h.quiet u (h.others hne hut)] at hu
        cases hu
  · rw [update_eq_self]
    have hco := h.coh hdis
    refine ⟨fun j hdj hvj hbj => ?_, fun c hc => ?_, hco.disk, ?_, hco.breads⟩
    · by_cases hj : j = i
      · subst hj
        rw [hi] at hbj
        exact absurd hin (by rw [← hb]; exact hbj)
      · rw [hn j hj] at hdj hbj hvj ⊢
        exact hco.buf j hdj hvj hbj
    · obtain ⟨j, u, h₁, h₂, h₃, h₄, h₅⟩ := hco.held c hc
      refine ⟨j, u, ?_, ?_, by rw [hlk]; exact h₃, h₄, h₅⟩
      · by_cases hj : j = i
        · subst hj; rw [hi]; exact h₁
        · rw [hn j hj]; exact h₁
      · by_cases hj : j = i
        · subst hj; rw [hi]; exact h₂
        · rw [hn j hj]; exact h₂
    · intro c y hp hg
      rw [hs.curGroup] at hg
      exact hco.grp c y hp hg

omit h in
/-- The committing thread writes a buffer that it holds, and moves to stage `st'`. -/
theorem InvAt.write (h : InvAt m dev start d₀ s G st) {i : BufId} {b : ℕ}
    (hdisk : Disk start d₀ (update s.disk b (s.buf i).data) s.lh (groups s.hist) st')
    (hkn : (G t).kn i = some b) (hr : (G t).raw = none) (hne : (G t).stage ≠ .client)
    (hmd : ∀ j x, (G t).md = some (j, x) → j = i) (hne' : st' ≠ .client)
    (hpin : st'.pinned s.lh = st.pinned s.lh)
    (hdom : st' ≠ .fin → st ≠ .fin ∧ st'.blocks s.lh = st.blocks s.lh)
    (hlate : ∀ c ∈ st.waiting s.lh, c ≠ b → c ∈ st'.waiting s.lh)
    (hhome : ¬ InLog start b → pinned s.hist b) :
    ∃ s₁, s.bwrite i t = .done () s₁ ∧
      InvAt m dev start d₀ s₁ (update G t { G t with md := none, stage := st' }) st' := by
  obtain ⟨hl, hb, hd, hv, -⟩ := h.held_buf hkn hr
  have hst := h.stage_eq hne
  have hstc : st ≠ .client := by rw [hst]; exact hne
  refine ⟨_, if_pos hl, ?_⟩
  have hcur : curGroup s.hist st' = curGroup s.hist st := curGroup_eq s.hist hstc hne'
  have hothmd : ∀ u ≠ t, (G u).md = none := fun u hu => h.quiet u (h.others hne hu)
  refine h.move (fun u => h.others hne) (fun _ => rfl) rfl rfl (h.inOp t) (fun _ _ => rfl) h.out
    (h.bio.congr rfl rfl (fun j => ⟨_, rfl⟩) fun _ => rfl) ?_ ?_ ?_ ?_ ?_ (fun hdis => ?_)
    (fun hlm => ⟨(h.res hlm).fits, (h.res hlm).op⟩) (h.wake_move hne hne' rfl rfl)
  · refine ⟨h.mem.nodup, h.mem.home, h.mem.len, ?_, fun _ => h.mem.noOp hstc, fun c => ?_, h.mem.npin,
      fun c hu => ?_⟩
    · exact ⟨fun _ => hne', fun _ => h.mem.comm.2 hstc⟩
    · show pinned s.hist c ↔ c ∈ st'.pinned s.lh
      rw [hpin]
      exact h.mem.pin c
    · have hu' : (if c = (s.buf i).blockno then false else uninstalled s.hist c) = true := hu
      rw [hb] at hu'
      split_ifs at hu' with hcb
      exact hlate c (h.mem.late c hu') hcb
  · refine ⟨fun _ => h.grp.shut hstc, fun hf c => ?_, ?_, h.grp.once, h.grp.old, h.grp.now⟩
    · show (curGroup s.hist st' c).isSome ↔ c ∈ st'.blocks s.lh
      rw [hcur, (hdom hf).2]
      exact h.grp.dom (hdom hf).1 c
    · have := h.grp.count
      rw [closed_eq hstc] at this
      rw [closed_eq hne']
      exact this
  · refine ⟨fun c y hp hg => ?_, fun j hdj hbj hvj => ?_, fun u j y hu => ?_⟩
    · have hg' : curGroup s.hist st' c = some y := hg
      rw [hcur] at hg'
      exact h.data.logged c y hp hg'
    · -- only the buffer that was written changes its block on disk
      left
      show (s.buf j).data = update s.disk (s.buf i).blockno (s.buf i).data (s.buf j).blockno
      by_cases hj : j = i
      · rw [hj, update_self]
      · have hbne : (s.buf j).blockno ≠ (s.buf i).blockno :=
          fun e => hj (h.bio.uniq j i hdj hd e)
        rw [update_of_ne hbne]
        rcases h.data.area j hdj hbj hvj with e | ⟨u, hu⟩
        · exact e
        · by_cases hut : u = t
          · subst hut
            exact absurd (hmd j _ hu) hj
          · rw [hothmd u hut] at hu
            cases hu
    · obtain ⟨-, ⟨⟩⟩ | ⟨hut, hu⟩ := update_cases hu
      rw [hothmd u hut] at hu
      cases hu
  · show Disk start d₀ (update s.disk (s.buf i).blockno (s.buf i).data) _ _ st'
    rw [hb]
    exact hdisk
  · show update s.disk (s.buf i).blockno (s.buf i).data =
      update (written d₀ s.hist) (s.buf i).blockno (s.buf i).data
    rw [h.wrote]
  · have hco := h.coh hdis
    refine ⟨hco.buf, hco.held, fun c hc hp => ?_, fun c y hp hg => ?_, hco.breads⟩
    · show update s.disk (s.buf i).blockno (s.buf i).data c = contents d₀ s.hist c
      have hcb : c ≠ (s.buf i).blockno := by
        rintro rfl
        have hp' : pinned s.hist (s.buf i).blockno = false := hp
        rw [hb] at hc hp'
        rw [hhome hc] at hp'
        cases hp'
      rw [update_of_ne hcb]
      exact hco.disk c hc hp
    · have hg' : curGroup s.hist st' c = some y := hg
      rw [hcur] at hg'
      exact hco.grp c y hp hg'

/-! ## Reading the in-memory header -/

/-- The in-memory header as the committing thread knows it. -/
def Stage.lh : Stage → Option (List ℕ)
  | .client => none
  | .wlog l _ _ => some l
  | .inst l _ _ _ => some l
  | .clr _ _ => some []
  | .fin => some []

theorem InvAt.lh_eq {l : List ℕ} (hl : (G t).stage.lh = some l) : s.lh = l := by
  have hne : (G t).stage ≠ .client := by intro e; rw [e] at hl; cases hl
  have hd := h.disk
  rw [h.stage_eq hne] at hd
  cases hst : (G t).stage with
  | client => exact absurd hst hne
  | wlog l' gr k => rw [hst] at hl hd; cases hl; exact hd.1
  | inst l' gr k u => rw [hst] at hl hd; cases hl; exact hd.1
  | clr l' gr => rw [hst] at hl hd; cases hl; exact hd.1
  | fin => rw [hst] at hl hd; cases hl; exact hd.1

omit h

theorem ok_lhN {l : List ℕ} {k : ℕ → P α} (hl : g.stage.lh = some l)
    (hk : LogOk m dev start d₀ t (k l.length) g Q) :
    LogOk m dev start d₀ t (.act .lhN k) g Q := by
  apply ok_done
  rintro s G ⟨st, h⟩ rfl -
  refine ⟨s.lh.length, s, rfl, G t, ⟨st, ?_⟩, ?_⟩
  · rw [update_eq_self]; exact h
  · rw [h.lh_eq hl]; exact hk

theorem ok_lhBlock {l : List ℕ} {i b : ℕ} {k : ℕ → P α} (hl : g.stage.lh = some l)
    (hi : l[i]? = some b) (hk : LogOk m dev start d₀ t (k b) g Q) :
    LogOk m dev start d₀ t (.act (.lhBlock i) k) g Q := by
  apply ok_done
  rintro s G ⟨st, h⟩ rfl -
  refine ⟨s.lh.getD i 0, s, rfl, G t, ⟨st, ?_⟩, ?_⟩
  · rw [update_eq_self]; exact h
  · rw [h.lh_eq hl, List.getD_eq_getElem?_getD, hi]; exact hk

/-! ## `write_log` -/

section WriteLog

variable {l : List ℕ} {gr : Group} {k₀ : ℕ}

theorem ok_memmoveLog {dst src : BufId} {b c : ℕ} {k : Unit → P α} (hst : g.stage = .wlog l gr k₀)
    (hd : g.kn dst = some b) (hs : g.kn src = some c) (hin : InLog start b) (hc : c ∈ l)
    (hr : g.raw = none) (hmd : g.md = none)
    (hk : ∀ x, gr c = some x → LogOk m dev start d₀ t (k ()) { g with md := some (dst, x) } Q) :
    LogOk m dev start d₀ t (.act (.memmove dst src) k) g Q := by
  apply ok_done
  rintro s G ⟨st, h⟩ rfl -
  have hne : (G t).stage ≠ .client := by rw [hst]; exact nofun
  have hst' : st = .wlog l gr k₀ := (h.stage_eq hne).trans hst
  obtain ⟨-, hbs, hds, -, -⟩ := h.held_buf hs hr
  have hdisk := h.disk
  rw [hst'] at hdisk
  -- the source is pinned, so it has the contents of the group
  have hp : pinned s.hist c := by
    rw [h.mem.pin, hst']
    show c ∈ s.lh
    rw [hdisk.1]
    exact hc
  have hx := h.logged_data hds hbs hp
  rw [hst'] at hx
  refine ⟨(), _, rfl, _, ⟨st, h.modify hd hr hmd hin hne⟩, hk _ ?_⟩
  rw [← hdisk.2.1]
  exact hx

theorem ok_bwriteLog {i : BufId} {c : ℕ} {x : Block} {k : Unit → P α}
    (hst : g.stage = .wlog l gr k₀) (hkn : g.kn i = some (start + k₀ + 1)) (hc : l[k₀]? = some c)
    (hr : g.raw = none) (hmd : g.md = some (i, x)) (hx : gr c = some x)
    (hk : LogOk m dev start d₀ t (k ()) { g with md := none, stage := .wlog l gr (k₀ + 1) } Q) :
    LogOk m dev start d₀ t (.act (.bwrite i) k) g Q := by
  apply ok_done
  rintro s G ⟨st, h⟩ rfl -
  obtain ⟨rfl, hne⟩ := h.at_stage hst (by simp)
  obtain ⟨hlh, hgr, hw, hh, hkl, hcp⟩ := h.disk
  have hlt : k₀ < l.length := (List.getElem?_eq_some_iff.1 hc).1
  have hlog : InLog start (start + k₀ + 1) := by
    have := h.mem.len
    rw [hlh] at this
    exact ⟨by omega, by omega⟩
  have hdisk : Disk start d₀ (update s.disk (start + k₀ + 1) (s.buf i).data) s.lh
      (groups s.hist) (.wlog l gr (k₀ + 1)) := by
    rw [(h.data.mdLock t i x hmd).2]
    refine ⟨hlh, hgr, ?_, fun b hb => ?_, hlt, fun j b hj hb => ?_⟩
    · rw [update_of_ne (by omega)]; exact hw
    · rw [update_of_ne (by rintro rfl; exact hb hlog)]; exact hh b hb
    · by_cases hjk : j = k₀
      · subst hjk
        rw [hc] at hb
        cases hb
        rw [update_self]
        exact hx
      · rw [update_of_ne (by omega)]
        exact hcp j b (by omega) hb
  obtain ⟨s₁, he, hI⟩ := h.write hdisk hkn hr hne
    (fun j y hj => by rw [hmd] at hj; cases hj; rfl) nofun rfl (fun _ => ⟨nofun, rfl⟩)
    (fun _ hc _ => hc) (fun hn => absurd hlog hn)
  exact ⟨(), s₁, he, _, ⟨_, hI⟩, hk⟩

end WriteLog

/-! ## `write_head` -/

section WriteHead

variable {l : List ℕ} {gr : Group}

theorem ok_headOut {i : BufId} {k : Unit → P α} (hl : g.stage.lh = some l)
    (hkn : g.kn i = some start) (hr : g.raw = none) (hmd : g.md = none)
    (hk : ∀ d, LogOk m dev start d₀ t (k ()) { g with md := some (i, setHead d l) } Q) :
    LogOk m dev start d₀ t (.act (.headOut i) k) g Q := by
  apply ok_done
  rintro s G ⟨st, h⟩ rfl -
  have hne : (G t).stage ≠ .client := by intro e; rw [e] at hl; cases hl
  refine ⟨(), _, rfl, _, ⟨st, ?_⟩, hk (s.buf i).data⟩
  rw [h.lh_eq hl]
  exact h.modify hkn hr hmd ⟨le_refl _, by omega⟩ hne

/-- The commit point. -/
theorem ok_bwriteHead {i : BufId} {d : Block} {k : Unit → P α}
    (hst : g.stage = .wlog l gr l.length) (hkn : g.kn i = some start) (hr : g.raw = none)
    (hmd : g.md = some (i, setHead d l))
    (hk : LogOk m dev start d₀ t (k ()) { g with md := none, stage := .inst l gr 0 0 } Q) :
    LogOk m dev start d₀ t (.act (.bwrite i) k) g Q := by
  apply ok_done
  rintro s G ⟨st, h⟩ rfl -
  obtain ⟨rfl, hne⟩ := h.at_stage hst (by simp)
  obtain ⟨hlh, hgr, hw, hh, hkl, hcp⟩ := h.disk
  have hdisk : Disk start d₀ (update s.disk start (s.buf i).data) s.lh (groups s.hist)
      (.inst l gr 0 0) := by
    rw [(h.data.mdLock t i _ hmd).2]
    refine ⟨hlh, hgr, ?_, Nat.zero_le _, le_refl _, fun j b hj hb => ?_, fun b hb => ?_⟩
    · rw [update_self]
      refine getHead_setHead d l ?_ fun x hx => ?_
      · rw [← hlh]; exact h.mem.len
      · exact (h.mem.home x (by rw [hlh]; exact hx)).2
    · rw [update_of_ne (by omega)]
      exact hcp j b hj hb
    · rw [update_of_ne (by rintro rfl; exact hb ⟨le_refl _, by omega⟩),
        List.take_zero, if_neg List.not_mem_nil]
      exact hh b hb
  obtain ⟨s₁, he, hI⟩ := h.write hdisk hkn hr hne
    (fun j y hj => by rw [hmd] at hj; cases hj; rfl) nofun rfl (fun _ => ⟨nofun, rfl⟩)
    (fun _ hc _ => hc) (fun hn => absurd ⟨le_refl _, by omega⟩ hn)
  exact ⟨(), s₁, he, _, ⟨_, hI⟩, hk⟩

theorem ok_bwriteClear {i : BufId} {d : Block} {k : Unit → P α}
    (hst : g.stage = .clr l gr) (hkn : g.kn i = some start) (hr : g.raw = none)
    (hmd : g.md = some (i, setHead d []))
    (hk : LogOk m dev start d₀ t (k ()) { g with md := none, stage := .fin } Q) :
    LogOk m dev start d₀ t (.act (.bwrite i) k) g Q := by
  apply ok_done
  rintro s G ⟨st, h⟩ rfl -
  obtain ⟨rfl, hne⟩ := h.at_stage hst (by simp)
  obtain ⟨hlh, -, -, -, -, -, -, hh⟩ := h.disk
  have hdisk : Disk start d₀ (update s.disk start (s.buf i).data) s.lh (groups s.hist)
      (.fin) := by
    rw [(h.data.mdLock t i _ hmd).2]
    refine ⟨hlh, ?_, fun b hb => ?_⟩
    · rw [update_self]; exact word_setHead_nil d
    · rw [update_of_ne (by rintro rfl; exact hb ⟨le_refl _, by omega⟩)]
      exact hh b hb
  obtain ⟨s₁, he, hI⟩ := h.write hdisk hkn hr hne
    (fun j y hj => by rw [hmd] at hj; cases hj; rfl) nofun rfl (fun hf => absurd rfl hf)
    (fun _ hc _ => hc) (fun hn => absurd ⟨le_refl _, by omega⟩ hn)
  exact ⟨(), s₁, he, _, ⟨_, hI⟩, hk⟩

end WriteHead

/-! ## `install_trans` -/

section Install

variable {l : List ℕ} {gr : Group} {k₀ : ℕ}

theorem InvAt.pinned_next {k₁ b : ℕ} (h : InvAt m dev start d₀ s G (.inst l gr k₁ k₀))
    (hb : l[k₀]? = some b) : pinned s.hist b ∧ b ∈ l.drop k₀ := by
  have hmem : b ∈ l.drop k₀ := by
    obtain ⟨hlt, rfl⟩ := List.getElem?_eq_some_iff.1 hb
    exact List.mem_drop_iff_getElem.2 ⟨0, by omega, by simp⟩
  refine ⟨(h.mem.pin b).2 ?_, hmem⟩
  show b ∈ s.lh.drop k₀
  rw [h.disk.1]
  exact hmem

/-- The logged contents are those that the buffer already has. -/
theorem ok_memmoveHome {dst src : BufId} {b : ℕ} {k : Unit → P α}
    (hst : g.stage = .inst l gr k₀ k₀) (hs : g.kn src = some (start + k₀ + 1))
    (hd : g.kn dst = some b) (hb : l[k₀]? = some b) (hr : g.raw = none) (hmd : g.md = none)
    (hk : LogOk m dev start d₀ t (k ()) g Q) :
    LogOk m dev start d₀ t (.act (.memmove dst src) k) g Q := by
  apply ok_done
  rintro s G ⟨st, h⟩ rfl -
  obtain ⟨rfl, hne⟩ := h.at_stage hst (by simp)
  obtain ⟨hlh, hgr, -, -, -, hcp, -⟩ := h.disk
  have hlt : k₀ < l.length := (List.getElem?_eq_some_iff.1 hb).1
  have hlog : InLog start (start + k₀ + 1) := by
    have := h.mem.len
    rw [hlh] at this
    exact ⟨by omega, by omega⟩
  obtain ⟨-, hbd, hdd, -, -⟩ := h.held_buf hd hr
  have hsrc := h.area_data hs hr hmd hlog
  have hdst := h.logged_data hdd hbd (h.pinned_next hb).1
  have hx : gr b = some (s.buf dst).data := by rw [← hgr]; exact hdst
  have heq : (s.buf src).data = (s.buf dst).data := by
    have := hcp k₀ b hlt hb
    rw [hx] at this
    rw [hsrc, ← Option.some.inj this]
  have hsame : s.memmove dst src = s := by
    unfold St.memmove St.setBuf
    rw [heq]
    simp
  refine ⟨(), _, rfl, G t, ⟨.inst l gr k₀ k₀, ?_⟩, hk⟩
  rw [hsame, update_eq_self]
  exact h

theorem ok_bwriteHome {i : BufId} {b : ℕ} {k : Unit → P α}
    (hst : g.stage = .inst l gr k₀ k₀) (hkn : g.kn i = some b) (hb : l[k₀]? = some b)
    (hr : g.raw = none) (hmd : g.md = none)
    (hk : LogOk m dev start d₀ t (k ()) { g with md := none, stage := .inst l gr (k₀ + 1) k₀ } Q) :
    LogOk m dev start d₀ t (.act (.bwrite i) k) g Q := by
  apply ok_done
  rintro s G ⟨st, h⟩ rfl -
  obtain ⟨rfl, hne⟩ := h.at_stage hst (by simp)
  obtain ⟨hlh, hgr, hhead, -, -, hcp, hh⟩ := h.disk
  have hlt : k₀ < l.length := (List.getElem?_eq_some_iff.1 hb).1
  have hmem : b ∈ l := List.mem_of_getElem? hb
  have hhome : ¬ InLog start b := (h.mem.home b (by rw [hlh]; exact hmem)).1
  obtain ⟨-, hbd, hdd, -, -⟩ := h.held_buf hkn hr
  have hp := (h.pinned_next hb).1
  have hx : curGroup s.hist (.inst l gr k₀ k₀) b = some (s.buf i).data := h.logged_data hdd hbd hp
  have hdisk : Disk start d₀ (update s.disk b (s.buf i).data) s.lh (groups s.hist)
      (.inst l gr (k₀ + 1) k₀) := by
    refine ⟨hlh, hgr, ?_, hlt, Nat.le_succ _, fun j c hj hc => ?_, fun c hc => ?_⟩
    · rw [update_of_ne (by rintro rfl; exact hhome ⟨le_refl _, by omega⟩)]
      exact hhead
    · have hjl : InLog start (start + j + 1) := by
        have := h.mem.len
        rw [hlh] at this
        exact ⟨by omega, by omega⟩
      rw [update_of_ne (by rintro rfl; exact hhome hjl)]
      exact hcp j c hj hc
    · have htake : c ∈ l.take (k₀ + 1) ↔ c ∈ l.take k₀ ∨ c = b := by
        rw [List.take_add_one, hb, List.mem_append]
        simp
      by_cases hcb : c = b
      · subst hcb
        rw [update_self, if_pos (htake.2 (Or.inr rfl))]
        cases hg : groups s.hist with
        | nil => exact absurd hg (h.grp.shut nofun).1
        | cons g₀ gs =>
          have hg₀ : g₀ c = some (s.buf i).data := by
            have := hx
            unfold curGroup at this
            rw [hg] at this
            exact this
          exact (applyGroup_some hg₀ _).symm
      · rw [update_of_ne hcb, hh c hc]
        by_cases hct : c ∈ l.take k₀
        · rw [if_pos hct, if_pos (htake.2 (Or.inl hct))]
        · rw [if_neg hct, if_neg (fun e => (htake.1 e).elim hct hcb)]
  have hlate : ∀ c ∈ s.lh.drop k₀, c ≠ b → c ∈ s.lh.drop (k₀ + 1) := by
    intro c hc hcb
    rw [hlh] at hc ⊢
    rw [List.drop_eq_getElem_cons hlt, (List.getElem?_eq_some_iff.1 hb).2] at hc
    exact (List.mem_cons.1 hc).resolve_left hcb
  obtain ⟨s₁, he, hI⟩ := h.write hdisk hkn hr hne
    (fun j y hj => by rw [hmd] at hj; cases hj) nofun rfl (fun _ => ⟨nofun, rfl⟩) hlate
    (fun _ => hp)
  exact ⟨(), s₁, he, _, ⟨_, hI⟩, hk⟩

theorem ok_bunpin {i : BufId} {b : ℕ} {k : Unit → P α}
    (hst : g.stage = .inst l gr (k₀ + 1) k₀) (hkn : g.kn i = some b) (hb : l[k₀]? = some b)
    (hr : g.raw = none) (hmd : g.md = none)
    (hk : LogOk m dev start d₀ t (k ()) { g with stage := .inst l gr (k₀ + 1) (k₀ + 1) } Q) :
    LogOk m dev start d₀ t (.act (.bunpin i) k) g Q := by
  apply ok_done
  rintro s G ⟨st, h⟩ rfl -
  obtain ⟨rfl, hne⟩ := h.at_stage hst (by simp)
  obtain ⟨hlh, hgr, hhead, hle, -, hcp, hh⟩ := h.disk
  obtain ⟨hlk, hbd, hdd, hv, -⟩ := h.held_buf hkn hr
  obtain ⟨hp, -⟩ := h.pinned_next hb
  -- the unpinned block leaves the list of pinned blocks
  have hdrop : l.drop k₀ = b :: l.drop (k₀ + 1) := by
    obtain ⟨hlt, rfl⟩ := List.getElem?_eq_some_iff.1 hb
    exact (List.drop_eq_getElem_cons hlt)
  have hnot : b ∉ l.drop (k₀ + 1) := by
    have hnd : (l.drop k₀).Nodup := by
      rw [← hlh]
      exact h.mem.nodup.sublist (List.drop_sublist _ _)
    rw [hdrop] at hnd
    exact (List.nodup_cons.1 hnd).1
  have hpin : ∀ c, pinned (s.bunpin i).hist c = if c = b then false else pinned s.hist c := by
    intro c
    show (if c = (s.buf i).blockno then false else pinned s.hist c) = _
    rw [hbd]
  have hbuf : ∀ j, ∃ r, (s.bunpin i).buf j = { s.buf j with refcnt := r } := by
    intro j
    by_cases hj : j = i
    · subst hj; exact ⟨_, setBuf_self s j _⟩
    · exact ⟨(s.buf j).refcnt, setBuf_ne s _ hj⟩
  refine ⟨(), _, rfl, _, ⟨.inst l gr (k₀ + 1) (k₀ + 1), ?_⟩, hk⟩
  refine h.move (fun u => h.others hne) (by simp) rfl rfl (h.inOp t) (fun _ _ => rfl) h.out
    (h.bio.bunpin hdd (by rw [hbd]; exact hp)) ?_ ?_ ?_ ?_ h.wrote (fun hdis => ?_) (fun hlm => ⟨(h.res hlm).fits, (h.res hlm).op⟩)
    (h.wake_move hne (by simp) rfl rfl)
  · refine ⟨h.mem.nodup, h.mem.home, h.mem.len, ⟨fun _ => by simp, fun _ => h.mem.comm.2 (by simp)⟩,
      fun _ => h.mem.noOp (by simp), fun c => ?_, fun c => ?_, h.mem.late⟩
    · have hc := h.mem.pin c
      simp only [Stage.pinned, hlh, hdrop, List.mem_cons] at hc
      show _ ↔ c ∈ s.lh.drop (k₀ + 1)
      rw [hpin, hlh]
      by_cases hcb : c = b
      · subst hcb
        rw [if_pos rfl]
        exact ⟨by simp, fun e => absurd e hnot⟩
      · rw [if_neg hcb, hc]
        exact ⟨fun e => e.resolve_left hcb, Or.inr⟩
    · have hn := h.mem.npin c
      rw [hpin]
      show pins s.hist c = (if c = (s.buf i).blockno then unpins s.hist c + 1 else unpins s.hist c) + _
      rw [hbd]
      by_cases hcb : c = b
      · subst hcb
        rw [if_pos hp] at hn
        rw [if_pos rfl, if_pos rfl, hn]
        rfl
      · rw [if_neg hcb, if_neg hcb]
        exact hn
  · exact ⟨fun _ => h.grp.shut (by simp), fun _ => h.grp.dom (by simp), h.grp.count, h.grp.once, h.grp.old,
      h.grp.now⟩
  · rw [update_eq_self]
    refine ⟨fun c y hpc hg => ?_, fun j hdj hbj hvj => ?_, fun u j y hu => ?_⟩
    · rw [hpin] at hpc
      split_ifs at hpc with hcb
      obtain ⟨j, hj⟩ := h.data.logged c y hpc hg
      obtain ⟨r, e⟩ := hbuf j
      exact ⟨j, by rw [e]; exact hj⟩
    · obtain ⟨r, e⟩ := hbuf j
      rw [e] at hdj hbj hvj ⊢
      exact h.data.area j hdj hbj hvj
    · obtain ⟨r, e⟩ := hbuf j
      rw [e]
      exact h.data.mdLock u j y hu
  · exact ⟨hlh, hgr, hhead, hle, le_refl _, hcp, hh⟩
  · have hco := h.coh hdis
    refine ⟨fun j hdj hvj hbj => ?_, fun c hc => ?_, fun c hc hpc => ?_, fun c y hpc hg => ?_,
      hco.breads⟩
    · obtain ⟨r, e⟩ := hbuf j
      rw [e] at hdj hbj hvj ⊢
      exact hco.buf j hdj hvj hbj
    · obtain ⟨j, u, h₁, h₂, h₃, h₄, h₅⟩ := hco.held c hc
      obtain ⟨r, e⟩ := hbuf j
      exact ⟨j, u, by rw [e]; exact h₁, by rw [e]; exact h₂, by rw [e]; exact h₃, h₄, h₅⟩
    · -- the block was installed, so the disk has the logged contents
      rw [hpin] at hpc
      by_cases hcb : c = b
      · subst hcb
        have hx := h.logged_data hdd hbd hp
        rcases hco.grp c _ hp hx with e | e
        · show s.disk c = contents d₀ s.hist c
          rw [← e, hh c hc, if_pos]
          · cases hg : groups s.hist with
            | nil => exact absurd hg (h.grp.shut (by simp)).1
            | cons g₀ gs =>
              refine applyGroup_some ?_ _
              have := hx
              unfold curGroup at this
              rw [hg] at this
              exact this
          · rw [List.take_add_one, hb]
            exact List.mem_append_right _ (by simp)
        · rw [h.clean hdis (by simp)] at e
          cases e
      · rw [if_neg hcb] at hpc
        exact hco.disk c hc hpc
    · rw [hpin] at hpc
      split_ifs at hpc with hcb
      exact hco.grp c y hpc hg

end Install

/-! ## The end of `commit` -/

/-- Without its first group, a block that this group does not have is the same. -/
theorem applyGroups_tail {gs : List Group} {b : ℕ} (hg : (gs.headD fun _ => none) b = none) :
    applyGroups gs d₀ b = applyGroups gs.tail d₀ b := by
  cases gs with
  | nil => rfl
  | cons g₀ gs => exact applyGroup_none hg _

theorem applyGroups_head {gs : List Group} {b : ℕ} {x : Block}
    (hg : (gs.headD fun _ => none) b = some x) : applyGroups gs d₀ b = x := by
  cases gs with
  | nil => cases hg
  | cons g₀ gs => exact applyGroup_some hg _

theorem ok_lhClear {l : List ℕ} {gr : Group} {k : Unit → P α}
    (hst : g.stage = .inst l gr l.length l.length) (hmd : g.md = none)
    (hk : LogOk m dev start d₀ t (k ()) { g with stage := .clr l gr } Q) :
    LogOk m dev start d₀ t (.act .lhClear k) g Q := by
  apply ok_done
  rintro s G ⟨st, h⟩ rfl -
  obtain ⟨rfl, hne⟩ := h.at_stage hst (by simp)
  obtain ⟨hlh, hgr, hhead, -, -, hcp, hh⟩ := h.disk
  have hnone : ∀ u, s.op u = none := h.mem.noOp nofun
  have hdom : ∀ b, (gr b).isSome ↔ b ∈ l := by
    intro b
    rw [← hgr, ← hlh]
    exact h.grp.dom nofun b
  refine ⟨(), _, rfl, _, ⟨.clr l gr, ?_⟩, hk⟩
  refine h.move (fun u => h.others hne) nofun rfl rfl (h.inOp t) (fun _ _ => rfl) h.out
    (h.bio.congr rfl rfl (fun j => ⟨_, rfl⟩) fun _ => rfl) ?_ ?_ ?_ ?_ h.wrote (fun hdis => ?_)
    (fun hlm => ⟨?_, fun u o hu => ?_⟩)
    (h.wake_move hne nofun rfl rfl)
  · refine ⟨List.nodup_nil, fun b hb => absurd hb List.not_mem_nil, Nat.zero_le _,
      ⟨fun _ => nofun, fun _ => h.mem.comm.2 nofun⟩, fun _ => hnone, fun b => ?_, h.mem.npin,
      fun b hu => ?_⟩
    · have := h.mem.pin b
      simp only [Stage.pinned, hlh, List.drop_length] at this
      exact this
    · have := h.mem.late b hu
      simp only [Stage.waiting, hlh, List.drop_length] at this
      exact this
  · refine ⟨fun _ => h.grp.shut nofun, fun _ b => ?_, h.grp.count, h.grp.once, h.grp.old, h.grp.now⟩
    show ((groups s.hist).headD _ b).isSome ↔ b ∈ l
    rw [hgr]
    exact hdom b
  · rw [update_eq_self]
    exact ⟨h.data.logged, h.data.area, h.data.mdLock⟩
  · refine ⟨rfl, hgr, hhead, ?_, fun b hb => ?_, ?_, hcp, fun b hb => ?_⟩
    · rw [← hlh]; exact h.mem.nodup
    · exact h.mem.home b (by rw [hlh]; exact hb)
    · rw [← hlh]; exact h.mem.len
    · show s.disk b = _
      rw [hh b hb]
      by_cases hbl : b ∈ l
      · rw [if_pos (by rw [List.take_length]; exact hbl)]
      · rw [if_neg (by rw [List.take_length]; exact hbl)]
        refine (applyGroups_tail ?_).symm
        rw [hgr]
        exact Option.not_isSome_iff_eq_none.1 fun e => hbl ((hdom b).1 e)
  · exact ⟨(h.coh hdis).buf, (h.coh hdis).held, (h.coh hdis).disk, (h.coh hdis).grp,
      (h.coh hdis).breads⟩
  · have := (h.res hlm).fits
    simp only [List.length_nil]
    omega
  · have hu' : s.op u = some o := hu
    rw [hnone u] at hu'
    cases hu'

theorem ok_endCommit {gr : Group} {k : Unit → P α}
    (hst : g.stage = .fin ∨ g.stage = .wlog [] gr 0) (hmd : g.md = none)
    (hk : LogOk m dev start d₀ t (k ()) { g with stage := .client } Q) :
    LogOk m dev start d₀ t (.act .endCommit k) g Q := by
  apply ok_done
  rintro s G ⟨st, h⟩ rfl -
  have hne : (G t).stage ≠ .client := by
    rcases hst with e | e <;> (rw [e]; exact nofun)
  have hst' := h.stage_eq hne
  have hstc : st ≠ .client := by rw [hst']; exact hne
  have hdisk : s.lh = [] ∧ (s.disk start).word 0 = 0 ∧
      Home start s.disk (applyGroups (groups s.hist) d₀) := by
    have hd := h.disk
    rcases hst with e | e
    · rw [e] at hst'
      rw [hst'] at hd
      exact hd
    · rw [e] at hst'
      subst hst'
      obtain ⟨hlh, hgr, hw, hh, -, -⟩ := hd
      refine ⟨hlh, hw, fun b hb => ?_⟩
      rw [hh b hb]
      refine (applyGroups_tail ?_).symm
      refine Option.not_isSome_iff_eq_none.1 fun hs => ?_
      have := (h.grp.dom nofun b).1 hs
      rw [show Stage.blocks s.lh (.wlog [] gr 0) = s.lh from rfl, hlh] at this
      exact List.not_mem_nil this
  obtain ⟨hlh, hw, hh⟩ := hdisk
  have hnp : ∀ b, pinned s.hist b ≠ true := by
    intro b hb
    have := (h.mem.pin b).1 hb
    rcases hst with e | e
    · rw [hst', e] at this; exact List.not_mem_nil this
    · rw [hst', e, hlh] at this; exact List.not_mem_nil this
  have hnone : ∀ u, s.op u = none := h.mem.noOp hstc
  refine ⟨(), _, rfl, _, ⟨.client, ?_⟩, hk⟩
  refine h.move (fun u => h.others hne) (fun _ => hmd) rfl rfl (h.inOp t) (fun _ _ => rfl) h.out
    (h.bio.congr rfl rfl (fun j => ⟨_, rfl⟩) fun _ => rfl) ?_ ?_ ?_ ⟨hw, hh⟩ h.wrote (fun hdis => ?_)
    (fun hlm => ⟨(h.res hlm).fits, (h.res hlm).op⟩) ⟨fun _ _ => hlh, nofun, fun _ _ => rfl⟩
  · refine ⟨h.mem.nodup, h.mem.home, h.mem.len, ⟨nofun, fun hc => absurd rfl hc⟩,
      fun hc => absurd rfl hc, fun b => ⟨fun e => absurd e (hnp b), fun e => ?_⟩, h.mem.npin,
      fun b hu => ?_⟩
    · have : b ∈ s.lh := e
      rw [hlh] at this
      exact absurd this List.not_mem_nil
    · have := h.mem.late b hu
      rcases hst with e | e
      · rw [hst', e] at this; exact absurd this List.not_mem_nil
      · rw [hst', e] at this; exact this
  · refine ⟨fun hc => absurd rfl hc, fun _ b => ?_, ?_, h.grp.once, h.grp.old, h.grp.now⟩
    · show (openGroup s.hist b).isSome ↔ b ∈ s.lh
      rw [(h.grp.shut hstc).2 b, hlh]
      simp
    · have := h.grp.count
      rw [closed_eq hstc] at this
      exact this
  · rw [update_eq_self]
    exact ⟨fun b x hp => absurd hp (hnp b), h.data.area, h.data.mdLock⟩
  · exact ⟨(h.coh hdis).buf, (h.coh hdis).held, (h.coh hdis).disk,
      fun b x hp => absurd hp (hnp b), (h.coh hdis).breads⟩

/-! ## The functions of `commit` -/

/-- The ghost value of a committing thread that holds no buffer. -/
def com (st : Stage) : Gh := { stage := st }

section Programs

variable {l : List ℕ} {gr : Group} {q : Unit → P α}

/-- Releasing the two buffers of a round gives back the ghost value before the round. -/
theorem release_two (i j : BufId) (b c : ℕ) :
    update (update (update (update
      (fun _ : BufId => (none : Option ℕ)) i (some b)) j (some c)) j none) i none = fun _ => none := by
  funext x
  by_cases hi : x = i
  · subst hi; rw [update_self]
  · rw [update_of_ne hi]
    by_cases hj : x = j
    · subst hj; rw [update_self]
    · rw [update_of_ne hj, update_of_ne hj, update_of_ne hi]

variable (hstart : start + logBlocks < 2 ^ 32) (hlen : l.length ≤ logBlocks)
  (hhome : ∀ b ∈ l, ¬ InLog start b ∧ b < 2 ^ 32)
include hstart hlen hhome

theorem ok_writeLogOne {i : ℕ} (hi : i < l.length) :
    LogOk m dev start d₀ t (writeLogOne dev start i) (com (.wlog l gr i))
      fun _ g' => g' = com (.wlog l gr (i + 1)) := by
  have hb : l[i]? = some l[i] := List.getElem?_eq_getElem hi
  have hmem : l[i] ∈ l := List.getElem_mem hi
  have hlog : InLog start (start + i + 1) := ⟨by omega, by omega⟩
  refine ok_bread (by omega) rfl rfl rfl rfl fun dst _ => ?_
  refine ok_lhBlock rfl hb ?_
  refine ok_bread (hhome _ hmem).2 rfl rfl rfl rfl fun src hnew => ?_
  have hne : dst ≠ src := by rintro rfl; simp at hnew
  have hkd : update (update (fun _ => none) dst (some (start + i + 1))) src
      (some l[i]) dst = some (start + i + 1) := by
    rw [update_of_ne hne, update_self]
  refine ok_memmoveLog rfl hkd (update_self ..) hlog hmem rfl rfl fun x hx => ?_
  refine ok_bwriteLog rfl hkd hb rfl rfl hx ?_
  refine ok_brelse (update_self ..) rfl rfl rfl rfl ?_
  refine ok_brelse (k := Prog.ret) (b := start + i + 1) ?_ rfl rfl rfl rfl ?_
  · exact (update_of_ne hne ..).trans hkd
  · exact congrArg (fun kn => ({ kn := kn, stage := .wlog l gr (i + 1) } : Gh)) (release_two ..)

theorem ok_writeLog (hq : LogOk m dev start d₀ t (q ()) (com (.wlog l gr l.length)) Q) :
    LogOk m dev start d₀ t (writeLog dev start >>= q) (com (.wlog l gr 0)) Q := by
  refine ok_lhN rfl (ok_bind (ok_mono (ok_loop (fun i g => g = com (.wlog l gr i)) ?_ rfl) ?_))
  · rintro i hi g rfl
    exact ok_writeLogOne hstart hlen hhome hi
  · rintro _ g rfl
    exact hq

theorem ok_installOne {i : ℕ} (hi : i < l.length) :
    LogOk m dev start d₀ t (installOne dev start false i) (com (.inst l gr i i))
      fun _ g' => g' = com (.inst l gr (i + 1) (i + 1)) := by
  have hb : l[i]? = some l[i] := List.getElem?_eq_getElem hi
  have hmem : l[i] ∈ l := List.getElem_mem hi
  refine ok_bread (by omega) rfl rfl rfl rfl fun src _ => ?_
  refine ok_lhBlock rfl hb ?_
  refine ok_bread (hhome _ hmem).2 rfl rfl rfl rfl fun dst hnew => ?_
  have hne : src ≠ dst := by rintro rfl; simp at hnew
  have hks : update (update (fun _ => none) src (some (start + i + 1))) dst
      (some l[i]) src = some (start + i + 1) := by
    rw [update_of_ne hne, update_self]
  refine ok_memmoveHome rfl hks (update_self ..) hb rfl rfl ?_
  refine ok_bwriteHome rfl (update_self ..) hb rfl rfl ?_
  refine ok_bunpin rfl (update_self ..) hb rfl rfl ?_
  refine ok_brelse hks rfl rfl rfl rfl ?_
  refine ok_brelse (k := Prog.ret) (b := l[i]) ?_ rfl rfl rfl rfl ?_
  · exact (update_of_ne hne.symm ..).trans (update_self ..)
  · refine congrArg (fun kn => ({ kn := kn, stage := .inst l gr (i + 1) (i + 1) } : Gh)) ?_
    exact (update_comm hne ..).trans (release_two ..)

theorem ok_installTrans (hq : LogOk m dev start d₀ t (q ()) (com (.inst l gr l.length l.length)) Q) :
    LogOk m dev start d₀ t (installTrans dev start false >>= q) (com (.inst l gr 0 0)) Q := by
  refine ok_lhN rfl (ok_bind (ok_mono (ok_loop (fun i g => g = com (.inst l gr i i)) ?_ rfl) ?_))
  · rintro i hi g rfl
    exact ok_installOne hstart hlen hhome hi
  · rintro _ g rfl
    exact hq

omit hlen hhome in
/-- `write_head`, which moves the committing thread from stage `st` to `st'`. -/
theorem ok_writeHead (st' : Stage) (hl : st.lh = some l)
    (hw : ∀ i d k,
      LogOk m dev start d₀ t (k ())
        { kn := update (fun _ => none) i (some start), stage := st' } Q →
      LogOk m dev start d₀ t (.act (.bwrite i) k)
        { kn := update (fun _ => none) i (some start), md := some (i, setHead d l),
          stage := st } Q)
    (hq : LogOk m dev start d₀ t (q ()) (com st') Q) :
    LogOk m dev start d₀ t (writeHead dev start >>= q) (com st) Q := by
  refine ok_bread (by omega) rfl rfl rfl rfl fun i _ => ?_
  refine ok_headOut hl (update_self ..) rfl rfl fun d => hw i d _ ?_
  refine ok_brelse (b := start) (by dsimp only; rw [update_self]) rfl rfl rfl rfl ?_
  have hkn : update (update (fun _ : BufId => (none : Option ℕ)) i (some start)) i
      none = fun _ => none := by
    rw [update_idem]; exact update_eq_self ..
  exact Eq.mpr (congrArg (fun kn => LogOk m dev start d₀ t (q ()) { kn := kn, stage := st' } Q) hkn) hq

/-- `commit` moves from the closed group to a cleared log, unless the group is empty. -/
theorem ok_commit (hq : ∀ st', (st' = .fin ∨ st' = .wlog [] gr 0) →
      LogOk m dev start d₀ t (q ()) (com st') Q) :
    LogOk m dev start d₀ t (commit dev start >>= q) (com (.wlog l gr 0)) Q := by
  refine ok_lhN rfl ?_
  show LogOk m dev start d₀ t ((if l.length > 0 then (do
    writeLog dev start
    writeHead dev start
    installTrans dev start false
    perform .lhClear
    writeHead dev start) else pure ()) >>= q) _ Q
  by_cases hn : l.length > 0
  · rw [if_pos hn]
    simp only [Prog.bind_assoc]
    refine ok_writeLog hstart hlen hhome ?_
    refine ok_writeHead hstart (.inst l gr 0 0) rfl (fun i d k hk => ?_) ?_
    · exact ok_bwriteHead rfl (by dsimp only; rw [update_self]) rfl rfl hk
    refine ok_installTrans hstart hlen hhome ?_
    refine ok_lhClear rfl rfl ?_
    refine ok_writeHead hstart .fin rfl (fun i d k hk => ?_) ?_
    · exact ok_bwriteClear rfl (by dsimp only; rw [update_self]) rfl rfl hk
    exact hq .fin (Or.inl rfl)
  · rw [if_neg hn]
    have hnil : l = [] := List.eq_nil_of_length_eq_zero (by omega)
    subst hnil
    exact hq _ (Or.inr rfl)

end Programs

end Xv6.Log
