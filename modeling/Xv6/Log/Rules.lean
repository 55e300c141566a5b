import Xv6.Log.Bio

/-!
# Proof rules for the actions of `bio.c`

For each action, the rule that moves its thread to the next ghost value.
-/

namespace Xv6.Log

open Function Finset Xv6.Threads

variable {T : Type} [DecidableEq T] [Fintype T]

/-- `Ok` for the system of mode `m`. -/
abbrev LogOk (m : Mode) (dev start : ℕ) (d₀ : ℕ → Block) {α : Type} (t : T) (p : P α) (g : Gh)
    (Q : α → Gh → Prop) : Prop :=
  Ok (sys (cond m)) (Inv m dev start d₀) (pan m) t p g Q

/-- The two states agree except for buffers, the LRU list, users, sleepers and events that no
group, pin or write depends on. -/
structure Same (s s' : St T) : Prop where
  dev : s'.dev = s.dev
  start : s'.start = s.start
  disk : s'.disk = s.disk
  lh : s'.lh = s.lh
  committing : s'.committing = s.committing
  op : s'.op = s.op
  nextOp : s'.nextOp = s.nextOp
  outstanding : s'.outstanding = s.outstanding
  groups : groups s'.hist = groups s.hist
  openGroup : openGroup s'.hist = openGroup s.hist
  commits : commits s'.hist = commits s.hist
  wrote : WroteIn s'.hist = WroteIn s.hist
  pinned : pinned s'.hist = pinned s.hist
  pins : pins s'.hist = pins s.hist
  unpins : unpins s'.hist = unpins s.hist
  uninstalled : uninstalled s'.hist = uninstalled s.hist
  written : ∀ d₀, written d₀ s'.hist = written d₀ s.hist
  contents : ∀ d₀, contents d₀ s'.hist = contents d₀ s.hist
  dirty : dirty s'.hist = dirty s.hist

variable {m : Mode} {dev start : ℕ} {d₀ : ℕ → Block} {s s' : St T} {G : T → Gh} {st : Stage}
  {t : T} {g : Gh}

theorem Same.curGroup (h : Same s s') : curGroup s'.hist st = curGroup s.hist st := by
  cases st <;> simp only [Log.curGroup, h.groups, h.openGroup]

theorem Same.mem (h : Same s s') (hm : Mem start s st) : Mem start s' st := by
  obtain ⟨a, b, c, d, e, f, k, l⟩ := hm
  constructor <;> simp only [h.lh, h.committing, h.op, h.pinned, h.pins, h.unpins, h.uninstalled] <;>
    assumption

theorem Same.grp (h : Same s s') (hm : Grp s st) : Grp s' st := by
  obtain ⟨a, b, c, d, e, f⟩ := hm
  constructor <;> simp only [h.lh, h.groups, h.op, h.openGroup, h.curGroup, h.commits, h.wrote,
    h.nextOp] <;> assumption

theorem Wake.same {g' : Gh} (h : Wake s st G) (hs : Same s s') (hsl : s'.asleep = s.asleep)
    (hst : g'.stage = (G t).stage) (hin : g'.inOp = (G t).inOp) :
    Wake s' st (update G t g') := by
  refine ⟨?_, ?_, fun u hu => ?_⟩
  · rw [hs.op, hs.lh]
    exact h.empty
  · rw [hsl, hs.committing, hs.lh, hs.outstanding]
    exact h.sleep
  · rw [hsl]
    apply h.awake
    by_cases hut : u = t
    · subst hut
      rwa [update_self, hst, hin] at hu
    · rwa [update_of_ne hut] at hu

/-- A step of `t` that changes only buffers. -/
theorem InvAt.frame (h : InvAt m dev start d₀ s G st) (hs : Same s s') {g' : Gh}
    (hst : g'.stage = (G t).stage) (hin : g'.inOp = (G t).inOp)
    (hmd : g'.stage = .client → g'.md = none)
    (hbio : Bio dev s' (update (fun t => (G t).kn) t g'.kn)
      (update (fun t => (G t).pend) t g'.pend)
      (update (fun t => (G t).raw) t g'.raw)
      (update (fun t => (G t).rel) t g'.rel))
    (hdata : Data dev start s' (update (fun t => (G t).md) t g'.md) st)
    (hcoh : m.disc → Coh dev start d₀ s' (update (fun t => (G t).raw) t g'.raw) st)
    (hwake : Wake s' st (update G t g')) :
    InvAt m dev start d₀ s' (update G t g') st := by
  have hstage : ∀ u, (update G t g' u).stage = (G u).stage := by
    intro u
    by_cases hu : u = t
    · subst hu; simp [hst]
    · simp [hu]
  constructor
  · rw [hs.dev, h.devEq]
  · rw [hs.start, h.startEq]
  · intro u; rw [hstage]; exact h.role u
  · intro u v; rw [hstage, hstage]; exact h.solo u v
  · intro hne
    obtain ⟨u, hu⟩ := h.run hne
    exact ⟨u, by rw [hstage, hu]⟩
  · intro u hu
    by_cases hut : u = t
    · subst hut; rw [update_self] at hu ⊢; exact hmd hu
    · rw [update_of_ne hut] at hu ⊢; exact h.quiet u hu
  · intro u
    rw [hs.op]
    by_cases hut : u = t
    · subst hut; rw [update_self, hin]; exact h.inOp u
    · rw [update_of_ne hut]; exact h.inOp u
  · simpa only [update_proj] using hbio
  · exact hs.mem h.mem
  · rw [hs.outstanding, hs.op]; exact h.out
  · exact hs.grp h.grp
  · simpa only [update_proj] using hdata
  · rw [hs.disk, hs.lh, hs.groups]; exact h.disk
  · rw [hs.disk, hs.written]; exact h.wrote
  · simpa only [update_proj] using hcoh
  · intro hl
    obtain ⟨a, b⟩ := h.res hl
    constructor
    · rw [hs.lh, hs.op]; exact a
    · rw [hs.op, hs.lh]; exact b
  · exact hwake

/-! ## Buffers that keep their contents -/

/-- Buffer `j` keeps its block and contents, or it is recycled while nobody needs it. -/
def Kept (dev : ℕ) (s s' : St T) (j : BufId) : Prop :=
  ((s'.buf j).dev = (s.buf j).dev ∧ (s'.buf j).blockno = (s.buf j).blockno ∧
    (s'.buf j).valid = (s.buf j).valid ∧ (s'.buf j).data = (s.buf j).data) ∨
  ((s'.buf j).valid = false ∧ (∀ u, (s.buf j).lock ≠ some u) ∧
    ¬ ((s.buf j).dev = dev ∧ pinned s.hist (s.buf j).blockno = true))

theorem Data.of_kept {md : T → Option (BufId × Block)} (h : Data dev start s md st)
    (hs : Same s s') (hk : ∀ j, Kept dev s s' j)
    (hl : ∀ u j x, md u = some (j, x) → (s'.buf j).lock = some u) :
    Data dev start s' md st := by
  constructor
  · intro b x hp hg
    rw [hs.pinned] at hp
    rw [hs.curGroup] at hg
    obtain ⟨j, hd, hb, hv, hx⟩ := h.logged b x hp hg
    rcases hk j with ⟨e₁, e₂, e₃, e₄⟩ | ⟨-, -, hn⟩
    · exact ⟨j, by rw [e₁, hd], by rw [e₂, hb], by rw [e₃, hv], by rw [e₄, hx]⟩
    · exact absurd ⟨hd, by rw [hb]; exact hp⟩ hn
  · intro j hd hb hv
    rcases hk j with ⟨e₁, e₂, e₃, e₄⟩ | ⟨e, -, -⟩
    · rw [e₁] at hd
      rw [e₂] at hb
      rw [e₃] at hv
      rw [e₂, e₄, hs.disk]
      exact h.area j hd hb hv
    · rw [e] at hv
      cases hv
  · intro u j x hu
    have hlu := hl u j x hu
    obtain ⟨h₁, h₂⟩ := h.mdLock u j x hu
    refine ⟨hlu, ?_⟩
    rcases hk j with ⟨-, -, -, e₄⟩ | ⟨-, e, -⟩
    · rw [e₄, h₂]
    · exact absurd h₁ (e u)

theorem Coh.of_kept {raw raw' : T → Option BufId} (h : Coh dev start d₀ s raw st)
    (hs : Same s s') (hk : ∀ j, Kept dev s s' j)
    (hbr : BreadsOk start d₀ s'.hist)
    (hl : ∀ u j, dirty s.hist (s.buf j).blockno → (s.buf j).lock = some u →
      raw u ≠ some j → (s'.buf j).lock = some u ∧ raw' u ≠ some j) :
    Coh dev start d₀ s' raw' st := by
  constructor
  · intro j hd hv hb
    rcases hk j with ⟨e₁, e₂, e₃, e₄⟩ | ⟨e, -, -⟩
    · rw [e₁] at hd
      rw [e₂] at hb
      rw [e₃] at hv
      rw [e₂, e₄, hs.contents, hs.dirty]
      exact h.buf j hd hv hb
    · rw [e] at hv
      cases hv
  · intro b hb
    rw [hs.dirty] at hb
    obtain ⟨j, u, hd, hbn, hlk, hr, ho⟩ := h.held b hb
    obtain ⟨hl', hr'⟩ := hl u j (by rw [hbn]; exact hb) hlk hr
    rcases hk j with ⟨e₁, e₂, -, -⟩ | ⟨-, e, -⟩
    · exact ⟨j, u, by rw [e₁, hd], by rw [e₂, hbn], hl', hr', by rw [hs.op]; exact ho⟩
    · exact absurd hlk (e u)
  · intro b hb hp
    rw [hs.pinned] at hp
    rw [hs.disk, hs.contents]
    exact h.disk b hb hp
  · intro b x hp hg
    rw [hs.pinned] at hp
    rw [hs.curGroup] at hg
    rw [hs.contents, hs.dirty]
    exact h.grp b x hp hg
  · exact hbr

/-- A state that differs only in one buffer and in `users`. -/
theorem same_enter (s : St T) (i : BufId) (b : Buf T) (u : List (T × BufId)) :
    Same s { s.setBuf i b with users := u } := by
  constructor <;> intros <;> rfl

/-! ## The rules -/

variable {α : Type} {Q : α → Gh → Prop}

theorem InvAt.unused (h : InvAt m dev start d₀ s G st) {i : BufId} (hr : (s.buf i).refcnt = 0) :
    (∀ u, (s.buf i).lock ≠ some u) ∧
      ¬ ((s.buf i).dev = dev ∧ pinned s.hist (s.buf i).blockno) :=
  ⟨fun u hl => (h.bio.unused hr).1 u (h.bio.lock u i hl), (h.bio.unused hr).2⟩

theorem kept_of_ne (s : St T) {i j : BufId} (b : Buf T) (u : List (T × BufId)) (h : j ≠ i) :
    Kept dev s { s.setBuf i b with users := u } j := by
  apply Or.inl
  simp only [setBuf_ne s b h, and_self]

theorem ok_bget {b : ℕ} {k : BufId → P α} (hb : b < 2 ^ 32)
    (hk : ∀ i, LogOk m dev start d₀ t (k i) { g with pend := some (i, b) } Q) :
    LogOk m dev start d₀ t (.act (.bget dev b) k) g Q := by
  rintro s G ⟨st, h⟩ rfl hc
  refine ⟨fun msg he => ?_, fun (i : BufId) s' he => ?_⟩
  · -- every buffer is referenced, so every buffer is in use
    obtain ⟨rfl, hno, hfull⟩ := bget_panic he
    refine Or.inr ⟨rfl, fun hsp => ?_⟩
    rcases hc hsp with ⟨j, hj⟩ | hlt
    · exact hno j (h.bio.mem j) hj
    · have hall : inUse s = univ := by
        refine eq_univ_of_forall fun j => ?_
        have hj := hfull j (h.bio.mem j)
        rw [h.bio.ref j] at hj
        rw [inUse, mem_filter, h.devEq]
        refine ⟨mem_univ _, ?_⟩
        by_cases hp : (s.buf j).dev = dev ∧ pinned s.hist (s.buf j).blockno = true
        · exact Or.inl hp
        · rw [if_neg hp] at hj
          refine Or.inr (List.count_pos_iff.1 ?_)
          omega
      rw [hall, card_univ, Fintype.card_fin] at hlt
      omega
  · refine ⟨{ G t with pend := some (i, b) }, ⟨st, ?_⟩, hk i⟩
    have hbio := h.bio.bget hb he
    -- the new buffer: the old contents, or a recycled buffer
    have key : ∃ b' : Buf T, s' = (s.setBuf i b').enter t i ∧ b'.lock = (s.buf i).lock ∧
        Kept dev s s' i := by
      rcases bget_cases he with ⟨hd, hbn, rfl⟩ | ⟨hno, hr, rfl⟩
      · exact ⟨_, rfl, rfl, Or.inl (by simp [St.enter])⟩
      · exact ⟨_, rfl, rfl, Or.inr ⟨by simp [St.enter], h.unused hr⟩⟩
    obtain ⟨b', rfl, hlock, hki⟩ := key
    have hs : Same s ((s.setBuf i b').enter t i) := same_enter s i b' _
    have hkept : ∀ j, Kept dev s ((s.setBuf i b').enter t i) j := by
      intro j
      by_cases hj : j = i
      · rw [hj]; exact hki
      · exact kept_of_ne s b' _ hj
    have hlk : ∀ j, (((s.setBuf i b').enter t i).buf j).lock = (s.buf j).lock := by
      intro j
      by_cases hj : j = i
      · subst hj; simpa [St.enter] using hlock
      · simp [St.enter, setBuf_ne s b' hj]
    refine h.frame hs rfl rfl (h.quiet t) ?_ ?_ (fun hd => ?_) (h.wake.same hs rfl rfl rfl)
    · simpa only [update_eq_self] using hbio
    · rw [update_eq_self]
      exact h.data.of_kept hs hkept fun u j x hu => by rw [hlk]; exact (h.data.mdLock u j x hu).1
    · rw [update_eq_self]
      exact (h.coh hd).of_kept hs hkept (h.coh hd).breads fun u j _ hl hr => ⟨by rw [hlk, hl], hr⟩

theorem ok_acquiresleep {i : BufId} {b : ℕ} {k : Unit → P α} (hp : g.pend = some (i, b))
    (hr : g.raw = none) (hrel : g.rel = none)
    (hk : g.kn i = none → LogOk m dev start d₀ t (k ())
      { g with pend := none, raw := some i, kn := update g.kn i (some b) } Q) :
    LogOk m dev start d₀ t (.act (.acquiresleep i) k) g Q := by
  rintro s G ⟨st, h⟩ rfl hc
  have hdo : ∀ o, St.acquiresleep s i t = o → (∀ msg, o ≠ .panic msg) ∧ ∀ u s', o = .done u s' →
      (s.buf i).lock = none ∧ s' = s.setBuf i { s.buf i with lock := some t } := by
    rintro _ rfl
    unfold St.acquiresleep
    split
    · rename_i hl
      exact ⟨fun _ h => by simp at h, fun u s' h => by simp at h; exact ⟨hl, h.symm⟩⟩
    · exact ⟨fun _ h => by simp at h, fun u s' h => by simp at h⟩
  obtain ⟨hnp, hdone⟩ := hdo _ rfl
  refine ⟨fun msg he => absurd he (hnp msg), fun u s' he => ?_⟩
  obtain ⟨hl, rfl⟩ := hdone u s' he
  have hnew : (G t).kn i = none := by
    refine Option.eq_none_iff_forall_not_mem.2 fun c hcm => ?_
    rw [(h.bio.known t i c hcm).1] at hl
    cases hl
  refine ⟨_, ⟨st, ?_⟩, hk hnew⟩
  have hs : Same s (s.setBuf i { s.buf i with lock := some t }) := same_enter s i _ _
  have hkept : ∀ j, Kept dev s (s.setBuf i { s.buf i with lock := some t }) j := by
    intro j
    by_cases hj : j = i
    · subst hj; exact Or.inl (by simp)
    · exact kept_of_ne s _ _ hj
  have hlk : ∀ u j, (s.buf j).lock = some u →
      ((s.setBuf i { s.buf i with lock := some t }).buf j).lock = some u ∧ j ≠ i := by
    intro u j hu
    have hj : j ≠ i := by rintro rfl; rw [hl] at hu; cases hu
    exact ⟨by rw [setBuf_ne s _ hj]; exact hu, hj⟩
  refine h.frame hs rfl rfl (h.quiet t) ?_ ?_ (fun hd => ?_) (h.wake.same hs rfl rfl rfl)
  · have := h.bio.acquiresleep hp hr hrel hl
    simpa only [update_eq_self] using this
  · rw [update_eq_self]
    exact h.data.of_kept hs hkept fun u j x hu => (hlk u j (h.data.mdLock u j x hu).1).1
  · refine (h.coh hd).of_kept hs hkept (h.coh hd).breads fun u j _ hlu hru => ?_
    refine ⟨(hlk u j hlu).1, ?_⟩
    by_cases hut : u = t
    · subst hut
      rw [update_self]
      exact fun e => (hlk u j hlu).2 (Option.some.inj e).symm
    · rw [update_of_ne hut]
      exact hru

theorem InvAt.pinned_buf (h : InvAt m dev start d₀ s G st) {b : ℕ}
    (hp : pinned s.hist b) : ∃ x j, curGroup s.hist st b = some x ∧ (s.buf j).dev = dev ∧
      (s.buf j).blockno = b ∧ (s.buf j).valid ∧ (s.buf j).data = x := by
  have hmem := (h.mem.pin b).1 hp
  have hblk : st ≠ .fin ∧ b ∈ st.blocks s.lh := by
    cases st with
    | client => exact ⟨by simp, hmem⟩
    | wlog l gr k => exact ⟨by simp, hmem⟩
    | inst l gr k u => exact ⟨by simp, List.mem_of_mem_drop hmem⟩
    | clr l gr => simp [Stage.pinned] at hmem
    | fin => simp [Stage.pinned] at hmem
  obtain ⟨x, hx⟩ := Option.isSome_iff_exists.1 ((h.grp.dom hblk.1 b).2 hblk.2)
  obtain ⟨j, hj⟩ := h.data.logged b x hp hx
  exact ⟨x, j, hx, hj⟩

theorem InvAt.not_pinned (h : InvAt m dev start d₀ s G st) {i : BufId} (hd : (s.buf i).dev = dev)
    (hv : (s.buf i).valid = false) : pinned s.hist (s.buf i).blockno = false := by
  by_contra hne
  obtain ⟨x, j, -, hj, hb, hvj, -⟩ := h.pinned_buf (eq_true_of_ne_false hne)
  have := h.bio.uniq j i hj hd hb
  subst this
  rw [hv] at hvj
  cases hvj

section bfill

variable {i : BufId}

omit [Fintype T]

theorem bfill_of_valid (hv : (s.buf i).valid) :
    s.bfill i = s.emit (.bread (s.buf i).blockno (s.buf i).data) := if_pos hv

theorem bfill_of_not_valid (hv : (s.buf i).valid ≠ true) :
    s.bfill i = (s.setBuf i { s.buf i with data := s.disk (s.buf i).blockno, valid := true }).emit
      (.bread (s.buf i).blockno (s.disk (s.buf i).blockno)) := if_neg hv

theorem bfill_self (hv : (s.buf i).valid ≠ true) :
    (s.bfill i).buf i = { s.buf i with data := s.disk (s.buf i).blockno, valid := true } := by
  rw [bfill_of_not_valid hv]
  exact setBuf_self s i _

theorem bfill_ne {j : BufId} (hj : j ≠ i) : (s.bfill i).buf j = s.buf j := by
  unfold St.bfill
  dsimp only
  split_ifs
  · rfl
  · exact setBuf_ne s _ hj

end bfill

theorem ok_bfill {i : BufId} {k : Unit → P α} (hr : g.raw = some i) (hmd : g.md = none)
    (hk : LogOk m dev start d₀ t (k ()) { g with raw := none } Q) :
    LogOk m dev start d₀ t (.act (.bfill i) k) g Q := by
  apply ok_done
  rintro s G ⟨st, h⟩ rfl -
  refine ⟨(), _, rfl, _, ⟨st, ?_⟩, hk⟩
  have hl := h.bio.rawLock t i hr
  have hd := (h.bio.used _ (h.bio.lock t i hl)).1
  have hs : Same s (s.bfill i) := by
    unfold St.bfill; dsimp only; split_ifs <;> (constructor <;> intros <;> rfl)
  have hlk : ∀ j, ((s.bfill i).buf j).lock = (s.buf j).lock := by
    intro j
    by_cases hj : j = i
    · subst hj
      by_cases hv : (s.buf j).valid = true
      · rw [bfill_of_valid hv]
        rfl
      · rw [bfill_self hv]
    · rw [bfill_ne hj]
  -- the thread that fills the buffer has not modified it
  have hnomd : ∀ u x, (G u).md ≠ some (i, x) := by
    intro u x hu
    have := (h.data.mdLock u i x hu).1
    rw [hl] at this
    cases this
    rw [hmd] at hu
    cases hu
  have hnodirty : m.disc → dirty s.hist (s.buf i).blockno = false := by
    intro hdis
    by_contra hne
    obtain ⟨j, u, hdj, hbj, hlj, hrj, -⟩ := (h.coh hdis).held _ (eq_true_of_ne_false hne)
    have hji := h.bio.uniq j i hdj hd hbj
    subst hji
    rw [hl] at hlj
    cases hlj
    exact hrj hr
  have hbio : Bio dev (s.bfill i) (update (fun t => (G t).kn) t (G t).kn)
      (update (fun t => (G t).pend) t (G t).pend)
      (update (fun t => (G t).raw) t none)
      (update (fun t => (G t).rel) t (G t).rel) := by
    have := h.bio.bfill hr
    simpa only [update_eq_self] using this
  have hsl : (s.bfill i).asleep = s.asleep := by
    unfold St.bfill; dsimp only; split_ifs <;> rfl
  refine h.frame hs rfl rfl (h.quiet t) hbio ?_ (fun hdis => ?_) (h.wake.same hs hsl rfl rfl)
  all_goals try rw [update_eq_self]
  all_goals by_cases hv : (s.buf i).valid = true
  · exact h.data.of_kept hs (fun j => Or.inl (by rw [bfill_of_valid hv]; exact ⟨rfl, rfl, rfl, rfl⟩))
      fun u j x hu => by rw [hlk]; exact (h.data.mdLock u j x hu).1
  · constructor
    · intro b x hp hg
      rw [hs.pinned] at hp
      rw [hs.curGroup] at hg
      obtain ⟨j, hdj, hbj, hvj, hxj⟩ := h.data.logged b x hp hg
      have hj : j ≠ i := by rintro rfl; exact hv hvj
      exact ⟨j, by rw [bfill_ne hj]; exact ⟨hdj, hbj, hvj, hxj⟩⟩
    · intro j hdj hbj hvj
      by_cases hj : j = i
      · subst hj
        rw [bfill_self hv, hs.disk]
        exact Or.inl rfl
      · rw [bfill_ne hj] at hdj hbj hvj ⊢
        rw [hs.disk]
        exact h.data.area j hdj hbj hvj
    · intro u j x hu
      have hj : j ≠ i := by rintro rfl; exact hnomd u x hu
      rw [bfill_ne hj]
      exact h.data.mdLock u j x hu
  · -- the buffer was valid: its contents are the current ones
    refine (h.coh hdis).of_kept hs
      (fun j => Or.inl (by rw [bfill_of_valid hv]; exact ⟨rfl, rfl, rfl, rfl⟩)) ?_ fun u j _ hlu hru => ⟨by rw [hlk]; exact hlu, ?_⟩
    · rw [bfill_of_valid hv]
      refine ⟨?_, (h.coh hdis).breads⟩
      split_ifs with hin
      · rw [← h.wrote]
        rcases h.data.area i hd hin hv with e | ⟨u, hu⟩
        · exact e
        · exact absurd hu (hnomd u _)
      · rcases (h.coh hdis).buf i hd hv hin with e | e
        · exact e
        · rw [hnodirty hdis] at e
          cases e
    · by_cases hut : u = t
      · subst hut; simp
      · rw [update_of_ne hut]; exact hru
  · -- the buffer was read from disk: its block is not pinned
    have hv' : (s.buf i).valid = false := Bool.eq_false_iff.2 hv
    have hnp := h.not_pinned hd hv'
    constructor
    · intro j hdj hvj hbj
      by_cases hj : j = i
      · subst hj
        rw [bfill_self hv] at hbj ⊢
        rw [hs.contents]
        exact Or.inl ((h.coh hdis).disk _ hbj hnp)
      · rw [bfill_ne hj] at hdj hbj hvj ⊢
        rw [hs.contents, hs.dirty]
        exact (h.coh hdis).buf j hdj hvj hbj
    · intro b hb
      rw [hs.dirty] at hb
      obtain ⟨j, u, hdj, hbj, hlj, hrj, ho⟩ := (h.coh hdis).held b hb
      have hj : j ≠ i := by
        rintro rfl
        rw [← hbj, hnodirty hdis] at hb
        cases hb
      refine ⟨j, u, by rw [bfill_ne hj]; exact hdj, by rw [bfill_ne hj]; exact hbj,
        by rw [bfill_ne hj]; exact hlj, ?_, by rw [hs.op]; exact ho⟩
      by_cases hut : u = t
      · subst hut; simp
      · rw [update_of_ne hut]; exact hrj
    · intro b hb hp
      rw [hs.pinned] at hp
      rw [hs.disk, hs.contents]
      exact (h.coh hdis).disk b hb hp
    · intro b x hp hg
      rw [hs.pinned] at hp
      rw [hs.curGroup] at hg
      rw [hs.contents, hs.dirty]
      exact (h.coh hdis).grp b x hp hg
    · rw [bfill_of_not_valid hv]
      refine ⟨?_, (h.coh hdis).breads⟩
      split_ifs with hin
      · rw [h.wrote]; rfl
      · exact (h.coh hdis).disk _ hin hnp

theorem ok_bread {b : ℕ} {k : BufId → P α} (hb : b < 2 ^ 32) (hp : g.pend = none)
    (hr : g.raw = none) (he : g.rel = none) (hmd : g.md = none)
    (hk : ∀ i, g.kn i = none →
      LogOk m dev start d₀ t (k i) { g with kn := update g.kn i (some b) } Q) :
    LogOk m dev start d₀ t (bread dev b >>= k) g Q := by
  refine ok_bget hb fun i => ok_acquiresleep rfl hr he fun hnew => ok_bfill rfl hmd ?_
  have := hk i hnew
  obtain ⟨kn, pend, raw, rel, md, inOp, stage⟩ := g
  simp only at hp hr
  subst hp hr
  exact this

theorem ok_releasesleep {i : BufId} {b : ℕ} {k : Unit → P α} (hkn : g.kn i = some b)
    (hr : g.raw = none) (hmd : g.md = none)
    (hk : LogOk m dev start d₀ t (k ())
      { g with kn := update g.kn i none, rel := some i } Q) :
    LogOk m dev start d₀ t (.act (.releasesleep i) k) g Q := by
  apply ok_done
  rintro s G ⟨st, h⟩ rfl hc
  obtain ⟨hl, hbn⟩ := h.bio.known t i b hkn
  refine ⟨(), _, if_pos hl, _, ⟨st, ?_⟩, hk⟩
  have hs : Same s (s.setBuf i { s.buf i with lock := none }) := same_enter s i _ _
  have hkept : ∀ j, Kept dev s (s.setBuf i { s.buf i with lock := none }) j := by
    intro j
    by_cases hj : j = i
    · subst hj; exact Or.inl (by simp)
    · exact kept_of_ne s _ _ hj
  have hother : ∀ u j, (s.buf j).lock = some u → j ≠ i →
      ((s.setBuf i { s.buf i with lock := none }).buf j).lock = some u := by
    intro u j hu hj
    rw [setBuf_ne s _ hj]
    exact hu
  refine h.frame hs rfl rfl (h.quiet t) ?_ ?_ (fun hd => ?_) (h.wake.same hs rfl rfl rfl)
  · have := h.bio.releasesleep hkn hr
    simpa only [update_eq_self] using this
  · rw [update_eq_self]
    refine h.data.of_kept hs hkept fun u j x hu => ?_
    have hlu := (h.data.mdLock u j x hu).1
    refine hother u j hlu ?_
    rintro rfl
    rw [hl] at hlu
    cases hlu
    rw [hmd] at hu
    cases hu
  · rw [update_eq_self]
    refine (h.coh hd).of_kept hs hkept (h.coh hd).breads fun u j hdj hlu hru => ⟨?_, hru⟩
    refine hother u j hlu ?_
    rintro rfl
    rw [hc hd] at hdj
    cases hdj

theorem ok_bput {i : BufId} {k : Unit → P α} (he : g.rel = some i) (hp : g.pend = none)
    (hk : LogOk m dev start d₀ t (k ()) { g with rel := none } Q) :
    LogOk m dev start d₀ t (.act (.bput i) k) g Q := by
  apply ok_done
  rintro s G ⟨st, h⟩ rfl -
  refine ⟨(), _, rfl, _, ⟨st, ?_⟩, hk⟩
  have hs : Same s (s.bput i t) := by
    unfold St.bput; dsimp only; split_ifs <;> (constructor <;> intros <;> rfl)
  have hbuf : ∀ j, ∃ r, (s.bput i t).buf j = { s.buf j with refcnt := r } := by
    intro j
    have e : (s.bput i t).buf j =
        (s.setBuf i { s.buf i with refcnt := (s.buf i).refcnt - 1 }).buf j := by
      unfold St.bput; dsimp only; split_ifs <;> rfl
    rw [e]
    by_cases hj : j = i
    · subst hj; exact ⟨_, setBuf_self s j _⟩
    · exact ⟨(s.buf j).refcnt, by rw [setBuf_ne s _ hj]⟩
  have hkept : ∀ j, Kept dev s (s.bput i t) j := by
    intro j
    obtain ⟨r, e⟩ := hbuf j
    exact Or.inl (by rw [e]; exact ⟨rfl, rfl, rfl, rfl⟩)
  have hlk : ∀ j, ((s.bput i t).buf j).lock = (s.buf j).lock := by
    intro j
    obtain ⟨r, e⟩ := hbuf j
    rw [e]
  have hsl : (s.bput i t).asleep = s.asleep := by
    unfold St.bput; dsimp only; split_ifs <;> rfl
  refine h.frame hs rfl rfl (h.quiet t) ?_ ?_ (fun hd => ?_) (h.wake.same hs hsl rfl rfl)
  · have := h.bio.bput hp he
    simpa only [update_eq_self] using this
  · rw [update_eq_self]
    exact h.data.of_kept hs hkept fun u j x hu => by rw [hlk]; exact (h.data.mdLock u j x hu).1
  · rw [update_eq_self]
    have hh : (s.bput i t).hist = s.hist := by
      unfold St.bput; dsimp only; split_ifs <;> rfl
    exact (h.coh hd).of_kept hs hkept (by rw [hh]; exact (h.coh hd).breads)
      fun u j _ hl hr => ⟨by rw [hlk, hl], hr⟩

theorem ok_brelse {i : BufId} {b : ℕ} {k : Unit → P α} (hkn : g.kn i = some b)
    (hp : g.pend = none) (hr : g.raw = none) (he : g.rel = none) (hmd : g.md = none)
    (hk : LogOk m dev start d₀ t (k ()) { g with kn := update g.kn i none } Q) :
    LogOk m dev start d₀ t (brelse i >>= k) g Q := by
  refine ok_releasesleep hkn hr hmd (ok_bput rfl hp ?_)
  obtain ⟨kn, pend, raw, rel, md, inOp, stage⟩ := g
  simp only at he
  subst he
  exact hk

end Xv6.Log
