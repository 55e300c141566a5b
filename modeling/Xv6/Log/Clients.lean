import Xv6.Log.Rules

/-!
# Proof rules for the calls of clients

`begin_op`, stores into held buffers, `log_write`, and the first critical section of `end_op`.
-/

namespace Xv6.Log

open Function Finset Xv6.Threads

variable {T : Type} [DecidableEq T] [Fintype T]
variable {m : Mode} {dev start : ℕ} {d₀ : ℕ → Block} {s s' : St T} {G : T → Gh} {st : Stage}
  {t : T} {g : Gh} {α : Type} {Q : α → Gh → Prop}

theorem sum_update {β : Type} (f : β → ℤ) (v : T → β) (t : T) (x : β) :
    ∑ u, f (update v t x u) = ∑ u, f (v u) - f (v t) + f x := by
  have h₁ := add_sum_erase univ (fun u => f (update v t x u))
    (mem_univ t)
  have h₂ := add_sum_erase univ (fun u => f (v u)) (mem_univ t)
  have h₃ : ∑ u ∈ univ.erase t, f (update v t x u) =
      ∑ u ∈ univ.erase t, f (v u) := by
    refine sum_congr rfl fun u hu => ?_
    rw [update_of_ne (ne_of_mem_erase hu)]
  simp only [update_self] at h₁
  rw [h₃] at h₁
  linarith

theorem busy_nonneg (o : Option Op) : 0 ≤ busy o := by unfold busy; split_ifs <;> omega

theorem room_le (o : Option Op) : room o ≤ maxOpBlocks * busy o := by
  cases o with
  | none => simp [room, busy]
  | some o => simp [room, busy]

theorem InvAt.client_of_not_committing (h : InvAt m dev start d₀ s G st)
    (hc : s.committing = false) : st = .client := by
  by_contra hne
  rw [(h.mem.comm).2 hne] at hc
  cases hc

/-- While some thread is inside an operation, no commit runs. -/
theorem InvAt.client_of_op (h : InvAt m dev start d₀ s G st) (ho : (s.op t).isSome) :
    st = .client ∧ s.committing = false := by
  have hst : st = .client := by
    by_contra hne
    rw [h.mem.noOp hne t] at ho
    cases ho
  refine ⟨hst, ?_⟩
  by_contra hne
  exact (h.mem.comm).1 (eq_true_of_ne_false hne) hst

/-- Thread `t`, beside which no thread runs `commit`, moves to stage `st'`. -/
theorem InvAt.move (h : InvAt m dev start d₀ s G st) {x : Option (BufId × Block)} {o : Bool}
    (hoth : ∀ u ≠ t, (G u).stage = .client) (hx : st' = .client → x = none)
    (hdev : s'.dev = s.dev) (hstart : s'.start = s.start) (ho : o = (s'.op t).isSome)
    (hop : ∀ u ≠ t, (s'.op u).isSome = (s.op u).isSome)
    (hout : s'.outstanding = ∑ u, busy (s'.op u))
    (hbio : Bio dev s' (fun t => (G t).kn) (fun t => (G t).pend) (fun t => (G t).raw)
      fun t => (G t).rel)
    (hmem : Mem start s' st') (hgrp : Grp s' st')
    (hdata : Data dev start s' (update (fun t => (G t).md) t x) st')
    (hdisk : Disk start d₀ s'.disk s'.lh (groups s'.hist) st') (hwrote : s'.disk = written d₀ s'.hist)
    (hcoh : m.disc → Coh dev start d₀ s' (fun t => (G t).raw) st') (hres : m.lim → Res s')
    (hwake : Wake s' st' (update G t { G t with md := x, inOp := o, stage := st' })) :
    InvAt m dev start d₀ s' (update G t { G t with md := x, inOp := o, stage := st' }) st' := by
  have heq : ∀ u, (update G t { G t with md := x, inOp := o, stage := st' } u).stage ≠ .client →
      u = t := by
    intro u hu
    by_contra hut
    rw [update_of_ne hut] at hu
    exact hu (hoth u hut)
  refine ⟨hdev.trans h.devEq, hstart.trans h.startEq, fun u => ?_,
    fun u v hu hv => (heq u hu).trans (heq v hv).symm, fun _ => ⟨t, by rw [update_self]⟩,
    fun u hu => ?_, fun u => ?_, ?_, hmem, hout, hgrp, ?_, hdisk, hwrote, ?_, hres, hwake⟩
  · by_cases hut : u = t
    · subst hut; rw [update_self]; exact Or.inr rfl
    · rw [update_of_ne hut]; exact Or.inl (hoth u hut)
  · by_cases hut : u = t
    · subst hut; rw [update_self] at hu ⊢; exact hx hu
    · rw [update_of_ne hut]; exact h.quiet u (hoth u hut)
  · by_cases hut : u = t
    · subst hut; rw [update_self]; exact ho
    · rw [update_of_ne hut, hop u hut]; exact h.inOp u
  · simpa only [update_proj (fun g : Gh => g.kn), update_proj (fun g : Gh => g.pend),
      update_proj (fun g : Gh => g.raw), update_proj (fun g : Gh => g.rel), update_eq_self] using hbio
  · simpa only [update_proj (fun g : Gh => g.md)] using hdata
  · simpa only [update_proj (fun g : Gh => g.raw), update_eq_self] using hcoh

theorem ok_beginOp {k : Unit → P α} (hr : g.inOp = false) (hst : g.stage = .client)
    (hk : ∀ b, LogOk m dev start d₀ t (k ()) { g with inOp := b } Q) :
    LogOk m dev start d₀ t (.act .beginOp k) g Q := by
  rintro s G ⟨st, h⟩ rfl -
  have hsame : ∀ a, Same s { s with asleep := a } := fun a => by constructor <;> intros <;> rfl
  -- a thread that goes to sleep changes nothing else
  have hsleep : (s.committing ∨ s.lh.length + (s.outstanding + 1) * maxOpBlocks > logBlocks) →
      InvAt m dev start d₀ { s with asleep := update s.asleep t true }
        (update G t (G t)) st := by
    intro hwait
    refine h.frame (hsame _) rfl rfl (h.quiet t) ?_ ?_ (fun hd => ?_) ?_ <;>
      simp only [update_eq_self]
    · exact h.bio.congr rfl rfl (fun j => ⟨_, rfl⟩) fun _ => rfl
    · exact ⟨h.data.logged, h.data.area, h.data.mdLock⟩
    · exact ⟨(h.coh hd).buf, (h.coh hd).held, (h.coh hd).disk, (h.coh hd).grp, (h.coh hd).breads⟩
    · refine ⟨h.wake.empty, fun u hu => ?_, fun u hu => ?_⟩
      · by_cases hut : u = t
        · exact hwait
        · exact h.wake.sleep u (by simpa [hut] using hu)
      · have hut : u ≠ t := by
          rintro rfl
          rw [hr, hst] at hu
          simp at hu
        show update s.asleep t true u = false
        rw [update_of_ne hut]
        exact h.wake.awake u hu
  show (∀ msg, s.beginOp t = .panic msg → _) ∧ ∀ b s', s.beginOp t = .done b s' → _
  unfold St.beginOp
  split_ifs with ha hc hfull
  · exact ⟨by simp, by simp⟩
  · refine ⟨by simp, fun b s' he => ?_⟩
    cases he
    exact ⟨G t, ⟨st, hsleep (.inl hc)⟩, hk _⟩
  · refine ⟨by simp, fun b s' he => ?_⟩
    cases he
    exact ⟨G t, ⟨st, hsleep (.inr hfull)⟩, hk _⟩
  refine ⟨by simp, fun b s' he => ?_⟩
  cases he
  have hnone : s.op t = none := by
    have := h.inOp t
    rw [hr] at this
    exact Option.isNone_iff_eq_none.1 (by simpa using this.symm)
  have hcl : st = .client := h.client_of_not_committing (Bool.eq_false_iff.2 hc)
  subst hcl
  refine ⟨{ G t with inOp := true }, ⟨.client, ?_⟩, hk true⟩
  have hbusy : busy (s.op t) = 0 := by rw [hnone]; rfl
  have hg : ({ G t with inOp := true } : Gh) =
      { G t with md := (G t).md, inOp := true, stage := .client } := by rw [← hst]
  rw [hg]
  refine h.move (fun u _ => (h.role u).elim id id) (fun _ => h.quiet t hst) rfl rfl ?_ (fun u hu => ?_)
    ?_ (h.bio.congr rfl rfl (fun j => ⟨_, rfl⟩) fun _ => rfl)
    ⟨h.mem.nodup, h.mem.home, h.mem.len, h.mem.comm, fun hne => absurd rfl hne, h.mem.pin,
      h.mem.npin, h.mem.late⟩ ?_ ?_ h.disk h.wrote (fun hd => ?_) (fun hl => ?_) ?_
  · simp
  · simp [hu]
  · show s.outstanding + 1 = _
    rw [sum_update busy, hbusy, h.out]
    simp [busy]
  · refine ⟨h.grp.shut, h.grp.dom, h.grp.count, h.grp.once, fun o n hw => ?_, fun u o hu => ?_⟩
    · exact Nat.lt_succ_of_lt (h.grp.old o n hw)
    · by_cases hut : u = t
      · subst hut
        simp only [update_self, Option.some.injEq] at hu
        subst hu
        exact ⟨Nat.lt_succ_self _, fun n hw => absurd (h.grp.old _ n hw) (lt_irrefl _)⟩
      · simp only [update_of_ne hut] at hu
        exact ⟨Nat.lt_succ_of_lt (h.grp.now u o hu).1, (h.grp.now u o hu).2⟩
  · rw [update_eq_self]
    exact ⟨h.data.logged, h.data.area, h.data.mdLock⟩
  · refine ⟨(h.coh hd).buf, fun b hb => ?_, (h.coh hd).disk, (h.coh hd).grp, (h.coh hd).breads⟩
    obtain ⟨i, u, h₁, h₂, h₃, h₄, h₅⟩ := (h.coh hd).held b hb
    refine ⟨i, u, h₁, h₂, h₃, h₄, ?_⟩
    by_cases hut : u = t
    · subst hut; simp
    · simp only [update_of_ne hut]; exact h₅
  · have hres := h.res hl
    have hle : ∑ u, room (s.op u) ≤ maxOpBlocks * s.outstanding := by
      rw [h.out, mul_sum]
      exact sum_le_sum fun u _ => room_le _
    constructor
    · show (s.lh.length : ℤ) + ∑ u, room (update s.op t _ u) ≤ logBlocks
      rw [sum_update room, hnone]
      have : room (some ⟨s.nextOp, []⟩) = maxOpBlocks := by simp [room]
      rw [this]
      have h0 : room none = 0 := rfl
      rw [h0]
      have := not_lt.1 hfull
      linarith
    · intro u o hu
      by_cases hut : u = t
      · subst hut
        simp only [update_self, Option.some.injEq] at hu
        subst hu
        exact ⟨Nat.zero_le _, by simp⟩
      · simp only [update_of_ne hut] at hu
        exact hres.op u o hu
  · refine ⟨fun _ hall => ?_, fun u hu => ?_, fun u hu => ?_⟩
    · have : update s.op t (some ⟨s.nextOp, []⟩) t = none := hall t
      rw [update_self] at this
      cases this
    · rcases h.wake.sleep u hu with hc' | hf
      · exact .inl hc'
      · right
        show (s.lh.length : ℤ) + (s.outstanding + 1 + 1) * maxOpBlocks > logBlocks
        unfold maxOpBlocks at *
        omega
    · by_cases hut : u = t
      · subst hut
        exact Bool.eq_false_iff.2 ha
      · rw [update_of_ne hut] at hu
        exact h.wake.awake u hu

theorem InvAt.held_buf (h : InvAt m dev start d₀ s G st) {i : BufId} {b : ℕ}
    (hkn : (G t).kn i = some b) (hr : (G t).raw = none) :
    (s.buf i).lock = some t ∧ (s.buf i).blockno = b ∧ (s.buf i).dev = dev ∧
      (s.buf i).valid ∧ b < 2 ^ 32 := by
  obtain ⟨hl, hb⟩ := h.bio.known t i b hkn
  obtain ⟨hd, hlt⟩ := h.bio.used _ (h.bio.lock t i hl)
  refine ⟨hl, hb, hd, h.bio.valid t i hl (by rw [hr]; simp), by rw [← hb]; exact hlt⟩

/-- A store into a held buffer, inside an operation and outside the log area. -/
theorem ok_store {i : BufId} {b : ℕ} {d : Block} {k : Unit → P α} (hkn : g.kn i = some b)
    (hb : ¬ InLog start b) (hr : g.raw = none) (hin : g.inOp) (hst : g.stage = .client)
    (hk : LogOk m dev start d₀ t (k ()) g Q) :
    LogOk m dev start d₀ t (.act (.store i d) k) g Q := by
  apply ok_done
  rintro s G ⟨st, h⟩ rfl -
  refine ⟨(), _, rfl, G t, ⟨st, ?_⟩, hk⟩
  obtain ⟨hl, hbn, hd, hv, -⟩ := h.held_buf hkn hr
  have hop : (s.op t).isSome := by rw [← h.inOp t, hin]
  obtain ⟨rfl, -⟩ := h.client_of_op hop
  have hbuf : ∀ j ≠ i, ((s.store i d t).buf j) = s.buf j := fun j hj => setBuf_ne s _ hj
  have hbufi : (s.store i d t).buf i = { s.buf i with data := d } := setBuf_self s i _
  have hlk : ∀ j, ((s.store i d t).buf j).lock = (s.buf j).lock := by
    intro j
    by_cases hj : j = i
    · subst hj; rw [hbufi]
    · rw [hbuf j hj]
  have hnomd : ∀ u j x, (G u).md = some (j, x) → j ≠ i := by
    rintro u j x hu rfl
    have := (h.data.mdLock u j x hu).1
    rw [hl] at this
    cases this
    rw [h.quiet t hst] at hu
    cases hu
  -- the group changes only at block `b`, and only if it already has it
  have hgrp : ∀ c, openGroup (s.store i d t).hist c =
      if c = b ∧ (openGroup s.hist b).isSome then some d else openGroup s.hist c := by
    intro c
    show (if (openGroup s.hist (s.buf i).blockno).isSome then
      update (openGroup s.hist) (s.buf i).blockno (some d) else openGroup s.hist) c = _
    rw [hbn]
    by_cases hs : (openGroup s.hist b).isSome = true
    · rw [if_pos hs]
      by_cases hc : c = b
      · subst hc; rw [if_pos ⟨rfl, hs⟩, update_self]
      · rw [if_neg (fun e => hc e.1), update_of_ne hc]
    · rw [if_neg hs, if_neg (fun e => hs e.2)]
  have hdirty : ∀ c, dirty (s.store i d t).hist c = if c = b then true else dirty s.hist c := by
    intro c
    show (if c = (s.buf i).blockno then true else dirty s.hist c) = _
    rw [hbn]
  rw [update_eq_self]
  refine ⟨h.devEq, h.startEq, h.role, h.solo, h.run, h.quiet, h.inOp, ?_, ?_, h.out, ?_, ?_, h.disk,
    h.wrote, fun hdis => ?_, fun hl => ⟨(h.res hl).fits, (h.res hl).op⟩,
    ⟨h.wake.empty, h.wake.sleep, h.wake.awake⟩⟩
  · refine h.bio.congr rfl rfl (fun j => ?_) fun _ => rfl
    by_cases hj : j = i
    · subst hj; exact ⟨d, hbufi⟩
    · exact ⟨(s.buf j).data, hbuf j hj⟩
  · exact ⟨h.mem.nodup, h.mem.home, h.mem.len, h.mem.comm, h.mem.noOp, h.mem.pin, h.mem.npin,
      h.mem.late⟩
  · refine ⟨fun hne => absurd rfl hne, fun _ c => ?_, h.grp.count, h.grp.once, h.grp.old,
      h.grp.now⟩
    have := h.grp.dom (by simp) c
    simp only [curGroup] at this ⊢
    rw [hgrp]
    split_ifs with hc
    · rw [hc.1] at this ⊢
      exact ⟨fun _ => this.1 hc.2, fun _ => rfl⟩
    · exact this
  · constructor
    · intro c x hp hg
      simp only [curGroup] at hg
      rw [hgrp] at hg
      split_ifs at hg with hc
      · cases hg
        exact ⟨i, by rw [hbufi]; exact ⟨hd, by rw [hc.1]; exact hbn, hv, rfl⟩⟩
      · obtain ⟨j, hdj, hbj, hvj, hxj⟩ := h.data.logged c x hp hg
        have hj : j ≠ i := by
          rintro rfl
          refine hc ⟨by rw [← hbj, hbn], ?_⟩
          rw [show b = c by rw [← hbj, hbn], show openGroup s.hist c = some x from hg]
          rfl
        exact ⟨j, by rw [hbuf j hj]; exact ⟨hdj, hbj, hvj, hxj⟩⟩
    · intro j hdj hbj hvj
      by_cases hj : j = i
      · subst hj
        rw [hbufi] at hbj
        rw [show (s.buf j).blockno = b from hbn] at hbj
        exact absurd hbj hb
      · rw [hbuf j hj] at hdj hbj hvj ⊢
        exact h.data.area j hdj hbj hvj
    · intro u j x hu
      rw [hbuf j (hnomd u j x hu)]
      exact h.data.mdLock u j x hu
  · have hco := h.coh hdis
    constructor
    · intro j hdj hvj hbj
      rw [hdirty]
      by_cases hj : j = i
      · subst hj
        rw [hbufi]
        exact Or.inr (if_pos hbn)
      · rw [hbuf j hj] at hdj hbj hvj ⊢
        have hne : (s.buf j).blockno ≠ b := fun e => hj (h.bio.uniq j i hdj hd (by rw [e, hbn]))
        rw [if_neg hne]
        exact hco.buf j hdj hvj hbj
    · intro c hc
      rw [hdirty] at hc
      by_cases hcb : c = b
      · exact ⟨i, t, by rw [hbufi]; exact hd, by rw [hbufi, hcb]; exact hbn, by rw [hlk, hl],
          by rw [hr]; simp, hop⟩
      · rw [if_neg hcb] at hc
        obtain ⟨j, u, h₁, h₂, h₃, h₄, h₅⟩ := hco.held c hc
        have hj : j ≠ i := by rintro rfl; exact hcb (by rw [← h₂, hbn])
        exact ⟨j, u, by rw [hbuf j hj]; exact h₁, by rw [hbuf j hj]; exact h₂,
          by rw [hlk]; exact h₃, h₄, h₅⟩
    · exact hco.disk
    · intro c x hp hg
      simp only [curGroup] at hg
      rw [hgrp] at hg
      rw [hdirty]
      by_cases hcb : c = b
      · exact Or.inr (if_pos hcb)
      · rw [if_neg (fun e => hcb e.1)] at hg
        rw [if_neg hcb]
        exact hco.grp c x hp hg
    · exact hco.breads

/-! ## `log_write` -/

/-- What a `log_write` of buffer `i` by `t`, in operation `o`, does. The block is absorbed if the log
has it; otherwise it is appended and its buffer pinned. -/
structure LogWrote (s s' : St T) (t : T) (i : BufId) (o : Op) : Prop where
  dev : s'.dev = s.dev
  start : s'.start = s.start
  disk : s'.disk = s.disk
  lru : s'.lru = s.lru
  users : s'.users = s.users
  committing : s'.committing = s.committing
  outstanding : s'.outstanding = s.outstanding
  nextOp : s'.nextOp = s.nextOp
  asleep : s'.asleep = s.asleep
  op : s'.op = update s.op t (some ⟨o.id, insert (s.buf i).blockno o.blocks⟩)
  buf : ∀ j, ∃ r, s'.buf j = { s.buf j with refcnt := r }
  openGroup : openGroup s'.hist =
    update (openGroup s.hist) (s.buf i).blockno (some (s.buf i).data)
  groups : groups s'.hist = groups s.hist
  commits : commits s'.hist = commits s.hist
  wrote : ∀ op n, WroteIn s'.hist op n ↔
    (o.id = op ∧ n = (Log.groups s.hist).length) ∨ WroteIn s.hist op n
  unpins : unpins s'.hist = unpins s.hist
  uninstalled : ∀ b, uninstalled s'.hist b = if b = (s.buf i).blockno then true else
    Log.uninstalled s.hist b
  written : ∀ d₀, written d₀ s'.hist = written d₀ s.hist
  contents : ∀ d₀, contents d₀ s'.hist =
    update (contents d₀ s.hist) (s.buf i).blockno (s.buf i).data
  dirty : ∀ b, dirty s'.hist b = if b = (s.buf i).blockno then false else dirty s.hist b
  breads : ∀ start d₀, BreadsOk start d₀ s'.hist ↔ BreadsOk start d₀ s.hist
  lh : ((s.buf i).blockno ∈ s.lh ∧ s'.lh = s.lh ∧ s'.buf = s.buf ∧
      pinned s'.hist = pinned s.hist ∧ pins s'.hist = pins s.hist) ∨
    ((s.buf i).blockno ∉ s.lh ∧ s'.lh = s.lh ++ [(s.buf i).blockno] ∧
      s.lh.length < logBlocks ∧
      s'.buf = update s.buf i { s.buf i with refcnt := (s.buf i).refcnt + 1 } ∧
      (∀ b, pinned s'.hist b = if b = (s.buf i).blockno then true else pinned s.hist b) ∧
      ∀ b, pins s'.hist b = if b = (s.buf i).blockno then pins s.hist b + 1 else pins s.hist b)

theorem logWrite_cases {i : BufId} {o : Op} {u : Unit} (ho : s.op t = some o)
    (he : s.logWrite i t = .done u s') : LogWrote s s' t i o := by
  have hop : (s.op t).map (fun o => (⟨o.id, insert (s.buf i).blockno o.blocks⟩ : Op)) =
      some ⟨o.id, insert (s.buf i).blockno o.blocks⟩ := by rw [ho]; rfl
  have hid : s.opId t = o.id := by unfold St.opId; rw [ho]; rfl
  unfold St.logWrite at he
  dsimp only at he
  split_ifs at he with hlen hout hmem
  · cases he
    refine ⟨rfl, rfl, rfl, rfl, rfl, rfl, rfl, rfl, rfl, ?_, fun j => ⟨_, rfl⟩, rfl, rfl, rfl,
      fun op n => ?_, rfl, fun _ => rfl, fun _ => rfl, fun _ => rfl, fun _ => rfl, fun _ _ => Iff.rfl,
      Or.inl ⟨hmem, rfl, rfl, rfl, rfl⟩⟩
    · show update s.op t _ = _
      rw [← hop]; rfl
    · rw [← hid]; rfl
  · cases he
    refine ⟨rfl, rfl, rfl, rfl, rfl, rfl, rfl, rfl, rfl, ?_, fun j => ?_, rfl, rfl, rfl,
      fun op n => ?_, rfl, fun _ => rfl, fun _ => rfl, fun _ => rfl, fun _ => rfl, fun _ _ => Iff.rfl,
      Or.inr ⟨hmem, rfl, not_le.1 hlen, rfl, fun _ => rfl, fun _ => rfl⟩⟩
    · show update s.op t _ = _
      rw [← hop]; rfl
    · by_cases hj : j = i
      · subst hj; exact ⟨_, setBuf_self _ j _⟩
      · exact ⟨(s.buf j).refcnt, setBuf_ne _ _ hj⟩
    · rw [← hid]; rfl

namespace LogWrote

variable {i : BufId} {o : Op}

variable (w : LogWrote s s' t i o)

include w

theorem mem_lh (b : ℕ) : b ∈ s'.lh ↔ b = (s.buf i).blockno ∨ b ∈ s.lh := by
  rcases w.lh with ⟨hm, hl, -⟩ | ⟨-, hl, -⟩
  · rw [hl]
    exact ⟨Or.inr, fun h => h.elim (fun e => e ▸ hm) id⟩
  · rw [hl, List.mem_append, List.mem_singleton]
    exact Or.comm

theorem pinned_iff (hpin : ∀ b, pinned s.hist b ↔ b ∈ s.lh) (b : ℕ) :
    pinned s'.hist b ↔ b = (s.buf i).blockno ∨ pinned s.hist b := by
  rcases w.lh with ⟨hm, -, -, hp, -⟩ | ⟨-, -, -, -, hp, -⟩
  · rw [hp]
    exact ⟨Or.inr, fun h => h.elim (fun e => e ▸ (hpin _).2 hm) id⟩
  · rw [hp]
    by_cases hb : b = (s.buf i).blockno
    · simp [hb]
    · simp [hb]

theorem mem (h : Mem start s .client) (hb : ¬ InLog start (s.buf i).blockno)
    (hlt : (s.buf i).blockno < 2 ^ 32) : Mem start s' .client := by
  refine ⟨?_, fun b hb' => ?_, ?_, ?_, fun hne => absurd rfl hne, fun b => ?_, fun b => ?_,
    fun b hu => ?_⟩
  · rcases w.lh with ⟨-, hl, -⟩ | ⟨hm, hl, -⟩
    · rw [hl]; exact h.nodup
    · rw [hl]; exact List.nodup_append.2 ⟨h.nodup, List.nodup_singleton _,
        fun a ha b hb' => by rw [List.mem_singleton.1 hb']; exact fun e => hm (e ▸ ha)⟩
  · rcases (w.mem_lh b).1 hb' with rfl | hm
    · exact ⟨hb, hlt⟩
    · exact h.home b hm
  · rcases w.lh with ⟨-, hl, -⟩ | ⟨-, hl, hlen, -⟩
    · rw [hl]; exact h.len
    · rw [hl, List.length_append, List.length_singleton]; exact hlen
  · rw [w.committing]; exact h.comm
  · rw [w.pinned_iff h.pin, h.pin]
    exact (w.mem_lh b).symm
  · have hn := h.npin b
    rw [w.unpins]
    rcases w.lh with ⟨-, -, -, hp, hc⟩ | ⟨hm, -, -, -, hp, hc⟩
    · rw [hp, hc]; exact hn
    · rw [hp, hc]
      by_cases hbi : b = (s.buf i).blockno
      · have : pinned s.hist b ≠ true := fun e => hm (hbi ▸ (h.pin b).1 e)
        rw [if_neg this] at hn
        rw [if_pos hbi, if_pos hbi, hn]
        rfl
      · rw [if_neg hbi, if_neg hbi]; exact hn
  · refine (w.mem_lh b).2 ?_
    rw [w.uninstalled] at hu
    by_cases hbi : b = (s.buf i).blockno
    · exact Or.inl hbi
    · rw [if_neg hbi] at hu
      exact Or.inr (h.late b hu)

theorem grp (h : Grp s .client) (ho : s.op t = some o) : Grp s' .client := by
  refine ⟨fun hne => absurd rfl hne, fun hne b => ?_, ?_, fun op n n' hn hn' => ?_,
    fun op n hn => ?_, fun u o' hu => ?_⟩
  · show (Log.openGroup s'.hist b).isSome ↔ b ∈ s'.lh
    rw [w.openGroup, w.mem_lh]
    by_cases hb : b = (s.buf i).blockno
    · subst hb; simp
    · rw [update_of_ne hb]
      exact (h.dom hne b).trans ⟨Or.inr, fun e => e.resolve_left hb⟩
  · rw [w.groups, w.commits]; exact h.count
  · have hnow := (h.now t o ho).2
    rcases (w.wrote op n).1 hn with ⟨rfl, rfl⟩ | hn
    · rcases (w.wrote _ n').1 hn' with ⟨-, rfl⟩ | hn'
      · rfl
      · exact (hnow n' hn').symm
    · rcases (w.wrote op n').1 hn' with ⟨rfl, rfl⟩ | hn'
      · exact hnow n hn
      · exact h.once op n n' hn hn'
  · rw [w.nextOp]
    rcases (w.wrote op n).1 hn with ⟨rfl, -⟩ | hn
    · exact (h.now t o ho).1
    · exact h.old op n hn
  · rw [w.nextOp, w.groups]
    -- `o'` is an operation of `s`, up to the blocks it has logged
    obtain ⟨o₁, ho₁, hid⟩ : ∃ o₁, s.op u = some o₁ ∧ o₁.id = o'.id := by
      rw [w.op] at hu
      obtain ⟨rfl, ⟨⟩⟩ | ⟨-, hu⟩ := update_cases hu
      · exact ⟨o, ho, rfl⟩
      · exact ⟨o', hu, rfl⟩
    rw [← hid]
    refine ⟨(h.now u o₁ ho₁).1, fun n hn => ?_⟩
    rcases (w.wrote _ n).1 hn with ⟨-, rfl⟩ | hn
    · rfl
    · exact (h.now u o₁ ho₁).2 n hn

theorem data {md : T → Option (BufId × Block)} (h : Data dev start s md .client)
    (hpin : ∀ b, pinned s.hist b ↔ b ∈ s.lh) (hd : (s.buf i).dev = dev)
    (hv : (s.buf i).valid) : Data dev start s' md .client := by
  refine ⟨fun b x hp hg => ?_, fun j hdj hbj hvj => ?_, fun u j x hu => ?_⟩
  · have hg' : Log.openGroup s'.hist b = some x := hg
    rw [w.openGroup] at hg'
    by_cases hb : b = (s.buf i).blockno
    · subst hb
      rw [update_self] at hg'
      obtain ⟨r, e⟩ := w.buf i
      exact ⟨i, by rw [e]; exact ⟨hd, rfl, hv, Option.some.inj hg'⟩⟩
    · rw [update_of_ne hb] at hg'
      obtain ⟨j, hj⟩ := h.logged b x (((w.pinned_iff hpin b).1 hp).resolve_left hb) hg'
      obtain ⟨r, e⟩ := w.buf j
      exact ⟨j, by rw [e]; exact hj⟩
  · obtain ⟨r, e⟩ := w.buf j
    rw [e] at hdj hbj hvj ⊢
    rw [w.disk]
    exact h.area j hdj hbj hvj
  · obtain ⟨r, e⟩ := w.buf j
    rw [e]
    exact h.mdLock u j x hu

theorem coh {raw : T → Option BufId} (h : Coh dev start d₀ s raw .client)
    (hpin : ∀ b, pinned s.hist b ↔ b ∈ s.lh)
    (huniq : ∀ i j, (s.buf i).dev = dev → (s.buf j).dev = dev →
      (s.buf i).blockno = (s.buf j).blockno → i = j) (hd : (s.buf i).dev = dev) :
    Coh dev start d₀ s' raw .client := by
  refine ⟨fun j hdj hvj hbj => ?_, fun b hb => ?_, fun b hb hp => ?_, fun b x hp hg => ?_, ?_⟩
  · obtain ⟨r, e⟩ := w.buf j
    rw [e] at hdj hbj hvj ⊢
    dsimp only at hdj hbj hvj ⊢
    rw [w.contents, w.dirty]
    by_cases hb : (s.buf j).blockno = (s.buf i).blockno
    · have hji := huniq j i hdj hd hb
      subst hji
      rw [update_self]
      exact Or.inl rfl
    · rw [update_of_ne hb, if_neg hb]
      exact h.buf j hdj hvj hbj
  · rw [w.dirty] at hb
    split_ifs at hb with hbi
    obtain ⟨j, u, h₁, h₂, h₃, h₄, h₅⟩ := h.held b hb
    obtain ⟨r, e⟩ := w.buf j
    refine ⟨j, u, by rw [e]; exact h₁, by rw [e]; exact h₂, by rw [e]; exact h₃, h₄, ?_⟩
    rw [w.op]
    by_cases hut : u = t
    · subst hut; rw [update_self]; rfl
    · rw [update_of_ne hut]; exact h₅
  · have hnp : ¬ (b = (s.buf i).blockno ∨ pinned s.hist b) := by
      rw [← w.pinned_iff hpin, hp]
      simp
    rw [w.disk, w.contents, update_of_ne fun e => hnp (Or.inl e)]
    exact h.disk b hb (Bool.eq_false_iff.2 fun e => hnp (Or.inr e))
  · have hg' : Log.openGroup s'.hist b = some x := hg
    rw [w.openGroup] at hg'
    rw [w.contents, w.dirty]
    by_cases hb : b = (s.buf i).blockno
    · subst hb
      rw [update_self] at hg' ⊢
      exact Or.inl (Option.some.inj hg').symm
    · rw [update_of_ne hb] at hg' ⊢
      rw [if_neg hb]
      exact h.grp b x (((w.pinned_iff hpin b).1 hp).resolve_left hb) hg'
  · exact (w.breads start d₀).2 h.breads

theorem res (h : Res s) (ho : s.op t = some o)
    (hlim : (insert (s.buf i).blockno o.blocks).length ≤ maxOpBlocks) : Res s' := by
  have hblk := (h.op t o ho).2
  constructor
  · rw [w.op, sum_update room, ho]
    have hfits := h.fits
    have hr : ∀ o : Op, room (some o) = maxOpBlocks - o.blocks.length := fun _ => rfl
    rw [hr, hr]
    rcases w.lh with ⟨-, hl, -⟩ | ⟨hm, hl, -⟩
    · have : o.blocks.length ≤ (insert (s.buf i).blockno o.blocks).length :=
        List.length_le_length_insert
      rw [hl]
      push_cast
      linarith [Int.ofNat_le.2 this]
    · have hnew : (s.buf i).blockno ∉ o.blocks := fun e => hm (hblk _ e)
      have hlen : (insert (s.buf i).blockno o.blocks).length = o.blocks.length + 1 :=
        List.length_insert_of_not_mem hnew
      dsimp only
      rw [hl, List.length_append, List.length_singleton, hlen]
      push_cast
      linarith
  · intro u o' hu
    rw [w.op] at hu
    obtain ⟨rfl, ⟨⟩⟩ | ⟨-, hu⟩ := update_cases hu
    · refine ⟨hlim, fun b hb => ?_⟩
      rcases List.mem_insert_iff.1 hb with rfl | hb
      · exact (w.mem_lh _).2 (Or.inl rfl)
      · exact (w.mem_lh b).2 (Or.inr (hblk b hb))
    · exact ⟨(h.op u o' hu).1, fun b hb => (w.mem_lh b).2 (Or.inr ((h.op u o' hu).2 b hb))⟩

end LogWrote

/-- A thread inside an operation counts as outstanding. -/
theorem InvAt.one_le_outstanding (h : InvAt m dev start d₀ s G st) (ho : (s.op t).isSome) :
    1 ≤ s.outstanding := by
  have hb : busy (s.op t) = 1 := if_pos ho
  rw [h.out, ← hb]
  exact single_le_sum (fun u _ => busy_nonneg _) (mem_univ t)

theorem ok_logWrite {i : BufId} {b : ℕ} {k : Unit → P α} (hkn : g.kn i = some b)
    (hb : ¬ InLog start b) (hr : g.raw = none) (hin : g.inOp)
    (hk : LogOk m dev start d₀ t (k ()) g Q) :
    LogOk m dev start d₀ t (.act (.logWrite i) k) g Q := by
  rintro s G ⟨st, h⟩ rfl ⟨hlim, hfull⟩
  obtain ⟨hl, hbn, hd, hv, hlt⟩ := h.held_buf hkn hr
  have hop : (s.op t).isSome := by rw [← h.inOp t, hin]
  obtain ⟨rfl, -⟩ := h.client_of_op hop
  obtain ⟨o, ho⟩ := Option.isSome_iff_exists.1 hop
  refine ⟨fun msg he => ?_, fun u s' he => ?_⟩
  · -- in a full log a block that is not logged yet would exceed the reserved space
    have he' : s.logWrite i t = .panic msg := he
    unfold St.logWrite at he'
    dsimp only at he'
    split_ifs at he' with hlen hout
    · cases he'
      refine Or.inl ⟨rfl, fun ⟨hml, hmf⟩ => ?_⟩
      have hn := hfull hmf (le_antisymm h.mem.len hlen)
      have hres := h.res hml
      have hnew : (s.buf i).blockno ∉ o.blocks := fun e => hn ((hres.op t o ho).2 _ e)
      have hcard : o.blocks.length + 1 ≤ maxOpBlocks :=
        (List.length_insert_of_not_mem hnew).symm.trans_le (hlim hml o ho)
      have hroom : room (s.op t) ≤ ∑ u, room (s.op u) := by
        refine single_le_sum (f := fun u => room (s.op u)) (fun u _ => ?_)
          (mem_univ t)
        cases hu : s.op u with
        | none => exact le_refl _
        | some o' => exact sub_nonneg.2 (by exact_mod_cast (hres.op u o' hu).1)
      have hpos : (1 : ℤ) ≤ room (s.op t) := by
        rw [ho]
        show (1 : ℤ) ≤ maxOpBlocks - o.blocks.length
        omega
      have := hres.fits
      omega
    · exact absurd (h.one_le_outstanding hop) (not_le.2 hout)
  · have w := logWrite_cases ho he
    refine ⟨G t, ⟨.client, ?_⟩, hk⟩
    rw [update_eq_self]
    have hb' : ¬ InLog start (s.buf i).blockno := by rw [hbn]; exact hb
    have hlt' : (s.buf i).blockno < 2 ^ 32 := by rw [hbn]; exact hlt
    have hsome : ∀ u, (s'.op u).isSome = (s.op u).isSome := by
      intro u
      rw [w.op]
      by_cases hut : u = t
      · subst hut; rw [update_self, hop]; rfl
      · rw [update_of_ne hut]
    refine ⟨by rw [w.dev]; exact h.devEq, by rw [w.start]; exact h.startEq, h.role, h.solo,
      h.run, h.quiet, fun u => by rw [hsome]; exact h.inOp u, ?_, w.mem h.mem hb' hlt', ?_, w.grp h.grp ho,
      w.data h.data h.mem.pin hd hv, ?_, by rw [w.disk, w.written]; exact h.wrote,
      fun hdis => w.coh (h.coh hdis) h.mem.pin h.bio.uniq hd,
      fun hml => w.res (h.res hml) ho (hlim hml o ho), ?_⟩
    · rcases w.lh with ⟨-, -, he, hp, -⟩ | ⟨hm, -, -, he, hp, -⟩
      · exact h.bio.congr w.lru w.users (fun j => ⟨_, by rw [he]⟩) fun b => by rw [hp]
      · exact h.bio.bpin hd (Bool.eq_false_iff.2 fun e => hm ((h.mem.pin _).1 e)) w.lru w.users he hp
    · have : ∀ u, busy (s'.op u) = busy (s.op u) := fun u => by unfold busy; rw [hsome]
      rw [w.outstanding, h.out]
      exact sum_congr rfl fun u _ => (this u).symm
    · rw [w.disk, w.groups]
      exact h.disk
    · refine ⟨fun _ hall => ?_, fun u hu => ?_, by rw [w.asleep]; exact h.wake.awake⟩
      · have := hall t
        rw [w.op, update_self] at this
        cases this
      · rw [w.asleep] at hu
        rw [w.committing, w.outstanding]
        have hlen : s.lh.length ≤ s'.lh.length := by
          rcases w.lh with ⟨-, e, -⟩ | ⟨-, e, -⟩ <;> rw [e]
          exact List.length_append ▸ Nat.le_add_right _ _
        rcases h.wake.sleep u hu with hc' | hf
        · exact .inl hc'
        · exact .inr (by omega)

/-! ## The first critical section of `end_op` -/

theorem InvAt.sum_busy_leave (h : InvAt m dev start d₀ s G st) (ho : (s.op t).isSome) :
    s.outstanding - 1 = ∑ u, busy (update s.op t none u) := by
  rw [sum_update busy, h.out, show busy (s.op t) = 1 from if_pos ho, show busy none = 0 from rfl]
  omega

theorem InvAt.no_op_of_last (h : InvAt m dev start d₀ s G st) (ho : (s.op t).isSome)
    (hlast : s.outstanding - 1 = 0) (u : T) : update s.op t none u = none := by
  have hsum := h.sum_busy_leave ho
  rw [hlast] at hsum
  have hu := (sum_eq_zero_iff_of_nonneg fun v _ => busy_nonneg _).1 hsum.symm u
    (mem_univ u)
  unfold busy at hu
  split_ifs at hu with hs
  · cases hu
  · exact Option.isNone_iff_eq_none.1 (by simpa using hs)

theorem Res.leave (h : Res s) (hop : s'.op = update s.op t none) (hl : s'.lh = s.lh) :
    Res s' := by
  constructor
  · rw [hop, hl, sum_update room, show room none = 0 from rfl]
    have hroom : 0 ≤ room (s.op t) := by
      cases ho : s.op t with
      | none => exact le_refl _
      | some o => exact sub_nonneg.2 (by exact_mod_cast (h.op t o ho).1)
    have := h.fits
    omega
  · intro u o hu
    rw [hop] at hu
    obtain ⟨-, ⟨⟩⟩ | ⟨-, hu⟩ := update_cases hu
    rw [hl]
    exact h.op u o hu

/-- The last operation closes the group and starts `commit`; another one only leaves. -/
theorem ok_endOpAct {k : Bool → P α} (hin : g.inOp) (hst : g.stage = .client)
    (hleave : LogOk m dev start d₀ t (k false) { g with inOp := false } Q)
    (hcommit : ∀ l gr, l.length ≤ logBlocks → (∀ b ∈ l, ¬ InLog start b ∧ b < 2 ^ 32) →
      LogOk m dev start d₀ t (k true) { g with inOp := false, stage := .wlog l gr 0 } Q) :
    LogOk m dev start d₀ t (.act .endOp k) g Q := by
  rintro s G ⟨st, h⟩ rfl hc
  have hop : (s.op t).isSome := by rw [← h.inOp t, hin]
  obtain ⟨rfl, hcm⟩ := h.client_of_op hop
  -- the modified blocks are held by threads inside operations, and not by `t`
  have hheld : m.disc → ∀ b, dirty s.hist b → ∃ i u, (s.buf i).dev = dev ∧
      (s.buf i).blockno = b ∧ (s.buf i).lock = some u ∧ (G u).raw ≠ some i ∧
      (update s.op t none u).isSome := by
    intro hdis b hb
    obtain ⟨i, u, h₁, h₂, h₃, h₄, h₅⟩ := (h.coh hdis).held b hb
    have hut : u ≠ t := by
      rintro rfl
      rw [← h₂, hc hdis i h₃] at hb
      cases hb
    exact ⟨i, u, h₁, h₂, h₃, h₄, by rw [update_of_ne hut]; exact h₅⟩
  have hothers : ∀ u ≠ t, (G u).stage = .client := fun u _ => (h.role u).elim id id
  have hops : ∀ u ≠ t, (update s.op t none u).isSome = (s.op u).isSome := fun u hu => by
    rw [update_of_ne hu]
  have hnot : false = (update s.op t none t).isSome := by
    rw [update_self]
    rfl
  have hnow : ∀ u o, update s.op t none u = some o → o.id < s.nextOp ∧
      ∀ n, WroteIn s.hist o.id n → n = (groups s.hist).length := by
    intro u o hu
    obtain ⟨-, ⟨⟩⟩ | ⟨-, hu⟩ := update_cases hu
    exact h.grp.now u o hu
  show (∀ msg, s.endOp t = .panic msg → _) ∧ ∀ b s', s.endOp t = .done b s' → _
  unfold St.endOp
  rw [if_neg (by rw [hcm]; simp)]
  split_ifs with hlast
  · refine ⟨by simp, fun b s' he => ?_⟩
    cases he
    refine ⟨_, ⟨.wlog s.lh (openGroup s.hist) 0, ?_⟩,
      hcommit s.lh (openGroup s.hist) h.mem.len h.mem.home⟩
    have hnone := h.no_op_of_last hop hlast
    refine h.move hothers (by simp) rfl rfl hnot hops (h.sum_busy_leave hop)
      (h.bio.congr rfl rfl (fun j => ⟨_, rfl⟩) fun _ => rfl) ?_ ?_ ?_ ?_ h.wrote (fun hdis => ?_)
      (fun hl => (h.res hl).leave rfl rfl) ⟨by simp, fun _ _ => .inl rfl, fun u hu => ?_⟩
    · exact ⟨h.mem.nodup, h.mem.home, h.mem.len, ⟨fun _ => by simp, fun _ => rfl⟩,
        fun _ u => hnone u, h.mem.pin, h.mem.npin, h.mem.late⟩
    · refine ⟨fun _ => ⟨by simp [St.emit, groups], fun _ => rfl⟩, fun _ => h.grp.dom (by simp), ?_,
        h.grp.once, h.grp.old, fun u o hu => ?_⟩
      · have := h.grp.count
        simp only [St.emit, groups, commits, List.length_cons, Stage.closed] at this ⊢
        rw [this]
      · have hu' : update s.op t none u = some o := hu
        rw [hnone u] at hu'
        cases hu'
    · rw [update_eq_self]
      exact ⟨h.data.logged, h.data.area, h.data.mdLock⟩
    · obtain ⟨h₁, h₂⟩ := h.disk
      exact ⟨rfl, rfl, h₁, h₂, Nat.zero_le _, fun j b hj => absurd hj (Nat.not_lt_zero j)⟩
    · exact ⟨(h.coh hdis).buf, hheld hdis, (h.coh hdis).disk, (h.coh hdis).grp, (h.coh hdis).breads⟩
    · by_cases hut : u = t
      · subst hut
        exact h.wake.awake u (.inl hin)
      · apply h.wake.awake
        rwa [update_of_ne hut] at hu
  · refine ⟨by simp, fun b s' he => ?_⟩
    cases he
    have hg : ({ G t with inOp := false } : Gh) =
        { G t with md := (G t).md, inOp := false, stage := .client } := by rw [← hst]
    refine ⟨_, ⟨.client, ?_⟩, hleave⟩
    rw [hg]
    refine h.move hothers (fun _ => h.quiet t hst) rfl rfl hnot hops (h.sum_busy_leave hop)
      (h.bio.congr rfl rfl (fun j => ⟨_, rfl⟩) fun _ => rfl)
      ⟨h.mem.nodup, h.mem.home, h.mem.len, h.mem.comm, fun hne => absurd rfl hne, h.mem.pin,
        h.mem.npin, h.mem.late⟩
      ⟨h.grp.shut, h.grp.dom, h.grp.count, h.grp.once, h.grp.old, hnow⟩ ?_ h.disk h.wrote
      (fun hdis => ⟨(h.coh hdis).buf, hheld hdis, (h.coh hdis).disk, (h.coh hdis).grp,
        (h.coh hdis).breads⟩)
      (fun hl => (h.res hl).leave rfl rfl) ⟨fun _ hall => ?_, by rintro _ ⟨⟩,
        fun _ _ => rfl⟩
    · rw [update_eq_self]
      exact ⟨h.data.logged, h.data.area, h.data.mdLock⟩
    · exfalso
      apply hlast
      rw [h.sum_busy_leave hop]
      apply sum_eq_zero
      intro u _
      rw [show update s.op t none u = none from hall u]
      rfl

end Xv6.Log
