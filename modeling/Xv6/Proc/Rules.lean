import Xv6.Proc.Inv

/-!
# Rules for locks and scheduling

For each action, the rule that moves its thread to the next ghost value: `acquire`, `release`, the
scheduler, `sched`, and what `wakeup` does to one process.
-/

namespace Xv6.Proc

open Function (update update_self update_of_ne update_eq_self)
open Xv6.Threads

variable {ncpu : ℕ} {lk : ℕ → ℕ} {nz : Bool} {α : Type} {t : Thr ncpu} {p q : ProcId} {g : Gh}
  {Q : α → Gh → Prop} {R : Unit → Gh → Prop} {s : St ncpu} {G : Thr ncpu → Gh} {c : Fin ncpu} {l : Lk}

/-- The ghost value after the lock `l` has been acquired. -/
def Gh.take (g : Gh) (l : Lk) : Gh := { g with spins := none, held := update g.held l true }

/-- The ghost value after the lock `l` has been released. -/
def Gh.drop (g : Gh) (l : Lk) : Gh := { g with held := update g.held l false }

/-- The references that the thread's process holds. -/
def Gh.refs (g : Gh) (k : InodeId) : ℕ := g.own k + if g.cwd = some k then 1 else 0

theorem Inv.refs_eq (h : Inv lk nz s G) (hb : (G (.proc p)).kind = .busy) (k : InodeId) :
    Proc.refs s.own s.cwd p k = (G (.proc p)).refs k := by
  obtain ⟨h1, h2, -⟩ := h.refs.mine hb
  rw [Proc.refs, h1, h2]
  rfl

theorem Inv.holder_eq (h : Inv lk nz s G) (hc : s.on c = t) (hl : (G t).held l) :
    s.holder l = some c := by
  refine h.locks.holds.2 ?_
  rw [hc]
  exact hl

/-- A thread whose CPU has `q` as `c->proc` is that of `q`, if it is not a scheduler that has
picked `q`. -/
theorem Inv.eq_of_cpuProc (h : Inv lk nz s G) (hc : s.on c = t) (hp : (G t).pick = none)
    (hq : s.cpuProc c = some q) : t = .proc q := by
  cases t with
  | proc p =>
    rw [h.cpus.proc hc] at hq
    cases hq
    rfl
  | sched c' =>
    have := h.locks.sched hc
    subst this
    rw [h.cpus.sched hc, hp] at hq
    cases hq

theorem Inv.not_busy (h : Inv lk nz s G) (hc : s.on c = t) (hp : (G t).pick = none)
    (hl : (G t).held (.proc q)) (hne : t ≠ .proc q) (hst : s.state q ≠ .running)
    (c' : Fin ncpu) : s.on c' ≠ .proc q ∧ s.cpuProc c' ≠ some q :=
  h.cpus.not_busy hst (h.holder_eq hc hl) (fun he => hne (h.eq_of_cpuProc hc hp he)) c'

theorem Inv.excl_wait (h : Inv lk nz s G) (hc : s.on c = t) (hl : (G t).held .wait)
    (r : ProcId) (hr : (G (.proc r)).held .wait) : .proc r = t :=
  h.locks.excl' hc hl hr (by simp)

theorem update_true {f : Lk → Bool} {m : Lk} (h : f m) : update f l true m := by
  by_cases hm : m = l
  · rw [hm, update_self]
  · rwa [update_of_ne hm]

/-- The rule for an action that changes nothing of what the invariant mentions. -/
theorem ok_same {a : Act} {k : a.Ret → P α}
    (ha : ∀ c (s : St ncpu) b s', execOn c (.proc p) a s = .done b s' →
      s' = { s with dead := s'.dead, timer := s'.timer, nextpid := s'.nextpid })
    (hk : ∀ b, OwnOk ncpu lk nz p (k b) g Q) : OwnOk ncpu lk nz p (.act a k) g Q := by
  apply ok_act
  rintro s G c h rfl hc b s' he
  refine ⟨_, ?_, hk b⟩
  rw [update_eq_self, ha c s b s' he]
  exact ⟨h.locks, h.cpus, h.know, h.family, h.zombies, h.kills, h.marks, h.frees, h.awakes, h.waits,
    h.conds, h.refs, h.cwds, h.kinds, h.calm⟩

theorem ok_ticks {k : ℕ → P α} (hk : ∀ n, OwnOk ncpu lk nz p (k n) g Q) :
    OwnOk ncpu lk nz p (.act .ticks k) g Q := by
  refine ok_same ?_ hk
  intro c s b s' he
  cases he
  rfl

/-! ## Locks -/

theorem ok_spin {k : Unit → P α} (hb : g.kind = .busy) (ho : Ordered g.held g.last l)
    (hk : PrOk lk nz t (k ()) { g with spins := some l } Q) :
    PrOk lk nz t (.act (.spin l) k) g Q := by
  apply ok_act
  rintro s G c h rfl hc b s' he
  simp only [execOn] at he
  split at he
  · cases he
  · cases he
    refine ⟨_, ?_, hk⟩
    have hinj := h.inj hc
    cases id h
    constructor <;> (try simp only [update_proj, update_eq_self]) <;> try assumption
    · exact h.locks.setSpin hc hinj _
    · refine h.refs.setSpins ?_
      intro l' hl'
      cases hl'
      exact ho
    · exact h.calm.busy hb

theorem ok_take {k : Unit → P α} (hb : g.kind = .busy)
    (hs : ∀ i, l = .slk i → ∃ p, t = .proc p ∧ 1 ≤ g.refs i)
    (hk : PrOk lk nz t (k ()) (g.take l) Q) : PrOk lk nz t (.act (.take l) k) g Q := by
  apply ok_act
  rintro s G c h rfl hc b s' he
  simp only [execOn] at he
  split at he
  · cases he
  · rename_i hfree
    cases he
    refine ⟨_, ?_, hk⟩
    have hinj := h.inj hc
    have hrefs : ∀ p, t = .proc p → ∀ i, Proc.refs s.own s.cwd p i = (G t).refs i := by
      intro p hp i
      subst hp
      exact h.refs_eq hb i
    cases id h
    unfold Gh.take
    constructor <;> (try simp only [update_proj, update_eq_self]) <;> try assumption
    · exact (h.locks.setSpin hc hinj none).setHeld hc hinj rfl fun c' hc' => by simp [hfree] at hc'
    · refine h.cpus.setHolder _ ?_
      intro p hp
      by_cases hno : ∃ c', s.cpuProc c' = some p
      · obtain ⟨c', hc'⟩ := hno
        refine .inl ((h.cpus.runs hc').resolve_right ?_)
        rw [← hp, hfree]
        simp
      · exact .inr fun c' hc' => absurd ⟨c', hc'⟩ hno
    · exact h.know.take
    · exact h.family.setHeld fun hwait => .inl (update_true hwait)
    · refine h.waits.setHeld (fun hwait => .inl (update_true hwait)) ?_
      intro p hp hn
      subst hp
      exact (h.waits.noz_on hn).2.imp update_true update_true
    · refine h.conds.setHeld (fun i q hd => update_true (h.conds.due_held hd)) ?_
      intro p i hp hi
      subst hp
      exact (h.conds.commit_on hi).2.imp update_true update_true
    · have hr' := h.refs.setSpins (t := t) (x := none) fun l hl => by cases hl
      refine hr'.setHeld (update_self ..) ?_ ?_
      · intro i hi
        by_cases hl : Lk.slk i = l
        · obtain ⟨p, hp, hle⟩ := hs i hl.symm
          exact ⟨p, hp, by rw [hrefs p hp]; exact hle⟩
        · rw [update_of_ne hl] at hi
          cases t with
          | sched c' =>
            rw [h.refs.sched] at hi
            cases hi
          | proc p => exact ⟨p, rfl, h.refs.slk hi⟩
      · intro p hp hl
        subst hp
        obtain ⟨i, hi⟩ := Option.ne_none_iff_exists'.1 hl
        exact update_true (h.refs.last_ok hi).2.1
    · exact h.calm.busy hb

theorem ok_acquire (hb : g.kind = .busy) (ho : Ordered g.held g.last l)
    (hs : ∀ i, l = .slk i → ∃ p, t = .proc p ∧ 1 ≤ g.refs i)
    (hk : R () (g.take l)) : PrOk lk nz t (acquire l) g R := by
  refine ok_spin hb ho ?_
  exact ok_take hb hs hk

/-- The thread knows nothing that `wait_lock` protects. -/
structure Gh.Unaware (g : Gh) : Prop where
  kid : g.kid = none
  par : g.par = none
  rep : ∀ q, g.rep q = false
  woken : g.woken = false
  scan : ∀ q, g.scan q = false
  due : ∀ p q, g.due (.proc p) q = false

/-- `release`. The lock of the thread's own process is released only if it runs, `wait_lock` only
if nothing is known that it protects, and the lock of a condition when everybody has been woken. A
thread that goes to sleep holds the lock of its process. -/
theorem ok_release (hb : g.kind = .busy) (hs : g.spins = none) (hp : g.pick = none)
    (hmine : ∀ p, t = .proc p → l = .proc p → g.mine = .running)
    (hkn : ∀ q, l = .proc q → g.know q = none ∨ g.know q = some .used)
    (hwait : l = .wait → g.Unaware)
    (hsleep : (g.noz = false ∧ g.commit = none) ∨
      ∃ p, t = .proc p ∧ g.held (.proc p) ∧ l ≠ .proc p)
    (hdue : ∀ i q, g.due (.cond i) q → l ≠ .cond (lk i))
    (hlast : l = .itable → g.last = none)
    (hk : R () (g.drop l)) : PrOk lk nz t (release l) g R := by
  apply ok_act
  rintro s G c h rfl hc b s' he
  simp only [execOn] at he
  split at he
  · cases he
  · rename_i hold
    push Not at hold
    cases he
    refine ⟨_, ?_, hk⟩
    have hinj := h.inj hc
    have hcpu := fun q => h.eq_of_cpuProc (q := q) hc hp
    cases id h
    have keep : ∀ {m}, m ≠ l → (G t).held m →
        update (G t).held l false m := by
      intro m hne hm
      rwa [update_of_ne hne]
    -- a thread that goes to sleep still holds the lock of its process
    have asleep : ∀ {p}, t = .proc p → ¬ ((G t).noz = false ∧ (G t).commit = none) →
        update (G t).held l false (.proc p) := by
      intro p ht hn
      obtain ⟨p', ht', hheld, hne⟩ := hsleep.resolve_left hn
      rw [ht] at ht'
      cases ht'
      exact keep hne.symm hheld
    unfold Gh.drop
    constructor <;> (try simp only [update_proj, update_eq_self]) <;> try assumption
    · refine h.locks.setHeld hc hinj rfl ?_
      intro c' hc'
      rw [hold] at hc'
      cases hc'
      rfl
    · refine h.cpus.setHolder _ ?_
      intro q hq
      by_cases hno : ∃ c', s.cpuProc c' = some q
      · obtain ⟨c', hc'⟩ := hno
        rcases h.cpus.runs hc' with h1 | h1
        · exact .inl h1
        · rw [← hq, hold] at h1
          cases h1
          have ht := hcpu q hc'
          rw [ht] at hc
          refine .inl ?_
          rw [h.cpus.mine_eq hc, ← ht]
          exact hmine q ht hq
      · exact .inr fun c' hc' => absurd ⟨c', hc'⟩ hno
    · exact h.know.release hkn
    · refine h.family.setHeld ?_
      intro hheld
      by_cases hl : l = .wait
      · exact .inr ⟨(hwait hl).kid, (hwait hl).par, (hwait hl).rep⟩
      · exact .inl (keep (Ne.symm hl) hheld)
    · refine h.waits.setHeld ?_ ?_
      · intro hheld
        by_cases hl : l = .wait
        · exact .inr ⟨(hwait hl).woken, (hwait hl).scan, (hwait hl).due⟩
        · exact .inl (keep (Ne.symm hl) hheld)
      · intro p ht hn
        exact .inr (asleep ht fun hno => by simp [hno.1] at hn)
    · refine h.conds.setHeld ?_ ?_
      · intro i q hd
        exact keep (Ne.symm (hdue i q hd)) (h.conds.due_held hd)
      · intro p i ht hi
        exact .inr (asleep ht fun hno => by simp [hno.2] at hi)
    · refine h.refs.setHeld hs ?_ ?_
      · intro i hi
        have hheld : (G t).held (.slk i) := by
          rcases update_cases hi with ⟨-, hi⟩ | ⟨-, hi⟩
          · cases hi
          · exact hi
        cases t with
        | sched c' =>
          rw [h.refs.sched] at hheld
          cases hheld
        | proc p => exact ⟨p, rfl, h.refs.slk hheld⟩
      · intro p ht hl
        subst ht
        obtain ⟨i, hi⟩ := Option.ne_none_iff_exists'.1 hl
        refine keep ?_ (h.refs.last_ok hi).2.1
        intro he
        exact hl (hlast he.symm)
    · exact h.calm.busy hb

theorem ok_release_proc (hb : g.kind = .busy) (hs : g.spins = none) (hp : g.pick = none)
    (hm : g.mine = .running) (hkn : g.know q = none ∨ g.know q = some .used) (hn : g.noz = false)
    (hc : g.commit = none) (hk : R () (g.drop (.proc q))) :
    PrOk lk nz t (release (.proc q)) g R := by
  refine ok_release hb hs hp (fun _ _ _ => hm) ?_ ?_ (.inl ⟨hn, hc⟩) ?_ ?_ hk
  · intro r hr
    cases hr
    exact hkn
  · intro he
    cases he
  · intro i r _ he
    cases he
  · intro he
    cases he

/-! ## Scheduling -/

theorem ok_pick {k : Bool → P α} (hb : g.kind = .busy) (hh : g.held = only q) (hs : g.spins = none)
    (hp : g.pick = none)
    (ht : PrOk lk nz (.sched c) (k true) { g with pick := some q } Q)
    (hf : PrOk lk nz (.sched c) (k false) g Q) :
    PrOk lk nz (.sched c) (.act (.pick q) k) g Q := by
  apply ok_act
  intro s G c' h hg hc b s' he
  have := h.locks.sched hc
  subst this
  subst hg
  simp only [execOn] at he
  split at he
  · rename_i hst
    cases he
    refine ⟨_, ?_, ht⟩
    have hnone : s.cpuProc c = none := (h.cpus.sched hc).trans hp
    have hoff := h.not_busy (q := q) hc hp (by rw [hh]; simp [only]) (by simp) (by simp [hst])
    have hon : ∀ p, s.on c ≠ .proc p := by
      intro p hp'
      rw [hc] at hp'
      cases hp'
    cases id h
    constructor <;> (try simp only [update_proj, update_eq_self]) <;> try assumption
    · exact h.locks.enter hc (fun c' => (hoff c').1) hh hs
    · exact h.cpus.enter hc hoff hnone
    · exact h.know.setState (.inr (.inl hst))
    · exact h.family.setAlive (.inr (.inl hst)) (.inr (.inr rfl))
    · exact h.zombies.setState (by simp [hst]) (by simp)
    · exact h.kills.setState (by simp)
    · exact (h.waits.setState (by simp) (by simp)).setOn fun p hp => absurd hp (hon p)
    · exact (h.conds.setState (by simp)).setOn fun p hp => absurd hp (hon p)
    · exact h.cwds.setState (by simp)
    · exact (h.kinds.setAlive (.inr (.inr rfl))).setOn fun p hp => absurd hp (hon p)
    · exact h.calm.busy hb
  · cases he
    refine ⟨_, ?_, hf⟩
    rwa [update_eq_self]

theorem ok_clear {k : Unit → P α} (hb : g.kind = .busy)
    (hk : PrOk lk nz (.sched c) (k ()) { g with pick := none } Q) :
    PrOk lk nz (.sched c) (.act .clear k) g Q := by
  apply ok_act
  intro s G c' h hg hc b s' he
  have := h.locks.sched hc
  subst this
  subst hg
  cases he
  refine ⟨_, ?_, hk⟩
  cases id h
  constructor <;> (try simp only [update_proj, update_eq_self]) <;> try assumption
  · exact h.locks.setPick hc none
  · exact h.cpus.clear hc
  · exact h.calm.busy hb

theorem Inv.state_eq (h : Inv lk nz s G) (hc : s.on c = .proc p) :
    s.state p = (G (.proc p)).mine := h.cpus.mine_eq hc

theorem ok_giveUp {k : Unit → P α} (hb : g.kind = .busy) (hl : g.held (.proc p))
    (hm : g.mine = .running) (hk : OwnOk ncpu lk nz p (k ()) { g with mine := .runnable } Q) :
    OwnOk ncpu lk nz p (.act .giveUp k) g Q := by
  apply ok_act
  rintro s G c h rfl hc b s' ⟨⟩
  refine ⟨_, ?_, hk⟩
  have hold := h.holder_eq hc hl
  have hst : s.state p = .running := (h.state_eq hc).trans hm
  cases id h
  constructor <;> (try simp only [update_proj, update_eq_self]) <;> try assumption
  · exact h.cpus.setSelf hc hold (by simp)
  · exact h.know.setState (.inr (.inr hst))
  · exact h.family.setAlive (.inr (.inr hst)) (.inr (.inl rfl))
  · exact h.zombies.setState (by simp [hst]) (by simp)
  · exact h.kills.setState (by simp)
  · exact h.waits.setState (by simp) (by simp)
  · exact h.conds.setState (by simp)
  · exact h.cwds.setState (by simp)
  · exact h.kinds.setAlive (.inr (.inl rfl))
  · exact h.calm.busy hb

/-- Going to sleep: in `kwait` after a scan, and on a condition that does not hold. -/
theorem ok_doze {k : Unit → P α} {ch : Chan} (hb : g.kind = .busy) (hl : g.held (.proc p))
    (hm : g.mine = .running) (hw : ch = .proc p → g.noz)
    (hc : ∀ i, ch = .cond i → g.commit = some i)
    (hk : OwnOk ncpu lk nz p (k ()) { g with mine := .sleeping, noz := false, commit := none } Q) :
    OwnOk ncpu lk nz p (.act (.doze ch) k) g Q := by
  apply ok_act
  intro s G c h hg hon b s' he
  subst hg
  cases he
  refine ⟨_, ?_, hk⟩
  have hold := h.holder_eq hon hl
  have hst : s.state p = .running := (h.state_eq hon).trans hm
  cases id h
  constructor <;> (try simp only [update_proj, update_eq_self]) <;> try assumption
  · exact h.cpus.setSelf hon hold (by simp)
  · exact h.know.setState (.inr (.inr hst))
  · exact h.family.setAlive (.inr (.inr hst)) (.inl rfl)
  · exact h.zombies.setState (by simp [hst]) (by simp)
  · exact h.kills.setState (by simp)
  · exact h.waits.doze hw
  · exact h.conds.doze hc
  · exact h.cwds.setState (by simp)
  · exact h.kinds.setAlive (.inl rfl)
  · exact h.calm.busy hb

/-- A `sched` that does not panic switches to the scheduler, from a process that is not running. -/
theorem execOn_sched {x : Ctx} {b : Unit} {s' : St ncpu}
    (he : execOn c (.proc p) (.sched x) s = .done b s') :
    s.state p ≠ .running ∧
      s' = { s with on := update s.on c (.sched c), ctx := update s.ctx p x } := by
  change (if s.holder (.proc p) ≠ some c then _ else if s.noff c ≠ 1 then _
    else if s.state p = .running then _ else _) = _ at he
  split_ifs at he with _ _ hrun
  cases he
  exact ⟨hrun, rfl⟩

/-- `sched` of a process that will be scheduled again. -/
theorem ok_sched {k : Unit → P α} (hb : g.kind = .busy) (hh : g.held = only p) (hs : g.spins = none)
    (hz : g.mine ≠ .zombie) (hn : g.noz = false) (hco : g.commit = none)
    (hk : OwnOk ncpu lk nz p (k ()) { g with mine := .running } Q) :
    OwnOk ncpu lk nz p (.act (.sched .kernel) k) g Q := by
  apply ok_act
  rintro s G c h rfl hc b s' he
  obtain ⟨hrun, rfl⟩ := execOn_sched he
  refine ⟨_, ?_, hk⟩
  have hinj := h.inj hc
  have hst := h.state_eq hc
  have hpick := (h.locks.away hc).2.2
  have self : ∀ q, s.on c = .proc q → q = p := by
    intro q hq
    rw [hc] at hq
    cases hq
    rfl
  cases id h
  constructor <;> (try simp only [update_proj, update_eq_self]) <;> try assumption
  · exact h.locks.leave hc hh hs
  · exact h.cpus.leave hc hinj hpick hrun
  · exact h.waits.setOn fun q hq => self q hq ▸ hn
  · exact h.conds.setOn fun q hq => self q hq ▸ hco
  · refine (h.kinds.setOn ?_).setCtx ?_
    · intro q hq hqz
      rw [self q hq, hst] at hqz
      exact absurd hqz hz
    · simp [hb]
  · exact h.calm.busy hb

theorem ok_tidy {k : Unit → P α} (hk : OwnOk ncpu lk nz p (k ()) g Q) :
    OwnOk ncpu lk nz p (.act .tidy k) g Q := by
  apply ok_act
  rintro s G c h rfl hc b s' ⟨⟩
  refine ⟨_, ?_, hk⟩
  rw [update_eq_self]
  cases id h
  constructor <;> try assumption
  · exact h.waits.clearChan
  · exact h.conds.clearChan

theorem ok_awake {k : Unit → P α} (hl : g.held l) (hk : OwnOk ncpu lk nz p (k ()) g Q) :
    OwnOk ncpu lk nz p (.act (.awake l) k) g Q := by
  apply ok_act
  rintro s G c h rfl hc b s' ⟨⟩
  refine ⟨_, ?_, hk⟩
  have hold := h.holder_eq hc hl
  rw [update_eq_self]
  cases id h
  constructor <;> try assumption
  · exact h.zombies.event (fun _ => rfl) h.zombies.ok
  · exact h.kills.event (fun _ _ _ hb => hb) h.kills.ok
  · exact ⟨by simp [hold], h.awakes⟩

/-- The last `sched` of a process. -/
theorem ok_exit {o : InodeId → ℕ} {w : Option InodeId} {f : InodeId → Bool} {m : Bool}
    (hk : R () (Gh.parked p)) :
    OwnOk ncpu lk nz p (perform (.sched .exited))
      { Gh.call o w f m with held := only p, mine := .zombie } R := by
  apply ok_act
  intro s G c h hg hc b s' he
  obtain ⟨hrun, rfl⟩ := execOn_sched he
  refine ⟨_, ?_, hk⟩
  have hinj := h.inj hc
  have hpick := (h.locks.away hc).2.2
  have self : ∀ q, s.on c = .proc q → q = p := by
    intro q hq
    rw [hc] at hq
    cases hq
    rfl
  have hpark : Gh.parked p = { G (.proc p) with
      kind := .parked, mine := .running, own := fun _ => 0, cwd := none, sl := fun _ => false,
      marked := false } := by
    rw [hg]
    rfl
  have hheld : (G (.proc p)).held = only p := by rw [hg]
  have hspins : (G (.proc p)).spins = none := by rw [hg]; rfl
  have hnoz : (G (.proc p)).noz = false := by rw [hg]; rfl
  have hcommit : (G (.proc p)).commit = none := by rw [hg]; rfl
  cases id h
  have hcalm' := h.calm.set (t := .proc p) (g := Gh.parked p) fun _ => ⟨p, rfl, rfl⟩
  rw [hpark] at hcalm' ⊢
  constructor <;> (try simp only [update_proj, update_eq_self]) <;> try assumption
  · exact h.locks.leave hc hheld hspins
  · exact h.cpus.leave hc hinj hpick hrun
  · exact h.marks.learn fun _ _ he => by cases he
  · exact h.waits.setOn fun q hq => self q hq ▸ hnoz
  · exact h.conds.setOn fun q hq => self q hq ▸ hcommit
  · exact h.refs.setKind fun _ _ he => by cases he
  · have hk' := h.kinds.setBoth (p := p) (x := .parked) (y := .exited) (by simp) (by simp)
    refine hk'.setOn ?_
    intro q hq _
    rw [self q hq, update_self]

theorem ok_start {k : Unit → P α}
    (hk : ∀ o w f, OwnOk ncpu lk nz p (k ()) { Gh.call o w f false with held := only p } Q) :
    OwnOk ncpu lk nz p (.act .start k) (Gh.parked p) Q := by
  apply ok_act
  intro s G c h hg hc b s' he
  cases he
  refine ⟨_, ?_, hk (s.own p) (s.cwd p) fun k => decide (s.slocked k = some p)⟩
  have hst : s.state p = .running := by
    rw [h.state_eq hc, hg]
    rfl
  have hnew : { Gh.call (s.own p) (s.cwd p) (fun k => decide (s.slocked k = some p)) false with
      held := only p } = { G (.proc p) with
        kind := .busy, own := s.own p, cwd := s.cwd p,
        sl := fun k => decide (s.slocked k = some p) } := by
    rw [hg]
    rfl
  rw [hnew]
  cases id h
  constructor <;> (try simp only [update_proj, update_eq_self]) <;> try assumption
  · refine h.refs.setKind ?_
    intro q hq _
    cases hq
    exact ⟨rfl, rfl, by simp⟩
  · exact h.kinds.setBoth (by simp) (by simp [hst])
  · exact h.calm.busy rfl

/-! ## Wakeup -/

theorem Inv.rouse (h : Inv lk nz s G) (hc : s.on c = t) (hp : (G t).pick = none)
    (hl : (G t).held (.proc q)) (hne : t ≠ .proc q) (hst : s.state q = .sleeping) :
    Inv lk nz { s with state := update s.state q .runnable } G := by
  have hoff := h.not_busy hc hp hl hne (by simp [hst])
  cases id h
  constructor <;> try assumption
  · exact h.cpus.setState (by simp [hst]) (by simp) fun c' => (hoff c').1
  · exact h.know.setState (.inl hst)
  · exact h.family.setAlive (.inl hst) (.inr (.inl rfl))
  · exact h.zombies.setState (by simp [hst]) (by simp)
  · exact h.kills.setState (by simp)
  · exact h.waits.setState (by simp) (by simp)
  · exact h.conds.setState (by simp)
  · exact h.cwds.setState (by simp)
  · exact h.kinds.setAlive (.inr (.inl rfl))

/-- The ghost value after `wakeup` on `ch` has looked at `q`. -/
def Gh.woke (g : Gh) (ch : Option Chan) (q : ProcId) : Gh :=
  { g with
    due := fun ch' r => if ch = some ch' ∧ r = q then false else g.due ch' r
    woken := g.woken || decide (g.par = some q ∧ ch = some (.proc q)) }

/-- A thread that holds the lock of `q` and a lock that `q` would hold before it goes to sleep: `q`
is not going to sleep. -/
theorem Inv.not_falling (h : Inv lk nz s G) (hc : s.on c = t) (hl : (G t).held (.proc q))
    (hne : t ≠ .proc q) {m : Lk} (hm : (G t).held m) (hm' : ∀ r, m ≠ .proc r) :
    ¬ ((∃ c', s.on c' = .proc q) ∧
      ((G (.proc q)).held m ∨ (G (.proc q)).held (.proc q))) := by
  rintro ⟨⟨c', hc'⟩, hq | hq⟩
  · exact hne (h.locks.excl' hc hm hq hm').symm
  · exact (h.locks.excl hc hl hq hne.symm).2 c' hc'

theorem Inv.woke (h : Inv lk nz s G) (hc : s.on c = t) (hb : (G t).kind = .busy)
    (hl : (G t).held (.proc q)) (hne : t ≠ .proc q) {ch : Option Chan}
    (hup : ¬ (s.state q = .sleeping ∧ s.chan q = ch)) :
    Inv lk nz s (update G t ((G t).woke ch q)) := by
  have hfall := fun m => h.not_falling (m := m) hc hl hne
  cases id h
  -- under `wait_lock`, the process does not sleep in `kwait` and is not about to
  have awake : (G t).held .wait → ch = some (.proc q) →
      ¬ (Dozes s.state s.chan q (.proc q) ∨ (G (.proc q)).noz) := by
    rintro hwait hch (hd | hn)
    · exact hup ⟨hd.1, hd.2.trans hch.symm⟩
    · exact hfall _ hwait (by simp) (h.waits.noz_on hn)
  unfold Gh.woke
  constructor <;> (try simp only [update_proj, update_eq_self]) <;> try assumption
  · have hw' : Waits s.on s.state s.chan s.parent (fun u => (G u).held) (fun u => (G u).woken)
        (fun u => (G u).noz) (fun u => (G u).scan) (update (fun u => (G u).due) t
          fun ch' r => if ch = some ch' ∧ r = q then false else (G t).due ch' r) := by
      refine h.waits.setDue ?_ ?_
      · intro p r hpr
        split at hpr
        · cases hpr
        · exact h.waits.due_held hpr
      · intro p hd hf
        split at hf
        · rename_i hcond
          obtain ⟨hch, rfl⟩ := hcond
          exact awake (h.waits.due_held hd) hch
        · rw [hd] at hf
          cases hf
    refine hw'.setWoken ?_
    intro p ht hbt
    subst ht
    rw [Bool.or_eq_true, decide_eq_true_eq] at hbt
    refine hbt.imp_right ?_
    rintro ⟨hpar, hch⟩
    obtain ⟨hpq, hwait⟩ := h.family.par_eq hpar
    refine ⟨hwait, ?_⟩
    intro r hr
    rw [hpq] at hr
    cases hr
    exact awake hwait hch
  · refine h.conds.setDue ?_ ?_
    · intro i r hir
      split at hir
      · cases hir
      · exact h.conds.due_held hir
    · intro i r hd hf
      split at hf
      · rename_i hcond
        obtain ⟨hch, rfl⟩ := hcond
        rintro (hdz | hco)
        · exact hup ⟨hdz.1, hdz.2.trans hch.symm⟩
        · exact hfall _ (h.conds.due_held hd) (by simp) (h.conds.commit_on hco)
      · rw [hd] at hf
        cases hf
  · exact h.calm.busy hb

theorem ok_wake {k : Unit → P α} {ch : Option Chan} (hb : g.kind = .busy) (hp : g.pick = none)
    (hl : g.held (.proc q)) (hne : t ≠ .proc q)
    (hk : PrOk lk nz t (k ()) (g.woke ch q) Q) : PrOk lk nz t (.act (.wake q ch) k) g Q := by
  apply ok_act
  rintro s G c h rfl hc b s' he
  simp only [execOn] at he
  split at he
  · rename_i hst
    cases he
    exact ⟨_, (h.rouse hc hp hl hne hst.1).woke hc hb hl hne (by simp), hk⟩
  · rename_i hst
    cases he
    exact ⟨_, h.woke hc hb hl hne hst, hk⟩

/-! ## Conditions -/

theorem ok_getCond {k : Bool → P α} {i : ℕ} (hb : g.kind = .busy)
    (hl : g.held (.cond (lk i))) (ht : OwnOk ncpu lk nz p (k true) g Q)
    (hf : OwnOk ncpu lk nz p (k false) { g with commit := some i } Q) :
    OwnOk ncpu lk nz p (.act (.getCond i) k) g Q := by
  apply ok_act
  rintro s G c h rfl hc b s' ⟨⟩
  cases hi : s.cond i with
  | true =>
    refine ⟨_, ?_, ht⟩
    rwa [update_eq_self]
  | false =>
    refine ⟨_, ?_, hf⟩
    cases id h
    constructor <;> (try simp only [update_proj, update_eq_self]) <;> try assumption
    · exact h.conds.setCommit hc hl hi
    · exact h.calm.busy hb

/-- The ghost value after condition `i` has been made true: everybody else has to be woken. -/
def Gh.signalled (g : Gh) (me : Option ProcId) (i : ℕ) : Gh :=
  { g with due := fun ch r => if ch = .cond i ∧ me ≠ some r then true else g.due ch r }

/-- Making a condition true, by a thread that does not go to sleep. -/
theorem ok_setCond {k : Unit → P α} {m : Option ProcId} {i : ℕ} (hb : g.kind = .busy)
    (hl : g.held (.cond (lk i))) (hmine : g.mine = .running) (hco : g.commit = none)
    (hme : ∀ r, m = some r → t = .proc r) (hk : PrOk lk nz t (k ()) (g.signalled m i) Q) :
    PrOk lk nz t (.act (.setCond i true) k) g Q := by
  apply ok_act
  rintro s G c h rfl hc b s' ⟨⟩
  refine ⟨_, ?_, hk⟩
  cases id h
  unfold Gh.signalled
  constructor <;> (try simp only [update_proj, update_eq_self]) <;> try assumption
  · refine h.waits.setDue ?_ ?_
    · intro p r hpr
      rw [if_neg (by simp)] at hpr
      exact h.waits.due_held hpr
    · intro p hd hf
      rw [if_neg (by simp), hd] at hf
      cases hf
  · have hcd' : Conds lk s.on s.state s.chan s.cond (fun u => (G u).held) (fun u => (G u).commit)
        (update (fun u => (G u).due) t
          fun ch r => if ch = .cond i ∧ m ≠ some r then true else (G t).due ch r) := by
      refine h.conds.setDue ?_ ?_
      · intro j r hjr
        split at hjr
        · rename_i hj
          cases hj.1
          exact hl
        · exact h.conds.due_held hjr
      · intro j r hd hf
        split at hf
        · cases hf
        · rw [hd] at hf
          cases hf
    refine hcd'.setCond (t := t) ?_
    intro _ r hr
    rw [update_self, if_pos]
    refine ⟨rfl, ?_⟩
    intro hmr
    have ht := hme r hmr
    subst ht
    rcases hr with hd | hd
    · have hst : s.state r = .running := (h.cpus.mine_eq hc).trans hmine
      rw [hd.1] at hst
      cases hst
    · rw [hco] at hd
      cases hd
  · exact h.calm.busy hb

theorem ok_clearCond {k : Unit → P α} {i : ℕ} (hk : PrOk lk nz t (k ()) g Q) :
    PrOk lk nz t (.act (.setCond i false) k) g Q := by
  apply ok_act
  rintro s G c h rfl hc b s' ⟨⟩
  refine ⟨_, ?_, hk⟩
  rw [update_eq_self]
  cases id h
  constructor <;> try assumption
  exact h.conds.setCond (t := t) fun he => by cases he

end Xv6.Proc
