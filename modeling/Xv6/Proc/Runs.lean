import Xv6.Proc.Syscalls

/-!
# Every run of the process table

From the rules, the invariant holds in every reachable configuration, on any number of CPUs. Its
parts give the protocol of `kexit` and `kwait`, the absence of lost wakeups, the exclusivity of
scheduling, what `kkill` does, and that no CPUs wait for each other's spin-locks in a cycle.
-/

namespace Xv6.Proc

open Xv6.Threads

variable {ncpu : ℕ} {lk : ℕ → ℕ} {nz : Bool} {tm : ℕ → ℕ}

/-- The ghost value of a thread that runs no call. -/
def Rest (g : Gh) : Prop := (∃ p, g = Gh.parked p) ∨ ∃ o w f y, g = Gh.call o w f y

/-! ## Calls -/

section Call

variable {s : St ncpu} {G : Thr ncpu → Gh} {p : ProcId} {i : InodeId}

variable (h : Inv lk nz s G)

include h

/-- A thread whose context is in the kernel is not parked. -/
theorem Inv.call_eq (hr : Rest (G (.proc p))) (hk : s.ctx p = .kernel) :
    ∃ o w f y, G (.proc p) = Gh.call o w f y := by
  rcases hr with ⟨q, hq⟩ | hr
  · have := h.kinds.ctx_eq.1 (by rw [hq]; rfl)
    exact absurd hk this
  · exact hr

theorem Inv.parked_eq (hk : s.ctx p ≠ .kernel) : G (.proc p) = Gh.parked p :=
  h.calm.eq_parked (h.kinds.ctx_eq.2 hk)

variable {o : InodeId → ℕ} {w : Option InodeId} {f : InodeId → Bool} {y : Bool}

theorem Inv.refs_of_call (hg : G (.proc p) = Gh.call o w f y) (i : InodeId) :
    Proc.refs s.own s.cwd p i = (Gh.call o w f y).refs i := by
  rw [h.refs_eq (by rw [hg]; rfl), hg]

theorem Inv.sl_of_call (hg : G (.proc p) = Gh.call o w f y) (i : InodeId) :
    s.slocked i = some p ↔ f i := by
  have := (h.refs.mine (p := p) (by rw [hg]; rfl)).2.2 i
  rw [hg] at this
  exact this

theorem Inv.own_of_call (hg : G (.proc p) = Gh.call o w f y) (i : InodeId) : s.own p i = o i := by
  have := (h.refs.mine (p := p) (by rw [hg]; rfl)).1
  rw [hg] at this
  exact congrFun this i

theorem Inv.proc_call (hg : G (.proc p) = Gh.call o w f y) {x : Call}
    (hx : x ≠ .forkret ∧ x ≠ .resume ∧ x ≠ .schedule ∧ ∀ j, x ≠ .intr j) (hc : ClientOk nz s p x) :
    OwnOk ncpu lk nz p (code lk x (.proc p : Thr ncpu)) (Gh.call o w f y) fun _ => Rest := by
  have rest : ∀ {o w f y}, Rest (Gh.call o w f y) := .inr ⟨_, _, _, _, rfl⟩
  have parked : Rest (Gh.parked p) := .inl ⟨p, rfl⟩
  have unlocked : (∀ i, s.slocked i ≠ some p) → f = fun _ => false := by
    intro hno
    funext i
    cases hf : f i with
    | false => rfl
    | true => exact absurd ((h.sl_of_call hg i).2 hf) (hno i)
  cases x with
  | schedule => exact absurd rfl hx.2.2.1
  | intr j => exact absurd rfl (hx.2.2.2 j)
  | forkret => exact absurd rfl hx.1
  | resume => exact absurd rfl hx.2.1
  | trap x n =>
    have hsl : ∀ i, s.slocked i ≠ some p := by
      cases x with
      | kill pid => exact hc.1
      | fork m => exact hc
      | exit status => exact hc
      | wait copy n => exact hc
    have hkill : nz → x ≠ .kill 0 := by
      rintro hn rfl
      exact hc.2 hn rfl
    rw [unlocked hsl]
    exact ok_usertrap hkill parked fun _ => rest
  | fault n =>
    rw [unlocked hc]
    refine ok_bind (ok_setkilled Gh.call_low ?_)
    exact ok_exitIfKilled parked rest
  | yield => exact ok_yield Gh.call_free rest
  | await j b n => exact ok_await n rest
  | signal j => exact ok_signal (fun r => by simp) rest
  | reset j => exact ok_reset rest
  | iref i => exact ok_iref rest
  | ilock i n =>
    have hr : 1 ≤ Proc.refs s.own s.cwd p i := hc
    rw [h.refs_of_call hg] at hr
    exact ok_ilock n hr rest
  | iunlock i =>
    have hr := h.refs.locked hc
    rw [h.refs_of_call hg] at hr
    exact ok_iunlock hr ((h.sl_of_call hg i).1 hc) rest
  | iput i n =>
    have ho : 1 ≤ s.own p i := hc.1
    rw [h.own_of_call hg] at ho
    refine ok_iput n ho ?_ rest
    intro hf
    have h2 := hc.2 ((h.sl_of_call hg i).2 hf)
    rwa [h.refs_of_call hg] at h2
  | unlink i => exact ok_setDead rest

theorem Inv.call {t : Thr ncpu} (hr : Rest (G t)) {x : Call} (hm : may nz x t s) :
    PrOk lk nz t (code lk x t) (G t) fun _ => Rest := by
  cases t with
  | sched c =>
    obtain ⟨o, w, f, y, hg⟩ : ∃ o w f y, G (.sched c) = Gh.call o w f y := by
      apply hr.resolve_left
      rintro ⟨p, hp⟩
      obtain ⟨q, hq, -⟩ := h.calm (.sched c) (by rw [hp]; rfl)
      cases hq
    have rest : Rest (Gh.call o w f y) := .inr ⟨_, _, _, _, rfl⟩
    rw [hg]
    cases x with
    | schedule => exact ok_mono (ok_scanProcs _) fun _ g hg => hg ▸ rest
    | intr j => exact ok_signal (by simp) rest
    | _ => exact hm.elim
  | proc p =>
    by_cases hk : s.ctx p = .kernel
    · obtain ⟨o, w, f, y, hg⟩ := h.call_eq hr hk
      rw [hg]
      refine h.proc_call hg ?_ ?_
      · cases x <;> simp_all [may]
      · cases x <;> first | exact hm.elim | exact hm.2.2 | exact trivial
    · rw [h.parked_eq hk]
      cases x with
      | forkret => exact ok_forkret fun _ _ _ => .inr ⟨_, _, _, _, rfl⟩
      | resume => exact ok_panic
      | schedule => exact hm.elim
      | intr j => exact hm.elim
      | _ => exact absurd hm.2.1 hk

end Call

/-! ## The first state -/

/-- The ghost values after `userinit`. -/
def bootGh : Thr ncpu → Gh
  | .sched _ => Gh.call (fun _ => 0) none (fun _ => false) false
  | .proc p => Gh.parked p

theorem boot_state {q : ProcId} (h : q ≠ initproc) : (boot tm : St ncpu).state q = .unused := by
  simp [boot, h]

theorem boot_state_init : (boot tm : St ncpu).state initproc = .runnable := by simp [boot]

theorem boot_ref (k : InodeId) :
    (boot tm : St ncpu).ref k = ∑ p, (refs (boot tm : St ncpu).own (boot tm : St ncpu).cwd p k : ℤ) := by
  rw [Finset.sum_eq_single initproc]
  · by_cases hk : k = 0
    · simp [boot, refs, hk]
    · simp [boot, refs, hk, Ne.symm hk]
  · intro p _ hp
    simp [boot, refs, hp]
  · simp

theorem inv_boot : Inv lk nz (boot tm : St ncpu) bootGh where
  locks := by
    refine ⟨(fun h => by cases h; rfl), ?_, fun _ => ⟨rfl, rfl⟩, (fun h => by cases h), fun _ => rfl⟩
    intro l c
    simp [boot, bootGh, Gh.call]
  cpus := by
    refine ⟨(fun h => by cases h), fun _ => rfl, (fun h => by cases h), (fun h => by cases h), ?_,
      (fun h => by cases h), fun _ => rfl, (fun _ h => by cases h)⟩
    intro p hp
    by_cases hi : p = initproc
    · rw [hi, boot_state_init] at hp
      cases hp
    · rw [boot_state hi] at hp
      cases hp
  know := by
    have none : ∀ (t : Thr ncpu) q, (bootGh t).know q = none := by
      rintro (c | p) q <;> rfl
    constructor
    · intro t q st h
      rw [none] at h
      cases h
    · intro t q st h
      rw [none] at h
      cases h
    · intro t q st h
      rw [none] at h
      cases h
    · intro t u q h
      exact absurd (none t q) h
  family := by
    refine ⟨(fun h => by cases h), ?_, .inr (.inl boot_state_init), rfl, by simp [boot], fun _ => rfl,
      (fun h => by cases h), (fun h => by cases h), (fun h => by cases h), (fun h => by cases h),
      (fun h => by cases h)⟩
    rintro q (h | h) hi
    · rw [boot_state hi] at h
      rcases h with h | h | h <;> cases h
    · rw [boot_state hi] at h
      cases h
  zombies := by
    refine ⟨?_, trivial, ?_⟩
    · intro q
      have hz : (boot tm : St ncpu).state q ≠ .zombie := by
        by_cases hi : q = initproc
        · rw [hi, boot_state_init]
          simp
        · rw [boot_state hi]
          simp
      rw [if_neg hz]
      rfl
    · rintro (c | p) q a b h <;> cases h
  kills := by
    refine ⟨?_, (fun _ _ h => by cases h), fun _ => trivial⟩
    intro _ q hq
    have hi : q ≠ initproc := by
      rintro rfl
      rw [boot_state_init] at hq
      cases hq
    simp [boot, hi]
  marks := (fun _ h => by cases h)
  frees := trivial
  awakes := trivial
  waits := by
    refine ⟨(fun h => by cases h), (fun h => by cases h), (fun h => by cases h), (fun h => by cases h), ?_⟩
    rintro (c | p) q r h <;> cases h
  conds := by
    refine ⟨(fun h => by cases h), (fun h => by cases h), ?_⟩
    rintro (c | p) j q h <;> cases h
  refs := by
    refine ⟨boot_ref, (fun h => by cases h), ?_, rfl, (fun h => by cases h), rfl, ?_,
      (fun h => by cases h)⟩
    · intro p k h
      simp [bootGh, Gh.parked, only] at h
    · rintro (c | p) l h <;> cases h
  cwds := by
    refine ⟨?_, (fun h => by cases h)⟩
    intro q hq
    have hi : q ≠ initproc := by
      rintro rfl
      rw [boot_state_init] at hq
      simp at hq
    simp [boot, hi]
  kinds := by
    refine ⟨?_, fun _ => rfl, fun _ => .inl rfl⟩
    intro p
    by_cases hi : p = initproc
    · simp [boot, bootGh, Gh.parked, hi]
    · simp [boot, bootGh, Gh.parked, hi]
  calm := by
    rintro (c | p) h
    · cases h
    · exact ⟨p, rfl, rfl⟩

/-- **The invariant of every run.** -/
theorem reach_inv {c : Conf (Thr ncpu) Act Act.Ret (St ncpu)}
    (h : Reach (sys lk nz) (idle (boot tm)) c) : ∃ G, Inv lk nz c.state G := by
  have hgood : Good (sys lk nz) (Inv lk nz) (fun _ => True) Rest (idle (boot tm : St ncpu)) := by
    refine ⟨bootGh, inv_boot, ?_⟩
    rintro (c | p)
    · exact .inr ⟨_, _, _, _, rfl⟩
    · exact .inl ⟨p, rfl⟩
  refine (reach_ok ?_ hgood h).inv
  rintro s G t ⟨u, x⟩ hI hr ⟨rfl, hm⟩
  refine ⟨G u, ?_, hI.call hr hm⟩
  rwa [Function.update_eq_self]

/-! ## Schedules -/

instance (s : St ncpu) (p : ProcId) (x : Call) : Decidable (ClientOk nz s p x) :=
  match x with
  | .trap (.kill pid) _ =>
    inferInstanceAs (Decidable ((∀ k, s.slocked k ≠ some p) ∧ (nz = true → pid ≠ 0)))
  | .trap (.fork _) _ => inferInstanceAs (Decidable (∀ k, s.slocked k ≠ some p))
  | .trap (.exit _) _ => inferInstanceAs (Decidable (∀ k, s.slocked k ≠ some p))
  | .trap (.wait _ _) _ => inferInstanceAs (Decidable (∀ k, s.slocked k ≠ some p))
  | .fault _ => inferInstanceAs (Decidable (∀ k, s.slocked k ≠ some p))
  | .ilock k _ => inferInstanceAs (Decidable (1 ≤ refs s.own s.cwd p k))
  | .iunlock k => inferInstanceAs (Decidable (s.slocked k = some p))
  | .iput k _ =>
    inferInstanceAs (Decidable (1 ≤ s.own p k ∧ (s.slocked k = some p → 2 ≤ refs s.own s.cwd p k)))
  | .unlink k => inferInstanceAs (Decidable (s.slocked k = some p))
  | .schedule | .intr _ | .forkret | .resume | .yield | .await _ _ _ | .signal _ | .reset _
  | .iref _ => inferInstanceAs (Decidable True)

instance (x : Call) (t : Thr ncpu) (s : St ncpu) : Decidable (may nz x t s) := by
  cases x <;> cases t <;> unfold may <;> infer_instance

instance (x : Thr ncpu × Call) (t : Thr ncpu) (s : St ncpu) : Decidable ((sys lk nz).may x t s) :=
  inferInstanceAs (Decidable (x.1 = t ∧ may nz x.2 t s))

instance (a : Act) (t : Thr ncpu) (s : St ncpu) : Decidable ((sys lk nz).cond a t s) :=
  inferInstanceAs (Decidable True)

/-- No timer interrupt in the kernel. -/
def noTicks : ℕ → ℕ := fun _ => 0

/-- A schedule for two CPUs. -/
abbrev Schedule := List (Thr 2 × Option (Thr 2 × Call))

/-- Thread `t` makes a call and takes `n` actions. -/
def steps (t : Thr 2) (x : Call) (n : ℕ) : Schedule := (t, some (t, x)) :: List.replicate n (t, none)

/-- The slot of the first process that init creates. -/
def childproc : ProcId := ⟨1, by decide⟩

/-- CPU 0 runs init. -/
def startInit : Schedule := steps (.sched 0) .schedule 3 ++ steps (.proc initproc) .forkret 2

/-- Init forks, and CPU 1 runs the child. -/
def forkChild : Schedule :=
  steps (.proc initproc) (.trap (.fork ⟨true, true, true⟩) 0) 39 ++
    steps (.sched 1) .schedule 7 ++ steps (.proc childproc) .forkret 2

/-- A schedule whose last state satisfies a decidable property reaches such a state. -/
theorem exists_reach {b : Bool} (l : Schedule) (φ : St 2 → Bool)
    (h : ((run (sys id b) l (idle (boot noTicks))).any fun c => φ c.state)) :
    ∃ c, Reach (sys id b) (idle (boot noTicks : St 2)) c ∧ φ c.state := by
  cases hc : run (sys id b) l (idle (boot noTicks)) with
  | none =>
    rw [hc] at h
    cases h
  | some c =>
    rw [hc] at h
    exact ⟨c, reach_of_run hc, h⟩

/-! ## Exit and wait -/

variable {c : Conf (Thr ncpu) Act Act.Ret (St ncpu)}

theorem Inv.holder_of_held {s : St ncpu} {G : Thr ncpu → Gh} (h : Inv lk nz s G) {t : Thr ncpu}
    {l : Lk} (ht : (G t).held l) (hl : ∀ q, l ≠ .proc q) : s.holder l ≠ none := by
  have some : ∀ {c : Fin ncpu}, s.on c = t → s.holder l ≠ none := by
    intro c hc
    rw [h.holder_eq hc ht]
    simp
  cases t with
  | proc p =>
    obtain ⟨c, hc⟩ := h.locks.on_of_held ht (hl p)
    exact some hc
  | sched c =>
    cases hon : s.on c with
    | sched c' =>
      have := h.locks.sched hon
      subst this
      exact some hon
    | proc p =>
      rw [(h.locks.away hon).1] at ht
      exact absurd (by simpa [only] using ht) (hl p)

/-- **The protocol of `kexit` and `kwait`.** Every process but init has a parent, which is neither
unused nor a zombie; every zombie is reaped at most once, by its parent and with its pid and exit
status, and a `kwait` that fails to copy the status leaves it a zombie; and when `wait_lock` is free,
no process sleeps in `kwait` that has a zombie child. -/
theorem exit_wait_protocol (h : Reach (sys lk false) (idle (boot tm : St ncpu)) c) :
    (∀ q, (c.state.state q).Alive ∨ c.state.state q = .zombie → q ≠ initproc →
      ∃ p, c.state.parent q = some p ∧ c.state.state p ≠ .unused ∧ c.state.state p ≠ .zombie) ∧
    ReapsOk c.state.hist ∧
    (∀ q, zstat q c.state.hist =
      if c.state.state q = .zombie then some (c.state.pid q, c.state.xstate q) else none) ∧
    (c.state.holder .wait = none → ∀ p q, Dozes c.state.state c.state.chan p (.proc p) →
      c.state.parent q = some p → c.state.state q ≠ .zombie) := by
  obtain ⟨G, hI⟩ := reach_inv h
  refine ⟨?_, hI.zombies.ok, hI.zombies.stat, ?_⟩
  · intro q hq hi
    obtain ⟨p, hp⟩ := Option.ne_none_iff_exists'.1 (hI.family.has hq hi)
    refine ⟨p, hp, ?_⟩
    rcases hI.family.live hp with hs | hs | hs <;> simp [hs]
  · intro hfree p q hd hpar hz
    obtain ⟨t, ht⟩ := hI.waits.main hpar (.inl hz) (.inl hd)
    exact hI.holder_of_held (hI.waits.due_held ht) (by simp) hfree

/-- The child exits, and init reaps it. -/
def reapChild : Schedule :=
  startInit ++ forkChild ++ steps (.proc childproc) (.trap (.exit 7) 0) 387 ++
    List.replicate 2 (.sched 1, none) ++ steps (.proc initproc) (.trap (.wait true 1) 0) 13

theorem exit_wait_protocol_reaped : ∃ c : Conf (Thr 2) Act Act.Ret (St 2),
    .reap initproc childproc 2 7 (some initproc) ∈ c.state.hist ∧ ReapsOk c.state.hist := by
  obtain ⟨c, hr, hφ⟩ := exists_reach (b := false) reapChild
    (fun s => decide (.reap initproc childproc 2 7 (some initproc) ∈ s.hist)) (by decide +kernel)
  exact ⟨c, of_decide_eq_true hφ, (exit_wait_protocol hr).2.1⟩

/-! ## Sleep and wakeup -/

/-- **No lost wakeups.** When the lock of a condition is free and the condition holds, nobody sleeps
on it, and every return from `sleep` finds the condition lock held. -/
theorem no_lost_wakeup (h : Reach (sys lk false) (idle (boot tm : St ncpu)) c) :
    (∀ i p, c.state.holder (.cond (lk i)) = none → c.state.cond i = true →
      ¬ Dozes c.state.state c.state.chan p (.cond i)) ∧
    AwakesOk c.state.hist := by
  obtain ⟨G, hI⟩ := reach_inv h
  refine ⟨?_, hI.awakes⟩
  intro i p hfree hi hd
  obtain ⟨t, ht⟩ := hI.conds.main hi (.inl hd)
  exact hI.holder_of_held (hI.conds.due_held ht) (by simp) hfree

/-- Init sleeps on a condition, an interrupt on CPU 1 makes it true, and init runs again. -/
def signalInit : Schedule :=
  startInit ++ steps (.proc initproc) (.await 0 false 2) 8 ++ List.replicate 2 (.sched 0, none) ++
    steps (.sched 1) (.intr 0) 260 ++ steps (.sched 1) .schedule 3 ++
    List.replicate 6 (.proc initproc, none)

theorem no_lost_wakeup_signalled : ∃ c : Conf (Thr 2) Act Act.Ret (St 2),
    .awake initproc (.cond 0) true ∈ c.state.hist ∧ AwakesOk c.state.hist := by
  obtain ⟨c, hr, hφ⟩ := exists_reach (b := false) signalInit
    (fun s => decide (.awake initproc (.cond 0) true ∈ s.hist)) (by decide +kernel)
  exact ⟨c, of_decide_eq_true hφ, (no_lost_wakeup hr).2⟩

/-! ## Scheduling -/

/-- **Scheduling is exclusive.** A running process is `c->proc` of exactly one CPU, and no process of
two; a process that is runnable, asleep or a zombie and whose lock is free is executed by no CPU; and
no slot was freed or given to a new process while a CPU was executing on it. -/
theorem scheduling_exclusive (h : Reach (sys lk false) (idle (boot tm : St ncpu)) c) :
    (∀ p, c.state.state p = .running → ∃! k, c.state.cpuProc k = some p) ∧
    (∀ k k' p, c.state.cpuProc k = some p → c.state.cpuProc k' = some p → k = k') ∧
    (∀ p, c.state.holder (.proc p) = none →
      c.state.state p = .runnable ∨ c.state.state p = .sleeping ∨ c.state.state p = .zombie →
      ∀ k, c.state.on k ≠ .proc p ∧ c.state.cpuProc k ≠ some p) ∧
    FreesOk c.state.hist := by
  obtain ⟨G, hI⟩ := reach_inv h
  refine ⟨?_, fun _ _ _ => hI.cpus.one, ?_, hI.frees⟩
  · intro p hp
    obtain ⟨k, hk⟩ := hI.cpus.running hp
    exact ⟨k, hk, fun k' hk' => hI.cpus.one hk' hk⟩
  · intro p hfree hst k
    have hno : c.state.cpuProc k ≠ some p := by
      intro hk
      rcases hI.cpus.runs hk with hr | hr
      · rcases hst with hs | hs | hs <;> rw [hs] at hr <;> cases hr
      · rw [hfree] at hr
        cases hr
    exact ⟨fun hon => hno (hI.cpus.proc hon), hno⟩

theorem scheduling_exclusive_init : ∃ c : Conf (Thr 2) Act Act.Ret (St 2),
    c.state.state initproc = .running ∧ ∃! k, c.state.cpuProc k = some initproc := by
  obtain ⟨c, hr, hφ⟩ := exists_reach (b := false) startInit
    (fun s => decide (s.state initproc = .running)) (by decide)
  have hst := of_decide_eq_true hφ
  exact ⟨c, hst, (scheduling_exclusive hr).1 initproc hst⟩

/-! ## Kill -/

/-- **`kkill` with a pid other than 0.** In a run in which no process kills the process 0, every
`kkill` that returned 0 found a slot in use, the `killed` flag of an unused slot is clear, and a flag
is set, and a process terminated for it, only if `kkill` found the process or it faulted since it was
created. -/
theorem kill_targets_live (h : Reach (sys lk true) (idle (boot tm : St ncpu)) c) :
    KillsOk c.state.hist ∧
    (∀ q, c.state.state q = .unused → c.state.killed q = false) ∧
    (∀ q, c.state.killed q = true → blamed q c.state.hist = true) := by
  obtain ⟨G, hI⟩ := reach_inv h
  exact ⟨hI.kills.ok rfl, fun _ hq => (hI.kills.unused rfl hq).1, fun _ => hI.kills.blame rfl⟩

/-- Init forks and kills its child, which exits at its next system call. -/
def killChild : Schedule :=
  startInit ++ forkChild ++ steps (.proc initproc) (.trap (.kill 2) 0) 19 ++
    steps (.proc childproc) (.trap (.wait true 0) 0) 5

theorem kill_targets_live_child : ∃ c : Conf (Thr 2) Act Act.Ret (St 2),
    .killedExit childproc ∈ c.state.hist ∧ KillsOk c.state.hist := by
  obtain ⟨c, hr, hφ⟩ := exists_reach (b := true) killChild
    (fun s => decide (.killedExit childproc ∈ s.hist)) (by decide)
  exact ⟨c, of_decide_eq_true hφ, (kill_targets_live hr).1⟩

/-- Init kills the process 0, which marks the first unused slot. It then forks, and the child is
terminated at its first system call. -/
def killZero : Schedule :=
  startInit ++ steps (.proc initproc) (.trap (.kill 0) 0) 19 ++ forkChild ++
    steps (.proc childproc) (.trap (.wait true 0) 0) 5

theorem kill_zero_kills_child : ∃ c : Conf (Thr 2) Act Act.Ret (St 2),
    Reach (sys id false) (idle (boot noTicks)) c ∧ .kill 0 childproc .unused ∈ c.state.hist ∧
      ∃ l, c.state.hist = .killedExit childproc :: l ∧ blamed childproc l = false := by
  obtain ⟨c, hr, hφ⟩ := exists_reach (b := false) killZero
    (fun s => decide (.kill 0 childproc .unused ∈ s.hist ∧
      s.hist.head? = some (.killedExit childproc) ∧ blamed childproc s.hist.tail = false))
    (by decide)
  obtain ⟨h1, h2, h3⟩ := of_decide_eq_true hφ
  exact ⟨c, hr, h1, c.state.hist.tail, List.eq_cons_of_mem_head? h2, h3⟩

/-! ## References to inodes -/

/-- **References to inodes are counted.** The `ref` of an inode is the number of references that the
processes hold, and none of them is the directory of an exited process; who holds its sleep-lock holds
a reference, so that at `ref == 1` the `acquiresleep` of `iput` finds no other process's lock. -/
theorem inode_refs_counted (h : Reach (sys lk false) (idle (boot tm : St ncpu)) c) :
    (∀ k, c.state.ref k = ∑ p, (refs c.state.own c.state.cwd p k : ℤ)) ∧
    (∀ p, c.state.state p = .unused ∨ c.state.state p = .zombie → c.state.cwd p = none) ∧
    (∀ k p, c.state.slocked k = some p → 1 ≤ refs c.state.own c.state.cwd p k) ∧
    ∀ k p q, c.state.ref k = 1 → 1 ≤ refs c.state.own c.state.cwd p k →
      c.state.slocked k = some q → q = p := by
  obtain ⟨G, hI⟩ := reach_inv h
  refine ⟨hI.refs.sum, fun _ => hI.cwds.none, fun _ _ => hI.refs.locked, ?_⟩
  intro k p q hone hp hq
  exact (hI.refs.only hone hp (hI.refs.locked hq)).1

/-- Init and its child share the root directory. -/
theorem inode_refs_counted_forked : ∃ c : Conf (Thr 2) Act Act.Ret (St 2), c.state.ref 0 = 2 ∧
    c.state.ref 0 = ∑ p, (refs c.state.own c.state.cwd p 0 : ℤ) := by
  obtain ⟨c, hr, hφ⟩ := exists_reach (b := false) (startInit ++ forkChild)
    (fun s => decide (s.ref 0 = 2)) (by decide +kernel)
  exact ⟨c, of_decide_eq_true hφ, (inode_refs_counted hr).1 0⟩

/-! ## Spin-locks -/

/-- CPU `a` spins on a lock that CPU `b` holds. -/
def SpinsFor (s : St ncpu) (a b : Fin ncpu) : Prop := ∃ l, s.spin a = some l ∧ s.holder l = some b

/-- The rank of the lock that a CPU spins on. -/
def spinRank (s : St ncpu) (a : Fin ncpu) : ℕ := ((s.spin a).map Lk.rank).getD 0

/-- A CPU that is waited for, and spins itself on a lock that is held, spins on a lock of a higher
rank. -/
theorem Inv.spinRank_lt {s : St ncpu} {G : Thr ncpu → Gh} (h : Inv lk nz s G) {a b d : Fin ncpu}
    (hab : SpinsFor s a b) (hbd : SpinsFor s b d) : spinRank s a < spinRank s b := by
  obtain ⟨l, hla, hlb⟩ := hab
  obtain ⟨m, hmb, hmd⟩ := hbd
  have hsp : (G (s.on b)).spins = some m := (h.locks.spinning b).symm.trans hmb
  have hheld : (G (s.on b)).held l := h.locks.holds.1 hlb
  have hord := h.refs.order hsp
  rcases hord l hheld with hlt | ⟨-, k, hm, hlast⟩
  · simpa [spinRank, hla, hmb] using hlt
  · -- `b` holds the only reference to the inode, so `d` is `b`, which would spin on its own lock
    exfalso
    subst hm
    have hheld' : (G (s.on d)).held (.slk k) := h.locks.holds.1 hmd
    obtain ⟨p, hp⟩ : ∃ p, s.on b = .proc p := by
      cases hon : s.on b with
      | proc p => exact ⟨p, rfl⟩
      | sched c' =>
        rw [hon, h.refs.last_sched] at hlast
        cases hlast
    obtain ⟨q, hq⟩ : ∃ q, s.on d = .proc q := by
      cases hon : s.on d with
      | proc q => exact ⟨q, rfl⟩
      | sched c' =>
        rw [hon, h.refs.sched] at hheld'
        cases hheld'
    rw [hp] at hlast hord
    rw [hq] at hheld'
    obtain ⟨hone, -, hrefs⟩ := h.refs.last_ok hlast
    have heq := (h.refs.only hone hrefs (h.refs.slk hheld')).1
    subst heq
    rcases hord _ hheld' with hlt | ⟨he, -⟩
    · exact lt_irrefl _ hlt
    · cases he

/-- **No cycle of spinning CPUs.** -/
theorem spin_waits_acyclic (h : Reach (sys lk false) (idle (boot tm : St ncpu)) c) (a : Fin ncpu) :
    ¬ Relation.TransGen (SpinsFor c.state) a a := by
  obtain ⟨G, hI⟩ := reach_inv h
  have climb : ∀ {a b d : Fin ncpu}, Relation.TransGen (SpinsFor c.state) a b →
      SpinsFor c.state b d → spinRank c.state a < spinRank c.state b := by
    intro a b d hab
    induction hab generalizing d with
    | single hab => exact fun hbd => hI.spinRank_lt hab hbd
    | tail _ hbc ih => exact fun hcd => (ih hbc).trans (hI.spinRank_lt hbc hcd)
  intro hcycle
  obtain ⟨b, hab, -⟩ := Relation.TransGen.head'_iff.1 hcycle
  exact lt_irrefl _ (climb hcycle hab)

/-- CPU 1 spins on a lock that CPU 0 holds. -/
theorem spin_waits_acyclic_two : ∃ c : Conf (Thr 2) Act Act.Ret (St 2),
    SpinsFor c.state 1 0 ∧ ¬ Relation.TransGen (SpinsFor c.state) 1 1 := by
  obtain ⟨c, hr, hφ⟩ := exists_reach (b := false)
    (steps (.sched 0) .schedule 2 ++ steps (.sched 1) .schedule 1)
    (fun s => decide (s.spin 1 = some (.proc initproc) ∧ s.holder (.proc initproc) = some 0))
    (by decide)
  exact ⟨c, ⟨_, of_decide_eq_true hφ⟩, spin_waits_acyclic hr 1⟩

/-! ## Interrupts -/

end Xv6.Proc
