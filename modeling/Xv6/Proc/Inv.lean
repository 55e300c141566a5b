import Xv6.Proc.Refs

/-!
# The invariant of the process table

`Inv` is the conjunction of the parts, each applied to its components of the state and of the ghost
values. For each action of locking and scheduling there is a rule that moves its thread to the next
ghost value.
-/

namespace Xv6.Proc

open Function (update update_self update_of_ne update_idem)
open Xv6.Threads

variable {ncpu : ℕ}

/-! ## Slots that are not in use -/

/-- Which threads are parked. -/
structure Kinds (on : Fin ncpu → Thr ncpu) (state : ProcId → PState) (ctx : ProcId → Ctx)
    (kind : Thr ncpu → Kind) : Prop where
  ctx_eq : ∀ {p}, kind (.proc p) = .parked ↔ ctx p ≠ .kernel
  new : ∀ {q}, state q = .unused ∨ state q = .used → kind (.proc q) = .parked
  zombie : ∀ {q}, state q = .zombie → kind (.proc q) = .parked ∨ ∃ c, on c = .proc q

/-- A parked thread knows nothing. -/
def Calm (G : Thr ncpu → Gh) : Prop :=
  ∀ t, (G t).kind = .parked → ∃ p, t = .proc p ∧ G t = Gh.parked p

section Kinds

variable {on : Fin ncpu → Thr ncpu} {state : ProcId → PState} {ctx : ProcId → Ctx}
  {kind : Thr ncpu → Kind} {G : Thr ncpu → Gh} {t : Thr ncpu} {p q : ProcId} {c : Fin ncpu}
  {st : PState} {g : Gh}

theorem Calm.set (h : Calm G) (hp : g.kind = .parked → ∃ p, t = .proc p ∧ g = Gh.parked p) :
    Calm (update G t g) := by
  intro u hk
  by_cases hut : u = t
  · rw [hut, update_self] at hk ⊢
    exact hp hk
  · rw [update_of_ne hut] at hk ⊢
    exact h u hk

theorem Calm.busy (h : Calm G) (hb : g.kind = .busy) : Calm (update G t g) := by
  apply h.set
  intro hk
  rw [hb] at hk
  cases hk

theorem Calm.eq_parked (h : Calm G) (hk : (G (.proc q)).kind = .parked) :
    G (.proc q) = Gh.parked q := by
  obtain ⟨p, hp, he⟩ := h _ hk
  cases hp
  exact he

theorem Kinds.setState (h : Kinds on state ctx kind)
    (hn : st = .unused ∨ st = .used → kind (.proc q) = .parked)
    (hz : st = .zombie → kind (.proc q) = .parked ∨ ∃ c, on c = .proc q) :
    Kinds on (update state q st) ctx kind := by
  refine ⟨h.ctx_eq, ?_, ?_⟩
  · intro r hr
    by_cases hrq : r = q
    · subst hrq
      rw [update_self] at hr
      exact hn hr
    · rw [update_of_ne hrq] at hr
      exact h.new hr
  · intro r hr
    by_cases hrq : r = q
    · subst hrq
      rw [update_self] at hr
      exact hz hr
    · rw [update_of_ne hrq] at hr
      exact h.zombie hr

theorem Kinds.setAlive (h : Kinds on state ctx kind) (hst : st.Alive) :
    Kinds on (update state q st) ctx kind := by
  apply h.setState <;> intro hs <;> rcases hst with rfl | rfl | rfl <;> simp at hs

theorem Kinds.setOn (h : Kinds on state ctx kind) {x : Thr ncpu}
    (hx : ∀ p, on c = .proc p → state p = .zombie → kind (.proc p) = .parked) :
    Kinds (update on c x) state ctx kind := by
  refine ⟨h.ctx_eq, h.new, ?_⟩
  intro q hq
  by_cases hk : kind (.proc q) = .parked
  · exact .inl hk
  · refine .inr (on_of_update ((h.zombie hq).resolve_left hk) ?_)
    intro hc
    exact hk (hx q hc hq)

theorem Kinds.setCtx (h : Kinds on state ctx kind) {x : Ctx}
    (hx : kind (.proc q) = .parked ↔ x ≠ .kernel) :
    Kinds on state (update ctx q x) kind := by
  refine ⟨?_, h.new, h.zombie⟩
  intro p
  by_cases hpq : p = q
  · subst hpq
    rw [update_self]
    exact hx
  · rw [update_of_ne hpq]
    exact h.ctx_eq

/-- The thread of `p` starts its first call, or ends its last one. -/
theorem Kinds.setBoth (h : Kinds on state ctx kind) {x : Kind} {y : Ctx}
    (hxy : x = .parked ↔ y ≠ .kernel)
    (hn : x ≠ .parked → state p ≠ .unused ∧ state p ≠ .used ∧ state p ≠ .zombie) :
    Kinds on state (update ctx p y) (update kind (.proc p) x) := by
  have keep : ∀ {q}, state q = .unused ∨ state q = .used ∨ state q = .zombie →
      kind (.proc q) = .parked → update kind (.proc p) x (.proc q) = .parked := by
    intro q hq hk
    by_cases hqp : q = p
    · subst hqp
      rw [update_self]
      by_contra hx
      obtain ⟨h1, h2, h3⟩ := hn hx
      rcases hq with hq | hq | hq
      · exact h1 hq
      · exact h2 hq
      · exact h3 hq
    · rwa [update_proc_ne hqp]
  refine ⟨?_, ?_, ?_⟩
  · intro q
    by_cases hqp : q = p
    · subst hqp
      rw [update_self, update_self]
      exact hxy
    · rw [update_proc_ne hqp, update_of_ne hqp]
      exact h.ctx_eq
  · intro q hq
    exact keep (hq.imp_right .inl) (h.new hq)
  · intro q hq
    exact (h.zombie hq).imp_left (keep (.inr (.inr hq)))

end Kinds

/-! ## The invariant -/

/-- The invariant: the ghost values of the threads fit the state. -/
structure Inv (lk : ℕ → ℕ) (nz : Bool) (s : St ncpu) (G : Thr ncpu → Gh) : Prop where
  locks : Locks s.on s.holder s.spin (fun t => (G t).held) (fun t => (G t).spins)
    (fun t => (G t).pick)
  cpus : Cpus s.on s.cpuProc s.holder s.state (fun t => (G t).pick) (fun t => (G t).mine)
  know : Know s.state (fun t => (G t).held) (fun t => (G t).know)
  family : Family s.state s.parent (fun t => (G t).held) (fun t => (G t).know)
    (fun t => (G t).child) (fun t => (G t).kid) (fun t => (G t).par) (fun t => (G t).rep)
  zombies : Zombies s.state s.pid s.xstate s.hist (fun t => (G t).know) (fun t => (G t).zinfo)
  kills : Kills nz s.state s.killed s.pid s.hist
  marks : Marks s.killed (fun t => (G t).marked)
  frees : FreesOk s.hist
  awakes : AwakesOk s.hist
  waits : Waits s.on s.state s.chan s.parent (fun t => (G t).held) (fun t => (G t).woken)
    (fun t => (G t).noz) (fun t => (G t).scan) (fun t => (G t).due)
  conds : Conds lk s.on s.state s.chan s.cond (fun t => (G t).held) (fun t => (G t).commit)
    (fun t => (G t).due)
  refs : Refs s.ref s.own s.cwd s.slocked (fun t => (G t).held) (fun t => (G t).last)
    (fun t => (G t).spins) (fun t => (G t).kind) (fun t => (G t).own) (fun t => (G t).cwd)
    (fun t => (G t).sl)
  cwds : Cwds s.state s.cwd (fun t => (G t).know) (fun t => (G t).bare)
  kinds : Kinds s.on s.state s.ctx (fun t => (G t).kind)
  calm : Calm G

variable {lk : ℕ → ℕ} {nz : Bool} {α : Type} {t : Thr ncpu} {p q : ProcId} {g : Gh}
  {Q : α → Gh → Prop} {s : St ncpu} {G : Thr ncpu → Gh} {c : Fin ncpu} {l : Lk}

/-- `Ok` for the machine. A panic stops it, and nothing is said about which ones there are. -/
abbrev PrOk (lk : ℕ → ℕ) (nz : Bool) {α : Type} (t : Thr ncpu) (p : P α) (g : Gh)
    (Q : α → Gh → Prop) : Prop :=
  Ok (sys lk nz) (Inv lk nz) (fun _ => True) t p g Q

/-- `Ok` for the thread of process `p`. -/
abbrev OwnOk (ncpu : ℕ) (lk : ℕ → ℕ) (nz : Bool) {α : Type} (p : ProcId) (f : P α) (g : Gh)
    (Q : α → Gh → Prop) : Prop :=
  PrOk lk nz (.proc p : Thr ncpu) f g Q

theorem St.on_of_cpuOf (h : s.cpuOf t = some c) : s.on c = t := by
  have := List.find?_some h
  simpa using this

theorem Inv.inj (h : Inv lk nz s G) (hc : s.on c = t) : ∀ c', s.on c' = t → c' = c :=
  fun _ hc' => h.cpus.inj h.locks.sched hc hc'

/-- The rule for an action: the thread is executed by a CPU, and by no other. -/
theorem ok_act {a : Act} {k : a.Ret → P α}
    (h : ∀ s G c, Inv lk nz s G → G t = g → s.on c = t →
      ∀ b s', execOn c t a s = .done b s' →
        ∃ g', Inv lk nz s' (update G t g') ∧ PrOk lk nz t (k b) g' Q) :
    PrOk lk nz t (.act a k) g Q := by
  intro s G hI hg _
  refine ⟨fun _ _ => trivial, ?_⟩
  intro b s' he
  change exec a t s = .done b s' at he
  unfold exec at he
  split at he
  · cases he
  · rename_i c hc
    exact h s G c hI hg (St.on_of_cpuOf hc) b s' he

/-- What a thread knows may change before an action. -/
theorem ok_shift {a : Act} {k : a.Ret → P α} {x : Gh}
    (hs : ∀ s G c, Inv lk nz s G → G t = g → s.on c = t → Inv lk nz s (update G t x))
    (h : PrOk lk nz t (.act a k) x Q) : PrOk lk nz t (.act a k) g Q := by
  apply ok_act
  intro s G c hI hg hc b s' he
  obtain ⟨-, hd⟩ := h s _ (hs s G c hI hg hc) (update_self ..) trivial
  have hex : (sys lk nz).exec a t s = .done b s' := by
    change exec a t s = .done b s'
    unfold exec
    have hsome : (s.cpuOf t).isSome := by
      rw [St.cpuOf, List.find?_isSome]
      exact ⟨c, List.mem_finRange c, by simpa using hc⟩
    obtain ⟨c', hc'⟩ := Option.isSome_iff_exists.1 hsome
    rw [hc', hI.inj hc c' (St.on_of_cpuOf hc')]
    exact he
  obtain ⟨g'', hI', hk⟩ := hd b s' hex
  rw [update_idem] at hI'
  exact ⟨g'', hI', hk⟩

theorem ok_congr {f : P α} {x : Gh} (h : g = x) (hk : PrOk lk nz t f x Q) : PrOk lk nz t f g Q :=
  h ▸ hk

theorem ok_panic {m : String} : PrOk lk nz t (panic m : P α) g Q := by
  apply ok_act
  intro s G c hI hg hc b
  exact b.elim

theorem ok_stop : PrOk lk nz t (stop : P α) g Q := by
  apply ok_act
  intro s G c hI hg hc b
  exact b.elim

end Xv6.Proc
