import Xv6.Holdings
import Xv6.Proc.Sleep

/-!
# References to inodes and the order of locks

The part of the invariant that counts references to inodes. A thread that acquires a lock holds only
locks of a lower rank, with one exception: `iput` takes the lock inside a sleep-lock while it holds
`itable.lock`. It does so when it has seen that its process holds the only reference to the inode, so
that no other thread holds that lock.
-/

namespace Xv6.Proc

open Function Finset

variable {ncpu : ℕ} {ref : InodeId → ℤ} {own : ProcId → InodeId → ℕ} {cwd : ProcId → Option InodeId}
  {slocked : InodeId → Option ProcId} {held : Thr ncpu → Lk → Bool}
  {last : Thr ncpu → Option InodeId} {spins : Thr ncpu → Option Lk} {kind : Thr ncpu → Kind}
  {gown : Thr ncpu → InodeId → ℕ} {gcwd : Thr ncpu → Option InodeId} {gsl : Thr ncpu → InodeId → Bool}
  {state : ProcId → PState} {know : Thr ncpu → ProcId → Option PState}
  {bare : Thr ncpu → Option ProcId}
  {t : Thr ncpu} {p q : ProcId} {k : InodeId} {l : Lk} {st : PState}

/-- The place of a lock in the order. -/
def Lk.rank : Lk → ℕ
  | .wait => 0
  | .slk _ => 0
  | .cond _ => 0
  | .proc _ => 1
  | .pid => 2
  | .itable => 2

/-- A thread that holds the locks `h` may acquire `l`. -/
def Ordered (h : Lk → Bool) (last : Option InodeId) (l : Lk) : Prop :=
  ∀ m, h m = true → m.rank < l.rank ∨ (m = .itable ∧ ∃ k, l = .slk k ∧ last = some k)

/-- References to inodes are counted, and locks are acquired in order. -/
structure Refs (ref : InodeId → ℤ) (own : ProcId → InodeId → ℕ) (cwd : ProcId → Option InodeId)
    (slocked : InodeId → Option ProcId) (held : Thr ncpu → Lk → Bool)
    (last : Thr ncpu → Option InodeId) (spins : Thr ncpu → Option Lk) (kind : Thr ncpu → Kind)
    (gown : Thr ncpu → InodeId → ℕ) (gcwd : Thr ncpu → Option InodeId)
    (gsl : Thr ncpu → InodeId → Bool) : Prop where
  sum : ∀ k, ref k = ∑ p, (refs own cwd p k : ℤ)
  locked : ∀ {k p}, slocked k = some p → 1 ≤ refs own cwd p k
  slk : ∀ {p k}, held (.proc p) (.slk k) → 1 ≤ refs own cwd p k
  sched : ∀ {c k}, held (.sched c) (.slk k) = false
  last_ok : ∀ {p k}, last (.proc p) = some k →
    ref k = 1 ∧ held (.proc p) .itable ∧ 1 ≤ refs own cwd p k
  last_sched : ∀ {c}, last (.sched c) = none
  order : ∀ {t l}, spins t = some l → Ordered (held t) (last t) l
  mine : ∀ {p}, kind (.proc p) = .busy → own p = gown (.proc p) ∧ cwd p = gcwd (.proc p) ∧
    ∀ k, slocked k = some p ↔ gsl (.proc p) k = true

variable (h : Refs ref own cwd slocked held last spins kind gown gcwd gsl)

include h

/-- A process that holds the only reference. -/
theorem Refs.only (hr : ref k = 1) (hp : 1 ≤ refs own cwd p k) (hq : 1 ≤ refs own cwd q k) :
    q = p ∧ refs own cwd p k = 1 := by
  have hsum := h.sum k
  rw [hr, ← add_sum_erase univ _ (mem_univ p)] at hsum
  have hnn : ∀ x ∈ univ.erase p, (0 : ℤ) ≤ (refs own cwd x k : ℤ) := fun x _ => by omega
  have hrest := sum_nonneg hnn
  constructor
  · by_contra hne
    have hmem : q ∈ univ.erase p := mem_erase.2 ⟨hne, mem_univ q⟩
    have hle := single_le_sum hnn hmem
    omega
  · omega

theorem Refs.setSpins {x : Option Lk} (hx : ∀ l, x = some l → Ordered (held t) (last t) l) :
    Refs ref own cwd slocked held last (update spins t x) kind gown gcwd gsl := by
  refine ⟨h.sum, h.locked, h.slk, h.sched, h.last_ok, h.last_sched, ?_, h.mine⟩
  intro u l hu
  by_cases hut : u = t
  · subst hut
    rw [update_self] at hu
    exact hx l hu
  · rw [update_of_ne hut] at hu
    exact h.order hu

theorem Refs.setHeld {f : Lk → Bool} (hs : spins t = none)
    (hf : ∀ k, f (.slk k) → ∃ p, t = .proc p ∧ 1 ≤ refs own cwd p k)
    (hi : ∀ p, t = .proc p → last t ≠ none → f .itable) :
    Refs ref own cwd slocked (update held t f) last spins kind gown gcwd gsl := by
  refine { h with slk := ?_, sched := ?_, last_ok := ?_, order := ?_ }
  · intro p k hp
    by_cases ht : Thr.proc p = t
    · subst ht
      rw [update_self] at hp
      obtain ⟨p', hp', hr⟩ := hf k hp
      cases hp'
      exact hr
    · rw [update_of_ne ht] at hp
      exact h.slk hp
  · intro c k
    by_cases ht : Thr.sched c = t
    · subst ht
      rw [update_self]
      cases hfk : f (.slk k) with
      | false => rfl
      | true =>
        obtain ⟨p', hp', -⟩ := hf k hfk
        cases hp'
    · rw [update_of_ne ht]
      exact h.sched
  · intro p k hp
    obtain ⟨h1, h2, h3⟩ := h.last_ok hp
    refine ⟨h1, ?_, h3⟩
    by_cases ht : Thr.proc p = t
    · subst ht
      rw [update_self]
      exact hi p rfl (by rw [hp]; simp)
    · rwa [update_of_ne ht]
  · intro u l hu
    have hut : u ≠ t := by
      intro he
      rw [he, hs] at hu
      cases hu
    rw [update_of_ne hut]
    exact h.order hu

theorem Refs.setLast (hs : spins (.proc p) = none) {x : Option InodeId}
    (hx : ∀ k, x = some k → ref k = 1 ∧ held (.proc p) .itable ∧ 1 ≤ refs own cwd p k) :
    Refs ref own cwd slocked held (update last (.proc p) x) spins kind gown gcwd gsl := by
  refine { h with last_ok := ?_, last_sched := ?_, order := ?_ }
  · intro q k hq
    by_cases hqp : q = p
    · subst hqp
      rw [update_self] at hq
      exact hx k hq
    · rw [update_proc_ne hqp] at hq
      exact h.last_ok hq
  · intro c
    rw [update_of_ne (by simp)]
    exact h.last_sched
  · intro u l hu
    have hut : u ≠ .proc p := by
      intro he
      rw [he, hs] at hu
      cases hu
    rw [update_of_ne hut]
    exact h.order hu

/-- The references of process `p` change, and nobody counts on the old number. -/
theorem Refs.setRefs {own' : ProcId → InodeId → ℕ} {cwd' : ProcId → Option InodeId} {x : ℤ}
    (hx : x = ref k + refs own' cwd' p k - refs own cwd p k)
    (hold : ∀ p' k', p' ≠ p ∨ k' ≠ k → refs own' cwd' p' k' = refs own cwd p' k')
    (hlock : slocked k = some p → 1 ≤ refs own' cwd' p k)
    (hslk : held (.proc p) (.slk k) → 1 ≤ refs own' cwd' p k)
    (hlast : ∀ q, last (.proc q) ≠ some k) {go : Thr ncpu → InodeId → ℕ}
    {gc : Thr ncpu → Option InodeId}
    (hmine : ∀ q, kind (.proc q) = .busy → own' q = go (.proc q) ∧ cwd' q = gc (.proc q)) :
    Refs (update ref k x) own' cwd' slocked held last spins kind go gc gsl := by
  have keep : ∀ {p' k'}, (p' = p → k' = k → 1 ≤ refs own' cwd' p k) → 1 ≤ refs own cwd p' k' →
      1 ≤ refs own' cwd' p' k' := by
    intro p' k' hp hr
    by_cases hpk : p' = p ∧ k' = k
    · rw [hpk.1, hpk.2]
      exact hp hpk.1 hpk.2
    · rw [hold p' k' (by tauto)]
      exact hr
  refine ⟨?_, ?_, ?_, h.sched, ?_, h.last_sched, h.order, ?_⟩
  · intro k'
    by_cases hk : k' = k
    · subst hk
      have hfun : (fun p' => (refs own' cwd' p' k' : ℤ)) =
          update (fun p' => (refs own cwd p' k' : ℤ)) p (refs own' cwd' p k') := by
        funext p'
        by_cases hp : p' = p
        · subst hp
          rw [update_self]
        · rw [update_of_ne hp, hold p' k' (.inl hp)]
      have hs := sum_update_add (mem_univ p) (fun p' => (refs own cwd p' k' : ℤ))
        (refs own' cwd' p k' : ℤ)
      rw [update_self, hfun, hx, h.sum k']
      linarith
    · rw [update_of_ne hk, h.sum k']
      exact sum_congr rfl fun p' _ => by rw [hold p' k' (.inr hk)]
  · intro k' p' hl
    exact keep (fun hp hk => hlock (hp ▸ hk ▸ hl)) (h.locked hl)
  · intro p' k' hl
    exact keep (fun hp hk => hslk (hp ▸ hk ▸ hl)) (h.slk hl)
  · intro p' k' hl
    obtain ⟨h1, h2, h3⟩ := h.last_ok hl
    have hk : k' ≠ k := fun he => hlast p' (he ▸ hl)
    rw [update_of_ne hk, hold p' k' (.inr hk)]
    exact ⟨h1, h2, h3⟩
  · intro q hq
    exact ⟨(hmine q hq).1, (hmine q hq).2, (h.mine hq).2.2⟩

theorem Refs.setLocked {b : Bool} (hb : b → slocked k = none ∧ 1 ≤ refs own cwd p k)
    (hb' : b = false → slocked k = some p) :
    Refs ref own cwd (update slocked k (if b then some p else none)) held last spins kind
      gown gcwd (update gsl (.proc p) (update (gsl (.proc p)) k b)) := by
  refine ⟨h.sum, ?_, h.slk, h.sched, h.last_ok, h.last_sched, h.order, ?_⟩
  · intro k' p' hl
    by_cases hk : k' = k
    · subst hk
      rw [update_self] at hl
      cases b with
      | false => cases hl
      | true =>
        cases hl
        exact (hb rfl).2
    · rw [update_of_ne hk] at hl
      exact h.locked hl
  · intro q hq
    obtain ⟨h1, h2, h3⟩ := h.mine hq
    refine ⟨h1, h2, ?_⟩
    intro k'
    by_cases hk : k' = k
    · subst hk
      rw [update_self]
      by_cases hqp : q = p
      · subst hqp
        rw [update_self, update_self]
        cases b <;> simp
      · rw [update_proc_ne hqp, ← h3 k']
        cases b with
        | false =>
          rw [hb' rfl]
          simp [Ne.symm hqp]
        | true =>
          rw [(hb rfl).1]
          simp [Ne.symm hqp]
    · rw [update_of_ne hk, h3 k']
      by_cases hqp : q = p
      · subst hqp
        rw [update_self, update_of_ne hk]
      · rw [update_proc_ne hqp]

theorem Refs.setKind {x : Kind} {o : InodeId → ℕ} {w : Option InodeId} {s : InodeId → Bool}
    (hx : ∀ p, t = .proc p → x = .busy → own p = o ∧ cwd p = w ∧ ∀ k, slocked k = some p ↔ s k) :
    Refs ref own cwd slocked held last spins (update kind t x) (update gown t o)
      (update gcwd t w) (update gsl t s) := by
  refine ⟨h.sum, h.locked, h.slk, h.sched, h.last_ok, h.last_sched, h.order, ?_⟩
  intro p hp
  rcases update_cases hp with ⟨ht, hp⟩ | ⟨ht, hp⟩
  · rw [ht, update_self, update_self, update_self]
    exact hx p ht.symm hp
  · rw [update_of_ne ht, update_of_ne ht, update_of_ne ht]
    exact h.mine hp

omit h

/-! ## Current directories -/

/-- Unused slots and zombies have no current directory. -/
structure Cwds (state : ProcId → PState) (cwd : ProcId → Option InodeId)
    (know : Thr ncpu → ProcId → Option PState) (bare : Thr ncpu → Option ProcId) : Prop where
  none : ∀ {q}, state q = .unused ∨ state q = .zombie → cwd q = none
  bare_eq : ∀ {p q}, bare (.proc p) = some q → cwd q = Option.none ∧ know (.proc p) q = some .used

theorem Cwds.setState (h : Cwds state cwd know bare)
    (hst : st = .unused ∨ st = .zombie → cwd q = Option.none) :
    Cwds (update state q st) cwd know bare := by
  refine ⟨?_, h.bare_eq⟩
  intro r hr
  by_cases hrq : r = q
  · subst hrq
    rw [update_self] at hr
    exact hst hr
  · rw [update_of_ne hrq] at hr
    exact h.none hr

theorem Cwds.setKnow (h : Cwds state cwd know bare) {x : Option PState}
    (hb : bare t = some q → x = some .used) :
    Cwds state cwd (update know t (update (know t) q x)) bare := by
  refine ⟨h.none, ?_⟩
  intro p r hr
  obtain ⟨h1, h2⟩ := h.bare_eq hr
  refine ⟨h1, ?_⟩
  by_cases ht : Thr.proc p = t
  · subst ht
    rw [update_self]
    by_cases hrq : r = q
    · subst hrq
      rw [update_self]
      exact hb hr
    · rwa [update_of_ne hrq]
  · rwa [update_of_ne ht]

theorem Cwds.setBare (h : Cwds state cwd know bare) {x : Option ProcId}
    (hx : ∀ p q, t = .proc p → x = some q → cwd q = Option.none ∧ know (.proc p) q = some .used) :
    Cwds state cwd know (update bare t x) := by
  refine ⟨h.none, ?_⟩
  intro p r hr
  rcases update_cases hr with ⟨ht, hr⟩ | ⟨-, hr⟩
  · exact hx p r ht.symm hr
  · exact h.bare_eq hr

/-- Changing the current directory of a process that is neither unused nor a zombie, and of which no
thread knows that it has none. -/
theorem Cwds.setCwd (h : Cwds state cwd know bare) {x : Option InodeId}
    (hst : x ≠ Option.none → state q ≠ .unused ∧ state q ≠ .zombie)
    (hb : x ≠ Option.none → ∀ p, bare (.proc p) ≠ some q) :
    Cwds state (update cwd q x) know bare := by
  have same : ∀ {r}, cwd r = Option.none → (r = q → x = Option.none) →
      update cwd q x r = Option.none := by
    intro r hr hx
    by_cases hrq : r = q
    · rw [hrq, update_self]
      exact hx hrq
    · rwa [update_of_ne hrq]
  refine ⟨fun {r} hr => same (h.none hr) fun he => ?_, fun {p r} hr => ?_⟩
  · by_contra hx
    obtain ⟨h1, h2⟩ := hst hx
    rw [he] at hr
    exact hr.elim h1 h2
  · obtain ⟨h1, h2⟩ := h.bare_eq hr
    refine ⟨same h1 fun he => ?_, h2⟩
    by_contra hx
    exact hb hx p (he ▸ hr)

end Xv6.Proc
