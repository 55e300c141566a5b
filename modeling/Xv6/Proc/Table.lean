import Xv6.Proc.Cpu

/-!
# Slots of the process table

The parts of the invariant about slots that are created and reaped: `Know` says that such a slot is
in the state that its thread knows, `Family` that parents are alive and that an exiting process
gives its children away, and `Zombies`, `Kills` and `Frees` what the history says about zombies, the
`killed` flags and the reuse of slots.
-/

namespace Xv6.Proc

open Function

variable {ncpu : ℕ} {state : ProcId → PState} {held : Thr ncpu → Lk → Bool}
  {know : Thr ncpu → ProcId → Option PState} {parent : ProcId → Option ProcId}
  {t u : Thr ncpu} {p q r : ProcId} {st : PState} {l : Lk}

/-! ## Slots with one owner -/

/-- What a thread knows about a slot that it creates or reaps. -/
structure Know (state : ProcId → PState) (held : Thr ncpu → Lk → Bool)
    (know : Thr ncpu → ProcId → Option PState) : Prop where
  eq : ∀ {t q st}, know t q = some st → state q = st
  owner : ∀ {t q st}, know t q = some st → ∃ p, t = .proc p ∧ p ≠ q
  dom : ∀ {t q st}, know t q = some st →
    st = .used ∨ ((st = .unused ∨ st = .zombie) ∧ held t (.proc q))
  one : ∀ {t u q}, know t q ≠ none → know u q ≠ none → t = u

theorem Know.none_of (h : Know state held know)
    (hst : state q = .sleeping ∨ state q = .runnable ∨ state q = .running) (t : Thr ncpu) :
    know t q = none := by
  cases hk : know t q with
  | none => rfl
  | some st =>
    have he := h.eq hk
    rcases h.dom hk with h1 | ⟨h1 | h1, -⟩ <;> subst h1 <;> simp [he] at hst

theorem Know.uniq (h : Know state held know) {x y : PState} (hx : know t q = some x)
    (hy : know u q = some y) : t = u :=
  h.one (by rw [hx]; simp) (by rw [hy]; simp)

theorem one_of_some
    (h : ∀ {t u : Thr ncpu} {q x y}, know t q = some x → know u q = some y → t = u)
    (ht : know t q ≠ none) (hu : know u q ≠ none) : t = u := by
  obtain ⟨x, hx⟩ := Option.ne_none_iff_exists'.1 ht
  obtain ⟨y, hy⟩ := Option.ne_none_iff_exists'.1 hu
  exact h hx hy

/-- Changing the state of a slot that is neither created nor reaped. -/
theorem Know.setState (h : Know state held know)
    (hst : state q = .sleeping ∨ state q = .runnable ∨ state q = .running) :
    Know (update state q st) held know := by
  refine { h with eq := ?_ }
  intro t r st' hk
  refine update_of (h.eq hk) fun he => ?_
  rw [he, h.none_of hst t] at hk
  cases hk

theorem Know.take (h : Know state held know) :
    Know state (update held t (update (held t) l true)) know := by
  refine { h with dom := ?_ }
  intro u q st hk
  rcases h.dom hk with h1 | ⟨h1, h2⟩
  · exact .inl h1
  · exact .inr ⟨h1, update_update_of h2 fun _ _ => rfl⟩

theorem Know.release (h : Know state held know)
    (hl : ∀ q, l = .proc q → know t q = none ∨ know t q = some .used) :
    Know state (update held t (update (held t) l false)) know := by
  refine { h with dom := ?_ }
  intro u q st hk
  rcases h.dom hk with h1 | ⟨h1, h2⟩
  · exact .inl h1
  by_cases hd : u = t ∧ Lk.proc q = l
  · obtain ⟨rfl, rfl⟩ := hd
    rcases hl q rfl with h3 | h3
    · rw [h3] at hk
      cases hk
    · rw [h3] at hk
      cases hk
      exact .inl rfl
  · exact .inr ⟨h1, update_update_of h2 fun hu hq => absurd ⟨hu, hq⟩ hd⟩

/-- A thread that holds the lock of another process sees that the slot is unused or a zombie. -/
theorem Know.learn (h : Know state held know) (hst : st = .unused ∨ st = .zombie) (hq : state q = st)
    (hh : held (.proc p) (.proc q)) (hne : p ≠ q)
    (hex : ∀ r, held (.proc r) (.proc q) → r ≠ q → r = p) :
    Know state held (update know (.proc p) (update (know (.proc p)) q (some st))) := by
  -- nobody else knows about this slot
  have others : ∀ {u x}, know u q = some x → u = .proc p := by
    intro u x hk
    obtain ⟨r, rfl, hrq⟩ := h.owner hk
    have he := (h.eq hk).symm.trans hq
    rcases h.dom hk with h1 | ⟨-, h1⟩
    · subst h1
      subst he
      simp at hst
    · rw [hex r h1 hrq]
  constructor
  · intro u r x hk
    obtain ⟨⟨-, rfl⟩, ⟨⟩⟩ | ⟨-, hk⟩ := update_update_cases hk
    · exact hq
    · exact h.eq hk
  · intro u r x hk
    obtain ⟨⟨rfl, rfl⟩, -⟩ | ⟨-, hk⟩ := update_update_cases hk
    · exact ⟨p, rfl, hne⟩
    · exact h.owner hk
  · intro u r x hk
    obtain ⟨⟨rfl, rfl⟩, ⟨⟩⟩ | ⟨-, hk⟩ := update_update_cases hk
    · exact .inr ⟨hst, hh⟩
    · exact h.dom hk
  · refine one_of_some fun {u v r x y} hu hv => ?_
    obtain ⟨⟨rfl, rfl⟩, -⟩ | ⟨-, hu'⟩ := update_update_cases hu
    · obtain ⟨⟨rfl, -⟩, -⟩ | ⟨-, hv⟩ := update_update_cases hv
      · rfl
      · exact (others hv).symm
    · obtain ⟨⟨rfl, rfl⟩, -⟩ | ⟨-, hv⟩ := update_update_cases hv
      · exact others hu'
      · exact h.uniq hu' hv

/-- The owner of a slot changes its state, and forgets it or goes on creating it. -/
theorem Know.change (h : Know state held know) (hk : know t q ≠ none) {x : Option PState}
    (hx : x = none ∨ (x = some .used ∧ st = .used)) :
    Know (update state q st) held
      (update know t (update (know t) q x)) := by
  have old : ∀ {u r y}, update know t (update (know t) q x) u r = some y →
      (u = t ∧ r = q ∧ y = .used ∧ st = .used) ∨ (r ≠ q ∧ know u r = some y) := by
    intro u r y hy
    obtain ⟨⟨rfl, rfl⟩, hy'⟩ | ⟨hne, hy'⟩ := update_update_cases hy
    · rw [hy'] at hx
      obtain ⟨⟨⟩⟩ | ⟨⟨⟩, hst⟩ := hx
      exact .inl ⟨rfl, rfl, rfl, hst⟩
    · refine .inr ⟨fun hr => hne ⟨?_, hr⟩, hy'⟩
      rw [hr] at hy'
      exact h.one (by rw [hy']; simp) hk
  constructor
  · intro u r y hy
    rcases old hy with ⟨rfl, rfl, rfl, rfl⟩ | ⟨hr, hy⟩
    · exact update_self ..
    · rw [update_of_ne hr]
      exact h.eq hy
  · intro u r y hy
    rcases old hy with ⟨rfl, rfl, rfl, -⟩ | ⟨-, hy⟩
    · obtain ⟨z, hz⟩ := Option.ne_none_iff_exists'.1 hk
      exact h.owner hz
    · exact h.owner hy
  · intro u r y hy
    rcases old hy with ⟨-, -, rfl, -⟩ | ⟨-, hy⟩
    · exact .inl rfl
    · exact h.dom hy
  · refine one_of_some fun {u v r y z} hy hz => ?_
    rcases old hy with ⟨rfl, rfl, -, -⟩ | ⟨hr, hy⟩
    · rcases old hz with ⟨rfl, -, -, -⟩ | ⟨hr, -⟩
      · rfl
      · exact absurd rfl hr
    · rcases old hz with ⟨-, rfl, -, -⟩ | ⟨-, hz⟩
      · exact absurd rfl hr
      · exact h.uniq hy hz

theorem Know.forget (h : Know state held know) :
    Know state held (update know t (update (know t) q none)) := by
  have old : ∀ {u r y}, update know t (update (know t) q none) u r = some y →
      know u r = some y := by
    intro u r y hy
    obtain ⟨-, ⟨⟩⟩ | ⟨-, hy⟩ := update_update_cases hy
    exact hy
  exact ⟨fun hy => h.eq (old hy), fun hy => h.owner (old hy), fun hy => h.dom (old hy),
    one_of_some fun hy hz => h.uniq (old hy) (old hz)⟩

/-! ## Parents and children -/

/-- The process has been started and has not exited. -/
def PState.Alive (st : PState) : Prop := st = .sleeping ∨ st = .runnable ∨ st = .running

/-- Parents are alive. -/
structure Family (state : ProcId → PState) (parent : ProcId → Option ProcId)
    (held : Thr ncpu → Lk → Bool) (know : Thr ncpu → ProcId → Option PState)
    (child kid par : Thr ncpu → Option ProcId) (rep : Thr ncpu → ProcId → Bool) : Prop where
  live : ∀ {q p}, parent q = some p → (state p).Alive
  has : ∀ {q}, (state q).Alive ∨ state q = .zombie → q ≠ initproc → parent q ≠ none
  init : (state initproc).Alive
  root : parent initproc = none
  irr : ∀ {q}, parent q ≠ some q
  unused : ∀ {q}, state q = .unused → parent q = none
  born : ∀ {p q}, know (.proc p) q = some .used → parent q = none ∨ parent q = some p
  child_eq : ∀ {p q}, child (.proc p) = some q → parent q = some p ∧ know (.proc p) q = some .used
  kid_eq : ∀ {p q}, kid (.proc p) = some q → parent q = some p ∧ held (.proc p) .wait = true
  par_eq : ∀ {p q}, par (.proc p) = some q → parent p = some q ∧ held (.proc p) .wait = true
  rep_ne : ∀ {p q}, rep (.proc p) q → parent q ≠ some p ∧ held (.proc p) .wait = true

section Family

variable {child kid par : Thr ncpu → Option ProcId} {rep : Thr ncpu → ProcId → Bool}

theorem Know.not_alive (h : Know state held know) (hk : know t q ≠ none) : ¬(state q).Alive :=
  fun ha => hk (h.none_of ha t)

variable (h : Family state parent held know child kid par rep)

include h

theorem Family.no_child (hq : ¬(state q).Alive) : parent r ≠ some q := fun hr => hq (h.live hr)

theorem Family.ne_init (hq : ¬(state q).Alive) : initproc ≠ q := fun he => hq (he ▸ h.init)

/-- Changing the state of a process that is no parent. -/
theorem Family.live_update (hq : ∀ r, parent r ≠ some q) (hr : parent r = some p) :
    (update state q st p).Alive := by
  have hne : p ≠ q := fun he => hq r (he ▸ hr)
  rw [update_of_ne hne]
  exact h.live hr

/-- Changing the state of a process that stays alive. -/
theorem Family.setAlive (hq : (state q).Alive) (hst : st.Alive) :
    Family (update state q st) parent held know child kid par rep := by
  have alive : ∀ {p}, (state p).Alive → (update state q st p).Alive := by
    intro p hp
    by_cases hpq : p = q
    · rwa [hpq, update_self]
    · rwa [update_of_ne hpq]
  refine { h with
    live := fun hr => alive (h.live hr), has := ?_, init := alive h.init, unused := ?_ }
  · intro r hr hne
    by_cases hrq : r = q
    · subst hrq
      exact h.has (.inl hq) hne
    · rw [update_of_ne hrq] at hr
      exact h.has hr hne
  · intro r hr
    obtain ⟨-, rfl⟩ | ⟨-, hr⟩ := update_cases hr
    · simp [PState.Alive] at hst
    · exact h.unused hr

theorem Family.die (hp : (state p).Alive) (hi : p ≠ initproc) (hno : ∀ q, parent q ≠ some p) :
    Family (update state p .zombie) parent held know child kid par rep := by
  refine { h with live := h.live_update hno, has := ?_, init := ?_, unused := ?_ }
  · intro r hr hne
    by_cases hrp : r = p
    · subst hrp
      exact h.has (.inl hp) hne
    · rw [update_of_ne hrp] at hr
      exact h.has hr hne
  · rw [update_of_ne (Ne.symm hi)]
    exact h.init
  · intro r hr
    obtain ⟨-, ⟨⟩⟩ | ⟨-, hr⟩ := update_cases hr
    exact h.unused hr

/-- Changing which locks `t` holds, if it keeps `wait_lock` or has no knowledge under it. -/
theorem Family.setHeld {f : Lk → Bool} (hf : held t .wait → f .wait ∨
      (kid t = none ∧ par t = none ∧ ∀ q, rep t q = false)) :
    Family state parent (update held t f) know child kid par rep := by
  have hold : ∀ {u}, held u .wait →
      (u = t → ¬(kid t = none ∧ par t = none ∧ ∀ q, rep t q = false)) →
      update held t f u .wait := by
    intro u hu hk
    by_cases ht : u = t
    · subst ht
      rw [update_self]
      exact (hf hu).resolve_right (hk rfl)
    · rwa [update_of_ne ht]
  refine { h with kid_eq := ?_, par_eq := ?_, rep_ne := ?_ }
  · intro p q hk
    obtain ⟨h1, h2⟩ := h.kid_eq hk
    refine ⟨h1, hold h2 ?_⟩
    rintro rfl ⟨h3, -⟩
    rw [h3] at hk
    cases hk
  · intro p q hk
    obtain ⟨h1, h2⟩ := h.par_eq hk
    refine ⟨h1, hold h2 ?_⟩
    rintro rfl ⟨-, h3, -⟩
    rw [h3] at hk
    cases hk
  · intro p q hk
    obtain ⟨h1, h2⟩ := h.rep_ne hk
    refine ⟨h1, hold h2 ?_⟩
    rintro rfl ⟨-, -, h3⟩
    rw [h3 q] at hk
    cases hk

theorem Family.learnPar (hw : held (.proc p) .wait) (hq : parent p = some q) :
    Family state parent held know child kid (update par (.proc p) (some q)) rep := by
  refine { h with par_eq := ?_ }
  intro r x hx
  obtain ⟨⟨⟩, ⟨⟩⟩ | ⟨-, hx⟩ := update_cases hx
  · exact ⟨hq, hw⟩
  · exact h.par_eq hx

theorem Family.setKid {x : Option ProcId}
    (hx : ∀ q, x = some q → parent q = some p ∧ held (.proc p) .wait) :
    Family state parent held know child (update kid (.proc p) x) par rep := by
  refine { h with kid_eq := ?_ }
  intro r q hq
  obtain ⟨⟨⟩, hq'⟩ | ⟨-, hq'⟩ := update_cases hq
  · exact hx q hq'
  · exact h.kid_eq hq'

theorem Family.clearPar : Family state parent held know child kid (update par t none) rep := by
  refine { h with par_eq := ?_ }
  intro r q hq
  obtain ⟨-, ⟨⟩⟩ | ⟨-, hq⟩ := update_cases hq
  exact h.par_eq hq

theorem Family.clearRep :
    Family state parent held know child kid par (update rep t fun _ => false) := by
  refine { h with rep_ne := ?_ }
  intro r q hq
  obtain ⟨-, ⟨⟩⟩ | ⟨-, hq⟩ := update_row_cases hq
  exact h.rep_ne hq

theorem Family.learnRep (hw : held (.proc p) .wait) (hq : parent q ≠ some p) :
    Family state parent held know child kid par
      (update rep (.proc p) (update (rep (.proc p)) q true)) := by
  refine { h with rep_ne := ?_ }
  intro r x hx
  obtain ⟨⟨⟨⟩, rfl⟩, -⟩ | ⟨-, hx⟩ := update_update_cases hx
  · exact ⟨hq, hw⟩
  · exact h.rep_ne hx

/-- Learning about a slot that is not being created, or forgetting it. -/
theorem Family.setKnow {y : Option PState} (hy : y ≠ some .used)
    (hk : know (.proc p) q ≠ some .used) :
    Family state parent held
      (update know (.proc p) (update (know (.proc p)) q y))
      child kid par rep := by
  refine { h with born := ?_, child_eq := ?_ }
  · intro r x hx
    obtain ⟨-, hx⟩ | ⟨-, hx⟩ := update_update_cases hx
    · exact absurd hx hy
    · exact h.born hx
  · intro r x hx
    obtain ⟨h1, h2⟩ := h.child_eq hx
    refine ⟨h1, update_update_of h2 ?_⟩
    rintro ⟨⟩ rfl
    exact absurd h2 hk

theorem Family.setUsed (hk : Know state held know) (hq : know (.proc p) q = some .unused) :
    Family (update state q .used) parent held
      (update know (.proc p) (update (know (.proc p)) q (some .used)))
      child kid par rep := by
  have hpar := h.unused (hk.eq hq)
  have hna := hk.not_alive (by rw [hq]; simp : know (.proc p) q ≠ none)
  refine { h with
    live := h.live_update fun _ => h.no_child hna, has := ?_, init := ?_, unused := ?_, born := ?_, child_eq := ?_ }
  · intro r hr hne
    by_cases hrq : r = q
    · rw [hrq, update_self] at hr
      simp [PState.Alive] at hr
    · rw [update_of_ne hrq] at hr
      exact h.has hr hne
  · rw [update_of_ne (h.ne_init hna)]
    exact h.init
  · intro r hr
    obtain ⟨rfl, -⟩ | ⟨-, hr⟩ := update_cases hr
    · exact hpar
    · exact h.unused hr
  · intro r x hx
    obtain ⟨⟨-, rfl⟩, -⟩ | ⟨-, hx⟩ := update_update_cases hx
    · exact .inl hpar
    · exact h.born hx
  · intro r x hx
    obtain ⟨h1, h2⟩ := h.child_eq hx
    exact ⟨h1, update_update_of h2 fun _ _ => rfl⟩

/-- A slot is freed by the thread that creates or reaps it, which is its parent if it has one. -/
theorem Family.free (hk : Know state held know) (hq : know (.proc p) q ≠ none)
    (hchild : child (.proc p) ≠ some q) (hkid : ∀ r, kid (.proc r) ≠ some q)
    (hpar : par (.proc q) = none) :
    Family (update state q .unused) (update parent q none) held
      (update know (.proc p) (update (know (.proc p)) q none))
      child kid par rep := by
  have hna := hk.not_alive hq
  have hiq := h.ne_init hna
  have pold : ∀ {r y}, update parent q none r = some y → parent r = some y := by
    intro r y hr
    obtain ⟨-, ⟨⟩⟩ | ⟨-, hr⟩ := update_cases hr
    exact hr
  constructor
  · exact fun hr => h.live_update (fun _ => h.no_child hna) (pold hr)
  · intro r hr hne
    by_cases hrq : r = q
    · rw [hrq, update_self] at hr
      simp [PState.Alive] at hr
    · rw [update_of_ne hrq] at hr ⊢
      exact h.has hr hne
  · rw [update_of_ne hiq]
    exact h.init
  · rw [update_of_ne hiq]
    exact h.root
  · exact fun hr => h.irr (pold hr)
  · intro r hr
    obtain ⟨rfl, -⟩ | ⟨-, hr⟩ := update_cases hr
    · exact update_self ..
    · exact update_of (h.unused hr) fun _ => rfl
  · intro r y hy
    obtain ⟨-, ⟨⟩⟩ | ⟨hne, hy'⟩ := update_update_cases hy
    have hyq : y ≠ q := by
      intro he
      rw [he] at hy'
      exact hne ⟨hk.one (by rw [hy']; simp) hq, he⟩
    rw [update_of_ne hyq]
    exact h.born hy'
  · intro r y hy
    obtain ⟨h1, h2⟩ := h.child_eq hy
    have hyq : y ≠ q := by
      rintro rfl
      cases hk.one (by rw [h2]; simp) hq
      exact hchild hy
    rw [update_of_ne hyq]
    exact ⟨h1, update_update_of h2 fun _ he => absurd he hyq⟩
  · intro r y hy
    have hyq : y ≠ q := fun he => hkid r (he ▸ hy)
    rw [update_of_ne hyq]
    exact h.kid_eq hy
  · intro r y hy
    refine ⟨update_of (h.par_eq hy).1 ?_, (h.par_eq hy).2⟩
    rintro rfl
    rw [hpar] at hy
    cases hy
  · intro r y hy
    exact ⟨fun he => (h.rep_ne hy).1 (pold he), (h.rep_ne hy).2⟩

theorem Family.setParent (hk : Know state held know) (hq : know (.proc p) q = some .used)
    (hex : ∀ r, held (.proc r) .wait → r = p) (hp : (state p).Alive)
    (hkid : kid (.proc p) = none) (hrep : ∀ r, rep (.proc p) r = false)
    (hpar : par (.proc q) = none) :
    Family state (update parent q (some p)) held know
      (update child (.proc p) (some q)) kid par rep := by
  have hst := hk.eq hq
  have hq' : know (.proc p) q ≠ none := by simp [hq]
  obtain ⟨p', ⟨⟩, hne⟩ := hk.owner hq
  refine ⟨?_, ?_, h.init, ?_, ?_, ?_, ?_, ?_, ?_, ?_, ?_⟩
  · intro r y hr
    obtain ⟨-, ⟨⟩⟩ | ⟨-, hr⟩ := update_cases hr
    · exact hp
    · exact h.live hr
  · intro r hr hri hc
    obtain ⟨-, ⟨⟩⟩ | ⟨-, hc⟩ := update_cases hc
    exact h.has hr hri hc
  · rw [update_of_ne (h.ne_init (hk.not_alive hq'))]
    exact h.root
  · intro r hr
    obtain ⟨rfl, ⟨⟩⟩ | ⟨-, hr⟩ := update_cases hr
    · exact hne rfl
    · exact h.irr hr
  · intro r hr
    refine update_of (h.unused hr) ?_
    rintro rfl
    rw [hst] at hr
    cases hr
  · intro r y hy
    by_cases hyq : y = q
    · subst hyq
      cases hk.uniq hy hq
      exact .inr (update_self ..)
    · rw [update_of_ne hyq]
      exact h.born hy
  · intro r y hy
    obtain ⟨⟨⟩, ⟨⟩⟩ | ⟨hr, hy⟩ := update_cases hy
    · exact ⟨update_self .., hq⟩
    · obtain ⟨h1, h2⟩ := h.child_eq hy
      refine ⟨update_of h1 ?_, h2⟩
      rintro rfl
      exact absurd (hk.uniq h2 hq) hr
  · intro r y hy
    cases hex r (h.kid_eq hy).2
    rw [hkid] at hy
    cases hy
  · intro r y hy
    refine ⟨update_of (h.par_eq hy).1 ?_, (h.par_eq hy).2⟩
    rintro rfl
    rw [hpar] at hy
    cases hy
  · intro r y hy
    cases hex r (h.rep_ne hy).2
    rw [hrep] at hy
    cases hy

theorem Family.setRunnable (hk : Know state held know) (hc : child (.proc p) = some q) :
    Family (update state q .runnable) parent held
      (update know (.proc p) (update (know (.proc p)) q none))
      (update child (.proc p) none) kid par rep := by
  obtain ⟨hpar, hq⟩ := h.child_eq hc
  have hna := hk.not_alive (by rw [hq]; simp : know (.proc p) q ≠ none)
  refine { h with
    live := h.live_update fun _ => h.no_child hna, has := ?_, init := ?_, unused := ?_, born := ?_, child_eq := ?_ }
  · intro r hr hri
    by_cases hrq : r = q
    · subst hrq
      rw [hpar]
      simp
    · rw [update_of_ne hrq] at hr
      exact h.has hr hri
  · rw [update_of_ne (h.ne_init hna)]
    exact h.init
  · intro r hr
    obtain ⟨-, ⟨⟩⟩ | ⟨-, hr⟩ := update_cases hr
    exact h.unused hr
  · intro r y hy
    obtain ⟨-, ⟨⟩⟩ | ⟨-, hy⟩ := update_update_cases hy
    exact h.born hy
  · intro r y hy
    obtain ⟨-, ⟨⟩⟩ | ⟨hr, hy⟩ := update_cases hy
    rw [update_of_ne hr]
    exact h.child_eq hy

/-- `reparent` gives a child of `p` to init. -/
theorem Family.adopt (hq : parent q = some p) (hi : p ≠ initproc) (hw : held (.proc p) .wait)
    (hex : ∀ r, held (.proc r) .wait → r = p) (hknow : know (.proc p) q ≠ some .used)
    (hchild : child (.proc p) = none) (hkid : kid (.proc p) = none) :
    Family state (update parent q (some initproc)) held know child kid par
      (update rep (.proc p) (update (rep (.proc p)) q true)) := by
  have hqi : initproc ≠ q := by
    rintro rfl
    rw [h.root] at hq
    cases hq
  refine ⟨?_, ?_, h.init, ?_, ?_, ?_, ?_, ?_, ?_, ?_, ?_⟩
  · intro r y hr
    obtain ⟨-, ⟨⟩⟩ | ⟨-, hr⟩ := update_cases hr
    · exact h.init
    · exact h.live hr
  · intro r hr hri hc
    obtain ⟨-, ⟨⟩⟩ | ⟨-, hc⟩ := update_cases hc
    exact h.has hr hri hc
  · rw [update_of_ne hqi]
    exact h.root
  · intro r hr
    obtain ⟨rfl, hr'⟩ | ⟨-, hr'⟩ := update_cases hr
    · exact hqi (Option.some.inj hr')
    · exact h.irr hr'
  · intro r hr
    refine update_of (h.unused hr) ?_
    rintro rfl
    rw [h.unused hr] at hq
    cases hq
  · intro r y hy
    have hyq : y ≠ q := by
      rintro rfl
      have h1 := h.born hy
      rw [hq] at h1
      obtain ⟨⟨⟩⟩ | ⟨⟨⟩⟩ := h1
      exact hknow hy
    rw [update_of_ne hyq]
    exact h.born hy
  · intro r y hy
    obtain ⟨h1, h2⟩ := h.child_eq hy
    refine ⟨update_of h1 ?_, h2⟩
    rintro rfl
    rw [hq] at h1
    cases h1
    rw [hchild] at hy
    cases hy
  · intro r y hy
    cases hex r (h.kid_eq hy).2
    rw [hkid] at hy
    cases hy
  · intro r y hy
    obtain ⟨h1, h2⟩ := h.par_eq hy
    refine ⟨update_of h1 ?_, h2⟩
    rintro rfl
    rw [hex r h2] at hq
    exact absurd hq h.irr
  · intro r y hy
    obtain ⟨⟨⟨⟩, rfl⟩, -⟩ | ⟨hne, hy⟩ := update_update_cases hy
    · rw [update_self]
      exact ⟨fun he => hi (Option.some.inj he).symm, hw⟩
    · obtain ⟨h1, h2⟩ := h.rep_ne hy
      cases hex r h2
      rw [update_of_ne fun he => hne ⟨rfl, he⟩]
      exact ⟨h1, h2⟩

end Family

/-! ## What the history says -/

/-- The pid and the exit status of slot `q`, if it has become a zombie and was not reaped since. -/
def zstat (q : ProcId) : List Event → Option (ℤ × ℤ)
  | [] => none
  | .exit q' pid status :: l => if q' = q then some (pid, status) else zstat q l
  | .reap _ q' _ _ _ :: l => if q' = q then none else zstat q l
  | _ :: l => zstat q l

/-- Every `kwait` that returned was made by the parent of a zombie that was not reaped before, with
the pid and the exit status of the zombie, and every `kwait` that failed left a zombie. -/
def ReapsOk : List Event → Prop
  | [] => True
  | .reap p q pid status par :: l =>
    zstat q l = some (pid, status) ∧ par = some p ∧ ReapsOk l
  | .waitFail _ q :: l => (zstat q l).isSome ∧ ReapsOk l
  | _ :: l => ReapsOk l

/-- `kkill` found the process in slot `q`, or it faulted, since it was created. -/
def blamed (q : ProcId) : List Event → Bool
  | [] => false
  | .created q' _ _ :: l => if q' = q then false else blamed q l
  | .kill _ q' _ :: l => if q' = q then true else blamed q l
  | .fault q' :: l => if q' = q then true else blamed q l
  | _ :: l => blamed q l

/-- Every `kkill` that returned 0 found a slot in use, and a process is terminated only if `kkill`
found it or it faulted. -/
def KillsOk : List Event → Prop
  | [] => True
  | .kill _ _ st :: l => st ≠ .unused ∧ KillsOk l
  | .killedExit p :: l => blamed p l = true ∧ KillsOk l
  | _ :: l => KillsOk l

/-- No slot was created or freed while a CPU was executing on it. -/
def FreesOk : List Event → Prop
  | [] => True
  | .created _ _ busy :: l => busy = false ∧ FreesOk l
  | .freed _ busy :: l => busy = false ∧ FreesOk l
  | _ :: l => FreesOk l

/-- What is known of the zombies. -/
structure Zombies (state : ProcId → PState) (pid xstate : ProcId → ℤ) (hist : List Event)
    (know : Thr ncpu → ProcId → Option PState) (zinfo : Thr ncpu → Option (ProcId × ℤ × ℤ)) :
    Prop where
  stat : ∀ q, zstat q hist = if state q = .zombie then some (pid q, xstate q) else none
  ok : ReapsOk hist
  info : ∀ {t q a b}, zinfo t = some (q, a, b) → know t q = some .zombie ∧ pid q = a ∧ xstate q = b

section Zombies

variable {pid xstate : ProcId → ℤ} {hist : List Event}
  {zinfo : Thr ncpu → Option (ProcId × ℤ × ℤ)} {e : Event}

variable (h : Zombies state pid xstate hist know zinfo)

include h

/-- Changing the state of a slot that is not a zombie before or after. -/
theorem Zombies.setState (hq : state q ≠ .zombie) (hst : st ≠ .zombie) :
    Zombies (update state q st) pid xstate hist know zinfo := by
  refine { h with stat := ?_ }
  intro r
  rw [h.stat r]
  by_cases hr : r = q
  · subst hr
    rw [update_self, if_neg hq, if_neg hst]
  · rw [update_of_ne hr]

theorem Zombies.event (hz : ∀ q, zstat q (e :: hist) = zstat q hist) (ho : ReapsOk (e :: hist)) :
    Zombies state pid xstate (e :: hist) know zinfo where
  stat := fun q => (hz q).trans (h.stat q)
  ok := ho
  info := h.info

/-- Changing what a thread knows about a slot of which it has not read the exit status. -/
theorem Zombies.setKnow {x : Option PState} (hz : ∀ a b, zinfo t ≠ some (q, a, b)) :
    Zombies state pid xstate hist (update know t (update (know t) q x)) zinfo := by
  refine { h with info := ?_ }
  intro u r a b hu
  refine ⟨update_update_of (h.info hu).1 ?_, (h.info hu).2⟩
  rintro rfl rfl
  exact absurd hu (hz a b)

theorem Zombies.clearInfo : Zombies state pid xstate hist know (update zinfo t none) := by
  refine { h with info := ?_ }
  intro u r a b hu
  obtain ⟨-, ⟨⟩⟩ | ⟨-, hu⟩ := update_cases hu
  exact h.info hu

theorem Zombies.learn (hk : know t q = some .zombie) :
    Zombies state pid xstate hist know (update zinfo t (some (q, pid q, xstate q))) := by
  refine { h with info := ?_ }
  intro u r a b hu
  obtain ⟨rfl, ⟨⟩⟩ | ⟨-, hu⟩ := update_cases hu
  · exact ⟨hk, rfl, rfl⟩
  · exact h.info hu

theorem Zombies.info_ne (hk : Know state held know) (hq : state q ≠ .zombie) {a b : ℤ}
    (hr : zinfo t = some (r, a, b)) : r ≠ q := by
  rintro rfl
  exact hq (hk.eq (h.info hr).1)

theorem Zombies.setFields (hk : Know state held know) (hq : state q ≠ .zombie) (a b : ℤ) :
    Zombies state (update pid q a) (update xstate q b) hist know zinfo where
  stat := by
    intro r
    rw [h.stat r]
    by_cases hr : r = q
    · subst hr
      rw [if_neg hq, if_neg hq]
    · rw [update_of_ne hr, update_of_ne hr]
  ok := h.ok
  info := by
    intro u r x y hu
    have hrq := h.info_ne hk hq hu
    rw [update_of_ne hrq, update_of_ne hrq]
    exact h.info hu

theorem Zombies.die (hk : Know state held know) (hq : state q ≠ .zombie) (status : ℤ) :
    Zombies (update state q .zombie) pid (update xstate q status)
      (.exit q (pid q) status :: hist) know zinfo where
  stat := by
    intro r
    by_cases hr : r = q
    · subst hr
      simp [zstat]
    · rw [update_of_ne hr, update_of_ne hr, ← h.stat r]
      simp [zstat, Ne.symm hr]
  ok := h.ok
  info := by
    intro u r x y hu
    rw [update_of_ne (h.info_ne hk hq hu)]
    exact h.info hu

theorem Zombies.reap (hk : Know state held know) {a b : ℤ} (hz : zinfo t = some (q, a, b))
    {busy : Bool} :
    Zombies (update state q .unused) (update pid q 0) (update xstate q 0)
      (.freed q busy :: .reap p q a b (some p) :: hist)
      (update know t (update (know t) q none)) (update zinfo t none) := by
  obtain ⟨hkq, ha, hb⟩ := h.info hz
  have hst := hk.eq hkq
  constructor
  · intro r
    by_cases hr : r = q
    · subst hr
      simp [zstat]
    · rw [update_of_ne hr, update_of_ne hr, update_of_ne hr, ← h.stat r]
      simp [zstat, Ne.symm hr]
  · refine ⟨?_, rfl, h.ok⟩
    rw [h.stat q, if_pos hst, ha, hb]
  · intro u r x y hu
    obtain ⟨-, ⟨⟩⟩ | ⟨hut, hu⟩ := update_cases hu
    have hrq : r ≠ q := by
      rintro rfl
      exact hut (hk.uniq (h.info hu).1 hkq)
    rw [update_of_ne hut, update_of_ne hrq, update_of_ne hrq]
    exact h.info hu

end Zombies

/-- Where the `killed` flags come from, if no process kills the process 0. -/
structure Kills (nz : Bool) (state : ProcId → PState) (killed : ProcId → Bool) (pid : ProcId → ℤ)
    (hist : List Event) : Prop where
  unused : nz → ∀ {q}, state q = .unused → killed q = false ∧ pid q = 0
  blame : nz → ∀ {q}, killed q → blamed q hist = true
  ok : nz → KillsOk hist

section Kills

variable {nz : Bool} {killed : ProcId → Bool} {pid : ProcId → ℤ} {hist : List Event} {e : Event}

variable (h : Kills nz state killed pid hist)

include h

theorem Kills.setState (hst : st ≠ .unused) : Kills nz (update state q st) killed pid hist := by
  refine { h with unused := ?_ }
  intro hn r hr
  obtain ⟨-, hr⟩ | ⟨-, hr⟩ := update_cases hr
  · exact absurd hr hst
  · exact h.unused hn hr

theorem Kills.event
    (hb : nz → ∀ q, killed q → blamed q hist → blamed q (e :: hist))
    (ho : nz → KillsOk (e :: hist)) : Kills nz state killed pid (e :: hist) where
  unused := h.unused
  blame := fun hn q hq => hb hn q hq (h.blame hn hq)
  ok := ho

/-- A slot that is not unused is marked, with an event that blames it. -/
theorem Kills.mark (hq : nz → state q ≠ .unused) (hb : blamed q (e :: hist))
    (hb' : ∀ r ≠ q, blamed r (e :: hist) = blamed r hist) (ho : nz → KillsOk (e :: hist)) :
    Kills nz state (update killed q true) pid (e :: hist) where
  unused := by
    intro hn r hr
    have hrq : r ≠ q := fun he => hq hn (he ▸ hr)
    rw [update_of_ne hrq]
    exact h.unused hn hr
  blame := by
    intro hn r hr
    obtain ⟨rfl, -⟩ | ⟨hrq, hr⟩ := update_cases hr
    · exact hb
    · rw [hb' r hrq]
      exact h.blame hn hr
  ok := ho

theorem Kills.create (hq : state q = .unused) (a : ℤ) {busy : Bool} :
    Kills nz (update state q .used) killed (update pid q a)
      (.created q a busy :: hist) where
  unused := by
    intro hn r hr
    obtain ⟨-, ⟨⟩⟩ | ⟨hrq, hr⟩ := update_cases hr
    rw [update_of_ne hrq]
    exact h.unused hn hr
  blame := by
    intro hn r hr
    have hrq : q ≠ r := by
      intro he
      rw [← he, (h.unused hn hq).1] at hr
      cases hr
    simp only [blamed, if_neg hrq]
    exact h.blame hn hr
  ok := h.ok

theorem Kills.free :
    Kills nz (update state q .unused) (update killed q false)
      (update pid q 0) hist where
  unused := by
    intro hn r hr
    obtain ⟨rfl, -⟩ | ⟨hrq, hr⟩ := update_cases hr
    · simp
    · rw [update_of_ne hrq, update_of_ne hrq]
      exact h.unused hn hr
  blame := by
    intro hn r hr
    obtain ⟨-, ⟨⟩⟩ | ⟨-, hr⟩ := update_cases hr
    exact h.blame hn hr
  ok := h.ok

end Kills

/-- What threads have seen of the `killed` flags of their processes. -/
def Marks (killed : ProcId → Bool) (marked : Thr ncpu → Bool) : Prop :=
  ∀ p, marked (.proc p) = true → killed p = true

theorem Marks.set {killed : ProcId → Bool} {marked : Thr ncpu → Bool} (h : Marks killed marked)
    {b : Bool} (hb : b = false → marked (.proc q) = false) :
    Marks (update killed q b) marked := by
  intro p hp
  refine update_of (h p hp) ?_
  rintro rfl
  cases b with
  | true => rfl
  | false =>
    rw [hb rfl] at hp
    cases hp

theorem Marks.learn {killed : ProcId → Bool} {marked : Thr ncpu → Bool} (h : Marks killed marked)
    {b : Bool} (hb : ∀ p, t = .proc p → b → killed p) :
    Marks killed (update marked t b) := by
  intro p hp
  rcases update_cases hp with ⟨ht, hp⟩ | ⟨-, hp⟩
  · exact hb p ht.symm hp
  · exact h p hp

/-- Every return from `sleep` found the condition lock held by the CPU. -/
def AwakesOk : List Event → Prop
  | [] => True
  | .awake _ _ held :: l => held = true ∧ AwakesOk l
  | _ :: l => AwakesOk l

end Xv6.Proc
