import Xv6.Proc.Table

/-!
# No lost wakeups

The parts of the invariant about sleeping processes. `Waits`: a process that sleeps in `kwait`, or is
about to, has no zombie child, unless a thread that holds `wait_lock` is still going to wake it.
`Conds` says the same of a process that sleeps on a condition.
-/

namespace Xv6.Proc

open Function (update update_self update_of_ne)

variable {ncpu : ℕ} {on : Fin ncpu → Thr ncpu} {state : ProcId → PState}
  {chan : ProcId → Option Chan} {parent : ProcId → Option ProcId} {held : Thr ncpu → Lk → Bool}
  {due : Thr ncpu → Chan → ProcId → Bool} {t : Thr ncpu} {c : Fin ncpu} {p q : ProcId} {st : PState}
  {ch : Chan}

/-- Process `p` sleeps on the channel. -/
def Dozes (state : ProcId → PState) (chan : ProcId → Option Chan) (p : ProcId) (ch : Chan) : Prop :=
  state p = .sleeping ∧ chan p = some ch

theorem Dozes.of_setState (hst : st ≠ .sleeping) (h : Dozes (update state q st) chan p ch) :
    Dozes state chan p ch := by
  obtain ⟨-, h1⟩ | ⟨-, h1⟩ := update_cases h.1
  · exact absurd h1 hst
  · exact ⟨h1, h.2⟩

theorem Dozes.of_setChan (h : Dozes state (update chan q none) p ch) :
    Dozes state chan p ch := by
  obtain ⟨-, ⟨⟩⟩ | ⟨-, h2⟩ := update_cases h.2
  exact ⟨h.1, h2⟩

theorem Dozes.of_doze {ch' : Chan}
    (h : Dozes (update state q .sleeping) (update chan q (some ch')) p ch) :
    (p = q ∧ ch = ch') ∨ (p ≠ q ∧ Dozes state chan p ch) := by
  obtain ⟨rfl, ⟨⟩⟩ | ⟨hpq, h2⟩ := update_cases h.2
  · exact .inl ⟨rfl, rfl⟩
  · refine .inr ⟨hpq, ?_, h2⟩
    rw [← h.1, update_of_ne hpq]

theorem eq_of_update {st' : PState} (hst : st ≠ st') (h : update state q st p = st') :
    state p = st' :=
  (update_cases h).elim (fun h => absurd h.2 hst) And.right

/-- A thread that a CPU executes is still executed after another thread's CPU switches. -/
theorem on_of_update {x : Thr ncpu} (h : ∃ c', on c' = .proc p) (hne : on c ≠ .proc p) :
    ∃ c', update on c x c' = .proc p := by
  obtain ⟨c', hc'⟩ := h
  have hcc : c' ≠ c := fun he => hne (he ▸ hc')
  exact ⟨c', by rw [update_of_ne hcc]; exact hc'⟩

theorem update_proc_ne {β : Type} {f : Thr ncpu → β} {x : β} {p q : ProcId} (h : q ≠ p) :
    update f (.proc p) x (.proc q) = f (.proc q) :=
  update_of_ne (by simpa using h) ..

/-- Somebody is still going to wake `p` after `t` has changed whom it is going to wake. -/
theorem exists_due_update {f : Chan → ProcId → Bool} (h : ∃ u, due u ch p)
    (ht : due t ch p → f ch p ≠ false) : ∃ u, update due t f u ch p := by
  obtain ⟨u, hu⟩ := h
  refine ⟨u, ?_⟩
  by_cases hut : u = t
  · subst hut
    rw [update_self]
    simpa using ht hu
  · rwa [update_of_ne hut]

theorem due_of_update {α : Type} {chn : α → Chan} {wl : α → Lk} {f : Chan → ProcId → Bool}
    (hf : ∀ i q, f (chn i) q → held t (wl i))
    (h : ∀ {u i q}, due u (chn i) q → held u (wl i)) {u : Thr ncpu} {i : α}
    {q : ProcId} (hu : update due t f u (chn i) q) : held u (wl i) := by
  by_cases hut : u = t
  · rw [hut, update_self] at hu
    rw [hut]
    exact hf i q hu
  · rw [update_of_ne hut] at hu
    exact h hu

/-! ## Sleeping in `kwait` -/

/-- A process that sleeps in `kwait` has no zombie child. -/
structure Waits (on : Fin ncpu → Thr ncpu) (state : ProcId → PState) (chan : ProcId → Option Chan)
    (parent : ProcId → Option ProcId) (held : Thr ncpu → Lk → Bool) (woken noz : Thr ncpu → Bool)
    (scan : Thr ncpu → ProcId → Bool) (due : Thr ncpu → Chan → ProcId → Bool) : Prop where
  main : ∀ {p q}, parent q = some p → state q = .zombie ∨ woken (.proc q) →
    Dozes state chan p (.proc p) ∨ noz (.proc p) → ∃ t, due t (.proc p) p = true
  woken_held : ∀ {p}, woken (.proc p) → held (.proc p) .wait = true
  noz_on : ∀ {p}, noz (.proc p) → (∃ c, on c = .proc p) ∧
    (held (.proc p) .wait ∨ held (.proc p) (.proc p))
  scan_ok : ∀ {p q}, scan (.proc p) q →
    (parent q = some p → state q ≠ .zombie) ∧ held (.proc p) .wait = true
  due_held : ∀ {t p q}, due t (.proc p) q → held t .wait = true

section Waits

variable {woken noz : Thr ncpu → Bool} {scan : Thr ncpu → ProcId → Bool}

variable (h : Waits on state chan parent held woken noz scan due)

include h

theorem Waits.setState (hz : st ≠ .zombie) (hs : st ≠ .sleeping) :
    Waits on (update state q st) chan parent held woken noz scan due := by
  refine { h with main := ?_, scan_ok := ?_ }
  · intro p r hr hzw hd
    apply h.main hr
    · exact hzw.imp_left (eq_of_update hz)
    · exact hd.imp_left (Dozes.of_setState hs)
  · intro p r hr
    obtain ⟨h1, h2⟩ := h.scan_ok hr
    exact ⟨fun hp hrz => h1 hp (eq_of_update hz hrz), h2⟩

theorem Waits.clearChan : Waits on state (update chan q none) parent held woken noz scan due :=
  { h with main := fun hr hzw hd => h.main hr hzw (hd.imp_left Dozes.of_setChan) }

theorem Waits.unparent : Waits on state chan (update parent q none) held woken noz scan due := by
  have old : ∀ {r x}, update parent q none r = some x → parent r = some x := by
    intro r x hr
    obtain ⟨-, ⟨⟩⟩ | ⟨hne, hr⟩ := update_cases hr
    exact hr
  exact ⟨fun hr => h.main (old hr), h.woken_held, h.noz_on,
    fun hr => ⟨fun hp => (h.scan_ok hr).1 (old hp), (h.scan_ok hr).2⟩, h.due_held⟩

/-- Process `p` goes to sleep; if in `kwait`, then it has no zombie child. -/
theorem Waits.doze (hch : ch = .proc p → noz (.proc p)) :
    Waits on (update state p .sleeping) (update chan p (some ch)) parent held woken
      (update noz (.proc p) false) scan due := by
  refine { h with main := ?_, noz_on := ?_, scan_ok := ?_ }
  · intro r q hq hzw hd
    apply h.main hq
    · exact hzw.imp_left (eq_of_update (by simp))
    · rcases hd with h1 | h1
      · rcases h1.of_doze with ⟨rfl, h2⟩ | ⟨-, h2⟩
        · exact .inr (hch h2.symm)
        · exact .inl h2
      · obtain ⟨-, ⟨⟩⟩ | ⟨-, h1⟩ := update_cases h1
        exact .inr h1
  · intro r hr
    obtain ⟨-, ⟨⟩⟩ | ⟨-, hr⟩ := update_cases hr
    exact h.noz_on hr
  · intro r q hq
    obtain ⟨h1, h2⟩ := h.scan_ok hq
    exact ⟨fun hp hz => h1 hp (eq_of_update (by simp) hz), h2⟩

theorem Waits.die (hw : woken (.proc p)) (hex : ∀ r, held (.proc r) .wait → r = p)
    (hirr : parent p ≠ some p) :
    Waits on (update state p .zombie) chan parent held woken noz scan due := by
  refine { h with main := ?_, scan_ok := ?_ }
  · intro r q hq hzw hd
    apply h.main hq
    · by_cases hqp : q = p
      · rw [hqp]
        exact .inr hw
      · rwa [update_of_ne hqp] at hzw
    · exact hd.imp_left (Dozes.of_setState (by simp))
  · intro r q hq
    obtain ⟨h1, h2⟩ := h.scan_ok hq
    refine ⟨fun hp => ?_, h2⟩
    have hqp : q ≠ p := by
      intro he
      rw [he, hex r h2] at hp
      exact hirr hp
    rw [update_of_ne hqp]
    exact h1 hp

theorem Waits.setParent (hz : state q ≠ .zombie) (hw : woken (.proc q) = false) :
    Waits on state chan (update parent q (some p)) held woken noz scan due := by
  refine { h with main := ?_, scan_ok := ?_ }
  · intro r x hx hzw hd
    have hxq : x ≠ q := by
      intro he
      rw [he, hw] at hzw
      exact hz (hzw.resolve_right (by simp))
    rw [update_of_ne hxq] at hx
    exact h.main hx hzw hd
  · intro r x hx
    obtain ⟨h1, h2⟩ := h.scan_ok hx
    refine ⟨fun hp => ?_, h2⟩
    obtain ⟨rfl, -⟩ | ⟨-, hp⟩ := update_cases hp
    · exact hz
    · exact h1 hp

/-- A child is given to init, which the thread is going to wake. -/
theorem Waits.adopt (hd : due t (.proc initproc) initproc)
    (hex : ∀ r, held (.proc r) .wait → r ≠ initproc) :
    Waits on state chan (update parent q (some initproc)) held woken noz scan due := by
  refine { h with main := ?_, scan_ok := ?_ }
  · intro r x hx hzw hdz
    obtain ⟨-, ⟨⟩⟩ | ⟨-, hx⟩ := update_cases hx
    · exact ⟨t, hd⟩
    · exact h.main hx hzw hdz
  · intro r x hx
    obtain ⟨h1, h2⟩ := h.scan_ok hx
    refine ⟨fun hp => ?_, h2⟩
    obtain ⟨-, ⟨⟩⟩ | ⟨-, hp⟩ := update_cases hp
    · exact absurd rfl (hex _ h2)
    · exact h1 hp

theorem Waits.setHeld {f : Lk → Bool} (hf : held t .wait → f .wait ∨
      (woken t = false ∧ (∀ q, scan t q = false) ∧ ∀ p q, due t (.proc p) q = false))
    (hn : ∀ p, t = .proc p → noz t → f .wait ∨ f (.proc p)) :
    Waits on state chan parent (update held t f) woken noz scan due := by
  have hold : ∀ {u}, held u .wait → (u = t → ¬(woken t = false ∧ (∀ q, scan t q = false) ∧
      ∀ p q, due t (.proc p) q = false)) → update held t f u .wait := by
    intro u hu hk
    by_cases ht : u = t
    · subst ht
      rw [update_self]
      exact (hf hu).resolve_right (hk rfl)
    · rwa [update_of_ne ht]
  refine { h with woken_held := ?_, noz_on := ?_, scan_ok := ?_, due_held := ?_ }
  · intro p hp
    refine hold (h.woken_held hp) ?_
    rintro rfl ⟨h3, -⟩
    rw [h3] at hp
    cases hp
  · intro p hp
    obtain ⟨h1, h2⟩ := h.noz_on hp
    refine ⟨h1, ?_⟩
    by_cases ht : Thr.proc p = t
    · subst ht
      rw [update_self]
      exact hn p rfl hp
    · rwa [update_of_ne ht]
  · intro p q hp
    refine ⟨(h.scan_ok hp).1, hold (h.scan_ok hp).2 ?_⟩
    rintro rfl ⟨-, h3, -⟩
    rw [h3] at hp
    cases hp
  · intro u p q hp
    refine hold (h.due_held hp) ?_
    rintro rfl ⟨-, -, h3⟩
    rw [h3] at hp
    cases hp

theorem Waits.setOn {x : Thr ncpu} (hn : ∀ p, on c = .proc p → noz (.proc p) = false) :
    Waits (update on c x) state chan parent held woken noz scan due := by
  refine { h with noz_on := ?_ }
  intro p hp
  obtain ⟨h1, h2⟩ := h.noz_on hp
  refine ⟨on_of_update h1 fun hc => ?_, h2⟩
  rw [hn p hc] at hp
  cases hp

theorem Waits.setNoz (hc : on c = .proc p) (hw : held (.proc p) .wait)
    (hex : ∀ r, held (.proc r) .wait → r = p) (hirr : parent p ≠ some p)
    (hs : ∀ q, scan (.proc p) q) :
    Waits on state chan parent held woken (update noz (.proc p) true) scan due := by
  refine { h with main := ?_, noz_on := ?_ }
  · intro r q hq hzw hd
    by_cases hrp : r = p
    · exfalso
      subst hrp
      rcases hzw with h1 | h1
      · exact (h.scan_ok (hs q)).1 hq h1
      · rw [hex q (h.woken_held h1)] at hq
        exact hirr hq
    · rw [update_proc_ne hrp] at hd
      exact h.main hq hzw hd
  · intro r hr
    obtain ⟨⟨⟩, -⟩ | ⟨-, hr⟩ := update_cases hr
    · exact ⟨⟨c, hc⟩, .inl hw⟩
    · exact h.noz_on hr

/-- The thread of `p` sees that `q` is not a zombie child. -/
theorem Waits.learnScan (hw : held (.proc p) .wait)
    (hq : parent q = some p → state q ≠ .zombie) :
    Waits on state chan parent held woken noz
      (update scan (.proc p) (update (scan (.proc p)) q true)) due := by
  refine { h with scan_ok := ?_ }
  intro r x hx
  obtain ⟨⟨⟨⟩, rfl⟩, -⟩ | ⟨-, hx⟩ := update_update_cases hx
  · exact ⟨hq, hw⟩
  · exact h.scan_ok hx

theorem Waits.clearScan :
    Waits on state chan parent held woken noz (update scan t fun _ => false) due := by
  refine { h with scan_ok := ?_ }
  intro r x hx
  obtain ⟨-, ⟨⟩⟩ | ⟨-, hx⟩ := update_row_cases hx
  exact h.scan_ok hx

/-- The thread `t` learns that the parent of its process does not sleep in `kwait`, or forgets it. -/
theorem Waits.setWoken {b : Bool}
    (hb : ∀ p, t = .proc p → b → woken t ∨ (held t .wait ∧
      ∀ q, parent p = some q → ¬ (Dozes state chan q (.proc q) ∨ noz (.proc q)))) :
    Waits on state chan parent held (update woken t b) noz scan due := by
  refine { h with main := ?_, woken_held := ?_ }
  · intro r x hx hzw hd
    by_cases hxt : Thr.proc x = t
    · rw [hxt, update_self] at hzw
      rcases hzw with h1 | h1
      · exact h.main hx (.inl h1) hd
      · rcases hb x hxt.symm h1 with h2 | h2
        · exact h.main hx (.inr (hxt ▸ h2)) hd
        · exact absurd hd (h2.2 r hx)
    · rw [update_of_ne hxt] at hzw
      exact h.main hx hzw hd
  · intro r hr
    rcases update_cases hr with ⟨hrt, hr⟩ | ⟨-, hr⟩
    · rcases hb r hrt.symm hr with h1 | h1
      · exact h.woken_held (hrt ▸ h1)
      · rw [hrt]
        exact h1.1
    · exact h.woken_held hr

/-- Changing which processes `t` has still to wake: one that it has not is awake. -/
theorem Waits.setDue {f : Chan → ProcId → Bool}
    (hf : ∀ p q, f (.proc p) q → held t .wait)
    (hm : ∀ p, due t (.proc p) p → f (.proc p) p = false →
      ¬ (Dozes state chan p (.proc p) ∨ noz (.proc p))) :
    Waits on state chan parent held woken noz scan (update due t f) := by
  refine { h with main := ?_, due_held := ?_ }
  · intro p q hq hzw hd
    exact exists_due_update (h.main hq hzw hd) fun hu hfp => hm p hu hfp hd
  · exact due_of_update hf h.due_held

end Waits

/-! ## Sleeping on a condition -/

/-- A process that sleeps on a condition sleeps while the condition does not hold. -/
structure Conds (lk : ℕ → ℕ) (on : Fin ncpu → Thr ncpu) (state : ProcId → PState)
    (chan : ProcId → Option Chan) (cond : ℕ → Bool) (held : Thr ncpu → Lk → Bool)
    (commit : Thr ncpu → Option ℕ) (due : Thr ncpu → Chan → ProcId → Bool) : Prop where
  main : ∀ {i p}, cond i → Dozes state chan p (.cond i) ∨ commit (.proc p) = some i →
    ∃ t, due t (.cond i) p = true
  commit_on : ∀ {p i}, commit (.proc p) = some i → (∃ c, on c = .proc p) ∧
    (held (.proc p) (.cond (lk i)) ∨ held (.proc p) (.proc p))
  due_held : ∀ {t i q}, due t (.cond i) q → held t (.cond (lk i)) = true

section Conds

variable {lk : ℕ → ℕ} {cond : ℕ → Bool} {commit : Thr ncpu → Option ℕ} {i : ℕ}

variable (h : Conds lk on state chan cond held commit due)

include h

theorem Conds.setState (hs : st ≠ .sleeping) :
    Conds lk on (update state q st) chan cond held commit due :=
  ⟨fun hi hd => h.main hi (hd.imp_left (Dozes.of_setState hs)), h.commit_on, h.due_held⟩

theorem Conds.clearChan : Conds lk on state (update chan q none) cond held commit due :=
  ⟨fun hi hd => h.main hi (hd.imp_left Dozes.of_setChan), h.commit_on, h.due_held⟩

/-- Process `p` goes to sleep; if on a condition, then it has committed to it. -/
theorem Conds.doze (hch : ∀ i, ch = .cond i → commit (.proc p) = some i) :
    Conds lk on (update state p .sleeping) (update chan p (some ch)) cond held
      (update commit (.proc p) none) due := by
  have old : ∀ {r j}, update commit (.proc p) none (.proc r) = some j →
      commit (.proc r) = some j := by
    intro r j hr
    obtain ⟨-, ⟨⟩⟩ | ⟨-, hr⟩ := update_cases hr
    exact hr
  refine ⟨?_, fun hr => h.commit_on (old hr), h.due_held⟩
  intro j r hj hd
  apply h.main hj
  rcases hd with h1 | h1
  · rcases h1.of_doze with ⟨rfl, h2⟩ | ⟨-, h2⟩
    · exact .inr (hch j h2.symm)
    · exact .inl h2
  · exact .inr (old h1)

theorem Conds.setHeld {f : Lk → Bool}
    (hd : ∀ i q, due t (.cond i) q → f (.cond (lk i)))
    (hc : ∀ p i, t = .proc p → commit t = some i → f (.cond (lk i)) ∨ f (.proc p)) :
    Conds lk on state chan cond (update held t f) commit due where
  main := h.main
  commit_on := by
    intro p j hp
    obtain ⟨h1, h2⟩ := h.commit_on hp
    refine ⟨h1, ?_⟩
    by_cases ht : Thr.proc p = t
    · subst ht
      rw [update_self]
      exact hc p j rfl hp
    · rwa [update_of_ne ht]
  due_held := by
    intro u j q hq
    by_cases ht : u = t
    · subst ht
      rw [update_self]
      exact hd j q hq
    · rw [update_of_ne ht]
      exact h.due_held hq

theorem Conds.setOn {x : Thr ncpu} (hn : ∀ p, on c = .proc p → commit (.proc p) = none) :
    Conds lk (update on c x) state chan cond held commit due := by
  refine { h with commit_on := ?_ }
  intro p j hp
  obtain ⟨h1, h2⟩ := h.commit_on hp
  refine ⟨on_of_update h1 fun hc => ?_, h2⟩
  rw [hn p hc] at hp
  cases hp

theorem Conds.setCommit (hc : on c = .proc p) (hl : held (.proc p) (.cond (lk i)))
    (hi : cond i = false) :
    Conds lk on state chan cond held (update commit (.proc p) (some i)) due where
  main := by
    intro j r hj hd
    apply h.main hj
    refine hd.imp_right fun h1 => ?_
    obtain ⟨-, ⟨⟩⟩ | ⟨-, h1⟩ := update_cases h1
    · rw [hi] at hj
      cases hj
    · exact h1
  commit_on := by
    intro r j hr
    obtain ⟨⟨⟩, ⟨⟩⟩ | ⟨-, hr⟩ := update_cases hr
    · exact ⟨⟨c, hc⟩, .inl hl⟩
    · exact h.commit_on hr
  due_held := h.due_held

theorem Conds.setDue {f : Chan → ProcId → Bool}
    (hf : ∀ i q, f (.cond i) q → held t (.cond (lk i)))
    (hm : ∀ i p, due t (.cond i) p → f (.cond i) p = false →
      ¬ (Dozes state chan p (.cond i) ∨ commit (.proc p) = some i)) :
    Conds lk on state chan cond held commit (update due t f) where
  main := by
    intro j p hj hd
    exact exists_due_update (h.main hj hd) fun hu hfp => hm j p hu hfp hd
  commit_on := h.commit_on
  due_held := due_of_update hf h.due_held

/-- The condition is set by a thread that is going to wake everybody who sleeps on it. -/
theorem Conds.setCond {b : Bool}
    (hb : b → ∀ p, Dozes state chan p (.cond i) ∨ commit (.proc p) = some i →
      due t (.cond i) p) : Conds lk on state chan (update cond i b) held commit due := by
  refine { h with main := ?_ }
  intro j p hj hd
  obtain ⟨rfl, hj'⟩ | ⟨-, hj'⟩ := update_cases hj
  · exact ⟨t, hb hj' p hd⟩
  · exact h.main hj' hd

end Conds

end Xv6.Proc
