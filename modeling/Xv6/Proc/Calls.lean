import Xv6.Proc.Inode

/-!
# The functions of `proc.c` and `sleeplock.c`

For each function, that it keeps the invariant, and what its thread knows when it returns.
-/

namespace Xv6.Proc

open Function Xv6.Threads

variable {ncpu : ℕ} {lk : ℕ → ℕ} {nz : Bool} {t : Thr ncpu} {p q : ProcId} {g : Gh}
  {R : Unit → Gh → Prop} {l m : Lk} {c : Fin ncpu} {i : InodeId}

/-! ## Sets of locks -/

/-- Only the lock `l`. -/
def single (l : Lk) : Lk → Bool := fun m => decide (m = l)

theorem update_none : update (fun _ => false) l true = single l := by
  funext m
  by_cases hm : m = l <;> simp [single, hm]

theorem update_single : update (single l) l false = fun _ => false := by
  funext m
  by_cases hm : m = l <;> simp [single, hm]

theorem update_swap (h : l ≠ m) :
    update (update (single l) m true) l false = single m := by
  funext x
  by_cases hl : x = l
  · subst hl
    simp [single, h]
  · rw [update_of_ne hl]
    by_cases hm : x = m <;> simp [single, hl, hm]

theorem update_back {f : Lk → Bool} (h : f l = false) :
    update (update f l true) l false = f := by
  rw [update_idem, ← h, update_eq_self]

theorem Gh.drop_take (hs : g.spins = none) (hl : g.held l = false) : (g.take l).drop l = g := by
  cases g
  simp only at hs hl
  simp [Gh.take, Gh.drop, update_back hl, hs]

theorem Ordered.none {x : Option InodeId} (h : ∀ m, g.held m = false) : Ordered g.held x l := by
  intro m hm
  rw [h m] at hm
  cases hm

theorem Ordered.single {x : Option InodeId} (h : m.rank < l.rank) : Ordered (single m) x l := by
  intro m' hm
  have : m' = m := by simpa [Proc.single] using hm
  rw [this]
  exact .inl h

/-! ## Yielding -/

/-- The thread may be preempted: it holds no lock. -/
structure Gh.Free (g : Gh) (p : ProcId) : Prop where
  kind : g.kind = .busy
  held : g.held = fun _ => false
  spins : g.spins = none
  pick : g.pick = none
  mine : g.mine = .running
  know : g.know p = none ∨ g.know p = some .used
  noz : g.noz = false
  commit : g.commit = none

theorem ok_yield (hg : g.Free p) (hk : R () g) : OwnOk ncpu lk nz p (yield p) g R := by
  simp only [yield, Prog.perform_bind]
  refine ok_bind (ok_acquire hg.kind (.none fun m => by rw [hg.held]) (fun _ he => by cases he) ?_)
  have hl : (g.take (.proc p)).held = only p := by
    show update g.held _ true = _
    rw [hg.held]
    exact update_none
  refine ok_giveUp hg.kind (by rw [hl]; simp [only]) hg.mine ?_
  refine ok_sched hg.kind hl rfl (by simp) hg.noz hg.commit ?_
  refine ok_release_proc hg.kind rfl hg.pick rfl hg.know hg.noz hg.commit ?_
  have hback := Gh.drop_take (l := .proc p) hg.spins (by rw [hg.held])
  have hmine : { g.take (.proc p) with mine := .running } = g.take (.proc p) := by
    rw [← hg.mine]
    rfl
  rw [hmine, hback]
  exact hk

theorem ok_preempt (hg : g.Free p) (hk : R () g) : OwnOk ncpu lk nz p (preempt p) g R := by
  apply ok_ticks
  intro n
  induction n with
  | zero => exact hk
  | succ n ih => exact ok_bind (ok_yield hg ih)

/-- `acquire` of a thread that holds no lock. -/
theorem ok_acquire_free (hg : g.Free p) (hs : ∀ i, l ≠ .slk i)
    (hk : R () { g with held := single l }) : OwnOk ncpu lk nz p (acquire l) g R := by
  refine ok_acquire hg.kind (.none fun m => by rw [hg.held]) (fun i hi => absurd hi (hs i)) ?_
  have he : g.take l = { g with held := single l } := by
    rw [Gh.take, hg.held, update_none, ← hg.spins]
  rw [he]
  exact hk

theorem ok_release_free (hg : g.Free p) (hm : ∀ q, l = .proc q → g.know q = none ∨ g.know q = some .used)
    (hw : l = .wait → g.Unaware) (hd : ∀ i q, g.due (.cond i) q = false) (hl : g.last = none)
    (hk : R () g) : OwnOk ncpu lk nz p (release l) { g with held := single l } R := by
  refine ok_release hg.kind hg.spins hg.pick (fun _ _ _ => hg.mine) hm
    (fun h => ⟨(hw h).kid, (hw h).par, (hw h).rep, (hw h).woken, (hw h).scan, (hw h).due⟩)
    (.inl ⟨hg.noz, hg.commit⟩) ?_ (fun _ => hl) ?_
  · intro i q he
    change g.due (.cond i) q = true at he
    rw [hd] at he
    cases he
  · have he : ({ g with held := single l } : Gh).drop l = g := by
      show ({ g with held := update (single l) l false } : Gh) = g
      rw [update_single, ← hg.held]
    rw [he]
    exact hk

/-! ## Sleep and wakeup -/

/-- `sleep` of a thread that holds only the condition lock. -/
theorem ok_sleep {o : InodeId → ℕ} {w : Option InodeId} {f : InodeId → Bool} {y n : Bool}
    {co : Option ℕ} {ch : Chan} (hl : l.rank = 0) (hw : ch = .proc p → n)
    (hc : ∀ i, ch = .cond i → co = some i) (hr : ∀ i, l = .slk i → 1 ≤ (Gh.call o w f y).refs i)
    (hk : R () { Gh.call o w f y with held := single l }) :
    OwnOk ncpu lk nz p (sleep p ch l)
      { Gh.call o w f y with held := single l, noz := n, commit := co } R := by
  have hlp : ∀ r, l ≠ .proc r := by
    intro r he
    rw [he] at hl
    cases hl
  simp only [sleep, Prog.perform_bind]
  refine ok_bind (ok_acquire rfl (.single (by rw [hl]; exact Nat.one_pos)) (fun _ he => by cases he) ?_)
  refine ok_bind (ok_release rfl rfl rfl (fun r _ he => absurd he (hlp r))
    (fun r he => absurd he (hlp r)) (fun _ => ⟨rfl, rfl, fun _ => rfl, rfl, fun _ => rfl, fun _ _ => rfl⟩)
    (.inr ⟨p, rfl, update_self .., hlp p⟩) (fun _ _ he => by cases he) (fun _ => rfl) ?_)
  have hheld : update (update (single l) (.proc p) true) l false = only p :=
    update_swap (hlp p)
  refine ok_doze rfl ?_ rfl hw hc ?_
  · show update (update (single l) (.proc p) true) l false _ = true
    rw [hheld]
    simp [only]
  refine ok_sched rfl hheld rfl (by simp) rfl rfl ?_
  apply ok_tidy
  refine ok_bind (ok_release_proc rfl rfl rfl rfl (.inl rfl) rfl rfl ?_)
  have hnone : ({ Gh.call o w f y with
      held := update (update (update (single l) (.proc p) true) l false)
        (.proc p) false } : Gh) = Gh.call o w f y := by
    rw [hheld]
    exact congrArg (fun x => ({ Gh.call o w f y with held := x } : Gh)) update_single
  refine ok_congr hnone (ok_bind (ok_preempt ⟨rfl, rfl, rfl, rfl, rfl, .inl rfl, rfl, rfl⟩ ?_))
  refine ok_bind (ok_acquire rfl (.none fun _ => rfl) (fun i hi => ⟨p, rfl, hr i hi⟩) ?_)
  refine ok_awake ?_ ?_
  · exact update_self ..
  · show R () { Gh.call o w f y with held := update (fun _ => false) l true }
    rw [update_none]
    exact hk

/-- The thread holds only locks that may be held when the lock of a process is acquired. -/
structure Gh.Low (g : Gh) : Prop where
  kind : g.kind = .busy
  rank : ∀ l, g.held l → l.rank = 0
  spins : g.spins = none
  pick : g.pick = none
  mine : g.mine = .running
  know : ∀ q, g.know q = none
  noz : g.noz = false
  commit : g.commit = none

theorem Gh.Low.ordered (hg : g.Low) : Ordered g.held g.last (.proc q) := by
  intro m hm
  rw [hg.rank m hm]
  exact .inl Nat.one_pos

theorem Gh.Low.proc (hg : g.Low) (q : ProcId) : g.held (.proc q) = false := by
  cases h : g.held (.proc q) with
  | false => rfl
  | true => cases hg.rank _ h

theorem Gh.Low.woke (hg : g.Low) {ch : Option Chan} : (g.woke ch q).Low :=
  ⟨hg.kind, hg.rank, hg.spins, hg.pick, hg.mine, hg.know, hg.noz, hg.commit⟩

/-- What `wakeup` leaves to be woken, and that it has looked at the parent. -/
structure Woken (g g' : Gh) (ch : Option Chan) (l : List ProcId) : Prop where
  eq : g' = { g with due := g'.due, woken := g'.woken }
  due : ∀ ch' r, g'.due ch' r → g.due ch' r ∧ ¬ (ch = some ch' ∧ r ∈ l)
  keep : g.woken → g'.woken = true
  par : ∀ r ∈ l, g.par = some r → ch = some (.proc r) → g'.woken = true
  only : g'.woken → g.woken ∨ g.par ≠ none

/-- `wakeup`. The caller is not waiting for itself. -/
theorem ok_wakeupFrom {me : Option ProcId} {ch : Option Chan} {l : List ProcId} (hg : g.Low)
    (hme : ∀ q, t = .proc q → me = some q)
    (hdue : ∀ ch' q, ch = some ch' → me = some q → g.due ch' q = false)
    (hpar : ∀ q, me = some q → g.par ≠ some q) :
    PrOk lk nz t (wakeupFrom me ch l) g fun _ g' => Woken g g' ch l := by
  induction l generalizing g with
  | nil =>
    exact ⟨rfl, fun _ _ h => ⟨h, by simp⟩, id, fun _ h => by simp at h, .inl⟩
  | cons q l ih =>
    simp only [wakeupFrom, Prog.perform_bind]
    split
    · rename_i hq
      -- the caller itself: nothing is due, and it is not its own parent
      refine ok_mono (ih hg hdue hpar) ?_
      rintro - g' hw
      refine ⟨hw.eq, ?_, hw.keep, ?_, hw.only⟩
      · intro ch' r hr
        obtain ⟨h1, h2⟩ := hw.due ch' r hr
        refine ⟨h1, ?_⟩
        rintro ⟨hch, hmem⟩
        rcases List.mem_cons.1 hmem with he | hmem
        · rw [hdue ch' r hch (he ▸ hq)] at h1
          cases h1
        · exact h2 ⟨hch, hmem⟩
      · intro r hmem hr hch
        rcases List.mem_cons.1 hmem with he | hmem
        · exact absurd hr (hpar r (he ▸ hq))
        · exact hw.par r hmem hr hch
    · rename_i hq
      have hne : t ≠ .proc q := fun he => hq (hme q he)
      refine ok_bind (ok_acquire hg.kind hg.ordered (fun _ he => by cases he) ?_)
      refine ok_wake hg.kind hg.pick (update_self ..) hne ?_
      refine ok_bind (ok_release_proc hg.kind rfl hg.pick hg.mine (.inl (hg.know q)) hg.noz hg.commit ?_)
      have hback : ((g.take (.proc q)).woke ch q).drop (.proc q) = g.woke ch q := by
        have h := congrArg (fun x => x.woke ch q) (Gh.drop_take hg.spins (hg.proc q))
        exact h
      rw [hback]
      refine ok_mono (ih hg.woke ?_ hpar) ?_
      · intro ch' r hch hr
        show (if ch = some ch' ∧ r = q then false else g.due ch' r) = false
        split
        · rfl
        · exact hdue ch' r hch hr
      · rintro - g' hw
        refine ⟨hw.eq, ?_, ?_, ?_, ?_⟩
        · intro ch' r hr
          obtain ⟨h1, h2⟩ := hw.due ch' r hr
          change (if ch = some ch' ∧ r = q then false else g.due ch' r) = true at h1
          split at h1
          · cases h1
          · rename_i hno
            refine ⟨h1, ?_⟩
            rintro ⟨hch, hmem⟩
            rcases List.mem_cons.1 hmem with he | hmem
            · exact hno ⟨hch, he⟩
            · exact h2 ⟨hch, hmem⟩
        · intro hwk
          apply hw.keep
          simp [Gh.woke, hwk]
        · intro r hmem hr hch
          rcases List.mem_cons.1 hmem with he | hmem
          · apply hw.keep
            subst he
            simp [Gh.woke, hr, hch]
          · exact hw.par r hmem hr hch
        · intro hwk
          rcases hw.only hwk with h1 | h1
          · simp only [Gh.woke, Bool.or_eq_true, decide_eq_true_eq] at h1
            rcases h1 with h1 | h1
            · exact .inl h1
            · exact .inr (by simp [h1.1])
          · exact .inr h1

/-- `wakeup` of a thread that has to wake nobody on other channels. -/
theorem ok_wakeup {me : Option ProcId} {ch : Option Chan} (hg : g.Low)
    (hme : ∀ q, t = .proc q → me = some q) (hpar : ∀ q, me = some q → g.par ≠ some q)
    (hdue : ∀ ch' q, g.due ch' q → ch = some ch' ∧ me ≠ some q)
    (hk : ∀ w : Bool, (g.woken → w) → (w → g.woken ∨ g.par ≠ none) →
      (∀ r, g.par = some r → ch = some (.proc r) → w) →
      R () { g with due := fun _ _ => false, woken := w }) :
    PrOk lk nz t (wakeup me ch) g R := by
  refine ok_mono (ok_wakeupFrom hg hme ?_ hpar) ?_
  · intro ch' q _ hq
    cases h : g.due ch' q with
    | false => rfl
    | true => exact absurd hq (hdue ch' q h).2
  · rintro - g' hw
    have hnone : g'.due = fun _ _ => false := by
      funext ch' r
      cases h : g'.due ch' r with
      | false => rfl
      | true =>
        obtain ⟨h1, h2⟩ := hw.due ch' r h
        exact absurd ⟨(hdue ch' r h1).1, List.mem_finRange r⟩ h2
    rw [hw.eq, hnone]
    exact hk _ hw.keep hw.only fun r hr hch => hw.par r (List.mem_finRange r) hr hch

/-! ## The `killed` flag -/

theorem ok_killed {R : Bool → Gh → Prop} (hg : g.Low) (hk : ∀ b, R b { g with marked := b }) :
    OwnOk ncpu lk nz p (killed p) g R := by
  simp only [killed, Prog.perform_bind]
  refine ok_bind (ok_acquire hg.kind hg.ordered (fun _ he => by cases he) ?_)
  refine ok_getKilled hg.kind ?_
  intro b
  refine ok_bind (ok_release_proc hg.kind rfl hg.pick hg.mine (.inl (hg.know p)) hg.noz hg.commit ?_)
  have hback : ({ g.take (.proc p) with marked := b } : Gh).drop (.proc p) = { g with marked := b } := by
    have h := congrArg (fun x => ({ x with marked := b } : Gh)) (Gh.drop_take hg.spins (hg.proc p))
    exact h
  rw [hback]
  exact hk b

theorem ok_setkilled (hg : g.Low) (hk : R () g) : OwnOk ncpu lk nz p (setkilled p) g R := by
  simp only [setkilled, Prog.perform_bind]
  refine ok_bind (ok_acquire hg.kind hg.ordered (fun _ he => by cases he) ?_)
  refine ok_setKilled hg.mine ?_
  refine ok_release_proc hg.kind rfl hg.pick hg.mine (.inl (hg.know p)) hg.noz hg.commit ?_
  rw [Gh.drop_take hg.spins (hg.proc p)]
  exact hk

/-! ## Calls that hold no lock -/

section Calls

variable {o : InodeId → ℕ} {w : Option InodeId} {f : InodeId → Bool} {y : Bool}

theorem Gh.call_free : (Gh.call o w f y).Free p := ⟨rfl, rfl, rfl, rfl, rfl, .inl rfl, rfl, rfl⟩

theorem Gh.call_low : (Gh.call o w f y).Low :=
  ⟨rfl, (fun _ he => by cases he), rfl, rfl, rfl, fun _ => rfl, rfl, rfl⟩

theorem Gh.single_low (hl : l.rank = 0) : ({ Gh.call o w f y with held := single l } : Gh).Low := by
  refine ⟨rfl, ?_, rfl, rfl, rfl, fun _ => rfl, rfl, rfl⟩
  intro m hm
  have : m = l := by simpa [single] using hm
  rw [this, hl]

theorem ok_acquire_call (hs : ∀ i, l = .slk i → ∃ p, t = .proc p ∧ 1 ≤ (Gh.call o w f y).refs i)
    (hk : R () { Gh.call o w f y with held := single l }) :
    PrOk lk nz t (acquire l) (Gh.call o w f y) R := by
  refine ok_acquire rfl (.none fun _ => rfl) hs ?_
  show R () { Gh.call o w f y with held := update (fun _ => false) l true }
  rw [update_none]
  exact hk

theorem ok_release_call (hl : ∀ q, l ≠ .proc q) (hk : R () (Gh.call o w f y)) :
    PrOk lk nz t (release l) { Gh.call o w f y with held := single l } R := by
  refine ok_release rfl rfl rfl (fun r _ he => absurd he (hl r)) (fun r he => absurd he (hl r))
    (fun _ => ⟨rfl, rfl, fun _ => rfl, rfl, fun _ => rfl, fun _ _ => rfl⟩) (.inl ⟨rfl, rfl⟩)
    (fun _ _ he => by cases he) (fun _ => rfl) ?_
  show R () { Gh.call o w f y with held := update (single l) l false }
  rw [update_single]
  exact hk

theorem ok_release_proc_call (hk : R () (Gh.call o w f y)) :
    PrOk lk nz t (release (.proc q)) { Gh.call o w f y with held := single (.proc q) } R := by
  refine ok_release_proc rfl rfl rfl rfl (.inl rfl) rfl rfl ?_
  show R () { Gh.call o w f y with held := update (single (.proc q)) (.proc q) false }
  rw [update_single]
  exact hk

theorem Gh.refs_call (k : InodeId) : (Gh.call o w f y).refs k = o k + if w = some k then 1 else 0 :=
  rfl

/-! ## Conditions -/

theorem ok_awaitLoop {j : ℕ} {b : Bool} (n : ℕ) (hk : R () (Gh.call o w f y)) :
    OwnOk ncpu lk nz p (awaitLoop lk p j b n)
      { Gh.call o w f y with held := single (.cond (lk j)) } R := by
  induction n with
  | zero => exact ok_stop
  | succ n ih =>
    simp only [awaitLoop, Prog.perform_bind]
    refine ok_getCond rfl (by simp [single]) ?_ ?_
    · rw [if_pos rfl]
      cases b with
      | true =>
        apply ok_clearCond
        exact ok_release_call (by simp) hk
      | false => exact ok_release_call (by simp) hk
    · rw [if_neg (by simp)]
      exact ok_bind (ok_sleep rfl (by simp) (fun i hi => by cases hi; rfl) (by simp) ih)

theorem ok_await {j : ℕ} {b : Bool} (n : ℕ) (hk : R () (Gh.call o w f y)) :
    OwnOk ncpu lk nz p (await lk p j b n) (Gh.call o w f y) R :=
  ok_bind (ok_acquire_call (by simp) (ok_awaitLoop n hk))

theorem ok_signal {me : Option ProcId} {j : ℕ} (hme : ∀ r, me = some r ↔ t = .proc r)
    (hk : R () (Gh.call o w f y)) :
    PrOk lk nz t (signal lk me j) (Gh.call o w f y) R := by
  simp only [signal, Prog.perform_bind]
  refine ok_bind (ok_acquire_call (by simp) ?_)
  refine ok_setCond (m := me) rfl (by simp [single]) rfl rfl (fun r => (hme r).1) ?_
  have hlow := Gh.single_low (o := o) (w := w) (f := f) (l := .cond (lk j)) (y := y) rfl
  refine ok_bind (ok_wakeup
    ⟨rfl, hlow.rank, rfl, rfl, rfl, fun _ => rfl, rfl, rfl⟩ (fun q => (hme q).2)
    (by simp [Gh.signalled, Gh.call]) ?_ ?_)
  · intro ch' q hd
    simp only [Gh.signalled, Gh.call] at hd
    split at hd
    · rename_i hch
      exact ⟨by rw [hch.1], hch.2⟩
    · cases hd
  · intro v _ hv _
    have hv' : v = false := by
      cases v with
      | false => rfl
      | true => exact absurd (hv rfl) (by simp [Gh.signalled, Gh.call])
    subst hv'
    exact ok_release_call (by simp) hk

theorem ok_reset {j : ℕ} (hk : R () (Gh.call o w f y)) :
    OwnOk ncpu lk nz p (reset lk j) (Gh.call o w f y) R := by
  simp only [reset, Prog.perform_bind]
  refine ok_bind (ok_acquire_call (by simp) ?_)
  apply ok_clearCond
  exact ok_release_call (by simp) hk

/-! ## Sleep-locks -/

theorem ok_acquiresleepLoop (n : ℕ) (hr : 1 ≤ (Gh.call o w f y).refs i)
    (hk : R () (Gh.call o w (update f i true) y)) :
    OwnOk ncpu lk nz p (acquiresleepLoop p i n)
      { Gh.call o w f y with held := single (.slk i) } R := by
  induction n with
  | zero => exact ok_stop
  | succ n ih =>
    simp only [acquiresleepLoop, Prog.perform_bind]
    refine ok_tryLock rfl (by simp [single]) ?_ ?_
    · intro _
      rw [if_pos rfl]
      exact ok_release_call (by simp) hk
    · intro _
      rw [if_neg (by simp)]
      refine ok_bind (ok_sleep rfl (by simp) (by simp) ?_ ih)
      intro i' hi'
      cases hi'
      exact hr

theorem ok_acquiresleep (n : ℕ) (hr : 1 ≤ (Gh.call o w f y).refs i)
    (hk : R () (Gh.call o w (update f i true) y)) :
    OwnOk ncpu lk nz p (acquiresleep p i n) (Gh.call o w f y) R := by
  refine ok_bind (ok_acquire_call ?_ (ok_acquiresleepLoop n hr hk))
  intro i' hi'
  cases hi'
  exact ⟨p, rfl, hr⟩

theorem ok_releasesleep (hr : 1 ≤ (Gh.call o w f y).refs i) (hf : f i)
    (hk : R () (Gh.call o w (update f i false) y)) :
    OwnOk ncpu lk nz p (releasesleep p i) (Gh.call o w f y) R := by
  simp only [releasesleep, Prog.perform_bind]
  refine ok_bind (ok_acquire_call ?_ ?_)
  · intro i' hi'
    cases hi'
    exact ⟨p, rfl, hr⟩
  refine ok_unlock rfl hf ?_
  refine ok_bind (ok_wakeup (Gh.single_low (o := o) (w := w) (f := update f i false) rfl)
    (fun q he => by cases he; rfl) (by simp [Gh.call]) (by simp [Gh.call]) ?_)
  intro v _ hv _
  have hv' : v = false := by
    cases v with
    | false => rfl
    | true => exact absurd (hv rfl) (by simp [Gh.call])
  subst hv'
  exact ok_release_call (by simp) hk

theorem ok_holdingsleep {R : Bool → Gh → Prop} (hr : 1 ≤ (Gh.call o w f y).refs i)
    (hk : ∀ b, R b (Gh.call o w f y)) :
    OwnOk ncpu lk nz p (holdingsleep p i) (Gh.call o w f y) R := by
  simp only [holdingsleep, Prog.perform_bind]
  refine ok_bind (ok_acquire_call ?_ ?_)
  · intro i' hi'
    cases hi'
    exact ⟨p, rfl, hr⟩
  apply ok_getLocked
  intro b
  exact ok_bind (ok_release_call (by simp) (hk _))

theorem ok_iref (hk : R () (Gh.call (update o i (o i + 1)) w f y)) :
    OwnOk ncpu lk nz p (iref i) (Gh.call o w f y) R := by
  simp only [iref, Prog.perform_bind]
  refine ok_bind (ok_acquire_call (by simp) ?_)
  refine ok_refInc rfl (by simp [single]) rfl ?_
  exact ok_release_call (by simp) hk

theorem ok_ilock (n : ℕ) (hr : 1 ≤ (Gh.call o w f y).refs i)
    (hk : R () (Gh.call o w (update f i true) y)) :
    OwnOk ncpu lk nz p (ilock p i n) (Gh.call o w f y) R := by
  simp only [ilock, Prog.perform_bind]
  apply ok_getRef
  intro r
  split
  · exact ok_panic
  · exact ok_bind (ok_preempt Gh.call_free (ok_acquiresleep n hr hk))

theorem ok_iunlock (hr : 1 ≤ (Gh.call o w f y).refs i) (hf : f i)
    (hk : R () (Gh.call o w (update f i false) y)) :
    OwnOk ncpu lk nz p (iunlock p i) (Gh.call o w f y) R := by
  simp only [iunlock, Prog.perform_bind]
  refine ok_bind (ok_holdingsleep hr ?_)
  intro b
  apply ok_getRef
  intro r
  split
  · exact ok_panic
  · exact ok_bind (ok_preempt Gh.call_free (ok_releasesleep hr hf hk))

/-! ## Dropping a reference -/

/-- The ghost value of a thread that holds `itable.lock`, and may have seen that its process holds
the only reference. -/
abbrev Gh.table (o : InodeId → ℕ) (w : Option InodeId) (f : InodeId → Bool) (y : Bool)
    (x : Option InodeId) : Gh :=
  { Gh.call o w f y with held := single .itable, last := x }

/-- `acquiresleep` in `iput`, with `itable.lock` held: the inode is not locked. -/
theorem ok_acquiresleep_table (n : ℕ) (hr : 1 ≤ (Gh.call o w f y).refs i)
    (hsl : f i → 2 ≤ (Gh.call o w f y).refs i)
    (hk : f i = false → R () (Gh.table o w (update f i true) y (some i))) :
    OwnOk ncpu lk nz p (acquiresleep p i n) (Gh.table o w f y (some i)) R := by
  refine ok_bind (ok_acquire rfl ?_ ?_ ?_)
  · intro m hm
    have : m = .itable := by simpa [single] using hm
    rw [this]
    exact .inr ⟨rfl, i, rfl, rfl⟩
  · intro i' hi'
    cases hi'
    exact ⟨p, rfl, hr⟩
  cases n with
  | zero => exact ok_stop
  | succ n =>
    simp only [acquiresleepLoop, Prog.perform_bind]
    refine ok_tryLock rfl (update_self ..) ?_ ?_
    · intro hfi
      rw [if_pos rfl]
      refine ok_release rfl rfl rfl (by simp) (by simp) (by simp) (.inl ⟨rfl, rfl⟩)
        (fun _ _ he => by cases he) (by simp) ?_
      have hback : update (update (single .itable) (.slk i) true) (.slk i) false =
          single .itable := update_back (by simp [single])
      show R () { Gh.table o w (update f i true) y (some i) with
        held := update (update (single .itable) (.slk i) true) (.slk i) false }
      rw [hback]
      exact hk hfi
    · intro hlast
      obtain ⟨h1, h2⟩ := hlast rfl
      have h3 := hsl h1
      change (Gh.call o w f y).refs i = 1 at h2
      omega

/-- `iput`, where `dec` drops the reference. -/
theorem ok_iputWith {dec : Act} {o' : InodeId → ℕ} {w' : Option InodeId} (n : ℕ)
    (hr : 1 ≤ (Gh.call o w f y).refs i) (hsl : f i → 2 ≤ (Gh.call o w f y).refs i)
    (hdec : ∀ x (S : dec.Ret → Gh → Prop), (∀ b, S b (Gh.table o' w' f y none)) →
      OwnOk ncpu lk nz p (perform dec) (Gh.table o w f y x) S)
    (hk : R () (Gh.call o' w' f y)) :
    OwnOk ncpu lk nz p (iputWith dec p i n) (Gh.call o w f y) R := by
  have drop : ∀ x, OwnOk ncpu lk nz p (perform dec >>= fun _ => release .itable)
      (Gh.table o w f y x) R := by
    intro x
    refine ok_bind (hdec x _ ?_)
    intro b
    exact ok_release_call (by simp) hk
  simp only [iputWith]
  refine ok_bind (ok_acquire_call (by simp) ?_)
  refine ok_bind (ok_seeRef rfl rfl (by simp [single]) hr ?_ ?_)
  · refine ok_bind (ok_getDead ?_)
    intro dead
    show OwnOk ncpu lk nz p (if _ then _ else _) _ R
    split
    · refine ok_bind (ok_acquiresleep_table n hr hsl ?_)
      intro (hfi : f i = false)
      have hback : update (update f i true) i false = f := by
        rw [update_idem, ← hfi, update_eq_self]
      refine ok_bind (ok_shift (x := Gh.table o w (update f i true) y none) ?_
        (ok_release_call (by simp) ?_))
      · intro s G c h hg hc
        have := h.clearLast (p := p) (by rw [hg]; rfl) (by rw [hg]; rfl)
        rw [hg] at this
        exact this
      refine ok_bind (ok_preempt Gh.call_free ?_)
      refine ok_bind (ok_setDead ?_)
      refine ok_bind (ok_releasesleep hr (update_self ..) ?_)
      rw [hback]
      refine ok_bind (ok_preempt Gh.call_free ?_)
      refine ok_bind (ok_acquire_call (by simp) ?_)
      exact drop none
    · exact drop (some i)
  · intro r hne
    refine ok_bind (ok_getDead ?_)
    intro dead
    show OwnOk ncpu lk nz p (if _ then _ else _) _ R
    rw [if_neg (fun he => hne he.1)]
    exact drop none

theorem ok_iput (n : ℕ) (ho : 1 ≤ o i) (hsl : f i → 2 ≤ (Gh.call o w f y).refs i)
    (hk : R () (Gh.call (update o i (o i - 1)) w f y)) :
    OwnOk ncpu lk nz p (iput p i n) (Gh.call o w f y) R := by
  refine ok_iputWith n ?_ hsl ?_ hk
  · rw [Gh.refs_call]
    omega
  · intro x S hS
    exact ok_refDec rfl rfl (by simp [single]) (by simp [single]) ho hsl (hS ())

end Calls

end Xv6.Proc
