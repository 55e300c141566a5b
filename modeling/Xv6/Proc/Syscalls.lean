import Xv6.Proc.Calls

/-!
# The scheduler and the system calls
-/

namespace Xv6.Proc

open Function Xv6.Threads

variable {ncpu : ℕ} {lk : ℕ → ℕ} {nz : Bool} {t : Thr ncpu} {p q : ProcId}
  {R : Unit → Gh → Prop} {c : Fin ncpu} {i : InodeId}
  {o : InodeId → ℕ} {w : Option InodeId} {f : InodeId → Bool} {y : Bool}

/-! ## The scheduler -/

theorem ok_scanProcs (l : List ProcId) :
    PrOk lk nz (.sched c) (scanProcs l) (Gh.call o w f y) fun _ g => g = Gh.call o w f y := by
  induction l with
  | nil => exact rfl
  | cons q l ih =>
    have hrel : PrOk lk nz (.sched c) (release (.proc q) >>= fun _ => scanProcs l)
        { Gh.call o w f y with held := single (.proc q) } fun _ g => g = Gh.call o w f y := by
      exact ok_bind (ok_release_proc_call ih)
    simp only [scanProcs, Prog.perform_bind]
    refine ok_bind (ok_acquire_call (by simp) ?_)
    refine ok_pick rfl rfl rfl rfl ?_ ?_
    · rw [if_pos rfl]
      exact ok_clear rfl hrel
    · rw [if_neg (by simp)]
      exact hrel

theorem ok_forkret (hk : ∀ o w f, R () (Gh.call o w f false)) :
    OwnOk ncpu lk nz p (forkret p) (Gh.parked p) R := by
  simp only [forkret, Prog.perform_bind]
  apply ok_start
  intro o w f
  exact ok_release_proc_call (hk o w f)

/-! ## Kill -/

theorem ok_kkillFrom {pid : ℤ} (hnz : nz → pid ≠ 0) (l : List ProcId) :
    OwnOk ncpu lk nz p (kkillFrom p pid l) (Gh.call o w f y) fun _ g => g = Gh.call o w f y := by
  induction l with
  | nil => exact rfl
  | cons q l ih =>
    simp only [kkillFrom, Prog.perform_bind]
    refine ok_bind (ok_preempt Gh.call_free ?_)
    refine ok_bind (ok_acquire_call (by simp) ?_)
    refine ok_kill rfl (by simp [single]) rfl hnz ?_
    intro b
    refine ok_bind (ok_release_proc_call ?_)
    cases b with
    | true => exact rfl
    | false => exact ih

/-! ## Fork -/

/-- What is known of a slot that is being created. -/
def born (q : ProcId) : ProcId → Option PState := update (fun _ => none) q (some .used)

theorem born_none : update (born q) q none = fun _ => none := by
  rw [born, update_idem]
  exact update_eq_self q _

/-- `allocproc` returns a slot with its lock held, or none. -/
theorem ok_allocFound {m : Mem} {R : Option ProcId → Gh → Prop} (hn : R none (Gh.call o w f y))
    (hs : R (some q)
      { Gh.call o w f y with held := single (.proc q), know := born q, bare := some q }) :
    OwnOk ncpu lk nz p (allocFound m q)
      { Gh.call o w f y with
        held := single (.proc q), know := update (fun _ => none) q (some .unused) } R := by
  simp only [allocFound, Prog.perform_bind]
  refine ok_bind (ok_acquire rfl (.single Nat.one_lt_two) (by simp) ?_)
  apply ok_takePid
  intro pid
  refine ok_bind (ok_release rfl rfl rfl (by simp) (by simp) (by simp) (.inl ⟨rfl, rfl⟩)
    (fun _ _ he => by cases he) (by simp) ?_)
  have hheld : update (update (single (.proc q)) .pid true) .pid false =
      single (.proc q) := update_back (by simp [single])
  refine ok_congr (x := { Gh.call o w f y with
    held := single (.proc q), know := update (fun _ => none) q (some .unused) }) ?_ ?_
  · exact congrArg (fun x => ({ Gh.call o w f y with
      held := x, know := update (fun _ => none) q (some .unused) } : Gh)) hheld
  refine ok_setUsed rfl rfl (by simp [single]) (by simp) rfl rfl ?_
  have hborn : update (update (fun _ => none) q (some PState.unused)) q
      (some .used) = born q := update_idem ..
  refine ok_congr (x := { Gh.call o w f y with
    held := single (.proc q), know := born q, bare := some q }) ?_ ?_
  · exact congrArg (fun x => ({ Gh.call o w f y with
      held := single (.proc q), know := x, bare := some q } : Gh)) hborn
  split
  · refine ok_free rfl rfl (by simp [single]) (by simp [born]) rfl rfl rfl ?_
    refine ok_bind (ok_release_proc rfl rfl rfl rfl (.inl (by simp)) rfl rfl ?_)
    have hback : ({ Gh.call o w f y with
        held := update (single (.proc q)) (.proc q) false,
        know := update (born q) q none } : Gh) = Gh.call o w f y := by
      rw [update_single, born_none]
      rfl
    exact (congrArg (R none) hback).mpr hn
  · exact ok_setContext (by simp [born]) hs

theorem ok_allocFrom {m : Mem} {R : Option ProcId → Gh → Prop}
    (hn : R none (Gh.call o w f y))
    (hs : ∀ q, R (some q)
      { Gh.call o w f y with held := single (.proc q), know := born q, bare := some q })
    (l : List ProcId) :
    OwnOk ncpu lk nz p (allocFrom p m l) (Gh.call o w f y) R := by
  induction l with
  | nil => exact hn
  | cons q l ih =>
    simp only [allocFrom, Prog.perform_bind]
    refine ok_bind (ok_preempt Gh.call_free ?_)
    refine ok_bind (ok_acquire_call (by simp) ?_)
    refine ok_isUnused rfl (by simp [single]) rfl rfl rfl ?_ ?_
    · rw [if_pos rfl]
      exact ok_allocFound hn (hs q)
    · rw [if_neg (by simp)]
      exact ok_bind (ok_release_proc_call ih)

theorem ok_kfork {m : Mem} (hk : R () (Gh.call o w f y)) :
    OwnOk ncpu lk nz p (kfork p m) (Gh.call o w f y) R := by
  simp only [kfork, Prog.perform_bind]
  refine ok_bind (ok_allocFrom hk ?_ _)
  intro q
  -- the slot is not that of the process itself, which runs
  show OwnOk ncpu lk nz p (if m.memory = true then _ else _) _ R
  split
  · refine ok_bind (ok_acquire rfl (.single Nat.one_lt_two) (by simp) ?_)
    refine ok_dupCwd (q := q) rfl (by simp [Gh.take]) rfl rfl ?_
    refine ok_bind (ok_release rfl rfl rfl (by simp) (by simp) (by simp) (.inl ⟨rfl, rfl⟩)
      (fun _ _ he => by cases he) (fun _ => rfl) ?_)
    refine ok_bind (ok_release_proc rfl rfl rfl rfl (.inr (by simp [Gh.take, Gh.drop, born])) rfl rfl ?_)
    have hheld : update (update (update (single (.proc q)) .itable true)
        .itable false) (.proc q) false = fun _ => false := by
      rw [update_back (by simp [single]), update_single]
    refine ok_congr (x := { Gh.call o w f y with know := born q }) ?_ ?_
    · exact congrArg (fun x => ({ Gh.call o w f y with held := x, know := born q } : Gh)) hheld
    have hknow : ∀ r, born q r = none ∨ born q r = some .used := by
      intro r
      by_cases hr : r = q <;> simp [born, hr]
    have hfree : ({ Gh.call o w f y with know := born q } : Gh).Free p :=
      ⟨rfl, rfl, rfl, rfl, rfl, hknow p, rfl, rfl⟩
    have hfree' : ({ Gh.call o w f y with know := born q, child := some q } : Gh).Free p :=
      ⟨rfl, rfl, rfl, rfl, rfl, hknow p, rfl, rfl⟩
    refine ok_bind (ok_preempt hfree ?_)
    refine ok_bind (ok_acquire_free hfree (by simp) ?_)
    refine ok_setParent (q := q) rfl rfl (by simp [single]) (by simp [born]) rfl (fun _ => rfl) ?_
    refine ok_bind (ok_release_free hfree' (by simp)
      (fun _ => ⟨rfl, rfl, fun _ => rfl, rfl, fun _ => rfl, fun _ _ => rfl⟩) (fun _ _ => rfl) rfl ?_)
    refine ok_bind (ok_preempt hfree' ?_)
    refine ok_bind (ok_acquire_free hfree' (by simp) ?_)
    refine ok_setRunnable rfl rfl (by simp [single]) rfl rfl rfl ?_
    refine ok_congr (x := { Gh.call o w f y with held := single (.proc q) }) ?_ ?_
    · exact congrArg (fun x => ({ Gh.call o w f y with held := single (.proc q), know := x } : Gh))
        born_none
    exact ok_release_proc_call hk
  · refine ok_free rfl rfl (by simp [single]) (by simp [born]) rfl rfl rfl ?_
    refine ok_release_proc rfl rfl rfl rfl (.inl (by simp)) rfl rfl ?_
    have hback : ({ Gh.call o w f y with
        held := update (single (.proc q)) (.proc q) false,
        know := update (born q) q none } : Gh) = Gh.call o w f y := by
      rw [update_single, born_none]
      rfl
    exact (congrArg (R ()) hback).mpr hk

/-! ## Exit -/

theorem ok_closeFrom (n : ℕ) (l : List InodeId) :
    OwnOk ncpu lk nz p (closeFrom p n l) (Gh.call o w (fun _ => false) y)
      fun _ g => ∃ o', g = Gh.call o' w (fun _ => false) y := by
  induction l generalizing o with
  | nil => exact ⟨o, rfl⟩
  | cons i l ih =>
    simp only [closeFrom, Prog.perform_bind]
    refine ok_getOwn rfl ?_
    -- before round `j`, as many references are left as rounds
    refine ok_bind (ok_mono (ok_loop (fun j g => ∃ o', o' i + j = o i ∧
      g = Gh.call o' w (fun _ => false) y) ?_ ⟨o, rfl, rfl⟩) ?_)
    · rintro j hj - ⟨o', ho', rfl⟩
      change j < o i at hj
      refine ok_bind (ok_preempt Gh.call_free ?_)
      refine ok_iput n (by omega) (fun he => by cases he) ⟨_, ?_, rfl⟩
      rw [update_self]
      omega
    · rintro - - ⟨o', -, rfl⟩
      exact ih

theorem ok_closeCwd (n : ℕ) (hk : R () (Gh.call o none (fun _ => false) y)) :
    OwnOk ncpu lk nz p (closeCwd p n) (Gh.call o w (fun _ => false) y) R := by
  simp only [closeCwd, Prog.perform_bind]
  refine ok_getCwd rfl ?_
  cases w with
  | none => exact hk
  | some i =>
    refine ok_iputWith n ?_ (fun he => by cases he) ?_ hk
    · rw [Gh.refs_call, if_pos rfl]
      omega
    · intro x S hS
      exact ok_dropCwd rfl rfl (by simp [single]) (by simp [single]) rfl (fun he => by cases he)
        (hS ())

/-- The ghost value of an exiting process that holds `wait_lock`. -/
abbrev Gh.leaving (o : InodeId → ℕ) (y : Bool) (rep : ProcId → Bool) : Gh :=
  { Gh.call o none (fun _ => false) y with held := single .wait, rep := rep }

theorem ok_reparentFrom (hi : p ≠ initproc) {x : ProcId → Bool} (l : List ProcId) :
    OwnOk ncpu lk nz p (reparentFrom p l) (Gh.leaving o y x)
      fun _ g => ∃ x', g = Gh.leaving o y x' ∧ ∀ q, x q ∨ q ∈ l → x' q := by
  induction l generalizing x with
  | nil => exact ⟨x, rfl, fun q hq => hq.resolve_right (by simp)⟩
  | cons r l ih =>
    have next : ∀ g, (∃ x', g = Gh.leaving o y x' ∧
        ∀ q, update x r true q ∨ q ∈ l → x' q) →
        ∃ x', g = Gh.leaving o y x' ∧ ∀ q, x q ∨ q ∈ r :: l → x' q := by
      rintro g ⟨x', hg, hx'⟩
      refine ⟨x', hg, ?_⟩
      intro q hq
      by_cases hqr : q = r
      · exact hx' q (.inl (by rw [hqr, update_self]))
      · refine hx' q ?_
        rw [update_of_ne hqr]
        exact hq.imp_right fun hmem => (List.mem_cons.1 hmem).resolve_left hqr
    simp only [reparentFrom, Prog.perform_bind]
    refine ok_adopt rfl hi (by simp [single]) rfl rfl rfl ?_ ?_
    · rw [if_pos rfl]
      have hlow := Gh.single_low (o := o) (w := none) (f := fun _ => false) (l := .wait) (y := y) rfl
      refine ok_bind (ok_wakeup ⟨rfl, hlow.rank, rfl, rfl, rfl, fun _ => rfl, rfl, rfl⟩
        (fun q he => by cases he; rfl) (by simp [Gh.adopted, Gh.call]) ?_ ?_)
      · intro ch q hd
        simp only [Gh.adopted, Gh.call] at hd
        split at hd
        · rename_i hch
          exact ⟨by rw [hch.1], by simpa using Ne.symm hch.2⟩
        · cases hd
      · intro v _ hv _
        have hv' : v = false := by
          cases v with
          | false => rfl
          | true => exact absurd (hv rfl) (by simp [Gh.adopted, Gh.call])
        subst hv'
        exact ok_mono ih fun _ => next
    · rw [if_neg (by simp)]
      exact ok_mono ih fun _ => next

/-- `kexit`, called without a sleep-lock. -/
theorem ok_kexit {n : ℕ} {status : ℤ} (hk : R () (Gh.parked p)) :
    OwnOk ncpu lk nz p (kexit p n status) (Gh.call o w (fun _ => false) y) R := by
  unfold kexit
  split
  · exact ok_panic
  · rename_i hi
    refine ok_bind (ok_mono (ok_closeFrom n _) ?_)
    rintro - - ⟨o', rfl⟩
    refine ok_bind (ok_preempt Gh.call_free ?_)
    refine ok_bind (ok_closeCwd n ?_)
    refine ok_bind (ok_preempt Gh.call_free ?_)
    refine ok_bind (ok_acquire_call (by simp) ?_)
    refine ok_bind (ok_mono (ok_reparentFrom hi (List.finRange nproc)) ?_)
    rintro - - ⟨x, rfl, hx⟩
    have hrep : ∀ q, x q := fun q => hx q (.inr (List.mem_finRange q))
    simp only [Prog.perform_bind]
    refine ok_getParent rfl hi (by simp [single]) rfl ?_
    intro r hr
    have hlow := Gh.single_low (o := o') (w := none) (f := fun _ => false) (l := .wait) (y := y) rfl
    refine ok_bind (ok_wakeup ⟨rfl, hlow.rank, rfl, rfl, rfl, fun _ => rfl, rfl, rfl⟩
      (fun q he => by cases he; rfl) ?_ (by simp [Gh.call]) ?_)
    · intro q hq
      cases hq
      simpa using hr
    intro v _ _ hv
    have hv' : v := hv r rfl rfl
    subst hv'
    refine ok_bind (ok_acquire rfl (.single Nat.one_pos) (by simp) ?_)
    refine ok_die rfl hi (by simp [Gh.take, single]) (by simp [Gh.take]) rfl hrep rfl rfl ?_
    refine ok_bind (ok_shift (x := { Gh.call o' none (fun _ => false) y with
      held := update (single .wait) (.proc p) true, mine := .zombie }) ?_ ?_)
    · intro s G c h hg hc
      have := h.forget (p := p) (by rw [hg]; rfl)
      rw [hg] at this
      exact this
    refine ok_release rfl rfl rfl (by simp) (by simp)
      (fun _ => ⟨rfl, rfl, fun _ => rfl, rfl, fun _ => rfl, fun _ _ => rfl⟩) (.inl ⟨rfl, rfl⟩)
      (fun _ _ he => by cases he) (by simp) ?_
    refine ok_congr (x := { Gh.call o' none (fun _ => false) y with
      held := only p, mine := .zombie }) ?_ (ok_exit hk)
    exact congrArg (fun x => ({ Gh.call o' none (fun _ => false) y with
      held := x, mine := .zombie } : Gh)) (update_swap (by simp))

/-! ## Wait -/

/-- The ghost value of a process that holds `wait_lock` in `kwait`. -/
abbrev Gh.waiting (o : InodeId → ℕ) (w : Option InodeId) (f : InodeId → Bool) (y : Bool)
    (x : ProcId → Bool) : Gh :=
  { Gh.call o w f y with held := single .wait, scan := x }

/-- `release` of `wait_lock` at the end of `kwait`. -/
theorem ok_release_wait {x : ProcId → Bool} {r : Option ProcId} (hk : R () (Gh.call o w f y)) :
    OwnOk ncpu lk nz p (release .wait) { Gh.waiting o w f y x with kid := r } R := by
  refine ok_shift (x := { Gh.call o w f y with held := single .wait }) ?_
    (ok_release_call (by simp) hk)
  intro s G c h hg hc
  have := h.forget (p := p) (by rw [hg]; rfl)
  rw [hg] at this
  exact this

theorem ok_waitScan {copy : Bool} {kids : Bool} {x : ProcId → Bool} (l : List ProcId) :
    OwnOk ncpu lk nz p (waitScan p copy kids l) (Gh.waiting o w f y x) fun r g =>
      match r with
      | .returned => g = Gh.call o w f y
      | .none _ => ∃ x', g = Gh.waiting o w f y x' ∧ ∀ q, x q ∨ q ∈ l → x' q := by
  induction l generalizing kids x with
  | nil => exact ⟨x, rfl, fun q hq => hq.resolve_right (by simp)⟩
  | cons r l ih =>
    have next : ∀ kids, OwnOk ncpu lk nz p (waitScan p copy kids l)
        (Gh.waiting o w f y (update x r true)) fun res g =>
          match res with
          | .returned => g = Gh.call o w f y
          | .none _ => ∃ x', g = Gh.waiting o w f y x' ∧
            ∀ q, x q ∨ q ∈ r :: l → x' q := by
      intro kids
      refine ok_mono ih ?_
      rintro (_ | _) g hg
      · exact hg
      · obtain ⟨x', hg, hx'⟩ := hg
        refine ⟨x', hg, ?_⟩
        intro q hq
        by_cases hqr : q = r
        · exact hx' q (.inl (by rw [hqr, update_self]))
        · refine hx' q ?_
          rw [update_of_ne hqr]
          exact hq.imp_right fun hmem => (List.mem_cons.1 hmem).resolve_left hqr
    have hheld : update (update (single .wait) (.proc r) true) (.proc r) false =
        single .wait := update_back (by simp [single])
    have hnone : update (update (fun _ => none) r (some PState.zombie)) r none =
        fun _ => none := by
      rw [update_idem]
      exact update_eq_self r _
    simp only [waitScan, Prog.perform_bind]
    refine ok_isChild rfl (by simp [single]) ?_ ?_
    · intro hne
      rw [if_pos rfl]
      refine ok_bind (ok_acquire rfl (.single Nat.one_pos) (by simp) ?_)
      refine ok_isZombie rfl (by simp [Gh.take, single]) (by simp [Gh.take]) hne rfl rfl ?_ ?_
      · -- a zombie: `kwait` returns
        intro pid status
        have hback : ({ Gh.call o w f y with
            held := update (update (single .wait) (.proc r) true) (.proc r) false
            know := update (update (fun _ => none) r (some PState.zombie)) r none
            scan := x } : Gh) = Gh.waiting o w f y x := by
          rw [hheld, hnone]
          rfl
        show OwnOk ncpu lk nz p (if copy = true then _ else _) _ _
        split
        · refine ok_reap rfl rfl (by simp [Gh.take]) rfl rfl rfl ?_
          refine ok_bind (ok_release_proc rfl rfl rfl rfl (.inl (by simp)) rfl rfl ?_)
          exact ok_congr hback (ok_bind (ok_release_wait (r := none) rfl))
        · refine ok_waitFail rfl rfl ?_
          refine ok_bind (ok_release_proc rfl rfl rfl rfl (.inl (by simp)) rfl rfl ?_)
          exact ok_congr hback (ok_bind (ok_release_wait (r := none) rfl))
      · refine ok_bind (ok_release_proc rfl rfl rfl rfl (.inl rfl) rfl rfl ?_)
        refine ok_congr (x := Gh.waiting o w f y (update x r true)) ?_ (next true)
        exact congrArg (fun h => ({ Gh.call o w f y with
          held := h, scan := update x r true } : Gh)) hheld
    · rw [if_neg (by simp)]
      exact next kids

theorem ok_waitLoop {copy : Bool} (n : ℕ) (hk : ∀ y, R () (Gh.call o w f y)) :
    OwnOk ncpu lk nz p (waitLoop p copy n) (Gh.waiting o w f y fun _ => false) R := by
  induction n generalizing y with
  | zero => exact ok_stop
  | succ n ih =>
    unfold waitLoop
    refine ok_bind (ok_mono (ok_waitScan (List.finRange nproc)) ?_)
    rintro (_ | kids) g hg
    · subst hg
      exact hk y
    · obtain ⟨x, rfl, hx⟩ := hg
      have hscan : ∀ q, x q := fun q => hx q (.inr (List.mem_finRange q))
      have hlow := Gh.single_low (o := o) (w := w) (f := f) (l := .wait) (y := y) rfl
      show OwnOk ncpu lk nz p (if kids = true then _ else _) _ _
      split
      · refine ok_bind (ok_killed ⟨rfl, hlow.rank, rfl, rfl, rfl, fun _ => rfl, rfl, rfl⟩ ?_)
        intro b
        show OwnOk ncpu lk nz p (if b = true then _ else _) _ _
        split
        · exact ok_release_wait (r := none) (hk b)
        · refine ok_bind (ok_shift (x := { Gh.waiting o w f b (fun _ => false) with noz := true }) ?_
            (ok_sleep rfl (fun _ => rfl) (by simp) (by simp) ih))
          intro s G c h hg hc
          have := h.setNoz (p := p) hc (by rw [hg]; rfl) (by rw [hg]; simp [single])
            (by rw [hg]; exact hscan)
          rw [hg] at this
          exact this
      · exact ok_release_wait (r := none) (hk y)

theorem ok_kwait {copy : Bool} (n : ℕ) (hk : ∀ y, R () (Gh.call o w f y)) :
    OwnOk ncpu lk nz p (kwait p copy n) (Gh.call o w f y) R :=
  ok_bind (ok_preempt Gh.call_free (ok_bind (ok_acquire_call (by simp) (ok_waitLoop n hk))))

/-! ## Traps -/

theorem ok_ifKilled {n : ℕ} {rest : P Unit} (hp : R () (Gh.parked p))
    (hk : OwnOk ncpu lk nz p rest (Gh.call o w (fun _ => false) false) R) :
    OwnOk ncpu lk nz p (do
      let k ← killed p
      if k then do
        perform .noteKilled
        kexit p n (-1)
      else rest) (Gh.call o w (fun _ => false) y) R := by
  refine ok_bind (ok_killed Gh.call_low ?_)
  intro b
  cases b with
  | true => exact ok_noteKilled rfl (ok_kexit hp)
  | false => exact hk

theorem ok_exitIfKilled {n : ℕ} (hp : R () (Gh.parked p))
    (hk : R () (Gh.call o w (fun _ => false) false)) :
    OwnOk ncpu lk nz p (exitIfKilled p n) (Gh.call o w (fun _ => false) y) R :=
  ok_bind (ok_preempt Gh.call_free (ok_ifKilled hp hk))

theorem ok_syscall {x : Syscall} (hx : nz → x ≠ .kill 0)
    (hk : ∀ y, R () (Gh.call o w f y)) :
    OwnOk ncpu lk nz p (syscall p x) (Gh.call o w f y) R := by
  cases x with
  | fork m => exact ok_kfork (hk y)
  | exit status => exact hk y
  | wait copy n => exact ok_kwait n hk
  | kill pid =>
    refine ok_bind (ok_mono (ok_kkillFrom ?_ _) ?_)
    · rintro hn rfl
      exact hx hn rfl
    · rintro - - rfl
      exact hk y

theorem ok_usertrap {n : ℕ} {x : Syscall} (hx : nz → x ≠ .kill 0)
    (hp : R () (Gh.parked p)) (hk : ∀ y, R () (Gh.call o w (fun _ => false) y)) :
    OwnOk ncpu lk nz p (usertrap p n x) (Gh.call o w (fun _ => false) y) R := by
  refine ok_ifKilled hp ?_
  have back : OwnOk ncpu lk nz p (syscall p x >>= fun _ => exitIfKilled p n)
      (Gh.call o w (fun _ => false) false) R :=
    ok_bind (ok_syscall hx fun _ => ok_exitIfKilled hp (hk false))
  cases x with
  | exit status => exact ok_kexit hp
  | fork m => exact back
  | wait copy n => exact back
  | kill pid => exact back

end Xv6.Proc
