import Xv6.Threads.Prog

/-!
# Programs that run alone

One thread runs a program to its end while no other thread takes a step. `solo` is the result of
such a run and `trail` the states it passes through, which are the states a crash can leave behind.
`Runs I p s Q` says that `p` returns from `s` with `Q` and that every state on the way satisfies `I`.
`Ends p s Q E` allows panics with `E`. `ghost` adds a value to the state that every action updates
and none reads.
-/

namespace Xv6.Threads

variable {T A σ γ α β : Type} {R : A → Type}

section

variable (exec : (a : A) → T → σ → Outcome σ (R a)) (t : T)

/-- The result of a program, if no action of it waits or panics. -/
def solo : Prog A R α → σ → Option (α × σ)
  | .ret x, s => some (x, s)
  | .act a k, s =>
    match exec a t s with
    | .done b s' => solo (k b) s'
    | _ => none

/-- The states that a program passes through. -/
def trail : Prog A R α → σ → List σ
  | .ret _, s => [s]
  | .act a k, s => s ::
    match exec a t s with
    | .done b s' => trail (k b) s'
    | _ => []

/-- `p` returns from `s` with `Q`, and every state it passes through satisfies `I`. -/
def Runs (I : σ → Prop) : Prog A R α → σ → (α → σ → Prop) → Prop
  | .ret x, s, Q => I s ∧ Q x s
  | .act a k, s, Q => I s ∧ ∃ b s', exec a t s = .done b s' ∧ Runs I (k b) s' Q

end

variable {exec : (a : A) → T → σ → Outcome σ (R a)} {t : T} {I : σ → Prop} {s : σ}

theorem Runs.solo {p : Prog A R α} {Q : α → σ → Prop} (h : Runs exec t I p s Q) :
    ∃ x s', solo exec t p s = some (x, s') ∧ Q x s' := by
  induction p generalizing s with
  | ret x => exact ⟨x, s, rfl, h.2⟩
  | act a k ih =>
    obtain ⟨-, b, s', he, hk⟩ := h
    simp only [Threads.solo, he]
    exact ih b hk

theorem Runs.trail {p : Prog A R α} {Q : α → σ → Prop} (h : Runs exec t I p s Q) :
    ∀ s' ∈ trail exec t p s, I s' := by
  induction p generalizing s with
  | ret x =>
    intro s' hs'
    rw [List.mem_singleton.1 hs']
    exact h.1
  | act a k ih =>
    obtain ⟨hI, b, s₁, he, hk⟩ := h
    intro s' hs'
    simp only [Threads.trail, he] at hs'
    rcases List.mem_cons.1 hs' with rfl | hs'
    · exact hI
    · exact ih b hk s' hs'

theorem Runs.mono {p : Prog A R α} {Q Q' : α → σ → Prop} (h : Runs exec t I p s Q)
    (hQ : ∀ x s', Q x s' → Q' x s') : Runs exec t I p s Q' := by
  induction p generalizing s with
  | ret x => exact ⟨h.1, hQ x s h.2⟩
  | act a k ih =>
    obtain ⟨hI, b, s', he, hk⟩ := h
    exact ⟨hI, b, s', he, ih b hk⟩

theorem Runs.bind {p : Prog A R α} {f : α → Prog A R β} {Q : β → σ → Prop}
    (h : Runs exec t I p s fun x s' => Runs exec t I (f x) s' Q) :
    Runs exec t I (p >>= f) s Q := by
  induction p generalizing s with
  | ret x => exact h.2
  | act a k ih =>
    obtain ⟨hI, b, s', he, hk⟩ := h
    exact ⟨hI, b, s', he, ih b hk⟩

/-- The loop rule: `J i` holds of the state before round `i`. -/
theorem Runs.loop {n : ℕ} {body : ℕ → Prog A R Unit} (J : ℕ → σ → Prop)
    (hI : ∀ i s, J i s → I s)
    (hbody : ∀ i < n, ∀ s, J i s → Runs exec t I (body i) s fun _ s' => J (i + 1) s')
    (hs : J 0 s) : Runs exec t I (Prog.loop n body) s fun _ s' => J n s' := by
  have key : ∀ m i s, i + m = n → J i s →
      Runs exec t I (Prog.loop.go body i m) s fun _ s' => J n s' := by
    intro m
    induction m with
    | zero =>
      intro i s hi hJ
      rw [Nat.add_zero] at hi
      exact ⟨hI i s hJ, hi ▸ hJ⟩
    | succ m ih =>
      intro i s hi hJ
      refine Runs.bind (Runs.mono (hbody i (by omega) s hJ) fun _ s' hJ' => ?_)
      exact ih (i + 1) s' (by omega) hJ'
  exact key n 0 s (by omega) hs

/-! ## Programs that may panic -/

/-- `p` returns from `s` with `Q`, or panics with `E`; it does not wait. -/
def Ends (exec : (a : A) → T → σ → Outcome σ (R a)) (t : T) :
    Prog A R α → σ → (α → σ → Prop) → (String → σ → Prop) → Prop
  | .ret x, s, Q, _ => Q x s
  | .act a k, s, Q, E =>
    match exec a t s with
    | .wait => False
    | .panic m => E m s
    | .done b s' => Ends exec t (k b) s' Q E

section

variable {p : Prog A R α} {Q Q' : α → σ → Prop} {E E' : String → σ → Prop}

theorem Runs.ends (h : Runs exec t I p s Q) : Ends exec t p s Q E := by
  induction p generalizing s with
  | ret x => exact h.2
  | act a k ih =>
    obtain ⟨-, b, s', he, hk⟩ := h
    unfold Ends
    rw [he]
    exact ih b hk

theorem Ends.mono (h : Ends exec t p s Q E) (hQ : ∀ x s', Q x s' → Q' x s')
    (hE : ∀ m s', E m s' → E' m s') : Ends exec t p s Q' E' := by
  induction p generalizing s with
  | ret x => exact hQ x s h
  | act a k ih =>
    unfold Ends at h ⊢
    cases he : exec a t s with
    | wait => rwa [he] at h
    | panic m =>
      rw [he] at h
      exact hE m s h
    | done b s' =>
      rw [he] at h
      exact ih b h

theorem Ends.bind {f : α → Prog A R β} {Q : β → σ → Prop}
    (h : Ends exec t p s (fun x s' => Ends exec t (f x) s' Q E) E) :
    Ends exec t (p >>= f) s Q E := by
  induction p generalizing s with
  | ret x => exact h
  | act a k ih =>
    show Ends exec t (.act a fun b => k b >>= f) s Q E
    unfold Ends at h ⊢
    cases he : exec a t s with
    | wait => rwa [he] at h
    | panic m => rwa [he] at h
    | done b s' =>
      rw [he] at h
      exact ih b h

theorem Ends.act {a : A} {b : R a} {k : R a → Prog A R α} {s' : σ} (he : exec a t s = .done b s')
    (h : Ends exec t (k b) s' Q E) : Ends exec t (.act a k) s Q E := by
  unfold Ends
  rw [he]
  exact h

theorem Ends.panics {a : A} {k : R a → Prog A R α} {m : String} (he : exec a t s = .panic m)
    (h : E m s) : Ends exec t (.act a k) s Q E := by
  unfold Ends
  rw [he]
  exact h

/-- The result, if the program returns. -/
theorem Ends.solo (h : Ends exec t p s Q E) {x : α} {s' : σ}
    (hs : Threads.solo exec t p s = some (x, s')) : Q x s' := by
  induction p generalizing s with
  | ret y =>
    obtain ⟨rfl, rfl⟩ := Prod.mk.inj (Option.some.inj hs)
    exact h
  | act a k ih =>
    unfold Ends at h
    unfold Threads.solo at hs
    cases he : exec a t s with
    | wait =>
      rw [he] at hs
      cases hs
    | panic m =>
      rw [he] at hs
      cases hs
    | done b s₁ =>
      rw [he] at h hs
      exact ih b h hs

theorem Ends.returns (h : Ends exec t p s Q fun _ _ => False) :
    ∃ x s', Threads.solo exec t p s = some (x, s') ∧ Q x s' := by
  induction p generalizing s with
  | ret x => exact ⟨x, s, rfl, h⟩
  | act a k ih =>
    unfold Ends at h
    unfold Threads.solo
    cases he : exec a t s with
    | wait =>
      rw [he] at h
      exact h.elim
    | panic m =>
      rw [he] at h
      exact h.elim
    | done b s' =>
      rw [he] at h
      exact ih b h

end

/-! ## Ghost values -/

/-- `exec` on a state with a ghost value, to which `f` is applied at every action. -/
def ghost (exec : (a : A) → T → σ → Outcome σ (R a)) (f : (a : A) → R a → γ → γ) :
    (a : A) → T → σ × γ → Outcome (σ × γ) (R a) := fun a t s =>
  match exec a t s.1 with
  | .wait => .wait
  | .panic m => .panic m
  | .done b s' => .done b (s', f a b s.2)

variable {f : (a : A) → R a → γ → γ} {g : γ}

theorem ghost_done {a : A} {b : R a} {s' : σ} (h : exec a t s = .done b s') :
    ghost exec f a t (s, g) = .done b (s', f a b g) := by
  simp only [ghost, h]

theorem ghost_panic {a : A} {m : String} (h : exec a t s = .panic m) :
    ghost exec f a t (s, g) = .panic m := by
  simp only [ghost, h]

/-- The ghost value does not change the run. -/
theorem solo_ghost (p : Prog A R α) (s : σ) (g : γ) :
    Threads.solo exec t p s =
      (Threads.solo (ghost exec f) t p (s, g)).map fun r => (r.1, r.2.1) := by
  induction p generalizing s g with
  | ret y => rfl
  | act a k ih =>
    simp only [Threads.solo, ghost]
    cases exec a t s with
    | wait => rfl
    | panic m => rfl
    | done b s₁ => exact ih b s₁ _

theorem Ends.of_ghost {p : Prog A R α} {Q : α → σ → Prop} {E : String → σ → Prop}
    (h : Ends (ghost exec f) t p (s, g) (fun x s' => Q x s'.1) fun m s' => E m s'.1) :
    Ends exec t p s Q E := by
  induction p generalizing s g with
  | ret x => exact h
  | act a k ih =>
    unfold Ends at h ⊢
    cases he : exec a t s with
    | wait =>
      simp only [ghost, he] at h
    | panic m =>
      simp only [ghost, he] at h
      exact h
    | done b s' =>
      simp only [ghost, he] at h
      exact ih b h

theorem Runs.of_ghost {p : Prog A R α} {Q : α → σ × γ → Prop}
    (h : Runs (ghost exec f) t (fun _ => True) p (s, g) Q) :
    ∃ x s' g', Threads.solo exec t p s = some (x, s') ∧ Q x (s', g') := by
  obtain ⟨x, ⟨s', g'⟩, hs, hQ⟩ := h.solo
  refine ⟨x, s', g', ?_, hQ⟩
  rw [solo_ghost p s g, hs]
  rfl

end Xv6.Threads
