import Xv6.Update

/-!
# Interleaved programs over atomic actions

A program is a finite tree of atomic actions; a configuration runs one program per thread over a
shared state, in any interleaving. An action waits, stops the machine with a message, or returns a
value in a new state.

`Ok` is a thread-modular proof rule: each thread carries a ghost value that only it changes, and a
global invariant relates the state to the ghost values of all threads. `reach_ok` turns `Ok` proofs
of the programs that clients may start into a fact about every reachable configuration.
-/

namespace Xv6.Threads

open Function (update)

/-- What an atomic action does from a state. -/
inductive Outcome (σ β : Type) where
  | wait
  | panic (msg : String)
  | done (b : β) (s : σ)

/-- A program: a tree of atomic actions `A`, where `a` returns a value of type `R a`. -/
inductive Prog (A : Type) (R : A → Type) (α : Type) : Type where
  | ret (x : α)
  | act (a : A) (k : R a → Prog A R α)

namespace Prog

variable {A : Type} {R : A → Type} {α β : Type}

def bind : Prog A R α → (α → Prog A R β) → Prog A R β
  | .ret x, f => f x
  | .act a k, f => .act a fun b => (k b).bind f

instance : Monad (Prog A R) where
  pure := .ret
  bind := Prog.bind

def perform (a : A) : Prog A R (R a) := .act a .ret

@[simp] theorem pure_eq (x : α) : (pure x : Prog A R α) = .ret x := rfl

@[simp] theorem ret_bind (x : α) (f : α → Prog A R β) : (Prog.ret x >>= f) = f x := rfl

@[simp] theorem act_bind (a : A) (k : R a → Prog A R α) (f : α → Prog A R β) :
    (Prog.act a k >>= f) = .act a fun b => k b >>= f := rfl

@[simp] theorem perform_bind (a : A) (f : R a → Prog A R β) :
    (perform a >>= f) = .act a f := rfl

theorem bind_ret (p : Prog A R α) : (p >>= Prog.ret) = p := by
  induction p with
  | ret x => rfl
  | act a k ih => simp only [act_bind, ih]

theorem bind_assoc {δ : Type} (p : Prog A R α) (f : α → Prog A R β) (g : β → Prog A R δ) :
    (p >>= f) >>= g = p >>= fun x => f x >>= g := by
  induction p with
  | ret x => rfl
  | act a k ih => simp only [act_bind, ih]

/-- `body 0`, `body 1`, …, `body (n - 1)` in this order. -/
def loop (n : ℕ) (body : ℕ → Prog A R Unit) : Prog A R Unit :=
  go 0 n
where
  go (i : ℕ) : ℕ → Prog A R Unit
    | 0 => .ret ()
    | n + 1 => body i >>= fun _ => go (i + 1) n

end Prog

/-- One program per thread over a shared state, or a machine stopped by a panic. -/
inductive Conf (T A : Type) (R : A → Type) (σ : Type) where
  | live (s : σ) (thr : T → Prog A R Unit)
  | dead (msg : String) (s : σ)

/-- A system: what each action does, which calls an idle thread may make and the program of each
call, and the condition that the state must meet when an action is taken. -/
structure Sys (T A : Type) (R : A → Type) (K σ : Type) where
  exec : (a : A) → T → σ → Outcome σ (R a)
  may : K → T → σ → Prop
  code : K → σ → Prog A R Unit
  cond : A → T → σ → Prop

variable {T A K σ γ α β : Type} {R : A → Type} [DecidableEq T]

/-- One step of one thread. -/
inductive Step (M : Sys T A R K σ) : Conf T A R σ → Conf T A R σ → Prop
  | call {s thr t c} : thr t = .ret () → M.may c t s →
      Step M (.live s thr) (.live s (update thr t (M.code c s)))
  | act {s thr t a k b s'} : thr t = .act a k → M.cond a t s → M.exec a t s = .done b s' →
      Step M (.live s thr) (.live s' (update thr t (k b)))
  | panic {s thr t a k m} : thr t = .act a k → M.cond a t s → M.exec a t s = .panic m →
      Step M (.live s thr) (.dead m s)

/-- The configurations of the runs that start at `c`. -/
def Reach (M : Sys T A R K σ) : Conf T A R σ → Conf T A R σ → Prop :=
  Relation.ReflTransGen (Step M)

/-- All threads are idle in state `s`. -/
def idle (s : σ) : Conf T A R σ := .live s fun _ => .ret ()

/-! ## Running a schedule -/

section Schedule

variable (M : Sys T A R K σ) [∀ c t s, Decidable (M.may c t s)] [∀ a t s, Decidable (M.cond a t s)]

/-- Thread `t` makes the call `c`, or takes its next action. -/
def next (t : T) (c : Option K) : Conf T A R σ → Option (Conf T A R σ)
  | .dead _ _ => none
  | .live s thr =>
    match c, thr t with
    | some c, .ret () => if M.may c t s then some (.live s (update thr t (M.code c s))) else none
    | none, .act a k =>
      if M.cond a t s then
        match M.exec a t s with
        | .wait => none
        | .panic m => some (.dead m s)
        | .done b s' => some (.live s' (update thr t (k b)))
      else none
    | _, _ => none

/-- The configuration after a schedule, if every step of it can be taken. -/
def run : List (T × Option K) → Conf T A R σ → Option (Conf T A R σ)
  | [], c => some c
  | (t, x) :: l, c => (next M t x c).bind (run l)

variable {M}

theorem step_of_next {t : T} {x : Option K} {c c' : Conf T A R σ} (h : next M t x c = some c') :
    Step M c c' := by
  cases c with
  | dead m s => simp [next] at h
  | live s thr =>
    simp only [next] at h
    split at h
    · rename_i c ht
      split at h
      · rename_i hm
        cases h
        exact .call ht hm
      · simp at h
    · rename_i a k ht
      split at h
      · rename_i hc
        split at h
        · simp at h
        · rename_i m he
          cases h
          exact .panic ht hc he
        · rename_i b s' he
          cases h
          exact .act ht hc he
      · simp at h
    · simp at h

theorem reach_of_run {l : List (T × Option K)} {c c' : Conf T A R σ} (h : run M l c = some c') :
    Reach M c c' := by
  induction l generalizing c with
  | nil => cases h; exact .refl
  | cons x l ih =>
    obtain ⟨c₁, h₁, h₂⟩ := Option.bind_eq_some_iff.1 h
    exact Relation.ReflTransGen.head (step_of_next h₁) (ih h₂)

end Schedule

def Conf.state : Conf T A R σ → σ
  | .live s _ => s
  | .dead _ s => s

def Conf.msg : Conf T A R σ → Option String
  | .live _ _ => none
  | .dead m _ => some m

theorem reach_dead_of_run {M : Sys T A R K σ} [∀ c t s, Decidable (M.may c t s)]
    [∀ a t s, Decidable (M.cond a t s)] {l : List (T × Option K)} {c : Conf T A R σ} {m : String}
    (h : (run M l c).bind Conf.msg = some m) : ∃ s, Reach M c (.dead m s) := by
  obtain ⟨c', hr, hm⟩ := Option.bind_eq_some_iff.1 h
  cases c' with
  | live s thr => simp [Conf.msg] at hm
  | dead m' s =>
    simp only [Conf.msg, Option.some.injEq] at hm
    subst hm
    exact ⟨s, reach_of_run hr⟩

section Ok

variable (M : Sys T A R K σ) (Inv : σ → (T → γ) → Prop) (pan : String → Prop)

/-- `Ok t p g Q`: from every state that satisfies the invariant with the ghost value `g` of thread
`t`, each action of `p` reestablishes the invariant for some new ghost value of `t`, panics only
as `pan` allows, and `p` returns with `Q`. -/
def Ok (t : T) : Prog A R α → γ → (α → γ → Prop) → Prop
  | .ret x, g, Q => Q x g
  | .act a k, g, Q => ∀ s G, Inv s G → G t = g → M.cond a t s →
      (∀ m, M.exec a t s = .panic m → pan m) ∧
      ∀ b s', M.exec a t s = .done b s' →
        ∃ g', Inv s' (update G t g') ∧ Ok t (k b) g' Q

variable {M Inv pan} {t : T}

@[simp] theorem ok_ret {x : α} {g : γ} {Q : α → γ → Prop} :
    Ok M Inv pan t (.ret x) g Q ↔ Q x g := Iff.rfl

/-- The rule for an action that always succeeds. -/
theorem ok_done {a : A} {k : R a → Prog A R α} {g : γ} {Q : α → γ → Prop}
    (h : ∀ s G, Inv s G → G t = g → M.cond a t s → ∃ b s', M.exec a t s = .done b s' ∧
      ∃ g', Inv s' (update G t g') ∧ Ok M Inv pan t (k b) g' Q) :
    Ok M Inv pan t (.act a k) g Q := by
  intro s G hI hg hc
  obtain ⟨b, s', he, hk⟩ := h s G hI hg hc
  rw [he]
  refine ⟨fun m hm => (by cases hm), fun b₁ s₁ h₁ => ?_⟩
  cases h₁
  exact hk

theorem ok_mono {p : Prog A R α} {g : γ} {Q Q' : α → γ → Prop} (h : Ok M Inv pan t p g Q)
    (hQ : ∀ x g, Q x g → Q' x g) : Ok M Inv pan t p g Q' := by
  induction p generalizing g with
  | ret x => exact hQ x g h
  | act a k ih =>
    intro s G hI hg hc
    obtain ⟨hp, hd⟩ := h s G hI hg hc
    refine ⟨hp, fun b s' hb => ?_⟩
    obtain ⟨g', hI', hk⟩ := hd b s' hb
    exact ⟨g', hI', ih b hk⟩

theorem ok_bind {p : Prog A R α} {f : α → Prog A R β} {g : γ} {Q : β → γ → Prop}
    (h : Ok M Inv pan t p g fun x g' => Ok M Inv pan t (f x) g' Q) :
    Ok M Inv pan t (p >>= f) g Q := by
  induction p generalizing g with
  | ret x => exact h
  | act a k ih =>
    intro s G hI hg hc
    obtain ⟨hp, hd⟩ := h s G hI hg hc
    refine ⟨hp, fun b s' hb => ?_⟩
    obtain ⟨g', hI', hk⟩ := hd b s' hb
    exact ⟨g', hI', ih b hk⟩

/-- The loop rule: `J i` holds of the ghost value before round `i`. -/
theorem ok_loop {n : ℕ} {body : ℕ → Prog A R Unit} (J : ℕ → γ → Prop)
    (hbody : ∀ i < n, ∀ g, J i g → Ok M Inv pan t (body i) g fun _ g' => J (i + 1) g')
    {g : γ} (hg : J 0 g) : Ok M Inv pan t (Prog.loop n body) g fun _ g' => J n g' := by
  have key : ∀ m i g, i + m = n → J i g →
      Ok M Inv pan t (Prog.loop.go body i m) g fun _ g' => J n g' := by
    intro m
    induction m with
    | zero => intro i g hi hJ; rw [Nat.add_zero] at hi; exact hi ▸ hJ
    | succ m ih =>
      intro i g hi hJ
      refine ok_bind (ok_mono (hbody i (by omega) g hJ) fun _ g' hJ' => ?_)
      exact ih (i + 1) g' (by omega) hJ'
  exact key n 0 g (by omega) hg

/-- What every reachable configuration satisfies: some ghost values fit the state, and the rest of
every thread's program is `Ok` and ends in a resting ghost value. -/
def Good (M : Sys T A R K σ) (Inv : σ → (T → γ) → Prop) (pan : String → Prop) (Rest : γ → Prop) :
    Conf T A R σ → Prop
  | .live s thr => ∃ G, Inv s G ∧ ∀ t, Ok M Inv pan t (thr t) (G t) fun _ g => Rest g
  | .dead m s => pan m ∧ ∃ G, Inv s G

theorem good_step {Rest : γ → Prop}
    (hcall : ∀ s G t c, Inv s G → Rest (G t) → M.may c t s →
      ∃ g', Inv s (update G t g') ∧ Ok M Inv pan t (M.code c s) g' fun _ g => Rest g)
    {c c' : Conf T A R σ} (h : Good M Inv pan Rest c) (hs : Step M c c') :
    Good M Inv pan Rest c' := by
  -- a step of `t` replaces only the ghost value and the program of `t`
  have others : ∀ {G : T → γ} {thr : T → Prog A R Unit} {t p g'},
      (∀ u, Ok M Inv pan u (thr u) (G u) fun _ g => Rest g) →
      Ok M Inv pan t p g' (fun _ g => Rest g) →
      ∀ u, Ok M Inv pan u (update thr t p u) (update G t g' u)
        fun _ g => Rest g := by
    intro G thr t p g' hG hp u
    by_cases hu : u = t
    · subst hu; simpa using hp
    · simpa [Function.update_of_ne hu] using hG u
  cases hs with
  | @call s thr t c ht hp =>
    obtain ⟨G, hI, hG⟩ := h
    have hr := hG t
    rw [ht] at hr
    obtain ⟨g', hI', hok⟩ := hcall _ G _ _ hI hr hp
    exact ⟨_, hI', others hG hok⟩
  | @act s thr t a k b s' ht hc hd =>
    obtain ⟨G, hI, hG⟩ := h
    have hr := hG t
    rw [ht] at hr
    obtain ⟨g', hI', hok⟩ := (hr _ G hI rfl hc).2 _ _ hd
    exact ⟨_, hI', others hG hok⟩
  | @panic s thr t a k m ht hc hd =>
    obtain ⟨G, hI, hG⟩ := h
    have hr := hG t
    rw [ht] at hr
    exact ⟨(hr _ G hI rfl hc).1 _ hd, G, hI⟩

theorem Good.inv {Rest : γ → Prop} {c : Conf T A R σ} (h : Good M Inv pan Rest c) :
    ∃ G, Inv c.state G := by
  cases c with
  | live s thr => exact ⟨h.choose, h.choose_spec.1⟩
  | dead m s => exact h.2

/-- **Soundness of the rule**: every configuration of every run is good. -/
theorem reach_ok {Rest : γ → Prop}
    (hcall : ∀ s G t c, Inv s G → Rest (G t) → M.may c t s →
      ∃ g', Inv s (update G t g') ∧ Ok M Inv pan t (M.code c s) g' fun _ g => Rest g)
    {c c' : Conf T A R σ} (h : Good M Inv pan Rest c) (hr : Reach M c c') :
    Good M Inv pan Rest c' := by
  induction hr with
  | refl => exact h
  | tail _ hs ih => exact good_step hcall ih hs

end Ok

end Xv6.Threads
