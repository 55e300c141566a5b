import Xv6.Threads.Solo

/-!
# Threads that own the state

A thread inside a critical section owns what the lock protects: the other threads do not change it,
and its ghost value is the state as the thread knows it. For such a thread, what a program does when
it runs alone is what it does in every interleaving.
-/

namespace Xv6.Threads

variable {T A K σ γ α β : Type} {R : A → Type}

/-- All actions of a program are in `P`. -/
def Prog.Uses (P : A → Prop) : Prog A R α → Prop
  | .ret _ => True
  | .act a k => P a ∧ ∀ b, (k b).Uses P

namespace Prog.Uses

variable {P : A → Prop}

theorem bind {p : Prog A R α} {f : α → Prog A R β} (h : p.Uses P) (hf : ∀ x, (f x).Uses P) :
    (p >>= f).Uses P := by
  induction p with
  | ret x => exact hf x
  | act a k ih => exact ⟨h.1, fun b => ih b (h.2 b)⟩

theorem perform {a : A} (h : P a) : (Prog.perform a : Prog A R (R a)).Uses P :=
  ⟨h, fun _ => trivial⟩

end Prog.Uses

/-- A run with a ghost value is a run without it. -/
theorem Runs.forget {exec : (a : A) → T → σ → Outcome σ (R a)} {f : (a : A) → R a → γ → γ} {t : T}
    {I : σ × γ → Prop} {p : Prog A R α} {s : σ} {g : γ} {Q : α → σ × γ → Prop}
    (h : Runs (ghost exec f) t I p (s, g) Q) :
    Runs exec t (fun _ => True) p s fun x s' => ∃ g', Q x (s', g') := by
  induction p generalizing s g with
  | ret x => exact ⟨trivial, g, h.2⟩
  | act a k ih =>
    obtain ⟨-, b, ⟨s', g'⟩, he, hr⟩ := h
    cases hs : exec a t s with
    | wait =>
      unfold ghost at he
      rw [hs] at he
      exact nomatch he
    | panic m =>
      unfold ghost at he
      rw [hs] at he
      exact nomatch he
    | done b' s'' =>
      rw [ghost_done hs] at he
      cases he
      exact ⟨trivial, _, _, hs, ih _ hr⟩

variable [DecidableEq T] {M : Sys T A R K σ} {Inv : σ → (T → γ) → Prop} {pan : String → Prop} {t : T}

/-- The rule for a program whose actions do to the state what they do to the state that the thread
owns. -/
theorem ok_of_runs {P : A → Prop} {I : σ → Prop} (own : σ → γ)
    (hown : ∀ a, P a → ∀ s G x, Inv s G → G t = own x → ∀ b x', M.exec a t x = .done b x' →
      ∃ s', M.exec a t s = .done b s' ∧ Inv s' (Function.update G t (own x')))
    {p : Prog A R α} (hp : p.Uses P) {x : σ} {Q : α → σ → Prop} (h : Runs M.exec t I p x Q) :
    Ok M Inv pan t p (own x) fun y g => ∃ x', g = own x' ∧ Q y x' := by
  induction p generalizing x with
  | ret y => exact ⟨x, rfl, h.2⟩
  | act a k ih =>
    obtain ⟨-, b, x', he, hr⟩ := h
    apply ok_done
    intro s G hI hg _
    obtain ⟨s', hs', hI'⟩ := hown a hp.1 s G x hI hg b x' he
    exact ⟨b, s', hs', own x', hI', ih b (hp.2 b) hr⟩

end Xv6.Threads
