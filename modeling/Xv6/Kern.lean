import Mathlib

/-!
# Sequential programs that may panic

A program reads and changes a state and returns a value, or stops the machine with a message.
`Tot x s Q` is total correctness: from `s` the program returns, without a panic, with `Q`.
`Safe E x s Q` is partial correctness: the program stops with an error in `E` or returns with `Q`.
-/

namespace Xv6

/-- Programs over the state `σ` that return an `α` or panic. -/
abbrev Kern (σ α : Type) := StateT σ (Except String) α

variable {σ α β : Type}

def kpanic (msg : String) : Kern σ α := fun _ => .error msg

/-- `x` returns from `s` with `Q`. -/
def Tot (x : Kern σ α) (s : σ) (Q : α → σ → Prop) : Prop := ∃ a s', x s = .ok (a, s') ∧ Q a s'

theorem tot_mono {x : Kern σ α} {s : σ} {Q Q' : α → σ → Prop} (h : Tot x s Q)
    (hQ : ∀ a s', Q a s' → Q' a s') : Tot x s Q' := by
  obtain ⟨a, s', he, hq⟩ := h
  exact ⟨a, s', he, hQ a s' hq⟩

/-- A program has only one result. -/
theorem tot_and {x : Kern σ α} {s : σ} {Q Q' : α → σ → Prop} (h : Tot x s Q) (h' : Tot x s Q') :
    Tot x s fun a s' => Q a s' ∧ Q' a s' := by
  obtain ⟨a, s', he, hq⟩ := h
  obtain ⟨b, s'', he', hq'⟩ := h'
  obtain ⟨rfl, rfl⟩ := Prod.mk.inj (Except.ok.inj (he.symm.trans he'))
  exact ⟨a, s', he, hq, hq'⟩

theorem tot_pure {a : α} {s : σ} {Q : α → σ → Prop} (h : Q a s) : Tot (pure a) s Q :=
  ⟨a, s, rfl, h⟩

theorem tot_of_eq {x : Kern σ α} {a : α} {s s' : σ} {Q : α → σ → Prop} (he : x s = .ok (a, s'))
    (h : Q a s') : Tot x s Q :=
  ⟨a, s', he, h⟩

theorem bind_ok {x : Kern σ α} {f : α → Kern σ β} {a : α} {s s' : σ} (he : x s = .ok (a, s')) :
    (x >>= f) s = f a s' := by
  show (x s >>= fun p => f p.1 p.2) = _
  rw [he]
  rfl

theorem Kern.bind_assoc {γ : Type} (x : Kern σ α) (f : α → Kern σ β) (g : β → Kern σ γ) :
    x >>= f >>= g = x >>= fun a => f a >>= g := by
  funext s
  show (x s >>= fun p => f p.1 p.2) >>= (fun p => g p.1 p.2) =
    x s >>= fun p => f p.1 p.2 >>= fun p => g p.1 p.2
  cases x s <;> rfl

theorem tot_bind {x : Kern σ α} {f : α → Kern σ β} {s : σ} {Q : β → σ → Prop}
    (h : Tot x s fun a s' => Tot (f a) s' Q) : Tot (x >>= f) s Q := by
  obtain ⟨a, s', he, b, s'', hf, hq⟩ := h
  exact ⟨b, s'', by rw [bind_ok he, hf], hq⟩

theorem tot_bind_eq {x : Kern σ α} {f : α → Kern σ β} {a : α} {s s' : σ} {Q : β → σ → Prop}
    (he : x s = .ok (a, s')) (h : Tot (f a) s' Q) : Tot (x >>= f) s Q :=
  tot_bind (tot_of_eq he h)

theorem tot_get {f : σ → Kern σ β} {s : σ} {Q : β → σ → Prop} (h : Tot (f s) s Q) :
    Tot (get >>= f) s Q :=
  tot_bind_eq rfl h

theorem tot_modify {g : σ → σ} {f : PUnit → Kern σ β} {s : σ} {Q : β → σ → Prop}
    (h : Tot (f ⟨⟩) (g s) Q) : Tot (modify g >>= f) s Q :=
  tot_bind_eq rfl h

theorem tot_modify_end {g : σ → σ} {s : σ} {Q : PUnit → σ → Prop} (h : Q ⟨⟩ (g s)) :
    Tot (modify g) s Q :=
  ⟨⟨⟩, g s, rfl, h⟩

theorem bind_eq_ok {x : Kern σ α} {f : α → Kern σ β} {s s'' : σ} {b : β}
    (h : (x >>= f) s = .ok (b, s'')) : ∃ a s', x s = .ok (a, s') ∧ f a s' = .ok (b, s'') := by
  have h' : (x s >>= fun p => f p.1 p.2) = .ok (b, s'') := h
  cases hx : x s with
  | error e => rw [hx] at h'; cases h'
  | ok p =>
    rw [hx] at h'
    exact ⟨p.1, p.2, rfl, h'⟩

/-! ## Partial correctness -/

section Safe

variable {ε : Type} {E : ε → Prop} {s : σ}

/-- From `s` the program `x` stops with an error in `E`, or returns with `Q`. -/
def Safe (E : ε → Prop) (x : StateT σ (Except ε) α) (s : σ) (Q : α → σ → Prop) : Prop :=
  match x s with
  | .ok (a, s') => Q a s'
  | .error e => E e

theorem safe_mono_eq {x : StateT σ (Except ε) α} {Q Q' : α → σ → Prop} (h : Safe E x s Q)
    (hQ : ∀ a s', x s = .ok (a, s') → Q a s' → Q' a s') : Safe E x s Q' := by
  unfold Safe at h ⊢
  cases hx : x s with
  | error e => rw [hx] at h; exact h
  | ok p => rw [hx] at h; exact hQ p.1 p.2 hx h

theorem safe_mono {x : StateT σ (Except ε) α} {Q Q' : α → σ → Prop} (h : Safe E x s Q)
    (hQ : ∀ a s', Q a s' → Q' a s') : Safe E x s Q' :=
  safe_mono_eq h fun a s' _ => hQ a s'

theorem safe_imp {E' : ε → Prop} {x : StateT σ (Except ε) α} {Q Q' : α → σ → Prop}
    (h : Safe E x s Q) (hE : ∀ e, E e → E' e) (hQ : ∀ a s', Q a s' → Q' a s') : Safe E' x s Q' := by
  unfold Safe at h ⊢
  cases hx : x s with
  | error e => rw [hx] at h; exact hE e h
  | ok p => rw [hx] at h; exact hQ p.1 p.2 h

/-- If no error is allowed, the program returns. -/
theorem Safe.tot {x : Kern σ α} {Q : α → σ → Prop} {E : String → Prop} (h : Safe E x s Q)
    (hE : ∀ e, ¬E e) : Tot x s Q := by
  unfold Safe at h
  cases hx : x s with
  | error e => rw [hx] at h; exact (hE e h).elim
  | ok p => rw [hx] at h; exact ⟨p.1, p.2, hx, h⟩

theorem Safe.of_ok {x : StateT σ (Except ε) α} {Q : α → σ → Prop} (h : Safe E x s Q) {a : α} {s' : σ}
    (he : x s = .ok (a, s')) : Q a s' := by
  unfold Safe at h
  rw [he] at h
  exact h

theorem Safe.error {x : StateT σ (Except ε) α} {Q : α → σ → Prop} (h : Safe E x s Q) {e : ε}
    (he : x s = .error e) : E e := by
  unfold Safe at h
  rw [he] at h
  exact h

theorem safe_pure {a : α} {Q : α → σ → Prop} (h : Q a s) :
    Safe E (pure a : StateT σ (Except ε) α) s Q := h

theorem safe_of_eq {x : StateT σ (Except ε) α} {a : α} {s' : σ} {Q : α → σ → Prop}
    (he : x s = .ok (a, s')) (h : Q a s') : Safe E x s Q := by
  unfold Safe
  rw [he]
  exact h

theorem safe_bind {x : StateT σ (Except ε) α} {f : α → StateT σ (Except ε) β} {Q : β → σ → Prop}
    (h : Safe E x s fun a s' => Safe E (f a) s' Q) : Safe E (x >>= f) s Q := by
  unfold Safe at h
  have hb : (x >>= f) s = x s >>= fun p => f p.1 p.2 := rfl
  show match (x >>= f) s with
    | .ok (a, s') => Q a s'
    | .error e => E e
  rw [hb]
  cases hx : x s with
  | error e => rw [hx] at h; exact h
  | ok p => rw [hx] at h; exact h

theorem safe_bind_error {x : StateT σ (Except ε) α} {f : α → StateT σ (Except ε) β} {e : ε}
    {Q : β → σ → Prop} (he : x s = .error e) (h : E e) : Safe E (x >>= f) s Q := by
  apply safe_bind
  unfold Safe
  rw [he]
  exact h

theorem safe_get {f : σ → StateT σ (Except ε) β} {Q : β → σ → Prop} (h : Safe E (f s) s Q) :
    Safe E (get >>= f) s Q :=
  safe_bind h

theorem safe_modify {g : σ → σ} {Q : PUnit → σ → Prop} (h : Q ⟨⟩ (g s)) :
    Safe E (modify g : StateT σ (Except ε) PUnit) s Q := h

theorem safe_ite {c : Prop} [Decidable c] {x y : StateT σ (Except ε) α} {Q : α → σ → Prop}
    (ht : c → Safe E x s Q) (he : ¬c → Safe E y s Q) : Safe E (if c then x else y) s Q := by
  split
  · exact ht ‹_›
  · exact he ‹_›

end Safe

end Xv6
