import Xv6.User.Accept

/-!
# Terminating the strings of a command

`nulterminate` overwrites the character behind each word of the command. That character is not a
character of a word, since words are as long as possible; so no word is changed.
-/

namespace Xv6.User.Sh

/-- The string that begins where the buffer does. -/
def cstring (buf : List UInt8) : List UInt8 := buf.takeWhile (· ≠ 0)

/-- All strings of a command, in the order in which they are terminated. -/
def Cmd.words {α : Type} : Cmd α → List α
  | .exec argv => argv
  | .redir cmd file _ _ => cmd.words ++ [file]
  | .pipe left right => left.words ++ right.words
  | .list left right => left.words ++ right.words
  | .back cmd => cmd.words

theorem all_iff_words {α : Type} {P : α → Prop} {c : Cmd α} : c.All P ↔ ∀ x ∈ c.words, P x := by
  induction c with
  | exec argv => rfl
  | redir c f mode fd ih => simp only [Cmd.All, Cmd.words, ih, List.forall_mem_append,
      List.forall_mem_singleton]
  | pipe l r ihl ihr => simp only [Cmd.All, Cmd.words, ihl, ihr, List.forall_mem_append]
  | list l r ihl ihr => simp only [Cmd.All, Cmd.words, ihl, ihr, List.forall_mem_append]
  | back c ih => exact ih

theorem map_congr_words {α β : Type} {f g : α → β} {c : Cmd α} (h : ∀ x ∈ c.words, f x = g x) :
    c.map f = c.map g := by
  induction c with
  | exec argv => exact congrArg Cmd.exec (List.map_congr_left h)
  | redir c file mode fd ih =>
    rw [Cmd.words, List.forall_mem_append, List.forall_mem_singleton] at h
    rw [Cmd.map, Cmd.map, ih h.1, h.2]
  | pipe l r ihl ihr =>
    rw [Cmd.words, List.forall_mem_append] at h
    rw [Cmd.map, Cmd.map, ihl h.1, ihr h.2]
  | list l r ihl ihr =>
    rw [Cmd.words, List.forall_mem_append] at h
    rw [Cmd.map, Cmd.map, ihl h.1, ihr h.2]
  | back c ih => rw [Cmd.map, Cmd.map, ih h]

/-! ## Where the terminators are -/

/-- The terminators of some strings. -/
def terminate (n : ℕ) (xs : List Word) (buf : List UInt8) : List UInt8 :=
  xs.foldl (fun buf x => buf.set (addr n x.eq) 0) buf

theorem nulterminate_eq (n : ℕ) (c : Cmd Word) (buf : List UInt8) :
    nulterminate n c buf = terminate n c.words buf := by
  induction c generalizing buf with
  | exec argv => rfl
  | redir c f mode fd ih => rw [nulterminate, ih, Cmd.words, terminate, terminate,
      List.foldl_append, List.foldl_cons, List.foldl_nil]
  | pipe l r ihl ihr => rw [nulterminate, ihl, ihr, Cmd.words, terminate, terminate, terminate,
      List.foldl_append]
  | list l r ihl ihr => rw [nulterminate, ihl, ihr, Cmd.words, terminate, terminate, terminate,
      List.foldl_append]
  | back c ih => exact ih buf

/-- A character that no terminator overwrites. -/
theorem terminate_of_ne {n i : ℕ} {xs : List Word} {buf : List UInt8}
    (h : ∀ x ∈ xs, addr n x.eq ≠ i) : (terminate n xs buf)[i]? = buf[i]? := by
  induction xs generalizing buf with
  | nil => rfl
  | cons x xs ih =>
    show (terminate n xs (buf.set (addr n x.eq) 0))[i]? = _
    rw [ih fun y hy => h y (List.mem_cons_of_mem x hy),
      List.getElem?_set_ne (h x List.mem_cons_self)]

theorem terminate_zero {n i : ℕ} {xs : List Word} {buf : List UInt8} (h : buf[i]? = some 0) :
    (terminate n xs buf)[i]? = some 0 := by
  induction xs generalizing buf with
  | nil => exact h
  | cons x xs ih =>
    apply ih
    obtain ⟨hi, -⟩ := List.getElem?_eq_some_iff.1 h
    by_cases he : addr n x.eq = i
    · subst he
      exact List.getElem?_set_self hi
    · exact (List.getElem?_set_ne he).trans h

theorem terminate_of_mem {n : ℕ} {xs : List Word} {buf : List UInt8} {x : Word} (hx : x ∈ xs)
    (hl : addr n x.eq < buf.length) : (terminate n xs buf)[addr n x.eq]? = some 0 := by
  induction xs generalizing buf with
  | nil => exact absurd hx List.not_mem_nil
  | cons y xs ih =>
    rcases List.mem_cons.1 hx with rfl | hx
    · show (terminate n xs (buf.set (addr n x.eq) 0))[addr n x.eq]? = _
      exact terminate_zero (List.getElem?_set_self hl)
    · exact ih hx (by rwa [List.length_set])

theorem cstring_drop {buf w : List UInt8} {p : ℕ} (h : ∀ i < w.length, buf[p + i]? = w[i]?)
    (hz : buf[p + w.length]? = some 0) (h0 : 0 ∉ w) : cstring (buf.drop p) = w := by
  induction w generalizing p with
  | nil =>
    obtain ⟨hp, hz⟩ := List.getElem?_eq_some_iff.1 (show buf[p]? = some 0 from hz)
    rw [List.drop_eq_getElem_cons hp, hz]
    rfl
  | cons c w ih =>
    have hp1 (i : ℕ) : p + (i + 1) = p + 1 + i := by omega
    have hget : buf[p]? = some c := h 0 (Nat.succ_pos _)
    obtain ⟨hp, hc⟩ := List.getElem?_eq_some_iff.1 hget
    have hc0 : decide (c ≠ 0) := decide_eq_true fun hc => h0 (hc ▸ List.mem_cons_self)
    have hw : cstring (buf.drop (p + 1)) = w := by
      refine ih (fun i hi => ?_) ?_ fun hw => h0 (List.mem_cons_of_mem c hw)
      · rw [← hp1, h (i + 1) (Nat.succ_lt_succ hi), List.getElem?_cons_succ]
      · rw [← hp1]
        exact hz
    rw [List.drop_eq_getElem_cons hp, hc, cstring, List.takeWhile_cons, if_pos hc0]
    exact congrArg (c :: ·) hw

/-! ## Words of a line -/

section

variable {line : Ptr} {x y : Word}

theorem InLine.valid (h : InLine line x) : ValidWord (text x) := by
  obtain ⟨⟨w, hw⟩, -⟩ := h
  rw [hw.text]
  exact hw.valid

theorem InLine.split (h : InLine line x) : ∃ p, line = p ++ (text x ++ x.eq) ∧
    addr line.length x.q = p.length ∧ addr line.length x.eq = p.length + (text x).length := by
  obtain ⟨⟨w, hw⟩, p, rfl⟩ := h
  refine ⟨p, ?_, ?_, ?_⟩
  · rw [hw.text, ← hw.split]
  · rw [addr, List.length_append, Nat.add_sub_cancel]
  · rw [addr, hw.text, hw.split, List.length_append, List.length_append, ← Nat.add_assoc,
      Nat.add_sub_cancel]

theorem InLine.getElem (h : InLine line x) {i : ℕ} (hi : i < (text x).length) :
    (line)[addr line.length x.q + i]? = (text x)[i]? := by
  obtain ⟨p, hl, hq, -⟩ := h.split
  rw [hq]
  conv_lhs => rw [hl]
  rw [List.getElem?_append_right (Nat.le_add_right _ _), Nat.add_sub_cancel_left,
    List.getElem?_append_left hi]

theorem InLine.stop (h : InLine line x) {b : UInt8} (hb : (line)[addr line.length x.eq]? = some b) :
    wordChar b = false := by
  obtain ⟨p, hl, -, he⟩ := h.split
  rw [he] at hb
  rw [hl, ← List.append_assoc, ← List.length_append, List.getElem?_append_right le_rfl,
    Nat.sub_self, ← List.head?_eq_getElem?] at hb
  obtain ⟨⟨w, hw⟩, -⟩ := h
  exact hw.stop b hb

theorem InLine.notMem (hx : InLine line x) (hy : InLine line y) :
    addr line.length y.eq ∉ Set.Ico (addr line.length x.q) (addr line.length x.eq) := by
  rintro ⟨hle, hlt⟩
  obtain ⟨p, -, hq, he⟩ := hx.split
  obtain ⟨i, hi⟩ := Nat.exists_eq_add_of_le hle
  have hil : i < (text x).length := by omega
  have hc := (hx.getElem hil).trans (List.getElem?_eq_getElem hil)
  rw [← hi] at hc
  have hw := (hx.valid.2 _ (List.getElem_mem hil)).1
  rw [hy.stop hc] at hw
  exact Bool.false_ne_true hw

/-- A word is its string in the buffer after all the words have been terminated. -/
theorem cstring_terminate {xs : List Word} (hall : ∀ x ∈ xs, InLine line x) (hx : x ∈ xs) :
    cstring ((terminate line.length xs (line ++ [0])).drop (addr line.length x.q)) = text x := by
  have hin := hall x hx
  obtain ⟨p, hl, hq, he⟩ := hin.split
  have hlen : line.length = p.length + ((text x).length + x.eq.length) := by
    conv_lhs => rw [hl]
    rw [List.length_append, List.length_append]
  apply cstring_drop
  · intro i hi
    have hlt : addr line.length x.q + i < line.length := by omega
    rw [terminate_of_ne, List.getElem?_append_left hlt, hin.getElem hi]
    intro y hy hyi
    exact hin.notMem (hall y hy) ⟨by omega, by omega⟩
  · have hlt : addr line.length x.eq < (line ++ [(0 : UInt8)]).length := by
      rw [List.length_append, he]
      show _ < line.length + 1
      omega
    rw [hq, ← he]
    exact terminate_of_mem hx hlt
  · intro h0
    exact (hin.valid.2 0 h0).2 rfl

end

theorem inLine_of_parsecmd {line buf : List UInt8} {c : Cmd Word} (h0 : 0 ∉ line)
    (h : parsecmd line = .ok (c, buf)) :
    (∀ x ∈ c.words, InLine line x) ∧ buf = nulterminate line.length c (line ++ [0]) := by
  have he : Ends (parseline line) (CmdAt line .line line) :=
    lineLoop_ends _ h0 (List.suffix_refl line) (Nat.lt_succ_self _)
  cases hp : parseline line with
  | error e =>
    rw [parsecmd, hp] at h
    cases h
  | ok a =>
    rw [hp] at he
    rw [parsecmd, ok_bind hp] at h
    obtain ⟨u, -, -, hall⟩ := he
    split at h
    next => cases h
    next =>
      cases h
      exact ⟨all_iff_words.1 hall, rfl⟩

/-- The words of the command, read from the buffer, are those of the command that the grammar
derives, and no terminator falls inside a word. -/
theorem nulterminate_keeps_tokens {line buf : List UInt8} {c : Cmd Word} (h0 : 0 ∉ line)
    (h : parsecmd line = .ok (c, buf)) :
    Derives .line (lex line) (c.map fun x => cstring (buf.drop (addr line.length x.q))) ∧
    (∀ x ∈ c.words, cstring (buf.drop (addr line.length x.q)) = text x) ∧
    ∀ x ∈ c.words, ∀ y ∈ c.words,
      addr line.length y.eq ∉ Set.Ico (addr line.length x.q) (addr line.length x.eq) := by
  obtain ⟨hall, rfl⟩ := inLine_of_parsecmd h0 h
  have hstr : ∀ x ∈ c.words, cstring ((nulterminate line.length c (line ++ [0])).drop
      (addr line.length x.q)) = text x := by
    intro x hx
    rw [nulterminate_eq]
    exact cstring_terminate hall hx
  refine ⟨?_, hstr, fun x hx y hy => (hall x hx).notMem (hall y hy)⟩
  rw [map_congr_words hstr]
  exact ParsesTo.derives h0 ⟨c, _, h, rfl⟩

/-- The line `a>b|c`, whose symbols are overwritten. -/
theorem nulterminate_keeps_tokens_symbols : ∃ c buf,
    parsecmd [ch 'a', ch '>', ch 'b', ch '|', ch 'c'] = .ok (c, buf) ∧
    buf = [ch 'a', 0, ch 'b', 0, ch 'c', 0] ∧
    ∀ x ∈ c.words, cstring (buf.drop (addr 5 x.q)) = text x := by
  have h : ∃ c, parsecmd [ch 'a', ch '>', ch 'b', ch '|', ch 'c'] =
      .ok (c, [ch 'a', 0, ch 'b', 0, ch 'c', 0]) := ⟨_, rfl⟩
  obtain ⟨c, hc⟩ := h
  exact ⟨c, _, hc, rfl, (nulterminate_keeps_tokens (by decide) hc).2.1⟩

end Xv6.User.Sh
