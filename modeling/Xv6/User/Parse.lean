import Xv6.User.Grammar

/-!
# The shell parser accepts its grammar

`gettoken` and `peek` see the tokens of the line. From there, each function of the parser returns only
commands that the tokens it has consumed derive, and it returns when there is a derivation followed by
a token that may stand behind it.
-/

namespace Xv6.User.Sh

/-! ## The tokens that the parser sees -/

/-- What `gettoken` returns for a token. -/
def Tok.code : Tok → UInt8
  | .redir .read => ch '<'
  | .redir .write => ch '>'
  | .redir .append => ch '+'
  | .bar => ch '|'
  | .amp => ch '&'
  | .semi => ch ';'
  | .lpar => ch '('
  | .rpar => ch ')'
  | .word _ => ch 'a'

theorem Tok.code_ne_zero (t : Tok) : t.code ≠ 0 := by
  cases t with
  | redir op => cases op <;> decide
  | _ => exact of_decide_eq_true rfl

/-- The token begins with one of the symbols. -/
def Tok.starts (toks : List UInt8) : Tok → Bool
  | .word _ => false
  | t => t.chars.head?.any (· ∈ toks)

theorem isSymbol_iff {c : UInt8} : isSymbol c ↔ c ∈ symbols := isSome_strchr (by decide) c

theorem wordChar_iff {c : UInt8} : wordChar c ↔ isSpace c = false ∧ c ∉ symbols := by
  unfold wordChar
  rw [Bool.and_eq_true, Bool.not_eq_true', Bool.not_eq_true', ← isSymbol_iff, Bool.not_eq_true]

/-- The word `w` at `x`, which cannot be longer. -/
structure IsWord (x : Word) (w : List UInt8) : Prop where
  split : x.q = w ++ x.eq
  valid : ValidWord w
  stop : ∀ b ∈ x.eq.head?, wordChar b = false

/-- From `s` to `s'` the tokens `u` are consumed. -/
structure Took (s s' : Ptr) (u : List Tok) : Prop where
  suffix : s' <:+ s
  lex : lex s = u ++ lex s'

theorem Took.trans {s s' s'' : Ptr} {u v : List Tok} (h : Took s s' u) (h' : Took s' s'' v) :
    Took s s'' (u ++ v) :=
  ⟨h'.suffix.trans h.suffix, by rw [h.lex, h'.lex, List.append_assoc]⟩

theorem lex_skip (s : Ptr) : lex (skip s) = lex s := by
  induction s with
  | nil => rfl
  | cons c s ih =>
    unfold skip
    by_cases hc : isSpace c = true
    · rw [List.dropWhile_cons_of_pos hc, lex, if_pos hc]
      exact ih
    · rw [List.dropWhile_cons_of_neg hc]

theorem took_skip (s : Ptr) : Took s (skip s) [] := ⟨List.dropWhile_suffix _, (lex_skip s).symm⟩

/-- Skipped white space consumes no token. -/
theorem Took.of_skip {s s' : Ptr} {u : List Tok} (h : Took (skip s) s' u) : Took s s' u :=
  (took_skip s).trans h

theorem Took.to_skip {s s' : Ptr} {u : List Tok} (h : Took s s' u) : Took s (skip s') u := by
  have ht := h.trans (took_skip s')
  rwa [List.append_nil] at ht

theorem Took.notMem {s s' : Ptr} {u : List Tok} (h : Took s s' u) (h0 : 0 ∉ s) : 0 ∉ s' :=
  fun hm => h0 (h.suffix.subset hm)

theorem Took.length_le {s s' : Ptr} {u : List Tok} (h : Took s s' u) : s'.length ≤ s.length :=
  h.suffix.length_le

theorem Took.length_lt {s s' : Ptr} {t : Tok} {u : List Tok} (h : Took s s' (t :: u)) :
    s'.length < s.length := by
  apply lt_of_le_of_ne h.length_le
  intro he
  have hl := h.lex
  rw [h.suffix.eq_of_length he] at hl
  have := congrArg List.length hl
  rw [List.length_append, List.length_cons] at this
  omega

/-- The token `t` stands at `s`, where there is no white space. -/
structure At (s : Ptr) (t : Tok) : Prop where
  code : (tokenAt s).1 = t.code
  took : Took s (tokenAt s).2 [t]
  starts : ∀ toks ⊆ symbols, t.starts toks = decide (chr s 0 ∈ toks)
  word : ∀ w, t = .word w → IsWord ⟨s, (tokenAt s).2⟩ w

theorem at_symbol {c : UInt8} {s eq : Ptr} {t : Tok} (hw : ∀ w, t ≠ .word w)
    (hh : t.chars.head? = some c) (ht : tokenAt (c :: s) = (t.code, eq)) (he : eq <:+ c :: s)
    (hl : lex (c :: s) = t :: lex eq) : At (c :: s) t where
  code := by rw [ht]
  took := by
    rw [ht]
    exact ⟨he, hl⟩
  starts := by
    intro toks _
    have hs : t.starts toks = t.chars.head?.any (· ∈ toks) := by
      cases t with
      | word w => exact absurd rfl (hw w)
      | _ => rfl
    rw [hs, hh]
    rfl
  word := fun w h => absurd h (hw w)

theorem lex_word {c : UInt8} {s : Ptr} (hc : wordChar c) :
    lex (c :: s) = .word (c :: s.takeWhile wordChar) :: lex (s.dropWhile wordChar) := by
  obtain ⟨hc, hs⟩ := wordChar_iff.1 hc
  have hne (b : UInt8) (hb : b ∈ symbols) : c ≠ b := fun h => hs (h ▸ hb)
  rw [lex, if_neg (by rw [hc]; decide), if_neg (hne _ (by decide)), if_neg (hne _ (by decide)),
    if_neg (hne _ (by decide)), if_neg (hne _ (by decide)), if_neg (hne _ (by decide)),
    if_neg (hne _ (by decide)), if_neg (hne _ (by decide))]

theorem at_word {c : UInt8} {s : Ptr} (hc : isSpace c = false) (hs : c ∉ symbols)
    (h0 : 0 ∉ c :: s) : At (c :: s) (.word (c :: s.takeWhile wordChar)) := by
  have hwc : wordChar c := wordChar_iff.2 ⟨hc, hs⟩
  have hne (b : UInt8) (hb : b ∈ symbols) : c ≠ b := fun h => hs (h ▸ hb)
  have ht : tokenAt (c :: s) = (ch 'a', s.dropWhile wordChar) := by
    have hd : (c :: s).dropWhile wordChar = s.dropWhile wordChar := List.dropWhile_cons_of_pos hwc
    have hm : c ∉ [ch '|', ch '(', ch ')', ch ';', ch '&', ch '<'] := by
      intro hm
      exact hs (List.Subset.trans (by decide) (List.Subset.refl symbols) hm)
    rw [← hd]
    unfold tokenAt
    exact (if_neg (ne_zero_of_notMem h0)).trans ((if_neg hm).trans (if_neg (hne _ (by decide))))
  refine ⟨by rw [ht]; rfl, ?_, ?_, ?_⟩
  · rw [ht]
    exact ⟨(List.dropWhile_suffix _).trans (List.suffix_cons c s), lex_word hwc⟩
  · intro toks htoks
    exact (decide_eq_false fun hm => hs (htoks hm)).symm
  · rintro w ⟨⟩
    rw [ht]
    refine ⟨?_, ⟨List.cons_ne_nil _ _, ?_⟩, ?_⟩
    · show c :: s = c :: s.takeWhile wordChar ++ s.dropWhile wordChar
      rw [List.cons_append, List.takeWhile_append_dropWhile]
    · rintro b (_ | ⟨_, hb⟩)
      · exact ⟨hwc, ne_zero_of_notMem h0⟩
      · refine ⟨List.mem_takeWhile_imp hb, fun hb0 => ?_⟩
        exact h0 (List.mem_cons_of_mem c (hb0 ▸ List.takeWhile_subset _ hb))
    · intro b hb
      have hd := List.head?_dropWhile_not wordChar s
      rw [Option.mem_def] at hb
      rw [hb] at hd
      simpa using hd

theorem exists_at {c : UInt8} {s : Ptr} (hc : isSpace c = false) (h0 : 0 ∉ c :: s) :
    ∃ t, At (c :: s) t := by
  have hc' : ¬isSpace c := by rw [hc]; decide
  by_cases hs : c ∈ symbols
  · simp only [symbols, List.mem_cons, List.not_mem_nil, or_false] at hs
    rcases hs with rfl | rfl | rfl | rfl | rfl | rfl | rfl
    · exact ⟨.redir .read, at_symbol (by simp) rfl rfl (List.suffix_cons _ s) (by rw [lex]; rfl)⟩
    · exact ⟨.bar, at_symbol (by simp) rfl rfl (List.suffix_cons _ s) (by rw [lex]; rfl)⟩
    · have ht : tokenAt (ch '>' :: s) =
          if chr s 0 = ch '>' then (ch '+', s.drop 1) else (ch '>', s) := rfl
      have hl : lex (ch '>' :: s) = if chr s 0 = ch '>' then .redir .append :: lex (s.drop 1)
          else .redir .write :: lex s := by rw [lex]; rfl
      by_cases hg : chr s 0 = ch '>'
      · rw [if_pos hg] at ht hl
        exact ⟨.redir .append, at_symbol (by simp) rfl ht
          ((List.drop_suffix 1 s).trans (List.suffix_cons _ s)) hl⟩
      · rw [if_neg hg] at ht hl
        exact ⟨.redir .write, at_symbol (by simp) rfl ht (List.suffix_cons _ s) hl⟩
    · exact ⟨.amp, at_symbol (by simp) rfl rfl (List.suffix_cons _ s) (by rw [lex]; rfl)⟩
    · exact ⟨.semi, at_symbol (by simp) rfl rfl (List.suffix_cons _ s) (by rw [lex]; rfl)⟩
    · exact ⟨.lpar, at_symbol (by simp) rfl rfl (List.suffix_cons _ s) (by rw [lex]; rfl)⟩
    · exact ⟨.rpar, at_symbol (by simp) rfl rfl (List.suffix_cons _ s) (by rw [lex]; rfl)⟩
  · exact ⟨_, at_word hc hs h0⟩

theorem skip_skip (s : Ptr) : skip (skip s) = skip s := List.dropWhile_idempotent _ s

theorem gettoken_skip (s : Ptr) : gettoken (skip s) = gettoken s := by
  unfold gettoken
  rw [skip_skip]

theorem peek_skip (s : Ptr) (toks : List UInt8) : peek (skip s) toks = peek s toks := by
  unfold peek
  rw [skip_skip]

/-- The next token is `t`, as `gettoken` and `peek` see it. -/
structure Next (s : Ptr) (t : Tok) : Prop where
  code : (gettoken s).ret = t.code
  took : Took s (gettoken s).rest [t]
  peek : ∀ toks ⊆ symbols, (peek s toks).1 = t.starts toks
  word : ∀ w, t = .word w → IsWord ⟨(gettoken s).q, (gettoken s).eq⟩ w ∧ (gettoken s).q <:+ s

/-- There is no next token. -/
structure Done (s : Ptr) : Prop where
  skip : skip s = []
  code : (gettoken s).ret = 0
  took : Took s (gettoken s).rest []
  peek : ∀ toks, (peek s toks).1 = false

theorem done_or_next {s : Ptr} (h0 : 0 ∉ s) : Done s ∨ ∃ t, Next s t := by
  have hsk := took_skip s
  cases hs : skip s with
  | nil =>
    left
    have hg : gettoken s = ⟨0, [], [], []⟩ := by
      unfold gettoken
      rw [hs]
      rfl
    refine ⟨hs, by rw [hg], ?_, fun toks => ?_⟩
    · rw [hs] at hsk
      rw [hg]
      exact hsk
    · unfold Sh.peek
      rw [hs]
      rfl
  | cons c r =>
    right
    rw [hs] at hsk
    have hc : isSpace c = false := by
      have := List.head?_dropWhile_not isSpace s
      rw [show s.dropWhile isSpace = c :: r from hs] at this
      simpa using this
    have hr0 := hsk.notMem h0
    obtain ⟨t, ht⟩ := exists_at hc hr0
    have hg : gettoken s =
        ⟨(tokenAt (c :: r)).1, c :: r, (tokenAt (c :: r)).2, Sh.skip (tokenAt (c :: r)).2⟩ := by
      unfold gettoken
      rw [hs]
    refine ⟨t, by rw [hg]; exact ht.code, ?_, ?_, ?_⟩
    · rw [hg]
      exact hsk.trans (ht.took.trans (took_skip _))
    · intro toks htoks
      rw [ht.starts toks htoks]
      unfold Sh.peek
      rw [hs]
      have hne : (chr (c :: r) 0 != 0) := by
        rw [bne_iff_ne]
        exact ne_zero_of_notMem hr0
      rw [hne, Bool.true_and, Bool.eq_iff_iff, decide_eq_true_iff]
      exact isSome_strchr (fun hz => absurd (htoks hz) (by decide)) _
    · rw [hg]
      exact fun w hw => ⟨ht.word w hw, hsk.suffix⟩

theorem Done.lex {s : Ptr} (h : Done s) : lex s = [] := by
  rw [← lex_skip, h.skip, Sh.lex]

theorem Next.lex {s : Ptr} {t : Tok} (h : Next s t) : Sh.lex s = t :: Sh.lex (gettoken s).rest :=
  h.took.lex

theorem done_of_lex {s : Ptr} (h0 : 0 ∉ s) (h : lex s = []) : Done s := by
  rcases done_or_next h0 with hd | ⟨t, ht⟩
  · exact hd
  · rw [ht.lex] at h
    exact nomatch h

theorem next_of_lex {s : Ptr} {t : Tok} {ts : List Tok} (h0 : 0 ∉ s) (h : lex s = t :: ts) :
    Next s t ∧ lex (gettoken s).rest = ts := by
  rcases done_or_next h0 with hd | ⟨t', ht⟩
  · rw [hd.lex] at h
    exact nomatch h
  · rw [ht.lex] at h
    obtain ⟨rfl, rfl⟩ := List.cons.inj h
    exact ⟨ht, rfl⟩

/-! Which tokens the parser looks for. -/

theorem starts_redir {t : Tok} : t.starts [ch '<', ch '>'] ↔ ∃ op, t = .redir op := by
  cases t with
  | redir op => exact iff_of_true (by cases op <;> rfl) ⟨op, rfl⟩
  | _ => exact iff_of_false Bool.false_ne_true (by simp)

theorem starts_bar {t : Tok} : t.starts [ch '|'] ↔ t = .bar := by
  cases t with
  | redir op => exact iff_of_false (by cases op <;> decide) (by simp)
  | bar => exact iff_of_true rfl rfl
  | _ => exact iff_of_false Bool.false_ne_true (by simp)

theorem starts_amp {t : Tok} : t.starts [ch '&'] ↔ t = .amp := by
  cases t with
  | redir op => exact iff_of_false (by cases op <;> decide) (by simp)
  | amp => exact iff_of_true rfl rfl
  | _ => exact iff_of_false Bool.false_ne_true (by simp)

theorem starts_semi {t : Tok} : t.starts [ch ';'] ↔ t = .semi := by
  cases t with
  | redir op => exact iff_of_false (by cases op <;> decide) (by simp)
  | semi => exact iff_of_true rfl rfl
  | _ => exact iff_of_false Bool.false_ne_true (by simp)

theorem starts_lpar {t : Tok} : t.starts [ch '('] ↔ t = .lpar := by
  cases t with
  | redir op => exact iff_of_false (by cases op <;> decide) (by simp)
  | lpar => exact iff_of_true rfl rfl
  | _ => exact iff_of_false Bool.false_ne_true (by simp)

theorem starts_rpar {t : Tok} : t.starts [ch ')'] ↔ t = .rpar := by
  cases t with
  | redir op => exact iff_of_false (by cases op <;> decide) (by simp)
  | rpar => exact iff_of_true rfl rfl
  | _ => exact iff_of_false Bool.false_ne_true (by simp)

/-- `peek` has seen the token it looks for. -/
theorem next_of_peek {s : Ptr} {toks : List UInt8} {P : Tok → Prop} (h0 : 0 ∉ s)
    (ht : ∀ {t : Tok}, t.starts toks ↔ P t) (hs : toks ⊆ symbols)
    (h : (peek s toks).1) : ∃ t, P t ∧ Next s t := by
  rcases done_or_next h0 with hd | ⟨t, hn⟩
  · rw [hd.peek] at h
    exact nomatch h
  · exact ⟨t, ht.1 ((hn.peek toks hs).symm.trans h), hn⟩

theorem next_of_code {s : Ptr} (h0 : 0 ∉ s) (h : (gettoken s).ret = ch 'a') :
    ∃ w, Next s (.word w) := by
  rcases done_or_next h0 with hd | ⟨t, hn⟩
  · rw [hd.code] at h
    exact absurd h (by decide)
  · rw [hn.code] at h
    cases t with
    | word w => exact ⟨w, hn⟩
    | redir op => exact absurd h (by cases op <;> decide)
    | _ => exact absurd h (by decide)

/-! ## Commands and their strings -/

/-- The text of a counted string. -/
def text (x : Word) : List UInt8 := x.q.take (x.q.length - x.eq.length)

theorem IsWord.text {x : Word} {w : List UInt8} (h : IsWord x w) : text x = w := by
  unfold Sh.text
  rw [h.split, List.length_append, Nat.add_sub_cancel, List.take_left]

def Redir.map {α β : Type} (f : α → β) (r : Redir α) : Redir β := ⟨f r.file, r.mode, r.fd⟩

def Cmd.map {α β : Type} (f : α → β) : Cmd α → Cmd β
  | .exec argv => .exec (argv.map f)
  | .redir cmd file mode fd => .redir (cmd.map f) (f file) mode fd
  | .pipe left right => .pipe (left.map f) (right.map f)
  | .list left right => .list (left.map f) (right.map f)
  | .back cmd => .back (cmd.map f)

/-- All strings of a command. -/
def Cmd.All {α : Type} (P : α → Prop) : Cmd α → Prop
  | .exec argv => ∀ w ∈ argv, P w
  | .redir cmd file _ _ => cmd.All P ∧ P file
  | .pipe left right => left.All P ∧ right.All P
  | .list left right => left.All P ∧ right.All P
  | .back cmd => cmd.All P

theorem map_wrap {α β : Type} (f : α → β) (c : Cmd α) (rs : List (Redir α)) :
    (wrap c rs).map f = wrap (c.map f) (rs.map (Redir.map f)) := by
  induction rs generalizing c with
  | nil => rfl
  | cons r rs ih => exact ih (.redir c r.file r.mode r.fd)

theorem all_wrap {α : Type} {P : α → Prop} {c : Cmd α} {rs : List (Redir α)} (hc : c.All P)
    (hr : ∀ r ∈ rs, P r.file) : (wrap c rs).All P := by
  induction rs generalizing c with
  | nil => exact hc
  | cons r rs ih =>
    refine ih ⟨hc, hr r List.mem_cons_self⟩ fun r' h => hr r' (List.mem_cons_of_mem r h)

theorem map_backs {α β : Type} (f : α → β) (k : ℕ) (c : Cmd α) :
    (Cmd.back^[k] c).map f = Cmd.back^[k] (c.map f) := by
  induction k generalizing c with
  | zero => rfl
  | succ k ih => exact ih (.back c)

theorem all_backs {α : Type} {P : α → Prop} (k : ℕ) {c : Cmd α} (h : c.All P) :
    (Cmd.back^[k] c).All P := by
  induction k generalizing c with
  | zero => exact h
  | succ k ih => exact ih h

theorem redirOf_code (op : Op) (f : Word) :
    redirOf (Tok.redir op).code f = [⟨f, op.mode, op.fd⟩] := by
  cases op <;> rfl

/-! ## What the parser returns is derived -/

/-- What the parser says of a line with an error in it. -/
def syntaxErrors : List String :=
  ["missing file for redirection", "too many args", "syntax", "syntax - missing )"]

/-- A parser returns something with the property, or reports an error. -/
def Ends {α : Type} (r : Except Err (α × Ptr)) (Q : α → Ptr → Prop) : Prop :=
  match r with
  | .ok a => Q a.1 a.2
  | .error (.panic msg) => msg ∈ syntaxErrors
  | .error .fuel => False

theorem Ends.bind {α β : Type} {r : Except Err (α × Ptr)} {f : α × Ptr → Except Err (β × Ptr)}
    {Q : α → Ptr → Prop} {Q' : β → Ptr → Prop} (h : Ends r Q)
    (hf : ∀ a s, Q a s → Ends (f (a, s)) Q') : Ends (r >>= f) Q' := by
  cases r with
  | ok a => exact hf a.1 a.2 h
  | error e =>
    cases e with
    | fuel => exact h.elim
    | panic msg => exact h

theorem Ends.mono {α : Type} {r : Except Err (α × Ptr)} {Q Q' : α → Ptr → Prop} (h : Ends r Q)
    (hQ : ∀ a s, Q a s → Q' a s) : Ends r Q' := by
  cases r with
  | ok a => exact hQ a.1 a.2 h
  | error e =>
    cases e with
    | fuel => exact h.elim
    | panic msg => exact h

/-- The string is a word of the line. -/
def InLine (line : Ptr) (x : Word) : Prop := (∃ w, IsWord x w) ∧ x.q <:+ line

/-- What `parseredirs` has parsed between two positions. -/
def RedirsAt (line s : Ptr) (rs : List (Redir Word)) (s' : Ptr) : Prop :=
  ∃ u, Took s s' u ∧ Redirs u (rs.map (Redir.map text)) ∧ ∀ r ∈ rs, InLine line r.file

theorem redirsLoop_ends {line : Ptr} (n : ℕ) {s : Ptr} (h0 : 0 ∉ s) (hl : s <:+ line)
    (hn : s.length < n) : Ends (redirsLoop n s) (RedirsAt line s) := by
  induction n generalizing s with
  | zero => exact absurd hn (Nat.not_lt_zero _)
  | succ n ih =>
    rw [redirsLoop]
    simp only [gettoken_skip]
    split
    next hpk =>
      obtain ⟨_, ⟨op, rfl⟩, ht⟩ := next_of_peek h0 starts_redir (by decide) hpk
      split
      next hcode =>
        obtain ⟨w, ht'⟩ := next_of_code (ht.took.notMem h0) hcode
        obtain ⟨hw, hq⟩ := ht'.word w rfl
        have htook := ht.took.trans ht'.took
        have hlt := htook.length_lt
        refine Ends.bind (ih (htook.notMem h0) (htook.suffix.trans hl) (by omega)) ?_
        rintro rs s' ⟨u, hu, hrs, hin⟩
        refine ⟨_, htook.trans hu, ?_, ?_⟩
        · rw [ht.code, redirOf_code]
          show Redirs _ (⟨text ⟨_, _⟩, op.mode, op.fd⟩ :: rs.map (Redir.map text))
          rw [hw.text]
          exact .cons op w hrs
        · rw [ht.code, redirOf_code]
          rintro r (_ | ⟨_, hr⟩)
          · exact ⟨⟨w, hw⟩, hq.trans (ht.took.suffix.trans hl)⟩
          · exact hin r hr
      next => exact List.mem_of_elem_eq_true rfl
    next => exact ⟨[], took_skip s, .nil, fun r hr => nomatch hr⟩

theorem parseredirs_ends {line s : Ptr} (h0 : 0 ∉ s) (hl : s <:+ line) :
    Ends (parseredirs s) (RedirsAt line s) :=
  redirsLoop_ends _ h0 hl (Nat.lt_succ_self _)

/-- What the loop of `parseexec` has parsed between two positions. -/
def ArgsAt (line : Ptr) (argc : ℕ) (s : Ptr) (a : List Word × List (Redir Word)) (s' : Ptr) : Prop :=
  ∃ u, Took s s' u ∧ Args u (a.1.map text) (a.2.map (Redir.map text)) ∧
    argc + a.1.length < maxArgs ∧ (∀ w ∈ a.1, InLine line w) ∧ ∀ r ∈ a.2, InLine line r.file

theorem argsLoop_ends {line : Ptr} (n : ℕ) {argc : ℕ} {s : Ptr} (h0 : 0 ∉ s) (hl : s <:+ line)
    (hn : s.length < n) (ha : argc < maxArgs) : Ends (argsLoop n argc s) (ArgsAt line argc s) := by
  induction n generalizing s argc with
  | zero => exact absurd hn (Nat.not_lt_zero _)
  | succ n ih =>
    have hnone {s' : Ptr} (ht : Took s s' []) : ArgsAt line argc s ([], []) s' :=
      ⟨[], ht, .nil, ha, fun w hw => (nomatch hw), fun r hr => (nomatch hr)⟩
    rw [argsLoop]
    simp only [gettoken_skip]
    split
    next => exact hnone (took_skip s)
    next =>
      split
      next hz =>
        rcases done_or_next h0 with hd | ⟨t, ht⟩
        · exact hnone hd.took
        · rw [ht.code] at hz
          exact absurd hz (Tok.code_ne_zero t)
      next =>
        split
        next hcode =>
          obtain ⟨w, ht⟩ := next_of_code h0 hcode
          obtain ⟨hw, hq⟩ := ht.word w rfl
          have h0' := ht.took.notMem h0
          have hlt := ht.took.length_lt
          split
          next => exact List.mem_of_elem_eq_true rfl
          next hmax =>
            refine Ends.bind (parseredirs_ends h0' (ht.took.suffix.trans hl)) ?_
            rintro rs s₁ ⟨u, hu, hrs, hin⟩
            have hlt' : s₁.length < n := by
              have := hu.length_le
              omega
            refine Ends.bind (ih (hu.notMem h0') (hu.suffix.trans (ht.took.suffix.trans hl))
              hlt' (not_le.1 hmax)) ?_
            rintro ⟨ws, rs'⟩ s₂ ⟨v, hv, hargs, hlen, hws, hin'⟩
            refine ⟨_, ht.took.trans (hu.trans hv), ?_, ?_, ?_, ?_⟩
            · have := Args.cons w hrs hargs
              rw [← List.map_append] at this
              show Args _ (text ⟨_, _⟩ :: ws.map text) _
              rwa [hw.text]
            · have hlen' : argc + 1 + ws.length < maxArgs := hlen
              show argc + (ws.length + 1) < maxArgs
              omega
            · rintro x (_ | ⟨_, hx⟩)
              · exact ⟨⟨w, hw⟩, hq.trans hl⟩
              · exact hws x hx
            · intro r hr
              exact (List.mem_append.1 hr).elim (hin r) (hin' r)
        next => exact List.mem_of_elem_eq_true rfl

/-- What a function of the parser has parsed between two positions. -/
def CmdAt (line : Ptr) (N : Nt) (s : Ptr) (c : Cmd Word) (s' : Ptr) : Prop :=
  ∃ u, Took s s' u ∧ Derives N u (c.map text) ∧ c.All (InLine line)

section

variable {line : Ptr} {parse : Parser (Cmd Word)} {s : Ptr}

theorem parseblock_ends (h0 : 0 ∉ s) (hl : s <:+ line) (hpk : (peek s [ch '(']).1)
    (hp : ∀ s' : Ptr, 0 ∉ s' → s' <:+ line → s'.length < s.length →
      Ends (parse s') (CmdAt line .line s')) :
    Ends (parseblock parse s) (CmdAt line .exec s) := by
  unfold parseblock
  simp only [gettoken_skip]
  rw [if_pos hpk]
  obtain ⟨_, rfl, ht⟩ := next_of_peek h0 starts_lpar (by decide) hpk
  have h0' := ht.took.notMem h0
  have hl' := ht.took.suffix.trans hl
  refine Ends.bind (hp _ h0' hl' ht.took.length_lt) ?_
  rintro c s₁ ⟨u, hu, hd, hall⟩
  have h0₁ := hu.notMem h0'
  split
  next hpk' =>
    obtain ⟨_, rfl, ht'⟩ := next_of_peek h0₁ starts_rpar (by decide) hpk'
    have hs₁ := ht'.took.suffix.trans (hu.suffix.trans hl')
    refine Ends.bind (parseredirs_ends (ht'.took.notMem h0₁) hs₁) ?_
    rintro rs s₂ ⟨v, hv, hrs, hin⟩
    refine ⟨_, ht.took.trans (hu.trans (ht'.took.trans hv)), ?_, all_wrap hall hin⟩
    show Derives _ _ ((wrap c rs).map text)
    rw [map_wrap]
    exact .block hd hrs
  next => exact List.mem_of_elem_eq_true rfl

theorem parseexec_ends (h0 : 0 ∉ s) (hl : s <:+ line)
    (hp : ∀ s' : Ptr, 0 ∉ s' → s' <:+ line → s'.length < s.length →
      Ends (parse s') (CmdAt line .line s')) :
    Ends (parseexec parse s) (CmdAt line .exec s) := by
  have hsk := took_skip s
  have h0' := hsk.notMem h0
  have hl' := hsk.suffix.trans hl
  have hle := hsk.length_le
  unfold parseexec
  split
  next hpk =>
    rw [← peek_skip] at hpk
    refine (parseblock_ends h0' hl' hpk fun s' h1 h2 h3 => hp s' h1 h2 (by omega)).mono ?_
    rintro c s' ⟨u, hu, hd⟩
    exact ⟨u, hu.of_skip, hd⟩
  next =>
    refine Ends.bind (parseredirs_ends h0' hl') ?_
    rintro rs s₁ ⟨u, hu, hrs, hin⟩
    refine Ends.bind (argsLoop_ends _ (hu.notMem h0') (hu.suffix.trans hl') (Nat.lt_succ_self _)
      (by decide)) ?_
    rintro ⟨ws, rs'⟩ s₂ ⟨v, hv, hargs, hlen, hws, hin'⟩
    refine ⟨_, (hu.trans hv).of_skip, ?_, ?_⟩
    · show Derives _ _ ((wrap (.exec ws) (rs ++ rs')).map text)
      rw [map_wrap, List.map_append]
      refine .simple hrs hargs ?_
      rw [List.length_map]
      exact (Nat.zero_add _).symm.trans_lt hlen
    · refine all_wrap hws fun r hr => ?_
      exact (List.mem_append.1 hr).elim (hin r) (hin' r)

theorem pipeLoop_ends (m : ℕ) (h0 : 0 ∉ s) (hl : s <:+ line) (hm : s.length < m)
    (hp : ∀ s' : Ptr, 0 ∉ s' → s' <:+ line → s'.length < s.length →
      Ends (parse s') (CmdAt line .line s')) :
    Ends (pipeLoop parse m s) (CmdAt line .pipe s) := by
  induction m generalizing s with
  | zero => exact absurd hm (Nat.not_lt_zero _)
  | succ m ih =>
    rw [pipeLoop]
    simp only [gettoken_skip]
    refine Ends.bind (parseexec_ends h0 hl hp) ?_
    rintro c s₁ ⟨u, hu, hd, hall⟩
    have h0₁ := hu.notMem h0
    have hle := hu.length_le
    split
    next hpk =>
      obtain ⟨_, rfl, ht⟩ := next_of_peek h0₁ starts_bar (by decide) hpk
      have hlt : (gettoken s₁).rest.length < s.length := ht.took.length_lt.trans_le hle
      refine Ends.bind (ih (ht.took.notMem h0₁) (ht.took.suffix.trans (hu.suffix.trans hl))
        (hlt.trans_le (Nat.lt_succ_iff.1 hm)) fun s' h1 h2 h3 => hp s' h1 h2 (h3.trans hlt)) ?_
      rintro d s₂ ⟨v, hv, hd', hall'⟩
      exact ⟨_, hu.trans (ht.took.trans hv), .pipe hd hd', hall, hall'⟩
    next => exact ⟨u, hu.to_skip, hd.one, hall⟩

end

theorem backLoop_ends (n : ℕ) {c : Cmd Word} {s : Ptr} (h0 : 0 ∉ s) (hn : s.length < n) :
    Ends (backLoop n c s) fun c' s' =>
      ∃ k, Took s s' (List.replicate k .amp) ∧ c' = Cmd.back^[k] c := by
  induction n generalizing c s with
  | zero => exact absurd hn (Nat.not_lt_zero _)
  | succ n ih =>
    rw [backLoop]
    simp only [gettoken_skip]
    split
    next hpk =>
      obtain ⟨_, rfl, ht⟩ := next_of_peek h0 starts_amp (by decide) hpk
      have hlt := ht.took.length_lt
      refine (ih (ht.took.notMem h0) (by omega)).mono ?_
      rintro c' s' ⟨k, hk, he⟩
      exact ⟨k + 1, ht.took.trans hk, he⟩
    next => exact ⟨0, took_skip s, rfl⟩

theorem lineLoop_ends {line : Ptr} (n : ℕ) {s : Ptr} (h0 : 0 ∉ s) (hl : s <:+ line)
    (hn : s.length < n) : Ends (lineLoop n s) (CmdAt line .line s) := by
  induction n generalizing s with
  | zero => exact absurd hn (Nat.not_lt_zero _)
  | succ n ih =>
    rw [lineLoop]
    simp only [gettoken_skip]
    refine Ends.bind (pipeLoop_ends _ h0 hl (Nat.lt_succ_self _)
      fun s' h1 h2 h3 => ih h1 h2 (by omega)) ?_
    rintro c s₁ ⟨u, hu, hd, hall⟩
    have h0₁ := hu.notMem h0
    refine Ends.bind (backLoop_ends _ h0₁ (Nat.lt_succ_self _)) ?_
    rintro _ s₂ ⟨k, hk, rfl⟩
    have hu₂ := hu.trans hk
    have h0₂ := hk.notMem h0₁
    have hle := hu₂.length_le
    split
    next hpk =>
      obtain ⟨_, rfl, ht⟩ := next_of_peek h0₂ starts_semi (by decide) hpk
      have hlt : (gettoken s₂).rest.length < s.length := ht.took.length_lt.trans_le hle
      refine Ends.bind (ih (ht.took.notMem h0₂) (ht.took.suffix.trans (hu₂.suffix.trans hl))
        (hlt.trans_le (Nat.lt_succ_iff.1 hn))) ?_
      rintro d s₃ ⟨v, hv, hd', hall'⟩
      refine ⟨_, hu.trans (hk.trans (ht.took.trans hv)), ?_, all_backs k hall, hall'⟩
      show Derives _ _ (.list ((Cmd.back^[k] c).map text) (d.map text))
      rw [map_backs]
      exact .list k hd hd'
    next =>
      refine ⟨_, hu₂.to_skip, ?_, all_backs k hall⟩
      rw [map_backs]
      exact .last k hd

end Xv6.User.Sh
