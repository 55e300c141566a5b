import Xv6.User.Parse

/-!
# The parser of the shell accepts its grammar

What is derived is parsed: by induction on the derivation, the function for the nonterminal returns
the command if what follows may follow the nonterminal. So `parsecmd` accepts exactly the lines that
the grammar derives, and the command is the only one.
-/

namespace Xv6.User.Sh

/-! ## What may follow -/

/-- The tokens that may follow what a nonterminal derives. -/
def Nt.follow : Nt → List Tok
  | .line => [.rpar]
  | .pipe => [.rpar, .amp, .semi]
  | .exec => [.rpar, .amp, .semi, .bar]

/-- The rest of the tokens may follow the nonterminal. -/
def Follow (N : Nt) (v : List Tok) : Prop := ∀ t ∈ v.head?, t ∈ N.follow

theorem Follow.nil (N : Nt) : Follow N [] := fun _ h => nomatch h

theorem Follow.cons {N : Nt} {t : Tok} {v : List Tok} (h : t ∈ N.follow) : Follow N (t :: v) := by
  rintro _ ⟨⟩
  exact h

/-- The rest of the tokens does not begin with one of the symbols. -/
def Clear (toks : List UInt8) (v : List Tok) : Prop := ∀ t ∈ v.head?, t.starts toks = false

theorem Clear.cons {toks : List UInt8} {t : Tok} {v : List Tok} (h : t.starts toks = false) :
    Clear toks (t :: v) := by
  rintro _ ⟨⟩
  exact h

theorem Follow.clear {N : Nt} {v : List Tok} {toks : List UInt8} (h : Follow N v)
    (hd : ∀ t ∈ N.follow, t.starts toks = false) : Clear toks v := fun t ht => hd t (h t ht)

theorem peek_clear {s : Ptr} {toks : List UInt8} (h0 : 0 ∉ s) (hs : toks ⊆ symbols)
    (h : Clear toks (lex s)) : ¬(peek s toks).1 := by
  rcases done_or_next h0 with hd | ⟨t, ht⟩
  · rw [hd.peek]
    exact Bool.false_ne_true
  · rw [ht.peek toks hs, h t (by rw [ht.lex]; rfl)]
    exact Bool.false_ne_true

/-- Redirections, unless there are none, begin with a redirection. -/
theorem Redirs.clear {u v : List Tok} {rs} {toks : List UInt8} (h : Redirs u rs)
    (ht : ∀ op, (Tok.redir op).starts toks = false) (hv : Clear toks v) : Clear toks (u ++ v) := by
  cases h with
  | nil => exact hv
  | cons op w h => exact Clear.cons (ht op)

theorem Args.clear {u v : List Tok} {ws rs} {toks : List UInt8} (h : Args u ws rs)
    (hv : Clear toks v) : Clear toks (u ++ v) := by
  cases h with
  | nil => exact hv
  | cons w h h' => exact Clear.cons rfl

/-! ## What is derived is parsed -/

theorem ok_bind {α β : Type} {r : Except Err α} {a : α} (h : r = .ok a) (f : α → Except Err β) :
    (r >>= f) = f a := by
  rw [h]
  rfl

theorem redirsLoop_derives {u : List Tok} {rs} (h : Redirs u rs) (n : ℕ) {s : Ptr} {v : List Tok}
    (h0 : 0 ∉ s) (hl : lex s = u ++ v) (hv : Clear [ch '<', ch '>'] v) (hn : s.length < n) :
    ∃ a, redirsLoop n s = .ok a ∧ Took s a.2 u ∧ a.1.map (Redir.map text) = rs := by
  induction h generalizing n s with
  | nil =>
    obtain ⟨n, rfl⟩ := Nat.exists_eq_add_of_lt hn
    rw [redirsLoop, if_neg (peek_clear h0 (by decide) (hl.symm ▸ hv))]
    exact ⟨_, rfl, took_skip s, rfl⟩
  | @cons u rs op w h ih =>
    obtain ⟨n, rfl⟩ := Nat.exists_eq_succ_of_ne_zero (Nat.ne_zero_of_lt hn)
    obtain ⟨ht, hl⟩ := next_of_lex h0 hl
    have h0' := ht.took.notMem h0
    obtain ⟨ht', hl'⟩ := next_of_lex h0' hl
    have htook := ht.took.trans ht'.took
    have hlt := htook.length_lt
    obtain ⟨a, ha, hta, hm⟩ := ih n (ht'.took.notMem h0') hl' (by omega)
    obtain ⟨hw, -⟩ := ht'.word w rfl
    have hpk : (peek s [ch '<', ch '>']).1 :=
      (ht.peek _ (by decide)).trans (starts_redir.2 ⟨op, rfl⟩)
    rw [redirsLoop, if_pos hpk]
    simp only [gettoken_skip]
    have hcode : (gettoken (gettoken s).rest).ret = ch 'a' := ht'.code
    rw [if_pos hcode, ok_bind ha]
    refine ⟨_, rfl, htook.trans hta, ?_⟩
    rw [ht.code, redirOf_code]
    show (⟨text ⟨_, _⟩, op.mode, op.fd⟩ :: a.1.map (Redir.map text) : List (Redir _)) = _
    rw [hw.text, hm]

theorem parseredirs_derives {u v : List Tok} {rs} (h : Redirs u rs) {s : Ptr} (h0 : 0 ∉ s)
    (hl : lex s = u ++ v) (hv : Clear [ch '<', ch '>'] v) :
    ∃ a, parseredirs s = .ok a ∧ Took s a.2 u ∧ a.1.map (Redir.map text) = rs :=
  redirsLoop_derives h _ h0 hl hv (Nat.lt_succ_self _)

theorem argsLoop_derives {u : List Tok} {ws rs} (h : Args u ws rs) (n argc : ℕ) {s : Ptr}
    {v : List Tok} (h0 : 0 ∉ s) (hl : lex s = u ++ v) (hv : Follow .exec v) (hn : s.length < n)
    (ha : argc + ws.length < maxArgs) :
    ∃ a, argsLoop n argc s = .ok a ∧ Took s a.2 u ∧ a.1.1.map text = ws ∧
      a.1.2.map (Redir.map text) = rs := by
  induction h generalizing n argc s with
  | nil =>
    obtain ⟨n, rfl⟩ := Nat.exists_eq_succ_of_ne_zero (Nat.ne_zero_of_lt hn)
    rw [argsLoop]
    simp only [gettoken_skip]
    cases v with
    | nil =>
      have hd := done_of_lex h0 hl
      rw [if_neg (by rw [hd.peek]; exact Bool.false_ne_true), if_pos hd.code]
      exact ⟨_, rfl, hd.took, rfl, rfl⟩
    | cons t v =>
      obtain ⟨ht, -⟩ := next_of_lex h0 hl
      have hend : ∀ t ∈ Nt.follow .exec, t.starts [ch '|', ch ')', ch '&', ch ';'] := by
        decide
      rw [if_pos ((ht.peek _ (by decide)).trans (hend t (hv t rfl)))]
      exact ⟨_, rfl, took_skip s, rfl, rfl⟩
  | @cons u rs v' ws rs' w h h' ih =>
    obtain ⟨n, rfl⟩ := Nat.exists_eq_succ_of_ne_zero (Nat.ne_zero_of_lt hn)
    rw [List.cons_append, List.append_assoc] at hl
    obtain ⟨ht, hl⟩ := next_of_lex h0 hl
    have h0' := ht.took.notMem h0
    have hlt := ht.took.length_lt
    obtain ⟨hw, -⟩ := ht.word w rfl
    obtain ⟨a, ha₁, hta, hm⟩ := parseredirs_derives h h0' hl (h'.clear (hv.clear (by decide)))
    have hla : lex a.2 = v' ++ v := List.append_cancel_left (hta.lex.symm.trans hl)
    have hle := hta.length_le
    rw [List.length_cons] at ha
    obtain ⟨b, hb, htb, hmb, hrb⟩ := ih n (argc + 1) (hta.notMem h0') hla (by omega) (by omega)
    have hcl : Clear [ch '|', ch ')', ch '&', ch ';'] (lex s) := by
      rw [ht.lex]
      exact Clear.cons rfl
    rw [argsLoop, if_neg (peek_clear h0 (by decide) hcl)]
    simp only [gettoken_skip]
    have hcode : (gettoken s).ret = ch 'a' := ht.code
    rw [hcode, if_neg (by decide), if_pos rfl, if_neg (by omega), ok_bind ha₁, ok_bind hb]
    refine ⟨_, rfl, ht.took.trans (hta.trans htb), ?_, ?_⟩
    · show text ⟨_, _⟩ :: b.1.1.map text = _
      rw [hw.text, hmb]
    · rw [List.map_append, hm, hrb]

theorem backLoop_derives (k n : ℕ) {c : Cmd Word} {s : Ptr} {v : List Tok} (h0 : 0 ∉ s)
    (hl : lex s = List.replicate k .amp ++ v) (hv : Clear [ch '&'] v) (hn : s.length < n) :
    ∃ a, backLoop n c s = .ok a ∧ Took s a.2 (List.replicate k .amp) ∧ a.1 = Cmd.back^[k] c := by
  induction k generalizing n c s with
  | zero =>
    obtain ⟨n, rfl⟩ := Nat.exists_eq_succ_of_ne_zero (Nat.ne_zero_of_lt hn)
    rw [backLoop, if_neg (peek_clear h0 (by decide) (hl.symm ▸ hv))]
    exact ⟨_, rfl, took_skip s, rfl⟩
  | succ k ih =>
    obtain ⟨n, rfl⟩ := Nat.exists_eq_succ_of_ne_zero (Nat.ne_zero_of_lt hn)
    obtain ⟨ht, hl⟩ := next_of_lex h0 hl
    have hlt := ht.took.length_lt
    obtain ⟨a, ha, hta, hm⟩ := ih n (ht.took.notMem h0) hl (by omega)
    rw [backLoop, if_pos ((ht.peek _ (by decide)).trans (starts_amp.2 rfl)), gettoken_skip]
    exact ⟨a, ha, ht.took.trans hta, hm⟩

/-- The function for a nonterminal, on some fuel. -/
def parserOf (n m : ℕ) : Nt → Parser (Cmd Word)
  | .line => lineLoop (n + 1)
  | .pipe => pipeLoop (lineLoop n) (m + 1)
  | .exec => parseexec (lineLoop n)

/-- The result is the command, and the tokens are consumed. -/
def Gives (s : Ptr) (u : List Tok) (c : Tree) (r : Except Err (Cmd Word × Ptr)) : Prop :=
  ∃ a, r = .ok a ∧ Took s a.2 u ∧ a.1.map text = c

/-- The function for the nonterminal returns the command on every text of the tokens. -/
def Parsed (N : Nt) (u : List Tok) (c : Tree) : Prop :=
  ∀ (n m : ℕ) (s : Ptr) (v : List Tok), 0 ∉ s → lex s = u ++ v → Follow N v → s.length ≤ n →
    s.length ≤ m → Gives s u c (parserOf n m N s)

theorem parsed_block {u : List Tok} {c : Tree} {v : List Tok} {rs} (ih : Parsed .line u c)
    (hr : Redirs v rs) : Parsed .exec (.lpar :: (u ++ .rpar :: v)) (wrap c rs) := by
  intro n m s w h0 hl hf hn hm
  rw [List.cons_append, List.append_assoc, List.cons_append] at hl
  obtain ⟨ht, hl⟩ := next_of_lex h0 hl
  have h0₁ := ht.took.notMem h0
  have hlt := ht.took.length_lt
  obtain ⟨n, rfl⟩ := Nat.exists_eq_succ_of_ne_zero (Nat.ne_zero_of_lt (hlt.trans_le hn))
  obtain ⟨a, (ha : lineLoop (n + 1) _ = _), hta, hma⟩ := ih n n _ _ h0₁ hl (.cons (by decide)) (by omega) (by omega)
  have h0₂ := hta.notMem h0₁
  obtain ⟨ht', hl'⟩ := next_of_lex h0₂ (List.append_cancel_left (hta.lex.symm.trans hl))
  obtain ⟨b, hb, htb, hmb⟩ :=
    parseredirs_derives hr (ht'.took.notMem h0₂) hl' (hf.clear (by decide))
  have hpk : (peek s [ch '(']).1 := (ht.peek _ (by decide)).trans (starts_lpar.2 rfl)
  have hpk' : (peek a.2 [ch ')']).1 := (ht'.peek _ (by decide)).trans (starts_rpar.2 rfl)
  show Gives _ _ _ (parseexec (lineLoop (n + 1)) s)
  rw [parseexec, if_pos hpk, parseblock, peek_skip, if_pos hpk]
  simp only [gettoken_skip]
  rw [ok_bind ha, if_pos hpk', ok_bind hb]
  refine ⟨_, rfl, ht.took.trans (hta.trans (ht'.took.trans htb)), ?_⟩
  rw [map_wrap, hma, hmb]

theorem parsed_simple {u : List Tok} {rs} {v : List Tok} {ws rs'} (hr : Redirs u rs)
    (ha : Args v ws rs') (hn : ws.length < maxArgs) :
    Parsed .exec (u ++ v) (wrap (.exec ws) (rs ++ rs')) := by
  intro n m s w h0 hl hf _ _
  rw [List.append_assoc] at hl
  have hsk := took_skip s
  have h0' := hsk.notMem h0
  have hcl : Clear [ch '('] (lex s) := by
    rw [hl]
    exact hr.clear (fun op => by cases op <;> decide) (ha.clear (hf.clear (by decide)))
  obtain ⟨a, ha₁, hta, hma⟩ :=
    parseredirs_derives hr h0' ((lex_skip s).trans hl) (ha.clear (hf.clear (by decide)))
  have hla : lex a.2 = v ++ w :=
    List.append_cancel_left (hta.lex.symm.trans ((lex_skip s).trans hl))
  obtain ⟨b, hb, htb, hmb, hrb⟩ := argsLoop_derives ha (a.2.length + 1) 0 (hta.notMem h0') hla hf
    (Nat.lt_succ_self _) (by omega)
  show Gives _ _ _ (parseexec (lineLoop n) s)
  rw [parseexec, if_neg (peek_clear h0 (by decide) hcl), ok_bind ha₁, ok_bind hb]
  refine ⟨_, rfl, (hta.trans htb).of_skip, ?_⟩
  rw [map_wrap, List.map_append, hma, hrb, ← hmb]
  rfl

theorem parsed_one {u : List Tok} {c : Tree} (ih : Parsed .exec u c) : Parsed .pipe u c := by
  intro n m s v h0 hl hf hn hm
  have hf' : Follow .exec v := fun t ht => by
    have := hf t ht
    simp only [Nt.follow, List.mem_cons] at this ⊢
    tauto
  obtain ⟨a, (ha : parseexec (lineLoop n) s = _), hta, hma⟩ := ih n m s v h0 hl hf' hn hm
  have hla : lex a.2 = v := List.append_cancel_left (hta.lex.symm.trans hl)
  have hcl : Clear [ch '|'] (lex a.2) := hla.symm ▸ hf.clear (by decide)
  show Gives _ _ _ (pipeLoop (lineLoop n) (m + 1) s)
  rw [pipeLoop, ok_bind ha, if_neg (peek_clear (hta.notMem h0) (by decide) hcl)]
  exact ⟨_, rfl, hta.to_skip, hma⟩

theorem parsed_pipe {u : List Tok} {c : Tree} {v : List Tok} {d : Tree} (ih : Parsed .exec u c)
    (ih' : Parsed .pipe v d) : Parsed .pipe (u ++ .bar :: v) (.pipe c d) := by
  intro n m s w h0 hl hf hn hm
  rw [List.append_assoc, List.cons_append] at hl
  obtain ⟨a, (ha : parseexec (lineLoop n) s = _), hta, hma⟩ :=
    ih n m s _ h0 hl (.cons (by decide)) hn hm
  have h0₁ := hta.notMem h0
  have hle := hta.length_le
  obtain ⟨ht, hl₁⟩ := next_of_lex h0₁ (List.append_cancel_left (hta.lex.symm.trans hl))
  have hlt := ht.took.length_lt
  obtain ⟨m, rfl⟩ := Nat.exists_eq_succ_of_ne_zero (Nat.ne_zero_of_lt (hlt.trans_le (hle.trans hm)))
  obtain ⟨b, (hb : pipeLoop (lineLoop n) (m + 1) _ = _), htb, hmb⟩ :=
    ih' n m _ w (ht.took.notMem h0₁) hl₁ hf (by omega) (by omega)
  have hpk : (peek a.2 [ch '|']).1 := (ht.peek _ (by decide)).trans (starts_bar.2 rfl)
  show Gives _ _ _ (pipeLoop (lineLoop n) (m + 1 + 1) s)
  rw [pipeLoop, ok_bind ha, if_pos hpk, gettoken_skip, ok_bind hb]
  refine ⟨_, rfl, hta.trans (ht.took.trans htb), ?_⟩
  rw [← hma, ← hmb]
  rfl

/-- The pipe and the `&`s at the beginning of a line. -/
theorem parsed_backs {u : List Tok} {c : Tree} (ih : Parsed .pipe u c) (k n : ℕ) {s : Ptr}
    {v : List Tok} (h0 : 0 ∉ s) (hl : lex s = u ++ (List.replicate k .amp ++ v))
    (hf : Follow .pipe v) (hcl : Clear [ch '&'] v) (hn : s.length ≤ n) :
    ∃ a b, parsepipe (lineLoop n) s = .ok a ∧ backLoop (a.2.length + 1) a.1 a.2 = .ok b ∧
      Took s b.2 (u ++ List.replicate k .amp) ∧ b.1.map text = Cmd.back^[k] c := by
  have hf' : Follow .pipe (List.replicate k .amp ++ v) := by
    cases k with
    | zero => exact hf
    | succ k => exact .cons (by decide)
  obtain ⟨a, ha, hta, hma⟩ := ih n s.length s _ h0 hl hf' hn le_rfl
  have hla := List.append_cancel_left (hta.lex.symm.trans hl)
  obtain ⟨b, hb, htb, hmb⟩ :=
    backLoop_derives k (a.2.length + 1) (hta.notMem h0) hla hcl (Nat.lt_succ_self _)
  refine ⟨a, b, ha, hb, hta.trans htb, ?_⟩
  rw [hmb, map_backs, hma]

theorem parsed_last {u : List Tok} {c : Tree} (k : ℕ) (ih : Parsed .pipe u c) :
    Parsed .line (u ++ List.replicate k .amp) (Cmd.back^[k] c) := by
  intro n m s v h0 hl hf hn _
  have hf' : Follow .pipe v := fun t ht => List.mem_cons.2 (.inl (List.mem_singleton.1 (hf t ht)))
  have hl' := hl
  rw [List.append_assoc] at hl'
  obtain ⟨a, b, ha, hb, htb, hmb⟩ := parsed_backs ih k n h0 hl' hf' (hf.clear (by decide)) hn
  have hlb : lex b.2 = v := List.append_cancel_left (htb.lex.symm.trans hl)
  have hcl : Clear [ch ';'] (lex b.2) := hlb.symm ▸ hf.clear (by decide)
  show Gives _ _ _ (lineLoop (n + 1) s)
  rw [lineLoop, ok_bind ha, ok_bind hb, if_neg (peek_clear (htb.notMem h0) (by decide) hcl)]
  exact ⟨_, rfl, htb.to_skip, hmb⟩

theorem parsed_list {u : List Tok} {c : Tree} {v : List Tok} {d : Tree} (k : ℕ)
    (ih : Parsed .pipe u c) (ih' : Parsed .line v d) :
    Parsed .line (u ++ (List.replicate k .amp ++ .semi :: v)) (.list (Cmd.back^[k] c) d) := by
  intro n m s w h0 hl hf hn _
  rw [List.append_assoc, List.append_assoc, List.cons_append] at hl
  obtain ⟨a, b, ha, hb, htb, hmb⟩ :=
    parsed_backs ih k n h0 hl (.cons (by decide)) (.cons (by decide)) hn
  have h0₁ := htb.notMem h0
  have hle := htb.length_le
  rw [← List.append_assoc] at hl
  obtain ⟨ht, hl₁⟩ := next_of_lex h0₁ (List.append_cancel_left (htb.lex.symm.trans hl))
  have hlt := ht.took.length_lt
  obtain ⟨n, rfl⟩ := Nat.exists_eq_succ_of_ne_zero (Nat.ne_zero_of_lt (hlt.trans_le (hle.trans hn)))
  obtain ⟨e, (he : lineLoop (n + 1) _ = _), hte, hme⟩ :=
    ih' n n _ w (ht.took.notMem h0₁) hl₁ hf (by omega) (by omega)
  have hpk : (peek b.2 [ch ';']).1 := (ht.peek _ (by decide)).trans (starts_semi.2 rfl)
  show Gives _ _ _ (lineLoop (n + 1 + 1) s)
  rw [lineLoop, ok_bind ha, ok_bind hb, if_pos hpk, gettoken_skip, ok_bind he]
  refine ⟨_, rfl, ?_, ?_⟩
  · rw [← List.append_assoc]
    exact htb.trans (ht.took.trans hte)
  · rw [← hmb, ← hme]
    rfl

theorem Derives.parsed {N : Nt} {u : List Tok} {c : Tree} (h : Derives N u c) : Parsed N u c := by
  induction h with
  | last k _ ih => exact parsed_last k ih
  | list k _ _ ih ih' => exact parsed_list k ih ih'
  | one _ ih => exact parsed_one ih
  | pipe _ _ ih ih' => exact parsed_pipe ih ih'
  | block _ hr ih => exact parsed_block ih hr
  | simple hr ha hn => exact parsed_simple hr ha hn

/-! ## Words and texts -/

/-- All words among the tokens are words. -/
def ValidToks (u : List Tok) : Prop := ∀ w, Tok.word w ∈ u → ValidWord w

theorem ValidToks.left {u v : List Tok} (h : ValidToks (u ++ v)) : ValidToks u :=
  fun w hw => h w (List.mem_append_left v hw)

theorem ValidToks.right {u v : List Tok} (h : ValidToks (u ++ v)) : ValidToks v :=
  fun w hw => h w (List.mem_append_right u hw)

theorem ValidToks.tail {t : Tok} {u : List Tok} (h : ValidToks (t :: u)) : ValidToks u :=
  fun w hw => h w (List.mem_cons_of_mem t hw)

theorem lex_valid {s : Ptr} (h0 : 0 ∉ s) : ValidToks (lex s) := by
  induction hn : s.length using Nat.strong_induction_on generalizing s with
  | _ n ih =>
    subst hn
    intro w hw
    rcases done_or_next h0 with hd | ⟨t, ht⟩
    · rw [hd.lex] at hw
      exact absurd hw List.not_mem_nil
    · rw [ht.lex] at hw
      rcases List.mem_cons.1 hw with rfl | hw
      · exact (ht.word w rfl).1.valid
      · exact ih _ ht.took.length_lt (ht.took.notMem h0) rfl w hw

/-- The redirections of the grammar. -/
def ValidRedir (r : Redir (List UInt8)) : Prop :=
  ValidWord r.file ∧ ∃ op : Op, r.mode = op.mode ∧ r.fd = op.fd

theorem Redirs.valid {u rs} (h : Redirs u rs) (hu : ValidToks u) : ∀ r ∈ rs, ValidRedir r := by
  induction h with
  | nil => exact fun r hr => nomatch hr
  | cons op w h ih =>
    rintro r (_ | ⟨_, hr⟩)
    · exact ⟨hu w (by simp), op, rfl, rfl⟩
    · exact ih hu.tail.tail r hr

theorem Args.valid {u ws rs} (h : Args u ws rs) (hu : ValidToks u) :
    (∀ w ∈ ws, ValidWord w) ∧ ∀ r ∈ rs, ValidRedir r := by
  induction h with
  | nil => exact ⟨fun w hw => (nomatch hw), fun r hr => (nomatch hr)⟩
  | cons w h h' ih =>
    obtain ⟨hws, hrs⟩ := ih hu.tail.right
    constructor
    · rintro x (_ | ⟨_, hx⟩)
      · exact hu w List.mem_cons_self
      · exact hws x hx
    · intro r hr
      exact (List.mem_append.1 hr).elim (h.valid hu.tail.left r) (hrs r)

theorem valid_wrap {c : Tree} {rs} (hc : Valid c) (hr : ∀ r ∈ rs, ValidRedir r) :
    Valid (wrap c rs) := by
  induction rs generalizing c with
  | nil => exact hc
  | cons r rs ih =>
    have h := hr r List.mem_cons_self
    exact ih ⟨hc, h⟩ fun x hx => hr x (List.mem_cons_of_mem r hx)

theorem valid_backs {c : Tree} (k : ℕ) (hc : Valid c) : Valid (Cmd.back^[k] c) := by
  induction k generalizing c with
  | zero => exact hc
  | succ k ih => exact ih hc

theorem Derives.valid {N : Nt} {u : List Tok} {c : Tree} (h : Derives N u c) (hu : ValidToks u) :
    Valid c := by
  induction h with
  | last k _ ih => exact valid_backs k (ih hu.left)
  | list k _ _ ih ih' => exact ⟨valid_backs k (ih hu.left), ih' hu.right.right.tail⟩
  | one _ ih => exact ih hu
  | pipe _ _ ih ih' => exact ⟨ih hu.left, ih' hu.right.tail⟩
  | block _ hr ih => exact valid_wrap (ih hu.tail.left) (hr.valid hu.tail.right.tail)
  | simple hr ha hn =>
    obtain ⟨hws, hrs⟩ := ha.valid hu.right
    refine valid_wrap ⟨hn, hws⟩ fun r h => ?_
    exact (List.mem_append.1 h).elim (hr.valid hu.left r) (hrs r)

theorem render_valid {c : Tree} (hc : Valid c) (l : Level) : ValidToks (render c l) := by
  induction c generalizing l with
  | exec ws =>
    intro w hw
    obtain ⟨x, hx, he⟩ := List.mem_map.1 hw
    cases he
    exact hc.2 w hx
  | redir c f mode fd ih =>
    intro w hw
    rw [render, List.mem_append] at hw
    rcases hw with hw | hw
    · exact ih hc.1 _ w hw
    · obtain rfl : w = f := by simpa using hw
      exact hc.2.1
  | pipe c d ihc ihd =>
    intro w hw
    have hw' : Tok.word w ∈ render c .exec ∨ Tok.word w ∈ render d .pipe := by
      cases l <;> simpa [render] using hw
    exact hw'.elim (ihc hc.1 _ w) (ihd hc.2 _ w)
  | list c d ihc ihd =>
    intro w hw
    have hw' : Tok.word w ∈ render c .amps ∨ Tok.word w ∈ render d .line := by
      cases l <;> simpa [render] using hw
    exact hw'.elim (ihc hc.1 _ w) (ihd hc.2 _ w)
  | back c ih =>
    intro w hw
    have hw' : Tok.word w ∈ render c .amps := by
      cases l <;> simpa [render] using hw
    exact ih hc _ w hw'

theorem lex_space (s : Ptr) : lex (ch ' ' :: s) = lex s := by
  rw [lex]
  rfl

theorem lex_symbol {t : Tok} (hw : ∀ w, t ≠ .word w) (s : Ptr) :
    lex (t.chars ++ ch ' ' :: s) = t :: lex s := by
  rw [← lex_space s]
  cases t with
  | word w => exact absurd rfl (hw w)
  | redir op => cases op <;> exact lex.eq_2 _ _
  | _ => exact lex.eq_2 _ _

theorem lex_spell {ts : List Tok} (h : ValidToks ts) : lex (spell ts) = ts := by
  induction ts with
  | nil => rw [spell, List.flatMap_nil, lex]
  | cons t ts ih =>
    have he : spell (t :: ts) = t.chars ++ ch ' ' :: spell ts := by
      rw [spell, List.flatMap_cons, List.append_assoc]
      rfl
    rw [he]
    cases t with
    | word w =>
      obtain ⟨hne, hw⟩ := h w List.mem_cons_self
      obtain ⟨c, w, rfl⟩ := List.exists_cons_of_ne_nil hne
      have hall : ∀ b ∈ w, wordChar b := fun b hb => (hw b (List.mem_cons_of_mem c hb)).1
      have hsp : ¬wordChar (ch ' ') := by decide
      show lex (c :: (w ++ ch ' ' :: spell ts)) = _
      rw [lex_word (hw c List.mem_cons_self).1, List.takeWhile_append_of_pos hall,
        List.dropWhile_append_of_pos hall, List.takeWhile_cons_of_neg hsp,
        List.dropWhile_cons_of_neg hsp, List.append_nil, lex_space, ih h.tail]
    | _ => rw [lex_symbol (by simp), ih h.tail]

theorem notMem_spell {ts : List Tok} (h : ValidToks ts) : 0 ∉ spell ts := by
  intro h0
  obtain ⟨t, ht, h0⟩ := List.mem_flatMap.1 h0
  rcases List.mem_append.1 h0 with h0 | h0
  · cases t with
    | word w => exact ((h w ht).2 0 h0).2 rfl
    | redir op => cases op <;> exact absurd h0 (by decide)
    | _ => exact absurd h0 (by decide)
  · exact absurd h0 (by decide)

/-! ## The command of a line -/

/-- The parser returns the command on the line. -/
def ParsesTo (line : List UInt8) (t : Tree) : Prop :=
  ∃ c buf, parsecmd line = .ok (c, buf) ∧ c.map text = t

theorem parsesTo_of_derives {line : List UInt8} {t : Tree} (h0 : 0 ∉ line)
    (h : Derives .line (lex line) t) : ParsesTo line t := by
  obtain ⟨a, (ha : parseline line = _), hta, hma⟩ :=
    h.parsed line.length line.length line [] h0 (List.append_nil _).symm (.nil _) le_rfl le_rfl
  have hd : Done a.2 := by
    apply done_of_lex (hta.notMem h0)
    exact List.append_cancel_left (hta.lex.symm.trans (List.append_nil _).symm)
  refine ⟨a.1, nulterminate line.length a.1 (line ++ [0]), ?_, hma⟩
  rw [parsecmd, ok_bind ha, if_neg (not_not.2 hd.skip)]

theorem parsecmd_ends {line : List UInt8} (h0 : 0 ∉ line) :
    (∃ t, Derives .line (lex line) t ∧ ParsesTo line t) ∨
      ∃ msg ∈ syntaxErrors, parsecmd line = .error (.panic msg) := by
  have h : Ends (parseline line) (CmdAt line .line line) :=
    lineLoop_ends _ h0 (List.suffix_refl line) (Nat.lt_succ_self _)
  cases hp : parseline line with
  | error e =>
    rw [hp] at h
    cases e with
    | fuel => exact h.elim
    | panic msg =>
      refine .inr ⟨msg, h, ?_⟩
      rw [parsecmd, hp]
      rfl
  | ok a =>
    rw [hp] at h
    obtain ⟨u, hu, hd, -⟩ := h
    by_cases hs : skip a.2 = []
    · left
      have hl : lex line = u := by
        rw [hu.lex, ← lex_skip, hs, lex, List.append_nil]
      refine ⟨a.1.map text, hl ▸ hd, a.1, nulterminate line.length a.1 (line ++ [0]), ?_, rfl⟩
      rw [parsecmd, ok_bind hp, if_neg (not_not.2 hs)]
    · refine .inr ⟨"syntax", List.mem_of_elem_eq_true rfl, ?_⟩
      rw [parsecmd, ok_bind hp, if_pos hs]

theorem ParsesTo.unique {line : List UInt8} {t t' : Tree} (h : ParsesTo line t)
    (h' : ParsesTo line t') : t = t' := by
  obtain ⟨c, buf, hp, rfl⟩ := h
  obtain ⟨c', buf', hp', rfl⟩ := h'
  cases hp.symm.trans hp'
  rfl

theorem ParsesTo.derives {line : List UInt8} {t : Tree} (h0 : 0 ∉ line) (h : ParsesTo line t) :
    Derives .line (lex line) t := by
  rcases parsecmd_ends h0 with ⟨t', hd, ht'⟩ | ⟨msg, -, he⟩
  · exact h.unique ht' ▸ hd
  · obtain ⟨c, buf, hp, -⟩ := h
    exact nomatch hp.symm.trans he

theorem parsesTo_print {t : Tree} (h : Valid t) : ParsesTo (print t) t := by
  have hv := render_valid h .line
  apply parsesTo_of_derives (notMem_spell hv)
  show Derives .line (lex (spell (render t .line))) t
  rw [lex_spell hv]
  exact (renders h).line

/-- `parsecmd` always returns: the command that the grammar derives from the tokens of the line,
which is the only one, or an error. Every command that it can return is what it returns on the text
of that command. -/
theorem parsecmd_accepts_grammar {line : List UInt8} (h0 : 0 ∉ line) :
    (∀ t, ParsesTo line t ↔ Derives .line (lex line) t) ∧
    ((∀ t, ¬Derives .line (lex line) t) →
      ∃ msg ∈ syntaxErrors, parsecmd line = .error (.panic msg)) ∧
    (∀ t t', Derives .line (lex line) t → Derives .line (lex line) t' → t = t') ∧
    (∀ t, ParsesTo line t → Valid t) ∧
    ∀ t, Valid t → ParsesTo (print t) t := by
  refine ⟨fun t => ⟨ParsesTo.derives h0, parsesTo_of_derives h0⟩, ?_, ?_, ?_, fun t => parsesTo_print⟩
  · intro hno
    rcases parsecmd_ends h0 with ⟨t, hd, -⟩ | he
    · exact absurd hd (hno t)
    · exact he
  · intro t t' ht ht'
    exact (parsesTo_of_derives h0 ht).unique (parsesTo_of_derives h0 ht')
  · intro t ht
    exact (ht.derives h0).valid (lex_valid h0)

/-- The line `a|b&`. -/
theorem parsecmd_accepts_pipe : ParsesTo [ch 'a', ch '|', ch 'b', ch '&']
    (.back (.pipe (.exec [[ch 'a']]) (.exec [[ch 'b']]))) := by
  have h0 : 0 ∉ [ch 'a', ch '|', ch 'b', ch '&'] := by decide
  have hl : lex [ch 'a', ch '|', ch 'b', ch '&'] =
      [.word [ch 'a'], .bar, .word [ch 'b'], .amp] := by
    decide +kernel
  refine ((parsecmd_accepts_grammar h0).1 _).2 ?_
  rw [hl]
  have ha := Derives.simple .nil (args_map [[ch 'a']]) (by decide)
  have hb := Derives.simple .nil (args_map [[ch 'b']]) (by decide)
  exact .last 1 (.pipe ha (.one hb))

end Xv6.User.Sh
