import Xv6.User.Sh

/-!
# The grammar of the shell

The tokens of a line, and the grammar over them:

    line  ::= pipe '&'* [';' line]
    pipe  ::= exec ['|' pipe]
    exec  ::= '(' line ')' redir* | redir* (word redir*)*
    redir ::= ('<' | '>' | '>>') word

with fewer than `maxArgs` words in an `exec`. A derivation gives the command that the tokens stand
for. Every command has a text, with parentheses where the grammar needs them.
-/

namespace Xv6.User.Sh

/-- The kinds of redirection: `<`, `>` and `>>`. -/
inductive Op where
  | read
  | write
  | append
  deriving DecidableEq

/-- The tokens of a line. -/
inductive Tok where
  | redir (op : Op)
  | bar
  | amp
  | semi
  | lpar
  | rpar
  | word (w : List UInt8)
  deriving DecidableEq

/-- The characters of words. -/
def wordChar (c : UInt8) : Bool := !isSpace c && !isSymbol c

/-- The tokens of a line: symbols, and words as long as possible. -/
def lex (s : List UInt8) : List Tok :=
  match s with
  | [] => []
  | c :: s =>
    if isSpace c then lex s
    else if c = ch '<' then .redir .read :: lex s
    else if c = ch '>' then
      if chr s 0 = ch '>' then .redir .append :: lex (s.drop 1) else .redir .write :: lex s
    else if c = ch '|' then .bar :: lex s
    else if c = ch '&' then .amp :: lex s
    else if c = ch ';' then .semi :: lex s
    else if c = ch '(' then .lpar :: lex s
    else if c = ch ')' then .rpar :: lex s
    else .word (c :: s.takeWhile wordChar) :: lex (s.dropWhile wordChar)
termination_by s.length
decreasing_by
  all_goals simp only [List.length_cons, List.length_drop]
  all_goals try omega
  exact Nat.lt_succ_of_le (List.length_dropWhile_le _ _)

/-! ## The grammar -/

def Op.mode : Op → ℕ
  | .read => oRdonly
  | .write => oWronly ||| oCreate ||| oTrunc
  | .append => oWronly ||| oCreate

def Op.fd : Op → ℕ
  | .read => 0
  | .write => 1
  | .append => 1

/-- Commands with the texts of their strings. -/
abbrev Tree := Cmd (List UInt8)

/-- Zero or more redirections. -/
inductive Redirs : List Tok → List (Redir (List UInt8)) → Prop
  | nil : Redirs [] []
  | cons {u rs} (op : Op) (w : List UInt8) (h : Redirs u rs) :
      Redirs (.redir op :: .word w :: u) (⟨w, op.mode, op.fd⟩ :: rs)

/-- Zero or more words, each with redirections behind it. -/
inductive Args : List Tok → List (List UInt8) → List (Redir (List UInt8)) → Prop
  | nil : Args [] [] []
  | cons {u rs v ws rs'} (w : List UInt8) (h : Redirs u rs) (h' : Args v ws rs') :
      Args (.word w :: (u ++ v)) (w :: ws) (rs ++ rs')

/-- The nonterminals that stand for commands. -/
inductive Nt where
  | line
  | pipe
  | exec

/-- The tokens derive the command from the nonterminal. -/
inductive Derives : Nt → List Tok → Tree → Prop
  | last {u c} (k : ℕ) (h : Derives .pipe u c) :
      Derives .line (u ++ List.replicate k .amp) (Cmd.back^[k] c)
  | list {u c v d} (k : ℕ) (h : Derives .pipe u c) (h' : Derives .line v d) :
      Derives .line (u ++ (List.replicate k .amp ++ .semi :: v)) (.list (Cmd.back^[k] c) d)
  | one {u c} (h : Derives .exec u c) : Derives .pipe u c
  | pipe {u c v d} (h : Derives .exec u c) (h' : Derives .pipe v d) :
      Derives .pipe (u ++ .bar :: v) (.pipe c d)
  | block {u c v rs} (h : Derives .line u c) (h' : Redirs v rs) :
      Derives .exec (.lpar :: (u ++ .rpar :: v)) (wrap c rs)
  | simple {u rs v ws rs'} (h : Redirs u rs) (h' : Args v ws rs') (hn : ws.length < maxArgs) :
      Derives .exec (u ++ v) (wrap (.exec ws) (rs ++ rs'))

/-! ## Printing -/

/-- A word: some characters, none of them white space or a symbol. -/
def ValidWord (w : List UInt8) : Prop := w ≠ [] ∧ ∀ c ∈ w, wordChar c = true ∧ c ≠ 0

/-- The commands that the parser can build. -/
def Valid : Tree → Prop
  | .exec ws => ws.length < maxArgs ∧ ∀ w ∈ ws, ValidWord w
  | .redir c f mode fd => Valid c ∧ ValidWord f ∧ ∃ op : Op, mode = op.mode ∧ fd = op.fd
  | .pipe l r => Valid l ∧ Valid r
  | .list l r => Valid l ∧ Valid r
  | .back c => Valid c

/-- Where a command is printed: as a line, before a `&`, as a pipe, or as a member of a pipe. -/
inductive Level where
  | line
  | amps
  | pipe
  | exec

/-- The redirection that a mode stands for. -/
def opOf (mode : ℕ) : Op :=
  if mode = Op.mode .read then .read else if mode = Op.mode .append then .append else .write

/-- The tokens of a command, in parentheses if it cannot stand alone at its place. -/
def render : Tree → Level → List Tok
  | .exec ws, _ => ws.map .word
  | .redir c f mode _, _ => render c .exec ++ [.redir (opOf mode), .word f]
  | .pipe l r, .exec => .lpar :: ((render l .exec ++ .bar :: render r .pipe) ++ [.rpar])
  | .pipe l r, _ => render l .exec ++ .bar :: render r .pipe
  | .back c, .line => render c .amps ++ [.amp]
  | .back c, .amps => render c .amps ++ [.amp]
  | .back c, _ => .lpar :: ((render c .amps ++ [.amp]) ++ [.rpar])
  | .list l r, .line => render l .amps ++ .semi :: render r .line
  | .list l r, _ => .lpar :: ((render l .amps ++ .semi :: render r .line) ++ [.rpar])

def Tok.chars : Tok → List UInt8
  | .redir .read => [ch '<']
  | .redir .write => [ch '>']
  | .redir .append => [ch '>', ch '>']
  | .bar => [ch '|']
  | .amp => [ch '&']
  | .semi => [ch ';']
  | .lpar => [ch '(']
  | .rpar => [ch ')']
  | .word w => w

/-- The text of a list of tokens. -/
def spell (ts : List Tok) : List UInt8 := ts.flatMap fun t => t.chars ++ [ch ' ']

/-- The text of a command. -/
def print (t : Tree) : List UInt8 := spell (render t .line)

theorem opOf_mode (op : Op) : opOf op.mode = op := by cases op <;> decide

theorem wrap_concat {α : Type} (c : Cmd α) (rs : List (Redir α)) (r : Redir α) :
    wrap c (rs ++ [r]) = .redir (wrap c rs) r.file r.mode r.fd := List.foldl_concat _ _ _ _

theorem Redirs.append {u v rs rs'} (h : Redirs u rs) (h' : Redirs v rs') :
    Redirs (u ++ v) (rs ++ rs') := by
  induction h with
  | nil => exact h'
  | cons op w _ ih => exact .cons op w ih

theorem args_map (ws : List (List UInt8)) : Args (ws.map .word) ws [] := by
  induction ws with
  | nil => exact .nil
  | cons w ws ih => exact .cons w .nil ih

/-- Redirections behind the last argument. -/
theorem Args.redirs {v ws rs u rs'} (h : Args v ws rs) (hv : v ≠ []) (hr : Redirs u rs') :
    Args (v ++ u) ws (rs ++ rs') := by
  induction h with
  | nil => exact absurd rfl hv
  | @cons u₁ rs₁ v₁ ws₁ rs₁' w h h' ih =>
    by_cases hv₁ : v₁ = []
    · subst hv₁
      cases h'
      have := Args.cons w (h.append hr) .nil
      simpa using this
    · have := Args.cons w h (ih hv₁)
      simpa using this

theorem Derives.redir {u c} (h : Derives .exec u c) (op : Op) (w : List UInt8) :
    Derives .exec (u ++ [.redir op, .word w]) (.redir c w op.mode op.fd) := by
  have hr : Redirs [.redir op, .word w] [⟨w, op.mode, op.fd⟩] := .cons op w .nil
  cases h with
  | @block u c v rs h h' =>
    have hd := Derives.block h (h'.append hr)
    rw [wrap_concat] at hd
    simpa using hd
  | @simple u rs v ws rs' h h' hn =>
    by_cases hv : v = []
    · subst hv
      cases h'
      have hd := Derives.simple (h.append hr) .nil hn
      rw [List.append_nil, List.append_nil, wrap_concat] at hd
      simpa using hd
    · have hd := Derives.simple h (h'.redirs hv hr) hn
      rw [← List.append_assoc rs, wrap_concat] at hd
      simpa using hd

theorem Derives.paren {u c} (h : Derives .line u c) : Derives .exec (.lpar :: (u ++ [.rpar])) c :=
  .block h .nil

/-- What is printed derives the command, at each place. -/
structure Renders (c : Tree) : Prop where
  line : Derives .line (render c .line) c
  amps : ∃ k u d, render c .amps = u ++ List.replicate k .amp ∧ c = Cmd.back^[k] d ∧
    Derives .pipe u d
  pipe : Derives .pipe (render c .pipe) c
  exec : Derives .exec (render c .exec) c

theorem Derives.line_of_pipe {u c} (h : Derives .pipe u c) : Derives .line u c := by
  have hd := Derives.last 0 h
  rwa [List.replicate_zero, List.append_nil] at hd

theorem Renders.of_exec {c : Tree} (h : Derives .exec (render c .exec) c)
    (hl : ∀ l, render c l = render c .exec) : Renders c where
  line := by
    rw [hl]
    exact h.one.line_of_pipe
  amps := ⟨0, render c .exec, c, by rw [hl, List.replicate_zero, List.append_nil], rfl, h.one⟩
  pipe := by
    rw [hl]
    exact h.one
  exec := h

theorem renders {c : Tree} (hc : Valid c) : Renders c := by
  induction c with
  | exec ws =>
    apply Renders.of_exec _ fun _ => rfl
    exact Derives.simple .nil (args_map ws) hc.1
  | redir c f mode fd ih =>
    obtain ⟨hc, -, op, rfl, rfl⟩ := hc
    apply Renders.of_exec _ fun _ => rfl
    rw [render, opOf_mode]
    exact (ih hc).exec.redir op f
  | pipe l r ihl ihr =>
    have hp := Derives.pipe (ihl hc.1).exec (ihr hc.2).pipe
    refine ⟨hp.line_of_pipe, ⟨0, _, _, ?_, rfl, hp⟩, hp, hp.line_of_pipe.paren⟩
    rw [List.replicate_zero, List.append_nil]
    rfl
  | list l r ihl ihr =>
    obtain ⟨k, u, d, he, rfl, hd⟩ := (ihl hc.1).amps
    have hl : Derives .line (render (.list (Cmd.back^[k] d) r) .line) (.list (Cmd.back^[k] d) r) := by
      have := Derives.list k hd (ihr hc.2).line
      rwa [← List.append_assoc, ← he] at this
    refine ⟨hl, ⟨0, _, _, ?_, rfl, hl.paren.one⟩, hl.paren.one, hl.paren⟩
    rw [List.replicate_zero, List.append_nil]
    rfl
  | back c ih =>
    obtain ⟨k, u, d, he, rfl, hd⟩ := (ih hc).amps
    have hk : render (Cmd.back^[k] d) .amps ++ [.amp] = u ++ List.replicate (k + 1) .amp := by
      rw [he, List.append_assoc, ← List.replicate_succ']
    have hb : Cmd.back (Cmd.back^[k] d) = Cmd.back^[k + 1] d :=
      (Function.iterate_succ_apply' _ _ _).symm
    have hl : Derives .line (render (.back (Cmd.back^[k] d)) .line) (.back (Cmd.back^[k] d)) := by
      have := Derives.last (k + 1) hd
      rwa [← hk, ← hb] at this
    exact ⟨hl, ⟨k + 1, u, d, hk, hb, hd⟩, hl.paren.one, hl.paren⟩

end Xv6.User.Sh
