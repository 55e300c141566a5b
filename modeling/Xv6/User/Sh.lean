import Xv6.User.Ulib

/-!
# The parser of the shell

The recursive descent parser of `sh.c`. A pointer into the line is the rest of the line, so that the
end `es` of the line is the empty list. A loop runs on as much fuel as the line has characters left,
which it never exhausts since every round consumes some.
-/

namespace Xv6.User.Sh

/-- A pointer into the line. -/
abbrev Ptr := List UInt8

/-- A counted string: where it begins, and where it ends. -/
structure Word where
  q : Ptr
  eq : Ptr

/-- `struct cmd`, with strings of type `α`. -/
inductive Cmd (α : Type) where
  | exec (argv : List α)
  | redir (cmd : Cmd α) (file : α) (mode fd : ℕ)
  | pipe (left right : Cmd α)
  | list (left right : Cmd α)
  | back (cmd : Cmd α)

/-- What `redircmd` is called with, next to the command. -/
structure Redir (α : Type) where
  file : α
  mode : ℕ
  fd : ℕ

/-- The calls of `redircmd` for a command, one after the other. -/
def wrap {α : Type} (c : Cmd α) (rs : List (Redir α)) : Cmd α :=
  rs.foldl (fun c r => .redir c r.file r.mode r.fd) c

/-- How the parser fails: it panics with a message. (Running out of fuel is not a failure of the
parser; it does not happen.) -/
inductive Err where
  | fuel
  | panic (msg : String)

/-! ## Tokens -/

def whitespace : List UInt8 := [ch ' ', ch '\t', ch '\r', ch '\n', 11]

def symbols : List UInt8 := [ch '<', ch '|', ch '>', ch '&', ch ';', ch '(', ch ')']

def isSpace (c : UInt8) : Bool := (strchr whitespace c).isSome

def isSymbol (c : UInt8) : Bool := (strchr symbols c).isSome

def skip (s : Ptr) : Ptr := s.dropWhile isSpace

/-- What `gettoken` returns: the kind of the token, where it begins and ends, and the new `*ps`. -/
structure Token where
  ret : UInt8
  q : Ptr
  eq : Ptr
  rest : Ptr

/-- The kind of the token at `s`, and its end. -/
def tokenAt (s : Ptr) : UInt8 × Ptr :=
  if chr s 0 = 0 then (0, s)
  else if chr s 0 ∈ [ch '|', ch '(', ch ')', ch ';', ch '&', ch '<'] then (chr s 0, s.drop 1)
  else if chr s 0 = ch '>' then
    if chr s 1 = ch '>' then (ch '+', s.drop 2) else (ch '>', s.drop 1)
  else (ch 'a', s.dropWhile fun c => !isSpace c && !isSymbol c)

def gettoken (s : Ptr) : Token :=
  ⟨(tokenAt (skip s)).1, skip s, (tokenAt (skip s)).2, skip (tokenAt (skip s)).2⟩

/-- Whether the next character after white space is one of `toks`, and the new `*ps`. -/
def peek (s : Ptr) (toks : List UInt8) : Bool × Ptr :=
  (chr (skip s) 0 != 0 && (strchr toks (chr (skip s) 0)).isSome, skip s)

/-! ## The parser -/

/-- A parser gets the current position and returns the new one. -/
abbrev Parser (α : Type) := Ptr → Except Err (α × Ptr)

def oRdonly : ℕ := 0
def oWronly : ℕ := 0x001
def oCreate : ℕ := 0x200
def oTrunc : ℕ := 0x400

/-- The call of `redircmd` for a token. -/
def redirOf (tok : UInt8) (file : Word) : List (Redir Word) :=
  if tok = ch '<' then [⟨file, oRdonly, 0⟩]
  else if tok = ch '>' then [⟨file, oWronly ||| oCreate ||| oTrunc, 1⟩]
  else if tok = ch '+' then [⟨file, oWronly ||| oCreate, 1⟩]
  else []

def redirsLoop : ℕ → Parser (List (Redir Word))
  | 0, _ => .error .fuel
  | n + 1, s =>
    if (peek s [ch '<', ch '>']).1 then
      let t := gettoken (skip s)
      let f := gettoken t.rest
      if f.ret = ch 'a' then do
        let r ← redirsLoop n f.rest
        return (redirOf t.ret ⟨f.q, f.eq⟩ ++ r.1, r.2)
      else .error (.panic "missing file for redirection")
    else .ok ([], skip s)

/-- `parseredirs`: the calls of `redircmd` that it makes. -/
def parseredirs : Parser (List (Redir Word)) := fun s => redirsLoop (s.length + 1) s

def maxArgs : ℕ := 10

/-- The loop of `parseexec`. The redirections are put around the command while its arguments are
still added to it. -/
def argsLoop : ℕ → ℕ → Parser (List Word × List (Redir Word))
  | 0, _, _ => .error .fuel
  | n + 1, argc, s =>
    if (peek s [ch '|', ch ')', ch '&', ch ';']).1 then .ok (([], []), skip s)
    else
      let t := gettoken (skip s)
      if t.ret = 0 then .ok (([], []), t.rest)
      else if t.ret = ch 'a' then
        if argc + 1 ≥ maxArgs then .error (.panic "too many args")
        else do
          let r ← parseredirs t.rest
          let a ← argsLoop n (argc + 1) r.2
          return ((⟨t.q, t.eq⟩ :: a.1.1, r.1 ++ a.1.2), a.2)
      else .error (.panic "syntax")

section

variable (parseline : Parser (Cmd Word))

def parseblock : Parser (Cmd Word) := fun s =>
  if (peek s [ch '(']).1 then do
    let c ← parseline (gettoken (skip s)).rest
    if (peek c.2 [ch ')']).1 then do
      let r ← parseredirs (gettoken (skip c.2)).rest
      return (wrap c.1 r.1, r.2)
    else .error (.panic "syntax - missing )")
  else .error (.panic "parseblock")

def parseexec : Parser (Cmd Word) := fun s =>
  if (peek s [ch '(']).1 then parseblock parseline (skip s)
  else do
    let r ← parseredirs (skip s)
    let a ← argsLoop (r.2.length + 1) 0 r.2
    return (wrap (.exec a.1.1) (r.1 ++ a.1.2), a.2)

/-- `parsepipe`, with its recursion on fuel. -/
def pipeLoop : ℕ → Parser (Cmd Word)
  | 0, _ => .error .fuel
  | n + 1, s => do
    let c ← parseexec parseline s
    if (peek c.2 [ch '|']).1 then do
      let d ← pipeLoop n (gettoken (skip c.2)).rest
      return (.pipe c.1 d.1, d.2)
    else .ok (c.1, skip c.2)

def parsepipe : Parser (Cmd Word) := fun s => pipeLoop parseline (s.length + 1) s

end

/-- The loop of `parseline` over `&`. -/
def backLoop : ℕ → Cmd Word → Parser (Cmd Word)
  | 0, _, _ => .error .fuel
  | n + 1, c, s =>
    if (peek s [ch '&']).1 then backLoop n (.back c) (gettoken (skip s)).rest
    else .ok (c, skip s)

/-- `parseline`, with the recursion of the parser on fuel. -/
def lineLoop : ℕ → Parser (Cmd Word)
  | 0, _ => .error .fuel
  | n + 1, s => do
    let c ← parsepipe (lineLoop n) s
    let b ← backLoop (c.2.length + 1) c.1 c.2
    if (peek b.2 [ch ';']).1 then do
      let d ← lineLoop n (gettoken (skip b.2)).rest
      return (.list b.1 d.1, d.2)
    else .ok (b.1, skip b.2)

def parseline : Parser (Cmd Word) := fun s => lineLoop (s.length + 1) s

/-! ## Terminating the strings -/

/-- Where a pointer into a line of length `n` points to. -/
def addr (n : ℕ) (p : Ptr) : ℕ := n - p.length

/-- `nulterminate` on the buffer of a line of length `n`. -/
def nulterminate (n : ℕ) : Cmd Word → List UInt8 → List UInt8
  | .exec argv, buf => argv.foldl (fun buf w => buf.set (addr n w.eq) 0) buf
  | .redir cmd file _ _, buf => (nulterminate n cmd buf).set (addr n file.eq) 0
  | .pipe left right, buf => nulterminate n right (nulterminate n left buf)
  | .list left right, buf => nulterminate n right (nulterminate n left buf)
  | .back cmd, buf => nulterminate n cmd buf

/-- `parsecmd` on a line: the command, and the buffer of the line afterwards. -/
def parsecmd (line : List UInt8) : Except Err (Cmd Word × List UInt8) := do
  let c ← parseline line
  if skip c.2 ≠ [] then .error (.panic "syntax")
  else .ok (c.1, nulterminate line.length c.1 (line ++ [0]))

end Xv6.User.Sh
