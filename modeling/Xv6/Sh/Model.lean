import Mathlib.Data.List.Basic

/-!
# The parser of the shell

The parser of `sh.c`. A pointer into the line is what is left of the line from
there on, so `s++` takes the tail and `s == es` says that nothing is left. The
loops and the recursion run on fuel, and `Stop.fuel` says that it ran out.
`malloc` does not fail.
-/

namespace Xv6.Sh

/-- A pointer into the line, whose end is `es`. -/
abbrev Ptr := List Char

def MAXARGS : Nat := 10

def O_RDONLY : Nat := 0x000
def O_WRONLY : Nat := 0x001
def O_CREATE : Nat := 0x200
def O_TRUNC : Nat := 0x400

/-- A counted string, from `q` up to `eq`. -/
structure Span where
  q : Ptr
  eq : Ptr
  deriving DecidableEq, Repr

/-- `struct cmd`, with words of type `W`. -/
inductive Cmd (W : Type) where
  | exec (argv : List W)
  | redir (cmd : Cmd W) (file : W) (mode fd : Nat)
  | pipe (left right : Cmd W)
  | list (left right : Cmd W)
  | back (cmd : Cmd W)
  deriving DecidableEq, Repr

/-- Why the parser stops without a tree. -/
inductive Stop where
  | panic (s : String)
  | fuel
  deriving DecidableEq, Repr

/-! ## Tokens -/

/-- What `gettoken` returns. -/
inductive Tok where
  /-- 0 -/
  | eof
  | bar | lparen | rparen | semi | amp | less | great
  /-- `'+'`, for `>>` -/
  | append
  /-- `'a'` -/
  | word
  deriving DecidableEq, Repr

def whitespace : List Char := [' ', '\t', '\r', '\n', '\x0b']
def symbols : List Char := ['<', '|', '>', '&', ';', '(', ')']

def isSpace (c : Char) : Bool := c ∈ whitespace

/-- The loop of `gettoken` over a word goes on. -/
def inWord (c : Char) : Bool := c ∉ whitespace ∧ c ∉ symbols

/-- The `switch` of `gettoken`, and where `s` is after it. -/
def scan : Ptr → Tok × Ptr
  | [] => (.eof, [])
  | '|' :: s => (.bar, s)
  | '(' :: s => (.lparen, s)
  | ')' :: s => (.rparen, s)
  | ';' :: s => (.semi, s)
  | '&' :: s => (.amp, s)
  | '<' :: s => (.less, s)
  | '>' :: '>' :: s => (.append, s)
  | '>' :: s => (.great, s)
  | s => (.word, s.dropWhile inWord)

/-- What `gettoken` returns, by value and through its pointers. -/
structure Lexeme where
  tok : Tok
  span : Span
  /-- `*ps` -/
  rest : Ptr

def gettoken (s : Ptr) : Lexeme :=
  let q := s.dropWhile isSpace
  let (tok, eq) := scan q
  { tok, span := { q, eq }, rest := eq.dropWhile isSpace }

/-- `*ps` after `peek`, and what it returns. -/
def peek (s : Ptr) (toks : List Char) : Ptr × Bool :=
  let s := s.dropWhile isSpace
  (s, s.head?.any (· ∈ toks))

/-! ## Commands -/

/-- `cmd->argv[argc] = q`, by the pointer that `parseexec` has to the EXEC under the redirections. -/
def Cmd.addArg {W : Type} (w : W) : Cmd W → Cmd W
  | .exec argv => .exec (argv ++ [w])
  | .redir cmd file mode fd => .redir (cmd.addArg w) file mode fd
  | cmd => cmd

/-- The `switch` of `parseredirs`. -/
def redirect {W : Type} (cmd : Cmd W) (tok : Tok) (file : W) : Cmd W :=
  match tok with
  | .less => .redir cmd file O_RDONLY 0
  | .great => .redir cmd file (O_WRONLY ||| O_CREATE ||| O_TRUNC) 1
  | .append => .redir cmd file (O_WRONLY ||| O_CREATE) 1
  | _ => cmd

def parseredirs : Nat → Cmd Span → Ptr → Except Stop (Cmd Span × Ptr)
  | 0, _, _ => .error .fuel
  | n + 1, cmd, s =>
    let (s, found) := peek s ['<', '>']
    if found then
      let t := gettoken s
      let file := gettoken t.rest
      if file.tok ≠ .word then .error (.panic "missing file for redirection")
      else parseredirs n (redirect cmd t.tok file.span) file.rest
    else .ok (cmd, s)

/-- The loop of `parseexec`. -/
def parseargs : Nat → Nat → Cmd Span → Ptr → Except Stop (Cmd Span × Ptr)
  | 0, _, _, _ => .error .fuel
  | n + 1, argc, ret, s =>
    let (s, found) := peek s ['|', ')', '&', ';']
    if found then .ok (ret, s)
    else
      let t := gettoken s
      if t.tok = .eof then .ok (ret, t.rest)
      else if t.tok ≠ .word then .error (.panic "syntax")
      else if argc + 1 ≥ MAXARGS then .error (.panic "too many args")
      else do
        let (ret, s) ← parseredirs n (ret.addArg t.span) t.rest
        parseargs n (argc + 1) ret s

/-- The loop of `parseline`. -/
def parsebacks : Nat → Cmd Span → Ptr → Except Stop (Cmd Span × Ptr)
  | 0, _, _ => .error .fuel
  | n + 1, cmd, s =>
    let (s, found) := peek s ['&']
    if found then parsebacks n (.back cmd) (gettoken s).rest else .ok (cmd, s)

mutual

def parseline : Nat → Ptr → Except Stop (Cmd Span × Ptr)
  | 0, _ => .error .fuel
  | n + 1, s => do
    let (cmd, s) ← parsepipe n s
    let (cmd, s) ← parsebacks n cmd s
    let (s, found) := peek s [';']
    if found then
      let (right, s) ← parseline n (gettoken s).rest
      .ok (.list cmd right, s)
    else .ok (cmd, s)

def parsepipe : Nat → Ptr → Except Stop (Cmd Span × Ptr)
  | 0, _ => .error .fuel
  | n + 1, s => do
    let (cmd, s) ← parseexec n s
    let (s, found) := peek s ['|']
    if found then
      let (right, s) ← parsepipe n (gettoken s).rest
      .ok (.pipe cmd right, s)
    else .ok (cmd, s)

def parseexec : Nat → Ptr → Except Stop (Cmd Span × Ptr)
  | 0, _ => .error .fuel
  | n + 1, s =>
    let (s, found) := peek s ['(']
    if found then parseblock n s
    else do
      let (ret, s) ← parseredirs n (.exec []) s
      parseargs n 0 ret s

def parseblock : Nat → Ptr → Except Stop (Cmd Span × Ptr)
  | 0, _ => .error .fuel
  | n + 1, s =>
    let (s, found) := peek s ['(']
    if found then do
      let (cmd, s) ← parseline n (gettoken s).rest
      let (s, found) := peek s [')']
      if found then parseredirs n cmd (gettoken s).rest
      else .error (.panic "syntax - missing )")
    else .error (.panic "parseblock")

end

/-! ## The strings of a command -/

/-- The line in memory, up to and with its NUL. -/
abbrev Buffer := List Char

/-- `*p = 0` -/
def Buffer.clear (buf : Buffer) (p : Ptr) : Buffer := buf.set (buf.length - 1 - p.length) '\x00'

/-- The string at `p`. -/
def Buffer.string (buf : Buffer) (p : Ptr) : List Char :=
  (buf.drop (buf.length - 1 - p.length)).takeWhile (· ≠ '\x00')

def nulterminate : Cmd Span → Buffer → Buffer
  | .exec argv, buf => argv.foldl (fun buf w => buf.clear w.eq) buf
  | .redir cmd file _ _, buf => (nulterminate cmd buf).clear file.eq
  | .pipe left right, buf => nulterminate right (nulterminate left buf)
  | .list left right, buf => nulterminate right (nulterminate left buf)
  | .back cmd, buf => nulterminate cmd buf

/-- `parsecmd` of a line: the command, and the line as `nulterminate` leaves it. -/
def parsecmd (n : Nat) (s : Ptr) : Except Stop (Cmd Span × Buffer) := do
  let (cmd, s') ← parseline n s
  let (s', _) := peek s' []
  if s' ≠ [] then .error (.panic "syntax")
  else .ok (cmd, nulterminate cmd (s ++ ['\x00']))

/-- What the strings of a command are, as its pointers find them in memory. -/
def Cmd.map {V W : Type} (f : V → W) : Cmd V → Cmd W
  | .exec argv => .exec (argv.map f)
  | .redir cmd file mode fd => .redir (cmd.map f) (f file) mode fd
  | .pipe left right => .pipe (left.map f) (right.map f)
  | .list left right => .list (left.map f) (right.map f)
  | .back cmd => .back (cmd.map f)

end Xv6.Sh
