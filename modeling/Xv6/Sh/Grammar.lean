import Xv6.Sh.Model
import Mathlib.Data.List.TakeWhile

/-!
# The grammar of command lines

`lex` cuts a line into its tokens, and `Derives` is the grammar on tokens, with the tree that each
derivation denotes. `lex_gettoken` and `peek_eq` say what `gettoken` and `peek` do on tokens.
-/

namespace Xv6.Sh

open List

/-- A tree whose words are what they say. -/
abbrev Tree := Cmd (List Char)

/-! ## Tokens -/

inductive Arrow where
  | input | output | append
  deriving DecidableEq, Repr

inductive Token where
  | word (w : List Char)
  | bar | lparen | rparen | semi | amp
  | redir (a : Arrow)
  deriving DecidableEq, Repr

/-- A character of a word, before the tokens `ts` of what follows; `more` says that the word goes
on there. -/
def wordChar (c : Char) (more : Bool) (ts : List Token) : List Token :=
  match more, ts with
  | true, .word w :: ts => .word (c :: w) :: ts
  | _, ts => .word [c] :: ts

def lex : List Char → List Token
  | [] => []
  | '|' :: s => .bar :: lex s
  | '(' :: s => .lparen :: lex s
  | ')' :: s => .rparen :: lex s
  | ';' :: s => .semi :: lex s
  | '&' :: s => .amp :: lex s
  | '<' :: s => .redir .input :: lex s
  | '>' :: '>' :: s => .redir .append :: lex s
  | '>' :: s => .redir .output :: lex s
  | c :: s => if isSpace c then lex s else wordChar c (s.head?.any inWord) (lex s)

/-! ## The grammar -/

/-- A redirection, and the file it names. -/
abbrev Redir := Arrow × List Char

def Arrow.mode : Arrow → Nat
  | .input => O_RDONLY
  | .output => O_WRONLY ||| O_CREATE ||| O_TRUNC
  | .append => O_WRONLY ||| O_CREATE

def Arrow.fd : Arrow → Nat
  | .input => 0
  | _ => 1

/-- The redirections around a tree, the first innermost. -/
def wrap (t : Tree) (rs : List Redir) : Tree := rs.foldl (fun t r => .redir t r.2 r.1.mode r.1.fd) t

/-- `redirs -> {('<'|'>'|'>>') word}` -/
inductive Redirs : List Token → List Redir → Prop
  | nil : Redirs [] []
  | cons {ts rs} (a : Arrow) (w : List Char) : Redirs ts rs → Redirs (.redir a :: .word w :: ts) ((a, w) :: rs)

/-- `{word redirs}` -/
inductive Args : List Token → List (List Char) → List Redir → Prop
  | nil : Args [] [] []
  | cons {ts ts' ws rs rs'} (w : List Char) : Redirs ts rs → Args ts' ws rs' →
      Args (.word w :: (ts ++ ts')) (w :: ws) (rs ++ rs')

inductive Nonterminal where
  | line | pipe | exec

/-- One BACK for each `&`. -/
def backs : Nat → Tree → Tree
  | 0, t => t
  | n + 1, t => backs n (.back t)

inductive Derives : Nonterminal → List Token → Tree → Prop
  /-- `line -> pipe {'&'}` -/
  | line {ts t} (n : Nat) : Derives .pipe ts t → Derives .line (ts ++ .replicate n .amp) (backs n t)
  /-- `line -> pipe {'&'} ';' line` -/
  | list {ts t ts' t'} (n : Nat) : Derives .pipe ts t → Derives .line ts' t' →
      Derives .line (ts ++ (.replicate n .amp ++ .semi :: ts')) (.list (backs n t) t')
  /-- `pipe -> exec` -/
  | exec {ts t} : Derives .exec ts t → Derives .pipe ts t
  /-- `pipe -> exec '|' pipe` -/
  | pipe {ts t ts' t'} : Derives .exec ts t → Derives .pipe ts' t' →
      Derives .pipe (ts ++ .bar :: ts') (.pipe t t')
  /-- `exec -> '(' line ')' redirs` -/
  | block {ts t ts' rs} : Derives .line ts t → Redirs ts' rs →
      Derives .exec (.lparen :: (ts ++ .rparen :: ts')) (wrap t rs)
  /-- `exec -> redirs {word redirs}` -/
  | words {ts rs ts' ws rs'} : Redirs ts rs → Args ts' ws rs' → ws.length < MAXARGS →
      Derives .exec (ts ++ ts') (wrap (.exec ws) (rs ++ rs'))

/-! ## Cutting a line into tokens -/

variable {c : Char} {s w : List Char}

theorem lex_space (h : isSpace c = true) (s : List Char) : lex (c :: s) = lex s := by
  have hc : c ∈ whitespace := of_decide_eq_true h
  simp only [whitespace, mem_cons, not_mem_nil, or_false] at hc
  rcases hc with rfl | rfl | rfl | rfl | rfl <;> rfl

theorem lex_dropWhile (s : List Char) : lex (s.dropWhile isSpace) = lex s := by
  induction s with
  | nil => rfl
  | cons c s ih =>
    by_cases h : isSpace c = true
    · rw [dropWhile_cons_of_pos h, lex_space h, ih]
    · rw [dropWhile_cons_of_neg h]

theorem lex_inWord (h : inWord c = true) (s : List Char) : lex (c :: s) = wordChar c (s.head?.any inWord) (lex s) := by
  have hc : c ∉ whitespace ∧ c ∉ symbols := of_decide_eq_true h
  have hs : isSpace c = false := decide_eq_false hc.1
  have hsym := hc.2
  simp only [symbols, mem_cons, not_mem_nil, or_false, not_or] at hsym
  rw [lex.eq_def]
  split <;> simp_all

/-- The longest word at the head of a line is its first token. -/
theorem lex_word (hne : w ≠ []) (hw : ∀ c ∈ w, inWord c = true) (hs : s.head?.any inWord = false) :
    lex (w ++ s) = .word w :: lex s := by
  induction w with
  | nil => exact absurd rfl hne
  | cons c w ih =>
    rw [cons_append, lex_inWord (hw c mem_cons_self)]
    cases w with
    | nil => rw [nil_append, hs, wordChar.eq_def]
    | cons d w =>
      have hd : inWord d = true := hw d (by simp)
      have ih := ih (cons_ne_nil d w) fun c hc => hw c (mem_cons_of_mem _ hc)
      rw [ih]
      simp [hd, wordChar]

/-! ## The functions that read tokens -/

/-- The token, if there is one, that `gettoken` returns as `tok` with the string `w`. -/
def Tok.tokens (w : List Char) : Tok → List Token
  | .eof => []
  | .bar => [.bar]
  | .lparen => [.lparen]
  | .rparen => [.rparen]
  | .semi => [.semi]
  | .amp => [.amp]
  | .less => [.redir .input]
  | .great => [.redir .output]
  | .append => [.redir .append]
  | .word => [.word w]

/-- The characters of a counted string. -/
def Span.text (w : Span) : List Char := w.q.take (w.q.length - w.eq.length)

theorem text_append (w s : List Char) : Span.text ⟨w ++ s, s⟩ = w := by
  rw [Span.text, length_append, Nat.add_sub_cancel, take_left]

/-- A word that ends at `eq`, not in the middle of a longer one. -/
structure Span.IsWord (w : Span) : Prop where
  eq : w.q = w.text ++ w.eq
  chars : ∀ c ∈ w.text, inWord c = true
  ends : w.eq.head?.any inWord = false

theorem head_dropWhile (p : Char → Bool) (s : List Char) : (s.dropWhile p).head?.any p = false := by
  cases h : s.dropWhile p with
  | nil => rfl
  | cons c s' =>
    have hne : s.dropWhile p ≠ [] := h ▸ cons_ne_nil c s'
    have hc := head_dropWhile_not p hne
    simp only [h, head_cons] at hc
    simpa using hc

/-- What the `switch` of `gettoken` does, where the line does not start with whitespace. -/
structure Scanned (q : Ptr) (tok : Tok) (eq : Ptr) : Prop where
  append : q = Span.text ⟨q, eq⟩ ++ eq
  tokens : lex q = tok.tokens (Span.text ⟨q, eq⟩) ++ lex eq
  eof : tok = .eof → q = []
  lt : tok ≠ .eof → eq.length < q.length
  word : tok = .word → Span.IsWord ⟨q, eq⟩

theorem Scanned.symbol {q eq : Ptr} {tok : Tok} (w : List Char) (hq : q = w ++ eq) (hw : w ≠ [])
    (htok : tok ≠ .eof ∧ tok ≠ .word) (hlex : lex q = tok.tokens w ++ lex eq) : Scanned q tok eq := by
  subst hq
  have hlen := length_pos_of_ne_nil hw
  refine ⟨?_, ?_, fun h => absurd h htok.1, fun _ => ?_, fun h => absurd h htok.2⟩
  · rw [text_append]
  · rw [text_append, hlex]
  · rw [length_append]
    omega

theorem Scanned.ofWord {q : Ptr} (hc : q.head?.any inWord = true) : Scanned q .word (q.dropWhile inWord) := by
  have hq : q = q.takeWhile inWord ++ q.dropWhile inWord := (takeWhile_append_dropWhile ..).symm
  have hne : q.takeWhile inWord ≠ [] := by
    cases q with
    | nil => cases hc
    | cons c s =>
      have hc : inWord c = true := by simpa using hc
      rw [takeWhile_cons_of_pos hc]
      exact cons_ne_nil _ _
  have hw : ∀ c ∈ q.takeWhile inWord, inWord c = true := fun c h => mem_takeWhile_imp h
  have htext : Span.text ⟨q, q.dropWhile inWord⟩ = q.takeWhile inWord := by
    have h := text_append (q.takeWhile inWord) (q.dropWhile inWord)
    rwa [← hq] at h
  have hends := head_dropWhile inWord q
  have hlex := lex_word hne hw hends
  rw [← hq] at hlex
  have hlen := congrArg length hq
  rw [length_append] at hlen
  have hpos := length_pos_of_ne_nil hne
  refine ⟨?_, ?_, nofun, fun _ => by omega, fun _ => ⟨?_, ?_, hends⟩⟩
  · rw [htext]
    exact hq
  · rw [htext]
    exact hlex
  · rw [htext]
    exact hq
  · rw [htext]
    exact hw

theorem scanned (q : Ptr) (hq : q.head?.any isSpace = false) : Scanned q (scan q).1 (scan q).2 := by
  rw [scan.eq_def]
  split
  case h_1 => exact ⟨rfl, rfl, fun _ => rfl, fun h => absurd rfl h, nofun⟩
  case h_2 s => exact .symbol ['|'] rfl nofun ⟨nofun, nofun⟩ rfl
  case h_3 s => exact .symbol ['('] rfl nofun ⟨nofun, nofun⟩ rfl
  case h_4 s => exact .symbol [')'] rfl nofun ⟨nofun, nofun⟩ rfl
  case h_5 s => exact .symbol [';'] rfl nofun ⟨nofun, nofun⟩ rfl
  case h_6 s => exact .symbol ['&'] rfl nofun ⟨nofun, nofun⟩ rfl
  case h_7 s => exact .symbol ['<'] rfl nofun ⟨nofun, nofun⟩ rfl
  case h_8 s => exact .symbol ['>', '>'] rfl nofun ⟨nofun, nofun⟩ rfl
  case h_9 s hs =>
    refine .symbol ['>'] rfl nofun ⟨nofun, nofun⟩ ?_
    rw [lex.eq_9 s hs]
    rfl
  case h_10 =>
    cases q with
    | nil => simp at *
    | cons c s =>
      apply Scanned.ofWord
      have hc : c ∉ whitespace := by simpa [isSpace] using hq
      have hsym : c ∉ symbols := by
        simp only [symbols, mem_cons, not_mem_nil, or_false, not_or]
        refine ⟨?_, ?_, ?_, ?_, ?_, ?_, ?_⟩ <;> rintro rfl <;> simp_all
      simpa [inWord] using ⟨hc, hsym⟩

/-- What `gettoken` does, on tokens. -/
structure Got (s : Ptr) (t : Lexeme) : Prop where
  tokens : lex s = t.tok.tokens t.span.text ++ lex t.rest
  eof : t.tok = .eof → t.rest = []
  suffix : t.rest <:+ s
  lt : t.tok ≠ .eof → t.rest.length < s.length
  word : t.tok = .word → t.span.IsWord ∧ t.span.q <:+ s

theorem lex_gettoken (s : Ptr) : Got s (gettoken s) := by
  have hs := scanned (s.dropWhile isSpace) (head_dropWhile isSpace s)
  have hq : s.dropWhile isSpace <:+ s := dropWhile_suffix _
  have hrest : (scan (s.dropWhile isSpace)).2.dropWhile isSpace <:+ (scan (s.dropWhile isSpace)).2 :=
    dropWhile_suffix _
  have heq : (scan (s.dropWhile isSpace)).2 <:+ s.dropWhile isSpace := ⟨_, hs.append.symm⟩
  refine ⟨?_, fun h => ?_, (hrest.trans heq).trans hq, fun h => ?_, fun h => ⟨hs.word h, hq⟩⟩
  · rw [gettoken, lex_dropWhile, ← hs.tokens, lex_dropWhile]
  · have h := hs.eof h
    simp only [gettoken, h]
    rfl
  · exact Nat.lt_of_lt_of_le (Nat.lt_of_le_of_lt hrest.length_le (hs.lt h)) hq.length_le

section Got

variable {t : Lexeme} {x : Token} {ts : List Token}

theorem Got.cons (h : Got s t) (hs : lex s = x :: ts) :
    t.tok.tokens t.span.text = [x] ∧ lex t.rest = ts ∧ t.rest.length < s.length := by
  have ht := h.tokens
  rw [hs] at ht
  have hne : t.tok ≠ .eof := by
    intro he
    rw [he, h.eof he] at ht
    cases ht
  have hlt := h.lt hne
  cases htok : t.tok with
  | eof => exact absurd htok hne
  | _ =>
    rw [htok] at ht
    obtain ⟨rfl, rfl⟩ := cons.inj ht
    exact ⟨rfl, rfl, hlt⟩

theorem Got.nil (h : Got s t) (hs : lex s = []) : t.tok = .eof ∧ t.rest = [] := by
  have ht := h.tokens
  rw [hs] at ht
  cases htok : t.tok with
  | eof => exact ⟨rfl, h.eof htok⟩
  | _ =>
    rw [htok] at ht
    cases ht

end Got

/-- The symbol that `peek` finds at a token. -/
def Token.first : Token → Option Char
  | .word _ => none
  | .bar => some '|'
  | .lparen => some '('
  | .rparen => some ')'
  | .semi => some ';'
  | .amp => some '&'
  | .redir .input => some '<'
  | .redir _ => some '>'

/-- What `peek` returns, where the next token is the head of `ts`. -/
def peeks (toks : List Char) (ts : List Token) : Bool := (ts.head?.bind Token.first).any (· ∈ toks)

theorem first_wordChar (c : Char) (more : Bool) (ts : List Token) : (wordChar c more ts).head?.bind Token.first = none := by
  rw [wordChar.eq_def]
  split <;> rfl

theorem first_lex (q : Ptr) (hq : q.head?.any isSpace = false) :
    (lex q).head?.bind Token.first = q.head?.filter (· ∈ symbols) := by
  rw [lex.eq_def]
  split
  case h_10 c s _ _ _ _ _ _ _ _ =>
    have hc : isSpace c = false := by simpa using hq
    rw [hc, if_neg Bool.false_ne_true, first_wordChar]
    simp_all [symbols, Option.filter]
  all_goals rfl

theorem peek_eq {toks : List Char} (ht : ∀ c ∈ toks, c ∈ symbols) (s : Ptr) :
    peek s toks = (s.dropWhile isSpace, peeks toks (lex s)) := by
  have h := first_lex (s.dropWhile isSpace) (head_dropWhile isSpace s)
  rw [lex_dropWhile] at h
  rw [peek, peeks, h]
  cases (s.dropWhile isSpace).head? with
  | none => rfl
  | some c =>
    by_cases hc : c ∈ symbols
    · simp [Option.filter, hc]
    · have hc' : c ∉ toks := fun h => hc (ht c h)
      simp [Option.filter, hc, hc']

end Xv6.Sh
