import Xv6.Sh.Grammar

/-!
# The parser accepts its grammar

`parse_sound`: where the parser returns a tree, the tokens that it has read derive it; with fuel for
the rest of the line it does not run out.
-/

namespace Xv6.Sh

open List

variable {l s s' : Ptr} {n : Nat} {ts : List Token} {t : Tree} {cmd : Cmd Span}

/-! ## Trees -/

def Cmd.All {W : Type} (P : W → Prop) : Cmd W → Prop
  | .exec argv => ∀ w ∈ argv, P w
  | .redir cmd file _ _ => cmd.All P ∧ P file
  | .pipe left right => left.All P ∧ right.All P
  | .list left right => left.All P ∧ right.All P
  | .back cmd => cmd.All P

/-- A word of the line `l`. -/
def Span.Word (l : Ptr) (w : Span) : Prop := w.IsWord ∧ w.q <:+ l

theorem all_addArg {W : Type} {P : W → Prop} {w : W} {cmd : Cmd W} (h : cmd.All P) (hw : P w) : (cmd.addArg w).All P := by
  induction cmd with
  | exec argv =>
    intro v hv
    rcases mem_append.1 hv with hv | hv
    · exact h v hv
    · rwa [mem_singleton.1 hv]
  | redir cmd file mode fd ih => exact ⟨ih h.1, h.2⟩
  | pipe left right | list left right | back cmd => exact h

theorem all_redirect {W : Type} {P : W → Prop} {w : W} {cmd : Cmd W} (h : cmd.All P) (hw : P w) (tok : Tok) :
    (redirect cmd tok w).All P := by
  cases tok with
  | less | great | append => exact ⟨h, hw⟩
  | _ => exact h

theorem map_addArg {V W : Type} (f : V → W) (v : V) (cmd : Cmd V) : (cmd.addArg v).map f = (cmd.map f).addArg (f v) := by
  induction cmd with
  | exec argv => simp [Cmd.addArg, Cmd.map]
  | redir cmd file mode fd ih => rw [Cmd.addArg, Cmd.map, ih, Cmd.map, Cmd.addArg]
  | pipe left right | list left right | back cmd => rfl

theorem map_redirect {V W : Type} (f : V → W) {tok : Tok} {a : Arrow} {w : List Char} (file : V) (cmd : Cmd V)
    (h : tok.tokens w = [.redir a]) : (redirect cmd tok file).map f = .redir (cmd.map f) (f file) a.mode a.fd := by
  cases tok <;> cases h <;> rfl

theorem wrap_append (t : Tree) (rs rs' : List Redir) : wrap t (rs ++ rs') = wrap (wrap t rs) rs' :=
  foldl_append ..

theorem addArg_wrap (w : List Char) (t : Tree) (rs : List Redir) : (wrap t rs).addArg w = wrap (t.addArg w) rs := by
  induction rs generalizing t with
  | nil => rfl
  | cons r rs ih => exact ih _

theorem addArgs_wrap (ws : List (List Char)) (t : Tree) (rs : List Redir) :
    ws.foldl (fun t w => t.addArg w) (wrap t rs) = wrap (ws.foldl (fun t w => t.addArg w) t) rs := by
  induction ws generalizing t with
  | nil => rfl
  | cons w ws ih => rw [foldl_cons, addArg_wrap, ih, foldl_cons]

theorem addArgs_exec (ws argv : List (List Char)) :
    ws.foldl (fun t w => t.addArg w) (.exec argv) = Cmd.exec (argv ++ ws) := by
  induction ws generalizing argv with
  | nil => rw [append_nil]; rfl
  | cons w ws ih =>
    rw [append_cons]
    exact ih _

/-! ## The parser by its tokens -/

theorem parseredirs_succ (n : Nat) (cmd : Cmd Span) (s : Ptr) : parseredirs (n + 1) cmd s =
    if peeks ['<', '>'] (lex s) then
      let t := gettoken (s.dropWhile isSpace)
      let file := gettoken t.rest
      if file.tok ≠ .word then .error (.panic "missing file for redirection")
      else parseredirs n (redirect cmd t.tok file.span) file.rest
    else .ok (cmd, s.dropWhile isSpace) := by
  rw [parseredirs, peek_eq (by simp [symbols])]

theorem parseargs_succ (n argc : Nat) (ret : Cmd Span) (s : Ptr) : parseargs (n + 1) argc ret s =
    if peeks ['|', ')', '&', ';'] (lex s) then .ok (ret, s.dropWhile isSpace)
    else
      let t := gettoken (s.dropWhile isSpace)
      if t.tok = .eof then .ok (ret, t.rest)
      else if t.tok ≠ .word then .error (.panic "syntax")
      else if argc + 1 ≥ MAXARGS then .error (.panic "too many args")
      else (parseredirs n (ret.addArg t.span) t.rest).bind fun r => parseargs n (argc + 1) r.1 r.2 := by
  rw [parseargs, peek_eq (by simp [symbols])]
  rfl

theorem parsebacks_succ (n : Nat) (cmd : Cmd Span) (s : Ptr) : parsebacks (n + 1) cmd s =
    if peeks ['&'] (lex s) then parsebacks n (.back cmd) (gettoken (s.dropWhile isSpace)).rest
    else .ok (cmd, s.dropWhile isSpace) := by
  rw [parsebacks, peek_eq (by simp [symbols])]

/-- The end of `parseline`. -/
def parselist (n : Nat) (cmd : Cmd Span) (s : Ptr) : Except Stop (Cmd Span × Ptr) :=
  if peeks [';'] (lex s) then
    (parseline n (gettoken (s.dropWhile isSpace)).rest).bind fun r => .ok (.list cmd r.1, r.2)
  else .ok (cmd, s.dropWhile isSpace)

theorem parseline_succ (n : Nat) (s : Ptr) : parseline (n + 1) s =
    (parsepipe n s).bind fun r => (parsebacks n r.1 r.2).bind fun r => parselist n r.1 r.2 := by
  have hs : ∀ c ∈ [';'], c ∈ symbols := by simp [symbols]
  rw [parseline]
  simp only [peek_eq hs]
  rfl

theorem parsepipe_succ (n : Nat) (s : Ptr) : parsepipe (n + 1) s =
    (parseexec n s).bind fun r =>
      if peeks ['|'] (lex r.2) then
        (parsepipe n (gettoken (r.2.dropWhile isSpace)).rest).bind fun r' => .ok (.pipe r.1 r'.1, r'.2)
      else .ok (r.1, r.2.dropWhile isSpace) := by
  have hs : ∀ c ∈ ['|'], c ∈ symbols := by simp [symbols]
  rw [parsepipe]
  simp only [peek_eq hs]
  rfl

theorem parseexec_succ (n : Nat) (s : Ptr) : parseexec (n + 1) s =
    if peeks ['('] (lex s) then parseblock n (s.dropWhile isSpace)
    else (parseredirs n (.exec []) (s.dropWhile isSpace)).bind fun r => parseargs n 0 r.1 r.2 := by
  have hs : ∀ c ∈ ['('], c ∈ symbols := by simp [symbols]
  rw [parseexec]
  simp only [peek_eq hs]
  rfl

theorem parseblock_succ (n : Nat) (s : Ptr) : parseblock (n + 1) s =
    if peeks ['('] (lex s) then
      (parseline n (gettoken (s.dropWhile isSpace)).rest).bind fun r =>
        if peeks [')'] (lex r.2) then parseredirs n r.1 (gettoken (r.2.dropWhile isSpace)).rest
        else .error (.panic "syntax - missing )")
    else .error (.panic "parseblock") := by
  have hl : ∀ c ∈ ['('], c ∈ symbols := by simp [symbols]
  have hr : ∀ c ∈ [')'], c ∈ symbols := by simp [symbols]
  rw [parseblock]
  simp only [peek_eq hl, peek_eq hr]
  rfl

/-! ## The tokens that are read derive the tree -/

/-- The panics that a line can cause. -/
def syntaxErrors : List String :=
  ["syntax", "syntax - missing )", "missing file for redirection", "too many args"]

/-- The result is a syntax error, or satisfies `Q`. -/
def Returns (Q : Cmd Span → Ptr → Prop) : Except Stop (Cmd Span × Ptr) → Prop
  | .ok r => Q r.1 r.2
  | .error (.panic msg) => msg ∈ syntaxErrors
  | .error .fuel => False

theorem returns_panic {Q : Cmd Span → Ptr → Prop} {msg : String} (h : msg ∈ syntaxErrors) :
    Returns Q (.error (.panic msg)) := h

theorem Returns.bind {Q R : Cmd Span → Ptr → Prop} {x : Except Stop (Cmd Span × Ptr)}
    {f : Cmd Span × Ptr → Except Stop (Cmd Span × Ptr)} (hx : Returns Q x)
    (hf : ∀ cmd s, Q cmd s → Returns R (f (cmd, s))) : Returns R (x.bind f) := by
  cases x with
  | ok r => exact hf r.1 r.2 hx
  | error e =>
    cases e with
    | panic _ => exact hx
    | fuel => exact hx

theorem Returns.mono {Q R : Cmd Span → Ptr → Prop} {x : Except Stop (Cmd Span × Ptr)} (hx : Returns Q x)
    (hf : ∀ cmd s, Q cmd s → R cmd s) : Returns R x := by
  cases x with
  | ok r => exact hf r.1 r.2 hx
  | error e =>
    cases e with
    | panic _ => exact hx
    | fuel => exact hx

/-- From `s` the parser has read up to `s'`, in the line `l`, tokens that `D` relates to the tree. -/
structure Read (l s : Ptr) (D : List Token → Tree → Prop) (cmd : Cmd Span) (s' : Ptr) : Prop where
  suffix : s' <:+ s
  words : cmd.All (Span.Word l)
  derives : ∃ ts, lex s = ts ++ lex s' ∧ D ts (cmd.map Span.text)

/-- Nothing but whitespace is read. -/
theorem Read.skip {D : List Token → Tree → Prop} (hw : cmd.All (Span.Word l))
    (hD : D [] (cmd.map Span.text)) : Read l s D cmd (s.dropWhile isSpace) := by
  refine ⟨dropWhile_suffix _, hw, [], ?_, hD⟩
  rw [lex_dropWhile]
  rfl

/-- The tokens `ts` come first. -/
theorem Read.after {D D' : List Token → Tree → Prop} {cmd' : Cmd Span} {s₁ : Ptr} (h : Read l s₁ D cmd s')
    (hs : s₁ <:+ s) (ht : lex s = ts ++ lex s₁) (hw : cmd'.All (Span.Word l))
    (hD : ∀ ts', D ts' (cmd.map Span.text) → D' (ts ++ ts') (cmd'.map Span.text)) : Read l s D' cmd' s' := by
  obtain ⟨ts', ht', hd⟩ := h.derives
  refine ⟨h.suffix.trans hs, hw, ts ++ ts', ?_, hD ts' hd⟩
  rw [ht, ht', append_assoc]

/-- A token that `peek` has found, and `gettoken` reads. -/
structure Next (s : Ptr) (x : Token) (s' : Ptr) : Prop where
  suffix : s' <:+ s
  lt : s'.length < s.length
  lex : Sh.lex s = x :: Sh.lex s'

theorem Read.next {D D' : List Token → Tree → Prop} {x : Token} {s₁ : Ptr} (h : Read l s₁ D cmd s') (hx : Next s x s₁)
    (hD : ∀ ts', D ts' (cmd.map Span.text) → D' (x :: ts') (cmd.map Span.text)) : Read l s D' cmd s' :=
  h.after hx.suffix (singleton_append.symm ▸ hx.lex) h.words hD

theorem next_gettoken {x : Token} (h : lex s = x :: ts) : Next s x (gettoken (s.dropWhile isSpace)).rest ∧
      (gettoken (s.dropWhile isSpace)).tok.tokens (gettoken (s.dropWhile isSpace)).span.text = [x] := by
  have hd : s.dropWhile isSpace <:+ s := dropWhile_suffix _
  have hg := lex_gettoken (s.dropWhile isSpace)
  obtain ⟨htok, hrest, hlt⟩ := hg.cons ((lex_dropWhile s).trans h)
  refine ⟨⟨hg.suffix.trans hd, hlt.trans_le hd.length_le, ?_⟩, htok⟩
  rw [h, hrest]

theorem tokens_word {tok : Tok} {v w : List Char} (h : tok.tokens v = [.word w]) : tok = .word ∧ v = w := by
  cases tok <;> cases h
  exact ⟨rfl, rfl⟩

theorem first_inj {x y : Token} {c : Char} (hx : x.first = some c) (hy : y.first = some c) (hc : c ≠ '>') : x = y := by
  unfold Token.first at hx hy
  split at hx <;> cases hx <;> split at hy <;> cases hy <;> first | rfl | exact absurd rfl hc

theorem next_of_peeks {x : Token} {c : Char} (hp : peeks [c] (lex s) = true) (hx : x.first = some c)
    (hc : c ≠ '>') : Next s x (gettoken (s.dropWhile isSpace)).rest := by
  cases hlex : lex s with
  | nil => rw [hlex] at hp; cases hp
  | cons y ts =>
    have hy : y.first = some c := by
      obtain ⟨d, hd, hdc⟩ := (Option.any_eq_true _ _).1 (hlex ▸ hp)
      rwa [mem_singleton.1 (of_decide_eq_true hdc)] at hd
    exact (next_gettoken (first_inj hx hy hc ▸ hlex)).1

/-- `parseredirs` around `t`. -/
def Wraps (t : Tree) (ts : List Token) (t' : Tree) : Prop := ∃ rs, Redirs ts rs ∧ t' = wrap t rs

theorem gettoken_word (h : (gettoken s).tok = .word) (hs : s <:+ l) :
    (gettoken s).span.Word l ∧ Next s (.word (gettoken s).span.text) (gettoken s).rest := by
  have hg := lex_gettoken s
  have hlex := hg.tokens
  rw [h] at hlex
  obtain ⟨hword, hq⟩ := hg.word h
  exact ⟨⟨hword, hq.trans hs⟩, hg.suffix, hg.lt (by rw [h]; nofun), hlex⟩

theorem parseredirs_sound (hn : s.length < n) (hs : s <:+ l) (hw : cmd.All (Span.Word l)) :
    Returns (Read l s (Wraps (cmd.map Span.text))) (parseredirs n cmd s) := by
  induction n generalizing s cmd with
  | zero => cases hn
  | succ n ih =>
    rw [parseredirs_succ]
    split
    · rename_i hp
      dsimp only
      split
      · exact returns_panic (by decide)
      · rename_i hword
        obtain ⟨a, ts, hlex⟩ : ∃ a ts, lex s = .redir a :: ts := by
          cases hlex : lex s with
          | nil => rw [hlex] at hp; cases hp
          | cons x ts =>
            rw [hlex] at hp
            cases x with
            | redir a => exact ⟨a, ts, rfl⟩
            | _ => cases hp
        obtain ⟨ht, htok⟩ := next_gettoken hlex
        obtain ⟨hfile, hf⟩ := gettoken_word (not_not.1 hword) (ht.suffix.trans hs)
        have hlt := hf.lt.trans ht.lt
        have hsuf := hf.suffix.trans ht.suffix
        refine (ih (by omega) (hsuf.trans hs) (all_redirect hw hfile _)).mono fun cmd' s' hr => ?_
        refine (hr.next hf fun ts' h => ?_).next ht fun ts' h => h
        obtain ⟨rs, hrs, e⟩ := h
        refine ⟨_, .cons a _ hrs, ?_⟩
        rw [e, map_redirect _ _ _ htok]
        rfl
    · exact .skip hw ⟨[], .nil, rfl⟩

/-- `parseargs` with `argc` arguments so far. -/
def Fills (argc : Nat) (t : Tree) (ts : List Token) (t' : Tree) : Prop :=
  ∃ ws rs, Args ts ws rs ∧ argc + ws.length < MAXARGS ∧ t' = wrap (ws.foldl (fun t w => t.addArg w) t) rs

theorem parseargs_sound {argc : Nat} (ha : argc < MAXARGS) (hn : s.length < n) (hs : s <:+ l)
    (hw : cmd.All (Span.Word l)) : Returns (Read l s (Fills argc (cmd.map Span.text))) (parseargs n argc cmd s) := by
  induction n generalizing s cmd argc with
  | zero => cases hn
  | succ n ih =>
    have hd : s.dropWhile isSpace <:+ s := dropWhile_suffix _
    have hlt := hd.length_le
    rw [parseargs_succ]
    split
    · exact .skip hw ⟨[], [], .nil, ha, rfl⟩
    dsimp only
    split
    · rename_i heof
      have hg := lex_gettoken (s.dropWhile isSpace)
      have hlex := hg.tokens
      rw [heof, lex_dropWhile] at hlex
      exact ⟨hg.suffix.trans hd, hw, [], hlex, [], [], .nil, ha, rfl⟩
    split
    · exact returns_panic (by decide)
    split
    · exact returns_panic (by decide)
    · rename_i hword hargc
      obtain ⟨harg, ht⟩ := gettoken_word (not_not.1 hword) (hd.trans hs)
      have hsuf := ht.suffix.trans hd
      have hrlt := ht.lt
      refine (parseredirs_sound (by omega) (hsuf.trans hs) (all_addArg hw harg)).bind fun cmd' s' hr => ?_
      have hle := hr.suffix.length_le
      refine (ih (not_le.1 hargc) (by omega) ((hr.suffix.trans hsuf).trans hs) hr.words).mono
        fun cmd'' s'' hr' => ?_
      obtain ⟨ts, hts, rs, hrs, e⟩ := hr.derives
      have hlex : lex s = .word (gettoken (s.dropWhile isSpace)).span.text :: ts ++ lex s' := by
        rw [← lex_dropWhile s, ht.lex, hts]
        rfl
      refine hr'.after (hr.suffix.trans hsuf) hlex hr'.words ?_
      rintro ts' ⟨ws, rs', hargs, hlen, e'⟩
      refine ⟨_, _, .cons _ hrs hargs, ?_, ?_⟩
      · rw [length_cons]
        omega
      · rw [e', e, map_addArg, addArgs_wrap, ← wrap_append]
        rfl

/-- `parsebacks`. -/
def Backs (t : Tree) (ts : List Token) (t' : Tree) : Prop :=
  ∃ k, ts = List.replicate k .amp ∧ t' = backs k t

theorem parsebacks_sound (hn : s.length < n) (hw : cmd.All (Span.Word l)) :
    Returns (Read l s (Backs (cmd.map Span.text))) (parsebacks n cmd s) := by
  induction n generalizing s cmd with
  | zero => cases hn
  | succ n ih =>
    rw [parsebacks_succ]
    split
    · rename_i hp
      have ht : Next s .amp _ := next_of_peeks hp rfl (by decide)
      have hlt := ht.lt
      have hw' : (Cmd.back cmd).All (Span.Word l) := hw
      refine (ih (by omega) hw').mono fun cmd' s' hr => ?_
      refine hr.next ht ?_
      rintro ts' ⟨k, rfl, e⟩
      exact ⟨k + 1, rfl, e⟩
    · exact .skip hw ⟨0, rfl, rfl⟩

/-! ## The parser as a whole -/

/-- The function that parses a nonterminal. -/
def Nonterminal.parse : Nonterminal → Nat → Ptr → Except Stop (Cmd Span × Ptr)
  | .line => parseline
  | .pipe => parsepipe
  | .exec => parseexec

/-- The fuel it needs besides four for each character. -/
def Nonterminal.rank : Nonterminal → Nat
  | .line => 4
  | .pipe => 3
  | .exec => 2

/-- The parsing functions do with fuel `n` what they should. -/
def Sound (l : Ptr) (n : Nat) : Prop :=
  ∀ (x : Nonterminal) (s : Ptr), 4 * s.length + x.rank ≤ n → s <:+ l →
    Returns (Read l s (Derives x)) (x.parse n s)

theorem Sound.line (h : Sound l n) (hn : 4 * s.length + 4 ≤ n) (hs : s <:+ l) :
    Returns (Read l s (Derives .line)) (parseline n s) := h .line s hn hs

theorem Sound.pipe (h : Sound l n) (hn : 4 * s.length + 3 ≤ n) (hs : s <:+ l) :
    Returns (Read l s (Derives .pipe)) (parsepipe n s) := h .pipe s hn hs

theorem Sound.exec (h : Sound l n) (hn : 4 * s.length + 2 ≤ n) (hs : s <:+ l) :
    Returns (Read l s (Derives .exec)) (parseexec n s) := h .exec s hn hs

theorem parseline_sound (h : Sound l n) (hn : 4 * s.length + 3 ≤ n) (hs : s <:+ l) :
    Returns (Read l s (Derives .line)) (parseline (n + 1) s) := by
  rw [parseline_succ]
  refine (h.pipe hn hs).bind fun cmd s₁ hp => ?_
  have hle₁ := hp.suffix.length_le
  dsimp only
  refine (parsebacks_sound (by omega) hp.words).bind fun cmd' s₂ hb => ?_
  have hle₂ := hb.suffix.length_le
  obtain ⟨ts, hts, hd⟩ := hp.derives
  obtain ⟨_, hts', k, rfl, e⟩ := hb.derives
  have hsuf := hb.suffix.trans hp.suffix
  have hlex : lex s = (ts ++ replicate k .amp) ++ lex s₂ := by
    rw [hts, hts', append_assoc]
  rw [parselist]
  split
  · rename_i hsemi
    have ht : Next s₂ .semi _ := next_of_peeks hsemi rfl (by decide)
    have hlt := ht.lt
    have hsuf' := ht.suffix.trans hsuf
    refine (h.line (by omega) (hsuf'.trans hs)).bind fun right s₃ hr => ?_
    have hlex' : lex s = (ts ++ (replicate k .amp ++ [.semi])) ++
        lex (gettoken (s₂.dropWhile isSpace)).rest := by
      rw [hlex, ht.lex]
      simp
    refine Read.after hr hsuf' hlex' ⟨hb.words, hr.words⟩ fun ts' hd' => ?_
    have hl := Derives.list k hd hd'
    rw [← e] at hl
    simpa [Cmd.map] using hl
  · refine ⟨(dropWhile_suffix _).trans hsuf, hb.words, ts ++ replicate k .amp, ?_, ?_⟩
    · rw [lex_dropWhile]
      exact hlex
    · rw [e]
      exact .line k hd

theorem parsepipe_sound (h : Sound l n) (hn : 4 * s.length + 2 ≤ n) (hs : s <:+ l) :
    Returns (Read l s (Derives .pipe)) (parsepipe (n + 1) s) := by
  rw [parsepipe_succ]
  refine (h.exec hn hs).bind fun cmd s₁ hp => ?_
  have hle₁ := hp.suffix.length_le
  obtain ⟨ts, hts, hd⟩ := hp.derives
  dsimp only
  split
  · rename_i hbar
    have ht : Next s₁ .bar _ := next_of_peeks hbar rfl (by decide)
    have hlt := ht.lt
    have hsuf' := ht.suffix.trans hp.suffix
    refine (h.pipe (by omega) (hsuf'.trans hs)).bind fun right s₃ hr => ?_
    have hlex : lex s = (ts ++ [.bar]) ++ lex (gettoken (s₁.dropWhile isSpace)).rest := by
      rw [hts, ht.lex]
      simp
    refine Read.after hr hsuf' hlex ⟨hp.words, hr.words⟩ fun ts' hd' => ?_
    have hpipe := Derives.pipe hd hd'
    simpa [Cmd.map] using hpipe
  · refine ⟨(dropWhile_suffix _).trans hp.suffix, hp.words, ts, ?_, .exec hd⟩
    rw [lex_dropWhile]
    exact hts

theorem parseblock_sound (h : Sound l n) (hp : peeks ['('] (lex s) = true) (hn : 4 * s.length ≤ n)
    (hs : s <:+ l) : Returns (Read l s (Derives .exec)) (parseblock (n + 1) s) := by
  have hl : Next s .lparen _ := next_of_peeks hp rfl (by decide)
  have hlt := hl.lt
  rw [parseblock_succ, if_pos hp]
  refine (h.line (by omega) (hl.suffix.trans hs)).bind fun cmd s₁ hr => ?_
  have hle := hr.suffix.length_le
  dsimp only
  split
  · rename_i hp'
    have hr' : Next s₁ .rparen _ := next_of_peeks hp' rfl (by decide)
    have hlt' := hr'.lt
    have hsuf := (hr'.suffix.trans hr.suffix).trans hl.suffix
    refine (parseredirs_sound (by omega) (hsuf.trans hs) hr.words).mono fun cmd' s' hw => ?_
    obtain ⟨ts, hts, hd⟩ := hr.derives
    have hlex : lex s = (.lparen :: (ts ++ [.rparen])) ++ lex (gettoken (s₁.dropWhile isSpace)).rest := by
      rw [hl.lex, hts, hr'.lex]
      simp
    refine hw.after hsuf hlex hw.words ?_
    rintro ts' ⟨rs, hrs, e⟩
    rw [e]
    have hb := Derives.block hd hrs
    rwa [append_cons] at hb
  · exact returns_panic (by decide)

theorem parsewords_sound (hn : s.length < n) (hs : s <:+ l) : Returns (Read l s (Derives .exec))
    ((parseredirs n (.exec []) (s.dropWhile isSpace)).bind fun r => parseargs n 0 r.1 r.2) := by
  have hd : s.dropWhile isSpace <:+ s := dropWhile_suffix _
  have hle := hd.length_le
  have hnil : (Cmd.exec []).All (Span.Word l) := fun w hw => absurd hw not_mem_nil
  refine (parseredirs_sound (by omega) (hd.trans hs) hnil).bind fun cmd s₁ hr => ?_
  have hle₁ := hr.suffix.length_le
  have hsuf := hr.suffix.trans hd
  have hargc : 0 < MAXARGS := by decide
  refine (parseargs_sound hargc (by omega) (hsuf.trans hs) hr.words).mono fun cmd' s₂ ha => ?_
  obtain ⟨ts, hts, rs, hrs, e⟩ := hr.derives
  refine ha.after hsuf ((lex_dropWhile s).symm.trans hts) ha.words ?_
  rintro ts' ⟨ws, rs', hargs, hlen, e'⟩
  rw [e', e, addArgs_wrap, ← wrap_append, Cmd.map, map_nil, addArgs_exec, nil_append]
  rw [Nat.zero_add] at hlen
  exact .words hrs hargs hlen

theorem parse_sound (l : Ptr) (n : Nat) : Sound l n := by
  -- the rest of the line gets shorter, or the rank does
  induction n using Nat.strong_induction_on with
  | h n ih =>
    intro x s hn hs
    cases n with
    | zero => cases x <;> cases hn
    | succ n =>
      have h := ih n n.lt_succ_self
      cases x with
      | line => exact parseline_sound h (Nat.le_of_succ_le_succ hn) hs
      | pipe => exact parsepipe_sound h (Nat.le_of_succ_le_succ hn) hs
      | exec =>
        have hd : s.dropWhile isSpace <:+ s := dropWhile_suffix _
        have hle := hd.length_le
        rw [Nonterminal.rank] at hn
        rw [Nonterminal.parse, parseexec_succ]
        split
        · rename_i hp
          cases n with
          | zero => omega
          | succ n =>
            rw [← lex_dropWhile] at hp
            refine (parseblock_sound (ih n (by omega)) hp (by omega) (hd.trans hs)).mono fun cmd s' hr => ?_
            exact hr.after hd ((lex_dropWhile s).symm.trans (nil_append _).symm) hr.words fun _ h => h
        · exact parsewords_sound (by omega) hs

end Xv6.Sh
