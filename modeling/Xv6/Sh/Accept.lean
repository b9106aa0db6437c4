import Xv6.Sh.Parse

/-!
# The parser accepts what its grammar derives

`parse_complete`: where the tokens of the line derive a tree and what follows them can follow there
(`Follow`), the parser returns this tree and stops in front of what follows.
-/

namespace Xv6.Sh

open List

variable {s : Ptr} {n : Nat} {ts rest : List Token} {t : Tree} {cmd : Cmd Span}
  {x : Except Stop (Cmd Span × Ptr)}

/-- A parsing function returns the tree `t`, in front of the tokens `rest`. -/
def Yields (s : Ptr) (rest : List Token) (t : Tree) (x : Except Stop (Cmd Span × Ptr)) : Prop :=
  ∃ cmd s', x = .ok (cmd, s') ∧ lex s' = rest ∧ cmd.map Span.text = t ∧ s'.length ≤ s.length

theorem Yields.bind {rest' : List Token} {t' : Tree} {f : Cmd Span × Ptr → Except Stop (Cmd Span × Ptr)}
    (hx : Yields s rest t x) (hf : ∀ cmd s', lex s' = rest → cmd.map Span.text = t → s'.length ≤ s.length →
      Yields s rest' t' (f (cmd, s'))) : Yields s rest' t' (x.bind f) := by
  obtain ⟨cmd, s', rfl, hrest, ht, hle⟩ := hx
  exact hf cmd s' hrest ht hle

theorem Yields.weaken {s₁ : Ptr} (hx : Yields s₁ rest t x) (h : s₁.length ≤ s.length) : Yields s rest t x := by
  obtain ⟨cmd, s', e, hrest, ht, hle⟩ := hx
  exact ⟨cmd, s', e, hrest, ht, hle.trans h⟩

/-- Nothing but whitespace is read. -/
theorem Yields.skip (h : lex s = rest) (ht : cmd.map Span.text = t) : Yields s rest t (.ok (cmd, s.dropWhile isSpace)) :=
  ⟨cmd, _, rfl, (lex_dropWhile s).trans h, ht, (dropWhile_suffix _).length_le⟩

/-! ## The loops -/

theorem exists_succ {k : Nat} (h : k < n) : ∃ m, n = m + 1 := Nat.exists_eq_add_one.2 (Nat.zero_lt_of_lt h)

theorem parseredirs_complete {rs : List Redir} (h : Redirs ts rs) (hc : cmd.map Span.text = t) (hs : lex s = ts ++ rest)
    (hrest : peeks ['<', '>'] rest = false) (hn : s.length < n) : Yields s rest (wrap t rs) (parseredirs n cmd s) := by
  induction h generalizing s n cmd t with
  | nil =>
    obtain ⟨n, rfl⟩ := exists_succ hn
    rw [nil_append] at hs
    rw [parseredirs_succ, hs, hrest, if_neg Bool.false_ne_true]
    exact .skip hs hc
  | cons a w h ih =>
    obtain ⟨n, rfl⟩ := exists_succ hn
    have hp : peeks ['<', '>'] (lex s) = true := by
      rw [hs]
      cases a <;> rfl
    obtain ⟨ht, htok⟩ := next_gettoken hs
    have hlex := ht.lex
    rw [hs] at hlex
    obtain ⟨hftok, hflex, hflt⟩ := (lex_gettoken (gettoken (s.dropWhile isSpace)).rest).cons
      (cons.inj hlex).2.symm
    obtain ⟨hword, rfl⟩ := tokens_word hftok
    have hlt := ht.lt
    rw [parseredirs_succ, if_pos hp]
    dsimp only
    rw [hword, if_neg (not_not.2 rfl)]
    have hmap := map_redirect Span.text (gettoken (gettoken (s.dropWhile isSpace)).rest).span cmd htok
    rw [hc] at hmap
    exact (ih hmap hflex (by omega)).weaken (by omega)

/-- Where the arguments of a command end. -/
def Ends (rest : List Token) : Prop := rest = [] ∨ peeks ['|', ')', '&', ';'] rest = true

theorem Ends.no_redir (h : Ends rest) : peeks ['<', '>'] rest = false := by
  rcases h with rfl | h
  · rfl
  cases rest with
  | nil => rfl
  | cons x ts =>
    cases x with
    | redir a => cases a <;> cases h
    | _ => rfl

theorem Args.no_redir {ws : List (List Char)} {rs : List Redir} (h : Args ts ws rs) (hrest : Ends rest) :
    peeks ['<', '>'] (ts ++ rest) = false := by
  cases h with
  | nil => exact hrest.no_redir
  | cons w _ _ => rfl

theorem parseargs_complete {ws : List (List Char)} {rs : List Redir} {argc : Nat} (h : Args ts ws rs)
    (hc : cmd.map Span.text = t) (hs : lex s = ts ++ rest) (hrest : Ends rest) (hargc : argc + ws.length < MAXARGS)
    (hn : s.length < n) : Yields s rest (wrap (ws.foldl (fun t w => t.addArg w) t) rs) (parseargs n argc cmd s) := by
  induction h generalizing s n cmd t argc with
  | nil =>
    obtain ⟨n, rfl⟩ := exists_succ hn
    rw [nil_append] at hs
    rw [parseargs_succ, hs]
    rcases hrest with rfl | hp
    · have hg := (lex_gettoken (s.dropWhile isSpace)).nil ((lex_dropWhile s).trans hs)
      have hp : peeks ['|', ')', '&', ';'] [] = false := rfl
      rw [hp, if_neg Bool.false_ne_true]
      dsimp only
      rw [if_pos hg.1, hg.2]
      exact ⟨cmd, [], rfl, rfl, hc, Nat.zero_le _⟩
    · rw [if_pos hp]
      exact .skip hs hc
  | @cons ts ts' ws rs rs' w hr h ih =>
    obtain ⟨n, rfl⟩ := exists_succ hn
    have hp : peeks ['|', ')', '&', ';'] (lex s) = false := by
      rw [hs]
      rfl
    obtain ⟨ht, htok⟩ := next_gettoken hs
    obtain ⟨hword, rfl⟩ := tokens_word htok
    have hlt := ht.lt
    have hlex := ht.lex
    rw [hs] at hlex
    have hlex := (cons.inj hlex).2.symm
    rw [append_eq, append_assoc] at hlex
    rw [length_cons] at hargc
    rw [parseargs_succ, if_neg (by rw [hp]; exact Bool.false_ne_true)]
    dsimp only
    rw [hword, if_neg nofun, if_neg (not_not.2 rfl), if_neg (by omega)]
    have hmap := map_addArg Span.text (gettoken (s.dropWhile isSpace)).span cmd
    rw [hc] at hmap
    refine ((parseredirs_complete hr hmap hlex (h.no_redir hrest) (by omega)).bind
      fun cmd' s' hs' hc' hle => ?_).weaken hlt.le
    have hargc' : argc + 1 + ws.length < MAXARGS := by omega
    have hy := ih hc' hs' hargc' (n := n) (by omega)
    rw [addArgs_wrap, ← wrap_append] at hy
    exact hy.weaken hle

theorem parsebacks_complete {k : Nat} (hc : cmd.map Span.text = t) (hs : lex s = replicate k .amp ++ rest)
    (hrest : peeks ['&'] rest = false) (hn : s.length < n) : Yields s rest (backs k t) (parsebacks n cmd s) := by
  induction k generalizing s n cmd t with
  | zero =>
    obtain ⟨n, rfl⟩ := exists_succ hn
    rw [replicate_zero, nil_append] at hs
    rw [parsebacks_succ, hs, hrest, if_neg Bool.false_ne_true]
    exact .skip hs hc
  | succ k ih =>
    obtain ⟨n, rfl⟩ := exists_succ hn
    have hp : peeks ['&'] (lex s) = true := by
      rw [hs]
      rfl
    obtain ⟨ht, -⟩ := next_gettoken hs
    have hlt := ht.lt
    have hlex := ht.lex
    rw [hs] at hlex
    have hback : (Cmd.back cmd).map Span.text = .back t := by rw [Cmd.map, hc]
    rw [parsebacks_succ, if_pos hp]
    exact (ih hback (cons.inj hlex).2.symm (by omega)).weaken hlt.le

/-! ## The grammar -/

/-- The tokens that can follow what a nonterminal derives. -/
def Nonterminal.follow : Nonterminal → List Token
  | .line => [.rparen]
  | .pipe => [.rparen, .amp, .semi]
  | .exec => [.rparen, .amp, .semi, .bar]

def Follow (x : Nonterminal) (rest : List Token) : Prop := ∀ t ∈ rest.head?, t ∈ x.follow

theorem Follow.peeks {x : Nonterminal} {toks : List Char} (h : Follow x rest)
    (ht : ∀ t ∈ x.follow, t.first.any (· ∈ toks) = false) : peeks toks rest = false := by
  cases rest with
  | nil => rfl
  | cons t ts => exact ht t (h t rfl)

theorem Follow.ends (h : Follow .exec rest) : Ends rest := by
  cases rest with
  | nil => exact .inl rfl
  | cons t ts =>
    have ht : t ∈ [.rparen, .amp, .semi, .bar] := h t rfl
    refine .inr ?_
    simp only [mem_cons, not_mem_nil, or_false] at ht
    rcases ht with rfl | rfl | rfl | rfl <;> rfl

theorem Follow.mono {x y : Nonterminal} (h : Follow x rest) (hxy : ∀ t ∈ x.follow, t ∈ y.follow) : Follow y rest :=
  fun t ht => hxy t (h t ht)

theorem follow_cons {x : Nonterminal} {t : Token} (h : t ∈ x.follow) : Follow x (t :: rest) := by
  intro t' ht'
  rwa [← Option.some.inj ht']

theorem Redirs.follow {rs : List Redir} (h : Redirs ts rs) (hrest : peeks ['('] rest = false) :
    peeks ['('] (ts ++ rest) = false := by
  cases h with
  | nil => exact hrest
  | cons a w h => cases a <;> rfl

theorem Follow.amps (h : Follow .pipe rest) (k : Nat) : Follow .pipe (replicate k .amp ++ rest) := by
  cases k with
  | zero => exact h
  | succ k => exact follow_cons (by decide)

/-- `parseline` up to its `;`. -/
theorem parseline_yields {k : Nat} {rest' : List Token} {t' : Tree}
    (hp : Yields s (replicate k .amp ++ rest') t (parsepipe n s)) (hrest : peeks ['&'] rest' = false)
    (hn : s.length < n) (hf : ∀ cmd s', lex s' = rest' → cmd.map Span.text = backs k t → s'.length ≤ s.length →
      Yields s rest t' (parselist n cmd s')) : Yields s rest t' (parseline (n + 1) s) := by
  rw [parseline_succ]
  refine hp.bind fun cmd s₁ hs₁ hc hle => ?_
  exact ((parsebacks_complete hc hs₁ hrest (by omega)).weaken hle).bind hf

theorem parseblock_complete {rs : List Redir} {ts' : List Token} (hr : Redirs ts' rs)
    (hs : lex s = .lparen :: (ts ++ .rparen :: ts') ++ rest) (hrest : peeks ['<', '>'] rest = false) (hn : s.length ≤ n)
    (hline : ∀ s', lex s' = ts ++ .rparen :: (ts' ++ rest) → s'.length < s.length →
      Yields s' (.rparen :: (ts' ++ rest)) t (parseline n s')) : Yields s rest (wrap t rs) (parseblock (n + 1) s) := by
  have hp : peeks ['('] (lex s) = true := by
    rw [hs]
    rfl
  obtain ⟨ht, -⟩ := next_gettoken hs
  have hlt := ht.lt
  have hlex := ht.lex
  rw [hs] at hlex
  have hlex := (cons.inj hlex).2.symm
  rw [append_eq, append_assoc, cons_append] at hlex
  rw [parseblock_succ, if_pos hp]
  refine ((hline _ hlex hlt).bind fun cmd s₁ hs₁ hc hle => ?_).weaken hlt.le
  have hp' : peeks [')'] (lex s₁) = true := by
    rw [hs₁]
    rfl
  obtain ⟨ht', -⟩ := next_gettoken hs₁
  have hlt' := ht'.lt
  have hlex' := ht'.lex
  rw [hs₁] at hlex'
  dsimp only
  rw [if_pos hp']
  exact (parseredirs_complete hr hc (cons.inj hlex').2.symm hrest (by omega)).weaken (by omega)

theorem parse_complete {x : Nonterminal} (h : Derives x ts t) (hs : lex s = ts ++ rest) (hrest : Follow x rest)
    (hn : 4 * s.length + x.rank ≤ n) : Yields s rest t (x.parse n s) := by
  induction h generalizing s n rest with
  | line k h ih =>
    rw [Nonterminal.rank] at hn
    obtain ⟨n, rfl⟩ := exists_succ hn
    rw [append_assoc] at hs
    have hf : Follow .pipe rest := hrest.mono (by decide)
    refine parseline_yields (ih hs (hf.amps k) (by rw [Nonterminal.rank]; omega)) (hrest.peeks (by decide))
      (by omega) fun cmd s₁ hs₁ hc hle => ?_
    rw [parselist, hs₁, hrest.peeks (by decide), if_neg Bool.false_ne_true]
    exact (Yields.skip hs₁ hc).weaken hle
  | @list ts t ts' t' k h h' ih ih' =>
    rw [Nonterminal.rank] at hn
    obtain ⟨n, rfl⟩ := exists_succ hn
    rw [append_assoc, append_assoc] at hs
    have hf : Follow .pipe (.semi :: ts' ++ rest) := follow_cons (by decide)
    refine parseline_yields (ih hs (hf.amps k) (by rw [Nonterminal.rank]; omega)) rfl (by omega)
      fun cmd s₁ hs₁ hc hle => ?_
    have hp : peeks [';'] (lex s₁) = true := by
      rw [hs₁]
      rfl
    obtain ⟨ht, -⟩ := next_gettoken hs₁
    have hlt := ht.lt
    have hlex := ht.lex
    rw [hs₁] at hlex
    rw [parselist, if_pos hp]
    have hy := ih' (cons.inj hlex).2.symm hrest (n := n) (by rw [Nonterminal.rank]; omega)
    refine (hy.bind fun cmd' s₂ hs₂ hc' hle' => ?_).weaken (by omega)
    exact ⟨_, _, rfl, hs₂, by rw [Cmd.map, hc, hc'], hle'⟩
  | exec h ih =>
    rw [Nonterminal.rank] at hn
    obtain ⟨n, rfl⟩ := exists_succ hn
    rw [Nonterminal.parse, parsepipe_succ]
    refine (ih hs (hrest.mono (by decide)) (by rw [Nonterminal.rank]; omega)).bind
      fun cmd s₁ hs₁ hc hle => ?_
    dsimp only
    rw [hs₁, hrest.peeks (by decide), if_neg Bool.false_ne_true]
    exact (Yields.skip hs₁ hc).weaken hle
  | @pipe ts t ts' t' h h' ih ih' =>
    rw [Nonterminal.rank] at hn
    obtain ⟨n, rfl⟩ := exists_succ hn
    rw [append_assoc] at hs
    rw [Nonterminal.parse, parsepipe_succ]
    refine (ih hs (follow_cons (by decide)) (by rw [Nonterminal.rank]; omega)).bind
      fun cmd s₁ hs₁ hc hle => ?_
    have hp : peeks ['|'] (lex s₁) = true := by
      rw [hs₁]
      rfl
    obtain ⟨ht, -⟩ := next_gettoken hs₁
    have hlt := ht.lt
    have hlex := ht.lex
    rw [hs₁] at hlex
    dsimp only
    rw [if_pos hp]
    have hy := ih' (cons.inj hlex).2.symm hrest (n := n) (by rw [Nonterminal.rank]; omega)
    refine (hy.bind fun cmd' s₂ hs₂ hc' hle' => ?_).weaken (by omega)
    exact ⟨_, _, rfl, hs₂, by rw [Cmd.map, hc, hc'], hle'⟩
  | @block ts t ts' rs h hr ih =>
    rw [Nonterminal.rank] at hn
    obtain ⟨n, rfl⟩ : ∃ m, n = m + 1 + 1 := ⟨n - 2, by omega⟩
    have hd : (s.dropWhile isSpace).length ≤ s.length := (dropWhile_suffix _).length_le
    have hp : peeks ['('] (lex s) = true := by
      rw [hs]
      rfl
    rw [Nonterminal.parse, parseexec_succ, if_pos hp]
    rw [← lex_dropWhile] at hs
    refine (parseblock_complete hr hs (hrest.peeks (by decide)) (by omega) fun s' hs' hlt => ?_).weaken hd
    exact ih hs' (follow_cons (by decide)) (by rw [Nonterminal.rank]; omega)
  | @words ts rs ts' ws rs' hr ha hlen =>
    rw [Nonterminal.rank] at hn
    obtain ⟨n, rfl⟩ := exists_succ hn
    have hd : (s.dropWhile isSpace).length ≤ s.length := (dropWhile_suffix _).length_le
    have hp : peeks ['('] (lex s) = false := by
      rw [hs, append_assoc]
      refine hr.follow ?_
      cases ha with
      | nil => exact hrest.peeks (by decide)
      | cons w _ _ => rfl
    rw [Nonterminal.parse, parseexec_succ, if_neg (by rw [hp]; exact Bool.false_ne_true)]
    rw [append_assoc, ← lex_dropWhile] at hs
    refine ((parseredirs_complete hr rfl hs (ha.no_redir hrest.ends) (by omega)).bind fun cmd s₁ hs₁ hc hle => ?_).weaken hd
    have hargc : 0 + ws.length < MAXARGS := by omega
    have hy := parseargs_complete ha hc hs₁ hrest.ends hargc (n := n) (by omega)
    rw [addArgs_wrap, ← wrap_append, Cmd.map, map_nil, addArgs_exec, nil_append] at hy
    exact hy.weaken hle

end Xv6.Sh
