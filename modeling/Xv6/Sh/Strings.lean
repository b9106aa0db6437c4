import Xv6.Sh.Accept

/-!
# The strings of a command

`nulterminate` ends each word of a command where the parser found its end, and so the strings in
memory are the words of the tree (`Cut.string`). `parsecmd_grammar` has this, with soundness and
completeness of the parser, for a whole line, and `strings_survive` has it word by word.
-/

namespace Xv6.Sh

open List

/-! ## The words of a command -/

/-- The words of a command, in the order in which `nulterminate` comes to them. -/
def Cmd.words {W : Type} : Cmd W → List W
  | .exec argv => argv
  | .redir cmd file _ _ => cmd.words ++ [file]
  | .pipe left right => left.words ++ right.words
  | .list left right => left.words ++ right.words
  | .back cmd => cmd.words

variable {W : Type} {cmd : Cmd Span} {s : Ptr}

theorem Cmd.All.words {P : W → Prop} {cmd : Cmd W} (h : cmd.All P) : ∀ w ∈ cmd.words, P w := by
  induction cmd with
  | exec argv => exact h
  | redir cmd file mode fd ih =>
    intro w hw
    rcases mem_append.1 hw with hw | hw
    · exact ih h.1 w hw
    · rw [mem_singleton.1 hw]
      exact h.2
  | pipe left right ihl ihr | list left right ihl ihr =>
    intro w hw
    rcases mem_append.1 hw with hw | hw
    · exact ihl h.1 w hw
    · exact ihr h.2 w hw
  | back cmd ih => exact ih h

theorem map_congr {V : Type} {f g : V → W} {cmd : Cmd V} (h : ∀ w ∈ cmd.words, f w = g w) : cmd.map f = cmd.map g := by
  induction cmd with
  | exec argv => exact congrArg Cmd.exec (map_congr_left h)
  | redir cmd file mode fd ih =>
    rw [Cmd.map, Cmd.map, ih fun w hw => h w (mem_append_left _ hw),
      h file (mem_append_right _ mem_cons_self)]
  | pipe left right ihl ihr | list left right ihl ihr =>
    rw [Cmd.map, Cmd.map, ihl fun w hw => h w (mem_append_left _ hw), ihr fun w hw => h w (mem_append_right _ hw)]
  | back cmd ih => rw [Cmd.map, Cmd.map, ih h]

theorem nulterminate_eq (cmd : Cmd Span) (buf : Buffer) :
    nulterminate cmd buf = cmd.words.foldl (fun buf w => buf.clear w.eq) buf := by
  induction cmd generalizing buf with
  | exec argv => rfl
  | redir cmd file mode fd ih => rw [nulterminate, ih, Cmd.words, foldl_append]; rfl
  | pipe left right ihl ihr | list left right ihl ihr =>
    rw [nulterminate, ihr, ihl, Cmd.words, foldl_append]
  | back cmd ih => exact ih buf

/-- The line `l` in memory, where some characters that are in no word are NUL. -/
structure Cut (l : Ptr) (buf : Buffer) : Prop where
  length : buf.length = l.length + 1
  kept : ∀ (i : Nat) (c : Char), l[i]? = some c → inWord c = true → buf[i]? = some c

theorem cut_line (l : Ptr) : Cut l (l ++ ['\x00']) := by
  refine ⟨by simp, fun i c hi _ => ?_⟩
  rw [getElem?_append_left (List.getElem?_eq_some_iff.1 hi).1, hi]

section Cut

variable {l : Ptr} {buf : Buffer} {w : Span}

theorem Span.Word.length_le (hw : w.Word l) : w.text.length + w.eq.length ≤ l.length := by
  have h := congrArg length hw.1.eq
  have hle := hw.2.length_le
  rw [length_append] at h
  omega

/-- The line from the word on. -/
theorem Span.Word.getElem? (hw : w.Word l) (i : Nat) :
    l[l.length - w.eq.length - w.text.length + i]? = (w.text ++ w.eq)[i]? := by
  obtain ⟨pre, rfl⟩ := hw.2
  have h := hw.1.eq
  have hlen := congrArg length h
  rw [length_append] at hlen
  rw [← h, getElem?_append_right (by rw [length_append]; omega)]
  congr 1
  rw [length_append]
  omega

theorem length_clear (buf : Buffer) (p : Ptr) : (buf.clear p).length = buf.length := length_set ..

theorem Cut.clear (h : Cut l buf) (hw : w.Word l) : Cut l (buf.clear w.eq) := by
  refine ⟨(length_clear ..).trans h.length, fun i c hi hc => ?_⟩
  rw [Buffer.clear, getElem?_set_ne, h.kept i c hi hc]
  rintro rfl
  have hle := hw.length_le
  have hl := hw.getElem? w.text.length
  have hends := hw.1.ends
  rw [getElem?_append_right (Nat.le_refl _), Nat.sub_self, ← head?_eq_getElem?,
    Nat.sub_add_cancel (by omega)] at hl
  rw [h.length, Nat.add_sub_cancel, hl] at hi
  rw [hi] at hends
  simp [hc] at hends

theorem nul_clear {i : Nat} (h : buf[i]? = some '\x00') (p : Ptr) : (buf.clear p)[i]? = some '\x00' := by
  rw [Buffer.clear, getElem?_set]
  split
  · rename_i e
    rw [e, if_pos (List.getElem?_eq_some_iff.1 h).1]
  · exact h

theorem nul_clears {i : Nat} (h : buf[i]? = some '\x00') (ws : List Span) :
    (ws.foldl (fun buf w => buf.clear w.eq) buf)[i]? = some '\x00' := by
  induction ws generalizing buf with
  | nil => exact h
  | cons w ws ih => exact ih (nul_clear h w.eq)

theorem Cut.clears (h : Cut l buf) {ws : List Span} (hws : ∀ w ∈ ws, w.Word l) :
    Cut l (ws.foldl (fun buf w => buf.clear w.eq) buf) ∧
      ∀ w ∈ ws, (ws.foldl (fun buf w => buf.clear w.eq) buf)[l.length - w.eq.length]? = some '\x00' := by
  induction ws generalizing buf with
  | nil => exact ⟨h, nofun⟩
  | cons w ws ih =>
    have hw := hws w mem_cons_self
    have hc := h.clear hw
    obtain ⟨hcut, hnul⟩ := ih hc fun v hv => hws v (mem_cons_of_mem _ hv)
    refine ⟨hcut, fun v hv => ?_⟩
    rcases mem_cons.1 hv with rfl | hv
    · refine nul_clears ?_ ws
      have hlt : buf.length - 1 - v.eq.length < buf.length := by
        rw [h.length]
        omega
      have e : l.length - v.eq.length = buf.length - 1 - v.eq.length := by
        rw [h.length, Nat.add_sub_cancel]
      change (buf.set (buf.length - 1 - v.eq.length) '\x00')[_]? = _
      rw [e, getElem?_set_self hlt]
    · exact hnul v hv

/-- A word that ends in NUL is a string. -/
theorem Cut.string (h : Cut l buf) (hl : '\x00' ∉ l) (hw : w.Word l)
    (hnul : buf[l.length - w.eq.length]? = some '\x00') : buf.string w.q = w.text := by
  have hle := hw.length_le
  have hq : w.q.length = w.text.length + w.eq.length := by
    conv_lhs => rw [hw.1.eq]
    exact length_append
  have hoff : buf.length - 1 - w.q.length = l.length - w.eq.length - w.text.length := by
    rw [h.length, hq]
    omega
  have htext : ∀ c ∈ w.text, c ≠ '\x00' := by
    rintro c hc rfl
    refine hl (hw.2.mem ?_)
    rw [hw.1.eq]
    exact mem_append_left _ hc
  have hbuf : buf.drop (l.length - w.eq.length - w.text.length) =
      w.text ++ '\x00' :: buf.drop (l.length - w.eq.length + 1) := by
    refine ext_getElem? fun i => ?_
    rw [getElem?_drop]
    rcases Nat.lt_trichotomy i w.text.length with hi | rfl | hi
    · have hc := getElem?_eq_getElem hi
      have hin := hw.getElem? i
      rw [getElem?_append_left hi, hc] at hin
      rw [getElem?_append_left hi, hc]
      exact h.kept _ _ hin (hw.1.chars _ (getElem_mem hi))
    · rw [Nat.sub_add_cancel (by omega), hnul, getElem?_append_right (Nat.le_refl _), Nat.sub_self]
      rfl
    · obtain ⟨j, rfl⟩ : ∃ j, i = w.text.length + 1 + j := ⟨i - w.text.length - 1, by omega⟩
      rw [getElem?_append_right (by omega), show w.text.length + 1 + j - w.text.length = j + 1 by omega,
        getElem?_cons_succ, getElem?_drop]
      congr 1
      omega
  rw [Buffer.string, hoff, hbuf, takeWhile_append_of_pos (by simpa using htext),
    takeWhile_cons_of_neg (by simp), append_nil]

end Cut

/-! ## A whole line -/

/-- The tree of a command, with its strings as they are in memory. -/
def Cmd.tree (buf : Buffer) (cmd : Cmd Span) : Tree := cmd.map fun w => buf.string w.q

theorem tree_nulterminate {l : Ptr} (hl : '\x00' ∉ l) (hw : cmd.All (Span.Word l)) :
    cmd.tree (nulterminate cmd (l ++ ['\x00'])) = cmd.map Span.text := by
  obtain ⟨hcut, hnul⟩ := (cut_line l).clears hw.words
  rw [← nulterminate_eq] at hcut hnul
  exact map_congr fun w h => hcut.string hl (hw.words w h) (hnul w h)

/-- What `parsecmd` does on the line `s`: it stops, with a tree or with a syntax error, and the trees
are those that the grammar derives. -/
structure Parses (s : Ptr) (r : Except Stop (Cmd Span × Buffer)) : Prop where
  stops : (∃ cmd buf, r = .ok (cmd, buf)) ∨ ∃ msg ∈ syntaxErrors, r = .error (.panic msg)
  derives : ∀ t, (∃ cmd buf, r = .ok (cmd, buf) ∧ cmd.tree buf = t) ↔ Derives .line (lex s) t

theorem lex_eq_nil (h : lex s = []) : s.dropWhile isSpace = [] := by
  by_contra hne
  have hg := lex_gettoken s
  have hs := scanned (s.dropWhile isSpace) (head_dropWhile isSpace s)
  exact hne (hs.eof (hg.nil h).1)

theorem parsecmd_grammar (s : Ptr) (hs : '\x00' ∉ s) (n : Nat) (hn : 4 * s.length + 4 ≤ n) :
    Parses s (parsecmd n s) := by
  have hsound := (parse_sound s n).line hn List.suffix_rfl
  have hparse : parsecmd n s = (parseline n s).bind fun r =>
      if r.2.dropWhile isSpace ≠ [] then .error (.panic "syntax")
      else .ok (r.1, nulterminate r.1 (s ++ ['\x00'])) := rfl
  have hcomplete : ∀ t, Derives .line (lex s) t → Yields s [] t (parseline n s) := fun t ht =>
    parse_complete ht (List.append_nil _).symm nofun hn
  cases hr : parseline n s with
  | error e =>
    rw [hr] at hparse hsound hcomplete
    have hno (t : Tree) : ¬Derives .line (lex s) t := by
      intro ht
      obtain ⟨cmd, s', h, -⟩ := hcomplete t ht
      cases h
    cases e with
    | fuel => exact absurd hsound id
    | panic msg =>
      refine ⟨.inr ⟨msg, hsound, hparse⟩, fun t => ⟨?_, fun ht => absurd ht (hno t)⟩⟩
      rintro ⟨cmd, buf, h, -⟩
      rw [hparse] at h
      cases h
  | ok r =>
    obtain ⟨cmd, s'⟩ := r
    rw [hr] at hparse hsound hcomplete
    have hread : Read s s (Derives .line) cmd s' := hsound
    obtain ⟨ts, hts, hd⟩ := hread.derives
    have htree := tree_nulterminate hs hread.words
    by_cases hend : s'.dropWhile isSpace = []
    · have hok : parsecmd n s = .ok (cmd, nulterminate cmd (s ++ ['\x00'])) :=
        hparse.trans (if_neg (not_not.2 hend))
      have hlex : lex s = ts := by
        rw [hts, ← lex_dropWhile s', hend]
        exact List.append_nil ts
      refine ⟨.inl ⟨_, _, hok⟩, fun t => ⟨?_, fun ht => ⟨_, _, hok, ?_⟩⟩⟩
      · rintro ⟨cmd', buf', h, rfl⟩
        rw [hok] at h
        cases h
        rw [htree, hlex]
        exact hd
      · obtain ⟨cmd', s₁, h, -, hmap, -⟩ := hcomplete t ht
        cases h
        rw [htree, hmap]
    · -- the line goes on, and so it derives no tree
      have herr : parsecmd n s = .error (.panic "syntax") := hparse.trans (if_pos hend)
      refine ⟨.inr ⟨_, List.mem_cons_self, herr⟩, fun t => ⟨?_, fun ht => ?_⟩⟩
      · rintro ⟨cmd', buf', h, -⟩
        rw [herr] at h
        cases h
      · obtain ⟨cmd', s₁, h, hs₁, -⟩ := hcomplete t ht
        cases h
        exact absurd (lex_eq_nil hs₁) hend

/-- `(ls > f &) | wc -l` -/
def pipeLine : Ptr := ['(', 'l', 's', ' ', '>', ' ', 'f', ' ', '&', ')', ' ', '|', ' ', 'w', 'c', ' ', '-', 'l']

theorem parsecmd_grammar_pipeLine : '\x00' ∉ pipeLine ∧ Parses pipeLine (parsecmd 100 pipeLine) ∧
    ∃ cmd buf, parsecmd 100 pipeLine = .ok (cmd, buf) ∧ cmd.tree buf =
      .pipe (.back (.redir (.exec [['l', 's']]) ['f'] (O_WRONLY ||| O_CREATE ||| O_TRUNC) 1))
        (.exec [['w', 'c'], ['-', 'l']]) := by
  have hnul : '\x00' ∉ pipeLine := by decide
  have hrun : ∃ cmd buf, parsecmd 100 pipeLine = .ok (cmd, buf) ∧ cmd.tree buf =
      .pipe (.back (.redir (.exec [['l', 's']]) ['f'] (O_WRONLY ||| O_CREATE ||| O_TRUNC) 1))
        (.exec [['w', 'c'], ['-', 'l']]) := ⟨_, _, rfl, by decide +kernel⟩
  exact ⟨hnul, parsecmd_grammar pipeLine hnul 100 (by decide), hrun⟩

/-! ## The words after `nulterminate` -/

/-- The `argv` of the EXEC nodes. -/
def Cmd.argvs {W : Type} : Cmd W → List (List W)
  | .exec argv => [argv]
  | .redir cmd _ _ _ => cmd.argvs
  | .pipe left right => left.argvs ++ right.argvs
  | .list left right => left.argvs ++ right.argvs
  | .back cmd => cmd.argvs

theorem argvs_map {V : Type} (f : V → W) (cmd : Cmd V) : (cmd.map f).argvs = cmd.argvs.map (map f) := by
  induction cmd <;> simp_all [Cmd.map, Cmd.argvs]

theorem argvs_wrap (t : Tree) (rs : List Redir) : (wrap t rs).argvs = t.argvs := by
  induction rs generalizing t with
  | nil => rfl
  | cons r rs ih => exact ih _

theorem argvs_backs (n : Nat) (t : Tree) : (backs n t).argvs = t.argvs := by
  induction n generalizing t with
  | zero => rfl
  | succ n ih => exact ih _

theorem Derives.argvs {x : Nonterminal} {ts : List Token} {t : Tree} (h : Derives x ts t) :
    ∀ argv ∈ t.argvs, argv.length < MAXARGS := by
  induction h with
  | line n _ ih => simpa only [argvs_backs] using ih
  | list n _ _ ih ih' | pipe _ _ ih ih' =>
    simp only [Cmd.argvs, argvs_backs, mem_append]
    rintro argv (h | h)
    · exact ih argv h
    · exact ih' argv h
  | exec _ ih => exact ih
  | block _ _ ih => simpa only [argvs_wrap] using ih
  | words _ _ hlen => simpa [argvs_wrap, Cmd.argvs] using hlen

/-- The word `w` of the line is a string in memory: its text, which the NULs of the other words have not
changed, and a NUL after it. -/
structure Survives (s : Ptr) (buf : Buffer) (w : Span) : Prop where
  word : w.Word s
  kept : ∀ i < w.text.length, buf[s.length - w.q.length + i]? = w.text[i]?
  nul : buf[s.length - w.q.length + w.text.length]? = some '\x00'
  string : buf.string w.q = w.text

theorem survives (hs : '\x00' ∉ s) (hw : cmd.All (Span.Word s)) :
    ∀ w ∈ cmd.words, Survives s (nulterminate cmd (s ++ ['\x00'])) w := by
  intro w h
  obtain ⟨hcut, hnul⟩ := (cut_line s).clears hw.words
  rw [← nulterminate_eq] at hcut hnul
  have hword := hw.words w h
  have hle := hword.length_le
  have hq : w.q.length = w.text.length + w.eq.length := by
    conv_lhs => rw [hword.1.eq]
    exact length_append
  have hoff : s.length - w.q.length = s.length - w.eq.length - w.text.length := by omega
  refine ⟨hword, fun i hi => ?_, ?_, hcut.string hs hword (hnul w h)⟩
  · have hc := getElem?_eq_getElem hi
    have hin := hword.getElem? i
    rw [getElem?_append_left hi, hc] at hin
    rw [hoff, hc]
    exact hcut.kept _ _ hin (hword.1.chars _ (getElem_mem hi))
  · rw [show s.length - w.q.length + w.text.length = s.length - w.eq.length by omega]
    exact hnul w h

/-- The command of an accepted line, as the parser built it. -/
theorem parsecmd_read {n : Nat} {buf : Buffer} (hn : 4 * s.length + 4 ≤ n) (h : parsecmd n s = .ok (cmd, buf)) :
    buf = nulterminate cmd (s ++ ['\x00']) ∧ cmd.All (Span.Word s) ∧ Derives .line (lex s) (cmd.map Span.text) := by
  have hsound := (parse_sound s n).line hn suffix_rfl
  have hparse : parsecmd n s = (parseline n s).bind fun r =>
      if r.2.dropWhile isSpace ≠ [] then .error (.panic "syntax")
      else .ok (r.1, nulterminate r.1 (s ++ ['\x00'])) := rfl
  rw [hparse] at h
  cases hr : parseline n s with
  | error e =>
    rw [hr] at h
    cases h
  | ok r =>
    obtain ⟨cmd', s'⟩ := r
    rw [hr] at h hsound
    have hread : Read s s (Derives .line) cmd' s' := hsound
    obtain ⟨ts, hts, hd⟩ := hread.derives
    by_cases hend : s'.dropWhile isSpace = []
    · have h : (Except.ok (cmd', nulterminate cmd' (s ++ ['\x00'])) : Except Stop _) = .ok (cmd, buf) :=
        (if_neg (not_not.2 hend)).symm.trans h
      cases h
      have hlex : lex s = ts := by
        rw [hts, ← lex_dropWhile s', hend]
        exact append_nil ts
      exact ⟨rfl, hread.words, hlex ▸ hd⟩
    · have h : (Except.error (.panic "syntax") : Except Stop (Cmd Span × Buffer)) = .ok (cmd, buf) :=
        (if_pos hend).symm.trans h
      cases h

/-- Every word of an accepted line is a string in memory afterwards, and so are the words of the tree the
line derives; there is room for the null pointer at the end of each `argv`. -/
theorem strings_survive {s : Ptr} (hs : '\x00' ∉ s) {n : Nat} (hn : 4 * s.length + 4 ≤ n) {cmd : Cmd Span} {buf : Buffer}
    (h : parsecmd n s = .ok (cmd, buf)) :
    (∀ w ∈ cmd.words, Survives s buf w) ∧ Derives .line (lex s) (cmd.tree buf) ∧
      ∀ argv ∈ cmd.argvs, argv.length + 1 ≤ MAXARGS := by
  obtain ⟨rfl, hw, hd⟩ := parsecmd_read hn h
  refine ⟨survives hs hw, by rwa [tree_nulterminate hs hw], fun argv ha => ?_⟩
  have hlen := hd.argvs (argv.map Span.text) (by
    rw [argvs_map]
    exact List.mem_map.2 ⟨argv, ha, rfl⟩)
  rwa [List.length_map] at hlen

/-- `a>b<c;d`, with no spaces. -/
def tightLine : Ptr := ['a', '>', 'b', '<', 'c', ';', 'd']

theorem strings_survive_tightLine : ∃ cmd buf, parsecmd 32 tightLine = .ok (cmd, buf) ∧
    cmd.words.map Span.text = [['a'], ['b'], ['c'], ['d']] ∧ ∀ w ∈ cmd.words, Survives tightLine buf w := by
  have hrun : ∃ cmd buf, parsecmd 32 tightLine = .ok (cmd, buf) ∧
      cmd.words.map Span.text = [['a'], ['b'], ['c'], ['d']] := ⟨_, _, rfl, by decide +kernel⟩
  obtain ⟨cmd, buf, h, hwords⟩ := hrun
  exact ⟨cmd, buf, h, hwords, (strings_survive (by decide) (by decide) h).1⟩

end Xv6.Sh
