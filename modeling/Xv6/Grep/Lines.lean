import Xv6.Grep.Match
import Xv6.Lib.Memmove
import Xv6.Framework.Run

/-!
# `grep` reads lines

`grep` of `grep.c` keeps what it has read of a line in a buffer of 1024 characters, and moves it to the
start after each `read`. `read` returns any part of what is left of the file, as long as it fits. However
the file is read, the lines written are those that match, as they are (`grep_lines`): the lines of the
file are those written or passed over, and those of what is in the buffer and what is not read yet
(`Inv`).
-/

namespace Xv6.Grep

open List

/-! ## The program -/

/-- `strchr` of `ulib.c`, from a place of the buffer on: how far away `c` is. Nothing if it leaves the
buffer. -/
def strchr (c : Char) : List Char → Option (Option Nat)
  | [] => none
  | x :: s =>
    if x = '\x00' then some none
    else if x = c then some (some 0)
    else (strchr c s).map (Option.map (· + 1))

/-- The loop over the lines in the buffer from `p` on, for at most `fuel` rounds: the buffer and the place
it is left at, and the lines that it writes. -/
def scan (re : List Char) : Nat → List Char → Nat → Option (List Char × Nat × List (List Char))
  | 0, _, _ => none
  | fuel + 1, buf, p =>
    match strchr '\n' (buf.drop p) with
    | none => none
    | some none => some (buf, p, [])
    | some (some k) =>
      let q := p + k
      let buf := buf.set q '\x00'
      if matchre re ((buf.drop p).takeWhile (· ≠ '\x00')) then
        let buf := buf.set q '\n'
        (scan re fuel buf (q + 1)).map fun r => (r.1, r.2.1, (buf.drop p).take (q + 1 - p) :: r.2.2)
      else scan re fuel buf (q + 1)

/-- `memmove(buf, p, m)`, with the buffer at address 0. -/
def move (buf : List Char) (p m : Nat) : List Char :=
  let mem := (Lib.User.memmove (fun a => buf.getD a.toNat '\x00') 0 (BitVec.ofNat 64 p) (BitVec.ofNat 32 m)).2
  (List.range buf.length).map fun i => mem (BitVec.ofNat 64 i)

/-- The body of the loop, with what is in the buffer from `m` on after `read`: the buffer, the number of
characters left in it, and the lines that it writes. -/
def round (re buf piece : List Char) (m : Nat) : Option (List Char × Nat × List (List Char)) :=
  let buf := buf.take m ++ piece ++ buf.drop (m + piece.length)
  let m := m + piece.length
  (scan re 1024 (buf.set m '\x00') 0).map fun (buf, p, ls) =>
    if m > 0 then (move buf p (m - p), m - p, ls) else (buf, m, ls)

structure State where
  buf : List Char
  /-- How many characters of the buffer are in use. -/
  m : Nat
  /-- What is left of the file. -/
  rest : List Char
  done : Bool

/-- How much is asked of `read`. -/
def State.room (s : State) : Nat := 1024 - s.m - 1

/-- `read` may return `n`. -/
def Reads (s : State) (n : Nat) : Prop :=
  if n = 0 then s.rest = [] ∨ s.room = 0 else n ≤ s.room ∧ n ≤ s.rest.length

instance (s : State) (n : Nat) : Decidable (Reads s n) := inferInstanceAs (Decidable (ite _ _ _))

/-- `read` returns `n`; a line is an event when it is written. -/
def step (re : List Char) (s : State) (n : Nat) : Option (State × List (List Char)) :=
  if s.done = true ∨ ¬ Reads s n then none
  else if n = 0 then some ({ s with done := true }, [])
  else (round re s.buf (s.rest.take n) s.m).map fun (buf, m, ls) => (⟨buf, m, s.rest.drop n, false⟩, ls)

def start (buf input : List Char) : State := ⟨buf, 0, input, false⟩

/-! ## Lines -/

/-- The lines that end with a newline, without it. -/
def lines (t : List Char) : List (List Char) := (t.splitOn '\n').dropLast

/-- What is to be written. -/
def output (re : List Char) (ls : List (List Char)) : List (List Char) :=
  (ls.filter (matchre re)).map (· ++ ['\n'])

variable {re buf t l junk input : List Char} {p k : Nat}

theorem lines_cons (h : '\n' ∉ l) (t : List Char) : lines (l ++ '\n' :: t) = l :: lines t := by
  have hl : ∀ x ∈ l, (x == '\n') = false := fun x hx => beq_false_of_ne fun he => h (he ▸ hx)
  rw [lines, splitOn_eq_splitOnP, splitOnP_append_cons_of_forall_mem hl '\n' (by simp), ← splitOn_eq_splitOnP,
    dropLast_cons_of_ne_nil (by rw [splitOn_eq_splitOnP]; exact splitOnP_ne_nil _ _)]
  rfl

theorem lines_eq_nil (h : '\n' ∉ l) : lines l = [] := by
  have hl : ∀ x ∈ l, (x == '\n') = false := fun x hx => beq_false_of_ne fun he => h (he ▸ hx)
  rw [lines, splitOn_eq_splitOnP, splitOnP_eq_singleton hl]
  rfl

/-! ## The buffer -/

theorem strchr_append (h0 : '\x00' ∉ l) (h : '\n' ∉ l) (t : List Char) :
    strchr '\n' (l ++ t) = (strchr '\n' t).map (Option.map (· + l.length)) := by
  induction l with
  | nil => simp
  | cons x l ih =>
    obtain ⟨hx0, h0⟩ := not_or.1 (mt mem_cons.2 h0)
    obtain ⟨hx, h⟩ := not_or.1 (mt mem_cons.2 h)
    rw [cons_append, strchr, if_neg (Ne.symm hx0), if_neg (Ne.symm hx), ih h0 h]
    simp [Function.comp_def, Nat.add_assoc]

theorem move_eq (hlen : buf.length = 1024) (hk : p + k ≤ 1024) :
    (move buf p k).length = 1024 ∧ (move buf p k).take k = (buf.drop p).take k := by
  have hn : (BitVec.ofNat 32 k).toInt.toNat = k := by
    rw [BitVec.toInt_eq_toNat_cond, BitVec.toNat_ofNat]
    omega
  have hp : (BitVec.ofNat 64 p).toNat = p := by
    rw [BitVec.toNat_ofNat]
    omega
  rw [move, Lib.user_memmove _ (by rw [hn, Lib.NoWrap]; simp; omega) (by rw [hn, Lib.NoWrap, hp]; omega), hn]
  refine ⟨by simp [hlen], ext_getElem (by simp; omega) fun i hi _ => ?_⟩
  have hik : i < k := by simp at hi; omega
  have hoff : (BitVec.ofNat 64 i - 0).toNat = i := by bv_omega
  have hsum : (BitVec.ofNat 64 p + (BitVec.ofNat 64 i - 0)).toNat = p + i := by bv_omega
  rw [getElem_take, getElem_map, getElem_range, getElem_take, getElem_drop]
  simp only [Lib.moved, hoff, hsum]
  rw [if_pos hik]
  exact (getElem_eq_getD '\x00').symm

/-- The lines in `l`, which a NUL ends, are passed over or written, and the rest of it has none. -/
theorem scan_eq (re junk : List Char) {fuel : Nat} (x : List Char) (h0 : '\x00' ∉ l) (hf : l.length < fuel) :
    ∃ x' part ls, scan re fuel (x ++ (l ++ '\x00' :: junk)) x.length =
        some (x' ++ (part ++ '\x00' :: junk), x'.length, output re ls) ∧
      x'.length + part.length = x.length + l.length ∧ '\n' ∉ part ∧ '\x00' ∉ part ∧
      ∀ t, lines (l ++ t) = ls ++ lines (part ++ t) := by
  induction fuel generalizing x l with
  | zero => cases hf
  | succ fuel ih =>
    rw [scan, drop_left]
    by_cases h : '\n' ∈ l
    · obtain ⟨line, l, rfl, hline⟩ := eq_append_cons_of_mem h
      have h0' : '\x00' ∉ line := fun hm => h0 (mem_append_left _ hm)
      have hset (c c' : Char) : (x ++ (line ++ c :: (l ++ '\x00' :: junk))).set (x.length + line.length) c' =
          x ++ (line ++ c' :: (l ++ '\x00' :: junk)) := by simp
      have htext : (line ++ '\x00' :: (l ++ '\x00' :: junk)).takeWhile (· ≠ '\x00') = line := by
        have hpos : ∀ y ∈ line, decide (y ≠ '\x00') = true := fun y hy => decide_eq_true fun e => h0' (e ▸ hy)
        rw [takeWhile_append_of_pos hpos]
        simp
      have hfound : strchr '\n' (line ++ '\n' :: (l ++ '\x00' :: junk)) = some (some line.length) := by
        rw [strchr_append h0' hline]
        simp [strchr]
      have htake : (line ++ '\n' :: (l ++ '\x00' :: junk)).take (x.length + line.length + 1 - x.length) = line ++ ['\n'] := by
        rw [Nat.add_assoc, Nat.add_sub_cancel_left, take_length_add_append]
        rfl
      rw [append_assoc, cons_append, hfound]
      simp only [hset, drop_left, htext, htake]
      -- the character at the end of the line is a newline again, if the line was written
      have hnext (c : Char) : ∃ x' part ls, scan re fuel (x ++ (line ++ c :: (l ++ '\x00' :: junk))) (x.length + line.length + 1) =
            some (x' ++ (part ++ '\x00' :: junk), x'.length, output re ls) ∧
          x'.length + part.length = x.length + (line ++ '\n' :: l).length ∧ '\n' ∉ part ∧ '\x00' ∉ part ∧
          ∀ t, lines (line ++ '\n' :: l ++ t) = line :: (ls ++ lines (part ++ t)) := by
        obtain ⟨x', part, ls, hscan, hlen, hnl, hnul, hlines⟩ := ih (x ++ (line ++ [c])) (l := l) (fun hm => h0 (by simp [hm]))
          (by simp at hf; omega)
        refine ⟨x', part, ls, by simpa [Nat.add_assoc] using hscan, by simp at hlen ⊢; omega, hnl, hnul, fun t => ?_⟩
        rw [append_assoc, cons_append, lines_cons hline, hlines]
      by_cases hm : matchre re line = true
      · obtain ⟨x', part, ls, hscan, hrest⟩ := hnext '\n'
        refine ⟨x', part, line :: ls, ?_, hrest⟩
        rw [if_pos hm, hscan]
        simp [output, hm]
      · obtain ⟨x', part, ls, hscan, hrest⟩ := hnext '\x00'
        refine ⟨x', part, line :: ls, ?_, hrest⟩
        rw [if_neg hm, hscan]
        simp [output, hm]
    · rw [strchr_append h0 h]
      exact ⟨x, l, [], rfl, rfl, h, h0, fun _ => rfl⟩

/-- What `round` leaves in the buffer has no newline. -/
theorem round_eq (re : List Char) {piece : List Char} {m : Nat} (hsize : buf.length = 1024) (hm : m + piece.length < 1024)
    (hpos : piece ≠ []) (h0 : '\x00' ∉ buf.take m ++ piece) : ∃ buf' part ls,
      round re buf piece m = some (buf', part.length, output re ls) ∧ buf'.length = 1024 ∧ part.length < 1024 ∧
      buf'.take part.length = part ∧ '\n' ∉ part ∧ '\x00' ∉ part ∧
      ∀ t, lines (buf.take m ++ piece ++ t) = ls ++ lines (part ++ t) := by
  have hlen : (buf.take m ++ piece).length = m + piece.length := by
    rw [length_append, length_take_of_le (by omega)]
  obtain ⟨c, junk, hjunk⟩ : ∃ c junk, buf.drop (m + piece.length) = c :: junk :=
    exists_cons_of_length_pos (by rw [length_drop]; omega)
  have hjunk' := congrArg length hjunk
  obtain ⟨x, part, ls, hscan, hpart, hnl, hnul, hlines⟩ := scan_eq re junk [] h0 (show _ < 1024 by omega)
  rw [length_nil, Nat.zero_add, hlen] at hpart
  rw [length_nil, nil_append] at hscan
  rw [length_drop, length_cons] at hjunk'
  have hbuf : (x ++ (part ++ '\x00' :: junk)).length = 1024 := by
    rw [length_append, length_append, length_cons]
    omega
  obtain ⟨hmove, htake⟩ := move_eq hbuf (show x.length + part.length ≤ 1024 by omega)
  rw [drop_left, take_left] at htake
  refine ⟨_, part, ls, ?_, hmove, by omega, htake, hnl, hnul, hlines⟩
  have hset : (buf.take m ++ piece ++ buf.drop (m + piece.length)).set (m + piece.length) '\x00' =
      buf.take m ++ piece ++ '\x00' :: junk := by
    rw [hjunk, ← hlen, set_append_right _ _ (Nat.le_refl _), Nat.sub_self]
    rfl
  have hleft : m + piece.length - x.length = part.length := by omega
  have hpos : m + piece.length > 0 := by
    have := length_pos_iff.2 hpos
    omega
  simp only [round, hset, hscan, Option.map_some, if_pos hpos, hleft]

/-! ## Runs -/

/-- The lines of the file are those that are dealt with, and those of what is in the buffer and not read yet. -/
structure Inv (re input : List Char) (es : List (List Char)) (s : State) : Prop where
  size : s.buf.length = 1024
  fits : s.m < 1024
  part : '\n' ∉ s.buf.take s.m
  nul : '\x00' ∉ s.buf.take s.m ++ s.rest
  split : ∃ ls, lines input = ls ++ lines (s.buf.take s.m ++ s.rest) ∧ es = output re ls
  done : s.done = true → lines (s.buf.take s.m ++ s.rest) = []

variable {es : List (List Char)} {s s' : State} {n : Nat}

/-- A buffer that is full has no part of a line that is short enough. -/
theorem lines_of_full (hl : '\n' ∉ l) (hfull : l.length = 1023) (h : ∀ x ∈ lines (l ++ t), x.length < 1023) :
    lines (l ++ t) = [] := by
  by_cases hm : '\n' ∈ l ++ t
  · obtain ⟨line, t', he, hline⟩ := eq_append_cons_of_mem hm
    have hlt : line.length < 1023 := by
      refine h line ?_
      rw [he, lines_cons hline]
      exact mem_cons_self
    obtain ⟨a, rfl, ha⟩ | ⟨a, rfl, -⟩ := append_eq_append_iff.1 he.symm
    · cases a with
      | nil => simp at hfull; omega
      | cons x a =>
        cases ha
        exact absurd (by simp) hl
    · simp at hlt
      omega
  · exact lines_eq_nil hm

theorem inv_step (hlen : ∀ l ∈ lines input, l.length < 1023) (h : Inv re input es s) (hd : s.done = false) (hn : Reads s n) :
    ∃ s' ws, step re s n = some (s', ws) ∧ Inv re input (es ++ ws) s' ∧ (s'.done = true ∨ s'.rest.length < s.rest.length) := by
  obtain ⟨ls₀, hls₀, rfl⟩ := h.split
  have hgo : ¬ (s.done = true ∨ ¬ Reads s n) := by simp [hd, hn]
  have hfits := h.fits
  rw [step, if_neg hgo]
  rw [Reads, State.room] at hn
  by_cases hn0 : n = 0
  · rw [if_pos hn0] at hn ⊢
    refine ⟨_, _, rfl, ⟨h.size, h.fits, h.part, h.nul, ⟨ls₀, hls₀, append_nil _⟩, fun _ => ?_⟩, .inl rfl⟩
    rcases hn with hn | hn
    · rw [hn, append_nil]
      exact lines_eq_nil h.part
    · have hfull : (s.buf.take s.m).length = 1023 := by
        rw [length_take_of_le (by rw [h.size]; exact hfits.le)]
        omega
      exact lines_of_full h.part hfull fun x hx => hlen x (hls₀ ▸ mem_append_right _ hx)
  · rw [if_neg hn0] at hn ⊢
    have hpiece : (s.rest.take n).length = n := length_take_of_le hn.2
    have hsplit : s.buf.take s.m ++ s.rest = s.buf.take s.m ++ s.rest.take n ++ s.rest.drop n := by
      rw [append_assoc, take_append_drop]
    have hnul := h.nul
    rw [hsplit, mem_append, not_or] at hnul
    obtain ⟨buf, part, ls, hround, hsize, hlt, htake, hnl, hnul', hlines⟩ :=
      round_eq re h.size (by omega) (ne_nil_of_length_pos (by omega)) hnul.1
    rw [hround]
    refine ⟨_, _, rfl, ⟨hsize, hlt, ?_, ?_, ⟨ls₀ ++ ls, ?_, ?_⟩, nofun⟩, .inr ?_⟩
    · rwa [htake]
    · rw [htake, mem_append, not_or]
      exact ⟨hnul', hnul.2⟩
    · rw [hls₀, hsplit, hlines, htake, append_assoc]
    · simp [output]
    · rw [length_drop]
      omega

theorem inv_start (re : List Char) (hbuf : buf.length = 1024) (h0 : '\x00' ∉ input) : Inv re input [] (start buf input) :=
  ⟨hbuf, Nat.zero_lt_succ 1023, not_mem_nil, h0, ⟨[], rfl, rfl⟩, nofun⟩

/-- However the file is read, every line that ends with a newline is written if it matches. A step reads
part of the file or is the last, so that `grep` comes to its end. -/
theorem grep_lines (re : List Char) {buf input : List Char} (hbuf : buf.length = 1024) (h0 : '\x00' ∉ input)
    (hlen : ∀ l ∈ lines input, (l ++ ['\n']).length ≤ 1023) {es : List (List Char)} {s : State}
    (h : Exec (step re) Any (start buf input) es s) :
    (s.done = true → es = output re (lines input)) ∧
    (s.done = false → (∃ n, Reads s n) ∧ ∀ n, Reads s n →
      ∃ s' ws, step re s n = some (s', ws) ∧ (s'.done = true ∨ s'.rest.length < s.rest.length)) := by
  have hlen : ∀ l ∈ lines input, l.length < 1023 := fun l hl => Nat.lt_of_succ_le (by simpa using hlen l hl)
  have hinv : Inv re input es s := by
    refine h.invariant (I := Inv re input) (inv_start re hbuf h0) fun {es es' s s' n} hi _ hs => ?_
    have hgo : s.done = false ∧ Reads s n := by
      by_contra hno
      rw [step, if_pos (by simpa [Classical.or_iff_not_imp_left] using hno)] at hs
      cases hs
    obtain ⟨s₁, ws, hs₁, hi₁, -⟩ := inv_step hlen hi hgo.1 hgo.2
    cases hs₁.symm.trans hs
    exact hi₁
  refine ⟨fun hd => ?_, fun hd => ⟨?_, fun n hn => ?_⟩⟩
  · obtain ⟨ls, hls, rfl⟩ := hinv.split
    rw [hls, hinv.done hd, List.append_nil]
  · by_cases hr : s.rest = [] ∨ s.room = 0
    · exact ⟨0, hr⟩
    · obtain ⟨hr, hroom⟩ := not_or.1 hr
      exact ⟨1, Nat.pos_of_ne_zero hroom, List.length_pos_iff.2 hr⟩
  · obtain ⟨s', ws, hs, -, hlt⟩ := inv_step hlen hinv hd hn
    exact ⟨s', ws, hs, hlt⟩

/-- Four lines, the last one without a newline, in three pieces. -/
theorem grep_lines_pieces : ∃ es s, Exec (step ['a']) Any (start (List.replicate 1024 'z') "xa\nb\nca\nda".toList) es s ∧
    s.done = true ∧ es = ["xa\n".toList, "ca\n".toList] := by
  obtain ⟨es, s, hrun, hdone⟩ : ∃ es s, Exec (step ['a']) Any (start (List.replicate 1024 'z') "xa\nb\nca\nda".toList) es s ∧
      s.done = true := exists_exec (fun _ _ => of_decide_eq_true) [1, 5, 4, 0] (by decide +kernel)
  refine ⟨es, s, hrun, hdone, ?_⟩
  exact ((grep_lines ['a'] List.length_replicate (by decide) (by decide) hrun).1 hdone).trans (by decide)

end Xv6.Grep
