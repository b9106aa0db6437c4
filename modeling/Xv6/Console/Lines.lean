import Xv6.Console.Model
import Xv6.Framework.Fifo

/-!
# The line discipline of the console

`discipline` is line editing as its user sees it: a line that is being edited, the bytes committed so
far and those of them not yet read. In every run, what the readers get is the bytes committed, in
order, and each read ends as it should (`console_lines`). The handler ignores ^P and NUL, which line
editing without an exception for them would put into the line (`console_ignores`). A process that is
killed while it waits for more takes the bytes with it that it has got.
-/

namespace Xv6.Console

open Function List

/-! ## Line editing -/

structure Discipline where
  /-- The line that is being edited. -/
  line : List Byte
  /-- Committed and not yet read. -/
  unread : List Byte
  /-- All that has been committed. -/
  committed : List Byte

def Discipline.commit (d : Discipline) : Discipline :=
  { line := [], unread := d.unread ++ d.line, committed := d.committed ++ d.line }

def Discipline.held (d : Discipline) : Nat := d.unread.length + d.line.length

/-- A character arrives. Those that are `ignored` do nothing. -/
def Discipline.type (ignored : Byte → Bool) (d : Discipline) (c : Byte) : Discipline :=
  if ignored c then d
  else if c = ctrlU then { d with line := [] }
  else if c = ctrlH ∨ c = DEL then { d with line := d.line.dropLast }
  else if d.held < INPUT_BUF_SIZE then
    let c := if c = CR then NL else c
    let d := { d with line := d.line ++ [c] }
    if c = NL ∨ c = ctrlD ∨ d.held = INPUT_BUF_SIZE then d.commit else d
  else d

variable {P : Type}

def Discipline.event (ignored : Byte → Bool) (d : Discipline) : Event P → Discipline
  | .typed c => d.type ignored c
  | .got _ _ | .eof _ => { d with unread := d.unread.tail }
  | _ => d

def discipline (ignored : Byte → Bool) (es : List (Event P)) : Discipline :=
  es.foldl (Discipline.event ignored) { line := [], unread := [], committed := [] }

/-- ^P and NUL. -/
def special (c : Byte) : Bool := c = ctrlP ∨ c = 0

def Event.received : Event P → Option Byte
  | .got _ c => some c
  | .eof _ => some ctrlD
  | _ => none

/-- The bytes that readers got, with the ^D that ended a read. -/
def received (es : List (Event P)) : List Byte := es.filterMap Event.received

section Reads

variable [DecidableEq P]

/-- What a process has asked for, and got so far. -/
def Event.reading (p : P) (c : Nat × List Byte) : Event P → Nat × List Byte
  | .called q n => if q = p then (n, []) else c
  | .got q b => if q = p then (c.1, c.2 ++ [b]) else c
  | _ => c

def progress (p : P) (es : List (Event P)) : Nat × List Byte := es.foldl (Event.reading p) (0, [])

def asked (p : P) (es : List (Event P)) : Nat := (progress p es).1

/-- The bytes that `p` got since it last called `consoleread`. -/
def reading (p : P) (es : List (Event P)) : List Byte := (progress p es).2

/-- How reads go on and end: after a newline nothing more is read; a ^D is consumed only where
nothing has been read; and a read returns what it got, which is all it asked for, or ends with a
newline, or is followed by a ^D, consumed if there was nothing else and kept otherwise. A read returns
-1 only where nothing is left to read and it has neither all it asked for nor a newline. -/
def ReadsLine (pre : List (Event P)) : Event P → Prop
  | .got p c => c ≠ ctrlD ∧ NL ∉ reading p pre
  | .eof p => reading p pre = []
  | .returned p n => n = (reading p pre).length ∧
      (n = asked p pre ∨ (reading p pre).getLast? = some NL ∨
        n = 0 ∧ pre.getLast? = some (.eof p) ∨
        0 < n ∧ (discipline special pre).unread.head? = some ctrlD)
  | .killed p => (discipline special pre).unread = [] ∧ (reading p pre).length < asked p pre ∧ NL ∉ reading p pre
  | _ => True

end Reads

/-! ## The buffer -/

theorem discipline_snoc (ignored : Byte → Bool) (es : List (Event P)) (e : Event P) :
    discipline ignored (es ++ [e]) = (discipline ignored es).event ignored e := by
  rw [discipline, foldl_append]
  rfl

/-- The ring has the bytes not yet read, then the line that is being edited. -/
structure Cells (s : State P) (d : Discipline) : Prop where
  window : Window INPUT_BUF_SIZE s.buf s.r.toNat (d.unread ++ d.line)
  w : s.w = s.r + BitVec.ofNat 32 d.unread.length
  e : s.e = s.w + BitVec.ofNat 32 d.line.length

structure Holds (s : State P) (d : Discipline) : Prop extends Cells s d where
  /-- A newline ends the line. -/
  noNL : NL ∉ d.line

theorem toNat_add_mod (i : BitVec 32) (k : Nat) :
    (i + BitVec.ofNat 32 k).toNat % INPUT_BUF_SIZE = (i.toNat + k) % INPUT_BUF_SIZE := by
  rw [BitVec.toNat_add, BitVec.toNat_ofNat, Nat.add_mod_mod]
  exact Nat.mod_mod_of_dvd _ (by decide)

theorem ofNat_inj {a b : Nat} (ha : a ≤ INPUT_BUF_SIZE) (hb : b ≤ INPUT_BUF_SIZE)
    (h : BitVec.ofNat 32 a = BitVec.ofNat 32 b) : a = b := by
  have h := congrArg BitVec.toNat h
  rw [INPUT_BUF_SIZE] at ha hb
  rw [BitVec.toNat_ofNat, BitVec.toNat_ofNat, Nat.mod_eq_of_lt (by omega), Nat.mod_eq_of_lt (by omega)] at h
  exact h

theorem add_ofNat_iff (i : BitVec 32) {k : Nat} (hk : k ≤ INPUT_BUF_SIZE) : i + BitVec.ofNat 32 k = i ↔ k = 0 := by
  constructor
  · intro e
    have h := congrArg (· - i) e
    change i + BitVec.ofNat 32 k - i = i - i at h
    rw [BitVec.add_comm, BitVec.add_sub_cancel, BitVec.sub_self] at h
    exact ofNat_inj hk (Nat.zero_le _) h
  · rintro rfl
    exact BitVec.add_zero i

variable {s : State P} {d : Discipline}

section Cells

variable (h : Cells s d)

include h

theorem Cells.held_le : d.held ≤ INPUT_BUF_SIZE := by
  have hroom := h.window.room
  rwa [length_append] at hroom

theorem Cells.e_eq : s.e = s.r + BitVec.ofNat 32 d.held := by
  rw [h.e, h.w, Discipline.held, BitVec.ofNat_add, BitVec.add_assoc]

theorem Cells.e_sub_r : s.e - s.r = BitVec.ofNat 32 d.held := by
  rw [h.e_eq, BitVec.add_comm, BitVec.add_sub_cancel]

theorem Cells.full_iff : s.full = true ↔ d.held = INPUT_BUF_SIZE := by
  rw [State.full, beq_iff_eq, h.e_sub_r]
  exact ⟨ofNat_inj h.held_le le_rfl, fun e => by rw [e]⟩

theorem Cells.room_iff : s.e - s.r < BitVec.ofNat 32 INPUT_BUF_SIZE ↔ d.held < INPUT_BUF_SIZE := by
  have hle := h.held_le
  rw [h.e_sub_r, BitVec.lt_def, BitVec.toNat_ofNat, BitVec.toNat_ofNat]
  rw [INPUT_BUF_SIZE] at hle ⊢
  omega

theorem Cells.line_iff : s.e = s.w ↔ d.line = [] := by
  have hle := h.held_le
  rw [Discipline.held] at hle
  rw [h.e, add_ofNat_iff s.w (by omega), length_eq_zero_iff]

theorem Cells.unread_iff : s.r = s.w ↔ d.unread = [] := by
  have hle := h.held_le
  rw [Discipline.held] at hle
  rw [h.w, eq_comm, add_ofNat_iff s.r (by omega), length_eq_zero_iff]

theorem Cells.put (hroom : d.held < INPUT_BUF_SIZE) (c : Byte) : Cells (s.put c) { d with line := d.line ++ [c] } := by
  have hlen : (d.unread ++ d.line).length = d.held := length_append
  refine ⟨?_, h.w, ?_⟩
  · rw [← append_assoc]
    rw [State.put, h.e_eq, toNat_add_mod, ← hlen]
    exact h.window.push (hlen ▸ hroom)
  · rw [State.put]
    dsimp only
    rw [h.e, length_append, BitVec.ofNat_add, ← BitVec.add_assoc]
    rfl

theorem Cells.commit : Cells { s with w := s.e } d.commit := by
  refine ⟨?_, ?_, ?_⟩
  · rw [Discipline.commit, append_nil]
    exact h.window
  · rw [Discipline.commit, length_append]
    exact h.e_eq
  · rw [Discipline.commit]
    exact (BitVec.add_zero _).symm

/-- A reader takes the first byte. -/
theorem Cells.take (hne : s.r ≠ s.w) : d.unread = s.at s.r :: d.unread.tail ∧
    Cells { s with r := s.r + 1 } { d with unread := d.unread.tail } := by
  obtain ⟨c, rest, e⟩ := exists_cons_of_ne_nil fun e => hne (h.unread_iff.2 e)
  have hw := h.window
  have hw' := h.w
  rw [e] at hw hw'
  have hc : s.at s.r = c := hw.head
  rw [e, hc]
  refine ⟨rfl, ?_, ?_, h.e⟩
  · refine hw.tail.congr ?_
    exact (toNat_add_mod s.r 1).symm
  · dsimp only [tail_cons]
    rw [hw', length_cons, Nat.add_comm, BitVec.ofNat_add, BitVec.add_assoc]
    rfl

end Cells

/-- A backspace. -/
theorem Holds.dropLast (h : Holds s d) (hne : d.line ≠ []) :
    Holds { s with e := s.e - 1 } { d with line := d.line.dropLast } ∧ s.at (s.e - 1) ≠ NL := by
  obtain ⟨line, c, e⟩ : ∃ line c, d.line = line ++ [c] :=
    ⟨_, _, (dropLast_append_getLast hne).symm⟩
  have hlen : d.line.length = line.length + 1 := by rw [e]; simp
  have hpred : s.e - 1 = s.w + BitVec.ofNat 32 line.length := by
    rw [h.e, hlen, BitVec.ofNat_add, ← BitVec.add_assoc]
    exact BitVec.add_sub_cancel ..
  have hw := h.window
  have hnl := h.noNL
  rw [e] at hw hnl
  rw [← append_assoc] at hw
  rw [e, dropLast_concat]
  refine ⟨⟨⟨hw.left, h.w, hpred⟩, fun hm => hnl (mem_append_left _ hm)⟩, ?_⟩
  have hlast := hw.last
  rw [State.at, hpred, h.w, BitVec.add_assoc, ← BitVec.ofNat_add, toNat_add_mod, ← length_append, hlast]
  exact fun hc => hnl (hc ▸ mem_append_right _ (mem_singleton_self c))

theorem Holds.killLine (h : Holds s d) : Holds (Console.killLine d.line.length s) { d with line := [] } := by
  -- each pass takes the last character back, and none of them is a newline
  generalize hk : d.line.length = k
  induction k generalizing s d with
  | zero =>
    have hnil := length_eq_zero_iff.1 hk
    have e : { d with line := [] } = d := by rw [← hnil]
    rw [e]
    exact h
  | succ k ih =>
    have hne : d.line ≠ [] := fun e => by rw [e] at hk; cases hk
    obtain ⟨hd, hnl⟩ := h.dropLast hne
    rw [Console.killLine, if_pos ⟨fun e => hne (h.line_iff.1 e), hnl⟩]
    have hlen : d.line.dropLast.length = k := by rw [length_dropLast, hk]; rfl
    exact ih (d := { d with line := d.line.dropLast }) hd hlen

theorem Holds.consoleintr (h : Holds s d) (c : Byte) : Holds (Console.consoleintr s c) (d.type special c) := by
  have hle := h.held_le
  rw [Console.consoleintr, Discipline.type]
  by_cases hp : c = ctrlP
  · have hs : special c = true := decide_eq_true (Or.inl hp)
    rw [if_pos hp, if_pos hs]
    exact h
  rw [if_neg hp]
  by_cases h0 : c = 0
  · subst h0
    exact h
  have hs : special c = false := decide_eq_false (by tauto)
  rw [hs, if_neg Bool.false_ne_true]
  by_cases hu : c = ctrlU
  · have hlen : (s.e - s.w).toNat = d.line.length := by
      rw [h.e, BitVec.add_comm, BitVec.add_sub_cancel, BitVec.toNat_ofNat, Nat.mod_eq_of_lt]
      rw [Discipline.held, INPUT_BUF_SIZE] at hle
      omega
    rw [if_pos hu, if_pos hu, hlen]
    exact h.killLine
  rw [if_neg hu, if_neg hu]
  by_cases hh : c = ctrlH ∨ c = DEL
  · rw [if_pos hh, if_pos hh]
    split
    · rename_i hne
      exact (h.dropLast fun e => hne (h.line_iff.2 e)).1
    · rename_i he
      have hnil := h.line_iff.1 (not_not.1 he)
      have e : { d with line := d.line.dropLast } = d := by rw [hnil, dropLast_nil, ← hnil]
      rw [e]
      exact h
  rw [if_neg hh, if_neg hh]
  by_cases hroom : d.held < INPUT_BUF_SIZE
  · rw [if_pos ⟨h0, h.room_iff.2 hroom⟩, if_pos hroom]
    dsimp only
    generalize (if c = CR then NL else c) = c'
    have hput := h.toCells.put hroom c'
    simp only [hput.full_iff]
    split
    · exact ⟨hput.commit, not_mem_nil⟩
    · rename_i hc
      refine ⟨hput, fun hm => ?_⟩
      rcases mem_append.1 hm with hm | hm
      · exact h.noNL hm
      · exact hc (.inl (mem_singleton.1 hm).symm)
  · rw [if_neg fun hr => hroom (h.room_iff.1 hr.2), if_neg hroom]
    exact h

/-! ## The readers -/

/-- What is not yet read is what remains of what was committed. -/
structure Streams (es : List (Event P)) (s : State P) : Prop where
  holds : Holds s (discipline special es)
  stream : received es ++ (discipline special es).unread = (discipline special es).committed

variable {es : List (Event P)}

theorem received_snoc (es : List (Event P)) (e : Event P) : received (es ++ [e]) = received es ++ e.received.toList := by
  rw [received, filterMap_append]
  cases h : e.received with
  | none => simp [h, received]
  | some c => simp [h, received]

theorem committed_type (d : Discipline) (c : Byte) (l : List Byte) (h : l ++ d.unread = d.committed) :
    l ++ (d.type special c).unread = (d.type special c).committed := by
  rw [Discipline.type]
  split
  · exact h
  split
  · exact h
  split
  · exact h
  split
  · dsimp only
    generalize (if c = CR then NL else c) = c'
    split
    · rw [Discipline.commit]
      dsimp only
      rw [← append_assoc, h]
    · exact h
  · exact h

theorem Streams.typed (h : Streams es s) (c : Byte) : Streams (es ++ [.typed c]) (consoleintr s c) := by
  refine ⟨?_, ?_⟩
  · rw [discipline_snoc]
    exact h.holds.consoleintr c
  · rw [discipline_snoc, received_snoc]
    refine committed_type _ c _ ?_
    change received es ++ [] ++ _ = _
    rw [append_nil]
    exact h.stream

/-- A step that only moves readers. -/
theorem Streams.move {s' : State P} {e : Event P} (h : Streams es s) (hbuf : s'.buf = s.buf) (hr : s'.r = s.r)
    (hw : s'.w = s.w) (he : s'.e = s.e) (hd : ∀ d : Discipline, d.event special e = d)
    (hrec : e.received = none) : Streams (es ++ [e]) s' := by
  refine ⟨?_, ?_⟩
  · rw [discipline_snoc, hd]
    refine ⟨⟨?_, ?_, ?_⟩, h.holds.noNL⟩
    · rw [hbuf, hr]
      exact h.holds.window
    · rw [hw, hr]
      exact h.holds.w
    · rw [he, hw]
      exact h.holds.e
  · rw [discipline_snoc, hd, received_snoc, hrec, Option.toList_none, append_nil]
    exact h.stream

/-- A reader takes a byte. -/
theorem Streams.take {s' : State P} {e : Event P} (h : Streams es s) (hne : s.r ≠ s.w) (hrec : e.received = some (s.at s.r))
    (hbuf : s'.buf = s.buf) (hr : s'.r = s.r + 1) (hw : s'.w = s.w) (he : s'.e = s.e) : Streams (es ++ [e]) s' := by
  obtain ⟨hhead, hcells⟩ := h.holds.take hne
  have hd : discipline special (es ++ [e]) =
      { discipline special es with unread := (discipline special es).unread.tail } := by
    rw [discipline_snoc]
    cases e with
    | got p c | eof p => rfl
    | typed c | called p n | returned p n | killed p => cases hrec
  refine ⟨?_, ?_⟩
  · rw [hd]
    refine ⟨⟨?_, ?_, ?_⟩, h.holds.noNL⟩
    · rw [hbuf, hr]
      exact hcells.window
    · rw [hw, hr]
      exact hcells.w
    · rw [he, hw]
      exact hcells.e
  · rw [hd, received_snoc, hrec, ← h.stream]
    conv_rhs => rw [hhead]
    simp

theorem phase_killLine (n : Nat) (s : State P) : (killLine n s).phase = s.phase := by
  induction n generalizing s with
  | zero => rfl
  | succ n ih =>
    rw [killLine]
    split
    · exact ih _
    · rfl

theorem phase_consoleintr (s : State P) (c : Byte) : (consoleintr s c).phase = s.phase := by
  unfold consoleintr
  split
  · rfl
  split
  · exact phase_killLine ..
  split
  · split <;> rfl
  split
  · dsimp only
    generalize (if c = CR then NL else c) = c'
    split <;> rfl
  · rfl

/-- Where the phase says a reader is, given what it has asked for and got. -/
def Phase.Ok : Phase → Nat × List Byte → Prop
  | .idle, _ => True
  | .wait target n, c | .loop target n, c => c.1 = target ∧ c.2.length + n = target ∧ NL ∉ c.2

variable [DecidableEq P] {p q : P} {s' : State P} {es' : List (Event P)} {ph : Phase} {a : Act P} {e : Event P}

structure Control (es : List (Event P)) (s : State P) : Prop where
  phase : ∀ p, (s.phase p).Ok (progress p es)
  lines : Along ReadsLine es

theorem progress_snoc (p : P) (es : List (Event P)) (e : Event P) :
    progress p (es ++ [e]) = e.reading p (progress p es) := by
  rw [progress, foldl_append]
  rfl

def Event.by : Event P → Option P
  | .typed _ => none
  | .called p _ | .got p _ | .eof p | .returned p _ | .killed p => some p

theorem progress_snoc_of_ne (h : e.by ≠ some q) : progress q (es ++ [e]) = progress q es := by
  rw [progress_snoc]
  cases e with
  | typed | eof | returned | killed => rfl
  | called p n | got p b => exact if_neg fun e => h (congrArg some e)

/-- A step of `p`. -/
theorem Control.advance (hc : Control es s) (hphase : s'.phase = update s.phase p ph) (hby : ∀ e ∈ es', e.by = some p)
    (hself : ph.Ok (progress p (es ++ es'))) (hlines : Along ReadsLine (es ++ es')) : Control (es ++ es') s' := by
  refine ⟨fun q => ?_, hlines⟩
  rw [hphase]
  by_cases hq : q = p
  · rw [hq, update_self]
    exact hself
  · have hkeep : progress q (es ++ es') = progress q es := by
      clear hself hlines
      induction es' using reverseRecOn with
      | nil => rw [append_nil]
      | append_singleton es' e ih =>
        have he : e.by ≠ some q := by
          rw [hby e (mem_append_right _ (mem_singleton_self e))]
          exact fun h => hq (Option.some.inj h).symm
        rw [← append_assoc, progress_snoc_of_ne he]
        exact ih fun e' he' => hby e' (mem_append_left _ he')
    rw [Function.update_of_ne hq, hkeep]
    exact hc.phase q

theorem Control.typed (hc : Control es s) (c : Byte) : Control (es ++ [.typed c]) (consoleintr s c) := by
  refine ⟨fun q => ?_, hc.lines.snoc trivial⟩
  rw [phase_consoleintr, progress_snoc]
  exact hc.phase q

def Inv (es : List (Event P)) (s : State P) : Prop := Streams es s ∧ Control es s

section

variable (hi : Inv es s)
include hi

theorem Inv.consoleintr (c : Byte) : Inv (es ++ [.typed c]) (Console.consoleintr s c) :=
  ⟨hi.1.typed c, hi.2.typed c⟩

theorem Inv.called (p : P) (n : Nat) : Inv (es ++ [.called p n]) (s.goto p (.wait n n)) := by
  refine ⟨hi.1.move rfl rfl rfl rfl (fun _ => rfl) rfl, hi.2.advance rfl ?_ ?_ (hi.2.lines.snoc trivial)⟩
  · intro e he
    rw [mem_singleton.1 he]
    rfl
  · rw [progress_snoc, Event.reading, if_pos rfl]
    exact ⟨rfl, Nat.zero_add n, not_mem_nil⟩

/-- A process goes between the loop and its wait. -/
theorem Inv.switch (hphase : s'.phase = update s.phase p ph) (hbuf : s'.buf = s.buf) (hr : s'.r = s.r) (hw : s'.w = s.w)
    (he : s'.e = s.e) (hself : ph.Ok (progress p es)) : Inv (es ++ []) s' := by
  refine ⟨?_, hi.2.advance hphase nofun ?_ ?_⟩
  · rw [append_nil]
    refine ⟨⟨⟨?_, ?_, ?_⟩, hi.1.holds.noNL⟩, hi.1.stream⟩
    · rw [hbuf, hr]
      exact hi.1.holds.window
    · rw [hw, hr]
      exact hi.1.holds.w
    · rw [he, hw]
      exact hi.1.holds.e
  · rwa [append_nil]
  · rw [append_nil]
    exact hi.2.lines

/-- `consoleread` returns. -/
theorem Inv.leave (hret : e = .killed p ∨ ∃ n, e = .returned p n) (hphase : s'.phase = update s.phase p .idle)
    (hbuf : s'.buf = s.buf) (hr : s'.r = s.r)
    (hw : s'.w = s.w) (he : s'.e = s.e) (hline : ReadsLine es e) : Inv (es ++ [e]) s' := by
  rcases hret with rfl | ⟨n, rfl⟩ <;>
  · refine ⟨hi.1.move hbuf hr hw he (fun _ => rfl) rfl, hi.2.advance hphase ?_ trivial (hi.2.lines.snoc hline)⟩
    intro e he
    rw [mem_singleton.1 he]
    rfl

/-- `consoleread` takes a byte, and stays where `ph` says. -/
theorem Inv.take (hne : s.r ≠ s.w) (hby : e.by = some p) (hrec : e.received = some (s.at s.r))
    (hphase : s'.phase = update s.phase p ph) (hbuf : s'.buf = s.buf) (hr : s'.r = s.r + 1) (hw : s'.w = s.w)
    (he : s'.e = s.e) (hline : ReadsLine es e) (hself : ph.Ok (progress p (es ++ [e]))) : Inv (es ++ [e]) s' := by
  refine ⟨hi.1.take hne hrec hbuf hr hw he, hi.2.advance hphase ?_ hself (hi.2.lines.snoc hline)⟩
  intro e he
  rw [mem_singleton.1 he]
  exact hby

theorem inv_consoleread {target n : Nat} (hp : s.phase p = .loop target n) (killed : Bool) :
    Inv (es ++ (consoleread s p target n killed).2) (consoleread s p target n killed).1 := by
  have hok := hi.2.phase p
  rw [hp] at hok
  obtain ⟨hasked, hlen, hnl⟩ := hok
  have hlen : (reading p es).length + n = target := hlen
  have hnl : NL ∉ reading p es := hnl
  have hgot : target - n = (reading p es).length := by omega
  rw [consoleread]
  split
  · rename_i hn
    refine hi.leave (.inr ⟨_, rfl⟩) rfl rfl rfl rfl rfl ⟨hgot, .inl ?_⟩
    rw [hn]
    exact hasked.symm
  rename_i hn
  split
  · rename_i hempty
    split
    · have hlt : (reading p es).length < asked p es := by rw [asked, hasked]; omega
      exact hi.leave (.inl rfl) rfl rfl rfl rfl rfl ⟨hi.1.holds.unread_iff.1 hempty, hlt, hnl⟩
    · exact hi.switch rfl rfl rfl rfl rfl ⟨hasked, hlen, hnl⟩
  rename_i hne
  obtain ⟨hhead, -⟩ := hi.1.holds.take hne
  dsimp only
  split
  · rename_i hc
    split
    · rename_i hlt
      refine hi.leave (.inr ⟨_, rfl⟩) rfl rfl ?_ rfl rfl ⟨hgot, .inr (.inr (.inr ⟨by omega, ?_⟩))⟩
      · exact BitVec.add_sub_cancel ..
      · rw [hhead, hc]
        rfl
    · rename_i hge
      have hnil : reading p es = [] := length_eq_zero_iff.1 (by omega)
      have htake : Inv (es ++ [.eof p]) { s.goto p .idle with r := s.r + 1 } :=
        hi.take hne rfl (congrArg some hc.symm) rfl rfl rfl rfl rfl hnil trivial
      have hread : reading p (es ++ [.eof p]) = [] := by rw [reading, progress_snoc]; exact hnil
      have hret : ReadsLine (es ++ [.eof p]) (.returned p (target - n)) := by
        refine ⟨?_, .inr (.inr (.inl ⟨by omega, getLast?_concat⟩))⟩
        rw [hread, hgot, hnil]
      have hleave : Inv (es ++ [.eof p] ++ [.returned p (target - n)]) ({ s with r := s.r + 1 }.leave p) :=
        htake.leave (.inr ⟨_, rfl⟩) (update_idem ..).symm rfl rfl rfl rfl hret
      rwa [append_assoc] at hleave
  rename_i hd
  have hprog (c : Byte) : progress p (es ++ [.got p c]) = (asked p es, reading p es ++ [c]) := by
    rw [progress_snoc, Event.reading, if_pos rfl]
    rfl
  split
  · rename_i hc
    have htake : Inv (es ++ [.got p (s.at s.r)]) { s.goto p .idle with r := s.r + 1 } :=
      hi.take hne rfl rfl rfl rfl rfl rfl rfl ⟨hd, hnl⟩ trivial
    have hret : ReadsLine (es ++ [.got p (s.at s.r)]) (.returned p (target - (n - 1))) := by
      refine ⟨?_, .inr (.inl ?_)⟩
      · rw [reading, hprog, length_append, length_singleton]
        omega
      · rw [reading, hprog, hc]
        exact getLast?_concat
    have hleave : Inv (es ++ [.got p (s.at s.r)] ++ [.returned p (target - (n - 1))])
        ({ s with r := s.r + 1 }.leave p) := htake.leave (.inr ⟨_, rfl⟩) (update_idem ..).symm rfl rfl rfl rfl hret
    rwa [append_assoc] at hleave
  · rename_i hc
    refine hi.take hne rfl rfl rfl rfl rfl rfl rfl ⟨hd, hnl⟩ ?_
    rw [hprog]
    refine ⟨hasked, ?_, fun hm => ?_⟩
    · rw [length_append, length_singleton]
      omega
    · rcases mem_append.1 hm with hm | hm
      · exact hnl hm
      · exact hc (mem_singleton.1 hm).symm

theorem inv_step (h : step s a = some (s', es')) : Inv (es ++ es') s' := by
  cases a with
  | consoleintr c =>
    obtain ⟨-, h⟩ := Option.ite_none_right_eq_some.1 h
    cases h
    exact hi.consoleintr c
  | consoleread p n =>
    obtain ⟨-, h⟩ := Option.ite_none_right_eq_some.1 h
    cases h
    exact hi.called p n
  | acquire p =>
    rw [step] at h
    split at h
    · rename_i target n hp
      obtain ⟨-, h⟩ := Option.ite_none_right_eq_some.1 h
      cases h
      have hok := hi.2.phase p
      rw [hp] at hok
      exact hi.switch rfl rfl rfl rfl rfl hok
    · cases h
  | read p killed =>
    rw [step] at h
    split at h
    · rename_i target n hp
      obtain ⟨-, h⟩ := Option.ite_none_right_eq_some.1 h
      have hread := inv_consoleread hi hp killed
      rwa [Option.some.inj h] at hread
    · cases h

end

/-! ## Every run -/

variable {buf : Nat → Byte} {i : BitVec 32}

theorem inv_init : Inv [] (init buf i : State P) := by
  refine ⟨⟨⟨⟨window_nil _ _, ?_, ?_⟩, not_mem_nil⟩, rfl⟩, fun _ => trivial, .nil⟩
  · exact (BitVec.add_zero i).symm
  · exact (BitVec.add_zero i).symm

/-- What holds in every state of a run. -/
structure Disciplined (es : List (Event P)) (s : State P) : Prop where
  /-- `r <= w <= e <= r + INPUT_BUF_SIZE`, modulo 2 ^ 32 -/
  order : (s.w - s.r).toNat ≤ (s.e - s.r).toNat ∧ (s.e - s.r).toNat ≤ INPUT_BUF_SIZE
  /-- The readers get the bytes that line editing commits, in order, each once. -/
  inOrder : received es ++ (discipline special es).unread = (discipline special es).committed
  lines : Along ReadsLine es
  /-- A process that has read a newline has returned. -/
  stopped : ∀ p, s.phase p ≠ .idle → NL ∉ reading p es
  /-- Where a ^D comes next, a read returns 0. -/
  eof : ∀ p n killed, s.phase p = .idle → s.lock = none → 0 < n →
    (discipline special es).unread.head? = some ctrlD →
    ∃ s', runActs step s [.consoleread p n, .acquire p, .read p killed] =
      some (s', [.called p n, .eof p, .returned p 0])

theorem consoleread_eof {n : Nat} {killed : Bool} (hi : Inv es s) (hp : s.phase p = .idle) (hl : s.lock = none) (hn : 0 < n)
    (hd : (discipline special es).unread.head? = some ctrlD) :
    ∃ s', runActs step s [.consoleread p n, .acquire p, .read p killed] =
      some (s', [.called p n, .eof p, .returned p 0]) := by
  have hne : s.r ≠ s.w := by
    intro e
    rw [hi.1.holds.unread_iff.1 e] at hd
    cases hd
  have hc : s.at s.r = ctrlD := by
    rw [(hi.1.holds.take hne).1] at hd
    exact Option.some.inj hd
  have h₁ : step s (.consoleread p n) = some (s.goto p (.wait n n), [.called p n]) := if_pos ⟨hp, hn⟩
  have hp₁ : (s.goto p (.wait n n)).phase p = .wait n n := update_self ..
  have h₂ : step (s.goto p (.wait n n)) (.acquire p) =
      some ({ (s.goto p (.wait n n)).goto p (.loop n n) with lock := some p }, []) := by
    rw [step, hp₁]
    exact if_pos hl
  generalize hs₂ : ({ (s.goto p (.wait n n)).goto p (.loop n n) with lock := some p } : State P) = s₂ at h₂
  have hp₂ : s₂.phase p = .loop n n := by rw [← hs₂]; exact update_self ..
  have hl₂ : s₂.lock = some p := by rw [← hs₂]
  have hne₂ : s₂.r ≠ s₂.w := by rw [← hs₂]; exact hne
  have hc₂ : s₂.at s₂.r = ctrlD := by rw [← hs₂]; exact hc
  have h₃ : step s₂ (.read p killed) = some ({ s₂ with r := s₂.r + 1 }.leave p, [.eof p, .returned p 0]) := by
    rw [step, hp₂]
    dsimp only
    rw [if_pos hl₂, consoleread, if_neg hn.ne', if_neg hne₂, hc₂]
    dsimp only
    rw [if_pos rfl, if_neg (lt_irrefl n), Nat.sub_self]
  refine ⟨{ s₂ with r := s₂.r + 1 }.leave p, ?_⟩
  simp only [runActs, h₁, h₂, h₃, Option.map_some, nil_append, append_nil, singleton_append]

theorem console_lines (h : Exec step Any (init buf i : State P) es s) : Disciplined es s := by
  have hi : Inv es s := h.invariant inv_init fun hi _ hst => inv_step hi hst
  have hle := hi.1.holds.held_le
  refine ⟨?_, hi.1.stream, hi.2.lines, fun p hp => ?_, fun p n _ hp hl hn hd => consoleread_eof hi hp hl hn hd⟩
  · rw [hi.1.holds.e_sub_r, hi.1.holds.w, BitVec.add_comm, BitVec.add_sub_cancel, BitVec.toNat_ofNat,
      BitVec.toNat_ofNat]
    rw [Discipline.held, INPUT_BUF_SIZE] at hle
    rw [Discipline.held, INPUT_BUF_SIZE]
    omega
  · have hok := hi.2.phase p
    cases hph : s.phase p with
    | idle => exact absurd hph hp
    | wait target n | loop target n =>
      rw [hph] at hok
      exact hok.2.2

/-- `a`, a backspace, `b` and ^D are typed; the process reads twice, and is killed when it reads again. -/
def editRun : List (Act Unit) :=
  [.consoleintr 0x61, .consoleintr ctrlH, .consoleintr 0x62, .consoleintr ctrlD, .consoleread () 5, .acquire (),
    .read () false, .read () false, .consoleread () 5, .acquire (), .read () false, .consoleread () 5, .acquire (),
    .read () true]

/-- The indices wrap around during the run. -/
def oldState : State Unit := init (fun _ => 0) (BitVec.ofNat 32 (2 ^ 32 - 1))

theorem editRun_ends : ∃ es s, Exec step Any oldState es s ∧ s.r = 1 ∧
    es = [.typed 0x61, .typed ctrlH, .typed 0x62, .typed ctrlD, .called () 5, .got () 0x62, .returned () 1,
      .called () 5, .eof (), .returned () 0, .called () 5, .killed ()] :=
  exists_exec (fun _ _ => of_decide_eq_true) editRun (by decide +kernel)

theorem console_lines_editRun : ∃ es s, Exec step Any oldState es s ∧ s.r = 1 ∧
    received es = [0x62, ctrlD] ∧ Disciplined es s := by
  obtain ⟨es, s, hx, hs, he⟩ := editRun_ends
  refine ⟨es, s, hx, hs, ?_, console_lines hx⟩
  rw [he]
  rfl

/-- NUL and ^P are no bytes of a line, although none of the rules of line editing takes them away. -/
theorem console_ignores : ∃ es, ∃ s : State Unit, Exec step Any oldState es s ∧ s.phase () = .idle ∧
    s.r = s.e ∧ received es = [NL] ∧ (discipline (fun _ => false) es).committed = [0, ctrlP, NL] :=
  exists_exec (fun _ _ => of_decide_eq_true) [.consoleintr 0, .consoleintr ctrlP, .consoleintr NL, .consoleread () 5,
    .acquire (), .read () false] (by decide +kernel)

end Xv6.Console
