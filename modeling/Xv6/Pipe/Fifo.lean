import Xv6.Pipe.Model
import Xv6.Framework.Fifo

/-!
# A pipe delivers what it accepts, in order

`pipe_fifo`: in every run the bytes that `piperead` copied out are the first of those that
`pipewrite` stored, whatever the processes, their sleeps and failures, and however often the 32-bit
counters have wrapped around. The two parts of the invariant are `Holds`, about the buffer, and
`Control`, about the calls in progress: what a call has moved so far, and that only the holder of
the lock is in a loop.
-/

namespace Xv6.Pipe

open Function List Option

variable {P : Type}

/-! ## What the events say -/

def Event.accepted : Event P → Option Byte
  | .put _ b => some b
  | _ => none

def Event.delivered : Event P → Option Byte
  | .got _ b => some b
  | _ => none

/-- The bytes stored in the pipe, in the order of `nwrite`. -/
def accepted (es : List (Event P)) : List Byte := es.filterMap Event.accepted

/-- The bytes copied out of the pipe, in the order of `nread`. -/
def delivered (es : List (Event P)) : List Byte := es.filterMap Event.delivered

variable {es es' : List (Event P)} {s s' : State P}

/-! ## The buffer -/

structure Holds (es : List (Event P)) (s : State P) : Prop where
  fifo : Fifo PIPESIZE s.data (accepted es) (delivered es)
  nwrite : s.nwrite = BitVec.ofNat 32 (accepted es).length
  nread : s.nread = BitVec.ofNat 32 (delivered es).length

/-- The size of the buffer divides 2^32, so a counter that has wrapped around still leads to the
right cell. -/
theorem index_ofNat (k : Nat) : (BitVec.ofNat 32 k).toNat % PIPESIZE = k % PIPESIZE := by
  rw [BitVec.toNat_ofNat]
  exact Nat.mod_mod_of_dvd k (by decide)

theorem Holds.put (hh : Holds es s) (hfull : s.full = false) (p : P) (ch : Byte) :
    Holds (es ++ [.put p ch]) (s.put ch) := by
  have hacc : accepted (es ++ [.put p ch]) = accepted es ++ [ch] := by simp [accepted, Event.accepted]
  have hdel : delivered (es ++ [.put p ch]) = delivered es := by simp [delivered, Event.delivered]
  have hroom : (accepted es).length < (delivered es).length + PIPESIZE := by
    refine lt_of_le_of_ne hh.fifo.room fun h => ?_
    rw [State.full, hh.nwrite, hh.nread, h, BitVec.ofNat_add, beq_self_eq_true] at hfull
    cases hfull
  refine ⟨?_, ?_, ?_⟩
  · rw [hacc, hdel, State.put, hh.nwrite]
    dsimp only
    rw [index_ofNat]
    exact hh.fifo.push hroom
  · rw [hacc, length_append, length_singleton, BitVec.ofNat_add, ← hh.nwrite]
    rfl
  · rw [hdel, ← hh.nread]
    rfl

theorem Holds.got (hh : Holds es s) (hempty : s.empty = false) (p : P) :
    Holds (es ++ [.got p (s.data (s.nread.toNat % PIPESIZE))]) { s with nread := s.nread + 1 } := by
  have hacc (b : Byte) : accepted (es ++ [.got p b]) = accepted es := by simp [accepted, Event.accepted]
  have hdel (b : Byte) : delivered (es ++ [.got p b]) = delivered es ++ [b] := by
    simp [delivered, Event.delivered]
  have hlt : (delivered es).length < (accepted es).length := by
    refine lt_of_le_of_ne hh.fifo.pre.length_le fun h => ?_
    rw [State.empty, hh.nwrite, hh.nread, h, beq_self_eq_true] at hempty
    cases hempty
  refine ⟨?_, ?_, ?_⟩
  · rw [hacc, hdel, hh.nread, index_ofNat]
    exact hh.fifo.pop hlt
  · rw [hacc]
    exact hh.nwrite
  · rw [hdel, length_append, length_singleton, BitVec.ofNat_add, ← hh.nread]
    rfl

theorem Holds.congr (hh : Holds es s) (hacc : ∀ e ∈ es', e.accepted = none ∧ e.delivered = none)
    (hdata : s'.data = s.data) (hnwrite : s'.nwrite = s.nwrite) (hnread : s'.nread = s.nread) : Holds (es ++ es') s' := by
  have ha : accepted (es ++ es') = accepted es := by
    rw [accepted, filterMap_append, filterMap_eq_nil_iff.2 fun e he => (hacc e he).1, append_nil, accepted]
  have hd : delivered (es ++ es') = delivered es := by
    rw [delivered, filterMap_append, filterMap_eq_nil_iff.2 fun e he => (hacc e he).2, append_nil, delivered]
  refine ⟨?_, ?_, ?_⟩
  · rw [ha, hd, hdata]
    exact hh.fifo
  · rw [ha, hnwrite, hh.nwrite]
  · rw [hd, hnread, hh.nread]

theorem Holds.used (hh : Holds es s) : (s.nwrite - s.nread).toNat ≤ PIPESIZE := by
  have hroom := hh.fifo.room
  obtain ⟨k, hk⟩ := Nat.exists_eq_add_of_le hh.fifo.pre.length_le
  rw [hh.nwrite, hh.nread, hk, BitVec.ofNat_add, BitVec.add_comm, BitVec.add_sub_cancel, BitVec.toNat_ofNat]
  exact (Nat.mod_le ..).trans (by omega)

/-! ## The calls -/

variable [DecidableEq P]

def Event.moved (p : P) (c : Nat × Nat) : Event P → Nat × Nat
  | .called q => if q = p then (0, 0) else c
  | .put q _ => if q = p then (c.1 + 1, c.2) else c
  | .got q _ => if q = p then (c.1, c.2 + 1) else c
  | _ => c

/-- How many bytes `p` has stored and copied out since it last called `pipewrite` or `piperead`. -/
def moved (p : P) (es : List (Event P)) : Nat × Nat := es.foldl (Event.moved p) (0, 0)

/-- A call returns the number of bytes it has moved, or a number that says it has moved none. -/
def Returns (pre : List (Event P)) : Event P → Prop
  | .wrote p _ r => 0 ≤ r → r = (moved p pre).1
  | .read p _ r => (0 < r → r = (moved p pre).2) ∧ (r ≤ 0 → (moved p pre).2 = 0)
  | _ => True

variable {p q : P} {e : Event P} {ph : Phase} {a : Act P}

theorem moved_snoc (p : P) (es : List (Event P)) (e : Event P) : moved p (es ++ [e]) = e.moved p (moved p es) := by
  simp [moved]

def Event.by : Event P → P
  | .called p => p
  | .put p _ => p
  | .got p _ => p
  | .wrote p _ _ => p
  | .read p _ _ => p

theorem moved_snoc_of_ne (h : e.by ≠ q) : moved q (es ++ [e]) = moved q es := by
  rw [moved_snoc]
  cases e with
  | called p | put p b | got p b => exact if_neg h
  | wrote p n r | read p n r => rfl

/-- With the lock. -/
def Phase.inLoop : Phase → Bool
  | .writeLoop .. | .readEmpty .. | .readCopy .. => true
  | _ => false

/-- What the call has moved so far. -/
def Phase.moved : Phase → Option (Nat × Nat)
  | .idle => none
  | .writeWait _ i | .writeLoop _ i => some (i, 0)
  | .readWait _ | .readEmpty _ => some (0, 0)
  | .readCopy _ i => some (0, i)

structure Control (es : List (Event P)) (s : State P) : Prop where
  lock : ∀ p, (s.phase p).inLoop = true → s.lock = some p
  moved : ∀ p c, (s.phase p).moved = some c → moved p es = c
  ready : ∀ p n, s.phase p = .readCopy n 0 → s.empty = false ∨ s.writeopen = false
  returns : Along Returns es

/-- A step of `p`, which has the lock or leaves what the lock protects as it is. -/
theorem Control.advance (hc : Control es s) (hphase : s'.phase = update s.phase p ph)
    (hby : es' = [] ∨ ∃ e, es' = [e] ∧ e.by = p ∧ Returns es e) (hlock : ph.inLoop = true → s'.lock = some p)
    (hmoved : ∀ c, ph.moved = some c → Pipe.moved p (es ++ es') = c)
    (hready : ∀ n, ph = .readCopy n 0 → s'.empty = false ∨ s'.writeopen = false)
    (hrest : s.lock = some p ∨ (s.lock = none ∨ s'.lock = s.lock) ∧ s'.empty = s.empty ∧
      s'.writeopen = s.writeopen) : Control (es ++ es') s' := by
  have hother {q : P} (hq : q ≠ p) : s'.phase q = s.phase q := by
    rw [hphase, update_of_ne hq]
  have hself : s'.phase p = ph := by rw [hphase, update_self]
  -- another process that is in its loop keeps the lock over the step
  have hkeep {q : P} (hq : q ≠ p) (hl : (s.phase q).inLoop = true) :
      s'.lock = some q ∧ s'.empty = s.empty ∧ s'.writeopen = s.writeopen := by
    have hsq := hc.lock q hl
    rcases hrest with h | ⟨h | h, hr⟩
    · rw [hsq] at h
      exact absurd (some.inj h) hq
    · rw [hsq] at h
      cases h
    · exact ⟨h.trans hsq, hr⟩
  refine ⟨fun q hq => ?_, fun q c hq => ?_, fun q n hq => ?_, ?_⟩
  · by_cases hqp : q = p
    · rw [hqp, hself] at hq
      rw [hqp]
      exact hlock hq
    · rw [hother hqp] at hq
      exact (hkeep hqp hq).1
  · by_cases hqp : q = p
    · rw [hqp, hself] at hq
      rw [hqp]
      exact hmoved c hq
    · rw [hother hqp] at hq
      rcases hby with rfl | ⟨e, rfl, he, -⟩
      · rw [append_nil]
        exact hc.moved q c hq
      · rw [moved_snoc_of_ne (he ▸ Ne.symm hqp)]
        exact hc.moved q c hq
  · by_cases hqp : q = p
    · rw [hqp, hself] at hq
      exact hready n hq
    · rw [hother hqp] at hq
      have hk := hkeep hqp (by rw [hq]; rfl)
      rw [hk.2.1, hk.2.2]
      exact hc.ready q n hq
  · rcases hby with rfl | ⟨e, rfl, -, he⟩
    · rw [append_nil]
      exact hc.returns
    · exact hc.returns.snoc he

/-! ## Steps -/

def Inv (es : List (Event P)) (s : State P) : Prop := Holds es s ∧ Control es s

/-- The call of `p`, which has the lock, returns. -/
theorem Inv.return (hi : Inv es s) (hp : s.lock = some p) (he : e.by = p) (hr : Returns es e)
    (hacc : e.accepted = none) (hdel : e.delivered = none) : Inv (es ++ [e]) (s.release p .idle) := by
  refine ⟨hi.1.congr (fun e' he' => ?_) rfl rfl rfl, hi.2.advance rfl (.inr ⟨e, rfl, he, hr⟩) ?_ ?_ ?_ (.inl hp)⟩
  · rw [mem_singleton.1 he']
    exact ⟨hacc, hdel⟩
  · exact fun h => Bool.noConfusion h
  · intro c h
    cases h
  · exact fun n h => Phase.noConfusion h

/-- `p` moves on without an event, with the lock or for it. -/
theorem Inv.move (hi : Inv es s) (hdata : s'.data = s.data) (hnwrite : s'.nwrite = s.nwrite)
    (hnread : s'.nread = s.nread) (hopen : s'.writeopen = s.writeopen) (hphase : s'.phase = update s.phase p ph)
    (hlock : ph.inLoop = true → s'.lock = some p) (hmoved : ph.moved = (s.phase p).moved)
    (hready : ∀ n, ph = .readCopy n 0 → s.empty = false ∨ s.writeopen = false)
    (hfree : s.lock = some p ∨ s.lock = none ∨ s'.lock = s.lock) : Inv (es ++ []) s' := by
  have hempty : s'.empty = s.empty := by rw [State.empty, hnread, hnwrite, State.empty]
  refine ⟨hi.1.congr (fun e he => nomatch he) hdata hnwrite hnread,
    hi.2.advance hphase (.inl rfl) hlock ?_ ?_ (hfree.imp_right fun h => ⟨h, hempty, hopen⟩)⟩
  · intro c hc
    rw [append_nil]
    exact hi.2.moved p c (hmoved ▸ hc)
  · rw [hempty, hopen]
    exact hready

variable {n : Int} {i : Nat}

theorem inv_pipewrite (hi : Inv es s) (hp : s.phase p = .writeLoop n i) (killed : Bool) (copyin : Option Byte) :
    Inv (es ++ (s.pipewrite p n i killed copyin).2) (s.pipewrite p n i killed copyin).1 := by
  have hl : s.lock = some p := hi.2.lock p (by rw [hp]; rfl)
  have hm : moved p es = (i, 0) := hi.2.moved p _ (by rw [hp]; rfl)
  have hret : Inv (es ++ [.wrote p n i]) (s.release p .idle) := by
    refine hi.return hl rfl ?_ rfl rfl
    intro _
    rw [hm]
  unfold State.pipewrite
  split
  · split
    · refine hi.return hl rfl ?_ rfl rfl
      intro h
      exact absurd h (by decide)
    · split
      · refine hi.move rfl rfl rfl rfl rfl (fun h => Bool.noConfusion h) ?_
          (fun n h => Phase.noConfusion h) (.inl hl)
        rw [hp]
        rfl
      · rename_i hfull
        split
        · exact hret
        · rename_i ch
          have hh := hi.1.put (Bool.eq_false_iff.2 hfull) p ch
          refine ⟨⟨hh.fifo, hh.nwrite, hh.nread⟩, hi.2.advance rfl (.inr ⟨_, rfl, rfl, trivial⟩)
            (fun _ => hl) ?_ (fun n h => Phase.noConfusion h) (.inl hl)⟩
          intro c hc
          rw [moved_snoc, hm, Event.moved, if_pos rfl]
          exact some.inj hc
  · exact hret

theorem inv_pipereadEmpty (hi : Inv es s) (hp : s.phase p = .readEmpty n) (killed : Bool) :
    Inv (es ++ (s.pipereadEmpty p n killed).2) (s.pipereadEmpty p n killed).1 := by
  have hl : s.lock = some p := hi.2.lock p (by rw [hp]; rfl)
  have hm : moved p es = (0, 0) := hi.2.moved p _ (by rw [hp]; rfl)
  unfold State.pipereadEmpty
  split
  · split
    · refine hi.return hl rfl ⟨?_, ?_⟩ rfl rfl
      · intro h
        exact absurd h (by decide)
      · intro _
        rw [hm]
    · refine hi.move rfl rfl rfl rfl rfl (fun h => Bool.noConfusion h) ?_
        (fun n h => Phase.noConfusion h) (.inl hl)
      rw [hp]
      rfl
  · rename_i hready
    refine hi.move rfl rfl rfl rfl rfl (fun _ => hl) ?_ (fun n _ => ?_) (.inl hl)
    · rw [hp]
      rfl
    · rw [Bool.and_eq_true, not_and_or, Bool.not_eq_true, Bool.not_eq_true] at hready
      exact hready

theorem inv_pipereadCopy (hi : Inv es s) (hp : s.phase p = .readCopy n i) (copyout : Bool) :
    Inv (es ++ (s.pipereadCopy p n i copyout).2) (s.pipereadCopy p n i copyout).1 := by
  have hl : s.lock = some p := hi.2.lock p (by rw [hp]; rfl)
  have hm : moved p es = (0, i) := hi.2.moved p _ (by rw [hp]; rfl)
  have hret : Inv (es ++ [.read p n i]) (s.release p .idle) := by
    refine hi.return hl rfl ⟨fun _ => by rw [hm], fun h => ?_⟩ rfl rfl
    rw [hm]
    exact Int.natCast_nonpos_iff.1 h
  unfold State.pipereadCopy
  split
  · split
    · exact hret
    · rename_i hempty
      split
      · have hh := hi.1.got (Bool.eq_false_iff.2 hempty) p
        refine ⟨⟨hh.fifo, hh.nwrite, hh.nread⟩, hi.2.advance rfl (.inr ⟨_, rfl, rfl, trivial⟩)
          (fun _ => hl) ?_ (fun n h => ?_) (.inl hl)⟩
        · intro c hc
          rw [moved_snoc, hm, Event.moved, if_pos rfl]
          exact some.inj hc
        · cases h
      · by_cases h0 : i = 0
        · rw [if_pos h0]
          refine hi.return hl rfl ⟨fun h => absurd h (by decide), fun _ => ?_⟩ rfl rfl
          rw [hm, h0]
        · rw [if_neg h0]
          exact hret
  · exact hret

theorem inv_pipeclose (hi : Inv es s) (hl : s.lock = none) (writable : Bool) : Inv (es ++ []) (s.pipeclose writable) := by
  have hno : ∀ p, (s.phase p).inLoop = false := by
    intro p
    rw [Bool.eq_false_iff]
    intro h
    have := hi.2.lock p h
    rw [hl] at this
    cases this
  have hdata : (s.pipeclose writable).data = s.data ∧ (s.pipeclose writable).nwrite = s.nwrite ∧
      (s.pipeclose writable).nread = s.nread ∧ (s.pipeclose writable).phase = s.phase := by
    cases writable <;> exact ⟨rfl, rfl, rfl, rfl⟩
  obtain ⟨hd, hw, hr, hp⟩ := hdata
  refine ⟨hi.1.congr (fun e he => nomatch he) hd hw hr, ?_⟩
  rw [append_nil]
  refine ⟨fun q hq => ?_, fun q c hq => ?_, fun q n hq => ?_, hi.2.returns⟩
  · rw [hp, hno q] at hq
    cases hq
  · rw [hp] at hq
    exact hi.2.moved q c hq
  · have hl := hno q
    rw [hp] at hq
    rw [hq] at hl
    cases hl

theorem inv_step (hi : Inv es s) (h : step s a = some (s', es')) : Inv (es ++ es') s' := by
  rw [step] at h
  split at h
  · cases h
  have hcall {q : P} {m : Phase} (hm : m.moved = some (0, 0)) (hin : m.inLoop = false) :
      Inv (es ++ [.called q]) (s.goto q m) := by
    refine ⟨hi.1.congr (fun e he => ?_) rfl rfl rfl, hi.2.advance rfl (.inr ⟨_, rfl, rfl, trivial⟩) ?_ ?_ ?_ ?_⟩
    · rw [mem_singleton.1 he]
      exact ⟨rfl, rfl⟩
    · intro h
      rw [hin] at h
      cases h
    · intro c hc
      rw [moved_snoc, Event.moved, if_pos rfl]
      rw [hm] at hc
      exact some.inj hc
    · intro n h
      rw [h] at hin
      cases hin
    · exact .inr ⟨.inr rfl, rfl, rfl⟩
  cases a with
  | pipewrite p n | piperead p n =>
    obtain ⟨-, h⟩ := ite_none_right_eq_some.1 h
    cases h
    exact hcall rfl rfl
  | pipeclose p writable =>
    obtain ⟨⟨-, hl⟩, h⟩ := ite_none_right_eq_some.1 h
    cases h
    exact inv_pipeclose hi hl writable
  | acquire p =>
    obtain ⟨hl, h⟩ := ite_none_right_eq_some.1 h
    split at h
    · rename_i n i hp
      cases h
      refine hi.move rfl rfl rfl rfl rfl (fun _ => rfl) ?_ (fun n h => Phase.noConfusion h) (.inr (.inl hl))
      rw [hp]
      rfl
    · rename_i n hp
      cases h
      refine hi.move rfl rfl rfl rfl rfl (fun _ => rfl) ?_ (fun n h => Phase.noConfusion h) (.inr (.inl hl))
      rw [hp]
      rfl
    · cases h
  | write p killed copyin =>
    rw [State.act] at h
    split at h
    · rename_i n i hp
      have hw := inv_pipewrite hi hp killed copyin
      rwa [some.inj h] at hw
    · cases h
  | read p killed copyout =>
    rw [State.act] at h
    split at h
    · rename_i n hp
      have hr := inv_pipereadEmpty hi hp killed
      rwa [some.inj h] at hr
    · rename_i n i hp
      have hr := inv_pipereadCopy hi hp copyout
      rwa [some.inj h] at hr
    · cases h

/-! ## A read that returns 0 -/

theorem pipewrite_not_read (s : State P) (p q : P) (n m r : Int) (i : Nat) (killed : Bool)
    (copyin : Option Byte) : .read q m r ∉ (s.pipewrite p n i killed copyin).2 := by
  unfold State.pipewrite
  intro h
  split at h
  · split at h
    · cases mem_singleton.1 h
    · split at h
      · cases h
      · split at h
        · cases mem_singleton.1 h
        · cases mem_singleton.1 h
  · cases mem_singleton.1 h

theorem pipereadEmpty_not_zero (s : State P) (p q : P) (n m : Int) (killed : Bool) :
    .read q m 0 ∉ (s.pipereadEmpty p n killed).2 := by
  unfold State.pipereadEmpty
  intro h
  split at h
  · split at h
    · cases mem_singleton.1 h
    · cases h
  · cases h

theorem pipereadCopy_zero {m : Int} {copyout : Bool} (hm : 0 < m)
    (h : .read q m 0 ∈ (s.pipereadCopy p n i copyout).2) : i = 0 ∧ s.empty = true := by
  unfold State.pipereadCopy at h
  split at h
  · split at h
    · rename_i hempty
      injection mem_singleton.1 h with _ _ h0
      exact ⟨Int.natCast_eq_zero.1 h0.symm, hempty⟩
    · split at h
      · cases mem_singleton.1 h
      · injection mem_singleton.1 h with _ _ h0
        split at h0
        · cases h0
        · rename_i hi
          exact absurd (Int.natCast_eq_zero.1 h0.symm) hi
  · rename_i hlt
    injection mem_singleton.1 h with _ hn h0
    omega

theorem Control.read_zero (hc : Control es s) (h : step s a = some (s', es')) {m : Int} (hm : 0 < m)
    (hr : .read q m 0 ∈ es') : s.empty = true ∧ s.writeopen = false := by
  rw [step] at h
  split at h
  · cases h
  cases a with
  | pipewrite p n | piperead p n =>
    obtain ⟨-, h⟩ := ite_none_right_eq_some.1 h
    cases h
    cases mem_singleton.1 hr
  | pipeclose p writable =>
    obtain ⟨-, h⟩ := ite_none_right_eq_some.1 h
    cases h
    cases hr
  | acquire p =>
    obtain ⟨-, h⟩ := ite_none_right_eq_some.1 h
    split at h
    · cases h
      cases hr
    · cases h
      cases hr
    · cases h
  | write p killed copyin =>
    rw [State.act] at h
    split at h
    · rename_i n i _
      have hno := pipewrite_not_read s p q n m 0 i killed copyin
      rw [some.inj h] at hno
      exact absurd hr hno
    · cases h
  | read p killed copyout =>
    rw [State.act] at h
    split at h
    · rename_i n _
      have hno := pipereadEmpty_not_zero s p q n m killed
      rw [some.inj h] at hno
      exact absurd hr hno
    · rename_i n i hp
      have hr : .read q m 0 ∈ (s.pipereadCopy p n i copyout).2 := by
        rw [some.inj h]
        exact hr
      obtain ⟨h0, hempty⟩ := pipereadCopy_zero hm hr
      rw [h0] at hp
      refine ⟨hempty, (hc.ready p n hp).resolve_left fun h => ?_⟩
      rw [hempty] at h
      cases h
    · cases h

/-! ## Every run -/

variable {data : Nat → Byte}

theorem inv_init : Inv [] (init data : State P) := by
  refine ⟨⟨fifo_nil data, rfl, rfl⟩, fun p h => ?_, fun p c h => ?_, fun p n h => ?_, Along.nil⟩
  · cases h
  · cases h
  · cases h

theorem pipe_fifo (h : Exec step Any (init data : State P) es s) :
    (delivered es <+: accepted es ∧ s.nread = BitVec.ofNat 32 (delivered es).length ∧
      s.nwrite = BitVec.ofNat 32 (accepted es).length) ∧
    (s.nwrite - s.nread).toNat ≤ PIPESIZE ∧ Along Returns es ∧
    ∀ a s' es', step s a = some (s', es') → ∀ p n, .read p n 0 ∈ es' → 0 < n →
      s.nread = s.nwrite ∧ s.writeopen = false := by
  have hi : Inv es s := h.invariant inv_init fun hi _ hs => inv_step hi hs
  refine ⟨⟨hi.1.fifo.pre, hi.1.nread, hi.1.nwrite⟩, hi.1.used, hi.2.returns,
    fun a s' es' hs p n hr hn => ?_⟩
  obtain ⟨hempty, hopen⟩ := hi.2.read_zero hs hn hr
  exact ⟨beq_iff_eq.1 hempty, hopen⟩

/-- One process writes two bytes of three, the other reads one, the write end is closed, and it
reads the rest. -/
def twoBytes : List (Act Bool) :=
  [.pipewrite false 3, .acquire false, .write false false (some 7), .write false false (some 8),
    .write false false none, .piperead true 1, .acquire true, .read true false true, .read true false true,
    .read true false true, .pipeclose false true, .piperead true 4, .acquire true, .read true false true,
    .read true false true, .read true false true]

theorem pipe_fifo_twoBytes : ∃ es, ∃ s : State Bool, Exec step Any (init fun _ => 0) es s ∧
    delivered es = [7, 8] ∧ delivered es <+: accepted es ∧ Along Returns es := by
  obtain ⟨es, s, hx, hd⟩ : ∃ es s, Exec step Any (init fun _ => 0) es s ∧ delivered es = [7, 8] :=
    exists_exec (fun _ _ => of_decide_eq_true) twoBytes (by decide +kernel)
  have hf := pipe_fifo hx
  exact ⟨es, s, hx, hd, hf.1.1, hf.2.2.1⟩

end Xv6.Pipe
