import Xv6.Log.Model
import Xv6.Framework.Run
import Xv6.Framework.Sums
import Mathlib.Algebra.BigOperators.Ring.Finset
import Mathlib.Algebra.Order.BigOperators.Group.Finset

/-!
# Log operations of several processes

`begin_op`, `log_write` and `end_op` by the processes of any finite type `P`, in any order. Each is a
critical section under `log.lock`; the last `end_op` commits without the lock, in the steps of
`commit`, and `begin_op` makes no step while it has to sleep. The log itself is the `LogState` of
`Xv6.Log.Model`.

`log_space`: as long as operations add no more blocks than they may, the log has room for all that
the outstanding operations may still add, and a commit is alone. `log_write` panics when the log is
full before it looks for the block in it, so it may not be called then (`full_log_panics`).
-/

namespace Xv6.Log.Space

open Function List

inductive Panic where
  | tooBig | committing | outside
  deriving DecidableEq, Repr

/-- Where a process is in the commit of its `end_op`. -/
inductive CommitPc where
  | test | writeLog | writeHead | install | clear | finish
  deriving DecidableEq, Repr

inductive Phase where
  | idle
  /-- Between `begin_op` and `end_op`, having added this many blocks to the log. -/
  | op (added : Nat)
  | commit (pc : CommitPc)
  deriving DecidableEq, Repr

structure State (P : Type) where
  log : LogState
  phase : P → Phase
  panicked : Option Panic

inductive Act (P : Type) where
  | beginOp (p : P)
  /-- `p` calls `log_write` with a buffer of block `b` that holds `data`. -/
  | logWrite (p : P) (b : Blockno) (data : Block)
  /-- `end_op`, up to the commit. -/
  | endOp (p : P)
  /-- The next step of the commit. -/
  | commit (p : P)

variable {P : Type}

/-- A log after recovery, with no operation begun. -/
def init (start : Blockno) (disk : Disk) : State P where
  log := boot start disk
  phase _ := .idle
  panicked := none

/-- The log after the critical section of `end_op`. -/
def dropOp (l : LogState) (commit : Bool) : LogState :=
  { l with outstanding := l.outstanding - 1, committing := commit }

@[simp] theorem dropOp_lh (l : LogState) (commit : Bool) : (dropOp l commit).lh = l.lh := rfl
@[simp] theorem dropOp_outstanding (l : LogState) (commit : Bool) : (dropOp l commit).outstanding = l.outstanding - 1 := rfl

/-- A step of the rest of `end_op`. -/
def commitStep (l : LogState) : CommitPc → LogState × Phase
  | .test => (l, .commit (if l.lh.length > 0 then .writeLog else .finish))
  | .writeLog => (writeLog l, .commit .writeHead)
  | .writeHead => (writeHead l, .commit .install)
  | .install => (installTrans l false, .commit .clear)
  | .clear => (writeHead { l with lh := [] }, .commit .finish)
  | .finish => ({ l with committing := false }, .idle)

/-- The blocks that `log_write` of `b` adds to the log. -/
def adds (l : LogState) (b : Blockno) : Nat := if b ∈ l.lh then 0 else 1

section Steps

variable [DecidableEq P]

def State.set (s : State P) (p : P) (l : LogState) (ph : Phase) : State P :=
  { s with log := l, phase := update s.phase p ph }

def State.panic (s : State P) (e : Panic) : State P := { s with panicked := some e }

def State.logWrite (s : State P) (p : P) (added : Nat) (b : Blockno) (data : Block) : State P :=
  match Log.logWrite s.log b data with
  | some l => s.set p l (.op (added + adds s.log b))
  | none => s.panic (if s.log.lh.length ≥ LOGBLOCKS then .tooBig else .outside)

def State.endOp (s : State P) (p : P) : State P :=
  if s.log.committing then s.panic .committing
  else if s.log.outstanding - 1 = 0 then s.set p (dropOp s.log true) (.commit .test)
  else s.set p (dropOp s.log false) .idle

def State.act (s : State P) : Act P → Option (State P × List Empty)
  | .beginOp p =>
    if s.phase p = .idle then (Log.beginOp s.log).map fun l => (s.set p l (.op 0), []) else none
  | .logWrite p b data =>
    match s.phase p with
    | .op added => some (s.logWrite p added b data, [])
    | _ => none
  | .endOp p =>
    match s.phase p with
    | .op _ => some (s.endOp p, [])
    | _ => none
  | .commit p =>
    match s.phase p with
    | .commit pc => some (s.set p (commitStep s.log pc).1 (commitStep s.log pc).2, [])
    | _ => none

def step (s : State P) (a : Act P) : Option (State P × List Empty) :=
  if s.panicked.isSome then none else s.act a

/-- Every operation adds at most `MAXOPBLOCKS` blocks. -/
def Fits (s : State P) : Act P → Prop
  | .logWrite p b _ => ∀ added, s.phase p = .op added → b ∉ s.log.lh → added < MAXOPBLOCKS
  | _ => True

/-- No block that is in the log already is logged while the log is full. -/
def NotFull (s : State P) : Act P → Prop
  | .logWrite _ b _ => b ∈ s.log.lh → s.log.lh.length < LOGBLOCKS
  | _ => True

end Steps

/-! ## What the operations do to the header -/

/-- Two logs with the same header and counters. -/
structure SameHead (l l' : LogState) : Prop where
  lh : l'.lh = l.lh
  outstanding : l'.outstanding = l.outstanding
  committing : l'.committing = l.committing

variable {l' : LogState} {b : Blockno} {data : Block} {k : Nat}

theorem SameHead.trans {l l'' : LogState} (h : SameHead l l') (h' : SameHead l' l'') : SameHead l l'' :=
  ⟨h'.lh.trans h.lh, h'.outstanding.trans h.outstanding, h'.committing.trans h.committing⟩

theorem sameHead_bwrite (l : LogState) (b : Blockno) (data : Block) : SameHead l (bwrite l b data) :=
  ⟨rfl, rfl, rfl⟩

theorem sameHead_writeLogFrom (l : LogState) (tail : Nat) (bs : List Blockno) : SameHead l (writeLogFrom l tail bs) := by
  induction bs generalizing l tail with
  | nil => exact ⟨rfl, rfl, rfl⟩
  | cons b bs ih => exact (sameHead_bwrite ..).trans (ih _ (tail + 1))

theorem sameHead_installFrom (l : LogState) (tail : Nat) (bs : List Blockno) :
    SameHead l (installFrom false l tail bs) := by
  induction bs generalizing l tail with
  | nil => exact ⟨rfl, rfl, rfl⟩
  | cons b bs ih =>
    have hb : SameHead l (bunpin (bwrite l b (bread l (logBlock l.start tail))) b) := ⟨rfl, rfl, rfl⟩
    exact hb.trans (ih _ (tail + 1))

theorem beginOp_eq_some {l : LogState} (h : beginOp l = some l') : l.committing = false ∧
    l.lh.length + (l.outstanding + 1) * MAXOPBLOCKS ≤ LOGBLOCKS ∧ l' = { l with outstanding := l.outstanding + 1 } := by
  rw [beginOp] at h
  split at h
  · cases h
  · rename_i hc
    split at h
    · cases h
    · rename_i hle
      cases h
      exact ⟨Bool.eq_false_iff.2 hc, not_lt.1 hle, rfl⟩

theorem logWrite_eq_some {l : LogState} (h : logWrite l b data = some l') :
    l'.outstanding = l.outstanding ∧ l'.committing = l.committing ∧ l'.lh = if b ∈ l.lh then l.lh else l.lh ++ [b] := by
  rw [logWrite] at h
  split at h
  · cases h
  split at h
  · cases h
  dsimp only at h
  split at h
  · rename_i hi
    cases h
    rw [if_neg fun hb => (idxOf_lt_length_of_mem hb).ne hi]
    exact ⟨rfl, rfl, rfl⟩
  · rename_i hi
    cases h
    have hb : b ∈ l.lh := by
      by_contra hb
      exact hi (idxOf_eq_length hb)
    rw [if_pos hb]
    refine ⟨rfl, rfl, ?_⟩
    -- the block number is written over itself
    have hset := set_getElem_self (idxOf_lt_length_of_mem hb)
    rwa [getElem_idxOf] at hset

/-- `log_write` in an operation panics only if the log is full. -/
theorem logWrite_eq_none {l : LogState} (hout : 1 ≤ l.outstanding) (h : logWrite l b data = none) :
    LOGBLOCKS ≤ l.lh.length := by
  rw [logWrite] at h
  split at h
  · assumption
  · rw [if_neg (by omega)] at h
    dsimp only at h
    split at h <;> cases h

/-! ## The invariant -/

def Phase.ops : Phase → Nat
  | .op _ => 1
  | _ => 0

/-- The blocks that the operation may still add. -/
def Phase.reserve : Phase → Nat
  | .op added => MAXOPBLOCKS - added
  | _ => 0

def Phase.commits : Phase → Prop
  | .commit _ => True
  | _ => False

@[simp] theorem ops_idle : Phase.idle.ops = 0 := rfl
@[simp] theorem ops_op (k : Nat) : (Phase.op k).ops = 1 := rfl
@[simp] theorem ops_commit (pc : CommitPc) : (Phase.commit pc).ops = 0 := rfl
@[simp] theorem reserve_idle : Phase.idle.reserve = 0 := rfl
@[simp] theorem reserve_op (k : Nat) : (Phase.op k).reserve = MAXOPBLOCKS - k := rfl
@[simp] theorem reserve_commit (pc : CommitPc) : (Phase.commit pc).reserve = 0 := rfl

section Invariant

variable [Fintype P] {s s' : State P} {p q : P} {l : LogState} {ph : Phase}

structure Inv (s : State P) : Prop where
  outstanding : s.log.outstanding = ∑ p, (s.phase p).ops
  space : s.log.lh.length + ∑ p, (s.phase p).reserve ≤ LOGBLOCKS
  nodup : s.log.lh.Nodup
  alone : s.log.committing = true → s.log.outstanding = 0
  committing : ∀ p, (s.phase p).commits → s.log.committing = true
  unique : ∀ p q, (s.phase p).commits → (s.phase q).commits → p = q

theorem Inv.one_le (hi : Inv s) (hp : s.phase p = .op k) : 1 ≤ s.log.outstanding := by
  have h : (s.phase p).ops ≤ ∑ q, (s.phase q).ops :=
    Finset.single_le_sum (f := fun q => (s.phase q).ops) (fun _ _ => Nat.zero_le _) (Finset.mem_univ p)
  rw [hp] at h
  rw [hi.outstanding]
  exact h

theorem reserve_le_sum (phase : P → Phase) (p : P) : (phase p).reserve ≤ ∑ q, (phase q).reserve :=
  Finset.single_le_sum (f := fun q => (phase q).reserve) (fun _ _ => Nat.zero_le _) (Finset.mem_univ p)

theorem reserve_le_ops (phase : P → Phase) : ∑ p, (phase p).reserve ≤ (∑ p, (phase p).ops) * MAXOPBLOCKS := by
  rw [Finset.sum_mul]
  refine Finset.sum_le_sum fun p _ => ?_
  cases phase p with
  | op k => simp
  | _ => exact Nat.zero_le _

/-- No operation is between its `begin_op` and its `end_op` while a commit runs. -/
theorem Inv.no_op (hi : Inv s) (hp : (s.phase p).commits) (q : P) (k : Nat) : s.phase q ≠ .op k := by
  intro hq
  have h1 := hi.one_le hq
  have h0 := hi.alone (hi.committing p hp)
  omega

theorem inv_init (start : Blockno) (disk : Disk) : Inv (init start disk : State P) := by
  refine ⟨?_, ?_, nodup_nil, fun _ => rfl, fun p h => h.elim, fun p q h => h.elim⟩
  · simp [init, boot]
  · simp [init, boot]

variable [DecidableEq P]

/-- A step of `p`, which starts a commit only if there is none. `R` is what the operations may add
before the step. -/
theorem Inv.set (hi : Inv s) (hc : ph.commits → (s.phase p).commits ∨ s.log.committing = false)
    (hlog : l.outstanding + (s.phase p).ops = s.log.outstanding + ph.ops)
    (hspace : ∀ R, s.log.lh.length + R ≤ LOGBLOCKS → R ≤ s.log.outstanding * MAXOPBLOCKS →
      (s.phase p).reserve ≤ R → l.lh.length + (R - (s.phase p).reserve + ph.reserve) ≤ LOGBLOCKS)
    (hn : l.lh.Nodup) (halone : l.committing = true → l.outstanding = 0)
    (hcom : ∀ q, (update s.phase p ph q).commits → l.committing = true) : Inv (s.set p l ph) := by
  have hops := sum_update (Finset.mem_univ p) s.phase ph Phase.ops
  have hres := sum_update (Finset.mem_univ p) s.phase ph Phase.reserve
  refine ⟨?_, ?_, hn, halone, hcom, ?_⟩
  · have := hi.outstanding
    change l.outstanding = ∑ q, (update s.phase p ph q).ops
    omega
  · have hle := reserve_le_sum s.phase p
    have hR := hspace _ hi.space (hi.outstanding ▸ reserve_le_ops s.phase) hle
    change l.lh.length + ∑ q, (update s.phase p ph q).reserve ≤ LOGBLOCKS
    omega
  -- nobody else commits if `p` starts to
  · have hnone {q : P} (h : ph.commits) (hqp : q ≠ p) : ¬ (s.phase q).commits := by
      intro hq
      rcases hc h with h | h
      · exact hqp (hi.unique q p hq h)
      · have := hi.committing q hq
        rw [h] at this
        cases this
    intro q r hq hr
    change (update s.phase p ph q).commits at hq
    change (update s.phase p ph r).commits at hr
    by_cases hqp : q = p <;> by_cases hrp : r = p
    · rw [hqp, hrp]
    · rw [hqp, update_self] at hq
      rw [update_of_ne hrp] at hr
      exact absurd hr (hnone hq hrp)
    · rw [hrp, update_self] at hr
      rw [update_of_ne hqp] at hq
      exact absurd hq (hnone hr hqp)
    · rw [update_of_ne hqp] at hq
      rw [update_of_ne hrp] at hr
      exact hi.unique q r hq hr

theorem Inv.committing_update (hi : Inv s) (hph : ¬ ph.commits) (q : P)
    (hq : (update s.phase p ph q).commits) : s.log.committing = true := by
  by_cases hqp : q = p
  · rw [hqp, update_self] at hq
    exact absurd hq hph
  · rw [update_of_ne hqp] at hq
    exact hi.committing q hq

theorem inv_beginOp (hi : Inv s) (hp : s.phase p = .idle) (h : beginOp s.log = some l) : Inv (s.set p l (.op 0)) := by
  obtain ⟨hc, hle, rfl⟩ := beginOp_eq_some h
  refine hi.set (fun h => h.elim) ?_ (fun R _ hR _ => ?_) hi.nodup ?_ (hi.committing_update id)
  · rw [hp]
    rfl
  · rw [hp, reserve_idle, reserve_op]
    rw [Nat.succ_mul] at hle
    dsimp only
    omega
  · intro h
    rw [hc] at h
    cases h

theorem inv_logWrite (hi : Inv s) (hp : s.phase p = .op k) (hk : b ∉ s.log.lh → k < MAXOPBLOCKS)
    (h : logWrite s.log b data = some l) : Inv (s.set p l (.op (k + adds s.log b))) := by
  obtain ⟨hout, hcom, hlh⟩ := logWrite_eq_some h
  refine hi.set (fun h => h.elim) ?_ (fun R hR _ _ => ?_) ?_ ?_ ?_
  · rw [hp, hout]
    rfl
  · rw [hp, reserve_op] at *
    rw [reserve_op, hlh, adds]
    split
    · omega
    · rename_i hb
      have := hk hb
      rw [length_append, length_singleton]
      omega
  · rw [hlh]
    split
    · exact hi.nodup
    · rename_i hb
      rw [← concat_eq_append]
      exact hi.nodup.concat hb
  · rw [hout, hcom]
    exact hi.alone
  · rw [hcom]
    exact hi.committing_update id

theorem inv_endOp (hi : Inv s) (hp : s.phase p = .op k) : Inv (s.endOp p) ∧ (s.endOp p).panicked = s.panicked := by
  have h1 := hi.one_le hp
  have hc : s.log.committing = false := by
    rw [Bool.eq_false_iff]
    intro h
    have := hi.alone h
    omega
  rw [State.endOp, if_neg (by rw [hc]; exact Bool.false_ne_true)]
  split
  · rename_i h0
    refine ⟨hi.set (fun _ => .inr hc) ?_ (fun R hR _ _ => ?_) hi.nodup (fun _ => h0) fun _ _ => rfl, rfl⟩
    · rw [hp, ops_op, ops_commit, dropOp_outstanding]
      omega
    · rw [reserve_commit, dropOp_lh]
      omega
  · refine ⟨hi.set (fun h => h.elim) ?_ (fun R hR _ _ => ?_) hi.nodup ?_ fun q hq => ?_, rfl⟩
    · rw [hp, ops_op, ops_idle, dropOp_outstanding]
      omega
    · rw [reserve_idle, dropOp_lh]
      omega
    · exact fun h => Bool.noConfusion h
    · have := hi.committing_update id q hq
      rw [hc] at this
      cases this

theorem inv_commit (hi : Inv s) {pc : CommitPc} (hp : s.phase p = .commit pc) :
    Inv (s.set p (commitStep s.log pc).1 (commitStep s.log pc).2) := by
  have hcom : (s.phase p).commits := by
    rw [hp]
    trivial
  have hc := hi.committing p hcom
  have h0 := hi.alone hc
  -- the steps that keep the header
  have hkeep {l : LogState} (h : SameHead s.log l) (pc' : CommitPc) : Inv (s.set p l (.commit pc')) := by
    refine hi.set (fun _ => .inl hcom) ?_ (fun R hR _ _ => ?_) (h.lh ▸ hi.nodup) ?_ ?_
    · rw [h.outstanding, hp]
      rfl
    · rw [h.lh, reserve_commit]
      omega
    · rw [h.outstanding]
      exact fun _ => h0
    · rw [h.committing]
      exact fun _ _ => hc
  cases pc with
  | test => exact hkeep ⟨rfl, rfl, rfl⟩ _
  | writeLog => exact hkeep (sameHead_writeLogFrom ..) _
  | writeHead => exact hkeep (sameHead_bwrite ..) _
  | install => exact hkeep (sameHead_installFrom ..) _
  | clear =>
    refine hi.set (fun _ => .inl hcom) ?_ (fun R hR _ _ => ?_) nodup_nil (fun _ => h0) fun _ _ => hc
    · rw [hp]
      rfl
    · change 0 + _ ≤ _
      rw [hp, reserve_commit]
      change 0 + (R - 0 + 0) ≤ _
      omega
  | finish =>
    refine hi.set (fun h => h.elim) ?_ (fun R hR _ _ => ?_) hi.nodup (fun _ => h0) fun q hq => ?_
    · rw [hp]
      rfl
    · change s.log.lh.length + (R - _ + 0) ≤ _
      omega
    · by_cases hqp : q = p
      · rw [hqp, update_self] at hq
        exact hq.elim
      · rw [update_of_ne hqp] at hq
        exact absurd (hi.unique q p hq hcom) hqp

/-! ## Runs -/

theorem inv_step {a : Act P} {es : List Empty} (hi : Inv s) (hn : s.panicked = none) (hf : Fits s a)
    (hnf : NotFull s a) (h : step s a = some (s', es)) : Inv s' ∧ s'.panicked = none := by
  rw [step, hn, Option.isSome_none, if_neg Bool.false_ne_true] at h
  cases a with
  | beginOp p =>
    obtain ⟨hp, h⟩ := Option.ite_none_right_eq_some.1 h
    rw [Option.map_eq_some_iff] at h
    obtain ⟨l, hl, he⟩ := h
    cases he
    exact ⟨inv_beginOp hi hp hl, hn⟩
  | logWrite p b data =>
    rw [State.act] at h
    split at h
    · rename_i k hp
      cases h
      rw [State.logWrite]
      cases hl : Log.logWrite s.log b data with
      | some l => exact ⟨inv_logWrite hi hp (hf k hp) hl, hn⟩
      | none =>
        -- a full log has no room for what `p` may add, so the block is in it
        have hfull := logWrite_eq_none (hi.one_le hp) hl
        have hspace := hi.space
        have hle := reserve_le_sum s.phase p
        rw [hp, reserve_op] at hle
        by_cases hb : b ∈ s.log.lh
        · exact absurd (hnf hb) (not_lt.2 hfull)
        · have := hf k hp hb
          omega
    · cases h
  | endOp p =>
    rw [State.act] at h
    split at h
    · rename_i k hp
      cases h
      obtain ⟨hi', hn'⟩ := inv_endOp hi hp
      exact ⟨hi', hn'.trans hn⟩
    · cases h
  | commit p =>
    rw [State.act] at h
    split at h
    · rename_i pc hp
      cases h
      exact ⟨inv_commit hi hp, hn⟩
    · cases h

theorem log_space {start : Blockno} {disk : Disk} {es : List Empty}
    (h : Exec step (fun s a => Fits s a ∧ NotFull s a) (init start disk : State P) es s) :
    s.log.lh.length + ∑ p, (s.phase p).reserve ≤ LOGBLOCKS ∧ s.log.lh.Nodup ∧
    (s.log.committing = true → s.log.outstanding = 0) ∧
    (∀ p, (s.phase p).commits → ∀ q k, s.phase q ≠ .op k) ∧ s.panicked = none := by
  have hi : Inv s ∧ s.panicked = none :=
    h.invariant (I := fun _ s => Inv s ∧ s.panicked = none) ⟨inv_init start disk, rfl⟩
      fun hi hc hs => inv_step hi.1 hi.2 hc.1 hc.2 hs
  exact ⟨hi.1.space, hi.1.nodup, hi.1.alone, fun p hp q k => hi.1.no_op hp q k, hi.2⟩

end Invariant

/-! ## Two runs -/

def fitsCheck (s : State P) : Act P → Bool
  | .logWrite p b _ =>
    match s.phase p with
    | .op added => b ∈ s.log.lh || added < MAXOPBLOCKS
    | _ => true
  | _ => true

def notFullCheck (s : State P) : Act P → Bool
  | .logWrite _ b _ => b ∉ s.log.lh || s.log.lh.length < LOGBLOCKS
  | _ => true

theorem fits_of_check (s : State P) (a : Act P) (h : fitsCheck s a = true) : Fits s a := by
  cases a with
  | logWrite p b data =>
    intro added hp hb
    simp only [fitsCheck, hp, Bool.or_eq_true, decide_eq_true_eq] at h
    exact h.resolve_left hb
  | _ => trivial

theorem notFull_of_check (s : State P) (a : Act P) (h : notFullCheck s a = true) : NotFull s a := by
  cases a with
  | logWrite p b data =>
    intro hb
    simp only [notFullCheck, Bool.or_eq_true, decide_eq_true_eq] at h
    exact h.resolve_left fun hn => hn hb
  | _ => trivial

/-- `p` logs `n` blocks from `b` on. -/
def logActs (p : P) (b n : Nat) : List (Act P) :=
  (List.range n).map fun i => .logWrite p (BitVec.ofNat 32 (b + i)) fun _ => 0

/-- Two operations overlap and share a block; the second commits for both. -/
def sharedOps : List (Act Bool) :=
  [.beginOp false, .beginOp true] ++ logActs false 50 3 ++ logActs true 52 2 ++
    [.endOp false, .endOp true] ++ List.replicate 4 (.commit true)

theorem log_space_sharedOps : ∃ s : State Bool, ∃ es,
    Exec step (fun s a => Fits s a ∧ NotFull s a) (init 2 fun _ _ => 0) es s ∧
    s.phase true = .commit .clear ∧ (∀ q k, s.phase q ≠ .op k) ∧ s.panicked = none := by
  have hok (s : State Bool) (a : Act Bool) (h : (fitsCheck s a && notFullCheck s a) = true) :
      Fits s a ∧ NotFull s a := by
    rw [Bool.and_eq_true] at h
    exact ⟨fits_of_check s a h.1, notFull_of_check s a h.2⟩
  obtain ⟨es, s, he, hp⟩ : ∃ es s, Exec step _ (init 2 fun _ _ => 0) es s ∧ s.phase true = .commit .clear :=
    exists_exec hok sharedOps (by decide +kernel)
  have hs := log_space he
  exact ⟨s, es, he, hp, hs.2.2.2.1 true (by rw [hp]; trivial), hs.2.2.2.2⟩

/-- Three operations fill the log, and the first logs a block again that is in it. -/
def fullOps : List (Act (Fin 3)) :=
  [.beginOp 0, .beginOp 1, .beginOp 2] ++ logActs 0 50 10 ++ logActs 1 60 10 ++ logActs 2 70 10 ++
    logActs 0 50 1

theorem full_log_panics : ∃ s : State (Fin 3), ∃ es, Exec step Fits (init 2 fun _ _ => 0) es s ∧
    s.panicked = some .tooBig := by
  obtain ⟨es, s, h⟩ : ∃ es, ∃ s : State (Fin 3), Exec step Fits (init 2 fun _ _ => 0) es s ∧ s.panicked = some .tooBig :=
    exists_exec fits_of_check fullOps (by decide +kernel)
  exact ⟨s, es, h⟩

end Xv6.Log.Space
