import Xv6.Switch.Handoff

/-!
# No wakeup is lost

A process that found the condition false waits (`Waiting`) from then on until it is woken: first it
is on its way to sleep, with the condition's lock or its own, then it sleeps on the channel. Only a
test of the condition with its lock makes a process wait. So while `wakeup` has the condition's lock,
no process that it has passed starts to wait (`Scanned`), and after it, while the condition holds,
none waits at all: `no_lost_wakeup`.

The condition `NoSleep` on a run says that processes sleep on the channel only in the loop that
tests the condition.
-/

namespace Xv6.Switch

open List

variable {D : Type} {K : Cond D} {s s' t : State D} {c d j p q k : Nat} {r r' : List (Instr D)} {i : Instr D}
  {es : List Event}

/-- The code sleeps on the channel of the condition nowhere but in its loop. -/
def NoSleep (K : Cond D) (f : List (Instr D)) : Prop := ∀ lk, .sleep K.chan lk ∉ f

/-! ## On the way to sleep -/

def Instr.plain (K : Cond D) : Instr D → Bool
  | .sleepRelease .. | .sleepSet .. => false
  | .sleep chan _ => chan ≠ K.chan
  | _ => true

/-- What a thread's code looks like: inside `sleep` only its first instructions may be left. -/
inductive Tidy (K : Cond D) : List (Instr D) → Prop where
  | plain {r : List (Instr D)} (h : r.all (Instr.plain K) = true) : Tidy K r
  | enter {p chan lk : Nat} {r : List (Instr D)} (hlk : chan = K.chan → lk = K.lk)
      (h : r.all (Instr.plain K) = true) :
      Tidy K (.acquire (.proc p) :: .sleepRelease p chan lk :: .sleepSet p chan :: r)
  | release {p chan lk : Nat} {r : List (Instr D)} (hlk : chan = K.chan → lk = K.lk)
      (h : r.all (Instr.plain K) = true) : Tidy K (.sleepRelease p chan lk :: .sleepSet p chan :: r)
  | set {p chan : Nat} {r : List (Instr D)} (h : r.all (Instr.plain K) = true) :
      Tidy K (.sleepSet p chan :: r)

variable {f : List (Instr D)} {chan : Nat} {a : Act D} {es' : List Event}

theorem plain_of_ordinary (hf : f.all Instr.ordinary = true) (hs : NoSleep K f) : f.all (Instr.plain K) = true := by
  rw [all_eq_true] at hf ⊢
  intro i hi
  cases i with
  | sleep chan lk =>
    refine decide_eq_true fun h => hs lk ?_
    rw [← h]
    exact hi
  | sleepRelease p chan lk | sleepSet p chan => cases hf _ hi
  | _ => rfl

theorem tidy_next (h : Tidy K (i :: r)) (hn : Next K s c i r r') : Tidy K r' := by
  cases h with
  | plain h =>
    rw [all_cons, Bool.and_eq_true] at h
    obtain ⟨hi, hr⟩ := h
    cases hn with
    | sleep p chan lk r =>
      exact .enter (fun hc => absurd hc (of_decide_eq_true hi)) (by simpa [Instr.plain] using hr)
    | wait p r hC => exact .enter (fun _ => rfl) (by simpa [Instr.plain] using hr)
    | _ =>
      refine .plain ?_
      simpa [yieldCode, exitCode, Instr.plain] using hr
  | enter hlk h =>
    cases hn
    exact .release hlk h
  | release hlk h =>
    cases hn
    exact .set h
  | set h =>
    cases hn
    exact .plain h

/-- A thread without a lock is not on its way to sleep. -/
theorem Tidy.plain_of_noLocks {me : Option Nat} {ph : Ph} (h : Tidy K r) (hl : lawful K me ph [] r = true) :
    r.all (Instr.plain K) = true := by
  cases h with
  | plain h => exact h
  | enter | release | set => simp [lawful] at hl

theorem Tidy.plain_of_head (h : Tidy K (i :: r)) (hi : i.plain K = true) (ha : ∀ l, i ≠ .acquire l) :
    (i :: r).all (Instr.plain K) = true := by
  cases h with
  | plain h => exact h
  | enter => exact absurd rfl (ha _)
  | release | set => cases hi

theorem tidy_codes : CodeRule K (NoSleep K) (Tidy K) where
  nil := .plain rfl
  forkret _ := .plain rfl
  scheduler b := by cases b <;> exact .plain rfl
  next := tidy_next
  suspend h := by
    have hr := h.plain_of_head rfl nofun
    rw [all_cons, Bool.and_eq_true] at hr
    exact .plain hr.2
  call hf hs := .plain (plain_of_ordinary hf hs)
  interrupt hf hs hl h := by
    refine .plain ?_
    rw [all_append, plain_of_ordinary hf hs, all_cons, h.plain_of_noLocks hl]
    rfl

theorem notMem_of_plain (h : r.all (Instr.plain K) = true) (p chan : Nat) : .sleepSet p chan ∉ r := by
  intro hm
  cases all_eq_true.1 h _ hm

/-! ## Where `wakeup` is -/

/-- The channel and the process that the loop of `wakeup` is at. -/
def scanAt : List (Instr D) → Option (Nat × Nat)
  | .wakeup chan k :: _ | .acquire (.proc _) :: .wake k chan :: _ | .wake k chan :: _
  | .release (.proc _) :: .wakeup chan k :: _ => some (chan, k)
  | _ => none

/-- What stands behind an instruction is not in the middle of the loop of `wakeup`, unless the
instruction is in it too, or an interrupt came there. -/
def Loops (i : Instr D) (r : List (Instr D)) : Prop :=
  ∀ chan k, scanAt r = some (chan, k) → k = 0 ∨
    match i with
    | .setIntr _ => True
    | .acquire (.proc _) => ∃ r', r = .wake k chan :: r'
    | .release (.proc _) => ∃ r', r = .wakeup chan k :: r'
    | .wake m ch => ch = chan ∧ k = m + 1
    | _ => False

/-- The code does not begin in the middle of the loop of `wakeup`. -/
def Fresh (r : List (Instr D)) : Prop := ∀ chan k, scanAt r = some (chan, k) → k = 0

theorem fresh_of_none (h : scanAt r = none) : Fresh r := by
  intro chan k hk
  rw [h] at hk
  cases hk

theorem Fresh.loops (h : Fresh r) (i : Instr D) : Loops i r := fun chan k hk => .inl (h chan k hk)

theorem Loops.of_none (h : scanAt r = none) : Loops i r := (fresh_of_none h).loops i

theorem Fresh.release (h : Fresh r) (l : LockId) : Fresh (.release l :: r) := by
  intro chan k hk
  cases l with
  | other n => cases hk
  | proc q =>
    cases r with
    | nil => cases hk
    | cons i r =>
      cases i with
      | wakeup ch m => exact h chan k hk
      | _ => cases hk

theorem fresh_of_ordinary (hf : f.all Instr.ordinary = true) (hr : r = [] ∨ ∃ r', r = .setIntr true :: r') :
    Fresh (f ++ r) := by
  have hnone : Fresh r := by
    rcases hr with rfl | ⟨r', rfl⟩ <;> exact fresh_of_none rfl
  induction f with
  | nil => exact hnone
  | cons i f ih =>
    rw [all_cons, Bool.and_eq_true] at hf
    cases i with
    | wakeup ch m =>
      intro chan k hk
      cases hk
      exact of_decide_eq_true hf.1
    | release l => exact (ih hf.2).release l
    | acquire l =>
      refine fresh_of_none ?_
      cases l with
      | other n => rfl
      | proc q =>
        cases f with
        | nil => rcases hr with rfl | ⟨r', rfl⟩ <;> rfl
        | cons i f =>
          cases i with
          | wake k ch => cases hf.2
          | _ => rfl
    | wake k ch => cases hf.1
    | _ => exact fresh_of_none rfl

theorem each_loops_of_ordinary (hf : f.all Instr.ordinary = true) (hr : r = [] ∨ ∃ r', r = .setIntr true :: r')
    (h : Each Loops r) : Each Loops (f ++ r) := by
  induction f with
  | nil => exact h
  | cons i f ih =>
    rw [all_cons, Bool.and_eq_true] at hf
    exact ⟨(fresh_of_ordinary hf.2 hr).loops i, ih hf.2⟩

theorem loops_next (h : Each Loops (i :: r)) (hn : Next K s c i r r') : Each Loops r' := by
  obtain ⟨hi, hr⟩ := h
  cases hn with
  | skip => exact hr
  | yield p r =>
    have hf : Fresh r := fun chan k hk => (hi chan k hk).resolve_right id
    exact ⟨.of_none rfl, .of_none rfl, (hf.release _).loops _, hf.loops _, hr⟩
  | sleep p chan lk r =>
    have hf : Fresh r := fun chan k hk => (hi chan k hk).resolve_right id
    exact ⟨.of_none rfl, .of_none rfl, .of_none rfl, .of_none rfl, .of_none rfl, .of_none rfl, hf.loops _, hr⟩
  | exit p r =>
    have hf : Fresh r := fun chan k hk => (hi chan k hk).resolve_right id
    exact ⟨.of_none rfl, .of_none rfl, .of_none rfl, .of_none rfl, hf.loops _, hr⟩
  | wait p r hC =>
    exact ⟨.of_none rfl, .of_none rfl, .of_none rfl, .of_none rfl, .of_none rfl, .of_none rfl, .of_none rfl, hi, hr⟩
  | wakeupSelf ch m r => exact ⟨hi, hr⟩
  | wakeup ch m r =>
    refine ⟨fun chan k hk => .inr ?_, fun chan k hk => .inr ?_, fun chan k hk => .inr ?_, hi, hr⟩
    · cases hk
      exact ⟨_, rfl⟩
    · cases hk
      exact ⟨rfl, rfl⟩
    · cases hk
      exact ⟨_, rfl⟩
  | boostScan m r => exact ⟨.of_none rfl, .of_none rfl, .of_none rfl, hi, hr⟩
  | scan prio m r => exact ⟨.of_none rfl, .of_none rfl, .of_none rfl, hi, hr⟩
  | scanNext prio m r => exact ⟨hi, hr⟩
  | pick prio m r => exact ⟨.of_none rfl, .of_none rfl, hi, hr⟩

theorem loops_codes : CodeRule K (NoSleep K) (Each Loops) where
  nil := trivial
  forkret _ := ⟨.of_none rfl, trivial⟩
  scheduler b := by
    have h₁ : Each Loops [Instr.scan (D := D) 0 0] := ⟨.of_none rfl, trivial⟩
    cases b with
    | false => exact ⟨.of_none rfl, .of_none rfl, .of_none rfl, h₁⟩
    | true =>
      exact ⟨.of_none rfl, .of_none rfl, .of_none rfl, .of_none rfl, h₁⟩
  next := loops_next
  suspend h := h
  call {f} hf _ := by
    have h := each_loops_of_ordinary hf (.inl rfl) (r := []) trivial
    rwa [append_nil] at h
  interrupt hf _ _ h := each_loops_of_ordinary hf (.inr ⟨_, rfl⟩) ⟨fun _ _ _ => .inr trivial, h⟩

/-! ## Processes that wait -/

/-- The process found the condition false, and was not woken since. -/
def Waiting (K : Cond D) (s : State D) (j : Nat) : Prop :=
  (s.proc j).state = .sleeping ∧ (s.proc j).chan = some K.chan ∨ .sleepSet j K.chan ∈ (s.proc j).code

theorem Tidy.entering {me : Option Nat} {ph : Ph} {h : List LockId} (ht : Tidy K r)
    (hl : lawful K me ph h r = true) (hm : .sleepSet j K.chan ∈ r) : ph = .run ∧ (.other K.lk ∈ h ∨ .proc j ∈ h) := by
  cases ht with
  | plain hp => exact absurd hm (notMem_of_plain hp j K.chan)
  | enter hlk hp =>
    simp only [mem_cons, reduceCtorEq, Instr.sleepSet.injEq, notMem_of_plain hp, or_false, false_or] at hm
    obtain ⟨rfl, rfl⟩ := hm
    cases hlk rfl
    simp only [lawful, Bool.and_eq_true, decide_eq_true_eq, mem_cons, reduceCtorEq, false_or] at hl
    exact ⟨hl.1.1, .inl hl.2.1.2⟩
  | release hlk hp =>
    simp only [mem_cons, reduceCtorEq, Instr.sleepSet.injEq, notMem_of_plain hp, or_false, false_or] at hm
    obtain ⟨rfl, rfl⟩ := hm
    cases hlk rfl
    simp only [lawful, Bool.and_eq_true, decide_eq_true_eq] at hl
    exact ⟨hl.1.1.1, .inl hl.1.2⟩
  | set hp =>
    simp only [mem_cons, Instr.sleepSet.injEq, notMem_of_plain hp, or_false] at hm
    obtain ⟨rfl, rfl⟩ := hm
    simp only [lawful, Bool.and_eq_true, decide_eq_true_eq] at hl
    exact ⟨hl.1.1.1, .inr hl.1.2⟩

/-- `sleepSet` comes into the code by a call of `sleep` only. -/
theorem mem_next (hn : Next K s c i r r') (h : .sleepSet j chan ∈ r') :
    .sleepSet j chan ∈ r ∨ (∃ lk, i = .sleep chan lk) ∨ (i = .wait ∧ K.holds s.data = false) := by
  cases hn with
  | sleep p ch lk r =>
    simp only [sleepCode, mem_append, mem_cons, not_mem_nil, reduceCtorEq, Instr.sleepSet.injEq,
      or_false, false_or] at h
    rcases h with ⟨-, rfl⟩ | h
    · exact .inr (.inl ⟨lk, rfl⟩)
    · exact .inl h
  | wait p r hC => exact .inr (.inr ⟨rfl, hC⟩)
  | _ => exact .inl (by simpa [yieldCode, exitCode] using h)

theorem waiting_leaves (hc : (s.cpu c).cur = some p) (hcode : s.code c = .sched :: r)
    (h : Waiting K (Leaves s c p r) j) : Waiting K s j := by
  by_cases hj : j = p
  · rw [Waiting, hj, Leaves, proc_setCpu, proc_setProc_self] at h
    rw [Waiting, hj, ← code_cur hc, hcode]
    exact h.imp_right fun hm => mem_cons_of_mem _ ((mem_cons.1 hm).resolve_left fun h => by cases h)
  · rw [Waiting, Leaves, proc_setCpu, proc_setProc_of_ne hj] at h
    exact h

theorem waiting_enters (h : Waiting K (Enters s c k r) j) : Waiting K s j := by
  by_cases hj : j = k
  · rw [Waiting, hj, Enters, proc_setCpu, proc_setProc_self] at h
    rw [hj]
    exact h
  · rw [Waiting, Enters, proc_setCpu, proc_setProc_of_ne hj] at h
    exact h

theorem mem_begins (hb : Begins s a c r) (h : .sleepSet j chan ∈ r) : .sleepSet j chan ∈ s.code c := by
  have hno {f : List (Instr D)} (hf : f.all Instr.ordinary = true) : .sleepSet j chan ∉ f := by
    intro hm
    cases all_eq_true.1 hf _ hm
  cases hb with
  | loop b =>
    cases b <;> simp [schedulerCode] at h
  | call hf => exact absurd h (hno hf)
  | interrupt hf =>
    rw [mem_append, mem_cons] at h
    exact (h.resolve_left (hno hf)).resolve_left (by simp)

theorem waiting_begins (he : ∀ i, Effect s c i t) (hb : Begins s a c r) (h : Waiting K (t.goto c r) j) : Waiting K s j := by
  have he := he .yield
  rcases h with ⟨hst, hch⟩ | hm
  · obtain ⟨r₁, hp⟩ := proc_goto (s := t) (c := c) (r := r) j
    rw [hp] at hst hch
    refine (he.asleep j K.chan hst hch).imp id fun h => ?_
    cases h
  · refine .inr ?_
    by_cases hc : (s.cpu c).cur = some j
    · rw [proc_goto_cur (by rw [he.cur_eq]; exact hc)] at hm
      rw [← code_cur hc]
      exact mem_begins hb hm
    · rw [proc_goto_of_ne (by rw [he.cur_eq]; exact hc)] at hm
      rcases he.proc j with hq | ⟨h, -⟩
      · rw [hq.1] at hm
        exact hm
      · cases h

/-! ## The loop of `wakeup` -/

/-- A step of CPU `c` leaves the other CPUs and their threads as they are. -/
structure Elsewhere (s : State D) (c : Nat) (s' : State D) : Prop where
  cpu : ∀ d, d ≠ c → s'.cpu d = s.cpu d
  code : ∀ d, d ≠ c → s'.code d = s.code d

theorem elsewhere_of_proc (hcpu : ∀ d, d ≠ c → s'.cpu d = s.cpu d)
    (hproc : ∀ d p, d ≠ c → (s.cpu d).cur = some p → (s'.proc p).code = (s.proc p).code) : Elsewhere s c s' := by
  refine ⟨hcpu, fun d hd => ?_⟩
  cases hc : (s.cpu d).cur with
  | some p =>
    rw [code_cur hc, code_cur (by rw [hcpu d hd]; exact hc)]
    exact hproc d p hd hc
  | none => rw [code_sched hc, code_sched (by rw [hcpu d hd]; exact hc), hcpu d hd]

/-- A process whose thread runs on another CPU is not the one that `c` is with. -/
theorem ne_of_cur (hi : Inv K s) (hd : d ≠ c) (h : (s.cpu d).cur = some p) (hc : (s.cpu c).on = some q) : p ≠ q := by
  rintro rfl
  exact hd (hi.unique d c p (on_of_cur h) hc)

theorem elsewhere_goto (hi : Inv K s) (he : Effect s c i t)
    (ha : ∀ k, i = .alloc k → .proc k ∈ (s.cpu c).held) : Elsewhere s c (t.goto c r) := by
  refine elsewhere_of_proc (fun d hd => ?_) fun d p hd hc => ?_
  · rw [cpu_goto_of_ne hd, he.cpu d hd]
  · have hne : (t.cpu c).cur ≠ some p := by
      rw [he.cur_eq]
      exact fun h => ne_of_cur hi hd hc (on_of_cur h) rfl
    rw [proc_goto_of_ne hne]
    rcases he.proc p with hq | ⟨hal, hun, -⟩
    · exact hq.1
    · rcases hi.running_or_held (on_of_cur hc) with hrun | hheld
      · rw [hun] at hrun
        cases hrun
      · exact absurd (hi.spin.exclusive hheld (ha p hal)) hd

theorem elsewhere_leaves (hi : Inv K s) (hc : (s.cpu c).cur = some p) : Elsewhere s c (Leaves s c p r) := by
  refine elsewhere_of_proc (fun d hd => cpu_setCpu_of_ne hd ..) fun d q hd hq => ?_
  rw [Leaves, proc_setCpu, proc_setProc_of_ne (ne_of_cur hi hd hq (on_of_cur hc))]

theorem elsewhere_enters : Elsewhere s c (Enters s c k r) := by
  refine elsewhere_of_proc (fun d hd => cpu_setCpu_of_ne hd ..) fun d q hd hq => ?_
  by_cases hqk : q = k
  · rw [hqk, Enters, proc_setCpu, proc_setProc_self]
    rfl
  · rw [Enters, proc_setCpu, proc_setProc_of_ne hqk]

/-- No process that the loop of `wakeup`, with the condition's lock, has passed waits. -/
def Scanned (K : Cond D) (s : State D) : Prop :=
  ∀ c k, .other K.lk ∈ (s.cpu c).held → scanAt (s.code c) = some (K.chan, k) → ∀ j < k, ¬ Waiting K s j

/-- It is enough to look at the CPU that made the step. -/
theorem Scanned.of_self (hsc : Scanned K s) (hel : Elsewhere s c s')
    (hw : ∀ d j, d ≠ c → .other K.lk ∈ (s.cpu d).held → Waiting K s' j → Waiting K s j)
    (hc : ∀ k, .other K.lk ∈ (s'.cpu c).held → scanAt (s'.code c) = some (K.chan, k) →
      ∀ j < k, ¬ Waiting K s' j) : Scanned K s' := by
  intro d k hlk hk j hj hwait
  by_cases hd : d = c
  · rw [hd] at hlk hk
    exact hc k hlk hk j hj hwait
  · rw [hel.cpu d hd] at hlk
    rw [hel.code d hd] at hk
    exact hsc d k hlk hk j hj (hw d j hd hlk hwait)

theorem fresh_begins (hb : Begins s a c r) : Fresh r := by
  cases hb with
  | loop b => cases b <;> exact fresh_of_none rfl
  | call hf =>
    have h := fresh_of_ordinary hf (.inl rfl)
    rwa [append_nil] at h
  | interrupt hf => exact fresh_of_ordinary hf (.inr ⟨_, rfl⟩)

/-- `wakeup` passes the process that runs it. -/
theorem not_waiting_self (hi : Inv K s) (ht : Codes (Tidy K) s) (hcode : s.code c = .wakeup chan k :: r)
    (hk : (s.cpu c).proc = some k) : ¬ Waiting K s k := by
  have hl := hi.thread c
  rw [hcode] at hl
  simp only [lawful, Bool.and_eq_true, decide_eq_true_eq] at hl
  have hph := hl.1.1
  have hon := on_of_proc hi hk
  have hrun := running_of_on hph hon
  have hcur : (s.cpu c).cur = some k := by
    cases hc : (s.cpu c).cur with
    | some q =>
      rw [on_of_cur hc] at hon
      exact hon
    | none =>
      rw [on_of_sched hc, ← ph_sched hc, hph] at hon
      cases hon
  rintro (⟨hst, -⟩ | hm)
  · rw [hrun] at hst
    cases hst
  · rw [← code_cur hcur] at hm
    have htidy := ht.code c
    rw [hcode] at htidy hm
    exact notMem_of_plain (htidy.plain_of_head rfl (by simp)) k K.chan hm

theorem wake_code (y : Proc D) (chan : Nat) : (y.wake chan).code = y.code := by
  rw [Proc.wake]
  split <;> rfl

theorem wake_awake (y : Proc D) (chan : Nat) : ¬ ((y.wake chan).state = .sleeping ∧ (y.wake chan).chan = some chan) := by
  rw [Proc.wake]
  split
  · rintro ⟨h, -⟩
    cases h
  · assumption

theorem lk_mem_of_wait (hi : Inv K s) (hcode : s.code c = .wait :: r) : .other K.lk ∈ (s.cpu c).held := by
  have hl := hi.thread c
  rw [hcode] at hl
  simp only [lawful, Bool.and_eq_true, decide_eq_true_eq] at hl
  rw [hl.1.2]
  exact mem_singleton_self _

section Reached

variable (hr : Reached K es s) (ht : Codes (Tidy K) s)
include hr ht

/-- A process on its way to sleep has the condition's lock, or its own. -/
theorem held_of_entering (h : .sleepSet j K.chan ∈ (s.proc j).code) : ∃ c, (s.cpu c).cur = some j ∧ s.ph c = .run ∧
      (.other K.lk ∈ (s.cpu c).held ∨ .proc j ∈ (s.cpu c).held) := by
  by_cases hcur : ∃ c, (s.cpu c).cur = some j
  · obtain ⟨c, hc⟩ := hcur
    rw [← code_cur hc] at h
    exact ⟨c, hc, (ht.code c).entering (hr.inv.thread c) h⟩
  · have hpark := hr.handed.parked j fun c hc => hcur ⟨c, hc⟩
    have htidy := ht.proc j
    cases hpark with
    | never hcode =>
      rw [hcode] at h
      cases h
    | new hcode =>
      rw [hcode] at h
      simp [forkretCode] at h
    | switched b r hcode =>
      rw [hcode] at h htidy
      exact absurd h (notMem_of_plain (htidy.plain_of_head rfl (by simp)) j K.chan)

/-- A process that is woken with the condition's lock held does not wait. -/
theorem not_waiting_of_woken (hlk : .other K.lk ∈ (s.cpu c).held) (hk : .proc k ∈ (s.cpu c).held)
    (hcode : (s.code c).all (Instr.plain K) = true) : .sleepSet k K.chan ∉ (s.proc k).code := by
  intro hm
  obtain ⟨d, hd, -, hheld⟩ := held_of_entering hr ht hm
  have hdc : d = c := by
    rcases hheld with h | h
    · exact hr.inv.spin.exclusive h hlk
    · exact hr.inv.spin.exclusive h hk
  rw [hdc] at hd
  rw [← code_cur hd] at hm
  exact notMem_of_plain hcode k K.chan hm

/-- Only a test of the condition makes a process wait. -/
theorem waiting_goes (hcode : s.code c = i :: r) (hg : Goes K s c i r s') (h : Waiting K s' j) :
    Waiting K s j ∨ i = .wait ∧ K.holds s.data = false := by
  obtain ⟨t, r', he, hn, rfl⟩ := hg
  rcases h with ⟨hst, hch⟩ | hm
  · obtain ⟨r₁, hp⟩ := proc_goto (s := t) (c := c) (r := r') j
    rw [hp] at hst hch
    rcases he.asleep j K.chan hst hch with h | rfl
    · exact .inl (.inl h)
    · have hl := hr.inv.thread c
      rw [hcode] at hl
      simp only [lawful, Bool.and_eq_true, decide_eq_true_eq] at hl
      rw [code_cur hl.1.1.2] at hcode
      refine .inl (.inr ?_)
      rw [hcode]
      exact mem_cons_self
  · by_cases hc : (s.cpu c).cur = some j
    · rw [proc_goto_cur (by rw [he.cur_eq]; exact hc)] at hm
      rcases mem_next hn hm with h | ⟨lk, rfl⟩ | h
      · refine .inl (.inr ?_)
        rw [← code_cur hc, hcode]
        exact mem_cons_of_mem i h
      · have htidy := ht.code c
        rw [hcode] at htidy
        cases htidy with
        | plain h => simp [Instr.plain] at h
      · exact .inr h
    · rw [proc_goto_of_ne (by rw [he.cur_eq]; exact hc)] at hm
      rcases he.proc j with hq | ⟨-, -, hq⟩
      · rw [hq.1] at hm
        exact .inl (.inr hm)
      · rw [hq] at hm
        simp [Proc.alloc, forkretCode] at hm

/-- `wakeup` wakes a process. -/
theorem not_waiting_wake (hlk : .other K.lk ∈ (s.cpu c).held) (hcode : s.code c = .wake k K.chan :: r)
    (h : exec K s c r (.wake k K.chan) = some (s', es')) : ¬ Waiting K s' k := by
  have hl := hr.inv.thread c
  rw [hcode] at hl
  simp only [lawful, Bool.and_eq_true, decide_eq_true_eq] at hl
  have htidy := ht.code c
  rw [hcode] at htidy
  have hplain := htidy.plain_of_head rfl (by simp)
  have hno := not_waiting_of_woken hr ht hlk hl.1.2 (by rw [hcode]; exact hplain)
  cases h
  rintro (hst | hm)
  · obtain ⟨r₁, hp⟩ := proc_goto (s := s.setProc k ((s.proc k).wake K.chan)) (c := c) (r := r) k
    rw [hp, proc_setProc_self] at hst
    exact wake_awake _ _ hst
  · by_cases hc : (s.cpu c).cur = some k
    · rw [proc_goto_cur (by exact hc)] at hm
      exact notMem_of_plain hplain k K.chan (mem_cons_of_mem _ hm)
    · rw [proc_goto_of_ne (by exact hc), proc_setProc_self, wake_code] at hm
      exact hno hm

theorem scanned_goes (hloop : Codes (Each Loops) s) (hsc : Scanned K s) (hcode : s.code c = i :: r)
    (h : exec K s c r i = some (s', es')) (hg : Goes K s c i r s') (hlk : .other K.lk ∈ (s'.cpu c).held)
    (hk : scanAt (s'.code c) = some (K.chan, k)) (hj : j < k) : ¬ Waiting K s' j := by
  intro hwait
  have hstep := waiting_goes hr ht hcode hg hwait
  have hl := hr.inv.thread c
  have hi := hloop.code c
  rw [hcode] at hl hi
  obtain ⟨t, r', he, hn, rfl⟩ := hg
  rw [code_goto] at hk
  have hheld : i ≠ .acquire (.other K.lk) → .other K.lk ∈ (s.cpu c).held := by
    intro hne
    rw [held_goto] at hlk
    exact (he.held _ hlk).resolve_right hne
  have hold (hsame : scanAt (i :: r) = some (K.chan, k)) (hne : i ≠ .acquire (.other K.lk))
      (hnw : i ≠ .wait) : False := by
    rw [← hcode] at hsame
    exact hsc c k (hheld hne) hsame j hj (hstep.resolve_right fun h => hnw h.1)
  cases hn with
  | skip =>
    rcases hi.1 K.chan k hk with rfl | hi
    · exact absurd hj (Nat.not_lt_zero j)
    · cases i with
      | setIntr on =>
        simp only [lawful, Bool.and_eq_true, decide_eq_true_eq] at hl
        have := hheld (by simp)
        rw [hl.1.2] at this
        cases this
      | acquire l =>
        cases l with
        | proc q =>
          obtain ⟨r₁, rfl⟩ := hi
          exact hold rfl (by simp) (by simp)
        | other n => exact hi
      | release l =>
        cases l with
        | proc q =>
          obtain ⟨r₁, rfl⟩ := hi
          exact hold rfl (by simp) (by simp)
        | other n => exact hi
      | wake m ch =>
        obtain ⟨rfl, rfl⟩ := hi
        have hlk' := hheld (by simp)
        rcases Nat.lt_succ_iff_lt_or_eq.1 hj with hj | rfl
        · refine hsc c m hlk' ?_ j hj (hstep.resolve_right fun h => by cases h.1)
          rw [hcode]
          rfl
        · exact not_waiting_wake hr ht hlk' hcode h hwait
      | _ => exact hi
  | wakeupSelf ch m r hm =>
    cases hk
    have hlk' := hheld (by simp)
    have hbefore := hstep.resolve_right fun h => by cases h.1
    rcases Nat.lt_succ_iff_lt_or_eq.1 hj with hj | rfl
    · refine hsc c m hlk' ?_ j hj hbefore
      rw [hcode]
      rfl
    · exact not_waiting_self hr.inv ht hcode hm hbefore
  | wakeup ch m r =>
    cases hk
    exact hold rfl (by simp) (by simp)
  | _ => cases hk

theorem scanned_act (hloop : Codes (Each Loops) s) (hsc : Scanned K s)
    (hs : s.act K a = some (s', es')) : Scanned K s' := by
  rcases act_cases hs with ⟨c, i, r, hcode, hx⟩ | ⟨c, t, r', -, he, hb, rfl⟩
  · have hl := hr.inv.thread c
    rw [hcode] at hl
    rcases exec_cases_of_inv hr.inv hr.panicked hcode hx with ⟨-, hg⟩ | ⟨rfl, p, hc, -, rfl⟩ | ⟨k, rfl, hc, -, rfl⟩
    · have hel : Elsewhere s c s' := by
        obtain ⟨t, r', he, -, rfl⟩ := hg
        refine elsewhere_goto hr.inv he fun k hk => ?_
        rw [hk] at hl
        simp only [lawful, Bool.and_eq_true, decide_eq_true_eq] at hl
        exact hl.1.1.2
      refine hsc.of_self hel (fun d j hd hlk hw => ?_) fun k hlk hk j hj => scanned_goes hr ht hloop hsc hcode hx hg hlk hk hj
      refine (waiting_goes hr ht hcode hg hw).resolve_right fun h => hd ?_
      rw [h.1] at hcode
      exact hr.inv.spin.exclusive hlk (lk_mem_of_wait hr.inv hcode)
    · refine hsc.of_self (elsewhere_leaves hr.inv hc) (fun d j hd hlk hw => waiting_leaves hc hcode hw)
        fun k hlk => ?_
      rw [Leaves, cpu_setCpu_self, Cpu.toSched] at hlk
      dsimp only at hlk
      rw [(leaving_of_sched hc hl).1, mem_singleton] at hlk
      cases hlk
    · refine hsc.of_self elsewhere_enters (fun d j hd hlk hw => waiting_enters hw) fun m hlk => ?_
      rw [code_sched hc] at hcode
      rw [Enters, cpu_setCpu_self, Cpu.toProc] at hlk
      dsimp only at hlk
      rw [(entered_of_swtch hr.inv hc hcode).1, mem_singleton] at hlk
      cases hlk
  · refine hsc.of_self (elsewhere_goto hr.inv (he .yield) (by simp))
      (fun d j _ _ hw => waiting_begins he hb hw) fun k _ hk j hj => ?_
    rw [code_goto] at hk
    rw [fresh_begins hb K.chan k hk] at hj
    exact absurd hj (Nat.not_lt_zero j)

/-- Only a test of the condition makes a process wait, whatever the act. -/
theorem waiting_act (hs : s.act K a = some (s', es')) (h : Waiting K s' j) : Waiting K s j ∨ K.holds s.data = false := by
  rcases act_cases hs with ⟨c, i, r, hcode, hx⟩ | ⟨c, t, r', -, he, hb, rfl⟩
  · rcases exec_cases_of_inv hr.inv hr.panicked hcode hx with ⟨-, hg⟩ | ⟨rfl, p, hc, -, rfl⟩ | ⟨k, rfl, hc, -, rfl⟩
    · exact (waiting_goes hr ht hcode hg h).imp_right And.right
    · exact .inl (waiting_leaves hc hcode h)
    · exact .inl (waiting_enters h)
  · exact .inl (waiting_begins he hb h)

/-- Only processes of the table wait. -/
theorem lt_of_waiting (h : Waiting K s j) : j < NPROC := by
  by_contra hj
  have hun := hr.inv.bound j (Nat.not_lt.1 hj)
  rcases h with ⟨hst, -⟩ | hm
  · rw [hun] at hst
    cases hst
  · obtain ⟨c, hc, hph, -⟩ := held_of_entering hr ht hm
    rw [running_of_on hph (on_of_cur hc)] at hun
    cases hun

end Reached

/-! ## Runs -/

/-- The condition holds ever since a `wakeup` with its lock returned, after the event. -/
def stays (b : Bool) : Event → Bool
  | .woke h => h || b
  | .stored h => b && h
  | _ => b

/-- The same after the events of a run from boot. -/
def calm (es : List Event) : Bool := es.foldl stays false

structure Awake (K : Cond D) (es : List Event) (s : State D) : Prop where
  reached : Reached K es s
  tidy : Codes (Tidy K) s
  loops : Codes (Each Loops) s
  scanned : Scanned K s
  calm : calm es = true → K.holds s.data = true ∧ ∀ j, ¬ Waiting K s j

/-- The data after an instruction that stores nothing. -/
theorem exec_data (hi : Inv K s) (hp : s.panicked = none) (hcode : s.code c = i :: r) (hst : ∀ d, i ≠ .store d)
    (h : exec K s c r i = some (s', es)) : s'.data = s.data := by
  rcases exec_cases_of_inv hi hp hcode h with ⟨-, t, r', he, -, rfl⟩ | ⟨-, p, -, -, rfl⟩ | ⟨k, -, -, -, rfl⟩
  · rw [data_goto]
    exact he.data.resolve_right (hst _)
  · rfl
  · rfl

theorem calm_exec (h : Awake K es s) (hcode : s.code c = i :: r) (hx : exec K s c r i = some (s', es'))
    (hw : ∀ j, Waiting K s' j → Waiting K s j ∨ K.holds s.data = false) (hc : calm (es ++ es') = true) :
    K.holds s'.data = true ∧ ∀ j, ¬ Waiting K s' j := by
  have hkeep (hC : K.holds s.data = true) (hno : ∀ j, ¬ Waiting K s j) (j : Nat) : ¬ Waiting K s' j := by
    intro hwait
    rcases hw j hwait with hwait | hf
    · exact hno j hwait
    · rw [hC] at hf
      cases hf
  have hsame (hst : ∀ d, i ≠ .store d) (hes : calm es = true) :
      K.holds s'.data = true ∧ ∀ j, ¬ Waiting K s' j := by
    obtain ⟨hC, hno⟩ := h.calm hes
    rw [exec_data h.reached.inv h.reached.panicked hcode hst hx]
    exact ⟨hC, hkeep hC hno⟩
  rw [calm, foldl_append] at hc
  cases exec_emits hx with
  | nothing _ hi => exact hsame hi hc
  | saved | resumed | alloc | slept | proceeded => exact hsame nofun hc
  | woke k hk hl =>
    rcases Bool.or_eq_true_iff.1 hc with hC | hes
    · rw [exec_data h.reached.inv h.reached.panicked hcode nofun hx]
      refine ⟨hC, hkeep hC fun j hwait => ?_⟩
      have hj := lt_of_waiting h.reached h.tidy hwait
      refine h.scanned c k ((h.reached.inv.spin.mem _ c).1 hl) ?_ j (Nat.lt_of_lt_of_le hj hk) hwait
      rw [hcode]
      rfl
    · exact hsame nofun hes
  | stored d =>
    obtain ⟨hes, hd⟩ := Bool.and_eq_true_iff.1 hc
    obtain ⟨hC, hno⟩ := h.calm hes
    refine ⟨?_, hkeep hC hno⟩
    cases hx
    rw [data_goto]
    exact hd

theorem awake_step (h : Awake K es s) (ha : Starts (NoSleep K) s a) (hs : step K s a = some (s', es')) :
    Awake K (es ++ es') s' := by
  have hreach := reached_step h.reached hs
  rw [step, h.reached.panicked] at hs
  have hact : s.act K a = some (s', es') := hs
  have hi := h.reached.inv
  have hp := h.reached.panicked
  refine ⟨hreach, tidy_codes.act hi hp h.tidy ha hact, loops_codes.act hi hp h.loops ha hact,
    scanned_act h.reached h.tidy h.loops h.scanned hact, fun hc => ?_⟩
  have hw (j : Nat) := waiting_act (j := j) h.reached h.tidy hact
  rcases act_cases hact with ⟨c, i, r, hcode, hx⟩ | ⟨c, t, r', rfl, he, -, rfl⟩
  · exact calm_exec h hcode hx hw hc
  · rw [append_nil] at hc
    obtain ⟨hC, hno⟩ := h.calm hc
    rw [data_goto]
    have hdata := (he .yield).data.resolve_right (by simp)
    rw [hdata]
    refine ⟨hC, fun j hwait => ?_⟩
    rcases hw j hwait with hwait | hf
    · exact hno j hwait
    · rw [hC] at hf
      cases hf

theorem awake_run {d : D} (h : Exec (step K) (Starts (NoSleep K)) (boot d) es s) : Awake K es s := by
  refine h.invariant (I := Awake K) ⟨reached_boot d, ?_, ?_, ?_, ?_⟩ fun hr ha hs => awake_step hr ha hs
  · exact codes_boot tidy_codes.nil tidy_codes.forkret d
  · have hrule := loops_codes (K := K)
    exact codes_boot hrule.nil hrule.forkret d
  · intro c k hlk
    cases hlk
  · intro hc
    cases hc

/-- The condition holds ever since a `wakeup` returned. -/
theorem calm_of_woke {pre post : List Event} (h : .stored false ∉ post) : calm (pre ++ .woke true :: post) = true := by
  have hkeep (es : List Event) (hes : .stored false ∉ es) : es.foldl stays true = true := by
    induction es with
    | nil => rfl
    | cons e es ih =>
      have he : stays true e = true := by
        cases e with
        | stored b =>
          cases b with
          | true => rfl
          | false => exact absurd mem_cons_self hes
        | woke b => exact Bool.or_true b
        | _ => rfl
      rw [foldl_cons, he]
      exact ih fun hm => hes (mem_cons_of_mem e hm)
  rw [calm, foldl_append, foldl_cons]
  exact hkeep post h

/-- In every run in which processes sleep on the channel in the loop that tests the condition: while
the condition holds ever since a `wakeup` with its lock returned, no process sleeps on the channel;
and a process leaves the loop only with the lock and the condition true. -/
theorem no_lost_wakeup {d : D} (h : Exec (step K) (Starts (NoSleep K)) (boot d) es s) :
    (∀ pre post, es = pre ++ .woke true :: post → .stored false ∉ post →
      ∀ p, ¬ ((s.proc p).state = .sleeping ∧ (s.proc p).chan = some K.chan)) ∧
    ∀ a s' es' p, step K s a = some (s', es') → .proceeded p ∈ es' →
      K.holds s.data = true ∧ ∃ c, (s.cpu c).cur = some p ∧ s.lock (.other K.lk) = some c := by
  have hr := awake_run h
  refine ⟨fun pre post he hpost p hsleep => ?_, fun a s' es' p hs hp => ?_⟩
  · rw [he] at hr
    exact (hr.calm (calm_of_woke hpost)).2 p (.inl hsleep)
  · have hi := hr.reached.inv
    rw [step, hr.reached.panicked] at hs
    rcases act_cases (show s.act K a = some (s', es') from hs) with ⟨c, i, r, hcode, hx⟩ | ⟨c, t, r', rfl, -⟩
    · cases exec_emits hx with
      | proceeded q hC hq =>
        cases List.mem_singleton.1 hp
        have hl := hi.thread c
        rw [hcode] at hl
        simp only [lawful, Bool.and_eq_true, decide_eq_true_eq] at hl
        obtain ⟨p', hc⟩ := Option.isSome_iff_exists.1 hl.1.1.2
        rw [((cpuOk_cur hc).1 (hi.cpu c)).1] at hq
        cases hq
        exact ⟨hC, c, hc, (hi.spin.mem _ c).2 (lk_mem_of_wait hi hcode)⟩
      | nothing => cases hp
      | _ => cases List.mem_singleton.1 hp
    · cases hp

/-- A run keeps `NoSleep`, as a test. -/
def noSleep (K : Cond D) (_ : State D) : Act D → Bool
  | .call _ f | .interrupt _ f => f.all fun i =>
    match i with
    | .sleep chan _ => chan ≠ K.chan
    | _ => true
  | _ => true

theorem starts_of_noSleep (s : State D) (a : Act D) (h : noSleep K s a = true) : Starts (NoSleep K) s a := by
  cases a with
  | call c f | interrupt c f =>
    intro lk hm
    have := all_eq_true.1 h _ hm
    simp at this
  | _ => trivial

/-- `initproc` waits on CPU 0; an interrupt on CPU 1 makes the condition true and wakes it up. -/
def wokenOnce : List (Act Nat) :=
  .loop 0 false :: List.replicate 9 (.go 0) ++ .call 0 [.acquire (.other 5), .wait] :: List.replicate 8 (.go 0) ++
    .loop 1 false :: .go 1 :: .interrupt 1 [.acquire (.other 5), .store 1, .wakeup 7 0, .release (.other 5)] ::
    List.replicate (2 + 4 * NPROC + 2) (.go 1)

theorem wokenOnce_ends : ∃ es s, Exec (step nonzero) (Starts (NoSleep nonzero)) (boot 0) es s ∧
    es = [.resumed 0, .slept 0, .saved 0, .stored true, .woke true] ∧ s.lock (.other 5) = none ∧
    (s.proc 0).state = .runnable :=
  exists_exec starts_of_noSleep wokenOnce (by decide +kernel)

theorem no_lost_wakeup_wokenOnce : ∃ es s, Exec (step nonzero) (Starts (NoSleep nonzero)) (boot 0) es s ∧
    .slept 0 ∈ es ∧ s.lock (.other 5) = none ∧
    ∀ p, ¬ ((s.proc p).state = .sleeping ∧ (s.proc p).chan = some 7) := by
  obtain ⟨es, s, hx, rfl, hlock, -⟩ := wokenOnce_ends
  refine ⟨_, s, hx, by decide, hlock, ?_⟩
  exact (no_lost_wakeup hx).1 [.resumed 0, .slept 0, .saved 0, .stored true] [] rfl List.not_mem_nil

end Xv6.Switch
