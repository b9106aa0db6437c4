import Xv6.Sched.Steps
import Mathlib.Tactic.IntervalCases

/-!
# Allotments

What a process was charged, read off the events of a run (`hist`), against the
counters the kernel keeps: a process is charged at most `LIMIT_Q0` ticks in the
highest queue and `LIMIT_Q1` in the next between two boosts, and is moved down
exactly when it has used them up (`allotments`). The statistics `ticks_in_q` are
32-bit counters: they add up to the ticks charged only modulo `2 ^ 32`
(`ticksInQ_wraps`).
-/

namespace Xv6.Sched

open Function

/-- What happened to a process since it was created. -/
structure Hist where
  boosts : Nat
  /-- Ticks charged at each priority since creation or the last boost. -/
  used : Nat → Nat
  /-- Ticks charged at each priority since creation. -/
  charged : Nat → Nat
  /-- Ticks charged since creation. -/
  total : Nat

def Hist.new : Hist := ⟨0, fun _ => 0, fun _ => 0, 0⟩

def Hist.add (h : Hist) : Event → Hist
  | .alloc _ => .new
  | .boost _ => { h with boosts := h.boosts + 1, used := fun _ => 0 }
  | .charge _ k => { h with used := update h.used k (h.used k + 1)
                            charged := update h.charged k (h.charged k + 1)
                            total := h.total + 1 }
  | .dispatch _ _ => h

/-- The history of process `j` after the events `es`. -/
def hist (j : Nat) (es : List Event) : Hist := (about j es).foldl Hist.add .new

theorem hist_append (j : Nat) (es es' : List Event) : hist j (es ++ es') = (about j es').foldl Hist.add (hist j es) := by
  rw [hist, about_append, List.foldl_append, hist]

/-! ## One process -/

/-- The level of a process is the first whose allotment is not used up, and
`ticks_count` is what was used of it. -/
def AtLevel (p : Proc) (used : Nat → Nat) : Prop :=
  (p.priority = 0 ∧ p.ticksCount = BitVec.ofNat 32 (used 0) ∧ used 0 < LIMIT_Q0 ∧ used 1 = 0) ∨
  (p.priority = 1 ∧ p.ticksCount = BitVec.ofNat 32 (used 1) ∧ used 0 = LIMIT_Q0 ∧
    used 1 < LIMIT_Q1) ∨
  (p.priority = 2 ∧ used 0 = LIMIT_Q0 ∧ used 1 = LIMIT_Q1)

/-- The counters of a process agree with its history. -/
structure Allotted (p : Proc) (h : Hist) : Prop where
  level : AtLevel p h.used
  stats : ∀ k, p.ticksInQ k = BitVec.ofNat 32 (h.charged k)
  total : h.charged 0 + h.charged 1 + h.charged 2 = h.total
  charged_zero : h.charged 0 ≤ LIMIT_Q0 * h.boosts + h.used 0
  charged_one : h.charged 1 ≤ LIMIT_Q1 * h.boosts + h.used 1

theorem Allotted.new (p : Proc) (hp : p.priority = 0) (hc : p.ticksCount = 0)
    (hq : ∀ k, p.ticksInQ k = 0) : Allotted p .new :=
  ⟨.inl ⟨hp, hc, by decide, rfl⟩, hq, rfl, Nat.zero_le _, Nat.zero_le _⟩

variable {p p' : Proc} {h : Hist} {n : Nat} {es es' : List Event} {s s' : Sys}

theorem Allotted.kept (ha : Allotted p h) (hk : Kept p p') : Allotted p' h := by
  obtain ⟨hl, hs, ht, h₀, h₁⟩ := ha
  refine ⟨?_, ?_, ht, h₀, h₁⟩
  · rwa [AtLevel, hk.priority, hk.ticksCount]
  · rwa [hk.ticksInQ]

theorem AtLevel.used_le {used : Nat → Nat} (h : AtLevel p used) : used 0 ≤ LIMIT_Q0 ∧ used 1 ≤ LIMIT_Q1 := by
  rcases h with ⟨-, -, h₀, h₁⟩ | ⟨-, -, h₀, h₁⟩ | ⟨-, h₀, h₁⟩ <;> omega

theorem Allotted.boost (ha : Allotted p h) (hu : p.state ≠ .unused) (i : Nat) : Allotted p.boost (h.add (.boost i)) := by
  have e : p.boost = { p with priority := 0, ticksCount := 0 } := if_pos hu
  rw [e]
  have hle := ha.level.used_le
  have h₀ := ha.charged_zero
  have h₁ := ha.charged_one
  refine ⟨.inl ⟨rfl, rfl, Nat.zero_lt_succ _, rfl⟩, ha.stats, ha.total, ?_, ?_⟩
  · simp only [Hist.add, Nat.mul_add]
    omega
  · simp only [Hist.add, Nat.mul_add]
    omega

/-! ## A tick -/

/-- A tick at a level that a process can be demoted from. -/
theorem charge_of_lt {k : Nat} (hk : k < 2) (hp : p.priority = k) : p.charge =
    if (p.ticksCount + 1).toInt ≥ ((if k = 0 then LIMIT_Q0 else LIMIT_Q1 : Nat) : Int) then
      { p with ticksInQ := update p.ticksInQ k (p.ticksInQ k + 1), priority := k + 1, ticksCount := 0 }
    else { p with ticksInQ := update p.ticksInQ k (p.ticksInQ k + 1), ticksCount := p.ticksCount + 1 } := by
  interval_cases k <;> simp [Proc.charge, hp]

theorem charge_two (hp : p.priority = 2) : p.charge =
    { p with ticksInQ := update p.ticksInQ 2 (p.ticksInQ 2 + 1), ticksCount := p.ticksCount + 1 } := by
  simp [Proc.charge, hp]

theorem stats_charge {q : Nat → BitVec 32} {c : Nat → Nat} (h : ∀ k, q k = BitVec.ofNat 32 (c k))
    (l k : Nat) : update q l (q l + 1) k = BitVec.ofNat 32 (update c l (c l + 1) k) := by
  by_cases e : k = l
  · subst e
    rw [update_self, update_self, h k, BitVec.ofNat_add]
    rfl
  · rw [update_of_ne e, update_of_ne e, h k]

/-- The counter of ticks used, after one more tick. -/
theorem ticksCount_succ {m : Nat} (h : n < m) (hm : m < 2 ^ 31) : (BitVec.ofNat 32 n + 1).toInt = (n + 1 : Nat) := by
  have e : (BitVec.ofNat 32 n + 1) = BitVec.ofNat 32 (n + 1) := by rw [BitVec.ofNat_add]; rfl
  rw [e, BitVec.toInt_ofNat', Int.bmod_eq_of_le] <;> omega

/-- A tick at level `k` counts for the totals as it does for the allotment of the level. -/
theorem Allotted.of_charge (ha : Allotted p h) {i k : Nat} (hk : k < 3)
    (hq : p'.ticksInQ = update p.ticksInQ k (p.ticksInQ k + 1)) (hl : AtLevel p' (h.add (.charge i k)).used) :
    Allotted p' (h.add (.charge i k)) := by
  have ht := ha.total
  have h₀ := ha.charged_zero
  have h₁ := ha.charged_one
  refine ⟨hl, fun l => by rw [hq]; exact stats_charge ha.stats k l, ?_, ?_, ?_⟩
  all_goals
    interval_cases k <;> simp [Hist.add, update] <;> omega

theorem Allotted.charge (ha : Allotted p h) (i : Nat) (st : ProcState) :
    Allotted { p.charge with state := st } (h.add (.charge i p.priority)) := by
  rcases ha.level with ⟨hp, hc, hu₀, hu₁⟩ | ⟨hp, hc, hu₀, hu₁⟩ | ⟨hp, hu₀, hu₁⟩
  · have hcnt := ticksCount_succ hu₀ (by decide)
    rw [charge_of_lt (by decide) hp, if_pos rfl, hp, hc, hcnt]
    split
    · refine ha.of_charge (by decide) rfl (.inr (.inl ⟨rfl, ?_, ?_, ?_⟩))
      · simp [Hist.add, hu₁]
      · simp only [Hist.add, update_self]
        omega
      · simp [Hist.add, hu₁, LIMIT_Q1]
    · refine ha.of_charge (by decide) rfl (.inl ⟨rfl, ?_, ?_, ?_⟩)
      · simp only [Hist.add, update_self, BitVec.ofNat_add]
        rfl
      · simp only [Hist.add, update_self]
        omega
      · simp [Hist.add, hu₁]
  · have hcnt := ticksCount_succ hu₁ (by decide)
    rw [charge_of_lt (by decide) hp, if_neg one_ne_zero, hp, hc, hcnt]
    split
    · refine ha.of_charge (by decide) rfl (.inr (.inr ⟨rfl, ?_, ?_⟩))
      · simp [Hist.add, hu₀]
      · simp only [Hist.add, update_self]
        omega
    · refine ha.of_charge (by decide) rfl (.inr (.inl ⟨rfl, ?_, ?_, ?_⟩))
      · simp only [Hist.add, update_self, BitVec.ofNat_add]
        rfl
      · simp [Hist.add, hu₀]
      · simp only [Hist.add, update_self]
        omega
  · rw [charge_two hp, hp]
    refine ha.of_charge (by decide) rfl (.inr (.inr ⟨rfl, ?_, ?_⟩))
    · simp [Hist.add, hu₀]
    · simp [Hist.add, hu₁]

/-! ## Runs -/

/-- Every process that is not unused is charged as its history says. -/
def AllAllotted (es : List Event) (s : Sys) : Prop :=
  ∀ j, (s.proc j).state ≠ .unused → Allotted (s.proc j) (hist j es)

theorem Allotted.env {cur : Option Nat} {j : Nat} (hs : EnvStep cur j es p p') (hcur : cur = some j → p.state ≠ .unused)
    (hu : p'.state ≠ .unused) (ha : p.state ≠ .unused → Allotted p h) : Allotted p' (es.foldl Hist.add h) := by
  cases hs with
  | keep k => exact (ha (k.live hu)).kept k
  | alloc pid _ => exact .new _ rfl rfl fun _ => rfl
  | charge hc => exact (ha (hcur hc)).charge j .runnable

theorem allotted_sched (h : AllAllotted es s) (hs : SchedStep s es' s') : AllAllotted (es ++ es') s' := by
  intro j hu
  rw [hist_append]
  cases hs with
  | boost hpc hi =>
    rename_i current i
    by_cases e : j = i
    · subst e
      have hup : (s.proc j).state ≠ .unused := by
        intro hu'
        simp [Proc.boost, hu'] at hu
      rw [if_pos hup, about_self (by simp [Event.slot]), set_proc_self]
      exact (h j hup).boost hup j
    · rw [about_other (i := i) (by split <;> simp [Event.slot]) e, set_proc_ne _ _ e]
      rw [set_proc_ne _ _ e] at hu
      exact h j hu
  | dispatch hpc hi hr hp =>
    rename_i prio i found
    by_cases e : j = i
    · subst e
      rw [about_self (by simp [Event.slot]), set_proc_self]
      exact (h j (by rw [hr]; decide)).kept (kept_of_state rfl rfl rfl (by rw [hr]; decide))
    · rw [about_other (i := i) (by simp [Event.slot]) e, set_proc_ne _ _ e]
      rw [set_proc_ne _ _ e] at hu
      exact h j hu
  | _ => exact h j hu

theorem allotted_step {a : Act} (hr : RunOk s) (h : AllAllotted es s) (hst : sysStep s a = some (s', es')) :
    AllAllotted (es ++ es') s' := by
  by_cases ha : a = .sched
  · subst ha
    exact allotted_sched h (sched_cases hst)
  · intro j hu
    rw [hist_append]
    refine Allotted.env ((env_result hr ha hst).slot j) (fun hc => ?_) hu (h j)
    obtain ⟨prio, hpc⟩ := myproc_eq hc
    exact hr.live hpc

theorem boot_allotted : AllAllotted [] boot :=
  fun _ _ => .new _ rfl rfl fun _ => rfl

theorem run_allotted (h : Run Any es s) : AllAllotted es s :=
  (h.invariant (I := fun es s => RunOk s ∧ AllAllotted es s) ⟨boot_runOk, boot_allotted⟩
    fun ⟨hr, ha⟩ _ hst => ⟨runOk_step hr hst, allotted_step hr ha hst⟩).2

/-! ## Statistics -/

theorem toInt_ofNat_le (n : Nat) : (BitVec.ofNat 32 n).toInt ≤ n := by
  rw [BitVec.toInt_ofNat', Int.bmod_def]
  have h := Int.emod_nonneg (n : Int) (by decide : ((2 ^ 32 : Nat) : Int) ≠ 0)
  split <;> omega

theorem toInt_ofNat_eq (h : n < 2 ^ 31) : (BitVec.ofNat 32 n).toInt = n := by
  rw [BitVec.toInt_ofNat', Int.bmod_eq_of_le] <;> omega

/-- The allotments. A live process of any run is at level 0, 1 or 2, the first whose
allotment it has not used up since its creation or last boost, and has used no more
than the allotment of any level. Its `ticks_in_q` add up to the ticks it was charged
modulo `2 ^ 32`, and exactly below `2 ^ 31`, and are bounded by its boosts. -/
theorem allotments {es : List Event} {s : Sys} (h : Run Any es s) {j : Nat}
    (hu : (s.proc j).state ≠ .unused) :
    let p := s.proc j
    let c := hist j es
    (p.priority = 0 ∨ p.priority = 1 ∨ p.priority = 2) ∧
    c.used 0 ≤ LIMIT_Q0 ∧ c.used 1 ≤ LIMIT_Q1 ∧
    (p.priority = 0 ↔ c.used 0 < LIMIT_Q0) ∧
    (p.priority = 1 ↔ c.used 0 = LIMIT_Q0 ∧ c.used 1 < LIMIT_Q1) ∧
    (p.priority = 2 ↔ c.used 0 = LIMIT_Q0 ∧ c.used 1 = LIMIT_Q1) ∧
    p.ticksInQ 0 + p.ticksInQ 1 + p.ticksInQ 2 = BitVec.ofNat 32 c.total ∧
    (c.total < 2 ^ 31 →
      (p.ticksInQ 0).toInt + (p.ticksInQ 1).toInt + (p.ticksInQ 2).toInt = c.total) ∧
    (p.ticksInQ 0).toInt ≤ LIMIT_Q0 * (1 + c.boosts) ∧
    (p.ticksInQ 1).toInt ≤ LIMIT_Q1 * (1 + c.boosts) := by
  intro p c
  obtain ⟨hl, hs, ht, h₀, h₁⟩ : Allotted p c := run_allotted h j hu
  have hle := hl.used_le
  have hlev : (p.priority = 0 ∨ p.priority = 1 ∨ p.priority = 2) ∧
      (p.priority = 0 ↔ c.used 0 < LIMIT_Q0) ∧
      (p.priority = 1 ↔ c.used 0 = LIMIT_Q0 ∧ c.used 1 < LIMIT_Q1) ∧
      (p.priority = 2 ↔ c.used 0 = LIMIT_Q0 ∧ c.used 1 = LIMIT_Q1) := by
    rcases hl with ⟨hp, -, hu₀, hu₁⟩ | ⟨hp, -, hu₀, hu₁⟩ | ⟨hp, hu₀, hu₁⟩ <;> omega
  refine ⟨hlev.1, hle.1, hle.2, hlev.2.1, hlev.2.2.1, hlev.2.2.2, ?_, ?_, ?_, ?_⟩
  · rw [hs 0, hs 1, hs 2, ← BitVec.ofNat_add, ← BitVec.ofNat_add, ht]
  · intro hlt
    rw [hs 0, hs 1, hs 2, toInt_ofNat_eq (by omega), toInt_ofNat_eq (by omega),
      toInt_ofNat_eq (by omega)]
    omega
  · rw [hs 0]
    have := toInt_ofNat_le (c.charged 0)
    rw [Int.mul_add]
    omega
  · rw [hs 1]
    have := toInt_ofNat_le (c.charged 1)
    rw [Int.mul_add]
    omega

/-- A pass over the queues in which init runs for a tick at priority `k`. -/
def initPass (k : Nat) : List Act := List.replicate (65 * k + 2) .sched ++ [.timerUser] ++ List.replicate 64 .sched

/-- Init uses up its ticks at priority 0, and one at priority 1. -/
def demoteActs : List Act := (List.replicate LIMIT_Q0 (initPass 0)).flatten ++ initPass 1

/-- Then it is time for a boost, and init runs for a tick. -/
def boostActs : List Act := List.replicate BOOST_INTERVAL .timerKernel ++ List.replicate 67 .sched ++ [.timerUser]

theorem allotments_boosted : ∃ es s es' s', Run Any es s ∧ (hist 0 es).boosts = 0 ∧ (s.proc 0).priority = 1 ∧
    Exec sysStep Any s es' s' ∧ (hist 0 (es ++ es')).boosts = 1 ∧ (s'.proc 0).priority = 0 := by
  have h : ((runActs sysStep boot demoteActs).any fun (s, es) => decide ((s.proc 0).state ≠ .unused ∧
      (hist 0 es).boosts = 0 ∧ (hist 0 es).used 0 = LIMIT_Q0 ∧ (hist 0 es).used 1 = 1) &&
        (runActs sysStep s boostActs).any fun (s', es') => decide ((s'.proc 0).state ≠ .unused ∧
          (hist 0 (es ++ es')).boosts = 1 ∧ (hist 0 (es ++ es')).used 0 = 1)) = true := by
    decide +kernel
  simp only [Option.any_eq_true, Prod.exists, Bool.and_eq_true, decide_eq_true_eq] at h
  obtain ⟨s, es, hr, ⟨hu, hb, h0, h1⟩, s', es', hr', hu', hb', h0'⟩ := h
  have hrun : Run Any es s := exec_of_run hr
  obtain ⟨-, -, -, -, hone, -⟩ := allotments hrun hu
  obtain ⟨-, -, -, hzero, -⟩ := allotments (hrun.trans (exec_of_run hr')) hu'
  refine ⟨es, s, es', s', hrun, hb, hone.2 ⟨h0, ?_⟩, exec_of_run hr', hb', hzero.2 ?_⟩
  · rw [h1]
    decide
  · rw [h0']
    decide

/-! ## Long runs

With init alone in the table, every tick is charged to it, so that runs with any
number of ticks exist, and the statistics of some wrap around. -/

/-- A run in which init was charged `n` ticks leads to `s`. -/
def Charged (n : Nat) (s : Sys) : Prop := ∃ es, Run Any es s ∧ (hist 0 es).total = n

/-- Only init is alive. -/
structure Alone (s : Sys) (st : ProcState) : Prop where
  init : (s.proc 0).state = st
  others : ∀ j, j ≠ 0 → (s.proc j).state = .unused
  level : (s.proc 0).priority ≤ 2

/-- The scheduler has init still to run in this pass, or starts a new one. -/
def Pc.Due (k : Nat) : Pc → Prop
  | .scan _ _ true | .top | .boost _ _ => True
  | .scan prio i false => prio ≤ k ∧ (k = prio → i = 0)
  | .run _ _ | .wfi => False

/-- Steps of the scheduler until it runs init, at most. -/
def Pc.togo : Pc → Nat
  | .scan _ i true => 1000 + (NPROC - i)
  | .top => 900
  | .boost _ i => 800 + (NPROC - i)
  | .scan prio i false => (2 - prio) * 100 + (NPROC - i)
  | .run _ _ | .wfi => 0

theorem charged_sched (h : Charged n s) (hst : sysStep s .sched = some (s', es')) : Charged n s' := by
  obtain ⟨es, hrun, ht⟩ := h
  refine ⟨es ++ es', hrun.step trivial hst, ?_⟩
  rw [hist_append, ← ht]
  cases sched_cases hst with
  | boost =>
    split
    · simp only [about, List.filter]
      split <;> rfl
    · rfl
  | dispatch =>
    simp only [about, List.filter]
    split <;> rfl
  | _ => rfl

theorem Alone.boost (h : Alone s .runnable) (i : Nat) : Alone (s.set i (s.proc i).boost) .runnable := by
  by_cases hi : i = 0
  · subst hi
    have e : (s.proc 0).boost = { s.proc 0 with priority := 0, ticksCount := 0 } :=
      if_pos (by rw [h.init]; decide)
    rw [e]
    exact ⟨by rw [set_proc_self]; exact h.init, fun j hj => by rw [set_proc_ne _ _ hj]; exact h.others j hj,
      by rw [set_proc_self]; exact Nat.zero_le 2⟩
  · have e : (s.proc i).boost = s.proc i := if_neg (by simp [h.others i hi])
    have e' : s.set i (s.proc i) = s := by simp [Sys.set]
    rw [e, e']
    exact h

theorem Alone.running (h : Alone s .runnable) {pc : Pc} :
    Alone { s.set 0 { s.proc 0 with state := .running } with pc := pc } .running := by
  refine ⟨by rw [set_proc_self], fun j hj => ?_, ?_⟩
  · rw [set_proc_ne _ _ hj]
    exact h.others j hj
  · rw [set_proc_self]
    exact h.level

/-- One step of the scheduler: it runs init, or gets closer to it. -/
theorem due_step (ha : Alone s .runnable) (hd : s.pc.Due (s.proc 0).priority) :
    ∃ s' es, sysStep s .sched = some (s', es) ∧ ((∃ prio, s'.pc = .run prio 0) ∧ Alone s' .running ∨
        Alone s' .runnable ∧ s'.pc.Due (s'.proc 0).priority ∧ s'.pc.togo < s.pc.togo) := by
  simp only [sysStep, schedStep]
  cases hpc : s.pc with
  | run | wfi => rw [hpc] at hd; exact hd.elim
  | top =>
    dsimp only
    split
    · exact ⟨_, _, rfl, .inr ⟨⟨ha.init, ha.others, ha.level⟩, trivial, by simp [Pc.togo, NPROC]⟩⟩
    · exact ⟨_, _, rfl, .inr ⟨⟨ha.init, ha.others, ha.level⟩, ⟨Nat.zero_le _, fun _ => rfl⟩, by simp [Pc.togo, NPROC]⟩⟩
  | boost current i =>
    dsimp only
    split
    · refine ⟨_, _, rfl, .inr ⟨?_, trivial, ?_⟩⟩
      · have h := ha.boost i
        exact ⟨h.init, h.others, h.level⟩
      · simp only [Pc.togo]
        omega
    · refine ⟨_, _, rfl, .inr ⟨⟨ha.init, ha.others, ha.level⟩, ⟨Nat.zero_le _, fun _ => rfl⟩, ?_⟩⟩
      simp only [Pc.togo, NPROC]
      omega
  | scan prio i found =>
    rw [hpc] at hd
    dsimp only
    by_cases hi : i < NPROC
    · rw [if_pos hi]
      split
      · -- only init can be found
        rename_i hrun
        have e : i = 0 := by
          by_contra hne
          rw [ha.others i hne] at hrun
          cases hrun.1
        subst e
        exact ⟨_, _, rfl, .inl ⟨⟨prio, rfl⟩, ha.running⟩⟩
      · rename_i hrun
        refine ⟨_, _, rfl, .inr ⟨⟨ha.init, ha.others, ha.level⟩, ?_, ?_⟩⟩
        · cases found with
          | true => trivial
          | false =>
            refine ⟨hd.1, fun e => ?_⟩
            have e₀ := hd.2 e
            subst e₀
            exact absurd ⟨ha.init, e⟩ hrun
        · cases found <;> simp only [Pc.togo] <;> omega
    · rw [if_neg hi]
      cases found with
      | true => exact ⟨_, _, rfl, .inr ⟨⟨ha.init, ha.others, ha.level⟩, trivial, by simp [Pc.togo]; omega⟩⟩
      | false =>
        -- init is not in this queue, so there is a next one
        have hne : (s.proc 0).priority ≠ prio := fun e => hi (by rw [hd.2 e]; decide)
        have hlt : prio + 1 < 3 := by
          have := hd.1
          have := ha.level
          omega
        rw [if_neg (by decide), if_pos hlt]
        refine ⟨_, _, rfl, .inr ⟨⟨ha.init, ha.others, ha.level⟩, ⟨?_, fun _ => rfl⟩, ?_⟩⟩
        · have := hd.1
          show prio + 1 ≤ (s.proc 0).priority
          omega
        · simp only [Pc.togo, NPROC]
          omega

/-- The scheduler gets to run init. -/
theorem due_runs (hc : Charged n s) (ha : Alone s .runnable) (hd : s.pc.Due (s.proc 0).priority) :
    ∃ s' prio, Charged n s' ∧ s'.pc = .run prio 0 ∧ Alone s' .running := by
  induction hm : s.pc.togo using Nat.strongRecOn generalizing s with
  | ind m ih =>
    obtain ⟨s', es, hst, ⟨⟨prio, hpc⟩, ha'⟩ | ⟨ha', hd', hlt⟩⟩ := due_step ha hd
    · exact ⟨s', prio, charged_sched hc hst, hpc, ha'⟩
    · exact ih _ (hm ▸ hlt) (charged_sched hc hst) ha' hd' rfl

/-- A tick taken while init runs alone is charged to it. -/
theorem charged_tick {prio : Nat} (hc : Charged n s) (hpc : s.pc = .run prio 0) (ha : Alone s .running) :
    ∃ s', Charged (n + 1) s' ∧ s'.pc = .scan prio 1 true ∧ Alone s' .runnable := by
  obtain ⟨es, hrun, ht⟩ := hc
  have e : (clockintr s).proc 0 = s.proc 0 := clockintr_run hpc
  have hst : sysStep s .timerKernel = some (chargeAndYield (clockintr s) prio 0) := by
    simp only [sysStep, kerneltrapTimer, clockintr_pc, hpc]
    rw [if_pos (by rw [e]; exact ha.init)]
  have hrun' := hrun.step trivial hst
  have hinit : ((chargeAndYield (clockintr s) prio 0).1.proc 0).state = .runnable := by
    rw [chargeAndYield, resched_proc, set_proc_self]
  refine ⟨_, ⟨_, hrun', ?_⟩, rfl, hinit, fun j hj => ?_, ?_⟩
  · rw [hist_append, ← ht]
    rfl
  · rw [resched_proc, set_proc_ne _ _ hj]
    by_contra hu
    exact (kept_clockintr s j).live hu (ha.others j hj)
  · rcases (run_allotted hrun' 0 (fun hu => by cases hinit.symm.trans hu)).level with h | h | h <;> omega

theorem exists_charged (n : Nat) : ∃ s prio, Charged n s ∧ s.pc = .run prio 0 ∧ Alone s .running := by
  induction n with
  | zero =>
    refine due_runs (s := boot) ⟨[], .refl, rfl⟩ ⟨rfl, fun j hj => ?_, Nat.zero_le 2⟩ trivial
    exact if_neg hj
  | succ n ih =>
    obtain ⟨s, prio, hc, hpc, ha⟩ := ih
    obtain ⟨s', hc', hpc', ha'⟩ := charged_tick hc hpc ha
    exact due_runs hc' ha' (by rw [hpc']; trivial)

/-- The statistics do not always add up to the ticks charged: the counters wrap around. -/
theorem ticksInQ_wraps : ¬∀ es s, Run Any es s → ∀ j, (s.proc j).state ≠ .unused →
    ((s.proc j).ticksInQ 0).toInt + ((s.proc j).ticksInQ 1).toInt + ((s.proc j).ticksInQ 2).toInt =
      (hist j es).total := by
  intro hall
  obtain ⟨s, prio, ⟨es, hrun, ht⟩, hpc, ha⟩ := exists_charged (3 * 2 ^ 31)
  have h := hall es s hrun 0 (by rw [ha.init]; decide)
  rw [ht] at h
  have h₀ := BitVec.toInt_lt (x := (s.proc 0).ticksInQ 0)
  have h₁ := BitVec.toInt_lt (x := (s.proc 0).ticksInQ 1)
  have h₂ := BitVec.toInt_lt (x := (s.proc 0).ticksInQ 2)
  omega

end Xv6.Sched
