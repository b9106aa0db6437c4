import Xv6.Sched.Model

/-!
# The priority boost on several CPUs

Two races around the boost of `scheduler()`. CPUs compare `ticks`, read under `tickslock`,
with `last_boost_ticks`, which no lock protects: `boost_spacing` gives the distance of two
boost passes while no CPU finds a boost due during another's pass or from a reading of `ticks`
that is older than the last one stored; `boosts_together` is a run where two passes overlap.
The timer branch of `usertrap` and `kerneltrap` charges a tick without `p->lock`: `boost_kept`
says that a boost lasts while the branch and the loop body do not overlap, and `boost_lost` is
a run where they do.
-/

namespace Xv6.Sched.Boost

open Function List

/-! ## Passes -/

/-- Where a CPU is in `scheduler()`. `t` is the number of ticks there had been when it read
`ticks`. -/
inductive Pc where
  /-- About to read `ticks`. -/
  | top
  /-- Has read `current`, about to compare it with `last_boost_ticks`. -/
  | compare (current : BitVec 32) (t : Nat)
  /-- In the boost loop at process `i`; after the last, about to store `last_boost_ticks`. -/
  | boost (current : BitVec 32) (t i : Nat)
  /-- In the rest of the loop. -/
  | scan
  deriving DecidableEq

/-- The boost's view of the kernel with `n` CPUs. -/
structure Cpus (n : Nat) where
  proc : Nat → Proc
  ticks : BitVec 32
  /-- `last_boost_ticks` -/
  lastBoost : BitVec 32
  pc : Fin n → Pc
  /-- The number of ticks since boot; `ticks` is what 32 bits hold of it. -/
  now : Nat
  /-- The number of ticks there had been when the value of `lastBoost` was read. -/
  lastAt : Nat

inductive Act (n : Nat) where
  /-- `clockintr` on CPU 0. -/
  | clock
  /-- The next step of CPU `c`. -/
  | cpu (c : Fin n)
  /-- Whatever else is done to the process table. -/
  | others (proc : Nat → Proc)

inductive Event where
  /-- A CPU starts a boost pass from the ticks it read at `t`. -/
  | start (t : Nat)
  /-- A CPU stores `last_boost_ticks`, as read at `t`. -/
  | store (t : Nat)
  deriving DecidableEq

variable {n : Nat}

/-- The test that starts a boost pass. -/
def due (current lastBoost : BitVec 32) : Bool :=
  decide (current - lastBoost ≥ BitVec.ofNat 32 BOOST_INTERVAL)

def Cpus.goto (s : Cpus n) (c : Fin n) (pc : Pc) : Cpus n := { s with pc := update s.pc c pc }

def cpuStep (s : Cpus n) (c : Fin n) : Cpus n × List Event :=
  match s.pc c with
  | .top => (s.goto c (.compare s.ticks s.now), [])
  | .compare current t =>
    if due current s.lastBoost then (s.goto c (.boost current t 0), [.start t])
    else (s.goto c .scan, [])
  | .boost current t i =>
    if i < NPROC then
      -- the loop body runs under `p->lock`
      ({ s with proc := update s.proc i (s.proc i).boost }.goto c (.boost current t (i + 1)), [])
    else ({ s with lastBoost := current, lastAt := t }.goto c .scan, [.store t])
  | .scan => (s.goto c .top, [])

def step (s : Cpus n) : Act n → Option (Cpus n × List Event)
  | .clock => some ({ s with ticks := s.ticks + 1, now := s.now + 1 }, [])
  | .cpu c => some (cpuStep s c)
  | .others proc => some ({ s with proc := proc }, [])

def boot : Cpus n where
  proc := Sched.boot.proc
  ticks := 0
  lastBoost := 0
  pc := fun _ => .top
  now := 0
  lastAt := 0

/-- The readings that boost passes were started from, in order. -/
def starts (es : List Event) : List Nat :=
  es.filterMap fun e => match e with
    | .start t => some t
    | .store _ => none

/-- The readings that were stored in `last_boost_ticks`, in order. -/
def stores (es : List Event) : List Nat :=
  es.filterMap fun e => match e with
    | .start _ => none
    | .store t => some t

/-- The reading of the pass that a CPU makes, if any. -/
def Pc.pass : Pc → Option Nat
  | .boost _ t _ => some t
  | _ => none

/-- CPU `c`, at `pc`, that finds a boost due does so while no other CPU makes a pass, and from a
reading that is not older than the one in `last_boost_ticks`. -/
def FreshAt (s : Cpus n) (c : Fin n) : Pc → Prop
  | .compare current t =>
    due current s.lastBoost → s.lastAt ≤ t ∧ ∀ c', c' ≠ c → (s.pc c').pass = none
  | _ => True

def Fresh (s : Cpus n) : Act n → Prop
  | .cpu c => FreshAt s c (s.pc c)
  | _ => True

instance (s : Cpus n) (c : Fin n) : (pc : Pc) → Decidable (FreshAt s c pc)
  | .compare _ _ => inferInstanceAs (Decidable (_ → _ ∧ ∀ _, _))
  | .top | .boost _ _ _ | .scan => inferInstanceAs (Decidable True)

instance (s : Cpus n) : (a : Act n) → Decidable (Fresh s a)
  | .cpu c => inferInstanceAs (Decidable (FreshAt s c (s.pc c)))
  | .clock | .others _ => inferInstanceAs (Decidable True)

/-- What holds along a run whose steps are all `Fresh`. -/
structure Spaced (es : List Event) (s : Cpus n) : Prop where
  ticks : s.ticks = BitVec.ofNat 32 s.now
  last : s.lastBoost = BitVec.ofNat 32 s.lastAt
  lastAt : s.lastAt = (stores es).getLastD 0
  read : ∀ c current t, s.pc c = .compare current t → current = BitVec.ofNat 32 t
  pass : ∀ c current t i, s.pc c = .boost current t i →
    current = BitVec.ofNat 32 t ∧ s.lastAt ≤ t
  one : ∀ c c' t t', (s.pc c).pass = some t → (s.pc c').pass = some t' → c = c'
  started : ∀ t ∈ starts es, t ≤ s.lastAt ∨ ∃ c, (s.pc c).pass = some t
  stored : ∀ t ∈ stores es, t ≤ s.lastAt
  starts : (starts es).Pairwise fun t t' => t + BOOST_INTERVAL ≤ t'
  stores : (stores es).Pairwise (· ≤ ·)

variable {t : Nat} {c : Fin n} {es : List Event} {s : Cpus n} {current : BitVec 32}

/-- A boost found due from a reading that is not older is `BOOST_INTERVAL` ticks later. -/
theorem le_of_due {t' : Nat} (h : due (BitVec.ofNat 32 t') (BitVec.ofNat 32 t)) (ht : t ≤ t') :
    t + BOOST_INTERVAL ≤ t' := by
  simp only [due, ge_iff_le, decide_eq_true_eq, BitVec.le_def, BitVec.toNat_sub, BitVec.toNat_ofNat, BOOST_INTERVAL] at h ⊢
  omega

@[simp] theorem Cpus.goto_pc_self (s : Cpus n) (c : Fin n) (pc : Pc) : (s.goto c pc).pc c = pc :=
  update_self ..

theorem Cpus.goto_pc_ne (s : Cpus n) {c' : Fin n} (pc : Pc) (h : c' ≠ c) : (s.goto c pc).pc c' = s.pc c' :=
  update_of_ne h ..

theorem spaced_boot : Spaced [] (boot : Cpus n) where
  ticks := rfl
  last := rfl
  lastAt := rfl
  read _ _ _ h := by cases h
  pass _ _ _ _ h := by cases h
  one _ _ _ _ h := by cases h
  started _ h := by cases h
  stored _ h := by cases h
  starts := .nil
  stores := .nil

theorem Spaced.read_goto {pc : Pc} (h : Spaced es s)
    (hread : ∀ current t, pc = .compare current t → current = BitVec.ofNat 32 t) :
    ∀ c' current t, (s.goto c pc).pc c' = .compare current t → current = BitVec.ofNat 32 t :=
  (forall_update_iff s.pc fun _ pc => ∀ current t, pc = .compare current t → current = BitVec.ofNat 32 t).2
    ⟨hread, fun c' _ => h.read c'⟩

/-- A CPU moves on, and neither starts a pass nor ends one. -/
theorem Spaced.goto {pc : Pc} (h : Spaced es s) (proc : Nat → Proc) (hpass : pc.pass = (s.pc c).pass)
    (hread : ∀ current t, pc = .compare current t → current = BitVec.ofNat 32 t)
    (hboost : ∀ current t i, pc = .boost current t i → current = BitVec.ofNat 32 t ∧ s.lastAt ≤ t) :
    Spaced (es ++ []) ({ s with proc := proc }.goto c pc) := by
  have hpass : ∀ c', (({ s with proc := proc }.goto c pc).pc c').pass = (s.pc c').pass :=
    (forall_update_iff s.pc fun c' pc => pc.pass = (s.pc c').pass).2 ⟨hpass, fun _ _ => rfl⟩
  rw [append_nil]
  refine { h with read := h.read_goto hread, pass := ?_, one := ?_, started := ?_ }
  · exact (forall_update_iff s.pc fun _ pc => ∀ current t i, pc = .boost current t i →
      current = BitVec.ofNat 32 t ∧ s.lastAt ≤ t).2 ⟨hboost, fun c' _ => h.pass c'⟩
  · intro c₁ c₂ t t' h₁ h₂
    rw [hpass] at h₁ h₂
    exact h.one _ _ _ _ h₁ h₂
  · intro t ht
    simp only [hpass]
    exact h.started t ht

/-- A CPU starts a pass: no other makes one, and its reading is not older than the last stored. -/
theorem Spaced.start (h : Spaced es s) (hc : s.pc c = .compare current t) (hd : due current s.lastBoost) (ht : s.lastAt ≤ t)
    (hone : ∀ c', c' ≠ c → (s.pc c').pass = none) : Spaced (es ++ [.start t]) (s.goto c (.boost current t 0)) := by
  have hcur := h.read _ _ _ hc
  have hnone : ∀ c', (s.pc c').pass = none := by
    intro c'
    by_cases e : c' = c
    · rw [e, hc]
      rfl
    · exact hone c' e
  have hold : ∀ t' ∈ Boost.starts es, t' ≤ s.lastAt := by
    intro t' ht'
    obtain hle | ⟨c', hp⟩ := h.started t' ht'
    · exact hle
    · rw [hnone] at hp
      cases hp
  have hst : Boost.starts (es ++ [.start t]) = Boost.starts es ++ [t] := by
    simp [Boost.starts, filterMap_append]
  have hstores : Boost.stores (es ++ [.start t]) = Boost.stores es := by
    simp [Boost.stores, filterMap_append]
  have hfar : s.lastAt + BOOST_INTERVAL ≤ t := by
    rw [hcur, h.last] at hd
    exact le_of_due hd ht
  have hself : ∀ c' t', ((s.goto c (.boost current t 0)).pc c').pass = some t' → c' = c := by
    intro c' t' hp
    by_contra e
    rw [Cpus.goto_pc_ne _ _ e, hnone] at hp
    cases hp
  refine ⟨h.ticks, h.last, ?_, h.read_goto nofun, ?_, ?_, ?_, ?_, ?_, ?_⟩
  · rw [hstores]
    exact h.lastAt
  · intro c' cur t' i hc'
    obtain rfl := hself c' t' (by rw [hc']; rfl)
    rw [Cpus.goto_pc_self] at hc'
    cases hc'
    exact ⟨hcur, ht⟩
  · intro c₁ c₂ t₁ t₂ h₁ h₂
    rw [hself _ _ h₁, hself _ _ h₂]
  · intro t' ht'
    rw [hst, mem_append, mem_singleton] at ht'
    obtain ht' | rfl := ht'
    · exact .inl (hold t' ht')
    · exact .inr ⟨c, by rw [Cpus.goto_pc_self]; rfl⟩
  · rw [hstores]
    exact h.stored
  · rw [hst, pairwise_append]
    refine ⟨h.starts, pairwise_singleton _ _, fun a ha b hb => ?_⟩
    rw [mem_singleton] at hb
    have := hold a ha
    omega
  · rw [hstores]
    exact h.stores

/-- The CPU that makes the pass ends it. -/
theorem Spaced.store {i : Nat} (h : Spaced es s) (hc : s.pc c = .boost current t i) :
    Spaced (es ++ [.store t]) ({ s with lastBoost := current, lastAt := t }.goto c .scan) := by
  obtain ⟨hcur, ht⟩ := h.pass _ _ _ _ hc
  have hp : (s.pc c).pass = some t := by
    rw [hc]
    rfl
  have hst : Boost.starts (es ++ [.store t]) = Boost.starts es := by
    simp [Boost.starts, filterMap_append]
  have hstores : Boost.stores (es ++ [.store t]) = Boost.stores es ++ [t] := by
    simp [Boost.stores, filterMap_append]
  have hnone : ∀ c', (({ s with lastBoost := current, lastAt := t }.goto c .scan).pc c').pass = none := by
    intro c'
    by_cases e : c' = c
    · rw [e, Cpus.goto_pc_self]
      rfl
    · rw [Cpus.goto_pc_ne _ _ e]
      cases hp' : (s.pc c').pass with
      | none => rfl
      | some t' => exact absurd (h.one _ _ _ _ hp' hp) e
  refine ⟨h.ticks, hcur, ?_, h.read_goto nofun, ?_, ?_, ?_, ?_, ?_, ?_⟩
  · rw [hstores, getLastD_concat]
    rfl
  · intro c' cur t' i' hc'
    have := hnone c'
    rw [hc'] at this
    cases this
  · intro c₁ c₂ t₁ t₂ h₁
    rw [hnone] at h₁
    cases h₁
  · intro t' ht'
    rw [hst] at ht'
    left
    obtain hle | ⟨c', hp'⟩ := h.started t' ht'
    · exact Nat.le_trans hle ht
    · obtain rfl := h.one _ _ _ _ hp' hp
      rw [hp] at hp'
      cases hp'
      exact Nat.le_refl _
  · intro t' ht'
    rw [hstores, mem_append, mem_singleton] at ht'
    obtain ht' | rfl := ht'
    · exact Nat.le_trans (h.stored t' ht') ht
    · exact Nat.le_refl _
  · rw [hst]
    exact h.starts
  · rw [hstores, pairwise_append]
    refine ⟨h.stores, pairwise_singleton _ _, fun a ha b hb => ?_⟩
    rw [mem_singleton] at hb
    rw [hb]
    exact Nat.le_trans (h.stored a ha) ht

theorem Spaced.step {es' : List Event} {s' : Cpus n} {a : Act n} (h : Spaced es s) (hf : Fresh s a)
    (hs : step s a = some (s', es')) : Spaced (es ++ es') s' := by
  cases a with
  | clock =>
    cases hs
    rw [append_nil]
    refine { h with ticks := ?_ }
    show s.ticks + 1 = BitVec.ofNat 32 (s.now + 1)
    rw [h.ticks, BitVec.ofNat_add]
    rfl
  | others proc =>
    cases hs
    rw [append_nil]
    exact { h with }
  | cpu c =>
    simp only [Boost.step, Option.some.injEq, cpuStep] at hs
    simp only [Fresh] at hf
    split at hs
    · rename_i hc
      cases hs
      exact h.goto s.proc (by rw [hc]; rfl) (fun _ _ e => by cases e; exact h.ticks) nofun
    · rename_i current t hc
      rw [hc] at hf
      split at hs
      · cases hs
        obtain ⟨ht, hone⟩ := hf ‹_›
        exact h.start hc ‹_› ht hone
      · cases hs
        exact h.goto s.proc (by rw [hc]; rfl) nofun nofun
    · rename_i current t i hc
      split at hs
      · cases hs
        exact h.goto _ (by rw [hc]; rfl) nofun fun _ _ _ e => by cases e; exact h.pass _ _ _ _ hc
      · cases hs
        exact h.store hc
    · rename_i hc
      cases hs
      exact h.goto s.proc (by rw [hc]; rfl) nofun nofun

/-- Boost passes are started `BOOST_INTERVAL` ticks apart, and `last_boost_ticks`, which holds
32 bits of the reading stored last, only moves to later readings. -/
theorem boost_spacing {es : List Event} {s : Cpus n} (h : Exec step Fresh boot es s) :
    (starts es).Pairwise (fun t t' => t + BOOST_INTERVAL ≤ t') ∧
      s.lastBoost = BitVec.ofNat 32 ((stores es).getLastD 0) ∧ (stores es).Pairwise (· ≤ ·) := by
  have hi : Spaced es s := h.invariant spaced_boot fun hi hf hs => hi.step hf hs
  exact ⟨hi.starts, hi.lastAt ▸ hi.last, hi.stores⟩

/-- The steps of a boost pass of CPU `c`, from its comparison on. -/
def passActs (c : Fin n) : List (Act n) := List.replicate (NPROC + 2) (.cpu c)

/-- CPU `c` boosts after 100 ticks; CPU `d` finds no boost due after 150, and boosts after 210. -/
def spacedActs (c d : Fin n) : List (Act n) :=
  List.replicate 100 .clock ++ [.cpu c] ++ passActs c ++ List.replicate 50 .clock ++
    [.cpu d, .cpu d, .cpu d] ++ List.replicate 60 .clock ++ [.cpu d] ++ passActs d

theorem boost_spacing_two_cpus : ∃ es s, Exec step Fresh (boot : Cpus 2) es s ∧
    starts es = [100, 210] ∧
    (starts es).Pairwise (fun t t' => t + BOOST_INTERVAL ≤ t') ∧
      s.lastBoost = BitVec.ofNat 32 ((stores es).getLastD 0) ∧ (stores es).Pairwise (· ≤ ·) := by
  obtain ⟨es, s, h, hes⟩ : ∃ es s, Exec step Fresh (boot : Cpus 2) es s ∧ starts es = [100, 210] :=
    exists_exec (fun _ _ => of_decide_eq_true) (spacedActs 0 1) (by decide +kernel)
  exact ⟨es, s, h, hes, boost_spacing h⟩

/-- CPU `c` reads `ticks` at 100 and CPU `d` at 101, before the other stores; CPU `d` ends first. -/
def togetherActs (c d : Fin n) : List (Act n) :=
  List.replicate 100 .clock ++ [.cpu c, .clock, .cpu d, .cpu c] ++ passActs d ++
    (passActs c).tail

/-- Two CPUs start passes one tick apart, and then `last_boost_ticks` goes from 101 back to
100. -/
theorem boosts_together : ∃ es s, Exec step Any (boot : Cpus 2) es s ∧
    starts es = [100, 101] ∧ stores es = [101, 100] ∧ s.lastBoost = 100 :=
  exists_exec (fun _ _ => of_decide_eq_true) (togetherActs 0 1) (by decide +kernel)

/-! ## The timer branch against the loop body -/

/-- Where the process's CPU is in the timer branch of `usertrap` or `kerneltrap`. -/
inductive TimerPc where
  /-- Not in the branch. -/
  | idle
  /-- About to read `ticks_count`, to increment it. -/
  | incr
  /-- About to write `ticks_count`, which was `v`, incremented. -/
  | store (v : BitVec 32)
  /-- About to test whether the priority is `q`. -/
  | level (q : Nat)
  /-- About to compare `ticks_count` with the limit of queue `q`. -/
  | limit (q : Nat)
  /-- About to write the priority below `q`. -/
  | demote (q : Nat)
  /-- About to write 0 to `ticks_count`. -/
  | reset
  /-- About to yield. -/
  | yield
  deriving DecidableEq

/-- Where the boosting CPU is in the body of its loop for the process. -/
inductive BodyPc where
  | out
  /-- Holds `p->lock`, about to write 0 to the priority. -/
  | locked
  /-- About to write 0 to `ticks_count`. -/
  | half
  deriving DecidableEq

structure Race where
  p : Proc
  timer : TimerPc
  body : BodyPc

inductive RaceAct where
  /-- The next step of the process's CPU; out of the timer branch, a timer interrupt. -/
  | timer
  /-- The next step of the boosting CPU. -/
  | boost
  /-- A scheduler dispatches the process. -/
  | dispatch

inductive RaceEvent where
  /-- The process was charged a tick. -/
  | charge
  /-- The boost of the process is complete. -/
  | boosted
  deriving DecidableEq

/-- `LIMIT_Q0` and `LIMIT_Q1` -/
def limitOf (q : Nat) : Nat := if q = 0 then LIMIT_Q0 else LIMIT_Q1

/-- The timer branch, one read or write of the priority or of `ticks_count` at a time. -/
def timerStep (s : Race) : Option (Race × List RaceEvent) :=
  let p := s.p
  match s.timer with
  | .idle =>
    if p.state = .running then
      let ticksInQ := update p.ticksInQ p.priority (p.ticksInQ p.priority + 1)
      some ({ s with p := { p with ticksInQ := ticksInQ }, timer := .incr }, [])
    else none
  | .incr => some ({ s with timer := .store p.ticksCount }, [])
  | .store v => some ({ s with p := { p with ticksCount := v + 1 }, timer := .level 0 }, [.charge])
  | .level q =>
    if p.priority = q then some ({ s with timer := .limit q }, [])
    else some ({ s with timer := if q = 0 then .level 1 else .yield }, [])
  | .limit q =>
    if p.ticksCount.toInt ≥ (limitOf q : Int) then some ({ s with timer := .demote q }, [])
    else some ({ s with timer := .yield }, [])
  | .demote q => some ({ s with p := { p with priority := q + 1 }, timer := .reset }, [])
  | .reset => some ({ s with p := { p with ticksCount := 0 }, timer := .yield }, [])
  | .yield =>
    -- `yield` acquires `p->lock`
    if s.body = .out then some ({ s with p := { p with state := .runnable }, timer := .idle }, [])
    else none

def bodyStep (s : Race) : Option (Race × List RaceEvent) :=
  match s.body with
  | .out => if s.p.state ≠ .unused then some ({ s with body := .locked }, []) else none
  | .locked => some ({ s with p := { s.p with priority := 0 }, body := .half }, [])
  | .half => some ({ s with p := { s.p with ticksCount := 0 }, body := .out }, [.boosted])

def raceStep (s : Race) : RaceAct → Option (Race × List RaceEvent)
  | .timer => timerStep s
  | .boost => bodyStep s
  | .dispatch =>
    if s.body = .out ∧ s.p.state = .runnable then
      some ({ s with p := { s.p with state := .running } }, [])
    else none

/-- The process runs, takes no timer interrupt, and no CPU boosts it. -/
def running (p : Proc) : Race := ⟨{ p with state := .running }, .idle, .out⟩

/-- The branch has read `ticks_count` and has still to write, or to decide whether it does. -/
def TimerPc.between : TimerPc → Bool
  | .store _ | .level _ | .limit _ | .demote _ | .reset => true
  | .idle | .incr | .yield => false

/-- The timer branch, from its first read of `ticks_count` to its last write, and the two writes
of the boost do not overlap. -/
def Apart (s : Race) : RaceAct → Prop
  | .timer => s.body = .half → s.timer ≠ .incr
  | .boost => s.body ≠ .out → s.timer.between = false
  | .dispatch => True

instance (s : Race) : (a : RaceAct) → Decidable (Apart s a)
  | .timer => inferInstanceAs (Decidable (_ → _ ≠ _))
  | .boost => inferInstanceAs (Decidable (_ ≠ _ → _ = _))
  | .dispatch => inferInstanceAs (Decidable True)

/-- What holds of the process when it was charged `n` ticks since some boost. -/
structure Charged (n : Nat) (s : Race) : Prop where
  count : s.p.ticksCount.toInt ≤ n
  level : 0 < s.p.priority → LIMIT_Q0 ≤ n
  store : ∀ v, s.timer = .store v → v.toInt ≤ n
  limit : ∀ q, s.timer = .limit q → q ≠ 0 → LIMIT_Q0 ≤ n
  demote : ∀ q, s.timer = .demote q → LIMIT_Q0 ≤ n

/-- Between the two writes of the boost. -/
def Midway (s : Race) : Prop := s.body = .half → s.p.priority = 0 ∧ s.timer.between = false

section Race

variable {s s' : Race} {a : RaceAct} {es : List RaceEvent}

theorem toInt_succ_le (v : BitVec 32) : (v + 1).toInt ≤ v.toInt + 1 := by
  have : (v + 1).toInt = (v.toInt + 1).bmod (2 ^ 32) := BitVec.toInt_add v 1
  have := @BitVec.toInt_lt 32 v
  have := @BitVec.le_toInt 32 v
  simp only [Int.bmod_def] at *
  omega

theorem Charged.timer (h : Charged n s) (hs : timerStep s = some (s', es)) : Charged (n + es.count .charge) s' := by
  obtain ⟨p, pc, body⟩ := s
  obtain ⟨hcount, hlevel, hstore, hlimit, hdemote⟩ := h
  cases pc with
  | idle =>
    simp only [timerStep] at hs
    split at hs <;> cases hs
    exact ⟨hcount, hlevel, nofun, nofun, nofun⟩
  | incr =>
    cases hs
    exact ⟨hcount, hlevel, fun v e => by cases e; exact hcount, nofun, nofun⟩
  | store v =>
    cases hs
    have hv := hstore v rfl
    have := toInt_succ_le v
    refine ⟨?_, fun hp => Nat.le_add_right_of_le (hlevel hp), nofun, nofun, nofun⟩
    show (v + 1).toInt ≤ ((n + 1 : Nat) : Int)
    omega
  | level q =>
    simp only [timerStep] at hs
    split at hs
    · rename_i hp
      cases hs
      refine ⟨hcount, hlevel, nofun, fun q' e hq => ?_, nofun⟩
      cases e
      exact hlevel (by show 0 < p.priority; omega)
    · cases hs
      split
      · exact ⟨hcount, hlevel, nofun, nofun, nofun⟩
      · exact ⟨hcount, hlevel, nofun, nofun, nofun⟩
  | limit q =>
    simp only [timerStep] at hs
    split at hs
    · rename_i hq
      cases hs
      refine ⟨hcount, hlevel, nofun, nofun, fun q' e => ?_⟩
      cases e
      by_cases e : q = 0
      · -- the count is at most what was charged since the boost
        subst e
        have : p.ticksCount.toInt ≤ n := hcount
        simp only [limitOf, if_true] at hq
        exact Int.ofNat_le.1 (Int.le_trans hq this)
      · exact hlimit q rfl e
    · cases hs
      exact ⟨hcount, hlevel, nofun, nofun, nofun⟩
  | demote q =>
    cases hs
    exact ⟨hcount, fun _ => hdemote q rfl, nofun, nofun, nofun⟩
  | reset =>
    cases hs
    exact ⟨Int.natCast_nonneg n, hlevel, nofun, nofun, nofun⟩
  | yield =>
    simp only [timerStep] at hs
    split at hs <;> cases hs
    exact ⟨hcount, hlevel, nofun, nofun, nofun⟩

theorem Charged.body (h : Charged n s) (hs : bodyStep s = some (s', es)) : Charged (n + es.count .charge) s' := by
  simp only [bodyStep] at hs
  split at hs
  · split at hs <;> cases hs
    exact { h with }
  · cases hs
    exact { h with level := fun hp => absurd hp (Nat.lt_irrefl 0) }
  · cases hs
    exact { h with count := Int.natCast_nonneg n }

theorem Charged.step (h : Charged n s) (hs : raceStep s a = some (s', es)) : Charged (n + es.count .charge) s' := by
  cases a with
  | timer => exact h.timer hs
  | boost => exact h.body hs
  | dispatch =>
    simp only [raceStep] at hs
    split at hs <;> cases hs
    exact { h with }

theorem Midway.step (h : Midway s) (hc : Apart s a) (hs : raceStep s a = some (s', es)) : Midway s' := by
  cases a with
  | timer =>
    obtain ⟨p, pc, body⟩ := s
    intro hb
    have hbody : body = .half := by
      cases pc <;> simp only [raceStep, timerStep] at hs <;> (try split at hs) <;> cases hs <;> exact hb
    subst hbody
    obtain ⟨hp, hbt⟩ := h rfl
    cases pc with
    | idle =>
      simp only [raceStep, timerStep] at hs
      split at hs <;> cases hs
      exact ⟨hp, rfl⟩
    | incr => exact absurd rfl (hc rfl)
    | yield => cases hs
    | store v | level q | limit q | demote q | reset => cases hbt
  | boost =>
    simp only [raceStep, bodyStep] at hs
    split at hs
    · split at hs <;> cases hs
      nofun
    · rename_i hb
      cases hs
      exact fun _ => ⟨rfl, hc (by rw [hb]; nofun)⟩
    · cases hs
      nofun
  | dispatch =>
    simp only [raceStep] at hs
    split at hs <;> cases hs
    exact h

/-- A boost that completes leaves nothing behind. -/
theorem Midway.boosted (h : Midway s) (hs : raceStep s a = some (s', es))
    (he : .boosted ∈ es) : es = [.boosted] ∧ Charged 0 s' := by
  cases a with
  | timer =>
    obtain ⟨p, pc, body⟩ := s
    cases pc <;> simp only [raceStep, timerStep] at hs <;> (try split at hs) <;> cases hs <;> simp at he
  | boost =>
    simp only [raceStep, bodyStep] at hs
    split at hs
    · split at hs <;> cases hs
      cases he
    · cases hs
      cases he
    · rename_i hb
      cases hs
      obtain ⟨hp, hbt⟩ := h hb
      refine ⟨rfl, Int.le_refl 0, fun hlt => ?_, fun v e => ?_, fun q e => ?_, fun q e => ?_⟩
      · exact absurd hlt (by rw [hp]; exact Nat.lt_irrefl 0)
      all_goals
        rw [show s.timer = _ from e] at hbt
        cases hbt
  | dispatch =>
    simp only [raceStep] at hs
    split at hs <;> cases hs
    cases he

end Race

/-- While the timer branch and the boost of the process do not overlap: after a boost, the
process has a priority other than 0 only if it was charged `LIMIT_Q0` ticks since, and its
`ticks_count` is at most the ticks it was charged since. -/
theorem boost_kept {p : Proc} {pre post : List RaceEvent} {s : Race}
    (h : Exec raceStep Apart (running p) (pre ++ .boosted :: post) s) :
    (0 < s.p.priority → LIMIT_Q0 ≤ post.count .charge) ∧
      s.p.ticksCount.toInt ≤ post.count .charge := by
  have hi : Midway s ∧ ∀ pre' post', pre ++ .boosted :: post = pre' ++ .boosted :: post' →
      Charged (post'.count .charge) s := by
    refine h.invariant (I := fun es s => Midway s ∧ ∀ pre' post', es = pre' ++ .boosted :: post' →
      Charged (post'.count .charge) s) ⟨(by cases ·), fun _ _ e => by simp at e⟩ ?_
    rintro es es' s s' a ⟨hm, hch⟩ hc hs
    refine ⟨hm.step hc hs, fun pre' post' e => ?_⟩
    -- the boost completed before this step, or in it
    obtain ⟨mid, rfl, e'⟩ | ⟨mid, e₁, e₂⟩ := List.append_eq_append_iff.1 e
    · obtain ⟨rfl, hz⟩ := hm.boosted hs (by rw [e']; simp)
      obtain ⟨rfl, rfl⟩ : mid = [] ∧ post' = [] := by
        cases mid with
        | nil => exact ⟨rfl, by simpa using e'.symm⟩
        | cons b mid => simp at e'
      exact hz
    · cases mid with
      | nil =>
        have e' : es' = .boosted :: post' := e₂.symm
        obtain ⟨hes, hz⟩ := hm.boosted hs (by rw [e']; simp)
        obtain rfl : post' = [] := by simpa [hes] using e'.symm
        exact hz
      | cons b mid =>
        obtain ⟨rfl, rfl⟩ := List.cons.inj e₂
        show Charged ((mid ++ es').count .charge) s'
        rw [List.count_append]
        exact (hch pre' mid e₁).step hs
  obtain ⟨hcount, hlevel, -⟩ := hi.2 pre post rfl
  exact ⟨hlevel, hcount⟩

/-- A process at level 0 that has used three ticks. -/
def aProc : Proc := { Sched.boot.proc 0 with ticksCount := 3 }

/-- The process is boosted and then charged until it is demoted. -/
def apartActs : List RaceAct :=
  [.boost, .boost, .boost] ++
    (List.replicate 3 (List.replicate 6 .timer ++ [.dispatch])).flatten ++ List.replicate 7 .timer

theorem boost_kept_demoted : ∃ post s, Exec raceStep Apart (running aProc) ([] ++ .boosted :: post) s ∧
    s.p.priority = 1 ∧ (0 < s.p.priority → LIMIT_Q0 ≤ post.count .charge) ∧
      s.p.ticksCount.toInt ≤ post.count .charge := by
  obtain ⟨_, s, h, rfl, hp⟩ : ∃ es s, Exec raceStep Apart (running aProc) es s ∧
      es = [] ++ .boosted :: List.replicate 4 .charge ∧ s.p.priority = 1 :=
    exists_exec (fun _ _ => of_decide_eq_true) apartActs (by decide +kernel)
  exact ⟨_, s, h, hp, boost_kept h⟩

/-- The branch reads `ticks_count`, the process is boosted, and the branch goes on. -/
def lostActs : List RaceAct :=
  [.timer, .timer, .boost, .boost, .boost, .timer, .timer, .timer, .timer]

/-- The boost is lost: one tick after it, the process is demoted with the count it had before. -/
theorem boost_lost : ∃ s, Exec raceStep Any (running aProc) ([] ++ .boosted :: [.charge]) s ∧
    s.p.priority = 1 ∧ s.p.ticksCount = 4 := by
  obtain ⟨_, s, h, rfl, hp, ht⟩ : ∃ es s, Exec raceStep Any (running aProc) es s ∧ es = [] ++ .boosted :: [.charge] ∧
      s.p.priority = 1 ∧ s.p.ticksCount = 4 :=
    exists_exec (fun _ _ => of_decide_eq_true) lostActs (by decide +kernel)
  exact ⟨s, h, hp, ht⟩

end Xv6.Sched.Boost
