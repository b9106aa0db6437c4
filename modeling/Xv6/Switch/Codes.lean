import Xv6.Switch.Steps

/-!
# Threads and locks: what an instruction can do

`exec_cases_of_inv` says once what an instruction of a thread does: it switches, or it changes the
CPU and at most one process (`Effect`) and goes on at code that comes from its own (`Next`). A
property of code that the model keeps then holds of the code of every thread (`CodeRule`).
-/

namespace Xv6.Switch

open Option

variable {D : Type} {K : Cond D} {s s' t : State D} {c d p q k : Nat} {r r' : List (Instr D)} {i : Instr D}
  {l : LockId} {x : Cpu D} {y : Proc D} {es : List Event}

def Instr.switches : Instr D → Bool
  | .sched | .swtch _ => true
  | _ => false

/-- Where the thread on CPU `c` goes on after `i`, with `r` behind it. -/
inductive Next (K : Cond D) (s : State D) (c : Nat) : Instr D → List (Instr D) → List (Instr D) → Prop where
  | skip (i : Instr D) (r : List (Instr D)) : Next K s c i r r
  | yield (p : Nat) (r : List (Instr D)) : Next K s c .yield r (yieldCode p ++ r)
  | sleep (p chan lk : Nat) (r : List (Instr D)) : Next K s c (.sleep chan lk) r (sleepCode p chan lk ++ r)
  | exit (p : Nat) (r : List (Instr D)) : Next K s c .exit r (exitCode p ++ r)
  | wait (p : Nat) (r : List (Instr D)) (hC : K.holds s.data = false) : Next K s c .wait r (sleepCode p K.chan K.lk ++ .wait :: r)
  | wakeupSelf (chan k : Nat) (r : List (Instr D)) (hk : (s.cpu c).proc = some k) :
      Next K s c (.wakeup chan k) r (.wakeup chan (k + 1) :: r)
  | wakeup (chan k : Nat) (r : List (Instr D)) : Next K s c (.wakeup chan k) r
      (.acquire (.proc k) :: .wake k chan :: .release (.proc k) :: .wakeup chan (k + 1) :: r)
  | boostScan (k : Nat) (r : List (Instr D)) : Next K s c (.boostScan k) r
      (.acquire (.proc k) :: .boost k :: .release (.proc k) :: .boostScan (k + 1) :: r)
  | scan (prio k : Nat) (r : List (Instr D)) : Next K s c (.scan prio k) r
      (.acquire (.proc k) :: .pick prio k :: .release (.proc k) :: .scan prio (k + 1) :: r)
  | scanNext (prio k : Nat) (r : List (Instr D)) : Next K s c (.scan prio k) r (.scan (prio + 1) 0 :: r)
  | pick (prio k : Nat) (r : List (Instr D)) : Next K s c (.pick prio k) r
      (.enter k :: .swtch k :: .leave k :: r)

/-- What `i` on CPU `c` does to the state beside the code of the thread. -/
structure Effect (s : State D) (c : Nat) (i : Instr D) (t : State D) : Prop where
  cpu : ∀ d, d ≠ c → t.cpu d = s.cpu d
  cur : (t.cpu c).cur = (s.cpu c).cur
  sched : (t.cpu c).code = (s.cpu c).code
  held : ∀ l ∈ (t.cpu c).held, l ∈ (s.cpu c).held ∨ i = .acquire l
  proc : ∀ q, (t.proc q).code = (s.proc q).code ∧ (t.proc q).saved = (s.proc q).saved ∨
    i = .alloc q ∧ (s.proc q).state = .unused ∧ t.proc q = (s.proc q).alloc q
  asleep : ∀ q chan, (t.proc q).state = .sleeping → (t.proc q).chan = some chan →
    (s.proc q).state = .sleeping ∧ (s.proc q).chan = some chan ∨ i = .sleepSet q chan
  data : t.data = s.data ∨ i = .store t.data

theorem Effect.refl (s : State D) (c : Nat) (i : Instr D) : Effect s c i s :=
  ⟨fun _ _ => rfl, rfl, rfl, fun _ => .inl, fun _ => .inl ⟨rfl, rfl⟩, fun _ _ h h' => .inl ⟨h, h'⟩, .inl rfl⟩

/-- The effect of a change of the CPU and of a lock. -/
theorem effect_setCpu {lock : LockId → Option Nat} (hcur : x.cur = (s.cpu c).cur) (hcode : x.code = (s.cpu c).code)
    (hheld : ∀ l ∈ x.held, l ∈ (s.cpu c).held ∨ i = .acquire l) : Effect s c i ({ s with lock := lock }.setCpu c x) where
  cpu _ hd := cpu_setCpu_of_ne hd ..
  cur := by rw [cpu_setCpu_self]; exact hcur
  sched := by rw [cpu_setCpu_self]; exact hcode
  held l hl := by
    rw [cpu_setCpu_self] at hl
    exact hheld l hl
  proc _ := .inl ⟨rfl, rfl⟩
  asleep _ _ h h' := .inl ⟨h, h'⟩
  data := .inl rfl

/-- The effect of a change of one process. -/
theorem effect_setProc (hy : y.code = (s.proc k).code ∧ y.saved = (s.proc k).saved ∨
      i = .alloc k ∧ (s.proc k).state = .unused ∧ y = (s.proc k).alloc k)
    (ha : ∀ chan, y.state = .sleeping → y.chan = some chan →
      (s.proc k).state = .sleeping ∧ (s.proc k).chan = some chan ∨ i = .sleepSet k chan) :
    Effect s c i (s.setProc k y) where
  cpu _ _ := rfl
  cur := rfl
  sched := rfl
  held _ := .inl
  proc q := by
    by_cases hq : q = k
    · rw [hq, proc_setProc_self]
      exact hy
    · rw [proc_setProc_of_ne hq]
      exact .inl ⟨rfl, rfl⟩
  asleep q chan := by
    by_cases hq : q = k
    · rw [hq, proc_setProc_self]
      exact ha chan
    · rw [proc_setProc_of_ne hq]
      exact fun h h' => .inl ⟨h, h'⟩
  data := .inl rfl

/-- The effect of a change of one process that leaves its code, and does not put it to sleep. -/
theorem effect_change (hcode : y.code = (s.proc k).code) (hsaved : y.saved = (s.proc k).saved)
    (ha : ∀ chan, y.state = .sleeping → y.chan = some chan →
      (s.proc k).state = .sleeping ∧ (s.proc k).chan = some chan) : Effect s c i (s.setProc k y) :=
  effect_setProc (.inl ⟨hcode, hsaved⟩) fun chan h h' => .inl (ha chan h h')

/-- A change of state that does not put a process to sleep. -/
theorem effect_state {P : Prop} [Decidable P] {st : ProcState} (hst : st ≠ .sleeping) :
    Effect s c i (s.setProc k (if P then { s.proc k with state := st } else s.proc k)) := by
  split
  · exact effect_change rfl rfl fun _ h => absurd h hst
  · exact effect_change rfl rfl fun _ h h' => ⟨h, h'⟩

theorem effect_free : Effect s c i (s.setProc k (s.proc k).free) := by
  rw [Proc.free]
  split
  · refine effect_change rfl rfl fun _ h => ?_
    cases h
  · exact effect_change rfl rfl fun _ h h' => ⟨h, h'⟩

theorem effect_boost : Effect s c i (s.setProc k (s.proc k).boost) := by
  rw [Proc.boost]
  split
  · exact effect_change rfl rfl fun _ h h' => ⟨h, h'⟩
  · exact effect_change rfl rfl fun _ h h' => ⟨h, h'⟩

theorem effect_data (d : D) : Effect s c (.store d) { s with data := d } :=
  ⟨fun _ _ => rfl, rfl, rfl, fun _ => .inl, fun _ => .inl ⟨rfl, rfl⟩, fun _ _ h h' => .inl ⟨h, h'⟩, .inr rfl⟩

/-- The thread of a process panics, or does `f`. -/
theorem withProc_cases {f : Nat → State D × List Event} (h : s.withProc c f = (s', es)) :
    (es = [] ∧ s' = s.panic .noProc) ∨ ∃ p, (s.cpu c).proc = some p ∧ f p = (s', es) := by
  rw [State.withProc] at h
  split at h
  · cases h
    exact .inl ⟨rfl, rfl⟩
  · exact .inr ⟨_, ‹_›, h⟩

/-- The thread went on after `i`. -/
def Goes (K : Cond D) (s : State D) (c : Nat) (i : Instr D) (r : List (Instr D)) (s' : State D) : Prop :=
  ∃ t r', Effect s c i t ∧ Next K s c i r r' ∧ s' = t.goto c r'

theorem goes_of_effect (he : Effect s c i t) : Goes K s c i r (t.goto c r) := ⟨t, r, he, .skip .., rfl⟩
theorem goes_of_next (hn : Next K s c i r r') : Goes K s c i r (s.goto c r') := ⟨s, r', .refl .., hn, rfl⟩

theorem goes_of_release (s : State D) (c : Nat) (l : LockId) :
    (∃ e, s.release c l r = s.panic e) ∨ Goes K s c i r (s.release c l r) := by
  have he : Effect s c i ((s.setLock l none).setCpu c ((s.cpu c).popOff l)) :=
    effect_setCpu rfl rfl fun _ h => .inl (List.mem_of_mem_erase h)
  rw [State.release]
  split
  · exact .inl ⟨_, rfl⟩
  · split
    · exact .inl ⟨_, rfl⟩
    · split
      · exact .inl ⟨_, rfl⟩
      · exact .inr (goes_of_effect he)

theorem goes_of_call {f : Nat → List (Instr D)} (hn : ∀ p, Next K s c i r (f p))
    (h : s.withProc c (fun p => (s.goto c (f p), [])) = (s', es)) : (∃ e, s' = s.panic e) ∨ Goes K s c i r s' := by
  refine (withProc_cases h).imp (fun h => ⟨_, h.2⟩) ?_
  rintro ⟨p, -, he⟩
  cases he
  exact goes_of_next (hn p)

/-- An instruction that does not switch panics, or goes on. -/
theorem exec_cases {me : Option Nat} {ph : Ph} {ls : List LockId} (hl : lawful K me ph ls (i :: r) = true)
    (hsw : i.switches = false) (h : exec K s c r i = some (s', es)) : (∃ e, s' = s.panic e) ∨ Goes K s c i r s' := by
  cases i with
  | acquire l =>
    rw [exec, map_eq_some_iff] at h
    obtain ⟨s₁, h₁, he⟩ := h
    cases he
    rw [State.acquire] at h₁
    split at h₁
    · cases h₁
      refine .inr (goes_of_effect (effect_setCpu rfl rfl fun l' hl' => ?_))
      exact (List.mem_cons.1 hl').symm.imp_right fun h => by rw [h]
    · obtain ⟨-, he⟩ := ite_none_right_eq_some.1 h₁
      exact .inl ⟨_, (some.inj he).symm⟩
  | release l | sleepRelease p chan l =>
    cases h
    exact goes_of_release ..
  | setIntr on | setIntena on =>
    cases h
    exact .inr (goes_of_effect (effect_setCpu rfl rfl fun _ => .inl))
  | yield => exact (goes_of_call (.yield · r) (some.inj h))
  | sleep chan lk => exact (goes_of_call (.sleep · chan lk r) (some.inj h))
  | exit => exact (goes_of_call (.exit · r) (some.inj h))
  | wakeup chan k =>
    refine .inr ?_
    rw [exec] at h
    split at h
    · split at h
      · cases h
        exact goes_of_next (.wakeupSelf chan k r ‹_›)
      · cases h
        exact goes_of_next (.wakeup ..)
    · cases h
      exact goes_of_next (.skip ..)
  | wait =>
    refine (withProc_cases (some.inj h)).imp (fun h => ⟨_, h.2⟩) ?_
    rintro ⟨p, -, he⟩
    split at he
    · cases he
      exact goes_of_next (.skip ..)
    · cases he
      exact goes_of_next (.wait p r (Bool.eq_false_iff.2 ‹_›))
  | store d =>
    cases h
    exact .inr (goes_of_effect (effect_data d))
  | setState p st =>
    cases h
    simp only [lawful, Bool.and_eq_true, Bool.or_eq_true, decide_eq_true_eq] at hl
    refine .inr (goes_of_effect (effect_change rfl rfl fun _ h => ?_))
    rcases hl.1.2 with rfl | rfl <;> cases h
  | sleepSet p chan =>
    cases h
    refine .inr (goes_of_effect (effect_setProc (.inl ⟨rfl, rfl⟩) fun chan' _ h => .inr ?_))
    rw [some.inj h]
  | clearChan p =>
    cases h
    refine .inr (goes_of_effect (effect_change rfl rfl fun _ _ h => ?_))
    cases h
  | setPriority n =>
    refine (withProc_cases (some.inj h)).imp (fun h => ⟨_, h.2⟩) ?_
    rintro ⟨p, -, he⟩
    cases he
    exact goes_of_effect (effect_change rfl rfl fun _ h h' => ⟨h, h'⟩)
  | sched => cases hsw
  | zombieExit =>
    cases h
    exact .inl ⟨_, rfl⟩
  | wake k chan | kill k | start k =>
    cases h
    exact .inr (goes_of_effect (effect_state ProcState.noConfusion))
  | alloc k =>
    rw [exec] at h
    split at h
    · cases h
      refine .inr (goes_of_effect (effect_setProc (.inr ⟨rfl, ‹_›, rfl⟩) fun _ h => ?_))
      cases h
    · cases h
      exact .inr (goes_of_next (.skip ..))
  | free k =>
    cases h
    exact .inr (goes_of_effect effect_free)
  | boostScan k =>
    rw [exec] at h
    split at h
    · cases h
      exact .inr (goes_of_next (.boostScan ..))
    · cases h
      exact .inr (goes_of_next (.skip ..))
  | boost k =>
    cases h
    exact .inr (goes_of_effect effect_boost)
  | scan prio k =>
    refine .inr ?_
    rw [exec] at h
    split at h
    · cases h
      exact goes_of_next (.scan ..)
    · split at h
      · cases h
        exact goes_of_next (.skip ..)
      · cases h
        exact goes_of_next (.scanNext ..)
  | pick prio k =>
    cases h
    refine .inr ?_
    rw [State.pick]
    split
    · exact ⟨_, _, effect_state ProcState.noConfusion, .pick .., rfl⟩
    · exact goes_of_next (.skip ..)
  | enter k | leave k =>
    cases h
    exact .inr (goes_of_effect (effect_setCpu rfl rfl fun _ => .inl))
  | swtch k => cases hsw

/-- Where the invariant holds, an instruction goes on or switches. -/
theorem exec_cases_of_inv (hi : Inv K s) (hp : s.panicked = none) (hcode : s.code c = i :: r)
    (h : exec K s c r i = some (s', es)) : i.switches = false ∧ Goes K s c i r s' ∨
    (i = .sched ∧ ∃ p, (s.cpu c).cur = some p ∧ es = [.saved p] ∧ s' = Leaves s c p r) ∨
    ∃ k, i = .swtch k ∧ (s.cpu c).cur = none ∧ es = [.resumed k] ∧ s' = Enters s c k r := by
  have hl := hi.thread c
  rw [hcode] at hl
  cases hsw : i.switches with
  | false =>
    refine .inl ⟨rfl, (exec_cases hl hsw h).resolve_left ?_⟩
    rintro ⟨e, rfl⟩
    have hpan := (inv_exec hi hcode h).2
    rw [hp] at hpan
    cases hpan
  | true =>
    cases i with
    | sched =>
      have h := some.inj h
      obtain ⟨⟨p, hc, -⟩, -⟩ := lawful_sched.1 hl
      rw [sched_eq hi hc hl] at h
      cases h
      exact .inr (.inl ⟨rfl, p, hc, rfl, rfl⟩)
    | swtch k =>
      have h := some.inj h
      simp only [lawful, Bool.and_eq_true, decide_eq_true_eq] at hl
      obtain ⟨⟨⟨-, hc⟩, -⟩, -⟩ := hl
      rw [code_sched hc] at hcode
      rw [swtch_eq hi hc hcode] at h
      cases h
      exact .inr (.inr ⟨k, rfl, hc, rfl, rfl⟩)
    | _ => cases hsw

/-! ## Events -/

/-- The events of an instruction, and when it emits them. -/
inductive Emits (K : Cond D) (s : State D) (c : Nat) : Instr D → List Event → Prop where
  | nothing (i : Instr D) (hi : ∀ d, i ≠ .store d) : Emits K s c i []
  | saved (p : Nat) : Emits K s c .sched [.saved p]
  | resumed (k : Nat) : Emits K s c (.swtch k) [.resumed k]
  | alloc (k : Nat) (hk : (s.proc k).state = .unused) : Emits K s c (.alloc k) [.saved k]
  | slept (p : Nat) (hC : K.holds s.data = false) : Emits K s c .wait [.slept p]
  | proceeded (p : Nat) (hC : K.holds s.data = true) (hp : (s.cpu c).proc = some p) :
      Emits K s c .wait [.proceeded p]
  | woke (k : Nat) (hk : NPROC ≤ k) (hl : s.lock (.other K.lk) = some c) :
      Emits K s c (.wakeup K.chan k) [.woke (K.holds s.data)]
  | stored (d : D) : Emits K s c (.store d) [.stored (K.holds d)]

theorem emits_of_call {f : Nat → State D} (hi : ∀ d, i ≠ .store d)
    (h : s.withProc c (fun p => (f p, [])) = (s', es)) : Emits K s c i es := by
  rcases withProc_cases h with ⟨rfl, -⟩ | ⟨p, -, he⟩
  · exact .nothing i hi
  · cases he
    exact .nothing i hi

theorem exec_emits (h : exec K s c r i = some (s', es)) : Emits K s c i es := by
  by_cases hst : ∃ d, i = .store d
  · obtain ⟨d, rfl⟩ := hst
    cases h
    exact .stored d
  rw [not_exists] at hst
  have hno : Emits K s c i [] := .nothing i hst
  cases i with
  | acquire l =>
    rw [exec, map_eq_some_iff] at h
    obtain ⟨s₁, -, he⟩ := h
    cases he
    exact hno
  | yield | sleep chan lk | exit | setPriority n => exact emits_of_call hst (some.inj h)
  | wakeup chan k =>
    rw [exec] at h
    split at h
    · split at h <;>
      · cases h
        exact hno
    · rename_i hk
      cases h
      split
      · rename_i hw
        rw [hw.1]
        exact .woke k (Nat.not_lt.1 hk) hw.2
      · exact hno
  | wait =>
    rcases withProc_cases (some.inj h) with ⟨rfl, -⟩ | ⟨p, hp, he⟩
    · exact hno
    · split at he
      · cases he
        exact .proceeded p ‹_› hp
      · cases he
        exact .slept p (Bool.eq_false_iff.2 ‹_›)
  | store d => exact absurd rfl (hst d)
  | alloc k =>
    rw [exec] at h
    split at h
    · cases h
      exact .alloc k ‹_›
    · cases h
      exact hno
  | boostScan k =>
    rw [exec] at h
    split at h <;>
    · cases h
      exact hno
  | scan prio k =>
    rw [exec] at h
    split at h
    · cases h
      exact hno
    · split at h <;>
      · cases h
        exact hno
  | sched =>
    have h := some.inj h
    rw [State.sched] at h
    split at h
    · cases h
      exact hno
    · rename_i p hp
      split at h
      · cases h
        exact hno
      · split at h
        · cases h
          exact hno
        · split at h
          · cases h
            exact hno
          · split at h
            · cases h
              exact hno
            · cases h
              exact .saved p
  | swtch k =>
    have h := some.inj h
    rw [State.swtch] at h
    split at h
    · cases h
      exact .resumed k
    · cases h
      exact hno
  | _ =>
    cases h
    exact hno

/-! ## Other acts -/

/-- What an act that is not an instruction does to the code of the thread on CPU `c`. -/
inductive Begins (s : State D) : Act D → Nat → List (Instr D) → Prop where
  | loop {c : Nat} (b : Bool) (hcode : s.code c = []) : Begins s (.loop c b) c (schedulerCode b)
  | call {c : Nat} {f : List (Instr D)} (hf : f.all Instr.ordinary = true) (hcode : s.code c = []) :
      Begins s (.call c f) c f
  | interrupt {c : Nat} {f : List (Instr D)} (hf : f.all Instr.ordinary = true)
      (hheld : (s.cpu c).held = []) : Begins s (.interrupt c f) c (f ++ .setIntr true :: s.code c)

/-- An act is an instruction, or begins other code. -/
theorem act_cases {a : Act D} (h : s.act K a = some (s', es)) :
    (∃ c i r, s.code c = i :: r ∧ exec K s c r i = some (s', es)) ∨
    ∃ c t r', es = [] ∧ (∀ i, Effect s c i t) ∧ Begins s a c r' ∧ s' = t.goto c r' := by
  cases a with
  | go c =>
    rw [State.act] at h
    split at h
    · cases h
    · exact .inl ⟨c, _, _, ‹_›, h⟩
  | loop c b =>
    rw [State.act] at h
    split at h
    · rename_i hc hcode
      cases h
      refine .inr ⟨c, s.setCpu c { s.cpu c with found := false }, _, rfl, fun i => ?_, .loop b ?_, ?_⟩
      · exact effect_setCpu rfl rfl fun _ => .inl
      · rw [code_sched hc, hcode]
      · rw [goto_sched (by rw [cpu_setCpu_self]; exact hc), cpu_setCpu_self, setCpu_setCpu]
        rfl
    · cases h
  | call c f =>
    rw [State.act] at h
    split at h
    · rename_i p hc hcode
      obtain ⟨⟨hf, -⟩, he⟩ := ite_none_right_eq_some.1 h
      cases he
      exact .inr ⟨c, s, f, rfl, Effect.refl s c, .call hf hcode, rfl⟩
    · cases h
  | interrupt c f =>
    obtain ⟨⟨-, hh, hf, -⟩, he⟩ := ite_none_right_eq_some.1 h
    cases he
    refine .inr ⟨c, s.setCpu c ((s.cpu c).setIntr false), _, rfl, fun i => ?_, .interrupt hf hh, rfl⟩
    exact effect_setCpu rfl rfl fun _ => .inl

/-! ## A property of all code -/

/-- The code of every thread has the property `G`. -/
structure Codes (G : List (Instr D) → Prop) (s : State D) : Prop where
  proc : ∀ p, G (s.proc p).code
  cpu : ∀ c, G (s.cpu c).code

section Codes

variable {G P : List (Instr D) → Prop}

theorem Codes.code (h : Codes G s) (c : Nat) : G (s.code c) := by
  rw [State.code]
  split
  · exact h.proc _
  · exact h.cpu c

theorem Codes.setProc (h : Codes G s) (hy : G y.code) : Codes G (s.setProc p y) := by
  refine ⟨fun q => ?_, h.cpu⟩
  by_cases hq : q = p
  · rw [hq, proc_setProc_self]
    exact hy
  · rw [proc_setProc_of_ne hq]
    exact h.proc q

theorem Codes.setCpu (h : Codes G s) (hx : G x.code) : Codes G (s.setCpu c x) := by
  refine ⟨h.proc, fun d => ?_⟩
  by_cases hd : d = c
  · rw [hd, cpu_setCpu_self]
    exact hx
  · rw [cpu_setCpu_of_ne hd]
    exact h.cpu d

theorem Codes.goto (h : Codes G s) (hr : G r) : Codes G (s.goto c r) := by
  rw [State.goto]
  split
  · exact h.setProc hr
  · exact h.setCpu hr

/-- `G` is kept by whatever the model does to code, if the other kernel code has `P`. -/
structure CodeRule (K : Cond D) (P G : List (Instr D) → Prop) : Prop where
  nil : G []
  forkret : ∀ k, G (forkretCode k)
  scheduler : ∀ b, G (schedulerCode b)
  next : ∀ {s c i r r'}, G (i :: r) → Next K s c i r r' → G r'
  suspend : ∀ {b r}, G (.sched :: r) → G (.setIntena b :: r)
  call : ∀ {f}, f.all Instr.ordinary = true → P f → G f
  interrupt : ∀ {me f r}, f.all Instr.ordinary = true → P f → lawful K me .run [] r = true → G r →
    G (f ++ .setIntr true :: r)

/-- The code that an act starts has `P`. -/
def Starts (P : List (Instr D) → Prop) (_ : State D) : Act D → Prop
  | .call _ f | .interrupt _ f => P f
  | _ => True

theorem CodeRule.effect (hG : CodeRule K P G) (he : Effect s c i t) (h : Codes G s) : Codes G t := by
  refine ⟨fun q => ?_, fun d => ?_⟩
  · rcases he.proc q with hq | ⟨-, -, hq⟩
    · rw [hq.1]
      exact h.proc q
    · rw [hq]
      exact hG.forkret q
  · by_cases hd : d = c
    · rw [hd, he.sched]
      exact h.cpu c
    · rw [he.cpu d hd]
      exact h.cpu d

theorem CodeRule.begins (hG : CodeRule K P G) (hi : Inv K s) (h : Codes G s) {a : Act D}
    (ha : Starts P s a) (hb : Begins s a c r) : G r := by
  cases hb with
  | loop b hcode => exact hG.scheduler b
  | call hf hcode => exact hG.call hf ha
  | interrupt hf hh =>
    have hl := hi.thread c
    rw [hh] at hl
    rw [ph_of_noLocks hl] at hl
    exact hG.interrupt hf ha hl (h.code c)

theorem CodeRule.act (hG : CodeRule K P G) (hi : Inv K s) (hp : s.panicked = none) (h : Codes G s)
    {a : Act D} (ha : Starts P s a) (hs : s.act K a = some (s', es)) : Codes G s' := by
  rcases act_cases hs with ⟨c, i, r, hcode, hx⟩ | ⟨c, t, r', -, he, hb, rfl⟩
  · have hir := h.code c
    rw [hcode] at hir
    rcases exec_cases_of_inv hi hp hcode hx with ⟨-, t, r', he, hn, rfl⟩ | ⟨rfl, p, -, -, rfl⟩ | ⟨k, rfl, -, -, rfl⟩
    · exact (hG.effect he h).goto (hG.next hir hn)
    · exact (h.setProc (hG.suspend hir)).setCpu (h.cpu c)
    · have hr : G r := hG.next hir (Next.skip (s := s) (c := c) ..)
      exact Codes.setCpu (h.setProc (h.proc k)) hr
  · exact (hG.effect (he .yield) h).goto (hG.begins hi h ha hb)

theorem codes_boot (hnil : G []) (hforkret : ∀ k, G (forkretCode k)) (d : D) : Codes G (boot d) := by
  refine ⟨fun p => ?_, fun c => hnil⟩
  by_cases hp : p = initproc
  · simp only [boot, hp, if_pos]
    exact hforkret _
  · simp only [boot, hp, if_neg, not_false_eq_true]
    exact hnil

/-- Every instruction of the code has behind it what `L` says. -/
def Each (L : Instr D → List (Instr D) → Prop) : List (Instr D) → Prop
  | [] => True
  | i :: r => L i r ∧ Each L r

theorem each_of_ordinary {L : Instr D → List (Instr D) → Prop} {f : List (Instr D)} (hL : ∀ i, i.ordinary = true → ∀ r, L i r)
    (hf : f.all Instr.ordinary = true) (hr : Each L r) : Each L (f ++ r) := by
  induction f with
  | nil => exact hr
  | cons i f ih =>
    rw [List.all_cons, Bool.and_eq_true] at hf
    exact ⟨hL i hf.1 _, ih hf.2⟩

end Codes

/-! ## What a change of code leaves -/

section Goto

variable (s : State D) (c : Nat) (r : List (Instr D))

/-- Nothing of a CPU but its code. -/
theorem cpu_goto (d : Nat) : ∃ r', (s.goto c r).cpu d = { s.cpu d with code := r' } := by
  cases hc : (s.cpu c).cur with
  | some p => exact ⟨_, by rw [goto_cur hc, cpu_setProc]⟩
  | none =>
    rw [goto_sched hc]
    by_cases hd : d = c
    · exact ⟨r, by rw [hd, cpu_setCpu_self]; rfl⟩
    · exact ⟨_, by rw [cpu_setCpu_of_ne hd]⟩

@[simp] theorem cur_goto (d : Nat) : ((s.goto c r).cpu d).cur = (s.cpu d).cur := by
  obtain ⟨r', h⟩ := cpu_goto s c r d
  rw [h]

@[simp] theorem held_goto (d : Nat) : ((s.goto c r).cpu d).held = (s.cpu d).held := by
  obtain ⟨r', h⟩ := cpu_goto s c r d
  rw [h]

@[simp] theorem data_goto : (s.goto c r).data = s.data := by
  rw [State.goto]
  split
  · rfl
  · rfl

@[simp] theorem code_goto : (s.goto c r).code c = r := by
  cases hc : (s.cpu c).cur with
  | some p =>
    rw [code_cur (by rw [cur_goto, hc]), goto_cur hc, proc_setProc_self]
  | none =>
    rw [code_sched (by rw [cur_goto, hc]), goto_sched hc, cpu_setCpu_self]
    rfl

variable {s c r}

theorem proc_goto_of_ne (h : (s.cpu c).cur ≠ some p) : (s.goto c r).proc p = s.proc p := by
  cases hc : (s.cpu c).cur with
  | some q =>
    have hne : p ≠ q := by
      rintro rfl
      exact h hc
    rw [goto_cur hc, proc_setProc_of_ne hne]
  | none => rw [goto_sched hc, proc_setCpu]

theorem proc_goto_cur (h : (s.cpu c).cur = some p) : (s.goto c r).proc p = { s.proc p with code := r } := by
  rw [goto_cur h, proc_setProc_self]

/-- Nothing of a process but its code. -/
theorem proc_goto (p : Nat) : ∃ r', (s.goto c r).proc p = { s.proc p with code := r' } := by
  by_cases h : (s.cpu c).cur = some p
  · exact ⟨r, proc_goto_cur h⟩
  · exact ⟨(s.proc p).code, proc_goto_of_ne h⟩

theorem cpu_goto_of_ne (h : d ≠ c) : (s.goto c r).cpu d = s.cpu d := by
  cases hc : (s.cpu c).cur with
  | some q => rw [goto_cur hc, cpu_setProc]
  | none => rw [goto_sched hc, cpu_setCpu_of_ne h]

theorem cpu_goto_cur (h : (s.cpu d).cur = some p) : (s.goto c r).cpu d = s.cpu d := by
  by_cases hd : d = c
  · rw [hd] at h ⊢
    rw [goto_cur h, cpu_setProc]
  · exact cpu_goto_of_ne hd

end Goto

theorem Effect.cur_eq (he : Effect s c i t) (d : Nat) : (t.cpu d).cur = (s.cpu d).cur := by
  by_cases hd : d = c
  · rw [hd]
    exact he.cur
  · rw [he.cpu d hd]

end Xv6.Switch
