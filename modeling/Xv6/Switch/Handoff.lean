import Xv6.Switch.Codes

/-!
# The hand-off between a scheduler and the processes

A CPU's scheduler thread and the thread of the process it runs pass `p->lock` to each other: the one
that switches has acquired it, the other releases it (`handed`). `Handed` says where this stands in
the code of every thread, and `scheduler_handoff` is the result, for every run from boot: no process
is on two CPUs, `RUNNING` says that a process is on one, no check of `release` and `sched` fails, and
no context is resumed twice.
-/

namespace Xv6.Switch

open List

variable {D : Type} {K : Cond D} {s s' t : State D} {c d p q k : Nat} {r r' : List (Instr D)} {i : Instr D}
  {y : Proc D} {es : List Event}

/-- The lock that the code releases first, before it acquires one. -/
def handed : List (Instr D) → Option LockId
  | .release l :: _ => some l
  | .setIntena _ :: r | .clearChan _ :: r | .leave _ :: r => handed r
  | _ => none

/-- What stands behind a switch. -/
def Behind : Instr D → List (Instr D) → Prop
  | .sched, r => (∃ q, handed r = some (.proc q)) ∨ ∃ r', r = .zombieExit :: r'
  | .pick _ k, r | .swtch k, r => handed r = some (.proc k)
  | _, _ => True

theorem behind_of_ordinary (i : Instr D) (h : i.ordinary = true) (r : List (Instr D)) : Behind i r := by
  cases i <;> trivial

theorem behind_codes : CodeRule K (fun _ => True) (Each (Behind (D := D))) where
  nil := trivial
  forkret _ := ⟨trivial, trivial⟩
  scheduler b := by cases b <;> simp [schedulerCode, Each, Behind]
  next h hn := by
    obtain ⟨hi, hr⟩ := h
    cases hn with
    | skip => exact hr
    | pick prio k r => exact ⟨trivial, hi, trivial, hr⟩
    | _ => simp [yieldCode, sleepCode, exitCode, Each, Behind, handed, hr]
  suspend h := ⟨trivial, h.2⟩
  call {f} hf _ := append_nil f ▸ each_of_ordinary behind_of_ordinary hf trivial
  interrupt hf _ _ hr := each_of_ordinary behind_of_ordinary hf ⟨trivial, hr⟩

/-- A process whose thread runs nowhere: it was never made, is new, or switched in `sched`. -/
inductive Parked (p : Nat) (y : Proc D) : Prop where
  | never (hcode : y.code = []) (hsaved : y.saved = false)
  | new (hcode : y.code = forkretCode p)
  | switched (b : Bool) (r : List (Instr D)) (hcode : y.code = .setIntena b :: r) (hr : Behind .sched r)

theorem Parked.congr {y' : Proc D} (h : Parked p y) (hcode : y'.code = y.code) (hsaved : y'.saved = y.saved) :
    Parked p y' := by
  cases h with
  | never hc hs => exact .never (hcode.trans hc) (hsaved.trans hs)
  | new hc => exact .new (hcode.trans hc)
  | switched b r hc hr => exact .switched b r (hcode.trans hc) hr

structure Handed (s : State D) : Prop where
  codes : Codes (Each Behind) s
  parked : ∀ p, (∀ c, (s.cpu c).cur ≠ some p) → Parked p (s.proc p)
  back : ∀ c p, (s.cpu c).cur = some p → handed (s.cpu c).code = some (.proc p)

theorem Handed.parked_goto (h : Handed s) (he : Effect s c i t) (hp : ∀ d, ((t.goto c r).cpu d).cur ≠ some p) :
    Parked p ((t.goto c r).proc p) := by
  simp only [cur_goto, he.cur_eq] at hp
  rw [proc_goto_of_ne (by rw [he.cur_eq]; exact hp c)]
  rcases he.proc p with hq | ⟨-, -, hq⟩
  · exact (h.parked p hp).congr hq.1 hq.2
  · rw [hq]
    exact .new rfl

theorem Handed.back_goto (h : Handed s) (he : Effect s c i t) (hp : ((t.goto c r).cpu d).cur = some p) :
    handed ((t.goto c r).cpu d).code = some (.proc p) := by
  rw [cur_goto] at hp
  rw [cpu_goto_cur hp]
  rw [he.cur_eq] at hp
  by_cases hd : d = c
  · rw [hd] at hp ⊢
    rw [he.sched]
    exact h.back c p hp
  · rw [he.cpu d hd]
    exact h.back d p hp

theorem Handed.leaves (h : Handed s) (hc : (s.cpu c).cur = some p) (hr : Behind .sched r)
    (hcodes : Codes (Each Behind) (Leaves s c p r)) : Handed (Leaves s c p r) := by
  have hcpu {d : Nat} (hd : d ≠ c) : (Leaves s c p r).cpu d = s.cpu d := cpu_setCpu_of_ne hd ..
  refine ⟨hcodes, fun q hq => ?_, fun d q hq => ?_⟩
  · by_cases hqp : q = p
    · rw [hqp, Leaves, proc_setCpu, proc_setProc_self]
      exact .switched _ r rfl hr
    · rw [Leaves, proc_setCpu, proc_setProc_of_ne hqp]
      refine h.parked q fun d hd => ?_
      by_cases hdc : d = c
      · rw [hdc, hc] at hd
        exact hqp (Option.some.inj hd).symm
      · rw [← hcpu hdc] at hd
        exact hq d hd
  · by_cases hdc : d = c
    · rw [hdc, Leaves, cpu_setCpu_self] at hq
      cases hq
    · rw [hcpu hdc] at hq ⊢
      exact h.back d q hq

theorem Handed.enters (h : Handed s) (hc : (s.cpu c).cur = none) (hr : Behind (.swtch k) r)
    (hcodes : Codes (Each Behind) (Enters s c k r)) : Handed (Enters s c k r) := by
  have hcpu {d : Nat} (hd : d ≠ c) : (Enters s c k r).cpu d = s.cpu d := cpu_setCpu_of_ne hd ..
  have hself : (Enters s c k r).cpu c = (s.cpu c).toProc k r := cpu_setCpu_self ..
  refine ⟨hcodes, fun q hq => ?_, fun d q hq => ?_⟩
  · have hqk : q ≠ k := by
      rintro rfl
      refine hq c ?_
      rw [hself]
      rfl
    rw [Enters, proc_setCpu, proc_setProc_of_ne hqk]
    refine h.parked q fun d hd => ?_
    by_cases hdc : d = c
    · rw [hdc, hc] at hd
      cases hd
    · rw [← hcpu hdc] at hd
      exact hq d hd
  · by_cases hdc : d = c
    · rw [hdc, hself] at hq ⊢
      cases hq
      exact hr
    · rw [hcpu hdc] at hq ⊢
      exact h.back d q hq

theorem handed_act (hi : Inv K s) (hp : s.panicked = none) (h : Handed s) {a : Act D}
    (hs : s.act K a = some (s', es)) : Handed s' := by
  have hcodes := behind_codes.act hi hp h.codes (a := a) (by cases a <;> trivial) hs
  rcases act_cases hs with ⟨c, i, r, hcode, hx⟩ | ⟨c, t, r', -, he, -, rfl⟩
  · have hir := h.codes.code c
    rw [hcode] at hir
    rcases exec_cases_of_inv hi hp hcode hx with ⟨-, t, r', he, -, rfl⟩ | ⟨rfl, p, hc, -, rfl⟩ | ⟨k, rfl, hc, -, rfl⟩
    · exact ⟨hcodes, fun _ => h.parked_goto he, fun _ _ => h.back_goto he⟩
    · exact h.leaves hc hir.1 hcodes
    · exact h.enters hc hir.1 hcodes
  · exact ⟨hcodes, fun _ => h.parked_goto (he .yield), fun _ _ => h.back_goto (he .yield)⟩

theorem handed_boot (d : D) : Handed (boot d) := by
  refine ⟨codes_boot trivial (fun _ => ⟨trivial, trivial⟩) d, fun p _ => ?_, fun c p h => ?_⟩
  · by_cases hp : p = initproc
    · exact .new (by simp only [boot, hp, if_pos])
    · exact .never (by simp only [boot, hp, if_neg, not_false_eq_true]) (by simp [boot, hp])
  · cases h

/-! ## Contexts -/

/-- `p->context` holds a thread that was not resumed since, after `e`. -/
def saves (p : Nat) (b : Bool) : Event → Bool
  | .saved q => b || q = p
  | .resumed q => b && q ≠ p
  | _ => b

/-- The same after the events of a run from boot. -/
def contextSaved (p : Nat) (es : List Event) : Bool := es.foldl (saves p) (p = initproc)

/-- The events that say nothing of contexts. -/
def Event.quiet : Event → Bool
  | .saved _ | .resumed _ => false
  | _ => true

theorem saves_of_quiet {e : Event} (h : e.quiet = true) (p : Nat) (b : Bool) : saves p b e = b := by
  cases e <;> first | rfl | cases h

/-- The contexts after the events of an instruction, and that it resumes a saved one. -/
structure Saves (s : State D) (es : List Event) (s' : State D) : Prop where
  saved : ∀ p, (s'.proc p).saved = es.foldl (saves p) (s.proc p).saved
  resumed : ∀ p, .resumed p ∈ es → es = [.resumed p] ∧ (s.proc p).saved = true
  single : es = [] ∨ ∃ e, es = [e]

theorem saved_goto (s : State D) (c : Nat) (r : List (Instr D)) (p : Nat) :
    ((s.goto c r).proc p).saved = (s.proc p).saved := by
  obtain ⟨r', h⟩ := proc_goto (s := s) (c := c) (r := r) p
  rw [h]

theorem saves_nil (h : ∀ p, (s'.proc p).saved = (s.proc p).saved) : Saves s [] s' where
  saved := h
  resumed _ h := absurd h not_mem_nil
  single := .inl rfl

theorem saves_quiet {e : Event} (he : e.quiet = true) (h : ∀ p, (s'.proc p).saved = (s.proc p).saved) : Saves s [e] s' where
  saved p := by
    rw [h p, foldl_cons, saves_of_quiet he, foldl_nil]
  resumed p hp := by
    rw [← mem_singleton.1 hp] at he
    cases he
  single := .inr ⟨e, rfl⟩

theorem saves_saved (hk : (s'.proc k).saved = true) (h : ∀ p, p ≠ k → (s'.proc p).saved = (s.proc p).saved) :
    Saves s [.saved k] s' where
  saved p := by
    by_cases hp : p = k
    · rw [hp, hk]
      simp [saves]
    · rw [h p hp]
      simp [saves, Ne.symm hp]
  resumed p hp := by cases mem_singleton.1 hp
  single := .inr ⟨_, rfl⟩

theorem saves_resumed (hs : (s.proc k).saved = true) (hk : (s'.proc k).saved = false)
    (h : ∀ p, p ≠ k → (s'.proc p).saved = (s.proc p).saved) : Saves s [.resumed k] s' where
  saved p := by
    by_cases hp : p = k
    · rw [hp, hk]
      simp [saves]
    · rw [h p hp]
      simp [saves, Ne.symm hp]
  resumed p hp := by
    cases mem_singleton.1 hp
    exact ⟨rfl, hs⟩
  single := .inr ⟨_, rfl⟩

theorem exec_saves (hi : Inv K s) (hp : s.panicked = none) (hcode : s.code c = i :: r)
    (h : exec K s c r i = some (s', es)) : Saves s es s' := by
  rcases exec_cases_of_inv hi hp hcode h with ⟨hsw, t, r', he, -, rfl⟩ | ⟨-, p, -, rfl, rfl⟩ | ⟨k, rfl, hc, rfl, rfl⟩
  · by_cases ha : ∃ k, i = .alloc k
    · obtain ⟨k, rfl⟩ := ha
      rw [exec] at h
      split at h
      · obtain ⟨hs, rfl⟩ := Prod.mk.inj (Option.some.inj h)
        rw [← hs]
        refine saves_saved ?_ fun p hpk => ?_
        · rw [saved_goto, proc_setProc_self]
          rfl
        · rw [saved_goto, proc_setProc_of_ne hpk]
      · obtain ⟨hs, rfl⟩ := Prod.mk.inj (Option.some.inj h)
        rw [← hs]
        exact saves_nil (saved_goto s c r)
    · have hsaved (p : Nat) : ((t.goto c r').proc p).saved = (s.proc p).saved := by
        rw [saved_goto]
        exact ((he.proc p).resolve_right fun h => ha ⟨p, h.1⟩).2
      cases exec_emits h with
      | nothing => exact saves_nil hsaved
      | saved | resumed => cases hsw
      | alloc k => exact absurd ⟨k, rfl⟩ ha
      | slept | proceeded | woke | stored => exact saves_quiet rfl hsaved
  · refine saves_saved ?_ fun q hq => ?_
    · rw [Leaves, proc_setCpu, proc_setProc_self]
      rfl
    · rw [Leaves, proc_setCpu, proc_setProc_of_ne hq]
  · rw [code_sched hc] at hcode
    obtain ⟨-, -, -, hready, -⟩ := entered_of_swtch hi hc hcode
    refine saves_resumed hready.saved ?_ fun q hq => ?_
    · rw [Enters, proc_setCpu, proc_setProc_self]
      rfl
    · rw [Enters, proc_setCpu, proc_setProc_of_ne hq]

theorem act_saves (hi : Inv K s) (hp : s.panicked = none) {a : Act D} (h : s.act K a = some (s', es)) : Saves s es s' := by
  rcases act_cases h with ⟨c, i, r, hcode, hx⟩ | ⟨c, t, r', rfl, he, -, rfl⟩
  · exact exec_saves hi hp hcode hx
  · refine saves_nil fun p => ?_
    rw [saved_goto]
    refine (((he .yield).proc p).resolve_right fun h => ?_).2
    cases h.1

/-- A resumed context is a saved one. -/
def ResumesSaved (pre : List Event) (e : Event) : Prop := ∀ p, e = .resumed p → contextSaved p pre = true

/-- Between two resumptions of a context it is saved. -/
theorem saved_between {pre mid post : List Event}
    (h : Along ResumesSaved (pre ++ .resumed p :: (mid ++ .resumed p :: post))) : .saved p ∈ mid := by
  have hsaved : contextSaved p (pre ++ .resumed p :: mid) = true := by
    refine h (pre ++ .resumed p :: mid) (.resumed p) post ?_ p rfl
    rw [append_assoc, cons_append]
  by_contra hno
  have hkeep (es : List Event) (hes : .saved p ∉ es) : es.foldl (saves p) false = false := by
    induction es with
    | nil => rfl
    | cons e es ih =>
      have he : saves p false e = false := by
        cases e with
        | saved q =>
          have hq : q ≠ p := by
            rintro rfl
            exact hes mem_cons_self
          simp [saves, hq]
        | _ => rfl
      rw [foldl_cons, he]
      exact ih fun hm => hes (mem_cons_of_mem e hm)
  rw [contextSaved, foldl_append, foldl_cons] at hsaved
  have hfirst (b : Bool) : saves p b (.resumed p) = false := by simp [saves]
  rw [hfirst, hkeep mid hno] at hsaved
  cases hsaved

/-! ## Runs -/

/-- What holds after the events `es` of a run from boot. -/
structure Reached (K : Cond D) (es : List Event) (s : State D) : Prop where
  inv : Inv K s
  panicked : s.panicked = none
  handed : Handed s
  saved : ∀ p, (s.proc p).saved = contextSaved p es
  resumed : Along ResumesSaved es

theorem reached_step (h : Reached K es s) {a : Act D} {es' : List Event} (hs : step K s a = some (s', es')) :
    Reached K (es ++ es') s' := by
  have hstep := inv_step h.inv hs
  rw [step, h.panicked] at hs
  have hact : s.act K a = some (s', es') := hs
  have hsaves := act_saves h.inv h.panicked hact
  refine ⟨hstep.1, hstep.2.trans h.panicked, handed_act h.inv h.panicked h.handed hact, fun p => ?_, ?_⟩
  · rw [hsaves.saved p, h.saved p, contextSaved, contextSaved, foldl_append]
  · rcases hsaves.single with rfl | ⟨e, rfl⟩
    · rw [append_nil]
      exact h.resumed
    · refine h.resumed.snoc fun p he => ?_
      rw [he] at hsaves
      rw [← h.saved p]
      exact (hsaves.resumed p (mem_singleton_self _)).2

theorem reached_boot (d : D) : Reached K [] (boot d) :=
  ⟨inv_boot d, rfl, handed_boot d, fun _ => rfl, .nil⟩

theorem reached_run {C : State D → Act D → Prop} {d : D} (h : Exec (step K) C (boot d) es s) : Reached K es s :=
  h.invariant (I := Reached K) (reached_boot d) fun hr _ hs => reached_step hr hs

/-- The process that a CPU has in `c->proc` is the one it is with. -/
theorem on_of_proc (hi : Inv K s) (h : (s.cpu c).proc = some p) : (s.cpu c).on = some p := by
  have hok := hi.cpu c
  cases hc : (s.cpu c).cur with
  | some q =>
    rw [((cpuOk_cur hc).1 hok).1] at h
    rw [on_of_cur hc, h]
  | none =>
    have hph := ((cpuOk_sched hc).1 hok).2
    rw [on_of_sched hc]
    rw [h] at hph
    cases hs : schedPh (s.cpu c).code with
    | entered k | back k =>
      rw [hs] at hph
      exact hph.1.symm
    | chosen k =>
      rw [hs] at hph
      cases hph.1
    | run | leaving st =>
      rw [hs] at hph
      cases hph

/-- CPU `c` has the lock of `p` and is switching to it or from it. -/
def Switching (s : State D) (c p : Nat) : Prop := (s.cpu c).on = some p ∧ s.lock (.proc p) = some c

theorem proc_of_running (hi : Inv K s) (h : (s.proc p).state = .running) :
    ∃ c, (s.cpu c).proc = some p ∨ Switching s c p := by
  by_contra hno
  refine (hi.free p fun c hon => hno ⟨c, ?_⟩).notRunning h
  have hok := hi.cpu c
  cases hc : (s.cpu c).cur with
  | some q =>
    rw [on_of_cur hc] at hon
    cases hon
    exact .inl ((cpuOk_cur hc).1 hok).1
  | none =>
    obtain ⟨hl, hph⟩ := (cpuOk_sched hc).1 hok
    have hsel := hon
    rw [on_of_sched hc] at hsel
    cases hs : schedPh (s.cpu c).code with
    | chosen k =>
      rw [hs] at hl hsel
      cases hsel
      have hheld := held_of_chosen hl
      refine .inr ⟨hon, (hi.spin.mem _ c).2 ?_⟩
      rw [hheld]
      exact mem_singleton_self _
    | entered k | back k =>
      rw [hs] at hph hsel
      cases hsel
      exact .inl hph.1
    | run | leaving st =>
      rw [hs] at hsel
      cases hsel

theorem running_of_proc (hi : Inv K s) (h : (s.cpu c).proc = some p) : (s.proc p).state = .running ∨ Switching s c p := by
  have hon := on_of_proc hi h
  exact (hi.running_or_held hon).imp_right fun hm => ⟨hon, (hi.spin.mem _ c).2 hm⟩

/-- A thread that was handed a lock has it. -/
theorem mem_of_handed {me : Option Nat} {h : List LockId} {l : LockId} (hl : lawful K me .run h r = true)
    (hr : handed r = some l) : l ∈ h := by
  induction r with
  | nil => cases hr
  | cons i r ih =>
    cases i with
    | release l' =>
      cases hr
      exact (lawful_release.1 hl).1
    | setIntena b =>
      simp only [lawful, Bool.and_eq_true] at hl
      exact ih hl.2 hr
    | clearChan p =>
      simp only [lawful, Bool.and_eq_true] at hl
      exact ih hl.2 hr
    | leave k => simp [lawful] at hl
    | _ => cases hr

theorem Parked.handed (h : Parked p y) (hready : Ready K p y) : handed y.code = some (.proc p) := by
  cases h with
  | never hcode hsaved =>
    rw [hready.saved] at hsaved
    cases hsaved
  | new hcode =>
    rw [hcode]
    rfl
  | switched b r hcode hr =>
    have hl := hready.code
    rw [hcode] at hl ⊢
    rcases hr with ⟨q, hq⟩ | ⟨r', rfl⟩
    · have hmem := mem_of_handed hl (l := .proc q) hq
      rw [mem_singleton] at hmem
      rw [hmem] at hq
      exact hq
    · simp [lawful] at hl

/-- At a switch to a process the scheduler has its lock, which the process then releases. -/
theorem handed_to_process (h : Reached K es s) (hcode : s.code c = .swtch p :: r) :
    s.lock (.proc p) = some c ∧ handed (s.proc p).code = some (.proc p) := by
  have hc : (s.cpu c).cur = none := by
    have hl := h.inv.thread c
    rw [hcode] at hl
    simp only [lawful, Bool.and_eq_true, decide_eq_true_eq] at hl
    exact hl.1.1.2
  rw [code_sched hc] at hcode
  obtain ⟨hh, hproc, -, hready, -⟩ := entered_of_swtch h.inv hc hcode
  refine ⟨(h.inv.spin.mem _ c).2 ?_, (h.handed.parked p fun d hd => ?_).handed hready⟩
  · rw [hh]
    exact mem_singleton_self _
  · cases h.inv.unique d c p (on_of_cur hd) (on_of_proc h.inv hproc)
    rw [hc] at hd
    cases hd

/-- At a switch from a process it has its lock, which the scheduler then releases. -/
theorem handed_to_scheduler (h : Reached K es s) (hc : (s.cpu c).cur = some p) (hcode : s.code c = .sched :: r) :
    s.lock (.proc p) = some c ∧ (s.cpu c).noff = 1 ∧ (s.proc p).state ≠ .running ∧
      handed (s.cpu c).code = some (.proc p) := by
  have hl := h.inv.thread c
  rw [hcode] at hl
  obtain ⟨hh, hrun, -⟩ := leaving_of_sched hc hl
  refine ⟨(h.inv.spin.mem _ c).2 ?_, ?_, hrun, h.handed.back c p hc⟩
  · rw [hh]
    exact mem_singleton_self _
  · rw [(h.inv.sound c).noff, hh]
    rfl

/-- In every state of every run, of any number of CPUs: a process is `c->proc` of at most one CPU,
and is `RUNNING` exactly then unless a CPU is switching to it or from it with its lock; the locks that
`sched` and `release` check are held; and no context is resumed twice without being saved. -/
theorem scheduler_handoff {d : D} (h : Exec (step K) Any (boot d) es s) :
    (∀ c c' p, (s.cpu c).proc = some p → (s.cpu c').proc = some p → c = c') ∧
    (∀ p, (s.proc p).state = .running → ∃ c, (s.cpu c).proc = some p ∨ Switching s c p) ∧
    (∀ c p, (s.cpu c).proc = some p → (s.proc p).state = .running ∨ Switching s c p) ∧
    (∀ c p r, s.code c = .swtch p :: r →
      s.lock (.proc p) = some c ∧ handed (s.proc p).code = some (.proc p)) ∧
    (∀ c p r, (s.cpu c).cur = some p → s.code c = .sched :: r →
      s.lock (.proc p) = some c ∧ (s.cpu c).noff = 1 ∧ (s.proc p).state ≠ .running ∧
        handed (s.cpu c).code = some (.proc p)) ∧
    s.panicked = none ∧
    ∀ p pre mid post, es = pre ++ .resumed p :: (mid ++ .resumed p :: post) → .saved p ∈ mid := by
  have hr := reached_run h
  refine ⟨fun c c' p hc hc' => ?_, fun p => proc_of_running hr.inv, fun c p => running_of_proc hr.inv,
    fun c p r => handed_to_process hr, fun c p r => handed_to_scheduler hr, hr.panicked,
    fun p pre mid post he => ?_⟩
  · exact hr.inv.unique c c' p (on_of_proc hr.inv hc) (on_of_proc hr.inv hc')
  · have hres := hr.resumed
    rw [he] at hres
    exact saved_between hres

/-- A condition on a number: that it is not zero. -/
def nonzero : Cond Nat := ⟨5, 7, fun n => n ≠ 0⟩

/-- `initproc` runs on CPU 0, yields, and runs on CPU 1. -/
def twoCpus : List (Act Nat) :=
  .loop 0 false :: List.replicate 8 (.go 0) ++ .go 0 :: .call 0 [.yield] :: List.replicate 6 (.go 0) ++
    .loop 1 false :: List.replicate 8 (.go 1)

theorem scheduler_handoff_twoCpus : ∃ es s, Exec (step nonzero) Any (boot 0) es s ∧
    (s.cpu 1).proc = some 0 ∧ (∀ c, (s.cpu c).proc = some 0 → c = 1) ∧ s.panicked = none ∧
    ∃ mid, es = .resumed 0 :: (mid ++ [.resumed 0]) ∧ .saved 0 ∈ mid := by
  obtain ⟨es, s, hx, hes, hproc⟩ : ∃ es s, Exec (step nonzero) Any (boot 0) es s ∧
      es = [.resumed 0, .saved 0, .resumed 0] ∧ (s.cpu 1).proc = some 0 :=
    exists_exec (fun _ _ => of_decide_eq_true) twoCpus (by decide +kernel)
  obtain ⟨huniq, -, -, -, -, hpan, hsaved⟩ := scheduler_handoff hx
  exact ⟨es, s, hx, hproc, fun c hc => huniq c 1 0 hc hproc, hpan, [.saved 0], hes,
    hsaved 0 [] [.saved 0] [] hes⟩

end Xv6.Switch
