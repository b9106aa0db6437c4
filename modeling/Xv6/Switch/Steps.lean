import Xv6.Switch.Inv

/-!
# Threads and locks: the steps

What each instruction does to the invariant, and that it does not panic: `inv_step`.
-/

namespace Xv6.Switch

open Function (update update_eq_self)

variable {D : Type} {K : Cond D} {s s' : State D} {c p q k : Nat} {r : List (Instr D)} {l : LockId}
  {x : Cpu D} {y : Proc D} {es : List Event}

/-! ## CPUs and processes -/

theorem sound_pushOff (h : x.Sound) (l : LockId) : (x.pushOff l).Sound :=
  ⟨congrArg Nat.succ h.noff, fun _ => rfl⟩

theorem sound_popOff (h : x.Sound) (hl : l ∈ x.held) : (x.popOff l).Sound := by
  have hlen := List.length_erase_of_mem hl
  refine ⟨?_, fun hne => ?_⟩
  · change x.noff - 1 = (x.held.erase l).length
    rw [h.noff, hlen]
  · have hpos : x.noff - 1 ≠ 0 := by
      rw [h.noff, ← hlen]
      exact fun h0 => hne (List.length_eq_zero_iff.1 h0)
    have hno : ¬(x.noff - 1 = 0 ∧ x.intena = true) := fun h => hpos h.1
    simp only [Cpu.popOff, if_neg hno]
    exact h.intr (List.ne_nil_of_mem hl)

@[simp] theorem panicked_goto (s : State D) (c : Nat) (r : List (Instr D)) : (s.goto c r).panicked = s.panicked := by
  rw [State.goto]
  split
  · rfl
  · rfl

theorem ph_setProc (h : (s.cpu c).cur = some k → y.state = (s.proc k).state) : (s.setProc k y).ph c = s.ph c := by
  cases hc : (s.cpu c).cur with
  | some p =>
    rw [ph_cur hc, ph_cur (by exact hc)]
    by_cases hpk : p = k
    · subst hpk
      rw [proc_setProc_self, Proc.phase, h hc, Proc.phase]
    · rw [proc_setProc_of_ne hpk]
  | none => rw [ph_sched hc, ph_sched (by exact hc)]; rfl

/-- The process that a CPU is with runs, unless it is leaving. -/
theorem running_of_on (hph : s.ph c = .run) (h : (s.cpu c).on = some p) : (s.proc p).state = .running := by
  cases hc : (s.cpu c).cur with
  | some q =>
    rw [on_of_cur hc] at h
    cases h
    rw [ph_cur hc, Proc.phase] at hph
    by_contra hr
    rw [if_neg hr] at hph
    cases hph
  | none =>
    rw [on_of_sched hc, ← ph_sched hc, hph] at h
    cases h

/-- A process that is woken or started keeps its saved context. -/
theorem free_runnable (h : Free K k y) (hst : y.state = .used ∨ y.state = .sleeping) :
    Free K k { y with state := .runnable } := by
  have hready := h.ready (hst.imp_right .inr)
  exact ⟨ProcState.noConfusion, fun _ => ⟨hready.saved, hready.code⟩⟩

theorem same_boost (y : Proc D) : y.Same y.boost := by
  rw [Proc.boost]
  split
  · exact ⟨rfl, rfl, rfl⟩
  · exact Proc.Same.refl y

/-! ## Codes -/

theorem lawful_yieldCode (hr : lawful K (some p) .run [] r = true) :
    lawful K (some p) .run [] (yieldCode p ++ r) = true := by
  simp [yieldCode, lawful, hr]

theorem lawful_sleepCode {chan lk : Nat} (hr : lawful K (some p) .run [.other lk] r = true) :
    lawful K (some p) .run [.other lk] (sleepCode p chan lk ++ r) = true := by
  simp [sleepCode, lawful, hr]

theorem lawful_exitCode : lawful K (some p) .run [waitLock] (exitCode p ++ r) = true := by
  simp [exitCode, lawful, waitLock]

theorem ph_of_noLocks {me : Option Nat} {ph : Ph} (hl : lawful K me ph [] r = true) : ph = .run := by
  cases r with
  | nil => exact (Bool.and_eq_true_iff.1 hl).1 |> of_decide_eq_true
  | cons i r => cases i <;> simp_all [lawful]

theorem lawful_schedulerCode (boost : Bool) : lawful K none .run [] (schedulerCode boost) = true := by
  cases boost <;> simp [schedulerCode, lawful]

/-- The process that switches has left `RUNNING`. -/
theorem leaving_of_sched (hc : (s.cpu c).cur = some p)
    (hl : lawful K (s.cpu c).cur (s.ph c) (s.cpu c).held (.sched :: r) = true) : (s.cpu c).held = [.proc p] ∧
    (s.proc p).state ≠ .running ∧ ((s.proc p).state = .zombie ∨ lawful K (some p) .run [.proc p] r = true) := by
  obtain ⟨⟨q, hq, hh⟩, hst⟩ := lawful_sched.1 hl
  rw [hc] at hq
  cases hq
  have hrun : (s.proc p).state ≠ .running := by
    intro hrun
    rw [ph_cur hc, Proc.phase, if_pos hrun] at hst
    rcases hst with h | ⟨h | h, -⟩ <;> cases h
  rw [ph_cur hc, Proc.phase, if_neg hrun, hc, hh] at hst
  exact ⟨hh, hrun, hst.imp Ph.leaving.inj And.right⟩

section Inv

variable (hi : Inv K s)
include hi

/-! ## Acquire and release -/

theorem inv_acquire (hsch : (s.cpu c).cur = none → s.ph c = .run)
    (hl : lawful K (s.cpu c).cur (s.ph c) (s.cpu c).held (.acquire l :: r) = true)
    (h : s.acquire c l r = some s') : Inv K s' ∧ s'.panicked = s.panicked := by
  obtain ⟨hph, hnot, hr⟩ := lawful_acquire.1 hl
  rw [State.acquire] at h
  split at h
  · rename_i hfree
    cases h
    refine ⟨?_, panicked_goto ..⟩
    refine hi.goto rfl rfl rfl (hi.spin.acquire hfree) (sound_pushOff (hi.sound c) l) hsch ?_
    rw [hph]
    exact hr
  · rename_i c' hc'
    split at h
    · rename_i he
      rw [he] at hc'
      exact absurd ((hi.spin.mem l c).1 hc') hnot
    · cases h

theorem inv_release (hsch : (s.cpu c).cur = none → s.ph c = .run) (hl : l ∈ (s.cpu c).held)
    (hr : lawful K (s.cpu c).cur (s.ph c) ((s.cpu c).held.erase l) r = true) :
    Inv K (s.release c l r) ∧ (s.release c l r).panicked = s.panicked := by
  have hlock := (hi.spin.mem l c).2 hl
  have hsound := hi.sound c
  have hintr := hsound.intr (List.ne_nil_of_mem hl)
  have hnoff : ¬ (s.cpu c).noff < 1 := by
    rw [hsound.noff]
    exact Nat.not_lt.2 (List.length_pos_of_mem hl)
  rw [State.release, if_neg (not_not.2 hlock), hintr, if_neg Bool.false_ne_true, if_neg hnoff]
  refine ⟨?_, panicked_goto ..⟩
  exact hi.goto rfl rfl rfl (hi.spin.release hlock) (sound_popOff hsound hl) hsch hr

/-! ## Changes of a process -/

/-- A change that the invariant does not see. -/
theorem Inv.relabel (hy : (s.proc k).Same y) : Inv K (s.setProc k y) := by
  have hsame (p : Nat) : (s.proc p).Same ((s.setProc k y).proc p) := by
    by_cases hp : p = k
    · rw [hp, proc_setProc_self]
      exact hy
    · rw [proc_setProc_of_ne hp]
      exact Proc.Same.refl _
  refine ⟨hi.spin, hi.sound, hi.unique, fun c => (hi.cpu c).congr fun p _ => hsame p,
    fun p hp => (hi.free p hp).congr (hsame p), fun p hp => ?_⟩
  rw [(hsame p).state]
  exact hi.bound p hp

/-- A change of a process that no CPU is with. -/
theorem Inv.edit (hfree : ∀ d, (s.cpu d).on ≠ some k) (hy : Free K k y)
    (hb : NPROC ≤ k → y.state = .unused) : Inv K (s.setProc k y) := by
  refine hi.frame (c := 0) (· = k) ?_ (fun _ _ => rfl) ?_ hi.spin (hi.sound 0) (fun _ h => .inr h)
    (fun _ h => .inr h) ?_ ?_ ?_
  · rintro q rfl
    exact .inr hfree
  · exact fun q hq => proc_setProc_of_ne hq ..
  · refine (hi.cpu 0).congr fun p hp => ?_
    have hpk : p ≠ k := by
      rintro rfl
      exact hfree 0 hp
    rw [proc_setProc_of_ne hpk]
    exact Proc.Same.refl _
  · rintro q rfl -
    rw [proc_setProc_self]
    exact hy
  · rintro q rfl h
    rw [proc_setProc_self]
    exact hb h

/-- The running process changes its own state. -/
theorem Inv.ownGoto (hc : (s.cpu c).cur = some p) (hph : s.ph c = .run)
    (hsaved : y.saved = (s.proc p).saved) {st : ProcState} (hst : y.state = st) (hne : st ≠ .running)
    (hr : lawful K (some p) (.leaving st) (s.cpu c).held r = true) : Inv K ((s.setProc p y).goto c r) := by
  have hok := (cpuOk_cur hc).1 (hi.cpu c)
  have hrun := running_of_on hph (on_of_cur hc)
  have hspin : Spin s.lock (update (fun d => (s.cpu d).held) c (s.cpu c).held) := by
    rw [update_eq_self]
    exact hi.spin
  rw [goto_cur (by exact hc)]
  have hset : (s.setProc p y).setProc p { (s.setProc p y).proc p with code := r } =
      (s.setCpu c (s.cpu c)).setProc p { y with code := r } := by
    rw [setCpu_self, proc_setProc_self]
    simp only [State.setProc, Function.update_idem]
  rw [hset]
  refine hi.own hc hc hok.1 rfl hspin (hi.sound c) (hsaved.trans hok.2.1) ?_ fun hb => ?_
  · have hphase : ({ y with code := r } : Proc D).phase = .leaving st := by
      rw [Proc.phase]
      dsimp only
      rw [hst, if_neg hne]
    rw [hphase]
    exact hr
  · rw [hi.bound p hb] at hrun
    cases hrun

/-! ## Switches -/

/-- A step between a scheduler thread and the process `q` that it is with, or picks or leaves. -/
theorem Inv.switch (hq : (s.cpu c).on = some q ∨ ∀ d, (s.cpu d).on ≠ some q) (hheld : x.held = (s.cpu c).held)
    (hsound : x.Sound) (hon : x.on = some q ∨ x.on = none) (hoff : (s.cpu c).on = some q ∨ (s.cpu c).on = none)
    (hok : CpuOk K x (s.setProc q y).proc) (hfree : x.on ≠ some q → Free K q y)
    (hbound : NPROC ≤ q → y.state = .unused) : Inv K ((s.setProc q y).setCpu c x) := by
  have heq {o : Option Nat} {p : Nat} (h : o = some q ∨ o = none) (hp : o = some p) : p = q := by
    rw [hp] at h
    exact h.elim Option.some.inj nofun
  have hcx : ((s.setProc q y).setCpu c x).cpu c = x := cpu_setCpu_self ..
  refine hi.frame (c := c) (· = q) ?_ (fun d hd => cpu_setCpu_of_ne hd ..)
    (fun p hp => proc_setProc_of_ne hp ..) ?_ ?_ ?_ ?_ ?_ ?_ ?_
  · rintro p rfl
    exact hq
  · rw [held_setCpu, hheld]
    have hspin := hi.spin
    rwa [← update_eq_self c fun d => (s.cpu d).held] at hspin
  · rw [hcx]
    exact hsound
  · intro p hp
    rw [hcx] at hp
    exact .inl (heq hon hp)
  · exact fun p hp => .inl (heq hoff hp)
  · rw [hcx]
    exact hok
  · rintro p rfl hne
    rw [hcx] at hne
    rw [proc_setCpu, proc_setProc_self]
    exact hfree hne
  · rintro p rfl hb
    rw [proc_setCpu, proc_setProc_self]
    exact hbound hb

/-- The thread of process `p` has switched to the scheduler. -/
def Leaves (s : State D) (c p : Nat) (r : List (Instr D)) : State D :=
  (s.setProc p ((s.proc p).suspend (.setIntena (s.cpu c).intena :: r))).setCpu c (s.cpu c).toSched

/-- The scheduler has switched to the thread of process `k`. -/
def Enters (s : State D) (c k : Nat) (r : List (Instr D)) : State D :=
  (s.setProc k (s.proc k).resume).setCpu c ((s.cpu c).toProc k r)

/-- The checks of `sched` pass. -/
theorem sched_eq (hc : (s.cpu c).cur = some p) (hl : lawful K (s.cpu c).cur (s.ph c) (s.cpu c).held (.sched :: r) = true) :
    s.sched c r = (Leaves s c p r, [.saved p]) := by
  obtain ⟨hh, hrun, -⟩ := leaving_of_sched hc hl
  have hsound := hi.sound c
  have hmem : .proc p ∈ (s.cpu c).held := by
    rw [hh]
    exact List.mem_singleton_self _
  have hlock := (hi.spin.mem _ c).2 hmem
  have hnoff : (s.cpu c).noff = 1 := by
    rw [hsound.noff, hh]
    rfl
  have hintr := hsound.intr (List.ne_nil_of_mem hmem)
  rw [State.sched, ((cpuOk_cur hc).1 (hi.cpu c)).1]
  dsimp only
  rw [if_neg (not_not.2 hlock), if_neg (not_not.2 hnoff), if_neg hrun, hintr, if_neg Bool.false_ne_true]
  rfl

theorem inv_leaves (hc : (s.cpu c).cur = some p)
    (hl : lawful K (s.cpu c).cur (s.ph c) (s.cpu c).held (.sched :: r) = true) : Inv K (Leaves s c p r) := by
  obtain ⟨hh, hrun, hst⟩ := leaving_of_sched hc hl
  obtain ⟨hproc, -, -, hcode⟩ := (cpuOk_cur hc).1 (hi.cpu c)
  have hsound := hi.sound c
  -- the thread is resumed with its lock, unless it has exited
  have hfree : Free K p ((s.proc p).suspend (.setIntena (s.cpu c).intena :: r)) := by
    refine ⟨hrun, fun hr => ⟨rfl, ?_⟩⟩
    rcases hst with h | h
    · have hz : ((s.proc p).suspend (.setIntena (s.cpu c).intena :: r)).state = .zombie := h
      rw [hz] at hr
      rcases hr with h | h | h <;> cases h
    · simp [Proc.suspend, lawful, h]
  have hback := (schedPh_of_back hcode).1
  have hon : (s.cpu c).toSched.on = some p := by
    rw [on_of_sched rfl, Cpu.toSched, hback]
    rfl
  refine hi.switch (.inl (on_of_cur hc)) rfl { hsound with } (.inl hon) (.inl (on_of_cur hc)) ?_ (fun _ => hfree) (hi.bound p)
  rw [cpuOk_sched rfl, Cpu.toSched]
  dsimp only
  rw [hback, hh]
  refine ⟨hcode, hproc, ?_⟩
  rw [proc_setProc_self]
  exact hfree

/-- The scheduler that is about to switch to a process has its lock, and its context. -/
theorem entered_of_swtch (hc : (s.cpu c).cur = none) (hcode : (s.cpu c).code = .swtch k :: r) :
    (s.cpu c).held = [.proc k] ∧ (s.cpu c).proc = some k ∧ (s.proc k).state = .running ∧
      Ready K k (s.proc k) ∧ lawful K none (.back k) [.proc k] r = true := by
  have hok := (cpuOk_sched hc).1 (hi.cpu c)
  rw [hcode] at hok
  obtain ⟨hl, hproc, hrun, hready⟩ := hok
  simp only [lawful, schedPh, Bool.and_eq_true, decide_eq_true_eq, true_and] at hl
  obtain ⟨hh, hr⟩ := hl
  rw [hh] at hr
  exact ⟨hh, hproc, hrun, hready, hr⟩

theorem swtch_eq (hc : (s.cpu c).cur = none) (hcode : (s.cpu c).code = .swtch k :: r) :
    s.swtch c k r = (Enters s c k r, [.resumed k]) := by
  obtain ⟨-, -, -, hready, -⟩ := entered_of_swtch hi hc hcode
  rw [State.swtch, if_pos hready.saved]
  rfl

theorem inv_enters (hc : (s.cpu c).cur = none) (hcode : (s.cpu c).code = .swtch k :: r) : Inv K (Enters s c k r) := by
  obtain ⟨hh, hproc, hrun, hready, hr⟩ := entered_of_swtch hi hc hcode
  have hcon : (s.cpu c).on = some k := by
    rw [on_of_sched hc, hcode]
    rfl
  refine hi.switch (.inl hcon) rfl { hi.sound c with } (.inl (on_of_cur rfl)) (.inl hcon) ?_ ?_ (hi.bound k)
  · rw [cpuOk_cur rfl, proc_setProc_self]
    refine ⟨hproc, rfl, ?_, hr⟩
    have hphase : (s.proc k).resume.phase = .run := if_pos hrun
    rw [hphase]
    change lawful K (some k) .run (s.cpu c).held (s.proc k).code = true
    rw [hh]
    exact hready.code
  · exact fun hne => absurd (on_of_cur rfl) hne

theorem inv_pick {prio : Nat} (hph : s.ph c = .run)
    (hl : lawful K (s.cpu c).cur .run (s.cpu c).held (.pick prio k :: r) = true) : Inv K (s.pick c prio k r) := by
  simp only [lawful, Bool.and_eq_true, decide_eq_true_eq, true_and] at hl
  obtain ⟨⟨hc, hh⟩, hr⟩ := hl
  rw [State.pick]
  split
  · rename_i hst
    have hmem : .proc k ∈ (s.cpu c).held := by
      rw [hh]
      exact List.mem_singleton_self _
    have hnr : (s.proc k).state ≠ .running := by
      rw [hst.1]
      exact ProcState.noConfusion
    have hcon : (s.cpu c).on = none := by
      rw [on_of_sched hc, ← ph_sched hc, hph]
      rfl
    have hfree := hi.free_of_held hmem hnr (by rw [hcon]; exact (Option.some_ne_none k).symm)
    have hch : (s.proc k).change .runnable .running = { s.proc k with state := .running } := if_pos hst.1
    have hproc := ((cpuOk_sched hc).1 (hi.cpu c)).2
    rw [← ph_sched hc, hph] at hproc
    have hon : ((s.cpu c).at (.enter k :: .swtch k :: .leave k :: r)).on = some k := on_of_sched hc
    rw [goto_sched (by exact hc), cpu_setProc]
    refine hi.switch (.inr hfree) rfl { hi.sound c with } (.inl hon) (.inr hcon) ?_ ?_ ?_
    · refine (cpuOk_sched (by exact hc)).2 ⟨?_, hproc, ?_, ?_⟩
      · change lawful K none (.chosen k) (s.cpu c).held _ = true
        rw [hc] at hr
        rw [hh] at hr ⊢
        simp [Cpu.at, lawful, hr]
      · rw [proc_setProc_self, hch]
      · have hready := (hi.free k hfree).ready (.inr (.inl hst.1))
        rw [proc_setProc_self, hch]
        exact ⟨hready.saved, hready.code⟩
    · exact fun hne => absurd hon hne
    · intro hb
      rw [hi.bound k hb] at hst
      cases hst.1
  · refine hi.continue (fun _ => hph) ?_
    rw [hph]
    exact hr

theorem inv_enter (hc : (s.cpu c).cur = none) (hcode : (s.cpu c).code = .enter k :: r) :
    Inv K ((s.setCpu c ((s.cpu c).enter k)).goto c r) := by
  have hok := (cpuOk_sched hc).1 (hi.cpu c)
  rw [hcode] at hok
  obtain ⟨hl, -, hrun, hready⟩ := hok
  simp only [lawful, schedPh, Bool.and_eq_true, decide_eq_true_eq, true_and] at hl
  obtain ⟨hh, hr⟩ := hl
  have hph := schedPh_of_entered hr
  have hcon : (s.cpu c).on = some k := by
    rw [on_of_sched hc, hcode]
    rfl
  have hon : (((s.cpu c).enter k).at r).on = some k := by
    rw [on_of_sched (by exact hc), Cpu.at, hph]
    rfl
  rw [goto_sched (by rw [cpu_setCpu_self]; exact hc), cpu_setCpu_self, setCpu_setCpu]
  suffices h : Inv K ((s.setProc k (s.proc k)).setCpu c (((s.cpu c).enter k).at r)) by
    rwa [setProc_self] at h
  refine hi.switch (.inl hcon) rfl { hi.sound c with } (.inl hon) (.inl hcon) ?_ ?_ (hi.bound k)
  · rw [setProc_self, cpuOk_sched (by exact hc)]
    change lawful K none (schedPh r) (s.cpu c).held r = true ∧ PhOk K s.proc (some k) (schedPh r)
    rw [hph]
    exact ⟨hr, rfl, hrun, hready⟩
  · exact fun hne => absurd hon hne

theorem inv_leave (hc : (s.cpu c).cur = none) (hcode : (s.cpu c).code = .leave k :: r) :
    Inv K ((s.setCpu c (s.cpu c).leave).goto c r) := by
  have hok := (cpuOk_sched hc).1 (hi.cpu c)
  rw [hcode] at hok
  obtain ⟨hl, -, hfree⟩ := hok
  simp only [lawful, schedPh, Bool.and_eq_true, decide_eq_true_eq, true_and] at hl
  obtain ⟨hh, hr⟩ := hl
  have hph := schedPh_of_run hr
  have hcon : (s.cpu c).on = some k := by
    rw [on_of_sched hc, hcode]
    rfl
  have hon : ((s.cpu c).leave.at r).on = none := by
    rw [on_of_sched (by exact hc), Cpu.at, hph]
    rfl
  rw [goto_sched (by rw [cpu_setCpu_self]; exact hc), cpu_setCpu_self, setCpu_setCpu]
  suffices h : Inv K ((s.setProc k (s.proc k)).setCpu c ((s.cpu c).leave.at r)) by
    rwa [setProc_self] at h
  refine hi.switch (.inl hcon) rfl { hi.sound c with } (.inr hon) (.inl hcon) ?_ (fun _ => hfree) (hi.bound k)
  rw [setProc_self, cpuOk_sched (by exact hc)]
  change lawful K none (schedPh r) (s.cpu c).held r = true ∧ PhOk K s.proc none (schedPh r)
  rw [hph]
  exact ⟨hr, rfl⟩

/-! ## Instructions -/

section Goto

/-! The thread of CPU `c` is outside of a switch, and goes on. -/

variable (hph : s.ph c = .run) (hr : lawful K (s.cpu c).cur .run (s.cpu c).held r = true)
include hph hr

theorem Inv.runGoto : Inv K (s.goto c r) ∧ (s.goto c r).panicked = s.panicked := by
  refine ⟨hi.continue (fun _ => hph) ?_, panicked_goto ..⟩
  rw [hph]
  exact hr

/-- The CPU changes without its locks, and the thread goes on. -/
theorem Inv.cpuGoto (hcur : x.cur = (s.cpu c).cur) (hxp : x.proc = (s.cpu c).proc) (hcode : x.code = (s.cpu c).code)
    (hheld : x.held = (s.cpu c).held) (hsound : x.Sound) : Inv K ((s.setCpu c x).goto c r) := by
  have hspin : Spin s.lock (update (fun d => (s.cpu d).held) c x.held) := by
    rw [hheld, update_eq_self]
    exact hi.spin
  refine hi.goto hcur hxp hcode hspin hsound (fun _ => hph) ?_
  rw [hph, hheld]
  exact hr

/-- CPU `c` changes a process that does not run, with its lock, and the thread goes on. -/
theorem Inv.editGoto (hk : .proc k ∈ (s.cpu c).held) (hst : (s.proc k).state ≠ .running) (hy : Free K k y)
    (hb : NPROC ≤ k → y.state = .unused) : Inv K ((s.setProc k y).goto c r) := by
  have hnot : (s.cpu c).on ≠ some k := fun h => hst (running_of_on hph h)
  have hph' := (ph_setProc (y := y) fun hc => absurd (on_of_cur hc) hnot).trans hph
  refine (hi.edit (hi.free_of_held hk hst hnot) hy hb).continue (fun _ => hph') ?_
  rw [hph']
  exact hr

theorem Inv.sameGoto (hy : (s.proc k).Same y) : Inv K ((s.setProc k y).goto c r) := by
  have hph' := (ph_setProc fun _ => hy.state).trans hph
  refine (hi.relabel hy).continue (fun _ => hph') ?_
  rw [hph']
  exact hr

/-- A change of process `k` by a thread that has its lock, if it is one at all. -/
theorem Inv.change (hk : .proc k ∈ (s.cpu c).held)
    (hy : y = s.proc k ∨ (s.proc k).state ≠ .running ∧ (Free K k (s.proc k) → Free K k y) ∧
      (NPROC ≤ k → y.state = .unused)) : Inv K ((s.setProc k y).goto c r) := by
  rcases hy with rfl | ⟨hst, hfree, hb⟩
  · rw [setProc_self]
    exact (hi.runGoto hph hr).1
  · have hnot : (s.cpu c).on ≠ some k := fun h => hst (running_of_on hph h)
    exact hi.editGoto hph hr hk hst (hfree (hi.free k (hi.free_of_held hk hst hnot))) hb

theorem Inv.makeRunnable (hk : .proc k ∈ (s.cpu c).held) {P : Prop} [Decidable P]
    (hst : P → (s.proc k).state = .used ∨ (s.proc k).state = .sleeping) :
    Inv K ((s.setProc k (if P then { s.proc k with state := .runnable } else s.proc k)).goto c r) := by
  refine hi.change hph hr hk ?_
  split
  · rename_i hP
    have hst := hst hP
    refine .inr ⟨fun h => ?_, fun hf => free_runnable hf hst, fun hb => ?_⟩
    · rw [h] at hst
      rcases hst with h | h <;> cases h
    · rw [hi.bound k hb] at hst
      rcases hst with h | h <;> cases h
  · exact .inl rfl

theorem inv_free (hk : .proc k ∈ (s.cpu c).held) : Inv K ((s.setProc k (s.proc k).free).goto c r) := by
  refine hi.change hph hr hk ?_
  rw [Proc.free]
  split
  · rename_i hst
    refine .inr ⟨fun h => ?_, fun _ => ⟨ProcState.noConfusion, fun h => ?_⟩, fun _ => rfl⟩
    · rw [h] at hst
      rcases hst with h | h <;> cases h
    · rcases h with h | h | h <;> cases h
  · exact .inl rfl

theorem inv_alloc (hk : .proc k ∈ (s.cpu c).held) (hlt : k < NPROC) (hst : (s.proc k).state = .unused) :
    Inv K ((s.setProc k ((s.proc k).alloc k)).goto c r) := by
  refine hi.change hph hr hk (.inr ⟨fun h => ?_, fun _ => ⟨ProcState.noConfusion, fun _ => ⟨rfl, ?_⟩⟩, ?_⟩)
  · rw [hst] at h
    cases h
  · simp [Proc.alloc, forkretCode, lawful]
  · exact fun hb => absurd hlt (Nat.not_lt.2 hb)

end Goto

theorem Inv.setData (d : D) : Inv K { s with data := d } := { hi with }

/-- In the thread of a process `myproc()` is this process. -/
theorem Inv.withProc (hme : (s.cpu c).cur.isSome = true) {f : Nat → State D × List Event} :
    ∃ p, (s.cpu c).cur = some p ∧ s.withProc c f = f p := by
  obtain ⟨p, hp⟩ := Option.isSome_iff_exists.1 hme
  have hok := (cpuOk_cur hp).1 (hi.cpu c)
  exact ⟨p, hp, by rw [State.withProc, hok.1]⟩

/-- The thread of a process goes on at code that `f` makes for it. -/
theorem Inv.call (hph : s.ph c = .run) (hme : (s.cpu c).cur.isSome = true) {f : Nat → List (Instr D)}
    (hr : ∀ p, (s.cpu c).cur = some p → lawful K (some p) .run (s.cpu c).held (f p ++ r) = true)
    (h : s.withProc c (fun p => (s.goto c (f p ++ r), [])) = (s', es)) : Inv K s' ∧ s'.panicked = s.panicked := by
  obtain ⟨p, hp, he⟩ := hi.withProc hme (f := fun p => (s.goto c (f p ++ r), []))
  rw [he] at h
  cases h
  refine hi.runGoto hph ?_
  rw [hp]
  exact hr p hp

theorem inv_wait (hl : lawful K (s.cpu c).cur (s.ph c) (s.cpu c).held (.wait :: r) = true)
    (h : exec K s c r .wait = some (s', es)) : Inv K s' ∧ s'.panicked = s.panicked := by
  have hl' := hl
  simp only [lawful, Bool.and_eq_true, decide_eq_true_eq] at hl
  obtain ⟨⟨⟨hph, hme⟩, hh⟩, hr⟩ := hl
  rw [exec] at h
  have h := Option.some.inj h
  obtain ⟨p, hp, he⟩ := hi.withProc hme
  rw [he] at h
  split at h
  · cases h
    exact hi.runGoto hph hr
  · cases h
    refine hi.runGoto hph ?_
    rw [hph, hp, hh] at hl'
    rw [hp, hh]
    exact lawful_sleepCode hl'

theorem inv_wakeup {chan : Nat} (hl : lawful K (s.cpu c).cur (s.ph c) (s.cpu c).held (.wakeup chan k :: r) = true)
    (h : exec K s c r (.wakeup chan k) = some (s', es)) : Inv K s' ∧ s'.panicked = s.panicked := by
  simp only [lawful, Bool.and_eq_true, decide_eq_true_eq] at hl
  obtain ⟨⟨hph, hno⟩, hr⟩ := hl
  have hk : LockId.proc k ∉ (s.cpu c).held := fun hm => by
    have := List.all_eq_true.1 hno _ hm
    cases this
  rw [exec] at h
  split at h
  · split at h
    · cases h
      exact hi.runGoto hph (by simp [lawful, hno, hr])
    · cases h
      exact hi.runGoto hph (by simp [lawful, hno, hr, hk])
  · cases h
    exact hi.runGoto hph hr

theorem inv_boostScan (hl : lawful K (s.cpu c).cur (s.ph c) (s.cpu c).held (.boostScan k :: r) = true)
    (h : exec K s c r (.boostScan k) = some (s', es)) : Inv K s' ∧ s'.panicked = s.panicked := by
  simp only [lawful, Bool.and_eq_true, decide_eq_true_eq] at hl
  obtain ⟨⟨⟨hph, hc⟩, hh⟩, hr⟩ := hl
  rw [hc, hh] at hr
  rw [exec] at h
  split at h
  · cases h
    exact hi.runGoto hph (by simp [lawful, hc, hh, hr])
  · cases h
    exact hi.runGoto hph (by rw [hc, hh]; exact hr)

theorem inv_scan {prio : Nat} (hl : lawful K (s.cpu c).cur (s.ph c) (s.cpu c).held (.scan prio k :: r) = true)
    (h : exec K s c r (.scan prio k) = some (s', es)) : Inv K s' ∧ s'.panicked = s.panicked := by
  simp only [lawful, Bool.and_eq_true, decide_eq_true_eq] at hl
  obtain ⟨⟨⟨hph, hc⟩, hh⟩, hr⟩ := hl
  rw [hc, hh] at hr
  rw [exec] at h
  split at h
  · cases h
    exact hi.runGoto hph (by simp [lawful, hc, hh, hr])
  · split at h
    · cases h
      exact hi.runGoto hph (by rw [hc, hh]; exact hr)
    · cases h
      exact hi.runGoto hph (by simp [lawful, hc, hh, hr])

theorem inv_exec {i : Instr D} (hcode : s.code c = i :: r) (h : exec K s c r i = some (s', es)) :
    Inv K s' ∧ s'.panicked = s.panicked := by
  have hl := hi.thread c
  rw [hcode] at hl
  have hsch {l : LockId} (hc : (s.cpu c).cur = none) (he : i = .release l) : s.ph c = .run := by
    rw [ph_sched hc, ← code_sched hc, hcode, he]
    rfl
  -- what each instruction needs, as `lawful` has it
  have hraw := hl
  cases i <;> simp only [lawful, Bool.and_eq_true, Bool.or_eq_true, decide_eq_true_eq] at hl
  case acquire l =>
    rw [exec, Option.map_eq_some_iff] at h
    obtain ⟨s₁, h₁, he⟩ := h
    cases he
    exact inv_acquire hi (fun _ => (lawful_acquire.1 hraw).1) hraw h₁
  case release l =>
    cases h
    obtain ⟨hm, -, hr⟩ := lawful_release.1 hraw
    exact inv_release hi (fun hc => hsch hc rfl) hm hr
  case setIntr on =>
    cases h
    obtain ⟨⟨hph, hh⟩, hr⟩ := hl
    exact ⟨hi.cpuGoto hph hr rfl rfl rfl rfl ⟨(hi.sound c).noff, fun hne => absurd hh hne⟩, panicked_goto ..⟩
  case yield =>
    obtain ⟨⟨⟨hph, hme⟩, hh⟩, hr⟩ := hl
    refine hi.call hph hme (fun p hp => ?_) (Option.some.inj h)
    rw [hp, hh] at hr
    rw [hh]
    exact lawful_yieldCode hr
  case sleep chan lk =>
    obtain ⟨⟨⟨hph, hme⟩, hh⟩, hr⟩ := hl
    refine hi.call hph hme (fun p hp => ?_) (Option.some.inj h)
    rw [hp, hh] at hr
    rw [hh]
    exact lawful_sleepCode hr
  case exit =>
    obtain ⟨⟨hph, hme⟩, hh⟩ := hl
    refine hi.call hph hme (fun p hp => ?_) (Option.some.inj h)
    rw [hh]
    exact lawful_exitCode
  case wakeup chan k => exact inv_wakeup hi hraw h
  case wait => exact inv_wait hi hraw h
  case store d =>
    cases h
    exact (hi.setData d).runGoto hl.1.1 hl.2
  case setState p st =>
    cases h
    obtain ⟨⟨⟨⟨hph, hc⟩, -⟩, hst⟩, hr⟩ := hl
    have hne : st ≠ .running := by
      rcases hst with rfl | rfl <;> exact ProcState.noConfusion
    rw [hc] at hr
    exact ⟨hi.ownGoto hc hph rfl rfl hne hr, panicked_goto ..⟩
  case sleepRelease p chan lk =>
    cases h
    obtain ⟨⟨⟨hph, -⟩, hm⟩, hr⟩ := hl
    refine inv_release hi (fun _ => hph) hm ?_
    rw [hph]
    exact hr
  case sleepSet p chan =>
    cases h
    obtain ⟨⟨⟨hph, hc⟩, -⟩, hr⟩ := hl
    rw [hc] at hr
    exact ⟨hi.ownGoto hc hph rfl rfl ProcState.noConfusion hr, panicked_goto ..⟩
  case clearChan p =>
    cases h
    exact ⟨hi.sameGoto hl.1.1.1 hl.2 ⟨rfl, rfl, rfl⟩, panicked_goto ..⟩
  case setPriority n =>
    obtain ⟨⟨hph, hme⟩, hr⟩ := hl
    have h := Option.some.inj h
    obtain ⟨p, -, he⟩ := hi.withProc hme
    rw [he] at h
    cases h
    exact ⟨hi.sameGoto hph hr ⟨rfl, rfl, rfl⟩, panicked_goto ..⟩
  case sched =>
    have h := Option.some.inj h
    obtain ⟨⟨p, hc, -⟩, -⟩ := lawful_sched.1 hraw
    rw [sched_eq hi hc hraw] at h
    cases h
    exact ⟨inv_leaves hi hc hraw, rfl⟩
  case setIntena b =>
    cases h
    exact ⟨hi.cpuGoto hl.1.1 hl.2 rfl rfl rfl rfl { hi.sound c with }, panicked_goto ..⟩
  case zombieExit => cases hl
  case wake k chan =>
    cases h
    exact ⟨hi.makeRunnable hl.1.1 hl.2 hl.1.2 fun hst => .inr hst.1, panicked_goto ..⟩
  case kill k =>
    cases h
    exact ⟨hi.makeRunnable hl.1.1 hl.2 hl.1.2 .inr, panicked_goto ..⟩
  case alloc k =>
    obtain ⟨⟨⟨hph, hm⟩, hlt⟩, hr⟩ := hl
    rw [exec] at h
    split at h
    · rename_i hst
      cases h
      exact ⟨inv_alloc hi hph hr hm hlt hst, panicked_goto ..⟩
    · cases h
      exact hi.runGoto hph hr
  case start k =>
    cases h
    exact ⟨hi.makeRunnable hl.1.1 hl.2 hl.1.2 .inl, panicked_goto ..⟩
  case free k =>
    cases h
    exact ⟨inv_free hi hl.1.1 hl.2 hl.1.2, panicked_goto ..⟩
  case boostScan k => exact inv_boostScan hi hraw h
  case boost k =>
    cases h
    exact ⟨hi.sameGoto hl.1.1 hl.2 (same_boost _), panicked_goto ..⟩
  case scan prio k => exact inv_scan hi hraw h
  case pick prio k =>
    cases h
    obtain ⟨⟨⟨hph, -⟩, -⟩, -⟩ := hl
    rw [hph] at hraw
    refine ⟨inv_pick hi hph hraw, ?_⟩
    rw [State.pick]
    split
    · exact panicked_goto ..
    · exact panicked_goto ..
  case enter k =>
    cases h
    obtain ⟨⟨⟨-, hc⟩, -⟩, -⟩ := hl
    rw [code_sched hc] at hcode
    exact ⟨inv_enter hi hc hcode, panicked_goto ..⟩
  case swtch k =>
    have h := Option.some.inj h
    obtain ⟨⟨⟨-, hc⟩, -⟩, -⟩ := hl
    rw [code_sched hc] at hcode
    rw [swtch_eq hi hc hcode] at h
    cases h
    exact ⟨inv_enters hi hc hcode, rfl⟩
  case leave k =>
    cases h
    obtain ⟨⟨⟨-, hc⟩, -⟩, -⟩ := hl
    rw [code_sched hc] at hcode
    exact ⟨inv_leave hi hc hcode, panicked_goto ..⟩

/-! ## Steps -/

theorem inv_act {a : Act D} (h : s.act K a = some (s', es)) : Inv K s' ∧ s'.panicked = s.panicked := by
  cases a with
  | go c =>
    rw [State.act] at h
    split at h
    · cases h
    · exact inv_exec hi ‹_› h
  | loop c boost =>
    rw [State.act] at h
    split at h
    · rename_i hc hcode
      cases h
      have hph : s.ph c = .run := by
        rw [ph_sched hc, hcode]
        rfl
      have hl := hi.thread c
      rw [hph, hc, code_sched hc, hcode] at hl
      have hh : (s.cpu c).held = [] := by simpa [lawful] using hl
      refine ⟨hi.sched hc hph hc rfl ?_ { hi.sound c with } ?_, rfl⟩
      · rw [Function.update_eq_self_iff.2 rfl]
        exact hi.spin
      · dsimp only
        rw [hh]
        exact lawful_schedulerCode boost
    · cases h
  | call c f =>
    rw [State.act] at h
    split at h
    · rename_i p hc hcode
      obtain ⟨⟨-, hf⟩, he⟩ := Option.ite_none_right_eq_some.1 h
      cases he
      have hl := hi.thread c
      rw [hcode] at hl
      have hph : s.ph c = .run := (Bool.and_eq_true_iff.1 hl).1 |> of_decide_eq_true
      refine hi.runGoto hph ?_
      rw [hc]
      exact hf
    · cases h
  | interrupt c f =>
    obtain ⟨⟨-, hh, -, hf⟩, he⟩ := Option.ite_none_right_eq_some.1 h
    cases he
    have hl := hi.thread c
    rw [hh] at hl
    exact ⟨hi.cpuGoto (ph_of_noLocks hl) (hh ▸ hf) rfl rfl rfl rfl ⟨(hi.sound c).noff, fun hne => absurd hh hne⟩,
      panicked_goto ..⟩

theorem inv_step {a : Act D} (h : step K s a = some (s', es)) : Inv K s' ∧ s'.panicked = s.panicked := by
  rw [step] at h
  split at h
  · cases h
  · exact inv_act hi h

end Inv

theorem inv_boot (d : D) : Inv K (boot d) := by
  have hon (c : Nat) : ((boot d).cpu c).on = none := rfl
  refine ⟨⟨fun l c => ?_, fun c => List.nodup_nil⟩, fun c => ⟨rfl, fun h => absurd rfl h⟩, ?_, ?_, ?_, ?_⟩
  · exact iff_of_false (Option.some_ne_none c).symm List.not_mem_nil
  · intro c d' p h
    rw [hon] at h
    cases h
  · exact fun c => ⟨rfl, rfl⟩
  · intro p _
    by_cases hp : p = initproc
    · subst hp
      exact ⟨ProcState.noConfusion, fun _ => ⟨rfl, rfl⟩⟩
    · refine ⟨?_, fun h => ?_⟩
      · simp [boot, hp]
      · simp [boot, hp] at h
  · intro p hp
    have hne : p ≠ initproc := by
      rintro rfl
      exact absurd hp (by decide)
    simp [boot, hne]

end Xv6.Switch
