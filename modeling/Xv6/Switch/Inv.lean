import Xv6.Switch.Model
import Xv6.Framework.Spin

/-!
# Threads and locks: the invariant

A CPU is with a process (`Cpu.on`) while the process's thread runs on it, or its scheduler is about
to switch to the process or is just back from it. `Inv` says which locks every CPU has, that no two
CPUs are with the same process, that what each thread has still to do keeps the lock discipline, and
that a process no CPU is with is ready to be resumed if it may be. Every step changes one CPU and
the process that it is with, or one that no CPU is with (`Inv.frame`).
-/

namespace Xv6.Switch

open Function (update update_self update_of_ne update_eq_self)

variable {D : Type} {K : Cond D}

/-! ## Lawful code -/

/-- Where a scheduler thread is. -/
def schedPh : List (Instr D) → Ph
  | .enter k :: _ => .chosen k
  | .swtch k :: _ => .entered k
  | .leave k :: _ => .back k
  | _ => .run

def Ph.sel : Ph → Option Nat
  | .chosen k | .entered k | .back k => some k
  | _ => none

/-- Where a process is that is running on a CPU. -/
def Proc.phase (y : Proc D) : Ph := if y.state = .running then .run else .leaving y.state

section Lawful

variable {me : Option Nat} {ph : Ph} {h : List LockId} {r : List (Instr D)} {l : LockId} {p k : Nat}

attribute [local simp] lawful

theorem lawful_acquire : lawful K me ph h (.acquire l :: r) = true ↔
    ph = .run ∧ l ∉ h ∧ lawful K me .run (l :: h) r = true := by
  simp [lawful, and_assoc]

theorem lawful_release : lawful K me ph h (.release l :: r) = true ↔
    l ∈ h ∧ (ph = .run ∨ ph = .leaving .zombie ∧ l = waitLock) ∧ lawful K me ph (h.erase l) r = true := by
  simp [lawful, and_assoc]

theorem lawful_sched : lawful K me ph h (.sched :: r) = true ↔ (∃ p, me = some p ∧ h = [.proc p]) ∧
    (ph = .leaving .zombie ∨ (ph = .leaving .runnable ∨ ph = .leaving .sleeping) ∧ lawful K me .run h r = true) := by
  simp [lawful, Option.any_eq_true]

/-- A process that has left its state keeps its own lock until it switches. -/
theorem proc_mem_of_leaving {st : ProcState} (hl : lawful K (some p) (.leaving st) h r = true) : .proc p ∈ h := by
  induction r generalizing h with
  | nil => simp [lawful] at hl
  | cons i r ih =>
    cases i with
    | release l =>
      obtain ⟨-, -, hl⟩ := lawful_release.1 hl
      exact List.mem_of_mem_erase (ih hl)
    | sched =>
      obtain ⟨⟨q, hq, hh⟩, -⟩ := lawful_sched.1 hl
      rw [hh, Option.some.inj hq]
      exact List.mem_singleton_self _
    | _ => simp [lawful] at hl

theorem schedPh_of_run (hl : lawful K none .run h r = true) : schedPh r = .run := by
  cases r with
  | nil => rfl
  | cons i r =>
    cases i with
    | enter k | swtch k | leave k => simp [lawful] at hl
    | _ => rfl

theorem schedPh_of_back (hl : lawful K none (.back k) h r = true) : schedPh r = .back k ∧ h = [.proc k] := by
  cases r with
  | nil => simp [lawful] at hl
  | cons i r =>
    cases i with
    | leave j =>
      simp only [lawful, Bool.and_eq_true, decide_eq_true_eq, Ph.back.injEq] at hl
      obtain ⟨⟨⟨rfl, -⟩, hh⟩, -⟩ := hl
      exact ⟨rfl, hh⟩
    | _ => simp [lawful] at hl

theorem held_of_chosen (hl : lawful K none (.chosen k) h r = true) : h = [.proc k] := by
  cases r with
  | nil => simp [lawful] at hl
  | cons i r =>
    cases i with
    | enter j =>
      simp only [lawful, Bool.and_eq_true, decide_eq_true_eq, Ph.chosen.injEq] at hl
      obtain ⟨⟨⟨rfl, -⟩, hh⟩, -⟩ := hl
      exact hh
    | _ => simp [lawful] at hl

theorem schedPh_of_entered (hl : lawful K none (.entered k) h r = true) : schedPh r = .entered k := by
  cases r with
  | nil => simp [lawful] at hl
  | cons i r =>
    cases i with
    | swtch j =>
      simp only [lawful, Bool.and_eq_true, decide_eq_true_eq, Ph.entered.injEq] at hl
      rw [hl.1.1.1]
      rfl
    | _ => simp [lawful] at hl

end Lawful

/-! ## The invariant -/

/-- The process that the CPU is with. -/
def Cpu.on (x : Cpu D) : Option Nat :=
  match x.cur with
  | some p => some p
  | none => (schedPh x.code).sel

/-- The process can be resumed: its thread then has its lock. -/
structure Ready (K : Cond D) (k : Nat) (y : Proc D) : Prop where
  saved : y.saved = true
  code : lawful K (some k) .run [.proc k] y.code = true

/-- A process that no CPU is with. -/
structure Free (K : Cond D) (k : Nat) (y : Proc D) : Prop where
  notRunning : y.state ≠ .running
  ready : y.state = .used ∨ y.state = .runnable ∨ y.state = .sleeping → Ready K k y

/-- What a scheduler thread knows of the process it is with, and has in `c->proc`. -/
def PhOk (K : Cond D) (proc : Nat → Proc D) (o : Option Nat) : Ph → Prop
  | .chosen k => o = none ∧ (proc k).state = .running ∧ Ready K k (proc k)
  | .entered k => o = some k ∧ (proc k).state = .running ∧ Ready K k (proc k)
  | .back k => o = some k ∧ Free K k (proc k)
  | _ => o = none

def CpuOk (K : Cond D) (x : Cpu D) (proc : Nat → Proc D) : Prop :=
  match x.cur with
  | some p => x.proc = some p ∧ (proc p).saved = false ∧
    lawful K (some p) (proc p).phase x.held (proc p).code = true ∧
    lawful K none (.back p) [.proc p] x.code = true
  | none => lawful K none (schedPh x.code) x.held x.code = true ∧ PhOk K proc x.proc (schedPh x.code)

/-- `noff` counts the locks of the CPU, and interrupts are off while it has one. -/
structure Cpu.Sound (x : Cpu D) : Prop where
  noff : x.noff = x.held.length
  intr : x.held ≠ [] → x.intr = false

structure Inv (K : Cond D) (s : State D) : Prop where
  spin : Spin s.lock fun c => (s.cpu c).held
  sound : ∀ c, (s.cpu c).Sound
  unique : ∀ c d p, (s.cpu c).on = some p → (s.cpu d).on = some p → c = d
  cpu : ∀ c, CpuOk K (s.cpu c) s.proc
  free : ∀ p, (∀ c, (s.cpu c).on ≠ some p) → Free K p (s.proc p)
  bound : ∀ p, NPROC ≤ p → (s.proc p).state = .unused

variable {s s' : State D} {x : Cpu D} {y : Proc D} {proc proc' : Nat → Proc D} {c d p q k : Nat}
  {r : List (Instr D)}

theorem on_of_cur (h : x.cur = some p) : x.on = some p := by
  rw [Cpu.on, h]

theorem on_of_sched (h : x.cur = none) : x.on = (schedPh x.code).sel := by
  rw [Cpu.on, h]

theorem cpuOk_cur (h : x.cur = some p) : CpuOk K x proc ↔ x.proc = some p ∧ (proc p).saved = false ∧
    lawful K (some p) (proc p).phase x.held (proc p).code = true ∧ lawful K none (.back p) [.proc p] x.code = true := by
  rw [CpuOk, h]

theorem cpuOk_sched (h : x.cur = none) : CpuOk K x proc ↔
    lawful K none (schedPh x.code) x.held x.code = true ∧ PhOk K proc x.proc (schedPh x.code) := by
  rw [CpuOk, h]

/-- Two processes that differ in what the invariant does not mention. -/
structure Proc.Same (y y' : Proc D) : Prop where
  state : y'.state = y.state
  saved : y'.saved = y.saved
  code : y'.code = y.code

theorem Proc.Same.refl (y : Proc D) : y.Same y := ⟨rfl, rfl, rfl⟩

theorem Ready.congr {y' : Proc D} (h : Ready K k y) (hs : y.Same y') : Ready K k y' :=
  ⟨hs.saved.trans h.saved, hs.code ▸ h.code⟩

theorem Free.congr {y' : Proc D} (h : Free K k y) (hs : y.Same y') : Free K k y' :=
  ⟨hs.state ▸ h.notRunning, fun hr => (h.ready (hs.state ▸ hr)).congr hs⟩

/-- The CPU depends on no process but the one it is with. -/
theorem CpuOk.congr (hok : CpuOk K x proc) (h : ∀ p, x.on = some p → (proc p).Same (proc' p)) : CpuOk K x proc' := by
  cases hc : x.cur with
  | some p =>
    have hp := h p (on_of_cur hc)
    rw [cpuOk_cur hc] at hok ⊢
    rw [Proc.phase, hp.state, hp.saved, hp.code]
    exact hok
  | none =>
    rw [on_of_sched hc] at h
    rw [cpuOk_sched hc] at hok ⊢
    refine ⟨hok.1, ?_⟩
    have hph := hok.2
    cases he : schedPh x.code with
    | chosen k | entered k =>
      rw [he] at h hph
      exact ⟨hph.1, (h k rfl).state.trans hph.2.1, hph.2.2.congr (h k rfl)⟩
    | back k =>
      rw [he] at h hph
      exact ⟨hph.1, hph.2.congr (h k rfl)⟩
    | run | leaving st =>
      rw [he] at hph
      exact hph

/-- A process with which a CPU is runs, or the CPU has its lock. -/
theorem Inv.running_or_held (hi : Inv K s) (h : (s.cpu c).on = some p) :
    (s.proc p).state = .running ∨ .proc p ∈ (s.cpu c).held := by
  have hok := hi.cpu c
  cases hc : (s.cpu c).cur with
  | some q =>
    rw [on_of_cur hc] at h
    cases h
    rw [cpuOk_cur hc] at hok
    by_cases hr : (s.proc p).state = .running
    · exact .inl hr
    · have hl := hok.2.2.1
      rw [Proc.phase, if_neg hr] at hl
      exact .inr (proc_mem_of_leaving hl)
  | none =>
    rw [on_of_sched hc] at h
    rw [cpuOk_sched hc] at hok
    obtain ⟨hl, hph⟩ := hok
    cases he : schedPh (s.cpu c).code with
    | chosen k | entered k =>
      rw [he] at h hph
      cases h
      exact .inl hph.2.1
    | back k =>
      rw [he] at h hl
      cases h
      rw [(schedPh_of_back hl).2]
      exact .inr (List.mem_singleton_self _)
    | run | leaving st =>
      rw [he] at h
      cases h

/-- A process that does not run, and whose lock a CPU has, is on no other CPU. -/
theorem Inv.free_of_held (hi : Inv K s) (hh : .proc q ∈ (s.cpu c).held) (hr : (s.proc q).state ≠ .running)
    (hc : (s.cpu c).on ≠ some q) (d : Nat) : (s.cpu d).on ≠ some q := by
  intro hd
  have hm := (hi.running_or_held hd).resolve_left hr
  exact hc (hi.spin.exclusive hh hm ▸ hd)

/-- A step of CPU `c` that changes only processes (`Q`) that it is with, or that no CPU is with. -/
theorem Inv.frame (hi : Inv K s) (Q : Nat → Prop) (hq : ∀ q, Q q → (s.cpu c).on = some q ∨ ∀ d, (s.cpu d).on ≠ some q)
    (hcpu : ∀ d, d ≠ c → s'.cpu d = s.cpu d) (hproc : ∀ p, ¬ Q p → s'.proc p = s.proc p)
    (hspin : Spin s'.lock fun d => (s'.cpu d).held) (hsound : (s'.cpu c).Sound)
    (hon : ∀ p, (s'.cpu c).on = some p → Q p ∨ (s.cpu c).on = some p)
    (hoff : ∀ p, (s.cpu c).on = some p → Q p ∨ (s'.cpu c).on = some p)
    (hok : CpuOk K (s'.cpu c) s'.proc) (hfree : ∀ q, Q q → (s'.cpu c).on ≠ some q → Free K q (s'.proc q))
    (hbound : ∀ q, Q q → NPROC ≤ q → (s'.proc q).state = .unused) : Inv K s' := by
  have hother {d q : Nat} (hd : d ≠ c) (h : Q q) : (s.cpu d).on ≠ some q := by
    rcases hq q h with hq | hq
    · exact fun h => hd (hi.unique d c q h hq)
    · exact hq d
  have honly {d p : Nat} (hd : d ≠ c) (h : (s'.cpu d).on = some p) (h' : (s'.cpu c).on = some p) : False := by
    rw [hcpu d hd] at h
    rcases hon p h' with hp | h'
    · exact hother hd hp h
    · exact hd (hi.unique d c p h h')
  refine ⟨hspin, fun d => ?_, fun d e p hd he => ?_, fun d => ?_, fun p hp => ?_, fun p hp => ?_⟩
  · by_cases hd : d = c
    · rw [hd]
      exact hsound
    · rw [hcpu d hd]
      exact hi.sound d
  · by_cases hdc : d = c <;> by_cases hec : e = c
    · rw [hdc, hec]
    · exact (honly hec he (hdc ▸ hd)).elim
    · exact (honly hdc hd (hec ▸ he)).elim
    · rw [hcpu d hdc] at hd
      rw [hcpu e hec] at he
      exact hi.unique d e p hd he
  · by_cases hd : d = c
    · rw [hd]
      exact hok
    · rw [hcpu d hd]
      refine (hi.cpu d).congr fun p hp => ?_
      rw [hproc p fun h => hother hd h hp]
      exact Proc.Same.refl _
  · by_cases hpq : Q p
    · exact hfree p hpq (hp c)
    · rw [hproc p hpq]
      refine hi.free p fun d hd => ?_
      by_cases hdc : d = c
      · rw [hdc] at hd
        exact hp c ((hoff p hd).resolve_left hpq)
      · refine hp d ?_
        rw [hcpu d hdc]
        exact hd
  · by_cases hpq : Q p
    · exact hbound p hpq hp
    · rw [hproc p hpq]
      exact hi.bound p hp

/-! ## A thread goes on -/

/-- What the thread on CPU `c` is about. -/
def State.ph (s : State D) (c : Nat) : Ph :=
  match (s.cpu c).cur with
  | some p => (s.proc p).phase
  | none => schedPh (s.cpu c).code

theorem ph_cur (h : (s.cpu c).cur = some p) : s.ph c = (s.proc p).phase := by rw [State.ph, h]
theorem ph_sched (h : (s.cpu c).cur = none) : s.ph c = schedPh (s.cpu c).code := by rw [State.ph, h]
theorem code_cur (h : (s.cpu c).cur = some p) : s.code c = (s.proc p).code := by rw [State.code, h]
theorem code_sched (h : (s.cpu c).cur = none) : s.code c = (s.cpu c).code := by rw [State.code, h]

theorem goto_cur (h : (s.cpu c).cur = some p) (r : List (Instr D)) :
    s.goto c r = s.setProc p { s.proc p with code := r } := by
  rw [State.goto, h]

theorem goto_sched (h : (s.cpu c).cur = none) (r : List (Instr D)) : s.goto c r = s.setCpu c ((s.cpu c).at r) := by
  rw [State.goto, h]

@[simp] theorem cpu_setCpu_self (s : State D) (c : Nat) (x : Cpu D) : (s.setCpu c x).cpu c = x := by
  simp only [State.setCpu, update_self]

theorem cpu_setCpu_of_ne (h : d ≠ c) (s : State D) (x : Cpu D) : (s.setCpu c x).cpu d = s.cpu d := by
  simp only [State.setCpu, update_of_ne h]

@[simp] theorem proc_setProc_self (s : State D) (p : Nat) (y : Proc D) : (s.setProc p y).proc p = y := by
  simp only [State.setProc, update_self]

theorem proc_setProc_of_ne (h : q ≠ p) (s : State D) (y : Proc D) : (s.setProc p y).proc q = s.proc q := by
  simp only [State.setProc, update_of_ne h]

@[simp] theorem cpu_setProc (s : State D) (p : Nat) (y : Proc D) : (s.setProc p y).cpu = s.cpu := rfl
@[simp] theorem proc_setCpu (s : State D) (c : Nat) (x : Cpu D) : (s.setCpu c x).proc = s.proc := rfl

theorem setProc_self (s : State D) (p : Nat) : s.setProc p (s.proc p) = s := by
  rw [State.setProc, update_eq_self]

theorem setCpu_self (s : State D) (c : Nat) : s.setCpu c (s.cpu c) = s := by
  rw [State.setCpu, update_eq_self]

theorem setCpu_setCpu (s : State D) (c : Nat) (x x' : Cpu D) : (s.setCpu c x).setCpu c x' = s.setCpu c x' := by
  simp only [State.setCpu, Function.update_idem]

theorem held_setCpu (s : State D) (c : Nat) (x : Cpu D) :
    (fun d => ((s.setCpu c x).cpu d).held) = update (fun d => (s.cpu d).held) c x.held := by
  funext d
  by_cases h : d = c
  · rw [h, cpu_setCpu_self, update_self]
  · rw [cpu_setCpu_of_ne h, update_of_ne h]

theorem Inv.thread (hi : Inv K s) (c : Nat) : lawful K (s.cpu c).cur (s.ph c) (s.cpu c).held (s.code c) = true := by
  have hok := hi.cpu c
  cases hc : (s.cpu c).cur with
  | some p =>
    rw [ph_cur hc, code_cur hc]
    exact ((cpuOk_cur hc).1 hok).2.2.1
  | none =>
    rw [ph_sched hc, code_sched hc]
    exact ((cpuOk_sched hc).1 hok).1

variable {lock : LockId → Option Nat}

/-- The CPU changes, and the process it is with: it runs on the CPU before and after. -/
theorem Inv.own (hi : Inv K s) (hc : (s.cpu c).cur = some p) (hcur : x.cur = some p) (hxp : x.proc = some p)
    (hcode : x.code = (s.cpu c).code) (hspin : Spin lock (update (fun d => (s.cpu d).held) c x.held)) (hsound : x.Sound)
    (hsaved : y.saved = false) (hy : lawful K (some p) y.phase x.held y.code = true)
    (hbound : NPROC ≤ p → y.state = .unused) : Inv K (({ s with lock := lock }.setCpu c x).setProc p y) := by
  have hxon : x.on = some p := on_of_cur hcur
  have hcx : ((({ s with lock := lock }.setCpu c x).setProc p y).cpu c) = x := cpu_setCpu_self ..
  refine hi.frame (c := c) (· = p) ?_ ?_ ?_ ?_ ?_ ?_ ?_ ?_ ?_ ?_
  · rintro q rfl
    exact .inl (on_of_cur hc)
  · exact fun d hd => cpu_setCpu_of_ne hd ..
  · exact fun q hq => proc_setProc_of_ne hq ..
  · rw [cpu_setProc, held_setCpu]
    exact hspin
  · rw [hcx]
    exact hsound
  · intro q hq
    rw [hcx, hxon] at hq
    exact .inl (Option.some.inj hq).symm
  · intro q hq
    rw [on_of_cur hc] at hq
    exact .inl (Option.some.inj hq).symm
  · rw [hcx, cpuOk_cur hcur, proc_setProc_self, hcode]
    exact ⟨hxp, hsaved, hy, ((cpuOk_cur hc).1 (hi.cpu c)).2.2.2⟩
  · rintro q rfl h
    rw [hcx] at h
    exact absurd hxon h
  · rintro q rfl h
    rw [proc_setProc_self]
    exact hbound h

/-- A scheduler thread goes on, with no process before and after. -/
theorem Inv.sched (hi : Inv K s) (hc : (s.cpu c).cur = none) (hph : s.ph c = .run) (hcur : x.cur = none)
    (hxp : x.proc = (s.cpu c).proc) (hspin : Spin lock (update (fun d => (s.cpu d).held) c x.held)) (hsound : x.Sound)
    (hx : lawful K none .run x.held x.code = true) : Inv K ({ s with lock := lock }.setCpu c x) := by
  have hxph := schedPh_of_run hx
  have hcx : (({ s with lock := lock }.setCpu c x).cpu c) = x := cpu_setCpu_self ..
  rw [ph_sched hc] at hph
  have hok := (cpuOk_sched hc).1 (hi.cpu c)
  rw [hph] at hok
  refine hi.frame (c := c) (fun _ => False) ?_ ?_ ?_ ?_ ?_ ?_ ?_ ?_ ?_ ?_
  · exact fun _ h => h.elim
  · exact fun d hd => cpu_setCpu_of_ne hd ..
  · exact fun _ _ => rfl
  · rw [held_setCpu]
    exact hspin
  · rw [hcx]
    exact hsound
  · intro q hq
    rw [hcx, on_of_sched hcur, hxph] at hq
    cases hq
  · intro q hq
    rw [on_of_sched hc, hph] at hq
    cases hq
  · rw [hcx, cpuOk_sched hcur, hxph]
    exact ⟨hx, hxp.trans hok.2⟩
  · exact fun _ h => h.elim
  · exact fun _ h => h.elim

/-- The CPU and its locks change, and the thread goes on at `r`. -/
theorem Inv.goto (hi : Inv K s) (hcur : x.cur = (s.cpu c).cur) (hxp : x.proc = (s.cpu c).proc)
    (hcode : x.code = (s.cpu c).code) (hspin : Spin lock (update (fun d => (s.cpu d).held) c x.held)) (hsound : x.Sound)
    (hsch : (s.cpu c).cur = none → s.ph c = .run) (hr : lawful K (s.cpu c).cur (s.ph c) x.held r = true) :
    Inv K (({ s with lock := lock }.setCpu c x).goto c r) := by
  cases hc : (s.cpu c).cur with
  | some p =>
    have hok := (cpuOk_cur hc).1 (hi.cpu c)
    have hxc : (({ s with lock := lock }.setCpu c x).cpu c).cur = some p := by
      rw [cpu_setCpu_self, hcur, hc]
    rw [goto_cur hxc]
    rw [ph_cur hc, hc] at hr
    refine hi.own hc (hcur.trans hc) (hxp.trans hok.1) hcode hspin hsound ?_ ?_ ?_
    · exact hok.2.1
    · exact hr
    · exact hi.bound p
  | none =>
    have hxc : (({ s with lock := lock }.setCpu c x).cpu c).cur = none := by
      rw [cpu_setCpu_self, hcur, hc]
    rw [goto_sched hxc, cpu_setCpu_self]
    rw [hsch hc, hc] at hr
    rw [setCpu_setCpu]
    exact hi.sched hc (hsch hc) (hcur.trans hc) hxp hspin ⟨hsound.noff, hsound.intr⟩ hr

/-- The thread goes on at `r`. -/
theorem Inv.continue (hi : Inv K s) (hsch : (s.cpu c).cur = none → s.ph c = .run)
    (hr : lawful K (s.cpu c).cur (s.ph c) (s.cpu c).held r = true) : Inv K (s.goto c r) := by
  have hspin : Spin s.lock (update (fun d => (s.cpu d).held) c (s.cpu c).held) := by
    rw [update_eq_self]
    exact hi.spin
  have h := hi.goto rfl rfl rfl hspin (hi.sound c) hsch hr
  rwa [setCpu_self] at h

end Xv6.Switch
