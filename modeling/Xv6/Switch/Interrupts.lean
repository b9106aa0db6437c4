import Xv6.Switch.Handoff

/-!
# Interrupts across switches

`noff` and `intena` belong to a CPU, but they are about the thread on it: how many locks it has, and
whether interrupts were on before it acquired the first of them (`Cpu.base`). `sched` saves `intena`
by hand, in the thread that it suspends. So no step of any thread changes what the rest of a process's
code makes of its interrupts (`Tracked`), and a process that comes back from `sleep` or `yield`, on
this CPU or another, has its interrupts as they were (`interrupts_restored`).
-/

namespace Xv6.Switch

open List

variable {D : Type} {K : Cond D} {s s' t : State D} {c d p k : Nat} {r r' w : List (Instr D)} {i : Instr D}
  {l : LockId} {x : Cpu D} {es : List Event} {b : Bool}

/-- Whether interrupts are on when the thread on the CPU has released its locks. -/
def Cpu.base (x : Cpu D) : Bool := if x.held = [] then x.intr else x.intena

/-- What an instruction makes of it. -/
def Instr.sets (b : Bool) : Instr D → Bool
  | .setIntr on | .setIntena on => on
  | _ => b

/-- What code makes of it. -/
def ends (b : Bool) (w : List (Instr D)) : Bool := w.foldl Instr.sets b

/-! ## The code behind a switch -/

/-- `intena` is restored before the lock of the process is released. -/
def Restores : Instr D → List (Instr D) → Prop
  | .sched, r | .setIntena _, r => Behind .sched r
  | _, _ => True

theorem restores_of_ordinary (i : Instr D) (h : i.ordinary = true) (r : List (Instr D)) : Restores i r := by
  cases i <;> trivial

theorem restores_codes : CodeRule K (fun _ => True) (Each (Restores (D := D))) where
  nil := trivial
  forkret _ := ⟨trivial, trivial⟩
  scheduler b := by cases b <;> simp [schedulerCode, Each, Restores]
  next h hn := by
    obtain ⟨hi, hr⟩ := h
    cases hn with
    | skip => exact hr
    | _ => simp [yieldCode, sleepCode, exitCode, Each, Restores, Behind, handed, hr]
  suspend h := h
  call {f} hf _ := append_nil f ▸ each_of_ordinary restores_of_ordinary hf trivial
  interrupt hf _ _ hr := each_of_ordinary restores_of_ordinary hf ⟨trivial, hr⟩

theorem held_of_setIntena (hi : Inv K s) (ht : Codes (Each Restores) s) (hcode : s.code c = .setIntena b :: r) :
    (s.cpu c).held ≠ [] := by
  have hl := hi.thread c
  have hr := ht.code c
  rw [hcode] at hl hr
  simp only [lawful, Bool.and_eq_true] at hl
  rcases hr.1 with ⟨q, hq⟩ | ⟨r', rfl⟩
  · exact ne_nil_of_mem (mem_of_handed hl.2 hq)
  · simp [lawful] at hl

/-! ## The thread's own steps -/

theorem base_pushOff (h : x.Sound) (l : LockId) : (x.pushOff l).base = x.base := by
  have hnil : x.noff = 0 ↔ x.held = [] := by rw [h.noff, length_eq_zero_iff]
  simp only [Cpu.base, Cpu.pushOff, reduceCtorEq, if_false, hnil]

theorem base_popOff (h : x.Sound) (hl : l ∈ x.held) : (x.popOff l).base = x.base := by
  have hne := ne_nil_of_mem hl
  have hnil : x.noff - 1 = 0 ↔ x.held.erase l = [] := by
    rw [h.noff, ← length_erase_of_mem hl, length_eq_zero_iff]
  simp only [Cpu.base, Cpu.popOff, hnil, if_neg hne, h.intr hne]
  by_cases he : x.held.erase l = []
  · cases x.intena <;> simp [he]
  · rw [if_neg he]

theorem base_goto (s : State D) (c : Nat) (r : List (Instr D)) (d : Nat) : ((s.goto c r).cpu d).base = (s.cpu d).base := by
  obtain ⟨r', h⟩ := cpu_goto s c r d
  rw [h]
  rfl

theorem base_release (hi : Inv K s) (l : LockId) : ((s.release c l r).cpu c).base = (s.cpu c).base := by
  rw [State.release]
  split_ifs with hlock
  · rfl
  · rfl
  · rfl
  · rw [base_goto, cpu_setCpu_self]
    exact base_popOff (hi.sound c) ((hi.spin.mem l c).1 (not_not.1 hlock))

theorem exec_base (hi : Inv K s) (ht : Codes (Each Restores) s) (hcode : s.code c = i :: r)
    (hsw : i.switches = false) (h : exec K s c r i = some (s', es)) : (s'.cpu c).base = i.sets (s.cpu c).base := by
  cases i with
  | acquire l =>
    rw [exec, Option.map_eq_some_iff] at h
    obtain ⟨s₁, h₁, he⟩ := h
    cases he
    rw [State.acquire] at h₁
    split at h₁
    · cases h₁
      rw [base_goto, cpu_setCpu_self]
      exact base_pushOff (hi.sound c) l
    · obtain ⟨-, he⟩ := Option.ite_none_right_eq_some.1 h₁
      cases he
      rfl
  | release l | sleepRelease p chan l =>
    cases h
    exact base_release hi _
  | setIntr on =>
    cases h
    have hl := hi.thread c
    rw [hcode] at hl
    simp only [lawful, Bool.and_eq_true, decide_eq_true_eq] at hl
    rw [base_goto, cpu_setCpu_self]
    exact if_pos hl.1.2
  | setIntena on =>
    cases h
    rw [base_goto, cpu_setCpu_self]
    exact if_neg (held_of_setIntena hi ht hcode)
  | enter k | leave k =>
    cases h
    rw [base_goto, cpu_setCpu_self]
    rfl
  | yield | sleep chan lk | exit | setPriority n =>
    rcases withProc_cases (Option.some.inj h) with ⟨-, rfl⟩ | ⟨p, -, he⟩
    · rfl
    · cases he
      exact base_goto ..
  | wait =>
    rcases withProc_cases (Option.some.inj h) with ⟨-, rfl⟩ | ⟨p, -, he⟩
    · rfl
    · split at he <;>
      · cases he
        exact base_goto ..
  | wakeup chan k | alloc k | boostScan k | scan prio k =>
    rw [exec] at h
    split_ifs at h <;>
    · cases h
      exact base_goto ..
  | pick prio k =>
    cases h
    rw [State.pick]
    split_ifs <;> exact base_goto ..
  | sched | swtch k => cases hsw
  | _ =>
    cases h
    first | exact base_goto .. | rfl

/-- Where the thread goes on, it makes the same of its interrupts. -/
theorem next_ends (hn : Next K s c i (w ++ r) r') : ∃ w', r' = w' ++ r ∧ ∀ b, ends (i.sets b) w' = ends b (i :: w) := by
  cases hn with
  | skip => exact ⟨w, rfl, fun _ => rfl⟩
  | yield p => exact ⟨yieldCode p ++ w, rfl, fun _ => rfl⟩
  | sleep p chan lk => exact ⟨sleepCode p chan lk ++ w, rfl, fun _ => rfl⟩
  | exit p => exact ⟨exitCode p ++ w, rfl, fun _ => rfl⟩
  | wait p => exact ⟨sleepCode p K.chan K.lk ++ .wait :: w, rfl, fun _ => rfl⟩
  | wakeupSelf chan k => exact ⟨.wakeup chan (k + 1) :: w, rfl, fun _ => rfl⟩
  | wakeup chan k =>
    exact ⟨.acquire (.proc k) :: .wake k chan :: .release (.proc k) :: .wakeup chan (k + 1) :: w, rfl, fun _ => rfl⟩
  | boostScan k =>
    exact ⟨.acquire (.proc k) :: .boost k :: .release (.proc k) :: .boostScan (k + 1) :: w, rfl, fun _ => rfl⟩
  | scan prio k =>
    exact ⟨.acquire (.proc k) :: .pick prio k :: .release (.proc k) :: .scan prio (k + 1) :: w, rfl, fun _ => rfl⟩
  | scanNext prio k => exact ⟨.scan (prio + 1) 0 :: w, rfl, fun _ => rfl⟩
  | pick prio k => exact ⟨.enter k :: .swtch k :: .leave k :: w, rfl, fun _ => rfl⟩

/-! ## Other threads, and switches -/

/-- Before it comes to `r`, process `p` makes `b` of its interrupts. -/
def Tracked (s : State D) (p : Nat) (r : List (Instr D)) (b : Bool) : Prop :=
  ∃ w, (s.proc p).code = w ++ r ∧ (∀ c, (s.cpu c).cur = some p → ends (s.cpu c).base w = b) ∧
    ((∀ c, (s.cpu c).cur ≠ some p) → ∀ b', ends b' w = b)

/-- Process `p` has not come to `r` yet. -/
def Within (p : Nat) (r : List (Instr D)) (s : State D) (_ : Act D) : Prop :=
  (s.proc p).state ≠ .unused ∧ ∃ w, w ≠ [] ∧ (s.proc p).code = w ++ r

/-- A step that is not of process `p`. -/
theorem Tracked.frame (h : Tracked s p r b) (hcode : (s'.proc p).code = (s.proc p).code)
    (hcpu : ∀ d, (s'.cpu d).cur = some p → s'.cpu d = s.cpu d)
    (hcur : ∀ d, (s.cpu d).cur = some p → (s'.cpu d).cur = some p) : Tracked s' p r b := by
  obtain ⟨w, hw, hon, hoff⟩ := h
  refine ⟨w, hcode.trans hw, fun d hd => ?_, fun hno => hoff fun d hd => hno d (hcur d hd)⟩
  have he := hcpu d hd
  rw [he] at hd ⊢
  exact hon d hd

theorem Tracked.other (h : Tracked s p r b) (hu : (s.proc p).state ≠ .unused) (hc : (s.cpu c).cur ≠ some p)
    (he : Effect s c i t) : Tracked (t.goto c r') p r b := by
  refine h.frame ?_ (fun d hd => ?_) fun d hd => by rwa [cur_goto, he.cur_eq]
  · rw [proc_goto_of_ne (by rwa [he.cur_eq])]
    exact ((he.proc p).resolve_right fun ha => hu ha.2.1).1
  · rw [cur_goto, he.cur_eq] at hd
    have hne : d ≠ c := by
      rintro rfl
      exact hc hd
    rw [cpu_goto_of_ne hne, he.cpu d hne]

theorem Tracked.leaves (hi : Inv K s) (h : Tracked s p r b) (hc : (s.cpu c).cur = some k)
    (hcode : s.code c = .sched :: r') (hw : ∃ w, w ≠ [] ∧ (s.proc p).code = w ++ r) : Tracked (Leaves s c k r') p r b := by
  have hself : (Leaves s c k r').cpu c = (s.cpu c).toSched := cpu_setCpu_self ..
  have hcpu {d : Nat} (hd : d ≠ c) : (Leaves s c k r').cpu d = s.cpu d := cpu_setCpu_of_ne hd ..
  by_cases hk : p = k
  · subst hk
    obtain ⟨w, hcode', hon, -⟩ := h
    obtain ⟨w', hne, hw'⟩ := hw
    obtain rfl := append_cancel_right (hcode'.symm.trans hw')
    obtain ⟨i, w, rfl⟩ := exists_cons_of_ne_nil hne
    have hl := hi.thread c
    rw [hcode] at hl
    have hheld : (s.cpu c).held ≠ [] := by
      rw [(leaving_of_sched hc hl).1]
      nofun
    rw [code_cur hc, hcode', cons_append] at hcode
    obtain ⟨rfl, rfl⟩ := cons.inj hcode
    -- the thread is suspended with its `intena`
    have hends : ends (s.cpu c).intena w = b := by
      have := hon c hc
      rwa [Cpu.base, if_neg hheld] at this
    refine ⟨.setIntena (s.cpu c).intena :: w, ?_, fun d hd => ?_, fun _ _ => hends⟩
    · rw [Leaves, proc_setCpu, proc_setProc_self]
      rfl
    · by_cases hdc : d = c
      · rw [hdc, hself] at hd
        cases hd
      · rw [hcpu hdc] at hd
        exact absurd (hi.unique d c p (on_of_cur hd) (on_of_cur hc)) hdc
  · refine h.frame ?_ (fun d hd => hcpu ?_) fun d hd => ?_
    · rw [Leaves, proc_setCpu, proc_setProc_of_ne hk]
    · rintro rfl
      rw [hself] at hd
      cases hd
    · have hdc : d ≠ c := by
        rintro rfl
        exact hk (Option.some.inj (hd.symm.trans hc))
      rwa [hcpu hdc]

theorem Tracked.enters (hi : Inv K s) (h : Tracked s p r b) (hc : (s.cpu c).cur = none)
    (hcode : s.code c = .swtch k :: r') : Tracked (Enters s c k r') p r b := by
  have hself : (Enters s c k r').cpu c = (s.cpu c).toProc k r' := cpu_setCpu_self ..
  have hcpu {d : Nat} (hd : d ≠ c) : (Enters s c k r').cpu d = s.cpu d := cpu_setCpu_of_ne hd ..
  by_cases hk : p = k
  · subst hk
    have hno (d : Nat) : (s.cpu d).cur ≠ some p := by
      intro hd
      have hon : (s.cpu c).on = some p := by
        rw [on_of_sched hc, ← code_sched hc, hcode]
        rfl
      rw [hi.unique d c p (on_of_cur hd) hon, hc] at hd
      cases hd
    obtain ⟨w, hw, -, hoff⟩ := h
    refine ⟨w, ?_, fun _ _ => hoff hno _, fun hno' => ?_⟩
    · rw [Enters, proc_setCpu, proc_setProc_self]
      exact hw
    · refine absurd ?_ (hno' c)
      rw [hself]
      rfl
  · refine h.frame ?_ (fun d hd => hcpu ?_) fun d hd => ?_
    · rw [Enters, proc_setCpu, proc_setProc_of_ne hk]
    · rintro rfl
      rw [hself] at hd
      exact hk (Option.some.inj hd).symm
    · have hdc : d ≠ c := by
        rintro rfl
        rw [hc] at hd
        cases hd
      rwa [hcpu hdc]

/-- A step of the thread of `p`, which goes on with `w`. -/
theorem Tracked.own (hi : Inv K s) (hc : (s.cpu c).cur = some p) (he : Effect s c i t)
    (hends : ends ((t.goto c (w ++ r)).cpu c).base w = b) : Tracked (t.goto c (w ++ r)) p r b := by
  refine ⟨w, ?_, fun d hd => ?_, fun hno => ?_⟩
  · rw [proc_goto_cur (by rwa [he.cur_eq])]
  · rw [cur_goto, he.cur_eq] at hd
    rwa [hi.unique d c p (on_of_cur hd) (on_of_cur hc)]
  · refine absurd ?_ (hno c)
    rwa [cur_goto, he.cur_eq]

theorem Tracked.act (hi : Inv K s) (hp : s.panicked = none) (ht : Codes (Each Restores) s) (h : Tracked s p r b)
    {a : Act D} (hw : Within p r s a) (hs : s.act K a = some (s', es)) : Tracked s' p r b := by
  obtain ⟨hu, hw⟩ := hw
  rcases act_cases hs with ⟨c, i, r₀, hcode, hx⟩ | ⟨c, t, r₀, -, he, hb, rfl⟩
  · rcases exec_cases_of_inv hi hp hcode hx with ⟨hsw, t, r', he, hn, rfl⟩ | ⟨rfl, q, hc, -, rfl⟩ | ⟨k, rfl, hc, -, rfl⟩
    · by_cases hc : (s.cpu c).cur = some p
      · obtain ⟨w, hcode', hon, -⟩ := h
        obtain ⟨w', hne, hw'⟩ := hw
        obtain rfl := append_cancel_right (hcode'.symm.trans hw')
        obtain ⟨j, w, rfl⟩ := exists_cons_of_ne_nil hne
        have hbase := exec_base hi ht hcode hsw hx
        rw [code_cur hc, hcode', cons_append] at hcode
        obtain ⟨rfl, rfl⟩ := cons.inj hcode
        obtain ⟨w', rfl, hends⟩ := next_ends hn
        refine .own hi hc he ?_
        rw [hbase, hends]
        exact hon c hc
      · exact h.other hu hc he
    · exact h.leaves hi hc hcode hw
    · exact h.enters hi hc hcode
  · by_cases hc : (s.cpu c).cur = some p
    · obtain ⟨w, hcode', hon, -⟩ := h
      obtain ⟨w', hne, hw'⟩ := hw
      cases hb with
      | loop b hcode | call hf hcode =>
        rw [code_cur hc, hw'] at hcode
        exact absurd (append_eq_nil_iff.1 hcode).1 hne
      | @interrupt c f hf hh =>
        obtain ⟨⟨hon', -⟩, -⟩ := Option.ite_none_right_eq_some.1 hs
        have hends := hon c hc
        rw [Cpu.base, if_pos hh, hon'] at hends
        rw [code_cur hc, hcode', ← cons_append, ← append_assoc]
        refine .own hi hc (he .yield) ?_
        rw [ends, foldl_append]
        exact hends
    · exact h.other hu hc (he .yield)

/-! ## Runs -/

/-- Code that changes no interrupts of its own. -/
def Instr.keepsIntr : Instr D → Bool
  | .setIntr _ | .setIntena _ => false
  | _ => true

theorem ends_of_keepsIntr (h : w.all Instr.keepsIntr = true) (b : Bool) : ends b w = b := by
  induction w with
  | nil => rfl
  | cons i w ih =>
    obtain ⟨hi, hw⟩ := Bool.and_eq_true_iff.1 h
    have hset : i.sets b = b := by
      cases i <;> first | rfl | cases hi
    rw [ends, foldl_cons, hset]
    exact ih hw

theorem restores_step (h : Reached K es s ∧ Codes (Each Restores) s) {a : Act D} {es' : List Event}
    (hs : step K s a = some (s', es')) : Reached K (es ++ es') s' ∧ Codes (Each Restores) s' := by
  refine ⟨reached_step h.1 hs, ?_⟩
  rw [step, h.1.panicked] at hs
  exact restores_codes.act h.1.inv h.1.panicked h.2 (by cases a <;> trivial) hs

/-- In every run interrupts are off on a CPU with `noff > 0`, and nothing panics. Where a process
without locks has `f` to do, and later, on any CPU, has only `g` of it left, interrupts are as they were
then, or will be when it has released its locks. -/
theorem interrupts_restored {d : D} (h : Exec (step K) Any (boot d) es s) :
    (∀ c, 0 < (s.cpu c).noff → (s.cpu c).intr = false) ∧ s.panicked = none ∧
    ∀ c p f r, (s.cpu c).cur = some p → (s.cpu c).held = [] → s.code c = f ++ r → f.all Instr.keepsIntr = true →
      ∀ es' s', Exec (step K) (Within p r) s es' s' → ∀ c' g, (s'.cpu c').cur = some p → s'.code c' = g ++ r →
        g.all Instr.keepsIntr = true → ((s'.cpu c').held = [] → (s'.cpu c').intr = (s.cpu c).intr) ∧
          ((s'.cpu c').held ≠ [] → (s'.cpu c').intena = (s.cpu c).intr) := by
  have hr' : Reached K es s ∧ Codes (Each Restores) s :=
    h.invariant (I := fun es s => Reached K es s ∧ Codes (Each Restores) s)
      ⟨reached_boot d, codes_boot trivial (fun _ => ⟨trivial, trivial⟩) d⟩ fun h _ hs => restores_step h hs
  obtain ⟨hr, ht⟩ := hr'
  refine ⟨fun c hn => (hr.inv.sound c).intr ?_, hr.panicked, fun c p f r hc hh hcode hf es' s' hx c' g hc' hcode' hg => ?_⟩
  · rw [(hr.inv.sound c).noff] at hn
    exact List.ne_nil_of_length_pos hn
  have hbase : (s.cpu c).base = (s.cpu c).intr := if_pos hh
  rw [code_cur hc] at hcode
  -- the invariant of the run from here on
  have hinv : (Reached K (es ++ es') s' ∧ Codes (Each Restores) s') ∧ Tracked s' p r (s.cpu c).intr := by
    refine hx.invariant (I := fun es' s' => (Reached K (es ++ es') s' ∧ Codes (Each Restores) s') ∧
      Tracked s' p r (s.cpu c).intr) ⟨by rw [List.append_nil]; exact ⟨hr, ht⟩, f, hcode, fun c₁ hc₁ => ?_, fun hno => ?_⟩ ?_
    · rw [hr.inv.unique c₁ c p (on_of_cur hc₁) (on_of_cur hc), hbase]
      exact ends_of_keepsIntr hf _
    · exact absurd hc (hno c)
    · intro es₁ es₂ s₁ s₂ a ⟨h₁, htr⟩ hw hs
      have h₂ := restores_step h₁ hs
      rw [step, h₁.1.panicked] at hs
      rw [← List.append_assoc]
      exact ⟨h₂, htr.act h₁.1.inv h₁.1.panicked h₁.2 hw hs⟩
  obtain ⟨-, w, hw, hon, -⟩ := hinv
  rw [code_cur hc', hw] at hcode'
  obtain rfl := List.append_cancel_right hcode'
  have hend := hon c' hc'
  rw [ends_of_keepsIntr hg, Cpu.base] at hend
  exact ⟨fun h0 => by rwa [if_pos h0] at hend, fun h0 => by rwa [if_neg h0] at hend⟩

/-- Process 0 has code to do. -/
def busy (s : State Nat) (_ : Act Nat) : Bool := (s.proc 0).state ≠ .unused ∧ (s.proc 0).code ≠ []

theorem within_of_busy (s : State Nat) (a : Act Nat) (h : busy s a = true) : Within 0 [] s a := by
  obtain ⟨hu, hc⟩ := of_decide_eq_true h
  exact ⟨hu, _, hc, (append_nil _).symm⟩

/-- Process 0 yields on CPU 0, with interrupts on, and comes back on CPU 1. -/
theorem interrupts_restored_twoCpus : ∃ es s es' s', Exec (step nonzero) Any (boot 0) es s ∧
    Exec (step nonzero) (Within 0 []) s es' s' ∧ (s.cpu 0).cur = some 0 ∧ (s'.cpu 1).cur = some 0 ∧
    (s'.cpu 1).intr = true := by
  obtain ⟨es, s, hr, ⟨hc, hh, hcode, hon⟩, hnext⟩ : ∃ es s, Exec (step nonzero) Any (boot 0) es s ∧
      ((s.cpu 0).cur = some 0 ∧ (s.cpu 0).held = [] ∧ (s.code 0).all Instr.keepsIntr = true ∧ (s.cpu 0).intr = true) ∧
      ((runActs (fun s a => if busy s a then step nonzero s a else none) s
        (twoCpus.drop 11 ++ List.replicate 2 (.go 1))).any fun r =>
          decide ((r.1.cpu 1).cur = some 0 ∧ r.1.code 1 = [] ∧ (r.1.cpu 1).held = [])) = true :=
    exists_exec (fun _ _ => of_decide_eq_true) (twoCpus.take 11) (by decide +kernel)
  obtain ⟨es', s', hx, hc', hcode', hh'⟩ := exists_exec (P := fun _ (s : State Nat) => (s.cpu 1).cur = some 0 ∧
    s.code 1 = [] ∧ (s.cpu 1).held = []) within_of_busy _ hnext
  refine ⟨es, s, es', s', hr, hx, hc, hc', ?_⟩
  rw [← hon]
  exact ((interrupts_restored hr).2.2 0 0 _ [] hc hh (List.append_nil _).symm hcode es' s' hx 1 [] hc' hcode' rfl).1 hh'

end Xv6.Switch
