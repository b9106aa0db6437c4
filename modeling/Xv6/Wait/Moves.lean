import Xv6.Wait.Tree

/-!
# Every step keeps the invariant

One lemma for each step function: the step is one of `Trans`, the process knows at
its next place what `PcInv` says, and no process is left asleep in `kwait` with a
zombie child.
-/

namespace Xv6.Wait

open Function

variable {s s' : Sys} {i : Nat} {es : List Event} {pc pc' : Pc}

/-- Process at this place may be asleep. -/
def Pc.Sleeps : Pc → Prop
  | .waitWindow _ | .waitAsleep _ => True
  | _ => False

variable {q k p m : Nat} {t : Sys} {ok addr : Bool} {st : BitVec 32}

@[simp] theorem goto_pc_self (s : Sys) (i : Nat) (pc : Pc) : (s.goto i pc).pc i = pc :=
  update_self ..

theorem Asleep.sleeps (h : Asleep s q) : (s.pc q).Sleeps := by
  rcases h with ⟨a, e⟩ | ⟨⟨a, e⟩, -⟩ <;> rw [e] <;> trivial

theorem Asleep.of_goto (h : Asleep t q) (ht : t.proc = s.proc) (hpc : t.pc = update s.pc i pc') (hq : q ≠ i) :
    Asleep s q := by
  rw [Asleep, ht, hpc, update_of_ne hq] at h
  exact h

theorem Asleep.ne (h : Asleep (t.goto i pc') q) (hsl : ¬pc'.Sleeps) : q ≠ i := by
  rintro rfl
  have := h.sleeps
  rw [goto_pc_self] at this
  exact hsl this

theorem Alive.lt (h : Alive (s.proc q)) (hI : Inv s) : q < NPROC := by
  by_contra hq
  exact h.ne_unused (hI.bound q (by omega))

theorem Owns.keep (h : Owns s i k) (hpc : t.pc = update s.pc i pc') (hu : (t.proc k).state = .used) : Owns t i k := by
  refine ⟨hu, fun p hp => ?_⟩
  by_contra e
  rw [hpc, update_of_ne e] at hp
  exact e (h.2 p hp)

theorem NoChild.succ (h : NoChild s p k) (hk : (s.proc k).parent ≠ some p) : NoChild s p (k + 1) := by
  intro j hj
  by_cases e : j = k
  · exact e ▸ hk
  · exact h j (by omega)

theorem NoZombie.succ (h : NoZombie s p k) (hk : (s.proc k).parent = some p → (s.proc k).state ≠ .zombie) :
    NoZombie s p (k + 1) := by
  intro j hj
  by_cases e : j = k
  · exact e ▸ hk
  · exact h j (by omega)

/-- The step keeps the invariant, and is one of those of `Trans`. -/
def Good (s : Sys) (i : Nat) (es : List Event) (s' : Sys) : Prop := Inv s' ∧ Trans s i es s'

theorem lock_acquire (h : s.lock k = none) (j : Nat) : update s.lock k (some i) j = s.lock j ∨
    s.lock j = none ∨ (s.pc i).HasLock i j := by
  by_cases e : j = k
  · exact .inr (.inl (e ▸ h))
  · exact .inl (update_of_ne e ..)

theorem lock_release (h : (s.pc i).HasLock i k) (j : Nat) : update s.lock k none j = s.lock j ∨
    s.lock j = none ∨ (s.pc i).HasLock i j := by
  by_cases e : j = k
  · exact .inr (.inr (e ▸ h))
  · exact .inl (update_of_ne e ..)

/-- A step of a live process to a place where it does not sleep. -/
theorem trans_of (hc : Change s i es t.proc t.nextpid) (hpc : t.pc = update s.pc i pc') (ha : Alive (s.proc i))
    (hf : ∀ k, pc'.Forks k → (s.pc i).Forks k ∨ (s.proc k).state = .unused) (hsl : ¬pc'.Sleeps)
    (hw : t.waitLock = s.waitLock ∨ s.waitLock = none ∨ (s.pc i).HasWait)
    (hl : ∀ k, t.lock k = s.lock k ∨ s.lock k = none ∨ (s.pc i).HasLock i k) : Trans s i es t where
  change := hc
  pc p hp := by rw [hpc, update_of_ne hp]
  moves := .inr (.inl ha)
  forks k h := by
    rw [hpc, update_self] at h
    exact hf k h
  sleeps h := by
    have := h.sleeps
    rw [hpc, update_self] at this
    exact absurd this hsl
  waitLock := hw
  lock := hl

theorem WakingInit.keep (h : WakingInit s) (hat : s.pc i = pc) (hw : ∀ st k, pc ≠ .exitWakeInit st k 0)
    (hT : Trans s i es s') : WakingInit s' := by
  obtain ⟨p, st, k, hpc⟩ := h
  have hpi : p ≠ i := by
    rintro rfl
    exact hw st k (hat.symm.trans hpc)
  exact ⟨p, st, k, (hT.pc p hpi).trans hpc⟩

/-- A step that makes no zombie, no child and no sleeper, and is not the one that wakes
up `initproc`. -/
theorem Inv.of_quiet (hI : Inv s) (hat : s.pc i = pc) (h : Trans s i es s') (hself : PcInv s' i (s'.pc i))
    (hs : Asleep s' i → Asleep s i) (hw : ∀ st k, pc ≠ .exitWakeInit st k 0)
    (hm : ∀ q c, (s'.proc c).parent = some q → (s'.proc c).state = .zombie →
      (s.proc c).parent = some q ∧ (s.proc c).state = .zombie) : Good s i es s' := by
  refine ⟨hI.of_trans h hself fun q c ha hp hz => ?_, h⟩
  have ha' : Asleep s q := by
    by_cases e : q = i
    · subst e
      exact hs ha
    · exact h.asleep (h.pc q e) ha
  obtain ⟨hp', hz'⟩ := hm q c hp hz
  obtain ⟨e, hwake⟩ := hI.asleep q c ha' hp' hz'
  exact ⟨e, hwake.keep hat hw h⟩

/-- A change of one process that is no zombie afterwards makes no zombie child. -/
theorem zombies_update {x : Proc} (hx : x.state ≠ .zombie) (q c : Nat) : (update s.proc k x c).parent = some q →
    (update s.proc k x c).state = .zombie → (s.proc c).parent = some q ∧ (s.proc c).state = .zombie :=
  update_of (P := fun x => x.parent = some q → x.state = .zombie →
    (s.proc c).parent = some q ∧ (s.proc c).state = .zombie) (fun _ hp hz => ⟨hp, hz⟩)
    fun _ _ hz => absurd hz hx

theorem zombies_resched {x : Proc} (hr : Resched s k x) (q c : Nat) : (update s.proc k x c).parent = some q →
    (update s.proc k x c).state = .zombie → (s.proc c).parent = some q ∧ (s.proc c).state = .zombie := by
  refine update_of (P := fun x => x.parent = some q → x.state = .zombie →
    (s.proc c).parent = some q ∧ (s.proc c).state = .zombie) (fun _ hp hz => ⟨hp, hz⟩) ?_
  intro e hp hz
  subst e
  refine ⟨hr.parent ▸ hp, ?_⟩
  rcases hr.state with e | ⟨-, ha⟩
  · exact e ▸ hz
  · exact absurd hz ha.ne_zombie

/-- The same for a process that does not go to sleep. -/
theorem Inv.move (hI : Inv s) (hat : s.pc i = pc) (h : Trans s i es t) (hpc : t.pc i = pc') (hsl : ¬pc'.Sleeps)
    (hself : PcInv t i pc') (hwi : ∀ st k, pc ≠ .exitWakeInit st k 0)
    (hm : ∀ q c, (t.proc c).parent = some q → (t.proc c).state = .zombie →
      (s.proc c).parent = some q ∧ (s.proc c).state = .zombie) : Good s i es t := by
  refine hI.of_quiet hat h (hpc ▸ hself) (fun ha => ?_) hwi hm
  exact absurd (hpc ▸ ha.sleeps) hsl

/-- A step that only moves on, and takes or gives back `wait_lock` perhaps. -/
theorem Inv.goto (hI : Inv s) {w : Option Nat} (hat : s.pc i = pc) (ha : Alive (s.proc i))
    (hw : w = s.waitLock ∨ s.waitLock = none ∨ (s.pc i).HasWait) (hf : ∀ k, ¬pc'.Forks k) (hsl : ¬pc'.Sleeps)
    (hwi : ∀ st k, pc ≠ .exitWakeInit st k 0) (hself : PcInv ({ s with waitLock := w }.goto i pc') i pc') :
    Good s i [] ({ s with waitLock := w }.goto i pc') :=
  hI.move hat (trans_of .same rfl ha (fun k h => absurd h (hf k)) hsl hw fun _ => .inl rfl) (goto_pc_self ..) hsl
    hself hwi fun _ _ hp hz => ⟨hp, hz⟩

/-! ## Scheduling -/

/-- A process in the kernel is alive, but for one that has exited. -/
theorem Inv.place (hI : Inv s) (p : Nat) : s.pc p = .user ∨ s.pc p = .exitSched ∨ Alive (s.proc p) := by
  have hp := hI.pcs p
  cases e : s.pc p with
  | user => exact .inl rfl
  | exitSched => exact .inr (.inl rfl)
  | allocScan | killScan => rw [e] at hp; exact .inr (.inr hp)
  | exitReparent | exitWakeInit => rw [e] at hp; exact .inr (.inr hp.alive)
  | exitWakeParent | exitZombie => rw [e] at hp; exact .inr (.inr hp.1.alive)
  | _ => rw [e] at hp; exact .inr (.inr hp.1)

theorem Inv.user_of_unused (hI : Inv s) (h : (s.proc p).state = .unused) : s.pc p = .user := by
  rcases hI.place p with e | e | ha
  · exact e
  · cases h.symm.trans (hI.here e).1
  · exact absurd h ha.ne_unused

/-- A change of scheduling only, which moves no process on. -/
theorem Inv.resched (hI : Inv s) {j : Nat} {p : Proc} (hr : Resched s j p) : Good s NPROC [] (s.set j p) := by
  -- seen as a step of a process outside the table, so that all processes are the others
  have hu := hI.user_of_unused (hI.bound NPROC (Nat.le_refl _))
  have h : Trans s NPROC [] (s.set j p) := {
    change := .resched hr
    pc := fun _ _ => rfl
    moves := .inl rfl
    forks := fun k hk => .inl hk
    sleeps := fun ha => by have := ha.sleeps; rw [show (s.set j p).pc = s.pc from rfl, hu] at this; exact this.elim
    waitLock := .inl rfl
    lock := fun _ => .inl rfl }
  refine hI.of_quiet hu h ?_ (h.asleep rfl) nofun (zombies_resched hr)
  rw [show (s.set j p).pc = s.pc from rfl, hu]
  trivial

theorem resched_wake (s : Sys) (m : Nat) (chan : Option Chan) : Resched s m ((s.proc m).wake chan) := by
  unfold Proc.wake
  split
  · rename_i h
    exact ⟨rfl, rfl, rfl, .inr ⟨.inr (.inr h.1), .inl rfl⟩, nofun⟩
  · exact ⟨rfl, rfl, rfl, .inl rfl, fun h => .inl ⟨h, rfl⟩⟩

theorem resched_kill (s : Sys) (m : Nat) : Resched s m (s.proc m).kill := by
  by_cases h : (s.proc m).state = .sleeping
  · exact ⟨rfl, rfl, rfl, .inr ⟨.inr (.inr h), .inl (by simp [Proc.kill, h])⟩, fun h' => by simp [Proc.kill, h] at h'⟩
  · exact ⟨rfl, rfl, rfl, .inl (by simp [Proc.kill, h]), fun h' => by simp [Proc.kill, h] at h'⟩

theorem wakeupAt_some {chan : Option Chan} (h : wakeupAt s i chan m = some t) :
    m = i ∧ t = s ∨ m ≠ i ∧ s.lock m = none ∧ t = s.set m ((s.proc m).wake chan) := by
  unfold wakeupAt at h
  split at h
  · cases h
    exact .inl ⟨‹_›, rfl⟩
  · split at h
    · cases h
      exact .inr ⟨‹_›, ‹_›, rfl⟩
    · cases h

theorem wake_exiting {chan : Option Chan} (he : Exiting s i k) :
    Exiting ((s.set m ((s.proc m).wake chan)).goto i pc') i k := by
  have hr := resched_wake s m chan
  refine ⟨?_, he.waitLock, he.notInit, fun j hj => ?_⟩
  · refine update_of (P := Alive) (fun _ => he.alive) fun e => ?_
    rcases hr.state with e' | ⟨-, ha⟩
    · rw [Alive, e', ← e]
      exact he.alive
    · exact ha
  · refine update_of (P := fun x => x.parent ≠ some i) (fun _ => he.noChild j hj) fun e => ?_
    rw [hr.parent, ← e]
    exact he.noChild j hj

section Keeps

variable (hI : Inv s)
include hI

/-! ## `kfork` -/

theorem good_alloc (hpc : s.pc i = .allocScan k) (h : allocStep s i k = some (s', es)) : Good s i es s' := by
  have ha : Alive (s.proc i) := hI.here hpc
  unfold allocStep at h
  split at h
  · rename_i hk
    split at h
    · rename_i hlk
      split at h
      · rename_i hu
        cases h
        have hki : i ≠ k := fun e => ha.ne_unused (e ▸ hu)
        have hnf : ∀ p, ¬(s.pc p).Forks k := fun p hf => by
          have := (hI.owns hf).1
          rw [hu] at this
          cases this
        refine hI.move hpc (trans_of (.alloc hpc hk hu) rfl ha (fun j hj => ?_) id (.inl rfl)
          (lock_acquire hlk)) (goto_pc_self ..) id ⟨?_, ⟨?_, fun p hp => ?_⟩, ?_, ?_⟩ nofun
          (zombies_update (by simp))
        · cases hj
          exact .inr hu
        · show Alive (update s.proc k _ i)
          rwa [update_of_ne hki]
        · show (update s.proc k _ k).state = .used
          rw [update_self]
        · by_contra e
          have hp' : (update s.pc i (.forkAlloc k) p).Forks k := hp
          rw [update_of_ne e] at hp'
          exact hnf p hp'
        · show (update s.proc k _ k).parent = none
          rw [update_self]
          exact hI.unused k hu
        · exact update_self ..
      · cases h
        exact hI.goto hpc ha (.inl rfl) (fun _ => id) id nofun ha
    · cases h
  · cases h
    exact hI.goto hpc ha (.inl rfl) (fun _ => id) id nofun trivial

theorem good_forkAlloc (hpc : s.pc i = .forkAlloc k) (h : forkAllocStep s i k ok = some (s', es)) : Good s i es s' := by
  obtain ⟨ha, hown, hpar, -⟩ := hI.here hpc
  have hlk : (s.pc i).HasLock i k := by rw [hpc]; rfl
  unfold forkAllocStep at h
  split at h
  · cases h
    refine hI.move hpc (trans_of .same rfl ha (fun j hj => ?_) id (.inl rfl) (lock_release hlk))
      (goto_pc_self ..) id ⟨ha, hown.keep rfl hown.1, hpar⟩ nofun fun _ _ hp hz => ⟨hp, hz⟩
    rw [hpc]
    exact .inl hj
  · cases h
    exact hI.move hpc (trans_of (.drop hpc) rfl ha (fun _ => False.elim) id (.inl rfl) (lock_release hlk))
      (goto_pc_self ..) id trivial nofun (zombies_update (by simp [Proc.free]))

theorem good_forkParent (hpc : s.pc i = .forkParent k) (h : forkParentStep s i k = some (s', es)) : Good s i es s' := by
  obtain ⟨ha, hown, hpar⟩ := hI.here hpc
  have hki : i ≠ k := fun e => ha.ne_used (e ▸ hown.1)
  unfold forkParentStep at h
  split at h
  · rename_i hw
    cases h
    refine hI.move hpc (trans_of (.setParent hpc hw ha) rfl ha (fun j hj => ?_) id (.inl rfl)
      fun _ => .inl rfl) (goto_pc_self ..) id ⟨?_, hown.keep rfl ?_, ?_⟩ nofun
      (zombies_update (by simp [hown.1]))
    · rw [hpc]
      exact .inl hj
    · show Alive (update s.proc k _ i)
      rwa [update_of_ne hki]
    · show (update s.proc k _ k).state = .used
      rw [update_self]
      exact hown.1
    · show (update s.proc k _ k).parent = some i
      rw [update_self]
  · cases h

theorem good_forkStart (hpc : s.pc i = .forkStart k) (h : forkStartStep s i k = some (s', es)) : Good s i es s' := by
  obtain ⟨ha, hown, hpar⟩ := hI.here hpc
  unfold forkStartStep at h
  split at h
  · cases h
    exact hI.move hpc (trans_of (.start hpc) rfl ha (fun _ => False.elim) id (.inl rfl) fun _ => .inl rfl)
      (goto_pc_self ..) id trivial nofun (zombies_update (by simp))
  · cases h

/-! ## `kexit` -/

theorem good_reparent (hpc : s.pc i = .exitReparent st k) (h : reparentStep s i st k = some (s', es)) : Good s i es s' := by
  have he := hI.here hpc
  unfold reparentStep at h
  split at h
  · split at h
    · rename_i hk hp
      cases h
      -- the child may be a zombie and `initproc` asleep, which is now to be woken up
      have hki : i ≠ k := fun e => (hI.parent k i hp).2.1 e
      have hT : Trans s i [] ((s.set k { s.proc k with parent := some initproc }).goto i (.exitWakeInit st k 0)) :=
        trans_of (.reparent hpc hp) rfl he.alive (fun _ => False.elim) id (.inl rfl) fun _ => .inl rfl
      have hwake : WakingInit ((s.set k { s.proc k with parent := some initproc }).goto i
          (.exitWakeInit st k 0)) := ⟨i, st, k, goto_pc_self ..⟩
      refine ⟨hI.of_trans hT ?_ fun q c ha hq hz => ⟨?_, hwake⟩, hT⟩
      · rw [goto_pc_self]
        refine ⟨?_, he.waitLock, he.notInit, ?_⟩
        · show Alive (update s.proc k _ i)
          rw [update_of_ne hki]
          exact he.alive
        · intro j hj
          show (update s.proc k _ j).parent ≠ some i
          refine update_of (P := fun x => x.parent ≠ some i) (fun e => ?_) fun _ e => ?_
          · exact he.noChild j (by omega)
          · exact he.notInit (Option.some.inj e).symm
      · revert hq hz
        show (update s.proc k _ c).parent = some q →
          (update s.proc k _ c).state = .zombie → q = initproc
        refine update_of (P := fun x => x.parent = some q → x.state = .zombie → q = initproc)
          (fun e hq hz => ?_) fun _ hq _ => (Option.some.inj hq).symm
        exact (hI.asleep q c (hT.asleep (hT.pc q (ha.ne id)) ha) hq hz).1
    · rename_i hk hp
      cases h
      exact hI.goto hpc he.alive (.inl rfl) (fun _ => id) id nofun
        ⟨he.alive, he.waitLock, he.notInit, he.noChild.succ hp⟩
  · rename_i hk
    cases h
    refine hI.goto hpc he.alive (.inl rfl) (fun _ => id) id nofun
      ⟨⟨he.alive, he.waitLock, he.notInit, ?_⟩, rfl, fun q _ hq => by omega⟩
    intro j hj
    exact he.noChild j (by omega)

/-- A process whose lock is free, woken up, is not asleep in `kwait`. -/
theorem not_asleep_wake (hm : m ≠ i) (hl : s.lock m = none) :
    ¬Asleep ((s.set m ((s.proc m).wake (some (.proc m)))).goto i pc') m := by
  have hpc : ((s.set m ((s.proc m).wake (some (.proc m)))).goto i pc').pc m = s.pc m :=
    update_of_ne hm ..
  have hproc : ((s.set m ((s.proc m).wake (some (.proc m)))).goto i pc').proc m =
      (s.proc m).wake (some (.proc m)) := update_self ..
  have hp := hI.pcs m
  rintro (⟨addr, e⟩ | ⟨⟨addr, e⟩, hs⟩)
  · rw [hpc] at e
    rw [e] at hp
    cases hl.symm.trans hp.2
  · rw [hpc] at e
    rw [e] at hp
    rw [hproc] at hs
    by_cases hsl : (s.proc m).state = .sleeping
    · simp [Proc.wake, hsl, hp.2 hsl] at hs
    · simp only [Proc.wake, hsl, false_and, if_false] at hs

theorem good_wakeInit (hpc : s.pc i = .exitWakeInit st k m) (h : wakeInitStep s i st k m = some (s', es)) :
    Good s i es s' := by
  have he : Exiting s i (k + 1) := hI.here hpc
  have hwi : m ≠ initproc → ∀ st' k', Pc.exitWakeInit st k m ≠ .exitWakeInit st' k' 0 := by
    intro hm st' k' e
    cases e
    exact hm rfl
  unfold wakeInitStep at h
  split at h
  · rename_i hm
    rw [Option.map_eq_some_iff] at h
    obtain ⟨t, ht, e⟩ := h
    cases e
    rcases wakeupAt_some ht with ⟨rfl, rfl⟩ | ⟨hne, hl, rfl⟩
    · exact hI.goto hpc he.alive (.inl rfl) (fun _ => id) id (hwi he.notInit)
        { he with }
    · have hr := resched_wake s m (some (.proc initproc))
      have hT : Trans s i [] ((s.set m ((s.proc m).wake (some (.proc initproc)))).goto i (.exitWakeInit st k (m + 1))) :=
        trans_of (.resched hr) rfl he.alive (fun _ => False.elim) id (.inl rfl) fun _ => .inl rfl
      by_cases hmi : m = initproc
      · -- `initproc` itself: it is not asleep any more
        subst hmi
        refine ⟨hI.of_trans hT ?_ fun q c ha hp hz => ?_, hT⟩
        · rw [goto_pc_self]
          exact wake_exiting he
        · obtain ⟨hp', hz'⟩ := zombies_resched hr q c hp hz
          have hq := (hI.asleep q c (hT.asleep (hT.pc q (ha.ne id)) ha) hp' hz').1
          subst hq
          exact absurd ha (not_asleep_wake hI hne hl)
      · exact hI.move hpc hT (goto_pc_self ..) id (wake_exiting he) (hwi hmi) (zombies_resched hr)
  · rename_i hm
    cases h
    exact hI.goto hpc he.alive (.inl rfl) (fun _ => id) id
      (hwi fun e => hm (by rw [e]; decide)) { he with }

theorem good_wakeParent {parent : Option Nat} (hpc : s.pc i = .exitWakeParent st parent m)
    (h : wakeParentStep s i st parent m = some (s', es)) : Good s i es s' := by
  obtain ⟨he, hpar, hns⟩ := hI.here hpc
  have hqi : ∀ q, parent = some q → q ≠ i := fun q hq =>
    (hI.parent i q (hpar ▸ hq)).2.1
  unfold wakeParentStep at h
  split at h
  · rw [Option.map_eq_some_iff] at h
    obtain ⟨t, ht, e⟩ := h
    cases e
    rcases wakeupAt_some ht with ⟨rfl, rfl⟩ | ⟨hne, hl, rfl⟩
    · refine hI.goto hpc he.alive (.inl rfl) (fun _ => id) id nofun
        ⟨{ he with }, hpar, fun q hq hlt ha => ?_⟩
      have hne := hqi q hq
      exact hns q hq (by omega) (ha.of_goto rfl rfl hne)
    · have hr := resched_wake s m (parent.map .proc)
      have hT : Trans s i [] ((s.set m ((s.proc m).wake (parent.map .proc))).goto i (.exitWakeParent st parent (m + 1))) :=
        trans_of (.resched hr) rfl he.alive (fun _ => False.elim) id (.inl rfl) fun _ => .inl rfl
      refine hI.move hpc hT (goto_pc_self ..) id ⟨wake_exiting he, ?_, fun q hq hlt ha => ?_⟩ nofun
        (zombies_resched hr)
      · show parent = (update s.proc m _ i).parent
        rw [update_of_ne (Ne.symm hne)]
        exact hpar
      · by_cases e : q = m
        · subst e
          subst hq
          exact not_asleep_wake hI hne hl ha
        · exact hns q hq (by omega) (hT.asleep (hT.pc q (hqi q hq)) ha)
  · rename_i hm
    cases h
    refine hI.goto hpc he.alive (.inl rfl) (fun _ => id) id nofun
      ⟨{ he with }, fun q hq ha => ?_⟩
    have hq' : parent = some q := hpar.trans hq
    have hlt := (hI.parent i q hq).1.lt hI
    exact hns q hq' (by omega) (ha.of_goto rfl rfl (hqi q hq'))

theorem good_zombie (hpc : s.pc i = .exitZombie st) (h : zombieStep s i st = some (s', es)) : Good s i es s' := by
  obtain ⟨he, hns⟩ := hI.here hpc
  unfold zombieStep at h
  split at h
  · rename_i hl
    cases h
    have hT : Trans s i [.exited i (s.proc i).pid st]
        (((s.set i { s.proc i with xstate := st, state := .zombie }).acquire i i).releaseWait.goto i .exitSched) :=
      trans_of (.zombie hpc) rfl he.alive (fun _ => False.elim) id (.inr (.inr (by rw [hpc]; trivial)))
        (lock_acquire hl)
    refine ⟨hI.of_trans hT ?_ fun q c ha => ?_, hT⟩
    · rw [goto_pc_self]
      refine ⟨?_, update_self ..⟩
      show (update s.proc i _ i).state = .zombie
      rw [update_self]
    · have ha' := hT.asleep (hT.pc q (ha.ne id)) ha
      show (update s.proc i _ c).parent = some q → (update s.proc i _ c).state = .zombie → _
      refine update_of (P := fun x => x.parent = some q → x.state = .zombie →
        q = initproc ∧ WakingInit _) (fun _ hp hz => ?_) fun e hp _ => absurd ha' (hns q hp)
      obtain ⟨e, hwake⟩ := hI.asleep q c ha' hp hz
      exact ⟨e, hwake.keep hpc nofun hT⟩
  · cases h

theorem good_exitSched (hpc : s.pc i = .exitSched) : Good s i [] ((s.release i).goto i .user) := by
  have hT : Trans s i [] ((s.release i).goto i .user) := {
    change := .same
    pc := fun p hp => update_of_ne hp ..
    moves := .inr (.inr hpc)
    forks := fun k hk => by rw [goto_pc_self] at hk; exact hk.elim
    sleeps := fun ha => by have := ha.sleeps; rw [goto_pc_self] at this; exact this.elim
    waitLock := .inl rfl
    lock := lock_release (by rw [hpc]; rfl) }
  exact hI.move hpc hT (goto_pc_self ..) id trivial nofun fun _ _ hp hz => ⟨hp, hz⟩

/-! ## `kwait` -/

/-- A zombie whose lock is free has left the kernel. -/
theorem Inv.user_of_zombie (hz : (s.proc k).state = .zombie) (hl : s.lock k = none) : s.pc k = .user := by
  rcases hI.place k with e | e | ha
  · exact e
  · cases hl.symm.trans (hI.here e).2
  · exact absurd hz ha.ne_zombie

theorem good_waitScan {havekids : Bool} (hpc : s.pc i = .waitScan addr havekids k)
    (h : waitScanStep s i addr havekids k = some (s', es)) : Good s i es s' := by
  obtain ⟨ha, hw, hn⟩ := hI.here hpc
  have hhw : (s.pc i).HasWait := by rw [hpc]; trivial
  unfold waitScanStep at h
  split at h
  · split at h
    · rename_i hk hpar
      split at h
      · rename_i hl
        split at h
        · rename_i hz
          cases h
          have hki : k ≠ i := fun e => ha.ne_zombie (e ▸ hz)
          refine hI.move hpc (trans_of .same rfl ha (fun _ => False.elim) id (.inl rfl) (lock_acquire hl))
            (goto_pc_self ..) id ⟨ha, hw, update_self .., hz, hpar, ?_⟩ nofun
            fun _ _ hp hz => ⟨hp, hz⟩
          exact (update_of_ne hki ..).trans (hI.user_of_zombie hz hl)
        · rename_i hz
          cases h
          exact hI.goto hpc ha (.inl rfl) (fun _ => id) id nofun ⟨ha, hw, hn.succ fun _ => hz⟩
      · cases h
    · rename_i hk hpar
      cases h
      exact hI.goto hpc ha (.inl rfl) (fun _ => id) id nofun
        ⟨ha, hw, hn.succ fun e => absurd e hpar⟩
  · rename_i hk
    have hn' : NoZombie s i NPROC := fun j hj => hn j (by omega)
    split at h
    · cases h
      exact hI.goto hpc ha (.inr (.inr hhw)) (fun _ => id) id nofun trivial
    · split at h
      · split at h
        · cases h
          exact hI.goto hpc ha (.inr (.inr hhw)) (fun _ => id) id nofun trivial
        · cases h
          exact hI.goto hpc ha (.inl rfl) (fun _ => id) id nofun ⟨ha, hw, hn'⟩
      · cases h

theorem good_waitFound (hpc : s.pc i = .waitFound addr k) (h : waitFoundStep s i addr k ok = some (s', es)) :
    Good s i es s' := by
  obtain ⟨ha, hw, -⟩ := hI.here hpc
  have hhw : (s.pc i).HasWait := by rw [hpc]; trivial
  have hlk : (s.pc i).HasLock i k := by rw [hpc]; rfl
  unfold waitFoundStep at h
  split at h
  · cases h
    exact hI.move hpc (trans_of (.failed hpc) rfl ha (fun _ => False.elim) id (.inr (.inr hhw))
      (lock_release hlk)) (goto_pc_self ..) id trivial nofun fun _ _ hp hz => ⟨hp, hz⟩
  · cases h
    exact hI.move hpc (trans_of (.reap hpc) rfl ha (fun _ => False.elim) id (.inr (.inr hhw))
      (lock_release hlk)) (goto_pc_self ..) id trivial nofun (zombies_update (by simp [Proc.free]))

theorem good_waitToSleep (hpc : s.pc i = .waitToSleep addr) (h : waitToSleepStep s i addr = some (s', es)) :
    Good s i es s' := by
  obtain ⟨ha, hw, hn⟩ := hI.here hpc
  unfold waitToSleepStep at h
  split at h
  · rename_i hl
    cases h
    have hT : Trans s i [] ((s.acquire i i).releaseWait.goto i (.waitWindow addr)) := {
      change := .same
      pc := fun p hp => update_of_ne hp ..
      moves := .inr (.inl ha)
      forks := fun k hk => by rw [goto_pc_self] at hk; exact hk.elim
      sleeps := fun _ => .inr ⟨addr, hpc⟩
      waitLock := .inr (.inr (by rw [hpc]; trivial))
      lock := lock_acquire hl }
    refine ⟨hI.of_trans hT ?_ fun q c hs hp hz => ?_, hT⟩
    · rw [goto_pc_self]
      exact ⟨ha, update_self ..⟩
    · by_cases e : q = i
      · -- it has looked at all its children with `wait_lock` held
        subst e
        exact absurd hz (hn c (hI.parent c q hp).2.2 hp)
      · obtain ⟨e', hwake⟩ := hI.asleep q c (hT.asleep (hT.pc q e) hs) hp hz
        exact ⟨e', hwake.keep hpc nofun hT⟩
  · cases h

theorem good_waitWindow (hpc : s.pc i = .waitWindow addr) (h : waitWindowStep s i addr = some (s', es)) : Good s i es s' := by
  have hp := hI.here hpc
  cases h
  have hr : Resched s i { s.proc i with chan := some (.proc i), state := .sleeping } :=
    ⟨rfl, rfl, rfl, .inr ⟨hp.1, .inr (.inr rfl)⟩, fun _ => .inr (.inr ⟨addr, hpc⟩)⟩
  have hold : Asleep s i := .inl ⟨addr, hpc⟩
  have hlk : (s.pc i).HasLock i i := by rw [hpc]; rfl
  refine hI.of_quiet hpc {
      change := .resched hr
      pc := fun p hp => update_of_ne hp ..
      moves := .inr (.inl hp.1)
      forks := fun k hk => by rw [goto_pc_self] at hk; exact hk.elim
      sleeps := fun _ => .inl hold
      waitLock := .inl rfl
      lock := lock_release hlk } ?_ (fun _ => hold) nofun
    (zombies_resched hr)
  rw [goto_pc_self]
  have e : (((s.set i { s.proc i with chan := some (.proc i), state := .sleeping }).release i).goto i
      (.waitAsleep addr)).proc i = { s.proc i with chan := some (.proc i), state := .sleeping } :=
    update_self ..
  refine ⟨?_, fun _ => ?_⟩
  · rw [e]
    exact .inr (.inr rfl)
  · rw [e]

theorem good_waitAsleep (hpc : s.pc i = .waitAsleep addr) (h : waitAsleepStep s i addr = some (s', es)) : Good s i es s' := by
  have hp := hI.here hpc
  unfold waitAsleepStep at h
  split at h
  · rename_i hw
    cases h
    exact hI.goto hpc hp.1 (.inr (.inl hw)) (fun _ => id) id nofun
      ⟨hp.1, rfl, fun j hj => by omega⟩
  · cases h

/-! ## `kkill` -/

theorem good_kill {pid : BitVec 32} (hpc : s.pc i = .killScan pid k) (h : killStep s i pid k = some (s', es)) :
    Good s i es s' := by
  have ha : Alive (s.proc i) := hI.here hpc
  unfold killStep at h
  split at h
  · split at h
    · split at h
      · cases h
        have hr := resched_kill s k
        exact hI.move hpc (trans_of (.resched hr) rfl ha (fun _ => False.elim) id (.inl rfl)
          fun _ => .inl rfl) (goto_pc_self ..) id trivial nofun (zombies_resched hr)
      · cases h
        exact hI.goto hpc ha (.inl rfl) (fun _ => id) id nofun ha
    · cases h
  · cases h
    exact hI.goto hpc ha (.inl rfl) (fun _ => id) id nofun trivial

/-! ## All steps -/

theorem good_go (h : goStep s i ok = some (s', es)) : Good s i es s' := by
  unfold goStep at h
  split at h
  · cases h
  · exact good_alloc hI ‹_› h
  · exact good_forkAlloc hI ‹_› h
  · exact good_forkParent hI ‹_› h
  · exact good_forkStart hI ‹_› h
  · exact good_reparent hI ‹_› h
  · exact good_wakeInit hI ‹_› h
  · exact good_wakeParent hI ‹_› h
  · exact good_zombie hI ‹_› h
  · cases h
  · exact good_waitScan hI ‹_› h
  · exact good_waitFound hI ‹_› h
  · exact good_waitToSleep hI ‹_› h
  · exact good_waitWindow hI ‹_› h
  · exact good_waitAsleep hI ‹_› h
  · exact good_kill hI ‹_› h

/-- The step is one of the process that acts, or of one that is not in the kernel. -/
theorem good_step {a : Act} (h : sysStep s a = some (s', es)) :
    Inv s' ∧ ∃ i, Trans s i es s' ∧ (s.pc i = .user ∨ ∃ ok, a = .go i ok) := by
  have hin {x : Nat} (hg : Good s x es s') (hx : s.pc x = .user ∨ ∃ ok, a = .go x ok) :
      Inv s' ∧ ∃ i, Trans s i es s' ∧ (s.pc i = .user ∨ ∃ ok, a = .go i ok) := ⟨hg.1, x, hg.2, hx⟩
  have hu := hI.user_of_unused (hI.bound NPROC (Nat.le_refl _))
  cases a with
  | fork i =>
    obtain ⟨⟨hr, hpc⟩, h⟩ := Option.ite_none_right_eq_some.1 h
    cases h
    exact hin (hI.goto hpc (.inr (.inl hr)) (.inl rfl) (fun _ => id) id nofun (.inr (.inl hr))) (.inl hpc)
  | exit i st =>
    obtain ⟨⟨hr, hpc, hi, hw⟩, h⟩ := Option.ite_none_right_eq_some.1 h
    cases h
    exact hin (hI.goto hpc (.inr (.inl hr)) (.inr (.inl hw)) (fun _ => id) id nofun
      ⟨.inr (.inl hr), rfl, hi, fun j hj => by omega⟩) (.inl hpc)
  | wait i addr =>
    obtain ⟨⟨hr, hpc, hw⟩, h⟩ := Option.ite_none_right_eq_some.1 h
    cases h
    exact hin (hI.goto hpc (.inr (.inl hr)) (.inr (.inl hw)) (fun _ => id) id nofun
      ⟨.inr (.inl hr), rfl, fun j hj => by omega⟩) (.inl hpc)
  | kill i pid =>
    obtain ⟨⟨hr, hpc⟩, h⟩ := Option.ite_none_right_eq_some.1 h
    cases h
    exact hin (hI.goto hpc (.inr (.inl hr)) (.inl rfl) (fun _ => id) id nofun (.inr (.inl hr))) (.inl hpc)
  | go i ok =>
    simp only [sysStep] at h
    split at h
    · exact hin (good_go hI h) (.inr ⟨ok, rfl⟩)
    · split at h
      · cases h
        exact hin (good_exitSched hI ‹_›) (.inr ⟨ok, rfl⟩)
      · cases h
  | dispatch i =>
    obtain ⟨⟨hr, -⟩, h⟩ := Option.ite_none_right_eq_some.1 h
    cases h
    exact hin (hI.resched ⟨rfl, rfl, rfl, .inr ⟨.inl hr, .inr (.inl rfl)⟩, nofun⟩) (.inl hu)
  | yield i =>
    obtain ⟨⟨hr, -⟩, h⟩ := Option.ite_none_right_eq_some.1 h
    cases h
    exact hin (hI.resched ⟨rfl, rfl, rfl, .inr ⟨.inr (.inl hr), .inl rfl⟩, nofun⟩) (.inl hu)
  | sleep i n =>
    obtain ⟨⟨hr, hpc, -⟩, h⟩ := Option.ite_none_right_eq_some.1 h
    cases h
    exact hin (hI.resched ⟨rfl, rfl, rfl, .inr ⟨.inr (.inl hr), .inr (.inr rfl)⟩, fun _ => .inr (.inl hpc)⟩) (.inl hu)
  | wake n m =>
    obtain ⟨-, h⟩ := Option.ite_none_right_eq_some.1 h
    cases h
    exact hin (hI.resched (resched_wake s m _)) (.inl hu)

end Keeps

theorem boot_inv : Inv boot where
  pcs _ := trivial
  init := ⟨.inl rfl, rfl⟩
  parent _ _ h := by cases h
  hasParent j hj hu := absurd (if_neg hj) hu
  unused _ _ := rfl
  bound j hj := if_neg (by rintro rfl; exact absurd hj (by decide))
  asleep _ _ _ h := by cases h

end Xv6.Wait
