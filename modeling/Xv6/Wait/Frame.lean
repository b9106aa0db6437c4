import Xv6.Wait.Steps

/-!
# Frame lemmas

What a step of process `i` leaves alone, from `Change` and the invariant.
-/

namespace Xv6.Wait

open Function

theorem Alive.ne_used {p : Proc} (h : Alive p) : p.state ≠ .used := by
  rcases h with h | h | h <;> rw [h] <;> decide

theorem Alive.ne_unused {p : Proc} (h : Alive p) : p.state ≠ .unused := by
  rcases h with h | h | h <;> rw [h] <;> decide

theorem Alive.ne_zombie {p : Proc} (h : Alive p) : p.state ≠ .zombie := by
  rcases h with h | h | h <;> rw [h] <;> decide

variable {p k q : Nat}

theorem update_of {P : Proc → Prop} {f : Nat → Proc} {x : Proc} (h : p ≠ k → P (f p)) (hx : p = k → P x) :
    P (update f k x p) := by
  by_cases e : p = k
  · rw [e, update_self]
    exact hx e
  · rw [update_of_ne e]
    exact h e

variable {s s' : Sys} {i : Nat} {es : List Event} {t : Nat → Proc} {n : BitVec 32}

/-- What a process at this place knows. -/
theorem Inv.here (hI : Inv s) {pc : Pc} (h : s.pc p = pc) : PcInv s p pc := h ▸ hI.pcs p

/-- A process that is being set up belongs to the one that forks it. -/
theorem Inv.owns (hI : Inv s) (h : (s.pc p).Forks k) : Owns s p k := by
  have hp := hI.pcs p
  cases e : s.pc p with
  | forkAlloc j | forkParent j | forkStart j =>
    rw [e] at h hp
    cases h
    exact hp.2.1
  | _ => rw [e] at h; exact h.elim

theorem Inv.waitLock (hI : Inv s) (h : (s.pc p).HasWait) : s.waitLock = some p := by
  have hp := hI.pcs p
  cases e : s.pc p with
  | exitReparent | exitWakeInit => rw [e] at hp; exact hp.waitLock
  | exitWakeParent | exitZombie => rw [e] at hp; exact hp.1.waitLock
  | waitScan | waitFound | waitToSleep => rw [e] at hp; exact hp.2.1
  | _ => rw [e] at h; exact h.elim

theorem Inv.lock (hI : Inv s) (h : (s.pc p).HasLock p k) : s.lock k = some p := by
  have hp := hI.pcs p
  cases e : s.pc p with
  | forkAlloc j =>
    rw [e] at h hp
    cases h
    exact hp.2.2.2
  | waitFound addr j =>
    rw [e] at h hp
    cases h
    exact hp.2.2.1
  | exitSched | waitWindow =>
    rw [e] at h hp
    cases h
    exact hp.2
  | _ => rw [e] at h; exact h.elim

/-! ## The table -/

section

variable (hc : Change s i es t n)
include hc

/-- A property of process `j` is kept if each way to change the process keeps it. -/
theorem Change.keeps {P : Proc → Prop} {j : Nat} (hold : P (s.proc j)) (resched : ∀ x, Resched s j x → P x)
    (alloc : ∀ pid, j < NPROC → (s.proc j).state = .unused → P { s.proc j with pid := pid, state := .used })
    (drop : s.pc i = .forkAlloc j → P (s.proc j).free)
    (setParent : s.pc i = .forkParent j → s.waitLock = none → Alive (s.proc i) → P { s.proc j with parent := some i })
    (start : s.pc i = .forkStart j → P { s.proc j with state := .runnable })
    (reparent : ∀ st, s.pc i = .exitReparent st j → (s.proc j).parent = some i → P { s.proc j with parent := some initproc })
    (zombie : ∀ st, s.pc i = .exitZombie st → j = i → P { s.proc j with xstate := st, state := .zombie })
    (reap : ∀ addr, s.pc i = .waitFound addr j → P (s.proc j).free) : P (t j) := by
  have hset {k : Nat} {x : Proc} : (j = k → P x) → P (update s.proc k x j) := update_of fun _ => hold
  cases hc with
  | same | failed => exact hold
  | resched hr => exact hset fun e => resched _ (e ▸ hr)
  | alloc _ hk hu => exact hset fun e => by subst e; exact alloc _ hk hu
  | drop hpc => exact hset fun e => by subst e; exact drop hpc
  | setParent hpc hn ha => exact hset fun e => by subst e; exact setParent hpc hn ha
  | start hpc => exact hset fun e => by subst e; exact start hpc
  | reparent hpc hp => exact hset fun e => by subst e; exact reparent _ hpc hp
  | zombie hpc => exact hset fun e => by subst e; exact zombie _ hpc rfl
  | reap hpc => exact hset fun e => by subst e; exact reap _ hpc

/-- A live process stays so, but for one that exits. -/
theorem Change.alive (hI : Inv s) (h : Alive (s.proc p)) (hz : p = i → ∀ st, s.pc i ≠ .exitZombie st) : Alive (t p) := by
  refine hc.keeps h (fun x hr => ?_) (fun _ _ hu => absurd hu h.ne_unused)
    (fun hpc => absurd (hI.here hpc).2.1.1 h.ne_used) (fun _ _ _ => h) (fun _ => .inl rfl) (fun _ _ _ => h)
    (fun st hpc e => absurd hpc (hz e st)) fun _ hpc => absurd (hI.here hpc).2.2.2.1 h.ne_zombie
  rcases hr.state with e | ⟨-, ha⟩
  · rwa [Alive, e]
  · exact ha

/-- Parents are kept unless the step holds `wait_lock`, or takes it to set the parent of
its own child. -/
theorem Change.parent (hI : Inv s) (hw : s.waitLock ≠ some i) {j : Nat}
    (hj : ¬((∃ k, s.pc i = .forkParent k ∧ j = k) ∧ s.waitLock = none)) : (t j).parent = (s.proc j).parent :=
  hc.keeps (P := fun x => x.parent = (s.proc j).parent) rfl (fun _ hr => hr.parent) (fun _ _ _ => rfl)
    (fun hpc => (hI.here hpc).2.2.1.symm) (fun hpc hn _ => absurd ⟨⟨_, hpc, rfl⟩, hn⟩ hj) (fun _ => rfl)
    (fun _ hpc => absurd (hI.here hpc).waitLock hw) (fun _ _ _ => rfl) fun _ hpc => absurd (hI.here hpc).2.1 hw

/-- Processes become zombies, and zombies are freed, only under `wait_lock`. -/
theorem Change.zombie_iff (hI : Inv s) (hw : s.waitLock ≠ some i) (j : Nat) :
    (t j).state = .zombie ↔ (s.proc j).state = .zombie := by
  refine hc.keeps (P := fun x => x.state = .zombie ↔ (s.proc j).state = .zombie) .rfl (fun x hr => ?_)
    (fun _ _ hu => by simp [hu]) (fun hpc => by simp [Proc.free, (hI.here hpc).2.1.1]) (fun _ _ _ => .rfl)
    (fun hpc => by simp [(hI.here hpc).2.1.1]) (fun _ _ _ => .rfl) (fun _ hpc => absurd (hI.here hpc).1.waitLock hw)
    fun _ hpc => absurd (hI.here hpc).2.1 hw
  rcases hr.state with e | ⟨ha, ha'⟩
  · rw [e]
  · exact ⟨fun e => absurd e ha'.ne_zombie, fun e => absurd e ha.ne_zombie⟩

/-- A zombie stays as it is until it is reaped. -/
theorem Change.zombie_kept (hI : Inv s) {j : Nat} (hz : (s.proc j).state = .zombie)
    (hr : ∀ addr, s.pc i ≠ .waitFound addr j) :
    (t j).state = .zombie ∧ (t j).pid = (s.proc j).pid ∧ (t j).xstate = (s.proc j).xstate := by
  have hused {p : Nat} (ho : Owns s p j) : False := by
    have h := ho.1
    rw [hz] at h
    cases h
  refine hc.keeps (P := fun x => x.state = .zombie ∧ x.pid = (s.proc j).pid ∧ x.xstate = (s.proc j).xstate)
    ⟨hz, rfl, rfl⟩ (fun x h => ?_) (fun _ _ hu => by rw [hz] at hu; cases hu) (fun hpc => (hused (hI.here hpc).2.1).elim)
    (fun hpc _ _ => (hused (hI.here hpc).2.1).elim) (fun hpc => (hused (hI.here hpc).2.1).elim)
    (fun _ _ _ => ⟨hz, rfl, rfl⟩) (fun _ hpc e => absurd hz (e ▸ (hI.here hpc).1.alive.ne_zombie))
    fun addr hpc => absurd hpc (hr addr)
  rcases h.state with e | ⟨ha, -⟩
  · exact ⟨e.trans hz, h.pid, h.xstate⟩
  · exact absurd hz ha.ne_zombie

/-- A process in `kwait` goes to sleep by itself only. -/
theorem Change.sleeping {addr : Bool} (hpc : s.pc q = .waitAsleep addr) :
    (t q).state = .sleeping → (s.proc q).state = .sleeping ∧ (t q).chan = (s.proc q).chan := by
  refine hc.keeps (P := fun x => x.state = .sleeping → (s.proc q).state = .sleeping ∧ x.chan = (s.proc q).chan)
    (fun h => ⟨h, rfl⟩) (fun x hr h => ?_) (fun _ _ _ => nofun) (fun _ => nofun) (fun _ _ _ h => ⟨h, rfl⟩) (fun _ => nofun)
    (fun _ _ _ h => ⟨h, rfl⟩) (fun _ _ _ => nofun) fun _ _ => nofun
  rcases hr.sleep h with h | h | ⟨a, h⟩
  · exact h
  · rw [hpc] at h; cases h
  · rw [hpc] at h; cases h

/-- A process being set up is changed by its own `kfork` only. -/
theorem Change.used (hI : Inv s) (hp : p ≠ i) (hf : (s.pc p).Forks k) (hpar : (s.proc k).parent ≠ some i) :
    (t k).state = .used ∧ (t k).parent = (s.proc k).parent := by
  have hown := hI.owns hf
  have hnot : ¬(s.pc i).Forks k := fun h => hp (hown.2 i h).symm
  refine hc.keeps (P := fun x => x.state = .used ∧ x.parent = (s.proc k).parent) ⟨hown.1, rfl⟩ (fun x hr => ?_)
    (fun _ _ hu => by rw [hown.1] at hu; cases hu) (fun hpc => absurd (by rw [hpc]; rfl) hnot)
    (fun hpc _ _ => absurd (by rw [hpc]; rfl) hnot) (fun hpc => absurd (by rw [hpc]; rfl) hnot)
    (fun _ _ hp' => absurd hp' hpar) (fun _ hpc e => absurd hown.1 (e ▸ (hI.here hpc).1.alive.ne_used)) fun _ hpc => ?_
  · rcases hr.state with e | ⟨ha, -⟩
    · exact ⟨e.trans hown.1, hr.parent⟩
    · exact absurd hown.1 ha.ne_used
  · have hz := (hI.here hpc).2.2.2.1
    rw [hown.1] at hz
    cases hz

end

/-! ## The other processes -/

/-- Only a process itself goes to sleep. -/
theorem Trans.asleep (h : Trans s i es s') (hpc : s'.pc q = s.pc q) (ha : Asleep s' q) : Asleep s q := by
  rcases ha with ⟨a, e⟩ | ⟨⟨a, e⟩, hs⟩
  · exact .inl ⟨a, hpc ▸ e⟩
  · rw [hpc] at e
    exact .inr ⟨⟨a, e⟩, (h.change.sleeping e hs).1⟩

section

variable (h : Trans s i es s') (hI : Inv s) (hp : p ≠ i)
include h hI hp

theorem Trans.waitLock_eq (hw : s.waitLock = some p) : s'.waitLock = some p := by
  rcases h.waitLock with e | e | e
  · rw [e, hw]
  · rw [hw] at e; cases e
  · have e' := hI.waitLock e
    rw [hw] at e'
    cases e'
    exact absurd rfl hp

theorem Trans.lock_eq (hw : s.lock k = some p) : s'.lock k = some p := by
  rcases h.lock k with e | e | e
  · rw [e, hw]
  · rw [hw] at e; cases e
  · have e' := hI.lock e
    rw [hw] at e'
    cases e'
    exact absurd rfl hp

/-- While another process has `wait_lock`, the tree and the zombies stay as they are. -/
theorem Trans.tree (hw : s.waitLock = some p) (j : Nat) : (s'.proc j).parent = (s.proc j).parent ∧
      ((s'.proc j).state = .zombie ↔ (s.proc j).state = .zombie) := by
  have hi : s.waitLock ≠ some i := by
    rw [hw]
    exact fun e => hp (Option.some.inj e)
  refine ⟨h.change.parent hI hi ?_, h.change.zombie_iff hI hi j⟩
  rintro ⟨-, e⟩
  rw [hw] at e
  cases e

/-- The children seen so far under `wait_lock` stay what they were. -/
theorem Trans.noChild (hw : s.waitLock = some p) (hn : NoChild s p k) : NoChild s' p k := by
  intro j hj
  rw [(h.tree hI hp hw j).1]
  exact hn j hj

theorem Trans.noZombie (hw : s.waitLock = some p) (hn : NoZombie s p k) : NoZombie s' p k := by
  intro j hj
  rw [(h.tree hI hp hw j).1, Ne, (h.tree hI hp hw j).2]
  exact hn j hj

theorem Trans.alive (ha : Alive (s.proc p)) : Alive (s'.proc p) :=
  h.change.alive hI ha fun e => absurd e hp

theorem Trans.exiting (he : Exiting s p k) : Exiting s' p k :=
  ⟨h.alive hI hp he.alive, h.waitLock_eq hI hp he.waitLock, he.notInit, h.noChild hI hp he.waitLock he.noChild⟩

/-- Nobody falls asleep in `kwait` while another process has `wait_lock`. -/
theorem Trans.not_asleep (hw : s.waitLock = some p) (hs : ¬Asleep s q) : ¬Asleep s' q := by
  intro ha
  by_cases e : q = i
  · subst e
    rcases h.sleeps ha with ha | ⟨addr, e⟩
    · exact hs ha
    · have hw' := hI.waitLock (p := q) (by rw [e]; trivial)
      rw [hw] at hw'
      exact hp (Option.some.inj hw')
  · exact hs (h.asleep (h.pc q e) ha)

/-- Others leave a process that is being set up alone. -/
theorem Trans.owns (hf : (s.pc p).Forks k) (hpar : (s.proc k).parent ≠ some i) :
    Owns s' p k ∧ (s'.proc k).parent = (s.proc k).parent := by
  have hown := hI.owns hf
  have hu := h.change.used hI hp hf hpar
  refine ⟨⟨hu.1, fun p' hf' => ?_⟩, hu.2⟩
  by_cases e : p' = i
  · subst e
    rcases h.forks k hf' with hf' | hun
    · exact hown.2 p' hf'
    · rw [hown.1] at hun
      cases hun
  · rw [h.pc p' e] at hf'
    exact hown.2 p' hf'

/-- What the other processes know is kept. -/
theorem Trans.pcInv : PcInv s' p (s'.pc p) := by
  have hp' := hI.pcs p
  rw [h.pc p hp]
  cases e : s.pc p with
  | user => trivial
  | allocScan | killScan =>
    rw [e] at hp'
    exact h.alive hI hp hp'
  | forkAlloc k =>
    rw [e] at hp'
    obtain ⟨ha, ho, hpar, hl⟩ := hp'
    have ho' := h.owns hI hp (by rw [e]; rfl) (by rw [hpar]; nofun)
    exact ⟨h.alive hI hp ha, ho'.1, ho'.2.trans hpar, h.lock_eq hI hp hl⟩
  | forkParent k =>
    rw [e] at hp'
    obtain ⟨ha, ho, hpar⟩ := hp'
    have ho' := h.owns hI hp (by rw [e]; rfl) (by rw [hpar]; nofun)
    exact ⟨h.alive hI hp ha, ho'.1, ho'.2.trans hpar⟩
  | forkStart k =>
    rw [e] at hp'
    obtain ⟨ha, ho, hpar⟩ := hp'
    have ho' := h.owns hI hp (by rw [e]; rfl) (by rw [hpar]; exact fun e => hp (Option.some.inj e))
    exact ⟨h.alive hI hp ha, ho'.1, ho'.2.trans hpar⟩
  | exitReparent | exitWakeInit =>
    rw [e] at hp'
    exact h.exiting hI hp hp'
  | exitWakeParent st parent m =>
    rw [e] at hp'
    obtain ⟨he, hpar, hq⟩ := hp'
    exact ⟨h.exiting hI hp he, hpar.trans (h.tree hI hp he.waitLock p).1.symm,
      fun q hq' hm => h.not_asleep hI hp he.waitLock (hq q hq' hm)⟩
  | exitZombie st =>
    rw [e] at hp'
    obtain ⟨he, hq⟩ := hp'
    refine ⟨h.exiting hI hp he, fun q hq' => ?_⟩
    rw [(h.tree hI hp he.waitLock p).1] at hq'
    exact h.not_asleep hI hp he.waitLock (hq q hq')
  | exitSched =>
    rw [e] at hp'
    refine ⟨(h.change.zombie_kept hI hp'.1 fun addr hr => ?_).1, h.lock_eq hI hp hp'.2⟩
    have hu := (hI.here hr).2.2.2.2.2
    rw [e] at hu
    cases hu
  | waitScan addr havekids k =>
    rw [e] at hp'
    exact ⟨h.alive hI hp hp'.1, h.waitLock_eq hI hp hp'.2.1, h.noZombie hI hp hp'.2.1 hp'.2.2⟩
  | waitFound addr k =>
    rw [e] at hp'
    obtain ⟨ha, hw, hl, hz, hpar, hu⟩ := hp'
    refine ⟨h.alive hI hp ha, h.waitLock_eq hI hp hw, h.lock_eq hI hp hl,
      (h.tree hI hp hw k).2.2 hz, (h.tree hI hp hw k).1.trans hpar, ?_⟩
    by_cases ek : k = i
    · subst ek
      rcases h.moves with e' | ha' | e'
      · exact e'.trans hu
      · exact absurd hz ha'.ne_zombie
      · rw [hu] at e'
        cases e'
    · exact (h.pc k ek).trans hu
  | waitToSleep addr =>
    rw [e] at hp'
    exact ⟨h.alive hI hp hp'.1, h.waitLock_eq hI hp hp'.2.1, h.noZombie hI hp hp'.2.1 hp'.2.2⟩
  | waitWindow addr =>
    rw [e] at hp'
    exact ⟨h.alive hI hp hp'.1, h.lock_eq hI hp hp'.2⟩
  | waitAsleep addr =>
    rw [e] at hp'
    refine ⟨h.alive hI hp hp'.1, fun hs => ?_⟩
    obtain ⟨hs', hc⟩ := h.change.sleeping e hs
    exact hc.trans (hp'.2 hs')

end

end Xv6.Wait
