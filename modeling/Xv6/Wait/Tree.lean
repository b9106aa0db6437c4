import Xv6.Wait.Frame

/-!
# The process tree

Every step keeps the shape of the tree: a parent is alive, and every process that
is neither free nor being set up has one, except `initproc`. With what each
process knows at its place this gives the invariant of a run (`Inv.of_trans`).
-/

namespace Xv6.Wait

variable {s s' : Sys} {i : Nat} {es : List Event} {t : Nat → Proc} {n : BitVec 32}

/-- A process that is being set up is in the table, and is not `initproc`. -/
theorem Owns.lt {j : Nat} (h : Owns s i j) (hI : Inv s) : j < NPROC := by
  by_contra hj
  have hu := hI.bound j (by omega)
  rw [h.1] at hu
  cases hu

section

variable (hc : Change s i es t n) (hI : Inv s)
include hc hI

theorem Change.init : Alive (t initproc) ∧ (t initproc).parent = none := by
  have hz : initproc = i → ∀ st, s.pc i ≠ .exitZombie st :=
    fun e st h => (hI.here h).1.notInit e.symm
  refine ⟨hc.alive hI hI.init.1 hz, ?_⟩
  refine hc.keeps (P := fun x => x.parent = none) hI.init.2 (fun _ hr => hr.parent.trans hI.init.2)
    (fun _ _ _ => hI.init.2) (fun _ => rfl) (fun hpc _ _ => absurd (hI.here hpc).2.1.1 hI.init.1.ne_used)
    (fun _ => hI.init.2) (fun _ _ hp => ?_) (fun _ _ _ => hI.init.2) fun _ _ => rfl
  rw [hI.init.2] at hp
  cases hp

/-- A process that stays alive, or has no children, may remain a parent. -/
theorem Change.parent_alive {j q : Nat} (h : (s.proc j).parent = some q) : Alive (t q) ∧ q ≠ j ∧ j < NPROC := by
  obtain ⟨ha, hne, hj⟩ := hI.parent j q h
  refine ⟨hc.alive hI ha fun e st hz => ?_, hne, hj⟩
  exact (hI.here hz).1.noChild j hj (e ▸ h)

theorem Change.parents {j q : Nat} : (t j).parent = some q → Alive (t q) ∧ q ≠ j ∧ j < NPROC := by
  have hold := fun {j q} => hc.parent_alive hI (j := j) (q := q)
  refine hc.keeps (P := fun x => x.parent = some q → Alive (t q) ∧ q ≠ j ∧ j < NPROC) hold
    (fun _ hr h => hold (hr.parent.symm.trans h)) (fun _ _ _ => hold) (fun _ => nofun) (fun hpc _ ha h => ?_) (fun _ => hold)
    (fun _ _ hp h => ?_) (fun _ _ _ => hold) fun _ _ => nofun
  · cases h
    have hown := (hI.here hpc).2.1
    refine ⟨hc.alive hI ha fun _ st hz => ?_, fun e => ha.ne_used (e ▸ hown.1), hown.lt hI⟩
    rw [hpc] at hz
    cases hz
  · cases h
    refine ⟨(hc.init hI).1, fun e => ?_, (hI.parent _ _ hp).2.2⟩
    rw [← e, hI.init.2] at hp
    cases hp

theorem Change.hasParent {j : Nat} (hj : j ≠ initproc) :
    (t j).state ≠ .unused → (t j).state ≠ .used → ∃ q, (t j).parent = some q := by
  have hold := hI.hasParent j hj
  refine hc.keeps (P := fun x => x.state ≠ .unused → x.state ≠ .used → ∃ q, x.parent = some q) hold
    (fun x hr h h' => ?_) (fun _ _ _ _ h => absurd rfl h) (fun _ h => absurd rfl h) (fun _ _ _ _ _ => ⟨_, rfl⟩)
    (fun hpc _ _ => ⟨i, (hI.here hpc).2.2⟩) (fun _ _ _ _ _ => ⟨_, rfl⟩) (fun _ hpc e _ _ => ?_) fun _ _ h => absurd rfl h
  · rw [hr.parent]
    rcases hr.state with e | ⟨ha, -⟩
    · exact hold (e ▸ h) (e ▸ h')
    · exact hold ha.ne_unused ha.ne_used
  · subst e
    have ha := (hI.here hpc).1.alive
    exact hold ha.ne_unused ha.ne_used

theorem Change.unused {j : Nat} : (t j).state = .unused → (t j).parent = none := by
  have hold := hI.unused j
  refine hc.keeps (P := fun x => x.state = .unused → x.parent = none) hold (fun x hr h => ?_) (fun _ _ _ => nofun)
    (fun _ _ => rfl) (fun hpc _ _ h => ?_) (fun _ => nofun) (fun _ _ hp h => ?_) (fun _ _ _ => nofun) fun _ _ _ => rfl
  · rw [hr.parent]
    rcases hr.state with e | ⟨-, ha⟩
    · exact hold (e ▸ h)
    · exact absurd h ha.ne_unused
  · have h : (s.proc j).state = .unused := h
    rw [(hI.here hpc).2.1.1] at h
    cases h
  · rw [hold h] at hp
    cases hp

theorem Change.bound {j : Nat} (hj : NPROC ≤ j) : (t j).state = .unused := by
  have hold := hI.bound j hj
  refine hc.keeps (P := fun x => x.state = .unused) hold (fun x hr => ?_) (fun _ hk => by omega) (fun _ => rfl)
    (fun _ _ _ => hold) (fun hpc => by have := (hI.here hpc).2.1.lt hI; omega) (fun _ _ _ => hold)
    (fun _ hpc e => absurd (e ▸ hold) (hI.here hpc).1.alive.ne_unused) fun _ _ => rfl
  rcases hr.state with e | ⟨ha, -⟩
  · exact e.trans hold
  · exact absurd hold ha.ne_unused

end

/-- A step keeps the invariant if it keeps what the process that takes it knows, and
leaves no process asleep with a zombie child. -/
theorem Inv.of_trans (hI : Inv s) (h : Trans s i es s') (hself : PcInv s' i (s'.pc i))
    (ha : ∀ q c, Asleep s' q → (s'.proc c).parent = some q → (s'.proc c).state = .zombie →
      q = initproc ∧ WakingInit s') : Inv s' where
  pcs p := by
    by_cases e : p = i
    · rw [e]
      exact hself
    · exact h.pcInv hI e
  init := h.change.init hI
  parent _ _ := h.change.parents hI
  hasParent _ := h.change.hasParent hI
  unused _ := h.change.unused hI
  bound _ := h.change.bound hI
  asleep := ha

end Xv6.Wait
