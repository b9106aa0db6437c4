import Xv6.Wait.Moves

/-!
# Process identifiers

`allocpid` counts up in an `int` and does not look at the pids in use. As long as
the counter is positive, the processes have different, positive pids
(`pids_unique`). It wraps around: a process forked often enough has the pid 1 of
`initproc`, which is still there (`pids_collide`).
-/

namespace Xv6.Wait

open Function Option

variable {s s' : Sys} {i : Nat} {es : List Event}

/-- A step keeps the pids of the processes there are, or takes a new one from the counter. -/
theorem Change.pids {t : Nat → Proc} {n : BitVec 32} (hc : Change s i es t n) (hI : Inv s) :
    (n = s.nextpid ∧ ∀ j, (t j).state ≠ .unused → (s.proc j).state ≠ .unused ∧ (t j).pid = (s.proc j).pid) ∨
    ∃ k, s.pc i = .allocScan k ∧ n = s.nextpid + 1 ∧
      t = update s.proc k { s.proc k with pid := s.nextpid, state := .used } := by
  have hset {k : Nat} {p : Proc} (hp : p.state ≠ .unused → (s.proc k).state ≠ .unused ∧ p.pid = (s.proc k).pid) (j : Nat) :
      (update s.proc k p j).state ≠ .unused →
        (s.proc j).state ≠ .unused ∧ (update s.proc k p j).pid = (s.proc j).pid :=
    update_of (P := fun x => x.state ≠ .unused → (s.proc j).state ≠ .unused ∧ x.pid = (s.proc j).pid)
      (fun _ hj => ⟨hj, rfl⟩) fun e => e ▸ hp
  cases hc with
  | same | failed => exact .inl ⟨rfl, fun j hj => ⟨hj, rfl⟩⟩
  | resched hr =>
    refine .inl ⟨rfl, hset fun hp => ⟨?_, hr.pid⟩⟩
    rcases hr.state with e | ⟨ha, -⟩
    · rwa [e] at hp
    · exact ha.ne_unused
  | alloc hpc => exact .inr ⟨_, hpc, rfl, rfl⟩
  | drop | reap => exact .inl ⟨rfl, hset fun hp => absurd rfl hp⟩
  | setParent | reparent => exact .inl ⟨rfl, hset fun hp => ⟨hp, rfl⟩⟩
  | start hpc => exact .inl ⟨rfl, hset fun _ => ⟨by rw [(hI.here hpc).2.1.1]; nofun, rfl⟩⟩
  | zombie hpc => exact .inl ⟨rfl, hset fun _ => ⟨(hI.here hpc).1.alive.ne_unused, rfl⟩⟩

/-! ## Every run -/

/-- Where `allocproc` is called, the counter is positive. -/
def CounterPositive (s : Sys) : Act → Prop
  | .go i _ => (∃ k, s.pc i = .allocScan k) → 0 < s.nextpid.toInt
  | _ => True

/-- The pids in use are positive, different, and below the counter. -/
structure Pids (s : Sys) : Prop where
  le : s.nextpid.toNat ≤ 2 ^ 31
  pos : ∀ j, (s.proc j).state ≠ .unused → 0 < (s.proc j).pid.toNat
  lt : ∀ j, (s.proc j).state ≠ .unused → (s.proc j).pid.toNat < s.nextpid.toNat
  inj : ∀ j k, (s.proc j).state ≠ .unused → (s.proc k).state ≠ .unused →
    (s.proc j).pid = (s.proc k).pid → j = k

theorem toNat_of_positive {x : BitVec 32} (h : 0 < x.toInt) : 0 < x.toNat ∧ x.toNat < 2 ^ 31 := by
  rw [BitVec.toInt_eq_toNat_cond] at h
  have hx := x.isLt
  split at h <;> omega

theorem Pids.step (hp : Pids s) (hI : Inv s) (h : Trans s i es s')
    (ha : (∃ k, s.pc i = .allocScan k) → 0 < s.nextpid.toInt) : Pids s' := by
  rcases h.change.pids hI with ⟨hn, hkeep⟩ | ⟨k, hpc, hn, hproc⟩
  · refine ⟨hn ▸ hp.le, fun j hj => ?_, fun j hj => ?_, fun j k hj hk e => ?_⟩
    · rw [(hkeep j hj).2]
      exact hp.pos j (hkeep j hj).1
    · rw [(hkeep j hj).2, hn]
      exact hp.lt j (hkeep j hj).1
    · rw [(hkeep j hj).2, (hkeep k hk).2] at e
      exact hp.inj j k (hkeep j hj).1 (hkeep k hk).1 e
  · obtain ⟨hpos, hlt⟩ := toNat_of_positive (ha ⟨k, hpc⟩)
    have hn' : s'.nextpid.toNat = s.nextpid.toNat + 1 := by
      rw [hn, BitVec.toNat_add]
      change (s.nextpid.toNat + 1) % 2 ^ 32 = _
      omega
    have hother {j : Nat} (hj : j ≠ k) : s'.proc j = s.proc j := by rw [hproc, update_of_ne hj]
    have hself : (s'.proc k).pid = s.nextpid := by rw [hproc, update_self]
    have hne {j : Nat} (hj : j ≠ k) (hu : (s'.proc j).state ≠ .unused) : (s'.proc j).pid ≠ s.nextpid := by
      rw [hother hj] at hu ⊢
      exact fun e => absurd (hp.lt j hu) (by rw [e]; exact Nat.lt_irrefl _)
    refine ⟨by omega, fun j hj => ?_, fun j hj => ?_, fun j m hj hm e => ?_⟩
    · by_cases hjk : j = k
      · rw [hjk, hself]
        exact hpos
      · rw [hother hjk] at hj ⊢
        exact hp.pos j hj
    · rw [hn']
      by_cases hjk : j = k
      · rw [hjk, hself]
        exact Nat.lt_succ_self _
      · rw [hother hjk] at hj ⊢
        exact Nat.lt_succ_of_lt (hp.lt j hj)
    · by_cases hjk : j = k
      · by_cases hmk : m = k
        · rw [hjk, hmk]
        · rw [hjk, hself] at e
          exact absurd e.symm (hne hmk hm)
      · by_cases hmk : m = k
        · rw [hmk, hself] at e
          exact absurd e (hne hjk hj)
        · rw [hother hjk] at hj e
          rw [hother hmk] at hm e
          exact hp.inj j m hj hm e

theorem pids_boot : Pids boot := by
  have h0 (j : Nat) (hj : (boot.proc j).state ≠ .unused) : j = initproc := by
    by_contra h
    exact hj (if_neg h)
  refine ⟨by decide, fun j hj => ?_, fun j hj => ?_, fun j k hj hk _ => (h0 j hj).trans (h0 k hk).symm⟩
  · rw [h0 j hj]
    decide
  · rw [h0 j hj]
    decide

/-- In every run in which `allocproc` finds the counter positive, the processes have different,
positive pids. -/
theorem pids_unique (h : Exec sysStep CounterPositive boot es s) :
    (∀ j, (s.proc j).state ≠ .unused → 0 < (s.proc j).pid.toInt) ∧
    ∀ j k, (s.proc j).state ≠ .unused → (s.proc k).state ≠ .unused → j ≠ k →
      (s.proc j).pid ≠ (s.proc k).pid := by
  have hp : Inv s ∧ Pids s := by
    refine h.invariant (I := fun _ s => Inv s ∧ Pids s) ⟨boot_inv, pids_boot⟩ ?_
    intro es es' s s' a ⟨hI, hp⟩ ha hst
    obtain ⟨hI', i, hT, hi⟩ := good_step hI hst
    refine ⟨hI', hp.step hI hT fun hk => ?_⟩
    rcases hi with hi | ⟨ok, rfl⟩
    · obtain ⟨k, hk⟩ := hk
      cases hi.symm.trans hk
    · exact ha hk
  refine ⟨fun j hj => ?_, fun j k hj hk hne e => hne (hp.2.inj j k hj hk e)⟩
  have hpos := hp.2.pos j hj
  have hlt := hp.2.lt j hj
  have hle := hp.2.le
  rw [BitVec.toInt_eq_toNat_cond, if_pos (by omega)]
  omega

def counterCheck (s : Sys) : Act → Bool
  | .go _ _ => 0 < s.nextpid.toInt
  | _ => true

theorem counterPositive_of_check (s : Sys) (a : Act) (h : counterCheck s a = true) : CounterPositive s a := by
  cases a with
  | go i ok => exact fun _ => of_decide_eq_true h
  | _ => trivial

/-- Init forks process 1, which forks process 2. -/
def forkRun : List Act :=
  let go i n := List.replicate n (Act.go i true)
  [.dispatch 0, .fork 0] ++ go 0 5 ++ [.dispatch 1, .fork 1] ++ go 1 6

theorem pids_unique_forkRun : ∃ es s, Exec sysStep CounterPositive boot es s ∧
    (s.proc 1).state ≠ .unused ∧ (s.proc 2).state ≠ .unused ∧ (s.proc 1).pid ≠ (s.proc 2).pid := by
  obtain ⟨es, s, hrun, hst⟩ : ∃ es s, Exec sysStep CounterPositive boot es s ∧
      (s.proc 1).state ≠ .unused ∧ (s.proc 2).state ≠ .unused :=
    exists_exec counterPositive_of_check forkRun (by decide +kernel)
  exact ⟨es, s, hrun, hst.1, hst.2, (pids_unique hrun).2 1 2 hst.1 hst.2 (by decide)⟩

/-! ## The counter wraps around -/

/-- Only `initproc` is there, running in user space, and the counter is `n`. -/
def alone (n : BitVec 32) : Sys :=
  { boot.set initproc { boot.proc initproc with state := .running } with nextpid := n }

/-- In `alone n`, after `kfork` has called `allocproc`. -/
def allocated (n : BitVec 32) : Sys :=
  ((({ alone n with nextpid := n + 1 }.set 1
    { (alone n).proc 1 with pid := n, state := .used }).acquire 1 initproc).goto initproc (.forkAlloc 1))

theorem goto_goto (s : Sys) (i : Nat) (pc pc' : Pc) : (s.goto i pc).goto i pc' = s.goto i pc' := by
  rw [Sys.goto, Sys.goto, Sys.goto, update_idem]

theorem exec_allocated (n : BitVec 32) : ∃ es, Exec sysStep Any (alone n) es (allocated n) := by
  have h₁ : sysStep (alone n) (.fork initproc) = some ((alone n).goto initproc (.allocScan 0), []) := rfl
  have h₂ : sysStep ((alone n).goto initproc (.allocScan 0)) (.go initproc true) =
      some ((alone n).goto initproc (.allocScan 1), []) := by
    rw [← goto_goto (alone n) initproc (.allocScan 0) (.allocScan 1)]
    rfl
  have h₃ : sysStep ((alone n).goto initproc (.allocScan 1)) (.go initproc true) =
      some (allocated n, []) := by
    rw [allocated, ← goto_goto _ initproc (.allocScan 1) (.forkAlloc 1)]
    rfl
  exact ⟨_, ((Exec.refl.step trivial h₁).step trivial h₂).step trivial h₃⟩

/-- A `kfork` that fails leaves everything as it was, but for the counter. -/
theorem exec_alone (n : BitVec 32) : ∃ es, Exec sysStep Any (alone n) es (alone (n + 1)) := by
  obtain ⟨es, h⟩ := exec_allocated n
  have h₄ : sysStep (allocated n) (.go initproc false) = some (alone (n + 1), [.dropped initproc 1]) := by
    have hproc : update (allocated n).proc 1 ((allocated n).proc 1).free = (alone (n + 1)).proc := by
      rw [allocated, Sys.goto, Sys.acquire, Sys.set, update_idem]
      exact update_eq_self 1 (alone n).proc
    have hlock : update (allocated n).lock 1 none = (alone (n + 1)).lock := by
      rw [allocated, Sys.goto, Sys.acquire, update_idem]
      exact update_eq_self 1 (alone n).lock
    have hpc : update (allocated n).pc initproc .user = (alone (n + 1)).pc := by
      rw [allocated, Sys.goto, update_idem]
      exact update_eq_self initproc (alone n).pc
    have hstep : sysStep (allocated n) (.go initproc false) = some (
        Sys.mk (update (allocated n).proc 1 ((allocated n).proc 1).free)
          (update (allocated n).pc initproc .user) (update (allocated n).lock 1 none) none (n + 1),
        [.dropped initproc 1]) := rfl
    rw [hstep, hproc, hlock, hpc]
    rfl
  exact ⟨_, h.step trivial h₄⟩

theorem run_alone (m : Nat) : ∃ es, Run es (alone (2 + BitVec.ofNat 32 m)) := by
  induction m with
  | zero =>
    have h : sysStep boot (.dispatch initproc) = some (alone (2 + BitVec.ofNat 32 0), []) := rfl
    exact ⟨_, Exec.refl.step trivial h⟩
  | succ m ih =>
    obtain ⟨es, h⟩ := ih
    obtain ⟨es', h'⟩ := exec_alone (2 + BitVec.ofNat 32 m)
    have hn : 2 + BitVec.ofNat 32 m + 1 = 2 + BitVec.ofNat 32 (m + 1) := by
      rw [BitVec.add_assoc, BitVec.ofNat_add]
      rfl
    rw [hn] at h'
    exact ⟨_, h.trans h'⟩

/-- After 2 ^ 32 - 1 calls of `allocpid`, the next process gets the pid of `initproc`. -/
theorem pids_collide : ∃ es s, Run es s ∧ (s.proc initproc).state = .running ∧ (s.proc 1).state = .used ∧
    (s.proc 1).pid = (s.proc initproc).pid := by
  obtain ⟨es, h⟩ := run_alone (2 ^ 32 - 1)
  have h1 : 2 + BitVec.ofNat 32 (2 ^ 32 - 1) = 1 := by decide
  rw [h1] at h
  obtain ⟨es', h'⟩ := exec_allocated 1
  exact ⟨_, _, h.trans h', rfl, rfl, rfl⟩

end Xv6.Wait
