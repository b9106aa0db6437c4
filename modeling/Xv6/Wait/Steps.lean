import Xv6.Wait.Model

/-!
# What a step does

`Change` lists the ways a step of process `i` changes the process table, and
`Trans` what it does to the program counters and locks of `i` and of the others.
The frame lemmas say what the other processes can rely on: that their forked
children stay theirs, and that while one of them has `wait_lock` the tree and the
zombies stay as they are.
-/

namespace Xv6.Wait

open Function

/-- Neither free, nor being set up, nor exited. -/
def Alive (p : Proc) : Prop := p.state = .runnable ∨ p.state = .running ∨ p.state = .sleeping

/-- `kfork` of this process is setting up process `k`. -/
def Pc.Forks (k : Nat) : Pc → Prop
  | .forkAlloc j | .forkParent j | .forkStart j => j = k
  | _ => False

/-- Process `i` at this place has `wait_lock`. -/
def Pc.HasWait : Pc → Prop
  | .exitReparent _ _ | .exitWakeInit _ _ _ | .exitWakeParent _ _ _ | .exitZombie _
  | .waitScan _ _ _ | .waitFound _ _ | .waitToSleep _ => True
  | _ => False

/-- Process `i` at this place has the lock of process `k`. -/
def Pc.HasLock (i k : Nat) : Pc → Prop
  | .forkAlloc j | .waitFound _ j => j = k
  | .exitSched | .waitWindow _ => i = k
  | _ => False

/-- Process `q` is in `kwait`, asleep or past the point where it can be kept from sleeping. -/
def Asleep (s : Sys) (q : Nat) : Prop :=
  (∃ addr, s.pc q = .waitWindow addr) ∨
    (∃ addr, s.pc q = .waitAsleep addr) ∧ (s.proc q).state = .sleeping

/-- A change that concerns scheduling only. -/
structure Resched (s : Sys) (j : Nat) (p : Proc) : Prop where
  pid : p.pid = (s.proc j).pid
  parent : p.parent = (s.proc j).parent
  xstate : p.xstate = (s.proc j).xstate
  state : p.state = (s.proc j).state ∨ Alive (s.proc j) ∧ Alive p
  /-- Only the process itself goes to sleep. -/
  sleep : p.state = .sleeping → (s.proc j).state = .sleeping ∧ p.chan = (s.proc j).chan ∨
    s.pc j = .user ∨ ∃ addr, s.pc j = .waitWindow addr

/-- How a step of process `i` changes the process table and the counter of pids, and the events it
emits. -/
inductive Change (s : Sys) (i : Nat) : List Event → (Nat → Proc) → BitVec 32 → Prop
  | same : Change s i [] s.proc s.nextpid
  | resched {j : Nat} {p : Proc} : Resched s j p → Change s i [] (update s.proc j p) s.nextpid
  | alloc {k : Nat} : s.pc i = .allocScan k → k < NPROC → (s.proc k).state = .unused →
      Change s i [] (update s.proc k { s.proc k with pid := s.nextpid, state := .used }) (s.nextpid + 1)
  | drop {k : Nat} : s.pc i = .forkAlloc k →
      Change s i [.dropped i k] (update s.proc k (s.proc k).free) s.nextpid
  | setParent {k : Nat} : s.pc i = .forkParent k → s.waitLock = none → Alive (s.proc i) →
      Change s i [.forked i k (s.proc k).pid] (update s.proc k { s.proc k with parent := some i }) s.nextpid
  | start {k : Nat} : s.pc i = .forkStart k →
      Change s i [] (update s.proc k { s.proc k with state := .runnable }) s.nextpid
  | reparent {st : BitVec 32} {k : Nat} : s.pc i = .exitReparent st k → (s.proc k).parent = some i →
      Change s i [] (update s.proc k { s.proc k with parent := some initproc }) s.nextpid
  | zombie {st : BitVec 32} : s.pc i = .exitZombie st →
      Change s i [.exited i (s.proc i).pid st]
        (update s.proc i { s.proc i with xstate := st, state := .zombie }) s.nextpid
  | failed {addr : Bool} {k : Nat} : s.pc i = .waitFound addr k → Change s i [.waitFailed i k] s.proc s.nextpid
  | reap {addr : Bool} {k : Nat} : s.pc i = .waitFound addr k →
      Change s i [.reaped i k (s.proc k).pid (s.proc k).xstate] (update s.proc k (s.proc k).free) s.nextpid

/-- What a step of process `i` does. -/
structure Trans (s : Sys) (i : Nat) (es : List Event) (s' : Sys) : Prop where
  change : Change s i es s'.proc s'.nextpid
  pc : ∀ p, p ≠ i → s'.pc p = s.pc p
  moves : s'.pc i = s.pc i ∨ Alive (s.proc i) ∨ s.pc i = .exitSched
  forks : ∀ k, (s'.pc i).Forks k → (s.pc i).Forks k ∨ (s.proc k).state = .unused
  sleeps : Asleep s' i → Asleep s i ∨ ∃ addr, s.pc i = .waitToSleep addr
  waitLock : s'.waitLock = s.waitLock ∨ s.waitLock = none ∨ (s.pc i).HasWait
  lock : ∀ k, s'.lock k = s.lock k ∨ s.lock k = none ∨ (s.pc i).HasLock i k

/-! ## What a process knows at each place -/

/-- `kfork` of `p`, and no other, is setting up process `k`. -/
def Owns (s : Sys) (p k : Nat) : Prop :=
  (s.proc k).state = .used ∧ ∀ p', (s.pc p').Forks k → p' = p

/-- No process among the first `k` is a child of `p`. -/
def NoChild (s : Sys) (p k : Nat) : Prop := ∀ j < k, (s.proc j).parent ≠ some p

/-- No child of `p` among the first `k` processes is a zombie. -/
def NoZombie (s : Sys) (p k : Nat) : Prop :=
  ∀ j < k, (s.proc j).parent = some p → (s.proc j).state ≠ .zombie

/-- `p` is in `kexit`, with `wait_lock`, having given its first `k` children away. -/
structure Exiting (s : Sys) (p k : Nat) : Prop where
  alive : Alive (s.proc p)
  waitLock : s.waitLock = some p
  notInit : p ≠ initproc
  noChild : NoChild s p k

def PcInv (s : Sys) (p : Nat) : Pc → Prop
  | .user => True
  | .allocScan _ | .killScan _ _ => Alive (s.proc p)
  | .forkAlloc k => Alive (s.proc p) ∧ Owns s p k ∧ (s.proc k).parent = none ∧ s.lock k = some p
  | .forkParent k => Alive (s.proc p) ∧ Owns s p k ∧ (s.proc k).parent = none
  | .forkStart k => Alive (s.proc p) ∧ Owns s p k ∧ (s.proc k).parent = some p
  | .exitReparent _ k => Exiting s p k
  | .exitWakeInit _ k _ => Exiting s p (k + 1)
  | .exitWakeParent _ parent m => Exiting s p NPROC ∧ parent = (s.proc p).parent ∧
      ∀ q, parent = some q → q < m → ¬Asleep s q
  | .exitZombie _ => Exiting s p NPROC ∧ ∀ q, (s.proc p).parent = some q → ¬Asleep s q
  | .exitSched => (s.proc p).state = .zombie ∧ s.lock p = some p
  | .waitScan _ _ k => Alive (s.proc p) ∧ s.waitLock = some p ∧ NoZombie s p k
  | .waitFound _ k => Alive (s.proc p) ∧ s.waitLock = some p ∧ s.lock k = some p ∧
      (s.proc k).state = .zombie ∧ (s.proc k).parent = some p ∧ s.pc k = .user
  | .waitToSleep _ => Alive (s.proc p) ∧ s.waitLock = some p ∧ NoZombie s p NPROC
  | .waitWindow _ => Alive (s.proc p) ∧ s.lock p = some p
  | .waitAsleep _ => Alive (s.proc p) ∧
      ((s.proc p).state = .sleeping → (s.proc p).chan = some (.proc p))

/-- `wakeup(initproc)` for a child just given to `initproc` is about to look at it. -/
def WakingInit (s : Sys) : Prop := ∃ p st k, s.pc p = .exitWakeInit st k 0

structure Inv (s : Sys) : Prop where
  pcs : ∀ p, PcInv s p (s.pc p)
  init : Alive (s.proc initproc) ∧ (s.proc initproc).parent = none
  parent : ∀ j q, (s.proc j).parent = some q → Alive (s.proc q) ∧ q ≠ j ∧ j < NPROC
  hasParent : ∀ j, j ≠ initproc → (s.proc j).state ≠ .unused → (s.proc j).state ≠ .used →
    ∃ q, (s.proc j).parent = some q
  unused : ∀ j, (s.proc j).state = .unused → (s.proc j).parent = none
  bound : ∀ j, NPROC ≤ j → (s.proc j).state = .unused
  /-- A process that sleeps in `kwait` has no zombie child, unless it is `initproc` and
  about to be woken up for it. -/
  asleep : ∀ q c, Asleep s q → (s.proc c).parent = some q → (s.proc c).state = .zombie →
    q = initproc ∧ WakingInit s

end Xv6.Wait
