import Xv6.Wait.Model

/-!
# Kill

`allocproc`, `kfork`, `kexit`, `kwait`, `kkill` and `setkilled` of `proc.c` as calls made one after
another, on the table of `Xv6.Wait.Model`. `kkill` compares the pid of every slot, whatever its
state, and the unused slots have pid 0: so `kkill(0)` marks an unused slot as killed, and
`allocproc`, which does not clear the mark, hands it to the next process (`kill_zero`). No other
call of `kkill` can do that (`kill_live`).
-/

namespace Xv6.Wait.Kill

open Function List

structure Table where
  proc : Nat → Proc
  nextpid : BitVec 32

inductive Event where
  /-- `allocproc` took slot `k` for a new process. -/
  | allocated (k : Nat)
  /-- `kkill` or `setkilled` set `killed` in slot `k`. -/
  | killed (k : Nat)
  deriving DecidableEq, Repr

/-- The calls, with their outcome where it depends on memory: `ok` and `copied` say whether the
allocations of `allocproc`, `uvmcopy` and `copyout` succeed. -/
inductive Act where
  | allocproc (ok : Bool)
  | kfork (i : Nat) (ok copied : Bool)
  | kexit (i : Nat) (status : BitVec 32)
  | kwait (i : Nat) (copied : Bool)
  | kkill (pid : BitVec 32)
  | setkilled (i : Nat)
  /-- The scheduler, `sleep`, `wakeup` and `yield` move a process to another of its states. -/
  | move (k : Nat) (state : ProcState) (chan : Option Chan)
  deriving DecidableEq, Repr

def Table.set (t : Table) (k : Nat) (p : Proc) : Table := { t with proc := update t.proc k p }

@[simp] theorem proc_set_self (t : Table) (k : Nat) (p : Proc) : (t.set k p).proc k = p := by
  simp only [Table.set, update_self]

theorem proc_set_of_ne {j k : Nat} (h : j ≠ k) (t : Table) (p : Proc) : (t.set k p).proc j = t.proc j := by
  simp only [Table.set, update_of_ne h]

/-- The first slot with a property. -/
def Table.find (t : Table) (p : Proc → Bool) : Option Nat := (List.range NPROC).find? fun k => p (t.proc k)

def freeproc (t : Table) (k : Nat) : Table := t.set k (t.proc k).free

def Table.alloc (t : Table) (k : Nat) : Table :=
  { t with nextpid := t.nextpid + 1 }.set k { t.proc k with pid := t.nextpid, state := .used }

def allocproc (t : Table) (ok : Bool) : Table × Option Nat × List Event :=
  match t.find fun p => p.state = .unused with
  | none => (t, none, [])
  | some k => if ok then (t.alloc k, some k, [.allocated k]) else (freeproc (t.alloc k) k, none, [.allocated k])

def kfork (t : Table) (i : Nat) (ok copied : Bool) : Table × List Event :=
  match allocproc t ok with
  | (t, none, es) => (t, es)
  | (t, some k, es) =>
    if copied then (t.set k { t.proc k with parent := some i, state := .runnable }, es)
    else (freeproc t k, es)

/-- `wakeup(chan)` called by process `i`. -/
def wakeup (t : Table) (i : Nat) (chan : Option Chan) : Table :=
  { t with proc := fun m => if m < NPROC ∧ m ≠ i then (t.proc m).wake chan else t.proc m }

def reparent (t : Table) (i : Nat) : Table :=
  (List.range NPROC).foldl (fun t k =>
    if (t.proc k).parent = some i then
      wakeup (t.set k { t.proc k with parent := some initproc }) i (some (.proc initproc))
    else t) t

def kexit (t : Table) (i : Nat) (status : BitVec 32) : Table :=
  let t := reparent t i
  let t := wakeup t i ((t.proc i).parent.map .proc)
  t.set i { t.proc i with xstate := status, state := .zombie }

/-- A pass of `kwait`, which ends asleep if there is nothing to wait for yet. -/
def kwait (t : Table) (i : Nat) (copied : Bool) : Table :=
  match t.find fun p => p.parent = some i ∧ p.state = .zombie with
  | some k => if copied then freeproc t k else t
  | none =>
    if t.find (fun p => p.parent = some i) = none ∨ (t.proc i).killed then t
    else t.set i { t.proc i with chan := some (.proc i), state := .sleeping }

def kkill (t : Table) (pid : BitVec 32) : Table × Int × List Event :=
  match t.find fun p => p.pid = pid with
  | some k => (t.set k (t.proc k).kill, 0, [.killed k])
  | none => (t, -1, [])

def setkilled (t : Table) (i : Nat) : Table := t.set i { t.proc i with killed := true }

def step (t : Table) : Act → Option (Table × List Event)
  | .allocproc ok => some ((allocproc t ok).1, (allocproc t ok).2.2)
  | .kfork i ok copied => if (t.proc i).state = .running then some (kfork t i ok copied) else none
  | .kexit i status =>
    if (t.proc i).state = .running ∧ i ≠ initproc then some (kexit t i status, []) else none
  | .kwait i copied => if (t.proc i).state = .running then some (kwait t i copied, []) else none
  | .kkill pid => some ((kkill t pid).1, (kkill t pid).2.2)
  | .setkilled i => if (t.proc i).state = .running then some (setkilled t i, [.killed i]) else none
  | .move k state chan =>
    if (t.proc k).state ≠ .unused ∧ (t.proc k).state ≠ .zombie ∧ state ≠ .unused ∧ state ≠ .zombie then
      some (t.set k { t.proc k with state := state, chan := chan }, [])
    else none

/-- The table before `userinit`. -/
def start : Table where
  proc _ := { state := .unused, chan := none, killed := false, xstate := 0, pid := 0, parent := none }
  nextpid := 1

/-- `kkill(pid)` may be called. -/
def KillOk (t : Table) (pid : BitVec 32) : Prop := pid ≠ 0 ∨ ∀ k < NPROC, (t.proc k).state ≠ .unused

/-- No call of `kkill(0)` while a slot is unused. -/
def NoKillZero (t : Table) : Act → Prop
  | .kkill pid => KillOk t pid
  | _ => True

/-! ## The slots -/

def Event.since (k : Nat) (b : Bool) : Event → Bool
  | .allocated j => if j = k then false else b
  | .killed j => if j = k then true else b

/-- Whether the process in slot `k` was killed since it was allocated. -/
def killedSince (k : Nat) (es : List Event) : Bool := es.foldl (Event.since k) false

variable {t t' : Table} {p p' : Proc} {es es' : List Event} {i k : Nat} {pid : BitVec 32}

structure Slot (es : List Event) (k : Nat) (p : Proc) : Prop where
  unused : p.state = .unused → p.pid = 0 ∧ p.killed = false
  live : p.state ≠ .unused → p.killed = killedSince k es

/-- A change to a slot that keeps what `kkill` is about. -/
structure Mild (p p' : Proc) : Prop where
  pid : p'.pid = p.pid
  killed : p'.killed = p.killed
  state : p'.state = .unused ↔ p.state = .unused

theorem Mild.refl (p : Proc) : Mild p p := ⟨rfl, rfl, Iff.rfl⟩

theorem Mild.trans {p₁ p₂ p₃ : Proc} (h : Mild p₁ p₂) (h' : Mild p₂ p₃) : Mild p₁ p₃ :=
  ⟨h'.pid.trans h.pid, h'.killed.trans h.killed, h'.state.trans h.state⟩

theorem mild_wake (p : Proc) (chan : Option Chan) : Mild p (p.wake chan) := by
  rw [Proc.wake]
  split
  · rename_i h
    exact ⟨rfl, rfl, by simp [h.1]⟩
  · exact Mild.refl p

theorem Slot.mild (h : Slot es k p) (hm : Mild p p') : Slot es k p' := by
  refine ⟨fun hu => ?_, fun hl => ?_⟩
  · rw [hm.pid, hm.killed]
    exact h.unused (hm.state.1 hu)
  · rw [hm.killed]
    exact h.live fun hu => hl (hm.state.2 hu)

theorem killedSince_snoc (k : Nat) (es : List Event) (e : Event) :
    killedSince k (es ++ [e]) = e.since k (killedSince k es) := by
  simp [killedSince]

theorem Slot.alloc (h : Slot es k p) (hp : p.state = .unused) (pid : BitVec 32) :
    Slot (es ++ [.allocated k]) k { p with pid := pid, state := .used } := by
  refine ⟨fun hu => ProcState.noConfusion hu, fun _ => ?_⟩
  rw [killedSince_snoc, Event.since, if_pos rfl]
  exact (h.unused hp).2

theorem slot_free (es : List Event) (k : Nat) (p : Proc) : Slot es k p.free :=
  ⟨fun _ => ⟨rfl, rfl⟩, fun h => absurd rfl h⟩

theorem slot_killed (hp : p.state ≠ .unused) (hk : p.killed = true) : Slot (es ++ [.killed k]) k p := by
  refine ⟨fun hu => absurd hu hp, fun _ => ?_⟩
  rw [killedSince_snoc, Event.since, if_pos rfl, hk]

/-! ## Steps -/

def Inv (es : List Event) (t : Table) : Prop := ∀ k, Slot es k (t.proc k)

theorem Inv.mild (h : Inv es t) (hm : ∀ k, Mild (t.proc k) (t'.proc k)) : Inv es t' :=
  fun k => (h k).mild (hm k)

theorem Inv.set (h : Inv es t) (hp : Slot es k p) : Inv es (t.set k p) := by
  intro j
  by_cases hj : j = k
  · rw [hj, proc_set_self]
    exact hp
  · rw [proc_set_of_ne hj]
    exact h j

theorem Inv.event (h : Inv es t) {e : Event} (he : e = .allocated k ∨ e = .killed k)
    (hp : Slot (es ++ [e]) k p) : Inv (es ++ [e]) (t.set k p) := by
  intro j
  by_cases hj : j = k
  · rw [hj, proc_set_self]
    exact hp
  · rw [proc_set_of_ne hj]
    refine ⟨(h j).unused, fun hl => ?_⟩
    rw [killedSince_snoc, (h j).live hl]
    rcases he with rfl | rfl
    · rw [Event.since, if_neg (Ne.symm hj)]
    · rw [Event.since, if_neg (Ne.symm hj)]

theorem find_eq_some {q : Proc → Bool} (h : t.find q = some k) : k < NPROC ∧ q (t.proc k) = true := by
  have hq := find?_some h
  exact ⟨mem_range.1 (mem_of_find?_eq_some h), hq⟩

theorem find_eq_none {q : Proc → Bool} (h : t.find q = none) (hk : k < NPROC) : q (t.proc k) = false := by
  have := find?_eq_none.1 h k (mem_range.2 hk)
  rwa [Bool.not_eq_true] at this

theorem mild_set (t : Table) (k : Nat) (h : Mild (t.proc k) p) (j : Nat) : Mild (t.proc j) ((t.set k p).proc j) := by
  by_cases hj : j = k
  · rw [hj, proc_set_self]
    exact h
  · rw [proc_set_of_ne hj]
    exact Mild.refl _

theorem mild_wakeup (t : Table) (i : Nat) (chan : Option Chan) (j : Nat) : Mild (t.proc j) ((wakeup t i chan).proc j) := by
  rw [wakeup]
  dsimp only
  split
  · exact mild_wake _ _
  · exact Mild.refl _

theorem mild_reparent (t : Table) (i j : Nat) : Mild (t.proc j) ((reparent t i).proc j) := by
  rw [reparent]
  generalize range NPROC = ks
  induction ks generalizing t with
  | nil => exact Mild.refl _
  | cons k ks ih =>
    rw [foldl_cons]
    refine Mild.trans ?_ (ih _)
    split
    · refine Mild.trans ?_ (mild_wakeup ..)
      refine mild_set t k ?_ j
      exact ⟨rfl, rfl, Iff.rfl⟩
    · exact Mild.refl _

theorem inv_alloc (h : Inv es t) (hk : (t.proc k).state = .unused) : Inv (es ++ [.allocated k]) (t.alloc k) :=
  Inv.event (t := { t with nextpid := t.nextpid + 1 }) h (.inl rfl) ((h k).alloc hk t.nextpid)

theorem allocproc_cases (t : Table) (ok : Bool) : allocproc t ok = (t, none, []) ∨
    ∃ k, (t.proc k).state = .unused ∧ (allocproc t ok = (t.alloc k, some k, [.allocated k]) ∨
      allocproc t ok = (freeproc (t.alloc k) k, none, [.allocated k])) := by
  rw [allocproc]
  split
  · exact .inl rfl
  · rename_i k hk
    refine .inr ⟨k, of_decide_eq_true (find_eq_some hk).2, ?_⟩
    split
    · exact .inl rfl
    · exact .inr rfl

theorem inv_allocproc (h : Inv es t) (ok : Bool) : Inv (es ++ (allocproc t ok).2.2) (allocproc t ok).1 := by
  rcases allocproc_cases t ok with he | ⟨k, hk, he | he⟩
  · rw [he, append_nil]
    exact h
  · rw [he]
    exact inv_alloc h hk
  · rw [he]
    exact (inv_alloc h hk).set (slot_free ..)

theorem inv_kfork (h : Inv es t) (i : Nat) (ok copied : Bool) :
    Inv (es ++ (kfork t i ok copied).2) (kfork t i ok copied).1 := by
  rw [kfork]
  rcases allocproc_cases t ok with he | ⟨k, hk, he | he⟩
  · rw [he, append_nil]
    exact h
  · rw [he]
    dsimp only
    have ha := inv_alloc h hk
    split
    · refine ha.mild (mild_set _ k ⟨rfl, rfl, ?_⟩)
      simp [Table.alloc]
    · exact ha.set (slot_free ..)
  · rw [he]
    exact (inv_alloc h hk).set (slot_free ..)

theorem inv_kexit (h : Inv es t) (hi : (t.proc i).state = .running) (status : BitVec 32) : Inv es (kexit t i status) := by
  have hm (j : Nat) : Mild (t.proc j) ((wakeup (reparent t i) i (((reparent t i).proc i).parent.map .proc)).proc j) :=
    (mild_reparent t i j).trans (mild_wakeup ..)
  have hl : (t.proc i).state ≠ .unused := by
    rw [hi]
    exact ProcState.noConfusion
  refine (h.mild hm).mild (mild_set _ i ⟨rfl, rfl, ?_⟩)
  exact ⟨fun h => ProcState.noConfusion h, fun h => absurd ((hm i).state.1 h) hl⟩

theorem inv_kwait (h : Inv es t) (hi : (t.proc i).state = .running) (copied : Bool) : Inv es (kwait t i copied) := by
  rw [kwait]
  split
  · split
    · exact h.set (slot_free ..)
    · exact h
  · split
    · exact h
    · refine h.mild (mild_set t i ⟨rfl, rfl, ?_⟩)
      simp [hi]

/-- The slot that `kkill` marks has a process. -/
theorem kkill_live (h : Inv es t) (hpid : KillOk t pid) (hk : t.find (fun p => p.pid = pid) = some k) :
    k < NPROC ∧ (t.proc k).pid = pid ∧ (t.proc k).state ≠ .unused := by
  obtain ⟨hlt, hp⟩ := find_eq_some hk
  have hp : (t.proc k).pid = pid := of_decide_eq_true hp
  refine ⟨hlt, hp, ?_⟩
  rcases hpid with hne | hall
  · intro hu
    exact hne (hp.symm.trans ((h k).unused hu).1)
  · exact hall k hlt

theorem inv_kkill (h : Inv es t) (hpid : KillOk t pid) : Inv (es ++ (kkill t pid).2.2) (kkill t pid).1 := by
  rw [kkill]
  split
  · rename_i k hk
    refine h.event (.inr rfl) (slot_killed ?_ rfl)
    have hl := (kkill_live h hpid hk).2.2
    rw [Proc.kill]
    dsimp only
    split
    · exact ProcState.noConfusion
    · exact hl
  · rw [append_nil]
    exact h

theorem inv_step {a : Act} (h : Inv es t) (ha : NoKillZero t a) (hs : step t a = some (t', es')) : Inv (es ++ es') t' := by
  cases a with
  | allocproc ok =>
    cases hs
    exact inv_allocproc h ok
  | kfork i ok copied =>
    obtain ⟨-, hs⟩ := Option.ite_none_right_eq_some.1 hs
    have hf := inv_kfork h i ok copied
    rwa [Option.some.inj hs] at hf
  | kexit i status =>
    obtain ⟨⟨hi, -⟩, hs⟩ := Option.ite_none_right_eq_some.1 hs
    cases hs
    rw [append_nil]
    exact inv_kexit h hi status
  | kwait i copied =>
    obtain ⟨hi, hs⟩ := Option.ite_none_right_eq_some.1 hs
    cases hs
    rw [append_nil]
    exact inv_kwait h hi copied
  | kkill pid =>
    cases hs
    exact inv_kkill h ha
  | setkilled i =>
    obtain ⟨hi, hs⟩ := Option.ite_none_right_eq_some.1 hs
    cases hs
    refine h.event (.inr rfl) (slot_killed ?_ rfl)
    rw [hi]
    exact ProcState.noConfusion
  | move k state chan =>
    obtain ⟨⟨hk, -, hst, -⟩, hs⟩ := Option.ite_none_right_eq_some.1 hs
    cases hs
    rw [append_nil]
    refine h.mild (mild_set t k ⟨rfl, rfl, ?_⟩)
    exact ⟨fun h => absurd h hst, fun h => absurd h hk⟩

theorem inv_start : Inv [] start := fun _ => ⟨fun _ => ⟨rfl, rfl⟩, fun h => absurd rfl h⟩

/-! ## Runs -/

/-- What `kkill(pid)` does: it returns 0 if and only if a process has that pid, and changes the slot
of such a process only. -/
structure Kills (t : Table) (pid : BitVec 32) : Prop where
  returns : (kkill t pid).2.1 = 0 ↔ ∃ k < NPROC, (t.proc k).state ≠ .unused ∧ (t.proc k).pid = pid
  fails : (kkill t pid).2.1 ≠ 0 → (kkill t pid).1 = t
  changes : (kkill t pid).2.1 = 0 → ∃ k < NPROC, (t.proc k).state ≠ .unused ∧ (t.proc k).pid = pid ∧
    ∀ j, j ≠ k → (kkill t pid).1.proc j = t.proc j

theorem kills_of_inv (h : Inv es t) (hpid : KillOk t pid) : Kills t pid := by
  cases hf : t.find fun p => p.pid = pid with
  | some k =>
    obtain ⟨hlt, hp, hl⟩ := kkill_live h hpid hf
    have he : kkill t pid = (t.set k (t.proc k).kill, 0, [.killed k]) := by rw [kkill, hf]
    refine ⟨?_, fun hn => ?_, fun _ => ⟨k, hlt, hl, hp, fun j hj => ?_⟩⟩
    · rw [he]
      exact ⟨fun _ => ⟨k, hlt, hl, hp⟩, fun _ => rfl⟩
    · rw [he] at hn
      exact absurd rfl hn
    · rw [he]
      exact proc_set_of_ne hj ..
  | none =>
    have he : kkill t pid = (t, -1, []) := by rw [kkill, hf]
    refine ⟨?_, fun _ => by rw [he], fun h0 => ?_⟩
    · rw [he]
      refine ⟨fun h => absurd h (Int.negSucc_ne_zero 0), ?_⟩
      rintro ⟨k, hlt, -, hp⟩
      exact absurd hp (of_decide_eq_false (find_eq_none hf hlt))
    · rw [he] at h0
      exact absurd h0 (Int.negSucc_ne_zero 0)

theorem kill_live (h : Exec step NoKillZero start es t) :
    (∀ pid, KillOk t pid → Kills t pid) ∧
    (∀ ok k, (allocproc t ok).2.1 = some k → ((allocproc t ok).1.proc k).killed = false) ∧
    ∀ k, (t.proc k).state ≠ .unused → (t.proc k).killed = killedSince k es := by
  have hi : Inv es t := h.invariant inv_start fun hi ha hs => inv_step hi ha hs
  refine ⟨fun pid hpid => kills_of_inv hi hpid, fun ok k hk => ?_, fun k hl => (hi k).live hl⟩
  rcases allocproc_cases t ok with he | ⟨j, hj, he | he⟩
  · rw [he] at hk
    cases hk
  · rw [he] at hk ⊢
    cases hk
    have hu := ((hi k).unused hj).2
    rw [Table.alloc, proc_set_self]
    exact hu
  · rw [he] at hk
    cases hk

def killCheck (_ : Table) : Act → Bool
  | .kkill pid => pid ≠ 0
  | _ => true

theorem noKillZero_of_check (t : Table) (a : Act) (h : killCheck t a = true) : NoKillZero t a := by
  cases a with
  | kkill pid => exact .inl (of_decide_eq_true h)
  | _ => trivial

/-- `userinit`, a fork, and a kill of the child, which exits. -/
def forkKill : List Act :=
  [.allocproc true, .move 0 .running none, .kfork 0 true true, .move 1 .running none, .kkill 2, .kexit 1 0]

theorem kill_live_fork : ∃ es t, Exec step NoKillZero start es t ∧ (t.proc 1).state = .zombie ∧
    (t.proc 1).killed = killedSince 1 es ∧ Kills t 2 := by
  obtain ⟨es, t, he, hz⟩ : ∃ es t, Exec step NoKillZero start es t ∧ (t.proc 1).state = .zombie :=
    exists_exec noKillZero_of_check forkKill (by decide +kernel)
  have hl := kill_live he
  refine ⟨es, t, he, hz, hl.2.2 1 ?_, hl.1 2 (.inl (by decide))⟩
  rw [hz]
  exact ProcState.noConfusion

/-- `kkill(0)` finds the first unused slot, and the next process starts out killed. -/
theorem kill_zero : ∃ es t, Exec step Any start es t ∧ (kkill t 0).2.1 = 0 ∧
    (∀ k < NPROC, (t.proc k).state ≠ .unused → (t.proc k).pid ≠ 0) ∧
    ∃ k, (allocproc (kkill t 0).1 true).2.1 = some k ∧
      ((allocproc (kkill t 0).1 true).1.proc k).killed = true := by
  obtain ⟨es, t, hx, h0, hno, ha, hk⟩ : ∃ es t, Exec step Any start es t ∧ (kkill t 0).2.1 = 0 ∧
      (∀ k < NPROC, (t.proc k).state ≠ .unused → (t.proc k).pid ≠ 0) ∧
      (allocproc (kkill t 0).1 true).2.1 = some 1 ∧ ((allocproc (kkill t 0).1 true).1.proc 1).killed = true :=
    exists_exec (fun _ _ => of_decide_eq_true) [.allocproc true, .move 0 .running none] (by decide +kernel)
  exact ⟨es, t, hx, h0, hno, 1, ha, hk⟩

end Xv6.Wait.Kill
