import Xv6.Names.Model
import Xv6.Framework.Sums
import Mathlib.Algebra.Order.BigOperators.Group.Finset
import Mathlib.Algebra.Ring.Int.Defs

/-!
# The invariant of the name tree

`Disk` is what the directories say: names are of allocated inodes, a directory has one
name, in the directory that its ".." names, and a directory without a name is empty. `Inv`
adds the counters: link counts are exact up to what the calls in progress owe (`Loc.pend`),
and the references of an inode are those that processes hold. `Loc` is the ghost value of a
process: its references, the locked inodes with their contents, and what it owes.

The conditions on a run are in `Allowed`.
-/

namespace Xv6.Names

open Function
open Blocks

/-! ## Directories -/

/-- The inodes that a directory names, other than by "." and "..". -/
def Inode.names (c : Inode) : List Nat := ((c.ents.drop 2).map fun de => de.inum.toNat).filter (· ≠ 0)

/-- The inode that ".." names. -/
def Inode.parent (c : Inode) : Option Nat := (c.ents[1]?).map fun de => de.inum.toNat

/-- "." and ".." come first in a directory, as far as they have been written. -/
def Shape (i : Nat) (ents : List Dirent) : Prop :=
  ents = [] ∨
  (∃ e, ents = [e] ∧ e.inum.toNat = i ∧ e.name = strncpy DIRSIZ dot) ∨
  ∃ e e' rest, ents = e :: e' :: rest ∧ e.inum.toNat = i ∧ e.name = strncpy DIRSIZ dot ∧
    e'.inum ≠ 0 ∧ e'.name = strncpy DIRSIZ dotdot ∧
    ∀ de ∈ rest, de.inum ≠ 0 → namecmp de.name dot = false

/-- The number of names of inode `j` in the directories of a disk with `n` inodes. -/
def nm (n : Nat) (s : Fs) (j : Nat) : Nat := ∑ d ∈ Finset.range n, (s.inode d).names.count j

/-- The number of directories that directory `d` names. -/
def subdirs (s : Fs) (d : Nat) : Nat := (s.inode d).names.countP fun j => (s.inode j).type = .dir

structure Disk (n : Nat) (s : Fs) : Prop where
  bound : ∀ i, (s.inode i).type ≠ .free → 0 < i ∧ i < n
  root : (s.inode ROOTINO).type = .dir
  rootParent : (s.inode ROOTINO).parent = some ROOTINO
  rootNm : nm n s ROOTINO = 0
  /-- Only directories have entries. -/
  ents : ∀ i, (s.inode i).type ≠ .dir → (s.inode i).ents = []
  shape : ∀ i, Shape i (s.inode i).ents
  named : ∀ d i, i ∈ (s.inode d).names → (s.inode i).type ≠ .free
  once : ∀ i, (s.inode i).type = .dir → nm n s i ≤ 1
  /-- A directory is named in the directory that its ".." names. -/
  up : ∀ d i, i ∈ (s.inode d).names → (s.inode i).type = .dir → (s.inode i).parent = some d
  /-- A directory without a name is empty. -/
  empty : ∀ d, d ≠ ROOTINO → nm n s d = 0 → (s.inode d).names = []
  /-- The ".." of a directory names one that has a name, also if the directory itself has none. -/
  dotdot : ∀ d i, (s.inode d).parent = some i →
    (s.inode i).type = .dir ∧ (i ≠ ROOTINO → 0 < nm n s i)
  /-- The directories form a tree. -/
  depth : ∃ f : Nat → Nat, ∀ d i, i ∈ (s.inode d).names → (s.inode i).type = .dir → f d < f i

/-! ## Processes -/

inductive Phase where
  | none
  /-- In `ialloc`: the inode is taken but not yet locked. -/
  | fresh (i : Nat)
  /-- In `iput`: the inode is locked and will be freed. -/
  | freeing (i : Nat)
  /-- In `iput`: the inode is free, its reference is still counted. -/
  | dropping (i : Nat) (locked : Bool)

/-- The ghost value of a process. -/
structure Loc where
  /-- The references it holds, those of its directory and open files included. -/
  refs : Multiset Nat
  /-- The inodes it has locked, with their contents. -/
  known : Nat → Option Inode
  phase : Phase
  /-- By how much the link count of an inode exceeds its names on account of the process. -/
  pend : Nat → Int

/-- A process that holds references only. -/
def Loc.of (refs : Multiset Nat) : Loc := ⟨refs, fun _ => none, .none, 0⟩

@[simps] def Loc.take (l : Loc) (i : Nat) : Loc := { l with refs := i ::ₘ l.refs }

@[simps] def Loc.drop (l : Loc) (i : Nat) : Loc := { l with refs := l.refs.erase i }

@[simps] def Loc.lock (l : Loc) (i : Nat) (c : Inode) : Loc := { l with known := update l.known i (some c) }

@[simps] def Loc.unlock (l : Loc) (i : Nat) : Loc := { l with known := update l.known i none }

@[simps] def Loc.setPhase (l : Loc) (ph : Phase) : Loc := { l with phase := ph }

/-- The process has raised the link count of inode `i` by `k`, or removed `k` of its names. -/
@[simps] def Loc.owe (l : Loc) (i : Nat) (k : Int) : Loc := { l with pend := l.pend + Pi.single i k }

def Phase.drops (i : Nat) : Phase → Nat
  | .dropping j _ => if j = i then 1 else 0
  | _ => 0

@[simp] theorem Phase.drops_none (i : Nat) : Phase.none.drops i = 0 := rfl

@[simp] theorem Phase.drops_self (i : Nat) (b : Bool) : (Phase.dropping i b).drops i = 1 := if_pos rfl

theorem Phase.drops_of_ne {i j : Nat} (b : Bool) (h : j ≠ i) : (Phase.dropping i b).drops j = 0 :=
  if_neg (Ne.symm h)

/-- How many references to inode `i` the process accounts for. -/
def Loc.held (l : Loc) (i : Nat) : Nat := l.refs.count i + l.phase.drops i

/-- No process but `p` has to do with inode `i`. -/
def Alone (g : Pid → Loc) (p : Pid) (i : Nat) : Prop :=
  ∀ q, q ≠ p → i ∉ (g q).refs ∧ (g q).known i = none

/-- The process has an inode to itself. -/
def Phase.Claims (i : Nat) (ph : Phase) : Prop := ph = .fresh i ∨ ph = .freeing i

/-- What the phase of process `p` says; `strict` if inodes are not reused too early. -/
def PhaseOk (strict : Bool) (g : Pid → Loc) (s : Fs) (p : Pid) : Phase → Prop
  | .none => True
  | .fresh i => (g p).known i ≠ none ∧ (s.inode i).nlink = 0 ∧ (s.inode i).ents = [] ∧
      (g p).pend i = 0 ∧ Alone g p i
  | .freeing i => (g p).known i ≠ none ∧ (s.inode i).nlink = 0 ∧ (g p).pend i = 0 ∧
      (g p).refs.count i = 1 ∧ Alone g p i
  | .dropping i locked => (locked = true → (s.itable i).lock = some p) ∧
      (strict = true → (s.inode i).type = .free)

structure LocOk (strict : Bool) (g : Pid → Loc) (s : Fs) (p : Pid) : Prop where
  known : ∀ i c, (g p).known i = some c → s.inode i = c ∧ c.type ≠ .free ∧
    ((g p).phase = .fresh i ∨
      (s.itable i).lock = some p ∧ (s.itable i).valid = true ∧ i ∈ (g p).refs)
  ref : ∀ i ∈ (g p).refs, (s.inode i).type ≠ .free
  pend : ∀ i, (g p).pend i ≠ 0 → i ∈ (g p).refs ∧
    if (s.inode i).type = .dir then (g p).known i ≠ none else 0 < (g p).pend i
  phase : PhaseOk strict g s p (g p).phase

/-- An inode without a name is held by a process, and its copy in memory has been read, or it
is about to be. -/
def Kept (n : Nat) (g : Pid → Loc) (s : Fs) : Prop :=
  ∀ i, i ≠ ROOTINO → (s.inode i).type ≠ .free → nm n s i = 0 →
    (0 < (s.itable i).ref ∧ (s.itable i).valid = true) ∨ ∃ p, (g p).phase = .fresh i

/-- What the link count of an inode should be: its names, the ".." of the directories in it,
and for the root directory its own "..". -/
def linkCount (n : Nat) (s : Fs) (i : Nat) : Nat := nm n s i + subdirs s i + if i = ROOTINO then 1 else 0

structure Inv (strict : Bool) (n : Nat) (g : Pid → Loc) (s : Fs) : Prop where
  disk : Disk n s
  links : ∀ i, (s.inode i).type ≠ .free →
    (s.inode i).nlink.toInt = linkCount n s i + ∑ p, (g p).pend i
  refs : ∀ i, (s.itable i).ref = ∑ p, (g p).held i
  loc : ∀ p, LocOk strict g s p
  kept : strict = true → Kept n g s

/-- The conditions on the operations of a run. `strict` asks for the last one too. -/
def Allowed (strict : Bool) (s : Fs) : Op → Prop
  /- No link count is incremented at its maximum. -/
  | .setNlink i m => ¬((s.inode i).nlink = 0x7fff ∧ m = 0x8000)
  | .writeEnt d off de =>
    if de.inum ≠ 0 then
      /- No entry goes into a directory without links, nor does ".." name one. -/
      1 ≤ (s.inode d).nlink.toInt ∧
        (namecmp de.name dotdot → 1 ≤ (s.inode de.inum.toNat).nlink.toInt)
    else
      /- No directory loses its name while it is the ".." of another. -/
      ∀ e, (s.inode d).ents[off]? = some e → (s.inode e.inum.toNat).type = .dir →
        ∀ d', (s.inode d').parent ≠ some e.inum.toNat
  /- No inode is reused while the `iput` that freed it is not over. -/
  | .ialloc i _ => strict = true → (s.inode i).type = .free → (s.itable i).ref = 0
  | _ => True

/-! ## Consequences -/

variable {strict : Bool} {n i : Nat} {g : Pid → Loc} {s s' : Fs} {p q : Pid} {l' : Loc}

theorem LocOk.alone (h : LocOk strict g s p) (hc : (g p).phase.Claims i) : Alone g p i := by
  have hp := h.phase
  rcases hc with e | e <;> rw [e] at hp <;> exact hp.2.2.2.2

/-- A directory without a name, the root aside, has no links to account for. -/
theorem Disk.links_eq_zero (h : Disk n s) (hr : i ≠ ROOTINO) (h0 : nm n s i = 0) : linkCount n s i = 0 := by
  rw [linkCount, h0, if_neg hr, subdirs, h.empty i hr h0]
  rfl

section

variable (h : Inv strict n g s)
include h

/-- A process knows an inode that it has locked, or has to itself. -/
theorem Inv.known_cases (hk : (g p).known i ≠ none) : Alone g p i ∨ (s.itable i).lock = some p ∧ i ∈ (g p).refs := by
  obtain ⟨c, hc⟩ := Option.ne_none_iff_exists'.1 hk
  rcases ((h.loc p).known i c hc).2.2 with e | ⟨hl, -, hr⟩
  · exact .inl ((h.loc p).alone (.inl e))
  · exact .inr ⟨hl, hr⟩

theorem Inv.known_unique (hp : (g p).known i ≠ none) (hq : (g q).known i ≠ none) : q = p := by
  by_contra hne
  rcases h.known_cases hp with ha | ⟨hl, -⟩
  · exact hq (ha q hne).2
  · rcases h.known_cases hq with ha | ⟨hl', -⟩
    · exact hp (ha p (Ne.symm hne)).2
    · rw [hl] at hl'
      exact hne (Option.some.inj hl').symm

/-- Nobody else owes links to an inode that a process has to itself. -/
theorem Inv.pend_of_alone (ha : Alone g p i) (hq : q ≠ p) : (g q).pend i = 0 := by
  by_contra hne
  exact (ha q hq).1 ((h.loc q).pend i hne).1

/-- Nobody else owes links to a directory that a process has locked. -/
theorem Inv.pend_of_known (hk : (g p).known i ≠ none) (hd : (s.inode i).type = .dir) (hq : q ≠ p) : (g q).pend i = 0 := by
  by_contra hne
  have := ((h.loc q).pend i hne).2
  rw [if_pos hd] at this
  exact hq (h.known_unique hk this)

theorem Inv.links_of (ht : (s.inode i).type ≠ .free) (hother : ∀ q, q ≠ p → (g q).pend i = 0) :
    (s.inode i).nlink.toInt = linkCount n s i + (g p).pend i := by
  rw [h.links i ht, Finset.sum_eq_single p (fun q _ hq => hother q hq) fun hp => absurd (Finset.mem_univ p) hp]

theorem Inv.links_of_dir (hk : (g p).known i ≠ none) (hd : (s.inode i).type = .dir) :
    (s.inode i).nlink.toInt = linkCount n s i + (g p).pend i :=
  h.links_of (by rw [hd]; nofun) fun _ hq => h.pend_of_known hk hd hq

/-- The link count is at least what it should be and what the process owes. -/
theorem Inv.pend_le (hk : (g p).known i ≠ none) (ht : (s.inode i).type ≠ .free) :
    linkCount n s i + (g p).pend i ≤ (s.inode i).nlink.toInt := by
  by_cases hd : (s.inode i).type = .dir
  · rw [h.links_of_dir hk hd]
  · have hnonneg : ∀ q, 0 ≤ (g q).pend i := by
      intro q
      by_cases h0 : (g q).pend i = 0
      · omega
      · have := ((h.loc q).pend i h0).2
        rw [if_neg hd] at this
        omega
    have hle : (g p).pend i ≤ ∑ q, (g q).pend i :=
      Finset.single_le_sum (f := fun q => (g q).pend i) (fun q _ => hnonneg q) (Finset.mem_univ p)
    rw [h.links i ht]
    omega

/-- A directory with links, none of them owed, has a name. -/
theorem Inv.nm_pos (hk : (g p).known i ≠ none) (hd : (s.inode i).type = .dir)
    (hp : (g p).pend i = 0) (hl : 1 ≤ (s.inode i).nlink.toInt) (hr : i ≠ ROOTINO) : 0 < nm n s i := by
  by_contra h0
  have := h.links_of_dir hk hd
  rw [h.disk.links_eq_zero hr (by omega), hp] at this
  omega

/-- The ref count covers the references of each process. -/
theorem Inv.held_le (p : Pid) (i : Nat) : (g p).held i ≤ (s.itable i).ref := by
  rw [h.refs i]
  exact Finset.single_le_sum (f := fun q => (g q).held i) (fun _ _ => Nat.zero_le _) (Finset.mem_univ p)

theorem Inv.ref_pos (hi : i ∈ (g p).refs) : 0 < (s.itable i).ref := by
  have hle := h.held_le p i
  have hc := Multiset.count_pos.2 hi
  unfold Loc.held at hle
  omega

/-- The only reference to an inode. -/
theorem Inv.alone_of_ref (hi : i ∈ (g p).refs) (h1 : (s.itable i).ref = 1) :
    Alone g p i ∧ (g p).refs.count i = 1 ∧ (g p).phase.drops i = 0 := by
  have hc := Multiset.count_pos.2 hi
  have hle := h.held_le p i
  have hsum := h.refs i
  rw [h1, ← Finset.add_sum_erase _ _ (Finset.mem_univ p)] at hsum
  unfold Loc.held at hle hsum
  have hrest : ∑ q ∈ Finset.univ.erase p, (g q).held i = 0 := by
    unfold Loc.held
    omega
  have hzero : ∀ q, q ≠ p → (g q).held i = 0 := fun q hq =>
    Finset.sum_eq_zero_iff.1 hrest q (Finset.mem_erase.2 ⟨hq, Finset.mem_univ q⟩)
  refine ⟨fun q hq => ?_, by omega, by omega⟩
  have hnr : i ∉ (g q).refs := by
    intro hmem
    have := Multiset.count_pos.2 hmem
    have := hzero q hq
    unfold Loc.held at this
    omega
  refine ⟨hnr, ?_⟩
  by_contra hk
  rcases h.known_cases hk with ha | ⟨-, hr⟩
  · exact (ha p (Ne.symm hq)).1 hi
  · exact hnr hr

end

/-! ## Frame rules -/

/-- What another process does. -/
theorem LocOk.frame (hq : q ≠ p) (h : LocOk strict g s q) (hin : ∀ i, (g q).known i ≠ none → s'.inode i = s.inode i)
    (hlock : ∀ i, (s.itable i).lock = some q → (s'.itable i).lock = some q ∧
      ((s.itable i).valid = true → i ∈ (g q).refs → (s'.itable i).valid = true))
    (htype : ∀ i ∈ (g q).refs, (s'.inode i).type = (s.inode i).type)
    (hnew : ∀ i, (g q).phase.Claims i → i ∉ l'.refs ∧ l'.known i = none)
    (hdrop : strict = true → ∀ i b, (g q).phase = .dropping i b → (s.inode i).type = .free →
      (s'.inode i).type = .free) : LocOk strict (update g p l') s' q := by
  have eq : update g p l' q = g q := update_of_ne hq ..
  have halone : ∀ i, (g q).phase.Claims i → Alone g q i → Alone (update g p l') q i := by
    intro i hc ha r hr
    by_cases e : r = p
    · rw [e, update_self]
      exact hnew i hc
    · rw [update_of_ne e]
      exact ha r hr
  refine ⟨fun i c hk => ?_, fun i hi => ?_, fun i hi => ?_, ?_⟩
  · rw [eq] at hk ⊢
    obtain ⟨e, ht, hl⟩ := h.known i c hk
    refine ⟨(hin i (by rw [hk]; nofun)).trans e, ht, hl.imp_right fun ⟨hl, hv, hr⟩ => ?_⟩
    exact ⟨(hlock i hl).1, (hlock i hl).2 hv hr, hr⟩
  · rw [eq] at hi
    rw [htype i hi]
    exact h.ref i hi
  · rw [eq] at hi ⊢
    have := h.pend i hi
    rw [htype i this.1]
    exact this
  · rw [eq]
    have hp := h.phase
    cases hph : (g q).phase with
    | none => trivial
    | fresh i =>
      rw [hph] at hp
      obtain ⟨hk, hl, he, hpd, ha⟩ := hp
      show _ ∧ _ ∧ _ ∧ _ ∧ _
      rw [eq, hin i hk]
      exact ⟨hk, hl, he, hpd, halone i (.inl hph) ha⟩
    | freeing i =>
      rw [hph] at hp
      obtain ⟨hk, hl, hpd, hc, ha⟩ := hp
      show _ ∧ _ ∧ _ ∧ _ ∧ _
      rw [eq, hin i hk]
      exact ⟨hk, hl, hpd, hc, halone i (.inr hph) ha⟩
    | dropping i b =>
      rw [hph] at hp
      exact ⟨fun hb => (hlock i (hp.1 hb)).1, fun hs => hdrop hs i b hph (hp.2 hs)⟩

theorem Disk.setEntry (h : Disk n s) (e : Entry) : Disk n (s.setEntry i e) := { h with }

/-- An operation on the entry of one inode in the table. -/
theorem Inv.table (h : Inv strict n g s) {e : Entry} (hpend : l'.pend = (g p).pend)
    (href : e.ref + (g p).held i = (s.itable i).ref + l'.held i) (hheld : ∀ j, j ≠ i → l'.held j = (g p).held j)
    (hlock : ∀ q, q ≠ p → (s.itable i).lock = some q → e.lock = some q ∧
      ((s.itable i).valid = true → i ∈ (g q).refs → e.valid = true))
    (hnew : ∀ q, q ≠ p → ∀ j, (g q).phase.Claims j → j ∉ l'.refs ∧ l'.known j = none)
    (hloc : LocOk strict (update g p l') (s.setEntry i e) p)
    (hkept : strict = true → Kept n (update g p l') (s.setEntry i e)) : Inv strict n (update g p l') (s.setEntry i e) := by
  refine ⟨h.disk.setEntry e, fun j hj => ?_, fun j => ?_, fun q => ?_, hkept⟩
  · have hsum := sum_update_eq (t := Finset.univ) g (fun l => l.pend j)
      (show l'.pend j = (g p).pend j by rw [hpend])
    rw [hsum]
    exact h.links j hj
  · have hsum := sum_update (Finset.mem_univ p) g l' fun l => l.held j
    have hj := h.refs j
    by_cases e' : j = i
    · subst e'
      rw [Fs.setEntry_self]
      omega
    · rw [Fs.setEntry_of_ne _ _ e']
      have := hheld j e'
      omega
  · by_cases hq : q = p
    · rw [hq]
      exact hloc
    · refine (h.loc q).frame hq (fun _ _ => rfl) (fun j hj => ?_) (fun _ _ => rfl) (hnew q hq)
        fun _ _ _ _ ht => ht
      by_cases e' : j = i
      · subst e'
        rw [Fs.setEntry_self]
        exact hlock q hq hj
      · rw [Fs.setEntry_of_ne _ _ e']
        exact ⟨hj, fun hv _ => hv⟩

theorem phaseOk_none {ph : Phase} (h : ph = .none) : PhaseOk strict g s p ph := by
  rw [h]
  trivial

theorem alone_update : Alone (update g p l') p i ↔ Alone g p i := by
  refine forall_congr' fun q => imp_congr_right fun hq => ?_
  rw [update_of_ne hq]

theorem LocOk.self (hk : ∀ i c, l'.known i = some c → s'.inode i = c ∧ c.type ≠ .free ∧
      (l'.phase = .fresh i ∨ (s'.itable i).lock = some p ∧ (s'.itable i).valid = true ∧ i ∈ l'.refs))
    (hr : ∀ i ∈ l'.refs, (s'.inode i).type ≠ .free) (hp : ∀ i, l'.pend i ≠ 0 → i ∈ l'.refs ∧
      if (s'.inode i).type = .dir then l'.known i ≠ none else 0 < l'.pend i)
    (hph : PhaseOk strict (update g p l') s' p l'.phase) : LocOk strict (update g p l') s' p := by
  constructor <;> rw [update_self]
  · exact hk
  · exact hr
  · exact hp
  · exact hph

theorem fresh_update (hp : (g p).phase = .fresh i → l'.phase = .fresh i)
    (h : ∃ q, (g q).phase = .fresh i) : ∃ q, (update g p l' q).phase = .fresh i := by
  obtain ⟨q, hq⟩ := h
  refine ⟨q, ?_⟩
  by_cases e : q = p
  · subst e
    rw [update_self]
    exact hp hq
  · rw [update_of_ne e, hq]

theorem Kept.table (h : Kept n g s) {e : Entry} (hph : ∀ j, j ≠ i → (g p).phase = .fresh j → l'.phase = .fresh j)
    (hi : i ≠ ROOTINO → (s.inode i).type ≠ .free → nm n s i = 0 →
      (0 < e.ref ∧ e.valid = true) ∨ ∃ q, (update g p l' q).phase = .fresh i) :
    Kept n (update g p l') (s.setEntry i e) := by
  intro j hr ht h0
  by_cases ej : j = i
  · subst ej
    rw [Fs.setEntry_self]
    exact hi hr ht h0
  · rw [Fs.setEntry_of_ne _ _ ej]
    exact (h j hr ht h0).imp_right (fresh_update (hph j ej))

/-- An inode that a process has to itself is not the root and has no name. -/
theorem Inv.nm_of_claims (h : Inv strict n g s) (hc : (g p).phase.Claims i) : i ≠ ROOTINO ∧ nm n s i = 0 := by
  have hp := (h.loc p).phase
  have ha := (h.loc p).alone hc
  have hl : (g p).known i ≠ none ∧ (s.inode i).nlink = 0 ∧ (g p).pend i = 0 := by
    rcases hc with e | e <;> rw [e] at hp
    · exact ⟨hp.1, hp.2.1, hp.2.2.2.1⟩
    · exact ⟨hp.1, hp.2.1, hp.2.2.1⟩
  obtain ⟨c, hk⟩ := Option.ne_none_iff_exists'.1 hl.1
  obtain ⟨e, ht, -⟩ := (h.loc p).known i c hk
  have hlinks := h.links_of (p := p) (by rw [e]; exact ht) fun q hq => h.pend_of_alone ha hq
  rw [hl.2.1, hl.2.2] at hlinks
  have h0 : (0 : BitVec 16).toInt = 0 := rfl
  unfold linkCount at hlinks
  split at hlinks
  · omega
  · exact ⟨‹_›, by omega⟩

/-- The inode can be found by its name. -/
def Named (n : Nat) (s : Fs) (i : Nat) : Prop :=
  (s.inode i).type ≠ .free ∧ (i ≠ ROOTINO → 0 < nm n s i)

theorem Inv.not_claims (h : Inv strict n g s) (hi : Named n s i ∨ i ∈ (g p).refs) (hq : q ≠ p) : ¬(g q).phase.Claims i := by
  intro hc
  rcases hi with hn | hr
  · obtain ⟨hr, h0⟩ := h.nm_of_claims hc
    have := hn.2 hr
    omega
  · exact ((h.loc q).alone hc p (Ne.symm hq)).1 hr

theorem Inv.claims_iff (h : Inv strict n g s) (hq : q ≠ p) {j : Nat} (hc : (g q).phase.Claims j) :
    j ∉ (g p).refs ∧ (g p).known j = none := (h.loc q).alone hc p (Ne.symm hq)

end Xv6.Names
