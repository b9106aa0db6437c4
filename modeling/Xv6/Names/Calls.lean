import Xv6.Names.Entries

/-!
# The system calls

What each function does to the ghost value of the process that runs it, from `dirlookup`
and `namex` up to the system calls. A process between calls holds one reference for its
directory and one for each open file (`idle`), and so it does after each call
(`safe_code`).
-/

namespace Xv6.Names

open Function Multiset
open Blocks

variable {strict : Bool} {n i d j : Nat} {g : Pid → Loc} {s : Fs} {p : Pid} {l : Loc}
  {c c' : Inode}

/-! ## Ghost values -/

/-- A reference taken and dropped. -/
theorem Loc.take_drop (l : Loc) (i : Nat) : (l.take i).drop i = l := by
  rw [Loc.drop, Loc.take, erase_cons_head]

theorem Loc.take_take_drop (l : Loc) (i j : Nat) : ((l.take i).take j).drop i = l.take j := by
  rw [Loc.drop, Loc.take, Loc.take, Loc.take, cons_swap, erase_cons_head]

theorem Loc.mem_take (l : Loc) (i : Nat) : i ∈ (l.take i).refs := mem_cons_self ..

theorem Loc.mem_take_lock (l : Loc) (i : Nat) (c : Inode) : i ∈ ((l.take i).lock i c).refs := l.mem_take i

/-- A lock taken and released. -/
theorem Loc.lock_unlock (h : l.known i = none) (c : Inode) : (l.lock i c).unlock i = l := by
  rw [Loc.unlock, Loc.lock, update_idem, ← h, update_eq_self]

theorem Loc.lock_lock (l : Loc) (i : Nat) (c c' : Inode) : (l.lock i c).lock i c' = l.lock i c' := by
  rw [Loc.lock, Loc.lock, Loc.lock, update_idem]

/-- A process that has locked inode `i` and owes it `k` links, besides the references `R`. -/
def Loc.one (R : Multiset Nat) (i : Nat) (c : Inode) (k : Int) : Loc :=
  ⟨i ::ₘ R, update (fun _ => none) i (some c), .none, Pi.single i k⟩

/-- A process that has locked a directory `d` and an inode `i` that is or will be in it. -/
def Loc.two (R : Multiset Nat) (d : Nat) (cd : Inode) (kd : Int) (i : Nat) (c : Inode) (k : Int) :
    Loc :=
  ⟨i ::ₘ d ::ₘ R, update (update (fun _ => none) d (some cd)) i (some c), .none,
    Pi.single d kd + Pi.single i k⟩

theorem single_add_single (i : Nat) (k k' : Int) : Pi.single i k + Pi.single i k' = (Pi.single i (k + k') : Nat → Int) := by
  funext x
  simp only [Pi.add_apply, Pi.single_apply]
  split <;> rfl

section

variable {R : Multiset Nat} {cd : Inode} {k k' kd : Int}

theorem Loc.take_lock (R : Multiset Nat) (i : Nat) (c : Inode) : ((Loc.of R).take i).lock i c = Loc.one R i c 0 := by
  rw [Loc.one, Pi.single_zero]
  rfl

theorem Loc.one_lock_owe : ((Loc.one R i c k).lock i c').owe i k' = Loc.one R i c' (k + k') := by
  rw [Loc.one, Loc.lock, Loc.owe, Loc.one, update_idem, single_add_single]

theorem Loc.one_unlock : (Loc.one R i c 0).unlock i = (Loc.of R).take i := by
  rw [Loc.one, Loc.unlock, update_idem, update_eq_self_iff.2 rfl, Pi.single_zero]
  rfl

theorem Loc.one_put : ((Loc.one R i c 0).unlock i).drop i = Loc.of R := by
  rw [Loc.one_unlock, Loc.take_drop]

/-- With a directory locked, a second inode is taken and locked. -/
theorem Loc.one_take_lock : ((Loc.one R d cd 0).take i).lock i c = Loc.two R d cd 0 i c 0 := by
  rw [Loc.two, Pi.single_zero, Pi.single_zero, add_zero, Loc.one, Pi.single_zero]
  rfl

theorem Loc.one_known : (Loc.one R i c k).known i = some c := by
  simp only [Loc.one, update_self]

theorem Loc.one_mem : i ∈ (Loc.one R i c k).refs := mem_cons_self ..

theorem Loc.one_pend : (Loc.one R i c k).pend i = k := by
  simp only [Loc.one, Pi.single_eq_same]

theorem Loc.two_known : (Loc.two R d cd kd i c k).known i = some c := by
  simp only [Loc.two, update_self]

theorem Loc.two_mem : i ∈ (Loc.two R d cd kd i c k).refs := mem_cons_self ..

theorem Loc.two_mem_dir : d ∈ (Loc.two R d cd kd i c k).refs :=
  mem_cons_of_mem (mem_cons_self ..)

/-- A process that owes inode `i` links but has not locked it. -/
def Loc.owing (R : Multiset Nat) (i : Nat) (k : Int) : Loc := ((Loc.of R).take i).owe i k

theorem Loc.owing_mem : i ∈ (Loc.owing R i k).refs := mem_cons_self ..

theorem Loc.owing_pend : (Loc.owing R i k).pend i = k := by
  simp only [Loc.owing, Loc.owe_pend, Pi.add_apply, Pi.single_eq_same, Loc.take_pend]
  exact zero_add k

theorem Loc.owing_pend_of_ne (h : j ≠ i) : (Loc.owing R i k).pend j = 0 := by
  simp only [Loc.owing, Loc.owe_pend, Pi.add_apply, Pi.single_eq_of_ne h, Loc.take_pend]
  rfl

theorem Loc.owing_lock : (Loc.owing R i k).lock i c = Loc.one R i c k := by
  simp only [Loc.owing, Loc.owe, Loc.lock, Loc.one, Loc.take, Loc.of, zero_add]

theorem Loc.one_unlock_owing : (Loc.one R i c k).unlock i = Loc.owing R i k := by
  rw [← Loc.owing_lock]
  exact Loc.lock_unlock rfl c

/-- A name written for an inode settles the link that it is owed. -/
theorem Loc.owing_oweName : (((Loc.owing R i 1).take d).lock d cd).oweName d c' i false (-1) =
    (((Loc.of R).take i).take d).lock d c' := by
  have e : (Loc.owing R i 1).owe i (-1) = (Loc.of R).take i := by
    rw [Loc.owing, Loc.owe, Loc.owe, add_assoc, single_add_single]
    show Loc.mk _ _ _ (_ + Pi.single i 0) = _
    rw [Pi.single_zero, add_zero]
  rw [Loc.oweName, Loc.lock_lock]
  show (((((Loc.owing R i 1).owe i (-1)).take d).lock d c').owe d 0) = _
  rw [e, Loc.owe, Pi.single_zero, add_zero]

theorem Loc.two_lock : (Loc.two R d cd kd i c k).lock i c' = Loc.two R d cd kd i c' k := by
  rw [Loc.two, Loc.lock, Loc.two, update_idem]

theorem Loc.two_lock_owe : ((Loc.two R d cd kd i c k).lock i c').owe i k' = Loc.two R d cd kd i c' (k + k') := by
  rw [Loc.two_lock, Loc.owe, Loc.two, Loc.two, add_assoc, single_add_single]

variable (hne : d ≠ i)
include hne

theorem Loc.two_known_dir : (Loc.two R d cd kd i c k).known d = some cd := by
  simp only [Loc.two, update_of_ne hne, update_self]

theorem Loc.two_pend_dir : (Loc.two R d cd kd i c k).pend d = kd := by
  simp only [Loc.two, Pi.add_apply, Pi.single_eq_same, Pi.single_eq_of_ne hne, add_zero]

theorem Loc.two_pend : (Loc.two R d cd kd i c k).pend i = k := by
  simp only [Loc.two, Pi.add_apply, Pi.single_eq_same, Pi.single_eq_of_ne hne.symm, zero_add]

theorem Loc.two_lock_dir : (Loc.two R d cd kd i c k).lock d c' = Loc.two R d c' kd i c k := by
  rw [Loc.two, Loc.lock, Loc.two, update_comm hne.symm, update_idem]

theorem Loc.two_lock_owe_dir : ((Loc.two R d cd kd i c k).lock d c').owe d k' = Loc.two R d c' (kd + k') i c k := by
  rw [Loc.two_lock_dir hne, Loc.owe, Loc.two, Loc.two, add_right_comm, single_add_single]

/-- A name in `d` is a link of `i`, and of `d` if `i` is a directory. -/
theorem Loc.two_oweName (b : Bool) : (Loc.two R d cd kd i c k).oweName d c' i b k' =
    Loc.two R d c' (kd + if b then k' else 0) i c (k + k') := by
  have e : ((Loc.two R d c' kd i c k).owe i k') = Loc.two R d c' kd i c (k + k') := by
    rw [Loc.owe, Loc.two, Loc.two, add_assoc, single_add_single]
  rw [Loc.oweName, Loc.two_lock_dir hne, e, Loc.owe, Loc.two, Loc.two, add_right_comm, single_add_single]

theorem Loc.two_put_dir : ((Loc.two R d cd 0 i c k).unlock d).drop d = Loc.one R i c k := by
  rw [Loc.two, Loc.unlock, Loc.drop, Loc.one, update_comm hne.symm, update_idem,
    update_eq_self_iff.2 rfl, cons_swap, erase_cons_head, Pi.single_zero, zero_add]

theorem Loc.two_put : ((Loc.two R d cd kd i c 0).unlock i).drop i = Loc.one R d cd kd := by
  have hi : update (fun _ => none) d (some cd) i = none := update_of_ne hne.symm ..
  have hk : update (update (fun _ => none) d (some cd)) i none = update (fun _ => none) d (some cd) :=
    update_eq_self_iff.2 hi.symm
  simp only [Loc.two, Loc.unlock, Loc.drop, Loc.one, update_idem, hk, erase_cons_head, Pi.single_zero, add_zero]

end

/-! ## References and names -/

variable {Q : Unit → Loc → Prop} {name : Name} {cwd : Nat}

/-- Unlock and drop, with no link of a directory left owing. -/
theorem safe_iunlockput (hk : l.known i = some c) (hph : l.phase = .none) (hi : i ∈ l.refs)
    (hd : c.type = .dir → l.pend i = 0) (hp : l.pend i = 0 ∨ 2 ≤ l.refs.count i) (hq : Q () ((l.unlock i).drop i)) :
    Safe strict n p (iunlockput i) l Q := by
  refine .bind (safe_iunlock hk hph hd (safe_iput ⟨hi, ?_⟩ hph hq))
  exact hp.imp_left fun h0 => ⟨update_self .., h0⟩

/-- A reference that a process has just taken can be dropped. -/
theorem Loc.droppable_take (h : l.known i ≠ none ∨ l.pend i ≠ 0 → i ∈ l.refs) : (l.take i).Droppable i := by
  refine ⟨mem_cons_self .., ?_⟩
  by_cases hh : l.known i ≠ none ∨ l.pend i ≠ 0
  · right
    rw [Loc.take_refs, count_cons_self]
    have := count_pos.2 (h hh)
    omega
  · left
    exact ⟨not_not.1 fun hk => hh (.inl hk), not_not.1 fun hp => hh (.inr hp)⟩

/-- What `lookup` finds is an entry in use with the name. -/
theorem lookup_eq_some {ents : List Dirent} {k off : Nat} (h : lookup name ents k = some (j, off)) :
    ∃ e, k ≤ off ∧ ents[off - k]? = some e ∧ e.inum.toNat = j ∧ e.inum ≠ 0 ∧ namecmp name e.name = true := by
  induction ents generalizing k with
  | nil => cases h
  | cons e ents ih =>
    rw [lookup] at h
    split at h
    · rename_i hm
      cases h
      exact ⟨e, le_rfl, by simp, rfl, hm⟩
    · obtain ⟨e', hle, he', hrest⟩ := ih h
      refine ⟨e', by omega, ?_, hrest⟩
      rw [show off - k = off - (k + 1) + 1 by omega]
      exact he'

/-- `dirlookup` in a locked inode. -/
theorem safe_dirlookup {Q : Option (Nat × Nat) → Loc → Prop} (hk : l.known d = some c) (hph : l.phase = .none)
    (hnone : c.type = .dir → lookup name c.ents 0 = none → Q none l)
    (hsome : c.type = .dir → ∀ e off, c.ents[off]? = some e → e.inum ≠ 0 → namecmp name e.name = true →
      (l.take e.inum.toNat).Droppable e.inum.toNat → Q (some (e.inum.toNat, off)) (l.take e.inum.toNat)) :
    Safe strict n p (dirlookup d name) l Q := by
  refine .bind (safe_read hk (.ite (fun _ => .panic ⟨nofun, nofun⟩) fun hdir => ?_))
  have hdir : c.type = .dir := not_not.1 hdir
  split
  · rename_i hl
    obtain ⟨e, -, he, rfl, h0, hm⟩ := lookup_eq_some hl
    refine .bind (.of_op fun g s hg h => ?_)
    subst hg
    refine safe_iget_ent hph hk (List.mem_of_getElem? he) h0 (hsome hdir e _ he h0 hm ?_)
    refine Loc.droppable_take fun hh => ?_
    rcases hh with hkn | hp
    · obtain ⟨c', hc'⟩ := Option.ne_none_iff_exists'.1 hkn
      exact ((h.loc p).locked hph hc').2.2.2.2
    · exact ((h.loc p).pend _ hp).1
  · exact hnone hdir ‹_›

/-- `dirlink` in a locked inode: what remains is the write. -/
theorem safe_dirlink {Q : Bool → Loc → Prop} (hk : l.known d = some c) (hph : l.phase = .none)
    (hfalse : c.type = .dir → Q false l) (hwrite : c.type = .dir → lookup name c.ents 0 = none →
      Safe strict n p (perform (.writeEnt d (c.ents.findIdx fun e => e.inum = 0)
        ⟨BitVec.ofNat 16 j, strncpy DIRSIZ name⟩)) l Q) : Safe strict n p (dirlink d name j) l Q := by
  refine .bind (safe_dirlookup hk hph (fun hdir hl => ?_) fun hdir e off _ _ _ hd => ?_)
  · exact .bind (safe_read hk (hwrite hdir hl))
  · refine .bind (safe_iput hd hph ?_)
    rw [Loc.take_drop]
    exact hfalse hdir

section

variable (hph : l.phase = .none) (hk : ∀ i, l.known i = none) (hp : ∀ i, l.pend i ≠ 0 → i ∈ l.refs)
include hph hk hp

/-- The loop of `namex`, which holds a reference to `ip` besides those of `l`. -/
theorem safe_walk {Q : Option (Nat × Name) → Loc → Prop} (hnone : Q none l)
    (hsome : ∀ ip name, Q (some (ip, name)) (l.take ip)) (parent : Bool) (names : List Name) (ip : Nat) :
    Safe strict n p (walk parent ip names) (l.take ip) Q := by
  induction names generalizing ip with
  | nil =>
    refine .ite (fun _ => ?_) fun _ => hsome ip []
    refine .bind (safe_iput (Loc.droppable_take fun hh => ?_) hph ?_)
    · exact hp ip (hh.resolve_left fun h => h (hk ip))
    · rw [Loc.take_drop]
      exact hnone
  | cons name rest ih =>
    have hmem := l.mem_take ip
    refine .bind (safe_ilock hmem hph fun c _ _ hd => ?_)
    have hself : ((l.take ip).lock ip c).known ip = some c := update_self ..
    have hput : (((l.take ip).lock ip c).unlock ip).drop ip = l := by
      rw [Loc.lock_unlock (l := l.take ip) (hk ip), Loc.take_drop]
    refine .bind (safe_read hself (.ite (fun _ => ?_) fun hdir => ?_))
    · refine .bind (safe_iunlockput hself hph hmem hd ?_ ?_)
      · refine or_iff_not_imp_left.2 fun h0 => ?_
        have := count_pos.2 (hp ip h0)
        show 2 ≤ (ip ::ₘ l.refs).count ip
        rw [count_cons_self]
        omega
      · rw [hput]
        exact hnone
    · have h0 : l.pend ip = 0 := hd (not_not.1 hdir)
      refine .ite (fun _ => ?_) fun _ => ?_
      · refine .bind (safe_iunlock hself hph hd ?_)
        rw [Loc.lock_unlock (l := l.take ip) (hk ip)]
        exact hsome ip name
      · refine .bind (safe_dirlookup hself hph (fun _ _ => ?_) fun _ e off _ _ _ _ => ?_)
        · refine .bind (safe_iunlockput hself hph hmem hd (.inl h0) ?_)
          rw [hput]
          exact hnone
        · refine .bind (safe_iunlockput hself hph ?_ hd (.inl h0) ?_)
          · exact mem_cons_of_mem hmem
          · have e' : ((((l.take ip).lock ip c).take e.inum.toNat).unlock ip).drop ip = l.take e.inum.toNat := by
              show ((((l.take ip).take e.inum.toNat).lock ip c).unlock ip).drop ip = _
              rw [Loc.lock_unlock (l := (l.take ip).take _) (hk ip), Loc.take_take_drop]
            rw [e']
            exact ih e.inum.toNat

/-- `namex` ends with a reference to what it finds, and no other. -/
theorem safe_namex {Q : Option (Nat × Name) → Loc → Prop} (hcwd : cwd ∈ l.refs) (hnone : Q none l)
    (hsome : ∀ ip name, Q (some (ip, name)) (l.take ip)) (path : Name) (parent : Bool) :
    Safe strict n p (namex cwd path parent) l Q := by
  refine .ite (fun _ => ?_) fun _ => ?_
  · exact .bind (safe_iget_root hph (safe_walk hph hk hp hnone hsome ..))
  · exact .bind (safe_idup hcwd hph (safe_walk hph hk hp hnone hsome ..))

theorem safe_namei {Q : Option Nat → Loc → Prop} (hcwd : cwd ∈ l.refs) (hnone : Q none l)
    (hsome : ∀ ip, Q (some ip) (l.take ip)) (path : Name) : Safe strict n p (namei cwd path) l Q :=
  .bind (safe_namex hph hk hp hcwd hnone (fun ip _ => hsome ip) path false)

end

/-! ## Link counts -/

theorem toInt_add_one {b : BitVec 16} (h : ¬(b = 0x7fff ∧ b + 1 = 0x8000)) : (b + 1).toInt - b.toInt = 1 := by
  have hb : b.toNat ≠ 0x7fff := fun e => h ⟨BitVec.eq_of_toNat_eq e, by
    rw [show b = 0x7fff from BitVec.eq_of_toNat_eq e]; rfl⟩
  have hlt := b.isLt
  rw [BitVec.toInt_eq_toNat_cond, BitVec.toInt_eq_toNat_cond, BitVec.toNat_add,
    show (1 : BitVec 16).toNat = 1 from rfl]
  split <;> split <;> omega

theorem toInt_sub_one {b : BitVec 16} (h : 1 ≤ b.toInt) : (b - 1).toInt - b.toInt = -1 := by
  have hlt := b.isLt
  rw [BitVec.toInt_eq_toNat_cond] at h
  rw [BitVec.toInt_eq_toNat_cond, BitVec.toInt_eq_toNat_cond, BitVec.toNat_sub,
    show (1 : BitVec 16).toNat = 1 from rfl]
  split at h <;> split <;> omega

/-- The link is counted before there is a name for it. -/
theorem safe_incNlink (hk : l.known i = some c) (hph : l.phase = .none) (hpos : c.type ≠ .dir → 0 ≤ l.pend i + 1)
    (hq : ∀ nlink, Q () ((l.lock i { c with nlink }).owe i 1)) : Safe strict n p (incNlink i) l Q :=
  .bind (safe_read hk (safe_setNlink hk hph (fun hmax _ => toInt_add_one hmax) hpos (hq _)))

theorem safe_decNlink (hk : l.known i = some c) (hph : l.phase = .none) (hpos : 1 ≤ l.pend i)
    (hq : ∀ nlink, Q () ((l.lock i { c with nlink }).owe i (-1))) : Safe strict n p (decNlink i) l Q :=
  .bind (safe_read hk (safe_setNlink hk hph (fun _ hle => toInt_sub_one (le_trans hpos hle)) (fun _ => by omega) (hq _)))

/-! ## `create` -/

section

variable {Q : Option Nat → Loc → Prop} {type : InodeType} (ht : type ≠ .free) (hph : l.phase = .none) (hnone : Q none l)
  (hsome : ∀ i, i ∉ l.refs → l.known i = none → l.pend i = 0 →
    Q (some i) (((l.lock i (freshInode type)).setPhase (.fresh i)).take i))
include ht hph hnone hsome

theorem safe_iallocLoop (inums : List Nat) (hn : ∀ i ∈ inums, 0 < i ∧ i < n) :
    Safe strict n p (iallocLoop type inums) l Q := by
  induction inums with
  | nil => exact hnone
  | cons i rest ih =>
    refine .bind (safe_ialloc_op hph (hn i List.mem_cons_self) ht ?_ fun hr hk hp => ?_)
    · exact ih fun j hj => hn j (List.mem_cons_of_mem _ hj)
    · exact .bind (safe_iget_fresh rfl (hsome i hr hk hp))

/-- The whole loop: a fresh inode that no process knows, or none. -/
theorem safe_ialloc : Safe strict n p (ialloc n type) l Q := by
  refine safe_iallocLoop ht hph hnone hsome _ fun i hi => ?_
  obtain ⟨k, hk, hi⟩ := List.mem_iff_getElem.1 hi
  rw [List.getElem_drop, List.getElem_range] at hi
  rw [List.length_drop, List.length_range] at hk
  omega

end

section

variable {R : Multiset Nat} {cd : Inode}

/-- `ilock` of an inode to which the process has just got a reference. -/
theorem safe_ilock_take (hq : ∀ c, Q () (Loc.one R i c 0)) : Safe strict n p (perform (.ilock i)) ((Loc.of R).take i) Q := by
  refine safe_ilock (Loc.mem_take ..) rfl fun c _ _ _ => ?_
  rw [Loc.take_lock]
  exact hq c

/-- The end of a call that holds one inode, locked. -/
theorem safe_one_put (hq : Q () (Loc.of R)) : Safe strict n p (iunlockput i) (Loc.one R i c 0) Q := by
  refine safe_iunlockput Loc.one_known rfl Loc.one_mem (fun _ => Loc.one_pend)
    (.inl Loc.one_pend) ?_
  rw [Loc.one_put]
  exact hq

variable {type : InodeType} (hne : d ≠ i)
include hne

theorem safe_two_put_dir {k : Int} (hq : Q () (Loc.one R i c k)) :
    Safe strict n p (iunlockput d) (Loc.two R d cd 0 i c k) Q := by
  refine safe_iunlockput (Loc.two_known_dir hne) rfl Loc.two_mem_dir (fun _ => Loc.two_pend_dir hne)
    (.inl (Loc.two_pend_dir hne)) ?_
  rw [Loc.two_put_dir hne]
  exact hq

theorem safe_two_put {k : Int} (hq : Q () (Loc.one R d cd k)) :
    Safe strict n p (iunlockput i) (Loc.two R d cd k i c 0) Q := by
  refine safe_iunlockput Loc.two_known rfl Loc.two_mem (fun _ => Loc.two_pend hne)
    (.inl (Loc.two_pend hne)) ?_
  rw [Loc.two_put hne]
  exact hq

/-- The "." and ".." entries of a new directory `i`, which will be in `d`. -/
theorem safe_makeDots {Q : Bool → Loc → Prop} (hn : n ≤ 2 ^ 16) (hdir : cd.type = .dir) (he : c.ents = [])
    (hfalse : ∀ ents, Q false (Loc.two R d cd 0 i { c with ents } 1))
    (htrue : ∀ ents, (type = .dir → ({ c with ents } : Inode).parent = some d) →
      Q true (Loc.two R d cd 0 i { c with ents } 1)) : Safe strict n p (makeDots d i type) (Loc.two R d cd 0 i c 1) Q := by
  have hc : ({ c with ents := [] } : Inode) = c := by
    rw [← he]
  have hfalse' := hfalse []
  rw [hc] at hfalse'
  refine .ite (fun htype => ?_) fun htype => ?_
  · refine .bind (safe_dirlink Loc.two_known rfl (fun _ => hfalse') fun hcd _ => ?_)
    refine safe_write_dot hn Loc.two_known rfl hcd he hfalse' fun e => ?_
    rw [Loc.two_lock]
    refine safe_dirlink Loc.two_known rfl (fun _ => hfalse [e]) fun _ _ => ?_
    refine safe_write_dotdot hn Loc.two_known rfl hcd rfl (Loc.two_known_dir hne) hdir
      (Loc.two_pend_dir hne) (hfalse [e]) fun e' he' => ?_
    rw [Loc.two_lock]
    exact htrue [e, e'] fun _ => congrArg some he'
  · have := htrue [] fun h => absurd h htype
    rw [hc] at this
    exact this

/-- The new inode gives its link back and is freed by `iput`. -/
theorem safe_createFail {Q : Option Nat → Loc → Prop} (hc : c.nlink = 1) (hq : Q none (Loc.of R)) :
    Safe strict n p (createFail d i) (Loc.two R d cd 0 i c 1) Q := by
  have hm : ¬(c.nlink = 0x7fff ∧ (0 : BitVec 16) = 0x8000) →
      (Loc.two R d cd 0 i c 1).pend i ≤ c.nlink.toInt → (0 : BitVec 16).toInt - c.nlink.toInt = -1 := by
    intro _ _
    rw [hc]
    rfl
  refine .bind (safe_setNlink Loc.two_known rfl hm (fun _ => ?_) ?_)
  · rw [Loc.two_pend hne]
    omega
  · rw [Loc.two_lock_owe]
    exact .bind (safe_two_put hne (.bind (safe_one_put hq)))

/-- `create` of an inode that is new: it is locked, and so is its directory. -/
theorem safe_createNew {Q : Option Nat → Loc → Prop} (hn : n ≤ 2 ^ 16) (hdir : cd.type = .dir)
    (ht : c.type = type) (he : c.ents = []) (hc : c.nlink = 1) (hnone : Q none (Loc.of R))
    (hsome : ∀ c, Q (some i) (Loc.one R i c 0)) : Safe strict n p (createNew d i name type) (Loc.two R d cd 0 i c 1) Q := by
  refine .bind (safe_makeDots hne hn hdir he (fun ents => ?_) fun ents hpar => ?_)
  · exact safe_createFail hne hc hnone
  · refine .bind (safe_dirlink (Loc.two_known_dir hne) rfl (fun _ => ?_) fun _ hl => ?_)
    · exact safe_createFail hne hc hnone
    · refine safe_write_name (b := decide (type = .dir)) hn (Loc.two_known_dir hne) rfl hdir
        (Loc.two_pend_dir hne) hl ⟨Loc.two_mem, Loc.two_pend hne, .inr ⟨_, Loc.two_known, ?_, ?_⟩⟩ ?_
        fun entsd => ?_
      · rw [← ht]
      · exact fun htype => ⟨hc, hpar (ht ▸ htype)⟩
      · exact safe_createFail hne hc hnone
      · rw [Loc.two_oweName hne]
        refine .bind (.ite (fun htype => ?_) fun htype => ?_)
        · refine safe_incNlink (Loc.two_known_dir hne) rfl (fun hd => absurd hdir hd) fun m => ?_
          rw [Loc.two_lock_owe_dir hne]
          rw [if_pos (decide_eq_true htype)]
          exact .bind (safe_two_put_dir hne (hsome _))
        · rw [if_neg (by simpa using htype)]
          exact .bind (safe_two_put_dir hne (hsome _))

omit hne

/-- `create` ends with the inode locked, or with nothing held. -/
theorem safe_create {Q : Option Nat → Loc → Prop} (hn : n ≤ 2 ^ 16) (ht : type ≠ .free) (hcwd : cwd ∈ R)
    (hnone : Q none (Loc.of R)) (hsome : ∀ i c, Q (some i) (Loc.one R i c 0)) (path : Name) (major minor : BitVec 16) :
    Safe strict n p (create n cwd path type major minor) (Loc.of R) Q := by
  refine .bind (safe_namex rfl (fun _ => rfl) (fun _ h => absurd rfl h) hcwd hnone (fun d name => ?_) path true)
  refine .bind (safe_ilock_take fun cd => ?_)
  refine .bind (safe_dirlookup Loc.one_known rfl (fun hdir _ => ?_) fun _ e off _ _ _ _ => ?_)
  · -- there is no such name
    refine .bind (safe_ialloc ht rfl ?_ fun i hi hk hp => ?_)
    · exact .bind (safe_one_put hnone)
    · have hne : d ≠ i := fun e => hi (e ▸ mem_cons_self ..)
      refine .bind (safe_ilock_fresh (mem_cons_self ..) rfl ?_)
      have e : (((((Loc.one R d cd 0).lock i (freshInode type)).setPhase (.fresh i)).take i).setPhase .none) =
          Loc.two R d cd 0 i (freshInode type) 0 := by
        rw [← Loc.one_take_lock]
        rfl
      rw [e]
      refine .bind (safe_initInode Loc.two_known rfl rfl (Loc.two_pend hne) ?_)
      rw [Loc.two_lock_owe]
      exact safe_createNew hne hn hdir rfl rfl rfl hnone (hsome i)
  · -- there is: give up the directory
    have hk : ((Loc.one R d cd 0).take e.inum.toNat).known d = some cd := Loc.one_known (R := R) (k := 0)
    have h0 : ((Loc.one R d cd 0).take e.inum.toNat).pend d = 0 := Loc.one_pend (R := R) (c := cd)
    refine .bind (safe_iunlockput hk rfl (mem_cons_of_mem Loc.one_mem) (fun _ => h0) (.inl h0) ?_)
    have e' : (((Loc.one R d cd 0).take e.inum.toNat).unlock d).drop d = (Loc.of R).take e.inum.toNat := by
      show ((((Loc.one R d cd 0).unlock d).take e.inum.toNat).drop d) = _
      rw [Loc.one_unlock, Loc.take_take_drop]
    rw [e']
    refine .bind (safe_ilock_take fun c => ?_)
    refine .bind (safe_read Loc.one_known (.ite (fun _ => hsome _ c) fun _ => ?_))
    exact .bind (safe_one_put hnone)

end

/-! ## System calls -/

/-- The references of a process between calls. -/
def Proc.refs (a : Proc) : Multiset Nat := a.cwd ::ₘ (a.files : Multiset Nat)

def idle (a : Idle) (l : Loc) : Prop := l = Loc.of ((a.proc.map Proc.refs).getD 0)

theorem idle_some {a : Proc} {r : Int} : idle ⟨some a, r⟩ (Loc.of a.refs) := rfl

theorem safe_openInode {R : Multiset Nat} {Q : Option Nat → Loc → Prop} (hn : n ≤ 2 ^ 16) (hcwd : cwd ∈ R)
    (hnone : Q none (Loc.of R)) (hsome : ∀ i c, Q (some i) (Loc.one R i c 0)) (path : Name) (omode : BitVec 32) :
    Safe strict n p (openInode n cwd path omode) (Loc.of R) Q := by
  refine .ite (fun _ => safe_create hn (by nofun) hcwd hnone hsome path 0 0) fun _ => ?_
  refine .bind (safe_namei rfl (fun _ => rfl) (fun _ h => absurd rfl h) hcwd ?_ (fun i => ?_) path)
  · exact hnone
  refine .bind (safe_ilock_take fun c => ?_)
  refine .bind (safe_read Loc.one_known (.ite (fun _ => ?_) fun _ => hsome i c))
  exact .bind (safe_one_put hnone)

variable {a : Proc}

theorem Proc.cwd_mem (a : Proc) : a.cwd ∈ a.refs := mem_cons_self ..

theorem safe_sysOpen (hn : n ≤ 2 ^ 16) (path : Name) (omode : BitVec 32) :
    Safe strict n p (sysOpen n a path omode) (Loc.of a.refs) idle := by
  refine .bind (safe_openInode hn a.cwd_mem idle_some (fun i c => ?_) path omode)
  refine .bind (safe_read Loc.one_known (.ite (fun _ => ?_) fun _ => ?_))
  · exact .bind (safe_one_put idle_some)
  · refine .bind (safe_fdalloc fun b => .ite (fun _ => ?_) fun _ => ?_)
    · exact .bind (safe_one_put idle_some)
    · refine .bind (safe_iunlock Loc.one_known rfl (fun _ => Loc.one_pend) ?_)
      rw [Loc.one_unlock]
      have e : (Loc.of a.refs).take i = Loc.of ({ a with files := a.files ++ [i] } : Proc).refs := by
        have hfiles : ((a.files ++ [i] : List Nat) : Multiset Nat) = i ::ₘ (a.files : Multiset Nat) :=
          coe_eq_coe.2 (List.perm_append_singleton i a.files)
        show Loc.of (i ::ₘ a.refs) = _
        rw [Proc.refs, Proc.refs, hfiles, cons_swap]
      rw [e]
      exact idle_some

theorem safe_sysClose (fd : Nat) : Safe strict n p (sysClose a fd) (Loc.of a.refs) idle := by
  unfold sysClose
  split
  · exact idle_some
  · rename_i i hi
    obtain ⟨hlt, rfl⟩ := List.getElem?_eq_some_iff.1 hi
    have hmem : a.files[fd] ∈ a.refs := mem_cons_of_mem (List.getElem_mem hlt)
    refine .bind (safe_iput ⟨hmem, .inl ⟨rfl, rfl⟩⟩ rfl ?_)
    have e : (Loc.of a.refs).drop a.files[fd] =
        Loc.of ({ a with files := a.files.eraseIdx fd } : Proc).refs := by
      have hperm : (a.files : Multiset Nat) = a.files[fd] ::ₘ (a.files.eraseIdx fd : Multiset Nat) :=
        coe_eq_coe.2 (List.getElem_cons_eraseIdx_perm hlt).symm
      show Loc.of (a.refs.erase a.files[fd]) = _
      rw [Proc.refs, Proc.refs, hperm, cons_swap, erase_cons_head]
    rw [e]
    exact idle_some

/-- The link that was counted in advance is taken back. -/
theorem safe_linkBad : Safe strict n p (linkBad a i) (Loc.owing a.refs i 1) idle := by
  refine .bind (safe_ilock Loc.owing_mem rfl fun c _ _ _ => ?_)
  rw [Loc.owing_lock]
  refine .bind (safe_decNlink Loc.one_known rfl Loc.one_pend.ge fun m => ?_)
  rw [Loc.one_lock_owe]
  exact .bind (safe_one_put idle_some)

theorem safe_sysLink (hn : n ≤ 2 ^ 16) (old new : Name) : Safe strict n p (sysLink a old new) (Loc.of a.refs) idle := by
  refine .bind (safe_namei rfl (fun _ => rfl) (fun _ h => absurd rfl h) a.cwd_mem idle_some (fun i => ?_) old)
  refine .bind (safe_ilock_take fun c => ?_)
  refine .bind (safe_read Loc.one_known (.ite (fun _ => ?_) fun hdir => ?_))
  · exact .bind (safe_one_put idle_some)
  refine .bind (safe_incNlink Loc.one_known rfl (fun _ => ?_) fun m => ?_)
  · rw [Loc.one_pend]
    omega
  rw [Loc.one_lock_owe, zero_add]
  refine .bind (safe_iunlock Loc.one_known rfl (fun hd => absurd hd hdir) ?_)
  rw [Loc.one_unlock_owing]
  -- the process holds `i` and owes it a link while it looks for the directory
  refine .bind (safe_namex rfl (fun _ => rfl) (fun j hj => ?_)
    (mem_cons_of_mem a.cwd_mem) safe_linkBad (fun d name => ?_) new true)
  · by_contra hne
    have hji : j ≠ i := fun e => hne (e ▸ Loc.owing_mem)
    exact hj (Loc.owing_pend_of_ne hji)
  refine .bind (safe_ilock (Loc.mem_take ..) rfl fun cd _ _ hd => ?_)
  have hk : (((Loc.owing a.refs i 1).take d).lock d cd).known d = some cd := update_self ..
  have hmi : i ∈ (((Loc.owing a.refs i 1).take d).lock d cd).refs :=
    mem_cons_of_mem (Loc.owing_mem (R := a.refs) (k := 1))
  have hbad : cd.type = .dir → Safe strict n p (do iunlockput d; linkBad a i)
      (((Loc.owing a.refs i 1).take d).lock d cd) idle := fun hcd => by
    refine .bind (safe_iunlockput hk rfl (Loc.mem_take_lock ..) hd (.inl (hd hcd)) ?_)
    rw [Loc.lock_unlock (l := (Loc.owing a.refs i 1).take d) rfl, Loc.take_drop]
    exact safe_linkBad
  refine .bind (safe_dirlink hk rfl hbad fun hcd hl => ?_)
  have hne : i ≠ d := by
    rintro rfl
    have : (Loc.owing a.refs i 1).pend i = 0 := hd hcd
    rw [Loc.owing_pend] at this
    cases this
  refine safe_write_name (b := false) hn hk rfl hcd (hd hcd) hl
    ⟨hmi, Loc.owing_pend, .inl ⟨?_, rfl⟩⟩ (hbad hcd) fun ents => ?_
  · exact update_of_ne hne ..
  · rw [Loc.owing_oweName]
    have h0 : ((Loc.of a.refs).take i).pend d = 0 := rfl
    refine .bind (safe_iunlockput (update_self ..) rfl (Loc.mem_take_lock ..) (fun _ => h0) (.inl h0) ?_)
    rw [Loc.lock_unlock (l := ((Loc.of a.refs).take i).take d) rfl, Loc.take_drop]
    refine .bind (safe_iput ⟨Loc.mem_take .., .inl ⟨rfl, rfl⟩⟩ rfl ?_)
    rw [Loc.take_drop]
    exact idle_some

theorem safe_sysMake {type : InodeType} (hn : n ≤ 2 ^ 16) (ht : type ≠ .free) (path : Name) (major minor : BitVec 16) :
    Safe strict n p (sysMake n a path type major minor) (Loc.of a.refs) idle := by
  refine .bind (safe_create hn ht a.cwd_mem idle_some (fun i c => ?_) path major minor)
  exact .bind (safe_one_put idle_some)

theorem safe_unlinkBad : Safe strict n p (unlinkBad a d) (Loc.one a.refs d c 0) idle :=
  .bind (safe_one_put idle_some)

/-- An inode that is locked and owed nothing has a link for its name. -/
theorem Inv.nlink_pos {g : Pid → Loc} {s : Fs} (h : Inv strict n g s) {e : Dirent} (he : e ∈ (s.inode d).ents)
    (h0 : e.inum ≠ 0) (hne : e.inum.toNat ≠ d) (hk : (g p).known e.inum.toNat ≠ none)
    (hp : (g p).pend e.inum.toNat = 0) : 1 ≤ (s.inode e.inum.toNat).nlink.toInt := by
  obtain ⟨ht, hn⟩ := (h.disk.named_of_ent he h0).resolve_left hne
  have hle := h.pend_le hk ht
  have hpos : 0 < linkCount n s e.inum.toNat := by
    unfold linkCount
    split
    · omega
    · have := hn ‹_›
      omega
  omega

/-- From the entry that was found on. -/
theorem safe_unlinkEnt {cd : Inode} {e : Dirent} {off : Nat} (hne : d ≠ i) (hcd : cd.type = .dir)
    (he : cd.ents[off]? = some e) (h0 : e.inum ≠ 0) (hi : e.inum.toNat = i) (hm : namecmp name e.name = true)
    (hdot : namecmp name dot = false) (hdotdot : namecmp name dotdot = false) :
    Safe strict n p (unlinkEnt a d i off) (Loc.two a.refs d cd 0 i c 0) idle := by
  refine .bind (.of_op fun g s hg h => safe_read Loc.two_known (.ite (fun hlt => ?_) fun _ => ?_))
  · -- the entry names the inode, which is locked and is owed nothing
    have hl := h.loc p
    have hkd : s.inode d = cd := (hl.known d cd (by rw [hg, Loc.two_known_dir hne])).1
    have hki : (g p).known i = some c := by rw [hg, Loc.two_known]
    have hpos := h.nlink_pos (p := p) (d := d) (by rw [hkd]; exact List.mem_of_getElem? he) h0 (hi ▸ hne.symm)
      (by rw [hi, hki]; nofun) (by rw [hi, hg, Loc.two_pend hne])
    rw [hi, (hl.known i c hki).1] at hpos
    omega
  refine .ite (fun _ => ?_) fun hempty => ?_
  · exact .bind (safe_two_put hne safe_unlinkBad)
  refine .bind (safe_clear (Loc.two_known_dir hne) rfl hcd rfl he h0 hi hm hdot hdotdot
    Loc.two_known (Loc.two_pend hne) (fun ht => by simpa [ht] using hempty) fun _ ents => ?_)
  rw [Loc.two_oweName hne, zero_add, zero_add]
  -- drop the link to the directory, then its inode, then the inode of the name
  have hlast : ∀ cd', Safe strict n p (do
      iunlockput d
      decNlink i
      iunlockput i
      pure (⟨a, 0⟩ : Idle)) (Loc.two a.refs d cd' 0 i c 1) idle := by
    intro cd'
    refine .bind (safe_two_put_dir hne ?_)
    refine .bind (safe_decNlink Loc.one_known rfl Loc.one_pend.ge fun m => ?_)
    rw [Loc.one_lock_owe]
    exact .bind (safe_one_put idle_some)
  refine .bind (.ite (fun htype => ?_) fun htype => ?_)
  · rw [if_pos (decide_eq_true htype)]
    refine safe_decNlink (Loc.two_known_dir hne) rfl (Loc.two_pend_dir hne).ge fun m => ?_
    rw [Loc.two_lock_owe_dir hne]
    exact hlast _
  · rw [if_neg (by simpa using htype)]
    exact hlast _

theorem safe_sysUnlink (path : Name) : Safe strict n p (sysUnlink a path) (Loc.of a.refs) idle := by
  refine .bind (safe_namex rfl (fun _ => rfl) (fun _ h => absurd rfl h) a.cwd_mem ?_ (fun d name => ?_) path true)
  · exact idle_some
  refine .bind (safe_ilock_take fun cd => ?_)
  refine .ite (fun _ => safe_unlinkBad) fun hname => ?_
  rw [not_or, Bool.not_eq_true, Bool.not_eq_true] at hname
  refine .bind (safe_dirlookup Loc.one_known rfl (fun _ _ => safe_unlinkBad) fun hcd e off he h0 hm _ => ?_)
  refine .bind (safe_ilock (Loc.mem_take ..) rfl fun c hk _ _ => ?_)
  have hne : d ≠ e.inum.toNat := by
    intro e'
    have hd : (Loc.one a.refs d cd 0).known e.inum.toNat = some cd := e' ▸ Loc.one_known
    rw [Loc.take_known, hd] at hk
    cases hk
  rw [Loc.one_take_lock]
  exact safe_unlinkEnt hne hcd he h0 rfl hm hname.1 hname.2

theorem safe_sysChdir (path : Name) : Safe strict n p (sysChdir a path) (Loc.of a.refs) idle := by
  refine .bind (safe_namei rfl (fun _ => rfl) (fun _ h => absurd rfl h) a.cwd_mem ?_ (fun i => ?_) path)
  · exact idle_some
  refine .bind (safe_ilock_take fun c => ?_)
  refine .bind (safe_read Loc.one_known (.ite (fun _ => ?_) fun _ => ?_))
  · exact .bind (safe_one_put idle_some)
  refine .bind (safe_iunlock Loc.one_known rfl (fun _ => Loc.one_pend) ?_)
  rw [Loc.one_unlock]
  refine .bind (safe_iput ⟨mem_cons_of_mem a.cwd_mem, .inl ⟨rfl, rfl⟩⟩ rfl ?_)
  have e : ((Loc.of a.refs).take i).drop a.cwd = Loc.of ({ a with cwd := i } : Proc).refs := by
    show Loc.of ((i ::ₘ a.refs).erase a.cwd) = _
    rw [Proc.refs, cons_swap, erase_cons_head]
    rfl
  rw [e]
  exact idle_some

/-- `exit` closes the files one by one. -/
theorem safe_iputAll (R : Multiset Nat) (hq : Q () (Loc.of R)) (files : List Nat) :
    Safe strict n p (iputAll files) (Loc.of (R + (files : Multiset Nat))) Q := by
  induction files with
  | nil =>
    rw [coe_nil, add_zero]
    exact hq
  | cons i files ih =>
    have e : R + ((i :: files : List Nat) : Multiset Nat) = i ::ₘ (R + (files : Multiset Nat)) := by
      rw [← cons_coe, add_cons]
    rw [e]
    refine .bind (safe_iput ⟨mem_cons_self .., .inl ⟨rfl, rfl⟩⟩ rfl ?_)
    show Safe strict n p _ (Loc.of ((i ::ₘ (R + (files : Multiset Nat))).erase i)) Q
    rw [erase_cons_head]
    exact ih

theorem safe_exit : Safe strict n p (exit a) (Loc.of a.refs) idle := by
  rw [Proc.refs, ← singleton_add]
  refine .bind (safe_iputAll {a.cwd} ?_ a.files)
  refine .bind (safe_iput ⟨mem_singleton_self _, .inl ⟨rfl, rfl⟩⟩ rfl ?_)
  show idle ⟨none, 0⟩ (Loc.of (({a.cwd} : Multiset Nat).erase a.cwd))
  rw [erase_singleton]
  rfl

/-- Every call keeps the invariant and ends with the references that the process keeps. -/
theorem safe_code (hn : n ≤ 2 ^ 16) (call : Call) (a : Idle) (l : Loc) (h : idle a l) :
    Safe strict n p (code n call a) l idle := by
  obtain ⟨proc, r⟩ := a
  cases h
  cases proc with
  | none =>
    cases call <;> exact rfl
  | some a =>
    cases call with
    | «open» path omode => exact safe_sysOpen hn path omode
    | close fd => exact safe_sysClose fd
    | mkdir path => exact safe_sysMake hn (by nofun) path 0 0
    | mknod path major minor => exact safe_sysMake hn (by nofun) path major minor
    | link old new => exact safe_sysLink hn old new
    | unlink path => exact safe_sysUnlink path
    | chdir path => exact safe_sysChdir path
    | exit => exact safe_exit

end Xv6.Names
