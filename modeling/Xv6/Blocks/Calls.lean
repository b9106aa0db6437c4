import Xv6.Blocks.Bytes

/-!
# Block ownership across calls

`Keeps m` says that `m` takes a file system whose blocks are owned as they should be
to another one, and that the panic of `bfree` is not reached on the way. All calls are
put together from pieces that keep ownership; `blocks_owned` is what follows for every
sequence of calls on a well-formed image.
-/

namespace Xv6.Blocks

open Function

variable {fs fs' : Fs} {inum : Nat} {ip : Dinode} {α β : Type}

def Keeps (m : M α) : Prop := ∀ fs, Own none fs → WP m NotFree (fun _ fs' => Own none fs') fs

theorem Keeps.pure {a : α} : Keeps (pure a) := fun _ h => WP.pure h

theorem Keeps.throw {p : Panic} (hp : p ≠ .freeingFreeBlock) : Keeps (throw p : M α) := fun _ _ =>
  .throw hp

theorem Keeps.bind {m : M β} {f : β → M α} (h : Keeps m) (hf : ∀ b, Keeps (f b)) : Keeps (m >>= f) :=
  fun fs ho => .bind ((h fs ho).mono fun b fs' ho' => hf b fs' ho')

theorem Keeps.ite {c : Prop} [Decidable c] {m m' : M α} (h : Keeps m) (h' : Keeps m') :
    Keeps (if c then m else m') := fun fs ho => .ite (fun _ => h fs ho) fun _ => h' fs ho

theorem Keeps.inode : Keeps (inode inum) := fun _ h => wp_inode fun _ _ => h

/-- Code that starts with an inode that must be in memory. -/
theorem Keeps.of_has {f : Dinode → M α} (h : ∀ fs ip, Own none fs → fs.Has inum ip →
    WP (Blocks.inode inum >>= f) NotFree (fun _ fs' => Own none fs') fs) : Keeps (Blocks.inode inum >>= f) := by
  intro fs ho
  cases hi : (fs.itable inum).inode with
  | none => exact .bind (wp_inode fun ip hi' => by rw [hi] at hi'; cases hi')
  | some ip => exact h fs ip ho hi

/-- Files have no holes, so a read allocates nothing. -/
theorem Keeps.readi {off n : BitVec 32} {avail : Nat} : Keeps (readi inum off n avail) :=
  .of_has fun _ _ h hi => (wp_readi_content (h.cleanOf hi) hi ..).mono fun _ _ e => e.1 ▸ h

/-- A write, however far it gets, leaves the blocks owned. -/
theorem Keeps.writei {src : Src} {off n : BitVec 32} : Keeps (writei inum src off n) := by
  refine .of_has fun fs ip h hi => ?_
  refine ((wp_writei h hi src off n).weaken fun _ hp => hp.elim).mono fun r fs' hr => ?_
  split at hr
  · exact hr.2 ▸ h
  · obtain ⟨e, tot, fs₁, -, hw⟩ := hr
    exact hw.own

theorem Keeps.itrunc : Keeps (itrunc inum) := by
  intro fs h
  cases hi : (fs.itable inum).inode with
  | none =>
    -- the first round of the loop panics
    unfold Blocks.itrunc
    refine WP.bind ((WP.loop (I := fun k s => k = 0 ∧ s = fs) ⟨rfl, rfl⟩ fun k s _ hs => ?_).mono fun _ _ hs =>
      absurd hs.1 (by decide))
    rw [hs.2]
    exact .bind (wp_inode fun ip hi' => by rw [hi] at hi'; cases hi')
  | some ip => exact (wp_itrunc h hi).mono fun _ _ h' => h'.1

/-- A change of an inode that is not of its type, size or addresses. -/
theorem wp_update (ip' : Dinode) (h : Own none fs) (hi : fs.Has inum ip) (ht : ip'.type = ip.type) (hs : ip'.size = ip.size)
    (ha : ip'.addrs = ip.addrs) : WP (iupdate inum) NotFree (fun _ fs' => Own none fs') (fs.setInode inum ip') := by
  have hc := h.cleanOf hi
  exact wp_iupdate_setInode (h.dirty inum) hi
    ⟨hc.ref, by rw [ht]; exact hc.type, by rw [hs]; exact hc.size, by rw [hs]; exact hc.backed⟩ ht ha

theorem Keeps.update {f : Dinode → Dinode} {m : M α} (ht : ∀ ip, (f ip).type = ip.type)
    (hs : ∀ ip, (f ip).size = ip.size) (ha : ∀ ip, (f ip).addrs = ip.addrs) (hm : Keeps m) :
    Keeps (do
      let ip ← Blocks.inode inum
      setInode inum (f ip)
      iupdate inum
      m) := fun _ h => .bind (wp_inode fun ip hi => .bind (wp_setInode (.bind
    ((wp_update (f ip) h hi (ht ip) (hs ip) (ha ip)).mono fun _ fs' h' => hm fs' h'))))

/-- `bmap` with the `iupdate` that its callers owe it. -/
theorem Keeps.bmap {bn : Nat} : Keeps (do let _ ← bmap inum bn; iupdate inum) := by
  intro fs h
  cases hi : (fs.itable inum).inode with
  | none =>
    refine .bind ?_
    unfold Blocks.bmap
    exact .bind (wp_inode fun ip hi' => by rw [hi] at hi'; cases hi')
  | some ip =>
    have hc := h.cleanOf hi
    refine .bind (((wp_bmap_maps (h.dirty inum) hi hc.type bn).weaken fun p hp => hp.1 ▸ nofun).mono fun _ fs₁ hm => ?_)
    obtain ⟨F, -, hA⟩ := hm.allocs
    have hg := hA.grown
    obtain ⟨addrs, hi₁⟩ := hg.inode ip hi
    exact wp_iupdate_own hm.own hi₁ ⟨by rw [hg.ref]; exact hc.ref, hc.type, hc.size, hc.backed.grown hg⟩

/-! ## References -/

/-- Another entry for an inode of the table, under which the inode looks as before. -/
theorem Own.of_entry (h : Own (some inum) fs) (hf : Filled fs inum) {e : Entry}
    (hcur : e.inode.getD (fs.dinode inum) = cur fs inum)
    (hv : ∀ ip, e.inode = some ip → 0 < e.ref ∧ ip.type ≠ 0 ∧ fs.dinode inum = ip) :
    Own none { fs with itable := update fs.itable inum e } := by
  have hne : ∀ {i}, i ≠ inum → some i ≠ some inum := fun hi e' => hi (Option.some.inj e')
  have hsame : ∀ i, cur { fs with itable := update fs.itable inum e } i = cur fs i := by
    intro i
    by_cases hi : i = inum
    · rw [hi, ← hcur]
      simp [cur]
    · simp [cur, hi]
  have haddr : addrOf { fs with itable := update fs.itable inum e } = addrOf fs := by
    funext x
    rw [addrOf, addrOf, hsame]
  refine ⟨?_, h.metadata, h.size, fun i ip _ hi => ?_, fun i _ => ?_⟩
  · rw [haddr]
    exact h.owned
  · by_cases ei : i = inum
    · subst ei
      simp only [update_self] at hi ⊢
      exact hv ip hi
    · simp only [update_of_ne ei] at hi ⊢
      exact h.valid i ip (hne ei) hi
  · unfold Filled
    rw [hsame, haddr]
    by_cases ei : i = inum
    · exact ei ▸ hf
    · exact h.filled i (hne ei)

/-- A reference changes no inode. -/
theorem Keeps.iget : Keeps (iget inum) := by
  refine fun fs h => .modify ?_
  have hnone : (fs.itable inum).ref = 0 → (fs.itable inum).inode = none := fun h0 => by
    by_contra hne
    obtain ⟨ip, hi⟩ := Option.ne_none_iff_exists'.1 hne
    have := (h.valid inum ip nofun hi).1
    omega
  have hget : (fs.itable inum).get.inode = (fs.itable inum).inode := by
    unfold Entry.get
    split
    · rfl
    · exact (hnone (by omega)).symm
  have hpos : 0 < (fs.itable inum).get.ref := by
    unfold Entry.get
    split <;> simp
  refine (h.dirty inum).of_entry (h.filled inum nofun) (by rw [hget]; rfl) fun ip hi => ?_
  rw [hget] at hi
  exact ⟨hpos, (h.valid inum ip nofun hi).2⟩

/-- `ilock` loads the inode as it is on disk. -/
theorem Keeps.ilock : Keeps (ilock inum) := by
  intro fs h
  unfold Blocks.ilock
  refine .bind (.get (.ite (fun _ => .throw nofun) fun href => ?_))
  split
  · exact .pure h
  · rename_i hnone
    refine .bind (wp_setInode (.ite (fun _ => .throw nofun) fun ht => .pure ?_))
    refine (h.dirty inum).of_entry (h.filled inum nofun) (by rw [cur, hnone]; rfl) fun ip hi => ?_
    cases hi
    exact ⟨show 0 < (fs.itable inum).ref by omega, ht, rfl⟩

theorem Keeps.iunlock : Keeps (iunlock inum) := fun _ h =>
  .bind (.get (.ite (fun _ => .throw nofun) fun _ => .pure h))

/-- What `iput` needs before it drops the reference: the inode is the same on disk, and if it
has been freed the reference is the last. -/
structure Droppable (inum : Nat) (fs : Fs) : Prop where
  own : Own (some inum) fs
  filled : Filled fs inum
  valid : ∀ ip, (fs.itable inum).inode = some ip →
    0 < (fs.itable inum).ref ∧ fs.dinode inum = ip ∧ (ip.type = 0 → (fs.itable inum).ref = 1)

theorem Own.droppable (h : Own none fs) (inum : Nat) : Droppable inum fs :=
  ⟨h.dirty inum, h.filled inum nofun, fun ip hi =>
    have hv := h.valid inum ip nofun hi
    ⟨hv.1, hv.2.2, fun h0 => absurd h0 hv.2.1⟩⟩

/-- An inode without blocks, of size 0, becomes a free one. -/
theorem Own.freed (h : Own (some inum) fs) (hi : fs.Has inum ip) (hr : (fs.itable inum).ref = 1)
    (hz : ∀ j < NDIRECT + 1, ip.addrs j = 0) :
    Droppable inum ((fs.setInode inum { ip with type := 0 }).flush inum { ip with type := 0 }) := by
  have hzero : ∀ k, k ≤ NDIRECT → ip.addrs k = 0 := fun k hk => hz k (by omega)
  have hset := inode_setInode fs inum { ip with type := 0 }
  have haddr : addrOf ((fs.setInode inum { ip with type := 0 }).flush inum { ip with type := 0 }) =
      addrOf fs := by
    rw [addrOf_flush hset]
    funext x
    by_cases hx : x.inum = inum
    · rw [addrOf_setInode_self _ _ hx, addrOf_of_inode hi hx]
      cases x with
      | direct i k =>
        simp only [inodeAddr, ne_eq, not_true_eq_false, false_and, if_false]
        split
        · rw [hzero k (by omega)]
          rfl
        · rfl
      | indirect i => simp [inodeAddr, hzero]
      | entry i j => simp [inodeAddr, hzero]
    · exact addrOf_setInode_ne _ _ hx
  refine ⟨h.step ⟨rfl, fun i hi' => update_of_ne hi' .., fun i hi' =>
    update_of_ne hi' .., fun x _ => congrFun haddr x⟩ ?_ h.metadata, fun ht => ?_, fun ip' hi' => ?_⟩
  · rw [haddr]
    exact h.owned
  · rw [cur_flush hset, cur_setInode_self] at ht
    exact absurd rfl ht
  · obtain rfl : { ip with type := 0 } = ip' := Option.some.inj (hset.symm.trans hi')
    have href : (((fs.setInode inum { ip with type := 0 }).flush inum { ip with type := 0 }).itable
        inum).ref = 1 := (ref_setInode ..).trans hr
    exact ⟨by rw [href]; exact Nat.one_pos, update_self .., fun _ => href⟩

/-- `iput` frees the inode if this was its last name and reference. -/
theorem wp_ifree (h : Own none fs) : WP (ifree inum) NotFree (fun _ => Droppable inum) fs := by
  unfold ifree
  refine .bind (.get ?_)
  dsimp only
  split
  · rename_i ip hi
    refine .ite (fun hc => .bind ?_) fun _ => .pure (h.droppable inum)
    refine (wp_itrunc h hi).mono fun _ fs₁ ⟨_, hT, _⟩ => ?_
    obtain ⟨addrs, size, hi₁, hz⟩ := hT.inode
    refine .bind (wp_inode_of hi₁ (.bind (wp_setInode ?_)))
    unfold iupdate
    exact .bind (wp_inode_of (inode_setInode ..) (.modify (hT.own.freed hi₁ (hT.ref.trans hc.1) hz)))
  · exact .pure (h.droppable inum)

/-- Then the reference can go. -/
theorem Droppable.put (h : Droppable inum fs) :
    Own none { fs with itable := update fs.itable inum (fs.itable inum).put } := by
  have hcur : ((fs.itable inum).put.inode).getD (fs.dinode inum) = cur fs inum := by
    unfold Entry.put
    split
    · cases hi : (fs.itable inum).inode with
      | none => rw [cur, hi]
      | some ip => rw [cur_of_inode hi]; exact (h.valid ip hi).2.1
    · rfl
  refine h.own.of_entry h.filled hcur fun ip hi => ?_
  unfold Entry.put at hi ⊢
  split at hi
  · cases hi
  · rename_i h1
    obtain ⟨hpos, hd, ht⟩ := h.valid ip hi
    rw [if_neg h1]
    exact ⟨show 0 < (fs.itable inum).ref - 1 by omega, fun h0 => h1 (ht h0), hd⟩

theorem Keeps.iput : Keeps (iput inum) := fun _ h =>
  .bind ((wp_ifree h).mono fun _ _ h' => .modify h'.put)

theorem Keeps.iunlockput : Keeps (iunlockput inum) :=
  Keeps.iunlock.bind fun _ => .iput

/-- The inode that `ialloc` takes has no slots, before and after. -/
theorem addrOf_ialloc (h : Own none fs) (h0 : (fs.dinode inum).type = 0) (dip : Dinode) (hz : ∀ k, dip.addrs k = 0) :
    (fs.itable inum).inode = none ∧ addrOf { fs with dinode := update fs.dinode inum dip } = addrOf fs := by
  have hnone : (fs.itable inum).inode = none := by
    by_contra hne
    obtain ⟨ip, hi⟩ := Option.ne_none_iff_exists'.1 hne
    obtain ⟨-, ht, e⟩ := h.valid inum ip nofun hi
    exact ht (e ▸ h0)
  refine ⟨hnone, funext fun x => ?_⟩
  by_cases hx : x.inum = inum
  · have hold : cur fs x.inum = fs.dinode inum := by rw [cur, hx, hnone]; rfl
    have hnew : cur { fs with dinode := update fs.dinode inum dip } x.inum = dip := by
      simp [cur, hx, hnone]
    rw [addrOf, addrOf, hold, hnew]
    cases x <;> simp [inodeAddr, h0, hz]
  · have hsame : cur { fs with dinode := update fs.dinode inum dip } x.inum = cur fs x.inum := by
      simp [cur, hx]
    rw [addrOf, addrOf, hsame]

variable {off fuel dp : Nat} {type : BitVec 16} {name : Name}

/-- The inode that `ialloc` takes had no blocks. -/
theorem Keeps.ialloc : Keeps (ialloc type) := by
  intro fs h
  unfold Blocks.ialloc
  refine .bind (.get ?_)
  split
  · rename_i inum hf
    have h0 : (fs.dinode inum).type = 0 := by
      have := List.find?_some hf
      simp only [decide_eq_true_eq] at this
      exact this.2
    refine .bind (.modify ((Keeps.iget.bind fun _ => .pure) _ ?_))
    obtain ⟨hnone, haddr⟩ := addrOf_ialloc h h0
      { type, major := 0, minor := 0, nlink := 0, size := 0, addrs := fun _ => 0 } fun _ => rfl
    refine ⟨?_, h.metadata, h.size, fun i ip _ hi => ?_, fun i _ => ?_⟩
    · rw [haddr]
      exact h.owned
    · have e : i ≠ inum := fun e => by rw [e, hnone] at hi; cases hi
      simp only [update_of_ne e]
      exact h.valid i ip nofun hi
    · unfold Filled
      rw [haddr]
      by_cases e : i = inum
      · subst e
        simp [cur, hnone]
      · have hf := h.filled i nofun
        simpa [cur, e, Filled] using hf
  · exact .pure h

/-! ## Directories -/

theorem Keeps.readDirent {p : Panic} (hp : p ≠ .freeingFreeBlock) : Keeps (readDirent inum off p) := by
  refine Keeps.readi.bind fun r => ?_
  cases r with
  | some bs => exact .ite .pure (.throw hp)
  | none => exact .throw hp

/-- The loops over a directory only read. -/
theorem Keeps.lookupLoop : Keeps (lookupLoop inum name fuel off) := by
  induction fuel generalizing off with
  | zero => exact .pure
  | succ fuel ih =>
    refine Keeps.inode.bind fun dp => .ite ?_ .pure
    exact .bind (Keeps.readDirent (by nofun)) fun de => .ite ih (.ite .pure ih)

theorem Keeps.dirlookup : Keeps (dirlookup inum name) := by
  refine Keeps.inode.bind fun dp => .ite (.throw nofun) (Keeps.lookupLoop.bind fun r => ?_)
  cases r with
  | some r => exact Keeps.iget.bind fun _ => .pure
  | none => exact .pure

theorem Keeps.freeLoop : Keeps (freeLoop inum fuel off) := by
  induction fuel generalizing off with
  | zero => exact .pure
  | succ fuel ih =>
    refine Keeps.inode.bind fun dp => .ite ?_ .pure
    exact .bind (Keeps.readDirent (by nofun)) fun de => .ite .pure ih

theorem Keeps.dirlink {target : Nat} : Keeps (dirlink inum name target) := by
  refine Keeps.dirlookup.bind fun r => ?_
  cases r with
  | some r => exact Keeps.iput.bind fun _ => .pure
  | none =>
    refine Keeps.inode.bind fun dp => Keeps.freeLoop.bind fun off => ?_
    exact Keeps.writei.bind fun r => .ite .pure .pure

theorem Keeps.emptyLoop : Keeps (emptyLoop inum fuel off) := by
  induction fuel generalizing off with
  | zero => exact .pure
  | succ fuel ih =>
    refine Keeps.inode.bind fun dp => .ite ?_ .pure
    exact .bind (Keeps.readDirent (by nofun)) fun de => .ite .pure ih

theorem Keeps.isdirempty : Keeps (isdirempty inum) := Keeps.inode.bind fun _ => .emptyLoop

theorem Keeps.addLinks {k : BitVec 16} : Keeps (addLinks inum k) := fun _ h =>
  .bind (wp_inode fun ip hi =>
    .bind (wp_setInode (wp_update { ip with nlink := ip.nlink + k } h hi rfl rfl rfl)))

/-! ## `create` and `unlink` -/

theorem Keeps.makeDots {ip : Nat} : Keeps (makeDots dp ip type) := by
  refine .ite (Keeps.dirlink.bind fun _ => .ite .pure ?_) .pure
  exact Keeps.dirlink.bind fun _ => .ite .pure .pure

/-- The failure path of `create` gives both inodes back. -/
theorem Keeps.createFail {ip : Nat} : Keeps (createFail dp ip) := by
  refine Keeps.update (fun _ => rfl) (fun _ => rfl) (fun _ => rfl) ?_
  exact Keeps.iunlockput.bind fun _ => Keeps.iunlockput.bind fun _ => .pure

theorem Keeps.create {major minor : BitVec 16} : Keeps (create dp name type major minor) := by
  refine Keeps.ilock.bind fun _ => Keeps.dirlookup.bind fun r => ?_
  cases r with
  | some r =>
    refine Keeps.iunlockput.bind fun _ => Keeps.ilock.bind fun _ => Keeps.inode.bind fun _ => ?_
    exact .ite .pure (Keeps.iunlockput.bind fun _ => .pure)
  | none =>
    refine Keeps.ialloc.bind fun r => ?_
    cases r with
    | none => exact Keeps.iunlockput.bind fun _ => .pure
    | some ip =>
      refine Keeps.ilock.bind fun _ => Keeps.update (fun _ => rfl) (fun _ => rfl) (fun _ => rfl) ?_
      refine Keeps.makeDots.bind fun made => .ite .createFail ?_
      refine Keeps.dirlink.bind fun _ => .ite .createFail ?_
      exact .bind (.ite .addLinks .pure) fun _ =>
        Keeps.iunlockput.bind fun _ => .pure

theorem Keeps.unlink : Keeps (unlink dp name) := by
  refine Keeps.ilock.bind fun _ => .ite (Keeps.iunlockput.bind fun _ => .pure) ?_
  refine Keeps.dirlookup.bind fun r => ?_
  cases r with
  | none => exact Keeps.iunlockput.bind fun _ => .pure
  | some r =>
    refine Keeps.ilock.bind fun _ => Keeps.inode.bind fun i => .ite (.throw nofun) ?_
    refine .bind (.ite (Keeps.isdirempty.bind fun _ => .pure) .pure) fun full => ?_
    refine .ite (Keeps.iunlockput.bind fun _ => Keeps.iunlockput.bind fun _ => .pure) ?_
    refine Keeps.writei.bind fun _ => .ite (.throw nofun) ?_
    refine .bind (.ite .addLinks .pure) fun _ => Keeps.iunlockput.bind fun _ => ?_
    exact Keeps.addLinks.bind fun _ => Keeps.iunlockput.bind fun _ => .pure

theorem Keeps.runCall (c : Call) : Keeps (runCall c) := by
  cases c with
  | iget => exact .iget
  | ilock => exact .ilock
  | iput => exact .iput
  | readi => exact Keeps.readi.bind fun _ => .pure
  | writei => exact Keeps.writei.bind fun _ => .pure
  | bmap => exact .bmap
  | itrunc => exact .itrunc
  | create => exact Keeps.create.bind fun _ => .pure
  | unlink => exact Keeps.unlink.bind fun _ => .pure

theorem Keeps.forM {f : α → M PUnit} (h : ∀ a, Keeps (f a)) (l : List α) : Keeps (forM l f) := by
  induction l with
  | nil => exact .pure
  | cons a l ih => exact (h a).bind fun _ => ih

theorem Keeps.runCalls (cs : List Call) : Keeps (runCalls cs) := .forM .runCall cs

/-! ## Sequences of calls -/

/-- The block number stored on disk in a slot of an allocated inode, 0 if none. -/
def diskAddr (fs : Fs) (x : Slot) : Nat := inodeAddr (fs.dinode x.inum) fs.data x

/-- A file system image before the first call: its slots own the data blocks, the free map has
the metadata blocks marked, and files have no holes. -/
structure WellFormed (fs : Fs) : Prop where
  itable : ∀ i, fs.itable i = ⟨0, none⟩
  owned : Owned (diskAddr fs) fs.used fs.sb.datastart fs.sb.size
  metadata : ∀ b, b < fs.sb.datastart → fs.used b = true
  size : fs.sb.size < 2 ^ 32
  filled : ∀ i, (fs.dinode i).type ≠ 0 → (fs.dinode i).size.toNat ≤ MAXFILE * BSIZE ∧
    ∀ bn, bn * BSIZE < (fs.dinode i).size.toNat → diskAddr fs (slotAt i bn) ≠ 0

/-- Blocks in slots are data blocks, each in one slot and marked; the others are not marked. -/
structure BlocksOwned (fs : Fs) : Prop where
  slot : ∀ x, diskAddr fs x ≠ 0 → fs.sb.datastart ≤ diskAddr fs x ∧ diskAddr fs x < fs.sb.size ∧
    fs.used (diskAddr fs x) = true ∧ ∀ y, diskAddr fs y = diskAddr fs x → y = x
  other : ∀ b, fs.sb.datastart ≤ b → b < fs.sb.size → (∀ x, diskAddr fs x ≠ b) → fs.used b = false

/-- Before the first call no inode is in memory. -/
theorem WellFormed.own (h : WellFormed fs) : Own none fs := by
  have hcur : ∀ i, cur fs i = fs.dinode i := fun i => by rw [cur, h.itable]; rfl
  have haddr : addrOf fs = diskAddr fs := funext fun x => by rw [addrOf, hcur]; rfl
  refine ⟨haddr ▸ h.owned, h.metadata, h.size, fun i ip _ hi => ?_, fun i _ => ?_⟩
  · rw [h.itable] at hi
    cases hi
  · unfold Filled
    rw [hcur, haddr]
    exact h.filled i

/-- Between calls the inodes in memory are the same on disk. -/
theorem Own.cur_eq (h : Own none fs) (i : Nat) : cur fs i = fs.dinode i := by
  cases hi : (fs.itable i).inode with
  | none => rw [cur, hi]; rfl
  | some ip => rw [cur_of_inode hi, (h.valid i ip (by simp) hi).2.2]

theorem Own.diskAddr (h : Own none fs) : diskAddr fs = addrOf fs := by
  funext x
  rw [Blocks.diskAddr, addrOf, h.cur_eq]

theorem Own.blocksOwned (h : Own none fs) : BlocksOwned fs := by
  refine ⟨fun x hx => ?_, fun b hlo hhi hb => ?_⟩
  · rw [h.diskAddr] at hx ⊢
    obtain ⟨hlo, hhi⟩ := h.owned.range x hx
    exact ⟨hlo, hhi, h.owned.marked x hx, fun y hy => h.owned.inj y x (hy ▸ hx) hy⟩
  · rw [h.diskAddr] at hb
    cases hu : fs.used b with
    | false => rfl
    | true =>
      obtain ⟨x, hx⟩ := h.owned.only b hlo hhi hu
      exact absurd hx (hb x)

/-- After any sequence of calls on a well-formed image the slots own the data blocks, and `balloc`
gives out a data block that is in no slot; no sequence ends in the panic of `bfree`. -/
theorem blocks_owned (h : WellFormed fs) (cs : List Call) :
    (∀ fs', runCalls cs fs = .ok ((), fs') → BlocksOwned fs' ∧
      ∀ a fs'', balloc fs' = .ok (a, fs'') → a ≠ 0 → fs'.sb.datastart ≤ a.toNat ∧
        ∀ x, diskAddr fs' x ≠ a.toNat) ∧
    runCalls cs fs ≠ .error .freeingFreeBlock := by
  have hk := Keeps.runCalls cs fs h.own
  refine ⟨fun fs' hr => ?_, fun hr => hk.error hr rfl⟩
  have hown : Own none fs' := hk.ok hr
  refine ⟨hown.blocksOwned, fun a fs'' hb ha => ?_⟩
  have hwp : WP balloc NotFree (fun a _ => a ≠ 0 → Fresh fs' a.toNat) fs' :=
    wp_balloc hown (fun _ h0 => absurd rfl h0) fun _ _ hf _ => hf
  have hf := hwp.ok hb ha
  refine ⟨hf.lo, fun x => ?_⟩
  rw [hown.diskAddr]
  exact hown.ne_fresh hf x

/-- The image of a file system with a root directory only. -/
def rootImage : Fs where
  sb := ⟨20, 8, 2⟩
  used b := decide (b ≤ 3)
  dinode i :=
    if i = ROOTINO then
      { type := T_DIR, major := 0, minor := 0, nlink := 1, size := 32,
        addrs := fun k => if k = 0 then 3 else 0 }
    else { type := 0, major := 0, minor := 0, nlink := 0, size := 0, addrs := fun _ => 0 }
  -- the entries "." and ".."
  data b := if b = 3 then fun j => if j.val = 0 then 0x002e0001 else if j.val = 4 then 0x2e2e0001 else 0
    else zeroBlock
  itable _ := ⟨0, none⟩

theorem diskAddr_rootImage (x : Slot) : diskAddr rootImage x = if x = .direct ROOTINO 0 then 3 else 0 := by
  by_cases hx : x.inum = ROOTINO
  · cases x with
    | direct i k =>
      obtain rfl : i = ROOTINO := hx
      by_cases hk : k = 0
      · subst hk
        rfl
      · rw [if_neg (by simp [hk])]
        simp [diskAddr, inodeAddr, rootImage, Slot.inum, hk]
    | indirect i | entry i j =>
      obtain rfl : i = ROOTINO := hx
      rfl
  · have hne : x ≠ .direct ROOTINO 0 := fun e => hx (e ▸ rfl)
    rw [if_neg hne]
    cases x <;> simp_all [diskAddr, inodeAddr, rootImage, Slot.inum]

theorem rootImage_wellFormed : WellFormed rootImage := by
  have hstart : rootImage.sb.datastart = 3 := by decide
  have haddr : ∀ x, diskAddr rootImage x ≠ 0 → x = .direct ROOTINO 0 ∧ diskAddr rootImage x = 3 := by
    intro x hx
    rw [diskAddr_rootImage] at hx ⊢
    split at hx
    · rename_i e
      exact ⟨e, if_pos e⟩
    · exact absurd rfl hx
  refine ⟨fun _ => rfl, ⟨by decide, fun x hx => ?_, fun x hx => ?_, fun x y hx hxy => ?_,
    fun b hlo hhi hb => ?_⟩, fun b hb => ?_, by decide, fun i hi => ?_⟩
  · rw [(haddr x hx).2]
    decide
  · rw [(haddr x hx).2]
    decide
  · rw [(haddr x hx).1, (haddr y (hxy ▸ hx)).1]
  · have : b ≤ 3 := of_decide_eq_true hb
    exact ⟨.direct ROOTINO 0, by rw [diskAddr_rootImage, if_pos rfl]; omega⟩
  · exact decide_eq_true (by omega)
  · by_cases e : i = ROOTINO
    · subst e
      refine ⟨by decide, fun bn hbn => ?_⟩
      have hbn : bn * 1024 < 32 := hbn
      obtain rfl : bn = 0 := by omega
      rw [diskAddr_rootImage]
      decide
    · simp [rootImage, e] at hi

/-- A file is created, written in part (the copy fails in its second block) and unlinked. -/
def writeRun : List Call :=
  [.iget ROOTINO, .create ROOTINO [97] T_FILE 0 0, .writei 2 ⟨fun _ => 7, 1030⟩ 0 1500, .iput 2,
    .iget ROOTINO, .create ROOTINO [98] T_DIR 0 0, .iput 3, .iget ROOTINO, .unlink ROOTINO [98]]

theorem blocks_owned_writeRun : ∃ fs', runCalls writeRun rootImage = .ok ((), fs') ∧
    fs'.used 4 = true ∧ fs'.used 5 = true ∧ fs'.used 6 = false ∧ BlocksOwned fs' := by
  obtain ⟨_, fs', hr, h4, h5, h6⟩ : ∃ u fs', runCalls writeRun rootImage = .ok (u, fs') ∧
      fs'.used 4 = true ∧ fs'.used 5 = true ∧ fs'.used 6 = false := exists_of_ok (by decide +kernel)
  exact ⟨fs', hr, h4, h5, h6, ((blocks_owned rootImage_wellFormed writeRun).1 fs' hr).1⟩

end Xv6.Blocks
