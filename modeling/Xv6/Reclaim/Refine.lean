import Xv6.Reclaim.Image
import Xv6.Framework.Simulate

/-!
# Freeing an inode on disk

Inside a transaction of `ireclaim` the blocks that `bread` returns are a file system of `Blocks`, and
`itrunc` and `iupdate` do to it what their counterparts there do (`sim_itrunc`, `sim_iupdate`). So what
`Blocks` knows about them holds of the disk.
-/

namespace Xv6.Reclaim

open Function
open Log
open Blocks

/-- What the code reads: the blocks on disk, and what it has logged since. -/
abbrev seen (m : Mem) : Disk := Log.bread m.log

/-- A transaction that has been started on `s₀` and has logged `tx`. -/
def Started (s₀ : LogState) (tx : Tx) (l : LogState) : Prop :=
  (Log.beginOp s₀).bind (tx.foldlM fun s w => Log.logWrite s w.1 w.2) = some l

/-- The transaction that frees the inode `inum` of the image `t`, in entry `i` of the table. -/
structure Job where
  sb : Superblock
  image : Disk
  log : LogState
  table : Fin NINODE → Inode
  inum : Nat
  entry : Fin NINODE

/-- The blocks that the transaction writes. -/
def Job.Writes (J : Job) (b : Blockno) : Prop := b = J.sb.bmapstart ∨ b = iblock J.sb J.inum

/-- The file system `fs` is what the transaction sees. -/
structure Job.Rel (J : Job) (fs : Fs) (m : Mem) : Prop where
  tx : ∃ tx, (∀ w ∈ tx, J.Writes w.1) ∧ InTx J.log tx m.log ∧ Started J.log tx m.log
  used : fs.used = (fsOf J.sb (seen m)).used
  dinode : fs.dinode = (fsOf J.sb (seen m)).dinode
  data : fs.data = (fsOf J.sb J.image).data
  /-- What is not part of the file system stays. -/
  high : ∀ b, J.sb.size.toNat ≤ b → b < BPB → imageBit J.sb (seen m) b = imageBit J.sb J.image b
  rest : ∀ j, InArea J.sb j → J.sb.ninodes.toNat ≤ j → imageInode J.sb (seen m) j = imageInode J.sb J.image j
  others : ∀ b, ¬J.Writes b → ¬InLog J.sb.logstart b → seen m b = J.image b
  entry : m.itable J.entry = ⟨J.inum, (fs.itable J.inum).ref, (fs.itable J.inum).inode, true⟩
  table : ∀ k, k ≠ J.entry → m.itable k = J.table k
  copy : ∀ ip, (fs.itable J.inum).inode = some ip → Short ip ∧ (ip.addrs NDIRECT ≠ 0 → Home J.sb (ip.addrs NDIRECT))

/-- The job can be done. -/
structure Job.Ok (J : Job) : Prop where
  layout : Layout J.sb
  inum : J.inum < J.sb.ninodes.toNat
  log : J.log.start = J.sb.logstart

variable {J : Job} {fs fs' : Fs} {m : Mem}

variable {b : Blockno} {ip : Dinode}

theorem Job.Ok.notInLog (hJ : J.Ok) (hb : J.Writes b) : ¬InLog J.sb.logstart b := by
  rcases hb with rfl | rfl
  · exact hJ.layout.bmap_notInLog
  · exact hJ.layout.iblock_notInLog (hJ.layout.inArea hJ.inum)

theorem Home.notWrites (hJ : J.Ok) (h : Home J.sb b) : ¬J.Writes b := by
  rintro (rfl | rfl)
  · exact h.ne_bmap rfl
  · exact h.ne_iblock (hJ.layout.inArea hJ.inum) rfl

theorem onLog_run {f : LogState → Option LogState} {e : Panic} {l : LogState} (h : f m.log = some l) :
    onLog f e m = .ok ((), { m with log := l }) := by
  simp only [onLog, bind, StateT.bind, get, getThe, MonadStateOf.get, StateT.get, Except.bind, pure, Except.pure, h]
  rfl

/-- A block that the transaction may write can be logged. -/
theorem Job.Rel.log_write (hJ : J.Ok) (h : J.Rel fs m) (hb : J.Writes b) (data : Block) :
    ∃ l tx, logWrite b data m = .ok ((), { m with log := l }) ∧ (∀ w ∈ tx, J.Writes w.1) ∧ InTx J.log tx l ∧
      Started J.log tx l ∧ Log.bread l = update (seen m) b data := by
  obtain ⟨tx, hw, hin, hst⟩ := h.tx
  have hroom : m.log.lh.length ≤ 2 := by
    have hsub : m.log.lh ⊆ [J.sb.bmapstart, iblock J.sb J.inum] := by
      intro x hx
      obtain ⟨w, hwm, rfl⟩ := List.mem_map.1 ((hin.mem x).1 hx)
      rcases hw w hwm with e | e <;> simp [e]
    exact (List.subperm_of_subset hin.nodup hsub).length_le
  obtain ⟨l, hl⟩ : ∃ l, Log.logWrite m.log b data = some l := by
    rw [Log.logWrite, if_neg (by simp only [LOGBLOCKS, MAXOPBLOCKS]; omega), if_neg (by rw [hin.outstanding]; omega)]
    dsimp only
    split <;> exact ⟨_, rfl⟩
  have hout : ¬InLog J.log.start b := by
    rw [hJ.log]
    exact hJ.notInLog hb
  refine ⟨l, tx ++ [(b, data)], ?_, ?_, hin.logWrite hout hl, ?_, ?_⟩
  · exact onLog_run hl
  · intro w hm
    rcases List.mem_append.1 hm with hm | hm
    · exact hw w hm
    · rw [List.mem_singleton.1 hm]
      exact hb
  · obtain ⟨s₁, h₁, h₂⟩ := Option.bind_eq_some_iff.1 hst
    refine Option.bind_eq_some_iff.2 ⟨s₁, h₁, ?_⟩
    rw [List.foldlM_append, h₂, Option.bind_eq_bind, Option.bind_some, List.foldlM_cons, hl]
    rfl
  · obtain ⟨-, rfl⟩ := Log.logWrite_some hl
    funext x
    change (update m.log.dirty b (some data) x).getD (m.log.disk x) = _
    rw [update_apply, update_apply]
    split <;> rfl

/-- The free map changes and nothing else. -/
theorem sim_bfree (hJ : J.Ok) (h : J.Rel fs m) (b : Blockno) : Sim J.Rel (Blocks.bfree b) (bfree J.sb b) fs m := by
  intro a fs' hrun
  have hL := hJ.layout
  have hsize := hL.size
  obtain ⟨hused, rfl⟩ : fs.used b.toNat = true ∧ fs' = { fs with used := update fs.used b.toNat false } := by
    by_cases hu : fs.used b.toNat
    · refine ⟨hu, ?_⟩
      have e : Blocks.bfree b fs = .ok ((), { fs with used := update fs.used b.toNat false }) := by
        change (if fs.used b.toNat then _ else _ : Blocks.M Unit) fs = _
        rw [if_pos hu]
        rfl
      rw [e] at hrun
      cases hrun
      rfl
    · have e : Blocks.bfree b fs = .error .freeingFreeBlock := by
        change (if fs.used b.toNat then _ else _ : Blocks.M Unit) fs = _
        rw [if_neg hu]
        rfl
      rw [e] at hrun
      cases hrun
  have hbit := hused
  rw [h.used, fsOf, Bool.and_eq_true, decide_eq_true_eq] at hbit
  obtain ⟨hlt, hbit⟩ := hbit
  have hmod : b.toNat % BPB = b.toNat := Nat.mod_eq_of_lt (by omega)
  obtain ⟨l, tx, hl, hw, hin, hst, hseen⟩ := h.log_write hJ (.inl rfl) (clearBit (seen m J.sb.bmapstart) b.toNat)
  have hinode : ∀ j, InArea J.sb j → imageInode J.sb (Log.bread l) j = imageInode J.sb (seen m) j := by
    intro j hj
    rw [imageInode, hseen, update_of_ne (iblock_ne hj), imageInode]
  have hbits : ∀ b', imageBit J.sb (Log.bread l) b' = (imageBit J.sb (seen m) b' && decide (b' ≠ b.toNat)) := by
    intro b'
    rw [imageBit, hseen, update_self, bitAt_clearBit _ (by omega)]
    rfl
  refine ⟨{ m with log := l }, ?_, ⟨tx, hw, hin, hst⟩, ?_, ?_, h.data, ?_, ?_, ?_, h.entry, h.table, h.copy⟩
  · change (if byte (seen m (bblock J.sb b)) (b.toNat % BPB / 8) &&& mask (b.toNat % BPB) = 0 then
      throw Panic.freeingFreeBlock
      else logWrite (bblock J.sb b) (clearBit (seen m (bblock J.sb b)) (b.toNat % BPB)) : M Unit) m = _
    rw [hmod, hL.bblock_eq hlt, if_neg, hl]
    rw [and_mask_eq_zero]
    exact Bool.not_eq_false _ ▸ hbit
  · funext b'
    change update fs.used b.toNat false b' = (decide (b' < J.sb.size.toNat) && imageBit J.sb (Log.bread l) b')
    rw [hbits, update_apply, h.used]
    split
    · rename_i e
      rw [decide_eq_false (not_not.2 e), Bool.and_false, Bool.and_false]
    · rename_i e
      rw [decide_eq_true e, Bool.and_true]
      rfl
  · funext j
    rw [h.dinode]
    change (if j < _ then imageInode J.sb (seen m) j else noInode) = if j < _ then imageInode J.sb (Log.bread l) j else noInode
    split
    · rename_i hj
      rw [hinode j (hL.inArea hj)]
    · rfl
  · intro b' hge hB
    change imageBit J.sb (Log.bread l) b' = _
    rw [hbits, h.high b' hge hB, decide_eq_true (by omega : b' ≠ b.toNat), Bool.and_true]
  · intro j hj hge
    change imageInode J.sb (Log.bread l) j = _
    rw [hinode j hj, h.rest j hj hge]
  · intro b' hb' hlog
    change Log.bread l b' = _
    rw [hseen, update_of_ne fun e => hb' (.inl e)]
    exact h.others b' hb' hlog

/-! ## The copy in memory -/

theorem inode_run (h : Blocks.inode J.inum fs = .ok (ip, fs')) : fs' = fs ∧ (fs.itable J.inum).inode = some ip :=
  (Blocks.wp_inode (Q := fun ip fs' => fs' = fs ∧ (fs.itable J.inum).inode = some ip) fun _ hi => ⟨rfl, hi⟩).ok h

theorem inode_of_copy {e : Fin NINODE} (h : (m.itable e).copy = some ip) : inode e m = .ok (ip, m) := by
  simp only [inode, bind, StateT.bind, get, getThe, MonadStateOf.get, StateT.get, Except.bind, pure, Except.pure, h]
  rfl

theorem sim_inode (h : J.Rel fs m) : Sim J.Rel (Blocks.inode J.inum) (inode J.entry) fs m := by
  intro ip fs' hrun
  obtain ⟨rfl, hi⟩ := inode_run hrun
  exact ⟨m, inode_of_copy (by rw [h.entry, hi]), h⟩

theorem sim_setInode (h : J.Rel fs m) (hs : Short ip) (hind : ip.addrs NDIRECT ≠ 0 → Home J.sb (ip.addrs NDIRECT)) :
    Sim J.Rel (Blocks.setInode J.inum ip) (setInode J.entry ip) fs m := by
  intro a fs' hrun
  cases hrun
  have hself : ((update fs.itable J.inum { fs.itable J.inum with inode := some ip }) J.inum) =
      { fs.itable J.inum with inode := some ip } := update_self ..
  refine ⟨_, rfl, h.tx, h.used, h.dinode, h.data, h.high, h.rest, h.others, ?_, fun k hk => ?_, fun ip' hip' => ?_⟩
  · refine (update_self ..).trans ?_
    rw [h.entry]
    dsimp only
    rw [hself]
  · exact (update_of_ne hk ..).trans (h.table k hk)
  · dsimp only at hip'
    rw [hself] at hip'
    cases hip'
    exact ⟨hs, hind⟩

theorem sim_iupdate (hJ : J.Ok) (h : J.Rel fs m) : Sim J.Rel (Blocks.iupdate J.inum) (iupdate J.sb J.entry) fs m := by
  intro a fs' hrun
  have hL := hJ.layout
  have hA := hL.inArea hJ.inum
  obtain ⟨ip, hi, rfl⟩ : ∃ ip, (fs.itable J.inum).inode = some ip ∧
      fs' = { fs with dinode := update fs.dinode J.inum ip } := by
    have hwp : WP (Blocks.iupdate J.inum) Blocks.NotFree (fun _ fs' => ∃ ip, (fs.itable J.inum).inode = some ip ∧
        fs' = { fs with dinode := update fs.dinode J.inum ip }) fs :=
      .bind (Blocks.wp_inode fun ip hi => .modify ⟨ip, hi, rfl⟩)
    exact hwp.ok hrun
  have hs := (h.copy ip hi).1
  obtain ⟨l, tx, hl, hw, hin, hst, hseen⟩ :=
    h.log_write hJ (.inr rfl) (putDinode (seen m (iblock J.sb J.inum)) (J.inum % IPB) ip)
  have hinode : ∀ j, InArea J.sb j → imageInode J.sb (Log.bread l) j =
      if j = J.inum then ip else imageInode J.sb (seen m) j := by
    intro j hj
    rw [hseen]
    exact imageInode_update hA hj (seen m) hs
  have hbits : ∀ b, imageBit J.sb (Log.bread l) b = imageBit J.sb (seen m) b := by
    intro b
    rw [imageBit, hseen, update_of_ne (iblock_ne hA).symm, imageBit]
  refine ⟨{ m with log := l }, ?_, ⟨tx, hw, hin, hst⟩, ?_, ?_, h.data, ?_, ?_, ?_, h.entry, h.table, h.copy⟩
  · have hn : (m.itable J.entry).inum = J.inum := by rw [h.entry]
    change Except.bind (inode J.entry m) _ = _
    rw [inode_of_copy (by rw [h.entry, hi])]
    change logWrite (iblock J.sb (m.itable J.entry).inum) _ m = _
    rw [hn]
    exact hl
  · funext b
    rw [h.used]
    change (_ && imageBit J.sb (seen m) b) = (_ && imageBit J.sb (Log.bread l) b)
    rw [hbits]
  · funext j
    change update fs.dinode J.inum ip j = if j < J.sb.ninodes.toNat then imageInode J.sb (Log.bread l) j else noInode
    rw [update_apply, h.dinode]
    change (if j = J.inum then ip else if j < J.sb.ninodes.toNat then imageInode J.sb (seen m) j else noInode) = _
    by_cases hj : j < J.sb.ninodes.toNat
    · rw [if_pos hj, if_pos hj, hinode j (hL.inArea hj)]
    · rw [if_neg hj, if_neg hj, if_neg fun e => hj (by rw [e]; exact hJ.inum)]
  · intro b hge hB
    change imageBit J.sb (Log.bread l) b = _
    rw [hbits, h.high b hge hB]
  · intro j hj hge
    change imageInode J.sb (Log.bread l) j = _
    have hne : j ≠ J.inum := fun e => by
      have := hJ.inum
      omega
    rw [hinode j hj, if_neg hne, h.rest j hj hge]
  · intro b hb hlog
    change Log.bread l b = _
    rw [hseen, update_of_ne fun e => hb (.inr e)]
    exact h.others b hb hlog

/-! ## `itrunc` -/

theorem Short.setAddr (h : Short ip) {k : Nat} (hk : k ≤ NDIRECT) (a : BitVec 32) : Short (ip.setAddr k a) :=
  fun j hj => (update_of_ne (by omega) ..).trans (h j hj)

/-- A slot of the inode is freed and cleared. -/
theorem sim_clear (hJ : J.Ok) (h : J.Rel fs m) (b : Blockno) (hs : Short ip)
    (hind : ip.addrs NDIRECT ≠ 0 → Home J.sb (ip.addrs NDIRECT)) :
    Sim J.Rel (do Blocks.bfree b; Blocks.setInode J.inum ip) (do bfree J.sb b; setInode J.entry ip) fs m :=
  (sim_bfree hJ h b).bind fun _ _ _ _ h' => sim_setInode h' hs hind

/-- Both sides read a block. -/
theorem sim_bread {α : Type} {f : Fs → Blocks.M α} {g : Block → M α} (b : Blockno)
    (h : Sim J.Rel (f fs) (g (seen m b)) fs m) : Sim J.Rel (MonadState.get >>= f) (bread b >>= g) fs m := h

theorem sim_truncIndirect (hJ : J.Ok) (h : J.Rel fs m) :
    Sim J.Rel (Blocks.truncIndirect J.inum) (truncIndirect J.sb J.entry) fs m := by
  unfold Blocks.truncIndirect truncIndirect
  refine (sim_inode h).bind fun ip fs₁ m₁ hrun h₁ => ?_
  obtain ⟨rfl, hi⟩ := inode_run hrun
  obtain ⟨hs, hind⟩ := h.copy ip hi
  refine Sim.ite (fun ha => ?_) fun _ => Sim.pure h₁
  have hhome := hind ha
  have hblock : seen m₁ (ip.addrs NDIRECT) = fs₁.data (ip.addrs NDIRECT).toNat := by
    rw [h₁.others _ (hhome.notWrites hJ) (hhome.notInLog hJ.layout), h₁.data]
    change J.image _ = J.image (BitVec.ofNat 32 (ip.addrs NDIRECT).toNat)
    rw [BitVec.ofNat_toNat, BitVec.setWidth_eq]
  refine sim_bread _ ?_
  dsimp only
  rw [hblock]
  refine (Sim.loop _ (fun j _ fs₂ m₂ h₂ => ?_) h₁).bind fun _ fs₃ m₃ _ h₃ => ?_
  · exact Sim.ite (fun _ => sim_bfree hJ h₂ _) fun _ => Sim.pure h₂
  · have h0 : (ip.setAddr NDIRECT 0).addrs NDIRECT = 0 := by rw [Dinode.setAddr_addrs, update_self]
    exact sim_clear hJ h₃ _ (hs.setAddr (Nat.le_refl _) 0) fun hne => absurd h0 hne

theorem sim_itrunc (hJ : J.Ok) (h : J.Rel fs m) : Sim J.Rel (Blocks.itrunc J.inum) (itrunc J.sb J.entry) fs m := by
  unfold Blocks.itrunc itrunc
  refine (Sim.loop _ (fun k hk fs₁ m₁ h₁ => ?_) h).bind fun _ fs₁ m₁ _ h₁ => ?_
  · refine (sim_inode h₁).bind fun ip fs₂ m₂ hrun h₂ => ?_
    obtain ⟨rfl, hi⟩ := inode_run hrun
    obtain ⟨hs, hind⟩ := h₁.copy ip hi
    have hlt : k < NDIRECT := List.mem_range.1 hk
    have hsame : (ip.setAddr k 0).addrs NDIRECT = ip.addrs NDIRECT := update_of_ne (by omega) ..
    exact Sim.ite (fun _ => sim_clear hJ h₂ _ (hs.setAddr (Nat.le_of_lt hlt) 0) (hsame ▸ hind)) fun _ => Sim.pure h₂
  · refine (sim_truncIndirect hJ h₁).bind fun _ fs₂ m₂ _ h₂ => ?_
    refine (sim_inode h₂).bind fun ip fs₃ m₃ hrun h₃ => ?_
    obtain ⟨rfl, hi⟩ := inode_run hrun
    obtain ⟨hs, hind⟩ := h₂.copy ip hi
    have hs' : Short { ip with size := 0 } := hs
    exact (sim_setInode h₃ hs' hind).bind fun _ _ _ _ h₄ => sim_iupdate hJ h₄

/-- The counterpart of `discard`. -/
def discardFs (k : Nat) : Blocks.M Unit := do
  Blocks.itrunc k
  Blocks.setInode k { (← Blocks.inode k) with type := 0 }
  Blocks.iupdate k

theorem sim_discard (hJ : J.Ok) (h : J.Rel fs m) : Sim J.Rel (discardFs J.inum) (discard J.sb J.entry) fs m := by
  refine (sim_itrunc hJ h).bind fun _ fs₁ m₁ _ h₁ => ?_
  refine (sim_inode h₁).bind fun ip fs₂ m₂ hrun h₂ => ?_
  obtain ⟨rfl, hi⟩ := inode_run hrun
  obtain ⟨hs, hind⟩ := h₁.copy ip hi
  have hs' : Short { ip with type := 0 } := hs
  exact (sim_setInode h₂ hs' hind).bind fun _ _ _ _ h₃ => sim_iupdate hJ h₃

end Xv6.Reclaim
