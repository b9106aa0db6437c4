import Xv6.Reclaim.Round

/-!
# Orphans are freed at boot

`fsinit` on a disk whose image is well formed frees the orphans of the image, clears the bits of their
blocks, and leaves everything else outside the log as it was, except that an orphaned root directory
stays (`root_orphan_stays`): the process that boots has it as its working directory. If the machine
stops after any of its writes, any number of times, the next `fsinit` reaches the same image
(`fsinit_frees_orphans`).
-/

namespace Xv6.Reclaim

open List

open Log
open Blocks

/-! ## A block that is not written -/

variable {s s' : LogState} {txs : List Tx} {d' : Disk}

section Avoids

variable {start b : Blockno} {d : Disk} {ws ws' : List (Blockno × Block)}

/-- Disk writes that leave block `b` alone, in a later recovery too. -/
def Avoids (start b : Blockno) (ws : List (Blockno × Block)) : Prop :=
  ∀ w ∈ ws, w.1 ≠ b ∧ (w.1 = start → b ∉ headBlocks w.2)

theorem Avoids.append (h : Avoids start b ws) (h' : Avoids start b ws') : Avoids start b (ws ++ ws') :=
  fun w hw => (mem_append.1 hw).elim (h w) (h' w)

theorem Avoids.take (h : Avoids start b ws) (k : Nat) : Avoids start b (ws.take k) :=
  fun w hw => h w (mem_of_mem_take hw)

theorem Avoids.keeps (h : Avoids start b ws) : applyWrites d ws b = d b := by
  refine applyWrites_of_notMem fun hm => ?_
  obtain ⟨w, hw, e⟩ := mem_map.1 hm
  exact (h w hw).1 e

/-- Recovery of what they lead to leaves the block alone, if that of the disk before does. -/
theorem Avoids.head (h : Avoids start b ws) (hd : b ∉ headBlocks (d start)) : b ∉ headBlocks (applyWrites d ws start) := by
  induction ws generalizing d with
  | nil => exact hd
  | cons w ws ih =>
    rw [applyWrites_cons]
    refine ih (fun w' hw' => h w' (mem_cons_of_mem _ hw')) ?_
    by_cases e : w.1 = start
    · rw [e, Function.update_self]
      exact (h w mem_cons_self).2 e
    · rw [Function.update_of_ne (Ne.symm e)]
      exact hd

theorem avoids_single_clear (hb : ¬InLog start b) (hd : Block) : Avoids start b [(start, Log.setHead hd [])] := by
  intro w hw
  rw [mem_singleton.1 hw]
  refine ⟨fun e => hb (e ▸ Log.start_inLog start), fun _ => ?_⟩
  rw [Log.headBlocks_setHead _ (Nat.zero_le _)]
  exact not_mem_nil

theorem avoids_install {bs : List Blockno} (hbs : ∀ c ∈ bs, ¬InLog start c) (hb : b ∉ bs) (d : Disk) (tail : Nat) :
    Avoids start b (Log.installWrites start d tail bs) := by
  intro w hw
  have hm : w.1 ∈ bs := by
    rw [← Log.map_fst_installWrites start d tail bs]
    exact mem_map_of_mem hw
  exact ⟨fun e => hb (e ▸ hm), fun e => absurd (Log.start_inLog start) (e ▸ hbs _ hm)⟩

theorem recover_avoids (h : Log.HeadOk start d) (hb : ¬InLog start b) (hd : b ∉ headBlocks (d start)) :
    Avoids start b (recoverFromLog start d).trace := by
  rw [Log.recover_trace h]
  exact (avoids_install h.2 hd d 0).append (avoids_single_clear hb _)

theorem commit_avoids (h : Logging s) (hb : ¬InLog s.start b) (hlh : b ∉ s.lh) : Avoids s.start b (Log.commitWrites s) := by
  have hhead := h.headBlocks_commit
  refine .append (.append (fun w hw => ?_) fun w hw => ?_) (.append ?_ (avoids_single_clear hb _))
  · have hroom := h.room
    obtain ⟨i, -, hi, e⟩ := Log.mem_logWrites hw
    refine ⟨fun e' => hb (e' ▸ e ▸ Log.logBlock_inLog (by omega)), fun e' => ?_⟩
    exact absurd (e.symm.trans e') (Log.logBlock_ne_start (by omega))
  · rw [mem_singleton.1 hw]
    refine ⟨fun e => hb (e ▸ Log.start_inLog _), fun _ => ?_⟩
    rw [Log.commitHead, Log.headBlocks_setHead _ h.room]
    exact hlh
  · rw [hhead]
    exact avoids_install h.home hlh _ _

theorem runTx_avoids {tx : Tx} (hi : Idle s) (hout : ∀ w ∈ tx, ¬InLog s.start w.1) (h : runTx s tx = some s')
    (hb : ¬InLog s.start b) (htx : ∀ w ∈ tx, w.1 ≠ b) : ∃ ws, s'.trace = s.trace ++ ws ∧ Avoids s.start b ws := by
  simp only [runTx, Option.bind_eq_bind, Option.bind_eq_some_iff] at h
  obtain ⟨s₁, h₁, s₂, h₂, h₃⟩ := h
  have hg : InTx s tx s₂ := (hi.beginOp h₁).logWrites hout h₂
  simp only [Log.endOp, hg.committing, hg.outstanding, Bool.false_eq_true, if_false, Nat.sub_self, if_true,
    Option.some.injEq] at h₃
  subst h₃
  by_cases hn : s₂.lh = []
  · refine ⟨[], ?_, by simp [Avoids]⟩
    rw [Log.commit, if_neg (by simp [hn]), append_nil]
    exact hg.trace
  · have hl : Logging { s₂ with outstanding := 0, committing := true } := { hg with }
    rw [Log.commit_eq hl hn]
    refine ⟨_, congrArg (· ++ _) hg.trace, ?_⟩
    rw [← hg.start] at hb ⊢
    refine commit_avoids hl hb fun hm => ?_
    obtain ⟨w, hw, e⟩ := mem_map.1 ((hg.mem b).1 hm)
    exact htx w hw e

theorem runTxs_avoids (hi : Idle s) (hout : ∀ tx ∈ txs, ∀ w ∈ tx, ¬InLog s.start w.1) (h : txs.foldlM runTx s = some s')
    (hb : ¬InLog s.start b) (htx : ∀ tx ∈ txs, ∀ w ∈ tx, w.1 ≠ b) :
    ∃ ws, s'.trace = s.trace ++ ws ∧ Avoids s.start b ws := by
  induction txs generalizing s with
  | nil =>
    cases h
    exact ⟨[], (append_nil _).symm, nofun⟩
  | cons tx txs ih =>
    obtain ⟨s₁, h₁, h₂⟩ := Option.bind_eq_some_iff.1 h
    have hout₁ := hout tx mem_cons_self
    obtain ⟨hi₁, hs₁, -⟩ := Log.runTx_prefixes 0 hi hout₁ (fun _ _ => rfl) h₁
    obtain ⟨ws, htr, hav⟩ := runTx_avoids hi hout₁ h₁ hb (htx tx mem_cons_self)
    rw [← hs₁] at hb hav ⊢
    obtain ⟨ws', htr', hav'⟩ := ih hi₁ (fun tx' h' => hs₁ ▸ hout tx' (mem_cons_of_mem _ h')) h₂ hb
      fun tx' h' => htx tx' (mem_cons_of_mem _ h')
    refine ⟨ws ++ ws', ?_, hav.append hav'⟩
    rw [htr', htr, append_assoc]

theorem runTxs_of_foldlM (h : txs.foldlM runTx s = some s') : runTxs s txs = s' := by
  induction txs generalizing s with
  | nil =>
    cases h
    rfl
  | cons tx txs ih =>
    obtain ⟨s₁, h₁, h₂⟩ := Option.bind_eq_some_iff.1 h
    rw [runTxs, h₁]
    exact ih h₂

end Avoids

/-! ## The loop -/

variable {sb : Superblock} {t u : Disk} {S S' : Nat → Prop} {m : Mem} {l : LogState} {k : Nat}

/-- `ireclaim` has run the transactions `txs` from the log `l`, which have freed the inodes `S` of the
image `t`; those run so far have freed some of them. -/
structure Did (sb : Superblock) (t : Disk) (l : LogState) (S : Nat → Prop) (txs : List Tx) (m : Mem) : Prop where
  run : txs.foldlM runTx l = some m.log
  writes : ∀ tx ∈ txs, ∀ w ∈ tx, MetaBlock sb w.1
  after : Reclaimed sb t S (applyTxs t txs)
  between : Between sb (applyTxs t txs) m
  stopped : ∀ n, ∃ S', (∀ i, S' i → S i) ∧ Reclaimed sb t S' (applyTxs t (txs.take n)) ∧
    Image sb (applyTxs t (txs.take n))

theorem Did.image (h : Did sb t l S txs m) : Image sb (applyTxs t txs) := by
  obtain ⟨_, -, -, h⟩ := h.stopped txs.length
  rwa [take_length] at h

theorem Reclaimed.of_iff (h : Reclaimed sb t S u) (hS : ∀ i, S i ↔ S' i) : Reclaimed sb t S' u := by
  obtain rfl : S = S' := funext fun i => propext (hS i)
  exact h

/-- Whether an inode is freed depends on the inode only. -/
theorem frees_congr {i : Nat} (h : imageInode sb u i = imageInode sb t i) : Frees sb u i ↔ Frees sb t i := by
  rw [Frees, Orphan, h, Frees, Orphan]

theorem applyTxs_append (d : Disk) (txs txs' : List Tx) : applyTxs d (txs ++ txs') = applyTxs (applyTxs d txs) txs' :=
  foldl_append ..

theorem take_append_of_short {txs' : List Tx} (h : txs'.length ≤ 1) (n : Nat) :
    (txs ++ txs').take n = txs.take n ∨ (txs ++ txs').take n = txs ++ txs' := by
  rcases Nat.lt_or_ge txs.length n with hlt | hle
  · refine .inr (take_of_length_le ?_)
    rw [length_append]
    omega
  · exact .inl (take_append_of_le_length hle)

theorem Did.round {m' : Mem} (hL : Layout sb) (ht : Image sb t) (hk : k < sb.ninodes.toNat)
    (h : Did sb t l (fun i => Frees sb t i ∧ i < k) txs m)
    (hr : Ran sb (applyTxs t txs) (fun i => i = k ∧ Frees sb (applyTxs t txs) i) m m') :
    ∃ txs', Did sb t l (fun i => Frees sb t i ∧ i < k + 1) txs' m' := by
  obtain ⟨txs', hlen, hrun, hw, hrec, himg, hbet⟩ := hr
  rw [← applyTxs_append] at hrec himg hbet
  have hsame : Frees sb (applyTxs t txs) k ↔ Frees sb t k :=
    frees_congr (h.after.other_inode k (hL.inArea hk) fun hc => Nat.lt_irrefl _ hc.2)
  have hafter : Reclaimed sb t (fun i => Frees sb t i ∧ i < k + 1) (applyTxs t (txs ++ txs')) := by
    refine (h.after.trans hL ht hrec ?_).of_iff fun i => ⟨?_, fun ⟨hf, hi⟩ => ?_⟩
    · rintro i ⟨rfl, -⟩
      exact ⟨hk, fun hc => Nat.lt_irrefl _ hc.2⟩
    · rintro (⟨hf, hi⟩ | ⟨rfl, hf⟩)
      · exact ⟨hf, Nat.lt_succ_of_lt hi⟩
      · exact ⟨hsame.1 hf, Nat.lt_succ_self _⟩
    · rcases Nat.lt_succ_iff_lt_or_eq.1 hi with hlt | rfl
      · exact .inl ⟨hf, hlt⟩
      · exact .inr ⟨rfl, hsame.2 hf⟩
  refine ⟨txs ++ txs', ?_, fun tx htx => ?_, hafter, hbet, fun n => ?_⟩
  · rw [foldlM_append, h.run]
    exact hrun
  · exact (mem_append.1 htx).elim (h.writes tx) (hw tx)
  · rcases take_append_of_short hlen n with e | e
    · rw [e]
      obtain ⟨S', hS', hrec', himg'⟩ := h.stopped n
      exact ⟨S', fun i hi => ⟨(hS' i hi).1, Nat.lt_succ_of_lt (hS' i hi).2⟩, hrec', himg'⟩
    · rw [e]
      exact ⟨_, fun _ hi => hi, hafter, himg⟩

theorem wp_ireclaim (hL : Layout sb) (ht : Image sb t) (h : Between sb t m) :
    WP (ireclaim sb) NoPanic (fun _ m' => ∃ txs, Did sb t m.log (Frees sb t) txs m') m := by
  have hstart : ∃ txs, Did sb t m.log (fun i => Frees sb t i ∧ i < 0 + 1) txs m := by
    have hnone : ∀ i, ¬(Frees sb t i ∧ i < 0 + 1) := fun i ⟨hf, hi⟩ => by
      have := hf.1.1
      omega
    refine ⟨[], rfl, nofun, .refl hnone, h, fun n => ⟨_, fun _ hi => hi, ?_⟩⟩
    rw [take_nil]
    exact ⟨.refl hnone, ht⟩
  unfold ireclaim
  rw [range'_eq_map_range, forM_map]
  refine (WP.loop (I := fun k m' => ∃ txs, Did sb t m.log (fun i => Frees sb t i ∧ i < k + 1) txs m') hstart
    fun k m' hk hI => ?_).mono fun _ m' hI => ?_
  · obtain ⟨txs, hd⟩ := hI
    rw [Nat.add_comm k 1] at hd ⊢
    have hlt : 1 + k < sb.ninodes.toNat := by omega
    exact (wp_reclaim hL hd.image hd.between (Nat.le_add_right ..) hlt).mono fun _ m'' hr => hd.round hL ht hlt hr
  · obtain ⟨txs, hd⟩ := hI
    have hiff : ∀ i, Frees sb t i ∧ i < sb.ninodes.toNat - 1 + 1 ↔ Frees sb t i := by
      refine fun i => ⟨And.left, fun hf => ⟨hf, ?_⟩⟩
      have := hf.1.2.1
      omega
    refine ⟨txs, hd.run, hd.writes, hd.after.of_iff hiff, hd.between, fun n => ?_⟩
    obtain ⟨S', hS', hrest⟩ := hd.stopped n
    exact ⟨S', fun i hi => (hS' i hi).1, hrest⟩

/-! ## Boots and crashes -/

/-- A disk that stands for the image `t`, and whose recovery leaves the super block alone. -/
structure Holding (sb : Superblock) (t d : Disk) : Prop where
  super : readsb (d 1) = sb
  safe : Safe sb.logstart t d
  head : 1 ∉ headBlocks (d sb.logstart)

theorem quiet_bootTable : Quiet bootTable :=
  ⟨⟨none, rfl⟩, fun e he => by
    have hv : e.val ≠ 0 := fun h => he (Fin.ext h)
    rw [bootTable, if_neg hv]
    exact ⟨rfl, rfl⟩⟩

theorem Holding.between {d : Disk} (h : Holding sb t d) : Between sb t ⟨recoverFromLog sb.logstart d, bootTable⟩ := by
  have hz := Log.recover_headN h.safe.1
  have htrace := Log.recover_trace h.safe.1
  refine ⟨⟨?_, ?_, ?_, ?_, ?_⟩, ?_, fun b hb => Log.recover_home h.safe hb, quiet_bootTable⟩ <;> dsimp only
  · rw [htrace] at hz ⊢
    exact hz
  all_goals rw [htrace]; rfl

theorem Holding.boots {d : Disk} (hL : Layout sb) (ht : Image sb t) (h : Holding sb t d) :
    ∃ m txs, fsinit d = .ok m ∧ Did sb t (recoverFromLog sb.logstart d) (Frees sb t) txs m := by
  obtain ⟨_, m, hrun, txs, hdid⟩ := (wp_ireclaim hL ht h.between).total
  refine ⟨m, txs, ?_, hdid⟩
  rw [fsinit, h.super, if_neg (not_not.2 hL.magic), hrun]
  rfl

/-- The image at the end. -/
theorem Did.reclaimed (hL : Layout sb) (h : Did sb t l S txs m) : Reclaimed sb t S m.log.disk :=
  h.after.congr hL h.between.disk

/-- A disk of a machine that has stopped: some orphans of the image `t` have been freed. -/
def Resumed (sb : Superblock) (t d : Disk) : Prop :=
  ∃ S u, (∀ i, S i → Frees sb t i) ∧ Reclaimed sb t S u ∧ Image sb u ∧ Holding sb u d

theorem one_ne_metaBlock (hL : Layout sb) {b : Blockno} (h : MetaBlock sb b) : b ≠ 1 := by
  have hboot := hL.boot
  have hlog := hL.log
  have hle := hL.bmap.1
  rintro rfl
  have h1 : (1 : Blockno).toNat = 1 := rfl
  rcases h with e | ⟨i, hi, e⟩
  · rw [← e] at hle
    omega
  · have hn := toNat_iblock hi
    rw [← e] at hn
    have := Nat.zero_le (i / IPB)
    omega

/-- After some of the writes of `fsinit`. -/
theorem Holding.stop {d : Disk} (hL : Layout sb) (ht : Image sb t) (h : Holding sb t d) (hm : fsinit d = .ok m) (k : Nat) :
    Resumed sb t (applyWrites d (m.log.trace.take k)) := by
  obtain ⟨m', txs, hrun, hdid⟩ := h.boots hL ht
  obtain rfl : m' = m := Except.ok.inj (hrun.symm.trans hm)
  have hbet := h.between
  have h1 := hL.one_notInLog
  have hstart : (recoverFromLog sb.logstart d).start = sb.logstart := hbet.start
  have hout : ∀ tx ∈ txs, ∀ w ∈ tx, ¬InLog sb.logstart w.1 := fun tx htx w hw => (hdid.writes tx htx w hw).notInLog hL
  rw [← hstart] at hout h1
  obtain ⟨ws, htr, hav⟩ := runTxs_avoids hbet.idle hout hdid.run h1
    fun tx htx w hw => one_ne_metaBlock hL (hdid.writes tx htx w hw)
  have hdisk : ∀ b, ¬InLog (recoverFromLog sb.logstart d).start b → (recoverFromLog sb.logstart d).disk b = t b :=
    fun b hb => hbet.disk b (hstart ▸ hb)
  obtain ⟨ws', htr', hpre⟩ := Log.runTxs_prefixes 0 hbet.idle hout hdisk
  rw [runTxs_of_foldlM hdid.run, htr] at htr'
  obtain rfl : ws = ws' := append_cancel_left htr'
  rw [hstart] at hav hpre h1
  have hrec := recover_avoids h.safe.1 h1 h.head
  -- The super block stays whatever writes are made.
  have hall : Avoids sb.logstart 1 (m'.log.trace.take k) := by
    rw [htr]
    exact (hrec.append hav).take k
  have hhold : ∀ u, Safe sb.logstart u (applyWrites d (m'.log.trace.take k)) →
      Holding sb u (applyWrites d (m'.log.trace.take k)) := fun u hu =>
    ⟨by rw [hall.keeps, h.super], hu, hall.head h.head⟩
  rcases Nat.lt_or_ge (recoverFromLog sb.logstart d).trace.length k with hlt | hle
  · -- in a transaction
    obtain ⟨n, -, -, hsafe⟩ := hpre (k - (recoverFromLog sb.logstart d).trace.length)
    obtain ⟨S, hS, hrec', himg⟩ := hdid.stopped n
    refine ⟨S, _, hS, hrec', himg, hhold _ ?_⟩
    rw [Log.foldl_diskStep] at hsafe
    have hd : applyWrites d (recoverFromLog sb.logstart d).trace = (recoverFromLog sb.logstart d).disk := by
      rw [Log.recover_trace h.safe.1]
      rfl
    rw [htr, take_append, take_of_length_le (Nat.le_of_lt hlt), applyWrites_append, hd]
    exact hsafe
  · -- in the recovery
    refine ⟨fun _ => False, t, nofun, .refl fun _ h => h, ht, hhold t ?_⟩
    rw [htr, take_append_of_le_length hle]
    exact Log.recover_prefixes h.safe k

/-- Disks that boots, each stopped after some of its writes, lead to. -/
inductive Crashed (d : Disk) : Disk → Prop
  | refl : Crashed d d
  | crash {d' : Disk} {m : Mem} (k : Nat) : Crashed d d' → fsinit d' = .ok m →
      Crashed d (applyWrites d' (m.log.trace.take k))

/-- The inodes that are left to free. -/
theorem Reclaimed.frees_or (hL : Layout sb) (h : Reclaimed sb t S u) (hS : ∀ i, S i → Frees sb t i) (i : Nat) :
    S i ∨ Frees sb u i ↔ Frees sb t i := by
  by_cases hi : S i
  · exact ⟨fun _ => hS i hi, fun _ => .inl hi⟩
  · refine ⟨fun hor => ?_, fun hf => .inr ?_⟩
    · have hf := hor.resolve_left hi
      exact (frees_congr (h.other_inode i (hL.inArea hf.1.2.1) hi)).1 hf
    · exact (frees_congr (h.other_inode i (hL.inArea hf.1.2.1) hi)).2 hf

theorem Reclaimed.not_frees (hL : Layout sb) (h : Reclaimed sb t S u) {i : Nat} (hf : Frees sb u i) : ¬S i := by
  intro hi
  have htype := hf.1.2.2.1
  rw [h.inode i (hL.inArea hf.1.2.1) hi] at htype
  exact htype rfl

theorem Resumed.trans (hL : Layout sb) (ht : Image sb t) (hr : Reclaimed sb t S u) (hS : ∀ i, S i → Frees sb t i)
    (h : Resumed sb u d') : Resumed sb t d' := by
  obtain ⟨S', u', hS', hr', himg, hhold⟩ := h
  refine ⟨_, u', fun i hi => (hr.frees_or hL hS i).1 (hi.imp_right (hS' i)), hr.trans hL ht hr' fun i hi => ?_, himg, hhold⟩
  exact ⟨(hS' i hi).1.2.1, hr.not_frees hL (hS' i hi)⟩

theorem Crashed.resumed {d : Disk} (hL : Layout sb) (ht : Image sb t) (hd : Holding sb t d) (h : Crashed d d') :
    Resumed sb t d' := by
  induction h with
  | refl => exact ⟨fun _ => False, t, nofun, .refl fun _ h => h, ht, hd⟩
  | crash k _ hm ih =>
    obtain ⟨S, u, hS, hr, himg, hhold⟩ := ih
    exact (hhold.stop hL himg hm k).trans hL ht hr hS

theorem Resumed.boots (hL : Layout sb) (ht : Image sb t) (h : Resumed sb t d') :
    ∃ m, fsinit d' = .ok m ∧ Reclaimed sb t (Frees sb t) m.log.disk := by
  obtain ⟨S, u, hS, hr, himg, hhold⟩ := h
  obtain ⟨m, txs, hrun, hdid⟩ := hhold.boots hL himg
  refine ⟨m, hrun, (hr.trans hL ht (hdid.reclaimed hL) fun i hi => ?_).of_iff (hr.frees_or hL hS)⟩
  exact ⟨hi.1.2.1, hr.not_frees hL hi⟩

/-- A disk that the file system may be on when the machine boots: its log stands for a well-formed image. -/
structure Bootable (d : Disk) : Prop where
  layout : Layout (readsb (d 1))
  head : Log.HeadOk (readsb (d 1)).logstart d
  super : 1 ∉ headBlocks (d (readsb (d 1)).logstart)
  image : Image (readsb (d 1)) (Log.logical (readsb (d 1)).logstart d)

theorem Bootable.holding {d : Disk} (h : Bootable d) : Holding (readsb (d 1)) (Log.logical (readsb (d 1)).logstart d) d :=
  ⟨rfl, ⟨h.head, fun _ _ => rfl⟩, h.super⟩

/-- `fsinit` does not panic, as long as there are buffers. Outside the log, of the image that recovery
leaves, it frees exactly the orphans other than the root directory and their blocks. A boot after crashes
ends in the same image. -/
theorem fsinit_frees_orphans (d : Disk) (h : Bootable d) :
    ∃ m, fsinit d = .ok m ∧
      Reclaimed (readsb (d 1)) (Log.logical (readsb (d 1)).logstart d)
        (Frees (readsb (d 1)) (Log.logical (readsb (d 1)).logstart d)) m.log.disk ∧
      ∀ d', Crashed d d' → ∃ m', fsinit d' = .ok m' ∧
        ∀ b, ¬InLog (readsb (d 1)).logstart b → m'.log.disk b = m.log.disk b := by
  have hres := fun d' (hc : Crashed d d') => (hc.resumed h.layout h.image h.holding).boots h.layout h.image
  obtain ⟨m, hrun, hrec⟩ := hres d .refl
  refine ⟨m, hrun, hrec, fun d' hc => ?_⟩
  obtain ⟨m', hrun', hrec'⟩ := hres d' hc
  exact ⟨m', hrun', fun b hb => hrec'.unique hrec hb⟩

/-! ## A disk with orphans -/

def blockOf (ws : List (BitVec 32)) : Block := fun w => ws.getD w.val 0

/-- The root directory, inode 1, and a file, inode 2, have a block each and no links. -/
def orphanDisk : Disk := fun b =>
  if b = 1 then blockOf [FSMAGIC, 40, 5, 3, 31, 2, 33, 34]
  else if b = 33 then
    blockOf (List.replicate 16 0 ++ [1, 0, 32, 35] ++ List.replicate 12 0 ++ [2, 0, 5, 36])
  -- blocks 0 to 36 are in use
  else if b = 34 then blockOf [0xffffffff, 0x1f]
  else if b = 35 then blockOf [0x002e0001, 0, 0, 0, 0x2e2e0001]
  else blockOf []

def orphanSb : Superblock := readsb (orphanDisk 1)

theorem logical_orphanDisk : Log.logical orphanSb.logstart orphanDisk = orphanDisk := by
  have hnil : headBlocks (orphanDisk orphanSb.logstart) = [] := Log.headBlocks_of_zero (by decide +kernel)
  rw [Log.logical, hnil]
  rfl

/-- The only blocks of inodes. -/
theorem diskAddr_orphanDisk {x : Blocks.Slot} (hx : Blocks.diskAddr (fsOf orphanSb orphanDisk) x ≠ 0) :
    x = .direct 1 0 ∨ x = .direct 2 0 := by
  have hdirect : ∀ i < 3, ∀ k < NDIRECT, ((imageInode orphanSb orphanDisk i).addrs k).toNat ≠ 0 →
      (i = 1 ∧ k = 0) ∨ (i = 2 ∧ k = 0) := by decide +kernel
  have hindirect : ∀ i < 3, (imageInode orphanSb orphanDisk i).addrs NDIRECT = 0 := by decide +kernel
  have hin : x.inum < 3 := by
    by_contra hge
    have hd : (fsOf orphanSb orphanDisk).dinode x.inum = noInode := if_neg hge
    rw [Blocks.diskAddr, hd] at hx
    cases x <;> exact hx rfl
  have hd : (fsOf orphanSb orphanDisk).dinode x.inum = imageInode orphanSb orphanDisk x.inum := if_pos hin
  rw [Blocks.diskAddr, hd] at hx
  cases x with
  | direct i k =>
    have hc := ite_ne_right_iff.1 hx
    rcases hdirect i hin k hc.1.2 hc.2 with ⟨rfl, rfl⟩ | ⟨rfl, rfl⟩
    · exact .inl rfl
    · exact .inr rfl
  | indirect i =>
    have hc := ite_ne_right_iff.1 hx
    rw [hindirect _ hin] at hc
    exact absurd rfl hc.2
  | entry i j =>
    have hc := ite_ne_right_iff.1 hx
    exact absurd (hindirect _ hin) hc.1.2

theorem orphanDisk_image : Image orphanSb orphanDisk := by
  have h1 : Blocks.diskAddr (fsOf orphanSb orphanDisk) (.direct 1 0) = 35 := by decide +kernel
  have h2 : Blocks.diskAddr (fsOf orphanSb orphanDisk) (.direct 2 0) = 36 := by decide +kernel
  have hused : ∀ b, (fsOf orphanSb orphanDisk).used b = decide (b < 37) := by
    intro b
    by_cases hb : b < 40
    · revert b
      decide +kernel
    · have h40 : ¬b < orphanSb.size.toNat := hb
      have h37 : ¬b < 37 := by omega
      change (decide (b < orphanSb.size.toNat) && _) = _
      rw [decide_eq_false h40, decide_eq_false h37]
      rfl
  have hstart : (fsOf orphanSb orphanDisk).sb.datastart = 35 := by decide +kernel
  have hsize : (fsOf orphanSb orphanDisk).sb.size = 40 := by decide +kernel
  refine ⟨fun _ => rfl, ⟨by decide +kernel, fun x hx => ?_, fun x hx => ?_, fun x y hx hxy => ?_, fun b hlo hhi hb => ?_⟩,
    fun b hb => ?_, by rw [hsize]; decide, fun i hi => ?_⟩
  · rw [hstart, hsize]
    rcases diskAddr_orphanDisk hx with rfl | rfl
    · rw [h1]
      decide
    · rw [h2]
      decide
  · rw [hused]
    rcases diskAddr_orphanDisk hx with rfl | rfl
    · rw [h1]
      rfl
    · rw [h2]
      rfl
  · rcases diskAddr_orphanDisk hx with rfl | rfl <;> rcases diskAddr_orphanDisk (hxy ▸ hx) with rfl | rfl <;>
      first | rfl | (rw [h1, h2] at hxy; cases hxy)
  · rw [hused, decide_eq_true_eq] at hb
    rw [hstart] at hlo
    rcases (by omega : b = 35 ∨ b = 36) with rfl | rfl
    · exact ⟨_, h1⟩
    · exact ⟨_, h2⟩
  · rw [hstart] at hb
    rw [hused, decide_eq_true (by omega)]
  · have hsmall : ∀ i < 3, (imageInode orphanSb orphanDisk i).type ≠ 0 →
        (i = 1 ∨ i = 2) ∧ (imageInode orphanSb orphanDisk i).size.toNat ≤ 32 := by decide +kernel
    by_cases hlt : i < 3
    · have hd : (fsOf orphanSb orphanDisk).dinode i = imageInode orphanSb orphanDisk i := if_pos hlt
      rw [hd] at hi ⊢
      obtain ⟨hor, hle⟩ := hsmall i hlt hi
      refine ⟨Nat.le_trans hle (by decide), fun bn hbn => ?_⟩
      have hlt' : bn * 1024 < 32 := Nat.lt_of_lt_of_le hbn hle
      obtain rfl : bn = 0 := by omega
      rcases hor with rfl | rfl
      · exact ne_of_eq_of_ne h1 (by decide)
      · exact ne_of_eq_of_ne h2 (by decide)
    · have hd : (fsOf orphanSb orphanDisk).dinode i = noInode := if_neg hlt
      rw [hd] at hi
      exact absurd rfl hi

theorem orphanDisk_bootable : Bootable orphanDisk := by
  have hnil : headBlocks (orphanDisk orphanSb.logstart) = [] := Log.headBlocks_of_zero (by decide +kernel)
  refine ⟨⟨by decide +kernel, by decide +kernel, by decide +kernel, by decide +kernel, by decide +kernel,
    by decide +kernel⟩, ⟨?_, fun b hb => ?_⟩, fun h => ?_, ?_⟩
  · change (headBlocks (orphanDisk orphanSb.logstart)).length ≤ _
    rw [hnil]
    exact Nat.zero_le _
  · change b ∈ headBlocks (orphanDisk orphanSb.logstart) at hb
    rw [hnil] at hb
    cases hb
  · change _ ∈ headBlocks (orphanDisk orphanSb.logstart) at h
    rw [hnil] at h
    cases h
  · change Image orphanSb (Log.logical orphanSb.logstart orphanDisk)
    rw [logical_orphanDisk]
    exact orphanDisk_image

theorem orphanDisk_boots : ∃ m, fsinit orphanDisk = .ok m ∧ (imageInode orphanSb m.log.disk ROOTINO).type = T_DIR ∧
    (imageInode orphanSb m.log.disk 2).type = 0 ∧ imageBit orphanSb m.log.disk 35 = true ∧
    imageBit orphanSb m.log.disk 36 = false ∧ m.log.disk 3 0 ≠ orphanDisk 3 0 := by
  have hrun : (match fsinit orphanDisk with
      | .ok m => decide ((imageInode orphanSb m.log.disk ROOTINO).type = T_DIR ∧
          (imageInode orphanSb m.log.disk 2).type = 0 ∧ imageBit orphanSb m.log.disk 35 = true ∧
          imageBit orphanSb m.log.disk 36 = false ∧ m.log.disk 3 0 ≠ orphanDisk 3 0)
      | .error _ => false) = true := by
    decide +kernel
  split at hrun
  · rename_i m hm
    exact ⟨m, hm, of_decide_eq_true hrun⟩
  · cases hrun

/-- The file is freed with its block, the root directory is not. -/
theorem fsinit_frees_orphanDisk : ∃ m, fsinit orphanDisk = .ok m ∧ (imageInode orphanSb m.log.disk 2).type = 0 ∧
    imageBit orphanSb m.log.disk 36 = false ∧ imageBit orphanSb m.log.disk 35 = true ∧
    ∀ d', Crashed orphanDisk d' → ∃ m', fsinit d' = .ok m' ∧
      ∀ b, ¬InLog orphanSb.logstart b → m'.log.disk b = m.log.disk b := by
  obtain ⟨m, hm, -, h2, h35, h36, -⟩ := orphanDisk_boots
  obtain ⟨m', hm', -, hcrash⟩ := fsinit_frees_orphans orphanDisk orphanDisk_bootable
  obtain rfl : m = m' := Except.ok.inj (hm.symm.trans hm')
  exact ⟨m, hm, h2, h36, h35, hcrash⟩

/-- An orphaned root directory stays, and blocks of the log do not stay as they were. -/
theorem root_orphan_stays : ∃ d m, Bootable d ∧ fsinit d = .ok m ∧
    Orphan (readsb (d 1)) (Log.logical (readsb (d 1)).logstart d) ROOTINO ∧
    (imageInode (readsb (d 1)) m.log.disk ROOTINO).type ≠ 0 ∧
    ∃ b, b ≠ (readsb (d 1)).bmapstart ∧ (∀ i, InArea (readsb (d 1)) i → b ≠ iblock (readsb (d 1)) i) ∧
      m.log.disk b ≠ Log.logical (readsb (d 1)).logstart d b := by
  obtain ⟨m, hm, h1, -, -, -, h3⟩ := orphanDisk_boots
  have horphan : Orphan orphanSb orphanDisk ROOTINO := by
    refine ⟨by decide, by decide +kernel, by decide +kernel, by decide +kernel⟩
  refine ⟨orphanDisk, m, orphanDisk_bootable, hm, ?_, ?_, 3, by decide +kernel, fun i hi e => ?_, fun e => h3 ?_⟩
  · change Orphan orphanSb (Log.logical orphanSb.logstart orphanDisk) ROOTINO
    rw [logical_orphanDisk]
    exact horphan
  · change (imageInode orphanSb m.log.disk ROOTINO).type ≠ 0
    rw [h1]
    decide
  · have hn := congrArg BitVec.toNat e
    rw [toNat_iblock hi] at hn
    have h33 : (readsb (orphanDisk 1)).inodestart.toNat = 33 := by decide +kernel
    have hthree : (3 : Blockno).toNat = 3 := rfl
    have := Nat.zero_le (i / IPB)
    omega
  · change m.log.disk 3 = Log.logical orphanSb.logstart orphanDisk 3 at e
    rw [e, logical_orphanDisk]

end Xv6.Reclaim
