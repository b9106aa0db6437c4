import Xv6.Log.Commit
import Mathlib.Data.List.Dedup
import Mathlib.Data.List.Perm.Subperm

/-!
# Crash atomicity of the redo log

The blocks a disk stands for are those that recovery would leave on it
(`logical`). A write of `write_log` or `install_trans` does not change them,
and neither does the header write that clears the log; only the header write
of a commit does, which applies the whole transaction (`commit_prefixes`).
Recovery keeps them too, wherever it is stopped (`recover_prefixes`), so a
crash of a run of transactions (`runTxs_prefixes`), followed by any number of
unfinished recoveries and a finished one, leaves exactly the transactions
whose header write reached the disk (`crash_recovers_committed`).
-/

namespace Xv6.Log

open Function List Option

/-- The blocks recovery leaves on a disk. -/
def logical (start : Blockno) (d : Disk) : Disk :=
  applyWrites d (installWrites start d 0 (headBlocks (d start)))

/-- The header of the log on a disk names at most `LOGBLOCKS` blocks, none in the log. -/
def HeadOk (start : Blockno) (d : Disk) : Prop :=
  (headBlocks (d start)).length ≤ LOGBLOCKS ∧ ∀ b ∈ headBlocks (d start), ¬ InLog start b

/-- Outside the log, the disk stands for `t`. -/
def Safe (start : Blockno) (t d : Disk) : Prop :=
  HeadOk start d ∧ ∀ b, ¬ InLog start b → logical start d b = t b

/-- Whether a disk write commits a transaction: a header with `n > 0`. -/
def isCommit (start : Blockno) (w : Blockno × Block) : Bool := w.1 == start && headN w.2 != 0

/-- How many of the disk writes commit a transaction. -/
def commits (start : Blockno) (ws : List (Blockno × Block)) : Nat := ws.countP (isCommit start)

theorem commits_append (start : Blockno) (us ws : List (Blockno × Block)) :
    commits start (us ++ ws) = commits start us + commits start ws := countP_append

/-- One disk write, counting commits. -/
def diskStep (start : Blockno) (p : Disk × Nat) (w : Blockno × Block) : Disk × Nat :=
  (update p.1 w.1 w.2, p.2 + (isCommit start w).toNat)

theorem foldl_diskStep (start : Blockno) (d : Disk) (c : Nat) (ws : List (Blockno × Block)) :
    ws.foldl (diskStep start) (d, c) = (applyWrites d ws, c + commits start ws) := by
  induction ws generalizing d c with
  | nil => rfl
  | cons w ws ih =>
    rw [foldl_cons, diskStep, ih, applyWrites_cons, commits, commits, countP_cons]
    cases isCommit start w <;> simp; omega

variable {start b : Blockno} {t d : Disk} {s s' s₀ : LogState} {tail : Nat} {bs : List Blockno} {tx : Tx}

theorem ne_of_notInLog {b' : Blockno} (h : ¬ InLog start b) (h' : InLog start b') : b ≠ b' :=
  fun e => h (e ▸ h')

/-! ## Installing and clearing -/

/-- Changing blocks of the committed transaction keeps what the disk stands for. -/
theorem Safe.of_agree {d' : Disk} (h : Safe start t d) (hd : ∀ b, b ∉ headBlocks (d start) → d' b = d b) :
    Safe start t d' := by
  obtain ⟨⟨hl, ho⟩, ht⟩ := h
  have hlog : ∀ b, InLog start b → d' b = d b := fun b hb => hd b fun hm => ho b hm hb
  have hh : headBlocks (d' start) = headBlocks (d start) := by rw [hlog start (start_inLog start)]
  have hi : installWrites start d' 0 (headBlocks (d start)) =
      installWrites start d 0 (headBlocks (d start)) := installWrites_congr fun i _ h₂ =>
    hlog _ (logBlock_inLog (by omega))
  refine ⟨⟨hh ▸ hl, hh ▸ ho⟩, fun b hb => ?_⟩
  rw [logical, hh, hi, applyWrites_absorb (d := d) (by rwa [map_fst_installWrites])]
  exact ht b hb

/-- A disk with a cleared log stands for its home blocks. -/
theorem Safe.of_zero (h : headN (d start) = 0) (hd : ∀ b, ¬ InLog start b → d b = t b) : Safe start t d :=
  ⟨by simp [HeadOk, headBlocks_of_zero h], fun b hb => by
    simp [logical, headBlocks_of_zero h, installWrites, hd b hb]⟩

theorem Safe.home (h : Safe start t d) (hz : headN (d start) = 0) (hb : ¬ InLog start b) : d b = t b := by
  simpa [logical, headBlocks_of_zero hz, installWrites] using h.2 b hb

theorem isCommit_of_notInLog {w : Blockno × Block} (h : ¬ InLog start w.1) : isCommit start w = false := by
  have := ne_of_notInLog h (start_inLog start)
  simp [isCommit, this]

/-- Any prefix of the installation, and the header write that clears the log
after it, keep what the disk stands for. -/
theorem install_prefixes (c : Nat) (h : Safe start t d) (hb : Block) :
    EveryPrefix (diskStep start) (fun p => p.2 = c ∧ Safe start t p.1) (d, c)
      (installWrites start d 0 (headBlocks (d start)) ++ [(start, setHead hb [])]) := by
  set bs := headBlocks (d start) with hbs
  have hmem : ∀ w ∈ installWrites start d 0 bs, w.1 ∈ bs := fun w hw =>
    map_fst_installWrites start d 0 bs ▸ mem_map_of_mem hw
  -- while installing, only blocks of the transaction differ from `d`
  have hinst : EveryPrefix (diskStep start) (fun p => p.2 = c ∧ ∀ b, b ∉ bs → p.1 b = d b) (d, c)
      (installWrites start d 0 bs) := by
    refine .of_step ⟨rfl, fun _ _ => rfl⟩ fun w hw p ⟨hc, hp⟩ => ⟨?_, fun b hb => ?_⟩
    · simp [diskStep, isCommit_of_notInLog (h.1.2 _ (hmem w hw)), hc]
    · have : b ≠ w.1 := fun e => hb (e ▸ hmem w hw)
      simp only [diskStep, update_of_ne this, hp b hb]
  refine .append (hinst.mono fun p ⟨hc, hp⟩ => ⟨hc, h.of_agree hp⟩) ?_
  obtain ⟨hc, hp⟩ := hinst.last
  rw [foldl_diskStep] at hc hp ⊢
  have hz : ∀ d' : Disk, headN (update d' start (setHead hb []) start) = 0 := fun d' => by
    rw [update_self]; exact headN_setHead hb [] (Nat.zero_le _)
  refine .single ⟨hc, h.of_agree hp⟩ ⟨?_, .of_zero (hz _) fun b hb' => ?_⟩
  · simpa [diskStep, isCommit, headN_setHead hb [] (Nat.zero_le _)] using hc
  · simp only [diskStep, update_of_ne (ne_of_notInLog hb' (start_inLog start))]
    exact h.2 b hb'

/-! ## Recovery -/

/-- The disk writes of `recover_from_log`. -/
theorem recover_trace (h : HeadOk start d) : recoverFromLog start d = { boot start d with lh := [] }.wrote
      (installWrites start d 0 (headBlocks (d start)) ++ [(start, setHead (d start) [])]) := by
  have hd : bread (boot start d) start = d start := rfl
  have hs : start ∉ (installWrites start d 0 (headBlocks (d start))).map Prod.fst := by
    rw [map_fst_installWrites]
    exact fun hm => h.2 _ hm (start_inLog start)
  simp only [recoverFromLog, readHead, installTrans]
  rw [show (boot start d).start = start from rfl, hd, installFrom_eq true _ 0 (by simpa using h.1) h.2 fun _ _ => rfl]
  simp only [writeHead, bwrite_eq, LogState.wrote, boot, bread, unpin, if_true, getD_none,
    applyWrites_of_notMem hs, ← applyWrites_append, nil_append]

theorem recover_prefixes (h : Safe start t d) (k : Nat) :
    Safe start t (applyWrites d ((recoverFromLog start d).trace.take k)) := by
  have := (install_prefixes 0 h (d start) k).2
  rw [foldl_diskStep] at this
  rw [recover_trace h.1]
  simpa [LogState.wrote, boot] using this

/-- A finished recovery clears the log. -/
theorem recover_headN (h : HeadOk start d) : headN ((recoverFromLog start d).disk start) = 0 := by
  rw [recover_trace h, wrote_disk, applyWrites_append, applyWrites_cons, applyWrites_nil, update_self]
  exact headN_setHead _ [] (Nat.zero_le _)

theorem recover_home (h : Safe start t d) (hb : ¬ InLog start b) : (recoverFromLog start d).disk b = t b := by
  have hr := recover_prefixes h (recoverFromLog start d).trace.length
  rw [take_length] at hr
  have e : applyWrites d (recoverFromLog start d).trace = (recoverFromLog start d).disk := by
    rw [recover_trace h.1]; simp [LogState.wrote, boot]
  rw [e] at hr
  exact hr.home (recover_headN h.1) hb

/-! ## Commit -/

/-- The log between `begin_op` and `end_op` of a group: its header on disk is
clear, and exactly the blocks of the transaction, which are not in the log, are
pinned. -/
structure Logging (s : LogState) : Prop where
  clear : headN (s.disk s.start) = 0
  room : s.lh.length ≤ LOGBLOCKS
  nodup : s.lh.Nodup
  home : ∀ b ∈ s.lh, ¬ InLog s.start b
  pinned : ∀ b, b ∉ s.lh → s.dirty b = none

theorem Logging.clean (h : Logging s) (hb : InLog s.start b) : s.dirty b = none := h.pinned b fun hm => h.home b hm hb

/-- Every write of `write_log` goes to a slot of the log. -/
theorem mem_logWrites {w : Blockno × Block} (h : w ∈ logWrites s tail bs) :
    ∃ i, tail ≤ i ∧ i < tail + bs.length ∧ w.1 = logBlock s.start i := by
  induction bs generalizing tail with
  | nil => simp [logWrites] at h
  | cons b bs ih =>
    rw [logWrites, mem_cons] at h
    rw [length_cons]
    rcases h with rfl | h
    · exact ⟨tail, Nat.le_refl _, by omega, rfl⟩
    · obtain ⟨i, h₁, h₂, h₃⟩ := ih h
      exact ⟨i, by omega, by omega, h₃⟩

theorem nodup_logWrites (h : tail + bs.length ≤ LOGBLOCKS) : ((logWrites s tail bs).map Prod.fst).Nodup := by
  induction bs generalizing tail with
  | nil => simp [logWrites]
  | cons b bs ih =>
    rw [length_cons] at h
    rw [logWrites, map_cons, nodup_cons]
    refine ⟨fun hm => ?_, ih (by omega)⟩
    obtain ⟨w, hw, e⟩ := mem_map.mp hm
    obtain ⟨i, h₁, h₂, h₃⟩ := mem_logWrites hw
    have := logBlock_inj (by omega) (by omega) (h₃.symm.trans e)
    omega

/-- Once `write_log` is done, `install_trans` writes the cached blocks home. -/
theorem installWrites_logWrites (h : ∀ w ∈ logWrites s tail bs, d w.1 = w.2) :
    installWrites s.start d tail bs = bs.map fun b => (b, bread s b) := by
  induction bs generalizing tail with
  | nil => rfl
  | cons b bs ih =>
    rw [logWrites] at h
    rw [installWrites, map_cons, h _ mem_cons_self, ih fun w hw => h w (mem_cons_of_mem _ hw)]

/-- The header that commits the transaction. -/
def commitHead (s : LogState) : Block := setHead (s.disk s.start) s.lh

/-- The disk right after the commit point. -/
def commitDisk (s : LogState) : Disk :=
  update (applyWrites s.disk (logWrites s 0 s.lh)) s.start (commitHead s)

theorem Logging.start_notMem (h : Logging s) : s.start ∉ (logWrites s 0 s.lh).map Prod.fst := fun hm => by
  have := h.room
  obtain ⟨w, hw, e⟩ := mem_map.mp hm
  obtain ⟨i, -, hi, e'⟩ := mem_logWrites hw
  exact logBlock_ne_start (by omega) (e'.symm.trans e)

theorem Logging.headBlocks_commit (h : Logging s) : headBlocks (commitDisk s s.start) = s.lh := by
  rw [commitDisk, update_self, commitHead, headBlocks_setHead _ h.room]

theorem Logging.install (h : Logging s) :
    installWrites s.start (commitDisk s) 0 s.lh = s.lh.map fun b => (b, bread s b) := by
  have hr := h.room
  refine installWrites_logWrites fun w hw => ?_
  obtain ⟨i, -, hi, e⟩ := mem_logWrites hw
  rw [commitDisk, update_of_ne (e ▸ logBlock_ne_start (by omega)), applyWrites_of_nodup (nodup_logWrites (by omega)) hw]

/-- The disk writes of `commit`. -/
def commitWrites (s : LogState) : List (Blockno × Block) :=
  logWrites s 0 s.lh ++ [(s.start, commitHead s)] ++
    (installWrites s.start (commitDisk s) 0 (headBlocks (commitDisk s s.start)) ++
      [(s.start, setHead (commitHead s) [])])

theorem commit_eq (h : Logging s) (hn : s.lh ≠ []) :
    commit s = { s with lh := [], dirty := fun _ => none }.wrote (commitWrites s) := by
  have hr := h.room
  have hpos : s.lh.length > 0 := length_pos_iff.mpr hn
  have hhead : writeHead (writeLog s) =
      s.wrote (logWrites s 0 s.lh ++ [(s.start, commitHead s)]) := by
    rw [writeLog, writeLogFrom_eq s 0 (by omega) h.home, writeHead, bwrite_eq, wrote_start,
      bread_wrote h.start_notMem, wrote_lh, wrote_wrote, bread, h.clean (start_inLog _)]
    rfl
  rw [commit, if_pos hpos]
  show writeHead { installTrans (writeHead (writeLog s)) false with lh := [] } = _
  rw [hhead]
  set W := logWrites s 0 s.lh ++ [(s.start, commitHead s)] with hW
  have hdisk : applyWrites s.disk W = commitDisk s := by rw [hW, applyWrites_append]; rfl
  have hun : unpin false s.dirty s.lh = fun _ => none := by
    funext b
    by_cases hb : b ∈ s.lh <;> simp [unpin, hb, h.pinned]
  have hinst : installTrans (s.wrote W) false =
      { s with dirty := fun _ => none }.wrote (W ++ installWrites s.start (commitDisk s) 0 s.lh) := by
    rw [installTrans, wrote_lh, installFrom_eq false (s.wrote W) 0 (by omega) h.home
      fun b hb => h.clean hb, wrote_dirty, hun, wrote_disk, wrote_start, ← hdisk]
    exact wrote_wrote { s with dirty := fun _ => none } _ _
  have hs : s.start ∉ (installWrites s.start (commitDisk s) 0 s.lh).map Prod.fst := by
    rw [map_fst_installWrites]
    exact fun hm => h.home _ hm (start_inLog _)
  have hstart : applyWrites (commitDisk s) (installWrites s.start (commitDisk s) 0 s.lh) s.start =
      commitHead s := by
    rw [applyWrites_of_notMem hs, commitDisk, update_self]
  rw [hinst, writeHead, bwrite_eq]
  simp only [bread, wrote_start, wrote_disk, wrote_dirty, getD_none]
  rw [applyWrites_append, hdisk, hstart, commitWrites, h.headBlocks_commit, ← hW, ← append_assoc,
    ← wrote_wrote _ (W ++ _)]
  simp only [LogState.wrote, applyWrites_append, hdisk]

theorem Logging.commitDisk_home (h : Logging s) (hb : ¬ InLog s.start b) : commitDisk s b = s.disk b := by
  have hr := h.room
  rw [commitDisk, update_of_ne (ne_of_notInLog hb (start_inLog _)), applyWrites_of_notMem]
  intro hm
  obtain ⟨w, hw, rfl⟩ := mem_map.mp hm
  obtain ⟨i, -, hi, e⟩ := mem_logWrites hw
  exact hb (e ▸ logBlock_inLog (by omega))

/-- At the commit point the disk stands for the transaction. -/
theorem Logging.safe_commit (h : Logging s) (ht : ∀ b, ¬ InLog s.start b → bread s b = t b) :
    Safe s.start t (commitDisk s) := by
  have hh := h.headBlocks_commit
  refine ⟨⟨hh ▸ h.room, hh ▸ h.home⟩, fun b hb => ?_⟩
  rw [logical, hh, h.install]
  by_cases hm : b ∈ s.lh
  · rw [applyWrites_of_nodup (v := bread s b), ht b hb]
    · simpa [comp_def] using h.nodup
    · exact mem_map.mpr ⟨b, hm, rfl⟩
  · rw [applyWrites_of_notMem (by simpa [comp_def] using hm), h.commitDisk_home hb, ← ht b hb,
      bread, h.pinned b hm, getD_none]

/-- Every prefix of the writes of `commit` stands for the disk before the
transaction, or, once the commit header is written, for the disk after it. -/
theorem commit_prefixes (t t' : Disk) (c : Nat) (h : Logging s) (hn : s.lh ≠ [])
    (ht : ∀ b, ¬ InLog s.start b → s.disk b = t b) (ht' : ∀ b, ¬ InLog s.start b → bread s b = t' b) :
    EveryPrefix (diskStep s.start) (fun p => (p.2 = c ∧ Safe s.start t p.1) ∨ (p.2 = c + 1 ∧ Safe s.start t' p.1))
      (s.disk, c) (commitWrites s) ∧ commits s.start (commitWrites s) = 1 := by
  have hr := h.room
  -- while the log is written, the header is clear and the home blocks are as before
  have hlog : EveryPrefix (diskStep s.start) (fun p => p.2 = c ∧ p.1 s.start = s.disk s.start ∧
      ∀ b, ¬ InLog s.start b → p.1 b = s.disk b) (s.disk, c) (logWrites s 0 s.lh) := by
    refine .of_step ⟨rfl, rfl, fun _ _ => rfl⟩ fun w hw p ⟨hc, hs, hp⟩ => ?_
    obtain ⟨i, -, hi, e⟩ := mem_logWrites hw
    have hin : InLog s.start w.1 := e ▸ logBlock_inLog (by omega)
    have hne : w.1 ≠ s.start := e ▸ logBlock_ne_start (by omega)
    refine ⟨by simp [diskStep, isCommit, hne, hc], ?_, fun b hb => ?_⟩
    · simp only [diskStep, update_of_ne hne.symm, hs]
    · simp only [diskStep, update_of_ne (ne_of_notInLog hb hin), hp b hb]
  have hsafe : ∀ p : Disk × Nat, p.2 = c ∧ p.1 s.start = s.disk s.start ∧
      (∀ b, ¬ InLog s.start b → p.1 b = s.disk b) → p.2 = c ∧ Safe s.start t p.1 :=
    fun p ⟨hc, hs, hp⟩ => ⟨hc, .of_zero (hs ▸ h.clear) fun b hb => (hp b hb).trans (ht b hb)⟩
  have hcommit : isCommit s.start (s.start, commitHead s) = true := by
    have := length_pos_iff.mpr hn
    simp only [isCommit, commitHead, headN_setHead _ _ hr, beq_self_eq_true, Bool.true_and]
    simpa using hn
  have hc0 : commits s.start (logWrites s 0 s.lh) = 0 := by
    have := hlog.last.1
    rw [foldl_diskStep] at this
    simpa using this
  have hc1' : commits s.start [(s.start, commitHead s)] = 1 := by simp [commits, hcommit]
  have hinst := install_prefixes (c + 1) (h.safe_commit ht') (commitHead s)
  have hc1 := hinst.last.1
  rw [foldl_diskStep] at hc1
  refine ⟨.append (.append (hlog.mono fun p hp => .inl (hsafe p hp)) (.single ?_ ?_)) ?_, ?_⟩
  · exact .inl (hsafe _ hlog.last)
  · rw [foldl_diskStep, hc0]
    refine .inr ⟨by simp [diskStep, hcommit], ?_⟩
    exact h.safe_commit ht'
  · rw [foldl_diskStep, commits_append, hc0, hc1', Nat.zero_add, applyWrites_append]
    exact hinst.mono fun p hp => .inr hp
  · rw [commitWrites, commits_append, commits_append, hc0, hc1']
    omega

/-! ## Transactions -/

theorem logWrite_some {data : Block} (h : logWrite s b data = some s') : s.lh.length < LOGBLOCKS ∧
      s' = { s with dirty := update s.dirty b (some data),
                    lh := if b ∈ s.lh then s.lh else s.lh ++ [b] } := by
  rw [logWrite] at h
  split at h
  · cases h
  · split at h
    · cases h
    · refine ⟨by omega, ?_⟩
      by_cases hb : b ∈ s.lh
      · have hi := idxOf_lt_length_iff.mpr hb
        have hset : s.lh.set (s.lh.idxOf b) b = s.lh := by
          apply ext_getElem (by simp)
          intro i h₁ h₂
          rw [getElem_set]
          split
          · rename_i e; subst e; rw [getElem_idxOf]
          · rfl
        simp only [Nat.ne_of_lt hi, if_false, hset, some.injEq] at h
        rw [← h, if_pos hb]
      · simp only [idxOf_eq_length_iff.mpr hb, if_true, some.injEq] at h
        rw [← h, if_neg hb]

/-- Inside a group: what was logged is what `bread` returns. -/
structure InTx (s₀ : LogState) (tx : Tx) (s : LogState) : Prop extends Logging s where
  start : s.start = s₀.start
  disk : s.disk = s₀.disk
  trace : s.trace = s₀.trace
  outstanding : s.outstanding = 1
  committing : s.committing = false
  data : ∀ b, bread s b = applyWrites s₀.disk tx b
  mem : ∀ b, b ∈ s.lh ↔ b ∈ tx.map Prod.fst

theorem InTx.nil (h : InTx s₀ tx s) : s.lh = [] ↔ tx = [] := by
  simp only [eq_nil_iff_forall_not_mem, h.mem]
  simp only [← eq_nil_iff_forall_not_mem, map_eq_nil_iff]

/-- How many blocks a transaction logs. -/
def distinct (tx : Tx) : Nat := (tx.map Prod.fst).dedup.length

theorem InTx.length (h : InTx s₀ tx s) : s.lh.length = distinct tx :=
  ((perm_ext_iff_of_nodup h.nodup (nodup_dedup _)).mpr fun b => by
    rw [h.mem, mem_dedup]).length_eq

theorem InTx.logWrite {data : Block} (h : InTx s₀ tx s) (hb : ¬ InLog s₀.start b) (hs : logWrite s b data = some s') :
    InTx s₀ (tx ++ [(b, data)]) s' := by
  obtain ⟨hlt, rfl⟩ := logWrite_some hs
  have hmem : ∀ x, (x ∈ if b ∈ s.lh then s.lh else s.lh ++ [b]) ↔ x = b ∨ x ∈ s.lh := by
    intro x
    split
    · rename_i hin
      exact ⟨.inr, fun h => h.elim (fun e => e ▸ hin) id⟩
    · simp [or_comm]
  exact {
    clear := h.clear
    room := by
      show (if b ∈ s.lh then s.lh else s.lh ++ [b]).length ≤ LOGBLOCKS
      split
      · exact h.room
      · rw [length_append, length_singleton]; exact hlt
    nodup := by
      show (if b ∈ s.lh then s.lh else s.lh ++ [b]).Nodup
      split
      · exact h.nodup
      · rename_i hin
        exact nodup_append.mpr ⟨h.nodup, by simp, fun x hx y hy e => by
          rw [mem_singleton] at hy; exact hin (hy ▸ e ▸ hx)⟩
    home := fun x hx => by
      rcases (hmem x).mp hx with rfl | hx
      · exact h.start ▸ hb
      · exact h.home x hx
    pinned := fun x hx => by
      have hx := not_or.mp (mt (hmem x).mpr hx)
      show update s.dirty b (some data) x = none
      rw [update_of_ne hx.1, h.pinned x hx.2]
    start := h.start
    disk := h.disk
    trace := h.trace
    outstanding := h.outstanding
    committing := h.committing
    data := fun x => by
      rw [applyWrites_append, applyWrites_cons, applyWrites_nil]
      show (update s.dirty b (some data) x).getD (s.disk x) = _
      by_cases e : x = b
      · rw [e, update_self, update_self, getD_some]
      · rw [update_of_ne e, update_of_ne e]; exact h.data x
    mem := fun x => by
      rw [show (_ ∈ LogState.lh _) = _ from rfl, hmem x, h.mem]
      simp [or_comm] }

theorem InTx.logWrites {ws : Tx} (h : InTx s₀ tx s) (hb : ∀ w ∈ ws, ¬ InLog s₀.start w.1)
    (hs : ws.foldlM (fun s w => Log.logWrite s w.1 w.2) s = some s') : InTx s₀ (tx ++ ws) s' := by
  induction ws generalizing tx s with
  | nil =>
    cases hs
    simpa using h
  | cons w ws ih =>
    rw [foldlM_cons, bind_eq_bind, bind_eq_some_iff] at hs
    obtain ⟨s₁, h₁, h₂⟩ := hs
    have := ih (h.logWrite (hb w mem_cons_self) h₁) (fun w' h' => hb w' (mem_cons_of_mem _ h')) h₂
    rwa [append_assoc, singleton_append] at this

/-- `log_write` does not panic while fewer than `LOGBLOCKS` blocks are logged. -/
theorem InTx.logWrites_isSome {ws : Tx} (h : InTx s₀ tx s) (hb : ∀ w ∈ ws, ¬ InLog s₀.start w.1)
    (hr : distinct (tx ++ ws.dropLast) < LOGBLOCKS) : ∃ s', ws.foldlM (fun s w => Log.logWrite s w.1 w.2) s = some s' := by
  induction ws generalizing tx s with
  | nil => exact ⟨s, rfl⟩
  | cons w ws ih =>
    have hlt : s.lh.length < LOGBLOCKS := by
      refine Nat.lt_of_le_of_lt ?_ hr
      rw [h.length, distinct, distinct, map_append]
      exact (subperm_of_subset (nodup_dedup _) fun x hx => mem_dedup.mpr
        (mem_append_left _ (mem_dedup.mp hx))).length_le
    obtain ⟨s₁, h₁⟩ : ∃ s₁, Log.logWrite s w.1 w.2 = some s₁ := by
      rw [Log.logWrite, if_neg (by omega), if_neg (by rw [h.outstanding]; omega)]
      dsimp only
      split <;> exact ⟨_, rfl⟩
    rw [foldlM_cons, h₁, bind_eq_bind, bind_some]
    cases ws with
    | nil => exact ⟨s₁, rfl⟩
    | cons w' ws =>
      refine ih (h.logWrite (hb w mem_cons_self) h₁) (fun w' h' => hb w' (mem_cons_of_mem _ h')) ?_
      rwa [append_assoc, singleton_append]

/-- The log between transactions. -/
structure Idle (s : LogState) : Prop where
  clear : headN (s.disk s.start) = 0
  lh : s.lh = []
  dirty : s.dirty = fun _ => none
  outstanding : s.outstanding = 0
  committing : s.committing = false

theorem idle_boot (h : headN (d start) = 0) : Idle (boot start d) :=
  ⟨h, rfl, rfl, rfl, rfl⟩

theorem Idle.beginOp (h : Idle s) (hs : beginOp s = some s') : InTx s [] s' := by
  simp only [Log.beginOp, h.committing, h.lh, h.outstanding, Bool.false_eq_true, if_false] at hs
  cases hs
  exact { clear := h.clear, room := by simp, nodup := by simp, home := by simp,
          pinned := fun b _ => by rw [h.dirty], start := rfl, disk := rfl, trace := rfl, outstanding := rfl,
          committing := rfl, data := fun b => by simp [bread, h.dirty], mem := by simp }

/-- A transaction writes to the disk a list all of whose prefixes stand for the
disk before it or, after the commit header, for the disk after it. -/
theorem runTx_prefixes (c : Nat) (hi : Idle s) (hout : ∀ w ∈ tx, ¬ InLog s.start w.1)
    (ht : ∀ b, ¬ InLog s.start b → s.disk b = t b) (h : runTx s tx = some s') :
    Idle s' ∧ s'.start = s.start ∧ (∀ b, ¬ InLog s.start b → s'.disk b = applyWrites t tx b) ∧
      ∃ ws, s'.trace = s.trace ++ ws ∧ s'.disk = applyWrites s.disk ws ∧ commits s.start ws = (if tx = [] then 0 else 1) ∧
        EveryPrefix (diskStep s.start) (fun p => (p.2 = c ∧ Safe s.start t p.1) ∨
          (tx ≠ [] ∧ p.2 = c + 1 ∧ Safe s.start (applyWrites t tx) p.1)) (s.disk, c) ws := by
  simp only [runTx, bind_eq_bind, bind_eq_some_iff] at h
  obtain ⟨s₁, h₁, s₂, h₂, h₃⟩ := h
  have hg : InTx s tx s₂ := by simpa using (hi.beginOp h₁).logWrites hout h₂
  simp only [endOp, hg.committing, hg.outstanding, Bool.false_eq_true, if_false, Nat.sub_self,
    if_true, some.injEq] at h₃
  have hdata : ∀ b, ¬ InLog s.start b → bread s₂ b = applyWrites t tx b := fun b hb => by
    rw [hg.data b]; exact applyWrites_congr tx (ht b hb)
  by_cases hn : s₂.lh = []
  · -- nothing was logged, and `commit` does nothing
    have htx := hg.nil.mp hn
    rw [commit, if_neg (by simp [hn])] at h₃
    subst h₃ htx
    refine ⟨⟨hg.clear, hn, ?_, rfl, rfl⟩, hg.start, fun b hb => ?_, [], by simp [hg.trace], hg.disk, rfl, ?_⟩
    · funext b; exact hg.pinned b (by simp [hn])
    · show s₂.disk b = _
      rw [hg.disk]; exact ht b hb
    · exact fun k => .inl ⟨by simp, by simpa using .of_zero hi.clear ht⟩
  · have htx : tx ≠ [] := mt hg.nil.mpr hn
    set s₃ : LogState := { s₂ with outstanding := 0, committing := true }
    have hl : Logging s₃ := { hg with }
    have hs : s₃.start = s.start := hg.start
    have hd : s₃.disk = s.disk := hg.disk
    obtain ⟨hp, hc⟩ := commit_prefixes t (applyWrites t tx) c hl hn
      (by rw [hs, hd]; exact ht) (by rw [hs]; exact hdata)
    have hz : headN (applyWrites s₃.disk (commitWrites s₃) s₃.start) = 0 := by
      rw [commitWrites, ← append_assoc, applyWrites_append, applyWrites_cons, applyWrites_nil, update_self]
      exact headN_setHead _ [] (Nat.zero_le _)
    rw [hs] at hp hc hz
    rw [hd] at hp hz
    rw [commit_eq hl hn] at h₃
    subst h₃
    refine ⟨⟨?_, rfl, rfl, rfl, rfl⟩, hs, fun b hb => ?_, commitWrites s₃, ?_, ?_, ?_, ?_⟩
    · show headN (applyWrites s₃.disk (commitWrites s₃) s₃.start) = 0
      rw [hd, hs]; exact hz
    · show applyWrites s₃.disk (commitWrites s₃) b = _
      rcases hp.last with ⟨hc', -⟩ | ⟨-, hsafe⟩
      · rw [foldl_diskStep, hc] at hc'; simp at hc'
      · rw [foldl_diskStep] at hsafe
        rw [hd]; exact hsafe.home hz hb
    · show s₂.trace ++ _ = _
      rw [hg.trace]
    · show applyWrites s₃.disk _ = _
      rw [hd]
    · rw [hc, if_neg htx]
    · exact hp.mono fun p hp => hp.imp id fun h => ⟨htx, h⟩

/-- The disk after transactions that are applied in full. -/
def applyTxs (d : Disk) (txs : List Tx) : Disk := txs.foldl applyWrites d

/-- How many transactions log anything. -/
def logged (txs : List Tx) : Nat := txs.countP (· ≠ [])

theorem runTxs_prefixes {txs : List Tx} (c : Nat) (hi : Idle s) (hout : ∀ tx ∈ txs, ∀ w ∈ tx, ¬ InLog s.start w.1)
    (ht : ∀ b, ¬ InLog s.start b → s.disk b = t b) : ∃ ws, (runTxs s txs).trace = s.trace ++ ws ∧
      EveryPrefix (diskStep s.start) (fun p => ∃ m ≤ txs.length, p.2 = c + logged (txs.take m) ∧
        Safe s.start (applyTxs t (txs.take m)) p.1) (s.disk, c) ws := by
  induction txs generalizing s t c with
  | nil =>
    exact ⟨[], by simp [runTxs], fun k => ⟨0, Nat.le_refl _, by simp [logged], by simpa using .of_zero hi.clear ht⟩⟩
  | cons tx txs ih =>
    rw [runTxs]
    split
    · rename_i s' hrun
      obtain ⟨hi', hs', hd', ws, htr, hdisk, hc, hp⟩ :=
        runTx_prefixes c hi (hout tx mem_cons_self) ht hrun
      obtain ⟨ws', htr', hp'⟩ := ih (c + commits s.start ws) hi'
        (fun tx' h' => hs' ▸ hout tx' (mem_cons_of_mem _ h')) (hs' ▸ hd')
      rw [hs'] at hp'
      refine ⟨ws ++ ws', by rw [htr', htr, append_assoc], .append (hp.mono ?_) ?_⟩
      · rintro p (⟨hc', hsafe⟩ | ⟨htx, hc', hsafe⟩)
        · exact ⟨0, Nat.zero_le _, by simpa [logged] using hc', hsafe⟩
        · exact ⟨1, by simp, by simpa [logged, htx] using hc', hsafe⟩
      · rw [foldl_diskStep, ← hdisk]
        refine hp'.mono fun p ⟨m, hm, hpc, hsafe⟩ => ⟨m + 1, by simpa using hm, ?_, hsafe⟩
        rw [hpc, hc, take_succ_cons, logged, logged, countP_cons]
        by_cases htx : tx = [] <;> simp [htx]; omega
    · exact ⟨[], by simp, fun k => ⟨0, Nat.zero_le _, by simp [logged], by simpa using .of_zero hi.clear ht⟩⟩

/-- A transaction is run if each of its `log_write` calls finds a free slot. -/
theorem runTx_isSome (hi : Idle s) (hout : ∀ w ∈ tx, ¬ InLog s.start w.1) (hr : distinct tx.dropLast < LOGBLOCKS) :
    ∃ s', runTx s tx = some s' := by
  obtain ⟨s₁, h₁⟩ : ∃ s₁, beginOp s = some s₁ := by
    rw [beginOp, hi.committing, hi.lh, hi.outstanding]
    exact ⟨_, rfl⟩
  have hb := hi.beginOp h₁
  obtain ⟨s₂, h₂⟩ := hb.logWrites_isSome hout (by simpa using hr)
  have hg := hb.logWrites hout h₂
  simp only [runTx, h₁, h₂, bind_eq_bind, bind_some, endOp, hg.committing,
    hg.outstanding, Bool.false_eq_true, if_false, Nat.sub_self, if_true]
  exact ⟨_, rfl⟩

/-- A run that is not stopped commits every transaction that logs anything. -/
theorem runTxs_commits {txs : List Tx} (hi : Idle s) (hout : ∀ tx ∈ txs, ∀ w ∈ tx, ¬ InLog s.start w.1)
    (hr : ∀ tx ∈ txs, distinct tx.dropLast < LOGBLOCKS) :
    commits s.start (runTxs s txs).trace = commits s.start s.trace + logged txs := by
  induction txs generalizing s with
  | nil => rfl
  | cons tx txs ih =>
    obtain ⟨s', hrun⟩ := runTx_isSome hi (hout tx mem_cons_self) (hr tx mem_cons_self)
    obtain ⟨hi', hs', -, ws, htr, -, hc, -⟩ :=
      runTx_prefixes 0 hi (hout tx mem_cons_self) (fun _ _ => rfl) hrun
    have := ih hi' (fun tx' h' => hs' ▸ hout tx' (mem_cons_of_mem _ h'))
      fun tx' h' => hr tx' (mem_cons_of_mem _ h')
    rw [hs'] at this
    rw [runTxs, hrun]
    dsimp only
    rw [this, htr, commits_append, hc, logged, logged, countP_cons]
    by_cases htx : tx = [] <;> simp [htx]; omega

/-! ## Crashes -/

/-- Disks that runs of recovery, each stopped after some of its writes, lead to. -/
inductive Recovering (start : Blockno) (d : Disk) : Disk → Prop
  | refl : Recovering start d d
  | crash {d' : Disk} (k : Nat) : Recovering start d d' →
      Recovering start d (applyWrites d' ((recoverFromLog start d').trace.take k))

theorem Safe.recovering {d' : Disk} (h : Safe start t d) (hr : Recovering start d d') : Safe start t d' := by
  induction hr with
  | refl => exact h
  | crash k _ ih => exact recover_prefixes ih k

/-- A crash after any of the disk writes of a run of transactions, then any
number of unfinished recoveries and a finished one: outside the log the disk
holds exactly the transactions of a prefix, those whose commit header reached
the disk, each with the last data logged for each block, and the log is clear.
The whole run commits every transaction, if each finds room in the log. -/
theorem crash_recovers_committed {start : Blockno} {d₀ d : Disk} {txs : List Tx} {k : Nat}
    (hclear : headN (d₀ start) = 0) (hout : ∀ tx ∈ txs, ∀ w ∈ tx, ¬ InLog start w.1)
    (hrec : Recovering start (applyWrites d₀ ((runTxs (boot start d₀) txs).trace.take k)) d) :
    (∃ m ≤ txs.length,
      logged (txs.take m) = commits start ((runTxs (boot start d₀) txs).trace.take k) ∧
      ∀ b, ¬ InLog start b → (recoverFromLog start d).disk b = applyTxs d₀ (txs.take m) b) ∧
    headN ((recoverFromLog start d).disk start) = 0 ∧
    ((∀ tx ∈ txs, distinct tx.dropLast < LOGBLOCKS) →
      commits start (runTxs (boot start d₀) txs).trace = logged txs) := by
  obtain ⟨ws, htr, hp⟩ := runTxs_prefixes (t := d₀) 0 (idle_boot hclear) hout fun _ _ => rfl
  rw [show (boot start d₀).trace = [] from rfl, List.nil_append] at htr
  obtain ⟨m, hm, hc, hsafe⟩ := hp k
  rw [show (boot start d₀).start = start from rfl, show (boot start d₀).disk = d₀ from rfl,
    foldl_diskStep, ← htr] at hc hsafe
  have hs := hsafe.recovering hrec
  refine ⟨⟨m, hm, by omega, fun b hb => recover_home hs hb⟩, recover_headN hs.1, fun hr => ?_⟩
  exact (runTxs_commits (idle_boot hclear) hout hr).trans (Nat.zero_add _)

instance (start b : Blockno) : Decidable (InLog start b) :=
  inferInstanceAs (Decidable (∃ i ≤ LOGBLOCKS, b = start + BitVec.ofNat 32 i))

/-- A transaction of two blocks, one of them logged twice. -/
def twoBlocks : List Tx := [[(50, fun _ => 7), (51, fun _ => 8), (50, fun _ => 9)]]

theorem notInLog_of_lt (h : start.toNat + LOGBLOCKS < b.toNat) : ¬ InLog start b := by
  rintro ⟨i, hi, rfl⟩
  rw [BitVec.toNat_add, BitVec.toNat_ofNat] at h
  have := Nat.mod_le (start.toNat + i % 2 ^ 32) (2 ^ 32)
  have := Nat.mod_le i (2 ^ 32)
  omega

theorem twoBlocks_notInLog : ∀ tx ∈ twoBlocks, ∀ w ∈ tx, ¬ InLog 2 w.1 := by
  intro tx htx w hw
  rw [mem_singleton.1 htx] at hw
  simp only [mem_cons, not_mem_nil, or_false] at hw
  rcases hw with rfl | rfl | rfl <;> exact notInLog_of_lt (by decide)

/-- The disk after a crash right after the header write of `twoBlocks`, and
another after recovery has installed one of its blocks. -/
def twoBlocksDisk : Disk :=
  let d := applyWrites (fun _ _ => 0) ((runTxs (boot 2 fun _ _ => 0) twoBlocks).trace.take 3)
  applyWrites d ((recoverFromLog 2 d).trace.take 1)

theorem crash_recovers_twoBlocks :
    (∃ m ≤ 1, logged (twoBlocks.take m) =
        commits 2 ((runTxs (boot 2 fun _ _ => 0) twoBlocks).trace.take 3) ∧
      ∀ b, ¬ InLog 2 b →
        (recoverFromLog 2 twoBlocksDisk).disk b = applyTxs (fun _ _ => 0) (twoBlocks.take m) b) ∧
    headN ((recoverFromLog 2 twoBlocksDisk).disk 2) = 0 ∧
    ((∀ tx ∈ twoBlocks, distinct tx.dropLast < LOGBLOCKS) →
      commits 2 (runTxs (boot 2 fun _ _ => 0) twoBlocks).trace = logged twoBlocks) :=
  have hrec : Recovering 2 (applyWrites (fun _ _ => 0)
      ((runTxs (boot 2 fun _ _ => 0) twoBlocks).trace.take 3)) twoBlocksDisk := .crash 1 .refl
  crash_recovers_committed (by rfl) twoBlocks_notInLog hrec

end Xv6.Log
