import Xv6.Log.Model

/-!
# What commit and recovery write

The block numbers of the log area (`InLog`) are distinct, a header block reads
back as it was written (`headBlocks_setHead`), and the loops of `write_log` and
`install_trans` write the lists `logWrites` and `installWrites`
(`writeLogFrom_eq`, `installFrom_eq`).
-/

namespace Xv6.Log

open Function List

/-- The blocks of the log: its header and `LOGBLOCKS` slots. -/
def InLog (start b : Blockno) : Prop := ∃ i ≤ LOGBLOCKS, b = start + BitVec.ofNat 32 i

theorem logBlock_eq (start : Blockno) (i : Nat) : logBlock start i = start + BitVec.ofNat 32 (i + 1) := by
  rw [logBlock, BitVec.ofNat_add, BitVec.add_assoc]
  rfl

theorem start_inLog (start : Blockno) : InLog start start := ⟨0, Nat.zero_le _, by simp⟩

variable {start : Blockno} {i : Nat} {bs : List Blockno}

theorem logBlock_inLog (h : i < LOGBLOCKS) : InLog start (logBlock start i) := ⟨i + 1, h, logBlock_eq start i⟩

theorem add_ofNat_inj {j : Nat} (hi : i ≤ LOGBLOCKS) (hj : j ≤ LOGBLOCKS)
    (h : start + BitVec.ofNat 32 i = start + BitVec.ofNat 32 j) : i = j := by
  have e := congrArg BitVec.toNat (BitVec.add_right_inj start |>.mp h)
  simp only [LOGBLOCKS, MAXOPBLOCKS] at hi hj
  rwa [BitVec.toNat_ofNat, BitVec.toNat_ofNat, Nat.mod_eq_of_lt (by omega), Nat.mod_eq_of_lt (by omega)] at e

theorem logBlock_ne_start (h : i < LOGBLOCKS) : logBlock start i ≠ start := by
  intro e
  rw [logBlock_eq] at e
  have := add_ofNat_inj (j := 0) h (Nat.zero_le _) (e.trans (by simp))
  omega

theorem logBlock_inj {j : Nat} (hi : i < LOGBLOCKS) (hj : j < LOGBLOCKS) (h : logBlock start i = logBlock start j) :
    i = j := by
  rw [logBlock_eq, logBlock_eq] at h
  have := add_ofNat_inj hi hj h
  omega

/-! ## The header -/

theorem headN_setHead (hb : Block) (lh : List Blockno) (h : lh.length ≤ LOGBLOCKS) : headN (setHead hb lh) = lh.length := by
  simp only [LOGBLOCKS, MAXOPBLOCKS] at h
  simp only [headN, setHead, Fin.val_zero, ↓reduceIte]
  rw [BitVec.toInt_eq_toNat_of_lt (by rw [BitVec.toNat_ofNat]; omega), BitVec.toNat_ofNat, Nat.mod_eq_of_lt (by omega)]

theorem headBlocks_setHead (hb : Block) {lh : List Blockno} (h : lh.length ≤ LOGBLOCKS) :
    headBlocks (setHead hb lh) = lh := by
  have hl : lh.length ≤ 30 := h
  apply ext_getElem
  · simp [headBlocks, headN_setHead hb lh h]
  · intro i h₁ h₂
    have hv : (Fin.ofNat 256 (i + 1)).val = i + 1 := Nat.mod_eq_of_lt (by omega)
    simp only [headBlocks, getElem_map, getElem_range, setHead, hv]
    simp [h₂]

theorem headBlocks_of_zero {hb : Block} (h : headN hb = 0) : headBlocks hb = [] := by
  simp [headBlocks, h]

/-! ## The loops -/

/-- The writes of `write_log` from slot `tail` on. -/
def logWrites (s : LogState) (tail : Nat) : List Blockno → List (Blockno × Block)
  | [] => []
  | b :: bs => (logBlock s.start tail, bread s b) :: logWrites s (tail + 1) bs

/-- The writes of `install_trans` from slot `tail` on, when the disk is `d`. -/
def installWrites (start : Blockno) (d : Disk) (tail : Nat) : List Blockno → List (Blockno × Block)
  | [] => []
  | b :: bs => (b, d (logBlock start tail)) :: installWrites start d (tail + 1) bs

/-- The state after disk writes. -/
def LogState.wrote (s : LogState) (ws : List (Blockno × Block)) : LogState :=
  { s with disk := applyWrites s.disk ws, trace := s.trace ++ ws }

theorem bwrite_eq (s : LogState) (b : Blockno) (data : Block) : bwrite s b data = s.wrote [(b, data)] := rfl

theorem wrote_wrote (s : LogState) (us ws : List (Blockno × Block)) : (s.wrote us).wrote ws = s.wrote (us ++ ws) := by
  simp only [LogState.wrote, applyWrites_append, append_assoc]

@[simp] theorem wrote_nil (s : LogState) : s.wrote [] = s := by
  simp only [LogState.wrote, applyWrites_nil, append_nil]

@[simp] theorem wrote_start (s : LogState) (ws : List (Blockno × Block)) : (s.wrote ws).start = s.start := rfl
@[simp] theorem wrote_lh (s : LogState) (ws : List (Blockno × Block)) : (s.wrote ws).lh = s.lh := rfl
@[simp] theorem wrote_dirty (s : LogState) (ws : List (Blockno × Block)) : (s.wrote ws).dirty = s.dirty := rfl
@[simp] theorem wrote_disk (s : LogState) (ws : List (Blockno × Block)) : (s.wrote ws).disk = applyWrites s.disk ws := rfl

theorem bread_wrote {s : LogState} {ws : List (Blockno × Block)} {b : Blockno}
    (h : b ∉ ws.map Prod.fst) : bread (s.wrote ws) b = bread s b := by
  simp only [bread, wrote_dirty, wrote_disk, applyWrites_of_notMem h]

theorem logWrites_congr {s s' : LogState} (hs : s'.start = s.start) (tail : Nat) (h : ∀ b ∈ bs, bread s' b = bread s b) :
    logWrites s' tail bs = logWrites s tail bs := by
  induction bs generalizing tail with
  | nil => rfl
  | cons b bs ih =>
    rw [logWrites, logWrites, hs, h b mem_cons_self, ih _ fun b' h' => h b' (mem_cons_of_mem _ h')]

theorem writeLogFrom_eq (s : LogState) (tail : Nat) (ht : tail + bs.length ≤ LOGBLOCKS)
    (hb : ∀ b ∈ bs, ¬ InLog s.start b) : writeLogFrom s tail bs = s.wrote (logWrites s tail bs) := by
  induction bs generalizing s tail with
  | nil => simp [writeLogFrom, logWrites]
  | cons b bs ih =>
    rw [length_cons] at ht
    have hin : InLog s.start (logBlock s.start tail) := logBlock_inLog (by omega)
    have hr : ∀ b' ∈ bs, bread (s.wrote [(logBlock s.start tail, bread s b)]) b' = bread s b' := by
      intro b' h'
      refine bread_wrote fun hm => hb b' (mem_cons_of_mem _ h') ?_
      rw [map_singleton, mem_singleton] at hm
      exact hm ▸ hin
    have hl : logWrites (s.wrote [(logBlock s.start tail, bread s b)]) (tail + 1) bs =
        logWrites s (tail + 1) bs := logWrites_congr (wrote_start s _) (tail + 1) hr
    rw [writeLogFrom, bwrite_eq, ih (s.wrote _) (tail + 1) (by omega)
      fun b' h' => hb b' (mem_cons_of_mem _ h'), wrote_wrote, hl]
    rfl

theorem map_fst_installWrites (start : Blockno) (d : Disk) (tail : Nat) (bs : List Blockno) :
    (installWrites start d tail bs).map Prod.fst = bs := by
  induction bs generalizing tail with
  | nil => rfl
  | cons b bs ih => rw [installWrites, map_cons, ih]

theorem installWrites_congr {d d' : Disk} {tail : Nat}
    (h : ∀ i, tail ≤ i → i < tail + bs.length → d' (logBlock start i) = d (logBlock start i)) :
    installWrites start d' tail bs = installWrites start d tail bs := by
  induction bs generalizing tail with
  | nil => rfl
  | cons b bs ih =>
    rw [length_cons] at h
    rw [installWrites, installWrites, h tail (Nat.le_refl _) (by omega), ih fun i h₁ h₂ => h i (by omega) (by omega)]

/-- Unpinning: `install_trans` while not recovering. -/
def unpin (recovering : Bool) (dirty : Blockno → Option Block) (bs : List Blockno) :
    Blockno → Option Block :=
  if recovering then dirty else fun b => if b ∈ bs then none else dirty b

theorem installFrom_eq (recovering : Bool) (s : LogState) (tail : Nat) (ht : tail + bs.length ≤ LOGBLOCKS)
    (hb : ∀ b ∈ bs, ¬ InLog s.start b) (hd : ∀ b, InLog s.start b → s.dirty b = none) : installFrom recovering s tail bs =
      { s with dirty := unpin recovering s.dirty bs }.wrote (installWrites s.start s.disk tail bs) := by
  induction bs generalizing s tail with
  | nil => cases recovering <;> simp [installFrom, installWrites, unpin]
  | cons b bs ih =>
    rw [length_cons] at ht
    have hlog : ∀ i, i < LOGBLOCKS → logBlock s.start i ≠ b := fun i hi e =>
      hb b mem_cons_self (e ▸ logBlock_inLog hi)
    have hr : bread s (logBlock s.start tail) = s.disk (logBlock s.start tail) := by
      rw [bread, hd _ (logBlock_inLog (by omega)), Option.getD_none]
    have hi : installWrites s.start (update s.disk b (s.disk (logBlock s.start tail))) (tail + 1) bs =
        installWrites s.start s.disk (tail + 1) bs :=
      installWrites_congr fun i h₁ h₂ => update_of_ne (hlog i (by omega)) ..
    have hb' : ∀ b' ∈ bs, ¬ InLog s.start b' := fun b' h' => hb b' (mem_cons_of_mem _ h')
    simp only [installFrom, hr, bwrite_eq]
    cases recovering with
    | true =>
      rw [if_pos rfl, ih (s.wrote _) (tail + 1) (by omega) hb' hd]
      simp only [LogState.wrote, applyWrites_cons, applyWrites_nil, hi, unpin, installWrites,
        append_assoc, singleton_append, if_true]
    | false =>
      rw [if_neg (by decide), ih (bunpin (s.wrote _) b) (tail + 1) (by omega) hb' ?_]
      · have e : unpin false (update s.dirty b none) bs = unpin false s.dirty (b :: bs) := by
          funext b'
          by_cases hm : b' ∈ bs <;> by_cases e : b' = b <;> simp [unpin, hm, e]
        simp only [bunpin, LogState.wrote, applyWrites_cons, applyWrites_nil, hi, e, installWrites,
          append_assoc, singleton_append]
      · intro b' h'
        simp only [bunpin, wrote_start, wrote_dirty] at h' ⊢
        by_cases e : b' = b
        · rw [e, update_self]
        · rw [update_of_ne e]; exact hd b' h'

end Xv6.Log
