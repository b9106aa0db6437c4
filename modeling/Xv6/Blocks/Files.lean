import Xv6.Blocks.Calls

/-!
# Inodes as byte lists

The content of an inode is the list of its bytes below its size. `readi`, `writei` and `itrunc` act
on it as reading, overwriting and emptying a list (`Op.spec`), and leave the lists of the other inodes
alone: `inode_content`.
-/

namespace Xv6.Blocks

open Function List

variable {fs fs' : Fs} {inum : Nat} {ip : Dinode}

/-- The list with `data` in place of its bytes from `off` on, longer if need be. -/
def splice (c : List (BitVec 8)) (off : Nat) (data : List (BitVec 8)) : List (BitVec 8) :=
  c.take off ++ data ++ c.drop (off + data.length)

/-- At the end of the list, the data is appended. -/
theorem splice_length (c data : List (BitVec 8)) : splice c c.length data = c ++ data := by
  rw [splice, take_length, drop_eq_nil_of_le (Nat.le_add_right _ _), append_nil]

variable {off tot : Nat} {n : BitVec 32} {src : Src}

theorem content_splice {val : Nat → BitVec 8} (hoff : off ≤ (cur fs inum).size.toNat)
    (hsize : (cur fs' inum).size.toNat = max (cur fs inum).size.toNat (off + tot))
    (hin : ∀ k, off ≤ k → k < off + tot → byteAt fs' inum k = val (k - off))
    (hout : ∀ k, k < (cur fs inum).size.toNat → ¬(off ≤ k ∧ k < off + tot) → byteAt fs' inum k = byteAt fs inum k) :
    content fs' inum = splice (content fs inum) off ((range tot).map val) := by
  refine ext_getElem ?_ fun k hk hk' => ?_
  · simp [splice, hsize]
    omega
  · have hlen : k < (cur fs' inum).size.toNat := by
      rwa [length_content] at hk
    simp only [splice, content, getElem_append, getElem_map, getElem_range, length_append,
      length_take, length_map, length_range, getElem_take, getElem_drop]
    split
    · split
      · exact hout k (by omega) (by omega)
      · rw [hin k (by omega) (by omega)]
        congr 1
        omega
    · rw [hout k (by omega) (by omega)]
      congr 1
      omega

theorem content_congr {i : Nat} (hsize : (cur fs' i).size = (cur fs i).size)
    (hb : ∀ k, byteAt fs' i k = byteAt fs i k) : content fs' i = content fs i := by
  rw [content, content, hsize]
  exact map_congr_left fun k _ => hb k

/-- The same inodes are locked. -/
def SameLocks (fs fs' : Fs) : Prop := ∀ i, ((fs'.itable i).inode).isSome = ((fs.itable i).inode).isSome

/-! ## `writei` -/

/-- What `writei` does to the bytes: it wrote the first `tot` of them. -/
structure Writes (inum : Nat) (src : Src) (off tot : Nat) (fs fs' : Fs) : Prop where
  content : content fs' = update (content fs) inum
    (splice (content fs inum) off ((List.range tot).map src.byte))
  locks : SameLocks fs fs'

/-- Of the blocks of the files, also past their sizes, no other bytes have changed; new blocks are all
zeroes. -/
def Untouched (inum off tot : Nat) (fs fs' : Fs) : Prop :=
  ∀ i k, addrOf fs' (slotAt i (k / BSIZE)) ≠ 0 → ¬(i = inum ∧ off ≤ k ∧ k < off + tot) →
    byteAt fs' i k = storedAt fs i k

section

variable {fs₁ : Fs} {e m : Nat} (hw : Written inum ip src off m fs e tot fs₁ fs')
include hw

theorem Written.byteAt (i k : Nat) : byteAt fs' i k = Blocks.byteAt fs₁ i k := by
  rw [Blocks.byteAt, Blocks.byteAt, hw.addr, hw.data]

/-- The bytes past `tot` that have been copied were there before. -/
theorem Written.wrote (hsame : ∀ k, tot ≤ k → k < e → src.byte k = storedAt fs inum (off + k)) :
    Wrote inum off (off + tot) (fun k => src.byte (k - off)) fs fs₁ := by
  refine hw.loop.wrote.shrink ?_ fun k hk hk' => ?_
  · rcases hw.loop.torn with he | ⟨he, -⟩
    · exact (congrArg _ he).ge
    · exact Nat.add_le_add_left he.le _
  · rw [hsame (k - off) (by omega) (by omega), Nat.add_sub_cancel' (by omega)]

theorem Written.untouched (hsame : ∀ k, tot ≤ k → k < e → src.byte k = storedAt fs inum (off + k)) :
    Untouched inum off tot fs fs' := by
  intro i k hk hne
  rw [hw.addr] at hk
  rw [hw.byteAt]
  by_cases hi : i = inum
  · subst hi
    exact (hw.wrote hsame).outside k hk fun h => hne ⟨rfl, h⟩
  · rw [hw.loop.wrote.other i k hi, storedAt, if_neg]
    rwa [hw.loop.wrote.grown.others.addr _ (by rwa [slotAt_inum])] at hk

theorem Written.writes (h : Own none fs) (hi : fs.Has inum ip)
    (hsame : ∀ k, tot ≤ k → k < e → src.byte k = storedAt fs inum (off + k)) : Writes inum src off tot fs fs' := by
  have hwrote := hw.wrote hsame
  obtain ⟨addrs, size, hi', hsize⟩ := hw.inode
  have hcur := cur_of_inode hi
  refine ⟨funext fun i => ?_, fun i => ?_⟩
  · by_cases hne : i = inum
    · rw [hne, update_self]
      refine content_splice (by rw [hcur]; exact hw.start) (by rw [cur_of_inode hi', hcur]; exact hsize)
        (fun k hk hk' => ?_) fun k hk hno => ?_
      · rw [hw.byteAt]
        exact (hwrote.inside k hk hk').2
      · rw [hw.byteAt]
        refine hwrote.kept ((h.cleanOf hi).backed _ ?_) hno
        rw [hcur] at hk
        have := Nat.div_mul_le_self k BSIZE
        omega
    · rw [update_of_ne hne]
      refine content_congr ?_ fun k => ?_
      · rw [cur, hw.itable i hne, hw.dinode i hne]
        exact congrArg Dinode.size (hwrote.grown.others.cur hne)
      · rw [hw.byteAt]
        exact hwrote.other i k hne
  · by_cases hne : i = inum
    · rw [hne, hi', hi]
      rfl
    · rw [hw.itable i hne, hwrote.grown.others.itable i hne]

/-- All bytes can be copied. -/
theorem Written.whole (havail : m ≤ src.avail) (k : Nat) (hk : tot ≤ k) (hk' : k < e) :
    src.byte k = storedAt fs inum (off + k) := by
  rcases hw.loop.torn with rfl | ⟨-, rfl, hlt, -⟩
  · exact absurd hk' (Nat.not_lt.2 hk)
  · exact absurd hlt (Nat.not_lt.2 havail)

theorem Written.short (havail : m ≤ src.avail) (hlt : tot < m) : fs.freeCount < (missing fs inum off (off + m)).card := by
  have hshort := hw.loop.short hlt
  rw [Nat.min_eq_left havail] at hshort
  refine hshort.resolve_left ?_
  rcases hw.loop.torn with rfl | ⟨-, rfl, hlt', -⟩ <;> omega

end

theorem wp_writei_content (h : Own none fs) (hi : fs.Has inum ip) (off : BitVec 32) (havail : n.toNat ≤ src.avail) :
    WP (writei inum src off n) (fun _ => False) (fun r fs' =>
      if Refused ip.size.toNat off n then r = -1 ∧ fs' = fs
      else ∃ tot ≤ n.toNat, r = tot ∧ Writes inum src off.toNat tot fs fs' ∧
        (tot < n.toNat → fs.freeCount < (missing fs inum off.toNat (off.toNat + n.toNat)).card)) fs := by
  refine (wp_writei h hi src off n).mono fun r fs' hr => ?_
  split
  · rwa [if_pos ‹_›] at hr
  · rw [if_neg ‹_›] at hr
    obtain ⟨e, tot, fs₁, hr, hw⟩ := hr
    exact ⟨tot, hw.loop.le.2.1, hr, hw.writes h hi (hw.whole havail), hw.short havail⟩

/-! ## `itrunc` -/

theorem content_of_trunc {k : Nat} (h : Trunc inum ip fs k fs') (hz : (cur fs' inum).size = 0) :
    content fs' = update (content fs) inum [] := by
  funext i
  by_cases hne : i = inum
  · rw [hne, update_self, content, hz]
    rfl
  · rw [update_of_ne hne]
    have hcur : cur fs' i = cur fs i := by rw [cur, cur, h.itable i hne, h.dinode i hne]
    refine content_congr (by rw [hcur]) fun k => ?_
    have haddr : addrOf fs' (slotAt i (k / BSIZE)) = addrOf fs (slotAt i (k / BSIZE)) := by
      rw [addrOf, addrOf, slotAt_inum, hcur, h.data]
    rw [byteAt, byteAt, haddr, h.data]

/-! ## Sequences of calls -/

inductive Op where
  /-- To memory of which `avail` bytes can be written. -/
  | readi (inum : Nat) (off n : BitVec 32) (avail : Nat)
  | writei (inum : Nat) (src : Src) (off n : BitVec 32)
  | itrunc (inum : Nat)

inductive Res where
  | read (bs : Option (List (BitVec 8)))
  | wrote (r : Int)
  | done

def runOp : Op → M Res
  | .readi inum off n avail => do
    let bs ← readi inum off n avail
    pure (.read bs)
  | .writei inum src off n => do
    let r ← writei inum src off n
    pure (.wrote r)
  | .itrunc inum => do
    itrunc inum
    pure .done

/-- The inode that the caller of the call has locked. -/
def Op.target : Op → Nat
  | .readi inum _ _ _ | .writei inum _ _ _ | .itrunc inum => inum

/-- The copies of `writei` all succeed. -/
def Op.Copies : Op → Prop
  | .writei _ src _ n => n.toNat ≤ src.avail
  | _ => True

/-- What the calls do to byte lists. -/
def Op.spec (files : Nat → List (BitVec 8)) : Op → Res → (Nat → List (BitVec 8)) → Prop
  | .readi inum off n avail, res, files' =>
    res = .read (if (readable (files inum) off n).length ≤ avail then some (readable (files inum) off n) else none) ∧
      files' = files
  | .writei inum src off n, res, files' =>
    if Refused (files inum).length off n then res = .wrote (-1) ∧ files' = files
    else ∃ tot ≤ n.toNat, res = .wrote tot ∧
      files' = update files inum (splice (files inum) off.toNat ((List.range tot).map src.byte))
  | .itrunc inum, res, files' => res = .done ∧ files' = update files inum []

/-- There are free blocks for all that the call has to allocate. -/
def Op.Enough (fs : Fs) : Op → Prop
  | .writei inum _ off n => (missing fs inum off.toNat (off.toNat + n.toNat)).card ≤ fs.freeCount
  | _ => True

/-- The call did all it was asked to, unless it was refused. -/
def Op.Complete : Op → Res → Prop
  | .writei _ _ _ n, .wrote r => r = -1 ∨ r = n.toNat
  | _, _ => True

/-- A call ends as `Op.spec` says. -/
structure Acts (fs : Fs) (op : Op) (res : Res) (fs' : Fs) : Prop where
  own : Own none fs'
  locks : SameLocks fs fs'
  spec : op.spec (content fs) res (content fs')
  complete : op.Enough fs → op.Complete res

theorem wp_runOp (h : Own none fs) {op : Op} (hl : ((fs.itable op.target).inode).isSome = true) (hc : op.Copies) :
    WP (runOp op) (fun _ => False) (Acts fs op) fs := by
  obtain ⟨ip, hi⟩ := Option.isSome_iff_exists.1 hl
  cases op with
  | readi inum off n avail =>
    have hi : fs.Has inum ip := hi
    refine .bind ((wp_readi_content (h.cleanOf hi) hi off n avail).mono fun r fs' ⟨e, hr⟩ => .pure ?_)
    subst e
    exact ⟨h, fun _ => rfl, ⟨by rw [hr], rfl⟩, fun _ => trivial⟩
  | writei inum src off n =>
    have hi : fs.Has inum ip := hi
    have hwp := (Keeps.writei fs h).and (wp_writei_content h hi off hc)
    refine .bind ((hwp.weaken fun _ hp => hp.2).mono fun r fs' ⟨hown, hr⟩ => .pure ?_)
    have hlen : (content fs inum).length = ip.size.toNat := by rw [length_content, cur_of_inode hi]
    by_cases href : Refused ip.size.toNat off n
    · rw [if_pos href] at hr
      obtain ⟨rfl, rfl⟩ := hr
      refine ⟨h, fun _ => rfl, ?_, fun _ => .inl rfl⟩
      rw [Op.spec, hlen, if_pos href]
      exact ⟨rfl, rfl⟩
    · rw [if_neg href] at hr
      obtain ⟨tot, hle, rfl, hw, hshort⟩ := hr
      refine ⟨hown, hw.locks, ?_, fun hen => .inr ?_⟩
      · rw [Op.spec, hlen, if_neg href]
        exact ⟨tot, hle, rfl, hw.content⟩
      · have hfull : tot = n.toNat := by
          by_contra hne
          exact absurd (hshort (by omega)) (Nat.not_lt.2 hen)
        rw [hfull]
  | itrunc inum =>
    have hi : fs.Has inum ip := hi
    refine .bind ((wp_itrunc h hi).mono fun _ fs' ⟨hown, hT, hz⟩ => .pure ?_)
    refine ⟨hown, fun i => ?_, ⟨rfl, content_of_trunc hT hz⟩, fun _ => trivial⟩
    by_cases hne : i = inum
    · obtain ⟨addrs, size, hi', -⟩ := hT.inode
      rw [hne, hi', hi]
      rfl
    · rw [hT.itable i hne]

/-- The calls end one after the other, as `Op.spec` says of each. -/
inductive Behaves : Fs → List Op → List Res → Fs → Prop where
  | nil (fs : Fs) : Behaves fs [] [] fs
  | cons {fs fs₁ fs' : Fs} {op : Op} {ops : List Op} {r : Res} {rs : List Res} (hrun : runOp op fs = .ok (r, fs₁))
      (hspec : op.spec (content fs) r (content fs₁)) (hcomplete : op.Enough fs → op.Complete r)
      (hrest : Behaves fs₁ ops rs fs') : Behaves fs (op :: ops) (r :: rs) fs'

theorem behaves_of_own (h : Own none fs) (ops : List Op) (hl : ∀ op ∈ ops, ((fs.itable op.target).inode).isSome = true)
    (hc : ∀ op ∈ ops, op.Copies) : ∃ rs fs', Behaves fs ops rs fs' := by
  induction ops generalizing fs with
  | nil => exact ⟨[], fs, .nil fs⟩
  | cons op ops ih =>
    have hwp := wp_runOp h (hl op mem_cons_self) (hc op mem_cons_self)
    unfold WP at hwp
    split at hwp
    · rename_i r fs₁ hrun
      have hl₁ : ∀ o ∈ ops, ((fs₁.itable o.target).inode).isSome = true := by
        intro o ho
        rw [hwp.locks]
        exact hl o (mem_cons_of_mem op ho)
      obtain ⟨rs, fs', hrest⟩ := ih hwp.own hl₁ fun o ho => hc o (mem_cons_of_mem op ho)
      exact ⟨r :: rs, fs', .cons hrun hwp.spec hwp.complete hrest⟩
    · exact hwp.elim

/-- From every state that calls on a well-formed image lead to: `readi`, `writei` whose copies succeed
and `itrunc`, on locked inodes, act on the inodes as on independent byte lists, without a panic; a
write is short only for lack of blocks. -/
theorem inode_content {fs₀ : Fs} (h : WellFormed fs₀) {cs : List Call} (hr : runCalls cs fs₀ = .ok ((), fs))
    (ops : List Op) (hl : ∀ op ∈ ops, ((fs.itable op.target).inode).isSome = true)
    (hc : ∀ op ∈ ops, op.Copies) : ∃ rs fs', Behaves fs ops rs fs' :=
  behaves_of_own ((Keeps.runCalls cs fs₀ h.own).ok hr) ops hl hc

/-- A file is created, which leaves its inode locked. -/
def createFile : List Call := [.iget ROOTINO, .create ROOTINO [97] T_FILE 0 0]

/-- It is written across a block boundary, read past its end and truncated. -/
def fileOps : List Op :=
  [.writei 2 ⟨fun _ => 7, 1500⟩ 0 1500, .writei 2 ⟨fun _ => 9, 10⟩ 1020 10, .readi 2 1000 1000 1000, .itrunc 2]

theorem inode_content_fileOps : ∃ fs, runCalls createFile rootImage = .ok ((), fs) ∧
    ∃ rs fs', Behaves fs fileOps rs fs' := by
  obtain ⟨_, fs, hr, hsome⟩ : ∃ u fs, runCalls createFile rootImage = .ok (u, fs) ∧
      ((fs.itable 2).inode).isSome = true := exists_of_ok (by decide +kernel)
  refine ⟨fs, hr, inode_content rootImage_wellFormed hr fileOps (fun op hop => ?_) fun op hop => ?_⟩
  · have htarget : op.target = 2 := by
      simp only [fileOps, List.mem_cons, List.not_mem_nil, or_false] at hop
      rcases hop with rfl | rfl | rfl | rfl <;> rfl
    rw [htarget]
    exact hsome
  · simp only [fileOps, List.mem_cons, List.not_mem_nil, or_false] at hop
    rcases hop with rfl | rfl | rfl | rfl
    · exact Nat.le_refl 1500
    · exact Nat.le_refl 10
    · trivial
    · trivial

end Xv6.Blocks
