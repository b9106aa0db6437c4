import Xv6.Blocks.Files
import Xv6.Framework.Slots

/-!
# Directories as lists of entries

`IsDir fs dp ents` says that the bytes of the directory `dp`, which is locked, are the entries `ents`.
The loops of `dirlookup`, `dirlink` and `isdirempty` then go over the entries, and a `writei` of an
entry replaces or appends one, or does nothing (`wp_writeEnt`).
-/

namespace Xv6.Blocks

open Function List

variable {fs fs' : Fs} {dp : Nat} {ents : List Dirent} {name : Name} {E : Panic → Prop}

/-! ## Names -/

/-- What counts of a name: its first `DIRSIZ` bytes, up to a NUL. -/
def key (name : Name) : Name := strncpy DIRSIZ name

theorem strncmpEq_iff (n : Nat) (s t : Name) : strncmpEq n s t = true ↔ strncpy n s = strncpy n t := by
  induction n generalizing s t with
  | zero => simp [strncmpEq, strncpy]
  | succ n ih =>
    rw [strncmpEq, strncpy, strncpy]
    have ih := ih s.tail t.tail
    generalize s.headD 0 = a at ih ⊢
    generalize t.headD 0 = b at ih ⊢
    by_cases hab : a = b
    · subst hab
      by_cases ha : a = 0
      · rw [if_neg (not_not.2 rfl), if_pos ha, if_pos ha, if_pos ha]
        simp
      · rw [if_neg (not_not.2 rfl), if_neg ha, if_neg ha, if_neg ha, ih]
        simp
    · rw [if_pos hab]
      by_cases ha : a = 0
      · rw [if_pos ha, if_neg fun hb => hab (ha.trans hb.symm), replicate_succ]
        simp [← ha, hab]
      · by_cases hb : b = 0
        · rw [if_neg ha, if_pos hb, replicate_succ]
          simp [← hb, hab]
        · rw [if_neg ha, if_neg hb]
          simp [hab]

theorem namecmp_iff (s t : Name) : namecmp s t = true ↔ key s = key t := strncmpEq_iff DIRSIZ s t

theorem length_key (name : Name) : (key name).length = DIRSIZ := by
  suffices h : ∀ n (name : Name), (strncpy n name).length = n from h DIRSIZ name
  intro n
  induction n with
  | zero => exact fun _ => rfl
  | succ n ih =>
    intro name
    rw [strncpy]
    split
    · exact length_replicate
    · rw [length_cons, ih]

theorem key_key (name : Name) : key (key name) = key name := by
  suffices h : ∀ n (name : Name), strncpy n (strncpy n name) = strncpy n name from h DIRSIZ name
  intro n
  induction n with
  | zero => exact fun _ => rfl
  | succ n ih =>
    intro name
    rw [strncpy.eq_def (n + 1) name]
    dsimp only
    split
    · rw [replicate_succ, strncpy]
      simp [replicate_succ]
    · rename_i h0
      rw [strncpy, headD_cons, if_neg h0, tail_cons, ih]

/-! ## Entries -/

/-- What an entry stands for, if it is in use. -/
def Dirent.slot (de : Dirent) : Option (Name × Nat) :=
  if de.inum = 0 then none else some (key de.name, de.inum.toNat)

def slots (ents : List Dirent) (i : Nat) : Option (Name × Nat) := (ents[i]?).bind Dirent.slot

/-- The entries with `de` at index `j`, which may be the first behind the last. -/
def putEnt (ents : List Dirent) (j : Nat) (de : Dirent) : List Dirent := ents.take j ++ de :: ents.drop (j + 1)

variable {j i fuel inum : Nat} {de : Dirent} {ip : Dinode}

theorem slots_putEnt (hj : j ≤ ents.length) (de : Dirent) : slots (putEnt ents j de) = update (slots ents) j de.slot := by
  funext i
  have hlen : (ents.take j).length = j := by
    rw [length_take]
    omega
  rw [update_apply, slots, putEnt]
  by_cases hi : i = j
  · rw [if_pos hi, hi, getElem?_append_right (by omega), hlen, Nat.sub_self]
    rfl
  · rw [if_neg hi, slots]
    congr 1
    by_cases hlt : i < j
    · rw [getElem?_append_left (by omega), getElem?_take, if_pos hlt]
    · rw [getElem?_append_right (by omega), hlen]
      obtain ⟨k, hk⟩ : ∃ k, i - j = k + 1 := ⟨i - j - 1, by omega⟩
      rw [hk, getElem?_cons_succ, getElem?_drop]
      congr 1
      omega

theorem slots_eq_some {n : Nat} {k : Name} : slots ents i = some (k, n) ↔
    ∃ de, ents[i]? = some de ∧ de.inum ≠ 0 ∧ key de.name = k ∧ de.inum.toNat = n := by
  rw [slots, Option.bind_eq_some_iff]
  refine exists_congr fun de => and_congr_right fun _ => ?_
  rw [Dirent.slot]
  split
  · rename_i h
    simp [h]
  · rename_i h
    simp only [Option.some.injEq, Prod.mk.injEq, ne_eq, h, not_false_eq_true, true_and]

theorem length_encode_of (h : de.name.length = DIRSIZ) : de.encode.length = direntSize := by
  rw [Dirent.encode, length_append, h]
  rfl

theorem decode_encode (h : de.name.length = DIRSIZ) : Dirent.decode de.encode = de := by
  obtain ⟨inum, name⟩ := de
  have hinum : inum.extractLsb' 8 8 ++ inum.extractLsb' 0 8 = inum := by
    apply BitVec.eq_of_getLsbD_eq
    intro i hi
    simp only [BitVec.getLsbD_append, BitVec.getLsbD_extractLsb']
    by_cases h8 : i < 8
    · simp [h8]
    · have : i - 8 < 8 := by omega
      simp [h8, this, show 8 + (i - 8) = i by omega]
  simp only [Dirent.decode, Dirent.encode, cons_append, nil_append, getD_cons_zero,
    getD_cons_succ, drop_succ_cons, drop_zero, hinum]
  rw [take_of_length_le (Nat.le_of_eq h)]

/-- Entry `i` of the bytes of some entries. -/
theorem take_drop_encode (hn : ∀ de ∈ ents, de.name.length = DIRSIZ) (hi : ents[i]? = some de) :
    ((ents.flatMap Dirent.encode).drop (direntSize * i)).take direntSize = de.encode := by
  induction ents generalizing i with
  | nil => cases hi
  | cons d ents ih =>
    have hd := length_encode_of (hn d mem_cons_self)
    rw [flatMap_cons]
    cases i with
    | zero =>
      cases hi
      rw [Nat.mul_zero, drop_zero, ← hd, take_left]
    | succ i =>
      have hdrop : (d.encode ++ ents.flatMap Dirent.encode).drop direntSize = ents.flatMap Dirent.encode := by
        rw [← hd, drop_left]
      rw [Nat.mul_succ, Nat.add_comm, ← drop_drop, hdrop]
      exact ih (fun e he => hn e (mem_cons_of_mem d he)) hi

theorem length_flatMap_encode (hn : ∀ de ∈ ents, de.name.length = DIRSIZ) :
    (ents.flatMap Dirent.encode).length = direntSize * ents.length := by
  induction ents with
  | nil => rfl
  | cons d ents ih =>
    rw [flatMap_cons, length_append, length_encode_of (hn d mem_cons_self),
      ih fun e he => hn e (mem_cons_of_mem d he), length_cons, Nat.mul_succ, Nat.add_comm]

theorem splice_encode (hn : ∀ de ∈ ents, de.name.length = DIRSIZ) (hj : j ≤ ents.length) (hd : de.name.length = DIRSIZ) :
    splice (ents.flatMap Dirent.encode) (direntSize * j) de.encode = (putEnt ents j de).flatMap Dirent.encode := by
  have hsplit : ents.flatMap Dirent.encode =
      (ents.take j).flatMap Dirent.encode ++ (ents.drop j).flatMap Dirent.encode := by
    rw [← flatMap_append, take_append_drop]
  have hlen : ((ents.take j).flatMap Dirent.encode).length = direntSize * j := by
    rw [length_flatMap_encode fun e he => hn e (mem_of_mem_take he), length_take, Nat.min_eq_left hj]
  have hrest : ((ents.drop j).flatMap Dirent.encode).drop direntSize = (ents.drop (j + 1)).flatMap Dirent.encode := by
    cases hdrop : ents.drop j with
    | nil =>
      have hend : ents.length ≤ j := drop_eq_nil_iff.1 hdrop
      rw [drop_eq_nil_of_le (by omega : ents.length ≤ j + 1)]
      rfl
    | cons d rest =>
      have hmem : d ∈ ents := mem_of_mem_drop (hdrop ▸ mem_cons_self)
      have hnext : ents.drop (j + 1) = rest := by
        rw [← drop_drop, hdrop, drop_one, tail_cons]
      rw [hnext, flatMap_cons, ← length_encode_of (hn d hmem), drop_left]
  rw [splice, length_encode_of hd, hsplit, ← drop_drop, ← hlen, take_left, drop_left, hrest, putEnt,
    flatMap_append, flatMap_cons, append_assoc]

/-! ## Reading -/

structure IsDir (fs : Fs) (dp : Nat) (ents : List Dirent) : Prop where
  own : Own none fs
  inode : ∃ ip, (fs.itable dp).inode = some ip ∧ ip.type = T_DIR
  names : ∀ de ∈ ents, de.name.length = DIRSIZ
  bytes : content fs dp = ents.flatMap Dirent.encode

namespace IsDir

variable (h : IsDir fs dp ents)
include h

theorem size (hi : fs.Has dp ip) : ip.size.toNat = direntSize * ents.length := by
  rw [← length_flatMap_encode h.names, ← h.bytes, length_content, cur_of_inode hi]

/-- No offset in a directory wraps around. -/
theorem length_le : direntSize * ents.length ≤ MAXFILE * BSIZE := by
  obtain ⟨ip, hi, -⟩ := h.inode
  rw [← h.size hi]
  exact (h.own.cleanOf hi).size

theorem toNat_off (hj : j ≤ ents.length) : (BitVec.ofNat 32 (direntSize * j)).toNat = direntSize * j := by
  have hlen := h.length_le
  have hle : direntSize * j ≤ direntSize * ents.length := Nat.mul_le_mul_left _ hj
  have hmax : MAXFILE * BSIZE < 2 ^ 32 := by decide
  rw [BitVec.toNat_ofNat, Nat.mod_eq_of_lt (by omega)]

theorem wp_readDirent {p : Panic} (hi : ents[i]? = some de) :
    WP (readDirent dp (direntSize * i) p) E (fun r fs' => fs' = fs ∧ r = de) fs := by
  obtain ⟨ip, hip, -⟩ := h.inode
  obtain ⟨hlt, hde⟩ := List.getElem?_eq_some_iff.1 hi
  have hmem : de ∈ ents := mem_of_getElem? hi
  have hoff := h.toNat_off (Nat.le_of_lt hlt)
  have hlen := h.length_le
  have hbytes : readable (content fs dp) (BitVec.ofNat 32 (direntSize * i)) (BitVec.ofNat 32 direntSize) = de.encode := by
    have hcl : (content fs dp).length = direntSize * ents.length := by rw [h.bytes, length_flatMap_encode h.names]
    have hmax : MAXFILE * BSIZE + direntSize < 2 ^ 32 := by decide
    have hle : direntSize * i ≤ direntSize * ents.length := Nat.mul_le_mul_left _ (Nat.le_of_lt hlt)
    have hn : (BitVec.ofNat 32 direntSize).toNat = direntSize := rfl
    rw [readable, hoff, hn, hcl, if_neg (by omega), h.bytes]
    exact take_drop_encode h.names hi
  have hde := h.names de hmem
  unfold readDirent
  refine .bind ((wp_readi_content (h.own.cleanOf hip) hip _ _ _).mono ?_)
  rintro r _ ⟨rfl, hr⟩
  rw [hbytes, length_encode_of hde, if_pos (Nat.le_refl _)] at hr
  subst hr
  refine .ite (fun _ => .pure ⟨rfl, decode_encode hde⟩) fun hne => absurd (length_encode_of hde) hne

/-- A round of a loop over the entries. -/
theorem wp_inode {α : Type} {m m' : M α} {Q : α → Fs → Prop} (hlt : ∀ de, ents[i]? = some de → WP m E Q fs)
    (hge : ents.length ≤ i → WP m' E Q fs) :
    WP (do
      let ip ← Blocks.inode dp
      if direntSize * i < ip.size.toNat then m else m') E Q fs := by
  obtain ⟨ip, hi, -⟩ := h.inode
  refine .bind (wp_inode_of hi ?_)
  rw [h.size hi]
  refine .ite (fun hc => ?_) fun hc => ?_
  · have hc : i < ents.length := Nat.lt_of_mul_lt_mul_left hc
    exact hlt _ (getElem?_eq_getElem hc)
  · exact hge (Nat.le_of_not_lt fun hl => hc (Nat.mul_lt_mul_of_pos_left hl (by decide)))

/-- What the loop of `dirlookup` finds from entry `i` on. -/
def Found (ents : List Dirent) (name : Name) (i : Nat) : Option (BitVec 16 × Nat) → Prop
  | none => ∀ j ≥ i, ∀ v, slots ents j ≠ some (key name, v)
  | some (inum, off) => ∃ j, off = direntSize * j ∧ slots ents j = some (key name, inum.toNat)

omit h in
theorem Found.prev {r : Option (BitVec 16 × Nat)} (hr : Found ents name (i + 1) r)
    (hi : ∀ v, slots ents i ≠ some (key name, v)) : Found ents name i r := by
  cases r with
  | none =>
    intro j hj v
    rcases Nat.eq_or_lt_of_le hj with rfl | hj
    · exact hi v
    · exact hr j hj v
  | some r => exact hr

theorem wp_lookupLoop (name : Name) (hf : ents.length < i + fuel) :
    WP (lookupLoop dp name fuel (direntSize * i)) E (fun r fs' => fs' = fs ∧ Found ents name i r) fs := by
  have hnone : ∀ {i}, ents.length ≤ i → Found ents name i none := by
    intro i hi j hj v hv
    obtain ⟨de, hde, -⟩ := slots_eq_some.1 hv
    rw [getElem?_eq_none (by omega)] at hde
    cases hde
  induction fuel generalizing i with
  | zero => exact .pure ⟨rfl, hnone (by omega)⟩
  | succ fuel ih =>
    rw [lookupLoop]
    refine h.wp_inode (fun de hde => ?_) fun hge => .pure ⟨rfl, hnone hge⟩
    have hnext := ih (i := i + 1) (by omega)
    rw [Nat.mul_succ] at hnext
    refine .bind ((h.wp_readDirent hde).mono ?_)
    rintro d _ ⟨rfl, rfl⟩
    refine .ite (fun h0 => ?_) fun h0 => .ite (fun hcmp => .pure ⟨rfl, i, rfl, ?_⟩) fun hcmp => ?_
    · refine hnext.mono fun r fs' hr => ⟨hr.1, hr.2.prev fun v hv => ?_⟩
      obtain ⟨d', hd', hne, -⟩ := slots_eq_some.1 hv
      rw [hde] at hd'
      cases hd'
      exact hne h0
    · exact slots_eq_some.2 ⟨d, hde, h0, ((namecmp_iff _ _).1 hcmp).symm, rfl⟩
    · refine hnext.mono fun r fs' hr => ⟨hr.1, hr.2.prev fun v hv => ?_⟩
      obtain ⟨d', hd', -, hk, -⟩ := slots_eq_some.1 hv
      rw [hde] at hd'
      cases hd'
      exact hcmp ((namecmp_iff _ _).2 hk.symm)

/-- The first empty entry, or the end. -/
theorem wp_freeLoop (hi : i ≤ ents.length) (hf : ents.length < i + fuel) : WP (freeLoop dp fuel (direntSize * i)) E
      (fun off fs' => fs' = fs ∧ ∃ j ≤ ents.length, off = direntSize * j ∧ slots ents j = none ∧
        ∀ k, i ≤ k → k < j → slots ents k ≠ none) fs := by
  induction fuel generalizing i with
  | zero => omega
  | succ fuel ih =>
    rw [freeLoop]
    refine h.wp_inode (fun de hde => ?_) fun hge => .pure ⟨rfl, i, hi, rfl, ?_, by omega⟩
    · have hlt : i < ents.length := (List.getElem?_eq_some_iff.1 hde).1
      have hslot : slots ents i = de.slot := by rw [slots, hde, Option.bind_some]
      refine .bind ((h.wp_readDirent hde).mono ?_)
      rintro d _ ⟨rfl, rfl⟩
      refine .ite (fun h0 => .pure ⟨rfl, i, hi, rfl, ?_, by omega⟩) fun h0 => ?_
      · rw [hslot, Dirent.slot, if_pos h0]
      · have hnext := ih (i := i + 1) hlt (by omega)
        rw [Nat.mul_succ] at hnext
        refine hnext.mono fun _ _ ⟨hfs, j, hj, hoff, hnone, hfirst⟩ => ⟨hfs, j, hj, hoff, hnone, fun k hk hlt => ?_⟩
        by_cases hki : k = i
        · rw [hki, hslot, Dirent.slot, if_neg h0]
          exact Option.some_ne_none _
        · exact hfirst k (by omega) hlt
    · rw [slots, getElem?_eq_none hge]
      rfl

theorem wp_emptyLoop (hf : ents.length < i + fuel) : WP (emptyLoop dp fuel (direntSize * i)) E
      (fun r fs' => fs' = fs ∧ (r = true ↔ ∀ j ≥ i, slots ents j = none)) fs := by
  have hend : ∀ {i}, ents.length ≤ i → ∀ j ≥ i, slots ents j = none := by
    intro i hi j hj
    rw [slots, getElem?_eq_none (by omega)]
    rfl
  induction fuel generalizing i with
  | zero => exact .pure ⟨rfl, iff_of_true rfl (hend (by omega))⟩
  | succ fuel ih =>
    rw [emptyLoop]
    refine h.wp_inode (fun de hde => ?_) fun hge => .pure ⟨rfl, iff_of_true rfl (hend hge)⟩
    have hslot : slots ents i = de.slot := by rw [slots, hde, Option.bind_some]
    refine .bind ((h.wp_readDirent hde).mono ?_)
    rintro d _ ⟨rfl, rfl⟩
    refine .ite (fun hne => .pure ⟨rfl, ?_⟩) fun h0 => ?_
    · refine iff_of_false nofun fun hall => ?_
      have hi := hall i (Nat.le_refl i)
      rw [hslot, Dirent.slot, if_neg hne] at hi
      cases hi
    · have hnext := ih (i := i + 1) (by omega)
      rw [Nat.mul_succ] at hnext
      refine hnext.mono fun r fs' hr => ⟨hr.1, hr.2.trans ⟨fun hall j hj => ?_, fun hall j hj => hall j (by omega)⟩⟩
      rcases Nat.eq_or_lt_of_le hj with rfl | hj
      · rw [hslot, Dirent.slot, if_pos (not_not.1 h0)]
      · exact hall j hj

theorem wp_isdirempty : WP (isdirempty dp) E (fun r fs' => fs' = fs ∧ (r = true ↔ ∀ j ≥ 2, slots ents j = none)) fs := by
  obtain ⟨ip, hi, -⟩ := h.inode
  unfold isdirempty
  refine .bind (wp_inode_of hi ?_)
  have hsize := h.size hi
  refine h.wp_emptyLoop (i := 2) ?_
  simp only [direntSize] at hsize
  omega

end IsDir

/-! ## References -/

def Fs.getRef (fs : Fs) (i : Nat) : Fs := { fs with itable := update fs.itable i (fs.itable i).get }

/-- A valid copy has references. -/
theorem Own.inode_eq_none (h : Own none fs) (h0 : (fs.itable i).ref = 0) : (fs.itable i).inode = none := by
  by_contra hne
  obtain ⟨ip, hi⟩ := Option.ne_none_iff_exists'.1 hne
  have hpos := (h.valid i ip nofun hi).1
  omega

theorem Own.get_inode (h : Own none fs) (i : Nat) : (fs.itable i).get.inode = (fs.itable i).inode := by
  rw [Entry.get]
  split
  · rfl
  · exact (h.inode_eq_none (by omega)).symm

theorem Own.getRef_inode (h : Own none fs) (t i : Nat) : ((fs.getRef t).itable i).inode = (fs.itable i).inode := by
  change (update fs.itable t (fs.itable t).get i).inode = _
  rw [update_apply]
  split
  · rename_i hi
    rw [hi]
    exact h.get_inode t
  · rfl

theorem content_of_inode (hi : ∀ i, (fs'.itable i).inode = (fs.itable i).inode) (hdin : fs'.dinode = fs.dinode)
    (hdata : fs'.data = fs.data) : content fs' = content fs := by
  have hcur : ∀ i, cur fs' i = cur fs i := fun i => by rw [cur, cur, hi, hdin]
  funext i
  refine content_congr (by rw [hcur]) fun k => ?_
  rw [byteAt, byteAt, addrOf, addrOf, hcur, hdata]

theorem IsDir.getRef (h : IsDir fs dp ents) (t : Nat) : IsDir (fs.getRef t) dp ents := by
  have hown : Own none (fs.getRef t) := (Keeps.iget fs h.own).ok rfl
  refine ⟨hown, ?_, h.names, ?_⟩
  · rw [h.own.getRef_inode]
    exact h.inode
  · rw [content_of_inode (h.own.getRef_inode t) rfl rfl]
    exact h.bytes

/-- `iput` of a reference that was just taken. -/
theorem wp_iput_getRef (h : Own none fs) (t : Nat) : WP (iput t) E (fun _ fs' => fs' = fs) (fs.getRef t) := by
  have hself : (fs.getRef t).itable t = (fs.itable t).get := update_self ..
  have hput : (fs.itable t).get.put = fs.itable t := by
    rw [Entry.get]
    split
    · rw [Entry.put, if_neg (by dsimp only; omega)]
      rfl
    · rename_i h0
      have h0 : (fs.itable t).ref = 0 := by omega
      have hn := h.inode_eq_none h0
      generalize fs.itable t = e at h0 hn
      obtain ⟨r, i⟩ := e
      dsimp only at h0 hn
      rw [h0, hn]
      rfl
  unfold iput
  refine .bind ?_
  have hfree : WP (ifree t) E (fun _ fs' => fs' = fs.getRef t) (fs.getRef t) := by
    unfold ifree
    refine .bind (.get ?_)
    dsimp only
    rw [hself]
    split
    · rename_i ip hi
      refine .ite (fun hc => ?_) fun _ => .pure rfl
      rw [Entry.get] at hi hc
      split at hi
      · rename_i hpos
        rw [if_pos hpos] at hc
        dsimp only at hc
        omega
      · cases hi
    · exact .pure rfl
  refine hfree.mono ?_
  rintro _ _ rfl
  refine .modify ?_
  rw [hself, hput]
  cases fs
  simp only [Fs.getRef, update_idem, update_eq_self]

/-- What `dirlookup` returns, and the state it leaves. -/
def Looked (fs : Fs) (ents : List Dirent) (name : Name) : Option (Nat × Nat) → Fs → Prop
  | none, fs' => fs' = fs ∧ ∀ j v, slots ents j ≠ some (key name, v)
  | some (t, off), fs' => fs' = fs.getRef t ∧ ∃ j, off = direntSize * j ∧ slots ents j = some (key name, t)

theorem IsDir.wp_dirlookup (h : IsDir fs dp ents) (name : Name) : WP (dirlookup dp name) E (Looked fs ents name) fs := by
  obtain ⟨ip, hi, ht⟩ := h.inode
  have hsize := h.size hi
  unfold dirlookup
  refine .bind (wp_inode_of hi (.ite (fun hc => absurd ht hc) fun _ => .bind ?_))
  have hfuel : ents.length < 0 + (ip.size.toNat + 1) := by
    simp only [direntSize] at hsize
    omega
  refine (h.wp_lookupLoop name hfuel).mono ?_
  rintro r _ ⟨rfl, hr⟩
  cases r with
  | none => exact .pure ⟨rfl, fun j v => hr j (Nat.zero_le j) v⟩
  | some r => exact .bind (.modify (.pure ⟨rfl, hr⟩))

/-! ## Writing -/

/-- What `writei` keeps, whatever it writes. -/
structure Rewritten (inum : Nat) (ip : Dinode) (fs fs' : Fs) : Prop where
  sb : fs'.sb = fs.sb
  inode : ∃ addrs size, (fs'.itable inum).inode = some { ip with addrs, size }
  ref : (fs'.itable inum).ref = (fs.itable inum).ref
  itable : ∀ i, i ≠ inum → fs'.itable i = fs.itable i
  dinode : ∀ i, i ≠ inum → fs'.dinode i = fs.dinode i

theorem Rewritten.refl (hi : fs.Has inum ip) : Rewritten inum ip fs fs :=
  ⟨rfl, ⟨ip.addrs, ip.size, hi⟩, rfl, fun _ _ => rfl, fun _ _ => rfl⟩

section

variable {src : Src} {off n e tot : Nat} {fs₁ : Fs} (hw : Written inum ip src off n fs e tot fs₁ fs')
include hw

theorem Written.rewritten : Rewritten inum ip fs fs' := by
  have hg := hw.loop.wrote.grown
  obtain ⟨addrs, size, hi, -⟩ := hw.inode
  exact ⟨hw.sb.trans hg.others.sb, ⟨addrs, size, hi⟩, hw.ref.trans hg.ref,
    fun i hne => (hw.itable i hne).trans (hg.others.itable i hne),
    fun i hne => (hw.dinode i hne).trans (hg.others.dinode i hne)⟩

/-- A write within one block is done as a whole or not at all. -/
theorem Written.one (hblock : off % BSIZE + n ≤ BSIZE) : tot = 0 ∨ tot = n := by
  have hle : tot ≤ n := hw.loop.le.2.1
  have hends : tot = n ∨ tot = 0 ∨ (off + tot) % BSIZE = 0 := hw.loop.ends
  unfold BSIZE at *
  omega

end

/-- The slots of other inodes, and filled slots, are as before; after a write within one block that
failed, all but the one of the indirect block. -/
structure Addrs (inum : Nat) (failed : Prop) (fs fs' : Fs) : Prop where
  others : ∀ x : Slot, x.inum ≠ inum → addrOf fs' x = addrOf fs x
  filled : ∀ x, addrOf fs x ≠ 0 → addrOf fs' x = addrOf fs x
  failed : failed → ∀ x, x ≠ .indirect inum → addrOf fs' x = addrOf fs x

theorem Addrs.refl (inum : Nat) (failed : Prop) (fs : Fs) : Addrs inum failed fs fs :=
  ⟨fun _ _ => rfl, fun _ _ => rfl, fun _ _ _ => rfl⟩

theorem Written.addrs {src : Src} {off n e tot : Nat} {fs₁ : Fs} (hw : Written inum ip src off n fs e tot fs₁ fs')
    (havail : n ≤ src.avail) (hblock : off % BSIZE + n ≤ BSIZE) : Addrs inum ((tot : Int) ≠ n) fs fs' := by
  have hg := hw.loop.wrote.grown
  refine ⟨fun x hx => ?_, fun x hx => ?_, fun hne x hx => ?_⟩ <;> rw [hw.addr]
  · exact hg.others.addr x hx
  · exact hg.addr x hx
  · have hlt : tot ≠ n := fun e => hne (congrArg Int.ofNat e)
    obtain rfl := (hw.one hblock).resolve_right hlt
    exact hw.loop.failed rfl (by omega) havail x hx

/-- There is no room for another entry: the directory has its maximum size, or there are too few
free blocks. -/
def Full (fs : Fs) (dp : Nat) (ents : List Dirent) : Prop :=
  MAXFILE * BSIZE < direntSize * (ents.length + 1) ∨
    fs.freeCount < (missing fs dp (direntSize * ents.length) (direntSize * (ents.length + 1))).card

/-- What a `writei` of an entry does. -/
structure Put (fs : Fs) (dp : Nat) (ents : List Dirent) (j : Nat) (de : Dirent) (r : Int) (fs' : Fs) : Prop where
  rewritten : ∃ ip, (fs.itable dp).inode = some ip ∧ Rewritten dp ip fs fs'
  others : ∀ i, i ≠ dp → content fs' i = content fs i
  addrs : Addrs dp (r ≠ direntSize) fs fs'
  dir : if r = direntSize then IsDir fs' dp (putEnt ents j de)
    else IsDir fs' dp ents ∧ j = ents.length ∧ Full fs dp ents
  fits : r = direntSize → j = ents.length → ¬Full fs dp ents

theorem src_kernel (bs : List (BitVec 8)) : (range bs.length).map (Src.kernel bs).byte = bs := by
  refine ext_getElem (by simp) fun k hk hk' => ?_
  simp [Src.kernel, hk']

theorem IsDir.wp_writeEnt (h : IsDir fs dp ents) (hj : j ≤ ents.length) (hd : de.name.length = DIRSIZ) :
    WP (writei dp (.kernel de.encode) (BitVec.ofNat 32 (direntSize * j)) (BitVec.ofNat 32 direntSize)) E
      (Put fs dp ents j de) fs := by
  obtain ⟨ip, hi, ht⟩ := h.inode
  have hsize := h.size hi
  have hoff := h.toNat_off hj
  have hn : (BitVec.ofNat 32 direntSize).toNat = direntSize := rfl
  have hlen := length_encode_of hd
  have havail : (BitVec.ofNat 32 direntSize).toNat ≤ (Src.kernel de.encode).avail := Nat.le_of_eq hlen.symm
  have hblock : (BitVec.ofNat 32 (direntSize * j)).toNat % BSIZE + (BitVec.ofNat 32 direntSize).toNat ≤ BSIZE := by
    rw [hoff, hn]
    simp only [direntSize, BSIZE]
    omega
  refine ((wp_writei h.own hi (.kernel de.encode) _ _).weaken fun p hp => hp.elim).mono fun r fs' hr => ?_
  by_cases href : Refused ip.size.toNat (BitVec.ofNat 32 (direntSize * j)) (BitVec.ofNat 32 direntSize)
  · rw [if_pos href] at hr
    obtain ⟨rfl, rfl⟩ := hr
    refine ⟨⟨ip, hi, .refl hi⟩, fun _ _ => rfl, .refl .., ?_, nofun⟩
    rw [if_neg (by decide)]
    -- A write inside the directory is not refused.
    rw [Refused, hoff, hn, hsize] at href
    have hmax := h.length_le
    have hj' : direntSize * j ≤ direntSize * ents.length := Nat.mul_le_mul_left _ hj
    have h32 : MAXFILE * BSIZE + direntSize < 2 ^ 32 := by decide
    have hbig : MAXFILE * BSIZE < direntSize * j + direntSize := by omega
    have hend : j = ents.length := by
      by_contra hne
      have hlt : direntSize * (j + 1) ≤ direntSize * ents.length := Nat.mul_le_mul_left _ (by omega)
      rw [Nat.mul_succ] at hlt
      omega
    refine ⟨h, hend, .inl ?_⟩
    rw [← hend, Nat.mul_succ]
    exact hbig
  · rw [if_neg href, hoff, hn] at hr
    obtain ⟨e, tot, fs₁, rfl, hw⟩ := hr
    rw [hoff, hn] at hblock
    have hwrites := hw.writes h.own hi (hw.whole havail)
    obtain ⟨addrs, size, hi', -⟩ := hw.inode
    have hown := hw.own
    have hdir : ∃ ip', (fs'.itable dp).inode = some ip' ∧ ip'.type = T_DIR := ⟨_, hi', ht⟩
    refine ⟨⟨ip, hi, hw.rewritten⟩, fun i hne => ?_, hw.addrs havail hblock, ?_, fun hr hend => ?_⟩
    · rw [hwrites.content, update_of_ne hne]
    rotate_left
    · obtain rfl : tot = direntSize := Int.ofNat.inj hr
      have he : e = direntSize := hw.loop.torn.resolve_right fun ⟨hlt, _, hlt', _⟩ => Nat.lt_asymm hlt hlt'
      have henough := hw.loop.wrote.enough h.own hw.loop.own (Nat.add_lt_add_left (by rw [he]; decide) _)
      rw [Refused, hoff, hn, hend] at href
      rw [he, hend, Nat.add_zero] at henough
      rw [Full, Nat.mul_succ]
      omega
    rcases hw.one hblock with rfl | rfl
    · rw [if_neg (by decide)]
      have hbytes : content fs' dp = content fs dp := by
        rw [hwrites.content, update_self, splice]
        simp
      have hfull := (hw.short havail (by decide))
      refine ⟨⟨hown, hdir, h.names, hbytes.trans h.bytes⟩, ?_⟩
      by_cases hend : j = ents.length
      · refine ⟨hend, .inr ?_⟩
        rw [← hend, Nat.mul_succ]
        exact hfull
      · -- The block of an entry inside the directory is there.
        have hlt : j < ents.length := Nat.lt_of_le_of_ne hj hend
        have hle : direntSize * j + direntSize ≤ ip.size.toNat := by
          rw [hsize, ← Nat.mul_succ]
          exact Nat.mul_le_mul_left _ hlt
        have hback := (h.own.cleanOf hi).backed
        rw [missing_eq_empty fun bn _ hbn => hback bn (Nat.lt_of_lt_of_le hbn hle), Finset.card_empty] at hfull
        omega
    · rw [if_pos rfl]
      refine ⟨hown, hdir, ?_, ?_⟩
      · intro d hdm
        rw [putEnt, mem_append, mem_cons] at hdm
        rcases hdm with hdm | rfl | hdm
        · exact h.names d (mem_of_mem_take hdm)
        · exact hd
        · exact h.names d (mem_of_mem_drop hdm)
      · have hsrc := src_kernel de.encode
        rw [hlen] at hsrc
        rw [hwrites.content, update_self, hsrc, h.bytes, splice_encode h.names hj hd]

/-- What `dirlink` does: nothing if the name is there; else the entry goes to an empty place, unless
the directory is full. -/
inductive Linked (fs : Fs) (dp : Nat) (ents : List Dirent) (name : Name) (inum : Nat) : Int → Fs → Prop where
  | present {j v : Nat} (h : slots ents j = some (key name, v)) : Linked fs dp ents name inum (-1) fs
  | full {fs' : Fs} {j : Nat} {r : Int} (habsent : ∀ j v, slots ents j ≠ some (key name, v)) (hr : r ≠ direntSize)
      (hfull : ∀ k, k < ents.length → slots ents k ≠ none)
      (hput : Put fs dp ents j ⟨BitVec.ofNat 16 inum, key name⟩ r fs') : Linked fs dp ents name inum (-1) fs'
  | linked {fs' : Fs} {j : Nat} (habsent : ∀ j v, slots ents j ≠ some (key name, v)) (hj : j ≤ ents.length)
      (hnone : slots ents j = none) (hput : Put fs dp ents j ⟨BitVec.ofNat 16 inum, key name⟩ direntSize fs') :
      Linked fs dp ents name inum 0 fs'

theorem IsDir.wp_dirlink (h : IsDir fs dp ents) (name : Name) (inum : Nat) :
    WP (dirlink dp name inum) E (Linked fs dp ents name inum) fs := by
  obtain ⟨ip, hi, ht⟩ := h.inode
  have hsize := h.size hi
  unfold dirlink
  refine .bind ((h.wp_dirlookup name).mono fun r fs₁ hr => ?_)
  cases r with
  | some r =>
    obtain ⟨rfl, j, -, hj⟩ := hr
    refine .bind ((wp_iput_getRef h.own r.1).mono ?_)
    rintro _ _ rfl
    exact .pure (.present hj)
  | none =>
    obtain ⟨rfl, habsent⟩ := hr
    refine .bind (wp_inode_of hi (.bind ?_))
    have hfuel : ents.length < 0 + (ip.size.toNat + 1) := by
      simp only [direntSize] at hsize
      omega
    refine (h.wp_freeLoop (Nat.zero_le _) hfuel).mono ?_
    rintro _ _ ⟨rfl, j, hj, rfl, hnone, hfirst⟩
    refine .bind ((h.wp_writeEnt hj (length_key name)).mono fun r fs₂ hput => ?_)
    refine .ite (fun hr => .pure (.full habsent hr (fun k hk => hfirst k (Nat.zero_le k) ?_) hput)) fun hr => .pure ?_
    · have hdir := hput.dir
      rw [if_neg hr] at hdir
      rwa [hdir.2.1]
    · rw [not_not.1 hr] at hput
      exact .linked habsent hj hnone hput

/-! ## Removal of an entry -/

/-- The part of `sys_unlink` that looks up the entry of `name` in the locked directory `dp` and erases
it; whether there was one that may be erased. The caller has a reference to the inode then. -/
def removeEntry (dp : Nat) (name : Name) : M Bool := do
  if namecmp name dot ∨ namecmp name dotdot then pure false
  else
    match ← dirlookup dp name with
    | none => pure false
    | some (_, off) =>
      let r ← writei dp (.kernel (List.replicate direntSize 0)) (BitVec.ofNat 32 off) (BitVec.ofNat 32 direntSize)
      if r ≠ direntSize then throw .unlinkWritei else pure true

/-- An entry of zeros. -/
def noEnt : Dirent := ⟨0, List.replicate DIRSIZ 0⟩

inductive Removed (fs : Fs) (dp : Nat) (ents : List Dirent) (name : Name) : Bool → Fs → Prop where
  | dots (h : key name = key dot ∨ key name = key dotdot) : Removed fs dp ents name false fs
  | absent (h : ∀ j v, slots ents j ≠ some (key name, v)) : Removed fs dp ents name false fs
  | removed {fs' : Fs} {j t : Nat} (hdot : key name ≠ key dot) (hdotdot : key name ≠ key dotdot)
      (hj : slots ents j = some (key name, t)) (hdir : IsDir fs' dp (putEnt ents j noEnt)) :
      Removed fs dp ents name true fs'

theorem lt_of_slots {x : Name × Nat} (h : slots ents j = some x) : j < ents.length := by
  obtain ⟨de, hde, -⟩ := Option.bind_eq_some_iff.1 h
  exact (List.getElem?_eq_some_iff.1 hde).1

theorem IsDir.wp_removeEntry (h : IsDir fs dp ents) (name : Name) :
    WP (removeEntry dp name) E (Removed fs dp ents name) fs := by
  unfold removeEntry
  refine .ite (fun hdots => .pure (.dots ?_)) fun hdots => ?_
  · rw [← namecmp_iff, ← namecmp_iff]
    exact hdots
  obtain ⟨hdot, hdotdot⟩ := not_or.1 hdots
  rw [namecmp_iff] at hdot hdotdot
  refine .bind ((h.wp_dirlookup name).mono fun r fs₁ hr => ?_)
  cases r with
  | none =>
    obtain ⟨rfl, habsent⟩ := hr
    exact .pure (.absent habsent)
  | some r =>
    obtain ⟨rfl, j, hoff, hj⟩ := hr
    dsimp only
    rw [hoff]
    have hlt := lt_of_slots hj
    have hzero : replicate direntSize 0 = noEnt.encode := rfl
    rw [hzero]
    refine .bind (((h.getRef r.1).wp_writeEnt (Nat.le_of_lt hlt) length_replicate).mono fun n fs₂ hput => ?_)
    have hdir := hput.dir
    refine .ite (fun hn => ?_) fun hn => .pure (.removed hdot hdotdot hj ?_)
    · rw [if_neg hn] at hdir
      omega
    · rw [if_pos (not_not.1 hn)] at hdir
      exact hdir

end Xv6.Blocks
