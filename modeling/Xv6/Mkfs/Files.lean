import Xv6.Mkfs.Image

/-!
# What `mkfs` puts in an image

After the files have been added the root directory has an entry for each of them (`entries`), and
the inodes have their bytes (`contents`). The kernel can mount the image (`mkfs_wellFormed`), as
long as there are inodes for all files and the entries do not end with a block: the size of the
directory is rounded up past the block then, and `mkfs_hole` has an image where it has a hole.
-/

namespace Xv6.Mkfs

open Function List
open Blocks

/-- The entries of the root directory. -/
def entries (files : List File) : List Dirent :=
  ⟨1, strncpy DIRSIZ [46]⟩ :: ⟨1, strncpy DIRSIZ [46, 46]⟩ ::
    (files.zipIdx 2).map fun x => ⟨BitVec.ofNat 16 x.2, strncpy DIRSIZ (shortname x.1.arg)⟩

/-- The bytes of an inode. -/
def contents (files : List File) (i : Nat) : List (BitVec 8) :=
  if i = ROOTINO then (entries files).flatMap Dirent.encode else ((files[i - 2]?).map File.data).getD []

theorem entries_append (files : List File) (f : File) : entries (files ++ [f]) =
    entries files ++ [⟨BitVec.ofNat 16 (files.length + 2), strncpy DIRSIZ (shortname f.arg)⟩] := by
  simp [entries, zipIdx_append, Nat.add_comm]

theorem length_strncpy (n : Nat) (name : Name) : (strncpy n name).length = n := by
  induction n generalizing name with
  | zero => rfl
  | succ n ih =>
    rw [strncpy]
    split
    · exact length_replicate
    · rw [length_cons, ih]

theorem length_encode (inum : BitVec 16) (name : Name) : (Dirent.encode ⟨inum, strncpy DIRSIZ name⟩).length = 16 := by
  simp [Dirent.encode, length_strncpy, DIRSIZ]

theorem length_root (files : List File) : ((entries files).flatMap Dirent.encode).length = 16 * (files.length + 2) := by
  have hlen : ∀ d ∈ entries files, (Dirent.encode d).length = 16 := by
    intro d hd
    simp only [entries, mem_cons, mem_map] at hd
    rcases hd with rfl | rfl | ⟨x, -, rfl⟩ <;> exact length_encode ..
  rw [length_flatMap, map_congr_left hlen, map_const', sum_replicate_nat, entries,
    length_cons, length_cons, length_map, length_zipIdx]
  omega

variable {s s' : Mk} {inum : Nat} {files : List File} {f : File} {c c' : Nat → List (BitVec 8)}

theorem inum_of_mem_entries {d : Dirent} (hd : d ∈ entries files) (hlen : files.length + 2 < 2 ^ 16) :
    0 < d.inum.toNat ∧ d.inum.toNat < files.length + 2 := by
  simp only [entries, mem_cons, mem_map] at hd
  rcases hd with rfl | rfl | ⟨⟨f, i⟩, hmem, rfl⟩
  · exact ⟨by decide, Nat.lt_add_left _ (by decide)⟩
  · exact ⟨by decide, Nat.lt_add_left _ (by decide)⟩
  · obtain ⟨hle, hlt, -⟩ := mem_zipIdx hmem
    rw [BitVec.toNat_ofNat, Nat.mod_eq_of_lt (by omega)]
    omega

theorem Built.congr (h : Built c s) (he : ∀ i, 0 < i → i < s.freeinode → c i = c' i) : Built c' s :=
  { h with ends := fun i h0 hi => he i h0 hi ▸ h.ends i h0 hi, bytes := fun i h0 hi => he i h0 hi ▸ h.bytes i h0 hi }

/-! ## Adding a file -/

/-- An entry is within one block. -/
theorem blocksIn_entry (n : Nat) : blocksIn (16 * n) (16 * n + 16) = 1 := by
  unfold blocksIn
  rw [if_pos (by omega)]
  show (16 * n + 16 - 1) / 1024 - 16 * n / 1024 + 1 = 1
  omega

theorem Built.appendEntry {n i : Nat} {name : Name} (h : Built c s) (h1 : 1 < s.freeinode) (hc : (c ROOTINO).length = 16 * n)
    (hn : n < INODES) : WP (Mkfs.appendEntry i name) (fun _ => FSSIZE < s.freeblock + 2)
      (fun _ s' => Built (update c ROOTINO (c ROOTINO ++ Dirent.encode ⟨BitVec.ofNat 16 i, strncpy DIRSIZ name⟩)) s' ∧
        s'.freeinode = s.freeinode ∧ s'.freeblock ≤ s.freeblock + 2) s := by
  have happ := h.iappend (show 0 < ROOTINO by decide) h1 (Dirent.encode ⟨BitVec.ofNat 16 i, strncpy DIRSIZ name⟩)
  rw [length_encode, hc, blocksIn_entry] at happ
  refine happ.weaken fun e he => ?_
  rcases he with ⟨-, hbig⟩ | ⟨-, hfull⟩
  · have hmax : 16 * INODES ≤ MAXFILE * BSIZE := by decide
    omega
  · rw [blocksIn_entry] at hfull
    exact hfull

theorem Built.appendFile (h : Built c s) (h0 : 0 < inum) (hlt : inum < s.freeinode) {fuel : Nat} {data : List (BitVec 8)}
    (hfuel : data.length ≤ fuel) : WP (Mkfs.appendFile inum fuel data) (fun _ => data ≠ [])
      (fun _ s' => Built (update c inum (c inum ++ data)) s' ∧ s'.freeinode = s.freeinode ∧
        (data = [] → s'.freeblock = s.freeblock)) s := by
  induction fuel generalizing c s data with
  | zero =>
    obtain rfl := eq_nil_of_length_eq_zero (Nat.le_zero.1 hfuel)
    exact .pure ⟨by rw [append_nil, update_eq_self]; exact h, rfl, fun _ => rfl⟩
  | succ fuel ih =>
    unfold Mkfs.appendFile
    refine .ite (fun hpos => ?_) fun hnil => ?_
    · have hne : data ≠ [] := ne_nil_of_length_pos hpos
      refine .bind (((h.iappend h0 hlt (data.take BSIZE)).weaken fun _ _ => hne).mono fun _ s₁ ⟨h₁, hf, _⟩ => ?_)
      have hB : BSIZE = 1024 := rfl
      refine ((ih h₁ (hf ▸ hlt) (by rw [length_drop]; omega)).weaken fun _ _ => hne).mono fun _ s₂ ⟨h₂, hf', _⟩ => ?_
      rw [update_self, update_idem, append_assoc, take_append_drop] at h₂
      exact ⟨h₂, hf'.trans hf, fun he => absurd he hne⟩
    · obtain rfl := eq_nil_of_length_eq_zero (Nat.eq_zero_of_not_pos hnil)
      exact .pure ⟨by rw [append_nil, update_eq_self]; exact h, rfl, fun _ => rfl⟩

/-- The name of a file is one that `mkfs` takes. -/
def NameOk (f : File) : Prop :=
  47 ∉ (if userDir.isPrefixOf f.arg then f.arg.drop 5 else f.arg) ∧ (shortname f.arg).length ≤ DIRSIZ

/-- The image has the files. -/
structure Added (files : List File) (s : Mk) : Prop where
  built : Built (contents files) s
  freeinode : s.freeinode = files.length + 2

theorem Added.addFile (h : Added files s) (hroom : files.length + 2 < INODES) :
    WP (Mkfs.addFile f) (fun _ => ¬(NameOk f ∧ f.data = [] ∧ s.freeblock + 2 ≤ FSSIZE))
      (fun _ s' => Added (files ++ [f]) s' ∧ (f.data = [] → s'.freeblock ≤ s.freeblock + 2)) s := by
  have hfree := h.freeinode
  unfold Mkfs.addFile
  refine .ite (fun hslash => .throw fun hok => hok.1.1 (contains_iff_mem.1 hslash)) fun _ =>
    .ite (fun _ => ?_) fun hlong => .throw fun hok => hlong hok.1.2
  have hnot : s.freeinode ≠ ROOTINO := by
    rw [hfree]
    exact Nat.succ_ne_succ_iff.2 (by omega)
  refine .bind ((h.built.ialloc (by omega) (by omega) (by rw [if_neg hnot])).mono ?_)
  rintro i s₁ ⟨rfl, hi₁, hb₁, h₁⟩
  have hroot : update (contents files) s.freeinode [] ROOTINO = (entries files).flatMap Dirent.encode := by
    rw [update_of_ne (by rw [hfree]; exact fun e => absurd e (by simp [ROOTINO]))]
    exact if_pos rfl
  refine .bind (((h₁.appendEntry (n := files.length + 2) (by omega) (by rw [hroot]; exact length_root files) hroom).weaken
    fun _ hfull hok => ?_).mono fun _ s₂ ⟨h₂, hi₂, hb₂⟩ => ?_)
  · omega
  refine ((h₂.appendFile (by omega) (by omega) (Nat.le_refl f.data.length)).weaken fun _ hne hok => hne hok.2.1).mono
    fun _ s₃ ⟨h₃, hi₃, hb₃⟩ => ⟨⟨h₃.congr fun i h0 hi => ?_, by simp; omega⟩, fun he => ?_⟩
  · have hne : s.freeinode ≠ ROOTINO := by rw [hfree]; simp [ROOTINO]
    by_cases e : i = s.freeinode
    · rw [e, update_self, update_of_ne hne, update_self, contents, if_neg hne]
      simp [hfree]
    · rw [update_of_ne e]
      by_cases e' : i = ROOTINO
      · rw [e', update_self, hroot, contents, if_pos rfl, entries_append, flatMap_append, hfree]
        simp
      · rw [update_of_ne e', update_of_ne e, contents, contents, if_neg e', if_neg e']
        have hlt : i - 2 < files.length := by
          have : i ≠ 1 := e'
          omega
        rw [getElem?_append_left hlt]
  · rw [hb₃ he]
    omega

theorem Added.forM {fs : List File} (h : Added files s) (hroom : files.length + fs.length + 2 ≤ INODES) :
    WP (forM fs Mkfs.addFile) (fun _ => ¬((∀ f ∈ fs, NameOk f ∧ f.data = []) ∧ s.freeblock + 2 * fs.length ≤ FSSIZE))
      (fun _ s' => Added (files ++ fs) s' ∧ ((∀ f ∈ fs, f.data = []) → s'.freeblock ≤ s.freeblock + 2 * fs.length)) s := by
  induction fs generalizing files s with
  | nil => exact .pure ⟨by rw [append_nil]; exact h, fun _ => Nat.le_refl _⟩
  | cons f fs ih =>
    rw [length_cons] at hroom
    rw [forM_cons]
    refine .bind (((h.addFile (f := f) (by omega)).weaken fun _ hno hok => hno ?_).mono fun _ s₁ ⟨h₁, hb₁⟩ => ?_)
    · obtain ⟨hname, hdata⟩ := hok.1 f mem_cons_self
      have := hok.2
      rw [length_cons] at this
      exact ⟨hname, hdata, by omega⟩
    · refine ((ih h₁ (by simp; omega)).weaken fun _ hno hok => hno ?_).mono fun _ s₂ ⟨h₂, hb₂⟩ => ⟨?_, fun he => ?_⟩
      · have := hb₁ (hok.1 f mem_cons_self).2
        have := hok.2
        rw [length_cons] at this
        exact ⟨fun g hg => hok.1 g (mem_cons_of_mem _ hg), by omega⟩
      · rw [append_assoc] at h₂
        exact h₂
      · have := hb₁ (he f mem_cons_self)
        have := hb₂ fun g hg => he g (mem_cons_of_mem _ hg)
        rw [length_cons]
        omega

/-! ## The first state -/

theorem datastart_still (s : Mk) : (still s).sb.datastart = nmeta := datastart_view s 0 noInode

/-- The blank image with the super block. -/
def Mk.start : Mk := blank.put 1 sbSector

theorem dinode_start (i : Nat) : Mk.start.dinode i = noInode := by
  simp only [Mk.dinode, Mk.start, Mk.put, update_of_ne (iblock_ne_one i), blank]
  exact getDinode_zeroes ..

theorem addrOf_start (x : Blocks.Slot) : addrOf (still Mk.start) x = 0 := by
  rw [addrOf, cur_still, dinode_start, ite_self]
  cases x <;> rfl

theorem built_start : Built c Mk.start := by
  have hcur : ∀ i, cur (still Mk.start) i = noInode := fun i => by rw [cur_still, dinode_start, ite_self]
  refine ⟨⟨rfl, Nat.le_refl _, by decide, fun b hb => ?_⟩, by decide, ?_, ⟨⟨?_, fun x hx => ?_,
    fun x hx => ?_, fun x y hx => ?_, fun b hlo _ hu => ?_⟩, fun b hb => decide_eq_true ?_, by decide,
    fun i ip _ hv => (by cases hv), fun i _ ht => ?_⟩, fun i _ _ => dinode_start i, fun i h0 hi => ?_,
    fun i h0 hi => ?_, fun i h0 hi => ?_, fun i h0 hi => ?_⟩
  · have : 47 ≤ b := hb
    simp only [Mk.start, Mk.put, update_of_ne (show b ≠ 1 by omega), blank]
  · simp only [Mk.start, Mk.put, update_self]
  · exact Nat.succ_pos _
  · exact absurd (addrOf_start x) hx
  · exact absurd (addrOf_start x) hx
  · exact absurd (addrOf_start x) hx
  · have hlt : b < nmeta := of_decide_eq_true hu
    rw [datastart_still] at hlo
    omega
  · rw [datastart_still] at hb
    exact hb
  · rw [hcur] at ht
    exact absurd rfl ht
  all_goals
    have : i < 1 := hi
    omega

/-! ## The size of the root directory -/

/-- The inode with another size. -/
def resize (din : Dinode) (n : Nat) : Dinode := { din with size := BitVec.ofNat 32 n }

theorem dinode_resize (s : Mk) (inum n i : Nat) : (s.setDinode inum (resize (s.dinode inum) n)).dinode i =
    update s.dinode inum (resize (s.dinode inum) n) i := by
  have hd : ∀ k, NDIRECT < k → (resize (s.dinode inum) n).addrs k = 0 := dinode_short s inum
  exact dinode_setDinode s hd i

/-- Another size moves no block. -/
theorem still_resize (hi : inum < INODES) (n : Nat) :
    addrOf (still (s.setDinode inum (resize (s.dinode inum) n))) = addrOf (still s) ∧
      byteAt (still (s.setDinode inum (resize (s.dinode inum) n))) = byteAt (still s) := by
  have hd : ∀ k, NDIRECT < k → (resize (s.dinode inum) n).addrs k = 0 := dinode_short s inum
  have hv := view_setDinode (s := s) hi hd (show _ = (s.dinode inum).type from rfl) rfl
  have hself : (s.setDinode inum (resize (s.dinode inum) n)).dinode inum = resize (s.dinode inum) n := by
    rw [dinode_resize, update_self]
  rw [addrOf_view s hi, byteAt_view s hi] at hv
  rw [← addrOf_view _ hi, ← byteAt_view _ hi, hself]
  exact hv

/-- The image after `fixRoot`. -/
def Mk.rounded (s : Mk) : Mk :=
  s.setDinode ROOTINO (resize (s.dinode ROOTINO) (((s.dinode ROOTINO).size.toNat / BSIZE + 1) * BSIZE))

theorem dinode_rounded (s : Mk) (i : Nat) : s.rounded.dinode i =
    update s.dinode ROOTINO (resize (s.dinode ROOTINO) (((s.dinode ROOTINO).size.toNat / BSIZE + 1) * BSIZE)) i :=
  dinode_resize ..

theorem wp_fixRoot {E : Fail → Prop} {Q : Unit → Mk → Prop} (h : Good s) (hq : Q () s.rounded) : WP fixRoot E Q s := by
  have hi : ROOTINO < INODES := by decide
  exact .bind (wp_rinode h hi (wp_winode h hi hq))

/-- The bytes of a directory with zeroes up to the end of its last block. -/
def padded (bs : List (BitVec 8)) : List (BitVec 8) := bs ++ List.replicate (BSIZE - bs.length % BSIZE) 0

theorem length_padded (bs : List (BitVec 8)) : (padded bs).length = (bs.length / BSIZE + 1) * BSIZE := by
  have hB : BSIZE = 1024 := rfl
  rw [padded, length_append, length_replicate, hB]
  omega

theorem Built.rounded (h : Built c s) (h1 : ROOTINO < s.freeinode) (hmod : (c ROOTINO).length % BSIZE ≠ 0) :
    Built (update c ROOTINO (padded (c ROOTINO))) s.rounded := by
  have hi : ROOTINO < INODES := by decide
  have hB : BSIZE = 1024 := rfl
  have hM := maxfile_lt
  have hsize := h.size_eq (by decide) h1
  have hends := h.ends ROOTINO (by decide) h1
  obtain ⟨hmax, hfill⟩ := h.own.filled ROOTINO nofun (by
    rw [cur_still, if_pos hi]
    exact h.type_ne (by decide) h1)
  rw [cur_still, if_pos hi, hsize] at hmax hfill
  obtain ⟨haddr, hbyte⟩ : addrOf (still s.rounded) = addrOf (still s) ∧ byteAt (still s.rounded) = byteAt (still s) :=
    still_resize hi _
  have hdin := dinode_rounded s
  have hcur : ∀ i, i ≠ ROOTINO → cur (still s.rounded) i = cur (still s) i := fun i hne => by
    rw [cur_still, cur_still, hdin, update_of_ne hne]
  have hlast : ((c ROOTINO).length / BSIZE + 1) * BSIZE ≤ MAXFILE * BSIZE := by
    have : MAXFILE = 268 := rfl
    rw [this, hB] at hmax ⊢
    rw [hB] at hmod
    omega
  have hnew : (cur (still s.rounded) ROOTINO).size.toNat = ((c ROOTINO).length / BSIZE + 1) * BSIZE := by
    rw [cur_still, if_pos hi, hdin, update_self, hsize]
    exact Nat.mod_eq_of_lt (by omega)
  have hblock : ∀ bn, bn * BSIZE < ((c ROOTINO).length / BSIZE + 1) * BSIZE → bn * BSIZE < (c ROOTINO).length := by
    intro bn hbn
    rw [hB] at hbn hmod ⊢
    omega
  refine ⟨h.good.setDinode hi _, h.inodes, (sect_setDinode_one ..).trans h.sb, ⟨haddr ▸ h.own.owned, h.own.metadata,
    h.own.size, fun i ip _ hv => (by cases hv), fun i _ ht => ?_⟩, fun i hi' hfree => ?_, fun i h0 hi' => ?_,
    fun i h0 hi' => ?_, fun i h0 hi' => ?_, fun i h0 hi' => ?_⟩
  · by_cases e : i = ROOTINO
    · rw [e, hnew, haddr]
      exact ⟨hlast, fun bn hbn => hfill bn (hblock bn hbn)⟩
    · rw [hcur i e] at ht ⊢
      rw [haddr]
      exact h.own.filled i nofun ht
  · have hne : i ≠ ROOTINO := by
      rintro rfl
      exact absurd hfree (not_or.2 ⟨by decide, Nat.not_le.2 h1⟩)
    rw [hdin, update_of_ne hne]
    exact h.free i hi' hfree
  · rw [hdin]
    by_cases e : i = ROOTINO
    · rw [e, update_self]
      exact h.type ROOTINO (by decide) h1
    · rw [update_of_ne e]
      exact h.type i h0 hi'
  · rw [hdin]
    by_cases e : i = ROOTINO
    · rw [e, update_self]
      exact h.nlink ROOTINO (by decide) h1
    · rw [update_of_ne e]
      exact h.nlink i h0 hi'
  · by_cases e : i = ROOTINO
    · rw [e, update_self, length_padded]
      have hle : (c ROOTINO).length ≤ ((c ROOTINO).length / BSIZE + 1) * BSIZE := by
        rw [hB]
        omega
      refine ⟨fun bn hbn => ?_, fun k hk hne => ?_⟩
      · rw [haddr]
        exact hends.tight bn (Nat.le_trans hle hbn)
      · rw [haddr] at hne
        rw [hbyte]
        exact hends.tail k (Nat.le_trans hle hk) hne
    · rw [update_of_ne e]
      have := h.ends i h0 hi'
      exact ⟨haddr.symm ▸ this.tight, haddr.symm ▸ hbyte.symm ▸ this.tail⟩
  · by_cases e : i = ROOTINO
    · -- the bytes past the entries are in the last block, which was zeroed
      have hbytes := h.bytes ROOTINO (by decide) h1
      rw [e, update_self]
      refine ext_getElem (by rw [Blocks.length_content, hnew, length_padded]) fun k hk hk' => ?_
      rw [length_padded] at hk'
      simp only [content, getElem_map, getElem_range, hbyte, padded, getElem_append, getElem_replicate]
      split
      · rename_i hlt
        simp only [← hbytes, content, getElem_map, getElem_range]
      · rename_i hge
        refine hends.tail k (Nat.le_of_not_lt hge) (hfill _ (hblock _ ?_))
        rw [hB] at hk' ⊢
        omega
    · rw [update_of_ne e, content, hcur i e, hbyte]
      exact h.bytes i h0 hi'

/-! ## The bitmap, and mounting -/

theorem bitmap_bit (used k : Nat) : (bitmap used (k / 8)).getLsbD (k % 8) = decide (k < used) := by
  induction used with
  | zero => simp [bitmap, zeroes]
  | succ used ih =>
    rw [bitmap, range_succ, foldl_append, ← bitmap, foldl_cons, foldl_nil]
    by_cases e : k / 8 = used / 8
    · rw [e, update_self, ← e, BitVec.getLsbD_or, ih]
      have hbit : (1#8 <<< (used % 8)).getLsbD (k % 8) = decide (k = used) := by
        rw [← BitVec.twoPow_eq, BitVec.getLsbD_twoPow]
        have hlt : used % 8 < 8 := Nat.mod_lt _ (by decide)
        simp only [hlt, decide_true, Bool.true_and, decide_eq_decide]
        omega
      rw [hbit, ← Bool.decide_or, decide_eq_decide]
      omega
    · rw [update_of_ne e, ih, decide_eq_decide]
      omega

/-- The image at the end. -/
def Mk.final (s : Mk) : Mk := s.put bmapstart (bitmap s.freeblock)

theorem sect_final_one (h : s.sect 1 = sbSector) : s.final.sect 1 = sbSector := by
  simp only [Mk.final, Mk.put, update_of_ne (show (1 : Nat) ≠ bmapstart by decide), h]

theorem sb_mount (h : s.sect 1 = sbSector) : (mount s.final).sb = ⟨FSSIZE, NINODES, bmapstart⟩ := by
  simp only [mount, sect_final_one h, Blocks.Superblock.mk.injEq]
  decide +kernel

/-- The file system without what would be inodes behind the inode blocks. -/
def inodeArea (fs : Fs) : Fs := { fs with dinode := fun i => if i < INODES then fs.dinode i else noInode }

theorem dinode_inodeArea (h : s.sect 1 = sbSector) {i : Nat} (hi : i < INODES) : (mount s.final).dinode i = s.dinode i := by
  have hne : iblock i ≠ bmapstart := by
    have h1 : bmapstart = 46 := rfl
    have h2 : INODES = 208 := rfl
    have h3 : iblock i = i / 16 + 33 := rfl
    omega
  have hstart : (readLe (s.final.sect 1) 24 4 : BitVec 32).toNat = inodestart := by
    rw [sect_final_one h]
    decide +kernel
  show getDinode (s.final.sect (i / IPB + _)) _ = _
  rw [hstart, Mk.dinode]
  exact congrArg (getDinode · _) (update_of_ne hne ..)

theorem dinode_mount (h : s.sect 1 = sbSector) : (inodeArea (mount s.final)).dinode = (still s).dinode := by
  funext i
  show (if i < INODES then (mount s.final).dinode i else noInode) = if i < INODES then s.dinode i else noInode
  split
  · exact dinode_inodeArea h ‹_›
  · rfl

theorem data_mount (h : s.sect 1 = sbSector) : (mount s.final).data = (still s).data := by
  funext b
  show (if b < (mount s.final).sb.datastart then Blocks.zeroBlock else blockOf (s.final.sect b)) =
    if b < nmeta then Blocks.zeroBlock else blockOf (s.sect b)
  rw [sb_mount h, show Blocks.Superblock.datastart ⟨FSSIZE, NINODES, bmapstart⟩ = nmeta from datastart_still s]
  split
  · rfl
  · have hne : b ≠ bmapstart := by
      have h1 : bmapstart = 46 := rfl
      have h2 : nmeta = 47 := rfl
      omega
    simp only [Mk.final, Mk.put, update_of_ne hne]

theorem used_mount (h : s.sect 1 = sbSector) {b : Nat} (hb : b < FSSIZE) :
    (mount s.final).used b = decide (b < s.freeblock) := by
  have hB : BPB = 8192 := rfl
  have hF : FSSIZE = 2000 := rfl
  have hself : s.final.sect bmapstart = bitmap s.freeblock := by simp only [Mk.final, Mk.put, update_self]
  show (s.final.sect ((mount s.final).sb.bmapstart + b / BPB) (b % BPB / 8)).getLsbD (b % 8) = _
  rw [sb_mount h, Nat.div_eq_of_lt (by omega), Nat.mod_eq_of_lt (by omega), Nat.add_zero, hself, bitmap_bit]

theorem diskAddr_mount (h : s.sect 1 = sbSector) : diskAddr (inodeArea (mount s.final)) = addrOf (still s) := by
  funext x
  rw [diskAddr, dinode_mount h, show (inodeArea (mount s.final)).data = _ from data_mount h]
  rfl

/-- The kernel sees the image as it was built. -/
theorem Built.wellFormed (h : Built c s) : WellFormed (inodeArea (mount s.final)) := by
  have hsb' : (inodeArea (mount s.final)).sb = (still s).sb := sb_mount h.sb
  have hused : (inodeArea (mount s.final)).used = (mount s.final).used := rfl
  have hdata : (still s).sb.datastart ≤ FSSIZE := by rw [datastart_still]; decide
  refine ⟨fun _ => rfl, ?_, fun b hb => ?_, ?_, fun i => ?_⟩
  · rw [diskAddr_mount h.sb, hsb']
    have hown := h.own.owned
    refine ⟨hown.pos, hown.range, fun x hx => ?_, hown.inj, fun b hlo hhi hu => ?_⟩
    · rw [hused, used_mount h.sb (hown.range x hx).2]
      exact hown.marked x hx
    · rw [hused, used_mount h.sb hhi] at hu
      exact hown.only b hlo hhi hu
  · rw [hsb'] at hb
    rw [hused, used_mount h.sb (Nat.lt_of_lt_of_le hb hdata)]
    exact h.own.metadata b hb
  · rw [hsb']
    exact h.own.size
  · rw [diskAddr_mount h.sb, dinode_mount h.sb]
    exact h.own.filled i nofun

theorem content_mount (h : s.sect 1 = sbSector) : content (inodeArea (mount s.final)) = content (still s) := by
  have hdata : (inodeArea (mount s.final)).data = (still s).data := data_mount h
  have hcur : cur (inodeArea (mount s.final)) = cur (still s) := by
    funext i
    show (inodeArea (mount s.final)).dinode i = (still s).dinode i
    rw [dinode_mount h]
  have haddr : addrOf (inodeArea (mount s.final)) = addrOf (still s) := by
    funext x
    rw [addrOf, addrOf, hcur, hdata]
  funext i
  rw [content, content, hcur]
  refine map_congr_left fun k _ => ?_
  rw [byteAt, byteAt, haddr, hdata]

/-! ## Whole runs -/

/-- Empty files, with names that `mkfs` takes and blocks for their entries. -/
def Small (files : List File) : Prop :=
  (∀ f ∈ files, NameOk f ∧ f.data = []) ∧ nmeta + 2 * (files.length + 2) ≤ FSSIZE

theorem wp_balloc {E : Fail → Prop} {Q : Unit → Mk → Prop} (h : Good s) (hq : Q () s.final) :
    WP (balloc s.freeblock) E Q s := by
  have hlt : s.freeblock < BPB := Nat.lt_of_le_of_lt h.hi (by decide)
  exact .ite (fun _ => wp_wsect (by rw [h.len]; decide) hq) fun hc => absurd hlt hc

theorem wp_main (hroom : files.length + 2 ≤ INODES) :
    WP (main files) (fun _ => ¬Small files) (fun _ s' => ∃ s, Added files s ∧ s' = s.rounded.final) blank := by
  have hfree : Mk.start.freeinode = 1 := rfl
  have hblock : Mk.start.freeblock = nmeta := rfl
  have hone : ROOTINO = 1 := rfl
  unfold main
  refine .bind (wp_wsect (by decide) (.bind (((built_start (c := fun _ => [])).ialloc (by decide) (by decide) rfl).mono ?_)))
  rintro i s₁ ⟨rfl, hi₁, hb₁, h₁⟩
  refine .ite (fun _ => ?_) fun hne => absurd rfl hne
  -- the entries "." and ".."
  refine .bind (((h₁.appendEntry (n := 0) (by omega) rfl (by decide)).weaken fun _ hfull hok => ?_).mono
    fun _ s₂ ⟨h₂, hi₂, hb₂⟩ => ?_)
  · have := hok.2
    omega
  refine .bind (((h₂.appendEntry (n := 1) (by omega) rfl (by decide)).weaken fun _ hfull hok => ?_).mono
    fun _ s₃ ⟨h₃, hi₃, hb₃⟩ => ?_)
  · have := hok.2
    omega
  have hadd : Added [] s₃ := by
    refine ⟨h₃.congr fun i h0 hi => ?_, by rw [hi₃, hi₂, hi₁, hfree]; rfl⟩
    obtain rfl : i = ROOTINO := by omega
    rfl
  refine .bind (((hadd.forM (by simpa using hroom)).weaken fun _ hno hok => hno ⟨hok.1, ?_⟩).mono fun _ s₄ ⟨h₄, _⟩ => ?_)
  · have := hok.2
    omega
  refine .bind (wp_fixRoot h₄.built.good (.bind (.get ?_)))
  exact wp_balloc (h₄.built.good.setDinode (by decide) _) ⟨s₄, h₄, rfl⟩

theorem mkfs_final (hroom : files.length + 2 ≤ INODES) {img : Mk} (hrun : mkfs files = .ok img) :
    ∃ s, Added files s ∧ img = s.rounded.final := by
  have h := wp_main hroom
  rw [mkfs] at hrun
  split at hrun
  · next s' he =>
    cases hrun
    exact h.ok he
  · cases hrun

/-- `mkfs` does not fail on small files. -/
theorem mkfs_small (hroom : files.length + 2 ≤ INODES) (hsmall : Small files) : ∃ img, mkfs files = .ok img := by
  have h := wp_main hroom
  rw [mkfs]
  split
  · exact ⟨_, rfl⟩
  · next e he => exact absurd hsmall (h.error he)

/-- The file system is well formed and has the files: the root directory has an entry for each of them
with the number of an inode in the inode blocks, and the inodes are intact and have the bytes. -/
structure Holds (files : List File) (fs : Fs) : Prop where
  wellFormed : WellFormed fs
  sb : fs.sb = ⟨FSSIZE, NINODES, bmapstart⟩
  root : content fs ROOTINO = padded ((entries files).flatMap Dirent.encode)
  entry : ∀ d ∈ entries files, 0 < d.inum.toNat ∧ d.inum.toNat < fs.sb.ninodes ∧
    inodestart ≤ iblock d.inum.toNat ∧ iblock d.inum.toNat < fs.sb.bmapstart
  dir : (fs.dinode ROOTINO).type = T_DIR ∧ (fs.dinode ROOTINO).nlink = 1
  file : ∀ k f, files[k]? = some f → (fs.dinode (k + 2)).type = T_FILE ∧ (fs.dinode (k + 2)).nlink = 1 ∧
    content fs (k + 2) = f.data

theorem Added.holds (hadd : Added files s) (hroom : files.length + 2 ≤ NINODES) (hroot : (files.length + 2) % 64 ≠ 0) :
    Holds files (inodeArea (mount s.rounded.final)) := by
  have hB : BSIZE = 1024 := rfl
  have hN : NINODES = 200 := rfl
  have hI : INODES = 208 := rfl
  have hone : ROOTINO = 1 := rfl
  have hlen : contents files ROOTINO = (entries files).flatMap Dirent.encode := if_pos rfl
  have hfree := hadd.freeinode
  have h := hadd.built.rounded (by omega) (by rw [hlen, length_root, hB]; omega)
  have hfree' : s.rounded.freeinode = files.length + 2 := hfree
  have hcontent := content_mount h.sb
  have hdin : ∀ i < INODES, (inodeArea (mount s.rounded.final)).dinode i = s.rounded.dinode i := fun i hi => by
    rw [dinode_mount h.sb]
    exact if_pos hi
  refine ⟨h.wellFormed, sb_mount h.sb, ?_, fun d hd => ?_, ⟨?_, ?_⟩, fun k f hk => ?_⟩
  · rw [hcontent, h.bytes ROOTINO (by decide) (by omega), update_self, hlen]
  · obtain ⟨hpos, hnum⟩ := inum_of_mem_entries hd (by omega)
    rw [show (inodeArea (mount s.rounded.final)).sb = _ from sb_mount h.sb]
    have h1 : inodestart = 33 := rfl
    have h2 : bmapstart = 46 := rfl
    have h3 : iblock d.inum.toNat = d.inum.toNat / 16 + 33 := rfl
    show 0 < d.inum.toNat ∧ d.inum.toNat < NINODES ∧ inodestart ≤ iblock d.inum.toNat ∧ iblock d.inum.toNat < bmapstart
    omega
  · rw [hdin _ (by decide), h.type ROOTINO (by decide) (by omega), if_pos rfl]
  · rw [hdin _ (by decide), h.nlink ROOTINO (by decide) (by omega)]
  · have hlt := (List.getElem?_eq_some_iff.1 hk).1
    have hne : k + 2 ≠ ROOTINO := by omega
    rw [hdin _ (by omega), h.type (k + 2) (by omega) (by omega), if_neg hne, h.nlink (k + 2) (by omega) (by omega),
      hcontent, h.bytes (k + 2) (by omega) (by omega), update_of_ne hne, contents, if_neg hne,
      Nat.add_sub_cancel, hk]
    exact ⟨rfl, rfl, rfl⟩

/-- Where the entries fill their last block, the root directory gets another one that it does not have. -/
theorem Added.hole (hadd : Added files s) (hroot : (files.length + 2) % 64 = 0) :
    ((inodeArea (mount s.rounded.final)).dinode ROOTINO).size.toNat = ((files.length + 2) / 64 + 1) * BSIZE ∧
      diskAddr (inodeArea (mount s.rounded.final)) (slotAt ROOTINO ((files.length + 2) / 64)) = 0 := by
  have hB : BSIZE = 1024 := rfl
  have hI : INODES = 208 := rfl
  have hone : ROOTINO = 1 := rfl
  have hfree := hadd.freeinode
  have hle := hadd.built.inodes
  have h1 : ROOTINO < s.freeinode := by omega
  have hlen : (contents files ROOTINO).length = 16 * (files.length + 2) := length_root files
  have hsb : s.rounded.sect 1 = sbSector := (sect_setDinode_one ..).trans hadd.built.sb
  constructor
  · rw [dinode_mount hsb]
    show (s.rounded.dinode ROOTINO).size.toNat = _
    rw [dinode_rounded, update_self, hadd.built.size_eq (by decide) h1, hlen, resize, BitVec.toNat_ofNat, hB,
      Nat.mod_eq_of_lt (by omega)]
    omega
  · rw [diskAddr_mount hsb, Mk.rounded, (still_resize (by decide) _).1]
    exact (hadd.built.ends ROOTINO (by decide) h1).tight _ (by rw [hlen, hB]; omega)

/-- The entry of the file at `k` has the number `k + 2`. -/
theorem entry_of_getElem {k : Nat} (hk : files[k]? = some f) :
    (⟨BitVec.ofNat 16 (k + 2), strncpy DIRSIZ (shortname f.arg)⟩ : Dirent) ∈ entries files := by
  refine mem_cons_of_mem _ (mem_cons_of_mem _ (mem_map.2 ⟨(f, k + 2), ?_, rfl⟩))
  exact mem_zipIdx_iff_le_and_getElem?_sub.2 ⟨by omega, by simpa using hk⟩

/-- The kernel can mount the image and finds the files in it if and only if there are inodes for all of
them and the entries of the root directory do not end with a block. -/
theorem mkfs_wellFormed {files : List File} {img : Mk} (hrun : mkfs files = .ok img) :
    Holds files (inodeArea (mount img)) ↔ files.length + 2 ≤ NINODES ∧ (files.length + 2) % 64 ≠ 0 := by
  have hN : NINODES = 200 := rfl
  have hI : INODES = 208 := rfl
  refine ⟨fun h => ?_, fun ⟨hroom, hroot⟩ => ?_⟩
  · have hroom : files.length + 2 ≤ NINODES := by
      -- the entry of file 198 has the number 200
      by_contra hmany
      have hk : 198 < files.length := by omega
      have hlt := (h.entry _ (entry_of_getElem (List.getElem?_eq_getElem hk))).2.1
      rw [h.sb] at hlt
      exact absurd hlt (show ¬(BitVec.ofNat 16 200).toNat < NINODES by decide)
    refine ⟨hroom, fun hroot => ?_⟩
    obtain ⟨s, hadd, rfl⟩ := mkfs_final (by omega) hrun
    obtain ⟨hsize, hnone⟩ := hadd.hole hroot
    refine (h.wellFormed.filled ROOTINO (by rw [h.dir.1]; decide)).2 _ ?_ hnone
    rw [hsize]
    exact Nat.mul_lt_mul_of_pos_right (Nat.lt_succ_self _) (by decide)
  · obtain ⟨s, hadd, rfl⟩ := mkfs_final (by omega) hrun
    exact hadd.holds hroom hroot

/-- Empty files, named "a0", "a1" and so on. -/
def numbered (n : Nat) : List File := (List.range n).map fun i => ⟨[97, BitVec.ofNat 8 (i + 48)], []⟩

theorem small_numbered {n : Nat} (hn : n ≤ 62) : Small (numbered n) := by
  have hname : ∀ i < 62, NameOk ⟨[97, BitVec.ofNat 8 (i + 48)], []⟩ := by
    unfold NameOk
    decide
  refine ⟨fun f hf => ?_, ?_⟩
  · obtain ⟨i, hi, rfl⟩ := mem_map.1 hf
    exact ⟨hname i (Nat.lt_of_lt_of_le (mem_range.1 hi) hn), rfl⟩
  · have h1 : nmeta = 47 := rfl
    have h2 : FSSIZE = 2000 := rfl
    rw [numbered, length_map, length_range]
    omega

theorem mkfs_wellFormed_two : ∃ img, mkfs (numbered 2) = .ok img ∧ Holds (numbered 2) (inodeArea (mount img)) := by
  obtain ⟨img, hrun⟩ := mkfs_small (show (numbered 2).length + 2 ≤ INODES by decide) (small_numbered (by decide))
  exact ⟨img, hrun, (mkfs_wellFormed hrun).2 ⟨by decide, by decide⟩⟩

/-- With 62 files the entries fill a block, and the root directory gets a second one that it does not have. -/
theorem mkfs_hole : ((numbered 62).map fun f => shortname f.arg).Nodup ∧ ∃ img, mkfs (numbered 62) = .ok img ∧
    ((mount img).dinode ROOTINO).size = 2048 ∧ diskAddr (mount img) (slotAt ROOTINO 1) = 0 := by
  refine ⟨by decide, ?_⟩
  obtain ⟨img, hrun⟩ := mkfs_small (show (numbered 62).length + 2 ≤ INODES by decide) (small_numbered (by decide))
  obtain ⟨s, hadd, rfl⟩ := mkfs_final (by decide) hrun
  obtain ⟨hsize, hnone⟩ := hadd.hole (by decide)
  exact ⟨_, hrun, BitVec.eq_of_toNat_eq hsize, hnone⟩

end Xv6.Mkfs
