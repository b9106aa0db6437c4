import Xv6.Blocks.Cached

/-!
# Reads through an open file

`fileread` on a file of an inode, and a sequence of calls that share its offset. The length is an
`int`, which `readi` takes as a `uint`. Where no length is negative the calls partition the file from
the offset on (`reads_partition`); a negative one may read all of it (`read_negative`).
-/

namespace Xv6.Blocks

open List

/-- `fileread(f, addr, n)`, for a file of inode `inum` at `off`, to memory of which `avail` bytes can be
written: what is copied there (`none` for -1), and the offset then. -/
def fileread (inum : Nat) (off n : BitVec 32) (avail : Nat) : M (Option (List (BitVec 8)) × BitVec 32) := do
  ilock inum
  let r ← readi inum off n avail
  iunlock inum
  pure (r, match r with
    | some bs => off + BitVec.ofNat 32 bs.length
    | none => off)

/-- Calls `fileread(f, addr, n)`, one after the other. -/
def filereads (inum : Nat) : BitVec 32 → List (BitVec 32 × Nat) → M (List (Option (List (BitVec 8))) × BitVec 32)
  | off, [] => pure ([], off)
  | off, (n, avail) :: calls => do
    let (r, off) ← fileread inum off n avail
    let (rs, off) ← filereads inum off calls
    pure (r :: rs, off)

variable {inum : Nat} {fs fs' : Fs} {E : Panic → Prop}

/-- Inode `inum` is that of an open file. -/
structure Opened (inum : Nat) (fs : Fs) : Prop where
  own : Own none fs
  ref : 0 < (fs.itable inum).ref
  type : (cur fs inum).type ≠ 0

/-- The inode is in memory, and its content is that of `fs`. -/
structure Loaded (inum : Nat) (fs fs' : Fs) : Prop where
  opened : Opened inum fs'
  content : content fs' inum = content fs inum
  inode : ∃ ip, (fs'.itable inum).inode = some ip

theorem wp_ilock_opened (h : Opened inum fs) : WP (ilock inum) E (fun _ => Loaded inum fs) fs := by
  have hload : WP (ilock inum) (fun _ => False) (fun _ fs' => 0 < (fs'.itable inum).ref ∧ cur fs' inum = cur fs inum ∧
      fs'.data = fs.data ∧ ∃ ip, (fs'.itable inum).inode = some ip) fs := by
    unfold ilock
    refine .bind (.get (.ite (fun hlt => absurd h.ref (by omega)) fun _ => ?_))
    cases hi : (fs.itable inum).inode with
    | some ip => exact .pure ⟨h.ref, rfl, rfl, ip, hi⟩
    | none =>
      have hcur : cur fs inum = fs.dinode inum := by rw [cur, hi]; rfl
      refine .bind (wp_setInode (.ite (fun ht => absurd ht (hcur ▸ h.type)) fun _ => .pure ?_))
      exact ⟨by rw [ref_setInode]; exact h.ref, by rw [cur_setInode_self, hcur], rfl, _, inode_setInode ..⟩
  refine ((Keeps.ilock fs h.own).and hload).weaken (fun _ hc => hc.2.elim) |>.mono ?_
  rintro _ fs' ⟨hown, href, hcur, hdata, hi⟩
  refine ⟨⟨hown, href, hcur ▸ h.type⟩, content_congr (by rw [hcur]) fun k => ?_, hi⟩
  rw [byteAt, byteAt, addrOf, addrOf, slotAt_inum, hcur, hdata]

/-- A length that is not negative does not wrap around. -/
theorem readable_eq {c : List (BitVec 8)} {off n : BitVec 32} (hc : c.length ≤ MAXFILE * BSIZE) (hn : 0 ≤ n.toInt) :
    readable c off n = (c.drop off.toNat).take n.toNat := by
  have hM : MAXFILE * BSIZE = 274432 := by decide
  have hlt : n.toNat < 2 ^ 31 := by
    rw [BitVec.toInt_eq_toNat_cond] at hn
    split at hn <;> omega
  rw [readable]
  split
  · rename_i h
    rw [drop_eq_nil_of_le (by omega), take_nil]
  · rfl

theorem wp_fileread (h : Opened inum fs) {off n : BitVec 32} {avail : Nat} (hn : 0 ≤ n.toInt) (ha : n.toInt ≤ avail) :
    WP (fileread inum off n avail) E (fun r fs' => Opened inum fs' ∧ content fs' inum = content fs inum ∧
      r.1 = some (((content fs inum).drop off.toNat).take n.toNat) ∧
      r.2.toNat = off.toNat + (((content fs inum).drop off.toNat).take n.toNat).length) fs := by
  have hM : MAXFILE * BSIZE = 274432 := by decide
  have hlen : (content fs inum).length ≤ MAXFILE * BSIZE := by
    rw [length_content]
    exact (h.own.filled inum nofun h.type).1
  have hnat : (n.toNat : Int) = n.toInt := by
    rw [BitVec.toInt_eq_toNat_cond] at hn ⊢
    split at hn <;> omega
  unfold fileread
  refine .bind ((wp_ilock_opened h).mono fun _ fs₁ h₁ => ?_)
  obtain ⟨ip, hi⟩ := h₁.inode
  refine .bind ((wp_readi_content (h₁.opened.own.cleanOf hi) hi off n avail).mono fun r fs₂ ⟨hfs, hr⟩ => ?_)
  subst hfs
  rw [h₁.content, readable_eq hlen hn, if_pos (by simp; omega)] at hr
  subst hr
  unfold iunlock
  refine .bind (.bind (.get (.ite (fun hlt => absurd h₁.opened.ref (by omega)) fun _ => .pure (.pure ?_))))
  refine ⟨h₁.opened, h₁.content, rfl, ?_⟩
  rw [BitVec.toNat_add, BitVec.toNat_ofNat]
  have := off.isLt
  simp only [length_take, length_drop]
  omega

/-- The reads of a file with the bytes `c`, from `off` on: each returns what is asked for, or what is left. -/
structure Partitions (c : List (BitVec 8)) (off : Nat) (calls : List (BitVec 32 × Nat)) (pieces : List (List (BitVec 8))) :
    Prop where
  length : pieces.length = calls.length
  sizes : ∀ (i : Nat) call piece, calls[i]? = some call → pieces[i]? = some piece → (piece.length : Int) =
    min call.1.toInt (c.length - (off + (pieces.take i).flatten.length) : Nat)
  flatten : pieces.flatten = (c.drop off).take pieces.flatten.length

theorem Partitions.cons {c : List (BitVec 8)} {off : Nat} {call : BitVec 32 × Nat} {calls : List (BitVec 32 × Nat)}
    {pieces : List (List (BitVec 8))} (hn : 0 ≤ call.1.toInt)
    (h : Partitions c (off + ((c.drop off).take call.1.toNat).length) calls pieces) :
    Partitions c off (call :: calls) ((c.drop off).take call.1.toNat :: pieces) := by
  have hnat : (call.1.toNat : Int) = call.1.toInt := by
    rw [BitVec.toInt_eq_toNat_cond] at hn ⊢
    split at hn <;> omega
  refine ⟨congrArg (· + 1) h.length, fun i call' piece hc hp => ?_, ?_⟩
  · cases i with
    | zero =>
      cases hc
      cases hp
      simp only [take_zero, flatten_nil, length_nil, Nat.add_zero, length_take, length_drop]
      omega
    | succ i =>
      rw [h.sizes i call' piece hc hp, take_succ_cons, flatten_cons, length_append, Nat.add_assoc]
  · rw [flatten_cons, length_append, take_add, drop_drop, ← h.flatten,
      ← prefix_iff_eq_take.1 ( take_prefix ..)]

/-- Calls of `fileread` with lengths that are not negative, and memory for them. -/
theorem reads_partition (h : Opened inum fs) (off : BitVec 32) (calls : List (BitVec 32 × Nat))
    (hn : ∀ c ∈ calls, 0 ≤ c.1.toInt ∧ c.1.toInt ≤ c.2) : ∃ pieces off' fs',
    filereads inum off calls fs = .ok ((pieces.map some, off'), fs') ∧ content fs' inum = content fs inum ∧
      Partitions (content fs inum) off.toNat calls pieces ∧ off'.toNat = off.toNat + pieces.flatten.length := by
  induction calls generalizing off fs with
  | nil => exact ⟨[], off, fs, rfl, rfl, ⟨rfl, nofun, by simp⟩, rfl⟩
  | cons call calls ih =>
    obtain ⟨n, avail⟩ := call
    obtain ⟨hn₀, hn⟩ := List.forall_mem_cons.1 hn
    obtain ⟨⟨r, off₁⟩, fs₁, hrun, hopen, hcontent, rfl, hoff⟩ :=
      WP.total (wp_fileread h hn₀.1 hn₀.2 : WP (fileread inum off n avail) ..)
    obtain ⟨pieces, off', fs', hrest, hcontent', hpart, hoff'⟩ := ih hopen off₁ hn
    refine ⟨_ :: pieces, off', fs', ?_, hcontent'.trans hcontent, .cons hn₀.1 ?_, ?_⟩
    · simp only [filereads, bind, StateT.bind, Except.bind, hrun, hrest]
      rfl
    · rwa [hcontent, hoff] at hpart
    · rw [hoff', hoff, List.flatten_cons, List.length_append, Nat.add_assoc]

/-- The file of eight bytes, open. -/
theorem fileRun_opened {u : Unit} (h : runCalls fileRun rootImage = .ok (u, fs)) (hi : (fs.itable 2).inode.isSome = true) :
    Opened 2 fs := by
  obtain ⟨ip, hip⟩ := Option.isSome_iff_exists.1 hi
  have hown : Own none fs := (Keeps.runCalls fileRun rootImage rootImage_wellFormed.own).ok h
  obtain ⟨href, ht, -⟩ := hown.valid 2 ip nofun hip
  exact ⟨hown, href, by rwa [cur_of_inode hip]⟩

theorem reads_partition_fileRun : ∃ (fs : Fs) (pieces : List (List (BitVec 8))) (off' : BitVec 32),
    Opened 2 fs ∧ (content fs 2).length = 8 ∧
    (∃ fs', filereads 2 0 [(3, 3), (0, 0), (9, 9)] fs = .ok ((pieces.map some, off'), fs')) ∧
    pieces.map List.length = [3, 0, 5] := by
  obtain ⟨_, fs, hfs, hsome, hsize⟩ : ∃ u fs, runCalls fileRun rootImage = .ok (u, fs) ∧
      (fs.itable 2).inode.isSome = true ∧ (cur fs 2).size = 8 := exists_of_ok (by decide +kernel)
  have hopen := fileRun_opened hfs hsome
  have hlen : (content fs 2).length = 8 := by
    rw [length_content, hsize]
    rfl
  obtain ⟨pieces, off', fs', hreads, -, hpart, -⟩ := reads_partition hopen 0 [(3, 3), (0, 0), (9, 9)] (by decide)
  refine ⟨fs, pieces, off', hopen, hlen, ⟨fs', hreads⟩, ?_⟩
  obtain ⟨hl, hsizes, -⟩ := hpart
  match pieces, hl with
  | [p₀, p₁, p₂], _ =>
    have h₀ := hsizes 0 _ _ rfl rfl
    have h₁ := hsizes 1 _ _ rfl rfl
    have h₂ := hsizes 2 _ _ rfl rfl
    rw [hlen] at h₀ h₁ h₂
    have e₀ : p₀.length = 3 := Int.ofNat_inj.1 (h₀.trans (by simp))
    have e₁ : p₁.length = 0 := Int.ofNat_inj.1 (h₁.trans (by simp [e₀]))
    have e₂ : p₂.length = 5 := Int.ofNat_inj.1 (h₂.trans (by simp [e₀, e₁]))
    simp [e₀, e₁, e₂]

/-- `read(fd, addr, -1)` at the start of a file of eight bytes reads eight bytes. -/
theorem read_negative : ∃ fs bs fs', runCalls fileRun rootImage = .ok ((), fs) ∧
    fileread 2 0 (-1) 8 fs = .ok ((some bs, 8), fs') ∧ bs.length = 8 := by
  obtain ⟨_, fs, hfs, h⟩ : ∃ u fs, runCalls fileRun rootImage = .ok (u, fs) ∧
      ((fileread 2 0 (-1) 8 fs).toOption.any fun r => r.1.1.any (·.length = 8) ∧ r.1.2 = 8) = true :=
    exists_of_ok (by decide +kernel)
  cases hread : fileread 2 0 (-1) 8 fs with
  | error e =>
    rw [hread] at h
    cases h
  | ok r =>
    obtain ⟨⟨o, off⟩, fs'⟩ := r
    rw [hread] at h
    obtain ⟨ho, rfl⟩ := of_decide_eq_true h
    obtain ⟨bs, rfl, hlen⟩ := (Option.any_eq_true _ _).1 ho
    exact ⟨fs, bs, fs', hfs, hread, of_decide_eq_true hlen⟩

end Xv6.Blocks
