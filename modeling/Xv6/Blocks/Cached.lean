import Xv6.Blocks.Files
import Xv6.Framework.Simulate

/-!
# Copies that fail, and the buffer cache

`writei` copies from user memory straight into the cached block, and calls `log_write` only after the copy:
a copy that fails in the middle of a block leaves bytes in the cache that are not in the log, and that
`writei` does not count (`torn_write`). `writei_exact` says for which writes there are such bytes, and that
for all others what they return is what later reads see, and what reaches the disk.
-/

namespace Xv6.Blocks

open Function

/-- The file system with its buffer cache. -/
structure Cached where
  /-- The file system as the cache has it: `fs.data` is what `bread` returns. -/
  fs : Fs
  /-- The data blocks on disk. -/
  home : Nat → Block
  /-- The blocks in the log of the running transaction; they are pinned in the cache. -/
  logged : Nat → Bool

abbrev MC := StateT Cached (Except Panic)

variable {α : Type} {fs fs' : Fs} {inum : Nat} {ip : Dinode} {c c' c₀ : Cached} {p : Prop}

/-- Code that logs nothing and changes no data block. -/
def onFs (m : M α) : MC α := fun c =>
  match m c.fs with
  | .ok (a, fs) => .ok (a, { c with fs })
  | .error e => .error e

namespace Cached

/-- The data of a buffer. -/
def bread (b : BitVec 32) : MC Block := do
  let c ← get
  pure (c.fs.data b.toNat)

/-- Change the data of a buffer, in the cache only. -/
def setBuf (b : BitVec 32) (blk : Block) : MC Unit :=
  modify fun c => { c with fs := { c.fs with data := update c.fs.data b.toNat blk } }

def logWrite (b : Nat) : MC Unit := modify fun c => { c with logged := update c.logged b true }

def balloc : MC (BitVec 32) := do
  let c ← get
  match (List.range c.fs.sb.size).find? fun b => !c.fs.used b with
  | some b =>
    modify fun c => { c with fs := { c.fs with used := update c.fs.used b true, data := update c.fs.data b zeroBlock } }
    logWrite b
    pure (BitVec.ofNat 32 b)
  | none => pure 0

def addrAt (inum : Nat) (ip : Dinode) (k : Nat) : MC (BitVec 32) := do
  if ip.addrs k = 0 then
    let addr ← balloc
    if addr = 0 then pure 0
    else
      onFs (setInode inum (ip.setAddr k addr))
      pure addr
  else pure (ip.addrs k)

def bmap (inum bn : Nat) : MC (BitVec 32) := do
  let ip ← onFs (inode inum)
  if bn < NDIRECT then addrAt inum ip bn
  else if bn - NDIRECT < NINDIRECT then
    let ind ← addrAt inum ip NDIRECT
    if ind = 0 then pure 0
    else
      let a ← bread ind
      if word a (bn - NDIRECT) = 0 then
        let addr ← balloc
        if addr = 0 then pure 0
        else
          setBuf ind (setWord a (bn - NDIRECT) addr)
          logWrite ind.toNat
          pure addr
      else pure (word a (bn - NDIRECT))
  else throw .bmapOutOfRange

/-- The loop of `writei`: the buffer is logged if `either_copyin` has copied all of its bytes. -/
def writeLoop (inum : Nat) (src : Src) (n : Nat) : Nat → Nat → Nat → MC (Nat × Nat)
  | 0, off, tot => pure (off, tot)
  | fuel + 1, off, tot =>
    if tot < n then do
      let addr ← bmap inum (off / BSIZE)
      if addr = 0 then pure (off, tot)
      else
        let b ← bread addr
        let m := min (n - tot) (BSIZE - off % BSIZE)
        setBuf addr (src.copyin b (off % BSIZE) tot m)
        if tot + m ≤ src.avail then
          logWrite addr.toNat
          writeLoop inum src n fuel (off + m) (tot + m)
        else pure (off, tot)
    else pure (off, tot)

def writei (inum : Nat) (src : Src) (off n : BitVec 32) : MC Int := do
  let ip ← onFs (inode inum)
  if off > ip.size ∨ off + n < off then pure (-1)
  else if (off + n).toNat > MAXFILE * BSIZE then pure (-1)
  else
    let (off', tot) ← writeLoop inum src n.toNat n.toNat off.toNat 0
    let ip ← onFs (inode inum)
    (if off' > ip.size.toNat then onFs (setInode inum { ip with size := BitVec.ofNat 32 off' }) else pure ())
    onFs (iupdate inum)
    pure tot

end Cached

/-! ## The cache and the disk -/

inductive CacheAct where
  /-- `bget` takes the buffer of the block for another one; the block is read again when it is used. -/
  | evict (b : Nat)
  /-- The transaction commits: the logged blocks are copied from the cache to the disk, and unpinned. -/
  | commit

def cacheStep (c : Cached) : CacheAct → Cached
  | .evict b => if c.logged b then c else { c with fs := { c.fs with data := update c.fs.data b (c.home b) } }
  | .commit => { c with home := fun b => if c.logged b then c.fs.data b else c.home b, logged := fun _ => false }

/-- Blocks in the cache that are not logged are as on disk. -/
def Settled (c : Cached) : Prop := ∀ b, c.logged b = false → c.fs.data b = c.home b

theorem Settled.evict (h : Settled c) (b : Nat) : cacheStep c (.evict b) = c := by
  by_cases hb : c.logged b = true
  · exact if_pos hb
  · have hsame : update c.fs.data b (c.home b) = c.fs.data := by
      rw [← h b (Bool.eq_false_iff.2 hb)]
      exact update_eq_self ..
    refine (if_neg hb).trans ?_
    rw [hsame]

theorem Settled.step (h : Settled c) (a : CacheAct) : Settled (cacheStep c a) ∧ (cacheStep c a).fs = c.fs ∧
    ∀ b, (cacheStep c a).home b = c.home b ∨ (cacheStep c a).home b = c.fs.data b := by
  cases a with
  | evict b =>
    rw [h.evict b]
    exact ⟨h, rfl, fun _ => .inl rfl⟩
  | commit =>
    have hhome : ∀ b, (cacheStep c .commit).home b = if c.logged b then c.fs.data b else c.home b := fun _ => rfl
    refine ⟨fun b _ => ?_, rfl, fun b => ?_⟩
    · rw [hhome]
      split
      · rfl
      · exact h b (Bool.eq_false_iff.2 ‹_›)
    · rw [hhome]
      split
      · exact .inr rfl
      · exact .inl rfl

/-- Evictions and commits change nothing that can be read, and write nothing else to disk. -/
theorem Settled.run (h : Settled c) (as : List CacheAct) :
    Settled (as.foldl cacheStep c) ∧ (as.foldl cacheStep c).fs = c.fs ∧
      ∀ b, (as.foldl cacheStep c).home b = c.home b ∨ (as.foldl cacheStep c).home b = c.fs.data b := by
  induction as generalizing c with
  | nil => exact ⟨h, rfl, fun _ => .inl rfl⟩
  | cons a as ih =>
    obtain ⟨h₁, hfs, hhome⟩ := h.step a
    obtain ⟨h₂, hfs₂, hhome₂⟩ := ih h₁
    refine ⟨h₂, hfs₂.trans hfs, fun b => ?_⟩
    rw [← hfs]
    rcases hhome₂ b with e | e
    · rw [List.foldl_cons, e, hfs]
      exact hhome b
    · exact .inr e

/-! ## What is logged -/

/-- `c` is a state that code reached from `c₀`; if `p`, then every block that it changed is logged. -/
structure Logged (c₀ : Cached) (p : Prop) (fs : Fs) (c : Cached) : Prop where
  fs : c.fs = fs
  home : c.home = c₀.home
  data : p → ∀ b, c.logged b = false → c₀.logged b = false ∧ c.fs.data b = c₀.fs.data b

theorem Logged.refl (c : Cached) (p : Prop) : Logged c p c.fs c := ⟨rfl, rfl, fun _ _ h => ⟨h, rfl⟩⟩

section

variable (h : Logged c₀ p fs c)
include h

theorem Logged.settled (hp : p) (hs : Settled c₀) : Settled c := by
  intro b hb
  obtain ⟨hb₀, hd⟩ := h.data hp b hb
  rw [hd, hs b hb₀, h.home]

/-- A block that is logged may change. -/
theorem Logged.write {b : Nat} (hfs : c'.fs = fs') (hhome : c'.home = c.home) (hlog : c'.logged = update c.logged b true)
    (hdata : ∀ b', b' ≠ b → c'.fs.data b' = c.fs.data b') : Logged c₀ p fs' c' := by
  refine ⟨hfs, hhome.trans h.home, fun hp b' hb' => ?_⟩
  rw [hlog] at hb'
  have hne : b' ≠ b := by
    rintro rfl
    rw [update_self] at hb'
    cases hb'
  rw [update_of_ne hne] at hb'
  rw [hdata b' hne]
  exact h.data hp b' hb'

theorem sim_onFs {m : M α} (hm : ∀ a fs', m fs = .ok (a, fs') → fs'.data = fs.data) : Sim (Logged c₀ p) m (onFs m) fs c := by
  intro a fs' hrun
  refine ⟨{ c with fs := fs' }, ?_, rfl, h.home, fun hp b hb => ?_⟩
  · rw [onFs, h.fs, hrun]
  · show _ ∧ fs'.data b = _
    rw [hm a fs' hrun, ← h.fs]
    exact h.data hp b hb

theorem sim_inode : Sim (Logged c₀ p) (inode inum) (onFs (inode inum)) fs c :=
  sim_onFs h fun _ _ hr =>
    (wp_inode fun _ _ => rfl : WP (inode inum) NotFree (fun _ s => s.data = fs.data) fs).ok hr

theorem sim_setInode : Sim (Logged c₀ p) (setInode inum ip) (onFs (setInode inum ip)) fs c :=
  sim_onFs h fun _ _ hr => by cases hr; rfl

theorem sim_iupdate : Sim (Logged c₀ p) (iupdate inum) (onFs (iupdate inum)) fs c :=
  sim_onFs h fun _ _ hr => (wp_iupdate fun _ _ => rfl : WP (iupdate inum) NotFree (fun _ s => s.data = fs.data) fs).ok hr

theorem sim_balloc : Sim (Logged c₀ p) balloc Cached.balloc fs c := by
  refine Sim.get ?_
  rw [h.fs]
  cases (List.range fs.sb.size).find? fun b => !fs.used b with
  | none => exact Sim.pure h
  | some b =>
    refine Sim.modify_both (Sim.modify_right (Sim.pure (h.write ?_ rfl rfl fun b' hb' => ?_)))
    · show Fs.mk .. = _
      rw [h.fs]
    · exact update_of_ne hb' ..

theorem sim_addrAt (k : Nat) : Sim (Logged c₀ p) (addrAt inum ip k) (Cached.addrAt inum ip k) fs c := by
  refine Sim.ite (fun _ => ?_) fun _ => Sim.pure h
  refine (sim_balloc h).bind fun addr fs₁ c₁ _ h₁ => Sim.ite (fun _ => Sim.pure h₁) fun _ => ?_
  exact (sim_setInode h₁).bind fun _ _ _ _ h₂ => Sim.pure h₂

/-- A buffer is changed and logged. -/
theorem sim_setBuf {b : BitVec 32} {blk : Block} {m : M α} {l : MC α}
    (hl : ∀ c', Logged c₀ p (fs.setData b.toNat blk) c' → Sim (Logged c₀ p) m l (fs.setData b.toNat blk) c') :
    Sim (Logged c₀ p) (writeBlock b blk >>= fun _ => m)
      (Cached.setBuf b blk >>= fun _ => Cached.logWrite b.toNat >>= fun _ => l) fs c := by
  refine Sim.modify_both (Sim.modify_right (hl _ (h.write ?_ rfl rfl fun b' hb' => ?_)))
  · show Fs.mk .. = _
    rw [h.fs]
    rfl
  · exact update_of_ne hb' ..

theorem sim_bmap (bn : Nat) : Sim (Logged c₀ p) (bmap inum bn) (Cached.bmap inum bn) fs c := by
  refine (sim_inode h).bind fun ip fs₁ c₁ _ h₁ => Sim.ite (fun _ => sim_addrAt h₁ bn) fun _ => ?_
  refine Sim.ite (fun _ => ?_) fun _ => nofun
  refine (sim_addrAt h₁ NDIRECT).bind fun ind fs₂ c₂ _ h₂ => Sim.ite (fun _ => Sim.pure h₂) fun _ => ?_
  refine Sim.get ?_
  rw [h₂.fs]
  refine Sim.ite (fun _ => ?_) fun _ => Sim.pure h₂
  refine (sim_balloc h₂).bind fun addr fs₃ c₃ _ h₃ => Sim.ite (fun _ => Sim.pure h₃) fun _ => ?_
  exact sim_setBuf h₃ fun _ h₄ => Sim.pure h₄

end

/-- No byte is copied that `writei` does not count: it refuses its arguments, all bytes can be copied,
there are too few free blocks to get to the block in which the copy fails, or what is copied to that
block is there already. -/
def Untorn (fs : Fs) (inum size : Nat) (src : Src) (off n : BitVec 32) : Prop :=
  Refused size off n ∨ n.toNat ≤ src.avail ∨
  fs.freeCount < (missing fs inum off.toNat (off.toNat + src.avail)).card ∨
  ∀ k < src.avail, (off.toNat + src.avail) / BSIZE * BSIZE ≤ off.toNat + k → src.byte k = storedAt fs inum (off.toNat + k)

instance (fs : Fs) (inum size : Nat) (src : Src) (off n : BitVec 32) : Decidable (Untorn fs inum size src off n) := by
  unfold Untorn
  infer_instance

/-- The loop gets as far in the cache, and logs all that it changes but for torn bytes. -/
theorem sim_writeLoop {src : Src} {n base : Nat} (h₀ : Own (some inum) c₀.fs)
    (hp : p → n ≤ src.avail ∨ c₀.fs.freeCount < (missing c₀.fs inum base (base + src.avail)).card ∨
      ∀ k < src.avail, (base + src.avail) / BSIZE * BSIZE ≤ base + k → src.byte k = storedAt c₀.fs inum (base + k))
    (fuel tot : Nat) (h : Logged c₀ p fs c) (hown : Own (some inum) fs) (hi : fs.Has inum ip) (ht : ip.type ≠ 0)
    (hw : Wrote inum base (base + tot) (fun k => src.byte (k - base)) c₀.fs fs) :
    Sim (Logged c₀ p) (writeLoop inum src n fuel (base + tot) tot)
      (Cached.writeLoop inum src n fuel (base + tot) tot) fs c := by
  induction fuel generalizing tot fs c ip with
  | zero => exact Sim.pure h
  | succ fuel ih =>
    refine Sim.ite (fun hlt => ?_) fun _ => Sim.pure h
    refine (sim_bmap h _).bind fun addr fs₁ c₁ hrun h₁ => Sim.ite (fun _ => Sim.pure h₁) fun h0 => Sim.get ?_
    have hm := (wp_bmap_maps hown hi ht _).ok hrun
    have hw₁ := hw.trans (hm.wrote hown (base + tot) _) (Nat.le_add_right ..) (Nat.le_refl _)
    rw [h₁.fs]
    obtain ⟨m, hmin⟩ : ∃ m, m = min (n - tot) (BSIZE - (base + tot) % BSIZE) := ⟨_, rfl⟩
    obtain ⟨l, hl⟩ : ∃ l, l = min m (src.avail - tot) := ⟨_, rfl⟩
    simp only [← hmin]
    have hmod : (base + tot) % BSIZE < BSIZE := Nat.mod_lt _ (by decide)
    obtain ⟨hown₂, hw₂, -⟩ := wrote_copyin src hl hm.own h0 (hm.addr h0) (by omega) rfl
    have hw' := hw₁.trans hw₂ (Nat.le_add_right ..) (by omega)
    by_cases hcopy : tot + m ≤ src.avail
    · obtain rfl : l = m := by omega
      obtain ⟨F, -, hA⟩ := hm.allocs
      obtain ⟨addrs, hi₂⟩ := (hA.grown.trans hw₂.grown).inode ip hi
      simp only [if_pos hcopy, Nat.add_assoc]
      exact sim_setBuf h₁ fun _ h₂ => ih (tot + l) h₂ hown₂ hi₂ ht hw'
    · simp only [if_neg hcopy]
      -- the torn bytes are not logged
      refine Sim.modify_both (Sim.pure ⟨by rw [← h₁.fs], h₁.home, fun hp' b hb => ?_⟩)
      have hsame : src.copyin (fs₁.data addr.toNat) ((base + tot) % BSIZE) tot m = fs₁.data addr.toNat := by
        refine block_ext fun j hj => ?_
        rw [byte_copyin src _ hl (by omega)]
        split
        · rename_i hin
          obtain ⟨k, rfl⟩ : ∃ k, j = (base + tot) % BSIZE + k := ⟨j - (base + tot) % BSIZE, by omega⟩
          have hend : tot + l = src.avail := by omega
          rcases hp hp' with hall | hless | hbytes
          · omega
          · have henough := hw'.enough h₀ hown₂ (by omega)
            rw [hend] at henough
            omega
          · have hdiv := Nat.mod_add_div (base + tot) BSIZE
            obtain ⟨hq, hr⟩ := same_block (i := base + tot) (k := k) (by omega)
            rw [Nat.add_assoc] at hq hr
            have hstored := hw₁.outside (base + (tot + k))
              (by rw [hq, hm.addr h0]; exact toNat_ne_zero h0) (by omega)
            rw [Nat.add_sub_cancel_left, hbytes (tot + k) (by omega) (by unfold BSIZE at *; omega), ← hstored, byteAt, hq,
              hr, hm.addr h0]
        · rfl
      show c₀.logged b = false ∧ update c₁.fs.data addr.toNat _ b = _
      rw [hsame, h₁.fs, update_eq_self, ← h₁.fs]
      exact h₁.data hp' b hb

theorem sim_writei {src : Src} {off n : BitVec 32} (h : Own none c.fs) (hi : c.fs.Has inum ip) :
    Sim (Logged c (Untorn c.fs inum ip.size.toNat src off n)) (writei inum src off n) (Cached.writei inum src off n)
      c.fs c := by
  refine (sim_inode (.refl c _)).bind fun ip₁ fs₁ c₁ hrun h₁ => ?_
  obtain ⟨rfl, rfl⟩ : ip₁ = ip ∧ fs₁ = c.fs :=
    (wp_inode_of hi ⟨rfl, rfl⟩ : WP (inode inum) NotFree (fun a s => a = ip ∧ s = c.fs) c.fs).ok hrun
  refine Sim.ite (fun _ => Sim.pure h₁) fun hok => Sim.ite (fun _ => Sim.pure h₁) fun hmax => ?_
  obtain ⟨hnot, -, -⟩ := not_refused hok hmax
  refine (sim_writeLoop (h.dirty inum) (fun hp => hp.resolve_left hnot) n.toNat 0 h₁ (h.dirty inum) hi
    (h.cleanOf hi).type (.refl ..)).bind fun r fs₂ c₂ _ h₂ => ?_
  refine (sim_inode h₂).bind fun ip' fs₃ c₃ _ h₃ => ?_
  have hsize : Sim (Logged c _)
      (if r.1 > ip'.size.toNat then setInode inum { ip' with size := BitVec.ofNat 32 r.1 } else pure ())
      (if r.1 > ip'.size.toNat then onFs (setInode inum { ip' with size := BitVec.ofNat 32 r.1 }) else pure ())
      fs₃ c₃ := Sim.ite (fun _ => sim_setInode h₃) fun _ => Sim.pure h₃
  exact hsize.bind fun _ _ _ _ h₄ => (sim_iupdate h₄).bind fun _ _ _ _ h₅ => Sim.pure h₅

/-! ## The write -/

/-- The bytes that `writei` returned with are those of the file: it refused the arguments, or it wrote
the first `r` bytes and no others. -/
def Accounted (inum : Nat) (src : Src) (off n : BitVec 32) (fs : Fs) (r : Int) (fs' : Fs) : Prop :=
  (r = -1 ∧ fs' = fs) ∨
  ∃ tot ≤ n.toNat, r = tot ∧ Writes inum src off.toNat tot fs fs' ∧ Untouched inum off.toNat tot fs fs'

/-- What a `writei` should do: a later `readi`, after any evictions and commits, reads the bytes that it
returned with, and a block on disk is as before or has these bytes. -/
def Exact (inum : Nat) (src : Src) (off n : BitVec 32) (c : Cached) : Prop :=
  ∃ r c', Cached.writei inum src off n c = .ok (r, c') ∧ Accounted inum src off n c.fs r c'.fs ∧ Settled c' ∧
    ∀ as : List CacheAct,
      (∀ off' n' avail, readi inum off' n' avail balloc (as.foldl cacheStep c').fs = .ok
        (if (readable (content c'.fs inum) off' n').length ≤ avail then some (readable (content c'.fs inum) off' n')
          else none, c'.fs)) ∧
      ∀ b, (as.foldl cacheStep c').home b = c.home b ∨ (as.foldl cacheStep c').home b = c'.fs.data b

/-- The copied bytes that `writei` does not count were there before. -/
theorem Written.same {src : Src} {off n : BitVec 32} {e tot : Nat} {fs₁ : Fs} (h : Own none fs)
    (hw : Written inum ip src off.toNat n.toNat fs e tot fs₁ fs') (hnot : ¬Refused ip.size.toNat off n)
    (hu : Untorn fs inum ip.size.toNat src off n) (k : Nat) (hk : tot ≤ k) (hk' : k < e) :
    src.byte k = storedAt fs inum (off.toNat + k) := by
  rcases hw.loop.torn with rfl | ⟨-, rfl, hlt, hblock⟩
  · exact absurd hk' (Nat.not_lt.2 hk)
  rcases hu.resolve_left hnot with hall | hless | hbytes
  · omega
  · exact absurd (hw.loop.wrote.enough h hw.loop.own (by omega)) (Nat.not_le.2 hless)
  · refine hbytes k hk' ?_
    have := Nat.div_mul_le_self (off.toNat + tot) BSIZE
    rw [hblock]
    simp only at *
    omega

/-- On a cache in which all changes are logged, a `writei` is exact if and only if it leaves no torn
bytes. -/
theorem writei_exact (h : Own none c.fs) (hs : Settled c) (hi : c.fs.Has inum ip) (src : Src) (off n : BitVec 32) :
    Exact inum src off n c ↔ Untorn c.fs inum ip.size.toNat src off n := by
  obtain ⟨r, fs', hrun, hr⟩ := (wp_writei h hi src off n).total
  obtain ⟨c', hc, hl⟩ := sim_writei h hi r fs' hrun
  obtain rfl := hl.fs
  constructor
  · rintro ⟨r', c'', hc', hacc, -⟩
    cases hc.symm.trans hc'
    by_contra hno
    simp only [Untorn, not_or, Nat.not_lt, Nat.not_le, not_forall] at hno
    obtain ⟨hnot, hlt, henough, k, hk, hblock, hne⟩ := hno
    rw [if_neg hnot] at hr
    obtain ⟨e, tot, fs₁, rfl, hw⟩ := hr
    have hle : tot ≤ src.avail := hw.loop.le.2.2
    have hends : tot = n.toNat ∨ tot = 0 ∨ (off.toNat + tot) % BSIZE = 0 := hw.loop.ends
    have hshort := hw.loop.short (show tot < n.toNat by omega)
    rw [Nat.min_eq_right (by omega)] at hshort
    have hend := hshort.resolve_right (Nat.not_lt.2 henough)
    -- byte `k` was copied, and is not counted
    have hcount : tot ≤ k := by
      unfold BSIZE at *
      omega
    have hin := hw.loop.wrote.inside (off.toNat + k) (by omega) (by omega)
    rcases hacc with ⟨hneg, -⟩ | ⟨tot', -, htot, -, hunt⟩
    · omega
    obtain rfl : tot = tot' := Int.ofNat_inj.1 htot
    have hkept := hunt inum (off.toNat + k) (by rw [hw.addr]; exact hin.1) (by omega)
    rw [hw.byteAt, hin.2, Nat.add_sub_cancel_left] at hkept
    exact hne hkept
  · intro hu
    have hset := hl.settled hu hs
    have hdone : Accounted inum src off n c.fs r c'.fs ∧ Own none c'.fs ∧ ∃ ip', c'.fs.Has inum ip' := by
      split at hr
      · exact ⟨.inl hr, hr.2 ▸ h, ip, hr.2 ▸ hi⟩
      · obtain ⟨e, tot, fs₁, hr, hw⟩ := hr
        have hsame := hw.same h ‹_› hu
        obtain ⟨addrs, size, hi', -⟩ := hw.inode
        exact ⟨.inr ⟨tot, hw.loop.le.2.1, hr, hw.writes h hi hsame, hw.untouched hsame⟩, hw.own, _, hi'⟩
    obtain ⟨hacc, hown, ip', hi'⟩ := hdone
    refine ⟨r, c', hc, hacc, hset, fun as => ?_⟩
    obtain ⟨-, hfs, hhome⟩ := hset.run as
    refine ⟨fun off' n' avail => ?_, fun b => ?_⟩
    · obtain ⟨a, fs₁, hread, rfl, rfl⟩ := (wp_readi_content (hown.cleanOf hi') hi' off' n' avail).total
      rw [hfs, hread]
    · rw [← hl.home]
      exact hhome b

/-- A file of eight bytes. -/
def fileRun : List Call := [.iget ROOTINO, .create ROOTINO [97] T_FILE 0 0, .writei 2 ⟨fun _ => 1, 8⟩ 0 8]

/-- The file system, with all blocks on disk. -/
def Cached.clean (fs : Fs) : Cached := ⟨fs, fs.data, fun _ => false⟩

/-- The bytes of the file that a read returns. -/
def readFile (fs : Fs) : Option (List (BitVec 8)) := (readi 2 0 8 8 balloc fs).toOption.bind Prod.fst

/-- A write to the file of which the first block can be read, and one of which the first four bytes can. -/
theorem writei_exact_fileRun : ∃ fs, runCalls fileRun rootImage = .ok ((), fs) ∧
    Exact 2 ⟨fun _ => 7, 1024⟩ 0 1030 (.clean fs) ∧ ¬Exact 2 ⟨fun _ => 7, 4⟩ 0 8 (.clean fs) := by
  obtain ⟨_, fs, hfs, hsome, hbyte⟩ : ∃ u fs, runCalls fileRun rootImage = .ok (u, fs) ∧
      (fs.itable 2).inode.isSome = true ∧ ¬Untorn fs 2 (cur fs 2).size.toNat ⟨fun _ => 7, 4⟩ 0 8 :=
    exists_of_ok (by decide +kernel)
  obtain ⟨ip, hip⟩ := Option.isSome_iff_exists.1 hsome
  have hown : Own none fs := (Keeps.runCalls fileRun rootImage rootImage_wellFormed.own).ok hfs
  refine ⟨fs, hfs, (writei_exact (c := .clean fs) hown (fun _ _ => rfl) hip _ _ _).2 ?_, fun hex => hbyte ?_⟩
  · refine .inr (.inr (.inr fun k hk hle => ?_))
    have hlt : k < 1024 := hk
    have hle : 1024 ≤ 0 + k := hle
    omega
  · rw [cur_of_inode hip]
    exact (writei_exact (c := .clean fs) hown (fun _ _ => rfl) hip _ _ _).1 hex

/-- Four of the eight bytes of a write can be read: `writei` returns 0, and the four bytes are in the file.
They are gone when the block is evicted; another write to the block takes them to the disk. -/
theorem torn_write : ∃ fs c' c'', runCalls fileRun rootImage = .ok ((), fs) ∧ Own none fs ∧
    Settled (.clean fs) ∧ Cached.writei 2 ⟨fun _ => 7, 4⟩ 0 8 (.clean fs) = .ok (0, c') ∧
    readFile fs = some [1, 1, 1, 1, 1, 1, 1, 1] ∧ readFile c'.fs = some [7, 7, 7, 7, 1, 1, 1, 1] ∧
    readFile (cacheStep c' (.evict 4)).fs = some [1, 1, 1, 1, 1, 1, 1, 1] ∧
    Cached.writei 2 ⟨fun _ => 9, 1⟩ 7 1 c' = .ok (1, c'') ∧
    byte (fs.data 4) 0 = 1 ∧ byte ((cacheStep c'' .commit).home 4) 0 = 7 := by
  have hrun : (match runCalls fileRun rootImage with
      | .ok (_, fs) =>
        match Cached.writei 2 ⟨fun _ => 7, 4⟩ 0 8 (.clean fs) with
        | .ok (r, c') =>
          match Cached.writei 2 ⟨fun _ => 9, 1⟩ 7 1 c' with
          | .ok (r', c'') => decide (r = 0 ∧ r' = 1 ∧ readFile fs = some [1, 1, 1, 1, 1, 1, 1, 1] ∧
              readFile c'.fs = some [7, 7, 7, 7, 1, 1, 1, 1] ∧
              readFile (cacheStep c' (.evict 4)).fs = some [1, 1, 1, 1, 1, 1, 1, 1] ∧
              byte (fs.data 4) 0 = 1 ∧ byte ((cacheStep c'' .commit).home 4) 0 = 7)
          | .error _ => false
        | .error _ => false
      | .error _ => false) = true := by
    decide +kernel
  split at hrun
  · rename_i u fs hfs
    split at hrun
    · rename_i r c' hw
      split at hrun
      · rename_i r' c'' hw'
        obtain ⟨rfl, rfl, h₁, h₂, h₃, h₄, h₅⟩ := of_decide_eq_true hrun
        have hown : Own none fs := (Keeps.runCalls fileRun rootImage rootImage_wellFormed.own).ok hfs
        exact ⟨fs, c', c'', hfs, hown, fun _ _ => rfl, hw, h₁, h₂, h₃, hw', h₄, h₅⟩
      · cases hrun
    · cases hrun
  · cases hrun

end Xv6.Blocks
