import Xv6.Blocks.Files
import Xv6.Framework.Run
import Xv6.Framework.Sums
import Mathlib.Algebra.BigOperators.Fin

/-!
# Writes through a shared file

Processes that share one `struct file` of an inode, by `fork` or `dup`, and write to it. The
offset is read and advanced with the inode locked, once in each transaction of `filewrite`.
`shared_offset`: where the offset is the size of the file at first and no write fails, the file
grows by the chunks of all writes, one after the other in the order of their transactions, and
the chunks of each process are those of its calls, in order.
-/

namespace Xv6.Blocks.Offset

open Function List

/-- A call `filewrite(f, addr, n)`, where `src` is the memory at `addr`. -/
structure WriteCall where
  src : Src
  n : Nat
  /-- `n` is an `int`; a negative one writes nothing and fails. -/
  lt : n < 2 ^ 31

/-- The memory at `addr + i`. -/
def srcAt (src : Src) (i : Nat) : Src := ⟨fun k => src.byte (i + k), src.avail - i⟩

/-- The most that one transaction writes. -/
def maxWrite : Nat := (MAXOPBLOCKS - 1 - 1 - 2) / 2 * BSIZE

/-- `n1` in the round that starts at byte `i`. -/
def WriteCall.n1 (c : WriteCall) (i : Nat) : Nat := min (c.n - i) maxWrite

/-- Where a process is in `filewrite`; `i` bytes have been written before this round. -/
inductive Pc where
  | idle
  /-- At the test of the loop. -/
  | test (c : WriteCall) (i : Nat)
  /-- After `begin_op`, about to lock the inode. -/
  | lock (c : WriteCall) (i : Nat)
  | write (c : WriteCall) (i : Nat)
  /-- `writei` has returned `r`; about to advance the offset. -/
  | advance (c : WriteCall) (i : Nat) (r : Int)
  | unlock (c : WriteCall) (i : Nat) (r : Int)
  /-- About to end the transaction and to look at `r`. -/
  | finish (c : WriteCall) (i : Nat) (r : Int)

/-- An open file, shared by `n` processes. -/
structure File (n : Nat) where
  fs : Fs
  /-- `f->off` -/
  off : BitVec 32
  /-- The process that has locked the inode. -/
  holder : Option (Fin n)
  pc : Fin n → Pc

inductive Act (n : Nat) where
  | call (p : Fin n) (c : WriteCall)
  | step (p : Fin n)

inductive Event (n : Nat) where
  | call (p : Fin n) (c : WriteCall)
  /-- A transaction has written these bytes. -/
  | chunk (p : Fin n) (bs : List (BitVec 8))
  /-- The call returns. -/
  | ret (p : Fin n) (r : Int)

variable {n : Nat}

def File.goto (s : File n) (p : Fin n) (pc : Pc) : File n := { s with pc := update s.pc p pc }

/-- What `filewrite` returns, with `i` bytes written. -/
def WriteCall.result (c : WriteCall) (i : Nat) : Int := if i = c.n then c.n else -1

/-- The next step of a process, on a file of inode `inum`. -/
def procStep (inum : Nat) (s : File n) (p : Fin n) : Option (File n × List (Event n)) :=
  match s.pc p with
  | .idle => none
  | .test c i =>
    if i < c.n then some (s.goto p (.lock c i), [])
    else some (s.goto p .idle, [.ret p (c.result i)])
  | .lock c i =>
    if s.holder.isNone then
      match ilock inum s.fs with
      | .ok (_, fs) => some ({ s with fs := fs, holder := some p }.goto p (.write c i), [])
      | .error _ => none
    else none
  | .write c i =>
    match writei inum (srcAt c.src i) s.off (BitVec.ofNat 32 (c.n1 i)) s.fs with
    | .ok (r, fs) => some ({ s with fs := fs }.goto p (.advance c i r),
        [.chunk p ((List.range r.toNat).map (srcAt c.src i).byte)])
    | .error _ => none
  | .advance c i r =>
    let off := if r > 0 then s.off + BitVec.ofInt 32 r else s.off
    some ({ s with off := off }.goto p (.unlock c i r), [])
  | .unlock c i r =>
    match iunlock inum s.fs with
    | .ok (_, fs) => some ({ s with fs := fs, holder := none }.goto p (.finish c i r), [])
    | .error _ => none
  | .finish c i r =>
    if r ≠ c.n1 i then some (s.goto p .idle, [.ret p (c.result i)])
    else some (s.goto p (.test c (i + c.n1 i)), [])

def step (inum : Nat) (s : File n) : Act n → Option (File n × List (Event n))
  | .call p c =>
    match s.pc p with
    | .idle => some (s.goto p (.test c 0), [.call p c])
    | _ => none
  | .step p => procStep inum s p

def start (fs : Fs) (off : BitVec 32) : File n := ⟨fs, off, none, fun _ => .idle⟩

/-! ## Chunks and calls -/

/-- The chunks written, with their writers, in the order of their transactions. -/
def chunks (es : List (Event n)) : List (Fin n × List (BitVec 8)) :=
  es.filterMap fun e => match e with
    | .chunk p bs => some (p, bs)
    | _ => none

def calls (es : List (Event n)) : List (Fin n × WriteCall) :=
  es.filterMap fun e => match e with
    | .call p c => some (p, c)
    | _ => none

/-- What process `p` has in such a list. -/
def of {α : Type} (p : Fin n) (l : List (Fin n × α)) : List α := (l.filter fun x => x.1 = p).map Prod.snd

/-- Chunk `k` of the data of a call. -/
def piece (c : WriteCall) (k : Nat) : List (BitVec 8) :=
  (List.range (c.n1 (k * maxWrite))).map (srcAt c.src (k * maxWrite)).byte

/-- The data of a call in chunks of `maxWrite` bytes, the last of which may be shorter. -/
def pieces (c : WriteCall) : List (List (BitVec 8)) :=
  (List.range ((c.n + maxWrite - 1) / maxWrite)).map (piece c)

theorem maxWrite_eq : maxWrite = 3 * BSIZE := rfl

theorem chunks_append (es es' : List (Event n)) : chunks (es ++ es') = chunks es ++ chunks es' :=
  filterMap_append

theorem calls_append (es es' : List (Event n)) : calls (es ++ es') = calls es ++ calls es' :=
  filterMap_append

variable {α : Type} {es' : List (Event n)} {r : Int} {s' : File n} {a : Act n}

theorem of_append (p : Fin n) (l l' : List (Fin n × α)) : of p (l ++ l') = of p l ++ of p l' := by
  simp [of, filter_append]

theorem of_self (p : Fin n) (a : α) : of p [(p, a)] = [a] := by
  simp [of]

theorem of_ne {p q : Fin n} (h : q ≠ p) (a : α) : of q [(p, a)] = [] := by
  simp [of, Ne.symm h]

theorem sum_of (f : α → Nat) (l : List (Fin n × α)) : ∑ p, ((of p l).map f).sum = (l.map fun x => f x.2).sum := by
  induction l with
  | nil => simp [of]
  | cons x l ih =>
    have hcons : ∀ p, ((of p (x :: l)).map f).sum = (if x.1 = p then f x.2 else 0) + ((of p l).map f).sum := by
      intro p
      by_cases e : x.1 = p <;> simp [of, e]
    simp only [hcons, Finset.sum_add_distrib, ih, Finset.sum_ite_eq, Finset.mem_univ, if_true, map_cons, sum_cons]

theorem drop_pieces (c : WriteCall) {k : Nat} (hk : k * maxWrite < c.n) :
    (pieces c).drop k = piece c k :: (pieces c).drop (k + 1) := by
  have hm : 0 < maxWrite := by decide
  have hlt : k < (pieces c).length := by
    rw [pieces, length_map, length_range, Nat.lt_div_iff_mul_lt hm]
    omega
  rw [drop_eq_getElem_cons hlt]
  simp only [pieces, getElem_map, getElem_range]

theorem drop_pieces_of_le (c : WriteCall) {k : Nat} (hk : c.n ≤ k * maxWrite) : (pieces c).drop k = [] := by
  have hm : 0 < maxWrite := by decide
  rw [drop_eq_nil_iff, pieces, length_map, length_range, Nat.div_le_iff_le_mul_add_pred hm, Nat.mul_comm]
  omega

theorem sum_pieces (c : WriteCall) (k : Nat) : (((pieces c).drop k).map length).sum = c.n - k * maxWrite := by
  by_cases hk : k * maxWrite < c.n
  · rw [drop_pieces c hk, map_cons, sum_cons, sum_pieces c (k + 1), piece, length_map,
      length_range, WriteCall.n1, Nat.succ_mul]
    omega
  · rw [drop_pieces_of_le c (Nat.not_lt.1 hk)]
    simp only [map_nil, sum_nil]
    omega
termination_by c.n - k * maxWrite
decreasing_by
  have hm : 0 < maxWrite := by decide
  rw [Nat.succ_mul]
  omega

/-! ## A transaction -/

variable {inum : Nat} {fs fs' : Fs}

/-- A write at the end of the file that is complete appends its bytes. -/
theorem writei_appends (h : Own none fs) (hl : ((fs.itable inum).inode).isSome = true) {src : Src} {off n : BitVec 32}
    (hoff : off.toNat = (content fs inum).length) (hw : writei inum src off n fs = .ok ((n.toNat : Int), fs')) :
    Own none fs' ∧ ((fs'.itable inum).inode).isSome = true ∧
    content fs' inum = content fs inum ++ (range n.toNat).map src.byte := by
  obtain ⟨ip, hi⟩ := Option.isSome_iff_exists.1 hl
  have hr := (wp_writei h hi src off n).ok hw
  by_cases href : Refused ip.size.toNat off n
  · rw [if_pos href] at hr
    omega
  · rw [if_neg href] at hr
    obtain ⟨e, tot, fs₁, htot, hwr⟩ := hr
    obtain rfl : n.toNat = tot := Int.ofNat_inj.1 htot
    have hwrites := hwr.writes h hi (hwr.whole hwr.loop.le.2.2)
    refine ⟨hwr.own, by rw [hwrites.locks, hl], ?_⟩
    rw [hwrites.content, update_self, hoff, splice_length]

theorem ilock_loaded (hl : ((fs.itable inum).inode).isSome = true) {u : Unit}
    (h : ilock inum fs = .ok (u, fs')) : fs' = fs := by
  obtain ⟨ip, hi⟩ := Option.isSome_iff_exists.1 hl
  have hw : WP (ilock inum) (fun _ => True) (fun _ fs' => fs' = fs) fs := by
    unfold ilock
    refine .bind (.get (.ite (fun _ => .throw trivial) fun _ => ?_))
    rw [hi]
    exact .pure rfl
  exact hw.ok h

theorem iunlock_same {u : Unit} (h : iunlock inum fs = .ok (u, fs')) : fs' = fs := by
  have hw : WP (iunlock inum) (fun _ => True) (fun _ fs' => fs' = fs) fs := by
    unfold iunlock
    exact .bind (.get (.ite (fun _ => .throw trivial) fun _ => .pure rfl))
  exact hw.ok h

/-! ## The invariant -/

/-- The process has locked the inode. -/
def Pc.holds : Pc → Bool
  | .write .. | .advance .. | .unlock .. => true
  | _ => false

/-- What the file has grown by and the offset has not yet been advanced by. -/
def Pc.ahead : Pc → Nat
  | .advance _ _ r => r.toNat
  | _ => 0

def File.ahead (s : File n) : Nat :=
  match s.holder with
  | some p => (s.pc p).ahead
  | none => 0

/-- The call, with the number of its bytes that have been written. -/
def Pc.place : Pc → Option (WriteCall × Nat)
  | .idle => none
  | .test c i | .lock c i | .write c i => some (c, i)
  | .advance c i _ | .unlock c i _ | .finish c i _ => some (c, i + c.n1 i)

/-- A round has more to write, and what it has written is complete. -/
def Pc.Sound : Pc → Prop
  | .idle | .test _ _ => True
  | .lock c i | .write c i => i < c.n
  | .advance c i r | .unlock c i r | .finish c i r => r = c.n1 i

/-- The chunks of a process, given its calls and where it is in the last of them. -/
def Progress (place : Option (WriteCall × Nat)) (bss : List (List (BitVec 8))) (cs : List WriteCall) : Prop :=
  match place with
  | none => bss = cs.flatMap pieces
  | some (c, i) => ∃ k, i = min (k * maxWrite) c.n ∧ bss ++ (pieces c).drop k = cs.flatMap pieces

/-- What holds as long as no write fails. -/
structure Shared (inum : Nat) (fs₀ : Fs) (es : List (Event n)) (s : File n) : Prop where
  own : Own none s.fs
  loaded : ((s.fs.itable inum).inode).isSome = true
  content : content s.fs inum = content fs₀ inum ++ (chunks es).flatMap Prod.snd
  off : s.off.toNat + s.ahead = (Blocks.content s.fs inum).length
  holder : ∀ p, (s.pc p).holds = true ↔ s.holder = some p
  sound : ∀ p, (s.pc p).Sound
  progress : ∀ p, Progress (s.pc p).place (of p (chunks es)) (of p (calls es))

/-- `writei` did not write all, and the call is about to find out. -/
def Pc.Failing : Pc → Prop
  | .advance c i r | .unlock c i r | .finish c i r => i < c.n ∧ r ≠ c.n1 i
  | _ => False

def Failed (es : List (Event n)) (s : File n) : Prop :=
  (∃ p, Event.ret p (-1) ∈ es) ∨ ∃ p, (s.pc p).Failing

theorem shared_start (h : Own none fs) (hl : ((fs.itable inum).inode).isSome = true) {off : BitVec 32}
    (hoff : off.toNat = (content fs inum).length) : Shared inum fs ([] : List (Event n)) (start fs off) where
  own := h
  loaded := hl
  content := by simp [start, chunks]
  off := hoff
  holder p := by simp [start, Pc.holds]
  sound _ := trivial
  progress _ := rfl

variable {fs₀ : Fs} {es : List (Event n)} {s : File n} {p : Fin n} {c : WriteCall} {i : Nat} {pc : Pc}

/-- A step of `p` as far as `p` itself is concerned; the other processes are where they were. -/
theorem Shared.move (h : Shared inum fs₀ es s)
    (fs' : Fs) (off' : BitVec 32) (holder' : Option (Fin n)) (hown : Own none fs')
    (hl : ((fs'.itable inum).inode).isSome = true)
    (hcontent : Blocks.content fs' inum = Blocks.content fs₀ inum ++ (chunks (es ++ es')).flatMap Prod.snd)
    (hoff : off'.toNat + (File.goto { s with fs := fs', off := off', holder := holder' } p pc).ahead =
      (Blocks.content fs' inum).length)
    (hholder : ∀ q, q ≠ p → ((s.pc q).holds = true ↔ holder' = some q)) (hpc : pc.holds = true ↔ holder' = some p)
    (hsound : pc.Sound) (hothers : ∀ q, q ≠ p → of q (chunks es') = [] ∧ of q (calls es') = [])
    (hprogress : Progress pc.place (of p (chunks (es ++ es'))) (of p (calls (es ++ es')))) :
    Shared inum fs₀ (es ++ es') (File.goto { s with fs := fs', off := off', holder := holder' } p pc) := by
  refine ⟨hown, hl, hcontent, hoff, ?_, ?_, ?_⟩
  · exact (forall_update_iff s.pc fun q pc => pc.holds = true ↔ holder' = some q).2 ⟨hpc, hholder⟩
  · exact (forall_update_iff s.pc fun _ pc => pc.Sound).2 ⟨hsound, fun q _ => h.sound q⟩
  · refine (forall_update_iff s.pc fun q pc => Progress pc.place (of q (chunks (es ++ es'))) (of q (calls (es ++ es')))).2
      ⟨hprogress, fun q e => ?_⟩
    rw [chunks_append, calls_append, of_append, of_append, (hothers q e).1, (hothers q e).2, append_nil,
      append_nil]
    exact h.progress q

theorem File.ahead_goto (s : File n) (pc : Pc) (h : s.holder ≠ some p) : (s.goto p pc).ahead = s.ahead := by
  unfold File.ahead
  show (match s.holder with | some q => (update s.pc p pc q).ahead | none => 0) = _
  cases e : s.holder with
  | none => rfl
  | some q =>
    have hq : q ≠ p := by
      rintro rfl
      exact h e
    show (update s.pc p pc q).ahead = _
    rw [update_of_ne hq]

/-- A step of a process that has not locked the inode and writes nothing. -/
theorem Shared.quiet (h : Shared inum fs₀ es s) (hold : (s.pc p).holds = false) (hnew : pc.holds = false)
    (hsound : pc.Sound) (hchunks : chunks es' = []) (hcalls : ∀ q, q ≠ p → of q (calls es') = [])
    (hprogress : Progress pc.place (of p (chunks es)) (of p (calls es) ++ of p (calls es'))) :
    Shared inum fs₀ (es ++ es') (s.goto p pc) := by
  have hholder : s.holder ≠ some p := fun e => by
    rw [← h.holder p, hold] at e
    cases e
  refine h.move s.fs s.off s.holder h.own h.loaded ?_ ?_ (fun q _ => h.holder q) ?_ hsound
    (fun q hq => ⟨by rw [hchunks]; rfl, hcalls q hq⟩) ?_
  · rw [chunks_append, hchunks, append_nil]
    exact h.content
  · rw [show File.ahead (File.goto s p pc) = s.ahead from s.ahead_goto pc hholder]
    exact h.off
  · rw [hnew]
    exact ⟨(by cases ·), fun e => absurd e hholder⟩
  · rw [chunks_append, hchunks, append_nil, calls_append, of_append]
    exact hprogress

section

variable (h : Shared inum fs₀ es s)
include h

theorem Shared.here (hp : s.pc p = pc) :
    Progress pc.place (of p (chunks es)) (of p (calls es)) ∧ pc.Sound := hp ▸ ⟨h.progress p, h.sound p⟩

theorem Shared.call (hp : s.pc p = .idle) (c : WriteCall) : Shared inum fs₀ (es ++ [.call p c]) (s.goto p (.test c 0)) := by
  have hprog := (h.here hp).1
  refine h.quiet (by rw [hp]; rfl) rfl trivial rfl (fun q hq => of_ne hq c) ⟨0, ?_, ?_⟩
  · rw [Nat.zero_mul, Nat.zero_min]
  · rw [show of p (chunks es) = _ from hprog, show of p (calls [Event.call p c]) = [c] from of_self p c,
      flatMap_append, flatMap_singleton]
    rfl

theorem Shared.test (hp : s.pc p = .test c i) : (i < c.n → Shared inum fs₀ (es ++ []) (s.goto p (.lock c i))) ∧
      (¬i < c.n → Shared inum fs₀ (es ++ [.ret p (c.result i)]) (s.goto p .idle)) := by
  have hprog := (h.here hp).1
  refine ⟨fun hi => ?_, fun hi => ?_⟩
  · refine h.quiet (by rw [hp]; rfl) rfl hi rfl (fun _ _ => rfl) ?_
    rw [show of p (calls ([] : List (Event n))) = [] from rfl, append_nil]
    exact hprog
  · refine h.quiet (by rw [hp]; rfl) rfl trivial rfl (fun _ _ => rfl) ?_
    obtain ⟨k, hk, e⟩ := hprog
    rw [drop_pieces_of_le c (by omega), append_nil] at e
    rw [show of p (calls [Event.ret p (c.result i)]) = [] from rfl, append_nil]
    exact e

theorem Shared.lock (hp : s.pc p = .lock c i) (hfree : s.holder = none) :
    Shared inum fs₀ (es ++ []) ({ s with holder := some p }.goto p (.write c i)) := by
  obtain ⟨hprog, hsound⟩ := h.here hp
  have hoff := h.off
  have hfree' : ∀ q, (s.pc q).holds = false := by
    intro q
    cases e : (s.pc q).holds with
    | false => rfl
    | true =>
      rw [h.holder q, hfree] at e
      cases e
  refine h.move s.fs s.off (some p) h.own h.loaded ?_ ?_ (fun q hq => ?_) ⟨fun _ => rfl, fun _ => rfl⟩ hsound
    (fun _ _ => ⟨rfl, rfl⟩) ?_
  · rw [append_nil]
    exact h.content
  · rw [File.ahead, hfree] at hoff
    simp only [File.ahead, File.goto, update_self, Pc.ahead]
    exact hoff
  · rw [hfree' q]
    simp [Ne.symm hq]
  · rw [append_nil]
    exact hprog

/-- A complete write: the file grows by the next chunk of the call. -/
theorem Shared.write (hp : s.pc p = .write c i) {fs' : Fs}
    (hw : writei inum (srcAt c.src i) s.off (BitVec.ofNat 32 (c.n1 i)) s.fs = .ok ((c.n1 i : Int), fs')) :
    Shared inum fs₀ (es ++ [.chunk p ((range (c.n1 i)).map (srcAt c.src i).byte)])
      ({ s with fs := fs' }.goto p (.advance c i (c.n1 i))) := by
  obtain ⟨hprog, hsound⟩ := h.here hp
  have hoff := h.off
  have hholder := (h.holder p).1 (by rw [hp]; rfl)
  have hi : i < c.n := hsound
  obtain ⟨k, hk, e⟩ := hprog
  have hik : i = k * maxWrite := by omega
  have hn1 : (BitVec.ofNat 32 (c.n1 i)).toNat = c.n1 i := by
    have : c.n1 i ≤ 3072 := Nat.min_le_right ..
    rw [BitVec.toNat_ofNat, Nat.mod_eq_of_lt (by omega)]
  rw [File.ahead, hholder] at hoff
  simp only [hp, Pc.ahead, Nat.add_zero] at hoff
  have hw' : writei inum (srcAt c.src i) s.off (BitVec.ofNat 32 (c.n1 i)) s.fs =
      .ok (((BitVec.ofNat 32 (c.n1 i)).toNat : Int), fs') := by rw [hw, hn1]
  obtain ⟨hown, hl, hcontent⟩ := writei_appends h.own h.loaded hoff hw'
  rw [hn1] at hcontent
  have hchunk : chunks [Event.chunk p ((range (c.n1 i)).map (srcAt c.src i).byte)] =
      [(p, (range (c.n1 i)).map (srcAt c.src i).byte)] := rfl
  refine h.move fs' s.off s.holder hown hl ?_ ?_ (fun q _ => h.holder q)
    ⟨fun _ => hholder, fun _ => rfl⟩ rfl (fun q hq => ⟨of_ne hq _, rfl⟩) ⟨k + 1, ?_, ?_⟩
  · rw [hcontent, h.content, chunks_append, hchunk, flatMap_append, flatMap_singleton, append_assoc]
  · simp only [File.ahead, File.goto, hholder, update_self, Pc.ahead, hcontent, length_append,
      length_map, length_range, Int.toNat_natCast]
    omega
  · rw [WriteCall.n1, Nat.succ_mul]
    omega
  · rw [drop_pieces c (by omega)] at e
    rw [chunks_append, of_append, hchunk, of_self, calls_append, of_append,
      show of p (calls [Event.chunk p ((range (c.n1 i)).map (srcAt c.src i).byte)]) = [] from rfl,
      append_nil, ← e, append_assoc, hik]
    rfl

theorem Shared.advance (hp : s.pc p = .advance c i r) :
    Shared inum fs₀ (es ++ []) ({ s with off := if r > 0 then s.off + BitVec.ofInt 32 r else s.off }.goto p
      (.unlock c i r)) := by
  obtain ⟨hprog, hsound⟩ := h.here hp
  have hoff := h.off
  have hholder := (h.holder p).1 (by rw [hp]; rfl)
  rw [File.ahead, hholder] at hoff
  simp only [hp, Pc.ahead] at hoff
  obtain rfl : r = c.n1 i := hsound
  have hlt : (Blocks.content s.fs inum).length < 2 ^ 32 := by
    rw [length_content]
    exact BitVec.isLt _
  refine h.move s.fs _ s.holder h.own h.loaded ?_ ?_ (fun q _ => h.holder q)
    ⟨fun _ => hholder, fun _ => rfl⟩ rfl (fun _ _ => ⟨rfl, rfl⟩) ?_
  · rw [append_nil]
    exact h.content
  · simp only [File.ahead, File.goto, hholder, update_self, Pc.ahead, Nat.add_zero, ← hoff, Int.toNat_natCast] at hlt ⊢
    split
    · rw [BitVec.ofInt_natCast, BitVec.toNat_add, BitVec.toNat_ofNat]
      omega
    · omega
  · rw [append_nil]
    exact hprog

theorem Shared.unlock (hp : s.pc p = .unlock c i r) :
    Shared inum fs₀ (es ++ []) ({ s with holder := none }.goto p (.finish c i r)) := by
  obtain ⟨hprog, hsound⟩ := h.here hp
  have hoff := h.off
  have hholder := (h.holder p).1 (by rw [hp]; rfl)
  rw [File.ahead, hholder] at hoff
  simp only [hp, Pc.ahead] at hoff
  refine h.move s.fs s.off none h.own h.loaded ?_ hoff (fun q hq => ?_)
    ⟨(by cases ·), (by cases ·)⟩ hsound (fun _ _ => ⟨rfl, rfl⟩) ?_
  · rw [append_nil]
    exact h.content
  · rw [h.holder q, hholder]
    simp [Ne.symm hq]
  · rw [append_nil]
    exact hprog

theorem Shared.finish (hp : s.pc p = .finish c i r) :
    r = c.n1 i ∧ Shared inum fs₀ (es ++ []) (s.goto p (.test c (i + c.n1 i))) := by
  obtain ⟨hprog, hsound⟩ := h.here hp
  refine ⟨hsound, h.quiet (by rw [hp]; rfl) rfl trivial rfl (fun _ _ => rfl) ?_⟩
  rw [show of p (calls ([] : List (Event n))) = [] from rfl, append_nil]
  exact hprog

end

/-- A step moves one process only. -/
theorem step_frame (hs : step inum s a = some (s', es')) : ∃ p pc, s'.pc = update s.pc p pc ∧
      ((s.pc p).Failing → pc.Failing ∨ Event.ret p (-1) ∈ es') := by
  cases a with
  | call p c =>
    simp only [step] at hs
    split at hs
    · rename_i hp
      cases hs
      exact ⟨p, _, rfl, fun hf => by rw [hp] at hf; exact hf.elim⟩
    · cases hs
  | step p =>
    simp only [step, procStep] at hs
    split at hs
    · cases hs
    · rename_i hp
      split at hs <;> cases hs <;> exact ⟨p, _, rfl, fun hf => by rw [hp] at hf; exact hf.elim⟩
    · rename_i hp
      split at hs
      · split at hs <;> cases hs
        exact ⟨p, _, rfl, fun hf => by rw [hp] at hf; exact hf.elim⟩
      · cases hs
    · rename_i hp
      split at hs <;> cases hs
      exact ⟨p, _, rfl, fun hf => by rw [hp] at hf; exact hf.elim⟩
    · rename_i hp
      cases hs
      exact ⟨p, _, rfl, fun hf => by rw [hp] at hf; exact .inl hf⟩
    · rename_i hp
      split at hs <;> cases hs
      exact ⟨p, _, rfl, fun hf => by rw [hp] at hf; exact .inl hf⟩
    · rename_i c i r hp
      split at hs <;> cases hs
      · refine ⟨p, _, rfl, fun hf => .inr ?_⟩
        rw [hp] at hf
        have hne : i ≠ c.n := by
          have := hf.1
          omega
        rw [WriteCall.result, if_neg hne]
        exact mem_singleton_self _
      · rename_i hr
        refine ⟨p, _, rfl, fun hf => ?_⟩
        rw [hp] at hf
        exact absurd hf.2 hr

theorem Failed.step (h : Failed es s) (hs : step inum s a = some (s', es')) : Failed (es ++ es') s' := by
  obtain ⟨p, hp⟩ | ⟨p, hp⟩ := h
  · exact .inl ⟨p, mem_append_left _ hp⟩
  obtain ⟨q, pc, hpc, hq⟩ := step_frame hs
  by_cases e : p = q
  · subst e
    obtain hf | hret := hq hp
    · exact .inr ⟨p, by rw [hpc, update_self]; exact hf⟩
    · exact .inl ⟨p, mem_append_right _ hret⟩
  · exact .inr ⟨p, by rw [hpc, update_of_ne e]; exact hp⟩

theorem Shared.step (h : Shared inum fs₀ es s) (hs : step inum s a = some (s', es')) :
    Failed (es ++ es') s' ∨ Shared inum fs₀ (es ++ es') s' := by
  cases a with
  | call p c =>
    simp only [Offset.step] at hs
    split at hs
    · rename_i hp
      cases hs
      exact .inr (h.call hp c)
    · cases hs
  | step p =>
    simp only [Offset.step, procStep] at hs
    split at hs
    · cases hs
    · rename_i hp
      split at hs
      · cases hs
        exact .inr ((h.test hp).1 ‹_›)
      · cases hs
        exact .inr ((h.test hp).2 ‹_›)
    · rename_i hp
      split at hs
      · rename_i hfree
        split at hs
        · rename_i hl
          cases hs
          rw [ilock_loaded h.loaded hl]
          exact .inr (h.lock hp (Option.isNone_iff_eq_none.1 hfree))
        · cases hs
      · cases hs
    · rename_i c i hp
      split at hs
      · rename_i r fs' hw
        cases hs
        by_cases e : r = c.n1 i
        · subst e
          exact .inr (h.write hp hw)
        · have hi := h.sound p
          rw [hp] at hi
          refine .inl (.inr ⟨p, ?_⟩)
          simp only [File.goto, update_self]
          exact ⟨hi, e⟩
      · cases hs
    · rename_i hp
      cases hs
      exact .inr (h.advance hp)
    · rename_i hp
      split at hs
      · rename_i hl
        cases hs
        rw [iunlock_same hl]
        exact .inr (h.unlock hp)
      · cases hs
    · rename_i hp
      obtain ⟨hr, hsh⟩ := h.finish hp
      split at hs
      · rename_i hne
        exact absurd hr hne
      · cases hs
        exact .inr hsh

/-- The data of the calls of a process is as long as they say. -/
theorem sum_flatMap_pieces (cs : List WriteCall) :
    ((cs.flatMap pieces).map length).sum = (cs.map WriteCall.n).sum := by
  induction cs with
  | nil => rfl
  | cons c cs ih =>
    have hc := sum_pieces c 0
    rw [drop_zero, Nat.zero_mul, Nat.sub_zero] at hc
    rw [flatMap_cons, map_append, sum_append, ih, hc, map_cons, sum_cons]

/-- Processes share a file of an inode, with the offset at its end. When all calls have returned
and none has failed, the file has grown by the chunks of all transactions in their order, of at
most `3 * BSIZE` bytes each, the chunks of each process are those of its calls in order, and
the offset and the size have grown by the lengths of all calls. -/
theorem shared_offset {fs₀ : Fs} (h : WellFormed fs₀) {cs : List Call} (hr : runCalls cs fs₀ = .ok ((), fs))
    (hl : ((fs.itable inum).inode).isSome = true) {off : BitVec 32}
    (hoff : off.toNat = (content fs inum).length) {es : List (Event n)} {s : File n}
    (hx : Exec (step inum) Any (start fs off) es s) (hidle : ∀ p, s.pc p = .idle)
    (hok : ∀ p r, Event.ret p r ∈ es → r ≠ -1) :
    content s.fs inum = content fs inum ++ (chunks es).flatMap Prod.snd ∧
      (∀ x ∈ chunks es, x.2.length ≤ 3 * BSIZE) ∧
      (∀ p, of p (chunks es) = (of p (calls es)).flatMap pieces) ∧
      (content s.fs inum).length = (content fs inum).length + ((calls es).map fun x => x.2.n).sum ∧
      s.off.toNat = off.toNat + ((calls es).map fun x => x.2.n).sum := by
  have hinv : Failed es s ∨ Shared inum fs es s := by
    refine hx.invariant (I := fun es s => Failed es s ∨ Shared inum fs es s)
      (.inr (shared_start ((Keeps.runCalls cs fs₀ h.own).ok hr) hl hoff)) fun hi _ hs => ?_
    obtain hf | hi := hi
    · exact .inl (hf.step hs)
    · exact hi.step hs
  obtain (⟨p, hp⟩ | ⟨p, hp⟩) | hi := hinv
  · exact absurd rfl (hok p _ hp)
  · rw [hidle] at hp
    exact hp.elim
  have hpieces : ∀ p, of p (chunks es) = (of p (calls es)).flatMap pieces := by
    intro p
    have hprog := hi.progress p
    rw [hidle] at hprog
    exact hprog
  have hsum : ((chunks es).map fun x => x.2.length).sum = ((calls es).map fun x => x.2.n).sum := by
    rw [← sum_of List.length, ← sum_of WriteCall.n]
    exact Finset.sum_congr rfl fun p _ => by rw [hpieces, sum_flatMap_pieces]
  have hlen : (content s.fs inum).length = (content fs inum).length + ((calls es).map fun x => x.2.n).sum := by
    rw [hi.content, List.length_append, List.length_flatMap, hsum]
  refine ⟨hi.content, fun x hx => ?_, hpieces, hlen, ?_⟩
  · have hmem : x.2 ∈ of x.1 (chunks es) := List.mem_map.2 ⟨x, List.mem_filter.2 ⟨hx, decide_eq_true rfl⟩, rfl⟩
    rw [hpieces, List.mem_flatMap] at hmem
    obtain ⟨c, -, hc⟩ := hmem
    obtain ⟨k, -, e⟩ := List.mem_map.1 hc
    rw [← e, piece, List.length_map, List.length_range, ← maxWrite_eq]
    exact Nat.min_le_right ..
  · have hahead : s.ahead = 0 := by
      unfold File.ahead
      split
      · rw [hidle]
        rfl
      · rfl
    have := hi.off
    rw [hahead] at this
    omega

/-- Process 0 writes 4000 bytes and process 1 writes 10, between the two chunks of process 0. -/
def sharedActs : List (Act 2) :=
  [.call 0 ⟨⟨fun _ => 7, 4000⟩, 4000, by decide⟩, .call 1 ⟨⟨fun _ => 9, 10⟩, 10, by decide⟩] ++
    List.replicate 3 (.step 0) ++ [.step 1] ++ List.replicate 3 (.step 0) ++ List.replicate 6 (.step 1) ++
    List.replicate 7 (.step 0)

/-- The result of a check that needs only the shape of a run. -/
def ranWell (r : File 2 × List (Event 2)) : Bool :=
  r.2.all (fun e => match e with
    | .ret _ v => v != -1
    | _ => true) && (List.finRange 2).all fun p => match r.1.pc p with
    | .idle => true
    | _ => false

theorem shared_offset_two_writers : ∃ (fs : Fs) (es : List (Event 2)) (s : File 2),
    runCalls createFile rootImage = .ok ((), fs) ∧ Exec (step 2) Any (start fs 0) es s ∧
    (∀ p, s.pc p = .idle) ∧ (calls es).length = 2 ∧
    content s.fs 2 = content fs 2 ++ (chunks es).flatMap Prod.snd ∧
      (∀ x ∈ chunks es, x.2.length ≤ 3 * BSIZE) ∧
      (∀ p, of p (chunks es) = (of p (calls es)).flatMap pieces) ∧
      (content s.fs 2).length = (content fs 2).length + ((calls es).map fun x => x.2.n).sum ∧
      s.off.toNat = (0 : BitVec 32).toNat + ((calls es).map fun x => x.2.n).sum := by
  obtain ⟨_, fs, hr, hl, hsz, hrun⟩ : ∃ u fs, runCalls createFile rootImage = .ok (u, fs) ∧
      ((fs.itable 2).inode).isSome = true ∧ (cur fs 2).size = 0 ∧
      ((runActs (step 2) (start fs 0) sharedActs).any fun r => ranWell r && (calls r.2).length == 2) = true :=
    exists_of_ok (by decide +kernel)
  obtain ⟨⟨s, es⟩, hacts, hes⟩ := Option.any_eq_true _ _ |>.1 hrun
  simp only [ranWell, Bool.and_eq_true, beq_iff_eq, List.all_eq_true] at hes
  obtain ⟨⟨hret, hpc⟩, hcalls⟩ := hes
  have hx : Exec (step 2) Any (start fs 0) es s := exec_of_run hacts
  have hidle : ∀ p, s.pc p = .idle := by
    intro p
    have := hpc p (List.mem_finRange p)
    split at this
    · assumption
    · cases this
  have hoff : (0 : BitVec 32).toNat = (content fs 2).length := by rw [length_content, hsz]
  have hok : ∀ p r, Event.ret p r ∈ es → r ≠ -1 := fun p r hm => by simpa using hret _ hm
  exact ⟨fs, es, s, hr, hx, hidle, hcalls, shared_offset rootImage_wellFormed hr hl hoff hx hidle hok⟩

end Xv6.Blocks.Offset
