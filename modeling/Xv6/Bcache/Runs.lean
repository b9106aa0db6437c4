import Xv6.Bcache.Lru
import Mathlib.Data.BitVec

/-!
# The buffer cache: what holds in every run

`cache_representation`: in every run whose callers balance their references, by any processes, the
links are a ring of all buffers, no block is cached twice, and `bget` recycles the least recently
freed of the unused buffers. The reference count has 32 bits and no overflow check, so it is the
number of references modulo 2^32 (`refcnt_wraps`).
-/

namespace Xv6.Bcache

open List

variable {P D : Type} [DecidableEq P] {s s' : State P D} {es es' : List Event} {a : Act P D} {b : Buf}

structure Represented [Fintype P] (es : List Event) (s : State P D) : Prop where
  /-- The links form one ring, with each buffer in it once. -/
  ring : ∃ l : List Buf, Ring s.links none (l.map some) ∧ ∀ b, l.count b = 1
  /-- No two buffers that have been assigned a block have the same. -/
  unique : ∀ b c, Assigned es b → Assigned es c → s.id b = s.id c → b = c
  refcnt : ∀ b, (s.buf b).refcnt.toNat = s.refs b % 2 ^ 32
  /-- No step reassigns a buffer that is in use. -/
  assigned : ∀ a s' es', step s a = some (s', es') → ∀ b, 0 < (s.buf b).refcnt.toNat → s'.id b = s.id b
  /-- A buffer that a step recycles is not in use, and of those the least recently freed. -/
  recycled : ∀ a s' es', step s a = some (s', es') → ∀ b, .recycled b ∈ es' →
    (s.buf b).refcnt = 0 ∧ ∀ c, (s.buf c).refcnt = 0 → lastFreed es b ≤ lastFreed es c

/-! ## What a step recycles -/

theorem bget_id {p : P} {dev blockno : BitVec 32} (h : .recycled b ∉ (s.bget p dev blockno).2) :
    (s.bget p dev blockno).1.id b = s.id b := by
  rw [State.bget] at h ⊢
  split
  · rename_i c _
    exact congrFun (id_setBuf_same (x := (s.buf c).incref) rfl rfl) b
  · rename_i hf
    rw [hf] at h
    split
    · rename_i c hu
      rw [hu] at h
      have hbc : b ≠ c := fun e => h (e ▸ mem_singleton_self _)
      have hid := congrFun (id_setBuf s c ((s.buf c).assign dev blockno)) b
      rw [Function.update_of_ne hbc] at hid
      exact hid
    · rfl

theorem bget_recycled {p : P} {dev blockno : BitVec 32} (h : .recycled b ∈ (s.bget p dev blockno).2) :
    s.findUnused = some b := by
  rw [State.bget] at h
  split at h
  · cases mem_singleton.1 h
  · split at h
    · rename_i hu
      rw [hu]
      cases mem_singleton.1 h
      rfl
    · cases h

theorem brelse_id (s : State P D) (p : P) (b : Buf) : (s.brelse p b).1.id = s.id := by
  rw [State.brelse]
  split
  · exact id_setBuf_same rfl rfl
  · exact id_setBuf_same rfl rfl

theorem brelse_recycled (s : State P D) (p : P) (b c : Buf) : .recycled c ∉ (s.brelse p b).2 := by
  rw [State.brelse]
  split
  · intro h
    cases mem_singleton.1 h
  · exact not_mem_nil

/-- Only `bget` changes the block of a buffer. -/
theorem step_recycles (h : step s a = some (s', es')) :
    (∃ p dev blockno, s.bget p dev blockno = (s', es')) ∨ s'.id = s.id ∧ ∀ b, .recycled b ∉ es' := by
  rw [step] at h
  split at h
  · cases h
  cases a with
  | bget p dev blockno =>
    obtain ⟨-, h⟩ := Option.ite_none_right_eq_some.1 h
    exact .inl ⟨p, dev, blockno, Option.some.inj h⟩
  | acquiresleep p =>
    rw [State.act] at h
    split at h
    · obtain ⟨-, h⟩ := Option.ite_none_right_eq_some.1 h
      cases h
      exact .inr ⟨id_setBuf_same rfl rfl, fun _ => not_mem_nil⟩
    · cases h
  | fill p =>
    rw [State.act] at h
    split at h
    · rename_i b _
      cases h
      obtain ⟨hdev, hblock, -, -⟩ := fill_fields (s.buf b) s.disk
      exact .inr ⟨id_setBuf_same hdev hblock, fun _ => not_mem_nil⟩
    · cases h
  | brelse p =>
    rw [State.act] at h
    split at h
    · rename_i b _
      have hid := brelse_id s p b
      have hno := brelse_recycled s p b
      rw [Option.some.inj h] at hid hno
      exact .inr ⟨hid, hno⟩
    · cases h
  | bwrite p b =>
    obtain ⟨-, h⟩ := Option.ite_none_right_eq_some.1 h
    cases h
    refine .inr ⟨?_, fun _ => not_mem_nil⟩
    split
    · rfl
    · rfl
  | releasesleep p b =>
    obtain ⟨-, h⟩ := Option.ite_none_right_eq_some.1 h
    cases h
    refine .inr ⟨?_, fun _ => not_mem_nil⟩
    split
    · exact id_setBuf_same rfl rfl
    · rfl
  | modify p b data | bpin p b | bunpin p b =>
    obtain ⟨-, h⟩ := Option.ite_none_right_eq_some.1 h
    cases h
    exact .inr ⟨id_setBuf_same rfl rfl, fun _ => not_mem_nil⟩

/-! ## Every run -/

variable [Fintype P] {disk : BitVec 32 → BitVec 32 → D} {data : Buf → D}

theorem Inv.recycled (hi : Inv es s) (h : step s a = some (s', es')) (hb : .recycled b ∈ es') :
    (s.buf b).refcnt = 0 ∧ ∀ c, (s.buf c).refcnt = 0 → lastFreed es b ≤ lastFreed es c := by
  obtain ⟨l, hl⟩ := hi.1
  rcases step_recycles h with ⟨p, dev, blockno, he⟩ | ⟨-, hno⟩
  · have hf : s.findUnused = some b := bget_recycled (by rw [he]; exact hb)
    rw [hl.findUnused] at hf
    have hz := find?_some hf
    exact ⟨beq_iff_eq.1 hz, fun c hc => hl.least hf (beq_iff_eq.2 hc)⟩
  · exact absurd hb (hno b)

theorem cache_representation (h : Exec step Balanced (init disk data : State P D) es s) :
    Represented es s := by
  have hi := inv_exec h
  obtain ⟨l, hl⟩ := hi.1
  refine ⟨⟨l, hl.ring, fun b => ?_⟩, fun b c hb hc => hl.unique hb hc, fun b => ?_,
    fun a s' es' hs b hb => ?_, fun a s' es' hs b hb => hi.recycled hs hb⟩
  · exact List.count_eq_one_of_mem hl.nodup (hl.mem b)
  · rw [hi.2.refcnt b, BitVec.toNat_ofNat]
  · have hno : .recycled b ∉ es' := by
      intro hr
      rw [(hi.recycled hs hr).1] at hb
      exact absurd hb (lt_irrefl 0)
    rcases step_recycles hs with ⟨p, dev, blockno, he⟩ | ⟨hid, -⟩
    · have hid : (s.bget p dev blockno).1.id b = s.id b := bget_id (by rw [he]; exact hno)
      rwa [he] at hid
    · rw [hid]

/-! ## Two runs -/

def balancedCheck (s : State P D) : Act P D → Bool
  | .bunpin _ b => 0 < s.pins b
  | _ => true

omit [DecidableEq P] [Fintype P] in
theorem balanced_of_check (s : State P D) (a : Act P D) (h : balancedCheck s a = true) : Balanced s a := by
  cases a with
  | bunpin p b =>
    rw [balancedCheck, decide_eq_true_iff] at h
    exact h
  | _ => trivial

/-- `p` reads a block. -/
def breadActs (p : P) (dev blockno : BitVec 32) : List (Act P D) :=
  [.bget p dev blockno, .acquiresleep p, .fill p]

/-- `p` releases a buffer. -/
def brelseActs (p : P) (b : Buf) : List (Act P D) := [.releasesleep p b, .brelse p]

def checkedRun (as : List (Act P Unit)) : Option (State P Unit × List Event) :=
  runActs (fun s a => if balancedCheck s a then step s a else none)
    (init (fun _ _ => ()) fun _ => ()) as

omit [Fintype P] in
theorem exec_of_checkedRun {as : List (Act P Unit)} {s : State P Unit} (h : checkedRun as = some (s, es)) :
    Exec step Balanced (init (fun _ _ => ()) fun _ => ()) es s :=
  Exec.of_check balanced_of_check (exec_of_run h)

/-- Two processes read block 7, the first pins it. When both have released it, the first reads
block 8 and the pin is undone. -/
def sharedRun : List (Act Bool Unit) :=
  breadActs false 1 7 ++ [.bget true 1 7, .bpin false 0] ++ brelseActs false 0 ++
    [.acquiresleep true, .fill true] ++ brelseActs true 0 ++ breadActs false 1 8 ++ [.bunpin false 0]

theorem sharedRun_ends : ∃ s es, checkedRun sharedRun = some (s, es) ∧ (s.buf 0).refcnt = 0 ∧
    (s.buf 1).refcnt = 1 ∧ .recycled 1 ∈ es :=
  exists_of_any (by decide +kernel)

theorem cache_representation_sharedRun : ∃ es, ∃ s : State Bool Unit,
    Exec step Balanced (init (fun _ _ => ()) fun _ => ()) es s ∧ .recycled 1 ∈ es ∧ Represented es s := by
  obtain ⟨s, es, hr, -, -, he⟩ := sharedRun_ends
  exact ⟨es, s, exec_of_checkedRun hr, he, cache_representation (exec_of_checkedRun hr)⟩

theorem heldRun_ends : ∃ s es, checkedRun (breadActs () 1 7) = some (s, es) ∧ s.panicked = false ∧
    s.phase () = .idle ∧ (s.buf 0).lock = some () ∧ (s.buf 0).refcnt = 1 ∧ s.pins 0 = 0 :=
  exists_of_any (by decide +kernel)

/-- The process that has locked buffer 0 can pin it any number of times. -/
theorem pinned_exec (n : Nat) : ∃ es, ∃ s : State Unit Unit, Exec step Balanced (init (fun _ _ => ()) fun _ => ()) es s ∧
    s.panicked = false ∧ s.phase () = .idle ∧ (s.buf 0).lock = some () ∧ s.pins 0 = n := by
  induction n with
  | zero =>
    obtain ⟨s, es, hr, hk, hp, hl, -, hn⟩ := heldRun_ends
    exact ⟨es, s, exec_of_checkedRun hr, hk, hp, hl, hn⟩
  | succ n ih =>
    obtain ⟨es, s, he, hk, hp, hl, hn⟩ := ih
    have hs : step s (.bpin () 0) =
        some ((s.setBuf 0 (s.buf 0).incref).setPins 0 (s.pins 0 + 1), []) := by
      rw [step, hk, if_neg Bool.false_ne_true, State.act, if_pos hp]
    have hb : Balanced s (.bpin () 0) := trivial
    refine ⟨es ++ [], _, he.step hb hs, hk, hp, hl, ?_⟩
    rw [← hn]
    exact Function.update_self 0 (s.pins 0 + 1) s.pins

theorem refcnt_wraps : ∃ es, ∃ s : State Unit Unit,
    Exec step Balanced (init (fun _ _ => ()) fun _ => ()) es s ∧
    (s.buf 0).lock = some () ∧ s.pins 0 = 2 ^ 32 - 1 ∧ (s.buf 0).refcnt = 0 := by
  obtain ⟨es, s, he, -, hp, hl, hn⟩ := pinned_exec (2 ^ 32 - 1)
  refine ⟨es, s, he, hl, hn, ?_⟩
  have hrefs : s.refs 0 = 2 ^ 32 := by
    simp [State.refs, hp, hn, Buffer.held, hl, Phase.ref]
  rw [(inv_exec he).2.refcnt 0, hrefs]
  rfl

end Xv6.Bcache
