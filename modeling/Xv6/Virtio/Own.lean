import Xv6.Virtio.Model
import Mathlib.Data.List.Nodup

/-!
# Who has the descriptors

A thread of the driver has the descriptors it has allocated (`Pc.owns`) and knows what is in
them (`Pc.Ok`), from place to place in its code. `Driver` is the invariant of the memory that
the driver writes: each descriptor is free or some thread has it. Every step of a thread keeps
it (`Driver.run`); the steps of the device change nothing that it speaks of.
-/

namespace Xv6.Virtio

open Function List Option

variable {n : Nat} {B D : Type} {s s' : State n B D} {t : Fin n}

theorem State.goto_self (s : State n B D) (t : Fin n) (pc : Pc B D) : (s.goto t pc).pc t = pc := update_self ..

theorem State.goto_ne {t' : Fin n} (s : State n B D) {pc : Pc B D} (e : t' ≠ t) : (s.goto t pc).pc t' = s.pc t' :=
  update_of_ne e ..

/-- The thread holds `vdisk_lock`. -/
def Pc.holds : Pc B D → Bool
  | .idle | .enter _ | .sleepFree _ | .sleepBuf .. | .intrEnter => false
  | _ => true

/-- What is left of a chain from its descriptor `i` on. -/
def Chain.from (c : Chain) (i : Option Nat) : List Nat := c.list.dropWhile fun d => some d ≠ i

/-- The descriptors that a thread has. -/
def Pc.owns : Pc B D → List Nat
  | .alloc _ got => got
  | .undo _ todo => todo
  | .format _ c _ | .publish _ c | .submit _ c | .wait _ c _ | .sleepBuf _ c _ | .clear _ c _ => c.list
  | .freeChain _ c _ i => c.from i
  | .freeDesc d _ next => d :: next.owns
  | _ => []

/-- The descriptors are those of the request, in a chain. -/
structure Linked (m : Mem B) (r : Request B D) (c : Chain) : Prop where
  op : m.ops c.d0 = ⟨if r.write then VIRTIO_BLK_T_OUT else VIRTIO_BLK_T_IN, 0, r.sector⟩
  d0 : m.desc c.d0 = ⟨.op c.d0, 16, VRING_DESC_F_NEXT, BitVec.ofNat 16 c.d1⟩
  d1 : m.desc c.d1 = ⟨.data r.b, BitVec.ofNat 32 Blocks.BSIZE,
    (if r.write then 0 else VRING_DESC_F_WRITE) ||| VRING_DESC_F_NEXT, BitVec.ofNat 16 c.d2⟩
  d2 : m.desc c.d2 = ⟨.status c.d0, 1, VRING_DESC_F_WRITE, 0⟩
  buf : m.buf c.d0 = some r.b

/-- The descriptors are linked in this order. -/
def Tail (m : Mem B) : List Nat → Prop
  | [] => True
  | [d] => (m.desc d).flags &&& VRING_DESC_F_NEXT = 0
  | d :: e :: l => (m.desc d).flags &&& VRING_DESC_F_NEXT ≠ 0 ∧ (m.desc d).next.toNat = e ∧ Tail m (e :: l)

/-- The thread frees descriptors. -/
def Pc.frees : Pc B D → Bool
  | .undo .. | .freeChain .. => true
  | _ => false

variable [DecidableEq B]

/-- The memory after the stores that are still to be made. -/
def after (m : Mem B) (ws : List (Write B)) : Mem B := ws.foldl (fun m w => w.mem m) m

/-- What a thread knows of the memory. -/
def Pc.Ok (m : Mem B) : Pc B D → Prop
  | .alloc _ got => got.length < 3
  | .format r c i => Linked (after m ((formatWrites r c).drop i)) r c ∧
      (after m ((formatWrites r c).drop i)).disk r.b = true
  | .publish r c => Linked m r c ∧ m.disk r.b = true
  | .submit r c => (Linked m r c ∧ m.disk r.b = true) ∧ m.ring (m.idx.toNat % NUM) = BitVec.ofNat 16 c.d0
  | .wait r c _ | .sleepBuf r c _ | .clear r c _ => Linked m r c
  | .freeChain _ c _ i => (c.list.Nodup ∧ Tail m (c.from i) ∧ (c.from i).head? = i) ∧
      ∀ d ∈ c.list, d ∈ c.from i ∨ m.free d = true
  | .freeDesc d _ next => next.frees = true ∧ next.Ok { m with free := update m.free d true }
  | .leave _ c _ => ∀ d ∈ c.list, m.free d = true
  | _ => True

structure Driver (s : State n B D) : Prop where
  lock : ∀ t, s.lock = some t ↔ (s.pc t).holds = true
  lt : ∀ t, ∀ d ∈ (s.pc t).owns, d < NUM ∧ s.mem.free d = false
  nodup : ∀ t, (s.pc t).owns.Nodup
  disj : ∀ t t' d, d ∈ (s.pc t).owns → d ∈ (s.pc t').owns → t = t'
  all : ∀ d < NUM, s.mem.free d = false → ∃ t, d ∈ (s.pc t).owns
  ok : ∀ t, (s.pc t).Ok s.mem
  callers : ∀ t t' b, (s.pc t).buf = some b → (s.pc t').buf = some b → t = t'

/-! ## Frames -/

/-- The memory of descriptor `d` is the same. -/
structure Same (m m' : Mem B) (d : Nat) : Prop where
  desc : m'.desc d = m.desc d
  ops : m'.ops d = m.ops d
  buf : m'.buf d = m.buf d

variable {m m' : Mem B} {r : Request B D} {c : Chain}

omit [DecidableEq B] in
theorem Linked.frame (h : Linked m r c) (hs : ∀ d ∈ c.list, Same m m' d) : Linked m' r c := by
  have h0 := hs c.d0 (by simp [Chain.list])
  have h1 := hs c.d1 (by simp [Chain.list])
  have h2 := hs c.d2 (by simp [Chain.list])
  exact ⟨h0.ops.trans h.op, h0.desc.trans h.d0, h1.desc.trans h.d1, h2.desc.trans h.d2, h0.buf.trans h.buf⟩

variable {l : List Nat} {w : Write B} {d i j : Nat}

omit [DecidableEq B] in
theorem Tail.frame (h : Tail m l) (hs : ∀ d ∈ l, m'.desc d = m.desc d) : Tail m' l := by
  induction l with
  | nil => trivial
  | cons d l ih =>
    have hd := hs d mem_cons_self
    cases l with
    | nil =>
      rw [Tail, hd]
      exact h
    | cons e l =>
      rw [Tail, hd]
      exact ⟨h.1, h.2.1, ih h.2.2 fun x hx => hs x (mem_cons_of_mem _ hx)⟩

/-- Threads that do not hold the lock know of their own descriptors only. -/
theorem Pc.Ok.frame {pc : Pc B D} (h : pc.Ok m) (hr : pc.holds = false) (hs : ∀ d ∈ pc.owns, Same m m' d) : pc.Ok m' := by
  cases pc with
  | sleepBuf r c k => exact Linked.frame h hs
  | _ => trivial

theorem Pc.Ok.frame_frees {pc : Pc B D} (h : pc.Ok m) (hf : pc.frees = true)
    (hs : ∀ d ∈ pc.owns, m'.desc d = m.desc d) (hfree : m'.free = m.free) : pc.Ok m' := by
  cases pc with
  | undo r todo => trivial
  | freeChain r c k i => exact ⟨⟨h.1.1, h.1.2.1.frame hs, h.1.2.2⟩, hfree ▸ h.2⟩
  | _ => cases hf

omit [DecidableEq B] in
theorem Pc.holds_of_frees {pc : Pc B D} (hf : pc.frees = true) : pc.holds = true := by
  cases pc <;> first | rfl | cases hf

/-- The descriptor that a store is made to. -/
def Write.index : Write B → Option Nat
  | .opType i _ | .opReserved i _ | .opSector i _ | .addr i _ | .len i _ | .flags i _ | .orFlags i _ | .next i _ |
    .status i _ | .buf i _ | .free i => some i
  | .disk _ _ => none

theorem Write.same (h : w.index ≠ some d) : Same m (w.mem m) d := by
  cases w <;> simp only [Write.index, ne_eq, some.injEq] at h <;>
    refine ⟨?_, ?_, ?_⟩ <;>
    simp only [Write.mem, Mem.setOp, Mem.setDesc] <;>
    first | rfl | exact update_of_ne (Ne.symm h) _ _

theorem Write.mem_free (h : ∀ i, w ≠ .free i) : (w.mem m).free = m.free := by
  cases w <;> first | rfl | exact absurd rfl (h _)

/-! ## What a step of a thread has to keep -/

section Move

variable {pc : Pc B D}

/-- A thread goes to `pc`; it has held the lock if it has changed the memory. -/
theorem Driver.move (h : Driver s) (hpc : s'.pc = update s.pc t pc) (hmem : s'.mem = s.mem ∨ s.lock = some t)
    (hlock : s'.lock = some t ↔ pc.holds = true) (hlock' : ∀ t', t' ≠ t → (s'.lock = some t' ↔ s.lock = some t'))
    (hkeep : ∀ d, d ∉ (s.pc t).owns → d ∉ pc.owns → s'.mem.free d = s.mem.free d)
    (hnew : ∀ d ∈ pc.owns, d < NUM ∧ s'.mem.free d = false ∧ (d ∈ (s.pc t).owns ∨ s.mem.free d = true))
    (hgone : ∀ d ∈ (s.pc t).owns, d ∉ pc.owns → s'.mem.free d = true)
    (hsame : ∀ d, d ∉ (s.pc t).owns → Same s.mem s'.mem d) (hnodup : pc.owns.Nodup) (hok : pc.Ok s'.mem)
    (hbuf : ∀ b, pc.buf = some b → (s.pc t).buf = some b ∨ ∀ t', (s.pc t').buf ≠ some b) : Driver s' := by
  have hself : s'.pc t = pc := by rw [hpc, update_self]
  have hne : ∀ t', t' ≠ t → s'.pc t' = s.pc t' := fun t' e => by rw [hpc, update_of_ne e]
  -- another thread has none of the descriptors that this one gets
  have hfresh : ∀ t', t' ≠ t → ∀ d ∈ (s.pc t').owns, d ∉ (s.pc t).owns ∧ d ∉ pc.owns := by
    intro t' e d hd
    have hold : d ∉ (s.pc t).owns := fun hc => e (h.disj t' t d hd hc)
    refine ⟨hold, fun hc => ?_⟩
    rcases (hnew d hc).2.2 with hx | hx
    · exact hold hx
    · rw [(h.lt t' d hd).2] at hx
      cases hx
  have hbuf' : ∀ t', t' ≠ t → ∀ b, pc.buf = some b → (s.pc t').buf ≠ some b := by
    intro t' e b hb hb'
    rcases hbuf b hb with hx | hx
    · exact e (h.callers t' t b hb' hx)
    · exact hx t' hb'
  refine ⟨fun t' => ?_, fun t' d hd => ?_, fun t' => ?_, fun t₁ t₂ d h₁ h₂ => ?_, fun d hd hf => ?_, fun t' => ?_,
    fun t₁ t₂ b h₁ h₂ => ?_⟩
  · by_cases e : t' = t
    · rw [e, hself]
      exact hlock
    · rw [hne t' e, hlock' t' e]
      exact h.lock t'
  · by_cases e : t' = t
    · rw [e, hself] at hd
      exact ⟨(hnew d hd).1, (hnew d hd).2.1⟩
    · rw [hne t' e] at hd
      obtain ⟨h1, h2⟩ := hfresh t' e d hd
      rw [hkeep d h1 h2]
      exact h.lt t' d hd
  · by_cases e : t' = t
    · rw [e, hself]
      exact hnodup
    · rw [hne t' e]
      exact h.nodup t'
  · by_cases e₁ : t₁ = t <;> by_cases e₂ : t₂ = t
    · rw [e₁, e₂]
    · rw [e₁, hself] at h₁
      rw [hne t₂ e₂] at h₂
      exact absurd h₁ (hfresh t₂ e₂ d h₂).2
    · rw [hne t₁ e₁] at h₁
      rw [e₂, hself] at h₂
      exact absurd h₂ (hfresh t₁ e₁ d h₁).2
    · rw [hne t₁ e₁] at h₁
      rw [hne t₂ e₂] at h₂
      exact h.disj t₁ t₂ d h₁ h₂
  · by_cases hp : d ∈ pc.owns
    · exact ⟨t, hself ▸ hp⟩
    · by_cases ho : d ∈ (s.pc t).owns
      · rw [hgone d ho hp] at hf
        cases hf
      · rw [hkeep d ho hp] at hf
        obtain ⟨t', ht'⟩ := h.all d hd hf
        have e : t' ≠ t := by
          rintro rfl
          exact ho ht'
        exact ⟨t', (hne t' e).symm ▸ ht'⟩
  · by_cases e : t' = t
    · rw [e, hself]
      exact hok
    · rw [hne t' e]
      rcases hmem with hm | hl
      · rw [hm]
        exact h.ok t'
      · have hr : (s.pc t').holds = false := by
          rw [Bool.eq_false_iff]
          intro hc
          rw [← h.lock, hl] at hc
          exact e (some.inj hc).symm
        exact (h.ok t').frame hr fun d hd => hsame d (hfresh t' e d hd).1
  · by_cases e₁ : t₁ = t <;> by_cases e₂ : t₂ = t
    · rw [e₁, e₂]
    · rw [e₁, hself] at h₁
      rw [hne t₂ e₂] at h₂
      exact absurd h₂ (hbuf' t₂ e₂ b h₁)
    · rw [hne t₁ e₁] at h₁
      rw [e₂, hself] at h₂
      exact absurd h₁ (hbuf' t₁ e₁ b h₂)
    · rw [hne t₁ e₁] at h₁
      rw [hne t₂ e₂] at h₂
      exact h.callers t₁ t₂ b h₁ h₂

/-- A thread goes on with the same descriptors. -/
theorem Driver.stay (h : Driver s) (hpc : s'.pc = update s.pc t pc) (hmem : s'.mem = s.mem ∨ s.lock = some t)
    (hlock : s'.lock = some t ↔ pc.holds = true) (hlock' : ∀ t', t' ≠ t → (s'.lock = some t' ↔ s.lock = some t'))
    (hfree : s'.mem.free = s.mem.free) (howns : pc.owns = (s.pc t).owns)
    (hsame : ∀ d, d ∉ (s.pc t).owns → Same s.mem s'.mem d) (hok : pc.Ok s'.mem)
    (hbuf : ∀ b, pc.buf = some b → (s.pc t).buf = some b ∨ ∀ t', (s.pc t').buf ≠ some b) : Driver s' := by
  refine h.move hpc hmem hlock hlock' (fun d _ _ => by rw [hfree]) (fun d hd => ?_) (fun d hd hn => ?_) hsame
    (howns ▸ h.nodup t) hok hbuf
  · rw [howns] at hd
    rw [hfree]
    exact ⟨(h.lt t d hd).1, (h.lt t d hd).2, .inl hd⟩
  · exact absurd (howns ▸ hd) hn

end Move

/-! ## Places of the code -/

theorem after_cons (w : Write B) (ws : List (Write B)) : after m (w :: ws) = after (w.mem m) ws := rfl

theorem linked_format (hc : c.list.Nodup) : Linked (after m (formatWrites r c)) r c ∧
    (after m (formatWrites r c)).disk r.b = true := by
  obtain ⟨h01, h02, h12⟩ : c.d0 ≠ c.d1 ∧ c.d0 ≠ c.d2 ∧ c.d1 ≠ c.d2 := by
    simpa [Chain.list, and_assoc] using hc
  refine ⟨⟨?_, ?_, ?_, ?_, ?_⟩, ?_⟩ <;>
    simp [after, formatWrites, Write.mem, Mem.setOp, Mem.setDesc, update_of_ne, h01, h02, h12, h01.symm, h02.symm, h12.symm]

omit [DecidableEq B] in
theorem index_formatWrites (h : w ∈ formatWrites r c) (hd : w.index = some d) : d ∈ c.list := by
  simp only [formatWrites, mem_cons, not_mem_nil, or_false] at h
  rcases h with rfl | rfl | rfl | rfl | rfl | rfl | rfl | rfl | rfl | rfl | rfl | rfl | rfl | rfl | rfl | rfl | rfl |
    rfl | rfl <;> cases hd <;> simp [Chain.list]

omit [DecidableEq B] in
theorem Linked.tail (h : Linked m r c) (hlt : ∀ d ∈ c.list, d < NUM) : Tail m c.list := by
  have hN : NUM = 8 := rfl
  have h1 : c.d1 < NUM := hlt _ (by simp [Chain.list])
  have h2 : c.d2 < NUM := hlt _ (by simp [Chain.list])
  refine ⟨?_, ?_, ?_, ?_, ?_⟩
  · rw [h.d0]
    show VRING_DESC_F_NEXT &&& VRING_DESC_F_NEXT ≠ 0
    decide
  · rw [h.d0, BitVec.toNat_ofNat]
    exact Nat.mod_eq_of_lt (by omega)
  · rw [h.d1]
    show ((if r.write then 0 else VRING_DESC_F_WRITE) ||| VRING_DESC_F_NEXT) &&& VRING_DESC_F_NEXT ≠ 0
    split <;> decide
  · rw [h.d1, BitVec.toNat_ofNat]
    exact Nat.mod_eq_of_lt (by omega)
  · show (m.desc c.d2).flags &&& VRING_DESC_F_NEXT = 0
    rw [h.d2]
    show VRING_DESC_F_WRITE &&& VRING_DESC_F_NEXT = 0
    decide

theorem Chain.from_none (c : Chain) : c.from none = [] := by
  simp [Chain.from, Chain.list]

theorem Chain.from_head (c : Chain) : c.from (some c.d0) = c.list := by
  simp [Chain.from, Chain.list]

/-- The descriptors after the first of those that are left. -/
theorem Chain.from_next (hc : c.list.Nodup) (h : c.from (some d) = d :: l) : c.from l.head? = l := by
  obtain ⟨h01, h02, h12⟩ : c.d0 ≠ c.d1 ∧ c.d0 ≠ c.d2 ∧ c.d1 ≠ c.d2 := by
    simpa [Chain.list, and_assoc] using hc
  simp only [Chain.from, Chain.list, dropWhile_cons, dropWhile_nil] at h ⊢
  by_cases e0 : c.d0 = d
  · simp [e0] at h
    subst h
    simp [h01]
  · by_cases e1 : c.d1 = d
    · simp [e0, e1] at h
      subst h
      simp [h02, h12]
    · by_cases e2 : c.d2 = d
      · simp [e0, e1, e2] at h
        subst h
        simp
      · simp [e0, e1, e2] at h

omit [DecidableEq B] in
/-- What `free_chain` reads as the next descriptor. -/
theorem Tail.next (h : Tail m (d :: l)) :
    (if (m.desc d).flags &&& VRING_DESC_F_NEXT ≠ 0 then some (m.desc d).next.toNat else none) = l.head? := by
  cases l with
  | nil => exact if_neg (not_not.2 h)
  | cons e l =>
    rw [if_pos h.1, h.2.1]
    rfl

/-- `free_desc` of a descriptor that the thread has does not panic. -/
theorem Driver.freeCheck (h : Driver s) (hd : d ∈ (s.pc t).owns) (next : Pc B D) :
    freeCheck s t d next = s.goto t (.freeDesc d 0 next) := by
  obtain ⟨hlt, hfree⟩ := h.lt t d hd
  rw [Virtio.freeCheck, if_neg (Nat.not_le.2 hlt), hfree]
  rfl

/-! ## Steps -/

section Steps

variable (h : Driver s) {q pc : Pc B D} (hpc : s.pc t = q)
include h hpc

/-- The holder of the lock goes to another place with it. -/
theorem Driver.locked {m : Mem B} {st : Nat → BitVec 8} {k : Nat} (hl : s.lock = some t) (hh : pc.holds = true)
    (hfree : m.free = s.mem.free) (howns : pc.owns = q.owns) (hsame : ∀ d, d ∉ q.owns → Same s.mem m d) (hok : pc.Ok m)
    (hbuf : pc.buf = q.buf) : Driver (State.goto { s with mem := m, status := st, submitted := k } t pc) := by
  subst hpc
  exact h.stay rfl (.inr hl) ⟨fun _ => hh, fun _ => hl⟩ (fun _ _ => Iff.rfl) hfree howns hsame hok fun _ hb => .inl (hbuf ▸ hb)

theorem Driver.goto (hl : s.lock = some t) (hh : pc.holds = true) (howns : pc.owns = q.owns) (hok : pc.Ok s.mem)
    (hbuf : pc.buf = q.buf) : Driver (s.goto t pc) :=
  h.locked hpc hl hh rfl howns (fun _ _ => ⟨rfl, rfl, rfl⟩) hok hbuf

theorem Driver.release (hl : s.lock = some t) (hh : pc.holds = false) (howns : pc.owns = q.owns) (hok : pc.Ok s.mem)
    (hbuf : ∀ b, pc.buf = some b → q.buf = some b) : Driver (s.release t pc) := by
  subst hpc
  refine h.stay rfl (.inl rfl) ⟨nofun, fun e => ?_⟩ (fun t' e => ⟨nofun, fun e' => ?_⟩) rfl
    howns (fun _ _ => ⟨rfl, rfl, rfl⟩) hok fun b hb => .inl (hbuf b hb)
  · rw [hh] at e
    cases e
  · rw [hl] at e'
    exact absurd (some.inj e').symm e

theorem Driver.acquire {es : List (Event B D)} (hs : s.acquire t pc = some (s', es)) (hh : pc.holds = true)
    (howns : pc.owns = q.owns) (hok : pc.Ok s.mem) (hbuf : pc.buf = q.buf) : Driver s' := by
  subst hpc
  rw [State.acquire] at hs
  split at hs
  · rename_i hl
    cases hs
    refine h.stay rfl (.inl rfl) ⟨fun _ => hh, fun _ => rfl⟩ (fun t' e => ⟨fun e' => ?_, fun e' => ?_⟩) rfl howns
      (fun _ _ => ⟨rfl, rfl, rfl⟩) hok fun b hb => .inl (hbuf ▸ hb)
    · exact absurd (some.inj e').symm e
    · rw [hl] at e'
      cases e'
  · cases hs

/-- A store to a descriptor of the thread. -/
theorem Driver.write (hl : s.lock = some t) (hw : ∀ d, w.index = some d → d ∈ q.owns) (hf : ∀ i, w ≠ .free i)
    (hh : pc.holds = true) (howns : pc.owns = q.owns) (hok : pc.Ok (w.mem s.mem)) (hbuf : pc.buf = q.buf) :
    Driver ((s.write w).goto t pc) :=
  h.locked hpc hl hh (Write.mem_free hf) howns (fun d hd => Write.same fun e => hd (hw d e)) hok hbuf

omit hpc in
theorem Driver.alloc {r : Request B D} {got : List Nat} {s' : State n B D} {es : List (Event B D)} (hl : s.lock = some t)
    (hpc : s.pc t = .alloc r got) (hs : runPc s t (.alloc r got) = some (s', es)) : Driver s' := by
  have hok := h.ok t
  rw [hpc] at hok
  rw [runPc] at hs
  split at hs
  · cases hs
    exact h.goto hpc hl rfl rfl trivial rfl
  · rename_i d hd
    have hfree : s.mem.free d = true := by simpa using find?_some hd
    have hlt : d < NUM := mem_range.1 (mem_of_find?_eq_some hd)
    have hnot : d ∉ (s.pc t).owns := fun hc => by
      rw [(h.lt t d hc).2] at hfree
      cases hfree
    have hgot : (s.pc t).owns = got := by rw [hpc]; rfl
    have hnodup : (got ++ [d]).Nodup := by
      rw [← hgot]
      refine nodup_append.2 ⟨h.nodup t, nodup_singleton d, fun a ha b hb e => ?_⟩
      rw [mem_singleton.1 hb] at e
      exact hnot (e ▸ ha)
    -- the thread has one descriptor more
    have hmore : ∀ pc : Pc B D, pc.holds = true → pc.owns = got ++ [d] → pc.buf = some r.b →
        pc.Ok { s.mem with free := update s.mem.free d false } →
        Driver (State.goto { s with mem := { s.mem with free := update s.mem.free d false } } t pc) := by
      intro pc hh howns hbuf hok
      refine h.move rfl (.inr hl) ⟨fun _ => hh, fun _ => hl⟩ (fun _ _ => Iff.rfl) (fun e he hn => ?_) (fun e he => ?_)
        (fun e he hn => ?_) (fun _ _ => ⟨rfl, rfl, rfl⟩) (howns ▸ hnodup) hok fun b hb => .inl ?_
      · have hne : e ≠ d := by
          rintro rfl
          rw [howns] at hn
          exact hn (by simp)
        exact update_of_ne hne ..
      · rw [howns, mem_append, mem_singleton] at he
        by_cases e' : e = d
        · subst e'
          exact ⟨hlt, update_self .., .inr hfree⟩
        · have hold : e ∈ (s.pc t).owns := hgot ▸ he.resolve_right e'
          exact ⟨(h.lt t e hold).1, (update_of_ne e' ..).trans (h.lt t e hold).2, .inl hold⟩
      · rw [howns, ← hgot] at hn
        exact absurd (mem_append_left _ he) hn
      · rw [hpc]
        exact hbuf.symm.trans hb
    split at hs
    · rename_i d0 d1
      cases hs
      exact hmore _ rfl rfl rfl (linked_format hnodup)
    · rename_i hne
      cases hs
      refine hmore _ rfl rfl rfl ?_
      show (got ++ [d]).length < 3
      rw [length_append, length_singleton]
      have hlen : got.length < 3 := hok
      have htwo : got.length ≠ 2 := fun e => by
        obtain ⟨a, b, rfl⟩ := length_eq_two.1 e
        exact hne a b rfl
      omega

omit hpc in
/-- The last store of `free_desc`. -/
theorem Driver.giveBack {next : Pc B D} (hl : s.lock = some t) (hpc : s.pc t = .freeDesc d i next) :
    Driver ((s.write (.free d)).goto t next) := by
  have hok := h.ok t
  have hnodup := h.nodup t
  have howns : (s.pc t).owns = d :: next.owns := by rw [hpc]; rfl
  rw [hpc] at hok
  rw [howns, nodup_cons] at hnodup
  refine h.move rfl (.inr hl) ⟨fun _ => Pc.holds_of_frees hok.1, fun _ => hl⟩ (fun _ _ => Iff.rfl) (fun e he hn => ?_)
    (fun e he => ?_) (fun e he hn => ?_) (fun e he => ?_) hnodup.2 hok.2 fun b hb => .inl ?_
  · have hne : e ≠ d := by
      rintro rfl
      exact he (howns ▸ mem_cons_self)
    exact update_of_ne hne ..
  · have hne : e ≠ d := by
      rintro rfl
      exact hnodup.1 he
    have hold : e ∈ (s.pc t).owns := howns ▸ mem_cons_of_mem _ he
    exact ⟨(h.lt t e hold).1, (update_of_ne hne ..).trans (h.lt t e hold).2, .inl hold⟩
  · rw [howns, mem_cons] at he
    obtain rfl := he.resolve_right hn
    exact update_self ..
  · refine Write.same (w := .free d) fun e' => he ?_
    rw [howns, ← some.inj e']
    exact mem_cons_self
  · rw [hpc]
    exact hb

omit hpc in
/-- A store of `free_desc` before the last. -/
theorem Driver.wipe {next : Pc B D} (hl : s.lock = some t) (hpc : s.pc t = .freeDesc d i next) (hw : w.index = some d)
    (hf : ∀ i, w ≠ .free i) : Driver ((s.write w).goto t (.freeDesc d (i + 1) next)) := by
  have hok := h.ok t
  have hnodup := h.nodup t
  rw [hpc] at hok hnodup
  refine h.write hpc hl (fun e he => ?_) hf rfl rfl ⟨hok.1, hok.2.frame_frees hok.1 (fun e he => ?_) ?_⟩ rfl
  · rw [← some.inj (hw.symm.trans he)]
    exact mem_cons_self
  · have hne : e ≠ d := by
      rintro rfl
      exact (nodup_cons.1 hnodup).1 he
    exact (Write.same fun e' => hne (some.inj (e'.symm.trans hw))).desc
  · show update (w.mem s.mem).free d true = update s.mem.free d true
    rw [Write.mem_free hf]

omit hpc in
/-- `free_chain` goes to its next descriptor. -/
theorem Driver.freeNext {r : Request B D} {c : Chain} {k : Nat} (hl : s.lock = some t)
    (hpc : s.pc t = .freeChain r c k (some i)) {s' : State n B D} {es : List (Event B D)}
    (hs : runPc s t (.freeChain r c k (some i)) = some (s', es)) : Driver s' := by
  have hok := h.ok t
  rw [hpc] at hok
  obtain ⟨⟨hnodup, htail, hhead⟩, hfree⟩ := hok
  obtain ⟨l, hfrom⟩ : ∃ l, c.from (some i) = i :: l := by
    cases hl : c.from (some i) with
    | nil =>
      rw [hl] at hhead
      cases hhead
    | cons d l =>
      rw [hl] at hhead
      cases hhead
      exact ⟨l, rfl⟩
  have howns : (s.pc t).owns = i :: l := by rw [hpc]; exact hfrom
  rw [hfrom] at htail hfree
  have hnext := Chain.from_next hnodup hfrom
  simp only [runPc, htail.next] at hs
  rw [h.freeCheck (howns ▸ mem_cons_self)] at hs
  cases hs
  refine h.goto hpc hl rfl ?_ ⟨rfl, ⟨hnodup, ?_, ?_⟩, fun d hd => ?_⟩ rfl
  · exact (congrArg (i :: ·) hnext).trans hfrom.symm
  · rw [hnext]
    cases l with
    | nil => trivial
    | cons e l => exact Tail.frame htail.2.2 fun _ _ => rfl
  · rw [hnext]
  · rw [hnext]
    rcases hfree d hd with hm | hm
    · rcases mem_cons.1 hm with rfl | hm
      · exact .inr (update_self ..)
      · exact .inl hm
    · by_cases e : d = i
      · rw [e]
        exact .inr (update_self ..)
      · exact .inr ((update_of_ne e ..).trans hm)

omit hpc in
/-- Every step of a thread keeps the invariant. -/
theorem Driver.run {s' : State n B D} {es : List (Event B D)} (hs : runPc s t (s.pc t) = some (s', es)) : Driver s' := by
  have hok := h.ok t
  have hlt := h.lt t
  have hnodup := h.nodup t
  have hl : (s.pc t).holds = true → s.lock = some t := (h.lock t).2
  cases hpc : s.pc t <;> rw [hpc] at hs hok hlt hnodup hl
  case idle => cases hs
  case enter r | sleepFree r => exact h.acquire hpc hs rfl rfl (Nat.zero_lt_succ 2) rfl
  case sleepBuf r c k => exact h.acquire hpc hs rfl rfl hok rfl
  case intrEnter => exact h.acquire hpc hs rfl rfl trivial rfl
  case alloc r got => exact h.alloc (hl rfl) hpc hs
  case undo r todo =>
    cases todo with
    | nil =>
      cases hs
      exact h.release hpc (hl rfl) rfl rfl trivial fun _ hb => hb
    | cons d todo =>
      rw [runPc, h.freeCheck (by rw [hpc]; exact mem_cons_self)] at hs
      cases hs
      exact h.goto hpc (hl rfl) rfl rfl ⟨rfl, trivial⟩ rfl
  case format r c i =>
    rw [runPc] at hs
    split at hs
    · rename_i w hw
      cases hs
      obtain ⟨hi, hw'⟩ := List.getElem?_eq_some_iff.1 hw
      have hmem : w ∈ formatWrites r c := hw' ▸ getElem_mem hi
      have hafter : after (w.mem s.mem) ((formatWrites r c).drop (i + 1)) = after s.mem ((formatWrites r c).drop i) := by
        rw [drop_eq_getElem_cons hi, hw', after_cons]
      refine h.write hpc (hl rfl) (fun d hd => index_formatWrites hmem hd) (fun j e => ?_) rfl rfl ?_ rfl
      · rw [e] at hmem
        simp [formatWrites] at hmem
      · show Linked (after _ _) _ _ ∧ (after _ _).disk _ = true
        rw [hafter]
        exact hok
    · rename_i hw
      cases hs
      refine h.goto hpc (hl rfl) rfl rfl ?_ rfl
      have hdrop : (formatWrites r c).drop i = [] := drop_eq_nil_of_le (getElem?_eq_none_iff.1 hw)
      rw [Pc.Ok, hdrop] at hok
      exact hok
  case publish r c =>
    cases hs
    exact h.locked hpc (hl rfl) rfl rfl rfl (fun _ _ => ⟨rfl, rfl, rfl⟩)
      ⟨⟨hok.1.frame fun _ _ => ⟨rfl, rfl, rfl⟩, hok.2⟩, update_self ..⟩ rfl
  case submit r c =>
    cases hs
    exact h.locked hpc (hl rfl) rfl rfl rfl (fun _ _ => ⟨rfl, rfl, rfl⟩) (hok.1.1.frame fun _ _ => ⟨rfl, rfl, rfl⟩) rfl
  case wait r c k =>
    rw [runPc] at hs
    split at hs <;> cases hs
    · exact h.release hpc (hl rfl) rfl rfl hok fun _ hb => hb
    · exact h.goto hpc (hl rfl) rfl rfl hok rfl
  case clear r c k =>
    cases hs
    refine h.write hpc (hl rfl) (fun d hd => ?_) nofun rfl c.from_head ⟨⟨hnodup, ?_, ?_⟩, fun d hd => ?_⟩ rfl
    · rw [← some.inj hd]
      exact mem_cons_self
    · rw [c.from_head]
      exact (hok.tail fun d hd => (hlt d hd).1).frame fun _ _ => rfl
    · rw [c.from_head]
      rfl
    · rw [c.from_head]
      exact .inl hd
  case freeChain r c k i =>
    cases i with
    | some i => exact h.freeNext (hl rfl) hpc hs
    | none =>
      cases hs
      refine h.goto hpc (hl rfl) rfl c.from_none.symm (fun d hd => ?_) rfl
      · rcases hok.2 d hd with hm | hm
        · rw [c.from_none] at hm
          cases hm
        · exact hm
  case freeDesc d i next =>
    have hdrop : (i = 0 ∨ i = 1 ∨ i = 2 ∨ i = 3) ∨ i = 4 ∨ 5 ≤ i := by omega
    rcases hdrop with (rfl | rfl | rfl | rfl) | rfl | hi
    iterate 4
      cases hs
      exact h.wipe (hl rfl) hpc rfl nofun
    · cases hs
      exact h.giveBack (hl rfl) hpc
    · rw [runPc, drop_eq_nil_of_le (show (freeWrites d : List (Write B)).length ≤ i from hi)] at hs
      cases hs
  case leave r c k =>
    cases hs
    exact h.release hpc (hl rfl) rfl rfl trivial nofun
  case intrLoop =>
    cases hs
    split
    · exact h.goto hpc (hl rfl) rfl rfl trivial rfl
    · exact h.goto hpc (hl rfl) rfl rfl trivial rfl
  case intrId =>
    cases hs
    exact h.goto hpc (hl rfl) rfl rfl trivial rfl
  case intrStatus id =>
    rw [runPc] at hs
    split at hs <;> cases hs
    · exact { h with }
    · exact h.goto hpc (hl rfl) rfl rfl trivial rfl
  case intrBuf id =>
    rw [runPc] at hs
    split at hs <;> cases hs
    · exact { h with }
    · exact h.write hpc (hl rfl) nofun nofun rfl rfl trivial rfl
  case intrNext =>
    cases hs
    exact h.locked hpc (hl rfl) rfl rfl rfl (fun _ _ => ⟨rfl, rfl, rfl⟩) trivial rfl
  case intrLeave =>
    cases hs
    exact h.release hpc (hl rfl) rfl rfl trivial nofun

end Steps

/-! ## All steps -/

theorem Driver.congr (h : Driver s) (hm : s'.mem = s.mem) (hl : s'.lock = s.lock) (hp : s'.pc = s.pc) : Driver s' := by
  obtain ⟨h1, h2, h3, h4, h5, h6, h7⟩ := h
  refine ⟨?_, ?_, ?_, ?_, ?_, ?_, ?_⟩ <;> simp only [hm, hl, hp] <;> assumption

theorem boot_driver (data : B → D) (image : BitVec 64 → D) : Driver (boot data image : State n B D) := by
  refine ⟨fun t => ⟨nofun, nofun⟩, fun t d hd => ?_, fun t => nodup_nil, fun t t' d hd => ?_, fun d _ hf => ?_,
    fun t => trivial, fun t t' b hb => ?_⟩
  · cases hd
  · cases hd
  · cases hf
  · cases hb

/-- A step of a thread that is idle. -/
theorem Driver.begin (h : Driver s) {pc : Pc B D} (hpc : s.pc t = .idle) (hr : pc.holds = false) (howns : pc.owns = [])
    (hok : pc.Ok s.mem) (hbuf : ∀ b, pc.buf = some b → ∀ t', (s.pc t').buf ≠ some b) : Driver (s.goto t pc) := by
  have hlock : s.lock ≠ some t := fun e => by
    have := (h.lock t).1 e
    rw [hpc] at this
    cases this
  refine h.stay rfl (.inl rfl) ⟨fun e => absurd e hlock, fun e => ?_⟩ (fun _ _ => Iff.rfl) rfl ?_
    (fun _ _ => ⟨rfl, rfl, rfl⟩) hok fun b hb => .inr (hbuf b hb)
  · rw [hr] at e
    cases e
  · rw [hpc]
    exact howns

section Device

variable {a : Act n B D} {es : List (Event B D)}

theorem step_call {r : Request B D} (hs : step s (.call t r) = some (s', es)) :
    s.pc t = .idle ∧ s' = State.goto { s with data := update s.data r.b r.data } t (.enter r) ∧ es = [] := by
  replace hs := (ite_none_left_eq_some.1 hs).2
  dsimp only at hs
  split at hs <;> cases hs
  exact ⟨‹_›, rfl, rfl⟩

theorem step_interrupt (hs : step s (.interrupt t) = some (s', es)) :
    s.pc t = .idle ∧ s' = s.goto t .intrEnter ∧ es = [] := by
  replace hs := (ite_none_left_eq_some.1 hs).2
  dsimp only at hs
  split at hs <;> cases hs
  exact ⟨‹_›, rfl, rfl⟩

theorem step_run (hs : step s (.run t) = some (s', es)) : runPc s t (s.pc t) = some (s', es) :=
  (ite_none_left_eq_some.1 hs).2

theorem step_take (hs : step s .take = some (s', es)) : BitVec.ofNat 16 s.seen ≠ s.mem.idx ∧
    s' = { s with
      seen := s.seen + 1
      pending := s.pending ++ [⟨s.seen, (s.mem.ring (s.seen % NUM)).toNat, .taken⟩] } ∧ es = [] := by
  replace hs := (ite_none_left_eq_some.1 hs).2
  dsimp only at hs
  split at hs <;> cases hs
  exact ⟨‹_›, rfl, rfl⟩

theorem step_move (hs : step s (.move j) = some (s', es)) : ∃ k h, s.pending[j]? = some ⟨k, h, .taken⟩ ∧
    ((follow s.mem h = none ∧ s' = s.panic .badChain ∧ es = []) ∨ ∃ w sector b i, follow s.mem h = some (w, sector, b, i) ∧
      s' = (s.transfer w sector b).1.advance j ⟨k, h, .taken⟩ .moved ∧ es = [.complete k (s.transfer w sector b).2]) := by
  replace hs := (ite_none_left_eq_some.1 hs).2
  dsimp only at hs
  split at hs
  · rename_i k h hj
    refine ⟨k, h, hj, ?_⟩
    split at hs <;> cases hs
    · exact .inl ⟨‹_›, rfl, rfl⟩
    · exact .inr ⟨_, _, _, _, ‹_›, rfl, rfl⟩
  · cases hs

theorem step_status (hs : step s (.status j) = some (s', es)) : es = [] ∧ ∃ k h, s.pending[j]? = some ⟨k, h, .moved⟩ ∧
      ((follow s.mem h = none ∧ s' = s.panic .badChain) ∨ ∃ w sector b i, follow s.mem h = some (w, sector, b, i) ∧
        s' = State.advance { s with status := update s.status i 0 } j ⟨k, h, .moved⟩ .ready) := by
  replace hs := (ite_none_left_eq_some.1 hs).2
  dsimp only at hs
  split at hs
  · rename_i k h hj
    split at hs <;> cases hs
    · exact ⟨rfl, k, h, hj, .inl ⟨‹_›, rfl⟩⟩
    · exact ⟨rfl, k, h, hj, .inr ⟨_, _, _, _, ‹_›, rfl⟩⟩
  · cases hs

theorem step_post (hs : step s (.post j) = some (s', es)) : ∃ k h, s.pending[j]? = some ⟨k, h, .ready⟩ ∧
    s.posting = none ∧ s' = { s with
      ring := update s.ring (s.idx.toNat % NUM) (BitVec.ofNat 32 h)
      pending := s.pending.eraseIdx j
      posting := some (k, h) } ∧ es = [] := by
  replace hs := (ite_none_left_eq_some.1 hs).2
  dsimp only at hs
  split at hs <;> cases hs
  exact ⟨_, _, ‹_›, ‹_›, rfl, rfl⟩

theorem step_bump (hs : step s .bump = some (s', es)) : ∃ k h, s.posting = some (k, h) ∧
    s' = { s with idx := s.idx + 1, posting := none } ∧ es = [.post k h] := by
  replace hs := (ite_none_left_eq_some.1 hs).2
  dsimp only at hs
  split at hs <;> cases hs
  exact ⟨_, _, ‹_›, rfl, rfl⟩

theorem transfer_frame (s : State n B D) (w : Bool) (sector : BitVec 64) (b : B) :
    (s.transfer w sector b).1 = { s with data := (s.transfer w sector b).1.data
                                         image := (s.transfer w sector b).1.image } := by
  rw [State.transfer]
  split <;> rfl

/-- Every step keeps the invariant; the device does not change what it speaks of. -/
theorem Driver.step (h : Driver s) (hd : Distinct s a) (hs : Virtio.step s a = some (s', es)) : Driver s' := by
  cases a with
  | call t r =>
    obtain ⟨hpc, rfl, -⟩ := step_call hs
    have hbuf : ∀ b, (Pc.enter r).buf = some b → ∀ t', (s.pc t').buf ≠ some b := fun b hb => by
      obtain rfl := some.inj hb
      exact hd
    have hbegin : Driver (s.goto t (.enter r)) := h.begin hpc rfl rfl trivial hbuf
    exact hbegin.congr rfl rfl rfl
  | interrupt t =>
    obtain ⟨hpc, rfl, -⟩ := step_interrupt hs
    exact h.begin hpc rfl rfl trivial nofun
  | run t => exact h.run (step_run hs)
  | take =>
    obtain ⟨-, rfl, -⟩ := step_take hs
    exact h.congr rfl rfl rfl
  | move j =>
    obtain ⟨k, hd, -, ⟨-, rfl, -⟩ | ⟨w, sector, b, i, -, rfl, -⟩⟩ := step_move hs
    · exact h.congr rfl rfl rfl
    · rw [transfer_frame]
      exact h.congr rfl rfl rfl
  | status j =>
    obtain ⟨-, k, hd, -, ⟨-, rfl⟩ | ⟨w, sector, b, i, -, rfl⟩⟩ := step_status hs
    · exact h.congr rfl rfl rfl
    · exact h.congr rfl rfl rfl
  | post j =>
    obtain ⟨k, hd, -, -, rfl, -⟩ := step_post hs
    exact h.congr rfl rfl rfl
  | bump =>
    obtain ⟨k, hd, -, rfl, -⟩ := step_bump hs
    exact h.congr rfl rfl rfl

end Device

/-! ## What the device reads -/

omit [DecidableEq B] in
/-- The device can follow the chain of a request. -/
theorem Linked.follow (h : Linked m r c) (hlt : ∀ d ∈ c.list, d < NUM) :
    follow m c.d0 = some (r.write, r.sector, r.b, c.d0) := by
  have hN : NUM = 8 := rfl
  have h1 : c.d1 < NUM := hlt _ (by simp [Chain.list])
  have h2 : c.d2 < NUM := hlt _ (by simp [Chain.list])
  have e1 : (BitVec.ofNat 16 c.d1).toNat = c.d1 := by
    rw [BitVec.toNat_ofNat]
    exact Nat.mod_eq_of_lt (by omega)
  have e2 : (BitVec.ofNat 16 c.d2).toNat = c.d2 := by
    rw [BitVec.toNat_ofNat]
    exact Nat.mod_eq_of_lt (by omega)
  simp only [Virtio.follow, h.d0, e1, h.d1, e2, h.d2, h.op]
  cases r.write <;> rfl

end Xv6.Virtio
