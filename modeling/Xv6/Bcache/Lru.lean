import Xv6.Bcache.Model
import Xv6.Framework.Sums
import Mathlib.Algebra.BigOperators.Group.Finset.Piecewise

/-!
# The buffer cache: its list and its reference counts

`Listed es d id l` says that the links `d` are a ring through the buffers `l`, most recently freed
first, and how the blocks `id` of the buffers depend on what the run has done so far, its events
`es`; there is one lemma for each of the three events. `Counted` says that the reference counts
are right. `inv_exec` has both for every run.
-/

namespace Xv6.Bcache

open Function
open List hiding beq_eq_decide

/-! ## What the events say -/

/-- `bget` has returned `b`. -/
def Assigned (es : List Event) (b : Buf) : Prop := .hit b ∈ es ∨ .recycled b ∈ es

/-- The place in the run of the last `brelse` that dropped the last reference to `b`, or 0. -/
def lastFreed (es : List Event) (b : Buf) : Nat :=
  es.length - es.reverse.findIdx (· == .freed b)

variable {es es' : List Event} {b c : Buf} {e : Event}

theorem lastFreed_le : lastFreed es b ≤ es.length := Nat.sub_le ..

theorem lastFreed_snoc_self : lastFreed (es ++ [.freed b]) b = es.length + 1 := by
  simp [lastFreed, findIdx_cons]

theorem lastFreed_snoc_of_ne (h : e ≠ .freed b) : lastFreed (es ++ [e]) b = lastFreed es b := by
  have he : (e == Event.freed b) = false := beq_eq_false_iff_ne.2 h
  simp only [lastFreed, reverse_append, reverse_singleton, singleton_append,
    findIdx_cons, he, cond_false, length_append, length_singleton]
  omega

theorem assigned_snoc_of_not (hh : e ≠ .hit b) (hr : e ≠ .recycled b) : Assigned (es ++ [e]) b ↔ Assigned es b := by
  simp only [Assigned, mem_append, mem_singleton, hh.symm, hr.symm, or_false]

theorem assigned_hit : Assigned (es ++ [.hit b]) c ↔ Assigned es c ∨ c = b := by
  simp only [Assigned, mem_append, mem_singleton, Event.hit.injEq, reduceCtorEq, or_false]
  tauto

theorem assigned_recycled : Assigned (es ++ [.recycled b]) c ↔ Assigned es c ∨ c = b := by
  simp only [Assigned, mem_append, mem_singleton, Event.recycled.injEq, reduceCtorEq, or_false]
  tauto

theorem Assigned.append (h : Assigned es b) (es' : List Event) : Assigned (es ++ es') b :=
  h.imp (mem_append_left es') (mem_append_left es')

/-! ## The list -/

/-- The device and the block of a buffer. -/
abbrev Ident := BitVec 32 × BitVec 32

structure Listed (es : List Event) (d : Dll (Option Buf)) (id : Buf → Ident) (l : List Buf) : Prop where
  ring : Ring d none (l.map some)
  perm : l.Perm (List.finRange NBUF)
  /-- Most recently freed first. -/
  order : l.Pairwise fun a b => lastFreed es b ≤ lastFreed es a
  /-- A search for the block of a buffer in use ends at this buffer. The buffers never used are
  there too, as block 0 of device 0. -/
  found : ∀ b, Assigned es b → l.find? (fun c => id c = id b) = some b

section Listed

variable {d : Dll (Option Buf)} {id : Buf → Ident} {l : List Buf} {i : Ident}

section

variable (hl : Listed es d id l)
include hl

theorem Listed.mem (b : Buf) : b ∈ l := hl.perm.mem_iff.2 (mem_finRange b)

theorem Listed.nodup : l.Nodup :=
  hl.perm.nodup_iff.2 (nodup_finRange NBUF)

theorem Listed.length : l.length = NBUF := by
  rw [hl.perm.length_eq, length_finRange]

theorem Listed.unique (hb : Assigned es b) (hc : Assigned es c) (h : id b = id c) : b = c := by
  have hfb := hl.found b hb
  rw [h, hl.found c hc] at hfb
  exact (Option.some.inj hfb).symm

theorem Listed.hit (hb : l.find? (fun b => id b = i) = some b) : Listed (es ++ [.hit b]) d id l := by
  refine ⟨hl.ring, hl.perm, ?_, fun c hc => ?_⟩
  · exact hl.order.imp fun h => by
      rwa [lastFreed_snoc_of_ne Event.noConfusion, lastFreed_snoc_of_ne Event.noConfusion]
  · rcases assigned_hit.1 hc with hc | rfl
    · exact hl.found c hc
    · have hi := find?_some hb
      rw [decide_eq_true_iff] at hi
      rw [hi, hb]

theorem Listed.recycle (hi : l.find? (fun b => id b = i) = none) (b : Buf) :
    Listed (es ++ [.recycled b]) d (update id b i) l := by
  have hno : ∀ c, id c ≠ i := fun c => by simpa using find?_eq_none.1 hi c (hl.mem c)
  refine ⟨hl.ring, hl.perm, ?_, fun c hc => ?_⟩
  · exact hl.order.imp fun h => by
      rwa [lastFreed_snoc_of_ne Event.noConfusion, lastFreed_snoc_of_ne Event.noConfusion]
  by_cases hcb : c = b
  · obtain ⟨l₁, l₂, e⟩ := append_of_mem (hl.mem b)
    have hn := hl.nodup
    rw [e, nodup_append] at hn
    refine find?_eq_some_iff_append.2 ⟨decide_eq_true rfl, l₁, l₂, hcb ▸ e, fun a ha => ?_⟩
    have hab : a ≠ b := hn.2.2 a ha b mem_cons_self
    rw [hcb, update_self, update_of_ne hab, Bool.not_eq_true', decide_eq_false_iff_not]
    exact hno a
  · -- `b` no longer has the block of `c`, if it had it
    have hc := hl.found c ((assigned_recycled.1 hc).resolve_right hcb)
    obtain ⟨-, l₁, l₂, e, hl₁⟩ := find?_eq_some_iff_append.1 hc
    refine find?_eq_some_iff_append.2 ⟨decide_eq_true rfl, l₁, l₂, e, fun a ha => ?_⟩
    have ha := hl₁ a ha
    rw [Bool.not_eq_true', decide_eq_false_iff_not] at ha ⊢
    rw [update_of_ne hcb]
    by_cases hab : a = b
    · rw [hab, update_self]
      exact (hno c).symm
    · rwa [update_of_ne hab]

theorem Listed.free (hb : Assigned es b) :
    ∃ l', Listed (es ++ [.freed b]) ((d.unlink (some b)).pushFront none (some b)) id l' := by
  obtain ⟨l₁, l₂, rfl⟩ := append_of_mem (hl.mem b)
  have hperm : (b :: (l₁ ++ l₂)).Perm (l₁ ++ b :: l₂) := perm_middle.symm
  have hb' : b ∉ l₁ ++ l₂ := (nodup_cons.1 (hperm.nodup_iff.2 hl.nodup)).1
  refine ⟨b :: (l₁ ++ l₂), ?_, hperm.trans hl.perm, ?_, fun c hc => ?_⟩
  · have hr := hl.ring
    rw [map_append, map_cons] at hr
    rw [map_cons, map_append]
    refine hr.unlink.pushFront ?_
    rw [← map_append, mem_cons, not_or]
    refine ⟨Option.some_ne_none b, fun h => ?_⟩
    obtain ⟨c, hc, e⟩ := mem_map.1 h
    exact hb' (Option.some.inj e ▸ hc)
  · rw [pairwise_cons]
    constructor
    · intro c hc
      have hcb : Event.freed b ≠ .freed c := fun e => hb' (Event.freed.inj e ▸ hc)
      rw [lastFreed_snoc_self, lastFreed_snoc_of_ne hcb]
      exact Nat.le_succ_of_le lastFreed_le
    · have ho := hl.order.sublist ((sublist_cons_self b l₂).append_left l₁)
      refine ho.imp_of_mem fun {x y} hx hy h => ?_
      have hxb : Event.freed b ≠ .freed x := fun e => hb' (Event.freed.inj e ▸ hx)
      have hyb : Event.freed b ≠ .freed y := fun e => hb' (Event.freed.inj e ▸ hy)
      rwa [lastFreed_snoc_of_ne hxb, lastFreed_snoc_of_ne hyb]
  · have hc := (assigned_snoc_of_not Event.noConfusion Event.noConfusion).1 hc
    rw [find?_cons]
    by_cases hid : id b = id c
    · rw [decide_eq_true hid, hl.unique hb hc hid]
    · have hf := hl.found c hc
      rw [find?_append, find?_cons, decide_eq_false hid] at hf
      rw [decide_eq_false hid, find?_append]
      exact hf

/-- The buffer that a search by `prev` finds is the least recently freed of those it looks for. -/
theorem Listed.least {p : Buf → Bool} (hb : l.reverse.find? p = some b) (hc : p c) : lastFreed es b ≤ lastFreed es c := by
  obtain ⟨-, l₁, l₂, e, hl₁⟩ := find?_eq_some_iff_append.1 hb
  have ho := pairwise_reverse.2 hl.order
  have hm := mem_reverse.2 (hl.mem c)
  rw [e] at ho hm
  rcases mem_append.1 hm with h | h
  · have hnc := hl₁ c h
    rw [hc] at hnc
    cases hnc
  · rcases mem_cons.1 h with rfl | h
    · exact le_rfl
    · exact (pairwise_cons.1 (pairwise_append.1 ho).2.1).1 c h

end

end Listed

variable {P D : Type} {s s' : State P D}

def State.id (s : State P D) (b : Buf) : Ident := ((s.buf b).dev, (s.buf b).blockno)

theorem id_setBuf (s : State P D) (b : Buf) (x : Buffer P D) : (s.setBuf b x).id = update s.id b (x.dev, x.blockno) := by
  funext c
  by_cases h : c = b
  · simp only [State.id, State.setBuf, h, update_self]
  · simp only [State.id, State.setBuf, update_of_ne h]

theorem id_setBuf_same {x : Buffer P D} (hd : x.dev = (s.buf b).dev) (hb : x.blockno = (s.buf b).blockno) :
    (s.setBuf b x).id = s.id := by
  rw [id_setBuf, hd, hb]
  exact update_eq_self b s.id

section

variable {id : Buf → Ident} {l : List Buf}

theorem find_map_some (l : List Buf) (p : Buf → Bool) : ((l.map some).find? (Buf.test p)).join = l.find? p := by
  rw [find?_map]
  change (Option.map some (find? p l)).join = _
  cases find? p l <;> rfl

theorem Listed.findBlock (hl : Listed es s.links id l) (dev blockno : BitVec 32) :
    s.findBlock dev blockno = l.find? fun b => s.id b = (dev, blockno) := by
  have hf := hl.ring.find_next (Buf.test fun b => (s.buf b).isBlock dev blockno)
  rw [length_map, hl.length] at hf
  rw [State.findBlock, hf, find_map_some]
  congr 1
  funext b
  simp only [Buffer.isBlock, State.id, Prod.mk.injEq, Bool.decide_and, beq_eq_decide]

theorem Listed.findUnused (hl : Listed es s.links id l) :
    s.findUnused = l.reverse.find? fun b => (s.buf b).refcnt == 0 := by
  have hf := hl.ring.find_prev (Buf.test fun b => (s.buf b).refcnt == 0)
  rw [length_map, hl.length] at hf
  rw [State.findUnused, hf, ← map_reverse, find_map_some]

end

theorem listed_init : Listed [] binitLinks (fun _ => (0, 0)) (finRange NBUF).reverse := by
  refine ⟨?_, reverse_perm _, ?_, fun b hb => ?_⟩
  · have hn : ((none : Option Buf) :: ((finRange NBUF).map some ++ [])).Nodup := by
      rw [append_nil, nodup_cons]
      exact ⟨by simp, (nodup_finRange NBUF).map (Option.some_injective _)⟩
    have hr := (ring_nil (none : Option Buf)).foldl_pushFront hn
    rw [append_nil, ← map_reverse, foldl_map] at hr
    exact hr
  · exact pairwise_of_forall fun _ _ => le_rfl
  · rcases hb with hb | hb <;> cases hb

/-! ## The reference counts -/

/-- The buffer to which the process has a reference, without its sleep lock. -/
def Phase.ref : Phase → Option Buf
  | .want b => some b
  | .leaving b => some b
  | _ => none

def Phase.refs (ph : Phase) (b : Buf) : Nat := if ph.ref = some b then 1 else 0

def Buffer.held (b : Buffer P D) : Nat := if b.lock.isSome then 1 else 0

@[simp] theorem refs_idle : Phase.idle.refs b = 0 := rfl
@[simp] theorem refs_filling : (Phase.filling c).refs b = 0 := rfl
@[simp] theorem refs_want : (Phase.want b).refs b = 1 := if_pos rfl
@[simp] theorem refs_leaving : (Phase.leaving b).refs b = 1 := if_pos rfl

@[simp] theorem held_incref (x : Buffer P D) : x.incref.held = x.held := rfl
@[simp] theorem held_decref (x : Buffer P D) : x.decref.held = x.held := rfl
@[simp] theorem held_assign (x : Buffer P D) (dev blockno : BitVec 32) : (x.assign dev blockno).held = x.held := rfl

theorem incref_refcnt {x : Buffer P D} {R R' : Nat} (h : x.refcnt = BitVec.ofNat 32 R) (hR : R' = R + 1) :
    x.incref.refcnt = BitVec.ofNat 32 R' := by
  rw [hR, BitVec.ofNat_add, ← h]
  rfl

theorem decref_refcnt {x : Buffer P D} {R R' : Nat} (h : x.refcnt = BitVec.ofNat 32 R) (hR : R = R' + 1) :
    x.decref.refcnt = BitVec.ofNat 32 R' := by
  rw [hR, BitVec.ofNat_add] at h
  change x.refcnt - 1 = _
  rw [h]
  exact BitVec.add_sub_cancel ..

section Refs

variable [Fintype P]

/-- The processes that wait for the buffer, or are about to drop their reference in `brelse`, with
the one that holds it, and the pins. -/
def State.refs (s : State P D) (b : Buf) : Nat :=
  (Finset.univ.filter fun p => (s.phase p).ref = some b).card + (s.buf b).held + s.pins b

structure Counted (es : List Event) (s : State P D) : Prop where
  refcnt : ∀ b, (s.buf b).refcnt = BitVec.ofNat 32 (s.refs b)
  phase : ∀ p b, (s.phase p).ref = some b → Assigned es b
  lock : ∀ b p, (s.buf b).lock = some p → Assigned es b

/-- A step that changes no reference. -/
theorem Counted.congr (hi : Counted es s) (hphase : s'.phase = s.phase) (hpins : s'.pins = s.pins)
    (hlock : ∀ b, (s'.buf b).lock = (s.buf b).lock) (hrefcnt : ∀ b, (s'.buf b).refcnt = (s.buf b).refcnt) :
    Counted es s' := by
  refine ⟨fun b => ?_, fun p b hp => hi.phase p b (hphase ▸ hp), fun b p hb => hi.lock b p (hlock b ▸ hb)⟩
  rw [hrefcnt, hi.refcnt b]
  simp only [State.refs, hphase, hpins, Buffer.held, hlock]

def Inv (es : List Event) (s : State P D) : Prop := (∃ l, Listed es s.links s.id l) ∧ Counted es s

/-- A step without an event that leaves the list as it is. -/
theorem Inv.quiet (hi : Inv es s) (hlinks : s'.links = s.links) (hid : s'.id = s.id)
    (hc : Counted (es ++ []) s') : Inv (es ++ []) s' := by
  obtain ⟨l, hl⟩ := hi.1
  refine ⟨⟨l, ?_⟩, hc⟩
  rwa [hlinks, hid, append_nil]

/-- A step that changes no reference either. -/
theorem Inv.still (hi : Inv es s) (hlinks : s'.links = s.links) (hid : s'.id = s.id) (hphase : s'.phase = s.phase)
    (hpins : s'.pins = s.pins) (hlock : ∀ b, (s'.buf b).lock = (s.buf b).lock)
    (hrefcnt : ∀ b, (s'.buf b).refcnt = (s.buf b).refcnt) : Inv (es ++ []) s' := by
  refine hi.quiet hlinks hid ?_
  rw [append_nil]
  exact hi.2.congr hphase hpins hlock hrefcnt

variable [DecidableEq P] {p : P} {ph old : Phase} {x : Buffer P D} {n : Nat}

theorem card_ref_update (phase : P → Phase) (p : P) (ph : Phase) (b : Buf) :
    (Finset.univ.filter fun q => (update phase p ph q).ref = some b).card + (phase p).refs b =
      (Finset.univ.filter fun q => (phase q).ref = some b).card + ph.refs b := by
  rw [Finset.card_filter, Finset.card_filter]
  exact sum_update (Finset.mem_univ p) phase ph fun q => q.refs b

/-- A step of `p` that changes the buffer `b` only, and has a reference to no other. -/
theorem Counted.change (hi : Counted es s) {es' : List Event} (hphase : s'.phase = update s.phase p ph)
    (hbuf : s'.buf = update s.buf b x) (hpins : s'.pins = update s.pins b n) (hp : s.phase p = old)
    (hold : ∀ c, old.ref = some c → c = b) (hnew : ∀ c, ph.ref = some c → c = b)
    (hass : ph.ref = some b ∨ x.lock ≠ none → Assigned (es ++ es') b)
    (hcount : ∀ R R', R' + (old.refs b + (s.buf b).held + s.pins b) = R + (ph.refs b + x.held + n) →
      (s.buf b).refcnt = BitVec.ofNat 32 R → x.refcnt = BitVec.ofNat 32 R') : Counted (es ++ es') s' := by
  subst hp
  have hcard := card_ref_update s.phase p ph
  refine ⟨fun c => ?_, fun q c hq => ?_, fun c q hq => ?_⟩
  · by_cases hcb : c = b
    · rw [hcb, hbuf, update_self]
      refine hcount (s.refs b) (s'.refs b) ?_ (hi.refcnt b)
      simp only [State.refs, hphase, hbuf, hpins, update_self]
      have := hcard b
      omega
    · have h₁ : (s.phase p).refs c = 0 := if_neg fun h => hcb (hold c h)
      have h₂ : ph.refs c = 0 := if_neg fun h => hcb (hnew c h)
      have hc := hcard c
      rw [h₁, h₂] at hc
      rw [hbuf, update_of_ne hcb, hi.refcnt c]
      simp only [State.refs, hphase, hbuf, hpins, update_of_ne hcb]
      rw [Nat.add_zero, Nat.add_zero] at hc
      rw [hc]
  · rw [hphase] at hq
    by_cases hqp : q = p
    · rw [hqp, update_self] at hq
      rw [hnew c hq]
      exact hass (.inl (hnew c hq ▸ hq))
    · rw [update_of_ne hqp] at hq
      exact (hi.phase q c hq).append es'
  · rw [hbuf] at hq
    by_cases hcb : c = b
    · rw [hcb, update_self] at hq
      rw [hcb]
      exact hass (.inr fun h => by rw [h] at hq; cases hq)
    · rw [update_of_ne hcb] at hq
      exact (hi.lock c q hq).append es'

/-! ## Steps -/

theorem inv_bget (hi : Inv es s) (hp : s.phase p = .idle) (dev blockno : BitVec 32) :
    Inv (es ++ (s.bget p dev blockno).2) (s.bget p dev blockno).1 := by
  obtain ⟨⟨l, hl⟩, hc⟩ := hi
  rw [State.bget, hl.findBlock]
  cases hb : l.find? fun b => s.id b = (dev, blockno) with
  | some b =>
    refine ⟨⟨l, ?_⟩, hc.change rfl rfl (update_eq_self b s.pins).symm hp nofun (fun c h => (Option.some.inj h).symm)
      (fun _ => assigned_hit.2 (.inr rfl)) ?_⟩
    · have hid : ((s.setBuf b (s.buf b).incref).goto p (.want b)).id = s.id := id_setBuf_same rfl rfl
      rw [hid]
      exact hl.hit hb
    · intro R R' h hR
      refine incref_refcnt hR ?_
      simp only [refs_idle, refs_want, held_incref] at h
      omega
  | none =>
    dsimp only
    rw [hl.findUnused]
    cases hu : l.reverse.find? fun b => (s.buf b).refcnt == 0 with
    | some b =>
      refine ⟨⟨l, ?_⟩, hc.change rfl rfl (update_eq_self b s.pins).symm hp nofun
        (fun c h => (Option.some.inj h).symm) (fun _ => assigned_recycled.2 (.inr rfl)) ?_⟩
      · have hid : ((s.setBuf b ((s.buf b).assign dev blockno)).goto p (.want b)).id =
            update s.id b (dev, blockno) := id_setBuf ..
        rw [hid]
        exact hl.recycle hb b
      · intro R R' h hR
        have hz := find?_some hu
        rw [beq_iff_eq] at hz
        have hinc : ((s.buf b).assign dev blockno).refcnt = (s.buf b).incref.refcnt := by
          rw [Buffer.assign, Buffer.incref, hz]
          rfl
        rw [hinc]
        refine incref_refcnt hR ?_
        simp only [refs_idle, refs_want, held_assign] at h
        omega
    | none =>
      rw [append_nil]
      exact ⟨⟨l, hl⟩, hc.congr rfl rfl (fun _ => rfl) fun _ => rfl⟩

theorem inv_brelse (hi : Inv es s) (hp : s.phase p = .leaving b) : Inv (es ++ (s.brelse p b).2) (s.brelse p b).1 := by
  obtain ⟨⟨l, hl⟩, hc⟩ := hi
  have hid : ((s.setBuf b (s.buf b).decref).goto p .idle).id = s.id := id_setBuf_same rfl rfl
  have hb : Assigned es b := hc.phase p b (by rw [hp]; rfl)
  have hcount (es' : List Event) : Counted (es ++ es') ((s.setBuf b (s.buf b).decref).goto p .idle) := by
    refine hc.change rfl rfl (update_eq_self b s.pins).symm hp (fun c h => (Option.some.inj h).symm) nofun
      (fun _ => hb.append es') fun R R' h hR => decref_refcnt hR ?_
    simp only [refs_idle, refs_leaving, held_decref] at h
    omega
  rw [State.brelse]
  split
  · obtain ⟨l', hl'⟩ := hl.free hb
    refine ⟨⟨l', ?_⟩, (hcount [.freed b]).congr rfl rfl (fun _ => rfl) fun _ => rfl⟩
    exact hid ▸ hl'
  · refine ⟨⟨l, ?_⟩, hcount []⟩
    rw [hid, append_nil]
    exact hl

theorem inv_acquiresleep (hi : Inv es s) (hp : s.phase p = .want b) (hb : (s.buf b).lock = none) :
    Inv (es ++ []) ((s.setBuf b { s.buf b with lock := some p }).goto p (.filling b)) := by
  have hu : Assigned es b := hi.2.phase p b (by rw [hp]; rfl)
  refine hi.quiet rfl (id_setBuf_same rfl rfl) ?_
  refine hi.2.change rfl rfl (update_eq_self b s.pins).symm hp (fun c h => (Option.some.inj h).symm) nofun
    (fun _ => hu.append []) fun R R' h hR => ?_
  simp only [refs_want, refs_filling, Buffer.held, hb, Option.isSome_none, Option.isSome_some,
    Bool.false_eq_true, if_false, if_true] at h
  have hRR : R' = R := by omega
  rw [hRR]
  exact hR

theorem inv_releasesleep (hi : Inv es s) (hp : s.phase p = .idle) (hb : (s.buf b).lock = some p) :
    Inv (es ++ []) ((s.setBuf b { s.buf b with lock := none }).goto p (.leaving b)) := by
  have hu : Assigned es b := hi.2.lock b p hb
  refine hi.quiet rfl (id_setBuf_same rfl rfl) ?_
  refine hi.2.change rfl rfl (update_eq_self b s.pins).symm hp nofun (fun c h => (Option.some.inj h).symm)
    (fun _ => hu.append []) fun R R' h hR => ?_
  simp only [refs_idle, refs_leaving, Buffer.held, hb, Option.isSome_none, Option.isSome_some,
    Bool.false_eq_true, if_false, if_true] at h
  have hRR : R' = R := by omega
  rw [hRR]
  exact hR

omit [Fintype P] [DecidableEq P] in
theorem fill_fields (x : Buffer P D) (disk : BitVec 32 → BitVec 32 → D) : (x.fill disk).dev = x.dev ∧
    (x.fill disk).blockno = x.blockno ∧ (x.fill disk).refcnt = x.refcnt ∧ (x.fill disk).lock = x.lock := by
  rw [Buffer.fill]
  split
  · exact ⟨rfl, rfl, rfl, rfl⟩
  · exact ⟨rfl, rfl, rfl, rfl⟩

theorem inv_fill (hi : Inv es s) (hp : s.phase p = .filling b) :
    Inv (es ++ []) ((s.setBuf b ((s.buf b).fill s.disk)).goto p .idle) := by
  obtain ⟨hdev, hblock, hrefcnt, hlock⟩ := fill_fields (s.buf b) s.disk
  refine hi.quiet rfl (id_setBuf_same hdev hblock) ?_
  refine hi.2.change rfl rfl (update_eq_self b s.pins).symm hp nofun nofun ?_ ?_
  · rintro (h | h)
    · cases h
    · rw [hlock] at h
      obtain ⟨q, hq⟩ := Option.ne_none_iff_exists'.1 h
      exact (hi.2.lock b q hq).append []
  · intro R R' h hR
    simp only [refs_idle, refs_filling, Buffer.held, hlock] at h
    have hRR : R' = R := by omega
    rw [hrefcnt, hRR]
    exact hR

/-- `bpin` and `bunpin`. -/
theorem inv_pin (hi : Inv es s) (hp : s.phase p = .idle) (hdev : x.dev = (s.buf b).dev)
    (hblock : x.blockno = (s.buf b).blockno) (hlock : x.lock = (s.buf b).lock)
    (hcount : ∀ R R', R' + s.pins b = R + n → (s.buf b).refcnt = BitVec.ofNat 32 R →
      x.refcnt = BitVec.ofNat 32 R') : Inv (es ++ []) ((s.setBuf b x).setPins b n) := by
  refine hi.quiet rfl (id_setBuf_same hdev hblock) ?_
  have hphase : s.phase = update s.phase p .idle := by rw [← hp, update_eq_self]
  refine hi.2.change hphase rfl rfl hp nofun nofun ?_ ?_
  · rintro (h | h)
    · cases h
    · rw [hlock] at h
      obtain ⟨q, hq⟩ := Option.ne_none_iff_exists'.1 h
      exact (hi.2.lock b q hq).append []
  · intro R R' h
    refine hcount R R' ?_
    simp only [refs_idle, Buffer.held, hlock] at h
    omega

theorem inv_step {a : Act P D} (hi : Inv es s) (ha : Balanced s a) (h : step s a = some (s', es')) :
    Inv (es ++ es') s' := by
  rw [step] at h
  split at h
  · cases h
  have hpanic : Inv (es ++ []) s.panic := hi.still rfl rfl rfl rfl (fun _ => rfl) fun _ => rfl
  cases a with
  | bget p dev blockno =>
    obtain ⟨hp, h⟩ := Option.ite_none_right_eq_some.1 h
    have hb := inv_bget hi hp dev blockno
    rwa [Option.some.inj h] at hb
  | acquiresleep p =>
    rw [State.act] at h
    split at h
    · rename_i b hp
      obtain ⟨hb, h⟩ := Option.ite_none_right_eq_some.1 h
      cases h
      exact inv_acquiresleep hi hp hb
    · cases h
  | fill p =>
    rw [State.act] at h
    split at h
    · rename_i b hp
      cases h
      exact inv_fill hi hp
    · cases h
  | modify p b data =>
    obtain ⟨-, h⟩ := Option.ite_none_right_eq_some.1 h
    cases h
    have hb (c : Buf) : (update s.buf b { s.buf b with data := data } c).lock = (s.buf c).lock ∧
        (update s.buf b { s.buf b with data := data } c).refcnt = (s.buf c).refcnt := by
      by_cases hc : c = b
      · rw [hc, update_self]
        exact ⟨rfl, rfl⟩
      · rw [update_of_ne hc]
        exact ⟨rfl, rfl⟩
    exact hi.still rfl (id_setBuf_same rfl rfl) rfl rfl (fun c => (hb c).1) fun c => (hb c).2
  | bwrite p b =>
    obtain ⟨-, h⟩ := Option.ite_none_right_eq_some.1 h
    cases h
    split
    · exact hi.still rfl rfl rfl rfl (fun _ => rfl) fun _ => rfl
    · exact hpanic
  | releasesleep p b =>
    obtain ⟨hp, h⟩ := Option.ite_none_right_eq_some.1 h
    cases h
    split
    · rename_i hb
      exact inv_releasesleep hi hp hb
    · exact hpanic
  | brelse p =>
    rw [State.act] at h
    split at h
    · rename_i b hp
      have hb := inv_brelse hi hp
      rwa [Option.some.inj h] at hb
    · cases h
  | bpin p b =>
    obtain ⟨hp, h⟩ := Option.ite_none_right_eq_some.1 h
    cases h
    exact inv_pin hi hp rfl rfl rfl fun R R' h hR => incref_refcnt hR (by omega)
  | bunpin p b =>
    obtain ⟨hp, h⟩ := Option.ite_none_right_eq_some.1 h
    cases h
    have ha : 0 < s.pins b := ha
    exact inv_pin hi hp rfl rfl rfl fun R R' h hR => decref_refcnt hR (by omega)

/-! ## Runs -/

variable {disk : BitVec 32 → BitVec 32 → D} {data : Buf → D}

omit [DecidableEq P] in
theorem inv_init : Inv [] (init disk data : State P D) := by
  refine ⟨⟨_, listed_init⟩, fun b => ?_, fun p b h => ?_, fun b p h => ?_⟩
  · simp [init, State.refs, Phase.ref, Buffer.held]
  · cases h
  · cases h

theorem inv_exec (h : Exec step Balanced (init disk data : State P D) es s) : Inv es s :=
  h.invariant inv_init fun hi ha hs => inv_step hi ha hs

end Refs

end Xv6.Bcache
