import Xv6.Virtio.Own
import Mathlib.Data.List.Perm.Subperm

/-!
# The rings

The requests in flight (`flight`) are in the avail ring, in the device or in the used ring,
and for each there is a thread of the driver that waits for it, with the descriptor that the
request is known by. As the descriptors are all different, there are at most `NUM` requests
in flight, so that no slot of a ring is used again before it has been read (`Rings`).
-/

namespace Xv6.Virtio

open Function List

variable {n : Nat} {B D : Type} {s s' : State n B D} {t : Fin n} {es : List (Event B D)}

/-! ## Histories -/

/-- The entries put in the avail ring: number `k` of the list is request `k`. -/
def submits (es : List (Event B D)) : List (Request B D × Chain) :=
  es.filterMap fun | .submit r c => some (r, c) | _ => none

/-- The entries put in the used ring: the request, and its first descriptor. -/
def posts (es : List (Event B D)) : List (Nat × Nat) :=
  es.filterMap fun | .post k h => some (k, h) | _ => none

/-- The entries taken from the used ring: the first descriptor, and the buffer that was released. -/
def credits (es : List (Event B D)) : List (Nat × B) :=
  es.filterMap fun | .credit h b => some (h, b) | _ => none

/-- What one more event adds to the histories. -/
theorem snoc_event (es : List (Event B D)) (e : Event B D) :
    (submits (es ++ [e]) = submits es ++ match e with | .submit r c => [(r, c)] | _ => []) ∧
    (posts (es ++ [e]) = posts es ++ match e with | .post k h => [(k, h)] | _ => []) ∧
    credits (es ++ [e]) = credits es ++ match e with | .credit h b => [(h, b)] | _ => [] := by
  simp only [submits, posts, credits, filterMap_append]
  cases e <;> exact ⟨rfl, rfl, rfl⟩

/-- The requests that have been credited to a buffer. -/
def served (es : List (Event B D)) : List (Nat × Nat) := (posts es).take (credits es).length

/-- The requests in the used ring that have not been credited. -/
def unread (es : List (Event B D)) : List (Nat × Nat) := (posts es).drop (credits es).length

/-- The requests in the avail ring that the device has not taken. -/
def waitingRoom (es : List (Event B D)) (s : State n B D) : List (Nat × Nat) :=
  ((submits es).zipIdx.drop s.seen).map fun x => (x.2, x.1.2.d0)

/-- The requests in flight, with their first descriptors. -/
def flight (es : List (Event B D)) (s : State n B D) : List (Nat × Nat) :=
  waitingRoom es s ++ s.pending.map (fun x => (x.serial, x.head)) ++ s.posting.toList ++ unread es

/-- The request that the thread waits for. -/
def Pc.waiting : Pc B D → Option (Request B D × Chain × Nat)
  | .wait r c k | .sleepBuf r c k => some (r, c, k)
  | _ => none

/-- The call that a thread is in, with its descriptors and its number once it is in the avail ring. -/
def Pc.call : Pc B D → Option (Request B D × Option (Chain × Nat))
  | .enter r | .alloc r _ | .undo r _ | .sleepFree r | .format r _ _ | .publish r _ | .submit r _ => some (r, none)
  | .wait r c k | .sleepBuf r c k | .clear r c k | .freeChain r c k _ | .leave r c k => some (r, some (c, k))
  | .freeDesc _ _ next => next.call
  | _ => none

/-- The thread waits no more. -/
def Pc.past : Pc B D → Bool
  | .clear .. | .freeChain .. | .freeDesc .. | .leave .. => true
  | _ => false

def Pc.isNext : Pc B D → Bool
  | .intrNext => true
  | _ => false

theorem Pc.ne_intrNext {pc : Pc B D} (h : pc.isNext = false) : pc ≠ .intrNext := by
  rintro rfl
  cases h

/-- What a thread in `virtio_disk_intr` knows of the requests that are unread. -/
def Pc.Looks (u : List (Nat × Nat)) : Pc B D → Prop
  | .intrId => u ≠ []
  | .intrStatus id | .intrBuf id => ∃ k, u.head? = some (k, id)
  | _ => True

/-- For each request in flight there is one thread that waits for it. -/
structure Flying (es : List (Event B D)) (s : State n B D) : Prop where
  live : ∀ x ∈ flight es s, ∃ t r c, (s.pc t).waiting = some (r, c, x.1) ∧ c.d0 = x.2 ∧ s.mem.disk r.b = true
  nodup : ((served es ++ flight es s).map Prod.fst).Nodup
  below : ∀ x ∈ served es ++ flight es s, x.1 < (submits es).length
  waits : ∀ t r c k, (s.pc t).waiting = some (r, c, k) → (submits es)[k]? = some (r, c) ∧
    (s.mem.disk r.b = true → (k, c.d0) ∈ flight es s)

structure Rings (es : List (Event B D)) (s : State n B D) : Prop where
  panicked : s.panicked = none
  submitted : s.submitted = (submits es).length
  availIdx : s.mem.idx = BitVec.ofNat 16 (submits es).length
  seen : s.seen ≤ (submits es).length
  avail : ∀ k r c, s.seen ≤ k → (submits es)[k]? = some (r, c) → s.mem.ring (k % NUM) = BitVec.ofNat 16 c.d0
  idx : s.idx = BitVec.ofNat 16 (posts es).length
  credited : (credits es).length ≤ (posts es).length
  used : ∀ i k h, (credits es).length ≤ i → (posts es)[i]? = some (k, h) → s.ring (i % NUM) = BitVec.ofNat 32 h
  posting : ∀ k h, s.posting = some (k, h) → s.ring ((posts es).length % NUM) = BitVec.ofNat 32 h
  /-- `used_idx` is one behind between the store to `b->disk` and its own. -/
  looked : (∀ t, s.pc t ≠ .intrNext) → s.mem.usedIdx = BitVec.ofNat 16 (credits es).length
  behind : ∀ t, s.pc t = .intrNext → s.mem.usedIdx + 1 = BitVec.ofNat 16 (credits es).length
  looks : ∀ t, (s.pc t).Looks (unread es)
  ready : ∀ x ∈ s.pending, x.stage = .ready → s.status x.head = 0
  posted : ∀ x ∈ s.posting.toList ++ unread es, s.status x.2 = 0

/-! ## How many requests are in flight -/

variable {r : Request B D} {c : Chain} {k d i j : Nat} {w : Write B}

theorem Pc.owns_of_waiting {pc : Pc B D} (h : pc.waiting = some (r, c, k)) : pc.owns = c.list := by
  cases pc <;> cases h <;> rfl

theorem Pc.buf_of_waiting {pc : Pc B D} (h : pc.waiting = some (r, c, k)) : pc.buf = some r.b := by
  cases pc <;> cases h <;> rfl

/-- The descriptor of a request in flight belongs to the thread that waits for it. -/
theorem Flying.owner (h : Flying es s) {x : Nat × Nat} (hx : x ∈ flight es s) : ∃ t r c,
    (s.pc t).waiting = some (r, c, x.1) ∧ c.d0 = x.2 ∧ s.mem.disk r.b = true ∧ x.2 ∈ (s.pc t).owns := by
  obtain ⟨t, r, c, hw, hc, hb⟩ := h.live x hx
  refine ⟨t, r, c, hw, hc, hb, ?_⟩
  rw [Pc.owns_of_waiting hw, ← hc]
  exact mem_cons_self

theorem Flying.flight_nodup (h : Flying es s) : ((flight es s).map Prod.fst).Nodup := by
  have := h.nodup
  rw [map_append] at this
  exact (nodup_append.1 this).2.1

variable [DecidableEq B]

section Bound

variable (hd : Driver s) (h : Flying es s)
include hd h

theorem Flying.heads_nodup : ((flight es s).map Prod.snd).Nodup := by
  refine h.flight_nodup.of_map.map_on fun x hx y hy e => ?_
  obtain ⟨t, r, c, hw, -, -, ho⟩ := h.owner hx
  obtain ⟨t', r', c', hw', -, -, ho'⟩ := h.owner hy
  obtain rfl := hd.disj t t' x.2 ho (e ▸ ho')
  rw [hw] at hw'
  refine Prod.ext ?_ e
  injection hw' with hw'
  injection hw' with _ hw'
  injection hw' with _ hw'

theorem Flying.heads_subset : (flight es s).map Prod.snd ⊆ range NUM := by
  intro d hm
  obtain ⟨x, hx, rfl⟩ := mem_map.1 hm
  obtain ⟨t, r, c, -, -, -, ho⟩ := h.owner hx
  exact mem_range.2 (hd.lt t _ ho).1

theorem Flying.length_le : (flight es s).length ≤ NUM := by
  have := ((h.heads_nodup hd).subperm (h.heads_subset hd)).length_le
  rwa [length_map, length_range] at this

/-- The descriptors of a thread that does not wait are of no request in flight. -/
theorem Flying.ne_of_owns (ho : d ∈ (s.pc t).owns) (hw : (s.pc t).waiting = none) {x : Nat × Nat} (hx : x ∈ flight es s) :
    x.2 ≠ d := by
  rintro rfl
  obtain ⟨t', r, c, hw', -, -, ho'⟩ := h.owner hx
  obtain rfl := hd.disj t t' x.2 ho ho'
  rw [hw] at hw'
  cases hw'

/-- A thread that has a descriptor and does not wait leaves room for its request. -/
theorem Flying.length_lt (ho : d ∈ (s.pc t).owns) (hw : (s.pc t).waiting = none) : (flight es s).length < NUM := by
  have hnodup : (d :: (flight es s).map Prod.snd).Nodup := by
    refine nodup_cons.2 ⟨fun hm => ?_, h.heads_nodup hd⟩
    obtain ⟨x, hx, e⟩ := mem_map.1 hm
    exact h.ne_of_owns hd ho hw hx e
  have hsub : d :: (flight es s).map Prod.snd ⊆ range NUM :=
    cons_subset.2 ⟨mem_range.2 (hd.lt t d ho).1, h.heads_subset hd⟩
  have := (hnodup.subperm hsub).length_le
  rwa [length_cons, length_map, length_range] at this

end Bound

/-! ## Steps that leave the rings alone -/

omit [DecidableEq B] in
theorem Flying.perm {es' : List (Event B D)} (h : Flying es s) (hw : ∀ t, (s'.pc t).waiting = (s.pc t).waiting)
    (hm : s'.mem.disk = s.mem.disk) (hs : submits es' = submits es) (hsv : served es' = served es)
    (hf : (flight es' s').Perm (flight es s)) : Flying es' s' := by
  refine ⟨fun x hx => ?_, ?_, fun x hx => ?_, fun t r c k ht => ?_⟩
  · simp only [hw, hm]
    exact h.live x (hf.mem_iff.1 hx)
  · rw [hsv]
    exact ((hf.append_left _).map Prod.fst).nodup_iff.2 h.nodup
  · rw [hsv] at hx
    rw [hs]
    exact h.below x ((hf.append_left _).mem_iff.1 hx)
  · rw [hw] at ht
    rw [hs, hm, hf.mem_iff]
    exact h.waits t r c k ht

omit [DecidableEq B] in
/-- Events of other kinds do not matter. -/
theorem Rings.quiet {es' : List (Event B D)} (h : Rings es s) (hf : Flying es s) (h1 : submits es' = submits es)
    (h2 : posts es' = posts es) (h3 : credits es' = credits es) : Rings es' s ∧ Flying es' s := by
  have hu : unread es' = unread es := by rw [unread, unread, h2, h3]
  have hsv : served es' = served es := by rw [served, served, h2, h3]
  have hfl : flight es' s = flight es s := by rw [flight, flight, waitingRoom, waitingRoom, h1, hu]
  refine ⟨?_, hf.perm (fun _ => rfl) rfl h1 hsv (.of_eq hfl)⟩
  exact ⟨h.panicked, h1 ▸ h.submitted, h1 ▸ h.availIdx, h1 ▸ h.seen, h1 ▸ h.avail, h2 ▸ h.idx, by rw [h2, h3]; exact h.credited,
    by rw [h2, h3]; exact h.used, h2 ▸ h.posting, h3 ▸ h.looked, h3 ▸ h.behind, hu ▸ h.looks, h.ready, hu ▸ h.posted⟩

/-- Thread `t` goes to `pc`, with no change to the rings or to the flags of the buffers that are waited for. -/
structure Calm (es : List (Event B D)) (s : State n B D) (t : Fin n) (m : Mem B) (st : Nat → BitVec 8) (pc : Pc B D) :
    Prop where
  idx : m.idx = s.mem.idx
  ring : m.ring = s.mem.ring
  usedIdx : m.usedIdx = s.mem.usedIdx
  disk : ∀ t' r c k, (s.pc t').waiting = some (r, c, k) → m.disk r.b = s.mem.disk r.b
  status : ∀ x ∈ flight es s, st x.2 = s.status x.2
  waiting : pc.waiting = (s.pc t).waiting ∨
    pc.waiting = none ∧ ∀ r c k, (s.pc t).waiting = some (r, c, k) → s.mem.disk r.b = false
  looks : pc.Looks (unread es)
  next : pc ≠ .intrNext
  prev : s.pc t ≠ .intrNext

omit [DecidableEq B] in
theorem Calm.goto {q pc : Pc B D} (hpc : s.pc t = q) (hw : pc.waiting = q.waiting) (hl : pc.Looks (unread es))
    (hn : pc.isNext = false) (hn' : q.isNext = false) : Calm es s t s.mem s.status pc :=
  ⟨rfl, rfl, rfl, fun _ _ _ _ _ => rfl, fun _ _ => rfl, .inl (hpc ▸ hw), hl, Pc.ne_intrNext hn, hpc ▸ Pc.ne_intrNext hn'⟩

omit [DecidableEq B] in
/-- The thread goes to another place, which is not between the two stores of `virtio_disk_intr`. -/
theorem Rings.goto {pc : Pc B D} (h : Rings es s) (hl : pc.Looks (unread es)) (hn : pc ≠ .intrNext)
    (hn' : s.pc t ≠ .intrNext) : Rings es (s.goto t pc) := by
  have hnext : ∀ t', (s.goto t pc).pc t' = .intrNext ↔ s.pc t' = .intrNext :=
    (forall_update_iff s.pc fun t' pc => pc = .intrNext ↔ s.pc t' = .intrNext).2
      ⟨iff_of_false hn hn', fun _ _ => Iff.rfl⟩
  exact { h with
    looked := fun hne => h.looked fun t' e => hne t' ((hnext t').2 e)
    behind := fun t' ht' => h.behind t' ((hnext t').1 ht')
    looks := (forall_update_iff s.pc fun _ pc => pc.Looks (unread es)).2 ⟨hl, fun t' _ => h.looks t'⟩ }

omit [DecidableEq B] in
theorem Rings.turn {m : Mem B} {st : Nat → BitVec 8} {pc : Pc B D} (h : Rings es s) (hf : Flying es s)
    (hc : Calm es s t m st pc) (lock : Option (Fin n)) (data : B → D) :
    Rings es { s with mem := m, status := st, lock := lock, data := data, pc := update s.pc t pc } ∧
      Flying es { s with mem := m, status := st, lock := lock, data := data, pc := update s.pc t pc } := by
  obtain ⟨hidx, hring, hused, hdisk, hst, hw, hl, hn, hn'⟩ := hc
  have h₁ := h.goto hl hn hn'
  refine ⟨{ h₁ with
      availIdx := hidx.trans h.availIdx
      avail := hring ▸ h.avail
      looked := fun hne => hused.trans (h₁.looked hne)
      behind := hused ▸ h₁.behind
      ready := fun x hx hr => ?_
      posted := fun x hx => ?_ }, ⟨fun x hx => ?_, hf.nodup, hf.below, fun t' r c k hw' => ?_⟩⟩
  · rw [← h.ready x hx hr]
    refine hst (x.serial, x.head) ?_
    exact mem_append_left _ (mem_append_left _ (mem_append_right _ (mem_map.2 ⟨x, hx, rfl⟩)))
  · rw [← h.posted x hx]
    refine hst x ?_
    rcases mem_append.1 hx with hx | hx
    · exact mem_append_left _ (mem_append_right _ hx)
    · exact mem_append_right _ hx
  · obtain ⟨t', r, c, hw', hc, hb⟩ := hf.live x hx
    refine ⟨t', r, c, ?_, hc, (hdisk t' r c x.1 hw').trans hb⟩
    by_cases et : t' = t
    · subst et
      simp only [update_self]
      rcases hw with hw | ⟨-, hw⟩
      · rw [hw, hw']
      · rw [hw r c x.1 hw'] at hb
        cases hb
    · simp only [update_of_ne et]
      exact hw'
  · have hold : (s.pc t').waiting = some (r, c, k) := by
      by_cases et : t' = t
      · subst et
        simp only [update_self] at hw'
        rcases hw with hw | ⟨hw, -⟩
        · rw [← hw, hw']
        · rw [hw] at hw'
          cases hw'
      · simp only [update_of_ne et] at hw'
        exact hw'
    show _ ∧ (m.disk r.b = true → _)
    rw [hdisk t' r c k hold]
    exact hf.waits t' r c k hold

/-! ## Indices -/

/-- The slot of a 16-bit index. -/
theorem slot_eq (k : Nat) : (BitVec.ofNat 16 k).toNat % NUM = k % NUM := by
  rw [BitVec.toNat_ofNat]
  exact Nat.mod_mod_of_dvd k (by decide)

/-- Entries less than a ring apart have slots of their own. -/
theorem slot_ne (h : i < k) (hk : k < i + NUM) : i % NUM ≠ k % NUM := by
  have hN : NUM = 8 := rfl
  rw [hN] at hk ⊢
  omega

theorem getElem?_concat {α : Type} {l : List α} {x y : α} (h : (l ++ [x])[i]? = some y) :
    l[i]? = some y ∨ i = l.length ∧ x = y := by
  rcases Nat.lt_or_ge i l.length with hlt | hge
  · rw [getElem?_append_left hlt] at h
    exact .inl h
  · obtain rfl : i = l.length := by
      have := (List.getElem?_eq_some_iff.1 h).1
      rw [length_append, length_singleton] at this
      omega
    rw [getElem?_concat_length] at h
    exact .inr ⟨rfl, Option.some.inj h⟩

omit [DecidableEq B] in
theorem length_waitingRoom (es : List (Event B D)) (s : State n B D) :
    (waitingRoom es s).length = (submits es).length - s.seen := by
  simp [waitingRoom]

omit [DecidableEq B] in
theorem length_unread (es : List (Event B D)) : (unread es).length = (posts es).length - (credits es).length := by
  simp [unread]

omit [DecidableEq B] in
theorem length_flight (es : List (Event B D)) (s : State n B D) : (flight es s).length =
    ((submits es).length - s.seen) + s.pending.length + s.posting.toList.length +
      ((posts es).length - (credits es).length) := by
  simp only [flight, length_append, length_map, length_waitingRoom, length_unread]

/-! ## The driver's steps on the rings -/

section Driver

/-- No other thread is at a place where the lock is held. -/
theorem Driver.alone (hd : Driver s) (hl : s.lock = some t) {t' : Fin n} (hh : (s.pc t').holds = true) : t' = t := by
  have := (hd.lock t').2 hh
  rw [hl] at this
  exact (Option.some.inj this).symm

/-- No thread is between the two stores of `virtio_disk_intr` but the one that holds the lock. -/
theorem Driver.no_intrNext (hd : Driver s) (hl : s.lock = some t) (hn : s.pc t ≠ .intrNext) (t' : Fin n) :
    s.pc t' ≠ .intrNext := by
  intro e
  have hh : (s.pc t').holds = true := by rw [e]; rfl
  exact hn (hd.alone hl hh ▸ e)

theorem Driver.linked (hd : Driver s) (hw : (s.pc t).waiting = some (r, c, k)) : Linked s.mem r c := by
  have hok := hd.ok t
  cases hpc : s.pc t <;> rw [hpc] at hw hok <;> cases hw
  · exact hok
  · exact hok

variable (hd : Driver s) (h : Rings es s) (hf : Flying es s)
include hd h hf

/-- `avail->ring[avail->idx % NUM] = idx[0]` overwrites no entry that the device has not taken. -/
theorem Rings.publish (hpc : s.pc t = .publish r c) :
    Rings es ((s.putAvail c.d0).goto t (.submit r c)) ∧ Flying es ((s.putAvail c.d0).goto t (.submit r c)) := by
  have hroom : (flight es s).length < NUM :=
    hf.length_lt (t := t) (d := c.d0) hd (by rw [hpc]; exact mem_cons_self) (by rw [hpc]; rfl)
  rw [length_flight] at hroom
  have hcalm : Calm es s t s.mem s.status (.submit r c) := .goto hpc rfl trivial rfl rfl
  obtain ⟨h₁, hf₁⟩ := h.turn hf hcalm s.lock s.data
  refine ⟨{ h₁ with avail := fun k r' c' hk hs => ?_ }, { hf₁ with }⟩
  have hlt := (List.getElem?_eq_some_iff.1 hs).1
  have hne : k % NUM ≠ s.mem.idx.toNat % NUM := by
    rw [h.availIdx, slot_eq]
    have : s.seen ≤ k := hk
    exact slot_ne hlt (by omega)
  exact (update_of_ne hne ..).trans (h.avail k r' c' hk hs)

omit [DecidableEq B] hd h hf in
theorem waitingRoom_submit (hseen : s.seen ≤ (submits es).length) (hs : s'.seen = s.seen) :
    waitingRoom (es ++ [.submit r c]) s' = waitingRoom es s ++ [((submits es).length, c.d0)] := by
  rw [waitingRoom, waitingRoom, (snoc_event es (.submit r c)).1, hs, zipIdx_append,
    drop_append_of_le_length (by rwa [length_zipIdx]), map_append]
  simp

/-- `avail->idx += 1`: a new request, for which the thread waits. -/
theorem Rings.submit (hpc : s.pc t = .submit r c) (hs' : s' = s.bumpAvail.goto t (.wait r c s.submitted)) :
    Rings (es ++ [.submit r c]) s' ∧ Flying (es ++ [.submit r c]) s' := by
  have hok := hd.ok t
  rw [hpc] at hok
  obtain ⟨⟨hlink, hdisk⟩, hslot⟩ := hok
  obtain ⟨hsub, hpost, hcred⟩ := snoc_event es (.submit r c)
  simp only [append_nil] at hsub hpost hcred
  have hu : unread (es ++ [.submit r c]) = unread es := by rw [unread, unread, hpost, hcred]
  have hsv : served (es ++ [.submit r c]) = served es := by rw [served, served, hpost, hcred]
  have hlen : (submits (es ++ [.submit r c])).length = (submits es).length + 1 := by rw [hsub]; simp
  have hfl : (flight (es ++ [.submit r c]) s').Perm (((submits es).length, c.d0) :: flight es s) := by
    rw [flight, flight, waitingRoom_submit h.seen (by rw [hs']; rfl), hu, hs']
    simp only [append_assoc, singleton_append]
    exact perm_middle
  have h₁ : Rings es (s.goto t (.wait r c s.submitted)) := h.goto trivial nofun (by rw [hpc]; nofun)
  subst hs'
  refine ⟨{ h₁ with
      submitted := ?_
      availIdx := ?_
      seen := ?_
      avail := fun k r' c' hk hs => ?_
      idx := hpost ▸ h.idx
      credited := by rw [hpost, hcred]; exact h.credited
      used := by rw [hpost, hcred]; exact h.used
      posting := hpost ▸ h.posting
      looked := hcred ▸ h₁.looked
      behind := hcred ▸ h₁.behind
      looks := hu ▸ h₁.looks
      posted := hu ▸ h.posted },
    ⟨fun x hx => ?_, ?_, fun x hx => ?_, fun t' r' c' k hw => ?_⟩⟩
  · rw [hlen]
    exact congrArg (· + 1) h.submitted
  · rw [hlen]
    show s.mem.idx + 1 = _
    rw [h.availIdx, BitVec.ofNat_add]
    rfl
  · rw [hlen]
    exact Nat.le_succ_of_le h.seen
  · rw [hsub] at hs
    rcases getElem?_concat hs with hs | ⟨rfl, e⟩
    · exact h.avail k r' c' hk hs
    · cases e
      rw [h.availIdx, slot_eq] at hslot
      exact hslot
  · rcases mem_cons.1 (hfl.mem_iff.1 hx) with rfl | hx
    · refine ⟨t, r, c, ?_, rfl, hdisk⟩
      rw [s.bumpAvail.goto_self, h.submitted]
      rfl
    · obtain ⟨t', r', c', hw, hc, hb⟩ := hf.live x hx
      refine ⟨t', r', c', ?_, hc, hb⟩
      have e : t' ≠ t := by
        rintro rfl
        rw [hpc] at hw
        cases hw
      rw [s.bumpAvail.goto_ne e]
      exact hw
  · have hp := (hfl.append_left (served es)).trans perm_middle
    rw [hsv, (hp.map Prod.fst).nodup_iff, map_cons, nodup_cons]
    refine ⟨fun hm => ?_, hf.nodup⟩
    obtain ⟨x, hx, e⟩ := mem_map.1 hm
    have := hf.below x hx
    rw [e] at this
    exact Nat.lt_irrefl _ this
  · have hp := (hfl.append_left (served es)).trans perm_middle
    rw [hsv] at hx
    rw [hlen]
    rcases mem_cons.1 (hp.mem_iff.1 hx) with rfl | hx
    · exact Nat.lt_succ_self _
    · exact Nat.lt_succ_of_lt (hf.below x hx)
  · by_cases e : t' = t
    · rw [e, s.bumpAvail.goto_self] at hw
      cases hw
      rw [hsub, h.submitted, getElem?_concat_length]
      exact ⟨rfl, fun _ => hfl.mem_iff.2 mem_cons_self⟩
    · rw [s.bumpAvail.goto_ne e] at hw
      obtain ⟨h1, h2⟩ := hf.waits t' r' c' k hw
      refine ⟨?_, fun hb => hfl.mem_iff.2 (mem_cons_of_mem _ (h2 hb))⟩
      rw [hsub, getElem?_append_left (List.getElem?_eq_some_iff.1 h1).1]
      exact h1

omit [DecidableEq B] hd hf in
/-- The handler that compares `used_idx` with `used->idx` goes on only if there is a request to read. -/
theorem Rings.unread_ne (hn : ∀ t, s.pc t ≠ .intrNext) (hne : s.mem.usedIdx ≠ s.idx) : unread es ≠ [] := by
  intro he
  refine hne ?_
  rw [unread, drop_eq_nil_iff] at he
  rw [h.looked hn, h.idx, Nat.le_antisymm h.credited he]

/-- It stops only if there is none. -/
theorem Rings.unread_eq (hn : ∀ t, s.pc t ≠ .intrNext) (he : s.mem.usedIdx = s.idx) : unread es = [] := by
  have hlen := hf.length_le hd
  have hle := h.credited
  have hN : NUM = 8 := rfl
  rw [length_flight] at hlen
  rw [h.looked hn, h.idx] at he
  have := congrArg BitVec.toNat he
  rw [BitVec.toNat_ofNat, BitVec.toNat_ofNat] at this
  rw [unread, drop_eq_nil_iff]
  omega

/-- What the handler reads from the used ring. -/
theorem Rings.read_id (hn : ∀ t, s.pc t ≠ .intrNext) (hne : unread es ≠ []) :
    ∃ k, (unread es).head? = some (k, (s.ring (s.mem.usedIdx.toNat % NUM)).toNat) := by
  obtain ⟨⟨k, d⟩, l, hu⟩ := exists_cons_of_ne_nil hne
  have hpost : (posts es)[(credits es).length]? = some (k, d) := by
    rw [← head?_drop, ← unread, hu]
    rfl
  have hmem : (k, d) ∈ flight es s := mem_append_right _ (hu ▸ mem_cons_self)
  have hlt : d < NUM := by
    have := hf.heads_subset hd (mem_map.2 ⟨_, hmem, rfl⟩)
    exact mem_range.1 this
  have hN : NUM = 8 := rfl
  refine ⟨k, ?_⟩
  rw [h.looked hn, slot_eq, h.used _ k d (Nat.le_refl _) hpost, BitVec.toNat_ofNat, Nat.mod_eq_of_lt (by omega), hu]
  rfl

omit h in
/-- The buffer in `info[id].b` is that of the request that was read. -/
theorem Flying.buf_eq {id : Nat} (hu : (unread es).head? = some (k, id)) : ∃ t r c,
    (s.pc t).waiting = some (r, c, k) ∧ c.d0 = id ∧ s.mem.disk r.b = true ∧ s.mem.buf id = some r.b := by
  have hmem : (k, id) ∈ flight es s := mem_append_right _ (mem_of_mem_head? hu)
  obtain ⟨t, r, c, hw, hc, hb⟩ := hf.live _ hmem
  have hc : c.d0 = id := hc
  exact ⟨t, r, c, hw, hc, hb, hc ▸ (hd.linked hw).buf⟩

/-- `b->disk = 0`: the request is credited to its buffer. -/
theorem Rings.credit {id : Nat} {b : B} (hpc : s.pc t = .intrBuf id) (hu : (unread es).head? = some (k, id))
    (hb : s.mem.buf id = some b) : Rings (es ++ [.credit id b]) ((s.write (.disk b false)).goto t .intrNext) ∧
      Flying (es ++ [.credit id b]) ((s.write (.disk b false)).goto t .intrNext) := by
  obtain ⟨t₀, r₀, c₀, hw₀, hc₀, hb₀, hbuf⟩ := hf.buf_eq hd hu
  obtain rfl : r₀.b = b := Option.some.inj (hbuf.symm.trans hb)
  have hl : s.lock = some t := (hd.lock t).2 (by rw [hpc]; rfl)
  have hnext := hd.no_intrNext hl (by rw [hpc]; nofun)
  obtain ⟨l, hul⟩ : ∃ l, unread es = (k, id) :: l := by
    cases hx : unread es with
    | nil =>
      rw [hx] at hu
      cases hu
    | cons x l =>
      rw [hx] at hu
      cases hu
      exact ⟨l, rfl⟩
  have hlt : (credits es).length < (posts es).length := by
    have := length_unread es
    rw [hul, length_cons] at this
    omega
  obtain ⟨es', he'⟩ : ∃ es', es' = es ++ [.credit id r₀.b] := ⟨_, rfl⟩
  obtain ⟨s', hs'⟩ : ∃ s', s' = (s.write (.disk r₀.b false)).goto t .intrNext := ⟨_, rfl⟩
  obtain ⟨hsub, hpost, hcred⟩ := snoc_event es (.credit id r₀.b)
  simp only [append_nil] at hsub hpost hcred
  rw [← he'] at hsub hpost hcred
  replace hcred : (credits es').length = (credits es).length + 1 := by rw [hcred, length_append, length_singleton]
  have hu' : unread es' = l := by
    rw [unread, hpost, hcred, ← drop_drop, ← unread, hul]
    rfl
  have hsv : served es' = served es ++ [(k, id)] := by
    have hget : (posts es)[(credits es).length]? = some (k, id) := by
      rw [← head?_drop, ← unread, hu]
    rw [served, hpost, hcred, take_add_one, hget]
    rfl
  have hfl : flight es s = (waitingRoom es s ++ s.pending.map (fun x => (x.serial, x.head)) ++ s.posting.toList) ++
      (k, id) :: l := by rw [flight, hul]
  have hfl' : flight es' s' =
      (waitingRoom es s ++ s.pending.map (fun x => (x.serial, x.head)) ++ s.posting.toList) ++ l := by
    rw [flight, hu', waitingRoom, hsub, hs']
    rfl
  -- the request moves from those in flight to those served
  have hperm : (served es ++ flight es s).Perm (served es' ++ flight es' s') := by
    rw [hfl, hfl', hsv, append_assoc (served es), singleton_append]
    exact perm_middle.append_left _
  have hold : ∀ x ∈ flight es' s', x ∈ flight es s ∧ x.1 ≠ k := by
    intro x hx
    rw [hfl'] at hx
    have hx' : x ∈ flight es s := by
      rw [hfl]
      rcases mem_append.1 hx with hx | hx
      · exact mem_append_left _ hx
      · exact mem_append_right _ (mem_cons_of_mem _ hx)
    refine ⟨hx', fun e => ?_⟩
    have hnd := hf.flight_nodup
    rw [hfl, (perm_middle.map Prod.fst).nodup_iff, map_cons, nodup_cons] at hnd
    exact hnd.1 (mem_map.2 ⟨x, hx, e⟩)
  have hdisk : ∀ t' r c k', (s.pc t').waiting = some (r, c, k') → k' ≠ k → r.b ≠ r₀.b := by
    intro t' r c k' hw hk e
    obtain rfl := hd.callers t' t₀ r₀.b (e ▸ Pc.buf_of_waiting hw) (Pc.buf_of_waiting hw₀)
    rw [hw] at hw₀
    cases hw₀
    exact hk rfl
  rw [← he', ← hs']
  have hself : s'.pc t = .intrNext := by rw [hs', State.goto_self]
  have hne : ∀ t', t' ≠ t → s'.pc t' = s.pc t' := fun t' e => by rw [hs', State.goto_ne _ e]; rfl
  subst hs'
  refine ⟨⟨h.panicked, hsub ▸ h.submitted, hsub ▸ h.availIdx, hsub ▸ h.seen, hsub ▸ h.avail, hpost ▸ h.idx, ?_,
    fun i k' d hi hp => ?_, hpost ▸ h.posting, fun hn => absurd hself (hn t), fun t' _ => ?_, fun t' => ?_, h.ready,
    fun x hx => ?_⟩, ⟨fun x hx => ?_, (hperm.map Prod.fst).nodup_iff.1 hf.nodup, fun x hx => ?_, fun t' r c k' hw => ?_⟩⟩
  · rw [hpost, hcred]
    exact hlt
  · rw [hpost] at hp
    rw [hcred] at hi
    exact h.used i k' d (Nat.le_of_succ_le hi) hp
  · rw [hcred]
    show s.mem.usedIdx + 1 = _
    rw [h.looked hnext, BitVec.ofNat_add]
    rfl
  · by_cases e : t' = t
    · rw [e, hself]
      trivial
    · rw [hne t' e]
      have hr : (s.pc t').holds ≠ true := fun hh => e (hd.alone hl hh)
      cases hp : s.pc t' <;> rw [hp] at hr <;> trivial
  · refine h.posted x ?_
    rw [hu'] at hx
    rw [hul]
    rcases mem_append.1 hx with hx | hx
    · exact mem_append_left _ hx
    · exact mem_append_right _ (mem_cons_of_mem _ hx)
  · obtain ⟨hx, hk⟩ := hold x hx
    obtain ⟨t', r, c, hw, hc, hb'⟩ := hf.live x hx
    refine ⟨t', r, c, ?_, hc, (update_of_ne (hdisk t' r c x.1 hw hk) ..).trans hb'⟩
    have e : t' ≠ t := by
      rintro rfl
      rw [hpc] at hw
      cases hw
    rw [hne t' e]
    exact hw
  · rw [hsub]
    exact hf.below x (hperm.mem_iff.2 hx)
  · have e : t' ≠ t := by
      rintro rfl
      rw [hself] at hw
      cases hw
    rw [hne t' e] at hw
    rw [hsub]
    refine ⟨(hf.waits t' r c k' hw).1, fun hb' => ?_⟩
    have hrb : r.b ≠ r₀.b := fun e' => by
      have : update s.mem.disk r₀.b false r.b = true := hb'
      rw [e', update_self] at this
      cases this
    have hbt : s.mem.disk r.b = true := (update_of_ne hrb ..).symm.trans hb'
    have hin := (hf.waits t' r c k' hw).2 hbt
    have hk : (k', c.d0) ≠ (k, id) := fun e' => by
      injection e' with e₁ e₂
      subst e₁
      -- the other thread would have the same descriptor
      have ho : c.d0 ∈ (s.pc t').owns := by rw [Pc.owns_of_waiting hw]; exact mem_cons_self
      have ho₀ : c.d0 ∈ (s.pc t₀).owns := by rw [Pc.owns_of_waiting hw₀, e₂, ← hc₀]; exact mem_cons_self
      obtain rfl := hd.disj t' t₀ _ ho ho₀
      rw [hw] at hw₀
      cases hw₀
      exact hrb rfl
    rw [hfl, mem_append, mem_cons] at hin
    rw [hfl', mem_append]
    rcases hin with hin | hin | hin
    · exact .inl hin
    · exact absurd hin hk
    · exact .inr hin

omit [DecidableEq B] hd in
/-- `used_idx += 1` -/
theorem Rings.next (hpc : s.pc t = .intrNext) (halone : ∀ t', s.pc t' = .intrNext → t' = t) :
    Rings es (s.bumpUsed.goto t .intrLoop) ∧ Flying es (s.bumpUsed.goto t .intrLoop) := by
  have hw : ∀ t', ((s.bumpUsed.goto t .intrLoop).pc t').waiting = (s.pc t').waiting :=
    (forall_update_iff s.pc fun t' pc => pc.waiting = (s.pc t').waiting).2 ⟨by rw [hpc]; rfl, fun _ _ => rfl⟩
  refine ⟨{ h with
      looked := fun _ => h.behind t hpc
      behind := fun t' ht' => ?_
      looks := (forall_update_iff s.pc fun _ pc => pc.Looks (unread es)).2 ⟨trivial, fun t' _ => h.looks t'⟩ },
    hf.perm hw rfl rfl rfl (.refl _)⟩
  by_cases e : t' = t
  · rw [e, s.bumpUsed.goto_self] at ht'
    cases ht'
  · rw [s.bumpUsed.goto_ne e] at ht'
    exact absurd (halone t' ht') e

omit [DecidableEq B] hd h hf in
theorem index_freeWrites (hm : w ∈ freeWrites d) : w.index = some d := by
  simp only [freeWrites, mem_cons, not_mem_nil, or_false] at hm
  rcases hm with rfl | rfl | rfl | rfl | rfl <;> rfl

omit h in
/-- A store of the thread, to its descriptors or to the flag of its buffer. -/
theorem Calm.write {q pc : Pc B D} (hpc : s.pc t = q) (hw : q.waiting = none) (hw' : pc.waiting = none)
    (hi : ∀ d, w.index = some d → d ∈ q.owns) (hb : ∀ b v, w = .disk b v → q.buf = some b) (hl : pc.Looks (unread es))
    (hn : pc.isNext = false) (hn' : q.isNext = false) : Calm es s t (w.mem s.mem) (w.status? s.status) pc := by
  subst hpc
  refine ⟨?_, ?_, ?_, fun t' r c k hw' => ?_, fun x hx => ?_, .inl (hw'.trans hw.symm), hl, Pc.ne_intrNext hn,
    Pc.ne_intrNext hn'⟩
  · cases w <;> rfl
  · cases w <;> rfl
  · cases w <;> rfl
  · cases w with
    | disk b v =>
      refine update_of_ne (fun e => ?_) ..
      have := hd.callers t' t b (e ▸ Pc.buf_of_waiting hw') (hb b v rfl)
      rw [this, hw] at hw'
      cases hw'
    | _ => rfl
  · cases w with
    | status i v => exact update_of_ne (hf.ne_of_owns hd (hi i rfl) hw hx) ..
    | _ => rfl

omit h in
theorem Calm.format (hpc : s.pc t = .format r c i) (hw : (formatWrites r c)[i]? = some w) :
    Calm es s t (w.mem s.mem) (w.status? s.status) (.format r c (i + 1)) := by
  have hmem : w ∈ formatWrites r c := mem_of_getElem? hw
  refine .write hd hf hpc rfl rfl (fun d hi => index_formatWrites hmem hi) (fun b v e => ?_) trivial rfl rfl
  · rw [e] at hmem
    simp only [formatWrites, mem_cons, reduceCtorEq, Write.disk.injEq, not_mem_nil, or_false, false_or] at hmem
    exact congrArg some hmem.1.symm

omit h in
theorem Calm.freeDesc {next pc : Pc B D} (hpc : s.pc t = .freeDesc d i next) (hw : w ∈ freeWrites d)
    (hp : pc.waiting = none) (hl : pc.Looks (unread es)) (hn : pc.isNext = false) :
    Calm es s t (w.mem s.mem) (w.status? s.status) pc := by
  refine .write hd hf hpc rfl hp (fun e hi => ?_) (fun b v e => ?_) hl hn rfl
  · rw [← Option.some.inj ((index_freeWrites hw).symm.trans hi)]
    exact mem_cons_self
  · have := index_freeWrites hw
    rw [e] at this
    cases this

end Driver

/-! ## What the steps of a thread can do -/

/-- The steps of a thread: those that leave the rings alone, and one for each store to a ring, to a flag
that another thread waits for, and for the return of a call. -/
inductive Turn (es : List (Event B D)) (s : State n B D) (t : Fin n) : State n B D → List (Event B D) → Prop
  | calm {m : Mem B} {st : Nat → BitVec 8} {lock : Option (Fin n)} {pc : Pc B D} (hc : Calm es s t m st pc)
      (hcall : pc.call = (s.pc t).call)
      (hpast : ∀ r x, pc.call = some (r, some x) → pc.past = true → (s.pc t).past = true ∨ s.mem.disk r.b = false) :
      Turn es s t { s with mem := m, status := st, lock := lock, pc := update s.pc t pc } []
  | publish {r : Request B D} {c : Chain} (hpc : s.pc t = .publish r c) :
      Turn es s t ((s.putAvail c.d0).goto t (.submit r c)) []
  | submit {r : Request B D} {c : Chain} (hpc : s.pc t = .submit r c) :
      Turn es s t (s.bumpAvail.goto t (.wait r c s.submitted)) [.submit r c]
  | credit {k id : Nat} {b : B} (hpc : s.pc t = .intrBuf id) (hu : (unread es).head? = some (k, id))
      (hb : s.mem.buf id = some b) : Turn es s t ((s.write (.disk b false)).goto t .intrNext) [.credit id b]
  | next (hpc : s.pc t = .intrNext) : Turn es s t (s.bumpUsed.goto t .intrLoop) []
  | leave {r : Request B D} {c : Chain} {k : Nat} (hpc : s.pc t = .leave r c k) :
      Turn es s t (s.release t .idle) [.ret k]

section Turn

variable {q pc : Pc B D} {es' : List (Event B D)}

/-- A step that only changes the place of the thread. -/
theorem Turn.goto {lock : Option (Fin n)} (hpc : s.pc t = q) (hs : s' = { s with lock := lock, pc := update s.pc t pc })
    (hw : pc.waiting = q.waiting) (hl : pc.Looks (unread es)) (hn : pc.isNext = false) (hn' : q.isNext = false)
    (hcall : pc.call = q.call) (hpast : pc.past = q.past) : Turn es s t s' [] := by
  subst hpc hs
  exact .calm (m := s.mem) (.goto rfl hw hl hn hn') hcall fun _ _ _ hp => .inl (hpast ▸ hp)

theorem Turn.acquire (hpc : s.pc t = q) (hs : s.acquire t pc = some (s', es')) (hw : pc.waiting = q.waiting)
    (hl : pc.Looks (unread es)) (hn : pc.isNext = false) (hn' : q.isNext = false) (hcall : pc.call = q.call)
    (hpast : pc.past = q.past) : Turn es s t s' es' := by
  rw [State.acquire] at hs
  split at hs
  · cases hs
    exact .goto hpc rfl hw hl hn hn' hcall hpast
  · cases hs

variable (hd : Driver s) (h : Rings es s) (hf : Flying es s)
include hd h hf

theorem turn_of_run (hs : runPc s t (s.pc t) = some (s', es')) : Turn es s t s' es' := by
  have hl : (s.pc t).holds = true → s.lock = some t := (hd.lock t).2
  have hok := hd.ok t
  have hlook := h.looks t
  have hnext : (s.pc t).holds = true → (s.pc t).isNext = false → ∀ t', s.pc t' ≠ .intrNext := fun hh hn =>
    hd.no_intrNext (hl hh) (Pc.ne_intrNext hn)
  cases hpc : s.pc t <;> rw [hpc] at hs hok hl hlook hnext
  case idle => cases hs
  case enter r | sleepFree r | sleepBuf r c k | intrEnter =>
    exact .acquire hpc hs rfl trivial rfl rfl rfl rfl
  case alloc r got =>
    rw [runPc] at hs
    split at hs
    · cases hs
      exact .goto hpc rfl rfl trivial rfl rfl rfl rfl
    · rename_i d _
      have hcalm : ∀ pc : Pc B D, pc.waiting = none → pc.Looks (unread es) → pc.isNext = false →
          Calm es s t { s.mem with free := update s.mem.free d false } s.status pc := fun pc hw hl hn =>
        ⟨rfl, rfl, rfl, fun _ _ _ _ _ => rfl, fun _ _ => rfl, .inl (by rw [hpc]; exact hw), hl, Pc.ne_intrNext hn,
          by rw [hpc]; simp⟩
      split at hs
      · cases hs
        exact .calm (hcalm _ rfl trivial rfl) (by rw [hpc]; rfl) fun _ _ e => by cases e
      · cases hs
        exact .calm (hcalm _ rfl trivial rfl) (by rw [hpc]; rfl) fun _ _ e => by cases e
  case undo r todo =>
    cases todo with
    | nil =>
      cases hs
      exact .goto hpc rfl rfl trivial rfl rfl rfl rfl
    | cons d todo =>
      rw [runPc, hd.freeCheck (by rw [hpc]; exact mem_cons_self)] at hs
      cases hs
      exact .calm (m := s.mem) (.goto hpc rfl trivial rfl rfl) (by rw [hpc]; rfl) fun _ _ e => by cases e
  case format r c i =>
    rw [runPc] at hs
    split at hs
    · rename_i w hw
      cases hs
      exact .calm (.format hd hf hpc hw) (by rw [hpc]; rfl) fun _ _ e => by cases e
    · cases hs
      exact .goto hpc rfl rfl trivial rfl rfl rfl rfl
  case publish r c =>
    cases hs
    exact .publish hpc
  case submit r c =>
    cases hs
    exact .submit hpc
  case wait r c k =>
    rw [runPc] at hs
    split at hs
    · cases hs
      exact .goto hpc rfl rfl trivial rfl rfl rfl rfl
    · rename_i hb
      cases hs
      refine .calm (m := s.mem) ⟨rfl, rfl, rfl, fun _ _ _ _ _ => rfl, fun _ _ => rfl, .inr ⟨rfl, fun r' c' k' hw => ?_⟩,
        trivial, by simp, by rw [hpc]; simp⟩ (by rw [hpc]; rfl) fun r' k' hk _ => .inr ?_
      · rw [hpc] at hw
        cases hw
        exact Bool.eq_false_iff.2 hb
      · cases hk
        exact Bool.eq_false_iff.2 hb
  case clear r c k =>
    cases hs
    have hcalm : Calm es s t (Write.mem s.mem (.buf c.d0 none)) s.status (.freeChain r c k (some c.d0)) := by
      refine .write (w := .buf c.d0 none) hd hf hpc rfl rfl (fun d hi => ?_) (fun _ _ e => by cases e) trivial rfl rfl
      rw [← Option.some.inj hi]
      exact mem_cons_self
    exact .calm hcalm (by rw [hpc]; rfl) fun _ _ _ _ => .inl (by rw [hpc]; rfl)
  case freeChain r c k i =>
    cases i with
    | none =>
      cases hs
      exact .goto hpc rfl rfl trivial rfl rfl rfl rfl
    | some i =>
      simp only [runPc] at hs
      rw [hd.freeCheck (by rw [hpc]; exact mem_of_mem_head? hok.1.2.2)] at hs
      cases hs
      exact .goto hpc rfl rfl trivial rfl rfl rfl rfl
  case freeDesc d i next =>
    rw [runPc] at hs
    split at hs
    · cases hs
    · rename_i w hdrop
      cases hs
      have hw : w ∈ freeWrites d := mem_of_mem_drop (hdrop ▸ mem_cons_self)
      have hcalm : Calm es s t (w.mem s.mem) (w.status? s.status) next := by
        have hfrees := hok.1
        cases next <;> cases hfrees
        · exact .freeDesc hd hf hpc hw rfl trivial rfl
        · exact .freeDesc hd hf hpc hw rfl trivial rfl
      exact .calm hcalm (by rw [hpc]; rfl) fun _ _ _ _ => .inl (by rw [hpc]; rfl)
    · rename_i w l _ hdrop
      cases hs
      have hw : w ∈ freeWrites d := mem_of_mem_drop (hdrop ▸ mem_cons_self)
      exact .calm (.freeDesc hd hf hpc hw rfl trivial rfl) (by rw [hpc]; rfl) fun _ _ _ _ => .inl (by rw [hpc]; rfl)
  case leave r c k =>
    cases hs
    exact .leave hpc
  case intrLoop =>
    cases hs
    split
    · exact .goto hpc rfl rfl (h.unread_ne (hnext rfl rfl) ‹_›) rfl rfl rfl rfl
    · exact .goto hpc rfl rfl trivial rfl rfl rfl rfl
  case intrId =>
    cases hs
    exact .goto hpc rfl rfl (h.read_id hd hf (hnext rfl rfl) hlook) rfl rfl rfl rfl
  case intrStatus id =>
    obtain ⟨k, hk⟩ := hlook
    have hzero : s.status id = 0 := h.posted (k, id) (mem_append_right _ (mem_of_mem_head? hk))
    rw [runPc, hzero] at hs
    cases hs
    exact .goto hpc rfl rfl ⟨k, hk⟩ rfl rfl rfl rfl
  case intrBuf id =>
    obtain ⟨k, hk⟩ := hlook
    obtain ⟨-, r, -, -, -, -, hbuf⟩ := hf.buf_eq hd hk
    simp only [runPc, hbuf] at hs
    cases hs
    exact .credit hpc hk hbuf
  case intrNext =>
    cases hs
    exact .next hpc
  case intrLeave =>
    cases hs
    exact .goto hpc rfl rfl trivial rfl rfl rfl rfl

theorem Rings.run (ht : Turn es s t s' es') : Rings (es ++ es') s' ∧ Flying (es ++ es') s' := by
  cases ht with
  | calm hc _ _ =>
    rw [append_nil]
    exact h.turn hf hc _ s.data
  | publish hpc =>
    rw [append_nil]
    exact h.publish hd hf hpc
  | submit hpc => exact h.submit hd hf hpc rfl
  | credit hpc hu hb => exact h.credit hd hf hpc hu hb
  | next hpc =>
    rw [append_nil]
    refine h.next hf hpc fun t' e => hd.alone ((hd.lock t).2 (by rw [hpc]; rfl)) ?_
    rw [e]
    rfl
  | leave hpc =>
    have hcalm : Calm es s t s.mem s.status .idle := .goto hpc rfl trivial rfl rfl
    obtain ⟨h', hf'⟩ := h.turn hf hcalm none s.data
    obtain ⟨h1, h2, h3⟩ := snoc_event es (.ret _)
    simp only [append_nil] at h1 h2 h3
    exact h'.quiet hf' h1 h2 h3

end Turn

/-! ## The device -/

section Device

variable (hd : Driver s) (h : Rings es s) (hf : Flying es s)
include hd h hf

/-- The device takes the next entry of the avail ring. -/
theorem Rings.take (hne : BitVec.ofNat 16 s.seen ≠ s.mem.idx) (hs : s' = { s with
      seen := s.seen + 1
      pending := s.pending ++ [⟨s.seen, (s.mem.ring (s.seen % NUM)).toNat, .taken⟩] }) :
    Rings es s' ∧ Flying es s' := by
  have hlt : s.seen < (submits es).length := by
    refine Nat.lt_of_le_of_ne h.seen fun e => hne ?_
    rw [h.availIdx, e]
  obtain ⟨⟨r, c⟩, hsub⟩ : ∃ x, (submits es)[s.seen]? = some x := ⟨_, getElem?_eq_getElem hlt⟩
  have hroom : waitingRoom es s = (s.seen, c.d0) :: ((submits es).zipIdx.drop (s.seen + 1)).map fun x => (x.2, x.1.2.d0) := by
    have hz : (submits es).zipIdx[s.seen]? = some ((r, c), s.seen) := by
      rw [getElem?_zipIdx, hsub]
      simp
    rw [waitingRoom, drop_eq_getElem?_toList_append, hz]
    rfl
  have hmem : (s.seen, c.d0) ∈ flight es s := by
    rw [flight, hroom]
    simp
  have hhead : (s.mem.ring (s.seen % NUM)).toNat = c.d0 := by
    have hd0 := mem_range.1 (hf.heads_subset hd (mem_map.2 ⟨_, hmem, rfl⟩))
    have hN : NUM = 8 := rfl
    rw [h.avail _ r c (Nat.le_refl _) hsub, BitVec.toNat_ofNat, Nat.mod_eq_of_lt]
    have : c.d0 < NUM := hd0
    omega
  rw [hhead] at hs
  have hfl : (flight es s').Perm (flight es s) := by
    rw [flight, flight, hroom, hs]
    simp only [waitingRoom, map_append, map_cons, map_nil, append_assoc, cons_append,
      nil_append]
    rw [← append_assoc]
    refine perm_middle.trans ?_
    rw [append_assoc]
  subst hs
  refine ⟨{ h with
      seen := hlt
      avail := fun k r c hk => h.avail k r c (Nat.le_of_succ_le hk)
      ready := fun x hx hr => ?_ }, hf.perm (fun _ => rfl) rfl rfl rfl hfl⟩
  rcases mem_append.1 hx with hx | hx
  · exact h.ready x hx hr
  · rw [mem_singleton.1 hx] at hr
    cases hr

omit [DecidableEq B] hd in
/-- The device goes on with a request it has taken. -/
theorem Rings.advance {x : Entry} (hx : s.pending[j]? = some x) (stage : Stage)
    (hr : stage = .ready → s.status x.head = 0) : Rings es (s.advance j x stage) ∧ Flying es (s.advance j x stage) := by
  have hmap : (s.advance j x stage).pending.map (fun x => (x.serial, x.head)) =
      s.pending.map fun x => (x.serial, x.head) := by
    refine ext_getElem? fun i => ?_
    rw [State.advance, map_set, getElem?_set]
    split
    · rename_i e
      rw [← e, getElem?_map, hx, if_pos (by rw [length_map]; exact (List.getElem?_eq_some_iff.1 hx).1)]
      rfl
    · rfl
  have hfl : flight es (s.advance j x stage) = flight es s := by
    rw [flight, hmap]
    rfl
  refine ⟨{ h with ready := fun y hy hr' => ?_ }, hf.perm (fun _ => rfl) rfl rfl rfl (.of_eq hfl)⟩
  rcases mem_or_eq_of_mem_set hy with hy | rfl
  · exact h.ready y hy hr'
  · exact hr hr'

omit h in
/-- What the device reads for a request in flight. -/
theorem Flying.follow (hx : (k, d) ∈ flight es s) : ∃ t r c, (s.pc t).waiting = some (r, c, k) ∧ c.d0 = d ∧
    follow s.mem d = some (r.write, r.sector, r.b, d) := by
  obtain ⟨t, r, c, hw, hc, -⟩ := hf.live _ hx
  have hc : c.d0 = d := hc
  refine ⟨t, r, c, hw, hc, ?_⟩
  rw [← hc]
  refine (hd.linked hw).follow fun e he => (hd.lt t e ?_).1
  rw [Pc.owns_of_waiting hw]
  exact he

omit [DecidableEq B] hd h hf in
theorem mem_flight_of_pending {stage : Stage} (hx : s.pending[j]? = some ⟨k, d, stage⟩) : (k, d) ∈ flight es s :=
  mem_append_left _ (mem_append_left _ (mem_append_right _
    (mem_map.2 ⟨_, mem_of_getElem? hx, rfl⟩)))

omit [DecidableEq B] hd in
/-- The device writes a status of 0. -/
theorem Rings.zeroStatus (i : Nat) :
    Rings es { s with status := update s.status i 0 } ∧ Flying es { s with status := update s.status i 0 } := by
  have hzero : ∀ d, s.status d = 0 → update s.status i 0 d = 0 := fun d hd => by
    by_cases e : d = i
    · rw [e, update_self]
    · rw [update_of_ne e, hd]
  exact ⟨{ h with
      ready := fun x hx hr => hzero _ (h.ready x hx hr)
      posted := fun x hx => hzero _ (h.posted x hx) }, { hf with }⟩

/-- The device writes an entry of the used ring, where there is none that is unread. -/
theorem Rings.post {j k d : Nat} (hx : s.pending[j]? = some ⟨k, d, .ready⟩) (hp : s.posting = none) (hs : s' = { s with
      ring := update s.ring (s.idx.toNat % NUM) (BitVec.ofNat 32 d)
      pending := s.pending.eraseIdx j
      posting := some (k, d) }) : Rings es s' ∧ Flying es s' := by
  obtain ⟨hj, hget⟩ := List.getElem?_eq_some_iff.1 hx
  have hperm : s.pending.Perm (⟨k, d, .ready⟩ :: s.pending.eraseIdx j) := hget ▸ (getElem_cons_eraseIdx_perm hj).symm
  have hroom := hf.length_le hd
  have hlen := hperm.length_eq
  have hslot : s.idx.toNat % NUM = (posts es).length % NUM := by rw [h.idx, slot_eq]
  rw [length_flight] at hroom
  rw [length_cons] at hlen
  have hfl : (flight es s').Perm (flight es s) := by
    rw [flight, flight, hs, hp]
    refine List.Perm.append_right _ ?_
    simp only [append_assoc, Option.toList_none, append_nil, Option.toList_some]
    refine List.Perm.append_left _ ?_
    exact (perm_append_singleton ..).trans (hperm.map fun x : Entry => (x.serial, x.head)).symm
  subst hs
  refine ⟨{ h with
      used := fun i k' d' hi hi' => ?_
      posting := fun k' d' e => ?_
      ready := fun x hx' => h.ready x (mem_of_mem_eraseIdx hx')
      posted := fun x hx' => ?_ }, hf.perm (fun _ => rfl) rfl rfl rfl hfl⟩
  · have hlt := (List.getElem?_eq_some_iff.1 hi').1
    have hne : i % NUM ≠ s.idx.toNat % NUM := by
      rw [hslot]
      exact slot_ne hlt (by omega)
    exact (update_of_ne hne ..).trans (h.used i k' d' hi hi')
  · cases e
    rw [← hslot]
    exact update_self ..
  · rcases mem_append.1 hx' with hx' | hx'
    · obtain rfl := mem_singleton.1 hx'
      exact h.ready _ (mem_of_getElem? hx) rfl
    · exact h.posted x (mem_append_right _ hx')

omit [DecidableEq B] hd in
/-- The device increments `used->idx`. -/
theorem Rings.bump (hp : s.posting = some (k, d)) : Rings (es ++ [.post k d]) { s with idx := s.idx + 1, posting := none } ∧
      Flying (es ++ [.post k d]) { s with idx := s.idx + 1, posting := none } := by
  obtain ⟨hsub, hpost, hcred⟩ := snoc_event es (.post k d)
  simp only [append_nil] at hsub hpost hcred
  have hu : unread (es ++ [.post k d]) = unread es ++ [(k, d)] := by
    rw [unread, unread, hpost, hcred, drop_append_of_le_length h.credited]
  have hsv : served (es ++ [.post k d]) = served es := by
    rw [served, served, hpost, hcred, take_append_of_le_length h.credited]
  have hfl : (flight (es ++ [.post k d]) { s with idx := s.idx + 1, posting := none }).Perm (flight es s) := by
    rw [flight, flight, hu, waitingRoom, waitingRoom, hsub, hp]
    simp only [Option.toList_none, append_nil, Option.toList_some, append_assoc]
    refine List.Perm.append_left _ (List.Perm.append_left _ ?_)
    exact perm_append_comm
  refine ⟨⟨h.panicked, hsub ▸ h.submitted, hsub ▸ h.availIdx, hsub ▸ h.seen, hsub ▸ h.avail, ?_, ?_, fun i k' d' hi hi' => ?_,
    nofun, hcred ▸ h.looked, hcred ▸ h.behind, fun t => ?_, h.ready, fun x hx => ?_⟩,
    hf.perm (fun _ => rfl) rfl hsub hsv hfl⟩
  · rw [hpost, length_append, length_singleton, BitVec.ofNat_add, ← h.idx]
    rfl
  · rw [hpost, hcred, length_append]
    exact Nat.le_add_right_of_le h.credited
  · rw [hcred] at hi
    rw [hpost] at hi'
    rcases getElem?_concat hi' with hi' | ⟨rfl, e⟩
    · exact h.used i k' d' hi hi'
    · cases e
      exact h.posting k d hp
  · rw [hu]
    have hl := h.looks t
    show (s.pc t).Looks (unread es ++ [(k, d)])
    cases hpc : s.pc t <;> rw [hpc] at hl <;> try trivial
    · exact fun e => absurd (append_eq_nil_iff.1 e).2 nofun
    · obtain ⟨k', hk'⟩ := hl
      exact ⟨k', by rw [head?_append, hk']; rfl⟩
    · obtain ⟨k', hk'⟩ := hl
      exact ⟨k', by rw [head?_append, hk']; rfl⟩
  · rw [hu] at hx
    refine h.posted x ?_
    rw [hp, mem_append]
    rcases mem_append.1 hx with hx | hx
    · cases hx
    · rcases mem_append.1 hx with hx | hx
      · exact .inr hx
      · exact .inl (by simpa using hx)

end Device

/-! ## Runs -/

omit [DecidableEq B] in
theorem boot_rings (data : B → D) (image : BitVec 64 → D) :
    Rings [] (boot data image : State n B D) ∧ Flying [] (boot data image : State n B D) := by
  refine ⟨⟨rfl, rfl, rfl, Nat.le_refl _, nofun, rfl, Nat.le_refl _, nofun, nofun, fun _ => rfl, nofun, fun _ => trivial,
    nofun, nofun⟩, ⟨nofun, nodup_nil, nofun, nofun⟩⟩

theorem Rings.step (hd : Driver s) (h : Rings es s) (hf : Flying es s) {a : Act n B D} {es' : List (Event B D)}
    (hs : Virtio.step s a = some (s', es')) : Rings (es ++ es') s' ∧ Flying (es ++ es') s' := by
  cases a with
  | call t r =>
    obtain ⟨hpc, rfl, rfl⟩ := step_call hs
    rw [append_nil]
    have hcalm : Calm es s t s.mem s.status (.enter r) := .goto hpc rfl trivial rfl rfl
    exact h.turn hf hcalm s.lock (update s.data r.b r.data)
  | interrupt t =>
    obtain ⟨hpc, rfl, rfl⟩ := step_interrupt hs
    rw [append_nil]
    have hcalm : Calm es s t s.mem s.status .intrEnter := .goto hpc rfl trivial rfl rfl
    exact h.turn hf hcalm s.lock s.data
  | run t => exact h.run hd hf (turn_of_run hd h hf (step_run hs))
  | take =>
    obtain ⟨hne, rfl, rfl⟩ := step_take hs
    rw [append_nil]
    exact h.take hd hf hne rfl
  | move j =>
    obtain ⟨k, d, hx, hcase⟩ := step_move hs
    obtain ⟨t, r, c, -, -, hfollow⟩ := hf.follow hd (mem_flight_of_pending hx)
    obtain ⟨hno, -⟩ | ⟨w, sector, b, i, -, rfl, rfl⟩ := hcase
    · rw [hfollow] at hno
      cases hno
    · have h₁ : Rings es (s.transfer w sector b).1 ∧ Flying es (s.transfer w sector b).1 := by
        rw [transfer_frame]
        exact ⟨{ h with }, { hf with }⟩
      have hx' : (s.transfer w sector b).1.pending[j]? = some ⟨k, d, .taken⟩ := by
        rw [transfer_frame]
        exact hx
      obtain ⟨h₂, hf₂⟩ := h₁.1.advance h₁.2 hx' .moved nofun
      obtain ⟨h1, h2, h3⟩ := snoc_event es (.complete k (s.transfer w sector b).2)
      simp only [append_nil] at h1 h2 h3
      exact h₂.quiet hf₂ h1 h2 h3
  | status j =>
    obtain ⟨rfl, k, d, hx, hcase⟩ := step_status hs
    obtain ⟨t, r, c, -, -, hfollow⟩ := hf.follow hd (mem_flight_of_pending hx)
    obtain ⟨hno, -⟩ | ⟨w, sector, b, i, hi, rfl⟩ := hcase
    · rw [hfollow] at hno
      cases hno
    · obtain ⟨h₁, hf₁⟩ := h.zeroStatus hf i
      rw [append_nil]
      refine h₁.advance hf₁ hx .ready fun _ => ?_
      rw [hfollow] at hi
      cases hi
      exact update_self ..
  | post j =>
    obtain ⟨k, d, hx, hp, rfl, rfl⟩ := step_post hs
    rw [append_nil]
    exact h.post hd hf hx hp rfl
  | bump =>
    obtain ⟨k, d, hp, rfl, rfl⟩ := step_bump hs
    exact h.bump hf hp

end Xv6.Virtio
