import Xv6.Virtio.Rings

/-!
# Requests are completed once, and for the right buffer

`History` relates what has happened to the requests: the device has performed each as it was
submitted, at most once, before it posted it, and a call returns only after its own request was
posted and credited to its buffer. `requests_safe` puts the invariants together.
-/

namespace Xv6.Virtio

open Function List

variable {n : Nat} {B D : Type} {s s' : State n B D} {t : Fin n} {es es' : List (Event B D)}

/-- What the device has done, by the numbers of the requests. -/
def completes (es : List (Event B D)) : List (Nat × Transfer B D) :=
  es.filterMap fun | .complete k x => some (k, x) | _ => none

/-- The requests whose calls have returned. -/
def rets (es : List (Event B D)) : List Nat := es.filterMap fun | .ret k => some k | _ => none

theorem snoc_call (es : List (Event B D)) (e : Event B D) :
    (completes (es ++ [e]) = completes es ++ match e with | .complete k x => [(k, x)] | _ => []) ∧
    rets (es ++ [e]) = rets es ++ match e with | .ret k => [k] | _ => [] := by
  simp only [completes, rets, filterMap_append]
  cases e <;> exact ⟨rfl, rfl⟩

/-- The device has done what the request asks for. -/
structure Performs (x : Transfer B D) (r : Request B D) : Prop where
  write : x.write = r.write
  sector : x.sector = r.sector
  b : x.b = r.b
  value : r.write = true → x.value = r.data

/-- The numbers of the requests that the device has performed. -/
def completed (es : List (Event B D)) : List Nat := (completes es).map Prod.fst

/-- The numbers of the requests that have been credited to their buffers. -/
def credited (es : List (Event B D)) : List Nat := (served es).map Prod.fst

structure History (es : List (Event B D)) (s : State n B D) : Prop where
  taken : ∀ e ∈ s.pending, e.serial < s.seen
  done : ∀ x ∈ completes es, (x.1 < s.seen ∧ ∀ e ∈ s.pending, e.serial = x.1 → e.stage ≠ .taken) ∧
    ∃ r c, (submits es)[x.1]? = some (r, c) ∧ Performs x.2 r
  once : (completed es).Nodup
  moved : ∀ e ∈ s.pending, e.stage ≠ .taken → e.serial ∈ completed es
  posted : ∀ x ∈ s.posting.toList ++ posts es, x.1 ∈ completed es
  credit : ∀ (i d : Nat) (b : B), (credits es)[i]? = some (d, b) →
    ∃ (k : Nat) (r : Request B D) (c : Chain), (posts es)[i]? = some (k, d) ∧ (submits es)[k]? = some (r, c) ∧
      c.d0 = d ∧ r.b = b
  numbered : ∀ t r c k, (s.pc t).call = some (r, some (c, k)) → (submits es)[k]? = some (r, c) ∧ k ∉ rets es
  settled : ∀ t r c k, (s.pc t).call = some (r, some (c, k)) → (s.pc t).past = true ∨ s.mem.disk r.b = false →
    k ∈ credited es
  returned : ∀ k ∈ rets es, k ∈ credited es
  returnedOnce : (rets es).Nodup
  fresh : ∀ t r, (s.pc t).call = some (r, none) → s.data r.b = r.data
  data : ∀ t r c k, (s.pc t).call = some (r, some (c, k)) →
    (k ∉ completed es → s.data r.b = r.data) ∧ ∀ x, (k, x) ∈ completes es → s.data r.b = x.value

theorem completed_congr (h : completes es' = completes es) : completed es' = completed es :=
  congrArg (map Prod.fst) h

theorem credited_congr (hp : posts es' = posts es) (hc : credits es' = credits es) : credited es' = credited es := by
  rw [credited, credited, served, served, hp, hc]

/-! ## Places -/

variable {pc : Pc B D} {r : Request B D} {c : Chain} {k j d : Nat}

theorem Pc.buf_of_call {x : Option (Chain × Nat)} (h : pc.call = some (r, x)) : pc.buf = some r.b := by
  induction pc with
  | freeDesc d i next ih => exact ih h
  | _ => first | cases h; rfl | cases h

theorem Pc.waiting_or_past (h : pc.call = some (r, some (c, k))) : pc.waiting = some (r, c, k) ∨ pc.past = true := by
  cases pc <;> first | exact .inr rfl | cases h; exact .inl rfl | cases h

theorem Pc.call_of_waiting (h : pc.waiting = some (r, c, k)) : pc.call = some (r, some (c, k)) := by
  cases pc <;> cases h <;> rfl

variable [DecidableEq B]

omit [DecidableEq B] in
theorem boot_history (data : B → D) (image : BitVec 64 → D) : History [] (boot data image : State n B D) :=
  ⟨nofun, nofun, nodup_nil, nofun, nofun, nofun, nofun, nofun, nofun, nodup_nil, nofun, nofun⟩

/-! ## Steps of the threads -/

section Threads

variable (h : History es s)
include h

omit [DecidableEq B] in
/-- A thread stays in its call, with no event. -/
theorem History.turn (hpc : s'.pc = update s.pc t pc) (hseen : s'.seen = s.seen) (hpending : s'.pending = s.pending)
    (hposting : s'.posting = s.posting) (hdata : s'.data = s.data) (hcall : pc.call = (s.pc t).call)
    (hpast : ∀ r x, pc.call = some (r, some x) → pc.past = true → (s.pc t).past = true ∨ s.mem.disk r.b = false)
    (hdisk : ∀ t' r c k, (s.pc t').waiting = some (r, c, k) → s'.mem.disk r.b = s.mem.disk r.b) : History es s' := by
  have hsame : ∀ t', (s'.pc t').call = (s.pc t').call := by
    rw [hpc]
    exact (forall_update_iff s.pc fun t' pc => pc.call = (s.pc t').call).2 ⟨hcall, fun _ _ => rfl⟩
  refine ⟨?_, ?_, h.once, ?_, ?_, h.credit, fun t' r c k hc => h.numbered t' r c k (hsame t' ▸ hc), fun t' r c k hc hd => ?_,
    h.returned, h.returnedOnce, fun t' r hc => ?_, fun t' r c k hc => ?_⟩
  · rw [hpending, hseen]
    exact h.taken
  · rw [hpending, hseen]
    exact h.done
  · rw [hpending]
    exact h.moved
  · rw [hposting]
    exact h.posted
  · refine h.settled t' r c k (hsame t' ▸ hc) ?_
    rcases hd with hd | hd
    · by_cases e : t' = t
      · subst e
        rw [hpc, update_self] at hc hd
        exact hpast r _ hc hd
      · rw [hpc, update_of_ne e] at hd
        exact .inl hd
    · rw [hsame t'] at hc
      rcases Pc.waiting_or_past hc with hw | hp
      · exact .inr ((hdisk t' r c k hw).symm.trans hd)
      · exact .inl hp
  · rw [hdata]
    exact h.fresh t' r (hsame t' ▸ hc)
  · rw [hdata]
    exact h.data t' r c k (hsame t' ▸ hc)

theorem History.submit (hd : Driver s) (hr : Rings es s) (hf : Flying es s) (hpc : s.pc t = .submit r c) :
    History (es ++ [.submit r c]) (s.bumpAvail.goto t (.wait r c s.submitted)) := by
  have hok := hd.ok t
  rw [hpc] at hok
  obtain ⟨hsub, hpost, hcred⟩ := snoc_event es (.submit r c)
  obtain ⟨hcomp, hret⟩ := snoc_call es (.submit r c)
  simp only [append_nil] at hsub hpost hcred hcomp hret
  have hserved := credited_congr hpost hcred
  have hdone := completed_congr hcomp
  have hold : ∀ {k : Nat} {y : Request B D × Chain}, (submits es)[k]? = some y →
      (submits (es ++ [.submit r c]))[k]? = some y := fun hk => by
    rw [hsub, getElem?_append_left (List.getElem?_eq_some_iff.1 hk).1, hk]
  have hnew : s.submitted ∉ completed es := fun hm => by
    obtain ⟨x, hx, e⟩ := mem_map.1 hm
    have := (h.done x hx).1.1
    have := hr.seen
    have := hr.submitted
    omega
  refine ⟨h.taken, fun x hx => ?_, hdone ▸ h.once, hdone ▸ h.moved, ?_, fun i d b hi => ?_, fun t' r' c' k hc => ?_,
    fun t' r' c' k hc hs => ?_, ?_, hret ▸ h.returnedOnce, fun t' r' hc => ?_, fun t' r' c' k hc => ?_⟩
  · rw [hcomp] at hx
    obtain ⟨h1, r', c', hk, hp⟩ := h.done x hx
    exact ⟨h1, r', c', hold hk, hp⟩
  · rw [hdone, hpost]
    exact h.posted
  · rw [hcred] at hi
    obtain ⟨k, r', c', h1, h2, h3⟩ := h.credit i d b hi
    exact ⟨k, r', c', hpost ▸ h1, hold h2, h3⟩
  · rw [hret]
    by_cases e : t' = t
    · rw [e, s.bumpAvail.goto_self] at hc
      cases hc
      refine ⟨?_, fun hm => ?_⟩
      · rw [hsub, hr.submitted, getElem?_concat_length]
      · obtain ⟨x, hx, e⟩ := mem_map.1 (h.returned _ hm)
        have := hf.below x (mem_append_left _ hx)
        have := hr.submitted
        omega
    · rw [s.bumpAvail.goto_ne e] at hc
      obtain ⟨h1, h2⟩ := h.numbered t' r' c' k hc
      exact ⟨hold h1, h2⟩
  · rw [hserved]
    by_cases e : t' = t
    · rw [e, s.bumpAvail.goto_self] at hc hs
      cases hc
      rcases hs with hs | hs
      · cases hs
      · have hs : s.mem.disk r.b = false := hs
        rw [hok.1.2] at hs
        cases hs
    · rw [s.bumpAvail.goto_ne e] at hc hs
      exact h.settled t' r' c' k hc hs
  · rw [hret, hserved]
    exact h.returned
  · by_cases e : t' = t
    · rw [e, s.bumpAvail.goto_self] at hc
      cases hc
    · rw [s.bumpAvail.goto_ne e] at hc
      exact h.fresh t' r' hc
  · rw [hdone, hcomp]
    by_cases e : t' = t
    · rw [e, s.bumpAvail.goto_self] at hc
      cases hc
      refine ⟨fun _ => h.fresh t r (by rw [hpc]; rfl), fun x hx => absurd (mem_map.2 ⟨_, hx, rfl⟩) hnew⟩
    · rw [s.bumpAvail.goto_ne e] at hc
      exact h.data t' r' c' k hc

theorem History.credited (hd : Driver s) (hf : Flying es s) {id : Nat} {b : B} (hpc : s.pc t = .intrBuf id)
    (hu : (unread es).head? = some (k, id)) (hb : s.mem.buf id = some b) :
    History (es ++ [.credit id b]) ((s.write (.disk b false)).goto t .intrNext) := by
  obtain ⟨t₀, r₀, c₀, hw₀, hc₀, -, hbuf⟩ := hf.buf_eq hd hu
  obtain rfl : r₀.b = b := Option.some.inj (hbuf.symm.trans hb)
  have hget : (posts es)[(credits es).length]? = some (k, id) := by rw [← head?_drop, ← unread, hu]
  obtain ⟨hsub, hpost, hcred⟩ := snoc_event es (.credit id r₀.b)
  obtain ⟨hcomp, hret⟩ := snoc_call es (.credit id r₀.b)
  simp only [append_nil] at hsub hpost hcred hcomp hret
  have hserved : Virtio.credited (es ++ [.credit id r₀.b]) = Virtio.credited es ++ [k] := by
    rw [Virtio.credited, Virtio.credited, served, served, hpost, hcred, length_append, length_singleton,
      take_add_one, hget, map_append]
    rfl
  have hdone := completed_congr hcomp
  have hcall : ∀ t', (((s.write (.disk r₀.b false)).goto t .intrNext).pc t').call = (s.pc t').call :=
    (forall_update_iff s.pc fun t' pc => pc.call = (s.pc t').call).2 ⟨by rw [hpc]; rfl, fun _ _ => rfl⟩
  refine ⟨h.taken, fun x hx => ?_, hdone ▸ h.once, hdone ▸ h.moved, ?_, fun i d b' hi => ?_, fun t' r' c' k' hc => ?_,
    fun t' r' c' k' hc hs => ?_, fun k' hk' => ?_, hret ▸ h.returnedOnce, fun t' r' hc => ?_, fun t' r' c' k' hc => ?_⟩
  · rw [hcomp] at hx
    rw [hsub]
    exact h.done x hx
  · rw [hdone, hpost]
    exact h.posted
  · rw [hcred] at hi
    rw [hpost, hsub]
    rcases getElem?_concat hi with hi | ⟨rfl, e⟩
    · exact h.credit i d b' hi
    · cases e
      exact ⟨k, r₀, c₀, hget, (hf.waits t₀ r₀ c₀ k hw₀).1, hc₀, rfl⟩
  · rw [hsub, hret]
    exact h.numbered t' r' c' k' (hcall t' ▸ hc)
  · rw [hserved, mem_append, mem_singleton]
    rw [hcall t'] at hc
    by_cases e : t' = t
    · rw [e, hpc] at hc
      cases hc
    · rw [State.goto_ne _ e] at hs
      by_cases eb : r'.b = r₀.b
      · obtain rfl := hd.callers t' t₀ r₀.b (eb ▸ Pc.buf_of_call hc) (Pc.buf_of_waiting hw₀)
        rw [Pc.call_of_waiting hw₀] at hc
        cases hc
        exact .inr rfl
      · refine .inl (h.settled t' r' c' k' hc (hs.imp_right fun hs => ?_))
        exact (update_of_ne eb ..).symm.trans hs
  · rw [hret] at hk'
    rw [hserved]
    exact mem_append_left _ (h.returned k' hk')
  · exact h.fresh t' r' (hcall t' ▸ hc)
  · rw [hdone, hcomp]
    exact h.data t' r' c' k' (hcall t' ▸ hc)

theorem History.leave (hd : Driver s) (hpc : s.pc t = .leave r c k) : History (es ++ [.ret k]) (s.release t .idle) := by
  obtain ⟨hsub, hpost, hcred⟩ := snoc_event es (.ret k)
  obtain ⟨hcomp, hret⟩ := snoc_call es (.ret k)
  simp only [append_nil] at hsub hpost hcred hcomp hret
  have hserved := credited_congr hpost hcred
  have hdone := completed_congr hcomp
  have hcallt : (s.pc t).call = some (r, some (c, k)) := by rw [hpc]; rfl
  obtain ⟨hk, hknew⟩ := h.numbered t r c k hcallt
  have hcall : ∀ {t' r' x}, ((s.release t .idle).pc t').call = some (r', x) → t' ≠ t ∧ (s.pc t').call = some (r', x) ∧
      (s.release t .idle).pc t' = s.pc t' := by
    intro t' r' x hc
    by_cases e : t' = t
    · rw [e, show (s.release t .idle).pc t = .idle from update_self ..] at hc
      cases hc
    · have he : (s.release t .idle).pc t' = s.pc t' := update_of_ne e ..
      exact ⟨e, he ▸ hc, he⟩
  refine ⟨h.taken, fun x hx => ?_, hdone ▸ h.once, hdone ▸ h.moved, ?_, ?_, fun t' r' c' k' hc => ?_,
    fun t' r' c' k' hc hs => ?_, fun k' hk' => ?_, ?_, fun t' r' hc => ?_, fun t' r' c' k' hc => ?_⟩
  · rw [hcomp] at hx
    rw [hsub]
    exact h.done x hx
  · rw [hdone, hpost]
    exact h.posted
  · rw [hcred, hpost, hsub]
    exact h.credit
  · obtain ⟨hne, hc, -⟩ := hcall hc
    obtain ⟨h1, h2⟩ := h.numbered t' r' c' k' hc
    rw [hsub, hret, mem_append, mem_singleton]
    refine ⟨h1, not_or.2 ⟨h2, ?_⟩⟩
    rintro rfl
    -- another call with this number would have the same buffer
    rw [hk] at h1
    cases h1
    exact hne (hd.callers t' t r.b (Pc.buf_of_call hc) (Pc.buf_of_call hcallt))
  · obtain ⟨-, hc, he⟩ := hcall hc
    rw [he] at hs
    rw [hserved]
    exact h.settled t' r' c' k' hc hs
  · rw [hserved]
    rw [hret, mem_append, mem_singleton] at hk'
    rcases hk' with hk' | rfl
    · exact h.returned k' hk'
    · exact h.settled t r c k' hcallt (.inl (by rw [hpc]; rfl))
  · rw [hret]
    refine nodup_append.2 ⟨h.returnedOnce, nodup_singleton k, fun a ha b hb e => hknew ?_⟩
    rw [← mem_singleton.1 hb, ← e]
    exact ha
  · exact h.fresh t' r' (hcall hc).2.1
  · rw [hdone, hcomp]
    exact h.data t' r' c' k' (hcall hc).2.1

theorem History.run (hd : Driver s) (hr : Rings es s) (hf : Flying es s) (ht : Turn es s t s' es') :
    History (es ++ es') s' := by
  cases ht with
  | calm hc hcall hpast =>
    rw [append_nil]
    exact h.turn rfl rfl rfl rfl rfl hcall hpast hc.disk
  | publish hpc =>
    rw [append_nil]
    exact h.turn rfl rfl rfl rfl rfl (by rw [hpc]; rfl) nofun fun _ _ _ _ _ => rfl
  | submit hpc => exact h.submit hd hr hf hpc
  | credit hpc hu hb => exact h.credited hd hf hpc hu hb
  | next hpc =>
    rw [append_nil]
    exact h.turn rfl rfl rfl rfl rfl (by rw [hpc]; rfl) nofun fun _ _ _ _ _ => rfl
  | leave hpc => exact h.leave hd hpc

/-- A call begins. -/
theorem History.begin (hdist : ∀ t', (s.pc t').buf ≠ some r.b) :
    History es (State.goto { s with data := update s.data r.b r.data } t (.enter r)) := by
  have hdata : ∀ t' r' x, (s.pc t').call = some (r', x) → update s.data r.b r.data r'.b = s.data r'.b := fun t' r' x hc =>
    update_of_ne (fun e : r'.b = r.b => hdist t' (e ▸ Pc.buf_of_call hc)) ..
  have hcall : ∀ {t' r' x}, ((State.goto { s with data := update s.data r.b r.data } t (.enter r)).pc t').call =
      some (r', some x) → t' ≠ t ∧ (s.pc t').call = some (r', some x) := by
    intro t' r' x hc
    by_cases e : t' = t
    · rw [e, State.goto_self] at hc
      cases hc
    · exact ⟨e, State.goto_ne _ e ▸ hc⟩
  refine { h with
    numbered := fun t' r' c k hc => h.numbered t' r' c k (hcall hc).2
    settled := fun t' r' c k hc hs => ?_
    fresh := fun t' r' hc => ?_
    data := fun t' r' c k hc => ?_ }
  · obtain ⟨e, hc⟩ := hcall hc
    rw [State.goto_ne _ e] at hs
    exact h.settled t' r' c k hc hs
  · by_cases e : t' = t
    · rw [e, State.goto_self] at hc
      cases hc
      exact update_self ..
    · rw [State.goto_ne _ e] at hc
      exact (hdata t' r' _ hc).trans (h.fresh t' r' hc)
  · obtain ⟨-, hc⟩ := hcall hc
    show (_ → update s.data r.b r.data r'.b = _) ∧ ∀ x, _ → update s.data r.b r.data r'.b = _
    rw [hdata t' r' _ hc]
    exact h.data t' r' c k hc

end Threads

/-! ## Steps of the device -/

section Device

variable (h : History es s)
include h

omit [DecidableEq B] in
theorem History.take (hs : s' = { s with
      seen := s.seen + 1
      pending := s.pending ++ [⟨s.seen, (s.mem.ring (s.seen % NUM)).toNat, .taken⟩] }) : History es s' := by
  subst hs
  refine { h with
    taken := fun e he => ?_
    done := fun x hx => ⟨⟨Nat.lt_succ_of_lt (h.done x hx).1.1, fun e he hk => ?_⟩, (h.done x hx).2⟩
    moved := fun e he hst => ?_ }
  · rcases mem_append.1 he with he | he
    · exact Nat.lt_succ_of_lt (h.taken e he)
    · rw [mem_singleton.1 he]
      exact Nat.lt_succ_self _
  · rcases mem_append.1 he with he | he
    · exact (h.done x hx).1.2 e he hk
    · rw [mem_singleton.1 he] at hk
      exact absurd (h.done x hx).1.1 (hk ▸ Nat.lt_irrefl _)
  · rcases mem_append.1 he with he | he
    · exact h.moved e he hst
    · rw [mem_singleton.1 he] at hst
      exact absurd rfl hst

omit [DecidableEq B] h in
theorem mem_advance {x e : Entry} {stage : Stage} (he : e ∈ (s.advance j x stage).pending) :
    e = { x with stage := stage } ∨ ∃ i, i ≠ j ∧ s.pending[i]? = some e := by
  obtain ⟨i, hi⟩ := getElem?_of_mem he
  rw [State.advance, getElem?_set] at hi
  split at hi
  · split at hi
    · exact .inl (Option.some.inj hi).symm
    · cases hi
  · rename_i hne
    exact .inr ⟨i, fun e => hne e.symm, hi⟩

omit [DecidableEq B] h in
/-- A request is in the device once. -/
theorem Flying.pending_inj (hf : Flying es s) {i : Nat} {x y : Entry} (hi : s.pending[i]? = some x)
    (hj : s.pending[j]? = some y) (e : x.serial = y.serial) : i = j := by
  have hnodup : (s.pending.map Entry.serial).Nodup := by
    have hsub : (s.pending.map fun x => (x.serial, x.head)).Sublist (flight es s) :=
      ((sublist_append_right ..).trans (sublist_append_left ..)).trans (sublist_append_left ..)
    have := hf.flight_nodup.sublist (hsub.map Prod.fst)
    rwa [map_map] at this
  have hi' : i < (s.pending.map Entry.serial).length := by
    rw [length_map]
    exact (List.getElem?_eq_some_iff.1 hi).1
  refine (getElem?_inj hi' hnodup).1 ?_
  rw [getElem?_map, getElem?_map, hi, hj, Option.map_some, Option.map_some, e]

omit [DecidableEq B] in
/-- The device writes the status of a request it has performed. -/
theorem History.ready {i : Nat} (hx : s.pending[j]? = some ⟨k, d, .moved⟩) :
    History es (State.advance { s with status := update s.status i 0 } j ⟨k, d, .moved⟩ .ready) := by
  have hold : ∀ e ∈ (State.advance { s with status := update s.status i 0 } j ⟨k, d, .moved⟩ .ready).pending,
      e = ⟨k, d, .ready⟩ ∨ e ∈ s.pending := fun e he => by
    rcases mem_advance he with rfl | ⟨i, -, hi⟩
    · exact .inl rfl
    · exact .inr (mem_of_getElem? hi)
  have hmem := mem_of_getElem? hx
  refine { h with
    taken := fun e he => ?_
    done := fun x hx => ⟨⟨(h.done x hx).1.1, fun e he hk => ?_⟩, (h.done x hx).2⟩
    moved := fun e he hst => ?_ }
  · rcases hold e he with rfl | he
    · exact h.taken ⟨k, d, .moved⟩ hmem
    · exact h.taken e he
  · rcases hold e he with rfl | he
    · exact nofun
    · exact (h.done x hx).1.2 e he hk
  · rcases hold e he with rfl | he
    · exact h.moved ⟨k, d, .moved⟩ hmem nofun
    · exact h.moved e he hst

omit [DecidableEq B] in
theorem History.post {j k d : Nat} (hx : s.pending[j]? = some ⟨k, d, .ready⟩) (hs : s' = { s with
      ring := update s.ring (s.idx.toNat % NUM) (BitVec.ofNat 32 d)
      pending := s.pending.eraseIdx j
      posting := some (k, d) }) : History es s' := by
  subst hs
  have hold : ∀ e ∈ s.pending.eraseIdx j, e ∈ s.pending := fun _ => mem_of_mem_eraseIdx
  refine { h with
    taken := fun e he => h.taken e (hold e he)
    done := fun x hx => ⟨⟨(h.done x hx).1.1, fun e he => (h.done x hx).1.2 e (hold e he)⟩, (h.done x hx).2⟩
    moved := fun e he => h.moved e (hold e he)
    posted := fun x hx' => ?_ }
  rcases mem_append.1 hx' with hx' | hx'
  · rw [mem_singleton.1 hx']
    exact h.moved _ (mem_of_getElem? hx) nofun
  · exact h.posted x (mem_append_right _ hx')

omit [DecidableEq B] in
theorem History.bump (hr : Rings es s) (hp : s.posting = some (k, d)) :
    History (es ++ [.post k d]) { s with idx := s.idx + 1, posting := none } := by
  obtain ⟨hsub, hpost, hcred⟩ := snoc_event es (.post k d)
  obtain ⟨hcomp, hret⟩ := snoc_call es (.post k d)
  simp only [append_nil] at hsub hpost hcred hcomp hret
  have hserved : Virtio.credited (es ++ [.post k d]) = Virtio.credited es := by
    rw [Virtio.credited, Virtio.credited, served, served, hpost, hcred, take_append_of_le_length hr.credited]
  have hdone := completed_congr hcomp
  refine ⟨h.taken, ?_, hdone ▸ h.once, hdone ▸ h.moved, fun x hx => ?_, fun i d' b hi => ?_, ?_, ?_, ?_, hret ▸ h.returnedOnce,
    h.fresh, ?_⟩
  · rw [hcomp, hsub]
    exact h.done
  · rw [hpost] at hx
    rw [hdone]
    refine h.posted x ?_
    rw [hp, mem_append]
    rcases mem_append.1 hx with hx | hx
    · cases hx
    · rcases mem_append.1 hx with hx | hx
      · exact .inr hx
      · exact .inl (by simpa using hx)
  · rw [hcred] at hi
    obtain ⟨k', r, c, h1, h2⟩ := h.credit i d' b hi
    refine ⟨k', r, c, ?_, hsub ▸ h2⟩
    rw [hpost, getElem?_append_left (List.getElem?_eq_some_iff.1 h1).1, h1]
  · rw [hsub, hret]
    exact h.numbered
  · rw [hserved]
    exact h.settled
  · rw [hret, hserved]
    exact h.returned
  · rw [hdone, hcomp]
    exact h.data

/-- The device performs a request: the data of the call that waits for it is moved. -/
theorem History.complete (hd : Driver s) (hf : Flying es s) (hx : s.pending[j]? = some ⟨k, d, .taken⟩)
    (hw : (s.pc t).waiting = some (r, c, k)) : History (es ++ [.complete k (s.transfer r.write r.sector r.b).2])
      ((s.transfer r.write r.sector r.b).1.advance j ⟨k, d, .taken⟩ .moved) := by
  obtain ⟨x, hxe⟩ : ∃ x, x = (s.transfer r.write r.sector r.b).2 := ⟨_, rfl⟩
  obtain ⟨s₁, hs₁⟩ : ∃ s₁, s₁ = (s.transfer r.write r.sector r.b).1 := ⟨_, rfl⟩
  have hframe : s₁ = { s with data := s₁.data, image := s₁.image } := by rw [hs₁, transfer_frame]
  rw [← hxe, ← hs₁]
  have hcallt := Pc.call_of_waiting hw
  have hmem := mem_of_getElem? hx
  have hknew : k ∉ completed es := fun hm => by
    obtain ⟨y, hy, e⟩ := mem_map.1 hm
    exact (h.done y hy).1.2 _ hmem e.symm rfl
  -- what is moved
  have hval : s₁.data r.b = x.value ∧ Performs x r ∧ ∀ b, b ≠ r.b → s₁.data b = s.data b := by
    rw [hs₁, hxe, State.transfer]
    split
    · rename_i hwr
      exact ⟨rfl, ⟨rfl, rfl, rfl, fun _ => (h.data t r c k hcallt).1 hknew⟩, fun _ _ => rfl⟩
    · rename_i hwr
      exact ⟨update_self .., ⟨rfl, rfl, rfl, fun hc => absurd hc hwr⟩, fun b hb => update_of_ne hb ..⟩
  obtain ⟨hvalue, hperf, hother⟩ := hval
  obtain ⟨hsub, hpost, hcred⟩ := snoc_event es (.complete k x)
  obtain ⟨hcomp, hret⟩ := snoc_call es (.complete k x)
  simp only [append_nil] at hsub hpost hcred hcomp hret
  have hserved := credited_congr hpost hcred
  have hdone : completed (es ++ [.complete k x]) = completed es ++ [k] := by
    rw [completed, completed, hcomp, map_append]
    rfl
  have hpend : ∀ e ∈ (s₁.advance j ⟨k, d, .taken⟩ .moved).pending,
      e = ⟨k, d, .moved⟩ ∨ e ∈ s.pending ∧ e.serial ≠ k := by
    intro e he
    rcases mem_advance he with rfl | ⟨i, hne, hi⟩
    · exact .inl rfl
    · have hi : s.pending[i]? = some e := by rw [hframe] at hi; exact hi
      exact .inr ⟨mem_of_getElem? hi, fun hk => hne (hf.pending_inj hi hx hk)⟩
  have hpc : (s₁.advance j ⟨k, d, .taken⟩ .moved).pc = s.pc := by rw [hframe]; rfl
  have hmemory : (s₁.advance j ⟨k, d, .taken⟩ .moved).mem = s.mem := by rw [hframe]; rfl
  have hseen : (s₁.advance j ⟨k, d, .taken⟩ .moved).seen = s.seen := by rw [hframe]; rfl
  have hposting : (s₁.advance j ⟨k, d, .taken⟩ .moved).posting = s.posting := by rw [hframe]; rfl
  refine ⟨fun e he => ?_, fun y hy => ?_, ?_, fun e he hst => ?_, fun y hy => ?_, ?_, ?_, ?_, ?_, hret ▸ h.returnedOnce,
    fun t' r' hc => ?_, fun t' r' c' k' hc => ?_⟩
  · rw [hseen]
    rcases hpend e he with rfl | ⟨he, -⟩
    · exact h.taken ⟨k, d, .taken⟩ hmem
    · exact h.taken e he
  · rw [hseen, hsub]
    rw [hcomp, mem_append, mem_singleton] at hy
    rcases hy with hy | rfl
    · refine ⟨⟨(h.done y hy).1.1, fun e he hk => ?_⟩, (h.done y hy).2⟩
      rcases hpend e he with rfl | ⟨he, -⟩
      · simp
      · exact (h.done y hy).1.2 e he hk
    · refine ⟨⟨h.taken _ hmem, fun e he hk => ?_⟩, r, c, (hf.waits t r c k hw).1, hperf⟩
      rcases hpend e he with rfl | ⟨-, hne⟩
      · simp
      · exact absurd hk hne
  · rw [hdone]
    refine nodup_append.2 ⟨h.once, nodup_singleton k, fun a ha b hb e => hknew ?_⟩
    rw [← mem_singleton.1 hb, ← e]
    exact ha
  · rw [hdone, mem_append, mem_singleton]
    rcases hpend e he with rfl | ⟨he, -⟩
    · exact .inr rfl
    · exact .inl (h.moved e he hst)
  · rw [hposting, hpost] at hy
    rw [hdone]
    exact mem_append_left _ (h.posted y hy)
  · rw [hcred, hpost, hsub]
    exact h.credit
  · rw [hpc, hsub, hret]
    exact h.numbered
  · rw [hpc, hmemory, hserved]
    exact h.settled
  · rw [hret, hserved]
    exact h.returned
  · rw [hpc] at hc
    have hne : r'.b ≠ r.b := fun e => by
      obtain rfl := hd.callers t' t r.b (e ▸ Pc.buf_of_call hc) (Pc.buf_of_waiting hw)
      rw [hcallt] at hc
      cases hc
    exact (hother _ hne).trans (h.fresh t' r' hc)
  · rw [hpc] at hc
    show (_ → s₁.data r'.b = _) ∧ ∀ x, _ → s₁.data r'.b = _
    rw [hdone, hcomp]
    by_cases e : t' = t
    · subst e
      rw [hcallt] at hc
      cases hc
      refine ⟨fun hn => absurd (mem_append_right _ (mem_singleton.2 rfl)) hn, fun y hy => ?_⟩
      rcases mem_append.1 hy with hy | hy
      · exact absurd (mem_map.2 ⟨_, hy, rfl⟩) hknew
      · cases mem_singleton.1 hy
        exact hvalue
    · have hne : r'.b ≠ r.b := fun e' => e (hd.callers t' t r.b (e' ▸ Pc.buf_of_call hc) (Pc.buf_of_waiting hw))
      rw [hother _ hne]
      refine ⟨fun hn => (h.data t' r' c' k' hc).1 fun hm => hn (mem_append_left _ hm), fun y hy => ?_⟩
      rcases mem_append.1 hy with hy | hy
      · exact (h.data t' r' c' k' hc).2 y hy
      · cases mem_singleton.1 hy
        -- the same number would be the same request
        have h1 := (h.numbered t' r' c' k hc).1
        rw [(hf.waits t r c k hw).1] at h1
        cases h1
        exact absurd rfl hne

end Device

theorem History.step (h : History es s) (hd : Driver s) (hr : Rings es s) (hf : Flying es s) {a : Act n B D}
    (hc : Distinct s a) (hs : Virtio.step s a = some (s', es')) : History (es ++ es') s' := by
  cases a with
  | call t r =>
    obtain ⟨-, rfl, rfl⟩ := step_call hs
    rw [append_nil]
    exact h.begin hc
  | interrupt t =>
    obtain ⟨hpc, rfl, rfl⟩ := step_interrupt hs
    rw [append_nil]
    exact h.turn rfl rfl rfl rfl rfl (by rw [hpc]; rfl) nofun fun _ _ _ _ _ => rfl
  | run t => exact h.run hd hr hf (turn_of_run hd hr hf (step_run hs))
  | take =>
    obtain ⟨-, rfl, rfl⟩ := step_take hs
    rw [append_nil]
    exact h.take rfl
  | move j =>
    obtain ⟨k, d, hx, hcase⟩ := step_move hs
    obtain ⟨t, r, c, hw, -, hfollow⟩ := hf.follow hd (mem_flight_of_pending hx)
    obtain ⟨hno, -⟩ | ⟨w, sector, b, i, hi, rfl, rfl⟩ := hcase
    · rw [hfollow] at hno
      cases hno
    · rw [hfollow] at hi
      cases hi
      exact h.complete hd hf hx hw
  | status j =>
    obtain ⟨rfl, k, d, hx, hcase⟩ := step_status hs
    obtain ⟨t, r, c, -, -, hfollow⟩ := hf.follow hd (mem_flight_of_pending hx)
    obtain ⟨hno, -⟩ | ⟨w, sector, b, i, hi, rfl⟩ := hcase
    · rw [hfollow] at hno
      cases hno
    · rw [append_nil]
      exact h.ready hx
  | post j =>
    obtain ⟨k, d, hx, -, rfl, rfl⟩ := step_post hs
    rw [append_nil]
    exact h.post hx rfl
  | bump =>
    obtain ⟨k, d, hp, rfl, rfl⟩ := step_bump hs
    exact h.bump hr hp

/-! ## The protocol -/

/-- What the driver and the device keep to. -/
structure Safe (es : List (Event B D)) (s : State n B D) : Prop where
  panicked : s.panicked = none
  /-- A descriptor is free, or one call has it. -/
  owner : ∀ d < NUM, (s.mem.free d = true ∧ ∀ t, d ∉ (s.pc t).owns) ∨
    (s.mem.free d = false ∧ ∃ t, d ∈ (s.pc t).owns ∧ ∀ t', d ∈ (s.pc t').owns → t' = t)
  /-- When no thread holds the lock, what a call has is the chain of its request, which it waits for. -/
  chain : s.lock = none → ∀ t d, d ∈ (s.pc t).owns → ∃ r c k, (s.pc t = .sleepBuf r c k ∧ (submits es)[k]? = some (r, c)) ∧
    d ∈ c.list ∧ c.list.Nodup ∧ Linked s.mem r c
  avail : (s.mem.idx = BitVec.ofNat 16 (submits es).length ∧ s.seen ≤ (submits es).length ∧
      (submits es).length ≤ s.seen + NUM) ∧
    ∀ k r c, s.seen ≤ k → (submits es)[k]? = some (r, c) → s.mem.ring (k % NUM) = BitVec.ofNat 16 c.d0
  used : (s.idx = BitVec.ofNat 16 (posts es).length ∧ (credits es).length ≤ (posts es).length ∧
      (posts es).length ≤ (credits es).length + NUM) ∧
    ∀ i k d, (credits es).length ≤ i → (posts es)[i]? = some (k, d) → s.ring (i % NUM) = BitVec.ofNat 32 d
  performed : (completed es).Nodup ∧ ∀ x ∈ completes es, ∃ r c, (submits es)[x.1]? = some (r, c) ∧ Performs x.2 r
  posted : ((posts es).map Prod.fst).Nodup ∧ ∀ x ∈ posts es, x.1 ∈ completed es
  /-- The `i`-th entry of the used ring is the `i`-th to be credited, to the buffer of its request. -/
  credit : ∀ (i d : Nat) (b : B), (credits es)[i]? = some (d, b) →
    ∃ (k : Nat) (r : Request B D) (c : Chain), (posts es)[i]? = some (k, d) ∧ (submits es)[k]? = some (r, c) ∧
      c.d0 = d ∧ r.b = b
  /-- When `virtio_disk_intr` finds nothing more in the used ring, all of it has been credited. -/
  drained : ∀ t, s.pc t = .intrLoop → s.mem.usedIdx = s.idx → (credits es).length = (posts es).length
  returned : (rets es).Nodup ∧ ∀ k ∈ rets es, k ∈ credited es
  /-- A call that is about to return. -/
  leaving : ∀ t r c k, s.pc t = .leave r c k → ((submits es)[k]? = some (r, c) ∧ k ∈ credited es) ∧
    (∀ d ∈ c.list, s.mem.free d = true) ∧ ∃ x, (k, x) ∈ completes es ∧ Performs x r ∧ s.data r.b = x.value

omit [DecidableEq B] in
/-- All that has been credited was posted. -/
theorem posts_eq (es : List (Event B D)) : posts es = served es ++ unread es := (take_append_drop ..).symm

/-- A thread that has descriptors and not the lock sleeps until its request is done. -/
theorem Driver.asleep (hd : Driver s) (hl : s.lock = none) (ho : d ∈ (s.pc t).owns) :
    ∃ r c k, s.pc t = .sleepBuf r c k := by
  have hno : (s.pc t).holds = false := by
    cases e : (s.pc t).holds with
    | false => rfl
    | true =>
      have := (hd.lock t).2 e
      rw [hl] at this
      cases this
  revert ho hno
  cases s.pc t with
  | sleepBuf r c k => exact fun _ _ => ⟨r, c, k, rfl⟩
  | idle | enter | sleepFree | intrEnter => exact fun ho _ => absurd ho not_mem_nil
  | _ => exact fun _ hno => by cases hno

theorem Safe.of_inv (hd : Driver s) (hr : Rings es s) (hf : Flying es s) (h : History es s) : Safe es s := by
  have hlen := hf.length_le hd
  rw [length_flight] at hlen
  refine ⟨hr.panicked, fun d hd' => ?_, fun hl t d ho => ?_, ⟨⟨hr.availIdx, hr.seen, by omega⟩, hr.avail⟩,
    ⟨⟨hr.idx, hr.credited, by omega⟩, hr.used⟩, ⟨h.once, fun x hx => (h.done x hx).2⟩,
    ⟨?_, fun x hx => h.posted x (mem_append_right _ hx)⟩, h.credit, fun t hpc he => ?_, ⟨h.returnedOnce, h.returned⟩,
    fun t r c k hpc => ?_⟩
  · cases e : s.mem.free d with
    | true =>
      refine .inl ⟨rfl, fun t ho => ?_⟩
      have := (hd.lt t d ho).2
      rw [e] at this
      cases this
    | false =>
      obtain ⟨t, ho⟩ := hd.all d hd' e
      exact .inr ⟨rfl, t, ho, fun t' ho' => hd.disj t' t d ho' ho⟩
  · obtain ⟨r, c, k, hpc⟩ := hd.asleep hl ho
    have hw : (s.pc t).waiting = some (r, c, k) := by rw [hpc]; rfl
    have hn := hd.nodup t
    rw [Pc.owns_of_waiting hw] at ho hn
    exact ⟨r, c, k, ⟨hpc, (hf.waits t r c k hw).1⟩, ho, hn, hd.linked hw⟩
  · rw [posts_eq, map_append]
    have hsub : (unread es).Sublist (flight es s) := sublist_append_right ..
    have := hf.nodup
    rw [map_append] at this
    exact this.sublist ((List.Sublist.refl _).append (hsub.map _))
  · have hhold : (s.pc t).holds = true := by rw [hpc]; rfl
    have hn := hd.no_intrNext ((hd.lock t).2 hhold) (by rw [hpc]; nofun)
    have hu := congrArg length (hr.unread_eq hd hf hn he)
    rw [length_unread, length_nil] at hu
    have := hr.credited
    omega
  · have hcall : (s.pc t).call = some (r, some (c, k)) := by rw [hpc]; rfl
    have hk := h.settled t r c k hcall (.inl (by rw [hpc]; rfl))
    have hsub := (h.numbered t r c k hcall).1
    have hfree : (s.pc t).Ok s.mem := hd.ok t
    rw [hpc] at hfree
    obtain ⟨y, hy, rfl⟩ := mem_map.1 hk
    have hpost : y ∈ posts es := posts_eq es ▸ mem_append_left _ hy
    obtain ⟨⟨k', x⟩, hx, rfl⟩ := mem_map.1 (h.posted y (mem_append_right _ hpost))
    obtain ⟨-, r', c', hsub', hperf⟩ := h.done _ hx
    rw [hsub] at hsub'
    cases hsub'
    exact ⟨⟨hsub, hk⟩, hfree, x, hx, hperf, (h.data t r c _ hcall).2 x hx⟩

/-- Any number of processes call `virtio_disk_rw`, while interrupts and the steps of the device come
at any time. -/
theorem requests_safe {data : B → D} {image : BitVec 64 → D} (h : Exec step Distinct (boot data image : State n B D) es s) :
    Safe es s := by
  have hinv : Driver s ∧ (Rings es s ∧ Flying es s) ∧ History es s :=
    h.invariant (I := fun es s => Driver s ∧ (Rings es s ∧ Flying es s) ∧ History es s)
      ⟨boot_driver data image, boot_rings data image, boot_history data image⟩
      fun ⟨hd, ⟨hr, hf⟩, hh⟩ hc hs => ⟨hd.step hc hs, hr.step hd hf hs, hh.step hd hr hf hc hs⟩
  exact .of_inv hinv.1 hinv.2.1.1 hinv.2.1.2 hinv.2.2

/-- Calls of `t` and `u`, with the second request completed first, and one interrupt for both, on `v`. -/
def twoCalls (t u v : Fin n) (a b : B) : List (Act n B Nat) :=
  [.call t ⟨a, 5, true, 70⟩, .call u ⟨b, 6, false, 0⟩] ++ List.replicate 27 (.run t) ++ List.replicate 27 (.run u) ++
    [.take, .take, .move 1, .status 1, .post 1, .bump, .move 0, .status 0, .post 0, .bump, .interrupt v] ++
    List.replicate 13 (.run v) ++ List.replicate 23 (.run u) ++ List.replicate 23 (.run t)

theorem requests_safe_two_calls : ∃ (es : List (Event (Fin 2) Nat)) (s : State 3 (Fin 2) Nat),
    Exec step Distinct (boot (fun _ => 0) fun i => i.toNat) es s ∧ Safe es s ∧
      (submits es).length = 2 ∧ completed es = [1, 0] ∧ rets es = [1, 0] ∧ s.image 10 = 70 ∧ s.data 1 = 12 := by
  obtain ⟨es, s, hx, hes⟩ : ∃ es s, Exec step Distinct (boot (fun _ => 0) fun i => i.toNat) es s ∧
      (submits es).length = 2 ∧ completed es = [1, 0] ∧ rets es = [1, 0] ∧ s.image 10 = 70 ∧ s.data 1 = 12 :=
    exists_exec (fun _ _ => of_decide_eq_true) (twoCalls (0 : Fin 3) 1 2 (0 : Fin 2) 1) (by decide +kernel)
  exact ⟨es, s, hx, requests_safe hx, hes⟩

end Xv6.Virtio
