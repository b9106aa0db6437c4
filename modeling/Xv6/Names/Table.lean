import Xv6.Names.Inv

/-!
# Operations on the inode table

`iget`, `idup`, `ilock`, `iunlock` and `iput` keep the invariant: what each does to the
ghost value of the process that performs it.
-/

namespace Xv6.Names

open Function Multiset
open Blocks

variable {strict : Bool} {n i d : Nat} {g : Pid → Loc} {s : Fs} {p q : Pid} {l l' : Loc} {c : Inode}

/-- Panics that the invariant does not rule out. -/
def Other (e : Panic) : Prop := e ≠ .ilockNoType ∧ e ≠ .unlinkNlink

/-- Safe code of process `p`, for the invariant of the name tree. -/
abbrev Safe {α : Type} (strict : Bool) (n : Nat) (p : Pid) (m : Code α) (l : Loc)
    (Q : α → Loc → Prop) : Prop :=
  (kernel n).Safe (Inv strict n) (Allowed strict) Other p m l Q

/-! ## References -/

/-- What a process outside the special phases knows of an inode, it knows by the lock. -/
theorem LocOk.locked (h : LocOk strict g s p) (hph : (g p).phase = .none) (hk : (g p).known i = some c) :
    s.inode i = c ∧ c.type ≠ .free ∧ (s.itable i).lock = some p ∧ (s.itable i).valid = true ∧ i ∈ (g p).refs := by
  obtain ⟨e, ht, hl⟩ := h.known i c hk
  exact ⟨e, ht, hl.resolve_left (by rw [hph]; nofun)⟩

/-- Taking a reference. -/
theorem Inv.take (h : Inv strict n g s) {e : Entry} (href : e.ref = (s.itable i).ref + 1)
    (hlock : e.lock = (s.itable i).lock) (hvalid : 0 < (s.itable i).ref → e.valid = (s.itable i).valid)
    (ht : (s.inode i).type ≠ .free) (hclaim : ∀ q, q ≠ p → ¬(g q).phase.Claims i)
    (hph : ∀ j, (g p).phase ≠ .freeing j) : Inv strict n (update g p ((g p).take i)) (s.setEntry i e) := by
  have hl := h.loc p
  refine h.table rfl ?_ (fun j hj => ?_) (fun q _ hq => ?_) (fun q hq j hc => ?_)
    (LocOk.self (fun j c hk => ?_) (fun j hj => ?_) (fun j hj => ?_) ?_) fun hs => ?_
  · simp only [Loc.held, Loc.take_refs, Loc.take_phase, count_cons_self]
    omega
  · simp only [Loc.held, Loc.take_refs, Loc.take_phase, count_cons_of_ne hj]
  · exact ⟨hlock.trans hq, fun hv hr => (hvalid (h.ref_pos hr)).trans hv⟩
  · obtain ⟨hr, hk⟩ := h.claims_iff hq hc
    refine ⟨fun hm => ?_, hk⟩
    rcases mem_cons.1 hm with rfl | hm
    · exact hclaim q hq hc
    · exact hr hm
  · obtain ⟨ec, htc, hlk⟩ := hl.known j c hk
    refine ⟨ec, htc, hlk.imp_right fun ⟨h1, h2, h3⟩ => ?_⟩
    by_cases ej : j = i
    · subst ej
      rw [Fs.setEntry_self]
      exact ⟨hlock.trans h1, (hvalid (h.ref_pos h3)).trans h2, mem_cons_of_mem h3⟩
    · rw [Fs.setEntry_of_ne _ _ ej]
      exact ⟨h1, h2, mem_cons_of_mem h3⟩
  · rcases mem_cons.1 hj with rfl | hj
    · exact ht
    · exact hl.ref j hj
  · obtain ⟨h1, h2⟩ := hl.pend j hj
    exact ⟨mem_cons_of_mem h1, h2⟩
  · show PhaseOk _ _ _ _ (g p).phase
    have hp := hl.phase
    cases hc : (g p).phase with
    | none => trivial
    | freeing j => exact absurd hc (hph j)
    | fresh j =>
      rw [hc] at hp
      simp only [PhaseOk, update_self, alone_update] at hp ⊢
      exact hp
    | dropping j b =>
      rw [hc] at hp
      refine ⟨fun hb => ?_, hp.2⟩
      by_cases ej : j = i
      · subst ej
        rw [Fs.setEntry_self]
        exact hlock.trans (hp.1 hb)
      · rw [Fs.setEntry_of_ne _ _ ej]
        exact hp.1 hb
  · refine (h.kept hs).table (fun _ _ hf => hf) fun hr ht h0 => ?_
    exact (h.kept hs i hr ht h0).imp (fun ⟨h1, h2⟩ => ⟨by omega, (hvalid h1).trans h2⟩) (fresh_update fun hf => hf)

theorem Entry.get_ref (e : Entry) : e.get.ref = e.ref + 1 := by
  unfold Entry.get
  split
  · rfl
  · show 1 = e.ref + 1
    omega

theorem Entry.get_lock (e : Entry) : e.get.lock = e.lock := by
  unfold Entry.get
  split <;> rfl

theorem Entry.get_valid {e : Entry} (h : 0 < e.ref) : e.get.valid = e.valid := by
  rw [Entry.get, if_pos h]

variable {e : Dirent} {Q : Unit → Loc → Prop}

theorem safe_idup (hi : i ∈ l.refs) (hph : l.phase = .none) (hq : Q () (l.take i)) :
    Safe strict n p (perform (.idup i)) l Q := by
  refine .perform fun g s hg h _ _ => ⟨nofun, fun r s' hx => ?_⟩
  cases hx
  subst hg
  refine ⟨_, h.take rfl rfl (fun _ => rfl) ((h.loc p).ref i hi) (fun q hq' => ?_) ?_, hq⟩
  · exact h.not_claims (.inr hi) hq'
  · rw [hph]
    nofun

theorem safe_iget (hph : ∀ j, l.phase ≠ .freeing j)
    (hi : ∀ g s, g p = l → Inv strict n g s → (s.inode i).type ≠ .free ∧ ∀ q, q ≠ p → ¬(g q).phase.Claims i)
    (hq : Q () (l.take i)) : Safe strict n p (perform (.iget i)) l Q := by
  refine .perform fun g s hg h _ _ => ⟨nofun, fun r s' hx => ?_⟩
  cases hx
  obtain ⟨ht, hc⟩ := hi g s hg h
  subst hg
  exact ⟨_, h.take (Entry.get_ref _) (Entry.get_lock _) Entry.get_valid ht hc hph, hq⟩

theorem safe_iget_root (hph : l.phase = .none) (hq : Q () (l.take ROOTINO)) :
    Safe strict n p (perform (.iget ROOTINO)) l Q := by
  refine safe_iget (by rw [hph]; nofun) (fun g s hg h => ?_) hq
  have ht : (s.inode ROOTINO).type ≠ .free := by
    rw [h.disk.root]
    nofun
  exact ⟨ht, fun q hq => h.not_claims (p := p) (.inl ⟨ht, fun hr => absurd rfl hr⟩) hq⟩

/-- The reference that `ialloc` takes to its new inode. -/
theorem safe_iget_fresh (hph : l.phase = .fresh i) (hq : Q () (l.take i)) : Safe strict n p (perform (.iget i)) l Q := by
  refine safe_iget (by rw [hph]; nofun) (fun g s hg h => ?_) hq
  subst hg
  have hp := (h.loc p).phase
  rw [hph] at hp
  obtain ⟨c, hk⟩ := Option.ne_none_iff_exists'.1 hp.1
  obtain ⟨e, ht, -⟩ := (h.loc p).known i c hk
  refine ⟨by rw [e]; exact ht, fun q hq hc => ?_⟩
  exact hp.1 (h.claims_iff hq hc).2

theorem Disk.nm_pos (h : Disk n s) (hi : i ∈ (s.inode d).names) : 0 < nm n s i := by
  have hd : d ∈ Finset.range n := by
    refine Finset.mem_range.2 (h.bound d fun hf => ?_).2
    have he := h.ents d (by rw [hf]; nofun)
    rw [Inode.names, he] at hi
    cases hi
  exact lt_of_lt_of_le (List.count_pos_iff.2 hi)
    (Finset.single_le_sum (f := fun d => (s.inode d).names.count i) (fun _ _ => Nat.zero_le _) hd)

theorem mem_names {rest : List Dirent} {e₀ e₁ : Dirent} (hc : c.ents = e₀ :: e₁ :: rest) (he : e ∈ rest)
    (h0 : e.inum ≠ 0) : e.inum.toNat ∈ c.names := by
  rw [Inode.names, hc, List.mem_filter]
  refine ⟨List.mem_map_of_mem he, decide_eq_true fun hz => h0 ?_⟩
  exact BitVec.eq_of_toNat_eq hz

/-- An entry names the directory itself or an inode with a name. -/
theorem Disk.named_of_ent (h : Disk n s) (he : e ∈ (s.inode d).ents) (h0 : e.inum ≠ 0) :
    e.inum.toNat = d ∨ Named n s e.inum.toNat := by
  rcases h.shape d with hs | ⟨e₀, hs, hi, -⟩ | ⟨e₀, e₁, rest, hs, hi, -, -⟩ <;> rw [hs] at he
  · cases he
  · rw [List.mem_singleton.1 he]
    exact .inl hi
  · rcases List.mem_cons.1 he with rfl | he
    · exact .inl hi
    · right
      rcases List.mem_cons.1 he with rfl | he
      · have hp : (s.inode d).parent = some e.inum.toNat := by rw [Inode.parent, hs]; rfl
        obtain ⟨ht, hn⟩ := h.dotdot d _ hp
        exact ⟨by rw [ht]; nofun, hn⟩
      · have hm := mem_names hs he h0
        exact ⟨h.named d _ hm, fun _ => h.nm_pos hm⟩

/-- `iget` of the inode that an entry of a locked directory names. -/
theorem safe_iget_ent (hph : l.phase = .none) (hk : l.known d = some c) (he : e ∈ c.ents) (h0 : e.inum ≠ 0)
    (hq : Q () (l.take e.inum.toNat)) : Safe strict n p (perform (.iget e.inum.toNat)) l Q := by
  refine safe_iget (by rw [hph]; nofun) (fun g s hg h => ?_) hq
  subst hg
  obtain ⟨ec, ht, -, -, hr⟩ := (h.loc p).locked hph hk
  rw [← ec] at he ht
  rcases h.disk.named_of_ent he h0 with e | hn
  · rw [e]
    exact ⟨ht, fun q hq => h.not_claims (.inr hr) hq⟩
  · exact ⟨hn.1, fun q hq => h.not_claims (p := p) (.inl hn) hq⟩

/-! ## Locks -/

/-- `ilock` of an inode that the process has a reference to waits for the lock, and takes it. -/
theorem safe_ilock_of (hi : i ∈ l.refs) (hq : ∀ g s, g p = l → Inv strict n g s → (s.itable i).lock = none →
      ∃ l', Inv strict n (update g p l') (s.setEntry i { s.itable i with valid := true, lock := some p }) ∧ Q () l') :
    Safe strict n p (perform (.ilock i)) l Q := by
  refine .perform fun g s hg h _ _ => ?_
  have ht := (h.loc p).ref i (hg ▸ hi)
  have href : ¬(s.itable i).ref < 1 := Nat.not_lt.2 (h.ref_pos (hg ▸ hi))
  simp only [kernel, exec, if_neg href]
  split
  · exact ⟨nofun, nofun⟩
  · rename_i hfree
    rw [if_neg fun hc => ht hc.2]
    refine ⟨nofun, fun r s' hx => ?_⟩
    cases hx
    exact hq g s hg h (Decidable.not_not.1 hfree)

theorem safe_ilock (hi : i ∈ l.refs) (hph : l.phase = .none)
    (hq : ∀ c, l.known i = none → c.type ≠ .free → (c.type = .dir → l.pend i = 0) → Q () (l.lock i c)) :
    Safe strict n p (perform (.ilock i)) l Q := by
  refine safe_ilock_of hi fun g s hg h hfree => ?_
  subst hg
  have hl := h.loc p
  have ht := hl.ref i hi
  have hnone : (g p).known i = none := by
    by_contra hk
    obtain ⟨c, hc⟩ := Option.ne_none_iff_exists'.1 hk
    obtain ⟨-, -, hlk, -⟩ := hl.locked hph hc
    rw [hfree] at hlk
    cases hlk
  have hpend : (s.inode i).type = .dir → (g p).pend i = 0 := by
    intro hd
    by_contra hne
    have := (hl.pend i hne).2
    rw [if_pos hd] at this
    exact this hnone
  refine ⟨_, ?_, hq (s.inode i) hnone ht hpend⟩
  refine h.table rfl rfl (fun _ _ => rfl) (fun q _ hq => ?_) (fun q hq j hc => ?_)
    (LocOk.self (fun j c hk => ?_) hl.ref (fun j hj => ?_) ?_) fun hs => ?_
  · rw [hfree] at hq
    cases hq
  · obtain ⟨hr, hk⟩ := h.claims_iff hq hc
    have hj : j ≠ i := fun e => hr (e ▸ hi)
    exact ⟨hr, (update_of_ne hj ..).trans hk⟩
  · rw [Loc.lock_known] at hk
    by_cases ej : j = i
    · subst ej
      rw [update_self] at hk
      cases hk
      rw [Fs.setEntry_self]
      exact ⟨rfl, ht, .inr ⟨rfl, rfl, hi⟩⟩
    · rw [update_of_ne ej] at hk
      rw [Fs.setEntry_of_ne _ _ ej]
      exact hl.known j c hk
  · obtain ⟨h1, h2⟩ := hl.pend j hj
    refine ⟨h1, ?_⟩
    rw [Fs.setEntry_inode, Loc.lock_known]
    split
    · rw [if_pos ‹_›] at h2
      have hj : j ≠ i := fun e => h2 (e ▸ hnone)
      rw [update_of_ne hj]
      exact h2
    · rw [if_neg ‹_›] at h2
      exact h2
  · exact phaseOk_none hph
  · exact (h.kept hs).table (fun _ _ hf => hf) fun _ _ _ => .inl ⟨h.ref_pos hi, rfl⟩

/-- `ilock` of the new inode in `create`. -/
theorem safe_ilock_fresh (hi : i ∈ l.refs) (hph : l.phase = .fresh i) (hq : Q () (l.setPhase .none)) :
    Safe strict n p (perform (.ilock i)) l Q := by
  refine safe_ilock_of hi fun g s hg h hfree => ?_
  subst hg
  have hl := h.loc p
  refine ⟨_, ?_, hq⟩
  refine h.table rfl ?_ (fun j _ => ?_) (fun q _ hq => ?_) (fun q hq j hc => h.claims_iff hq hc)
    (LocOk.self (fun j c hk => ?_) hl.ref hl.pend (phaseOk_none rfl)) fun hs => ?_
  · rw [Loc.held, Loc.held, hph]
    rfl
  · rw [Loc.held, Loc.held, hph]
    rfl
  · rw [hfree] at hq
    cases hq
  · obtain ⟨ec, htc, hlk⟩ := hl.known j c hk
    refine ⟨ec, htc, .inr ?_⟩
    by_cases ej : j = i
    · subst ej
      rw [Fs.setEntry_self]
      exact ⟨rfl, rfl, hi⟩
    · rw [Fs.setEntry_of_ne _ _ ej]
      rcases hlk with hf | hlk
      · rw [hph] at hf
        injection hf with e
        exact absurd e.symm ej
      · exact hlk
  · refine (h.kept hs).table (fun j hj hf => ?_) fun _ _ _ => .inl ⟨h.ref_pos hi, rfl⟩
    rw [hph] at hf
    injection hf with e
    exact absurd e.symm hj

theorem safe_iunlock (hk : l.known i = some c) (hph : l.phase = .none) (hd : c.type = .dir → l.pend i = 0)
    (hq : Q () (l.unlock i)) : Safe strict n p (perform (.iunlock i)) l Q := by
  refine .perform fun g s hg h _ _ => ?_
  subst hg
  have hl := h.loc p
  obtain ⟨ec, -, hlk⟩ := hl.locked hph hk
  simp only [kernel, exec]
  split
  · exact ⟨fun e he => by cases he; exact ⟨nofun, nofun⟩, nofun⟩
  refine ⟨nofun, fun r s' hx => ?_⟩
  cases hx
  refine ⟨_, ?_, hq⟩
  refine h.table rfl rfl (fun _ _ => rfl) (fun q hq hq' => ?_) (fun q hq j hc => ?_)
    (LocOk.self (fun j c' hk' => ?_) hl.ref (fun j hj => ?_) (phaseOk_none hph)) fun hs => ?_
  · rw [hlk.1] at hq'
    exact absurd (Option.some.inj hq').symm hq
  · obtain ⟨hr, hk'⟩ := h.claims_iff hq hc
    have hj : j ≠ i := fun e => hr (e ▸ hlk.2.2)
    exact ⟨hr, (update_of_ne hj ..).trans hk'⟩
  · rw [Loc.unlock_known] at hk'
    have ej : j ≠ i := by
      rintro rfl
      rw [update_self] at hk'
      cases hk'
    rw [update_of_ne ej] at hk'
    rw [Fs.setEntry_of_ne _ _ ej]
    exact hl.known j c' hk'
  · obtain ⟨h1, h2⟩ := hl.pend j hj
    refine ⟨h1, ?_⟩
    rw [Fs.setEntry_inode, Loc.unlock_known]
    split
    · rename_i htj
      have ej : j ≠ i := by
        rintro rfl
        exact hj (hd (ec ▸ htj))
      rw [if_pos htj] at h2
      rw [update_of_ne ej]
      exact h2
    · rw [if_neg ‹_›] at h2
      exact h2
  · refine (h.kept hs).table (fun _ _ hf => hf) fun hr ht h0 => ?_
    exact (h.kept hs i hr ht h0).imp_right (fresh_update fun hf => hf)

theorem safe_read {Q : Inode → Loc → Prop} (hk : l.known i = some c) (hq : Q c l) :
    Safe strict n p (perform (.read i)) l Q := by
  refine .perform fun g s hg h _ _ => ⟨nofun, fun r s' hx => ?_⟩
  cases hx
  subst hg
  refine ⟨g p, ?_, ?_⟩
  · rw [update_eq_self]
    exact h
  · rw [((h.loc p).known i c hk).1]
    exact hq

theorem safe_fdalloc {Q : Bool → Loc → Prop} (hq : ∀ b, Q b l) : Safe strict n p (perform .fdalloc) l Q := by
  refine .perform fun g s hg h _ _ => ⟨nofun, fun r s' hx => ?_⟩
  cases hx
  subst hg
  refine ⟨g p, ?_, hq _⟩
  rw [update_eq_self]
  exact h

/-! ## `iput` -/

/-- The reference may be dropped: the process is done with the inode, or has another one. -/
def Loc.Droppable (l : Loc) (i : Nat) : Prop :=
  i ∈ l.refs ∧ ((l.known i = none ∧ l.pend i = 0) ∨ 2 ≤ l.refs.count i)

theorem Inv.iput_free (h : Inv strict n g s) (hd : (g p).Droppable i) (hph : (g p).phase = .none)
    (h1 : (s.itable i).ref = 1) (hv : (s.itable i).valid = true) (h0 : (s.inode i).nlink = 0)
    (hfree : (s.itable i).lock = none) : Inv strict n (update g p (((g p).lock i (s.inode i)).setPhase (.freeing i)))
      (s.setEntry i { s.itable i with lock := some p }) := by
  have hl := h.loc p
  obtain ⟨ha, hcount, -⟩ := h.alone_of_ref hd.1 h1
  have hnone : (g p).known i = none ∧ (g p).pend i = 0 := hd.2.resolve_right (by omega)
  refine h.table rfl ?_ (fun j _ => ?_) (fun q _ hq => ?_) (fun q hq j hc => ?_)
    (LocOk.self (fun j c hk => ?_) hl.ref (fun j hj => ?_) ?_) fun hs => ?_
  · rw [Loc.held, Loc.held, hph]
    rfl
  · rw [Loc.held, Loc.held, hph]
    rfl
  · rw [hfree] at hq
    cases hq
  · obtain ⟨hr, hk⟩ := h.claims_iff hq hc
    have hj : j ≠ i := fun e => hr (e ▸ hd.1)
    exact ⟨hr, (update_of_ne hj ..).trans hk⟩
  · rw [Loc.setPhase_known, Loc.lock_known] at hk
    by_cases ej : j = i
    · subst ej
      rw [update_self] at hk
      cases hk
      rw [Fs.setEntry_self]
      exact ⟨rfl, hl.ref j hd.1, .inr ⟨rfl, hv, hd.1⟩⟩
    · rw [update_of_ne ej] at hk
      rw [Fs.setEntry_of_ne _ _ ej]
      exact (hl.locked hph hk).imp_right (And.imp_right .inr)
  · obtain ⟨h1, h2⟩ := hl.pend j hj
    refine ⟨h1, ?_⟩
    have ej : j ≠ i := fun e => hj (e ▸ hnone.2)
    rw [Fs.setEntry_inode, Loc.setPhase_known, Loc.lock_known, update_of_ne ej]
    exact h2
  · show PhaseOk _ _ _ _ (.freeing i)
    simp only [PhaseOk, update_self, alone_update]
    refine ⟨?_, h0, hnone.2, hcount, ha⟩
    rw [Loc.setPhase_known, Loc.lock_known, update_self]
    nofun
  · refine (h.kept hs).table (fun j hj hf => ?_) fun _ _ _ => .inl ⟨?_, hv⟩
    · rw [hph] at hf
      cases hf
    · show 0 < (s.itable i).ref
      omega

theorem Inv.iput_drop (h : Inv strict n g s) (hd : (g p).Droppable i) (hph : (g p).phase = .none)
    (hnot : ¬((s.itable i).ref = 1 ∧ (s.itable i).valid = true ∧ (s.inode i).nlink = 0)) :
    Inv strict n (update g p ((g p).drop i)) (s.setEntry i { s.itable i with ref := (s.itable i).ref - 1 }) := by
  have hl := h.loc p
  have href := h.ref_pos hd.1
  have hcount := count_pos.2 hd.1
  -- the process keeps a reference to what it has locked or owes links to
  have hkeep : ∀ j, (g p).known j ≠ none ∨ (g p).pend j ≠ 0 → j ∈ (g p).refs → j ∈ (g p).refs.erase i := by
    intro j hj hr
    by_cases ej : j = i
    · subst ej
      rcases hd.2 with ⟨h1, h2⟩ | h2
      · exact absurd hj (by simp [h1, h2])
      · exact count_pos.1 (by rw [count_erase_self]; omega)
    · exact (mem_erase_of_ne ej).2 hr
  refine h.table rfl ?_ (fun j hj => ?_) (fun q _ hq => ⟨hq, fun hv _ => hv⟩) (fun q hq j hc => ?_)
    (LocOk.self (fun j c hk => ?_) (fun j hj => ?_) (fun j hj => ?_) (phaseOk_none hph)) fun hs => ?_
  · simp only [Loc.held, Loc.drop_refs, Loc.drop_phase, count_erase_self]
    omega
  · simp only [Loc.held, Loc.drop_refs, Loc.drop_phase, count_erase_of_ne hj]
  · obtain ⟨hr, hk⟩ := h.claims_iff hq hc
    exact ⟨fun hm => hr (mem_of_mem_erase hm), hk⟩
  · obtain ⟨ec, htc, hlk⟩ := hl.known j c hk
    refine ⟨ec, htc, hlk.imp_right fun ⟨h1, h2, h3⟩ => ?_⟩
    have hm := hkeep j (.inl (by rw [show (g p).known j = some c from hk]; nofun)) h3
    by_cases ej : j = i
    · subst ej
      rw [Fs.setEntry_self]
      exact ⟨h1, h2, hm⟩
    · rw [Fs.setEntry_of_ne _ _ ej]
      exact ⟨h1, h2, hm⟩
  · exact hl.ref j (mem_of_mem_erase hj)
  · obtain ⟨h1, h2⟩ := hl.pend j hj
    exact ⟨hkeep j (.inr hj) h1, h2⟩
  · refine (h.kept hs).table (fun _ _ hf => hf) fun hr ht h0 => ?_
    rcases h.kept hs i hr ht h0 with ⟨-, hv⟩ | hf
    · left
      refine ⟨?_, hv⟩
      by_contra hz
      have h1 : (s.itable i).ref = 1 := by
        show (s.itable i).ref = 1
        have : ¬0 < (s.itable i).ref - 1 := hz
        omega
      -- the last reference, of an inode without a name: it has no links either
      obtain ⟨ha, hc1, -⟩ := h.alone_of_ref hd.1 h1
      have hp0 : (g p).pend i = 0 := (hd.2.resolve_right (by omega)).2
      have hlinks := h.links_of ht fun q hq => h.pend_of_alone ha hq
      rw [h.disk.links_eq_zero hr h0, hp0] at hlinks
      exact hnot ⟨h1, hv, BitVec.eq_of_toInt_eq hlinks⟩
    · exact .inr (fresh_update (fun hf => hf) hf)

theorem safe_iput_op {Q : Bool → Loc → Prop} (hd : l.Droppable i) (hph : l.phase = .none) (hfalse : Q false (l.drop i))
    (htrue : ∀ c, l.known i = none → l.pend i = 0 → c.nlink = 0 → Q true ((l.lock i c).setPhase (.freeing i))) :
    Safe strict n p (perform (.iput i)) l Q := by
  refine .perform fun g s hg h _ _ => ?_
  subst hg
  simp only [kernel, exec]
  split
  · rename_i hc
    split
    · exact ⟨nofun, nofun⟩
    · rename_i hfree
      refine ⟨nofun, fun r s' hx => ?_⟩
      cases hx
      obtain ⟨-, hcount, -⟩ := h.alone_of_ref hd.1 hc.1
      obtain ⟨hk, hp⟩ := hd.2.resolve_right (by omega)
      exact ⟨_, h.iput_free hd hph hc.1 hc.2.1 hc.2.2 (Decidable.not_not.1 hfree), htrue _ hk hp hc.2.2⟩
  · refine ⟨nofun, fun r s' hx => ?_⟩
    cases hx
    exact ⟨_, h.iput_drop hd hph ‹_›, hfalse⟩

theorem safe_releasesleep (hk : l.known i = none) (hph : l.phase = .dropping i true)
    (hq : Q () (l.setPhase (.dropping i false))) : Safe strict n p (perform (.releasesleep i)) l Q := by
  refine .perform fun g s hg h _ _ => ⟨nofun, fun r s' hx => ?_⟩
  cases hx
  subst hg
  have hl := h.loc p
  have hp := hl.phase
  rw [hph] at hp
  refine ⟨_, ?_, hq⟩
  refine h.table rfl ?_ (fun j _ => ?_) (fun q hq hq' => ?_) (fun q hq j hc => h.claims_iff hq hc)
    (LocOk.self (fun j c hk' => ?_) hl.ref hl.pend ⟨nofun, hp.2⟩) fun hs => ?_
  · rw [Loc.held, Loc.held, hph]
    rfl
  · rw [Loc.held, Loc.held, hph]
    rfl
  · rw [hp.1 rfl] at hq'
    exact absurd (Option.some.inj hq').symm hq
  · obtain ⟨ec, htc, hlk⟩ := hl.known j c hk'
    have ej : j ≠ i := by
      rintro rfl
      rw [show (g p).known j = some c from hk'] at hk
      cases hk
    rw [Fs.setEntry_of_ne _ _ ej]
    exact ⟨ec, htc, .inr (hlk.resolve_left (by rw [hph]; nofun))⟩
  · refine (h.kept hs).table (fun j _ hf => ?_) fun hr ht h0 => ?_
    · rw [hph] at hf
      cases hf
    · refine (h.kept hs i hr ht h0).imp_right (fresh_update fun hf => ?_)
      rw [hph] at hf
      cases hf

theorem safe_unref (hph : l.phase = .dropping i false) (hq : Q () (l.setPhase .none)) :
    Safe strict n p (perform (.unref i)) l Q := by
  refine .perform fun g s hg h _ _ => ⟨nofun, fun r s' hx => ?_⟩
  cases hx
  subst hg
  have hl := h.loc p
  have hp := hl.phase
  rw [hph] at hp
  refine ⟨_, ?_, hq⟩
  have hpos : 0 < (s.itable i).ref := by
    have hle := h.held_le p i
    rw [Loc.held, hph, Phase.drops_self] at hle
    omega
  refine h.table rfl ?_ (fun j hj => ?_) (fun q _ hq' => ⟨hq', fun hv _ => hv⟩)
    (fun q hq j hc => h.claims_iff hq hc)
    (LocOk.self (fun j c hk => ?_) hl.ref hl.pend (phaseOk_none rfl)) fun hs => ?_
  · rw [Loc.held, Loc.held, hph, Phase.drops_self, Loc.setPhase_phase, Phase.drops_none, Loc.setPhase_refs]
    show (s.itable i).ref - 1 + _ = _
    omega
  · rw [Loc.held, Loc.held, hph, Phase.drops_of_ne _ hj, Loc.setPhase_phase, Phase.drops_none, Loc.setPhase_refs]
  · obtain ⟨ec, htc, hlk⟩ := hl.known j c hk
    refine ⟨ec, htc, .inr ?_⟩
    have hlk := hlk.resolve_left (by rw [hph]; nofun)
    by_cases ej : j = i
    · subst ej
      rw [Fs.setEntry_self]
      exact hlk
    · rw [Fs.setEntry_of_ne _ _ ej]
      exact hlk
  · refine (h.kept hs).table (fun j _ hf => ?_) fun hr ht h0 => absurd (hp.2 hs) ht
    rw [hph] at hf
    cases hf

end Xv6.Names
