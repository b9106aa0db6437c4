import Xv6.Vm.Own

/-!
# Elementary steps

What each elementary step of the allocator and of the page tables does to the
invariant and to what can be seen of memory.
-/

namespace Xv6.Vm

open Function List

variable {T : Multiset Nat} {H : Nat → ℤ} {s s' : Kmem} {U r P Q v : Nat}

/-! ## Pages -/

theorem Page.word_setWord (pg : Page) (i : Nat) (w : BitVec 64) : (pg.setWord i w).word = update pg.word i w := by
  funext j
  by_cases e : j = i
  · subst e
    rw [update_self]
    exact readLe_writeLe pg (8 * j) 8 w
  · rw [update_of_ne e]
    refine readLe_congr fun k hk hk' => ?_
    exact if_neg (by omega)

theorem Page.word_zero (i : Nat) : Page.word (fun _ => 0) i = 0 := readLe_zero (8 * i) 8

@[simp] theorem Kmem.mem_setPage (s : Kmem) (P : Nat) (pg : Page) : (s.setPage P pg).mem = update s.mem P pg := rfl

theorem Kmem.mem_setPage_of_ne (s : Kmem) (pg : Page) (h : Q ≠ P) : (s.setPage P pg).mem Q = s.mem Q :=
  update_of_ne h ..

theorem Kmem.words_setPage_self (s : Kmem) (P : Nat) (pg : Page) : (s.setPage P pg).words P = pg.word := by
  funext i
  rw [Kmem.words, Kmem.mem_setPage, update_self]

theorem Kmem.words_setPage_of_ne (s : Kmem) (pg : Page) (h : Q ≠ P) : (s.setPage P pg).words Q = s.words Q := by
  funext i
  rw [Kmem.words, s.mem_setPage_of_ne pg h, Kmem.words]

/-- Counts are kept by page number; pages have different ones. -/
theorem refCount_update (s : Kmem) (c : BitVec 16) (hP : P % PGSIZE = 0) (hQ : Q % PGSIZE = 0) :
    update s.refCount (P / PGSIZE) c (Q / PGSIZE) = if Q = P then c else s.refOf Q := by
  rw [update_apply]
  have hiff : Q / PGSIZE = P / PGSIZE ↔ Q = P := by
    constructor
    · intro e
      rw [← Nat.div_add_mod Q PGSIZE, ← Nat.div_add_mod P PGSIZE, e, hP, hQ]
    · rintro rfl
      rfl
  simp only [hiff]
  rfl

/-- A page that nothing but the kernel refers to, and only once. -/
structure Sole (U : Nat) (T : Multiset Nat) (H : Nat → ℤ) (s : Kmem) (P : Nat) : Prop where
  frame : s.Frame P
  held : H P = 1
  unused : total U T s P = 0

theorem uses_of_total (hr : r ∈ T) (h : total U T s P = 0) : s.uses U r P = 0 :=
  Nat.le_zero.1 ((uses_le_total U hr s P).trans h.le)

theorem notMem_of_total (hr : r ∈ T) (h : total U T s P = 0) : P ∉ s.nodes r := by
  intro hP
  have hone := Multiset.one_le_count_iff_mem.2 hP
  have hz := uses_of_total hr h
  rw [Kmem.uses] at hz
  omega

theorem ne_of_total (hr : r ∈ T) (hv : v < U) (hval : Pte.has (s.pte r v) PTE_V = true)
    (h : total U T s P = 0) : pte2pa (s.pte r v) ≠ P := by
  rintro rfl
  have hone := one_le_total hr hv hval
  omega

/-- A free page is referred to by nothing. -/
theorem Inv.total_free (h : Inv U T H s) (hP : s.refOf P = 0) : total U T s P = 0 := by
  rw [total]
  refine Multiset.sum_eq_zero fun n hn => ?_
  obtain ⟨r, hr, rfl⟩ := Multiset.mem_map.1 hn
  have hnode : P ∉ s.nodes r := by
    intro hmem
    have hone := h.node_ref hr hmem
    rw [hP] at hone
    cases hone
  have hleaf : hits U (s.pte r) P = 0 := by
    rw [hits]
    refine Finset.sum_eq_zero fun v hv => hit_of_ne fun hval e => ?_
    have hne := (h.leaf r hr v (Finset.mem_range.1 hv) hval).counted
    rw [e, hP] at hne
    exact hne rfl
  show s.uses U r P = 0
  rw [Kmem.uses, Multiset.count_eq_zero_of_notMem hnode, hleaf]

theorem Inv.held_free (h : Inv U T H s) (hf : s.Frame P) (hP : s.refOf P = 0) : H P = 0 := by
  have hc := h.count P hf
  rw [hP, h.total_free hP] at hc
  simpa using hc.symm

/-! ## The allocator -/

/-- The state after `kalloc` has taken the first free page. -/
def Kmem.taken (s : Kmem) (P : Nat) (rest : List Nat) : Kmem :=
  { s with
    freelist := rest
    mem := update s.mem P fun _ => 5
    refCount := update s.refCount (P / PGSIZE) 1 }

theorem Kmem.mem_taken_of_ne (s : Kmem) (rest : List Nat) (h : Q ≠ P) : (s.taken P rest).mem Q = s.mem Q :=
  update_of_ne h ..

section Take

variable {rest : List Nat} (h : Inv U T H s) (hf : s.freelist = P :: rest)
include h hf

theorem Inv.head_free : s.Frame P ∧ s.refOf P = 0 := (h.free P).1 (hf ▸ mem_cons_self)

theorem Inv.ne_head_of_ref (hQ : s.refOf Q ≠ 0) : Q ≠ P := by
  rintro rfl
  exact hQ (h.head_free hf).2

theorem Inv.refOf_taken (hQ : Q % PGSIZE = 0) : (s.taken P rest).refOf Q = if Q = P then 1 else s.refOf Q :=
  refCount_update s 1 (h.head_free hf).1.1 hQ

theorem Inv.kalloc_fixed : Fixed T s (s.taken P rest) := by
  intro r hr q hq
  have hone := h.node_ref hr hq
  exact s.mem_taken_of_ne rest (h.ne_head_of_ref hf (by rw [hone]; decide))

theorem Inv.kalloc : Inv U T (H + Pi.single P 1) (s.taken P rest) := by
  obtain ⟨hframe, href⟩ := h.head_free hf
  have hnd := h.nodup
  rw [hf, nodup_cons] at hnd
  have hHP := h.held_free hframe href
  refine h.same rfl h.wrapped (h.kalloc_fixed hf) hnd.2 (fun Q => ?_) (fun Q hQ => ?_) (fun Q hQ => ?_) (fun r hr Q hQ => ?_)
    fun r hr v hv hval => ?_
  · have hold : Q ∈ s.freelist ↔ Q = P ∨ Q ∈ rest := by rw [hf, mem_cons]
    constructor
    · intro hQ
      obtain ⟨hfr, hz⟩ := (h.free Q).1 (hold.2 (.inr hQ))
      rw [h.refOf_taken hf hfr.1, if_neg (by rintro rfl; exact hnd.1 hQ)]
      exact ⟨hfr, hz⟩
    · rintro ⟨hfr, hz⟩
      rw [h.refOf_taken hf hfr.1] at hz
      split at hz
      · cases hz
      · exact (hold.1 ((h.free Q).2 ⟨hfr, hz⟩)).resolve_left ‹_›
  · rw [h.refOf_taken hf hQ.1, Pi.add_apply, Pi.single_apply]
    split
    · rename_i e
      rw [e, href]
      simp
    · omega
  · by_cases e : Q = P
    · rwa [e]
    · rw [Pi.add_apply, Pi.single_eq_of_ne e, add_zero] at hQ
      exact h.held Q hQ
  · have hone := h.node_ref hr hQ
    have hne : Q ≠ P := h.ne_head_of_ref hf (by rw [hone]; decide)
    rw [Pi.add_apply, Pi.single_eq_of_ne hne, add_zero]
    exact (h.node r hr Q hQ).2.1
  · have hl := h.leaf r hr v hv hval
    rw [h.refOf_taken hf hl.frame.1, if_neg (h.ne_head_of_ref hf hl.counted)]
    exact ⟨hl.counted, hl.sole⟩

theorem Inv.kalloc_keeps : Keeps U T H s (s.taken P rest) := by
  obtain ⟨hframe, href⟩ := h.head_free hf
  refine ⟨rfl, id, fun r hr => Kmem.pte_congr (h.kalloc_fixed hf r hr), fun r hr v hv hval => ?_, fun Q hQ => ?_,
    fun Q hQ => s.mem_taken_of_ne rest ?_⟩
  · exact s.mem_taken_of_ne rest (h.ne_head_of_ref hf (h.leaf r hr v hv hval).counted)
  · refine s.mem_taken_of_ne rest ?_
    rintro rfl
    rw [h.held_free hframe href] at hQ
    omega
  · rintro rfl
    exact hQ hframe

theorem Inv.kalloc_sole : Sole U T (H + Pi.single P 1) (s.taken P rest) P := by
  obtain ⟨hframe, href⟩ := h.head_free hf
  refine ⟨hframe, ?_, ?_⟩
  · rw [Pi.add_apply, Pi.single_eq_same, h.held_free hframe href, zero_add]
  · exact (total_congr fun r hr => Kmem.uses_congr (h.kalloc_fixed hf r hr) P).trans (h.total_free href)

end Take

theorem Inv.ghost (h : Inv U T H s) (b : Bool) : Inv U T H { s with exhausted := b } :=
  h.same rfl h.wrapped (fun _ _ _ _ => rfl) h.nodup h.free (fun _ _ => rfl) h.held
    (fun r hr P hP => (h.node r hr P hP).2.1) fun r hr v hv hval =>
      ⟨(h.leaf r hr v hv hval).counted, (h.leaf r hr v hv hval).sole⟩

/-- What `kalloc` leads to: no page is left, or the kernel holds one more. -/
inductive Allocs (U : Nat) (T : Multiset Nat) (H : Nat → ℤ) (s : Kmem) : Option Nat → Kmem → Prop
  | none (s' : Kmem) (hex : s'.exhausted = true) (hfree : s.freelist = []) (hfree' : s'.freelist = [])
      (hinv : Inv U T H s') (hk : Keeps U T H s s') (hfix : Fixed T s s') : Allocs U T H s none s'
  | some (s' : Kmem) (P : Nat) (hfree : s.freelist = P :: s'.freelist) (hinv : Inv U T (H + Pi.single P 1) s')
      (hk : Keeps U T H s s') (hs : Sole U T (H + Pi.single P 1) s' P) (hP : H P = 0)
      (hother : ∀ Q, Q ≠ P → s'.mem Q = s.mem Q) (hex : s'.exhausted = s.exhausted) (hfix : Fixed T s s') :
      Allocs U T H s (some P) s'

variable {E : Panic → Prop} {kend : Nat}

theorem wp_kalloc (h : Inv U T H s) : WP kalloc E (Allocs U T H s) s := by
  unfold Vm.kalloc
  refine .bind (.get ?_)
  split
  · rename_i hf
    refine .bind (.set (.pure ?_))
    exact .none _ rfl hf hf (h.ghost true) ⟨rfl, fun _ => rfl, fun _ _ => rfl, fun _ _ _ _ _ => rfl, fun _ _ => rfl,
      fun _ _ => rfl⟩
      fun _ _ _ _ => rfl
  · rename_i P rest hf
    obtain ⟨hframe, href⟩ := h.head_free hf
    refine .bind (.set (.bind (.modify (.bind (.modify (.pure ?_))))))
    exact .some _ P hf (h.kalloc hf) (h.kalloc_keeps hf) (h.kalloc_sole hf) (h.held_free hframe href)
      (fun Q hQ => s.mem_taken_of_ne rest hQ) rfl (h.kalloc_fixed hf)

/-- The state after a reference has been dropped, the last one if `last` says so. -/
def Kmem.dropped (s : Kmem) (P : Nat) (last : Bool) : Kmem :=
  { s with
    refCount := update s.refCount (P / PGSIZE) (s.refCount (P / PGSIZE) - 1)
    wrapped := s.wrapped || s.refCount (P / PGSIZE) == 0
    mem := if last then update s.mem P fun _ => 1 else s.mem
    freelist := if last then P :: s.freelist else s.freelist }

theorem Kmem.mem_dropped (s : Kmem) (P : Nat) (last : Bool) (hQ : Q ≠ P ∨ last = false) :
    (s.dropped P last).mem Q = s.mem Q := by
  cases last with
  | false => rfl
  | true => exact update_of_ne (hQ.resolve_right (by decide)) ..

theorem toNat_sub_one {x : BitVec 16} (hx : 1 ≤ x.toNat) : (x - 1).toNat = x.toNat - 1 := by
  have hle : (1 : BitVec 16) ≤ x := by
    rw [BitVec.le_def]
    exact hx
  rw [BitVec.toNat_sub_of_le hle]
  rfl

/-- The reference that `kfree` drops is the last one. -/
def Kmem.last (s : Kmem) (P : Nat) : Bool := (s.refOf P - 1).toNat == 0

theorem Kmem.last_iff (s : Kmem) (h : 1 ≤ (s.refOf P).toNat) : s.last P = true ↔ (s.refOf P).toNat = 1 := by
  rw [Kmem.last, beq_iff_eq, toNat_sub_one h]
  omega

theorem kfree_eq (hf : s.Frame P) : kfree P s = .ok ((), s.dropped P (s.last P)) := by
  obtain ⟨halign, hlo, hhi⟩ := hf
  have hok : ¬(P % PGSIZE ≠ 0 ∨ P < s.kend ∨ P ≥ PHYSTOP) := by omega
  have hwp : WP (kfree P) (fun _ => False) (fun _ s' => s' = s.dropped P (s.last P)) s := by
    unfold kfree
    refine .bind (.get (.ite (fun hbad => absurd hbad hok) fun _ => .bind (.set ?_)))
    refine .ite (fun hpos => .pure ?_) fun hpos => .bind (.modify (.modify ?_))
    · have hl : s.last P = false := beq_eq_false_iff_ne.2 (Nat.pos_iff_ne_zero.1 hpos)
      rw [hl]
      rfl
    · have hl : s.last P = true := beq_iff_eq.2 (Nat.eq_zero_of_not_pos hpos)
      rw [hl]
      rfl
  obtain ⟨⟨⟩, s', hr, hs⟩ := hwp.total
  rw [hr, hs]

section Drop

variable (h : Inv U T H s) (hP : 0 < H P)
include h hP

theorem Inv.frame_of_held : s.Frame P := h.held P (by omega)

theorem Inv.one_le_ref_of_held : 1 ≤ (s.refOf P).toNat := by
  have hc := h.count P (h.frame_of_held hP)
  omega

theorem Inv.notMem_of_held (hr : r ∈ T) : P ∉ s.nodes r := by
  intro hmem
  have hz := (h.node r hr P hmem).2.1
  omega

/-- A page that is mapped as well stays in use. -/
theorem Inv.two_le_ref_of_leaf (hr : r ∈ T) (hv : v < U) (hval : Pte.has (s.pte r v) PTE_V = true)
    (e : pte2pa (s.pte r v) = P) : 2 ≤ (s.refOf P).toNat := by
  have hone := one_le_total hr hv hval
  rw [e] at hone
  have hc := h.count P (h.frame_of_held hP)
  omega

theorem Inv.refOf_dropped (last : Bool) (hQ : Q % PGSIZE = 0) :
    (s.dropped P last).refOf Q = if Q = P then s.refOf P - 1 else s.refOf Q :=
  refCount_update s _ (h.frame_of_held hP).1 hQ

theorem Inv.kfree_fixed (last : Bool) : Fixed T s (s.dropped P last) := by
  refine fun r hr q hq => s.mem_dropped _ _ (.inl ?_)
  rintro rfl
  exact h.notMem_of_held hP hr hq

theorem Inv.kfree {last : Bool} (hlast : last = true ↔ (s.refOf P).toNat = 1) :
    Inv U T (H - Pi.single P 1) (s.dropped P last) := by
  have hframe := h.frame_of_held hP
  have hone := h.one_le_ref_of_held hP
  have hnot : P ∉ s.freelist := by
    intro hmem
    have hz := ((h.free P).1 hmem).2
    rw [hz] at hone
    exact absurd hone (by decide)
  have hsub := toNat_sub_one hone
  refine h.same rfl ?_ (h.kfree_fixed hP last) ?_ (fun Q => ?_) (fun Q hQ => ?_) (fun Q hQ => ?_)
    (fun r hr Q hQ => ?_) fun r hr v hv hval => ?_
  · show (s.wrapped || s.refOf P == 0) = false
    rw [h.wrapped, Bool.false_or, beq_eq_false_iff_ne]
    intro e
    rw [e] at hone
    exact absurd hone (by decide)
  · cases last with
    | false => exact h.nodup
    | true => exact nodup_cons.2 ⟨hnot, h.nodup⟩
  · have hold := h.free Q
    have hmem : Q ∈ (s.dropped P last).freelist ↔ last = true ∧ Q = P ∨ Q ∈ s.freelist := by
      cases last <;> simp [Kmem.dropped]
    rw [hmem, hlast]
    constructor
    · rintro (⟨hl, rfl⟩ | hQ)
      · refine ⟨hframe, ?_⟩
        rw [h.refOf_dropped hP last hframe.1, if_pos rfl]
        exact BitVec.eq_of_toNat_eq (by rw [hsub, hl]; rfl)
      · rw [h.refOf_dropped hP last (hold.1 hQ).1.1, if_neg (by rintro rfl; exact hnot hQ)]
        exact hold.1 hQ
    · rintro ⟨hfr, hz⟩
      rw [h.refOf_dropped hP last hfr.1] at hz
      split at hz
      · rw [hz] at hsub
        refine .inl ⟨?_, ‹_›⟩
        have : (0 : BitVec 16).toNat = 0 := rfl
        omega
      · exact .inr (hold.2 ⟨hfr, hz⟩)
  · rw [h.refOf_dropped hP last hQ.1, Pi.sub_apply, Pi.single_apply]
    split
    · rename_i e
      rw [e, hsub]
      omega
    · omega
  · by_cases e : Q = P
    · rwa [e]
    · rw [Pi.sub_apply, Pi.single_eq_of_ne e, sub_zero] at hQ
      exact h.held Q hQ
  · have hne : Q ≠ P := by
      rintro rfl
      exact h.notMem_of_held hP hr hQ
    rw [Pi.sub_apply, Pi.single_eq_of_ne hne, sub_zero]
    exact (h.node r hr Q hQ).2.1
  · have hl := h.leaf r hr v hv hval
    rw [h.refOf_dropped hP last hl.frame.1]
    split
    · rename_i e
      have htwo := h.two_le_ref_of_leaf hP hr hv hval e
      constructor
      · intro hz
        rw [hz] at hsub
        have : (0 : BitVec 16).toNat = 0 := rfl
        omega
      · intro hW
        have hsole := hl.sole hW
        rw [e] at hsole
        rw [hsole] at htwo
        exact absurd htwo (by decide)
    · exact ⟨hl.counted, hl.sole⟩

theorem Inv.kfree_keeps {last : Bool} (hlast : last = true ↔ (s.refOf P).toNat = 1) :
    Keeps U T (H - Pi.single P 1) s (s.dropped P last) := by
  refine ⟨rfl, id, fun r hr => Kmem.pte_congr (h.kfree_fixed hP last r hr), fun r hr v hv hval => ?_, fun Q hQ => ?_,
    fun Q hQ => s.mem_dropped _ _ (.inl ?_)⟩
  · by_cases e : pte2pa (s.pte r v) = P
    · refine s.mem_dropped _ _ (.inr ?_)
      have htwo := h.two_le_ref_of_leaf hP hr hv hval e
      rw [← Bool.not_eq_true, hlast]
      omega
    · exact s.mem_dropped _ _ (.inl e)
  · by_cases e : Q = P
    · subst e
      refine s.mem_dropped _ _ (.inr ?_)
      rw [Pi.sub_apply, Pi.single_eq_same] at hQ
      have hc := h.count Q (h.frame_of_held hP)
      rw [← Bool.not_eq_true, hlast]
      omega
    · exact s.mem_dropped _ _ (.inl e)
  · rintro rfl
    exact hQ (h.frame_of_held hP)

/-- What `kfree` leads to. -/
theorem wp_kfree : WP (Vm.kfree P) E (fun _ s' => Inv U T (H - Pi.single P 1) s' ∧
    Keeps U T (H - Pi.single P 1) s s' ∧ (∀ Q, Q ≠ P → s'.mem Q = s.mem Q) ∧ s'.exhausted = s.exhausted ∧
    Fixed T s s') s := by
  have hlast := s.last_iff (h.one_le_ref_of_held hP)
  rw [WP, kfree_eq (h.frame_of_held hP)]
  exact ⟨h.kfree hP hlast, h.kfree_keeps hP hlast, fun Q hQ => s.mem_dropped P _ (.inl hQ), rfl, h.kfree_fixed hP _⟩

end Drop

/-- The state after `krefinc`. -/
def Kmem.shared (s : Kmem) (P : Nat) : Kmem :=
  { s with
    refCount := update s.refCount (P / PGSIZE) (s.refCount (P / PGSIZE) + 1)
    wrapped := s.wrapped || s.refCount (P / PGSIZE) == BitVec.allOnes 16 }

/-- One more reference to a page that has owners already, none of which can write it. -/
theorem Inv.krefinc (h : Inv U T H s) (hf : s.Frame P) (hne : s.refOf P ≠ 0) (hmax : s.refOf P ≠ BitVec.allOnes 16)
    (hnode : ∀ r ∈ T, P ∉ s.nodes r) (hW : ∀ r ∈ T, ∀ v < U, Pte.has (s.pte r v) PTE_V = true → pte2pa (s.pte r v) = P →
      Pte.has (s.pte r v) PTE_W = false) : Inv U T (H + Pi.single P 1) (s.shared P) := by
  have hadd : (s.refOf P + 1).toNat = (s.refOf P).toNat + 1 := by
    have hlt : (s.refOf P).toNat ≠ 2 ^ 16 - 1 := fun e => hmax (BitVec.eq_of_toNat_eq (by rw [e]; decide))
    have hlt' := (s.refOf P).isLt
    rw [BitVec.toNat_add, show (1 : BitVec 16).toNat = 1 from rfl, Nat.mod_eq_of_lt (by omega)]
  have href : ∀ Q, Q % PGSIZE = 0 → (s.shared P).refOf Q = if Q = P then s.refOf P + 1 else s.refOf Q :=
    fun Q hQ => refCount_update s _ hf.1 hQ
  refine h.same rfl ?_ (fun _ _ _ _ => rfl) h.nodup (fun Q => (h.free Q).trans (and_congr_right fun hQ => ?_))
    (fun Q hQ => ?_) (fun Q hQ => ?_) (fun r hr Q hQ => ?_) fun r hr v hv hval => ?_
  · show (s.wrapped || s.refOf P == BitVec.allOnes 16) = false
    rw [h.wrapped, Bool.false_or, beq_eq_false_iff_ne]
    exact hmax
  · rw [href Q hQ.1]
    split
    · rename_i e
      rw [e]
      refine iff_of_false hne fun hz => ?_
      rw [hz] at hadd
      exact absurd hadd (by simp)
    · exact Iff.rfl
  · rw [href Q hQ.1, Pi.add_apply, Pi.single_apply]
    split
    · rename_i e
      rw [e, hadd]
      omega
    · omega
  · by_cases e : Q = P
    · rwa [e]
    · rw [Pi.add_apply, Pi.single_eq_of_ne e, add_zero] at hQ
      exact h.held Q hQ
  · have hneq : Q ≠ P := by
      rintro rfl
      exact hnode r hr hQ
    rw [Pi.add_apply, Pi.single_eq_of_ne hneq, add_zero]
    exact (h.node r hr Q hQ).2.1
  · have hl := h.leaf r hr v hv hval
    rw [href _ hl.frame.1]
    split
    · rename_i e
      refine ⟨fun hz => ?_, fun hw => ?_⟩
      · rw [hz] at hadd
        exact absurd hadd (by simp)
      · rw [hW r hr v hv hval e] at hw
        cases hw
    · exact ⟨hl.counted, hl.sole⟩

/-- A write to a page that is not one of a page table. -/
theorem Inv.write (h : Inv U T H s) (hnode : ∀ r ∈ T, P ∉ s.nodes r) (pg : Page) : Inv U T H (s.setPage P pg) := by
  refine h.same rfl h.wrapped (fun r hr q hq => s.mem_setPage_of_ne pg ?_) h.nodup h.free (fun _ _ => rfl) h.held
    (fun r hr Q hQ => (h.node r hr Q hQ).2.1) fun r hr v hv hval =>
      ⟨(h.leaf r hr v hv hval).counted, (h.leaf r hr v hv hval).sole⟩
  rintro rfl
  exact hnode r hr hq

/-! ## Booting -/

/-- The first page after the kernel. -/
theorem pgroundup_le (hk : kend ≤ PHYSTOP) :
    kend ≤ pgroundup kend ∧ pgroundup kend % PGSIZE = 0 ∧ ∀ P, P % PGSIZE = 0 → kend ≤ P → pgroundup kend ≤ P := by
  have hlt : PHYSTOP < 2 ^ 38 := by decide
  have heq : pgroundup kend = (kend + 4095) / 4096 * 4096 := by
    show (kend + 4096 - 1) % 2 ^ 64 / 4096 * 4096 = _
    rw [Nat.mod_eq_of_lt (by omega)]
    rfl
  have hsize : PGSIZE = 4096 := rfl
  rw [heq, hsize]
  exact ⟨by omega, Nat.mul_mod_left .., fun P hP hle => by omega⟩

/-- After the first `k` pages have been freed. -/
structure Booted (kend k : Nat) (s : Kmem) : Prop where
  kernel : s.kend = kend
  wrapped : s.wrapped = false
  exhausted : s.exhausted = false
  refCount : s.refCount = fun _ => 0
  freelist : s.freelist = ((List.range k).map fun j => pgroundup kend + j * PGSIZE).reverse

theorem Booted.next {k : Nat} (h : Booted kend k s) (hk : kend ≤ PHYSTOP) (hlt : pgroundup kend + k * PGSIZE < PHYSTOP) :
    WP (kfree (pgroundup kend + k * PGSIZE)) E (fun _ => Booted kend (k + 1))
      { s with refCount := update s.refCount ((pgroundup kend + k * PGSIZE) / PGSIZE) 1 } := by
  obtain ⟨hle, halign, -⟩ := pgroundup_le hk
  generalize hpa : pgroundup kend + k * PGSIZE = pa at hlt ⊢
  have hframe : Kmem.Frame { s with refCount := update s.refCount (pa / PGSIZE) 1 } pa := by
    refine ⟨?_, ?_, hlt⟩
    · rw [← hpa, Nat.add_mul_mod_self_right, halign]
    · show s.kend ≤ _
      rw [h.kernel]
      omega
  have hlast : Kmem.last { s with refCount := update s.refCount (pa / PGSIZE) 1 } pa = true := by
    show ((update s.refCount (pa / PGSIZE) 1 (pa / PGSIZE)) - 1).toNat == 0
    rw [update_self]
    rfl
  rw [WP, kfree_eq hframe, hlast]
  refine ⟨h.kernel, ?_, h.exhausted, ?_, ?_⟩
  · show (s.wrapped || update s.refCount (pa / PGSIZE) 1 (pa / PGSIZE) == 0) = false
    rw [h.wrapped, update_self]
    rfl
  · show update (update s.refCount (pa / PGSIZE) 1) (pa / PGSIZE) (update s.refCount (pa / PGSIZE) 1 (pa / PGSIZE) - 1) = _
    rw [update_idem, update_self, h.refCount]
    exact update_eq_self (pa / PGSIZE) fun _ => (0 : BitVec 16)
  · show pa :: s.freelist = _
    rw [h.freelist, range_succ, map_append, reverse_append, map_singleton, reverse_singleton,
      singleton_append, hpa]

/-- All pages after the kernel are free. -/
theorem Booted.inv (hlo : KERNBASE ≤ kend) (hk : kend ≤ PHYSTOP)
    (h : Booted kend ((PHYSTOP - pgroundup kend) / PGSIZE) s) : Inv U 0 0 s := by
  obtain ⟨hle, halign, hleast⟩ := pgroundup_le hk
  have hsize : PGSIZE = 4096 := rfl
  have hstop : PHYSTOP % 4096 = 0 := by decide
  have hz : ∀ P, s.refOf P = 0 := fun P => by rw [Kmem.refOf, h.refCount]
  refine ⟨by rw [h.kernel]; exact hlo, h.wrapped, ?_, fun P => ?_, fun P _ => ?_, fun P hP => absurd rfl hP, ?_, ?_, ?_, ?_⟩
  · rw [h.freelist, nodup_reverse]
    refine nodup_range.map fun i j e => ?_
    exact Nat.eq_of_mul_eq_mul_right (show 0 < PGSIZE by decide) (Nat.add_left_cancel e)
  · rw [h.freelist, mem_reverse, mem_map, hz, Kmem.Frame, h.kernel]
    constructor
    · rintro ⟨j, hj, rfl⟩
      have hj := mem_range.1 hj
      rw [hsize] at hj halign ⊢
      exact ⟨⟨by omega, by omega, by omega⟩, rfl⟩
    · rintro ⟨⟨hP, hkP, hPs⟩, -⟩
      have hge := hleast P hP hkP
      refine ⟨(P - pgroundup kend) / PGSIZE, mem_range.2 ?_, ?_⟩
      · rw [hsize] at hP halign ⊢
        omega
      · rw [hsize] at hP halign ⊢
        omega
  · rw [hz, total]
    rfl
  · exact fun r hr => absurd hr (Multiset.notMem_zero r)
  · exact fun r hr => absurd hr (Multiset.notMem_zero r)
  · exact fun r hr => absurd hr (Multiset.notMem_zero r)
  · exact fun r hr => absurd hr (Multiset.notMem_zero r)

theorem wp_kinit (mem : Nat → Page) (hlo : KERNBASE ≤ kend) (hk : kend ≤ PHYSTOP) :
    WP kinit E (fun _ s => Inv U 0 0 s ∧ s.kend = kend ∧ s.exhausted = false) (Kmem.boot kend mem) := by
  have hsize : PGSIZE = 4096 := rfl
  have hloop : WP (freerange kend PHYSTOP) E (fun _ => Booted kend ((PHYSTOP - pgroundup kend) / PGSIZE))
      (Kmem.boot kend mem) := by
    refine .loop (I := Booted kend) ⟨rfl, rfl, rfl, rfl, rfl⟩ fun k s hk' hs => .bind (.modify (hs.next hk ?_))
    have hdiv : (k + 1) * PGSIZE ≤ PHYSTOP - pgroundup kend := (Nat.le_div_iff_mul_le (by decide)).1 hk'
    rw [hsize] at hdiv ⊢
    omega
  exact .bind (.get (hloop.mono fun _ s hs => ⟨hs.inv hlo hk, hs.kernel, hs.exhausted⟩))

end Xv6.Vm
