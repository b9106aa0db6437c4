import Xv6.Vm.Steps

/-!
# Steps of page tables

What becomes of the invariant where one page table changes: an entry is set
(`Inv.setLeaf`), a page is added (`Inv.grow`), a page table is made of an empty page
(`Inv.create`) or is given up (`Inv.destroy`). An entry for a user page owns the page
it refers to; `owed` is what the kernel gets back when the entry is removed.
-/

namespace Xv6.Vm

open Function Multiset

variable {T : Multiset Nat} {H H' : Nat → ℤ} {s s' : Kmem} {U r P Q v q n : Nat}

/-- The pages that an entry for virtual page `v` owns. -/
def owed (U v : Nat) (pte : Pte) (P : Nat) : ℤ := if v < U then hit P pte else 0

theorem owed_invalid (v : Nat) {pte : Pte} (h : Pte.has pte PTE_V = false) : owed U v pte = 0 := by
  funext P
  have hz : hit P pte = 0 := hit_of_ne fun h' => by rw [h] at h'; cases h'
  rw [owed, hz]
  split <;> rfl

theorem owed_kernel (hv : U ≤ v) (pte : Pte) : owed U v pte = 0 := by
  funext P
  exact if_neg (Nat.not_lt.2 hv)

theorem owed_eq_zero {pte : Pte} (hP : v < U → Pte.has pte PTE_V = true → pte2pa pte ≠ P) : owed U v pte P = 0 := by
  by_cases hv : v < U
  · rw [owed, if_pos hv, hit_of_ne (hP hv)]
    rfl
  · exact if_neg hv

theorem hits_set (U : Nat) (m : Nat → Pte) (v : Nat) (w : Pte) (P : Nat) :
    (hits U (update m v w) P : ℤ) + owed U v (m v) P = hits U m P + owed U v w P := by
  by_cases hv : v < U
  · rw [owed, owed, if_pos hv, if_pos hv]
    exact_mod_cast hits_update m hv w P
  · rw [owed, owed, if_neg hv, if_neg hv, hits_update_of_le m (Nat.not_lt.1 hv)]

/-- One page table has changed, and reference counts have not. -/
theorem Inv.retable (h : Inv U (r ::ₘ T) H s) (hkend : s'.kend = s.kend) (hwrapped : s'.wrapped = s.wrapped)
    (hfree : s'.freelist = s.freelist) (href : s'.refCount = s.refCount)
    (hmem : ∀ r' ∈ T, ∀ q ∈ s.nodes r', s'.mem q = s.mem q)
    (huses : ∀ Q, H' Q + s'.uses U r Q = H Q + s.uses U r Q) (hheld : ∀ Q, H' Q ≠ 0 → s.Frame Q)
    (hother : ∀ r' ∈ T, ∀ Q ∈ s.nodes r', H' Q = 0)
    (hnode : ∀ Q ∈ s'.nodes r, s.Frame Q ∧ H' Q = 0 ∧ s'.uses U r Q + total U T s Q = 1)
    (hinner : ptRadix.Inner Bare s'.words 2 r) (hleaf : ∀ v < U, Pte.has (s'.pte r v) PTE_V = true → Leaf s (s'.pte r v) ∧
      (∀ v' < U, Pte.has (s'.pte r v') PTE_V = true → pte2pa (s'.pte r v) = pte2pa (s'.pte r v') → v = v') ∧
      ∀ r' ∈ T, ∀ v' < U, Pte.has (s.pte r' v') PTE_V = true →
        pte2pa (s'.pte r v) = pte2pa (s.pte r' v') → v = v') : Inv U (r ::ₘ T) H' s' := by
  have hT : ∀ r' ∈ T, r' ∈ r ::ₘ T := fun r' hr' => mem_cons_of_mem hr'
  have hframe : ∀ Q, s'.Frame Q ↔ s.Frame Q := fun Q => by rw [Kmem.Frame, Kmem.Frame, hkend]
  have hrefOf : ∀ Q, s'.refOf Q = s.refOf Q := fun Q => by rw [Kmem.refOf, Kmem.refOf, href]
  have hL : ∀ {pte}, Leaf s pte → Leaf s' pte := fun hl =>
    ⟨(hframe _).2 hl.frame, hl.readable, by rw [hrefOf]; exact hl.counted, by rw [hrefOf]; exact hl.sole⟩
  have hpte : ∀ r' ∈ T, s'.pte r' = s.pte r' := fun r' hr' => Kmem.pte_congr (hmem r' hr')
  have htotal : ∀ Q, total U T s' Q = total U T s Q := fun Q => total_congr fun r' hr' => Kmem.uses_congr (hmem r' hr') Q
  have hsum : ∀ Q, H' Q + total U (r ::ₘ T) s' Q = H Q + total U (r ::ₘ T) s Q := by
    intro Q
    have hu := huses Q
    rw [total_cons, total_cons, htotal]
    push_cast
    omega
  refine ⟨?_, ?_, ?_, fun Q => ?_, fun Q hQ => ?_, fun Q hQ => ?_, fun r' hr' Q hQ => ?_, fun r' hr' => ?_,
    fun r' hr' v hv hval => ?_, fun r₁ hr₁ r₂ hr₂ v hv v' hv' hval hval' e => ?_⟩
  · rw [hkend]
    exact h.kend
  · rw [hwrapped]
    exact h.wrapped
  · rw [hfree]
    exact h.nodup
  · rw [hfree, hframe, hrefOf]
    exact h.free Q
  · rw [hrefOf, hsum]
    exact h.count Q ((hframe Q).1 hQ)
  · exact (hframe Q).2 (hheld Q hQ)
  · obtain rfl | hr' := mem_cons.1 hr'
    · obtain ⟨hf, hz, hone⟩ := hnode Q hQ
      rw [hframe, total_cons, htotal]
      exact ⟨hf, hz, hone⟩
    · rw [Kmem.nodes_congr (hmem r' hr')] at hQ
      obtain ⟨hf, hz, hone⟩ := h.node r' (hT r' hr') Q hQ
      have hz' := hother r' hr' Q hQ
      have hs := hsum Q
      rw [hframe]
      exact ⟨hf, hz', by omega⟩
  · obtain rfl | hr' := mem_cons.1 hr'
    · exact hinner
    · refine (h.inner r' (hT r' hr')).congr fun q hq => ?_
      funext i
      rw [Kmem.words, Kmem.words, hmem r' hr' q hq]
  · obtain rfl | hr' := mem_cons.1 hr'
    · exact hL (hleaf v hv hval).1
    · rw [hpte r' hr'] at hval ⊢
      exact hL (h.leaf r' (hT r' hr') v hv hval)
  · obtain rfl | hm₁ := mem_cons.1 hr₁
    · obtain rfl | hm₂ := mem_cons.1 hr₂
      · exact (hleaf v hv hval).2.1 v' hv' hval' e
      · rw [hpte r₂ hm₂] at hval' e
        exact (hleaf v hv hval).2.2 r₂ hm₂ v' hv' hval' e
    · rw [hpte r₁ hm₁] at hval e
      obtain rfl | hm₂ := mem_cons.1 hr₂
      · exact ((hleaf v' hv' hval').2.2 r₁ hm₁ v hv hval e.symm).symm
      · rw [hpte r₂ hm₂] at hval' e
        exact h.inj r₁ (hT r₁ hm₁) r₂ (hT r₂ hm₂) v hv v' hv' hval hval' e

/-! ## Setting an entry -/

/-- The path of virtual page `v` in page table `r` leads to page `q` of this level. -/
abbrev Kmem.Reach (s : Kmem) (v r level q : Nat) : Prop := ptRadix.Reach s.words v 2 r level q

variable {level : Nat}

theorem Kmem.Reach.mem (hr : s.Reach v r level q) : q ∈ s.nodes r := Radix.Reach.mem hr

/-- The state after `*pte = w`. -/
def Kmem.setPte (s : Kmem) (slot : Slot) (w : Pte) : Kmem := s.setPage slot.1 ((s.mem slot.1).setWord slot.2 w)

theorem Kmem.words_setPte (s : Kmem) (q i : Nat) (w : Pte) : (s.setPte (q, i) w).words q = update (s.words q) i w := by
  rw [Kmem.setPte, Kmem.words_setPage_self, Page.word_setWord]
  rfl

theorem Kmem.words_setPte_of_ne (s : Kmem) (i : Nat) (w : Pte) (h : Q ≠ q) : (s.setPte (q, i) w).words Q = s.words Q :=
  s.words_setPage_of_ne _ h

theorem Kmem.mem_setPte_of_ne (s : Kmem) (i : Nat) (w : Pte) (h : Q ≠ q) : (s.setPte (q, i) w).mem Q = s.mem Q :=
  s.mem_setPage_of_ne _ h

section SetLeaf

variable (h : Inv U (r ::ₘ T) H s) (hr : s.Reach v r 0 q) (hv : v < NPTE ^ 3) (w : Pte)

include h

/-- The pages of the other page tables are not written. -/
theorem Inv.mem_setPte {i r' : Nat} (hr : s.Reach v r level q) (hr' : r' ∈ T) (hQ : Q ∈ s.nodes r') :
    (s.setPte (q, i) w).mem Q = s.mem Q := by
  refine s.mem_setPte_of_ne i w ?_
  rintro rfl
  exact h.nodes_disjoint rfl hr' hr.mem hQ

theorem Inv.setPte_fixed (hr : s.Reach v r level q) (i : Nat) : Fixed T s (s.setPte (q, i) w) :=
  fun _ hr' _ hQ => h.mem_setPte w hr hr' hQ

/-- Nor are the pages that are mapped or held. -/
theorem Inv.setPte_keeps (hr : s.Reach v r level q) (i : Nat) : Keeps U T H s (s.setPte (q, i) w) := by
  have hr₀ := mem_cons_self r T
  refine ⟨rfl, id, fun r' hr' => Kmem.pte_congr (h.setPte_fixed w hr i r' hr'), fun r' hr' v' hv' hval' => ?_,
    fun Q hQ => ?_, fun Q hQ => s.mem_setPte_of_ne i w ?_⟩
  · refine s.mem_setPte_of_ne i w ?_
    rintro e
    exact h.leaf_notMem (mem_cons_of_mem hr') hv' hval' hr₀ (e ▸ hr.mem)
  · refine s.mem_setPte_of_ne i w ?_
    rintro rfl
    exact h.notMem_of_held hQ hr₀ hr.mem
  · rintro rfl
    exact hQ (h.node r hr₀ Q hr.mem).1

theorem Inv.page_setPte {v' : Nat} (hr : s.Reach v r level q) (i : Nat) (hv' : v' < U)
    (hval : Pte.has (s.pte r v') PTE_V = true) :
    (s.setPte (q, i) w).mem (pte2pa (s.pte r v')) = s.mem (pte2pa (s.pte r v')) := by
  have hr₀ := mem_cons_self r T
  refine s.mem_setPte_of_ne i w ?_
  rintro e
  exact h.leaf_notMem hr₀ hv' hval hr₀ (e ▸ hr.mem)

include hr

theorem Inv.nodes_setLeaf : (s.setPte (q, ptRadix.idx 0 v) w).nodes r = s.nodes r :=
  Radix.Reach.nodes_set hr (h.nodes_nodup (mem_cons_self r T)) fun _ hx => s.words_setPte_of_ne _ w hx

include hv in
theorem Inv.pte_setLeaf : (s.setPte (q, ptRadix.idx 0 v) w).pte r = update (s.pte r) v w := by
  have hset := Radix.Reach.leaf_set hr (h.nodes_nodup (mem_cons_self r T))
    (fun _ hx => s.words_setPte_of_ne _ w hx) (s.words_setPte q (ptRadix.idx 0 v) w)
  rw [ptRadix_width] at hset
  funext k
  rw [Kmem.pte, update_apply]
  by_cases hk : k < NPTE ^ 3
  · rw [if_pos hk, hset, Nat.mod_eq_of_lt hk, Nat.mod_eq_of_lt hv, Kmem.pte, if_pos hk]
  · rw [if_neg hk, if_neg (by rintro rfl; exact hk hv), Kmem.pte, if_neg hk]

include hv in
theorem Inv.setLeaf (hw : v < U → Pte.has w PTE_V = true → Leaf s w ∧ (∀ r' ∈ r ::ₘ T, pte2pa w ∉ s.nodes r') ∧
      ∀ r' ∈ r ::ₘ T, ∀ v' < U, Pte.has (s.pte r' v') PTE_V = true → pte2pa (s.pte r' v') = pte2pa w → v' = v) :
    Inv U (r ::ₘ T) (H + owed U v (s.pte r v) - owed U v w) (s.setPte (q, ptRadix.idx 0 v) w) := by
  have hr₀ := mem_cons_self r T
  have hT : ∀ r' ∈ T, r' ∈ r ::ₘ T := fun r' hr' => mem_cons_of_mem hr'
  have hnodes := h.nodes_setLeaf hr w
  have hpte := h.pte_setLeaf hr hv w
  have huses : ∀ Q, ((s.setPte (q, ptRadix.idx 0 v) w).uses U r Q : ℤ) + owed U v (s.pte r v) Q =
      s.uses U r Q + owed U v w Q := by
    intro Q
    have hset := hits_set U (s.pte r) v w Q
    rw [Kmem.uses, Kmem.uses, hnodes, hpte]
    push_cast
    omega
  -- neither the old entry nor the new one owns a page of a page table
  have howed : ∀ r' ∈ r ::ₘ T, ∀ Q ∈ s.nodes r', owed U v (s.pte r v) Q = 0 ∧ owed U v w Q = 0 := by
    refine fun r' hr' Q hQ => ⟨owed_eq_zero fun hv' hval => ?_, owed_eq_zero fun hv' hval => ?_⟩
    · rintro rfl
      exact h.leaf_notMem hr₀ hv' hval hr' hQ
    · rintro rfl
      exact (hw hv' hval).2.1 r' hr' hQ
  refine h.retable rfl rfl rfl rfl (h.setPte_fixed w hr _) (fun Q => ?_) (fun Q hQ => ?_)
    (fun r' hr' Q hQ => ?_) (fun Q hQ => ?_) ?_ fun v₁ hv₁ hval₁ => ?_
  · have hu := huses Q
    simp only [Pi.add_apply, Pi.sub_apply]
    omega
  · by_contra hf
    have hH : H Q = 0 := by_contra fun hne => hf (h.held Q hne)
    have hold : owed U v (s.pte r v) Q = 0 := owed_eq_zero fun hv' hval e =>
      hf (e ▸ (h.leaf r hr₀ v hv' hval).frame)
    have hnew : owed U v w Q = 0 := owed_eq_zero fun hv' hval e => hf (e ▸ (hw hv' hval).1.frame)
    simp only [Pi.add_apply, Pi.sub_apply] at hQ
    omega
  · obtain ⟨hold, hnew⟩ := howed r' (hT r' hr') Q hQ
    have hz := (h.node r' (hT r' hr') Q hQ).2.1
    simp only [Pi.add_apply, Pi.sub_apply]
    omega
  · rw [hnodes] at hQ
    obtain ⟨hold, hnew⟩ := howed r hr₀ Q hQ
    obtain ⟨hf, hz, hone⟩ := h.node r hr₀ Q hQ
    have hu := huses Q
    rw [total_cons] at hone
    simp only [Pi.add_apply, Pi.sub_apply]
    exact ⟨hf, by omega, by omega⟩
  · exact Radix.Reach.inner_set hr (h.nodes_nodup hr₀) (fun _ hx => s.words_setPte_of_ne _ w hx) (h.inner r hr₀)
  · rw [hpte, update_apply] at hval₁ ⊢
    by_cases e₁ : v₁ = v
    · subst e₁
      rw [if_pos rfl] at hval₁ ⊢
      obtain ⟨hl, -, hinj⟩ := hw hv₁ hval₁
      refine ⟨hl, fun v₂ hv₂ hval₂ e => ?_, fun r' hr' v₂ hv₂ hval₂ e => ?_⟩
      · rw [update_apply] at hval₂ e
        by_cases e₂ : v₂ = v₁
        · exact e₂.symm
        · rw [if_neg e₂] at hval₂ e
          exact (hinj r hr₀ v₂ hv₂ hval₂ e.symm).symm
      · exact (hinj r' (hT r' hr') v₂ hv₂ hval₂ e.symm).symm
    · rw [if_neg e₁] at hval₁ ⊢
      refine ⟨h.leaf r hr₀ v₁ hv₁ hval₁, fun v₂ hv₂ hval₂ e => ?_, fun r' hr' v₂ hv₂ hval₂ e => ?_⟩
      · rw [update_apply] at hval₂ e
        by_cases e₂ : v₂ = v
        · subst e₂
          rw [if_pos rfl] at hval₂ e
          exact (hw hv₂ hval₂).2.2 r hr₀ v₁ hv₁ hval₁ e
        · rw [if_neg e₂] at hval₂ e
          exact h.inj r hr₀ r hr₀ v₁ hv₁ v₂ hv₂ hval₁ hval₂ e
      · exact h.inj r hr₀ r' (hT r' hr') v₁ hv₁ v₂ hv₂ hval₁ hval₂ e

end SetLeaf

/-! ## Adding and removing pages of page tables -/

/-- A pointer to a page-table page. -/
theorem mk_valid (n : Nat) : Pte.has (pa2pte n ||| PTE_V) PTE_V = true := (has_mk n PTE_V (by decide)).trans (by decide)

theorem mk_bare (n : Nat) : Bare (pa2pte n ||| PTE_V) := by
  refine (rwx_eq_zero_iff _).2 ⟨?_, ?_, ?_⟩ <;> exact (has_mk n PTE_V (by decide)).trans (by decide)

theorem pte2pa_node (hf : s.Frame n) : pte2pa (pa2pte n ||| PTE_V) = n :=
  pte2pa_mk hf.1 (hf.2.2.trans (by decide)) (flags_shift (by decide))

section Grow

variable {j : Nat} (h : Inv U (r ::ₘ T) H s) (hs : Sole U (r ::ₘ T) H s n) (hz : s.mem n = fun _ => 0)
  (hr : s.Reach v r (j + 1) q) (habs : Pte.has (s.words q (ptRadix.idx (j + 1) v)) PTE_V = false)

include hs hz hr habs

theorem Sole.hang : ptRadix.Hang s.words (s.setPte (q, ptRadix.idx (j + 1) v) (pa2pte n ||| PTE_V)).words q
    (ptRadix.idx (j + 1) v) (pa2pte n ||| PTE_V) n := by
  have hne : n ≠ q := by
    rintro rfl
    exact notMem_of_total (mem_cons_self r T) hs.unused hr.mem
  refine ⟨next_of_invalid habs, s.words_setPte q _ _, ?_, fun i => ?_, fun x hx _ => s.words_setPte_of_ne _ _ hx⟩
  · rw [next_of_valid (mk_valid n), pte2pa_node hs.frame]
  · rw [s.words_setPte_of_ne _ _ hne, Kmem.words, hz, Page.word_zero, ptRadix_zero]

include h

theorem Inv.nodes_grow : (s.setPte (q, ptRadix.idx (j + 1) v) (pa2pte n ||| PTE_V)).nodes r = n ::ₘ s.nodes r :=
  Radix.Reach.nodes_grow (hs.hang hz hr habs) hr (h.nodes_nodup (mem_cons_self r T))
    (notMem_of_total (mem_cons_self r T) hs.unused)

theorem Inv.pte_grow : (s.setPte (q, ptRadix.idx (j + 1) v) (pa2pte n ||| PTE_V)).pte r = s.pte r := by
  funext k
  rw [Kmem.pte, Kmem.pte, Radix.Reach.leaf_grow (hs.hang hz hr habs) hr
    (h.nodes_nodup (mem_cons_self r T)) (notMem_of_total (mem_cons_self r T) hs.unused)]

theorem Inv.reach_grow : (s.setPte (q, ptRadix.idx (j + 1) v) (pa2pte n ||| PTE_V)).Reach v r j n :=
  Radix.Reach.reach_grow (hs.hang hz hr habs) hr (h.nodes_nodup (mem_cons_self r T))
    (notMem_of_total (mem_cons_self r T) hs.unused)

theorem Inv.grow : Inv U (r ::ₘ T) (H - Pi.single n 1) (s.setPte (q, ptRadix.idx (j + 1) v) (pa2pte n ||| PTE_V)) := by
  have hr₀ := mem_cons_self r T
  have hT : ∀ r' ∈ T, r' ∈ r ::ₘ T := fun r' hr' => mem_cons_of_mem hr'
  have hnodes := h.nodes_grow hs hz hr habs
  have hpte := h.pte_grow hs hz hr habs
  have huses : ∀ Q, (s.setPte (q, ptRadix.idx (j + 1) v) (pa2pte n ||| PTE_V)).uses U r Q =
      s.uses U r Q + if Q = n then 1 else 0 := by
    intro Q
    rw [Kmem.uses, Kmem.uses, hnodes, hpte, count_cons]
    omega
  have hne : ∀ r' ∈ r ::ₘ T, ∀ Q ∈ s.nodes r', Q ≠ n := by
    rintro r' hr' Q hQ rfl
    exact notMem_of_total hr' hs.unused hQ
  refine h.retable rfl rfl rfl rfl (h.setPte_fixed (pa2pte n ||| PTE_V) hr _) (fun Q => ?_) (fun Q hQ => ?_)
    (fun r' hr' Q hQ => ?_) (fun Q hQ => ?_) ?_ fun v₁ hv₁ hval₁ => ?_
  · rw [huses, Pi.sub_apply, Pi.single_apply]
    split <;> push_cast <;> omega
  · by_cases e : Q = n
    · rw [e]
      exact hs.frame
    · rw [Pi.sub_apply, Pi.single_eq_of_ne e, sub_zero] at hQ
      exact h.held Q hQ
  · rw [Pi.sub_apply, Pi.single_eq_of_ne (hne r' (hT r' hr') Q hQ), sub_zero]
    exact (h.node r' (hT r' hr') Q hQ).2.1
  · rw [huses]
    rw [hnodes] at hQ
    obtain e | hQ := mem_cons.1 hQ
    · have hunused := hs.unused
      have hheld := hs.held
      rw [total_cons] at hunused
      rw [e, Pi.sub_apply, Pi.single_eq_same, if_pos rfl, hheld, add_right_comm, hunused]
      exact ⟨hs.frame, sub_self 1, rfl⟩
    · obtain ⟨hf, hzero, hone⟩ := h.node r hr₀ Q hQ
      have hQn := hne r hr₀ Q hQ
      rw [total_cons] at hone
      rw [Pi.sub_apply, Pi.single_eq_of_ne hQn, if_neg hQn, sub_zero, add_zero]
      exact ⟨hf, hzero, hone⟩
  · exact Radix.Reach.inner_grow (hs.hang hz hr habs) hr (h.nodes_nodup hr₀) (notMem_of_total hr₀ hs.unused)
      (mk_bare n) (h.inner r hr₀)
  · rw [hpte] at hval₁ ⊢
    exact ⟨h.leaf r hr₀ v₁ hv₁ hval₁, fun v₂ hv₂ hval₂ e => h.inj r hr₀ r hr₀ v₁ hv₁ v₂ hv₂ hval₁ hval₂ e,
      fun r' hr' v₂ hv₂ hval₂ e => h.inj r hr₀ r' (hT r' hr') v₁ hv₁ v₂ hv₂ hval₁ hval₂ e⟩

end Grow

/-- An empty page becomes the root of a page table. -/
theorem Inv.create (h : Inv U T H s) (hs : Sole U T H s n) (hz : s.mem n = fun _ => 0) :
    Inv U (n ::ₘ T) (H - Pi.single n 1) s ∧ s.pte n = fun _ => 0 := by
  have hempty : ∀ i, s.words n i = ptRadix.zero := fun i => by rw [Kmem.words, hz, Page.word_zero, ptRadix_zero]
  have hnodes : s.nodes n = {n} := Radix.nodes_of_empty hempty 2
  have hpte : s.pte n = fun _ => 0 := by
    funext k
    rw [Kmem.pte, Radix.leaf_of_empty hempty, ptRadix_zero, ite_self]
  have hinvalid : ∀ v, Pte.has (s.pte n v) PTE_V = true → False := by
    intro v hv
    rw [hpte, has_zero] at hv
    cases hv
  have huses : ∀ Q, s.uses U n Q = if Q = n then 1 else 0 := by
    intro Q
    have hhits : hits U (s.pte n) Q = 0 := by
      rw [hits]
      exact Finset.sum_eq_zero fun v _ => hit_of_ne fun hval => (hinvalid v hval).elim
    rw [Kmem.uses, hhits, hnodes, count_singleton]
    rfl
  refine ⟨⟨h.kend, h.wrapped, h.nodup, h.free, fun Q hQ => ?_, fun Q hQ => ?_, fun r' hr' Q hQ => ?_, fun r' hr' => ?_,
    fun r' hr' v hv hval => ?_, fun r₁ hr₁ r₂ hr₂ v hv v' hv' hval hval' e => ?_⟩, hpte⟩
  · have hc := h.count Q hQ
    rw [total_cons, huses, Pi.sub_apply, Pi.single_apply]
    split <;> push_cast <;> omega
  · by_cases e : Q = n
    · rw [e]
      exact hs.frame
    · rw [Pi.sub_apply, Pi.single_eq_of_ne e, sub_zero] at hQ
      exact h.held Q hQ
  · rw [total_cons, huses, Pi.sub_apply, Pi.single_apply]
    obtain rfl | hm := mem_cons.1 hr'
    · rw [hnodes, mem_singleton] at hQ
      subst hQ
      rw [if_pos rfl, if_pos rfl, hs.held, hs.unused]
      exact ⟨hs.frame, rfl, rfl⟩
    · have hne : Q ≠ n := by
        rintro rfl
        exact notMem_of_total hm hs.unused hQ
      rw [if_neg hne, if_neg hne, sub_zero, zero_add]
      exact h.node r' hm Q hQ
  · obtain rfl | hm := mem_cons.1 hr'
    · exact Radix.inner_of_empty hempty 2
    · exact h.inner r' hm
  · obtain rfl | hm := mem_cons.1 hr'
    · exact (hinvalid v hval).elim
    · exact h.leaf r' hm v hv hval
  · obtain rfl | hm₁ := mem_cons.1 hr₁
    · exact (hinvalid v hval).elim
    · obtain rfl | hm₂ := mem_cons.1 hr₂
      · exact (hinvalid v' hval').elim
      · exact h.inj r₁ hm₁ r₂ hm₂ v hv v' hv' hval hval' e

/-- A page table without user pages is given up: the kernel holds its pages. -/
theorem Inv.destroy (h : Inv U (r ::ₘ T) H s) (hno : ∀ v < U, Pte.has (s.pte r v) PTE_V = false) :
    Inv U T (H + fun P => ((s.nodes r).count P : ℤ)) s := by
  have hr₀ := mem_cons_self r T
  have hT : ∀ r' ∈ T, r' ∈ r ::ₘ T := fun r' hr' => mem_cons_of_mem hr'
  have huses : ∀ Q, s.uses U r Q = (s.nodes r).count Q := by
    intro Q
    have hhits : hits U (s.pte r) Q = 0 := by
      rw [hits]
      refine Finset.sum_eq_zero fun v hv => hit_of_ne fun hval => ?_
      rw [hno v (Finset.mem_range.1 hv)] at hval
      cases hval
    rw [Kmem.uses, hhits, add_zero]
  refine ⟨h.kend, h.wrapped, h.nodup, h.free, fun Q hQ => ?_, fun Q hQ => ?_, fun r' hr' Q hQ => ?_,
    fun r' hr' => h.inner r' (hT r' hr'), fun r' hr' => h.leaf r' (hT r' hr'),
    fun r₁ hr₁ r₂ hr₂ => h.inj r₁ (hT r₁ hr₁) r₂ (hT r₂ hr₂)⟩
  · have hc := h.count Q hQ
    rw [total_cons, huses] at hc
    rw [Pi.add_apply]
    push_cast at hc
    omega
  · by_cases hmem : Q ∈ s.nodes r
    · exact (h.node r hr₀ Q hmem).1
    · rw [Pi.add_apply, count_eq_zero_of_notMem hmem, Nat.cast_zero, add_zero] at hQ
      exact h.held Q hQ
  · obtain ⟨hf, hz, hone⟩ := h.node r' (hT r' hr') Q hQ
    have hnot : Q ∉ s.nodes r := fun hmem => h.nodes_disjoint rfl hr' hmem hQ
    rw [total_cons, huses, count_eq_zero_of_notMem hnot, zero_add] at hone
    rw [Pi.add_apply, count_eq_zero_of_notMem hnot]
    exact ⟨hf, by simpa using hz, hone⟩

end Xv6.Vm
