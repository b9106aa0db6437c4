import Xv6.Vm.Walk

/-!
# Freeing a page table

`freewalk` frees the pages of a page table that maps nothing, each once (`wp_freewalk`): the
kernel held them, and holds them no more. The loop over the entries of a page has freed, after
`i` rounds, the pages below the first `i` entries.
-/

namespace Xv6.Vm

open Multiset

variable {T : Multiset Nat} {H : Nat → ℤ} {s s' : Kmem} {U r P Q v q n l p : Nat} {E : Panic → Prop}

/-- As many references as a multiset of pages has. -/
def refs (M : Multiset Nat) : Nat → ℤ := fun P => M.count P

theorem refs_add (M N : Multiset Nat) : refs (M + N) = refs M + refs N := by
  funext P
  simp [refs]

theorem refs_zero : refs 0 = 0 := by
  funext P
  simp [refs]

theorem refs_singleton (P : Nat) : refs {P} = Pi.single P 1 := by
  funext Q
  rw [refs, count_singleton, Pi.single_apply]
  split <;> rfl

/-- Freeing pages that the kernel holds once each. -/
structure Frees (U : Nat) (T : Multiset Nat) (H : Nat → ℤ) (M : Multiset Nat) (s s' : Kmem) : Prop where
  inv : Inv U T (H - refs M) s'
  other : ∀ Q, Q ∉ M → s'.mem Q = s.mem Q
  kend : s'.kend = s.kend
  exhausted : s'.exhausted = s.exhausted

/-- The pages below the first `i` entries. -/
def firstPages (s : Kmem) (l p i : Nat) : Multiset Nat := ∑ j ∈ Finset.range i, ptRadix.below s.words l p j

/-- After `i` rounds. -/
structure Cleared (U : Nat) (T : Multiset Nat) (H : Nat → ℤ) (s : Kmem) (l p i : Nat) (s' : Kmem) : Prop where
  inv : Inv U T (H - refs (firstPages s l p i)) s'
  other : ∀ Q, Q ≠ p → Q ∉ firstPages s l p i → s'.mem Q = s.mem Q
  words : ∀ j, i ≤ j → s'.words p j = s.words p j
  kend : s'.kend = s.kend
  exhausted : s'.exhausted = s.exhausted

theorem Cleared.start (h : Inv U T H s) (l p : Nat) : Cleared U T H s l p 0 s := by
  refine ⟨?_, fun _ _ _ => rfl, fun _ _ => rfl, rfl, rfl⟩
  rw [firstPages, Finset.range_zero, Finset.sum_empty, refs_zero, sub_zero]
  exact h

/-- An entry that is not valid has nothing below it. -/
theorem Cleared.skip {i : Nat} (h : Cleared U T H s l p i s') (hno : ptRadix.next (s.words p i) = none) :
    Cleared U T H s l p (i + 1) s' := by
  have hsame : firstPages s l p (i + 1) = firstPages s l p i := by
    rw [firstPages, Finset.sum_range_succ, Radix.below, hno, Option.elim_none, add_zero]
    rfl
  refine ⟨?_, ?_, fun j hj => h.words j (by omega), h.kend, h.exhausted⟩
  · rw [hsame]
    exact h.inv
  · rw [hsame]
    exact h.other

theorem firstPages_succ (s : Kmem) (l p i : Nat) :
    firstPages s l p (i + 1) = firstPages s l p i + ptRadix.below s.words l p i := Finset.sum_range_succ ..

theorem nodes_eq_firstPages (s : Kmem) (l p : Nat) :
    ptRadix.nodes s.words (l + 1) p = {p} + firstPages s l p ptRadix.width := rfl

section Round

variable {i c : Nat} (hnd : (ptRadix.nodes s.words (l + 1) p).Nodup) (hi : i < ptRadix.width)
  (hc : ptRadix.next (s.words p i) = some c)

theorem below_eq (hc : ptRadix.next (s.words p i) = some c) : ptRadix.below s.words l p i = ptRadix.nodes s.words l c := by
  rw [Radix.below, hc, Option.elim_some]

include hnd hi hc

/-- The pages below an entry have not been freed before. -/
theorem notMem_firstPages (hQ : Q ∈ ptRadix.nodes s.words l c) : Q ≠ p ∧ Q ∉ firstPages s l p i := by
  refine ⟨?_, fun hmem => ?_⟩
  · rintro rfl
    exact Radix.root_notMem_child hnd hi hc hQ
  · obtain ⟨j, hj, hmem⟩ := mem_sum.1 hmem
    have hj := Finset.mem_range.1 hj
    cases hc' : ptRadix.next (s.words p j) with
    | none =>
      rw [Radix.below, hc'] at hmem
      exact absurd hmem (notMem_zero Q)
    | some c' =>
      rw [below_eq hc'] at hmem
      exact Radix.notMem_other_child hnd hi (hj.trans hi) (Nat.ne_of_lt hj) hc hc' hQ hmem

theorem Cleared.words_below (h : Cleared U T H s l p i s') : ∀ q ∈ ptRadix.nodes s.words l c, s'.words q = s.words q := by
  intro q hq
  obtain ⟨hne, hnot⟩ := notMem_firstPages hnd hi hc hq
  funext j
  rw [Kmem.words, Kmem.words, h.other q hne hnot]

theorem held_below (hH : ∀ P ∈ ptRadix.nodes s.words (l + 1) p, H P = 1) :
    ∀ P ∈ ptRadix.nodes s.words l c, (H - refs (firstPages s l p i)) P = 1 := by
  intro P hP
  have hnot := (notMem_firstPages hnd hi hc hP).2
  rw [Pi.sub_apply, refs, count_eq_zero_of_notMem hnot, hH P (Radix.mem_nodes_child hi hc hP)]
  rfl

/-- The pages below an entry are freed, and the entry is cleared. -/
theorem Cleared.clear {s'' : Kmem} (h : Cleared U T H s l p i s')
    (hf : Frees U T (H - refs (firstPages s l p i)) (ptRadix.nodes s.words l c) s' s'')
    (hpT : ∀ r ∈ T, p ∉ s''.nodes r) : Cleared U T H s l p (i + 1) (s''.setPte (p, i) 0) := by
  have hsucc := firstPages_succ s l p i
  rw [below_eq hc] at hsucc
  refine ⟨?_, fun Q hQ hnot => ?_, fun j hj => ?_, hf.kend.trans h.kend, hf.exhausted.trans h.exhausted⟩
  · rw [hsucc, refs_add, ← sub_sub]
    exact hf.inv.write hpT _
  · rw [hsucc, mem_add, not_or] at hnot
    rw [s''.mem_setPte_of_ne i 0 hQ, hf.other Q hnot.2, h.other Q hQ hnot.1]
  · have hpnot : p ∉ ptRadix.nodes s.words l c := Radix.root_notMem_child hnd hi hc
    have hne : j ≠ i := by omega
    rw [s''.words_setPte, Function.update_of_ne hne]
    show s''.words p j = _
    rw [Kmem.words, hf.other p hpnot]
    exact h.words j (by omega)

end Round

/-- One round of the loop of `freewalk`. -/
def freeEntry (depth pagetable i : Nat) : M Unit := do
  let pte ← readPte (pagetable, i)
  if Pte.has pte PTE_V ∧ pte &&& (PTE_R ||| PTE_W ||| PTE_X) = 0 then
    freewalk depth (pte2pa pte)
    writePte (pagetable, i) 0
  else if Pte.has pte PTE_V then throw .freewalkLeaf
  else pure ()

/-- The loop, for the first `n` entries. -/
def freeEntries (depth pagetable n : Nat) : M Unit := forM (List.range n) (freeEntry depth pagetable)

theorem freewalk_succ (depth pagetable : Nat) :
    freewalk (depth + 1) pagetable = (freeEntries depth pagetable NPTE >>= fun _ => kfree pagetable) := rfl

theorem wp_freeEntries {depth n : Nat} {I : Nat → Kmem → Prop} (h₀ : I 0 s)
    (hs : ∀ i s, i < n → I i s → WP (freeEntry depth p i) E (fun _ => I (i + 1)) s) :
    WP (freeEntries depth p n) E (fun _ => I n) s := .loop h₀ hs

-- It is a loop of 512 rounds: nothing is to unfold it.
attribute [irreducible] freeEntries
attribute [local irreducible] freewalk

/-- An entry that is not valid is passed over. -/
theorem wp_freeEntry_skip {depth i : Nat} {Q : Unit → Kmem → Prop} (hno : ptRadix.next (s.words p i) = none) (hq : Q () s) :
    WP (freeEntry depth p i) E Q s := by
  have hval : Pte.has (s.words p i) PTE_V = false := by
    cases hv : Pte.has (s.words p i) PTE_V with
    | false => rfl
    | true =>
      rw [next_of_valid hv] at hno
      cases hno
  refine .bind (.bind (.get (.pure (.ite (fun hv => ?_) fun _ => .ite (fun hv => ?_) fun _ => .pure hq))))
  · exact absurd (hval.symm.trans hv.1) nofun
  · exact absurd (hval.symm.trans hv) nofun

/-- The pages below an entry are freed. -/
theorem wp_freeEntry {depth i c : Nat} {Q : Unit → Kmem → Prop} (hc : ptRadix.next (s.words p i) = some c)
    (hb : Bare (s.words p i)) (hw : WP (freewalk depth c) E (fun _ s' => Q () (s'.setPte (p, i) 0)) s) :
    WP (freeEntry depth p i) E Q s := by
  obtain ⟨hval, rfl⟩ := valid_of_next hc
  refine .bind (.bind (.get (.pure (.ite (fun _ => ?_) fun hno => absurd ⟨hval, hb⟩ hno))))
  exact .bind (hw.mono fun _ s' hq => .modify hq)

theorem wp_freewalk (h : Inv U T H s) (hnd : (ptRadix.nodes s.words l p).Nodup)
    (hH : ∀ P ∈ ptRadix.nodes s.words l p, H P = 1) (hhol : ptRadix.Hollow Bare s.words l p) :
    WP (freewalk (l + 1) p) E (fun _ => Frees U T H (ptRadix.nodes s.words l p) s) s := by
  induction l generalizing p s H with
  | zero =>
    have hp : H p = 1 := hH p (mem_singleton_self p)
    have hone : ptRadix.nodes s.words 0 p = {p} := rfl
    -- nothing is valid on the last level
    have hloop : WP (freeEntries 0 p ptRadix.width) E (fun _ s' => s' = s) s :=
      wp_freeEntries (I := fun _ s' => s' = s) rfl fun i s' hi hs => by
        subst hs
        exact wp_freeEntry_skip (hhol i hi) rfl
    rw [freewalk_succ]
    rw [ptRadix_width] at hloop
    refine .bind (hloop.mono fun _ s' hs => ?_)
    rw [hs, hone]
    refine (wp_kfree h (by omega)).mono ?_
    rintro _ s' ⟨hinv, hk, hother, hex, _⟩
    refine ⟨?_, fun Q hQ => hother Q ?_, hk.kend, hex⟩
    · rw [refs_singleton]
      exact hinv
    · rintro rfl
      exact hQ (mem_singleton_self Q)
  | succ l ih =>
    have hp : H p = 1 := hH p (Radix.mem_nodes_self _ _ _)
    have hpfirst : ∀ i ≤ ptRadix.width, p ∉ firstPages s l p i := by
      intro i hi hmem
      obtain ⟨j, hj, hmem⟩ := mem_sum.1 hmem
      have hj := (Finset.mem_range.1 hj).trans_le hi
      cases hc : ptRadix.next (s.words p j) with
      | none =>
        rw [Radix.below, hc] at hmem
        exact absurd hmem (notMem_zero p)
      | some c =>
        rw [below_eq hc] at hmem
        exact Radix.root_notMem_child hnd hj hc hmem
    have hpH : ∀ i ≤ ptRadix.width, 0 < (H - refs (firstPages s l p i)) p := by
      intro i hi
      rw [Pi.sub_apply, hp, refs, count_eq_zero_of_notMem (hpfirst i hi)]
      decide
    have hloop : WP (freeEntries (l + 1) p ptRadix.width) E
        (fun _ => Cleared U T H s l p ptRadix.width) s :=
      wp_freeEntries (I := Cleared U T H s l p) (.start h l p) fun i s' hi hs => by
        have hword : s'.words p i = s.words p i := hs.words i (Nat.le_refl i)
        cases hc : ptRadix.next (s.words p i) with
        | none => exact wp_freeEntry_skip (by rw [hword, hc]) (hs.skip hc)
        | some c =>
          obtain ⟨hb, hhol'⟩ := hhol i hi c hc
          have hsame := hs.words_below hnd hi hc
          have hnodes : ptRadix.nodes s'.words l c = ptRadix.nodes s.words l c := Radix.nodes_congr hsame
          have hc' : ptRadix.next (s'.words p i) = some c := by rw [hword, hc]
          have hrec : WP (freewalk (l + 1) c) E
              (fun _ => Frees U T (H - refs (firstPages s l p i)) (ptRadix.nodes s'.words l c) s') s' := by
            refine ih hs.inv ?_ ?_ (hhol'.congr hsame)
            · rw [hnodes]
              exact Radix.nodup_child hnd hi hc
            · rw [hnodes]
              exact held_below hnd hi hc hH
          rw [hnodes] at hrec
          refine wp_freeEntry hc' (by rw [hword]; exact hb) (hrec.mono fun _ s'' hf => ?_)
          refine hs.clear hnd hi hc hf fun r hr => ?_
          have hpos := hpH (i + 1) hi
          rw [firstPages_succ, below_eq hc, refs_add, ← sub_sub] at hpos
          exact hf.inv.notMem_of_held hpos hr
    rw [freewalk_succ]
    rw [ptRadix_width] at hloop
    refine .bind (hloop.mono fun _ s' hs => ?_)
    rw [← ptRadix_width] at hs
    refine (wp_kfree hs.inv (hpH _ (Nat.le_refl _))).mono ?_
    rintro _ s'' ⟨hinv, hk, hother, hex, _⟩
    rw [nodes_eq_firstPages]
    refine ⟨?_, fun Q hQ => ?_, hk.kend.trans hs.kend, hex.trans hs.exhausted⟩
    · rw [refs_add, refs_singleton, add_comm, ← sub_sub]
      exact hinv
    · rw [mem_add, mem_singleton, not_or] at hQ
      rw [hother Q hQ.1, hs.other Q hQ.1 hQ.2]

/-- A page table that maps nothing is freed. -/
theorem wp_freewalk_table (h : Inv U (r ::ₘ T) H s) (hno : ∀ v < NPTE ^ 3, Pte.has (s.pte r v) PTE_V = false)
    (hU : U ≤ NPTE ^ 3) : WP (freewalk 3 r) E (fun _ s' => Inv U T H s' ∧
      (∀ Q, Q ∉ s.nodes r → s'.mem Q = s.mem Q) ∧ s'.kend = s.kend ∧ s'.exhausted = s.exhausted) s := by
  have hr₀ := mem_cons_self r T
  have hnd := h.nodes_nodup hr₀
  have hinv := h.destroy fun v hv => hno v (hv.trans_le hU)
  have hhol : ptRadix.Hollow Bare s.words 2 r := by
    refine (h.inner r hr₀).hollow fun k hk => next_of_invalid ?_
    rw [ptRadix_width] at hk
    have hk' := hno k hk
    rwa [Kmem.pte, if_pos hk] at hk'
  have hH : ∀ P ∈ s.nodes r, (H + fun P => ((s.nodes r).count P : ℤ)) P = 1 := fun P hP => by
    rw [Pi.add_apply, (h.node r hr₀ P hP).2.1, zero_add, count_eq_one_of_mem hnd hP]
    rfl
  refine (wp_freewalk hinv hnd hH hhol).mono fun _ s' hf => ⟨?_, hf.other, hf.kend, hf.exhausted⟩
  have := hf.inv
  rwa [show (H + fun P => ((s.nodes r).count P : ℤ)) - refs (ptRadix.nodes s.words 2 r) = H from
    add_sub_cancel_right H (refs (s.nodes r))] at this

end Xv6.Vm
