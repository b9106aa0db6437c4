import Xv6.Vm.Tables

/-!
# The walk of a page table

What `walk` finds and what it adds (`wp_walk`, `wp_walk_alloc`), and what becomes of the
invariant where one page is mapped (`wp_mapPage`) or unmapped (`wp_unmapPage`), and where the
pages of a page table are freed (`wp_freewalk`).
-/

namespace Xv6.Vm

open Function Multiset

variable {T : Multiset Nat} {H : Nat → ℤ} {s s' : Kmem} {U r P Q v va q n : Nat} {E : Panic → Prop}

/-- The virtual pages below `MAXVA`. -/
theorem page_lt (hva : va < MAXVA) : va / PGSIZE < NPTE ^ 3 := by
  have hmax : MAXVA = 2 ^ 26 * PGSIZE := rfl
  have hlt : va / PGSIZE < 2 ^ 26 := (Nat.div_lt_iff_lt_mul (by decide)).2 (hmax ▸ hva)
  exact hlt.trans (by decide)

/-- What `walk` gives for page `v`: the place of its entry, or nothing. -/
def Kmem.Found (s : Kmem) (r v : Nat) : Option Slot → Prop
  | none => s.pte r v = 0
  | some slot => ∃ q, s.Reach v r 0 q ∧ slot = (q, ptRadix.idx 0 v)

theorem Kmem.Reach.pte_eq (hr : s.Reach v r 0 q) (hv : v < NPTE ^ 3) : s.pte r v = (s.mem q).word (ptRadix.idx 0 v) := by
  rw [Kmem.pte, if_pos hv]
  exact Radix.Reach.leaf_eq hr

/-! ## Without allocation -/

theorem wp_walkFrom (l p : Nat) : WP (walkFrom va false l p) E (fun o s' => s' = s ∧ match o with
    | none => ptRadix.leaf s.words l p (va / PGSIZE) = ptRadix.zero
    | some slot => ∃ q, ptRadix.Reach s.words (va / PGSIZE) l p 0 q ∧ slot = (q, ptRadix.idx 0 (va / PGSIZE))) s := by
  induction l generalizing p with
  | zero =>
    rw [walkFrom]
    exact .pure ⟨rfl, p, .refl 0 p, by rw [px_eq]⟩
  | succ l ih =>
    rw [walkFrom]
    refine .bind (.bind (.get (.pure ?_)))
    rw [px_eq]
    refine .ite (fun hv => ?_) fun hv => .ite nofun fun _ => .pure ⟨rfl, ?_⟩
    · have hn : ptRadix.next (s.words p (ptRadix.idx (l + 1) (va / PGSIZE))) = some _ := next_of_valid hv
      refine (ih _).mono fun o s' ho => ⟨ho.1, ?_⟩
      cases o with
      | none =>
        rw [Radix.leaf, hn]
        exact ho.2
      | some slot =>
        obtain ⟨q, hq, hslot⟩ := ho.2
        exact ⟨q, .step hn hq, hslot⟩
    · exact Radix.Reach.leaf_zero (.refl (l + 1) p) (next_of_invalid (Bool.not_eq_true _ ▸ hv))

theorem wp_walk (hva : va < MAXVA) : WP (walk r va false) E (fun o s' => s' = s ∧ s.Found r (va / PGSIZE) o) s := by
  rw [walk, if_neg (Nat.not_le.2 hva)]
  refine (wp_walkFrom 2 r).mono fun o s' ho => ⟨ho.1, ?_⟩
  cases o with
  | none =>
    show s.pte r (va / PGSIZE) = 0
    rw [Kmem.pte, if_pos (page_lt hva), ← ptRadix_zero]
    exact ho.2
  | some slot => exact ho.2

/-! ## With allocation -/

/-- A page that the kernel holds alone is not of a page table. -/
theorem Sole.notMem (hs : Sole U T H s P) (hr : r ∈ T) : P ∉ s.nodes r := notMem_of_total hr hs.unused

theorem Sole.write_fixed (hs : Sole U T H s P) (pg : Page) : Fixed T s (s.setPage P pg) := by
  refine fun r hr q hq => s.mem_setPage_of_ne pg ?_
  rintro rfl
  exact hs.notMem hr hq

theorem Sole.write (hs : Sole U T H s P) (pg : Page) : Sole U T H (s.setPage P pg) P := by
  exact ⟨hs.frame, hs.held, (total_congr fun r hr => Kmem.uses_congr (hs.write_fixed pg r hr) P).trans hs.unused⟩

/-- Such a page can be written. -/
theorem Sole.write_keeps (hs : Sole U T H s P) {H' : Nat → ℤ} (hH : H' P ≤ 0) (pg : Page) :
    Keeps U T H' s (s.setPage P pg) := by
  refine ⟨rfl, id, fun r hr => Kmem.pte_congr (hs.write_fixed pg r hr), fun r hr v hv hval => ?_, fun Q hQ => ?_,
    fun Q hQ => s.mem_setPage_of_ne pg ?_⟩
  · exact s.mem_setPage_of_ne pg (ne_of_total hr hv hval hs.unused)
  · refine s.mem_setPage_of_ne pg ?_
    rintro rfl
    omega
  · rintro rfl
    exact hQ hs.frame

/-- Nothing of a page table is where a page is taken from the free ones, or where one that the kernel
holds alone is written. -/
theorem Kmem.Reach.frame {l : Nat} (hq : s.Reach v r l q) (hmem : ∀ Q, Q ≠ P → s'.mem Q = s.mem Q)
    (hP : P ∉ s.nodes r) : s'.Reach v r l q := by
  refine Radix.Reach.congr hq fun x hx => ?_
  funext i
  rw [Kmem.words, Kmem.words, hmem x (by rintro rfl; exact hP hx)]

theorem Inv.setPte_grow_keeps {j : Nat} (h : Inv U (r ::ₘ T) H s) (hs : Sole U (r ::ₘ T) H s n) (hz : s.mem n = fun _ => 0)
    (hr : s.Reach v r (j + 1) q) (habs : Pte.has (s.words q (ptRadix.idx (j + 1) v)) PTE_V = false) :
    Keeps U (r ::ₘ T) H s (s.setPte (q, ptRadix.idx (j + 1) v) (pa2pte n ||| PTE_V)) := by
  have hk : Keeps U T H s (s.setPte (q, ptRadix.idx (j + 1) v) (pa2pte n ||| PTE_V)) := h.setPte_keeps _ hr _
  refine ⟨hk.kend, hk.exhausted, fun r' hr' => ?_, fun r' hr' v' hv' hval' => ?_, hk.held, hk.outside⟩
  · obtain rfl | hr' := mem_cons.1 hr'
    · exact h.pte_grow hs hz hr habs
    · exact hk.pte r' hr'
  · obtain rfl | hr' := mem_cons.1 hr'
    · exact h.page_setPte _ hr _ hv' hval'
    · exact hk.page r' hr' v' hv' hval'

/-- A new page is cleared, and then hung up in a page table. -/
theorem Inv.hang {j : Nat} (h : Inv U (r ::ₘ T) (H + Pi.single n 1) s) (hs : Sole U (r ::ₘ T) (H + Pi.single n 1) s n)
    (hH : H n = 0) (hr : s.Reach v r (j + 1) q) (habs : Pte.has (s.words q (ptRadix.idx (j + 1) v)) PTE_V = false) :
    Inv U (r ::ₘ T) H ((s.setPage n fun _ => 0).setPte (q, ptRadix.idx (j + 1) v) (pa2pte n ||| PTE_V)) ∧
      Keeps U (r ::ₘ T) H s ((s.setPage n fun _ => 0).setPte (q, ptRadix.idx (j + 1) v) (pa2pte n ||| PTE_V)) ∧
      Fixed T s ((s.setPage n fun _ => 0).setPte (q, ptRadix.idx (j + 1) v) (pa2pte n ||| PTE_V)) ∧
      ((s.setPage n fun _ => 0).setPte (q, ptRadix.idx (j + 1) v) (pa2pte n ||| PTE_V)).Reach v r j n := by
  have hr₀ := mem_cons_self r T
  have hne : q ≠ n := by
    rintro rfl
    exact hs.notMem hr₀ hr.mem
  have hs₁ := hs.write fun _ => 0
  have h₁ := h.write (fun r hr => hs.notMem hr) fun _ => 0
  have hr₁ : (s.setPage n fun _ => 0).Reach v r (j + 1) q :=
    hr.frame (fun Q hQ => s.mem_setPage_of_ne _ hQ) (hs.notMem hr₀)
  have hz : (s.setPage n fun _ => 0).mem n = fun _ => 0 := update_self ..
  have habs₁ : Pte.has ((s.setPage n fun _ => 0).words q (ptRadix.idx (j + 1) v)) PTE_V = false := by
    rwa [s.words_setPage_of_ne _ hne]
  have hinv := h₁.grow hs₁ hz hr₁ habs₁
  rw [add_sub_cancel_right] at hinv
  have hk := h₁.setPte_grow_keeps hs₁ hz hr₁ habs₁
  have hmono : ∀ P, 0 < H P → 0 < (H + Pi.single n 1 : Nat → ℤ) P := by
    intro P hP
    rw [Pi.add_apply, Pi.single_apply]
    split <;> omega
  exact ⟨hinv, (hs.write_keeps hH.le _).trans (hk.mono (fun _ => id) hmono),
    ((hs.write_fixed _).mono fun _ => mem_cons_of_mem).trans (h₁.setPte_fixed _ hr₁ _), h₁.reach_grow hs₁ hz hr₁ habs₁⟩

/-- What a walk that may allocate leads to. -/
structure Walked (U : Nat) (T : Multiset Nat) (H : Nat → ℤ) (r v : Nat) (s : Kmem) (o : Option Slot) (s' : Kmem) :
    Prop where
  inv : Inv U (r ::ₘ T) H s'
  keeps : Keeps U (r ::ₘ T) H s s'
  found : match o with
    | none => s'.exhausted = true
    | some slot => ∃ q, s'.Reach v r 0 q ∧ slot = (q, ptRadix.idx 0 v)
  fixed : Fixed T s s'

theorem wp_walkFrom_alloc {l p : Nat} (h : Inv U (r ::ₘ T) H s) (hr : s.Reach (va / PGSIZE) r l p) :
    WP (walkFrom va true l p) E (Walked U T H r (va / PGSIZE) s) s := by
  induction l generalizing p s with
  | zero =>
    rw [walkFrom]
    exact .pure ⟨h, .refl .., ⟨p, hr, by rw [px_eq]⟩, .refl T s⟩
  | succ l ih =>
    have hr₀ := mem_cons_self r T
    rw [walkFrom]
    refine .bind (.bind (.get (.pure ?_)))
    rw [px_eq]
    refine .ite (fun hval => ?_) fun hval => .ite (fun _ => .bind ((wp_kalloc h).mono fun o s₁ ho => ?_)) nofun
    · have hn : ptRadix.next (s.words p (ptRadix.idx (l + 1) (va / PGSIZE))) = some _ := next_of_valid hval
      exact ih h (Radix.Reach.snoc hr hn)
    · cases ho with
      | none _ hex _ _ hinv hk hfix => exact .pure ⟨hinv, hk, hex, hfix.mono fun _ => mem_cons_of_mem⟩
      | some _ n _ hinv hk hs hn hother hex hfix =>
        have hfresh : n ∉ s.nodes r := by
          have hsame : s.nodes r = s₁.nodes r := Kmem.nodes_congr fun q hq =>
            (hother q (by rintro rfl; exact hs.notMem hr₀ hq)).symm
          rw [hsame]
          exact hs.notMem hr₀
        have hr₁ : s₁.Reach (va / PGSIZE) r (l + 1) p := hr.frame hother hfresh
        have habs : Pte.has (s₁.words p (ptRadix.idx (l + 1) (va / PGSIZE))) PTE_V = false := by
          have hp : p ≠ n := by
            rintro rfl
            exact hfresh hr.mem
          rw [Kmem.words, hother p hp]
          exact Bool.not_eq_true _ ▸ hval
        obtain ⟨hinv₃, hk₃, hfix₃, hr₃⟩ := hinv.hang hs hn hr₁ habs
        refine .bind (.modify (.bind (.modify ((ih hinv₃ hr₃).mono fun o s₄ ho => ?_))))
        exact ⟨ho.inv, hk.trans (hk₃.trans ho.keeps), ho.found,
          (hfix.mono fun _ => mem_cons_of_mem).trans (hfix₃.trans ho.fixed)⟩

theorem wp_walk_alloc (hva : va < MAXVA) (h : Inv U (r ::ₘ T) H s) :
    WP (walk r va true) E (Walked U T H r (va / PGSIZE) s) s := by
  rw [walk, if_neg (Nat.not_le.2 hva)]
  exact wp_walkFrom_alloc h (.refl 2 r)

/-- The roots of page tables are different ones. -/
theorem Inv.root_notMem (h : Inv U (r ::ₘ T) H s) : r ∉ T := fun hr =>
  h.nodes_disjoint rfl hr (Radix.mem_nodes_self s.words 2 r) (Radix.mem_nodes_self s.words 2 r)

theorem wp_uvmcreate (h : Inv U T H s) : WP uvmcreate E (fun o s' => Keeps U T H s s' ∧ Fixed T s s' ∧ match o with
    | none => Inv U T H s' ∧ s'.exhausted = true
    | some r => Inv U (r ::ₘ T) H s' ∧ (s'.pte r = fun _ => 0) ∧ s'.exhausted = s.exhausted) s := by
  unfold uvmcreate
  refine .bind ((wp_kalloc h).mono fun o s₁ ho => ?_)
  cases ho with
  | none _ hex _ _ hinv hk hfix => exact .pure ⟨hk, hfix, hinv, hex⟩
  | some _ n _ hinv hk hs hn _ hex hfix =>
    refine .bind (.modify (.pure ⟨hk.trans (hs.write_keeps hn.le _), hfix.trans (hs.write_fixed _), ?_⟩))
    have hz : (s₁.setPage n fun _ => 0).mem n = fun _ => 0 := update_self ..
    obtain ⟨hinv', hpte⟩ := (hinv.write (fun r hr => hs.notMem hr) fun _ => 0).create (hs.write _) hz
    rw [add_sub_cancel_right] at hinv'
    exact ⟨hinv', hpte, hex⟩

/-! ## One page -/

/-- The entry of page `v` is now `w`; what else is mapped or held is as before. -/
structure Sets (U : Nat) (T : Multiset Nat) (H : Nat → ℤ) (r v : Nat) (w : Pte) (s s' : Kmem) : Prop where
  keeps : Keeps U T H s s'
  pte : s'.pte r = update (s.pte r) v w
  page : ∀ v' < U, v' ≠ v → Pte.has (s.pte r v') PTE_V = true →
    s'.mem (pte2pa (s.pte r v')) = s.mem (pte2pa (s.pte r v'))
  fixed : Fixed T s s'

/-- What is asked of an entry that is to be set. -/
def Settable (U : Nat) (T : Multiset Nat) (s : Kmem) (v : Nat) (w : Pte) : Prop :=
  v < U → Pte.has w PTE_V = true → Leaf s w ∧ (∀ r ∈ T, pte2pa w ∉ s.nodes r) ∧
    ∀ r ∈ T, ∀ v' < U, Pte.has (s.pte r v') PTE_V = true → pte2pa (s.pte r v') = pte2pa w → v' = v

theorem Inv.sets (h : Inv U (r ::ₘ T) H s) (hr : s.Reach v r 0 q) (hv : v < NPTE ^ 3) (w : Pte) :
    Sets U T H r v w s (s.setPte (q, ptRadix.idx 0 v) w) :=
  ⟨h.setPte_keeps w hr _, h.pte_setLeaf hr hv w, fun _ hv' _ hval => h.page_setPte w hr _ hv' hval, h.setPte_fixed w hr _⟩

/-- One round of the loop of `mappages`. -/
theorem wp_mapFrom {perm : Pte} {n pa : Nat} {Q : Bool → Kmem → Prop} (hva : va < MAXVA)
    (h : Inv U (r ::ₘ T) H s) (hfree : Pte.has (s.pte r (va / PGSIZE)) PTE_V = false)
    (hw : ∀ s', Inv U (r ::ₘ T) H s' → Keeps U (r ::ₘ T) H s s' →
      Settable U (r ::ₘ T) s' (va / PGSIZE) (pa2pte pa ||| perm ||| PTE_V))
    (hnone : ∀ s', Inv U (r ::ₘ T) H s' → Keeps U (r ::ₘ T) H s s' → Fixed T s s' → s'.exhausted = true → Q false s')
    (hsome : ∀ s', Inv U (r ::ₘ T) (H - owed U (va / PGSIZE) (pa2pte pa ||| perm ||| PTE_V)) s' →
      Sets U T H r (va / PGSIZE) (pa2pte pa ||| perm ||| PTE_V) s s' →
      WP (mapFrom r perm n (va + PGSIZE) (pa + PGSIZE)) E Q s') : WP (mapFrom r perm (n + 1) va pa) E Q s := by
  have hr₀ := mem_cons_self r T
  rw [mapFrom]
  refine .bind ((wp_walk_alloc hva h).mono fun o s₁ ho => ?_)
  have hpte := ho.keeps.pte r hr₀
  cases o with
  | none => exact .pure (hnone s₁ ho.inv ho.keeps ho.fixed ho.found)
  | some slot =>
    obtain ⟨q, hq, rfl⟩ := ho.found
    refine .bind (.bind (.get (.pure ?_)))
    have hold : (s₁.mem q).word (ptRadix.idx 0 (va / PGSIZE)) = s.pte r (va / PGSIZE) := by
      rw [← hq.pte_eq (page_lt hva), hpte]
    rw [hold]
    refine .ite (fun hval => ?_) fun _ => .bind (.modify ?_)
    · rw [hfree] at hval
      cases hval
    · have hinv := ho.inv.setLeaf hq (page_lt hva) _ (hw s₁ ho.inv ho.keeps)
      rw [hpte, owed_invalid _ hfree, add_zero] at hinv
      have hsets := ho.inv.sets hq (page_lt hva) (pa2pte pa ||| perm ||| PTE_V)
      refine hsome _ hinv ⟨?_, ?_, fun v' hv' hne hval => ?_, ho.fixed.trans hsets.fixed⟩
      · exact (ho.keeps.mono (fun r' hr' => mem_cons_of_mem hr') fun _ => id).trans hsets.keeps
      · exact hsets.pte.trans (by rw [hpte])
      · have hpage := hsets.page v' hv' hne
        rw [hpte] at hpage
        exact (hpage hval).trans (ho.keeps.page r hr₀ v' hv' hval)

/-! ## Unmapping -/

theorem Kmem.setPte_dropped (s : Kmem) {i : Nat} (w : Pte) (last : Bool) (h : q ≠ P) :
    (s.dropped P last).setPte (q, i) w = (s.setPte (q, i) w).dropped P last := by
  cases last with
  | false => rfl
  | true =>
    rw [Kmem.setPte, s.mem_dropped P true (.inl h)]
    have hmem : update (update s.mem q ((s.mem q).setWord i w)) P (fun _ => 1) =
        update (update s.mem P fun _ => 1) q ((s.mem q).setWord i w) := update_comm h ..
    exact congrArg (fun m => { s.dropped P true with mem := m }) hmem.symm

/-- The references that are dropped where an entry is removed. -/
def freed (doFree : Bool) (pte : Pte) : Nat → ℤ :=
  if doFree = true ∧ Pte.has pte PTE_V = true then Pi.single (pte2pa pte) 1 else 0

/-- The page of an entry that is removed is not written. -/
theorem Inv.unset_keeps (h : Inv U (r ::ₘ T) H s) (hr : s.Reach v r 0 q) (w : Pte) :
    Keeps U T (H + owed U v (s.pte r v)) s (s.setPte (q, ptRadix.idx 0 v) w) := by
  have hk : Keeps U T H s (s.setPte (q, ptRadix.idx 0 v) w) := h.setPte_keeps w hr _
  refine { hk with held := fun Q hQ => ?_ }
  by_cases howed : owed U v (s.pte r v) Q = 0
  · rw [Pi.add_apply, howed, add_zero] at hQ
    exact hk.held Q hQ
  · by_cases hP : v < U ∧ Pte.has (s.pte r v) PTE_V = true ∧ pte2pa (s.pte r v) = Q
    · obtain ⟨hv, hval, rfl⟩ := hP
      exact h.page_setPte w hr _ hv hval
    · exact absurd (owed_eq_zero fun hv hval e => hP ⟨hv, hval, e⟩) howed

section Unmap

variable (hva : va < MAXVA) (h : Inv U (r ::ₘ T) H s)
include hva h

/-- The page of the entry is kept. -/
theorem Inv.unset (hq : s.Reach (va / PGSIZE) r 0 q) :
    Inv U (r ::ₘ T) (H + owed U (va / PGSIZE) (s.pte r (va / PGSIZE))) (s.setPte (q, ptRadix.idx 0 (va / PGSIZE)) 0) ∧
      Sets U T (H + owed U (va / PGSIZE) (s.pte r (va / PGSIZE))) r (va / PGSIZE) 0 s
        (s.setPte (q, ptRadix.idx 0 (va / PGSIZE)) 0) := by
  have hinv := h.setLeaf hq (page_lt hva) 0 fun _ hval => by rw [has_zero] at hval; cases hval
  rw [owed_invalid _ (has_zero _), sub_zero] at hinv
  have hsets := h.sets hq (page_lt hva) 0
  exact ⟨hinv, h.unset_keeps hq 0, hsets.pte, hsets.page, hsets.fixed⟩

/-- A reference to the page of the entry is dropped. -/
theorem Inv.unset_free (hq : s.Reach (va / PGSIZE) r 0 q)
    (hown : 0 < (H + owed U (va / PGSIZE) (s.pte r (va / PGSIZE))) P) :
    Inv U (r ::ₘ T) (H + owed U (va / PGSIZE) (s.pte r (va / PGSIZE)) - Pi.single P 1)
        ((s.dropped P (s.last P)).setPte (q, ptRadix.idx 0 (va / PGSIZE)) 0) ∧
      Sets U T (H + owed U (va / PGSIZE) (s.pte r (va / PGSIZE)) - Pi.single P 1) r (va / PGSIZE) 0 s
        ((s.dropped P (s.last P)).setPte (q, ptRadix.idx 0 (va / PGSIZE)) 0) := by
  have hr₀ := mem_cons_self r T
  obtain ⟨hinv, hsets⟩ := h.unset hva hq
  have hne : q ≠ P := by
    rintro rfl
    refine hinv.notMem_of_held hown hr₀ ?_
    rw [h.nodes_setLeaf hq]
    exact hq.mem
  have hlast := (s.setPte (q, ptRadix.idx 0 (va / PGSIZE)) 0).last_iff (hinv.one_le_ref_of_held hown)
  rw [s.setPte_dropped 0 (s.last P) hne]
  have hk := hinv.kfree_keeps hown hlast
  refine ⟨hinv.kfree hown hlast, ⟨(hsets.keeps.mono (fun _ => id) fun Q hQ => ?_).trans
    (hk.mono (fun r' hr' => mem_cons_of_mem hr') fun _ => id), (hk.pte r hr₀).trans hsets.pte,
    fun v' hv' hne' hval => ?_, hsets.fixed.trans ((hinv.kfree_fixed hown _).mono fun _ => mem_cons_of_mem)⟩⟩
  · rw [Pi.sub_apply, Pi.single_apply] at hQ
    split at hQ <;> omega
  · have hsame : (s.setPte (q, ptRadix.idx 0 (va / PGSIZE)) 0).pte r v' = s.pte r v' := by
      rw [hsets.pte, update_of_ne hne']
    have hpage := hk.page r hr₀ v' hv'
    rw [hsame] at hpage
    exact (hpage hval).trans (hsets.page v' hv' hne' hval)

theorem wp_unmapPage {doFree : Bool} (hown : doFree = true → Pte.has (s.pte r (va / PGSIZE)) PTE_V = true →
      0 < (H + owed U (va / PGSIZE) (s.pte r (va / PGSIZE))) (pte2pa (s.pte r (va / PGSIZE)))) :
    WP (unmapPage r va doFree) E (fun _ s' =>
      (Pte.has (s.pte r (va / PGSIZE)) PTE_V = false → s' = s) ∧
      (Pte.has (s.pte r (va / PGSIZE)) PTE_V = true →
        Inv U (r ::ₘ T) (H + owed U (va / PGSIZE) (s.pte r (va / PGSIZE)) - freed doFree (s.pte r (va / PGSIZE))) s' ∧
        Sets U T (H + owed U (va / PGSIZE) (s.pte r (va / PGSIZE)) - freed doFree (s.pte r (va / PGSIZE))) r
          (va / PGSIZE) 0 s s')) s := by
  rw [unmapPage]
  refine .bind ((wp_walk hva).mono fun o s₁ ⟨hs, ho⟩ => ?_)
  subst hs
  cases o with
  | none =>
    have hz : s₁.pte r (va / PGSIZE) = 0 := ho
    refine .pure ⟨fun _ => rfl, fun hval => ?_⟩
    rw [hz, has_zero] at hval
    cases hval
  | some slot =>
    obtain ⟨q, hq, rfl⟩ := ho
    refine .bind (.bind (.get (.pure ?_)))
    rw [← hq.pte_eq (page_lt hva)]
    refine .ite (fun hval => .pure ⟨fun _ => rfl, fun hval' => ?_⟩) fun hval => ?_
    · rw [hval] at hval'
      cases hval'
    · have hval : Pte.has (s₁.pte r (va / PGSIZE)) PTE_V = true := by simpa using hval
      cases doFree with
      | false =>
        refine .bind (.pure (.modify ⟨fun hno => absurd (hno.symm.trans hval) nofun, fun _ => ?_⟩))
        rw [freed, if_neg nofun, sub_zero]
        exact h.unset hva hq
      | true =>
        have hown := hown rfl hval
        have hframe : s₁.Frame (pte2pa (s₁.pte r (va / PGSIZE))) := (h.unset hva hq).1.frame_of_held hown
        refine .bind ?_
        rw [WP, kfree_eq hframe]
        refine .modify ⟨fun hno => absurd (hno.symm.trans hval) nofun, fun _ => ?_⟩
        rw [freed, if_pos ⟨rfl, hval⟩]
        exact h.unset_free hva hq hown

end Unmap

/-! ### Ranges -/

/-- What the kernel gets back for the entry of page `v`, and keeps. -/
def gain (U : Nat) (doFree : Bool) (m : Nat → Pte) (v : Nat) : Nat → ℤ := owed U v (m v) - freed doFree (m v)

theorem gain_invalid {doFree : Bool} {m : Nat → Pte} (h : Pte.has (m v) PTE_V = false) : gain U doFree m v = 0 := by
  rw [gain, owed_invalid _ h, freed, if_neg (by rw [h]; exact nofun), sub_zero]

/-- What the kernel gets back for a range of pages. -/
def gains (U : Nat) (doFree : Bool) (m : Nat → Pte) (v k : Nat) : Nat → ℤ :=
  ∑ i ∈ Finset.range k, gain U doFree m (v + i)

theorem gains_succ (U : Nat) (doFree : Bool) (m : Nat → Pte) (v k : Nat) :
    gains U doFree m v (k + 1) = gains U doFree m v k + gain U doFree m (v + k) := Finset.sum_range_succ ..

/-- The first `k` pages from page `v` on have been unmapped; what `K` holds is as before. -/
structure Unmapped (U : Nat) (T : Multiset Nat) (H K : Nat → ℤ) (r v : Nat) (doFree : Bool) (s : Kmem) (k : Nat)
    (s' : Kmem) : Prop where
  inv : Inv U (r ::ₘ T) (H + gains U doFree (s.pte r) v k) s'
  keeps : Keeps U T K s s'
  pte : ∀ v', s'.pte r v' = if v ≤ v' ∧ v' < v + k ∧ Pte.has (s.pte r v') PTE_V = true then 0 else s.pte r v'
  page : ∀ v' < U, ¬(v ≤ v' ∧ v' < v + k) → Pte.has (s.pte r v') PTE_V = true →
    s'.mem (pte2pa (s.pte r v')) = s.mem (pte2pa (s.pte r v'))
  fixed : Fixed T s s'

section Unmapped

variable {K : Nat → ℤ} {doFree : Bool} {k : Nat} (h : Unmapped U T H K r v doFree s k s')
include h

/-- Nothing is mapped at the next page. -/
theorem Unmapped.skip (hval : Pte.has (s.pte r (v + k)) PTE_V = false) : Unmapped U T H K r v doFree s (k + 1) s' := by
  refine ⟨?_, h.keeps, fun v' => ?_, fun v' hv' hout => h.page v' hv' (by omega), h.fixed⟩
  · rw [gains_succ, gain_invalid hval, add_zero]
    exact h.inv
  · rw [h.pte]
    by_cases e : v' = v + k
    · rw [e, hval, if_neg nofun, if_neg nofun]
    · have hiff : v' < v + k ↔ v' < v + (k + 1) := by omega
      simp only [hiff]

theorem Unmapped.next {s'' : Kmem} (hinv : Inv U (r ::ₘ T) (H + gains U doFree (s.pte r) v (k + 1)) s'')
    (hsets : Sets U T (H + gains U doFree (s.pte r) v (k + 1)) r (v + k) 0 s' s'')
    (hval : Pte.has (s.pte r (v + k)) PTE_V = true)
    (hK : ∀ P, 0 < K P → 0 < (H + gains U doFree (s.pte r) v (k + 1)) P) : Unmapped U T H K r v doFree s (k + 1) s'' := by
  refine ⟨hinv, h.keeps.trans (hsets.keeps.mono (fun _ => id) hK), fun v' => ?_, fun v' hv' hout hval' => ?_,
    h.fixed.trans hsets.fixed⟩
  · rw [hsets.pte, update_apply, h.pte]
    by_cases e : v' = v + k
    · rw [if_pos e, if_pos ⟨by omega, by omega, e ▸ hval⟩]
    · have hiff : v' < v + k ↔ v' < v + (k + 1) := by omega
      simp only [if_neg e, hiff]
  · have hsame : s'.pte r v' = s.pte r v' := by
      rw [h.pte, if_neg fun hc => hout ⟨hc.1, by omega⟩]
    have hpage := hsets.page v' hv' (by omega)
    rw [hsame] at hpage
    exact (hpage hval').trans (h.page v' hv' (by omega) hval')

end Unmapped

theorem wp_uvmunmap {K : Nat → ℤ} {npages : Nat} (doFree : Bool) (halign : va % PGSIZE = 0)
    (hva : va + npages * PGSIZE ≤ MAXVA) (h : Inv U (r ::ₘ T) H s)
    (hown : ∀ k < npages, doFree = true → Pte.has (s.pte r (va / PGSIZE + k)) PTE_V = true →
      0 < (H + gains U doFree (s.pte r) (va / PGSIZE) k + owed U (va / PGSIZE + k) (s.pte r (va / PGSIZE + k)))
        (pte2pa (s.pte r (va / PGSIZE + k))))
    (hK : ∀ k ≤ npages, ∀ P, 0 < K P → 0 < (H + gains U doFree (s.pte r) (va / PGSIZE) k) P) :
    WP (uvmunmap r va npages doFree) E (fun _ => Unmapped U T H K r (va / PGSIZE) doFree s npages) s := by
  have hmax : MAXVA < 2 ^ 64 := by decide
  have hcount : ((va + npages * PGSIZE) % 2 ^ 64 - va) / PGSIZE = npages := by
    rw [Nat.mod_eq_of_lt (hva.trans_lt hmax), Nat.add_sub_cancel_left, Nat.mul_div_cancel _ (by decide)]
  rw [uvmunmap, if_neg (not_not.2 halign), hcount]
  refine .loop (I := Unmapped U T H K r (va / PGSIZE) doFree s) ?_ fun k s₁ hk hs => ?_
  · refine ⟨?_, .refl .., fun v' => ?_, fun _ _ _ _ => rfl, .refl T s⟩
    · rw [gains, Finset.range_zero, Finset.sum_empty, add_zero]
      exact h
    · rw [if_neg fun hc => absurd hc.2.1 (Nat.not_lt.2 hc.1)]
  · have hpage : (va + k * PGSIZE) / PGSIZE = va / PGSIZE + k := Nat.add_mul_div_right _ _ (by decide)
    have hlt : va + k * PGSIZE < MAXVA := by
      have : k * PGSIZE < npages * PGSIZE := Nat.mul_lt_mul_of_pos_right hk (by decide)
      omega
    -- the entry of this page has not changed yet
    have hpte : s₁.pte r (va / PGSIZE + k) = s.pte r (va / PGSIZE + k) := by
      rw [hs.pte, if_neg fun hc => absurd hc.2.1 (Nat.lt_irrefl _)]
    refine (wp_unmapPage hlt hs.inv ?_).mono fun _ s₂ hs₂ => ?_
    · rw [hpage, hpte]
      exact hown k hk
    · rw [hpage, hpte] at hs₂
      cases hval : Pte.has (s.pte r (va / PGSIZE + k)) PTE_V with
      | false =>
        rw [hs₂.1 hval]
        exact hs.skip hval
      | true =>
        obtain ⟨hinv, hsets⟩ := hs₂.2 hval
        rw [add_sub_assoc, add_assoc] at hinv hsets
        rw [← gain, ← gains_succ] at hinv hsets
        exact hs.next hinv hsets hval (hK (k + 1) hk)

end Xv6.Vm
