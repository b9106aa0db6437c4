import Xv6.Vm.Model
import Xv6.Framework.Wp
import Xv6.Framework.Sums

/-!
# Who owns a page

The invariant of the allocator and the page tables. `Inv T H s` says that `T` are the
roots of all page tables, that the reference count of each page is the number of its
owners, and that the free pages are those without any. The owners of a page are the
page tables that it is a page of, the user pages that are mapped to it, and `H`: what
the kernel holds besides. Code that has mapped a page and is about to count it holds
a reference less than none, so `H` is an integer.

Each elementary step has a lemma of its own: `Inv.kalloc`, `Inv.kfree`, `Inv.krefinc`,
`Inv.write` leave the page tables alone, `Inv.grow` adds a page to one, `Inv.setLeaf`
changes one entry, and `Inv.create` and `Inv.destroy` change `T`.
-/

namespace Xv6.Vm

open Function Multiset

namespace Kmem

def words (s : Kmem) (p i : Nat) : Pte := (s.mem p).word i

/-- The pages of a page table. -/
def nodes (s : Kmem) (r : Nat) : Multiset Nat := ptRadix.nodes s.words 2 r

/-- The entry of a page table for each virtual page. -/
def pte (s : Kmem) (r v : Nat) : Pte := if v < NPTE ^ 3 then ptRadix.leaf s.words 2 r v else 0

/-- The reference count of a page. -/
def refOf (s : Kmem) (P : Nat) : BitVec 16 := s.refCount (P / PGSIZE)

/-- The pages that `kinit` frees: those from `end` to `PHYSTOP`. -/
def Frame (s : Kmem) (P : Nat) : Prop := P % PGSIZE = 0 ∧ s.kend ≤ P ∧ P < PHYSTOP

end Kmem

/-- How often an entry refers to a page. -/
def hit (P : Nat) (pte : Pte) : Nat := if Pte.has pte PTE_V = true ∧ pte2pa pte = P then 1 else 0

/-- The user pages that are mapped to a page. -/
def hits (U : Nat) (m : Nat → Pte) (P : Nat) : Nat := ∑ v ∈ Finset.range U, hit P (m v)

/-- How often a page table refers to a page. -/
def Kmem.uses (s : Kmem) (U r P : Nat) : Nat := (s.nodes r).count P + hits U (s.pte r) P

/-- How often the page tables refer to a page. -/
def total (U : Nat) (T : Multiset Nat) (s : Kmem) (P : Nat) : Nat := (T.map fun r => s.uses U r P).sum

/-- What is asked of an entry for a user page. -/
structure Leaf (s : Kmem) (pte : Pte) : Prop where
  frame : s.Frame (pte2pa pte)
  readable : Pte.has pte PTE_R = true
  counted : s.refOf (pte2pa pte) ≠ 0
  /-- A page that can be written has one owner. -/
  sole : Pte.has pte PTE_W = true → s.refOf (pte2pa pte) = 1

/-- An entry above the last level is not taken for a leaf. -/
def Bare (pte : Pte) : Prop := pte &&& (PTE_R ||| PTE_W ||| PTE_X) = 0

structure Inv (U : Nat) (T : Multiset Nat) (H : Nat → ℤ) (s : Kmem) : Prop where
  kend : KERNBASE ≤ s.kend
  wrapped : s.wrapped = false
  nodup : s.freelist.Nodup
  free : ∀ P, P ∈ s.freelist ↔ s.Frame P ∧ s.refOf P = 0
  count : ∀ P, s.Frame P → ((s.refOf P).toNat : ℤ) = H P + total U T s P
  held : ∀ P, H P ≠ 0 → s.Frame P
  node : ∀ r ∈ T, ∀ P ∈ s.nodes r, s.Frame P ∧ H P = 0 ∧ total U T s P = 1
  inner : ∀ r ∈ T, ptRadix.Inner Bare s.words 2 r
  leaf : ∀ r ∈ T, ∀ v < U, Pte.has (s.pte r v) PTE_V = true → Leaf s (s.pte r v)
  /-- A page is mapped to one user page only, if in several page tables. -/
  inj : ∀ r ∈ T, ∀ r' ∈ T, ∀ v < U, ∀ v' < U, Pte.has (s.pte r v) PTE_V = true →
    Pte.has (s.pte r' v') PTE_V = true → pte2pa (s.pte r v) = pte2pa (s.pte r' v') → v = v'

/-- The page tables of `T`, the pages mapped there and the pages held are as before. -/
structure Keeps (U : Nat) (T : Multiset Nat) (H : Nat → ℤ) (s s' : Kmem) : Prop where
  kend : s'.kend = s.kend
  exhausted : s.exhausted = true → s'.exhausted = true
  pte : ∀ r ∈ T, s'.pte r = s.pte r
  page : ∀ r ∈ T, ∀ v < U, Pte.has (s.pte r v) PTE_V = true →
    s'.mem (pte2pa (s.pte r v)) = s.mem (pte2pa (s.pte r v))
  held : ∀ P, 0 < H P → s'.mem P = s.mem P
  /-- Nothing is written but pages that `kinit` has freed. -/
  outside : ∀ P, ¬s.Frame P → s'.mem P = s.mem P

/-- No page of the page tables of `T` is written. -/
def Fixed (T : Multiset Nat) (s s' : Kmem) : Prop := ∀ r ∈ T, ∀ q ∈ s.nodes r, s'.mem q = s.mem q

variable {T : Multiset Nat} {H H' : Nat → ℤ} {s s' s'' : Kmem} {U r P v : Nat}

theorem Keeps.refl (U : Nat) (T : Multiset Nat) (H : Nat → ℤ) (s : Kmem) : Keeps U T H s s :=
  ⟨rfl, id, fun _ _ => rfl, fun _ _ _ _ _ => rfl, fun _ _ => rfl, fun _ _ => rfl⟩

theorem Keeps.trans (h : Keeps U T H s s') (h' : Keeps U T H s' s'') : Keeps U T H s s'' where
  kend := h'.kend.trans h.kend
  exhausted e := h'.exhausted (h.exhausted e)
  pte r hr := (h'.pte r hr).trans (h.pte r hr)
  page r hr v hv hval := by
    have h₂ := h'.page r hr v hv
    rw [h.pte r hr] at h₂
    exact (h₂ hval).trans (h.page r hr v hv hval)
  held P hP := (h'.held P hP).trans (h.held P hP)
  outside P hP := by
    have hP' : ¬s'.Frame P := by rwa [Kmem.Frame, h.kend]
    exact (h'.outside P hP').trans (h.outside P hP)

variable {T' : Multiset Nat}

theorem Keeps.mono (h : Keeps U T H s s') (hT : ∀ r ∈ T', r ∈ T) (hH : ∀ P, 0 < H' P → 0 < H P) : Keeps U T' H' s s' where
  kend := h.kend
  exhausted := h.exhausted
  pte r hr := h.pte r (hT r hr)
  page r hr := h.page r (hT r hr)
  held P hP := h.held P (hH P hP)
  outside := h.outside

/-! ## Counting -/

theorem hit_of_ne {pte : Pte} (h : Pte.has pte PTE_V = true → pte2pa pte ≠ P) : hit P pte = 0 :=
  if_neg fun hc => h hc.1 hc.2

theorem hit_self {pte : Pte} (h : Pte.has pte PTE_V = true) : hit (pte2pa pte) pte = 1 := if_pos ⟨h, rfl⟩

theorem hits_update (m : Nat → Pte) (hv : v < U) (w : Pte) (P : Nat) :
    hits U (update m v w) P + hit P (m v) = hits U m P + hit P w :=
  sum_update (Finset.mem_range.2 hv) m w (hit P)

theorem hits_update_of_le (m : Nat → Pte) (hv : U ≤ v) (w : Pte) (P : Nat) : hits U (update m v w) P = hits U m P := by
  refine Finset.sum_congr rfl fun v' hv' => ?_
  rw [update_of_ne]
  have := Finset.mem_range.1 hv'
  omega

theorem one_le_hits {m : Nat → Pte} (hv : v < U) (hval : Pte.has (m v) PTE_V = true) : 1 ≤ hits U m (pte2pa (m v)) := by
  have hle := Finset.single_le_sum (f := fun v' => hit (pte2pa (m v)) (m v')) (fun _ _ => Nat.zero_le _)
    (Finset.mem_range.2 hv)
  rwa [hit_self hval] at hle

theorem total_cons (r : Nat) (T : Multiset Nat) (s : Kmem) (P : Nat) :
    total U (r ::ₘ T) s P = s.uses U r P + total U T s P := by
  rw [total, map_cons, sum_cons]
  rfl

theorem uses_le_total (U : Nat) (hr : r ∈ T) (s : Kmem) (P : Nat) : s.uses U r P ≤ total U T s P :=
  le_sum_of_mem (mem_map_of_mem (fun r => s.uses U r P) hr)

theorem total_congr (h : ∀ r ∈ T, s'.uses U r P = s.uses U r P) : total U T s' P = total U T s P :=
  congrArg sum (map_congr rfl h)

-- They are sums over all user pages: nothing is to compare them by computing them.
attribute [irreducible] hits Kmem.uses total

/-- A mapped page is referred to. -/
theorem one_le_total (hr : r ∈ T) (hv : v < U) (hval : Pte.has (s.pte r v) PTE_V = true) :
    1 ≤ total U T s (pte2pa (s.pte r v)) := by
  have h₁ := one_le_hits (m := s.pte r) hv hval
  have h₂ := uses_le_total U hr s (pte2pa (s.pte r v))
  rw [Kmem.uses] at h₂
  omega

namespace Inv

variable (h : Inv U T H s)
include h

theorem nodes_nodup (hr : r ∈ T) : (s.nodes r).Nodup := by
  rw [nodup_iff_count_le_one]
  intro P
  by_cases hP : P ∈ s.nodes r
  · have hle := uses_le_total U hr s P
    rw [(h.node r hr P hP).2.2, Kmem.uses] at hle
    omega
  · rw [count_eq_zero_of_notMem hP]
    exact Nat.zero_le 1

/-- A user page is not a page of a page table. -/
theorem leaf_notMem {r' : Nat} (hr : r ∈ T) (hv : v < U) (hval : Pte.has (s.pte r v) PTE_V = true)
    (hr' : r' ∈ T) : pte2pa (s.pte r v) ∉ s.nodes r' := by
  intro hP
  have hone := (h.node r' hr' _ hP).2.2
  have hhits := one_le_hits (m := s.pte r) hv hval
  have hcount := one_le_count_iff_mem.2 hP
  by_cases e : r' = r
  · subst e
    have hle := uses_le_total U hr' s (pte2pa (s.pte r' v))
    rw [Kmem.uses] at hle
    omega
  · obtain ⟨T', rfl⟩ := exists_cons_of_mem hr
    have hmem := (mem_cons.1 hr').resolve_left e
    have hle := uses_le_total U hmem s (pte2pa (s.pte r v))
    rw [total_cons, Kmem.uses] at hone
    rw [Kmem.uses] at hle
    omega

/-- The pages of two page tables are different ones. -/
theorem nodes_disjoint {r' : Nat} (hT : T = r ::ₘ T') (hr' : r' ∈ T') (hP : P ∈ s.nodes r) : P ∉ s.nodes r' := by
  subst hT
  intro hP'
  have hone := (h.node r (mem_cons_self r T') P hP).2.2
  have hle := uses_le_total U hr' s P
  have hcount := one_le_count_iff_mem.2 hP
  have hcount' := one_le_count_iff_mem.2 hP'
  rw [total_cons, Kmem.uses] at hone
  rw [Kmem.uses] at hle
  omega

theorem node_ref (hr : r ∈ T) (hP : P ∈ s.nodes r) : s.refOf P = 1 := by
  obtain ⟨hf, hz, hone⟩ := h.node r hr P hP
  have hc := h.count P hf
  rw [hz, hone] at hc
  refine BitVec.eq_of_toNat_eq ?_
  have : (s.refOf P).toNat = 1 := by omega
  rw [this]
  rfl

end Inv

/-- What is kept where the pages of page tables are not written. -/
theorem Kmem.pte_congr (hm : ∀ q ∈ s.nodes r, s'.mem q = s.mem q) : s'.pte r = s.pte r := by
  have hw : ∀ q ∈ ptRadix.nodes s.words 2 r, s'.words q = s.words q := fun q hq => by
    funext i
    rw [Kmem.words, Kmem.words, hm q hq]
  funext v
  rw [Kmem.pte, Kmem.pte, Radix.leaf_congr hw]

theorem Kmem.nodes_congr (hm : ∀ q ∈ s.nodes r, s'.mem q = s.mem q) : s'.nodes r = s.nodes r :=
  Radix.nodes_congr fun q hq => by
    funext i
    rw [Kmem.words, Kmem.words, hm q hq]

theorem Kmem.uses_congr (hm : ∀ q ∈ s.nodes r, s'.mem q = s.mem q) (P : Nat) : s'.uses U r P = s.uses U r P := by
  rw [Kmem.uses, Kmem.uses, Kmem.nodes_congr hm, Kmem.pte_congr hm]

theorem Fixed.refl (T : Multiset Nat) (s : Kmem) : Fixed T s s := fun _ _ _ _ => rfl

theorem Fixed.trans (h : Fixed T s s') (h' : Fixed T s' s'') : Fixed T s s'' := fun r hr q hq =>
  (h' r hr q (Kmem.nodes_congr (h r hr) ▸ hq)).trans (h r hr q hq)

theorem Fixed.mono (h : Fixed T s s') (hT : ∀ r ∈ T', r ∈ T) : Fixed T' s s' := fun r hr =>
  h r (hT r hr)

/-- Steps that write no page of a page table, and change reference counts as they change `H`. -/
theorem Inv.same (h : Inv U T H s) (hkend : s'.kend = s.kend) (hwrapped : s'.wrapped = false)
    (hmem : ∀ r ∈ T, ∀ q ∈ s.nodes r, s'.mem q = s.mem q) (hnodup : s'.freelist.Nodup)
    (hfree : ∀ P, P ∈ s'.freelist ↔ s.Frame P ∧ s'.refOf P = 0)
    (hcount : ∀ P, s.Frame P → ((s'.refOf P).toNat : ℤ) - H' P = (s.refOf P).toNat - H P)
    (hheld : ∀ P, H' P ≠ 0 → s.Frame P) (hnode : ∀ r ∈ T, ∀ P ∈ s.nodes r, H' P = 0)
    (hleaf : ∀ r ∈ T, ∀ v < U, Pte.has (s.pte r v) PTE_V = true → s'.refOf (pte2pa (s.pte r v)) ≠ 0 ∧
        (Pte.has (s.pte r v) PTE_W = true → s'.refOf (pte2pa (s.pte r v)) = 1)) : Inv U T H' s' := by
  have hframe : ∀ P, s'.Frame P ↔ s.Frame P := fun P => by rw [Kmem.Frame, Kmem.Frame, hkend]
  have hpte : ∀ r ∈ T, s'.pte r = s.pte r := fun r hr => Kmem.pte_congr (hmem r hr)
  have hnodes : ∀ r ∈ T, s'.nodes r = s.nodes r := fun r hr => Kmem.nodes_congr (hmem r hr)
  have htotal : ∀ P, total U T s' P = total U T s P := fun P =>
    total_congr fun r hr => Kmem.uses_congr (hmem r hr) P
  refine ⟨?_, hwrapped, hnodup, fun P => ?_, fun P hf => ?_, fun P hP => ?_, fun r hr P hP => ?_,
    fun r hr => ?_, fun r hr v hv hval => ?_, fun r hr r' hr' v hv v' hv' => ?_⟩
  · rw [hkend]
    exact h.kend
  · rw [hframe]
    exact hfree P
  · rw [hframe] at hf
    have h₁ := hcount P hf
    have h₂ := h.count P hf
    rw [htotal]
    omega
  · rw [hframe]
    exact hheld P hP
  · rw [hnodes r hr] at hP
    rw [hframe, htotal]
    exact ⟨(h.node r hr P hP).1, hnode r hr P hP, (h.node r hr P hP).2.2⟩
  · refine (h.inner r hr).congr fun q hq => ?_
    funext i
    rw [Kmem.words, Kmem.words, hmem r hr q hq]
  · rw [hpte r hr] at hval ⊢
    obtain ⟨hne, hsole⟩ := hleaf r hr v hv hval
    have hl := h.leaf r hr v hv hval
    exact ⟨(hframe _).2 hl.frame, hl.readable, hne, hsole⟩
  · rw [hpte r hr, hpte r' hr']
    exact h.inj r hr r' hr' v hv v' hv'

end Xv6.Vm
