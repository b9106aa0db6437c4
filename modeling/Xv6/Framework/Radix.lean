import Mathlib.Algebra.Order.BigOperators.Group.Finset

/-!
# Radix trees in memory

A page table is a radix tree whose tables lie in memory: a table is `width` words,
and a word points to a table of the level below, or to nothing. `nodes` are the
tables of a tree, `leaf` is the word that a key leads to, and `Reach` follows the
path of a key down from the root.

What a write does to a tree is said once: it does nothing unless it is to a table of
the tree (`nodes_congr`, `leaf_congr`); a write to a table of the last level changes
the word of one key (`Reach.leaf_set`); and a new table, hung up where nothing was,
changes the tables only (`Reach.nodes_grow`, `Reach.leaf_grow`).
-/

namespace Xv6

open Function Multiset

/-- How the words of a table are read. -/
structure Radix (α W : Type) where
  width : Nat
  width_pos : 0 < width
  /-- The table that a word points to. -/
  next : W → Option α
  zero : W
  next_zero : next zero = none

namespace Radix

variable {α W : Type} (R : Radix α W)

/-- The index that key `k` has in a table of level `l`. -/
def idx (l k : Nat) : Nat := k / R.width ^ l % R.width

theorem idx_lt (l k : Nat) : R.idx l k < R.width := Nat.mod_lt _ R.width_pos

/-- Two keys lead the same way if they agree at this level and below. -/
theorem mod_pow_succ_inj {l k k' : Nat} : k' % R.width ^ (l + 2) = k % R.width ^ (l + 2) ↔
      R.idx (l + 1) k' = R.idx (l + 1) k ∧ k' % R.width ^ (l + 1) = k % R.width ^ (l + 1) := by
  have hpos : 0 < R.width ^ (l + 1) := Nat.pow_pos R.width_pos
  have hk := @Nat.mod_pow_succ k R.width (l + 1)
  have hk' := @Nat.mod_pow_succ k' R.width (l + 1)
  constructor
  · intro h
    have hmod : k' % R.width ^ (l + 1) = k % R.width ^ (l + 1) := by
      rw [← Nat.mod_mod_of_dvd k' (pow_dvd_pow R.width (Nat.le_succ (l + 1))), h,
        Nat.mod_mod_of_dvd k (pow_dvd_pow R.width (Nat.le_succ (l + 1)))]
    rw [hk, hk', hmod] at h
    exact ⟨Nat.eq_of_mul_eq_mul_left hpos (Nat.add_left_cancel h), hmod⟩
  · rintro ⟨hi, hmod⟩
    rw [hk, hk', hmod]
    exact congrArg (k % R.width ^ (l + 1) + R.width ^ (l + 1) * ·) hi

/-- The tables of the tree with root `p` and levels `l`, …, 0, each as often as it is
pointed to. -/
def nodes (m : α → Nat → W) : Nat → α → Multiset α
  | 0, p => {p}
  | l + 1, p => {p} + ∑ i ∈ Finset.range R.width, (R.next (m p i)).elim 0 (nodes m l)

/-- The word that key `k` leads to. -/
def leaf (m : α → Nat → W) : Nat → α → Nat → W
  | 0, p, k => m p (R.idx 0 k)
  | l + 1, p, k => (R.next (m p (R.idx (l + 1) k))).elim R.zero fun c => leaf m l c k

/-- Every word above the last level that points to a table is as `φ` says. -/
def Inner (φ : W → Prop) (m : α → Nat → W) : Nat → α → Prop
  | 0, _ => True
  | l + 1, p => ∀ i < R.width, ∀ c, R.next (m p i) = some c → φ (m p i) ∧ Inner φ m l c

/-- Besides, no word of the last level points to anything. -/
def Hollow (φ : W → Prop) (m : α → Nat → W) : Nat → α → Prop
  | 0, p => ∀ i < R.width, R.next (m p i) = none
  | l + 1, p => ∀ i < R.width, ∀ c, R.next (m p i) = some c → φ (m p i) ∧ Hollow φ m l c

/-- The path of key `k` from table `p` of level `l` leads to table `q` of level `j`. -/
inductive Reach (m : α → Nat → W) (k : Nat) : Nat → α → Nat → α → Prop
  | refl (l : Nat) (p : α) : Reach m k l p l p
  | step {l j : Nat} {p c q : α} (h : R.next (m p (R.idx (l + 1) k)) = some c) (hr : Reach m k l c j q) :
      Reach m k (l + 1) p j q

variable {R} {m m' : α → Nat → W} {φ : W → Prop} {k l j : Nat} {p q c : α}

theorem mem_nodes_self (m : α → Nat → W) (l : Nat) (p : α) : p ∈ R.nodes m l p := by
  cases l with
  | zero => exact mem_singleton_self p
  | succ l => exact mem_add.2 (.inl (mem_singleton_self p))

theorem mem_nodes_child {i : Nat} (hi : i < R.width) (h : R.next (m p i) = some c) (hq : q ∈ R.nodes m l c) :
    q ∈ R.nodes m (l + 1) p := by
  refine mem_add.2 (.inr (mem_sum.2 ⟨i, Finset.mem_range.2 hi, ?_⟩))
  rw [h]
  exact hq

/-! ## Writes outside of a tree -/

theorem nodes_congr (h : ∀ q ∈ R.nodes m l p, m' q = m q) : R.nodes m' l p = R.nodes m l p := by
  induction l generalizing p with
  | zero => rfl
  | succ l ih =>
    have hp := h p (mem_nodes_self m (l + 1) p)
    rw [nodes, nodes, Finset.sum_congr rfl fun i hi => ?_]
    rw [hp]
    cases hn : R.next (m p i) with
    | none => rfl
    | some c => exact ih fun q hq => h q (mem_nodes_child (Finset.mem_range.1 hi) hn hq)

theorem leaf_congr (h : ∀ q ∈ R.nodes m l p, m' q = m q) : R.leaf m' l p = R.leaf m l p := by
  induction l generalizing p with
  | zero => funext k; rw [leaf, leaf, h p (mem_nodes_self m 0 p)]
  | succ l ih =>
    funext k
    rw [leaf, leaf, h p (mem_nodes_self m (l + 1) p)]
    cases hn : R.next (m p (R.idx (l + 1) k)) with
    | none => rfl
    | some c => exact congrFun (ih fun q hq => h q (mem_nodes_child (R.idx_lt _ _) hn hq)) k

theorem Inner.congr (hm : R.Inner φ m l p) (h : ∀ q ∈ R.nodes m l p, m' q = m q) : R.Inner φ m' l p := by
  induction l generalizing p with
  | zero => trivial
  | succ l ih =>
    intro i hi c hc
    rw [h p (mem_nodes_self m (l + 1) p)] at hc ⊢
    obtain ⟨hw, hin⟩ := hm i hi c hc
    exact ⟨hw, ih hin fun q hq => h q (mem_nodes_child hi hc hq)⟩

theorem Hollow.congr (hm : R.Hollow φ m l p) (h : ∀ q ∈ R.nodes m l p, m' q = m q) : R.Hollow φ m' l p := by
  induction l generalizing p with
  | zero =>
    intro i hi
    rw [h p (mem_nodes_self m 0 p)]
    exact hm i hi
  | succ l ih =>
    intro i hi c hc
    rw [h p (mem_nodes_self m (l + 1) p)] at hc ⊢
    obtain ⟨hw, hin⟩ := hm i hi c hc
    exact ⟨hw, ih hin fun q hq => h q (mem_nodes_child hi hc hq)⟩

/-- The index at a level is that of the key's lower part. -/
theorem idx_add_mul (i k : Nat) (hj : j ≤ l) : R.idx j (i * R.width ^ (l + 1) + k) = R.idx j k := by
  have hpow : R.width ^ (l + 1) = R.width ^ j * (R.width ^ (l - j) * R.width) := by
    rw [← pow_succ, ← pow_add, show j + (l - j + 1) = l + 1 by omega]
  rw [idx, idx, hpow, mul_left_comm, Nat.mul_add_div (Nat.pow_pos R.width_pos), ← mul_assoc, Nat.mul_add_mod_self_right]

theorem leaf_add_mul (m : α → Nat → W) (i k : Nat) (hj : j ≤ l) :
    R.leaf m j p (i * R.width ^ (l + 1) + k) = R.leaf m j p k := by
  induction j generalizing p with
  | zero => rw [leaf, leaf, idx_add_mul i k hj]
  | succ j ih =>
    rw [leaf, leaf, idx_add_mul i k hj]
    cases R.next (m p (R.idx (j + 1) k)) with
    | none => rfl
    | some c => exact ih (by omega)

/-- A tree whose keys lead to nothing. -/
theorem Inner.hollow (hm : R.Inner φ m l p) (h : ∀ k < R.width ^ (l + 1), R.next (R.leaf m l p k) = none) :
    R.Hollow φ m l p := by
  induction l generalizing p with
  | zero =>
    intro i hi
    have hz := h i (by rwa [zero_add, pow_one])
    rwa [leaf, idx, pow_zero, Nat.div_one, Nat.mod_eq_of_lt hi] at hz
  | succ l ih =>
    intro i hi c hc
    obtain ⟨hw, hin⟩ := hm i hi c hc
    refine ⟨hw, ih hin fun k hk => ?_⟩
    have hidx : R.idx (l + 1) (i * R.width ^ (l + 1) + k) = i := by
      rw [idx, mul_comm, Nat.mul_add_div (Nat.pow_pos R.width_pos), Nat.div_eq_of_lt hk, add_zero, Nat.mod_eq_of_lt hi]
    have hlt : i * R.width ^ (l + 1) + k < R.width ^ (l + 1 + 1) :=
      calc i * R.width ^ (l + 1) + k < i * R.width ^ (l + 1) + R.width ^ (l + 1) := Nat.add_lt_add_left hk _
        _ = (i + 1) * R.width ^ (l + 1) := (Nat.succ_mul ..).symm
        _ ≤ R.width * R.width ^ (l + 1) := Nat.mul_le_mul_right _ hi
        _ = R.width ^ (l + 1 + 1) := (pow_succ' ..).symm
    have hz := h _ hlt
    rwa [leaf, hidx, hc, Option.elim_some, leaf_add_mul m i k (Nat.le_refl l)] at hz

/-! ## Paths -/

theorem Reach.mem (h : R.Reach m k l p j q) : q ∈ R.nodes m l p := by
  induction h with
  | refl l p => exact mem_nodes_self m l p
  | step hn _ ih => exact mem_nodes_child (R.idx_lt _ _) hn ih

theorem Reach.snoc (h : R.Reach m k l p (j + 1) q) (hn : R.next (m q (R.idx (j + 1) k)) = some c) :
    R.Reach m k l p j c := by
  generalize hj : j + 1 = j' at h
  induction h with
  | refl l p =>
    subst hj
    exact .step hn (.refl j c)
  | step hn' _ ih => exact .step hn' (ih hn hj)

theorem Reach.leaf_eq (h : R.Reach m k l p 0 q) : R.leaf m l p k = m q (R.idx 0 k) := by
  generalize hj : 0 = j at h
  induction h with
  | refl l p => subst hj; rfl
  | step hn _ ih =>
    rw [leaf, hn]
    exact ih hj

theorem Reach.leaf_zero (h : R.Reach m k l p (j + 1) q) (hn : R.next (m q (R.idx (j + 1) k)) = none) :
    R.leaf m l p k = R.zero := by
  generalize hj : j + 1 = j' at h
  induction h with
  | refl l p =>
    subst hj
    rw [leaf, hn]
    rfl
  | step hn' _ ih =>
    rw [leaf, hn']
    exact ih hn hj

theorem Reach.congr (hr : R.Reach m k l p j q) (h : ∀ x ∈ R.nodes m l p, m' x = m x) : R.Reach m' k l p j q := by
  induction hr with
  | refl l p => exact .refl l p
  | step hn _ ih =>
    refine .step ?_ (ih fun x hx => h x (mem_nodes_child (R.idx_lt _ _) hn hx))
    rw [h _ (mem_nodes_self m _ _)]
    exact hn

/-! ## Writes to a tree

All tables of the tree are different ones, so that a table that is written is on one path only. -/

theorem nodup_child {i : Nat} (hnd : (R.nodes m (l + 1) p).Nodup) (hi : i < R.width)
    (h : R.next (m p i) = some c) : (R.nodes m l c).Nodup := by
  rw [nodup_iff_le] at hnd ⊢
  intro a ha
  refine hnd a (ha.trans ?_)
  refine le_add_left ?_
  have hle := Finset.single_le_sum (f := fun i => (R.next (m p i)).elim 0 (R.nodes m l))
    (fun _ _ => zero_le _) (Finset.mem_range.2 hi)
  simpa only [h, Option.elim_some] using hle

theorem root_notMem_child {i : Nat} (hnd : (R.nodes m (l + 1) p).Nodup) (hi : i < R.width)
    (h : R.next (m p i) = some c) : p ∉ R.nodes m l c := by
  intro hp
  have hdis := (nodup_add.1 hnd).2.2
  refine disjoint_left.1 hdis (mem_singleton_self p) ?_
  refine mem_sum.2 ⟨i, Finset.mem_range.2 hi, ?_⟩
  rw [h]
  exact hp

theorem notMem_other_child {i i' : Nat} {c' : α} (hnd : (R.nodes m (l + 1) p).Nodup) (hi : i < R.width)
    (hi' : i' < R.width) (hne : i' ≠ i) (h : R.next (m p i) = some c) (h' : R.next (m p i') = some c')
    (hq : q ∈ R.nodes m l c) : q ∉ R.nodes m l c' := by
  intro hq'
  classical
  have hsum := (nodup_add.1 hnd).2.1
  rw [← Finset.add_sum_erase _ _ (Finset.mem_range.2 hi)] at hsum
  have hq : q ∈ (R.next (m p i)).elim 0 (R.nodes m l) := by rwa [h]
  refine disjoint_left.1 (nodup_add.1 hsum).2.2 hq ?_
  refine mem_sum.2 ⟨i', Finset.mem_erase.2 ⟨hne, Finset.mem_range.2 hi'⟩, ?_⟩
  rw [h']
  exact hq'

/-- Two keys that lead to the same word are the same, as far as they are looked at. -/
theorem Reach.inj {k' : Nat} (hr : R.Reach m k l p 0 q) (hr' : R.Reach m k' l p 0 q) (hnd : (R.nodes m l p).Nodup)
    (hi : R.idx 0 k' = R.idx 0 k) : k' % R.width ^ (l + 1) = k % R.width ^ (l + 1) := by
  generalize hj : 0 = j at hr
  induction hr with
  | refl l p =>
    subst hj
    simpa only [idx, pow_zero, Nat.div_one, zero_add, pow_one] using hi
  | @step l j p c q hn hr ih =>
    subst hj
    cases hr' with
    | @step _ _ _ c' _ hn' hr' =>
      have hidx : R.idx (l + 1) k' = R.idx (l + 1) k := by
        by_contra hne
        exact notMem_other_child hnd (R.idx_lt _ _) (R.idx_lt _ _) hne hn hn' hr.mem hr'.mem
      rw [hidx] at hn'
      cases hn.symm.trans hn'
      exact R.mod_pow_succ_inj.2 ⟨hidx, ih hr' (nodup_child hnd (R.idx_lt _ _) hn) rfl⟩

/-- The tables below word `i` of table `p` of level `l + 1`. -/
def below (R : Radix α W) (m : α → Nat → W) (l : Nat) (p : α) (i : Nat) : Multiset α :=
  (R.next (m p i)).elim 0 (R.nodes m l)

theorem nodes_split (m : α → Nat → W) (l : Nat) (p : α) {i : Nat} (hi : i < R.width) : R.nodes m (l + 1) p =
      R.below m l p i + ({p} + ∑ i' ∈ (Finset.range R.width).erase i, R.below m l p i') := by
  rw [nodes, ← Finset.add_sum_erase _ _ (Finset.mem_range.2 hi), add_left_comm]
  rfl

/-- Where the writes are below word `i`, or are to that word, all that is below the others is as before. -/
theorem sum_below_congr (m' : α → Nat → W) (l i : Nat) (p : α) (hp : ∀ i', i' ≠ i → m' p i' = m p i')
    (h : ∀ i' < R.width, i' ≠ i → ∀ c', R.next (m p i') = some c' → ∀ x ∈ R.nodes m l c', m' x = m x) :
    ∑ i' ∈ (Finset.range R.width).erase i, R.below m' l p i' = ∑ i' ∈ (Finset.range R.width).erase i, R.below m l p i' := by
  refine Finset.sum_congr rfl fun i' hi' => ?_
  obtain ⟨hne, hi'⟩ := Finset.mem_erase.1 hi'
  rw [below, below, hp i' hne]
  cases hc : R.next (m p i') with
  | none => rfl
  | some c' => exact nodes_congr (h i' (Finset.mem_range.1 hi') hne c' hc)

section Set

/-! ### A word of the last level -/

section

variable (hr : R.Reach m k l p 0 q) (hnd : (R.nodes m l p).Nodup) (hm : ∀ x, x ≠ q → m' x = m x)
include hr hnd hm

theorem Reach.nodes_set : R.nodes m' l p = R.nodes m l p := by
  generalize hj : 0 = j at hr
  induction hr with
  | refl l p => subst hj; rfl
  | @step l j p c q hn hr ih =>
    have hpq : p ≠ q := fun e => root_notMem_child hnd (R.idx_lt _ _) hn (e ▸ hr.mem)
    rw [nodes, nodes, Finset.sum_congr rfl fun i hi => ?_]
    rw [hm p hpq]
    cases hn' : R.next (m p i) with
    | none => rfl
    | some c' =>
      by_cases e : i = R.idx (l + 1) k
      · subst e
        cases hn.symm.trans hn'
        exact ih (nodup_child hnd (R.idx_lt _ _) hn) hm hj
      · refine nodes_congr fun x hx => hm x fun ex => ?_
        exact notMem_other_child hnd (R.idx_lt _ _) (Finset.mem_range.1 hi) e hn hn' hr.mem (ex ▸ hx)

theorem Reach.inner_set (hin : R.Inner φ m l p) : R.Inner φ m' l p := by
  generalize hj : 0 = j at hr
  induction hr with
  | refl l p => subst hj; trivial
  | @step l j p c q hn hr ih =>
    have hpq : p ≠ q := fun e => root_notMem_child hnd (R.idx_lt _ _) hn (e ▸ hr.mem)
    intro i hi c' hn'
    rw [hm p hpq] at hn' ⊢
    obtain ⟨hw, hin'⟩ := hin i hi c' hn'
    refine ⟨hw, ?_⟩
    by_cases e : i = R.idx (l + 1) k
    · subst e
      cases hn.symm.trans hn'
      exact ih (nodup_child hnd (R.idx_lt _ _) hn) hm hin' hj
    · refine hin'.congr fun x hx => hm x fun ex => ?_
      exact notMem_other_child hnd (R.idx_lt _ _) hi e hn hn' hr.mem (ex ▸ hx)

theorem Reach.leaf_set {w : W} (hq : m' q = update (m q) (R.idx 0 k) w) (k' : Nat) :
    R.leaf m' l p k' = if k' % R.width ^ (l + 1) = k % R.width ^ (l + 1) then w else R.leaf m l p k' := by
  generalize hj : 0 = j at hr
  induction hr with
  | refl l p =>
    subst hj
    rw [leaf, leaf, hq, zero_add, pow_one, update_apply]
    simp only [idx, pow_zero, Nat.div_one]
  | @step l j p c q hn hr ih =>
    have hpq : p ≠ q := fun e => root_notMem_child hnd (R.idx_lt _ _) hn (e ▸ hr.mem)
    rw [leaf, leaf, hm p hpq]
    cases hn' : R.next (m p (R.idx (l + 1) k')) with
    | none =>
      have hne : R.idx (l + 1) k' ≠ R.idx (l + 1) k := by
        intro e
        rw [e, hn] at hn'
        cases hn'
      rw [if_neg fun h => hne (R.mod_pow_succ_inj.1 h).1]
      rfl
    | some c' =>
      by_cases e : R.idx (l + 1) k' = R.idx (l + 1) k
      · rw [e] at hn'
        cases hn.symm.trans hn'
        have hrec := ih (nodup_child hnd (R.idx_lt _ _) hn) hm hq hj
        have hiff : k' % R.width ^ (l + 1 + 1) = k % R.width ^ (l + 1 + 1) ↔
            k' % R.width ^ (l + 1) = k % R.width ^ (l + 1) :=
          R.mod_pow_succ_inj.trans ⟨fun h => h.2, fun h => ⟨e, h⟩⟩
        rw [Option.elim_some, Option.elim_some, hrec]
        simp only [hiff]
      · rw [if_neg fun h => e (R.mod_pow_succ_inj.1 h).1, Option.elim_some, Option.elim_some]
        refine congrFun (leaf_congr fun x hx => hm x fun ex => ?_) k'
        exact notMem_other_child hnd (R.idx_lt _ _) (R.idx_lt _ _) e hn hn' hr.mem (ex ▸ hx)

end

end Set

section Grow

/-! ### A new table

`n` is a table without pointers that is not yet in the tree; table `q` of level `j + 1` on the path of
`k` now points to it. -/

/-- The write that hangs `n` up in `q`. -/
structure Hang (R : Radix α W) (m m' : α → Nat → W) (q : α) (i : Nat) (w : W) (n : α) : Prop where
  absent : R.next (m q i) = none
  word : m' q = update (m q) i w
  points : R.next w = some n
  empty : ∀ i, m' n i = R.zero
  other : ∀ x, x ≠ q → x ≠ n → m' x = m x

variable {n : α} {w : W}

theorem nodes_of_empty (h : ∀ i, m n i = R.zero) (l : Nat) : R.nodes m l n = {n} := by
  cases l with
  | zero => rfl
  | succ l =>
    rw [nodes, Finset.sum_eq_zero, add_zero]
    intro i _
    rw [h, R.next_zero]
    rfl

theorem leaf_of_empty (h : ∀ i, m n i = R.zero) (l : Nat) : R.leaf m l n = fun _ => R.zero := by
  funext k
  cases l with
  | zero => exact h _
  | succ l =>
    rw [leaf, h, R.next_zero]
    rfl

theorem inner_of_empty (h : ∀ i, m n i = R.zero) (l : Nat) : R.Inner φ m l n := by
  cases l with
  | zero => trivial
  | succ l =>
    intro i _ c hc
    rw [h, R.next_zero] at hc
    cases hc

variable (hg : R.Hang m m' q (R.idx (j + 1) k) w n) (hr : R.Reach m k l p (j + 1) q)
  (hnd : (R.nodes m l p).Nodup) (hn : n ∉ R.nodes m l p)

include hg hr hnd hn

omit hg hr hnd hn in
/-- The tables below the words of `p` that are not on the path are not written. -/
theorem Hang.other_child (hg : R.Hang m m' q (R.idx (j + 1) k) w n) (hnd : (R.nodes m (l + 1) p).Nodup)
    (hn : n ∉ R.nodes m (l + 1) p) {i i' : Nat} {c' : α} (hi' : i' < R.width) (hc' : R.next (m p i') = some c')
    (hq : q = p ∨ i < R.width ∧ i' ≠ i ∧ ∃ c, R.next (m p i) = some c ∧ q ∈ R.nodes m l c) :
    ∀ x ∈ R.nodes m l c', m' x = m x := by
  intro x hx
  refine hg.other x ?_ ?_
  · rintro rfl
    obtain rfl | ⟨hi, hne, c, hc, hq⟩ := hq
    · exact root_notMem_child hnd hi' hc' hx
    · exact notMem_other_child hnd hi hi' hne hc hc' hq hx
  · rintro rfl
    exact hn (mem_nodes_child hi' hc' hx)

omit hg hr hnd hn in
/-- On the way to `q` nothing is written, and `n` is new. -/
theorem Hang.on_path {i : Nat} (hg : R.Hang m m' q i w n) {j' : Nat} {c : α} (hc : R.next (m p (R.idx (l + 1) k)) = some c)
    (hr : R.Reach m k l c j' q) (hnd : (R.nodes m (l + 1) p).Nodup) (hn : n ∉ R.nodes m (l + 1) p) :
    m' p = m p ∧ (R.nodes m l c).Nodup ∧ n ∉ R.nodes m l c :=
  ⟨hg.other p (fun e => root_notMem_child hnd (R.idx_lt _ _) hc (e ▸ hr.mem)) fun e => hn (e ▸ mem_nodes_self m _ _),
    nodup_child hnd (R.idx_lt _ _) hc, fun h => hn (mem_nodes_child (R.idx_lt _ _) hc h)⟩

theorem Reach.nodes_grow : R.nodes m' l p = n ::ₘ R.nodes m l p := by
  generalize hj : j + 1 = j' at hr
  induction hr with
  | @refl l q =>
    subst hj
    have hrest := sum_below_congr m' j (R.idx (j + 1) k) q
      (fun i' hne => by rw [hg.word, update_of_ne hne])
      (fun i' hi' _ c' hc' => hg.other_child (i := 0) hnd hn hi' hc' (.inl rfl))
    have hnew : R.below m' j q (R.idx (j + 1) k) = {n} := by
      rw [Radix.below, hg.word, update_self, hg.points, Option.elim_some, nodes_of_empty hg.empty]
    have hold : R.below m j q (R.idx (j + 1) k) = 0 := by rw [Radix.below, hg.absent, Option.elim_none]
    rw [nodes_split m' j q (R.idx_lt (j + 1) k), nodes_split m j q (R.idx_lt (j + 1) k), hrest, hnew, hold,
      zero_add, singleton_add]
  | @step l j' p c q hc hr ih =>
    obtain ⟨hp, hnd', hn'⟩ := hg.on_path hc hr hnd hn
    have hrec := ih hg hnd' hn' hj
    have hrest := sum_below_congr m' l (R.idx (l + 1) k) p
      (fun i' _ => by rw [hp])
      (fun i' hi' hne c' hc' =>
        hg.other_child hnd hn hi' hc' (.inr ⟨R.idx_lt (l + 1) k, hne, c, hc, hr.mem⟩))
    have hnew : R.below m' l p (R.idx (l + 1) k) = n ::ₘ R.below m l p (R.idx (l + 1) k) := by
      rw [Radix.below, Radix.below, hp, hc, Option.elim_some, Option.elim_some, hrec]
    rw [nodes_split m' l p (R.idx_lt (l + 1) k), nodes_split m l p (R.idx_lt (l + 1) k), hrest, hnew, cons_add]

theorem Reach.leaf_grow : R.leaf m' l p = R.leaf m l p := by
  generalize hj : j + 1 = j' at hr
  induction hr with
  | @refl l q =>
    subst hj
    funext k'
    rw [leaf, leaf, hg.word, update_apply]
    split
    · rename_i e
      rw [e, hg.points, hg.absent, Option.elim_some, leaf_of_empty hg.empty]
      rfl
    · cases hc : R.next (m q (R.idx (j + 1) k')) with
      | none => rfl
      | some c =>
        exact congrFun (leaf_congr (hg.other_child (i := 0) hnd hn (R.idx_lt _ _) hc (.inl rfl))) k'
  | @step l j' p c q hc hr ih =>
    obtain ⟨hp, hnd', hn'⟩ := hg.on_path hc hr hnd hn
    have hrec := ih hg hnd' hn' hj
    funext k'
    rw [leaf, leaf, hp]
    cases hc' : R.next (m p (R.idx (l + 1) k')) with
    | none => rfl
    | some c' =>
      by_cases e : R.idx (l + 1) k' = R.idx (l + 1) k
      · rw [e] at hc'
        cases hc.symm.trans hc'
        exact congrFun hrec k'
      · refine congrFun (leaf_congr ?_) k'
        exact hg.other_child hnd hn (R.idx_lt _ _) hc' (.inr ⟨R.idx_lt (l + 1) k, e, c, hc, hr.mem⟩)

theorem Reach.inner_grow (hw : φ w) (hin : R.Inner φ m l p) : R.Inner φ m' l p := by
  generalize hj : j + 1 = j' at hr
  induction hr with
  | @refl l q =>
    subst hj
    intro i hi c' hc'
    rw [hg.word, update_apply] at hc' ⊢
    split at hc'
    · rename_i e
      rw [hg.points] at hc'
      cases hc'
      rw [if_pos e]
      exact ⟨hw, inner_of_empty hg.empty j⟩
    · rename_i e
      rw [if_neg e]
      obtain ⟨hw', hin'⟩ := hin i hi c' hc'
      exact ⟨hw', hin'.congr (hg.other_child (i := 0) hnd hn hi hc' (.inl rfl))⟩
  | @step l j' p c q hc hr ih =>
    obtain ⟨hp, hnd', hn'⟩ := hg.on_path hc hr hnd hn
    intro i hi c' hc'
    rw [hp] at hc' ⊢
    obtain ⟨hw', hin'⟩ := hin i hi c' hc'
    refine ⟨hw', ?_⟩
    by_cases e : i = R.idx (l + 1) k
    · subst e
      cases hc.symm.trans hc'
      exact ih hg hnd' hn' hin' hj
    · exact hin'.congr (hg.other_child hnd hn hi hc' (.inr ⟨R.idx_lt (l + 1) k, e, c, hc, hr.mem⟩))

/-- The path of the key now leads to the new table. -/
theorem Reach.reach_grow : R.Reach m' k l p j n := by
  generalize hj : j + 1 = j' at hr
  induction hr with
  | @refl l q =>
    subst hj
    refine .step ?_ (.refl j n)
    rw [hg.word, update_self]
    exact hg.points
  | @step l j' p c q hc hr ih =>
    obtain ⟨hp, hnd', hn'⟩ := hg.on_path hc hr hnd hn
    refine .step ?_ (ih hg hnd' hn' hj)
    rw [hp]
    exact hc

end Grow

end Radix

end Xv6
