import Xv6.Umalloc.Model
import Mathlib.Algebra.Order.BigOperators.Group.List
import Mathlib.Algebra.Order.Group.Nat

/-!
# Blocks that tile memory

`Tiles bs rs lo hi` says that the blocks `bs`, in any order, are disjoint, lie between `lo` and `hi`
and make up exactly the memory `rs`. A new block can be added above the others, a block can be split
in two, and two adjacent ones merged.
-/

namespace Xv6.Umalloc

open List

def Block.stop (b : Block) : Nat := b.addr + HEADER * b.n

def Block.has (b : Block) (x : Nat) : Prop := b.addr ≤ x ∧ x < b.stop

/-- One ends before the other starts. -/
def Block.Apart (b c : Block) : Prop := b.stop ≤ c.addr ∨ c.stop ≤ b.addr

theorem Block.Apart.symm {b c : Block} (h : b.Apart c) : c.Apart b := Or.symm h

structure Tiles (bs rs : List Block) (lo hi : Nat) : Prop where
  pos : ∀ b ∈ bs, 0 < b.n
  apart : bs.Pairwise Block.Apart
  cover : ∀ x, (∃ b ∈ bs, b.has x) ↔ ∃ r ∈ rs, r.has x
  total : (bs.map Block.n).sum = (rs.map Block.n).sum
  aligned : (∀ r ∈ rs, HEADER ∣ r.addr) → ∀ b ∈ bs, HEADER ∣ b.addr
  within : ∀ b ∈ bs, lo ≤ b.addr ∧ b.stop ≤ hi

variable {b : Block} {bs bs' rs : List Block} {lo hi : Nat} {a m n : Nat}

theorem Tiles.perm (h : Tiles bs rs lo hi) (hp : bs.Perm bs') : Tiles bs' rs lo hi where
  pos b hb := h.pos b (hp.mem_iff.2 hb)
  apart := (hp.pairwise_iff fun {_ _} h => h.symm).1 h.apart
  cover x := by
    rw [← h.cover x]
    simp only [hp.mem_iff]
  total := by rw [← h.total, (hp.map Block.n).sum_eq]
  aligned hr b hb := h.aligned hr b (hp.mem_iff.2 hb)
  within b hb := h.within b (hp.mem_iff.2 hb)

theorem tiles_nil (lo hi : Nat) : Tiles [] [] lo hi where
  pos := nofun
  apart := .nil
  cover x := by simp
  total := rfl
  aligned _ := nofun
  within := nofun

/-- A new block above the others. -/
theorem Tiles.add (h : Tiles bs rs lo hi) (hlo : lo ≤ hi) (ha : hi ≤ a) (hn : 0 < n) :
    Tiles (⟨a, n⟩ :: bs) (⟨a, n⟩ :: rs) lo (a + HEADER * n) where
  pos := forall_mem_cons.2 ⟨hn, h.pos⟩
  apart := pairwise_cons.2 ⟨fun b hb => .inr (Nat.le_trans (h.within b hb).2 ha), h.apart⟩
  cover x := by
    have hc := h.cover x
    simp only [mem_cons, exists_eq_or_imp, hc]
  total := by rw [map_cons, map_cons, sum_cons, sum_cons, h.total]
  aligned hr := forall_mem_cons.2 ⟨hr _ mem_cons_self, h.aligned (forall_mem_cons.1 hr).2⟩
  within := forall_mem_cons.2 ⟨⟨Nat.le_trans hlo ha, Nat.le_refl _⟩, fun b hb =>
    ⟨(h.within b hb).1, Nat.le_trans (h.within b hb).2 (Nat.le_trans ha (Nat.le_add_right ..))⟩⟩

theorem has_split (a m n x : Nat) : Block.has ⟨a, m + n⟩ x ↔ Block.has ⟨a, m⟩ x ∨ Block.has ⟨a + HEADER * m, n⟩ x := by
  simp only [Block.has, Block.stop, HEADER]
  omega

/-- Two blocks next to each other are one, and the other way round. -/
theorem Tiles.merge (h : Tiles (⟨a, m⟩ :: ⟨a + HEADER * m, n⟩ :: bs) rs lo hi) : Tiles (⟨a, m + n⟩ :: bs) rs lo hi := by
  have hap := h.apart
  have hpos := h.pos
  have hw := h.within
  simp only [pairwise_cons, forall_mem_cons] at hap hpos hw
  refine ⟨forall_mem_cons.2 ⟨Nat.add_pos_left hpos.1 n, hpos.2.2⟩, pairwise_cons.2 ⟨fun b hb => ?_, hap.2.2⟩, fun x => ?_, ?_,
    fun hr => ?_, forall_mem_cons.2 ⟨?_, hw.2.2⟩⟩
  · have h₁ := hap.1.2 b hb
    have h₂ := hap.2.1 b hb
    have h₀ := hpos.2.2 b hb
    simp only [Block.Apart, Block.stop, HEADER] at *
    omega
  · rw [← h.cover x]
    simp only [mem_cons, exists_eq_or_imp, has_split, or_assoc]
  · rw [← h.total]
    simp [Nat.add_assoc]
  · have hal := forall_mem_cons.1 (h.aligned hr)
    exact forall_mem_cons.2 ⟨hal.1, (forall_mem_cons.1 hal.2).2⟩
  · simp only [Block.stop, HEADER] at *
    omega

theorem Tiles.split (h : Tiles (⟨a, m + n⟩ :: bs) rs lo hi) (hm : 0 < m) (hn : 0 < n) :
    Tiles (⟨a, m⟩ :: ⟨a + HEADER * m, n⟩ :: bs) rs lo hi := by
  have hap := pairwise_cons.1 h.apart
  have hpos := forall_mem_cons.1 h.pos
  have hw := forall_mem_cons.1 h.within
  refine ⟨forall_mem_cons.2 ⟨hm, forall_mem_cons.2 ⟨hn, hpos.2⟩⟩, ?_, fun x => ?_, ?_, fun hr => ?_,
    forall_mem_cons.2 ⟨?_, forall_mem_cons.2 ⟨?_, hw.2⟩⟩⟩
  · simp only [pairwise_cons, forall_mem_cons]
    refine ⟨⟨.inl (Nat.le_refl _), fun b hb => ?_⟩, fun b hb => ?_, hap.2⟩ <;> have := hap.1 b hb <;>
      simp only [Block.Apart, Block.stop, HEADER] at * <;> omega
  · rw [← h.cover x]
    simp only [mem_cons, exists_eq_or_imp, has_split, or_assoc]
  · rw [← h.total]
    simp [Nat.add_assoc]
  · have hal := forall_mem_cons.1 (h.aligned hr)
    exact forall_mem_cons.2 ⟨hal.1, forall_mem_cons.2 ⟨(Nat.dvd_add_iff_left (Nat.dvd_mul_right ..)).1 hal.1, hal.2⟩⟩
  · simp only [Block.stop, HEADER] at *
    omega
  · simp only [Block.stop, HEADER] at *
    omega

theorem Tiles.n_le (h : Tiles bs rs lo hi) (hb : b ∈ bs) : b.n ≤ (rs.map Block.n).sum := by
  rw [← h.total]
  exact le_sum_of_mem (mem_map_of_mem hb)

end Xv6.Umalloc
