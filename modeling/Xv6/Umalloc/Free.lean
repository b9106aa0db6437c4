import Xv6.Umalloc.Blocks
import Mathlib.Data.List.Nodup

/-!
# What `free` does to the free list

`Heap s fl lv` says that the free blocks `fl` are on the circular list from `base`, by address and
apart, and that together with the blocks `lv` they tile the memory from `sbrk`. The search of `free`
finds the node before the block's place (`Heap.search_placed`); the block is first merged with what
follows it (`Heap.linking`), then with what it follows (`Linking.heap`).
-/

namespace Xv6.Umalloc

open Function List

variable {s : State} {b c x y : Block} {fl lv l₁ l₂ : List Block} {p q r : Nat} {n : BitVec 32}

/-- There is memory between the two. -/
def Block.Before (b c : Block) : Prop := b.stop < c.addr

/-- The free list with the node it starts from. -/
def State.nodes (s : State) (fl : List Block) : List Block := ⟨s.base, 0⟩ :: fl

structure Heap (s : State) (fl lv : List Block) : Prop where
  path : Path s.ptr ((s.nodes fl).map Block.addr) s.base
  freep : ∃ b ∈ s.nodes fl, b.addr = s.freep
  sorted : (s.nodes fl).Pairwise Block.Before
  sizes : ∀ b ∈ s.nodes fl ++ lv, (s.size b.addr).toNat = b.n
  tiles : Tiles (fl ++ lv) s.regions (s.base + HEADER) s.brk
  low : 0 < s.base ∧ s.base + HEADER ≤ s.brk
  fits : s.total < 2 ^ 32

@[simp] theorem ptr_setPtr : (s.setPtr p q).ptr r = if r = p then q else s.ptr r := by
  simp only [State.ptr, State.setPtr, update_apply]
  split <;> rfl

@[simp] theorem size_setPtr : (s.setPtr p q).size r = s.size r := by
  simp only [State.size, State.setPtr, update_apply]
  split
  · rename_i h
    rw [h]
  · rfl

@[simp] theorem ptr_setSize : (s.setSize p n).ptr r = s.ptr r := by
  simp only [State.ptr, State.setSize, update_apply]
  split
  · rename_i h
    rw [h]
  · rfl

@[simp] theorem size_setSize : (s.setSize p n).size r = if r = p then n else s.size r := by
  simp only [State.size, State.setSize, update_apply]
  split <;> rfl

/-- What writes to headers leave alone. -/
structure SameHeap (s t : State) : Prop where
  base : t.base = s.base
  brk : t.brk = s.brk
  live : t.live = s.live
  regions : t.regions = s.regions
  asked : t.asked = s.asked
  killed : t.killed = s.killed

variable {t : State}

theorem SameHeap.trans {s u : State} (h : SameHeap s t) (h' : SameHeap t u) : SameHeap s u :=
  ⟨h'.base.trans h.base, h'.brk.trans h.brk, h'.live.trans h.live, h'.regions.trans h.regions,
    h'.asked.trans h.asked, h'.killed.trans h.killed⟩

theorem plus_eq {a : Nat} (h : (s.size b.addr).toNat = b.n) (ha : b.addr = a) : plus a (s.size a) = b.stop := by
  subst ha
  rw [plus, h, Block.stop]

theorem Block.Apart.addr_ne (h : b.Apart c) (hb : 0 < b.n) (hc : 0 < c.n) : b.addr ≠ c.addr := by
  simp only [Block.Apart, Block.stop, HEADER] at h
  omega

theorem Block.Apart.stop_le (h : b.Apart c) (hc : 0 < c.n) (hlt : b.addr < c.addr) : b.stop ≤ c.addr := by
  simp only [Block.Apart, Block.stop, HEADER] at h ⊢
  omega

theorem Block.Before.addr_lt (h : b.Before c) : b.addr < c.addr := by
  simp only [Block.Before, Block.stop] at h
  omega

theorem Block.addr_le_stop (b : Block) : b.addr ≤ b.stop := Nat.le_add_right ..

namespace Heap

variable (h : Heap s fl lv)
include h

theorem pos (hb : b ∈ fl ++ lv) : 0 < b.n := h.tiles.pos b hb

theorem base_lt (hb : b ∈ fl ++ lv) : s.base + HEADER ≤ b.addr := (h.tiles.within b hb).1

theorem base_le (hb : b ∈ s.nodes fl) : s.base ≤ b.addr := by
  rcases mem_cons.1 hb with rfl | hb
  · exact Nat.le_refl _
  · exact Nat.le_of_add_right_le (h.base_lt (mem_append_left lv hb))

/-- A block that is not on the list is at no node of it. -/
theorem addr_ne (hb : b ∈ s.nodes fl) (hc : c ∈ lv) : b.addr ≠ c.addr := by
  have hc' := h.base_lt (mem_append_right fl hc)
  rcases mem_cons.1 hb with rfl | hb
  · simp only [HEADER] at hc' ⊢
    omega
  · exact ((pairwise_append.1 h.tiles.apart).2.2 b hb c hc).addr_ne
      (h.pos (mem_append_left lv hb)) (h.pos (mem_append_right fl hc))

theorem addr_inj (hb : b ∈ s.nodes fl) (hc : c ∈ s.nodes fl) (he : b.addr = c.addr) : b = c := by
  have hlt : ((s.nodes fl).map Block.addr).Pairwise (· < ·) :=
    pairwise_map.2 (h.sorted.imp fun h => h.addr_lt)
  exact inj_on_of_nodup_map (hlt.imp fun h => Nat.ne_of_lt h) hb hc he

theorem next_eq (he : s.nodes fl = l₁ ++ y :: l₂) : s.ptr y.addr = (l₂.map Block.addr).headD s.base := by
  have hp := h.path
  rw [he, map_append, map_cons] at hp
  exact hp.next_eq

end Heap

/-- A sorted list around an address that is not in it. -/
theorem split_at {l : List Block} (hs : (x :: l).Pairwise Block.Before) (hx : x.addr < p) (hne : ∀ c ∈ l, c.addr ≠ p) :
    ∃ l₁ y l₂, x :: l = l₁ ++ y :: l₂ ∧ y.addr < p ∧ ∀ c ∈ l₂, p < c.addr := by
  induction l generalizing x with
  | nil => exact ⟨[], x, [], rfl, hx, nofun⟩
  | cons c l ih =>
    have hs' := pairwise_cons.1 hs
    by_cases hc : c.addr < p
    · obtain ⟨l₁, y, l₂, e, hy⟩ := ih hs'.2 hc fun d hd => hne d (mem_cons_of_mem c hd)
      exact ⟨x :: l₁, y, l₂, by rw [e, cons_append], hy⟩
    · have hp : p < c.addr := Nat.lt_of_le_of_ne (Nat.le_of_not_lt hc) (hne c mem_cons_self).symm
      exact ⟨[], x, c :: l, rfl, hx, forall_mem_cons.2
        ⟨hp, fun d hd => Nat.lt_trans hp ((pairwise_cons.1 hs'.2).1 d hd).addr_lt⟩⟩

namespace Heap

theorem mem_nodes (he : s.nodes fl = l₁ ++ y :: l₂) : y ∈ s.nodes fl := by
  rw [he]
  simp

/-- The search ends at the last node below the block, and nowhere else. -/
theorem placed_iff (h : Heap s fl (b :: lv)) (he : s.nodes fl = l₁ ++ y :: l₂) :
    s.placed b.addr y.addr = true ↔ y.addr < b.addr ∧ ∀ c ∈ l₂, b.addr < c.addr := by
  have hnext := h.next_eq he
  have hbase := h.base_lt (mem_append_right fl mem_cons_self)
  have hy := h.base_le (mem_nodes he)
  have hs := h.sorted
  rw [he] at hs
  have hs₂ := pairwise_cons.1 (pairwise_append.1 hs).2.1
  rw [State.placed, decide_eq_true_eq, hnext]
  cases l₂ with
  | nil =>
    simp only [map_nil, headD_nil, not_mem_nil, false_implies, implies_true, and_true, HEADER]
      at hbase ⊢
    omega
  | cons c l₂ =>
    have hyc := (hs₂.1 c mem_cons_self).addr_lt
    have hc : ∀ d ∈ l₂, c.addr < d.addr := fun d hd => ((pairwise_cons.1 hs₂.2).1 d hd).addr_lt
    simp only [map_cons, headD_cons, mem_cons, forall_eq_or_imp]
    constructor
    · intro hp
      have hb : y.addr < b.addr ∧ b.addr < c.addr := by omega
      exact ⟨hb.1, hb.2, fun d hd => Nat.lt_trans hb.2 (hc d hd)⟩
    · exact fun hp => .inl ⟨hp.1, hp.2.1⟩

theorem search_placed (h : Heap s fl (b :: lv)) :
    ∃ n y l₁ l₂, s.nodes fl = l₁ ++ y :: l₂ ∧ (y.addr < b.addr ∧ ∀ c ∈ l₂, b.addr < c.addr) ∧
      ∀ fuel ≥ n, search s.ptr (s.placed b.addr) fuel s.freep = some y.addr := by
  have hbase := h.base_lt (mem_append_right fl mem_cons_self)
  -- Some node stops the search, ...
  obtain ⟨l₁, y, l₂, e, hy⟩ := split_at h.sorted (p := b.addr)
    (by simp only [HEADER] at hbase; change s.base < _; omega)
    fun c hc => h.addr_ne (mem_cons_of_mem _ hc) mem_cons_self
  have hstop := (h.placed_iff e).2 hy
  -- ... and it is on the way from `freep`.
  obtain ⟨f, hf, hfp⟩ := h.freep
  obtain ⟨k₁, k₂, ek⟩ := append_of_mem hf
  have hring : Path s.ptr (f.addr :: (k₂.map Block.addr ++ k₁.map Block.addr)) f.addr := by
    refine h.path.rotate ?_ rfl
    rw [ek, map_append, map_cons]
  have hmem : ∀ z : Nat, z ∈ f.addr :: (k₂.map Block.addr ++ k₁.map Block.addr) ↔
      z ∈ (s.nodes fl).map Block.addr := by
    intro z
    rw [ek]
    simp only [mem_cons, mem_append, map_append, map_cons]
    tauto
  obtain ⟨z, hz, hzs, hsearch⟩ := hring.search
    ⟨y.addr, (hmem _).2 (mem_map_of_mem (mem_nodes e)), hstop⟩ (Nat.lt_succ_self _)
  obtain ⟨y', hy', rfl⟩ := mem_map.1 ((hmem z).1 hz)
  obtain ⟨m₁, m₂, em⟩ := append_of_mem hy'
  rw [hfp] at hsearch
  exact ⟨_, y', m₁, m₂, em, (h.placed_iff em).1 hzs, fun fuel hfuel => search_mono hsearch hfuel⟩

end Heap

/-- The part of the list before the place after `y`. -/
theorem nodes_split (he : s.nodes fl = l₁ ++ y :: l₂) : ∃ k, fl = k ++ l₂ ∧ ∀ m, s.nodes (k ++ m) = l₁ ++ y :: m := by
  cases l₁ with
  | nil =>
    obtain ⟨hy, hl⟩ := cons.inj he
    exact ⟨[], hl, fun m => by rw [← hy]; rfl⟩
  | cons a l₁ =>
    obtain ⟨ha, hl⟩ := cons.inj he
    refine ⟨l₁ ++ [y], by rw [hl]; simp, fun m => ?_⟩
    rw [← ha]
    simp [State.nodes]

theorem SameHeap.nodes (h : SameHeap s t) (fl : List Block) : t.nodes fl = s.nodes fl := by
  rw [State.nodes, h.base, State.nodes]

theorem SameHeap.total (h : SameHeap s t) : t.total = s.total := by
  rw [State.total, h.regions, State.total]

/-- The block `b` is to go after `y`: what follows it is linked to it, and is apart from it. -/
structure Linking (s : State) (l₁ : List Block) (y b : Block) (l₂ lv : List Block) : Prop where
  nodes : ∃ fl, s.nodes fl = l₁ ++ y :: l₂ ∧ Tiles (b :: (fl ++ lv)) s.regions (s.base + HEADER) s.brk
  front : Path s.ptr (l₁.map Block.addr) y.addr
  back : Path s.ptr ((b :: l₂).map Block.addr) s.base
  sorted : (l₁ ++ y :: l₂).Pairwise Block.Before
  addr_lt : y.addr < b.addr
  le : y.stop ≤ b.addr
  lt : ∀ c ∈ l₂, b.Before c
  size : (s.size b.addr).toNat = b.n
  sizes : ∀ c ∈ l₁ ++ y :: l₂ ++ lv, (s.size c.addr).toNat = c.n
  low : 0 < s.base ∧ s.base + HEADER ≤ s.brk
  fits : s.total < 2 ^ 32

theorem toNat_add_sizes {m k : Nat} {v w : BitVec 32} (hv : v.toNat = m) (hw : w.toNat = k) (h : m + k < 2 ^ 32) :
    (v + w).toNat = m + k := by
  rw [BitVec.toNat_add, hv, hw, Nat.mod_eq_of_lt h]

/-- The search ended at `y`. -/
structure Placed (s : State) (fl : List Block) (b : Block) (lv l₁ : List Block) (y : Block) (l₂ : List Block) :
    Prop where
  heap : Heap s fl (b :: lv)
  nodes : s.nodes fl = l₁ ++ y :: l₂
  lt : y.addr < b.addr
  gt : ∀ c ∈ l₂, b.addr < c.addr

namespace Placed

variable (h : Placed s fl b lv l₁ y l₂)
include h

theorem tiles : Tiles (b :: (fl ++ lv)) s.regions (s.base + HEADER) s.brk :=
  h.heap.tiles.perm perm_middle

theorem apart (hc : c ∈ fl ++ lv) : b.Apart c := (pairwise_cons.1 h.tiles.apart).1 c hc

theorem mem_fl (hc : c ∈ l₂) : c ∈ fl := by
  obtain ⟨k, e, -⟩ := nodes_split h.nodes
  rw [e]
  exact mem_append_right k hc

theorem addr_ne (hc : c ∈ l₁ ++ y :: l₂ ++ lv) : c.addr ≠ b.addr := by
  rcases mem_append.1 hc with hc | hc
  · exact h.heap.addr_ne (h.nodes ▸ hc) mem_cons_self
  · have hcl : c ∈ fl ++ lv := mem_append_right fl hc
    exact ((h.apart hcl).addr_ne (h.tiles.pos b mem_cons_self) (h.tiles.pos c (mem_cons_of_mem b hcl))).symm

theorem stop_le : y.stop ≤ b.addr := by
  have hy : y ∈ s.nodes fl := Heap.mem_nodes h.nodes
  rcases mem_cons.1 hy with rfl | hy
  · exact Nat.le_of_lt h.lt
  · have hyl : y ∈ fl ++ lv := mem_append_left lv hy
    exact (h.apart hyl).symm.stop_le (h.tiles.pos b mem_cons_self) h.lt

theorem path : Path s.ptr (l₁.map Block.addr) y.addr ∧ Path s.ptr (y.addr :: l₂.map Block.addr) s.base := by
  have hp := h.heap.path
  rw [h.nodes, map_append, map_cons] at hp
  exact path_append.1 hp

/-- The links of the nodes before and after are as they were. -/
theorem front (hptr : ∀ r, r ≠ b.addr → t.ptr r = s.ptr r) : Path t.ptr (l₁.map Block.addr) y.addr := by
  refine h.path.1.congr fun r hr => hptr r ?_
  obtain ⟨c, hc, rfl⟩ := mem_map.1 hr
  exact h.addr_ne (by simp [hc])

theorem back (hptr : ∀ r, r ≠ b.addr → t.ptr r = s.ptr r) : Path t.ptr (l₂.map Block.addr) s.base := by
  refine h.path.2.2.congr fun r hr => hptr r ?_
  obtain ⟨c, hc, rfl⟩ := mem_map.1 hr
  exact h.addr_ne (by simp [hc])

theorem sorted : (l₁ ++ y :: l₂).Pairwise Block.Before := h.nodes ▸ h.heap.sorted

theorem size : (s.size b.addr).toNat = b.n := h.heap.sizes b (by simp)

theorem sizes (hc : c ∈ l₁ ++ y :: l₂ ++ lv) : (s.size c.addr).toNat = c.n := by
  refine h.heap.sizes c ?_
  rw [h.nodes]
  rcases mem_append.1 hc with hc | hc
  · exact mem_append_left _ hc
  · exact mem_append_right _ (mem_cons_of_mem b hc)

/-- Nothing follows right after the block. -/
theorem linking_link (hne : b.stop ≠ s.ptr y.addr) (hs : SameHeap s t)
    (hptr : ∀ r, t.ptr r = if r = b.addr then s.ptr y.addr else s.ptr r) (hsize : ∀ r, t.size r = s.size r) :
    Linking t l₁ y b l₂ lv := by
  have hother : ∀ r, r ≠ b.addr → t.ptr r = s.ptr r := fun r hr => (hptr r).trans (if_neg hr)
  refine ⟨⟨fl, (hs.nodes fl).trans h.nodes, ?_⟩, h.front hother, ⟨?_, ?_⟩, h.sorted, h.lt, h.stop_le, ?_, ?_, ?_,
    ?_, ?_⟩
  · rw [hs.regions, hs.base, hs.brk]
    exact h.tiles
  · rw [hptr, if_pos rfl, hs.base]
    exact h.path.2.1
  · rw [hs.base]
    exact h.back hother
  · -- The one that follows starts later, and the others after it.
    have hnext := h.heap.next_eq h.nodes
    cases l₂ with
    | nil => nofun
    | cons c l₂ =>
      have hs₂ := pairwise_cons.1 (pairwise_cons.1 (pairwise_append.1 h.sorted).2.1).2
      have hcl : c ∈ fl ++ lv := mem_append_left lv (h.mem_fl mem_cons_self)
      have hle : b.stop ≤ c.addr := (h.apart hcl).stop_le (h.tiles.pos c (mem_cons_of_mem b hcl))
        (h.gt c mem_cons_self)
      have hlt : b.Before c := Nat.lt_of_le_of_ne hle fun he => hne (he.trans hnext.symm)
      exact forall_mem_cons.2 ⟨hlt, fun d hd => Nat.lt_trans hlt (hs₂.1 d hd).addr_lt⟩
  · rw [hsize]
    exact h.size
  · intro c hc
    rw [hsize]
    exact h.sizes hc
  · rw [hs.base, hs.brk]
    exact h.heap.low
  · rw [hs.total]
    exact h.heap.fits

end Placed

/-- The block takes in what follows right after it. -/
theorem Placed.linking_join (h : Placed s fl b lv l₁ y (c :: l₂)) (hc : c.addr = b.stop) (hs : SameHeap s t)
    (hptr : ∀ r, t.ptr r = if r = b.addr then s.ptr c.addr else s.ptr r)
    (hsize : ∀ r, t.size r = if r = b.addr then s.size b.addr + s.size c.addr else s.size r) :
    Linking t l₁ y ⟨b.addr, b.n + c.n⟩ l₂ lv := by
  have hother : ∀ r, r ≠ b.addr → t.ptr r = s.ptr r := fun r hr => (hptr r).trans (if_neg hr)
  have hcs : c ∈ l₁ ++ y :: c :: l₂ ++ lv := by simp
  have hce : c = ⟨b.addr + HEADER * b.n, c.n⟩ := by
    cases c
    exact congrArg (Block.mk · _) hc
  obtain ⟨k, ek, hk⟩ := nodes_split h.nodes
  have htiles : Tiles (⟨b.addr, b.n + c.n⟩ :: (k ++ l₂ ++ lv)) s.regions (s.base + HEADER) s.brk := by
    refine Tiles.merge ?_
    rw [← hce]
    refine h.tiles.perm (.cons b ?_)
    rw [ek, append_assoc, append_assoc, cons_append]
    exact perm_middle
  have hsorted := h.sorted
  have hs₂ := pairwise_cons.1 (pairwise_cons.1 (pairwise_append.1 hsorted).2.1).2
  refine ⟨⟨k ++ l₂, (hs.nodes _).trans (hk l₂), ?_⟩, h.front hother, ⟨?_, ?_⟩, ?_, h.lt, h.stop_le, ?_, ?_, ?_,
    ?_, ?_⟩
  · rw [hs.regions, hs.base, hs.brk]
    exact htiles
  · rw [hptr, if_pos rfl, hs.base]
    exact h.path.2.2.1
  · rw [hs.base]
    exact (h.back hother).2
  · exact hsorted.sublist (.append_left (.cons_cons y (sublist_cons_self c l₂)) l₁)
  · intro d hd
    have hd := hs₂.1 d hd
    simp only [Block.Before, Block.stop, HEADER] at hd hc ⊢
    omega
  · rw [hsize, if_pos rfl]
    exact toNat_add_sizes h.size (h.sizes hcs) (Nat.lt_of_le_of_lt (htiles.n_le mem_cons_self) h.heap.fits)
  · intro d hd
    have hd' : d ∈ l₁ ++ y :: c :: l₂ ++ lv := by
      simp only [mem_append, mem_cons] at hd ⊢
      tauto
    rw [hsize, if_neg (h.addr_ne hd')]
    exact h.sizes hd'
  · rw [hs.base, hs.brk]
    exact h.heap.low
  · rw [hs.total]
    exact h.heap.fits

theorem same_joinNext (s : State) (bp p : Nat) : SameHeap s (s.joinNext bp p) := by
  rw [State.joinNext]
  split <;> exact ⟨rfl, rfl, rfl, rfl, rfl, rfl⟩

theorem Placed.linking (h : Placed s fl b lv l₁ y l₂) :
    ∃ b' l₂', b'.addr = b.addr ∧ b.n ≤ b'.n ∧ Linking (s.joinNext b.addr y.addr) l₁ y b' l₂' lv := by
  have hsame := same_joinNext s b.addr y.addr
  rw [State.joinNext] at hsame ⊢
  have hstop : plus b.addr (s.size b.addr) = b.stop := plus_eq h.size rfl
  have hnext := h.heap.next_eq h.nodes
  rw [hstop] at hsame ⊢
  by_cases hj : b.stop = s.ptr y.addr
  · rw [if_pos hj] at hsame ⊢
    cases l₂ with
    | nil =>
      -- Only `base` follows, which is below all memory from `sbrk`.
      have hb := (h.tiles.within b mem_cons_self).1
      have hle := b.addr_le_stop
      rw [hj, hnext] at hle
      simp only [map_nil, headD_nil, HEADER] at hle hb
      omega
    | cons c l₂ =>
      have hc : s.ptr y.addr = c.addr := hnext
      refine ⟨⟨b.addr, b.n + c.n⟩, l₂, rfl, Nat.le_add_right .., h.linking_join (hc ▸ hj.symm) hsame ?_ ?_⟩
      · intro r
        simp [hc]
      · intro r
        simp [hc]
  · rw [if_neg hj] at hsame ⊢
    exact ⟨b, l₂, rfl, Nat.le_refl _, h.linking_link hj hsame (fun r => by simp) fun r => by simp⟩

/-- A block of another size in the place of one. -/
theorem sorted_replace (h : (l₁ ++ y :: l₂).Pairwise Block.Before) (hx : x.addr = y.addr)
    (hl : ∀ c ∈ l₂, x.Before c) : (l₁ ++ x :: l₂).Pairwise Block.Before := by
  obtain ⟨h₁, h₂, h₁₂⟩ := pairwise_append.1 h
  refine pairwise_append.2 ⟨h₁, pairwise_cons.2 ⟨hl, (pairwise_cons.1 h₂).2⟩, fun c hc => ?_⟩
  obtain ⟨hcy, hc⟩ := forall_mem_cons.1 (h₁₂ c hc)
  refine forall_mem_cons.2 ⟨?_, hc⟩
  rw [Block.Before, hx]
  exact hcy

namespace Linking

variable (h : Linking s l₁ y b l₂ lv)
include h

theorem lt_addr (hc : c ∈ l₁) : c.Before y :=
  (pairwise_append.1 h.sorted).2.2 c hc y mem_cons_self

theorem addr_lt_of_mem (hc : c ∈ l₂) : y.Before c :=
  (pairwise_cons.1 (pairwise_append.1 h.sorted).2.1).1 c hc

theorem front_of (hptr : ∀ r, r ≠ y.addr → t.ptr r = s.ptr r) : Path t.ptr (l₁.map Block.addr) y.addr := by
  refine h.front.congr fun r hr => hptr r ?_
  obtain ⟨c, hc, rfl⟩ := mem_map.1 hr
  exact Nat.ne_of_lt (h.lt_addr hc).addr_lt

theorem back_of (hptr : ∀ r, r ≠ y.addr → t.ptr r = s.ptr r) : Path t.ptr ((b :: l₂).map Block.addr) s.base := by
  refine h.back.congr fun r hr => hptr r ?_
  obtain ⟨c, hc, rfl⟩ := mem_map.1 hr
  rcases mem_cons.1 hc with rfl | hc
  · exact Nat.ne_of_gt h.addr_lt
  · exact Nat.ne_of_gt (h.addr_lt_of_mem hc).addr_lt

/-- The block goes after `y`. -/
theorem heap_link (hlt : y.stop < b.addr) (hs : SameHeap s t) (hf : t.freep = y.addr)
    (hptr : ∀ r, t.ptr r = if r = y.addr then b.addr else s.ptr r) (hsize : ∀ r, t.size r = s.size r) :
    ∃ fl, Heap t fl lv ∧ ∃ c ∈ fl, b.n ≤ c.n := by
  obtain ⟨fl, e, htiles⟩ := h.nodes
  obtain ⟨k, rfl, hk⟩ := nodes_split e
  have hother : ∀ r, r ≠ y.addr → t.ptr r = s.ptr r := fun r hr => (hptr r).trans (if_neg hr)
  have hnodes : t.nodes (k ++ b :: l₂) = l₁ ++ y :: b :: l₂ := (hs.nodes _).trans (hk _)
  refine ⟨k ++ b :: l₂, ⟨?_, ⟨y, ?_, hf.symm⟩, ?_, ?_, ?_, ?_, ?_⟩, b, by simp, Nat.le_refl _⟩
  · rw [hnodes, map_append, hs.base]
    exact path_append.2 ⟨h.front_of hother, (hptr _).trans (if_pos rfl), h.back_of hother⟩
  · rw [hnodes]
    simp
  · rw [hnodes]
    obtain ⟨h₁, h₂, h₁₂⟩ := pairwise_append.1 h.sorted
    obtain ⟨hy, h₂⟩ := pairwise_cons.1 h₂
    refine pairwise_append.2 ⟨h₁, ?_, fun c hc => ?_⟩
    · exact pairwise_cons.2 ⟨forall_mem_cons.2 ⟨hlt, hy⟩, pairwise_cons.2 ⟨h.lt, h₂⟩⟩
    · obtain ⟨hcy, hc⟩ := forall_mem_cons.1 (h₁₂ c hc)
      exact forall_mem_cons.2 ⟨hcy, forall_mem_cons.2 ⟨Nat.lt_trans hcy h.addr_lt, hc⟩⟩
  · intro c hc
    rw [hsize]
    rw [hnodes] at hc
    by_cases hcb : c = b
    · rw [hcb]
      exact h.size
    · refine h.sizes c ?_
      simp only [mem_append, mem_cons] at hc ⊢
      tauto
  · rw [hs.regions, hs.base, hs.brk]
    refine htiles.perm ?_
    rw [append_assoc, append_assoc, cons_append]
    exact perm_middle.symm
  · rw [hs.base, hs.brk]
    exact h.low
  · rw [hs.total]
    exact h.fits

/-- The block goes into `y`. -/
theorem heap_join (he : y.stop = b.addr) (hs : SameHeap s t) (hf : t.freep = y.addr)
    (hptr : ∀ r, t.ptr r = if r = y.addr then s.ptr b.addr else s.ptr r)
    (hsize : ∀ r, t.size r = if r = y.addr then s.size y.addr + s.size b.addr else s.size r) :
    ∃ fl, Heap t fl lv ∧ ∃ c ∈ fl, b.n ≤ c.n := by
  obtain ⟨fl, e, htiles⟩ := h.nodes
  have hother : ∀ r, r ≠ y.addr → t.ptr r = s.ptr r := fun r hr => (hptr r).trans (if_neg hr)
  cases l₁ with
  | nil =>
    -- `base` has no memory, and ends below all memory from `sbrk`.
    obtain ⟨rfl, -⟩ := cons.inj e
    have hb := (htiles.within b mem_cons_self).1
    simp only [Block.stop, HEADER] at he hb
    omega
  | cons a l₁ =>
    obtain ⟨rfl, hl⟩ := cons.inj e
    replace hl : fl = l₁ ++ y :: l₂ := hl
    subst hl
    have hbe : b = ⟨y.addr + HEADER * y.n, b.n⟩ := by
      cases b
      exact congrArg (Block.mk · _) he.symm
    have hlv : ∀ c ∈ lv, c.addr ≠ y.addr := fun c hc =>
      ((pairwise_append.1 (pairwise_cons.1 htiles.apart).2).2.2 y (by simp) c hc).symm.addr_ne
        (htiles.pos c (by simp [hc])) (htiles.pos y (by simp))
    have htiles' : Tiles (⟨y.addr, y.n + b.n⟩ :: (l₁ ++ l₂ ++ lv)) s.regions (s.base + HEADER) s.brk := by
      refine Tiles.merge ?_
      rw [← hbe]
      refine htiles.perm ((List.Perm.cons b ?_).trans (.swap y b _))
      rw [append_assoc, append_assoc, cons_append]
      exact perm_middle
    refine ⟨l₁ ++ ⟨y.addr, y.n + b.n⟩ :: l₂, ⟨?_, ⟨⟨y.addr, y.n + b.n⟩, ?_, hf.symm⟩, ?_, ?_, ?_, ?_, ?_⟩,
      ⟨y.addr, y.n + b.n⟩, by simp, Nat.le_add_left ..⟩
    · have hp : Path t.ptr ((⟨s.base, 0⟩ :: l₁).map Block.addr ++ (y.addr :: l₂.map Block.addr)) s.base :=
        path_append.2 ⟨h.front_of hother, ((hptr _).trans (if_pos rfl)).trans h.back.1, (h.back_of hother).2⟩
      rw [State.nodes, hs.base, map_cons, map_append]
      exact hp
    · simp [State.nodes]
    · rw [State.nodes, hs.base, ← cons_append]
      refine sorted_replace h.sorted rfl fun c hc => ?_
      have hbc := h.lt c hc
      simp only [Block.Before, Block.stop, HEADER] at he hbc ⊢
      omega
    · intro c hc
      rw [hsize]
      rw [State.nodes, hs.base] at hc
      by_cases hcy : c = ⟨y.addr, y.n + b.n⟩
      · rw [hcy, if_pos rfl]
        refine toNat_add_sizes (h.sizes y (by simp)) h.size ?_
        exact Nat.lt_of_le_of_lt (htiles'.n_le mem_cons_self) h.fits
      · have hc' : c ∈ ⟨s.base, 0⟩ :: l₁ ∨ c ∈ l₂ ∨ c ∈ lv := by
          simp only [mem_append, mem_cons] at hc ⊢
          tauto
        have hne : c.addr ≠ y.addr := by
          rcases hc' with hc | hc | hc
          · exact Nat.ne_of_lt (h.lt_addr hc).addr_lt
          · exact Nat.ne_of_gt (h.addr_lt_of_mem hc).addr_lt
          · exact hlv c hc
        rw [if_neg hne]
        refine h.sizes c ?_
        simp only [mem_append, mem_cons] at hc' ⊢
        tauto
    · rw [hs.regions, hs.base, hs.brk]
      refine htiles'.perm ?_
      rw [append_assoc, append_assoc, cons_append]
      exact perm_middle.symm
    · rw [hs.base, hs.brk]
      exact h.low
    · rw [hs.total]
      exact h.fits

end Linking

theorem same_joinPrev (s : State) (bp p : Nat) : SameHeap s (s.joinPrev bp p) := by
  rw [State.joinPrev]
  split <;> exact ⟨rfl, rfl, rfl, rfl, rfl, rfl⟩

theorem Linking.heap (h : Linking s l₁ y b l₂ lv) :
    ∃ fl, Heap { s.joinPrev b.addr y.addr with freep := y.addr } fl lv ∧ ∃ c ∈ fl, b.n ≤ c.n := by
  have hsame := same_joinPrev s b.addr y.addr
  have hs : SameHeap s { s.joinPrev b.addr y.addr with freep := y.addr } := { hsame with }
  have hstop : plus y.addr (s.size y.addr) = y.stop := plus_eq (h.sizes y (by simp)) rfl
  by_cases hj : y.stop = b.addr
  · refine h.heap_join hj hs rfl (fun r => ?_) fun r => ?_
    · change (s.joinPrev b.addr y.addr).ptr r = _
      rw [State.joinPrev, hstop, if_pos hj]
      simp
    · change (s.joinPrev b.addr y.addr).size r = _
      rw [State.joinPrev, hstop, if_pos hj]
      simp
  · refine h.heap_link (Nat.lt_of_le_of_ne h.le hj) hs rfl (fun r => ?_) fun r => ?_
    · change (s.joinPrev b.addr y.addr).ptr r = _
      rw [State.joinPrev, hstop, if_neg hj]
      simp
    · change (s.joinPrev b.addr y.addr).size r = _
      rw [State.joinPrev, hstop, if_neg hj]
      simp

theorem same_insert (s : State) (bp p : Nat) : SameHeap s (s.insert bp p) :=
  { (same_joinNext s bp p).trans (same_joinPrev _ bp p) with }

/-- `free` of a block that is not on the list puts it there, or into a larger block. -/
theorem Heap.free (h : Heap s fl (b :: lv)) : ∃ n s' fl', (∀ fuel ≥ n, free fuel s (b.addr + HEADER) = some s') ∧
    SameHeap s s' ∧ Heap s' fl' lv ∧ ∃ c ∈ fl', b.n ≤ c.n := by
  obtain ⟨n, y, l₁, l₂, e, ⟨hlt, hgt⟩, hn⟩ := h.search_placed
  have hp : Placed s fl b lv l₁ y l₂ := ⟨h, e, hlt, hgt⟩
  obtain ⟨b', l₂', hb', hle, hlink⟩ := hp.linking
  obtain ⟨fl', hheap, c, hc, hcn⟩ := hlink.heap
  rw [hb'] at hheap
  refine ⟨n, s.insert b.addr y.addr, fl', fun fuel hfuel => ?_, same_insert .., hheap, c, hc, Nat.le_trans hle hcn⟩
  rw [Umalloc.free, Nat.add_sub_cancel, hn fuel hfuel]
  rfl

end Xv6.Umalloc
