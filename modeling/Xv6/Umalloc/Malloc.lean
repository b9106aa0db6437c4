import Xv6.Umalloc.Free

/-!
# What `malloc` returns

The loop of `malloc` goes once around the list: either it takes the first block that is large enough
(`Heap.take`), or it gets more memory, and the next round finds a block (`Heap.round`). So in every
run the free blocks and those that the program has tile the memory from `sbrk`, and both loops end
(`heap_run`).
-/

namespace Xv6.Umalloc

open List

variable {s : State} {b c x y f : Block} {fl lv l₁ l₂ : List Block} {k : BitVec 32} {sbrk : Nat → Option Nat}
  {core : Nat → State → Option (State × Nat)}

/-! ## Taking a block -/

/-- Where a free block is on the list. -/
theorem Heap.next_split (h : Heap s fl lv) (hx : x ∈ s.nodes fl) (hy : y ∈ fl) (hn : s.ptr x.addr = y.addr) :
    ∃ l₁ l₂, s.nodes fl = l₁ ++ x :: y :: l₂ := by
  obtain ⟨l₁, l₂, e⟩ := append_of_mem hx
  have hnext := h.next_eq e
  rw [hn] at hnext
  cases l₂ with
  | nil =>
    have hb := h.base_lt (mem_append_left lv hy)
    simp only [map_nil, headD_nil, HEADER] at hnext hb
    omega
  | cons c l₂ =>
    have hc : c ∈ s.nodes fl := by
      rw [e]
      simp
    have hcy : y = c := h.addr_inj (mem_cons_of_mem _ hy) hc hnext
    exact ⟨l₁, l₂, hcy ▸ e⟩

theorem Tiles.addr_ne {bs rs : List Block} {lo hi : Nat} (h : Tiles (b :: bs) rs lo hi) (hc : c ∈ bs) : c.addr ≠ b.addr :=
  ((pairwise_cons.1 h.apart).1 c hc).symm.addr_ne (h.pos c (mem_cons_of_mem b hc))
    (h.pos b mem_cons_self)

/-- A block is taken off the list. -/
theorem Heap.take_all {t : State} (h : Heap s fl lv) (he : s.nodes fl = l₁ ++ x :: y :: l₂) (hs : SameHeap s t)
    (hf : t.freep = x.addr) (hptr : ∀ r, t.ptr r = if r = x.addr then s.ptr y.addr else s.ptr r)
    (hsize : ∀ r, t.size r = s.size r) : ∃ fl', Heap t fl' (y :: lv) := by
  obtain ⟨j, rfl, hj⟩ := nodes_split he
  have hnodes : t.nodes (j ++ l₂) = l₁ ++ x :: l₂ := (hs.nodes _).trans (hj _)
  have hpath := h.path
  rw [he, map_append] at hpath
  obtain ⟨hp₁, -, hp₂⟩ := path_append.1 hpath
  have hsorted := h.sorted
  rw [he] at hsorted
  obtain ⟨-, hs₂, hs₁₂⟩ := pairwise_append.1 hsorted
  have hlt : ∀ c ∈ l₁, c.addr < x.addr := fun c hc => (hs₁₂ c hc x mem_cons_self).addr_lt
  have hgt : ∀ c ∈ l₂, x.addr < c.addr := fun c hc =>
    ((pairwise_cons.1 hs₂).1 c (mem_cons_of_mem y hc)).addr_lt
  refine ⟨j ++ l₂, ?_, ⟨x, ?_, hf.symm⟩, ?_, ?_, ?_, ?_, ?_⟩
  · rw [hnodes, map_append, hs.base]
    refine path_append.2 ⟨hp₁.congr fun r hr => ?_, ?_, hp₂.2.congr fun r hr => ?_⟩
    · obtain ⟨c, hc, rfl⟩ := mem_map.1 hr
      rw [hptr, if_neg (Nat.ne_of_lt (hlt c hc))]
    · rw [hptr, if_pos rfl]
      exact hp₂.1
    · obtain ⟨c, hc, rfl⟩ := mem_map.1 hr
      rw [hptr, if_neg (Nat.ne_of_gt (hgt c hc))]
  · rw [hnodes]
    simp
  · rw [hnodes]
    exact hsorted.sublist (.append_left (.cons_cons x (sublist_cons_self y l₂)) l₁)
  · intro c hc
    rw [hsize]
    refine h.sizes c ?_
    rw [hnodes] at hc
    rw [he]
    simp only [mem_append, mem_cons] at hc ⊢
    tauto
  · rw [hs.regions, hs.base, hs.brk]
    refine h.tiles.perm ?_
    rw [append_assoc, append_assoc, cons_append]
    exact .append_left j perm_middle.symm
  · rw [hs.base, hs.brk]
    exact h.low
  · rw [hs.total]
    exact h.fits

variable {m n p : Nat}

/-- The end of a block is taken. -/
theorem Heap.take_end {t : State} {k : Nat} (h : Heap s fl lv) (he : s.nodes fl = l₁ ++ x :: y :: l₂) (hy : y.n = m + k)
    (hm : 0 < m) (hk : 0 < k) (hs : SameHeap s t) (hf : t.freep = x.addr) (hptr : ∀ r, t.ptr r = s.ptr r)
    (hq : (t.size (y.addr + HEADER * m)).toNat = k) (hym : (t.size y.addr).toNat = m)
    (hsize : ∀ r, r ≠ y.addr → r ≠ y.addr + HEADER * m → t.size r = s.size r) :
    ∃ fl', Heap t fl' (⟨y.addr + HEADER * m, k⟩ :: lv) := by
  obtain ⟨j, rfl, hj⟩ := nodes_split he
  have hnodes : t.nodes (j ++ ⟨y.addr, m⟩ :: l₂) = l₁ ++ x :: ⟨y.addr, m⟩ :: l₂ := (hs.nodes _).trans (hj _)
  have htiles : Tiles (⟨y.addr, m⟩ :: ⟨y.addr + HEADER * m, k⟩ :: (j ++ l₂ ++ lv)) s.regions (s.base + HEADER)
      s.brk := by
    refine Tiles.split ?_ hm hk
    rw [← hy]
    refine h.tiles.perm ?_
    rw [append_assoc, append_assoc, cons_append]
    exact perm_middle
  have hsorted := h.sorted
  rw [he] at hsorted
  have hs₂ := pairwise_cons.1 (pairwise_cons.1 (pairwise_append.1 hsorted).2.1).2
  refine ⟨j ++ ⟨y.addr, m⟩ :: l₂, ?_, ⟨x, ?_, hf.symm⟩, ?_, ?_, ?_, ?_, ?_⟩
  · have hpath := h.path.congr fun r _ => hptr r
    rw [he] at hpath
    rw [hnodes, hs.base]
    simpa only [map_append, map_cons] using hpath
  · rw [hnodes]
    simp
  · rw [hnodes]
    have hr : (l₁ ++ [x] ++ ⟨y.addr, m⟩ :: l₂).Pairwise Block.Before := by
      refine sorted_replace (y := y) (by simpa using hsorted) rfl fun c hc => ?_
      have hyc := hs₂.1 c hc
      simp only [Block.Before, Block.stop, hy, HEADER] at hyc ⊢
      omega
    simpa using hr
  · -- Only the two parts of the block have other sizes.
    intro c hc
    by_cases hc₁ : c = ⟨y.addr, m⟩
    · rw [hc₁]
      exact hym
    by_cases hc₂ : c = ⟨y.addr + HEADER * m, k⟩
    · rw [hc₂]
      exact hq
    have hc' : c = ⟨s.base, 0⟩ ∨ c ∈ j ++ l₂ ++ lv := by
      rw [State.nodes, hs.base] at hc
      simp only [mem_append, mem_cons] at hc ⊢
      tauto
    have hne : c.addr ≠ y.addr ∧ c.addr ≠ y.addr + HEADER * m := by
      rcases hc' with rfl | hc'
      · have hb := (htiles.within _ mem_cons_self).1
        simp only [HEADER] at hb ⊢
        omega
      · have htiles' := htiles.perm (.swap _ _ _)
        exact ⟨htiles.addr_ne (mem_cons_of_mem _ hc'), htiles'.addr_ne (mem_cons_of_mem _ hc')⟩
    rw [hsize _ hne.1 hne.2]
    refine h.sizes c ?_
    rw [State.nodes]
    simp only [mem_append, mem_cons] at hc' ⊢
    tauto
  · rw [hs.regions, hs.base, hs.brk]
    refine htiles.perm ?_
    rw [append_assoc, append_assoc, cons_append]
    refine .trans ?_ perm_middle.symm
    refine .cons _ ?_
    rw [← append_assoc, ← append_assoc]
    exact perm_middle.symm
  · rw [hs.base, hs.brk]
    exact h.low
  · rw [hs.total]
    exact h.fits

theorem same_take (s : State) (k : BitVec 32) (prevp p : Nat) : SameHeap s (s.take k prevp p).1 := by
  rw [State.take]
  split <;> exact ⟨rfl, rfl, rfl, rfl, rfl, rfl⟩

theorem Heap.take (h : Heap s fl lv) (hx : x ∈ s.nodes fl) (hy : y ∈ fl) (hn : s.ptr x.addr = y.addr)
    (hk : 0 < k.toNat) (hle : k.toNat ≤ y.n) :
    ∃ fl' q, (s.take k x.addr y.addr).2 = q + HEADER ∧ Heap (s.take k x.addr y.addr).1 fl' (⟨q, k.toNat⟩ :: lv) := by
  obtain ⟨l₁, l₂, e⟩ := h.next_split hx hy hn
  have hsame := same_take s k x.addr y.addr
  have hsy : (s.size y.addr).toNat = y.n := h.sizes y (by simp [State.nodes, hy])
  rw [State.take] at hsame ⊢
  by_cases heq : s.size y.addr = k
  · rw [if_pos heq] at hsame ⊢
    have hye : y = ⟨y.addr, k.toNat⟩ := by rw [← heq, hsy]
    obtain ⟨fl', hfl⟩ := h.take_all e hsame rfl (fun r => ptr_setPtr) fun r => size_setPtr
    exact ⟨fl', y.addr, rfl, hye ▸ hfl⟩
  · rw [if_neg heq] at hsame ⊢
    have hne : k.toNat ≠ y.n := fun he => heq (BitVec.eq_of_toNat_eq (hsy.trans he.symm))
    obtain ⟨m, hm⟩ : ∃ m, y.n = m + k.toNat := ⟨y.n - k.toNat, by omega⟩
    have hsub : (s.size y.addr - k).toNat = m := by
      rw [BitVec.toNat_sub_of_le (BitVec.le_def.2 (hsy ▸ hle)), hsy]
      omega
    have hplus : plus y.addr ((s.setSize y.addr (s.size y.addr - k)).size y.addr) = y.addr + HEADER * m := by
      rw [size_setSize, if_pos rfl, plus, hsub]
    dsimp only at hsame ⊢
    rw [hplus] at hsame ⊢
    have hqy : y.addr ≠ y.addr + HEADER * m := by
      simp only [HEADER]
      omega
    have hptr : ∀ r, ((s.setSize y.addr (s.size y.addr - k)).setSize (y.addr + HEADER * m) k).ptr r = s.ptr r :=
      fun r => by rw [ptr_setSize, ptr_setSize]
    have hsize : ∀ r, ((s.setSize y.addr (s.size y.addr - k)).setSize (y.addr + HEADER * m) k).size r =
        if r = y.addr + HEADER * m then k else if r = y.addr then s.size y.addr - k else s.size r :=
      fun r => by rw [size_setSize, size_setSize]
    obtain ⟨fl', hfl⟩ := h.take_end e hm (by omega) hk hsame rfl hptr
      (congrArg BitVec.toNat ((hsize _).trans (if_pos rfl)))
      ((congrArg BitVec.toNat ((hsize _).trans ((if_neg hqy).trans (if_pos rfl)))).trans hsub)
      fun r hr hr' => (hsize r).trans ((if_neg hr').trans (if_neg hr))
    exact ⟨fl', _, rfl, hfl⟩

/-! ## The loop -/

theorem free_mono {ap : Nat} {s' : State} (h : free n s ap = some s') (hm : n ≤ m) : free m s ap = some s' := by
  rw [free] at h ⊢
  obtain ⟨p, hp, rfl⟩ := Option.map_eq_some_iff.1 h
  rw [search_mono hp hm]
  rfl

/-- A result does not change with more fuel. -/
def Mono (core : Nat → State → Option (State × Nat)) : Prop :=
  ∀ ⦃n m s r⦄, core n s = some r → n ≤ m → core m s = some r

theorem morecore_mono (sbrk : Nat → Option Nat) (k : BitVec 32) : Mono (morecore sbrk k) := by
  intro n m s r h hm
  rw [morecore] at h ⊢
  cases hb : sbrk s.brk with
  | none =>
    rw [hb] at h
    exact h
  | some p =>
    rw [hb] at h
    obtain ⟨s', hs', rfl⟩ := Option.map_eq_some_iff.1 h
    exact Option.map_eq_some_iff.2 ⟨s', free_mono hs' hm, rfl⟩

theorem Mono.mallocLoop {prevp : Nat} {r : State × Nat} (hmono : Mono core)
    (h : mallocLoop core k n s prevp p = some r) (hm : n ≤ m) : mallocLoop core k m s prevp p = some r := by
  induction n generalizing m s prevp p with
  | zero => cases h
  | succ n ih =>
    obtain ⟨m, rfl⟩ : ∃ j, m = j + 1 := ⟨m - 1, by omega⟩
    have hm' : n ≤ m := by omega
    rw [Umalloc.mallocLoop] at h ⊢
    split at h
    · rename_i hsz
      rw [if_pos hsz]
      exact h
    rename_i hsz
    rw [if_neg hsz]
    split at h
    · rename_i hp
      rw [if_pos hp]
      cases hmc : core n s with
      | none =>
        rw [hmc] at h
        cases h
      | some sp =>
        rw [hmc] at h
        rw [hmono hmc hm']
        dsimp only at h ⊢
        split at h
        · rename_i hz
          rw [if_pos hz]
          exact h
        · rename_i hz
          rw [if_neg hz]
          exact ih h hm'
    · rename_i hp
      rw [if_neg hp]
      exact ih h hm'

/-- The loop is back at `freep`. -/
def more (core : Nat → State → Option (State × Nat)) (k : BitVec 32) (n : Nat) (s : State) : Option (State × Nat) :=
  match core n s with
  | none => none
  | some (s, p) => if p = 0 then some (s, 0) else mallocLoop core k n s p (s.ptr p)

/-- What is left of a round: the loop takes a block on the way to `freep`, or gets there and wants
more memory. -/
theorem Heap.walk {r : List Block} (h : Heap s fl lv) (hf : f ∈ s.nodes fl) (hfp : f.addr = s.freep)
    (hk : 0 < k.toNat) (hx : x ∈ s.nodes fl) (hr : ∀ c ∈ r, c ∈ s.nodes fl ∧ c.addr ≠ s.freep)
    (hp : Path s.ptr ((x :: r).map Block.addr) f.addr) :
    (∃ n, ∃ u ∈ s.nodes fl, ∃ v ∈ fl, s.ptr u.addr = v.addr ∧ k.toNat ≤ v.n ∧
      mallocLoop core k n s x.addr (s.ptr x.addr) = some (s.take k u.addr v.addr)) ∨ (∀ c ∈ f :: r, c.n < k.toNat) ∧
      ∀ n, mallocLoop core k (n + r.length + 1) s x.addr (s.ptr x.addr) = more core k n s := by
  -- Whether the loop takes the next node.
  have hge : ∀ v ∈ s.nodes fl, s.size v.addr ≥ k ↔ k.toNat ≤ v.n := by
    intro v hv
    rw [ge_iff_le, BitVec.le_def, h.sizes v (mem_append_left lv hv)]
  have hfree : ∀ v ∈ s.nodes fl, k.toNat ≤ v.n → v ∈ fl := by
    intro v hv hle
    rcases mem_cons.1 hv with rfl | hv
    · exact absurd hle (Nat.not_le_of_lt hk)
    · exact hv
  induction r generalizing x with
  | nil =>
    have hnext : s.ptr x.addr = f.addr := hp.1
    by_cases hle : k.toNat ≤ f.n
    · refine .inl ⟨1, x, hx, f, hfree f hf hle, hnext, hle, ?_⟩
      rw [mallocLoop, hnext, if_pos ((hge f hf).2 hle)]
    · refine .inr ⟨?_, fun n => ?_⟩
      · intro c hc
        rw [mem_singleton.1 hc]
        exact Nat.lt_of_not_le hle
      · rw [length_nil, Nat.add_zero, mallocLoop, hnext, if_neg (fun hg => hle ((hge f hf).1 hg)), if_pos hfp]
        rfl
  | cons c r ih =>
    have hnext : s.ptr x.addr = c.addr := hp.1
    obtain ⟨hc, hcf⟩ := hr c mem_cons_self
    by_cases hle : k.toNat ≤ c.n
    · refine .inl ⟨1, x, hx, c, hfree c hc hle, hnext, hle, ?_⟩
      rw [mallocLoop, hnext, if_pos ((hge c hc).2 hle)]
    · have hstep : ∀ n, mallocLoop core k (n + 1) s x.addr (s.ptr x.addr) =
          mallocLoop core k n s c.addr (s.ptr c.addr) := by
        intro n
        rw [mallocLoop, hnext, if_neg (fun hg => hle ((hge c hc).1 hg)), if_neg hcf]
      rcases ih hc (fun d hd => hr d (mem_cons_of_mem c hd)) hp.2 with ⟨n, u, hu, v, hv, hn⟩ | ⟨hlt, hn⟩
      · refine .inl ⟨n + 1, u, hu, v, hv, hn.1, hn.2.1, ?_⟩
        rw [hstep]
        exact hn.2.2
      · refine .inr ⟨?_, fun n => ?_⟩
        · intro d hd
          simp only [mem_cons] at hd hlt
          rcases hd with rfl | rfl | hd
          · exact hlt d (.inl rfl)
          · exact Nat.lt_of_not_le hle
          · exact hlt d (.inr hd)
        · rw [length_cons, ← Nat.add_assoc, hstep]
          exact hn n

/-- A whole round, from `freep`. -/
theorem Heap.round (h : Heap s fl lv) (core : Nat → State → Option (State × Nat)) (hk : 0 < k.toNat) :
    ((∃ c ∈ fl, k.toNat ≤ c.n) ∧ ∃ n fl' s' q, mallocLoop core k n s s.freep (s.ptr s.freep) = some (s', q + HEADER) ∧
      SameHeap s s' ∧ Heap s' fl' (⟨q, k.toNat⟩ :: lv)) ∨ (∀ c ∈ fl, c.n < k.toNat) ∧
      ∃ l, ∀ n, mallocLoop core k (n + l + 1) s s.freep (s.ptr s.freep) = more core k n s := by
  obtain ⟨f, hf, hfp⟩ := h.freep
  obtain ⟨m₁, m₂, e⟩ := append_of_mem hf
  have hring : Path s.ptr (f.addr :: (m₂.map Block.addr ++ m₁.map Block.addr)) f.addr := by
    refine h.path.rotate ?_ rfl
    rw [e, map_append, map_cons]
  have hsorted := h.sorted
  rw [e] at hsorted
  obtain ⟨-, hs₂, hs₁₂⟩ := pairwise_append.1 hsorted
  have hrest : ∀ c ∈ m₂ ++ m₁, c ∈ s.nodes fl ∧ c.addr ≠ s.freep := by
    intro c hc
    rw [e, ← hfp]
    rcases mem_append.1 hc with hc | hc
    · exact ⟨by simp [hc], Nat.ne_of_gt ((pairwise_cons.1 hs₂).1 c hc).addr_lt⟩
    · exact ⟨by simp [hc], Nat.ne_of_lt (hs₁₂ c hc f mem_cons_self).addr_lt⟩
  rw [← hfp]
  rcases h.walk hf hfp hk hf hrest (by simpa using hring) with ⟨n, u, hu, v, hv, huv, hle, hn⟩ | ⟨hlt, hn⟩
  · obtain ⟨fl', q, hq, hfl⟩ := h.take hu hv huv hk hle
    refine .inl ⟨⟨v, hv, hle⟩, n, fl', (s.take k u.addr v.addr).1, q, ?_, same_take .., hfl⟩
    rw [hn, ← hq]
  · refine .inr ⟨fun c hc => hlt c ?_, _, hn⟩
    have hc' : c ∈ m₁ ++ f :: m₂ := e ▸ mem_cons_of_mem _ hc
    simp only [mem_append, mem_cons] at hc' ⊢
    tauto

/-! ## More memory -/

/-- The size that `morecore` asks for. -/
def coreSize (nu : BitVec 32) : BitVec 32 := if nu < 4096 then 4096 else nu

theorem toNat_coreSize (nu : BitVec 32) : (coreSize nu).toNat = max 4096 nu.toNat := by
  rw [coreSize]
  split
  · rename_i h
    have h' : nu.toNat < 4096 := h
    exact (Nat.max_eq_left (Nat.le_of_lt h')).symm
  · rename_i h
    have h' : ¬nu.toNat < 4096 := h
    exact (Nat.max_eq_right (Nat.le_of_not_lt h')).symm

/-- The state in which `morecore` frees the new region. -/
def State.grown (s : State) (p : Nat) (nu : BitVec 32) : State :=
  { s with brk := plus p nu, regions := ⟨p, nu.toNat⟩ :: s.regions }.setSize p nu

theorem morecore_some (hp : sbrk s.brk = some p) :
    morecore sbrk k n s = (free n (s.grown p (coreSize k)) (p + HEADER)).map fun s => (s, s.freep) := by
  rw [morecore, hp]
  rfl

theorem Heap.grown {nu : BitVec 32} (h : Heap s fl lv) (hp : s.brk ≤ p) (hnu : 0 < nu.toNat)
    (hfit : s.total + nu.toNat < 2 ^ 32) : Heap (s.grown p nu) fl (⟨p, nu.toNat⟩ :: lv) := by
  have hlow := h.low
  have hadd := h.tiles.add h.low.2 hp hnu
  have hnodes : (s.grown p nu).nodes fl = s.nodes fl := rfl
  have hptr : ∀ r, (s.grown p nu).ptr r = s.ptr r := fun r => ptr_setSize
  have hsize : ∀ r, (s.grown p nu).size r = if r = p then nu else s.size r := fun r => size_setSize
  refine ⟨?_, h.freep, h.sorted, fun c hc => ?_, ?_, ⟨h.low.1, ?_⟩, ?_⟩
  · exact h.path.congr fun r _ => hptr r
  · rw [hsize]
    by_cases hcp : c = ⟨p, nu.toNat⟩
    · rw [hcp, if_pos rfl]
    · have hc' : c ∈ s.nodes fl ++ lv := by
        rw [hnodes] at hc
        simp only [mem_append, mem_cons] at hc ⊢
        tauto
      have hlt : c.addr < p := by
        have hbase : c = ⟨s.base, 0⟩ ∨ c ∈ fl ++ lv := by
          rw [State.nodes, cons_append, mem_cons] at hc'
          exact hc'
        rcases hbase with rfl | hc'
        · simp only [HEADER] at hlow ⊢
          omega
        · have hw := (h.tiles.within c hc').2
          have hpos := h.pos hc'
          simp only [Block.stop, HEADER] at hw
          omega
      rw [if_neg (Nat.ne_of_lt hlt)]
      exact h.sizes c hc'
  · exact hadd.perm perm_middle.symm
  · have hbrk : (s.grown p nu).brk = p + HEADER * nu.toNat := rfl
    rw [hbrk]
    exact Nat.le_trans hlow.2 (Nat.le_trans hp (Nat.le_add_right ..))
  · have htotal : (s.grown p nu).total = nu.toNat + s.total := rfl
    omega

theorem Heap.freep_pos (h : Heap s fl lv) : 0 < s.freep := by
  obtain ⟨f, hf, hfp⟩ := h.freep
  rw [← hfp]
  exact Nat.lt_of_lt_of_le h.low.1 (h.base_le hf)

/-- The new region is freed: there is a block of the size asked for. -/
theorem Heap.free_grown (h : Heap s fl lv) (hp : s.brk ≤ p) (hfit : s.total + (coreSize k).toNat < 2 ^ 32) :
    ∃ n s₁ fl₁, Umalloc.free n (s.grown p (coreSize k)) (p + HEADER) = some s₁ ∧ SameHeap (s.grown p (coreSize k)) s₁ ∧
      Heap s₁ fl₁ lv ∧ ∃ c ∈ fl₁, k.toNat ≤ c.n := by
  have hnu := toNat_coreSize k
  obtain ⟨n, s₁, fl₁, hfree, hs, hh, c, hc, hcn⟩ := (h.grown hp (by omega) hfit).free
  exact ⟨n, s₁, fl₁, hfree n (Nat.le_refl n), hs, hh, c, hc, Nat.le_trans (hnu ▸ Nat.le_max_right ..) hcn⟩

/-- The loop ends, with a block or, if there is no more memory, with nothing, and keeps what `core`
and the writes to headers keep. -/
theorem Heap.mallocLoop {J : State → Prop} (h : Heap s fl lv) (hk : 0 < k.toNat) (hmono : Mono core) (hj : J s)
    (hsame : ∀ s t, SameHeap s t → J s → J t)
    (hcore : (∀ c ∈ fl, c.n < k.toNat) → ∃ n s₁ p, core n s = some (s₁, p) ∧ J s₁ ∧
      (p = 0 ∧ Heap s₁ fl lv ∨ p = s₁.freep ∧ ∃ fl₁, Heap s₁ fl₁ lv ∧ ∃ c ∈ fl₁, k.toNat ≤ c.n)) :
    ∃ n s' p, mallocLoop core k n s s.freep (s.ptr s.freep) = some (s', p) ∧ J s' ∧
      (p = 0 ∧ Heap s' fl lv ∨ ∃ fl' q, p = q + HEADER ∧ Heap s' fl' (⟨q, k.toNat⟩ :: lv)) := by
  rcases h.round core hk with ⟨-, n, fl', s', q, hn, hs, hh⟩ | ⟨hlt, l, hl⟩
  · exact ⟨n, s', _, hn, hsame s s' hs hj, .inr ⟨fl', q, rfl, hh⟩⟩
  obtain ⟨n₁, s₁, p, hn₁, hj₁, ⟨rfl, hh₁⟩ | ⟨rfl, fl₁, hh₁, c, hc, hle⟩⟩ := hcore hlt
  · refine ⟨n₁ + l + 1, s₁, 0, ?_, hj₁, .inl ⟨rfl, hh₁⟩⟩
    rw [hl, more, hn₁]
    rfl
  · have hpos := hh₁.freep_pos
    -- The next round finds the block that `core` made.
    rcases hh₁.round core hk with ⟨-, n₂, fl', s', q, hn, hs, hh⟩ | ⟨hlt₁, -⟩
    · refine ⟨n₁ + n₂ + l + 1, s', _, ?_, hsame s₁ s' hs hj₁, .inr ⟨fl', q, rfl, hh⟩⟩
      rw [hl, more, hmono hn₁ (Nat.le_add_right ..)]
      dsimp only
      rw [if_neg (by omega)]
      exact hmono.mallocLoop hn (Nat.le_add_left ..)
    · exact absurd hle (Nat.not_le_of_lt (hlt₁ c hc))

/-! ## Runs -/

/-- The free blocks `fl` and the blocks `lv` that the program has. Before the first call of `malloc`
there are none. -/
structure Allocated (s : State) (fl lv : List Block) : Prop where
  heap : s.freep ≠ 0 → Heap s fl lv
  unused : s.freep = 0 → fl = [] ∧ lv = [] ∧ s.regions = []
  live : s.live.Perm (lv.map fun b => b.addr + HEADER)
  low : 0 < s.base ∧ s.base + HEADER ≤ s.brk

theorem Heap.allocated {live : List Nat} (h : Heap s fl lv) (hl : live.Perm (lv.map fun b => b.addr + HEADER)) :
    Allocated { s with live } fl lv where
  heap _ := { h with }
  unused h₀ := absurd h₀ (Nat.ne_of_gt h.freep_pos)
  live := hl
  low := h.low

/-- The state after the first test of `malloc`. -/
def State.started (s : State) : State := if s.freep = 0 then s.start else s

theorem Allocated.started (h : Allocated s fl lv) : Heap s.started fl lv := by
  rw [State.started]
  split
  · rename_i h₀
    obtain ⟨rfl, rfl, hr⟩ := h.unused h₀
    have hmem : s.start.mem s.base = { ptr := s.base, size := 0 } := Function.update_self ..
    refine ⟨⟨congrArg Header.ptr hmem, trivial⟩, ⟨_, mem_cons_self, rfl⟩, pairwise_singleton .., ?_, ?_,
      h.low, ?_⟩
    · intro b hb
      rw [append_nil, State.nodes, mem_singleton] at hb
      rw [hb]
      exact congrArg (fun x => (Header.size x).toNat) hmem
    · have hregions : s.start.regions = [] := hr
      rw [hregions]
      exact tiles_nil _ _
    · have htotal : s.start.total = 0 := by
        change (s.regions.map Block.n).sum = 0
        rw [hr]
        rfl
      rw [htotal]
      exact Nat.two_pow_pos 32
  · rename_i h₀
    exact h.heap h₀

theorem units_eq {nbytes : BitVec 32} : (units nbytes).toNat = (nbytes.toNat + 15) / 16 + 1 := by
  have hlt : (nbytes.toNat + HEADER - 1) / HEADER + 1 < 2 ^ 32 := by
    have := nbytes.isLt
    simp only [HEADER]
    omega
  rw [units, BitVec.toNat_ofNat, Nat.mod_eq_of_lt hlt]
  rfl

theorem units_pos (nbytes : BitVec 32) : 0 < (units nbytes).toNat := by
  rw [units_eq]
  omega

def State.Aligned (s : State) : Prop := ∀ r ∈ s.regions, HEADER ∣ r.addr

/-- What a call of `malloc` returns: nothing, or a new block. -/
structure Got (lv : List Block) (nbytes : BitVec 32) (s : State) (fl : List Block) (b : Block) : Prop where
  heap : Heap s fl (b :: lv)
  enough : nbytes.toNat ≤ HEADER * (b.n - 1)
  aligned : HEADER ∣ b.addr + HEADER
  blocks : ∀ c ∈ fl ++ b :: lv, HEADER ∣ c.addr

/-- What a call of `malloc` keeps. -/
structure Kept (s t : State) : Prop where
  live : t.live = s.live
  brk : s.brk ≤ t.brk
  aligned : t.Aligned

theorem Kept.same {t u : State} (h : Kept s t) (hs : SameHeap t u) : Kept s u :=
  ⟨hs.live.trans h.live, hs.brk ▸ h.brk, fun r hr => h.aligned r (hs.regions ▸ hr)⟩

theorem Heap.morecore (h : Heap s fl lv) (ha : s.Aligned) (hp : ∀ p ∈ sbrk s.brk, s.brk ≤ p)
    (hfit : ∀ p ∈ sbrk s.brk, HEADER ∣ p ∧ s.total + max 4096 k.toNat < 2 ^ 32) :
    ∃ n s₁ p, morecore sbrk k n s = some (s₁, p) ∧ Kept s s₁ ∧
      (p = 0 ∧ Heap s₁ fl lv ∨ p = s₁.freep ∧ ∃ fl₁, Heap s₁ fl₁ lv ∧ ∃ c ∈ fl₁, k.toNat ≤ c.n) := by
  cases hb : sbrk s.brk with
  | none =>
    refine ⟨0, s, 0, ?_, ⟨rfl, Nat.le_refl _, ha⟩, .inl ⟨rfl, h⟩⟩
    rw [Umalloc.morecore, hb]
  | some p =>
    have hle := hp p hb
    obtain ⟨hal, htot⟩ := hfit p hb
    rw [← toNat_coreSize] at htot
    obtain ⟨n, s₁, fl₁, hfree, hs, hh⟩ := h.free_grown hle htot
    have hg : Kept s (s.grown p (coreSize k)) := by
      refine ⟨rfl, Nat.le_trans hle (Nat.le_add_right ..), fun r hr => ?_⟩
      rcases mem_cons.1 hr with rfl | hr
      · exact hal
      · exact ha r hr
    refine ⟨n, s₁, _, ?_, hg.same hs, .inr ⟨rfl, fl₁, hh⟩⟩
    rw [morecore_some hb, hfree, Option.map_some]

theorem Allocated.malloc {nbytes : BitVec 32} {fuel : Nat} (h : Allocated s fl lv) (ha : s.Aligned)
    (hc : Calls s (.malloc fuel sbrk nbytes)) (hf : Fits s (.malloc fuel sbrk nbytes)) :
    ∃ n s' p, (∀ m ≥ n, malloc m s sbrk nbytes = some (s', p)) ∧ Kept s s' ∧
      (p = 0 ∧ Heap s' fl lv ∨ ∃ fl' b, p = b.addr + HEADER ∧ Got lv nbytes s' fl' b) := by
  have hs : s.started.brk = s.brk ∧ s.started.live = s.live ∧ s.started.regions = s.regions ∧
      s.started.total = s.total := by
    rw [State.started]
    split <;> exact ⟨rfl, rfl, rfl, rfl⟩
  obtain ⟨hbrk, hlive, hregions, htotal⟩ := hs
  have ha' : s.started.Aligned := fun r hr => ha r (hregions ▸ hr)
  have hmono := morecore_mono sbrk (units nbytes)
  obtain ⟨n, s', p, hn, hk, hp⟩ := h.started.mallocLoop (J := Kept s.started) (units_pos nbytes) hmono
    ⟨rfl, Nat.le_refl _, ha'⟩ (fun _ _ hs h => h.same hs)
    fun _ => h.started.morecore ha' (hbrk ▸ hc.2) (by rw [hbrk, htotal]; exact hf)
  have hk' : Kept s s' := ⟨hk.live.trans hlive, hbrk ▸ hk.brk, hk.aligned⟩
  refine ⟨n, s', p, fun m hm => hmono.mallocLoop hn hm, hk', ?_⟩
  rcases hp with hp | ⟨fl', q, hp, hh⟩
  · exact .inl hp
  · have hal := hh.tiles.aligned hk.aligned
    refine .inr ⟨fl', ⟨q, (units nbytes).toNat⟩, hp, hh, ?_, ?_, hal⟩
    · rw [units_eq]
      simp only [HEADER]
      omega
    · exact Nat.dvd_add (hal ⟨q, (units nbytes).toNat⟩ (by simp)) (Nat.dvd_refl _)

theorem Allocated.free {ap : Nat} (h : Allocated s fl lv) (hap : ap ∈ s.live) :
    ∃ n s' fl' lv', (∀ m ≥ n, free m s ap = some s') ∧ SameHeap s s' ∧ Heap s' fl' lv' ∧
      (s.live.erase ap).Perm (lv'.map fun b => b.addr + HEADER) := by
  obtain ⟨b, hb, rfl⟩ := mem_map.1 (h.live.mem_iff.1 hap)
  have hf : s.freep ≠ 0 := by
    intro h₀
    obtain ⟨-, rfl, -⟩ := h.unused h₀
    cases hb
  obtain ⟨l₁, l₂, rfl⟩ := append_of_mem hb
  have hh := h.heap hf
  have hh' : Heap s fl (b :: (l₁ ++ l₂)) := by
    have hperm : (l₁ ++ b :: l₂).Perm (b :: (l₁ ++ l₂)) := perm_middle
    refine { hh with sizes := fun c hc => hh.sizes c ?_, tiles := hh.tiles.perm (.append_left fl hperm) }
    rw [mem_append] at hc ⊢
    rw [hperm.mem_iff]
    exact hc
  obtain ⟨n, s', fl', hn, hs, hfl, -⟩ := hh'.free
  refine ⟨n, s', fl', l₁ ++ l₂, hn, hs, hfl, ?_⟩
  refine (h.live.erase _).trans ?_
  refine ((perm_middle.map _).erase _).trans ?_
  rw [map_cons, erase_cons_head]

/-- The blocks are as before but for what the call returns or frees. -/
theorem Allocated.step {a : Act} {s' : State} {es : List Event} (h : Allocated s fl lv) (ha : s.Aligned)
    (hc : Calls s a) (hf : Fits s a) (hs : step s a = some (s', es)) : s'.Aligned ∧ ∃ fl' lv', Allocated s' fl' lv' := by
  cases a with
  | malloc fuel sbrk nbytes =>
    obtain ⟨⟨t, p⟩, ht, e⟩ := Option.map_eq_some_iff.1 hs
    cases e
    obtain ⟨n, t', p', hn, hk, hgot⟩ := h.malloc ha hc hf
    have hsame : some (t, p) = some (t', p') :=
      ((morecore_mono ..).mallocLoop ht (Nat.le_add_right fuel n)).symm.trans (hn _ (Nat.le_add_left ..))
    cases hsame
    refine ⟨hk.aligned, ?_⟩
    rcases hgot with ⟨rfl, hh⟩ | ⟨fl', b, rfl, hg⟩
    · exact ⟨fl, lv, hh.allocated (hk.live ▸ h.live)⟩
    · refine ⟨fl', b :: lv, hg.heap.allocated ?_⟩
      rw [if_neg (by simp [HEADER]), hk.live]
      exact .cons _ h.live
  | free fuel ap =>
    obtain ⟨t, ht, e⟩ := Option.map_eq_some_iff.1 hs
    cases e
    obtain ⟨n, t', fl', lv', hn, hk, hh, hlive⟩ := h.free hc
    have hsame : some t = some t' :=
      (free_mono ht (Nat.le_add_right fuel n)).symm.trans (hn _ (Nat.le_add_left ..))
    cases hsame
    exact ⟨fun r hr => ha r (hk.regions ▸ hr), fl', lv', hh.allocated (hk.live ▸ hlive)⟩

/-- In every state of a run the list is circular and sorted, its blocks are apart and not adjacent,
and with the blocks that the program has they tile the memory; all are aligned. A call of `malloc` ends, with nothing
or with a block that is apart from all others; a call of `free` ends. -/
theorem heap_run {mem : Nat → Header} {base brk : Nat} {es : List Event} (hbase : 0 < base)
    (hbrk : base + HEADER ≤ brk)
    (h : Exec step (fun s a => Calls s a ∧ Fits s a) (init mem base brk) es s) :
    ∃ fl lv, Allocated s fl lv ∧ (∀ b ∈ fl ++ lv, HEADER ∣ b.addr) ∧
      (∀ sbrk nbytes, Calls s (.malloc 0 sbrk nbytes) → Fits s (.malloc 0 sbrk nbytes) →
        ∃ n s' p, (∀ fuel ≥ n, malloc fuel s sbrk nbytes = some (s', p)) ∧
          (p = 0 ∨ ∃ fl' b, p = b.addr + HEADER ∧ Got lv nbytes s' fl' b)) ∧
      ∀ ap ∈ s.live, ∃ n s', ∀ fuel ≥ n, free fuel s ap = some s' := by
  have hinv : s.Aligned ∧ ∃ fl lv, Allocated s fl lv := by
    refine h.invariant (I := fun _ s => s.Aligned ∧ ∃ fl lv, Allocated s fl lv) ?_ ?_
    · exact ⟨nofun, [], [], fun h₀ => absurd rfl h₀, fun _ => ⟨rfl, rfl, rfl⟩, .nil, hbase, hbrk⟩
    · rintro _ _ _ _ _ ⟨ha, fl, lv, hi⟩ ⟨hc, hf⟩ hs
      exact hi.step ha hc hf hs
  obtain ⟨ha, fl, lv, hi⟩ := hinv
  refine ⟨fl, lv, hi, ?_, fun sbrk nbytes hc hf => ?_, fun ap hap => ?_⟩
  · by_cases h₀ : s.freep = 0
    · obtain ⟨rfl, rfl, -⟩ := hi.unused h₀
      simp
    · exact (hi.heap h₀).tiles.aligned ha
  · obtain ⟨n, s', p, hn, -, hgot⟩ := hi.malloc ha hc hf
    refine ⟨n, s', p, hn, ?_⟩
    rcases hgot with ⟨rfl, -⟩ | hgot
    · exact .inl rfl
    · exact .inr hgot
  · obtain ⟨n, s', -, -, hn, -⟩ := hi.free hap
    exact ⟨n, s', hn⟩

/-- `sbrk` as it is if nobody else calls it. -/
def contiguous (b : Nat) : Option Nat := some b

def start : State := init (fun _ => ⟨0, 0⟩) 16 32

/-- The first block is freed after the second was given out, and there is no more memory for the third. -/
def mallocRun : List Act :=
  [.malloc 9 contiguous 100, .malloc 9 contiguous 20, .free 9 65456, .malloc 9 (fun _ => none) 65536]

theorem mallocRun_ends : ∃ es s, Exec step (fun s a => Calls s a ∧ Fits s a) start es s ∧
    es = [.malloced 100 65456, .malloced 20 65408, .freed 65456, .malloced 65536 0] ∧ s.live = [65408] :=
  exists_exec (fun _ _ => of_decide_eq_true) mallocRun (by decide +kernel)

theorem heap_run_mallocRun : ∃ es s, Exec step (fun s a => Calls s a ∧ Fits s a) start es s ∧
    es = [.malloced 100 65456, .malloced 20 65408, .freed 65456, .malloced 65536 0] ∧
    (∃ fl lv, Allocated s fl lv) ∧ ∃ n s', ∀ fuel ≥ n, free fuel s 65408 = some s' := by
  obtain ⟨es, s, h, he, hl⟩ := mallocRun_ends
  obtain ⟨fl, lv, hi, -, -, hfree⟩ := heap_run (by decide) (by decide) h
  exact ⟨es, s, h, he, ⟨fl, lv, hi⟩, hfree 65408 (by rw [hl]; exact List.mem_cons_self)⟩

/-- 33 blocks of almost 2 ^ 31 bytes each are given out, then freed. -/
def largeRun : List Act :=
  List.replicate 33 (.malloc 9 contiguous (BitVec.ofNat 32 (2 ^ 31 - 32))) ++
    (List.range 33).map fun i => .free 99 (48 + i * (2 ^ 31 - 16))

/-- From memory that is not aligned `malloc` returns a block that is not; and with 2 ^ 36 bytes or
more, the size of the one free block, of 32 bits, is not that of the memory. -/
theorem heap_overflows :
    (∃ es s p, Exec step Calls (init (fun _ => ⟨0, 0⟩) 16 40) es s ∧ Event.malloced 1 p ∈ es ∧ p ≠ 0 ∧ ¬HEADER ∣ p) ∧
    ∃ es s, Exec step Calls start es s ∧ s.live = [] ∧ s.ptr (s.ptr s.base) = s.base ∧
      (s.size (s.ptr s.base)).toNat < s.total := by
  constructor
  · obtain ⟨es, s, hx, rfl⟩ : ∃ es s, Exec step Calls (init (fun _ => ⟨0, 0⟩) 16 40) es s ∧ es = [.malloced 1 65560] :=
      exists_exec (fun _ _ => of_decide_eq_true) [.malloc 9 contiguous 1] (by decide +kernel)
    exact ⟨_, s, 65560, hx, List.mem_cons_self, by decide, by decide⟩
  · exact exists_exec (fun _ _ => of_decide_eq_true) largeRun (by decide +kernel)

end Xv6.Umalloc
