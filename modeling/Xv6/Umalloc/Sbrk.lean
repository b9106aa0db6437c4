import Xv6.Umalloc.Malloc
import Xv6.Vm.Pte

/-!
# `malloc` on the kernel's `sbrk`

`sbrk` takes an `int`: `morecore` passes it a product of 64 bits, and a negative amount shrinks the
process and is a success too (`growproc`). The store to the new header is outside the memory then,
and kills the process unless the page is still there. A call of `malloc` is right exactly if a free
block is large enough or the request needs less than 2 ^ 31 bytes (`malloc_safe`); for other requests
the amount is negative or too small (`malloc_truncates`).
-/

namespace Xv6.Umalloc

open Vm (TRAPFRAME KERNBASE PHYSTOP pgroundup)

/-- The amount that `morecore` asks for, as an `int`. -/
def coreBytes (nu : BitVec 32) : BitVec 32 := BitVec.ofNat 32 (nu.toNat * HEADER)

/-- The size of a process of `sz` bytes after `growproc(n)`; `pages` says whether `uvmalloc` finds memory. -/
def growproc (pages : Nat → Bool) (n : BitVec 32) (sz : Nat) : Option Nat :=
  if 0 < n.toInt then
    if sz + n.toNat > TRAPFRAME then none else if pages sz then some (sz + n.toNat) else none
  else if n.toInt < 0 then
    let newsz := (BitVec.ofNat 64 sz + n.signExtend 64).toNat
    some (if newsz ≥ sz then sz else newsz)
  else some sz

/-- `morecore`, where `sbrk` is that of the kernel: it returns the size of the process before. -/
def morecoreInt (pages : Nat → Bool) (nu : BitVec 32) (fuel : Nat) (s : State) : Option (State × Nat) :=
  let nu := if nu < 4096 then 4096 else nu
  let s := { s with asked := nu :: s.asked }
  match growproc pages (coreBytes nu) s.brk with
  | none => some (s, 0)
  | some brk =>
    let p := s.brk
    let s := { s with brk := brk, regions := ⟨p, (brk - p) / HEADER⟩ :: s.regions }
    -- `hp->s.size = nu`: the field ends 12 bytes above `p`. From the page after `brk` on nothing is
    -- mapped; where this store succeeds no page was taken away, so that no other one fails.
    if p + 12 ≤ pgroundup brk then (free fuel (s.setSize p nu) (p + HEADER)).map fun s => (s, s.freep)
    else some ({ s with killed := true }, 0)

def mallocInt (pages : Nat → Bool) (fuel : Nat) (s : State) (nbytes : BitVec 32) : Option (State × Nat) :=
  mallocOn (morecoreInt pages) fuel s nbytes

variable {s : State} {fl lv : List Block} {nu nbytes : BitVec 32} {pages : Nat → Bool}

theorem coreBytes_toNat (h : HEADER * nu.toNat < 2 ^ 31) : (coreBytes nu).toNat = HEADER * nu.toNat := by
  rw [coreBytes, BitVec.toNat_ofNat, Nat.mul_comm, Nat.mod_eq_of_lt (by omega)]

/-- An amount below 2 ^ 31 is not negative. -/
theorem coreBytes_toInt (h : HEADER * nu.toNat < 2 ^ 31) : (coreBytes nu).toInt = HEADER * nu.toNat := by
  have hn := coreBytes_toNat h
  rw [BitVec.toInt_eq_toNat_of_lt (by omega), hn]
  rfl

section

variable (h : HEADER * nu.toNat < 2 ^ 31)
include h

theorem coreSize_lt : HEADER * (coreSize nu).toNat < 2 ^ 31 := by
  rw [toNat_coreSize]
  simp only [HEADER] at h ⊢
  omega

theorem growproc_pos {brk sz : Nat} (hg : growproc pages (coreBytes (coreSize nu)) sz = some brk) :
    brk = sz + HEADER * (coreSize nu).toNat ∧ sz + 12 ≤ pgroundup brk := by
  have hn := coreBytes_toNat (coreSize_lt h)
  have hi := coreBytes_toInt (coreSize_lt h)
  have hpos : 0 < (coreSize nu).toNat := by
    rw [toNat_coreSize]
    omega
  rw [growproc, if_pos (by simp only [hi, HEADER]; omega)] at hg
  split at hg
  · cases hg
  · rename_i hle
    have htrap : TRAPFRAME < 2 ^ 38 := by decide
    split at hg
    · cases hg
      refine ⟨by rw [hn], ?_⟩
      simp only [hn, HEADER, pgroundup, Vm.PGSIZE] at hle ⊢
      omega
    · cases hg

end

theorem morecoreInt_mono (pages : Nat → Bool) (nu : BitVec 32) : Mono (morecoreInt pages nu) := by
  intro n m s r h hm
  rw [morecoreInt] at h ⊢
  dsimp only at h ⊢
  split
  · simp_all
  · rename_i brk hb
    rw [hb] at h
    dsimp only at h
    split at h
    · rename_i hp
      rw [if_pos hp]
      obtain ⟨s', hs', rfl⟩ := Option.map_eq_some_iff.1 h
      exact Option.map_eq_some_iff.2 ⟨s', free_mono hs' hm, rfl⟩
    · rename_i hp
      rw [if_neg hp]
      exact h

/-! ## What `sbrk` is asked for -/

theorem asked_free {n ap : Nat} {s' : State} (h : free n s ap = some s') : s'.asked = s.asked := by
  obtain ⟨p, -, rfl⟩ := Option.map_eq_some_iff.1 h
  exact (same_insert ..).asked

theorem asked_morecoreInt {n p : Nat} {s' : State} (h : morecoreInt pages nu n s = some (s', p)) :
    s'.asked = coreSize nu :: s.asked := by
  rw [morecoreInt] at h
  dsimp only at h
  split at h
  · cases h
    rfl
  · split at h
    · obtain ⟨t, ht, e⟩ := Option.map_eq_some_iff.1 h
      cases e
      exact asked_free ht
    · cases h
      rfl

/-- What was asked for stays on record, whatever the list looks like. -/
theorem asked_mallocLoop {n prevp p q : Nat} {s' : State}
    (h : mallocLoop (morecoreInt pages nu) nu n s prevp p = some (s', q)) : s.asked <:+ s'.asked := by
  induction n generalizing s prevp p with
  | zero => cases h
  | succ n ih =>
    rw [mallocLoop] at h
    split at h
    · have hs := (same_take s nu prevp p).asked
      rw [Option.some.inj h] at hs
      rw [hs]
    split at h
    · split at h
      · cases h
      · rename_i s₁ p₁ hmc
        have hsuf : s.asked <:+ s₁.asked := by
          rw [asked_morecoreInt hmc]
          exact List.suffix_cons ..
        split at h
        · cases h
          exact hsuf
        · exact hsuf.trans (ih h)
    · exact ih h

/-- The process lives and has not shrunk, and each amount that `sbrk` was asked for, as the `int`
that it takes, is that of the new header. -/
structure Right (s t : State) : Prop where
  lives : t.killed = s.killed
  brk : s.brk ≤ t.brk
  asked : ∃ new, t.asked = new ++ s.asked ∧ ∀ nu ∈ new, (coreBytes nu).toInt = HEADER * nu.toNat

theorem Right.same {t u : State} (h : Right s t) (hs : SameHeap t u) : Right s u :=
  ⟨hs.killed.trans h.lives, hs.brk ▸ h.brk, hs.asked ▸ h.asked⟩

/-- The memory of the program, with what `sbrk` adds for `k` units, is within that of the machine. -/
def Fit (pages : Nat → Bool) (k : BitVec 32) (s : State) : Prop :=
  ∀ brk, growproc pages (coreBytes (coreSize k)) s.brk = some brk →
    HEADER * s.total + (brk - s.brk) ≤ PHYSTOP - KERNBASE

theorem Heap.morecoreInt {k : BitVec 32} (h : Heap s fl lv) (hk : HEADER * k.toNat < 2 ^ 31) (hfit : Fit pages k s) :
    ∃ n s₁ p, morecoreInt pages k n s = some (s₁, p) ∧ Right s s₁ ∧
      (p = 0 ∧ Heap s₁ fl lv ∨ p = s₁.freep ∧ ∃ fl₁, Heap s₁ fl₁ lv ∧ ∃ c ∈ fl₁, k.toNat ≤ c.n) := by
  let t := { s with asked := coreSize k :: s.asked }
  have hright : ∃ new, t.asked = new ++ s.asked ∧ ∀ nu ∈ new, (coreBytes nu).toInt = HEADER * nu.toNat :=
    ⟨[coreSize k], rfl, by simpa using coreBytes_toInt (coreSize_lt hk)⟩
  have ht : Heap t fl lv := { h with }
  cases hg : growproc pages (coreBytes (coreSize k)) s.brk with
  | none =>
    refine ⟨0, t, 0, ?_, ⟨rfl, Nat.le_refl _, hright⟩, .inl ⟨rfl, ht⟩⟩
    rw [Umalloc.morecoreInt, ← coreSize]
    dsimp only
    rw [hg]
  | some brk =>
    obtain ⟨rfl, hpage⟩ := growproc_pos hk hg
    have hle := hfit _ hg
    have hphys : PHYSTOP - KERNBASE = 2 ^ 27 := by decide
    have htot : t.total + (coreSize k).toNat < 2 ^ 32 := by
      change s.total + _ < _
      simp only [HEADER] at hle
      omega
    obtain ⟨n, s₁, fl₁, hfree, hs, hh⟩ := ht.free_grown (Nat.le_refl s.brk) htot
    have hgrown : Right s (t.grown s.brk (coreSize k)) := ⟨rfl, Nat.le_add_right .., hright⟩
    refine ⟨n, s₁, s₁.freep, ?_, hgrown.same hs, .inr ⟨rfl, fl₁, hh⟩⟩
    rw [Umalloc.morecoreInt, ← coreSize]
    dsimp only
    rw [hg]
    dsimp only
    rw [if_pos hpage, Nat.add_sub_cancel_left, Nat.mul_div_cancel_left _ (by decide)]
    exact Option.map_eq_some_iff.2 ⟨s₁, hfree, rfl⟩

/-- What a call of `malloc` should do: it ends, with nothing or with a block of memory that is large
enough, and the blocks that the program has are as before. -/
def Safe (pages : Nat → Bool) (s : State) (lv : List Block) (nbytes : BitVec 32) : Prop :=
  ∃ n s' p fl', (∀ fuel ≥ n, mallocInt pages fuel s nbytes = some (s', p)) ∧ Right s s' ∧
    (p = 0 ∧ Heap s' fl' lv ∨
      ∃ b, p = b.addr + HEADER ∧ p + nbytes.toNat ≤ b.stop ∧ b.stop ≤ s'.brk ∧ Heap s' fl' (b :: lv))

/-- A call of `malloc` is right exactly if a free block is large enough or the request needs less
than 2 ^ 31 bytes. -/
theorem malloc_safe (h : Allocated s fl lv) (hfit : Fit pages (units nbytes) s) :
    Safe pages s lv nbytes ↔
      HEADER * (units nbytes).toNat < 2 ^ 31 ∨ ∃ b ∈ fl, (units nbytes).toNat ≤ b.n := by
  have hs : s.started.killed = s.killed ∧ s.started.brk = s.brk ∧ s.started.asked = s.asked ∧
      s.started.total = s.total := by
    rw [State.started]
    split <;> exact ⟨rfl, rfl, rfl, rfl⟩
  obtain ⟨hkilled, hbrk, hasked, htotal⟩ := hs
  have hmono := morecoreInt_mono pages (units nbytes)
  constructor
  · rintro ⟨n, s', p, -, hrun, hright, -⟩
    by_contra hno
    simp only [not_or, not_exists, not_and, Nat.not_lt, Nat.not_le] at hno
    rcases h.started.round (morecoreInt pages (units nbytes)) (units_pos nbytes) with ⟨⟨b, hb, hle⟩, -⟩ | ⟨-, l, hl⟩
    · exact absurd hle (Nat.not_le_of_lt (hno.2 b hb))
    -- The loop gets to `morecore`, and what it asks for there stays on record.
    have hend := (hl n).symm.trans (hrun (n + l + 1) (by omega))
    have hsuf : coreSize (units nbytes) :: s.asked <:+ s'.asked := by
      rw [more] at hend
      split at hend
      · cases hend
      · rename_i s₁ p₁ hmc
        rw [← hasked, ← asked_morecoreInt hmc]
        split at hend
        · cases hend
          exact List.suffix_refl _
        · exact asked_mallocLoop hend
    obtain ⟨l', hl'⟩ := hsuf
    obtain ⟨new, hnew, hall⟩ := hright.asked
    have hmem : coreSize (units nbytes) ∈ new := by
      rw [hnew, List.append_cons] at hl'
      rw [← List.append_cancel_right hl']
      simp
    have hint := hall _ hmem
    have hlt := BitVec.toInt_lt (x := coreBytes (coreSize (units nbytes)))
    have hsize := toNat_coreSize (units nbytes)
    simp only [HEADER] at hno hint
    omega
  · intro hcond
    have hfit' : Fit pages (units nbytes) s.started := by
      rw [Fit, hbrk, htotal]
      exact hfit
    obtain ⟨n, s', p, hn, hright, hp⟩ := h.started.mallocLoop (J := Right s.started) (units_pos nbytes) hmono
      ⟨rfl, Nat.le_refl _, [], rfl, List.forall_mem_nil _⟩ (fun _ _ hs h => h.same hs) fun hlt => by
        refine h.started.morecoreInt ?_ hfit'
        rcases hcond with hn | ⟨b, hb, hle⟩
        · exact hn
        · exact absurd hle (Nat.not_le_of_lt (hlt b hb))
    have hrun : ∀ fuel ≥ n, mallocInt pages fuel s nbytes = some (s', p) := fun _ hge => hmono.mallocLoop hn hge
    have hright' : Right s s' := ⟨hright.lives.trans hkilled, hbrk ▸ hright.brk, hasked ▸ hright.asked⟩
    rcases hp with ⟨rfl, hh⟩ | ⟨fl', q, rfl, hh⟩
    · exact ⟨n, s', 0, fl, hrun, hright', .inl ⟨rfl, hh⟩⟩
    · refine ⟨n, s', _, fl', hrun, hright', .inr ⟨_, rfl, ?_, ?_, hh⟩⟩
      · rw [Block.stop, units_eq]
        simp only [HEADER]
        omega
      · exact (hh.tiles.within _ (by simp)).2

theorem allocated_start : Allocated start [] [] :=
  ⟨fun h₀ => absurd rfl h₀, fun _ => ⟨rfl, rfl, rfl⟩, .nil, by decide⟩

/-- The first request of a program. -/
theorem malloc_safe_start : Allocated start [] [] ∧ Fit (fun _ => true) (units 100) start ∧
    Safe (fun _ => true) start [] 100 := by
  have hfit : Fit (fun _ => true) (units 100) start := by
    intro brk hb
    cases hb
    decide
  exact ⟨allocated_start, hfit, (malloc_safe allocated_start hfit).2 (.inl (by decide))⟩

/-- A request that is too large, in a program whose memory ends at `brk`: what `malloc` leaves. -/
def oversized (brk : Nat) (nbytes : Nat) : Option (State × Nat) :=
  mallocInt (fun _ => true) 9 (init (fun _ => ⟨0, 0⟩) 16 brk) (BitVec.ofNat 32 nbytes)

/-- `malloc(2 ^ 32 - 32)` shrinks the program by 16 bytes: it returns a block that starts where the
memory ended, or at a page boundary kills the program. For `malloc(2 ^ 32 - 1)` the memory grows by
16 bytes only. -/
theorem malloc_truncates :
    ((oversized (2 ^ 20 + 32) (2 ^ 32 - 32)).any fun (s, p) => p = 2 ^ 20 + 48 ∧ s.brk = 2 ^ 20 + 16) = true ∧
    ((oversized (2 ^ 20) (2 ^ 32 - 32)).any fun (s, _) => s.killed) = true ∧
    ((oversized (2 ^ 20) (2 ^ 32 - 1)).any fun (s, p) => p = 2 ^ 20 + 16 ∧ s.brk = 2 ^ 20 + 16) = true := by
  decide +kernel

end Xv6.Umalloc
