import Xv6.Vm.Free
import Xv6.Framework.Run

/-!
# Page tables are finite maps

Page tables are made by `uvmcreate`, changed by `mappages` and `uvmunmap`, and freed by
`freewalk`, while their users allocate, share, write and free pages of their own. `Holds r es M`
says that, after what has happened, page table `r` is to be the map `M` from virtual pages to
physical ones; `page_tables_are_maps` says that `walk` finds just that.

A call of `uvmunmap` with `do_free` drops references that its caller must hold: without that, it
may free a page of the page table itself (`frees_its_own_page`).
-/

namespace Xv6.Vm

open Function

attribute [local irreducible] freewalk

/-- What a page table is for: the physical page and the flags of each virtual page. -/
abbrev PageMap := Nat → Option (Nat × Pte)

/-- The entry that stands for a page of the map. -/
def entry : Option (Nat × Pte) → Pte
  | none => 0
  | some (pa, flags) => pa2pte pa ||| flags

/-- Map `n` pages from page `v` on. -/
def PageMap.insert (M : PageMap) (v n pa : Nat) (flags : Pte) : PageMap := fun v' =>
  if v ≤ v' ∧ v' < v + n then some (pa + (v' - v) * PGSIZE, flags) else M v'

/-- Unmap `n` pages from page `v` on. -/
def PageMap.erase (M : PageMap) (v n : Nat) : PageMap := fun v' => if v ≤ v' ∧ v' < v + n then none else M v'

/-- What `walk` shows of a page table is the map. -/
def Refines (s : Kmem) (r : Nat) (M : PageMap) : Prop :=
  ∀ va < MAXVA, ∃ o, walk r va false s = .ok (o, s) ∧
    match M (va / PGSIZE) with
    | none => ∀ slot, o = some slot → Pte.has ((s.mem slot.1).word slot.2) PTE_V = false
    | some (pa, flags) => ∃ slot, o = some slot ∧ (s.mem slot.1).word slot.2 = pa2pte pa ||| flags ∧
        Pte.has ((s.mem slot.1).word slot.2) PTE_V = true ∧
        pte2pa ((s.mem slot.1).word slot.2) = pa ∧ pteFlags ((s.mem slot.1).word slot.2) = flags

/-- Different pages have different entries. -/
def Apart (s : Kmem) (r : Nat) : Prop :=
  ∀ va < MAXVA, ∀ va' < MAXVA, ∀ slot, walk r va false s = .ok (some slot, s) → walk r va' false s = .ok (some slot, s) →
    va / PGSIZE = va' / PGSIZE

/-! ## The machine -/

structure Tables where
  kmem : Kmem
  /-- The page tables that there are. -/
  roots : List Nat
  /-- The references to pages that the callers have. -/
  held : Nat → Nat

inductive Call where
  | uvmcreate
  | mappages (r va size pa : Nat) (perm : Pte)
  | uvmunmap (r va npages : Nat) (doFree : Bool)
  | freewalk (r : Nat)
  | kalloc
  | kfree (pa : Nat)
  | krefinc (pa : Nat)
  /-- The caller writes a page of its own. -/
  | store (pa : Nat) (pg : Page)

inductive Event where
  | created (r : Nat)
  | mapped (r va size pa : Nat) (perm : Pte) (ok : Bool)
  | unmapped (r va npages : Nat)
  | freed (r : Nat)

def Event.table : Event → Nat
  | .created r | .mapped r _ _ _ _ _ | .unmapped r _ _ | .freed r => r

/-- How often `n` pages from page `v` on are mapped to page `P`. -/
def mappedTo (m : Nat → Pte) (v n P : Nat) : Nat := ∑ i ∈ Finset.range n, hit P (m (v + i))

/-- Run code on the memory; a panic is the end. -/
def Tables.run {α : Type} (s : Tables) (m : M α) (f : Tables → α → Tables × List Event) : Option (Tables × List Event) :=
  match m s.kmem with
  | .ok (a, k) => some (f { s with kmem := k } a)
  | .error _ => none

def Tables.step (s : Tables) : Call → Option (Tables × List Event)
  | .uvmcreate => s.run Vm.uvmcreate fun s o =>
      match o with
      | none => (s, [])
      | some r => ({ s with roots := r :: s.roots }, [.created r])
  | .mappages r va size pa perm => s.run (Vm.mappages r va size pa perm) fun s ok => (s, [.mapped r va size pa perm ok])
  | .uvmunmap r va npages doFree =>
      let dropped := fun P => if doFree then mappedTo (s.kmem.pte r) (va / PGSIZE) npages P else 0
      s.run (Vm.uvmunmap r va npages doFree) fun s _ =>
        ({ s with held := fun P => s.held P - dropped P }, [.unmapped r va npages])
  | .freewalk r => s.run (Vm.freewalk 3 r) fun s _ => ({ s with roots := s.roots.erase r }, [.freed r])
  | .kalloc => s.run Vm.kalloc fun s o =>
      match o with
      | none => (s, [])
      | some P => ({ s with held := update s.held P (s.held P + 1) }, [])
  | .kfree P => s.run (Vm.kfree P) fun s _ => ({ s with held := update s.held P (s.held P - 1) }, [])
  | .krefinc P => s.run (Vm.krefinc P) fun s _ => ({ s with held := update s.held P (s.held P + 1) }, [])
  | .store P pg => s.run (modify fun k => k.setPage P pg) fun s _ => (s, [])

/-- Ranges are aligned and below `MAXVA`, physical addresses are aligned and below 2⁵⁶, permissions are
within the flags, and nothing is mapped twice. -/
def Tables.Proper (s : Tables) : Call → Prop
  | .mappages r va size pa perm => (r ∈ s.roots ∧ va % PGSIZE = 0 ∧ size % PGSIZE = 0 ∧ 0 < size ∧ va + size ≤ MAXVA) ∧
      (pa % PGSIZE = 0 ∧ pa + size ≤ 2 ^ 56 ∧ pteFlags perm = perm) ∧
      ∀ k < size / PGSIZE, Pte.has (s.kmem.pte r (va / PGSIZE + k)) PTE_V = false
  | .uvmunmap r va npages _ => r ∈ s.roots ∧ va % PGSIZE = 0 ∧ va + npages * PGSIZE ≤ MAXVA
  | .freewalk r => r ∈ s.roots ∧ ∀ v < MAXVA / PGSIZE, Pte.has (s.kmem.pte r v) PTE_V = false
  | .kfree P | .store P _ => 0 < s.held P
  | .krefinc P => 0 < s.held P ∧ s.kmem.refOf P ≠ BitVec.allOnes 16
  | _ => True

/-- The callers hold what they free. -/
def Tables.Owns (s : Tables) : Call → Prop
  | .uvmunmap r va npages doFree => doFree = true → ∀ i < npages, Pte.has (s.kmem.pte r (va / PGSIZE + i)) PTE_V = true →
      mappedTo (s.kmem.pte r) (va / PGSIZE) npages (pte2pa (s.kmem.pte r (va / PGSIZE + i))) ≤
        s.held (pte2pa (s.kmem.pte r (va / PGSIZE + i)))
  | _ => True

/-- The map that page table `r` is to be. A call of `mappages` that fails maps some pages first. -/
inductive Holds (r : Nat) : List Event → PageMap → Prop
  | created (es : List Event) : Holds r (es ++ [.created r]) fun _ => none
  | other {es : List Event} {M : PageMap} {e : Event} (h : Holds r es M) (he : e.table ≠ r) : Holds r (es ++ [e]) M
  | mapped {es : List Event} {M : PageMap} {va size pa : Nat} {perm : Pte} (h : Holds r es M) :
      Holds r (es ++ [.mapped r va size pa perm true]) (M.insert (va / PGSIZE) (size / PGSIZE) pa (perm ||| PTE_V))
  | failed {es : List Event} {M : PageMap} {va size pa k : Nat} {perm : Pte} (h : Holds r es M) (hk : k < size / PGSIZE) :
      Holds r (es ++ [.mapped r va size pa perm false]) (M.insert (va / PGSIZE) k pa (perm ||| PTE_V))
  | unmapped {es : List Event} {M : PageMap} {va npages : Nat} (h : Holds r es M) :
      Holds r (es ++ [.unmapped r va npages]) (M.erase (va / PGSIZE) npages)

variable {T : Multiset Nat} {H : Nat → ℤ} {s s' : Kmem} {r va v n pa : Nat} {perm : Pte} {M : PageMap} {E : Panic → Prop}

/-! ## Entries -/

/-- What a page table can hold. -/
def PageMap.Ok (M : PageMap) : Prop := ∀ v pa flags, M v = some (pa, flags) →
  (v < MAXVA / PGSIZE ∧ pa % PGSIZE = 0 ∧ pa < 2 ^ 56) ∧ Flags flags ∧ Pte.has flags PTE_V = true

/-- The entries of a page table are those of the map. -/
def Kmem.Is (s : Kmem) (r : Nat) (M : PageMap) : Prop := ∀ v, s.pte r v = entry (M v)

theorem flags_of_eq {f : Pte} (h : pteFlags f = f) : Flags f := h ▸ flags_pteFlags f

theorem entry_valid (hM : M.Ok) (v : Nat) : Pte.has (entry (M v)) PTE_V = (M v).isSome := by
  cases h : M v with
  | none => exact has_zero PTE_V
  | some x =>
    obtain ⟨pa, flags⟩ := x
    obtain ⟨-, -, hV⟩ := hM v pa flags h
    exact (has_mk pa flags (by decide)).trans hV

theorem PageMap.Ok.insert (hM : M.Ok) (hv : v + n ≤ MAXVA / PGSIZE) (halign : pa % PGSIZE = 0)
    (hpa : pa + n * PGSIZE ≤ 2 ^ 56) (hf : Flags perm) : (M.insert v n pa (perm ||| PTE_V)).Ok := by
  intro v' pa' flags h
  rw [PageMap.insert] at h
  split at h
  · rename_i hin
    simp only [Option.some.injEq, Prod.mk.injEq] at h
    obtain ⟨rfl, rfl⟩ := h
    refine ⟨⟨by omega, ?_, ?_⟩, flags_or hf (flags_shift (by decide)), ?_⟩
    · rw [Nat.add_mul_mod_self_right, halign]
    · have hlt : (v' - v) * PGSIZE < n * PGSIZE := Nat.mul_lt_mul_of_pos_right (by omega) (by decide)
      omega
    · rw [has_or, show Pte.has PTE_V PTE_V = true by decide, Bool.or_true]
  · exact hM v' pa' flags h

theorem PageMap.Ok.erase (hM : M.Ok) (v n : Nat) : (M.erase v n).Ok := by
  intro v' pa' flags h
  rw [PageMap.erase] at h
  split at h
  · cases h
  · exact hM v' pa' flags h

/-- What `walk` finds, from what the entries are. -/
theorem Kmem.Is.refines (h : s.Is r M) (hM : M.Ok) : Refines s r M := by
  intro va hva
  obtain ⟨o, s', hrun, hs, hfound⟩ := (wp_walk (s := s) (r := r) hva).total
  subst hs
  refine ⟨o, hrun, ?_⟩
  have hpte := h (va / PGSIZE)
  have hval := entry_valid hM (va / PGSIZE)
  -- the word at the slot is the entry
  have hword : ∀ slot, o = some slot → (s'.mem slot.1).word slot.2 = entry (M (va / PGSIZE)) := by
    rintro slot rfl
    obtain ⟨q, hq, rfl⟩ := hfound
    rw [← hpte, hq.pte_eq (page_lt hva)]
  cases hm : M (va / PGSIZE) with
  | none =>
    intro slot hslot
    rw [hword slot hslot, hval, hm]
    rfl
  | some x =>
    obtain ⟨pa, flags⟩ := x
    obtain ⟨⟨-, halign, hpa⟩, hflags, hV⟩ := hM _ _ _ hm
    rw [hm] at hval hword
    cases o with
    | none =>
      have hz : s'.pte r (va / PGSIZE) = 0 := hfound
      rw [hpte, hm] at hz
      rw [hz, has_zero] at hval
      cases hval
    | some slot =>
      refine ⟨slot, rfl, ?_⟩
      rw [hword slot rfl]
      exact ⟨rfl, hval, pte2pa_mk halign (hpa.trans (by decide)) hflags, pteFlags_mk pa hflags⟩

theorem Inv.apart (h : Inv 0 T H s) (hr : r ∈ T) : Apart s r := by
  intro va hva va' hva' slot hw hw'
  obtain ⟨-, q, hq, rfl⟩ := (wp_walk (E := fun _ => False) hva).ok hw
  obtain ⟨-, q', hq', e⟩ := (wp_walk (E := fun _ => False) hva').ok hw'
  obtain ⟨rfl, hi⟩ := Prod.mk.inj e
  have heq := hq.inj hq' (h.nodes_nodup hr) hi.symm
  rw [ptRadix_width] at heq
  rwa [Nat.mod_eq_of_lt (page_lt hva), Nat.mod_eq_of_lt (page_lt hva'), eq_comm] at heq

/-! ## Mapping -/

theorem PageMap.insert_zero (M : PageMap) (v pa : Nat) (flags : Pte) : M.insert v 0 pa flags = M := by
  funext v'
  exact if_neg (by omega)

theorem PageMap.insert_insert (M : PageMap) (v k pa : Nat) (flags : Pte) :
    (M.insert v 1 pa flags).insert (v + 1) k (pa + PGSIZE) flags = M.insert v (k + 1) pa flags := by
  funext v'
  simp only [PageMap.insert]
  by_cases e : v' = v
  · subst e
    rw [if_neg (by omega), if_pos (by omega), if_pos (by omega)]
  · by_cases hin : v + 1 ≤ v' ∧ v' < v + 1 + k
    · have hsub : v' - v = (v' - (v + 1)) + 1 := by omega
      rw [if_pos hin, if_pos (by omega), hsub, Nat.succ_mul, Nat.add_assoc, Nat.add_comm PGSIZE]
    · rw [if_neg hin, if_neg (by omega), if_neg (by omega)]

theorem Kmem.Is.insert_one (h : s.Is r M) (hs : s'.pte r = update (s.pte r) v (pa2pte pa ||| perm ||| PTE_V)) :
    s'.Is r (M.insert v 1 pa (perm ||| PTE_V)) := by
  intro v'
  rw [hs, update_apply, PageMap.insert]
  by_cases e : v' = v
  · rw [if_pos e, if_pos (by omega), e, Nat.sub_self, Nat.zero_mul, Nat.add_zero, entry, BitVec.or_assoc]
  · rw [if_neg e, if_neg (by omega), h]

/-- The pages that `mappages` has mapped, all of them or those before the one where it failed. -/
structure MapsSome (T : Multiset Nat) (H : Nat → ℤ) (r v n pa : Nat) (perm : Pte) (M : PageMap) (s : Kmem) (ok : Bool)
    (k : Nat) (s' : Kmem) : Prop where
  inv : Inv 0 (r ::ₘ T) H s'
  keeps : Keeps 0 T H s s'
  bound : if ok then k = n else k < n
  is : s'.Is r (M.insert v k pa (perm ||| PTE_V))

theorem wp_mapRange (halign : va % PGSIZE = 0) (hva : va + n * PGSIZE ≤ MAXVA) (h : Inv 0 (r ::ₘ T) H s) (hM : s.Is r M)
    (hfree : ∀ k < n, Pte.has (s.pte r (va / PGSIZE + k)) PTE_V = false) :
    WP (mapFrom r perm n va pa) E (fun ok s' => ∃ k, MapsSome T H r (va / PGSIZE) n pa perm M s ok k s') s := by
  induction n generalizing va pa s M with
  | zero =>
    rw [mapFrom]
    refine WP.pure ⟨0, h, .refl .., rfl, ?_⟩
    rwa [PageMap.insert_zero]
  | succ n ih =>
    have hlt : va < MAXVA := by
      have hsize : PGSIZE = 4096 := rfl
      rw [Nat.succ_mul] at hva
      omega
    have hpage : (va + PGSIZE) / PGSIZE = va / PGSIZE + 1 := Nat.add_div_right va (by decide)
    have hT : ∀ r' ∈ T, r' ∈ r ::ₘ T := fun r' hr' => Multiset.mem_cons_of_mem hr'
    refine wp_mapFrom hlt h (hfree 0 (Nat.succ_pos n)) (fun _ _ _ hv => absurd hv (Nat.not_lt_zero _))
      (fun s₁ hinv hk _ _ => ⟨0, hinv, hk.mono hT fun _ => id, Nat.succ_pos n, ?_⟩) fun s₁ hinv hsets => ?_
    · intro v'
      rw [hk.pte r (Multiset.mem_cons_self r T), PageMap.insert_zero, hM]
    · rw [owed_kernel (Nat.zero_le _), sub_zero] at hinv
      have hM₁ := hM.insert_one hsets.pte
      refine (ih ?_ ?_ hinv hM₁ fun k hk => ?_).mono fun ok s₂ h₂ =>
        h₂.elim fun k hs => ⟨k + 1, hs.inv, hsets.keeps.trans hs.keeps, ?_, ?_⟩
      · rw [Nat.add_mod_right, halign]
      · rw [Nat.succ_mul] at hva
        omega
      · rw [hpage, hsets.pte, update_of_ne (by omega), Nat.add_assoc, Nat.add_comm 1]
        exact hfree (k + 1) (by omega)
      · have hb := hs.bound
        cases ok with
        | true => exact congrArg Nat.succ hb
        | false => exact Nat.succ_lt_succ hb
      · have his := hs.is
        rwa [hpage, PageMap.insert_insert] at his

/-- One round of the loop of `mappages` that finds an entry. -/
theorem mapFrom_succ {slot : Slot} {s₁ : Kmem} (hw : walk r va true s = .ok (some slot, s₁)) :
    mapFrom r perm (n + 1) va pa s =
      if Pte.has ((s₁.mem slot.1).word slot.2) PTE_V then .error .remap
      else mapFrom r perm n (va + PGSIZE) (pa + PGSIZE) (s₁.setPte slot (pa2pte pa ||| perm ||| PTE_V)) := by
  simp only [mapFrom, bind, StateT.bind, Except.bind]
  rw [hw]
  show (if Pte.has ((s₁.mem slot.1).word slot.2) PTE_V = true then _ else _ : M Bool) s₁ = _
  split <;> rfl

/-- Where `mappages` fails: no page for the page table is left for the next page. -/
theorem mapFrom_false (h : mapFrom r perm n va pa s = .ok (false, s')) : ∃ k < n, ∃ s₁,
    mapFrom r perm k va pa s = .ok (true, s₁) ∧ walk r (va + k * PGSIZE) true s₁ = .ok (none, s') := by
  induction n generalizing va pa s with
  | zero => cases h
  | succ n ih =>
    cases hw : walk r va true s with
    | error e =>
      simp only [mapFrom, bind, StateT.bind, Except.bind] at h
      rw [hw] at h
      cases h
    | ok x =>
      obtain ⟨o, s₁⟩ := x
      cases o with
      | none =>
        simp only [mapFrom, bind, StateT.bind, Except.bind] at h
        rw [hw] at h
        cases h
        refine ⟨0, Nat.succ_pos n, s, rfl, ?_⟩
        rw [Nat.zero_mul, Nat.add_zero]
        exact hw
      | some slot =>
        rw [mapFrom_succ hw] at h
        split at h
        · cases h
        · rename_i hval
          obtain ⟨k, hk, s₂, hmap, hwalk⟩ := ih h
          refine ⟨k + 1, Nat.succ_lt_succ hk, s₂, ?_, ?_⟩
          · rw [mapFrom_succ hw, if_neg hval]
            exact hmap
          · rw [Nat.succ_mul, Nat.add_comm (k * PGSIZE), ← Nat.add_assoc]
            exact hwalk

/-! ## Unmapping -/

variable {doFree : Bool} {P : Nat}

theorem Kmem.Is.erase {K : Nat → ℤ} (h : s.Is r M) (hM : M.Ok) (hs : Unmapped 0 T H K r v doFree s n s') :
    s'.Is r (M.erase v n) := by
  intro v'
  have hval := entry_valid hM v'
  rw [hs.pte, PageMap.erase, h]
  by_cases hin : v ≤ v' ∧ v' < v + n
  · rw [if_pos hin, hval]
    cases hm : M v' with
    | none => exact if_neg (by simp)
    | some x => exact if_pos ⟨hin.1, hin.2, rfl⟩
  · rw [if_neg hin, if_neg fun hc => hin ⟨hc.1, hc.2.1⟩]

/-- The references that `uvmunmap` drops. -/
theorem gains_zero (doFree : Bool) (m : Nat → Pte) (v k P : Nat) :
    gains 0 doFree m v k P = -((if doFree then mappedTo m v k P else 0 : Nat) : ℤ) := by
  induction k with
  | zero => cases doFree <;> rfl
  | succ k ih =>
    have hgain : gain 0 doFree m (v + k) P = -((if doFree then hit P (m (v + k)) else 0 : Nat) : ℤ) := by
      rw [gain, owed_kernel (Nat.zero_le _), zero_sub, Pi.neg_apply, freed]
      cases doFree with
      | false => rfl
      | true =>
        rw [hit]
        by_cases hval : Pte.has (m (v + k)) PTE_V = true
        · rw [if_pos ⟨rfl, hval⟩, Pi.single_apply]
          simp [hval, eq_comm]
        · rw [if_neg fun hc => hval hc.2, if_pos rfl, if_neg fun hc => hval hc.1]
          rfl
    rw [gains_succ, Pi.add_apply, ih, hgain]
    cases doFree with
    | false => rfl
    | true =>
      rw [if_pos rfl, if_pos rfl, if_pos rfl, mappedTo, mappedTo, Finset.sum_range_succ]
      push_cast
      omega

theorem mappedTo_mono (m : Nat → Pte) (v P : Nat) {k n : Nat} (h : k ≤ n) : mappedTo m v k P ≤ mappedTo m v n P :=
  Finset.sum_le_sum_of_subset (Finset.range_mono h)

theorem mappedTo_lt {m : Nat → Pte} {k : Nat} (hk : k < n) (hval : Pte.has (m (v + k)) PTE_V = true) :
    mappedTo m v k (pte2pa (m (v + k))) < mappedTo m v n (pte2pa (m (v + k))) := by
  refine Nat.lt_of_lt_of_le ?_ (mappedTo_mono m v _ (Nat.succ_le_of_lt hk))
  rw [mappedTo, mappedTo, Finset.sum_range_succ, hit_self hval]
  exact Nat.lt_succ_self _

/-! ## Runs -/

structure Good (es : List Event) (s : Tables) : Prop where
  inv : Inv 0 (s.roots : Multiset Nat) (fun P => (s.held P : ℤ)) s.kmem
  nodup : s.roots.Nodup
  map : ∀ r ∈ s.roots, ∃ M : PageMap, Holds r es M ∧ M.Ok ∧ s.kmem.Is r M

theorem Tables.run_eq {α : Type} {st : Tables} {m : Vm.M α} {Q : α → Kmem → Prop} (h : WP m (fun _ => False) Q st.kmem)
    (f : Tables → α → Tables × List Event) : ∃ a k, Q a k ∧ st.run m f = some (f { st with kmem := k } a) := by
  obtain ⟨a, k, hr, hq⟩ := h.total
  refine ⟨a, k, hq, ?_⟩
  rw [Tables.run, hr]

theorem Kmem.Is.keeps {T : Multiset Nat} (h : s.Is r M) (hk : Keeps 0 T H s s') (hr : r ∈ T) : s'.Is r M := fun v => by
  rw [hk.pte r hr, h]

theorem held_succ (held : Nat → Nat) (P : Nat) :
    (fun Q => ((update held P (held P + 1) Q : Nat) : ℤ)) = (fun Q => (held Q : ℤ)) + Pi.single P 1 := by
  funext Q
  rw [Pi.add_apply, Pi.single_apply, update_apply]
  split
  · rename_i e
    rw [e]
    rfl
  · rw [add_zero]

theorem held_pred {held : Nat → Nat} (h : 0 < held P) :
    (fun Q => ((update held P (held P - 1) Q : Nat) : ℤ)) = (fun Q => (held Q : ℤ)) - Pi.single P 1 := by
  funext Q
  rw [Pi.sub_apply, Pi.single_apply, update_apply]
  split
  · rename_i e
    rw [e, Nat.cast_sub h]
    rfl
  · rw [sub_zero]

/-- The call ends, and keeps the invariant. -/
def Runs (es : List Event) (st : Tables) (c : Call) : Prop := ∃ st' es', st.step c = some (st', es') ∧ Good (es ++ es') st'

section Steps

variable {st : Tables} {es : List Event} (h : Good es st)
include h

theorem Good.cons (hr : r ∈ st.roots) : ∃ T : Multiset Nat, (st.roots : Multiset Nat) = r ::ₘ T ∧
    Inv 0 (r ::ₘ T) (fun P => (st.held P : ℤ)) st.kmem ∧ ∀ r' ∈ st.roots, r' ≠ r → r' ∈ T := by
  obtain ⟨T, hT⟩ := Multiset.exists_cons_of_mem (Multiset.mem_coe.2 hr)
  refine ⟨T, hT, hT ▸ h.inv, fun r' hr' hne => ?_⟩
  have hmem := Multiset.mem_coe.2 hr'
  rw [hT] at hmem
  exact (Multiset.mem_cons.1 hmem).resolve_left hne

/-- Nothing is mapped at pages that `walk` does not get to. -/
theorem Good.unmapped (hr : r ∈ st.roots) (hno : ∀ v < MAXVA / PGSIZE, Pte.has (st.kmem.pte r v) PTE_V = false) :
    ∀ v < NPTE ^ 3, Pte.has (st.kmem.pte r v) PTE_V = false := by
  obtain ⟨M, -, hok, his⟩ := h.map r hr
  intro v _
  by_cases hv : v < MAXVA / PGSIZE
  · exact hno v hv
  · rw [his, entry_valid hok]
    cases hm : M v with
    | none => rfl
    | some x => exact absurd (hok v x.1 x.2 hm).1.1 hv

/-- A step that changes no page table. -/
theorem Good.quiet {k : Kmem} {held : Nat → Nat} (hinv : Inv 0 (st.roots : Multiset Nat) (fun P => (held P : ℤ)) k)
    (hpte : ∀ r ∈ st.roots, k.pte r = st.kmem.pte r) : Good (es ++ []) { st with kmem := k, held := held } := by
  rw [List.append_nil]
  refine ⟨hinv, h.nodup, fun r hr => ?_⟩
  obtain ⟨M, hM, hok, his⟩ := h.map r hr
  exact ⟨M, hM, hok, fun v => by rw [hpte r hr, his]⟩

theorem Good.uvmcreate : Runs es st .uvmcreate := by
  obtain ⟨o, k, ⟨hk, -, ho⟩, hrun⟩ := Tables.run_eq (wp_uvmcreate h.inv) fun s o =>
    match o with
    | none => (s, [])
    | some r => ({ s with roots := r :: s.roots }, [.created r])
  refine ⟨_, _, hrun, ?_⟩
  cases o with
  | none =>
    exact h.quiet ho.1 fun r hr => hk.pte r hr
  | some r =>
    obtain ⟨hinv, hpte, -⟩ := ho
    have hnew : r ∉ st.roots := fun hr => hinv.root_notMem (Multiset.mem_coe.2 hr)
    refine ⟨hinv, List.nodup_cons.2 ⟨hnew, h.nodup⟩, fun r' hr' => ?_⟩
    rcases List.mem_cons.1 hr' with rfl | hr'
    · exact ⟨_, .created es, nofun, fun v => by rw [hpte]; rfl⟩
    · obtain ⟨M, hM, hok, his⟩ := h.map r' hr'
      exact ⟨M, .other hM (by rintro rfl; exact hnew hr'), hok, his.keeps hk hr'⟩

theorem Good.mappages {size : Nat} (hp : st.Proper (.mappages r va size pa perm)) : Runs es st (.mappages r va size pa perm) := by
  obtain ⟨⟨hr, hal, hsz, hpos, hva⟩, ⟨hpal, hpa, hperm⟩, hfree⟩ := hp
  obtain ⟨T, hT, hinv, hrest⟩ := h.cons hr
  obtain ⟨M, hM, hok, his⟩ := h.map r hr
  have hmul : size / PGSIZE * PGSIZE = size := Nat.div_mul_cancel (Nat.dvd_of_mod_eq_zero hsz)
  have hwp : WP (Vm.mappages r va size pa perm) (fun _ => False)
      (fun ok s' => ∃ k, MapsSome T (fun P => (st.held P : ℤ)) r (va / PGSIZE) (size / PGSIZE) pa perm M st.kmem ok k s')
      st.kmem := by
    rw [Vm.mappages, if_neg (not_not.2 hal), if_neg (not_not.2 hsz), if_neg (by omega)]
    exact wp_mapRange hal (by rwa [hmul]) hinv his hfree
  obtain ⟨ok, k, ⟨j, hs⟩, hrun⟩ := Tables.run_eq hwp fun s ok => (s, [.mapped r va size pa perm ok])
  refine ⟨_, _, hrun, ⟨by rw [hT]; exact hs.inv, h.nodup, fun r' hr' => ?_⟩⟩
  by_cases e : r' = r
  · subst e
    obtain ⟨hj, hM'⟩ : j ≤ size / PGSIZE ∧ Holds r' (es ++ [.mapped r' va size pa perm ok])
        (M.insert (va / PGSIZE) j pa (perm ||| PTE_V)) := by
      have hb := hs.bound
      cases ok with
      | true =>
        have hb : j = size / PGSIZE := hb
        exact ⟨hb.le, hb ▸ .mapped hM⟩
      | false => exact ⟨Nat.le_of_lt hb, .failed hM hb⟩
    have hpage : va / PGSIZE + size / PGSIZE ≤ MAXVA / PGSIZE := by
      rw [← Nat.add_mul_div_right va _ (show 0 < PGSIZE by decide), hmul]
      exact Nat.div_le_div_right hva
    have hjm : j * PGSIZE ≤ size := hmul ▸ Nat.mul_le_mul_right PGSIZE hj
    exact ⟨_, hM', hok.insert (by omega) hpal (by omega) (flags_of_eq hperm), hs.is⟩
  · obtain ⟨M', hM', hok', his'⟩ := h.map r' hr'
    exact ⟨M', .other hM' (Ne.symm e), hok', his'.keeps hs.keeps (hrest r' hr' e)⟩

omit h in
theorem Tables.Owns.dropped_le {npages : Nat} (ho : st.Owns (.uvmunmap r va npages doFree)) (P : Nat) :
    (if doFree then mappedTo (st.kmem.pte r) (va / PGSIZE) npages P else 0) ≤ st.held P := by
  cases doFree with
  | false => exact Nat.zero_le _
  | true =>
    rw [if_pos rfl]
    by_cases hz : mappedTo (st.kmem.pte r) (va / PGSIZE) npages P = 0
    · rw [hz]
      exact Nat.zero_le _
    · obtain ⟨i, hi, hne⟩ := Finset.exists_ne_zero_of_sum_ne_zero hz
      rw [hit] at hne
      split at hne
      · rename_i hc
        have := ho rfl i (Finset.mem_range.1 hi) hc.1
        rwa [hc.2] at this
      · exact absurd rfl hne

theorem Good.uvmunmap {npages : Nat} (hp : st.Proper (.uvmunmap r va npages doFree))
    (ho : st.Owns (.uvmunmap r va npages doFree)) : Runs es st (.uvmunmap r va npages doFree) := by
  obtain ⟨hr, hal, hva⟩ := hp
  obtain ⟨T, hT, hinv, hrest⟩ := h.cons hr
  obtain ⟨M, hM, hok, his⟩ := h.map r hr
  have hle := Tables.Owns.dropped_le ho
  have hwp : WP (Vm.uvmunmap r va npages doFree) (fun _ => False)
      (fun _ => Unmapped 0 T (fun P => (st.held P : ℤ)) (fun _ => 0) r (va / PGSIZE) doFree st.kmem npages) st.kmem := by
    refine wp_uvmunmap _ hal hva hinv (fun k hk hfree hval => ?_) fun _ _ _ hpos => absurd hpos (lt_irrefl _)
    subst hfree
    have hlt := mappedTo_lt hk hval
    have hge := ho rfl k hk hval
    rw [owed_kernel (Nat.zero_le _), add_zero, Pi.add_apply, gains_zero, if_pos rfl]
    omega
  obtain ⟨-, k, hs, hrun⟩ := Tables.run_eq hwp fun s _ =>
    ({ s with held := fun P => s.held P -
        if doFree then mappedTo (st.kmem.pte r) (va / PGSIZE) npages P else 0 }, [.unmapped r va npages])
  refine ⟨_, _, hrun, ⟨?_, h.nodup, fun r' hr' => ?_⟩⟩
  · have hH : ((fun P => (st.held P : ℤ)) + gains 0 doFree (st.kmem.pte r) (va / PGSIZE) npages) = fun P =>
        ((st.held P - if doFree then mappedTo (st.kmem.pte r) (va / PGSIZE) npages P else 0 : Nat) : ℤ) := by
      funext P
      rw [Pi.add_apply, gains_zero, Nat.cast_sub (hle P)]
      rfl
    have hinv' := hs.inv
    rw [hH] at hinv'
    show Inv 0 (st.roots : Multiset Nat) _ k
    rw [hT]
    exact hinv'
  · by_cases e : r' = r
    · subst e
      exact ⟨M.erase (va / PGSIZE) npages, .unmapped hM, hok.erase _ _, his.erase hok hs⟩
    · obtain ⟨M', hM', hok', his'⟩ := h.map r' hr'
      exact ⟨M', .other hM' (Ne.symm e), hok', his'.keeps hs.keeps (hrest r' hr' e)⟩

theorem Good.freewalk (hp : st.Proper (.freewalk r)) : Runs es st (.freewalk r) := by
  obtain ⟨hr, hno⟩ := hp
  obtain ⟨T, hT, hinv, hrest⟩ := h.cons hr
  obtain ⟨-, k, ⟨hinv', hother, -, -⟩, hrun⟩ := Tables.run_eq (wp_freewalk_table hinv (h.unmapped hr hno) (Nat.zero_le _))
    fun s _ => ({ s with roots := s.roots.erase r }, [.freed r])
  have herase : ((st.roots.erase r : List Nat) : Multiset Nat) = T := by
    rw [← Multiset.coe_erase, hT, Multiset.erase_cons_head]
  refine ⟨_, _, hrun, ⟨?_, h.nodup.erase r, fun r' hr' => ?_⟩⟩
  · show Inv 0 ((st.roots.erase r : List Nat) : Multiset Nat) _ k
    rw [herase]
    exact hinv'
  · obtain ⟨hne, hr'⟩ := h.nodup.mem_erase_iff.1 hr'
    obtain ⟨M, hM, hok, his⟩ := h.map r' hr'
    have hpte : k.pte r' = st.kmem.pte r' := Kmem.pte_congr fun q hq =>
      hother q fun hq' => hinv.nodes_disjoint rfl (hrest r' hr' hne) hq' hq
    exact ⟨M, .other hM (Ne.symm hne), hok, fun v => by rw [hpte, his]⟩

theorem Good.kalloc : Runs es st .kalloc := by
  obtain ⟨o, k, ho, hrun⟩ := Tables.run_eq (wp_kalloc h.inv) fun s o =>
    match o with
    | none => (s, [])
    | some P => ({ s with held := update s.held P (s.held P + 1) }, [])
  refine ⟨_, _, hrun, ?_⟩
  cases ho with
  | none _ _ _ _ hinv hk _ =>
    exact h.quiet hinv fun r hr => hk.pte r hr
  | some _ P _ hinv hk _ _ _ _ _ =>
    refine h.quiet ?_ fun r hr => hk.pte r hr
    rwa [held_succ]

theorem Good.kfree (hp : st.Proper (.kfree P)) : Runs es st (.kfree P) := by
  obtain ⟨-, k, ⟨hinv, hk, -, -⟩, hrun⟩ := Tables.run_eq (wp_kfree h.inv (Int.natCast_pos.2 hp)) fun s _ =>
    ({ s with held := update s.held P (s.held P - 1) }, [])
  refine ⟨_, _, hrun, ?_⟩
  refine h.quiet ?_ fun r hr => hk.pte r hr
  rwa [held_pred hp]

theorem Good.krefinc (hp : st.Proper (.krefinc P)) : Runs es st (.krefinc P) := by
  obtain ⟨hpos, hmax⟩ := hp
  have hpos : (0 : ℤ) < (fun P => (st.held P : ℤ)) P := Int.natCast_pos.2 hpos
  have hframe := h.inv.frame_of_held hpos
  have hne : st.kmem.refOf P ≠ 0 := fun hz => by
    have hone := h.inv.one_le_ref_of_held hpos
    rw [hz] at hone
    exact absurd hone (by decide)
  refine ⟨_, _, rfl, ?_⟩
  refine h.quiet ?_ fun r hr => Kmem.pte_congr fun q hq => rfl
  rw [held_succ]
  exact h.inv.krefinc hframe hne hmax (fun r hr => h.inv.notMem_of_held hpos hr)
    fun _ _ v hv => absurd hv (Nat.not_lt_zero v)

theorem Good.store {pg : Page} (hp : st.Proper (.store P pg)) : Runs es st (.store P pg) := by
  have hnot : ∀ r ∈ (st.roots : Multiset Nat), P ∉ st.kmem.nodes r := fun r hr =>
    h.inv.notMem_of_held (Int.natCast_pos.2 hp) hr
  refine ⟨_, _, rfl, ?_⟩
  refine h.quiet (h.inv.write hnot pg) fun r hr => Kmem.pte_congr fun q hq => st.kmem.mem_setPage_of_ne pg ?_
  rintro rfl
  exact hnot r hr hq

/-- Every call that is made as it should be ends, and keeps the invariant. -/
theorem Good.step {c : Call} (hp : st.Proper c) (ho : st.Owns c) : Runs es st c := by
  cases c with
  | uvmcreate => exact h.uvmcreate
  | mappages => exact h.mappages hp
  | uvmunmap => exact h.uvmunmap hp ho
  | freewalk => exact h.freewalk hp
  | kalloc => exact h.kalloc
  | kfree => exact h.kfree hp
  | krefinc => exact h.krefinc hp
  | store => exact h.store hp

end Steps

/-! ## What is kept -/

/-- After what has happened, the page tables are as they should be. -/
structure Faithful (es : List Event) (s : Tables) : Prop where
  /-- Each is a map. Where `mappages` fails, the pages before the failing one have been mapped. -/
  map : ∀ r ∈ s.roots, ∃ M, Holds r es M ∧ Refines s.kmem r M ∧
    ∀ va size pa perm k', s.Proper (.mappages r va size pa perm) →
      mappages r va size pa perm s.kmem = .ok (false, k') → ∃ k < size / PGSIZE,
        (∃ k₁, mapFrom r perm k va pa s.kmem = .ok (true, k₁) ∧ walk r (va + k * PGSIZE) true k₁ = .ok (none, k')) ∧
        Refines k' r (M.insert (va / PGSIZE) k pa (perm ||| PTE_V))
  apart : ∀ r ∈ s.roots, Apart s.kmem r
  /-- No call panics. -/
  ends : ∀ c, s.Proper c → s.Owns c → (s.step c).isSome = true
  /-- `freewalk` frees the pages of a page table, each once. -/
  freed : ∀ r, s.Proper (.freewalk r) → ∃ k', freewalk 3 r s.kmem = .ok ((), k') ∧
    (k'.freelist : Multiset Nat) = s.kmem.nodes r + (s.kmem.freelist : Multiset Nat) ∧ k'.freelist.Nodup
  /-- The pages in use are those that the callers hold and those of the page tables. -/
  counts : ∀ P, s.kmem.Frame P → (s.kmem.refOf P).toNat =
    s.held P + ((s.roots : Multiset Nat).map fun r => (s.kmem.nodes r).count P).sum

theorem uses_zero (s : Kmem) (r P : Nat) : s.uses 0 r P = (s.nodes r).count P := by
  rw [Kmem.uses, hits, Finset.range_zero, Finset.sum_empty, Nat.add_zero]

section Faithful

variable {st : Tables} {es : List Event} (h : Good es st)
include h

theorem Good.failed (hr : r ∈ st.roots) (his : st.kmem.Is r M) (hok : M.Ok) {size : Nat} {k' : Kmem}
    (hp : st.Proper (.mappages r va size pa perm)) (hrun : Vm.mappages r va size pa perm st.kmem = .ok (false, k')) :
    ∃ k < size / PGSIZE,
      (∃ k₁, mapFrom r perm k va pa st.kmem = .ok (true, k₁) ∧ walk r (va + k * PGSIZE) true k₁ = .ok (none, k')) ∧
      Refines k' r (M.insert (va / PGSIZE) k pa (perm ||| PTE_V)) := by
  obtain ⟨⟨-, hal, hsz, hpos, hva⟩, ⟨hpal, hpa, hperm⟩, hfree⟩ := hp
  obtain ⟨T, -, hinv, -⟩ := h.cons hr
  rw [Vm.mappages, if_neg (not_not.2 hal), if_neg (not_not.2 hsz), if_neg (by omega)] at hrun
  obtain ⟨k, hk, k₁, hmap, hwalk⟩ := mapFrom_false hrun
  have hmul : size / PGSIZE * PGSIZE = size := Nat.div_mul_cancel (Nat.dvd_of_mod_eq_zero hsz)
  have hkm : (k + 1) * PGSIZE ≤ size := hmul ▸ Nat.mul_le_mul_right PGSIZE hk
  rw [Nat.succ_mul] at hkm
  have hsize : PGSIZE = 4096 := rfl
  have hpage : va / PGSIZE + k ≤ MAXVA / PGSIZE := by
    rw [← Nat.add_mul_div_right va k (show 0 < PGSIZE by decide)]
    exact Nat.div_le_div_right (by omega)
  refine ⟨k, hk, ⟨k₁, hmap, hwalk⟩, ?_⟩
  obtain ⟨j, hs⟩ := (wp_mapRange (E := fun _ => False) hal (by omega) hinv his fun i hi => hfree i (hi.trans hk)).ok hmap
  have hj : j = k := hs.bound
  subst hj
  have hwalked := (wp_walk_alloc (E := fun _ => False) (by omega) hs.inv).ok hwalk
  refine Kmem.Is.refines (fun v => ?_) (hok.insert hpage hpal (by omega) (flags_of_eq hperm))
  rw [hwalked.keeps.pte r (Multiset.mem_cons_self r T), hs.is]

theorem Good.freed (hp : st.Proper (.freewalk r)) : ∃ k', Vm.freewalk 3 r st.kmem = .ok ((), k') ∧
    (k'.freelist : Multiset Nat) = st.kmem.nodes r + (st.kmem.freelist : Multiset Nat) ∧ k'.freelist.Nodup := by
  obtain ⟨hr, hno⟩ := hp
  obtain ⟨T, hT, hinv, -⟩ := h.cons hr
  have hr₀ := Multiset.mem_cons_self r T
  obtain ⟨⟨⟩, k', hrun, hinv', hother, hkend, -⟩ :=
    (wp_freewalk_table hinv (h.unmapped hr hno) (Nat.zero_le _)).total
  refine ⟨k', hrun, ?_, hinv'.nodup⟩
  have htotal : ∀ P, total 0 T k' P = total 0 T st.kmem P := fun P => total_congr fun r' hr' =>
    Kmem.uses_congr (fun q hq => hother q fun hq' => hinv.nodes_disjoint rfl hr' hq' hq) P
  have hframe : ∀ P, k'.Frame P ↔ st.kmem.Frame P := fun P => by rw [Kmem.Frame, Kmem.Frame, hkend]
  -- the count of a page has lost what the page table had
  have hcount : ∀ P, st.kmem.Frame P → (st.kmem.refOf P).toNat = (k'.refOf P).toNat + (st.kmem.nodes r).count P := by
    intro P hP
    have h₁ := hinv.count P hP
    have h₂ := hinv'.count P ((hframe P).2 hP)
    rw [total_cons, uses_zero] at h₁
    rw [htotal] at h₂
    omega
  have hzero : ∀ x : BitVec 16, x = 0 ↔ x.toNat = 0 := fun x => by rw [← BitVec.toNat_inj]; rfl
  have hdisj : ∀ P ∈ st.kmem.nodes r, P ∉ st.kmem.freelist := fun P hP hfree => by
    have hone := hinv.node_ref hr₀ hP
    rw [((hinv.free P).1 hfree).2] at hone
    cases hone
  have hnd : (st.kmem.nodes r + (st.kmem.freelist : Multiset Nat)).Nodup :=
    Multiset.nodup_add.2 ⟨hinv.nodes_nodup hr₀, Multiset.coe_nodup.2 hinv.nodup, Multiset.disjoint_left.2 fun {P} => hdisj P⟩
  refine (Multiset.Nodup.ext (Multiset.coe_nodup.2 hinv'.nodup) hnd).2 fun P => ?_
  rw [Multiset.mem_coe, hinv'.free, hframe, Multiset.mem_add, Multiset.mem_coe, hinv.free, hzero, hzero]
  constructor
  · rintro ⟨hP, hz⟩
    by_cases hmem : P ∈ st.kmem.nodes r
    · exact .inl hmem
    · refine .inr ⟨hP, ?_⟩
      rw [hcount P hP, hz, Multiset.count_eq_zero_of_notMem hmem]
  · rintro (hmem | ⟨hP, hz⟩)
    · have hP := (hinv.node r hr₀ P hmem).1
      have hone := congrArg BitVec.toNat (hinv.node_ref hr₀ hmem)
      rw [hcount P hP, Multiset.count_eq_one_of_mem (hinv.nodes_nodup hr₀) hmem] at hone
      exact ⟨hP, Nat.succ.inj hone⟩
    · rw [hcount P hP] at hz
      exact ⟨hP, (Nat.add_eq_zero_iff.1 hz).1⟩

theorem Good.faithful : Faithful es st := by
  refine ⟨fun r hr => ?_, fun r hr => h.inv.apart hr, fun c hp ho => ?_, fun r hp => h.freed hp, fun P hP => ?_⟩
  · obtain ⟨M, hM, hok, his⟩ := h.map r hr
    exact ⟨M, hM, his.refines hok, fun va size pa perm k' hp hrun => h.failed hr his hok hp hrun⟩
  · obtain ⟨st', es', hs, -⟩ := h.step hp ho
    rw [hs]
    rfl
  · have hc := h.inv.count P hP
    have htotal : total 0 (st.roots : Multiset Nat) st.kmem P =
        ((st.roots : Multiset Nat).map fun r => (st.kmem.nodes r).count P).sum := by
      rw [total]
      exact congrArg Multiset.sum (Multiset.map_congr rfl fun r _ => uses_zero st.kmem r P)
    rw [← htotal]
    omega

end Faithful

/-- The start: memory after `kinit`, with no page tables. -/
def Tables.boot (k : Kmem) : Tables := ⟨k, [], fun _ => 0⟩

theorem good_run {kend : Nat} {mem : Nat → Page} {k : Kmem} (hlo : KERNBASE ≤ kend) (hhi : kend ≤ PHYSTOP)
    (hb : kinit (Kmem.boot kend mem) = .ok ((), k)) {es : List Event} {st : Tables}
    (h : Exec Tables.step (fun s c => s.Proper c ∧ s.Owns c) (.boot k) es st) : Good es st := by
  have hboot : Good [] (.boot k) := ⟨((wp_kinit (E := fun _ => False) mem hlo hhi).ok hb).1, List.nodup_nil, nofun⟩
  refine h.invariant (I := Good) hboot fun hg hc hs => ?_
  obtain ⟨st', es', hs', hg'⟩ := hg.step hc.1 hc.2
  rw [hs'] at hs
  cases hs
  exact hg'

theorem page_tables_are_maps {kend : Nat} {mem : Nat → Page} {k : Kmem} (hlo : KERNBASE ≤ kend) (hhi : kend ≤ PHYSTOP)
    (hb : kinit (Kmem.boot kend mem) = .ok ((), k)) {es : List Event} {st : Tables}
    (h : Exec Tables.step (fun s c => s.Proper c ∧ s.Owns c) (.boot k) es st) : Faithful es st :=
  (good_run hlo hhi hb h).faithful

instance (s : Tables) : (c : Call) → Decidable (s.Proper c)
  | .mappages .. => inferInstanceAs (Decidable ((_ ∧ _ ∧ _ ∧ _ ∧ _) ∧ (_ ∧ _ ∧ _) ∧ ∀ k < _, _ = _))
  | .uvmunmap .. => inferInstanceAs (Decidable (_ ∧ _ ∧ _))
  | .freewalk _ => inferInstanceAs (Decidable (_ ∧ ∀ v < _, _ = _))
  | .kfree _ | .store _ _ => inferInstanceAs (Decidable (0 < _))
  | .krefinc _ => inferInstanceAs (Decidable (_ ∧ _ ≠ _))
  | .uvmcreate | .kalloc => inferInstanceAs (Decidable True)

instance (s : Tables) : (c : Call) → Decidable (s.Owns c)
  | .uvmunmap .. => inferInstanceAs (Decidable (_ = true → ∀ i < _, _ = true → _ ≤ _))
  | .mappages .. | .freewalk _ | .kfree _ | .store _ _ | .krefinc _ | .uvmcreate | .kalloc =>
    inferInstanceAs (Decidable True)

/-- Memory with so many pages after the kernel. -/
def smallBoot (pages : Nat) : Except Panic (Unit × Kmem) :=
  kinit (Kmem.boot (PHYSTOP - pages * PGSIZE) fun _ _ => 0)

/-- A page is mapped at address 0 and unmapped again, another is mapped at 1 GB, and then there is no page left for
the page table of a third at 2 GB. -/
def fullMemory : List Call :=
  [.kalloc, .uvmcreate, .mappages 0x87ffe000 0 0x1000 0x87fff000 PTE_R,
    .mappages 0x87ffe000 0x40000000 0x1000 0x1000 PTE_R, .mappages 0x87ffe000 0x80000000 0x1000 0x2000 PTE_R,
    .uvmunmap 0x87ffe000 0 1 true]

theorem fullMemory_run : ∃ (k : Kmem) (es : List Event) (st : Tables), smallBoot 6 = .ok ((), k) ∧
    Exec Tables.step (fun s c => s.Proper c ∧ s.Owns c) (.boot k) es st ∧
    st.roots = [0x87ffe000] ∧ st.kmem.freelist = [0x87fff000] ∧ es.length = 5 := by
  obtain ⟨_, k, hk, hrun⟩ : ∃ u k, smallBoot 6 = .ok (u, k) ∧
      ((runActs (fun (s : Tables) c => if decide (s.Proper c ∧ s.Owns c) then s.step c else none)
        (.boot k) fullMemory).any fun r =>
          decide (r.1.roots = [0x87ffe000] ∧ r.1.kmem.freelist = [0x87fff000] ∧ r.2.length = 5)) = true :=
    exists_of_ok (by decide +kernel)
  obtain ⟨⟨st, es⟩, hacts, hes⟩ := Option.any_eq_true _ _ |>.1 hrun
  exact ⟨k, es, st, hk, (exec_of_run hacts).of_check fun _ _ => of_decide_eq_true, of_decide_eq_true hes⟩

theorem page_tables_are_maps_small : ∃ (k : Kmem) (es : List Event) (st : Tables), smallBoot 6 = .ok ((), k) ∧
    Exec Tables.step (fun s c => s.Proper c ∧ s.Owns c) (.boot k) es st ∧ Faithful es st ∧
    st.roots = [0x87ffe000] ∧ st.kmem.freelist = [0x87fff000] ∧ es.length = 5 := by
  obtain ⟨k, es, st, hk, hx, hes⟩ := fullMemory_run
  exact ⟨k, es, st, hk, hx, page_tables_are_maps (by decide) (by decide) hk hx, hes⟩

/-- As long as the calls are proper and free only what their caller owns, the free list has each page that
no caller holds and no page table has once, and no other. -/
theorem freelist_exact {kend : Nat} {mem : Nat → Page} {k : Kmem} (hlo : KERNBASE ≤ kend) (hhi : kend ≤ PHYSTOP)
    (hb : kinit (Kmem.boot kend mem) = .ok ((), k)) {es : List Event} {st : Tables}
    (h : Exec Tables.step (fun s c => s.Proper c ∧ s.Owns c) (.boot k) es st) : st.kmem.freelist.Nodup ∧
    ∀ P, P ∈ st.kmem.freelist ↔ st.kmem.Frame P ∧ st.held P = 0 ∧ ∀ r ∈ st.roots, P ∉ st.kmem.nodes r := by
  have hg := good_run hlo hhi hb h
  refine ⟨hg.inv.nodup, fun P => (hg.inv.free P).trans (and_congr_right fun hP => ?_)⟩
  rw [← BitVec.toNat_inj, hg.faithful.counts P hP]
  simp [List.sum_eq_zero_iff]

theorem freelist_exact_small : ∃ (k : Kmem) (es : List Event) (st : Tables), smallBoot 6 = .ok ((), k) ∧
    Exec Tables.step (fun s c => s.Proper c ∧ s.Owns c) (.boot k) es st ∧ es.length = 5 ∧
    st.kmem.freelist = [0x87fff000] ∧ st.kmem.freelist.Nodup ∧
    ∀ P, P ∈ st.kmem.freelist ↔ st.kmem.Frame P ∧ st.held P = 0 ∧ ∀ r ∈ st.roots, P ∉ st.kmem.nodes r := by
  obtain ⟨k, es, st, hk, hx, -, hfree, hlen⟩ := fullMemory_run
  exact ⟨k, es, st, hk, hx, hlen, hfree, freelist_exact (by decide) (by decide) hk hx⟩

/-! ## A page table that frees a page of its own -/

/-- The call maps page `v` of page table `r`, or is to do so. -/
def Event.Covers (r v : Nat) : Event → Prop
  | .mapped r' va size _ _ _ => r' = r ∧ va / PGSIZE ≤ v ∧ v < va / PGSIZE + size / PGSIZE
  | _ => False

instance (r v : Nat) : (e : Event) → Decidable (e.Covers r v)
  | .mapped .. => inferInstanceAs (Decidable (_ ∧ _ ∧ _))
  | .created _ | .unmapped .. | .freed _ => inferInstanceAs (Decidable False)

/-- A page that is never mapped is not in the map. -/
theorem Holds.eq_none {es : List Event} (h : Holds r es M) (hno : ∀ e ∈ es, ¬e.Covers r v) : M v = none := by
  induction h with
  | created es => rfl
  | other _ _ ih => exact ih fun e he => hno e (List.mem_append_left _ he)
  | mapped _ ih =>
    have hnot := hno _ (List.mem_append_right _ (List.mem_singleton.2 rfl))
    rw [PageMap.insert, if_neg fun hc => hnot ⟨rfl, hc.1, hc.2⟩]
    exact ih fun e he => hno e (List.mem_append_left _ he)
  | failed _ hk ih =>
    have hnot := hno _ (List.mem_append_right _ (List.mem_singleton.2 rfl))
    rw [PageMap.insert, if_neg fun hc => hnot ⟨rfl, hc.1, by omega⟩]
    exact ih fun e he => hno e (List.mem_append_left _ he)
  | unmapped _ ih =>
    rw [PageMap.erase]
    split
    · rfl
    · exact ih fun e he => hno e (List.mem_append_left _ he)

/-- A page of the page table is mapped at address 0, and is freed when it is unmapped. -/
def ownPage : List Call :=
  [.uvmcreate, .mappages 0x87fff000 0 0x1000 0x87ffd000 PTE_R, .uvmunmap 0x87fff000 0 1 true]

theorem frees_its_own_page : ∃ (k : Kmem) (es : List Event) (st : Tables), smallBoot 6 = .ok ((), k) ∧
    Exec Tables.step (fun s c => s.Proper c) (.boot k) es st ∧ 0x87fff000 ∈ st.roots ∧
    ¬∃ M, Holds 0x87fff000 es M ∧ Refines st.kmem 0x87fff000 M := by
  obtain ⟨_, k, hk, hrun⟩ : ∃ u k, smallBoot 6 = .ok (u, k) ∧
      ((runActs (fun (s : Tables) c => if decide (s.Proper c) then s.step c else none) (.boot k) ownPage).any fun r =>
        decide (0x87fff000 ∈ r.1.roots ∧ ∀ e ∈ r.2, ¬e.Covers 0x87fff000 1) &&
        (walk 0x87fff000 0x1000 false r.1.kmem).toOption.any fun w => w.1.any fun slot =>
          Pte.has ((r.1.kmem.mem slot.1).word slot.2) PTE_V) = true :=
    exists_of_ok (by decide +kernel)
  obtain ⟨⟨st, es⟩, hacts, hes⟩ := Option.any_eq_true _ _ |>.1 hrun
  rw [Bool.and_eq_true, decide_eq_true_eq] at hes
  obtain ⟨⟨hroot, hno⟩, hwalk⟩ := hes
  refine ⟨k, es, st, hk, (exec_of_run hacts).of_check fun _ _ => of_decide_eq_true, hroot, ?_⟩
  rintro ⟨M, hM, href⟩
  obtain ⟨o, hw, hm⟩ := href 0x1000 (by decide)
  have hnone : M (0x1000 / PGSIZE) = none := hM.eq_none hno
  rw [hnone] at hm
  rw [hw] at hwalk
  cases o with
  | none => cases hwalk
  | some slot => exact absurd ((hm slot rfl).symm.trans hwalk) (by simp)

end Xv6.Vm
