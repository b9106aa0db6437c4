import Xv6.Vm.Pte

/-!
# Physical pages and page tables

`kalloc.c` and `vm.c`: the allocator of pages with its reference counts, the walk of
a page table, and the functions that map, unmap and free pages with it. A page is given
by its physical address, as in the code.

The free pages are a list of their own, not linked through the pages themselves. A
`Kmem` also keeps two flags that no code reads: whether `kalloc` has ever found no
page, and whether a reference count has ever wrapped around.
-/

namespace Xv6.Vm

open Function

/-- The bytes of a page. -/
abbrev Page := Nat → BitVec 8

/-- Word `i` of a page. -/
def Page.word (pg : Page) (i : Nat) : BitVec 64 := readLe pg (8 * i) 8

def Page.setWord (pg : Page) (i : Nat) (w : BitVec 64) : Page := writeLe pg (8 * i) 8 w

structure Kmem where
  /-- Physical memory: the page at each address. -/
  mem : Nat → Page
  freelist : List Nat
  /-- `ref_count`, by page number. -/
  refCount : Nat → BitVec 16
  /-- `end`, the first address after the kernel. -/
  kend : Nat
  /-- `kalloc` has found no free page. -/
  exhausted : Bool
  /-- A reference count has wrapped around. -/
  wrapped : Bool

inductive Panic where
  | kfree
  | walk
  | mappagesVa
  | mappagesSizeAlign
  | mappagesSize
  | remap
  | uvmunmap
  | freewalkLeaf
  /-- Not a panic of the source: a page table of more levels than there are. -/
  | freewalkDepth
  deriving DecidableEq, Repr

abbrev M := StateT Kmem (Except Panic)

/-! ## `kalloc.c` -/

def Kmem.setPage (s : Kmem) (pa : Nat) (pg : Page) : Kmem := { s with mem := update s.mem pa pg }

def memset (pa : Nat) (c : BitVec 8) : M Unit := modify fun s => s.setPage pa fun _ => c

/-- Drop a reference to a page, and free the page if it was the last. -/
def kfree (pa : Nat) : M Unit := do
  let s ← get
  if pa % PGSIZE ≠ 0 ∨ pa < s.kend ∨ pa ≥ PHYSTOP then throw .kfree
  else
    let count := s.refCount (pa / PGSIZE) - 1
    set { s with
      refCount := update s.refCount (pa / PGSIZE) count
      wrapped := s.wrapped || s.refCount (pa / PGSIZE) == 0 }
    if count.toNat > 0 then pure ()
    else
      memset pa 1
      modify fun s => { s with freelist := pa :: s.freelist }

/-- Allocate a page, filled with junk; it has one reference. -/
def kalloc : M (Option Nat) := do
  let s ← get
  match s.freelist with
  | [] =>
    set { s with exhausted := true }
    pure none
  | r :: rest =>
    set { s with freelist := rest }
    memset r 5
    modify fun s => { s with refCount := update s.refCount (r / PGSIZE) 1 }
    pure (some r)

def krefinc (pa : Nat) : M Unit :=
  modify fun s => { s with
    refCount := update s.refCount (pa / PGSIZE) (s.refCount (pa / PGSIZE) + 1)
    wrapped := s.wrapped || s.refCount (pa / PGSIZE) == BitVec.allOnes 16 }

def freerange (paStart paEnd : Nat) : M Unit :=
  forM (List.range ((paEnd - pgroundup paStart) / PGSIZE)) fun k => do
    let p := pgroundup paStart + k * PGSIZE
    modify fun s => { s with refCount := update s.refCount (p / PGSIZE) 1 }
    kfree p

/-- Memory before `kinit`; the counts are in `.bss`. -/
def Kmem.boot (kend : Nat) (mem : Nat → Page) : Kmem where
  mem := mem
  freelist := []
  refCount := fun _ => 0
  kend := kend
  exhausted := false
  wrapped := false

def kinit : M Unit := do
  let s ← get
  freerange s.kend PHYSTOP

/-! ## Page tables -/

/-- A pointer to an entry: its page and its index there. -/
abbrev Slot := Nat × Nat

def readPte (slot : Slot) : M Pte := do
  let s ← get
  pure ((s.mem slot.1).word slot.2)

def writePte (slot : Slot) (pte : Pte) : M Unit :=
  modify fun s => s.setPage slot.1 ((s.mem slot.1).setWord slot.2 pte)

/-- The loop of `walk`, from a page-table page of this level down. -/
def walkFrom (va : Nat) (alloc : Bool) : Nat → Nat → M (Option Slot)
  | 0, pagetable => pure (some (pagetable, px 0 va))
  | level + 1, pagetable => do
    let pte ← readPte (pagetable, px (level + 1) va)
    if Pte.has pte PTE_V then walkFrom va alloc level (pte2pa pte)
    else if alloc then
      match ← kalloc with
      | none => pure none
      | some child =>
        memset child 0
        writePte (pagetable, px (level + 1) va) (pa2pte child ||| PTE_V)
        walkFrom va alloc level child
    else pure none

/-- The entry for a virtual address; with `alloc`, missing page-table pages are created. -/
def walk (pagetable va : Nat) (alloc : Bool) : M (Option Slot) :=
  if va ≥ MAXVA then throw .walk else walkFrom va alloc 2 pagetable

/-- The loop of `mappages`, for the pages from `a` on. -/
def mapFrom (pagetable : Nat) (perm : Pte) : Nat → Nat → Nat → M Bool
  | 0, _, _ => pure true
  | n + 1, a, pa => do
    match ← walk pagetable a true with
    | none => pure false
    | some slot =>
      let pte ← readPte slot
      if Pte.has pte PTE_V then throw .remap
      else
        writePte slot (pa2pte pa ||| perm ||| PTE_V)
        mapFrom pagetable perm n (a + PGSIZE) (pa + PGSIZE)

/-- Map pages; false if a page-table page could not be allocated. -/
def mappages (pagetable va size pa : Nat) (perm : Pte) : M Bool :=
  if va % PGSIZE ≠ 0 then throw .mappagesVa
  else if size % PGSIZE ≠ 0 then throw .mappagesSizeAlign
  else if size = 0 then throw .mappagesSize
  else mapFrom pagetable perm (size / PGSIZE) va pa

def uvmcreate : M (Option Nat) := do
  match ← kalloc with
  | none => pure none
  | some pagetable =>
    memset pagetable 0
    pure (some pagetable)

def unmapPage (pagetable a : Nat) (doFree : Bool) : M Unit := do
  match ← walk pagetable a false with
  | none => pure ()
  | some slot =>
    let pte ← readPte slot
    if Pte.has pte PTE_V = false then pure ()
    else
      if doFree then kfree (pte2pa pte) else pure ()
      writePte slot 0

/-- Remove the mappings of pages, if there are any. -/
def uvmunmap (pagetable va npages : Nat) (doFree : Bool) : M Unit :=
  if va % PGSIZE ≠ 0 then throw .uvmunmap
  else
    forM (List.range (((va + npages * PGSIZE) % 2 ^ 64 - va) / PGSIZE)) fun k =>
      unmapPage pagetable (va + k * PGSIZE) doFree

/-- Free page-table pages; the leaves must have been removed. -/
def freewalk : Nat → Nat → M Unit
  | 0, _ => throw .freewalkDepth
  | depth + 1, pagetable => do
    forM (List.range NPTE) fun i => do
      let pte ← readPte (pagetable, i)
      if Pte.has pte PTE_V ∧ pte &&& (PTE_R ||| PTE_W ||| PTE_X) = 0 then
        freewalk depth (pte2pa pte)
        writePte (pagetable, i) 0
      else if Pte.has pte PTE_V then throw .freewalkLeaf
      else pure ()
    kfree pagetable

end Xv6.Vm
