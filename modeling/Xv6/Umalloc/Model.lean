import Xv6.Framework.Path
import Xv6.Framework.Run
import Mathlib.Data.Nat.Cast.Basic

/-!
# The allocator of user programs

`malloc` and `free` of `umalloc.c`. A header is found by its address, a number of bytes; the memory
ends below 2 ^ 64, so that no address computed here wraps around. What `sbrk` returns is up to the
call: the start of a region above all memory so far, or an error. The loops run on fuel; without
fuel there is no result. The program writes only to headers: what it keeps in its blocks is not
modelled, and no write of it reaches a header.
-/

namespace Xv6.Umalloc

open Function

/-- The `s` of `union header`. -/
structure Header where
  ptr : Nat
  size : BitVec 32
  deriving DecidableEq, Repr

/-- `sizeof(Header)` -/
def HEADER : Nat := 16

/-- Memory from an address on, of `n` units of `sizeof(Header)` bytes. -/
structure Block where
  addr : Nat
  n : Nat
  deriving DecidableEq, Repr

structure State where
  /-- The header at each address. -/
  mem : Nat → Header
  /-- The address of `base`, in the program's data. -/
  base : Nat
  /-- 0 before the first call of `malloc`. -/
  freep : Nat
  /-- Where the memory obtained so far ends. -/
  brk : Nat
  /-- What `malloc` returned and was not freed. Nothing reads it. -/
  live : List Nat
  /-- What `sbrk` returned. Nothing reads it. -/
  regions : List Block
  /-- The sizes that `morecore` asked the kernel's `sbrk` for, the last first. Nothing reads it. -/
  asked : List (BitVec 32)
  /-- A store outside the memory has killed the process. Nothing reads it. -/
  killed : Bool

def State.ptr (s : State) (p : Nat) : Nat := (s.mem p).ptr
def State.size (s : State) (p : Nat) : BitVec 32 := (s.mem p).size

def State.setPtr (s : State) (p q : Nat) : State :=
  { s with mem := update s.mem p { s.mem p with ptr := q } }

def State.setSize (s : State) (p : Nat) (n : BitVec 32) : State :=
  { s with mem := update s.mem p { s.mem p with size := n } }

/-- `p + n`, for `p` of type `Header *`. -/
def plus (p : Nat) (n : BitVec 32) : Nat := p + HEADER * n.toNat

/-- The search of `free` for the place of `bp` ends at `p`. -/
def State.placed (s : State) (bp p : Nat) : Bool :=
  (bp > p ∧ bp < s.ptr p) ∨ (p ≥ s.ptr p ∧ (bp > p ∨ bp < s.ptr p))

/-- `bp` goes before what follows `p`, or what follows `p` into it. -/
def State.joinNext (s : State) (bp p : Nat) : State :=
  if plus bp (s.size bp) = s.ptr p then
    let s := s.setSize bp (s.size bp + s.size (s.ptr p))
    s.setPtr bp (s.ptr (s.ptr p))
  else s.setPtr bp (s.ptr p)

/-- `bp` goes after `p`, or into it. -/
def State.joinPrev (s : State) (bp p : Nat) : State :=
  if plus p (s.size p) = bp then
    let s := s.setSize p (s.size p + s.size bp)
    s.setPtr p (s.ptr bp)
  else s.setPtr p bp

def State.insert (s : State) (bp p : Nat) : State :=
  { (s.joinNext bp p).joinPrev bp p with freep := p }

def free (fuel : Nat) (s : State) (ap : Nat) : Option State :=
  let bp := ap - HEADER
  (search s.ptr (s.placed bp) fuel s.freep).map (s.insert bp)

/-- What `morecore` leaves, and the pointer it returns, 0 if there is no more memory. -/
def morecore (sbrk : Nat → Option Nat) (nu : BitVec 32) (fuel : Nat) (s : State) : Option (State × Nat) :=
  let nu := if nu < 4096 then 4096 else nu
  match sbrk s.brk with
  | none => some (s, 0)
  | some p =>
    let s := { s with brk := plus p nu, regions := ⟨p, nu.toNat⟩ :: s.regions }.setSize p nu
    (free fuel s (p + HEADER)).map fun s => (s, s.freep)

/-- The block that is found at `p`, after `prevp`, is given out. -/
def State.take (s : State) (nunits : BitVec 32) (prevp p : Nat) : State × Nat :=
  if s.size p = nunits then
    let s := s.setPtr prevp (s.ptr p)
    ({ s with freep := prevp }, p + HEADER)
  else
    let s := s.setSize p (s.size p - nunits)
    let q := plus p (s.size p)
    let s := s.setSize q nunits
    ({ s with freep := prevp }, q + HEADER)

/-- The loop of `malloc`, where `core` is `morecore` of `nunits`. -/
def mallocLoop (core : Nat → State → Option (State × Nat)) (nunits : BitVec 32) :
    Nat → State → Nat → Nat → Option (State × Nat)
  | 0, _, _, _ => none
  | fuel + 1, s, prevp, p =>
    if s.size p ≥ nunits then some (s.take nunits prevp p)
    else if p = s.freep then
      match core fuel s with
      | none => none
      | some (s, p) => if p = 0 then some (s, 0) else mallocLoop core nunits fuel s p (s.ptr p)
    else mallocLoop core nunits fuel s p (s.ptr p)

def units (nbytes : BitVec 32) : BitVec 32 := BitVec.ofNat 32 ((nbytes.toNat + HEADER - 1) / HEADER + 1)

/-- `base.s.ptr = freep = prevp = &base; base.s.size = 0;` -/
def State.start (s : State) : State :=
  { s with mem := update s.mem s.base { ptr := s.base, size := 0 }, freep := s.base }

/-- `malloc`, where `core` is `morecore`. -/
def mallocOn (core : BitVec 32 → Nat → State → Option (State × Nat)) (fuel : Nat) (s : State) (nbytes : BitVec 32) :
    Option (State × Nat) :=
  let s := if s.freep = 0 then s.start else s
  mallocLoop (core (units nbytes)) (units nbytes) fuel s s.freep (s.ptr s.freep)

def malloc (fuel : Nat) (s : State) (sbrk : Nat → Option Nat) (nbytes : BitVec 32) : Option (State × Nat) :=
  mallocOn (morecore sbrk) fuel s nbytes

inductive Event where
  | malloced (nbytes : BitVec 32) (p : Nat)
  | freed (p : Nat)
  deriving DecidableEq, Repr

inductive Act where
  /-- `sbrk` says where a region starts, given where the memory ends. -/
  | malloc (fuel : Nat) (sbrk : Nat → Option Nat) (nbytes : BitVec 32)
  | free (fuel : Nat) (ap : Nat)

def step (s : State) : Act → Option (State × List Event)
  | .malloc fuel sbrk nbytes =>
    (malloc fuel s sbrk nbytes).map fun (s, p) =>
      ({ s with live := if p = 0 then s.live else p :: s.live }, [.malloced nbytes p])
  | .free fuel ap =>
    (free fuel s ap).map fun s => ({ s with live := s.live.erase ap }, [.freed ap])

/-- A program whose data ends at `brk`. -/
def init (mem : Nat → Header) (base brk : Nat) : State :=
  { mem, base, freep := 0, brk, live := [], regions := [], asked := [], killed := false }

/-- The callers ask for less than 2 ^ 31 bytes and free what they got, once; `sbrk` returns memory
above all memory so far. -/
def Calls (s : State) : Act → Prop
  | .malloc _ sbrk nbytes => HEADER * (units nbytes).toNat < 2 ^ 31 ∧ ∀ p ∈ sbrk s.brk, s.brk ≤ p
  | .free _ ap => ap ∈ s.live

/-- The memory obtained so far, in units. -/
def State.total (s : State) : Nat := (s.regions.map Block.n).sum

/-- `sbrk` returns aligned memory, in total less than 2 ^ 36 bytes. -/
def Fits (s : State) : Act → Prop
  | .malloc _ sbrk nbytes => ∀ p ∈ sbrk s.brk, HEADER ∣ p ∧ s.total + max 4096 (units nbytes).toNat < 2 ^ 32
  | .free _ _ => True

instance (s : State) : (a : Act) → Decidable (Calls s a)
  | .malloc _ sbrk nbytes =>
    inferInstanceAs (Decidable (HEADER * (units nbytes).toNat < 2 ^ 31 ∧ ∀ p ∈ sbrk s.brk, s.brk ≤ p))
  | .free _ ap => inferInstanceAs (Decidable (ap ∈ s.live))

instance (s : State) : (a : Act) → Decidable (Fits s a)
  | .malloc _ sbrk nbytes => inferInstanceAs
      (Decidable (∀ p ∈ sbrk s.brk, HEADER ∣ p ∧ s.total + max 4096 (units nbytes).toNat < 2 ^ 32))
  | .free _ _ => inferInstanceAs (Decidable True)

end Xv6.Umalloc
