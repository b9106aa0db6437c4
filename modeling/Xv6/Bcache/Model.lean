import Xv6.Param
import Xv6.Framework.Run
import Xv6.Framework.Ring

/-!
# The buffer cache

`bio.c`, run by the processes of any type `P` on blocks with contents of any type `D`. A step is
one critical section under `bcache.lock`, or one step of a buffer's sleep lock: so `bread` is the
search of `bget`, the wait for the sleep lock and the disk read, and `brelse` gives the sleep lock
back before it takes `bcache.lock`. The buffers are the nodes `some b` of a doubly linked ring,
with `bcache.head` the node `none`.
-/

namespace Xv6.Bcache

open Function

/-- Size of the disk block cache. -/
def NBUF : Nat := MAXOPBLOCKS * 3

abbrev Buf := Fin NBUF

instance : NeZero NBUF := ⟨by decide⟩

/-- `struct buf`, without the links. -/
structure Buffer (P D : Type) where
  /-- Has the data been read from disk? -/
  valid : Bool
  dev : BitVec 32
  blockno : BitVec 32
  refcnt : BitVec 32
  /-- The process that holds the sleep lock. -/
  lock : Option P
  data : D

/-- Where a process is in `bread` or `brelse`. -/
inductive Phase where
  /-- In neither. -/
  | idle
  /-- In `bget`, about to acquire the sleep lock of the buffer found. -/
  | want (b : Buf)
  /-- In `bread`, with the buffer that `bget` returned. -/
  | filling (b : Buf)
  /-- In `brelse`, having released the sleep lock. -/
  | leaving (b : Buf)
  deriving DecidableEq, Repr

structure State (P D : Type) where
  buf : Buf → Buffer P D
  links : Dll (Option Buf)
  phase : P → Phase
  disk : BitVec 32 → BitVec 32 → D
  /-- How many `bpin`s of the buffer no `bunpin` has undone. Nothing reads it. -/
  pins : Buf → Nat
  panicked : Bool

inductive Event where
  /-- `bget` found its block in `b`. -/
  | hit (b : Buf)
  /-- `bget` recycled `b`. -/
  | recycled (b : Buf)
  /-- `brelse` dropped the last reference to `b`. -/
  | freed (b : Buf)
  deriving DecidableEq, Repr

inductive Act (P D : Type) where
  /-- `p` calls `bread(dev, blockno)`: the critical section of `bget`. -/
  | bget (p : P) (dev blockno : BitVec 32)
  /-- The sleep lock is free, and `p`, which wants it, acquires it. -/
  | acquiresleep (p : P)
  /-- The rest of `bread`. -/
  | fill (p : P)
  /-- `p` stores into the data of a buffer that it has locked. -/
  | modify (p : P) (b : Buf) (data : D)
  | bwrite (p : P) (b : Buf)
  /-- `p` calls `brelse(b)`: up to the call of `releasesleep`. -/
  | releasesleep (p : P) (b : Buf)
  /-- The critical section of `brelse`. -/
  | brelse (p : P)
  | bpin (p : P) (b : Buf)
  | bunpin (p : P) (b : Buf)

variable {P D : Type}

/-! ## The list of buffers -/

/-- A link that leads to a buffer with a property, not to the head. -/
def Buf.test (p : Buf → Bool) : Option Buf → Bool
  | none => false
  | some b => p b

/-- `b->dev == dev && b->blockno == blockno` -/
def Buffer.isBlock (b : Buffer P D) (dev blockno : BitVec 32) : Bool := b.dev == dev && b.blockno == blockno

/-- The first loop of `bget`, from `head.next` on. -/
def State.findBlock (s : State P D) (dev blockno : BitVec 32) : Option Buf :=
  (Dll.find s.links.next none (Buf.test fun b => (s.buf b).isBlock dev blockno) (NBUF + 1)
    (s.links.next none)).join

/-- The second loop of `bget`, from `head.prev` on. -/
def State.findUnused (s : State P D) : Option Buf :=
  (Dll.find s.links.prev none (Buf.test fun b => (s.buf b).refcnt == 0) (NBUF + 1)
    (s.links.prev none)).join

/-- The loop of `binit`. -/
def binitLinks : Dll (Option Buf) :=
  (List.finRange NBUF).foldl (fun d b => d.pushFront none (some b))
    { next := fun _ => none, prev := fun _ => none }

/-- After `binit`, with the buffers as the loader has zeroed them. -/
def init (disk : BitVec 32 → BitVec 32 → D) (data : Buf → D) : State P D where
  buf b := { valid := false, dev := 0, blockno := 0, refcnt := 0, lock := none, data := data b }
  links := binitLinks
  phase _ := .idle
  disk := disk
  pins _ := 0
  panicked := false

/-! ## Steps -/

def State.setBuf (s : State P D) (b : Buf) (x : Buffer P D) : State P D :=
  { s with buf := update s.buf b x }

def Buffer.incref (b : Buffer P D) : Buffer P D := { b with refcnt := b.refcnt + 1 }
def Buffer.decref (b : Buffer P D) : Buffer P D := { b with refcnt := b.refcnt - 1 }

def Buffer.assign (b : Buffer P D) (dev blockno : BitVec 32) : Buffer P D :=
  { b with dev := dev, blockno := blockno, valid := false, refcnt := 1 }

def State.setPins (s : State P D) (b : Buf) (n : Nat) : State P D :=
  { s with pins := update s.pins b n }

def State.panic (s : State P D) : State P D := { s with panicked := true }

variable [DecidableEq P]

def State.goto (s : State P D) (p : P) (ph : Phase) : State P D :=
  { s with phase := update s.phase p ph }

def State.bget (s : State P D) (p : P) (dev blockno : BitVec 32) : State P D × List Event :=
  match s.findBlock dev blockno with
  | some b => ((s.setBuf b (s.buf b).incref).goto p (.want b), [.hit b])
  | none =>
    match s.findUnused with
    | some b => ((s.setBuf b ((s.buf b).assign dev blockno)).goto p (.want b), [.recycled b])
    | none => (s.panic, [])

def Buffer.fill (b : Buffer P D) (disk : BitVec 32 → BitVec 32 → D) : Buffer P D :=
  if b.valid then b else { b with data := disk b.dev b.blockno, valid := true }

/-- `virtio_disk_rw(b, 1)` -/
def State.write (s : State P D) (b : Buf) : State P D :=
  let x := s.buf b
  { s with disk := update s.disk x.dev (update (s.disk x.dev) x.blockno x.data) }

/-- No one is waiting for `b`: it moves to the front of the list. -/
def State.toFront (s : State P D) (b : Buf) : State P D :=
  { s with links := (s.links.unlink (some b)).pushFront none (some b) }

def State.brelse (s : State P D) (p : P) (b : Buf) : State P D × List Event :=
  let s := (s.setBuf b (s.buf b).decref).goto p .idle
  if (s.buf b).refcnt = 0 then (s.toFront b, [.freed b]) else (s, [])

/-- A step of a process. The processes that wait for a sleep lock take no step, and after a panic
there is none. -/
def State.act (s : State P D) : Act P D → Option (State P D × List Event)
  | .bget p dev blockno => if s.phase p = .idle then some (s.bget p dev blockno) else none
  | .acquiresleep p =>
    match s.phase p with
    | .want b =>
      if (s.buf b).lock = none then
        some ((s.setBuf b { s.buf b with lock := some p }).goto p (.filling b), [])
      else none
    | _ => none
  | .fill p =>
    match s.phase p with
    | .filling b => some ((s.setBuf b ((s.buf b).fill s.disk)).goto p .idle, [])
    | _ => none
  | .modify p b data =>
    if s.phase p = .idle ∧ (s.buf b).lock = some p then
      some (s.setBuf b { s.buf b with data := data }, [])
    else none
  | .bwrite p b =>
    if s.phase p = .idle then some (if (s.buf b).lock = some p then s.write b else s.panic, [])
    else none
  | .releasesleep p b =>
    if s.phase p = .idle then
      some (if (s.buf b).lock = some p then
        (s.setBuf b { s.buf b with lock := none }).goto p (.leaving b) else s.panic, [])
    else none
  | .brelse p =>
    match s.phase p with
    | .leaving b => some (s.brelse p b)
    | _ => none
  | .bpin p b =>
    if s.phase p = .idle then
      some ((s.setBuf b (s.buf b).incref).setPins b (s.pins b + 1), [])
    else none
  | .bunpin p b =>
    if s.phase p = .idle then
      some ((s.setBuf b (s.buf b).decref).setPins b (s.pins b - 1), [])
    else none

def step (s : State P D) (a : Act P D) : Option (State P D × List Event) :=
  if s.panicked then none else s.act a

/-- The callers balance their references: a pin is undone at most once. -/
def Balanced (s : State P D) : Act P D → Prop
  | .bunpin _ b => 0 < s.pins b
  | _ => True

end Xv6.Bcache
