import Xv6.Blocks.Model
import Xv6.Framework.Run

/-!
# The disk driver and its device

`virtio_disk.c`: `virtio_disk_rw`, called by any number of processes, and
`virtio_disk_intr`, with the descriptors and the two rings that they share with the device.
Each step of a thread of the driver is one store, or one round of a loop. The device takes
entries of the avail ring in their order, and performs and posts them in any order. It reads
what the driver writes (`Mem`), while the driver reads the used ring and the status bytes.

A sleeping thread may wake up at any time, which includes all the times at which it is
woken. An interrupt may come at any time: a thread that runs `virtio_disk_intr` is one of
its own.
-/

namespace Xv6.Virtio

open Function

/-- This many virtio descriptors. -/
def NUM : Nat := 8

/-- Chained with another descriptor. -/
def VRING_DESC_F_NEXT : BitVec 16 := 1
/-- Device writes (vs read). -/
def VRING_DESC_F_WRITE : BitVec 16 := 2

/-- Read the disk. -/
def VIRTIO_BLK_T_IN : BitVec 32 := 0
/-- Write the disk. -/
def VIRTIO_BLK_T_OUT : BitVec 32 := 1

variable {n : Nat} {B D : Type}

/-- What a descriptor points to. -/
inductive Addr (B : Type) where
  | null
  | op (i : Nat)
  | data (b : B)
  | status (i : Nat)

structure Desc (B : Type) where
  addr : Addr B
  len : BitVec 32
  flags : BitVec 16
  next : BitVec 16

/-- The format of the first descriptor in a disk request. -/
structure BlkReq where
  type : BitVec 32
  reserved : BitVec 32
  sector : BitVec 64

/-- The memory that only the driver writes. -/
structure Mem (B : Type) where
  desc : Nat → Desc B
  ops : Nat → BlkReq
  /-- `info[i].b` -/
  buf : Nat → Option B
  free : Nat → Bool
  /-- `b->disk` -/
  disk : B → Bool
  /-- `avail->ring` -/
  ring : Nat → BitVec 16
  /-- `avail->idx` -/
  idx : BitVec 16
  /-- `used_idx`: we've looked this far in the used ring. -/
  usedIdx : BitVec 16

/-- A call of `virtio_disk_rw`; `data` is what is in the buffer. -/
structure Request (B D : Type) where
  b : B
  blockno : BitVec 32
  write : Bool
  data : D

def Request.sector (r : Request B D) : BitVec 64 :=
  (r.blockno * BitVec.ofNat 32 (Blocks.BSIZE / 512)).setWidth 64

/-- The three descriptors of a request. -/
structure Chain where
  d0 : Nat
  d1 : Nat
  d2 : Nat

def Chain.list (c : Chain) : List Nat := [c.d0, c.d1, c.d2]

/-! ## Stores of the driver -/

inductive Write (B : Type) where
  | opType (i : Nat) (v : BitVec 32)
  | opReserved (i : Nat) (v : BitVec 32)
  | opSector (i : Nat) (v : BitVec 64)
  | addr (i : Nat) (v : Addr B)
  | len (i : Nat) (v : BitVec 32)
  | flags (i : Nat) (v : BitVec 16)
  /-- `flags |= v` -/
  | orFlags (i : Nat) (v : BitVec 16)
  | next (i : Nat) (v : BitVec 16)
  | status (i : Nat) (v : BitVec 8)
  | disk (b : B) (v : Bool)
  | buf (i : Nat) (v : Option B)
  | free (i : Nat)

def Mem.setOp (m : Mem B) (i : Nat) (f : BlkReq → BlkReq) : Mem B := { m with ops := update m.ops i (f (m.ops i)) }

def Mem.setDesc (m : Mem B) (i : Nat) (f : Desc B → Desc B) : Mem B :=
  { m with desc := update m.desc i (f (m.desc i)) }

def Write.mem [DecidableEq B] (m : Mem B) : Write B → Mem B
  | .opType i v => m.setOp i fun q => { q with type := v }
  | .opReserved i v => m.setOp i fun q => { q with reserved := v }
  | .opSector i v => m.setOp i fun q => { q with sector := v }
  | .addr i v => m.setDesc i fun d => { d with addr := v }
  | .len i v => m.setDesc i fun d => { d with len := v }
  | .flags i v => m.setDesc i fun d => { d with flags := v }
  | .orFlags i v => m.setDesc i fun d => { d with flags := d.flags ||| v }
  | .next i v => m.setDesc i fun d => { d with next := v }
  | .status _ _ => m
  | .disk b v => { m with disk := update m.disk b v }
  | .buf i v => { m with buf := update m.buf i v }
  | .free i => { m with free := update m.free i true }

def Write.status? (st : Nat → BitVec 8) : Write B → Nat → BitVec 8
  | .status i v => update st i v
  | _ => st

/-- Format the three descriptors. -/
def formatWrites (r : Request B D) (c : Chain) : List (Write B) :=
  [.opType c.d0 (if r.write then VIRTIO_BLK_T_OUT else VIRTIO_BLK_T_IN), .opReserved c.d0 0, .opSector c.d0 r.sector,
    .addr c.d0 (.op c.d0), .len c.d0 16, .flags c.d0 VRING_DESC_F_NEXT, .next c.d0 (BitVec.ofNat 16 c.d1),
    .addr c.d1 (.data r.b), .len c.d1 (BitVec.ofNat 32 Blocks.BSIZE),
    .flags c.d1 (if r.write then 0 else VRING_DESC_F_WRITE), .orFlags c.d1 VRING_DESC_F_NEXT,
    .next c.d1 (BitVec.ofNat 16 c.d2),
    .status c.d0 0xff,
    .addr c.d2 (.status c.d0), .len c.d2 1, .flags c.d2 VRING_DESC_F_WRITE, .next c.d2 0,
    .disk r.b true, .buf c.d0 (some r.b)]

/-- The stores of `free_desc`. -/
def freeWrites (d : Nat) : List (Write B) := [.addr d .null, .len d 0, .flags d 0, .next d 0, .free d]

/-! ## Threads of the driver -/

/-- Where a thread is. The number in a place after `avail->idx += 1` is that of its entry of the
avail ring, counted from the first one ever. -/
inductive Pc (B D : Type) where
  | idle
  | enter (r : Request B D)
  /-- In `alloc3_desc`, with the descriptors it has got. -/
  | alloc (r : Request B D) (got : List Nat)
  /-- In `alloc3_desc`, to give back descriptors. -/
  | undo (r : Request B D) (todo : List Nat)
  | sleepFree (r : Request B D)
  | format (r : Request B D) (c : Chain) (i : Nat)
  | publish (r : Request B D) (c : Chain)
  | submit (r : Request B D) (c : Chain)
  | wait (r : Request B D) (c : Chain) (k : Nat)
  | sleepBuf (r : Request B D) (c : Chain) (k : Nat)
  | clear (r : Request B D) (c : Chain) (k : Nat)
  /-- In `free_chain`, with the next descriptor. -/
  | freeChain (r : Request B D) (c : Chain) (k : Nat) (i : Option Nat)
  /-- In `free_desc`, with the number of stores it has made, and where it returns to. -/
  | freeDesc (d i : Nat) (next : Pc B D)
  | leave (r : Request B D) (c : Chain) (k : Nat)
  | intrEnter
  | intrLoop
  | intrId
  | intrStatus (id : Nat)
  | intrBuf (id : Nat)
  | intrNext
  | intrLeave

/-- The buffer of the call that a thread is in. -/
def Pc.buf : Pc B D → Option B
  | .enter r | .alloc r _ | .undo r _ | .sleepFree r | .format r _ _ | .publish r _ | .submit r _ | .wait r _ _ |
    .sleepBuf r _ _ | .clear r _ _ | .freeChain r _ _ _ | .leave r _ _ => some r.b
  | .freeDesc _ _ next => next.buf
  | _ => none

inductive Panic where
  | freeDesc1
  | freeDesc2
  | intrStatus
  /-- Not a panic of the source: `info[id].b` is a null pointer. -/
  | nullBuf
  /-- Not a panic of the source: the device cannot follow a chain. -/
  | badChain
  deriving DecidableEq, Repr

/-- How far the device is with a request it has taken. -/
inductive Stage where
  | taken
  | moved
  | ready
  deriving DecidableEq, Repr

/-- A request in the device: the number of its entry in the avail ring, and what that entry says. -/
structure Entry where
  serial : Nat
  head : Nat
  stage : Stage

/-- What the device has done for a request. -/
structure Transfer (B D : Type) where
  write : Bool
  sector : BitVec 64
  b : B
  value : D

structure State (n : Nat) (B D : Type) where
  mem : Mem B
  /-- Who holds `vdisk_lock`. -/
  lock : Option (Fin n)
  pc : Fin n → Pc B D
  /-- `info[i].status` -/
  status : Nat → BitVec 8
  /-- `used->idx` -/
  idx : BitVec 16
  /-- `used->ring[i].id` -/
  ring : Nat → BitVec 32
  data : B → D
  /-- The content of the disk, by sectors. -/
  image : BitVec 64 → D
  /-- The number of entries of the avail ring that the device has taken. -/
  seen : Nat
  pending : List Entry
  /-- A request whose entry is in the used ring, with `used->idx` not yet incremented. -/
  posting : Option (Nat × Nat)
  /-- The number of entries ever put in the avail ring. -/
  submitted : Nat
  panicked : Option Panic

inductive Event (B D : Type) where
  | submit (r : Request B D) (c : Chain)
  | complete (k : Nat) (x : Transfer B D)
  | post (k head : Nat)
  | credit (head : Nat) (b : B)
  | ret (k : Nat)

inductive Act (n : Nat) (B D : Type) where
  | call (t : Fin n) (r : Request B D)
  | interrupt (t : Fin n)
  | run (t : Fin n)
  | take
  | move (j : Nat)
  | status (j : Nat)
  | post (j : Nat)
  | bump

def State.goto (s : State n B D) (t : Fin n) (pc : Pc B D) : State n B D := { s with pc := update s.pc t pc }

def State.panic (s : State n B D) (e : Panic) : State n B D := { s with panicked := some e }

/-- `acquire`, if the lock is free. -/
def State.acquire (s : State n B D) (t : Fin n) (pc : Pc B D) : Option (State n B D × List (Event B D)) :=
  if s.lock = none then some (State.goto { s with lock := some t } t pc, []) else none

def State.release (s : State n B D) (t : Fin n) (pc : Pc B D) : State n B D :=
  State.goto { s with lock := none } t pc

/-- `avail->ring[avail->idx % NUM] = d` -/
def State.putAvail (s : State n B D) (d : Nat) : State n B D :=
  { s with mem := { s.mem with ring := update s.mem.ring (s.mem.idx.toNat % NUM) (BitVec.ofNat 16 d) } }

/-- `avail->idx += 1` -/
def State.bumpAvail (s : State n B D) : State n B D :=
  { s with mem := { s.mem with idx := s.mem.idx + 1 }, submitted := s.submitted + 1 }

/-- `used_idx += 1` -/
def State.bumpUsed (s : State n B D) : State n B D :=
  { s with mem := { s.mem with usedIdx := s.mem.usedIdx + 1 } }

/-- Find a free descriptor. -/
def allocDesc (free : Nat → Bool) : Option Nat := (List.range NUM).find? free

/-- The place after `free_desc` of `d` has made its checks. -/
def freeCheck (s : State n B D) (t : Fin n) (d : Nat) (next : Pc B D) : State n B D :=
  if NUM ≤ d then s.panic .freeDesc1
  else if s.mem.free d then s.panic .freeDesc2
  else s.goto t (.freeDesc d 0 next)

variable [DecidableEq B]

def State.write (s : State n B D) (w : Write B) : State n B D :=
  { s with mem := w.mem s.mem, status := w.status? s.status }

/-- A step of a thread that is at `pc`. -/
def runPc (s : State n B D) (t : Fin n) : Pc B D → Option (State n B D × List (Event B D))
  | .idle => none
  | .enter r => s.acquire t (.alloc r [])
  | .alloc r got =>
    match allocDesc s.mem.free with
    | none => some (s.goto t (.undo r got), [])
    | some d =>
      let s := { s with mem := { s.mem with free := update s.mem.free d false } }
      match got with
      | [d0, d1] => some (s.goto t (.format r ⟨d0, d1, d⟩ 0), [])
      | _ => some (s.goto t (.alloc r (got ++ [d])), [])
  | .undo r [] => some (s.release t (.sleepFree r), [])
  | .undo r (d :: todo) => some (freeCheck s t d (.undo r todo), [])
  | .sleepFree r => s.acquire t (.alloc r [])
  | .format r c i =>
    match (formatWrites r c)[i]? with
    | some w => some ((s.write w).goto t (.format r c (i + 1)), [])
    | none => some (s.goto t (.publish r c), [])
  | .publish r c =>
    some ((s.putAvail c.d0).goto t (.submit r c), [])
  | .submit r c =>
    some (s.bumpAvail.goto t (.wait r c s.submitted), [.submit r c])
  | .wait r c k =>
    if s.mem.disk r.b then some (s.release t (.sleepBuf r c k), []) else some (s.goto t (.clear r c k), [])
  | .sleepBuf r c k => s.acquire t (.wait r c k)
  | .clear r c k => some ((s.write (.buf c.d0 none)).goto t (.freeChain r c k (some c.d0)), [])
  | .freeChain r c k (some i) =>
    let d := s.mem.desc i
    let nxt := if d.flags &&& VRING_DESC_F_NEXT ≠ 0 then some d.next.toNat else none
    some (freeCheck s t i (.freeChain r c k nxt), [])
  | .freeChain r c k none => some (s.goto t (.leave r c k), [])
  | .freeDesc d i next =>
    match (freeWrites d).drop i with
    | [] => none
    | [w] => some ((s.write w).goto t next, [])
    | w :: _ => some ((s.write w).goto t (.freeDesc d (i + 1) next), [])
  | .leave _ _ k => some (s.release t .idle, [.ret k])
  | .intrEnter => s.acquire t .intrLoop
  | .intrLoop => some (s.goto t (if s.mem.usedIdx ≠ s.idx then .intrId else .intrLeave), [])
  | .intrId => some (s.goto t (.intrStatus (s.ring (s.mem.usedIdx.toNat % NUM)).toNat), [])
  | .intrStatus id => if s.status id ≠ 0 then some (s.panic .intrStatus, []) else some (s.goto t (.intrBuf id), [])
  | .intrBuf id =>
    match s.mem.buf id with
    | none => some (s.panic .nullBuf, [])
    | some b => some ((s.write (.disk b false)).goto t .intrNext, [.credit id b])
  | .intrNext => some (s.bumpUsed.goto t .intrLoop, [])
  | .intrLeave => some (s.release t .idle, [])

/-! ## The device -/

/-- A request as the device reads it from a chain: its direction, sector and buffer, and where the
status goes. -/
def follow (m : Mem B) (h : Nat) : Option (Bool × BitVec 64 × B × Nat) :=
  let d0 := m.desc h
  let d1 := m.desc d0.next.toNat
  let d2 := m.desc d1.next.toNat
  match d0.addr, d1.addr, d2.addr with
  | .op i, .data b, .status j =>
    let q := m.ops i
    if d0.flags = VRING_DESC_F_NEXT ∧ d2.flags = VRING_DESC_F_WRITE ∧ d0.len = 16 ∧
        d1.len = BitVec.ofNat 32 Blocks.BSIZE ∧ d2.len = 1 then
      if q.type = VIRTIO_BLK_T_OUT ∧ d1.flags = VRING_DESC_F_NEXT then some (true, q.sector, b, j)
      else if q.type = VIRTIO_BLK_T_IN ∧ d1.flags = VRING_DESC_F_WRITE ||| VRING_DESC_F_NEXT then
        some (false, q.sector, b, j)
      else none
    else none
  | _, _, _ => none

/-- Move the data of a request. -/
def State.transfer (s : State n B D) (w : Bool) (sector : BitVec 64) (b : B) : State n B D × Transfer B D :=
  if w then ({ s with image := update s.image sector (s.data b) }, ⟨w, sector, b, s.data b⟩)
  else ({ s with data := update s.data b (s.image sector) }, ⟨w, sector, b, s.image sector⟩)

/-- The next thing done for the request at place `j` of those in the device. -/
def State.advance (s : State n B D) (j : Nat) (x : Entry) (stage : Stage) : State n B D :=
  { s with pending := s.pending.set j { x with stage := stage } }

def step (s : State n B D) (a : Act n B D) : Option (State n B D × List (Event B D)) :=
  if s.panicked.isSome then none
  else
    match a with
    | .call t r =>
      match s.pc t with
      | .idle => some (State.goto { s with data := update s.data r.b r.data } t (.enter r), [])
      | _ => none
    | .interrupt t =>
      match s.pc t with
      | .idle => some (s.goto t .intrEnter, [])
      | _ => none
    | .run t => runPc s t (s.pc t)
    | .take =>
      if BitVec.ofNat 16 s.seen ≠ s.mem.idx then
        some ({ s with seen := s.seen + 1
                       pending := s.pending ++ [⟨s.seen, (s.mem.ring (s.seen % NUM)).toNat, .taken⟩] }, [])
      else none
    | .move j =>
      match s.pending[j]? with
      | some ⟨k, h, .taken⟩ =>
        match follow s.mem h with
        | none => some (s.panic .badChain, [])
        | some (w, sector, b, _) =>
          let r := s.transfer w sector b
          some (r.1.advance j ⟨k, h, .taken⟩ .moved, [.complete k r.2])
      | _ => none
    | .status j =>
      match s.pending[j]? with
      | some ⟨k, h, .moved⟩ =>
        match follow s.mem h with
        | none => some (s.panic .badChain, [])
        | some (_, _, _, i) =>
          some (State.advance { s with status := update s.status i 0 } j ⟨k, h, .moved⟩ .ready, [])
      | _ => none
    | .post j =>
      match s.pending[j]?, s.posting with
      | some ⟨k, h, .ready⟩, none =>
        some ({ s with ring := update s.ring (s.idx.toNat % NUM) (BitVec.ofNat 32 h)
                       pending := s.pending.eraseIdx j
                       posting := some (k, h) }, [])
      | _, _ => none
    | .bump =>
      match s.posting with
      | some (k, h) => some ({ s with idx := s.idx + 1, posting := none }, [.post k h])
      | none => none

/-- After `virtio_disk_init`. -/
def boot (data : B → D) (image : BitVec 64 → D) : State n B D where
  mem :=
    { desc := fun _ => ⟨.null, 0, 0, 0⟩
      ops := fun _ => ⟨0, 0, 0⟩
      buf := fun _ => none
      free := fun _ => true
      disk := fun _ => false
      ring := fun _ => 0
      idx := 0
      usedIdx := 0 }
  lock := none
  pc := fun _ => .idle
  status := fun _ => 0
  idx := 0
  ring := fun _ => 0
  data := data
  image := image
  seen := 0
  pending := []
  posting := none
  submitted := 0
  panicked := none

/-- Calls are made with buffers that are in no other call: the caller holds the buffer's lock. -/
def Distinct (s : State n B D) : Act n B D → Prop
  | .call _ r => ∀ t, (s.pc t).buf ≠ some r.b
  | _ => True

instance (s : State n B D) : (a : Act n B D) → Decidable (Distinct s a)
  | .call _ _ => inferInstanceAs (Decidable (∀ _, _ ≠ _))
  | .interrupt _ | .run _ | .take | .move _ | .status _ | .post _ | .bump => inferInstanceAs (Decidable True)

end Xv6.Virtio
