import Xv6.Machine
import Xv6.Param
import Xv6.Prog
import Xv6.RingQueue

/-!
# The virtio disk: driver and device

`virtio_disk_rw` hands a buffer to the disk and waits until the disk is done
with it. Driver and device share a table of descriptors and two rings. A
request is a chain of three descriptors – header, data, status – whose head
the driver writes into the ring `avail`; the device takes heads from there,
serves them in an order of its own, and writes each head it has served into
the ring `used`, from where `virtio_disk_intr` picks it up and clears
`b->disk` of the buffer that `info` has under that head.

The model is a machine. Any number of processes run `virtio_disk_rw`, any
number of interrupt handlers `virtio_disk_intr`; both are cut where the
device could tell the difference and where `vdisk_lock` changes hands. A
process that sleeps has given up the lock and may come back whenever the lock
is free, which is what `sleep` and `wakeup` allow and more. The device acts
between any two of these steps: it takes a head, executes the request of a
head it has taken, writes an executed head into `used`, and makes the entries
it has written visible, any number of them at a time.

Two things are recorded that the kernel does not keep, `ticket` and `done`.
-/

open Function

namespace Xv6.Virtio

/-- The number of virtio descriptors. -/
def NUM : ℕ := 8

instance : NeZero NUM := ⟨by decide⟩

/-- Chained with another descriptor. -/
def VRING_DESC_F_NEXT : BitVec 16 := 1

/-- The device writes, and does not read. -/
def VRING_DESC_F_WRITE : BitVec 16 := 2

/-- Read the disk. -/
def VIRTIO_BLK_T_IN : BitVec 32 := 0

/-- Write the disk. -/
def VIRTIO_BLK_T_OUT : BitVec 32 := 1

section

variable (B : Type)

/-- What a descriptor can point to. -/
inductive Addr where
  | null
  /-- `&disk.ops[i]` -/
  | op (i : Fin NUM)
  /-- `b->data` -/
  | data (b : B)
  /-- `&disk.info[i].status` -/
  | status (i : Fin NUM)
  deriving DecidableEq

/-- A descriptor. -/
structure Desc where
  addr : Addr B
  len : BitVec 32
  flags : BitVec 16
  next : ℕ
  deriving DecidableEq

/-- The header of a request. -/
structure BlkReq where
  type : BitVec 32
  reserved : BitVec 32
  sector : BitVec 64
  deriving DecidableEq

/-- What the driver remembers of a request, under the head of its chain. -/
structure Info where
  b : Option B
  status : BitVec 8
  deriving DecidableEq

/-- A ring of descriptor numbers and the index where it is written next. -/
structure Ring where
  idx : BitVec 16
  ring : Fin NUM → Fin NUM

/-- `struct disk`, up to its lock. -/
structure Disk where
  desc : Fin NUM → Desc B
  avail : Ring
  used : Ring
  free : Fin NUM → Bool
  /-- How far the driver has looked in `used`. -/
  usedIdx : BitVec 16
  info : Fin NUM → Info B
  ops : Fin NUM → BlkReq

end

/-- What can go wrong: the panics of the driver, the use of a null buffer in
the interrupt handler, and a chain that the device cannot make sense of. -/
inductive Fault where
  /-- `"free_desc 1"` -/
  | freeDesc1
  /-- `"free_desc 2"` -/
  | freeDesc2
  /-- `"virtio_disk_intr status"` -/
  | intrStatus
  | nullBuf
  | badChain
  deriving DecidableEq

variable {P H B : Type}

/-! ## Descriptors -/

namespace Disk

/-- Find a free descriptor and mark it non-free. -/
def allocDesc : Prog Fault (Disk B) (Option (Fin NUM)) := do
  let d ← Prog.get
  match (List.finRange NUM).find? d.free with
  | some i =>
    Prog.modify fun d => { d with free := update d.free i false }
    pure (some i)
  | none => pure none

/-- Mark a descriptor as free. -/
def freeDesc (i : ℕ) : Prog Fault (Disk B) Unit := do
  let d ← Prog.get
  if h : i < NUM then
    if d.free ⟨i, h⟩ then Prog.panic .freeDesc2
    else Prog.modify fun d =>
      { d with
        desc := update d.desc ⟨i, h⟩ ⟨.null, 0, 0, 0⟩
        free := update d.free ⟨i, h⟩ true }
  else Prog.panic .freeDesc1

end Disk

/-- The three descriptors of a request. -/
structure Chain where
  head : Fin NUM
  data : Fin NUM
  status : Fin NUM
  deriving DecidableEq

/-- The descriptors of a chain, in order. -/
def Chain.toList (c : Chain) : List (Fin NUM) := [c.head, c.data, c.status]

/-- A call of `virtio_disk_rw`. -/
structure Rw (B : Type) where
  b : B
  write : Bool
  deriving DecidableEq

/-- A request as the device reads it from a chain, with the number it was
published under. -/
structure Request (B : Type) where
  ticket : ℕ
  type : BitVec 32
  sector : BitVec 64
  data : Addr B
  deriving DecidableEq

/-- A descriptor says that another one follows. -/
def Desc.hasNext (d : Desc B) : Bool := d.flags &&& VRING_DESC_F_NEXT != 0

namespace Disk

/-- Allocate three descriptors, or none: those that were found are given back
when there is no third one. -/
def alloc3Desc : Prog Fault (Disk B) (Option Chain) := do
  match ← allocDesc with
  | none => pure none
  | some i =>
    match ← allocDesc with
    | none => do
      freeDesc i
      pure none
    | some j =>
      match ← allocDesc with
      | none => do
        freeDesc i
        freeDesc j
        pure none
      | some k => pure (some ⟨i, j, k⟩)

variable (blockno : B → BitVec 32)

/-- The first sector of a buffer's block. -/
def sector (b : B) : BitVec 64 := (blockno b * (BitVec.ofNat 32 (BSIZE / 512))).setWidth 64

/-- The request that a call is to make. -/
def request (r : Rw B) (k : ℕ) : Request B :=
  ⟨k, if r.write then VIRTIO_BLK_T_OUT else VIRTIO_BLK_T_IN, sector blockno r.b, .data r.b⟩

/-- Format the three descriptors, and record the buffer for
`virtio_disk_intr`. -/
def format (d : Disk B) (r : Rw B) (c : Chain) : Disk B :=
  let ops := update d.ops c.head
    ⟨if r.write then VIRTIO_BLK_T_OUT else VIRTIO_BLK_T_IN, 0, sector blockno r.b⟩
  let desc := update d.desc c.head ⟨.op c.head, 16, VRING_DESC_F_NEXT, c.data⟩
  let desc := update desc c.data
    ⟨.data r.b, BitVec.ofNat 32 BSIZE,
      (if r.write then 0 else VRING_DESC_F_WRITE) ||| VRING_DESC_F_NEXT, c.status⟩
  let desc := update desc c.status ⟨.status c.head, 1, VRING_DESC_F_WRITE, 0⟩
  { d with ops := ops, desc := desc, info := update d.info c.head ⟨some r.b, 0xff⟩ }

/-- The descriptor that a descriptor is chained with. -/
def follow (d : Disk B) (i : Fin NUM) : Option (Fin NUM) :=
  if h : (d.desc i).next < NUM then
    if (d.desc i).hasNext then some ⟨_, h⟩ else none
  else none

/-- The device reads a request: the header, the address of the data and
whose status to write. -/
def read (d : Disk B) (i : Fin NUM) : Option (BlkReq × Addr B × Fin NUM) := do
  let j ← d.follow i
  let k ← d.follow j
  match (d.desc i).addr, (d.desc k).addr with
  | .op o, .status t => some (d.ops o, (d.desc j).addr, t)
  | _, _ => none

/-- `virtio_disk_init` -/
def init : Disk B where
  desc _ := ⟨.null, 0, 0, 0⟩
  avail := ⟨0, fun _ => 0⟩
  used := ⟨0, fun _ => 0⟩
  free _ := true
  usedIdx := 0
  info _ := ⟨none, 0⟩
  ops _ := ⟨0, 0, 0⟩

end Disk

/-! ## The machine -/

/-- Where a process is in `virtio_disk_rw`. -/
inductive Pc (B : Type) where
  | out
  /-- About to take the lock. -/
  | enter (r : Rw B)
  /-- At the top of the loop that allocates. -/
  | alloc (r : Rw B)
  /-- Asleep on `disk.free[0]`. -/
  | sleepFree (r : Rw B)
  /-- The three descriptors are allocated. -/
  | format (r : Rw B) (c : Chain)
  /-- About to write the head of the chain into the ring. -/
  | ring (r : Rw B) (c : Chain)
  /-- About to move `avail->idx` on. -/
  | publish (r : Rw B) (c : Chain)
  /-- About to test `b->disk`. -/
  | wait (r : Rw B) (c : Chain) (k : ℕ)
  /-- Asleep on `b`. -/
  | sleepBuf (r : Rw B) (c : Chain) (k : ℕ)
  /-- Out of the loop. -/
  | clear (r : Rw B) (c : Chain) (k : ℕ)
  /-- In `free_chain`, at the descriptor `i`. The descriptors of the chain
  that are not free yet are recorded; the kernel keeps no such list. -/
  | freeChain (r : Rw B) (k i : ℕ) (todo : List (Fin NUM))
  /-- About to release the lock and return. -/
  | leave (r : Rw B) (k : ℕ)
  deriving DecidableEq

/-- Where an interrupt handler is in `virtio_disk_intr`. -/
inductive IntrPc where
  | out
  /-- About to take the lock. -/
  | enter
  /-- About to compare `disk.used_idx` with `disk.used->idx`. -/
  | test
  /-- In the body of the loop. -/
  | body
  deriving DecidableEq

/-- The device's own state. -/
structure Device where
  /-- How far it has read `avail`. -/
  last : BitVec 16
  /-- The heads it has taken and not served yet. -/
  pending : List (Fin NUM)
  /-- The heads it has served and not written into `used` yet. -/
  executed : List (Fin NUM)
  /-- Where it writes next in `used`. -/
  fill : BitVec 16

variable (P H B) in
/-- A state of driver and device. -/
structure State where
  disk : Disk B
  /-- `b->disk`: the disk owns the buffer. -/
  busy : B → Bool
  lock : Option (P ⊕ H)
  pc : P → Pc B
  ipc : H → IntrPc
  dev : Device
  /-- The number of the last request published with this head. -/
  ticket : Fin NUM → ℕ
  serial : ℕ
  done : List (Request B)

variable (P H B) in
/-- What can happen. -/
inductive Action where
  /-- `virtio_disk_rw(b, write)` is called. -/
  | call (p : P) (r : Rw B)
  /-- A process does its next step. -/
  | proc (p : P)
  /-- An interrupt is raised. -/
  | interrupt (h : H)
  /-- An interrupt handler does its next step. -/
  | intr (h : H)
  /-- The device takes the next head from `avail`. -/
  | take
  /-- The device executes the request of a head it has taken. -/
  | execute (i : Fin NUM)
  /-- The device writes a head into `used`. -/
  | enter (i : Fin NUM)
  /-- The device makes what it has written into `used` visible. -/
  | reveal
  deriving DecidableEq

namespace State

variable [DecidableEq P] [DecidableEq H] [DecidableEq B] (blockno : B → BitVec 32)

/-- A process moves to another place. -/
def goto (s : State P H B) (p : P) (c : Pc B) : State P H B :=
  { s with pc := update s.pc p c }

/-- An interrupt handler moves to another place. -/
def igoto (s : State P H B) (h : H) (c : IntrPc) : State P H B :=
  { s with ipc := update s.ipc h c }

/-- `acquire(&disk.vdisk_lock)`, on the way to another place. -/
def acquire (s : State P H B) (p : P) (c : Pc B) : Outcome (State P H B) Fault :=
  if s.lock = none then .next { s.goto p c with lock := some (.inl p) } else .disabled

/-- **A step of `virtio_disk_rw`.** -/
def virtioDiskRw (s : State P H B) (p : P) : Outcome (State P H B) Fault :=
  match s.pc p with
  | .out => .disabled
  | .enter r | .sleepFree r => s.acquire p (.alloc r)
  | .alloc r =>
    match Disk.alloc3Desc s.disk with
    | .ok (some c, d) => .next { s.goto p (.format r c) with disk := d }
    | .ok (none, d) => .next { s.goto p (.sleepFree r) with disk := d, lock := none }
    | .error e => .panic e
  | .format r c =>
    .next { s.goto p (.ring r c) with
      disk := s.disk.format blockno r c
      busy := update s.busy r.b true }
  | .ring r c =>
    .next { s.goto p (.publish r c) with
      disk.avail.ring :=
        update s.disk.avail.ring (RingQueue.slot NUM s.disk.avail.idx) c.head }
  | .publish r c =>
    .next { s.goto p (.wait r c s.serial) with
      disk.avail.idx := s.disk.avail.idx + 1
      ticket := update s.ticket c.head s.serial
      serial := s.serial + 1 }
  | .wait r c k =>
    if s.busy r.b then .next { s.goto p (.sleepBuf r c k) with lock := none }
    else .next (s.goto p (.clear r c k))
  | .sleepBuf r c k => s.acquire p (.wait r c k)
  | .clear r c k =>
    .next { s.goto p (.freeChain r k c.head c.toList) with
      disk.info := update s.disk.info c.head { s.disk.info c.head with b := none } }
  | .freeChain r k i todo =>
    if h : i < NUM then
      let d := s.disk.desc ⟨i, h⟩
      match Disk.freeDesc i s.disk with
      | .ok (_, disk) =>
        let c := if d.hasNext then Pc.freeChain r k d.next todo.tail else .leave r k
        .next { s.goto p c with disk := disk }
      | .error e => .panic e
    else .panic .freeDesc1
  | .leave _ _ => .next { s.goto p .out with lock := none }

/-- **A step of `virtio_disk_intr`.** -/
def virtioDiskIntr (s : State P H B) (h : H) : Outcome (State P H B) Fault :=
  match s.ipc h with
  | .out => .disabled
  | .enter =>
    if s.lock = none then .next { s.igoto h .test with lock := some (.inr h) } else .disabled
  | .test =>
    if s.disk.usedIdx ≠ s.disk.used.idx then .next (s.igoto h .body)
    else .next { s.igoto h .out with lock := none }
  | .body =>
    let id := s.disk.used.ring (RingQueue.slot NUM s.disk.usedIdx)
    if (s.disk.info id).status ≠ 0 then .panic .intrStatus
    else
      match (s.disk.info id).b with
      | none => .panic .nullBuf
      | some b =>
        .next { s.igoto h .test with
          busy := update s.busy b false
          disk.usedIdx := s.disk.usedIdx + 1 }

/-- **One step** of driver or device. -/
def step (s : State P H B) : Action P H B → Outcome (State P H B) Fault
  | .call p r => if s.pc p = .out then .next (s.goto p (.enter r)) else .disabled
  | .proc p => s.virtioDiskRw blockno p
  | .interrupt h => if s.ipc h = .out then .next (s.igoto h .enter) else .disabled
  | .intr h => s.virtioDiskIntr h
  | .take =>
    if s.dev.last ≠ s.disk.avail.idx then
      .next { s with
        dev.last := s.dev.last + 1
        dev.pending :=
          s.dev.pending ++ [s.disk.avail.ring (RingQueue.slot NUM s.dev.last)] }
    else .disabled
  | .execute i =>
    if i ∈ s.dev.pending then
      match s.disk.read i with
      | some (req, data, t) =>
        .next { s with
          disk.info := update s.disk.info t { s.disk.info t with status := 0 }
          dev.pending := s.dev.pending.erase i
          dev.executed := s.dev.executed ++ [i]
          done := s.done ++ [⟨s.ticket i, req.type, req.sector, data⟩] }
      | none => .panic .badChain
    else .disabled
  | .enter i =>
    if i ∈ s.dev.executed then
      .next { s with
        disk.used.ring :=
          update s.disk.used.ring (RingQueue.slot NUM s.dev.fill) i
        dev.executed := s.dev.executed.erase i
        dev.fill := s.dev.fill + 1 }
    else .disabled
  | .reveal => .next { s with disk.used.idx := s.dev.fill }

end State

/-- The call a process is in. -/
def Pc.call : Pc B → Option (Rw B)
  | .out => none
  | .enter r | .alloc r | .sleepFree r | .format r _ | .ring r _ | .publish r _ | .wait r _ _
  | .sleepBuf r _ _ | .clear r _ _ | .freeChain r _ _ _ | .leave r _ => some r

/-- The buffer of the call a process is in. -/
def Pc.buf (c : Pc B) : Option B := c.call.map Rw.b

namespace State

/-- **The rule for callers**: a buffer is locked by its caller, so no two
calls are about the same one. -/
def Distinct (s : State P H B) : Action P H B → Prop
  | .call _ r => ∀ q, (s.pc q).buf ≠ some r.b
  | _ => True

/-- After `virtio_disk_init`. -/
def initial : State P H B where
  disk := .init
  busy _ := false
  lock := none
  pc _ := .out
  ipc _ := .out
  dev := ⟨0, [], [], 0⟩
  ticket _ := 0
  serial := 0
  done := []

end State

end Xv6.Virtio
