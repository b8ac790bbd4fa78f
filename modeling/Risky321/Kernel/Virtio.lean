/-
Risky321.Kernel.Virtio — the block driver and its device, from `virtio.c`.

Driver and device share the virtqueue and one request block. The driver is
`virtio_rw`, one step per statement that touches the shared memory (a
descriptor is filled in one step); the compiler keeps that order because
of the barrier in `virtq_kick` and because `used_index` is volatile. The
device is what the virtio specification says of a block device: it wakes
up at a notification, takes the next entry of the avail ring, follows its
descriptors to the request, moves the data, writes the status, and only
then enters the request in the used ring and advances `used.index`.

`kicked` and `completed` count the requests handed over and completed
since the start. No step looks at them: they say what the 16-bit indices,
which wrap, stand for.
-/
import Mathlib.Logic.Function.Basic
import Mathlib.Tactic.Common

namespace Risky321.Kernel

/-! ## §1 The shared memory -/

/-- The bytes of a sector (`SECTOR_SIZE` is 512). -/
abbrev Sector : Type := Fin 512 → UInt8

/-- `VIRTQ_ENTRY_NUM`. -/
abbrev virtqEntryNum : Nat := 16

/-- `VIRTQ_DESC_F_NEXT`, `VIRTQ_DESC_F_WRITE`, `VIRTIO_BLK_T_IN` and `VIRTIO_BLK_T_OUT`. -/
abbrev virtqDescFNext : UInt16 := 1
abbrev virtqDescFWrite : UInt16 := 2
abbrev virtioBlkTIn : UInt32 := 0
abbrev virtioBlkTOut : UInt32 := 1

/-- `struct virtq_desc`. -/
structure VirtqDesc where
  addr : UInt64
  len : UInt32
  flags : UInt16
  next : UInt16
  deriving DecidableEq, Repr

/-- `struct virtio_blk_req`, less `reserved`. -/
structure VirtioBlkReq where
  type : UInt32
  sector : UInt64
  data : Sector
  status : UInt8

/-- The members of `struct virtio_virtq` that change: the descriptors, the
two rings with their indices, and the driver's own `last_used_index`. -/
structure VirtioVirtq where
  descs : Nat → VirtqDesc
  availIndex : UInt16
  availRing : Nat → UInt16
  usedIndex : UInt16
  usedRing : Nat → UInt32 × UInt32
  lastUsedIndex : UInt16

/-! ## §2 The two parties -/

/-- The arguments of a call of `virtio_rw`; `buf` is what the buffer holds. -/
structure VirtioCall where
  buf : Sector
  sector : UInt32
  isWrite : Bool

/-- Where the driver is in `virtio_rw`, named after the next statement. -/
inductive DriverPc
  | idle
  | setSector | setType | setData | setDesc0 | setDesc1 | setDesc2
  | kickRing | kickIndex | kickNotify | kickLastUsed
  | busy | checkStatus | copyOut
  deriving DecidableEq, Repr

/-- How the last call returned. -/
inductive VirtioOutcome
  | none | outOfRange | failed | success
  deriving DecidableEq, Repr

/-- What the device is doing: nothing, holding the head of a chain, or
holding it with the status it is going to report. -/
inductive DevicePhase
  | idle
  | fetched (head : UInt16)
  | transferred (head : UInt16) (status : UInt8)
  | reported (head : UInt16)
  deriving DecidableEq, Repr

/-- Driver, device, and what they share. -/
structure VirtioState where
  vq : VirtioVirtq
  req : VirtioBlkReq
  pc : DriverPc
  call : VirtioCall
  outcome : VirtioOutcome
  phase : DevicePhase
  notified : Bool
  lastAvail : UInt16
  disk : UInt64 → Sector
  kicked : Nat
  completed : Nat

/-- `virtq_is_busy`. -/
def virtqIsBusy (vq : VirtioVirtq) : Bool := vq.lastUsedIndex != vq.usedIndex

/-- What is fixed: `blk_req_paddr` and `blk_capacity`. -/
structure VirtioConfig where
  blkReqPaddr : UInt64
  blkCapacity : UInt64

/-- `offsetof(struct virtio_blk_req, data)` and `status`. -/
abbrev offsetofData : UInt64 := 16
abbrev offsetofStatus : UInt64 := 528

variable (cfg : VirtioConfig)

/-- The next statement of `virtio_rw`. -/
def driverStep (s : VirtioState) : Option VirtioState :=
  match s.pc with
  | .idle => none
  | .setSector => some { s with req.sector := s.call.sector.toUInt64, pc := .setType }
  | .setType =>
    some { s with req.type := if s.call.isWrite then virtioBlkTOut else virtioBlkTIn, pc := .setData }
  | .setData =>
    some { s with req.data := if s.call.isWrite then s.call.buf else s.req.data, pc := .setDesc0 }
  | .setDesc0 =>
    some { s with
      vq.descs := Function.update s.vq.descs 0
        { addr := cfg.blkReqPaddr, len := 16, flags := virtqDescFNext, next := 1 }
      pc := .setDesc1 }
  | .setDesc1 =>
    some { s with
      vq.descs := Function.update s.vq.descs 1
        { addr := cfg.blkReqPaddr + offsetofData
          len := 512
          flags := virtqDescFNext ||| (if s.call.isWrite then 0 else virtqDescFWrite)
          next := 2 }
      pc := .setDesc2 }
  | .setDesc2 =>
    some { s with
      vq.descs := Function.update s.vq.descs 2
        { s.vq.descs 2 with addr := cfg.blkReqPaddr + offsetofStatus, len := 1,
                            flags := virtqDescFWrite }
      pc := .kickRing }
  | .kickRing =>
    some { s with
      vq.availRing := Function.update s.vq.availRing (s.vq.availIndex.toNat % virtqEntryNum) 0
      pc := .kickIndex }
  | .kickIndex =>
    some { s with vq.availIndex := s.vq.availIndex + 1, pc := .kickNotify, kicked := s.kicked + 1 }
  | .kickNotify => some { s with notified := true, pc := .kickLastUsed }
  | .kickLastUsed => some { s with vq.lastUsedIndex := s.vq.lastUsedIndex + 1, pc := .busy }
  | .busy => some { s with pc := if virtqIsBusy s.vq then .busy else .checkStatus }
  | .checkStatus =>
    if s.req.status ≠ 0 then
      some { s with pc := .idle, outcome := .failed }
    else
      some { s with pc := .copyOut }
  | .copyOut =>
    some { s with
      call.buf := if s.call.isWrite then s.call.buf else s.req.data
      pc := .idle
      outcome := .success }

/-- The start of `virtio_rw`, with the check of the sector number. -/
def driverCall (s : VirtioState) (c : VirtioCall) : Option VirtioState :=
  if s.pc ≠ .idle then
    none
  else if cfg.blkCapacity / 512 ≤ c.sector.toUInt64 then
    some { s with call := c, outcome := .outOfRange }
  else
    some { s with call := c, outcome := .none, pc := .setSector }

/-- The descriptors behind `head`: the request header, the data and the status.
`none` when they do not describe the driver's request block. -/
def deviceChain (s : VirtioState) (head : UInt16) : Option (VirtqDesc × VirtqDesc × VirtqDesc) :=
  let d0 := s.vq.descs head.toNat
  let d1 := s.vq.descs d0.next.toNat
  let d2 := s.vq.descs d1.next.toNat
  if d0.flags &&& virtqDescFNext ≠ 0 ∧ d1.flags &&& virtqDescFNext ≠ 0 ∧
      d2.flags &&& virtqDescFWrite ≠ 0 ∧ d0.addr = cfg.blkReqPaddr ∧ d0.len = 16 ∧
      d1.addr = cfg.blkReqPaddr + offsetofData ∧ d1.len = 512 ∧
      d2.addr = cfg.blkReqPaddr + offsetofStatus ∧ d2.len = 1 then
    some (d0, d1, d2)
  else
    none

/-- A step of the device. -/
inductive DeviceOp
  | fetch
  | transfer
  | fail (status : UInt8) (junk : Sector)
  | report
  | complete
  | rest

/-- The device takes the next entry, moves the data or fails, writes the
status, enters the request in the used ring; when the avail ring is empty
it may go to sleep until the next notification. A failed read may have
written anything to the data buffer. -/
def deviceStep (s : VirtioState) (op : DeviceOp) : Option VirtioState :=
  match op, s.phase with
  | .fetch, .idle =>
    if s.notified ∧ s.lastAvail ≠ s.vq.availIndex then
      some { s with
        phase := .fetched (s.vq.availRing (s.lastAvail.toNat % virtqEntryNum))
        lastAvail := s.lastAvail + 1 }
    else
      none
  | .transfer, .fetched head =>
    match deviceChain cfg s head with
    | none => none
    | some (_, d1, _) =>
      if s.req.type = virtioBlkTIn ∧ d1.flags &&& virtqDescFWrite ≠ 0 then
        some { s with req.data := s.disk s.req.sector, phase := .transferred head 0 }
      else if s.req.type = virtioBlkTOut then
        some { s with
          disk := Function.update s.disk s.req.sector s.req.data, phase := .transferred head 0 }
      else
        none
  | .fail status junk, .fetched head =>
    match deviceChain cfg s head with
    | none => none
    | some (_, d1, _) =>
      if status = 0 then
        none
      else
        some { s with
          req.data := if d1.flags &&& virtqDescFWrite ≠ 0 then junk else s.req.data
          phase := .transferred head status }
  | .report, .transferred head status =>
    some { s with req.status := status, phase := .reported head }
  | .complete, .reported head =>
    some { s with
      vq.usedRing := Function.update s.vq.usedRing (s.vq.usedIndex.toNat % virtqEntryNum)
        (head.toUInt32, 513)
      vq.usedIndex := s.vq.usedIndex + 1
      phase := .idle
      completed := s.completed + 1 }
  | .rest, .idle =>
    if s.lastAvail = s.vq.availIndex then some { s with notified := false } else none
  | _, _ => none

/-- A step of either party, or a new call. -/
inductive VirtioOp
  | call (c : VirtioCall)
  | driver
  | device (op : DeviceOp)

def virtioStep (s : VirtioState) : VirtioOp → Option VirtioState
  | .call c => driverCall cfg s c
  | .driver => driverStep cfg s
  | .device op => deviceStep cfg s op

/-- After `virtio_blk_init`: the queue is zero-filled, no call has been made.
The request block, the disk and what the ring cells hold are arbitrary. -/
structure VirtioInit (s : VirtioState) : Prop where
  availIndex : s.vq.availIndex = 0
  usedIndex : s.vq.usedIndex = 0
  lastUsedIndex : s.vq.lastUsedIndex = 0
  pc : s.pc = .idle
  outcome : s.outcome = .none
  phase : s.phase = .idle
  notified : s.notified = false
  lastAvail : s.lastAvail = 0
  kicked : s.kicked = 0
  completed : s.completed = 0

end Risky321.Kernel
