import DeisoXv6.Data.Ring
import DeisoXv6.Kernel.Parameters

/-! virtio_disk.c and the device behind it. The driver runs under vdisk_lock; a step of it is a lock operation
or one of the stores that the device can see the order of. The device is not bound by the lock: it fetches the
chains of the avail ring one by one, completes them in any order and appends them to the used ring. Descriptor
numbers are below NUM wherever they are stored, so that they are natural numbers here. The transfer of the data
itself is left out. -/

set_option autoImplicit false

namespace DeisoXv6.Virtio

open Function

def NUM : Nat := 8

instance : NeZero NUM := ⟨by decide⟩

/-- What a descriptor points to: `disk.ops[i]`, `b->data` or `disk.info[i].status`. -/
inductive Addr (Buf : Type) where
  | null
  | op : Nat → Addr Buf
  | data : Buf → Addr Buf
  | status : Nat → Addr Buf

/-- VRING_DESC_F_NEXT and VRING_DESC_F_WRITE. -/
structure Flags where
  next : Bool
  write : Bool

structure Desc (Buf : Type) where
  addr : Addr Buf
  len : Nat
  flags : Flags
  next : Nat

structure Info (Buf : Type) where
  b : Option Buf
  status : BitVec 8

/-- `struct virtio_blk_req`; `out` is VIRTIO_BLK_T_OUT. -/
structure Req where
  out : Bool
  sector : Nat

/-- `struct disk`, the fields `disk` and `blockno` of the buffers, and what the device keeps to itself. -/
structure Disk (Buf : Type) where
  desc : Nat → Desc Buf
  availRing : Fin NUM → Nat
  /-- `disk.avail->idx`. -/
  availIdx : BitVec 16
  usedRing : Fin NUM → Nat
  /-- `disk.used->idx`. -/
  usedIdx : BitVec 16
  free : Nat → Bool
  /-- `disk.used_idx`: how far the driver has looked. -/
  seenIdx : BitVec 16
  info : Nat → Info Buf
  ops : Nat → Req
  onDisk : Buf → Bool
  blockno : Buf → BitVec 32
  /-- How far the device has read the avail ring. -/
  lastAvail : BitVec 16
  /-- The chains that the device works on. -/
  fetched : List Nat

/-- The descriptors of a request: `idx` in virtio_disk_rw. -/
structure Chain where
  head : Nat
  data : Nat
  status : Nat
  deriving DecidableEq

inductive Call (Buf : Type) where
  | rw (b : Buf) (write : Bool)
  | intr

inductive Point (Buf : Type) where
  | idle
  | enters (b : Buf) (write : Bool)
  | allocs (b : Buf) (write : Bool)
  | allocSleeps (b : Buf) (write : Bool) (woken : Bool)
  | formats (b : Buf) (write : Bool) (idx : Chain)
  | offers (b : Buf) (idx : Chain)
  | publishes (b : Buf) (idx : Chain)
  | waits (b : Buf) (idx : Chain)
  | diskSleeps (b : Buf) (idx : Chain) (woken : Bool)
  | finishes (b : Buf) (idx : Chain)
  | intrEnters
  | intrLoops
  | intrTakes
  deriving DecidableEq

inductive WaitChan (Buf : Type) where
  | free
  | buf (b : Buf)
  deriving DecidableEq

inductive Fault where
  | freeDesc1
  | freeDesc2
  | intrStatus
  | nullBuf
  /-- The device writes a status to somewhere else. -/
  | wildStatus
  | endless

inductive Event (Tid Buf : Type) where
  | call (t : Tid) (call : Call Buf)
  | run (t : Tid)
  /-- A process that sleeps is killed. -/
  | kill (t : Tid)
  | fetch
  | complete (head : Nat)

structure State (Tid Buf : Type) where
  disk : Disk Buf
  lock : Option Tid
  point : Tid → Point Buf

namespace Point

variable {Buf : Type}

def sleepsOn : Point Buf → Option (WaitChan Buf)
  | allocSleeps _ _ _ => some .free
  | diskSleeps b _ _ => some (.buf b)
  | _ => none

def woken : Point Buf → Point Buf
  | allocSleeps b write _ => allocSleeps b write true
  | diskSleeps b idx _ => diskSleeps b idx true
  | point => point

def buffer : Point Buf → Option Buf
  | enters b _ | allocs b _ | allocSleeps b _ _ | formats b _ _ | offers b _ | publishes b _ | waits b _
  | diskSleeps b _ _ | finishes b _ => some b
  | idle | intrEnters | intrLoops | intrTakes => none

end Point

namespace Disk

variable {Buf : Type}

def taken (s : Disk Buf) (i : Nat) : Disk Buf := { s with free := update s.free i false }

def allocDesc (s : Disk Buf) : Option (Nat × Disk Buf) :=
  ((List.range NUM).find? s.free).map fun i => (i, s.taken i)

def freed (s : Disk Buf) (i : Nat) : Disk Buf :=
  { s with
    desc := update s.desc i ⟨.null, 0, ⟨false, false⟩, 0⟩
    free := update s.free i true }

/-- `disk.avail->ring[disk.avail->idx % NUM] = idx[0]`. -/
def offer (s : Disk Buf) (idx : Chain) : Disk Buf :=
  { s with availRing := update s.availRing (Ring.slot NUM s.availIdx) idx.head }

/-- `disk.avail->idx += 1`. -/
def publish (s : Disk Buf) : Disk Buf := { s with availIdx := s.availIdx + 1#16 }

/-- `disk.info[idx[0]].b = 0`. -/
def forget (s : Disk Buf) (i : Nat) : Disk Buf :=
  { s with info := update s.info i { s.info i with b := none } }

variable [DecidableEq Buf]

/-- The part of virtio_disk_rw between alloc3_desc and the avail ring. -/
def format (s : Disk Buf) (b : Buf) (write : Bool) (idx : Chain) : Disk Buf :=
  let desc := update s.desc idx.head ⟨.op idx.head, 16, ⟨true, false⟩, idx.data⟩
  let desc := update desc idx.data ⟨.data b, BSIZE, ⟨true, !write⟩, idx.status⟩
  let desc := update desc idx.status ⟨.status idx.head, 1, ⟨false, true⟩, 0⟩
  { s with
    ops := update s.ops idx.head ⟨write, (s.blockno b * BitVec.ofNat 32 (BSIZE / 512)).toNat⟩
    desc := desc
    info := update s.info idx.head ⟨some b, 0xff⟩
    onDisk := update s.onDisk b true }

/-- `disk.used->ring[disk.used_idx % NUM].id`. -/
def nextUsed (s : Disk Buf) : Nat := s.usedRing (Ring.slot NUM s.seenIdx)

def clear (s : Disk Buf) (b : Buf) : Disk Buf :=
  { s with onDisk := update s.onDisk b false, seenIdx := s.seenIdx + 1#16 }

/-- One turn of virtio_disk_intr, with the buffer that it wakes up. -/
def take (s : Disk Buf) : Except Fault (Buf × Disk Buf) :=
  if (s.info s.nextUsed).status ≠ 0 then throw .intrStatus
  else match (s.info s.nextUsed).b with
    | none => throw .nullBuf
    | some b => pure (b, s.clear b)

/-- The device reads the next entry of the avail ring. -/
def fetch (s : Disk Buf) : Option (Disk Buf) :=
  if s.lastAvail = s.availIdx then none
  else some { s with
    fetched := s.fetched ++ [s.availRing (Ring.slot NUM s.lastAvail)]
    lastAvail := s.lastAvail + 1#16 }

/-- The device writes a status of 0 to `disk.info[i]` and appends a chain to the used ring. -/
def report (s : Disk Buf) (i head : Nat) : Disk Buf :=
  { s with
    info := update s.info i { s.info i with status := 0 }
    usedRing := update s.usedRing (Ring.slot NUM s.usedIdx) head
    usedIdx := s.usedIdx + 1#16
    fetched := s.fetched.erase head }

/-- The device is done with a chain, whose last descriptor says where the status goes. -/
def complete (s : Disk Buf) (head : Nat) : Except Fault (Option (Disk Buf)) :=
  if head ∈ s.fetched then
    match (s.desc (s.desc (s.desc head).next).next).addr with
    | .status i => pure (some (s.report i head))
    | _ => throw .wildStatus
  else pure none

def init (blockno : Buf → BitVec 32) : Disk Buf where
  desc _ := ⟨.null, 0, ⟨false, false⟩, 0⟩
  availRing _ := 0
  availIdx := 0
  usedRing _ := 0
  usedIdx := 0
  free _ := true
  seenIdx := 0
  info _ := ⟨none, 0⟩
  ops _ := ⟨false, 0⟩
  onDisk _ := false
  blockno := blockno
  lastAvail := 0
  fetched := []

end Disk

namespace State

variable {Tid Buf : Type} [DecidableEq Tid] [DecidableEq Buf]

def go (s : State Tid Buf) (t : Tid) (point : Point Buf) : State Tid Buf :=
  { s with point := update s.point t point }

def wakeup (s : State Tid Buf) (chan : WaitChan Buf) : State Tid Buf :=
  { s with point := fun t => if (s.point t).sleepsOn = some chan then (s.point t).woken else s.point t }

def acquire (s : State Tid Buf) (t : Tid) (point : Point Buf) : Option (State Tid Buf) :=
  if s.lock = none then some { s.go t point with lock := some t } else none

def release (s : State Tid Buf) (t : Tid) (point : Point Buf) : State Tid Buf :=
  { s.go t point with lock := none }

def freeDesc (s : State Tid Buf) (i : Nat) : Except Fault (State Tid Buf) :=
  if NUM ≤ i then throw .freeDesc1
  else if s.disk.free i then throw .freeDesc2
  else pure ({ s with disk := s.disk.freed i }.wakeup .free)

/-- alloc3_desc, its loops unrolled. -/
def alloc3Desc (s : State Tid Buf) : Except Fault (Option Chain × State Tid Buf) :=
  match s.disk.allocDesc with
  | none => pure (none, s)
  | some (head, disk) => match disk.allocDesc with
    | none => do
      let s ← { s with disk := disk }.freeDesc head
      pure (none, s)
    | some (data, disk) => match disk.allocDesc with
      | none => do
        let s ← { s with disk := disk }.freeDesc head
        let s ← s.freeDesc data
        pure (none, s)
      | some (status, disk) => pure (some ⟨head, data, status⟩, { s with disk := disk })

/-- free_chain. Every turn frees a descriptor or panics, so that NUM + 1 turns are enough. -/
def freeChain : Nat → State Tid Buf → Nat → Except Fault (State Tid Buf)
  | 0, _, _ => throw .endless
  | fuel + 1, s, i => do
    let next ← s.freeDesc i
    if (s.disk.desc i).flags.next then freeChain fuel next (s.disk.desc i).next else pure next

/-- A step of `t`; `none` if it waits for the lock or for a wakeup. -/
def run (s : State Tid Buf) (t : Tid) : Except Fault (Option (State Tid Buf)) :=
  match s.point t with
  | .idle => pure none
  | .enters b write => pure (s.acquire t (.allocs b write))
  | .allocs b write => do
    let (idx, s) ← s.alloc3Desc
    match idx with
    | some idx => pure (some (s.go t (.formats b write idx)))
    | none => pure (some (s.release t (.allocSleeps b write false)))
  | .allocSleeps b write woken => pure (if woken then s.acquire t (.allocs b write) else none)
  | .formats b write idx => pure (some { s.go t (.offers b idx) with disk := s.disk.format b write idx })
  | .offers b idx => pure (some { s.go t (.publishes b idx) with disk := s.disk.offer idx })
  | .publishes b idx => pure (some { s.go t (.waits b idx) with disk := s.disk.publish })
  | .waits b idx =>
    if s.disk.onDisk b then pure (some (s.release t (.diskSleeps b idx false)))
    else pure (some (s.go t (.finishes b idx)))
  | .diskSleeps b idx woken => pure (if woken then s.acquire t (.waits b idx) else none)
  | .finishes _ idx => do
    let s ← { s with disk := s.disk.forget idx.head }.freeChain (NUM + 1) idx.head
    pure (some (s.release t .idle))
  | .intrEnters => pure (s.acquire t .intrLoops)
  | .intrLoops =>
    if s.disk.seenIdx ≠ s.disk.usedIdx then pure (some (s.go t .intrTakes))
    else pure (some (s.release t .idle))
  | .intrTakes => do
    let (b, disk) ← s.disk.take
    pure (some (({ s with disk := disk }.wakeup (.buf b)).go t .intrLoops))

def step (s : State Tid Buf) : Event Tid Buf → Except Fault (Option (State Tid Buf))
  | .call t call => match s.point t, call with
    | .idle, .rw b write => pure (some (s.go t (.enters b write)))
    | .idle, .intr => pure (some (s.go t .intrEnters))
    | _, _ => pure none
  | .run t => s.run t
  | .kill t => pure (some (s.go t (s.point t).woken))
  | .fetch => pure (s.disk.fetch.map fun disk => { s with disk := disk })
  | .complete head => do
    let disk ← s.disk.complete head
    pure (disk.map fun disk => { s with disk := disk })

def init (blockno : Buf → BitVec 32) : State Tid Buf where
  disk := .init blockno
  lock := none
  point _ := .idle

end State

end DeisoXv6.Virtio
