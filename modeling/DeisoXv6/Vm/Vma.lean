import DeisoXv6.Data.LinkedList
import DeisoXv6.Kernel.Fault
import DeisoXv6.Proc.Table

/-! The pool of VMAs and the lists that sys_mmap, sys_munmap, sys_sbrk and fork make of it.

Each process embeds the first element of its list, `vma_start`; the others are slots of the pool.
Addresses and lengths are uint64, written as naturals with the reduction modulo 2^64 at every
operation that can leave the range. What the calls do to memory and files is not part of this
module: vma_free_mem and uvmcopy change no VMA. -/

set_option autoImplicit false

namespace DeisoXv6

open Function LinkedList

def u64 (x : Nat) : Nat := x % 2 ^ 64

def sub64 (x y : Nat) : Nat := u64 (x + (2 ^ 64 - u64 y))

def sext (x : Int) : Nat := (x % 2 ^ 64).toNat

def pgrounddown (a : Nat) : Nat := a - a % PGSIZE

def pgroundup (sz : Nat) : Nat := pgrounddown (u64 (sz + PGSIZE - 1))

def PROT_READ : BitVec 32 := 1
def PROT_WRITE : BitVec 32 := 2
def PROT_EXEC : BitVec 32 := 4
def MAP_SHARED : BitVec 32 := 1
def MAP_PRIVATE : BitVec 32 := 2

def has (x mask : BitVec 32) : Bool := x &&& mask != 0

abbrev VmaId := Fin NVMA

instance : NeZero NVMA := ⟨by decide⟩

abbrev FileId := Fin NFILE

instance : NeZero NFILE := ⟨by decide⟩

structure Vma where
  used : Bool
  start : Nat
  length : Nat
  fileLength : Nat
  file : Option FileId
  offset : Nat
  permission : BitVec 32
  flags : BitVec 32
  next : Option VmaId

def Vma.free : Vma := ⟨false, 0, 0, 0, none, 0, 0, 0, none⟩

def Vma.stop (v : Vma) : Nat := u64 (v.start + v.length)

/-- A pointer to a VMA: the first one of a process or a slot of the pool. -/
inductive VmaRef where
  | start : ProcId → VmaRef
  | slot : VmaId → VmaRef
  deriving DecidableEq

structure VmaTable where
  slot : VmaId → Vma
  start : ProcId → Vma
  heap : ProcId → Option VmaId

namespace VmaTable

variable (t : VmaTable)

def get : VmaRef → Vma
  | .start p => t.start p
  | .slot i => t.slot i

def modify (f : Vma → Vma) : VmaRef → VmaTable
  | .start p => { t with start := update t.start p (f (t.start p)) }
  | .slot i => { t with slot := update t.slot i (f (t.slot i)) }

def setNext (r : VmaRef) (next : Option VmaId) : VmaTable := t.modify ({ · with next }) r

def next (r : VmaRef) : Option VmaRef := (t.get r).next.map .slot

/-- The list of a process from `&p->vma_start` on. The loops below run over it; a list with a cycle
has no end. -/
def refs (p : ProcId) : Except Fault (List VmaRef) :=
  match follow t.next (NVMA + 1) (some (.start p)) with
  | some l => .ok l
  | none => .error .endless

@[irreducible] def vmaAlloc : Option VmaId := (List.finRange NVMA).find? fun i => !(t.slot i).used

def availableSpace (it next : VmaRef) : Nat :=
  sub64 (pgrounddown (t.get it).start) (pgroundup (t.get next).stop)

/-- The element behind which sys_mmap puts a mapping. -/
def mmapGap (length : Nat) : List VmaRef → Option VmaRef
  | it :: next :: rest =>
    if t.availableSpace it next ≥ pgroundup length then some it else mmapGap length (next :: rest)
  | _ => none

/-- What sys_mmap is called with, once the descriptor is resolved. -/
structure Mmap where
  file : FileId
  readable : Bool
  writable : Bool
  length : UInt64
  prot : BitVec 32
  flags : BitVec 32
  offset : UInt64

def Mmap.permitted (call : Mmap) : Bool :=
  !(has call.prot PROT_WRITE && has call.flags MAP_SHARED && !call.writable) &&
    !(has call.prot PROT_READ && !call.readable)

def Mmap.vma (call : Mmap) (it : Vma) : Vma where
  used := true
  start := sub64 (pgrounddown it.start) (pgroundup call.length.toNat)
  length := call.length.toNat
  fileLength := call.length.toNat
  file := some call.file
  offset := call.offset.toNat
  permission := call.prot
  flags := call.flags
  next := it.next

def mmap (p : ProcId) (call : Mmap) : Except Fault (Option Nat × VmaTable) :=
  if call.permitted = false then .ok (none, t)
  else match t.refs p with
    | .error fault => .error fault
    | .ok refs => match t.mmapGap call.length.toNat refs, t.vmaAlloc with
      | some it, some i =>
        let vma := call.vma (t.get it)
        .ok (some vma.start, (t.modify (fun _ => vma) (.slot i)).setNext it (some i))
      | _, _ => .ok (none, t)

inductive Munmap where
  | notFound
  | whole : Option VmaRef → VmaRef → Munmap
  | front : VmaRef → Munmap
  | back : VmaRef → Munmap
  | refused

def munmapBranch (addr length : Nat) (prev : Option VmaRef) (it : VmaRef) : Munmap :=
  if (t.get it).start = addr ∧ (t.get it).length = length then .whole prev it
  else if (t.get it).start = addr then
    if pgrounddown length = length then .front it else .refused
  else if (t.get it).stop = u64 (addr + length) then .back it
  else .refused

/-- The loop never looks at the last element of the list. -/
def munmapFind (addr length : Nat) : Option VmaRef → List VmaRef → Munmap
  | prev, it :: next :: rest =>
    if (t.get it).start ≤ addr ∧ (t.get it).stop ≥ u64 (addr + length)
    then t.munmapBranch addr length prev it
    else munmapFind addr length (some it) (next :: rest)
  | _, _ => .notFound

/-- The new start, offset and length after a prefix has gone. -/
def cutFront (addr length : Nat) (v : Vma) : Vma :=
  { v with
    start := u64 (addr + length)
    offset := u64 (v.offset + length)
    length := sub64 v.length length }

def cutBack (length : Nat) (v : Vma) : Vma := { v with length := sub64 v.length length }

def munmapTake (addr length : Nat) : Munmap → Except Fault (Option Nat × VmaTable)
  | .notFound | .refused => .ok (none, t)
  -- prev->next = it->next, with prev still 0
  | .whole none _ => .error .nullPointer
  | .whole (some prev) it =>
    .ok (some 0, (t.setNext prev (t.get it).next).modify (fun _ => .free) it)
  | .front it => .ok (some 0, t.modify (cutFront addr length) it)
  | .back it => .ok (some 0, t.modify (cutBack length) it)

def munmap (p : ProcId) (addr length : Nat) : Except Fault (Option Nat × VmaTable) :=
  match t.refs p with
  | .error fault => .error fault
  | .ok refs => t.munmapTake addr length (t.munmapFind addr length none refs)

def before (heap : VmaRef) : List VmaRef → Option VmaRef
  | it :: next :: rest => if next = heap then some it else before heap (next :: rest)
  | _ => none

def resize (n : Int) (v : Vma) : Vma := { v with length := u64 (v.length + sext n) }

def sbrk (p : ProcId) (n : Int) : Except Fault (Option Nat × VmaTable) :=
  match t.heap p with
  | none => .error .nullPointer
  | some h =>
    let heap := t.slot h
    let grown := (some heap.stop, t.modify (resize n) (.slot h))
    if n < 0 then
      if heap.length < sext (int (-n)) then .ok (none, t) else .ok grown
    else if n = 0 then .ok grown
    else match t.refs p with
      | .error fault => .error fault
      | .ok refs => match before (.slot h) refs with
        -- the search has run off the list
        | none => .error .nullPointer
        | some prev =>
          if u64 (heap.stop + sext n) > (t.get prev).start then .ok (none, t) else .ok grown

/-- Give up the list of a child that fork cannot complete. -/
def forkUndo (np : ProcId) : Except Fault VmaTable :=
  match t.refs np with
  | .error fault => .error fault
  | .ok refs => .ok ((refs.tail.foldl (fun t r => t.modify (fun _ => .free) r) t).setNext (.start np) none)

/-- `if(p->heap == it1) np->heap = it2`, with `it2` the slot `i`. -/
def forkHeap (p np : ProcId) (it1 : VmaRef) (i : VmaId) : VmaTable :=
  if (t.heap p).map .slot = some it1 then { t with heap := update t.heap np (some i) } else t

/-- The loop of fork over the parent's list, with the child's list built up to `it2`. `copies` says
for which VMAs uvmcopy finds the pages it needs; the result says whether fork succeeds. -/
def forkLoop (p np : ProcId) (copies : VmaRef → Bool) :
    VmaTable → VmaRef → List VmaRef → Except Fault (Bool × VmaTable)
  | t, it2, [] => .ok (true, t.setNext it2 none)
  | t, it2, it1 :: rest =>
    let slot := t.vmaAlloc
    let t := t.setNext it2 slot
    match slot, copies it1 with
    | some i, true =>
      let t := t.modify (fun _ => t.get it1) (.slot i)
      forkLoop p np copies (t.forkHeap p np it1 i) (.slot i) rest
    | _, _ => match t.forkUndo np with
      | .error fault => .error fault
      | .ok t => .ok (false, t)

/-- The part of fork that concerns the VMAs, once allocproc has found the slot `np`. -/
def fork (p np : ProcId) (copies : VmaRef → Bool) : Except Fault (Bool × VmaTable) :=
  let t := t.modify (fun _ => t.get (.start p)) (.start np)
  match t.refs p with
  | .error fault => .error fault
  | .ok refs => forkLoop p np copies t (.start np) refs.tail

end VmaTable

end DeisoXv6
