import DeisoXv6.Data.Cycle
import DeisoXv6.Vm.Vma

/-! The allocator of umalloc.c and the sbrk it calls. A pointer is an address, and `mem` is what a header at an
address holds; the headers in use never overlap, so that no address is read as a part of two of them. `live` records
what the program has been given and not yet freed, `first` the break before the first call. -/

set_option autoImplicit false

namespace DeisoXv6.Malloc

open Function

def UNIT : Nat := 16

def u32 (x : Nat) : Nat := x % 2 ^ 32

structure Header where
  ptr : Nat
  size : Nat

/-- The heap's VMA; `limit` is the start of the VMA before it in the list. -/
structure Heap where
  start : Nat
  length : Nat
  limit : Nat

namespace Heap

def brk (h : Heap) : Nat := u64 (h.start + h.length)

def sbrk (h : Heap) (n : Int) : Option Nat × Heap :=
  if n < 0 ∧ h.length < sext (int (-n)) then (none, h)
  else if 0 < n ∧ u64 (h.brk + sext n) > h.limit then (none, h)
  else (some h.brk, { h with length := u64 (h.length + sext n) })

end Heap

structure Block where
  p : Nat
  nbytes : Nat
  deriving DecidableEq

@[ext]
structure State where
  mem : Nat → Header
  base : Nat
  freep : Nat
  heap : Heap
  first : Nat
  live : List Block

/-- As many turns as a loop over the free list can make: a block takes a unit of the heap, and there is `base`. -/
def State.turns (s : State) : Nat := s.heap.length / UNIT + 2

def search (mem : Nat → Header) (bp : Nat) : Nat → Nat → Option Nat
  | 0, _ => none
  | fuel + 1, p =>
    let next := (mem p).ptr
    if bp > p ∧ bp < next then some p
    else if p ≥ next ∧ (bp > p ∨ bp < next) then some p
    else search mem bp fuel next

/-- Link `bp` in behind `p`, or join it to its neighbours. -/
def join (mem : Nat → Header) (p bp : Nat) : Nat → Header :=
  let next := (mem p).ptr
  let mem := update mem bp <|
    if bp + UNIT * (mem bp).size = next then ⟨(mem next).ptr, u32 ((mem bp).size + (mem next).size)⟩
    else ⟨next, (mem bp).size⟩
  update mem p <| if p + UNIT * (mem p).size = bp then ⟨(mem bp).ptr, u32 ((mem p).size + (mem bp).size)⟩
    else ⟨bp, (mem p).size⟩

def State.free (s : State) (ap : Nat) : Option State :=
  let bp := ap - UNIT
  (search s.mem bp s.turns s.freep).map fun p => { s with mem := join s.mem p bp, freep := p }

def State.grown (s : State) (heap : Heap) (hp nu : Nat) : State :=
  { s with heap, mem := update s.mem hp ⟨(s.mem hp).ptr, nu⟩ }

def State.extend (s : State) (nu : Nat) : Option Nat × Heap → Option (Option Nat × State)
  | (none, heap) => some (none, { s with heap })
  | (some hp, heap) => ((s.grown heap hp nu).free (hp + UNIT)).map fun s => (some s.freep, s)

/-- morecore; it returns `freep`, or a null pointer. -/
def State.morecore (s : State) (nu : Nat) : Option (Option Nat × State) := 
  s.extend (max nu 4096) (s.heap.sbrk (int (max nu 4096 * UNIT : Nat)))

def units (nbytes : Nat) : Nat := u32 ((nbytes + UNIT - 1) / UNIT + 1)

/-- Hand out the last `nunits` units of `p`, or all of it. -/
def State.take (s : State) (nunits prevp p : Nat) : Nat × State :=
  if (s.mem p).size = nunits then
    (p + UNIT, { s with mem := update s.mem prevp ⟨(s.mem p).ptr, (s.mem prevp).size⟩, freep := prevp })
  else
    let mem := update s.mem p ⟨(s.mem p).ptr, (s.mem p).size - nunits⟩
    let p := p + UNIT * (mem p).size
    (p + UNIT, { s with mem := update mem p ⟨(mem p).ptr, nunits⟩, freep := prevp })

/-- The loop of malloc; `none` when it does not end. -/
def State.find (nunits : Nat) : Nat → State → Nat → Nat → Option (Option Nat × State)
  | 0, _, _, _ => none
  | fuel + 1, s, prevp, p =>
    if (s.mem p).size ≥ nunits then
      let (q, s) := s.take nunits prevp p
      some (some q, s)
    else if p = s.freep then
      (s.morecore nunits).bind fun
        | (none, s) => some (none, s)
        | (some p, s) => find nunits fuel s p (s.mem p).ptr
    else find nunits fuel s p (s.mem p).ptr

def State.ready (s : State) : State :=
  if s.freep = 0 then { s with mem := update s.mem s.base ⟨s.base, 0⟩, freep := s.base } else s

/-- Each round of the list is followed by a larger heap. -/
def State.rounds (s : State) : Nat := (s.heap.limit / UNIT + 1) * (s.heap.limit / UNIT + 2)

def State.malloc (s : State) (nbytes : BitVec 32) : Option (Option Nat × State) :=
  s.ready.find (units nbytes.toNat) s.rounds s.ready.freep (s.ready.mem s.ready.freep).ptr

inductive Event where
  | malloc (nbytes : BitVec 32)
  | free (p : Nat)
  /-- A store that changes the unit at `a` of a live block. -/
  | store (a : Nat) (contents : Header)

def Block.header (b : Block) : Nat := b.p - UNIT

def State.step (s : State) : Event → Option State
  | .malloc nbytes => (s.malloc nbytes).map fun
    | (none, s) => s
    | (some p, s) => { s with live := ⟨p, nbytes.toNat⟩ :: s.live }
  | .free p =>
    if p ∈ s.live.map Block.p then (s.free p).map fun s => { s with live := s.live.filter (·.p ≠ p) }
    else none
  | .store a contents =>
    if ∃ b ∈ s.live, b.p ≤ a ∧ a < b.p + b.nbytes ∧ (a - b.p) % UNIT = 0 then
      some { s with mem := update s.mem a contents }
    else none

/-- A process before its first call: `base` is in its data, below the heap. -/
def State.Fresh (s : State) : Prop :=
  s.freep = 0 ∧ s.live = [] ∧ 0 < s.base ∧ s.base + UNIT ≤ s.first ∧ s.first = s.heap.start + s.heap.length ∧
    s.first ≤ s.heap.limit ∧ s.heap.limit ≤ MAXVA

end DeisoXv6.Malloc
