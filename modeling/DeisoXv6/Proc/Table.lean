import DeisoXv6.Kernel.Parameters
import Mathlib.Data.Fintype.Basic

/-! The process table of proc.c and the bodies of the sections that change it.

Each function below is what its namesake does to the table between acquiring and releasing its
locks. `total_tickets` is a uint and is reduced at every assignment; `tickets` is an int. -/

set_option autoImplicit false

namespace DeisoXv6

abbrev ProcId := Fin NPROC

instance : NeZero NPROC := ⟨by decide⟩

-- the processors and threads of the sample runs are written as numerals
instance neZeroOne : NeZero 1 := ⟨by decide⟩
instance neZeroTwo : NeZero 2 := ⟨by decide⟩

inductive ProcState where
  | unused
  | used
  | sleeping
  | runnable
  | running
  | zombie
  deriving DecidableEq, Repr

inductive Chan where
  | proc : ProcId → Chan
  | ticks
  | address : Nat → Chan
  deriving DecidableEq

structure Proc where
  state : ProcState
  chan : Option Chan
  killed : Bool
  xstate : Int
  pid : Int
  tickets : Int
  ticks : Int
  parent : Option ProcId
  deriving DecidableEq

structure Table where
  proc : ProcId → Proc
  totalTickets : Int
  nextpid : Int
  initproc : Option ProcId
  randomSeed : UInt32
  ticks : Int
  ticksLastStart : Int

def uint (x : Int) : Int := x % 2 ^ 32

def int (x : Int) : Int := Int.bmod x (2 ^ 32)

def Proc.empty : Proc := ⟨.unused, none, false, 0, 0, 0, 0, none⟩

def Table.boot : Table := ⟨fun _ => .empty, 0, 1, none, 1, 0, 0⟩

namespace Table

def modify (t : Table) (p : ProcId) (f : Proc → Proc) : Table :=
  { t with proc := Function.update t.proc p (f (t.proc p)) }

def setState (t : Table) (p : ProcId) (state : ProcState) : Table :=
  t.modify p fun proc => { proc with state := state }

def addTickets (t : Table) (x : Int) : Table :=
  { t with totalTickets := uint (t.totalTickets + x) }

def Counted (state : ProcState) : Prop := state = .running ∨ state = .runnable

instance (state : ProcState) : Decidable (Counted state) :=
  inferInstanceAs (Decidable (_ ∨ _))

/-- `if(p->state == RUNNING || p->state == RUNNABLE) total_tickets -= p->tickets`. -/
def withdraw (t : Table) (p : ProcId) : Table :=
  if Counted (t.proc p).state then t.addTickets (-(t.proc p).tickets) else t

def yield (t : Table) (p : ProcId) : Table :=
  let t := if (t.proc p).state ≠ .runnable ∧ (t.proc p).state ≠ .running then t.addTickets (t.proc p).tickets else t
  t.setState p .runnable

def setChan (t : Table) (p : ProcId) (chan : Option Chan) : Table :=
  t.modify p fun proc => { proc with chan := chan }

def sleep (t : Table) (p : ProcId) : Table := (t.withdraw p).setState p .sleeping

def setXstate (t : Table) (p : ProcId) (status : Int) : Table :=
  t.modify p fun proc => { proc with xstate := status }

def exit (t : Table) (p : ProcId) : Table := (t.withdraw p).setState p .zombie

def wake (t : Table) (p : ProcId) : Table :=
  (t.setState p .runnable).addTickets (t.proc p).tickets

def SleepsOn (t : Table) (p : ProcId) (chan : Option Chan) : Prop :=
  (t.proc p).state = .sleeping ∧ (t.proc p).chan = chan

instance (t : Table) (p : ProcId) (chan : Option Chan) : Decidable (t.SleepsOn p chan) :=
  inferInstanceAs (Decidable (_ ∧ _))

def setKilled (t : Table) (p : ProcId) : Table :=
  t.modify p fun proc => { proc with killed := true }

def settickets (t : Table) (p : ProcId) (n : Int) : Table :=
  (t.addTickets (n - (t.proc p).tickets)).modify p fun proc => { proc with tickets := n }

def allocpid (t : Table) (p : ProcId) : Table :=
  { t.modify p fun proc => { proc with pid := t.nextpid } with nextpid := int (t.nextpid + 1) }

def setUsed (t : Table) (p : ProcId) : Table := t.setState p .used

/-- What fork copies into the slot while it still holds `np->lock`. -/
def inherit (t : Table) (p np : ProcId) : Table :=
  t.modify np fun proc => { proc with tickets := (t.proc p).tickets, ticks := 0 }

def setParent (t : Table) (p np : ProcId) : Table :=
  t.modify np fun proc => { proc with parent := some p }

/-- `total_tickets += np->tickets; np->state = RUNNABLE`, in fork and in userinit. -/
def publish (t : Table) (np : ProcId) : Table :=
  (t.addTickets (t.proc np).tickets).setState np .runnable

/-- The stores of freeproc before it takes tickets_lock. -/
def freeFields (t : Table) (p : ProcId) : Table :=
  t.modify p fun proc => { proc with
    pid := 0, parent := none, chan := none, killed := false, xstate := 0, ticks := 0 }

def free (t : Table) (p : ProcId) : Table :=
  (t.withdraw p).modify p fun proc => { proc with tickets := 0, state := .unused }

def reparent (t : Table) (p : ProcId) : Table :=
  t.modify p fun proc => { proc with parent := t.initproc }

def setRunning (t : Table) (p : ProcId) : Table := t.setState p .running

/-- userinit: it runs before the other CPUs start, and its allocproc finds the first free slot. -/
def userinit (t : Table) : Table :=
  match (List.finRange NPROC).find? fun p => (t.proc p).state = .unused with
  | none => t
  | some p =>
    let t := { (t.allocpid p).setUsed p with initproc := some p }
    (t.modify p fun proc => { proc with ticks := 0, tickets := MINTICKETS }).publish p

variable {t : Table} {p : ProcId}

@[simp] theorem modify_proc (f : Proc → Proc) (q : ProcId) :
    (t.modify p f).proc q = if q = p then f (t.proc p) else t.proc q :=
  Function.update_apply ..

@[simp] theorem modify_totalTickets (f : Proc → Proc) : (t.modify p f).totalTickets = t.totalTickets := rfl

@[simp] theorem addTickets_proc (x : Int) : (t.addTickets x).proc = t.proc := rfl

@[simp] theorem addTickets_totalTickets (x : Int) : (t.addTickets x).totalTickets = uint (t.totalTickets + x) := rfl

@[simp] theorem withdraw_proc : (t.withdraw p).proc = t.proc := by
  unfold withdraw
  split <;> rfl

end Table

def lcgParkmiller (state : UInt32) : UInt32 :=
  let n : UInt32 := 0x7fffffff
  let g : UInt32 := 48271
  let div := state / (n / g)
  let rem := state % (n / g)
  let a := rem * g
  let b := div * (n % g)
  if a > b then a - b else a + (n - b)

/-- The state of the selection loop; `overflow` records an addition that left the range of int. -/
structure Draw where
  selected : Option ProcId
  overflow : Bool
  deriving DecidableEq

/-- The loop over `proc[]` of scheduler, from the current `cum_tickets`. -/
def drawLoop (t : Table) (target : Int) : List ProcId → Int → Draw → Draw
  | [], _, d => d
  | p :: ps, cum, d =>
    if (t.proc p).state = .runnable then
      let sum := cum + (t.proc p).tickets
      let d := ⟨some p, d.overflow || decide (int sum ≠ sum)⟩
      if int sum ≥ target then d else drawLoop t target ps (int sum) d
    else drawLoop t target ps cum d

/-- `(next_random() % total_tickets) + 1`, as stored in an int. -/
def targetTickets (t : Table) (random : UInt32) : Int :=
  int (uint (random.toNat % t.totalTickets + 1))

def draw (t : Table) (random : UInt32) : Draw :=
  drawLoop t (targetTickets t random) (List.finRange NPROC) 0 ⟨none, false⟩

/-- What scheduler selects under tickets_lock, with the seed it leaves. -/
def Table.pick (t : Table) : Option ProcId × Table :=
  if t.totalTickets = 0 then (none, t)
  else
    let random := lcgParkmiller t.randomSeed
    ((draw t random).selected, { t with randomSeed := random })

end DeisoXv6
