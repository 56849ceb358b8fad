import DeisoXv6.Proc.Table
import DeisoXv6.Semantics.LockProgram

/-! The scheduler and the process system calls as code over locks, on any number of CPUs.

A thread is a kernel stack: that of a CPU's scheduler() or that of a process. Steps are lock
operations and the actions between them; an action that stores `p->state` is a step of its own, or
one step with the update of total_tickets under tickets_lock. Memory, files and the leaf locks that
guard them are left out: allocation, copying and user pointers succeed or fail by choice. -/

set_option autoImplicit false

namespace DeisoXv6

inductive Lock where
  | tickets
  | wait
  | pid
  | ticks
  | proc : ProcId → Lock
  | other : Nat → Lock
  deriving DecidableEq

inductive Thread (n : Nat) where
  | scheduler : Fin n → Thread n
  | process : ProcId → Thread n
  deriving DecidableEq

/-- The three functions that store a state and then call sched. -/
inductive Leave where
  | yield
  | sleep
  | exit
  deriving DecidableEq

/-- Stores that change neither a state nor the counter. -/
inductive Update where
  | setChan : ProcId → Option Chan → Update
  | setXstate : ProcId → Int → Update
  | charge : ProcId → Update
  | allocpid : ProcId → Update
  | inherit : ProcId → ProcId → Update
  | setParent : ProcId → ProcId → Update
  | freeFields : ProcId → Update
  | setLastStart
  | tick
  deriving DecidableEq

inductive Act where
  | loop
  | pick
  | setRunning : ProcId → Act
  | setProc : ProcId → Act
  | swtch : ProcId → Act
  | clearProc
  | user
  | trapYield
  | preempt
  | leave : Leave → ProcId → Act
  | schedCheck : ProcId → Act
  | switchBack : ProcId → Act
  | zombieExit : ProcId → Act
  | setTickets : ProcId → Int → Act
  | wakeupFrom : Nat → Option Chan → Act
  | wakeupCheck : ProcId → Option Chan → Act
  | wakeStore : ProcId → Act
  | killFrom : Nat → Int → Act
  | killCheck : ProcId → Int → Act
  | reparentFrom : ProcId → Nat → Act
  | wakeParent : ProcId → Act
  | waitFrom : ProcId → Nat → Bool → Act
  | waitCheck : ProcId → ProcId → Act
  | freeStore : ProcId → Act
  | allocFrom : ProcId → Nat → Act
  | allocCheck : ProcId → ProcId → Act
  | setUsed : ProcId → ProcId → Act
  | publish : ProcId → Act
  | forkCopy : ProcId → Act
  | update : Update → Act
  deriving DecidableEq

abbrev Stmt := LockProgram.Stmt Lock Act

open LockProgram.Stmt

def resume (p : ProcId) : List Stmt :=
  [act .clearProc, release (.proc p), acquire .ticks, act (.update .setLastStart), release .ticks, act .loop]

def chosen (p : ProcId) : List Stmt :=
  [release .tickets, act (.setRunning p), act (.setProc p), act (.swtch p)] ++ resume p

def selected (p : ProcId) : List Stmt := acquire (.proc p) :: chosen p

def sched (p : ProcId) : List Stmt :=
  [act (.schedCheck p), acquire .ticks, act (.update (.charge p)), release .ticks, act (.switchBack p)]

def yield (p : ProcId) : List Stmt :=
  [acquire (.proc p), acquire .tickets, act (.leave .yield p), release .tickets] ++ sched p ++ [release (.proc p)]

def forkret (p : ProcId) : List Stmt := [release (.proc p), act .user]

def sleep (p : ProcId) (chan : Option Chan) (lk : Lock) : List Stmt :=
  [acquire (.proc p), release lk, act (.update (.setChan p chan)), acquire .tickets,
    act (.leave .sleep p), release .tickets] ++ sched p ++
    [act (.update (.setChan p none)), release (.proc p), acquire lk]

def wakeup (chan : Option Chan) : List Stmt := [act (.wakeupFrom 0 chan)]

def freeproc (p : ProcId) : List Stmt :=
  [act (.update (.freeFields p)), acquire .tickets, act (.freeStore p), release .tickets]

def clockintr : List Stmt :=
  [acquire .ticks, act (.update .tick)] ++ wakeup (some .ticks) ++ [release .ticks]

/-- The locks under which processes sleep and are woken, besides wait_lock. -/
inductive Guard where
  | ticks
  | other : Nat → Guard
  deriving DecidableEq

def Guard.lock : Guard → Lock
  | .ticks => .ticks
  | .other n => .other n

/-- What a process does next in the kernel. Reads, writes and the other calls are the sleeps and
wakeups they make, and so is the part of exit before it takes wait_lock. -/
inductive Syscall where
  | fork
  | exit : Int → Syscall
  | wait
  | kill : Int → Syscall
  | settickets : Int → Syscall
  | sleep : Option Chan → Guard → Syscall
  | wakeup : Option Chan → Guard → Syscall
  deriving DecidableEq

def exit (p : ProcId) (status : Int) : List Stmt :=
  [acquire .wait, act (.reparentFrom p 0), act (.wakeParent p), acquire (.proc p),
    act (.update (.setXstate p status)), acquire .tickets, act (.leave .exit p), release .tickets,
    release .wait] ++ sched p ++ [act (.zombieExit p)]

def settickets (p : ProcId) (n : Int) : List Stmt :=
  if n < MINTICKETS then []
  else [acquire (.proc p), acquire .tickets, act (.setTickets p n), release .tickets, release (.proc p)]

/-- The call of process `p`; `none` is panic("init exiting"). -/
def syscall (t : Table) (p : ProcId) : Syscall → Option (List Stmt)
  | .fork => some [act (.allocFrom p 0)]
  | .exit status => if t.initproc = some p then none else some (exit p status)
  | .wait => some [acquire .wait, act (.waitFrom p 0 false)]
  | .kill pid => some [act (.killFrom 0 pid)]
  | .settickets n => some (settickets p n)
  | .sleep chan guard => some (acquire guard.lock :: sleep p chan guard.lock ++ [release guard.lock])
  | .wakeup chan guard => some (acquire guard.lock :: wakeup chan ++ [release guard.lock])

structure Shared (n : Nat) where
  table : Table
  proc : Fin n → Option ProcId

/-- How an action that depends on the outside world goes. -/
inductive Choice where
  | go
  | fail
  | call : Syscall → Choice
  deriving DecidableEq

abbrev Outcome (n : Nat) := LockProgram.Outcome (Thread n) Lock Act (Shared n)

namespace Update

def apply (t : Table) : Update → Table
  | setChan p chan => t.setChan p chan
  | setXstate p status => t.setXstate p status
  | charge p => t.modify p fun proc => { proc with
      ticks := int (proc.ticks + (t.ticks - t.ticksLastStart)) }
  | allocpid p => t.allocpid p
  | inherit p np => t.inherit p np
  | setParent p np => t.setParent p np
  | freeFields p => t.freeFields p
  | setLastStart => { t with ticksLastStart := t.ticks }
  | tick => { t with ticks := uint (t.ticks + 1) }

end Update

def Leave.apply (t : Table) (p : ProcId) : Leave → Table
  | yield => t.yield p
  | sleep => t.sleep p
  | exit => t.exit p

variable {n : Nat}

def Shared.next (s : Shared n) (t : Table) (push : List Stmt) : Option (Outcome n) :=
  some ⟨{ s with table := t }, push, none, none⟩

/-- One action of CPU `c`. `none` stands for a panic, or for a process that does not make the call
in question. -/
def exec (c : Fin n) (choice : Choice) (locks : List Lock) (s : Shared n) : Act → Option (Outcome n)
  | .loop => s.next s.table [acquire .tickets, act .pick]
  | .pick => match s.table.pick with
    | (none, t) => s.next t [release .tickets, act .loop]
    | (some p, t) => s.next t (selected p)
  | .setRunning p => s.next (s.table.setRunning p) []
  | .setProc p => some ⟨{ s with proc := Function.update s.proc c (some p) }, [], none, none⟩
  | .swtch p => some ⟨s, [], some (.process p), none⟩
  | .clearProc => some ⟨{ s with proc := Function.update s.proc c none }, [], none, none⟩
  | .user => match choice, s.proc c with
    | .call call, some p => match syscall s.table p call with
      | some code => s.next s.table (code ++ [act .user])
      | none => none
    | _, _ => none
  | .trapYield => match s.proc c with
    | some p => s.next s.table (yield p)
    | none => none
  | .preempt => match s.proc c with
    | some p => s.next s.table (if (s.table.proc p).state = .running then yield p else [])
    | none => s.next s.table []
  | .leave how p => s.next (how.apply s.table p) []
  | .schedCheck p =>
    if .proc p ∈ locks ∧ locks.length = 1 ∧ (s.table.proc p).state ≠ .running
    then s.next s.table [] else none
  | .switchBack _ => some ⟨s, [], some (.scheduler c), none⟩
  | .zombieExit _ => none
  | .setTickets p n => s.next (s.table.settickets p n) []
  | .wakeupFrom i chan =>
    if inside : i < NPROC then
      if s.proc c = some ⟨i, inside⟩ then s.next s.table [act (.wakeupFrom (i + 1) chan)]
      else s.next s.table [acquire (.proc ⟨i, inside⟩), act (.wakeupCheck ⟨i, inside⟩ chan),
        release (.proc ⟨i, inside⟩), act (.wakeupFrom (i + 1) chan)]
    else s.next s.table []
  | .wakeupCheck p chan =>
    s.next s.table (if s.table.SleepsOn p chan then [acquire .tickets, act (.wakeStore p), release .tickets] else [])
  | .wakeStore p => s.next (s.table.wake p) []
  | .killFrom i pid =>
    if inside : i < NPROC then
      s.next s.table [acquire (.proc ⟨i, inside⟩), act (.killCheck ⟨i, inside⟩ pid)]
    else s.next s.table []
  | .killCheck p pid =>
    if (s.table.proc p).pid = pid then
      s.next (s.table.setKilled p) (if (s.table.proc p).state = .sleeping
        then [acquire .tickets, act (.wakeStore p), release .tickets, release (.proc p)]
        else [release (.proc p)])
    else s.next s.table [release (.proc p), act (.killFrom (p + 1) pid)]
  | .reparentFrom p i =>
    if inside : i < NPROC then
      if (s.table.proc ⟨i, inside⟩).parent = some p then
        s.next (s.table.reparent ⟨i, inside⟩) (wakeup (s.table.initproc.map .proc) ++ [act (.reparentFrom p (i + 1))])
      else s.next s.table [act (.reparentFrom p (i + 1))]
    else s.next s.table []
  | .wakeParent p => s.next s.table (wakeup ((s.table.proc p).parent.map .proc))
  | .waitFrom p i havekids =>
    if inside : i < NPROC then
      if (s.table.proc ⟨i, inside⟩).parent = some p then
        s.next s.table [acquire (.proc ⟨i, inside⟩), act (.waitCheck p ⟨i, inside⟩)]
      else s.next s.table [act (.waitFrom p (i + 1) havekids)]
    else if havekids = false ∨ (s.table.proc p).killed = true then s.next s.table [release .wait]
    else s.next s.table (sleep p (some (.proc p)) .wait ++ [act (.waitFrom p 0 false)])
  | .waitCheck p np =>
    if (s.table.proc np).state = .zombie then
      match choice with
      -- the copyout of xstate
      | .fail => s.next s.table [release (.proc np), release .wait]
      | _ => s.next s.table (freeproc np ++ [release (.proc np), release .wait])
    else s.next s.table [release (.proc np), act (.waitFrom p (np + 1) true)]
  | .freeStore p => s.next (s.table.free p) []
  | .allocFrom p i =>
    if inside : i < NPROC then
      s.next s.table [acquire (.proc ⟨i, inside⟩), act (.allocCheck p ⟨i, inside⟩)]
    else s.next s.table []
  | .allocCheck p np =>
    if (s.table.proc np).state = .unused then
      s.next s.table [acquire .pid, act (.update (.allocpid np)), release .pid, act (.setUsed p np)]
    else s.next s.table [release (.proc np), act (.allocFrom p (np + 1))]
  | .setUsed p np => match choice with
    -- no trapframe or page table
    | .fail => s.next (s.table.setUsed np) (freeproc np ++ [release (.proc np)])
    | _ => some ⟨{ s with table := s.table.setUsed np },
        [act (.update (.inherit p np)), release (.proc np), acquire .wait,
          act (.update (.setParent p np)), release .wait, acquire (.proc np), acquire .tickets,
          act (.publish np)],
        none, some (.process np, forkret np)⟩
  | .publish np => s.next (s.table.publish np) [release .tickets, act (.forkCopy np)]
  | .forkCopy np => match choice with
    | .fail => s.next s.table (freeproc np ++ [release (.proc np)])
    | _ => s.next s.table [release (.proc np)]
  | .update u => s.next (u.apply s.table) []

abbrev Machine (n : Nat) := LockProgram.Config (Fin n) (Thread n) Lock Act (Shared n)

inductive Event (n : Nat) where
  | cpu : Fin n → Choice → Event n
  | timer : Fin n → Event n
  | device : Fin n → Option Chan → Nat → Event n
  deriving DecidableEq

namespace Machine

def table (m : Machine n) : Table := m.shared.table

def boot (n : Nat) : Machine n where
  shared := ⟨Table.boot.userinit, fun _ => none⟩
  locks _ := []
  running c := .scheduler c
  code
    | .scheduler _ => [act .loop]
    | .process p => forkret p

/-- devintr runs clockintr on CPU 0 only. usertrap yields; kerneltrap first looks at the state. -/
def timerHandler (m : Machine n) (c : Fin n) : List Stmt :=
  (if c.val = 0 then clockintr else []) ++
    [act (if (m.code (m.running c)).head? = some (act .user) then .trapYield else .preempt)]

def step (m : Machine n) : Event n → Option (Machine n)
  | .cpu c choice => LockProgram.Config.step (exec c choice) m c
  | .timer c => m.interrupt c (m.timerHandler c)
  | .device c chan lk => m.interrupt c (acquire (.other lk) :: wakeup chan ++ [release (.other lk)])

def run : Machine n → List (Event n) → Option (Machine n)
  | m, [] => some m
  | m, e :: es => match m.step e with
    | none => none
    | some m => run m es

end Machine

end DeisoXv6
