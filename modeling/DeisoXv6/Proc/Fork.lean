import DeisoXv6.Vm.UserTable

/-! allocproc, freeproc and fork over the process table together with the memory and the files.

A call runs without interleaving; of the locks only `np->lock` counts, which fork holds while it copies
the VMAs. The context and the name of a process are left out. -/

set_option autoImplicit false

namespace DeisoXv6

structure System where
  sys : Sys
  table : Table

abbrev SystemM := StateT System (Except Fault)

def onSys {α : Type} (f : KernelM α) : SystemM α := fun m =>
  (f.run m.sys).map fun r => (r.1, { m with sys := r.2 })

def onTable (f : Table → Table) : SystemM Unit := modify fun m => { m with table := f m.table }

def Sys.setProc (s : Sys) (p : ProcId) (f : UserProc → UserProc) : Sys :=
  { s with proc := Function.update s.proc p (f (s.proc p)) }

/-- What freeproc leaves of the memory of a slot. It clears neither `ofile` nor `cwd`. -/
def UserProc.freed (u : UserProc) : UserProc := { u with trapframe := 0, pagetable := 0, sz := 0, killed := false }

def freeprocMemory (p : ProcId) : KernelM Unit := do
  let s ← get
  onlyIf ((s.proc p).trapframe ≠ 0) (kfree (s.proc p).trapframe)
  onlyIf ((s.proc p).pagetable ≠ 0) (procFreepagetable (s.proc p).pagetable 0)
  modify (·.setProc p UserProc.freed)
  modify fun s => s.setVmas (s.vmas.setNext (.start p) none)

/-- The memory that allocproc gives to a slot; the result says whether there was enough. -/
def allocprocMemory (p : ProcId) : KernelM Bool := do
  match ← kalloc with
  | none => do
    modify (·.setProc p ({ · with trapframe := 0 }))
    pure false
  | some trapframe => do
    modify (·.setProc p ({ · with trapframe := trapframe }))
    match ← procPagetable trapframe with
    | none => do
      modify (·.setProc p ({ · with pagetable := 0 }))
      pure false
    | some pagetable => do
      modify (·.setProc p ({ · with pagetable := pagetable }))
      pure true

def Table.unusedSlot (t : Table) : Option ProcId :=
  (List.finRange NPROC).find? fun p => (t.proc p).state = .unused

def TRAPFRAME_SIZE : Nat := 288
def TRAPFRAME_A0 : Nat := 112

/-- `*(np->trapframe) = *(p->trapframe); np->trapframe->a0 = 0`. -/
def Sys.copyTrapframe (s : Sys) (source target : PageNo) : Sys :=
  (s.store target 0 ((List.range TRAPFRAME_SIZE).map (s.mem source))).store target TRAPFRAME_A0 (List.replicate 8 0)

def idup : Option InodeId → KernelM Unit
  | none => throw .nullInode
  | some i => modify fun s => s.setInode i { s.inode i with ref := (s.inode i).ref + 1 }

def dupFile : Option FileId → KernelM Unit
  | none => pure ()
  | some f => filedup f

/-- The loop of fork over the descriptors that remain. -/
def forkFiles (p np : ProcId) : List (Fin NOFILE) → KernelM Unit
  | [] => pure ()
  | fd :: rest => do
    let s ← get
    match (s.proc p).ofile fd with
    | none => forkFiles p np rest
    | some f => do
      filedup f
      modify (·.setProc np fun u => { u with ofile := Function.update u.ofile fd (some f) })
      forkFiles p np rest

/-- What fork copies before the child becomes runnable. -/
def forkInherit (p np : ProcId) : KernelM Unit := do
  modify fun s => s.setProc np ({ · with sz := (s.proc p).sz })
  modify fun s => s.copyTrapframe (s.proc p).trapframe (s.proc np).trapframe
  forkFiles p np (List.finRange NOFILE)
  let s ← get
  idup (s.proc p).cwd
  modify (·.setProc np ({ · with cwd := (s.proc p).cwd }))

def vmaFreeList (pagetable : PageNo) : List VmaRef → KernelM Unit
  | [] => pure ()
  | it :: rest => do
    vmaFree pagetable it
    vmaFreeList pagetable rest

/-- Give the VMAs of a child back that cannot be completed. -/
def forkVmasErr (np : ProcId) : KernelM Bool := do
  let s ← get
  match s.vmas.refs np with
  | .error fault => throw fault
  | .ok refs => do
    vmaFreeList (s.proc np).pagetable refs.tail
    pure false

/-- The loop of fork over the parent's list, with the child's list built up to `it2`. -/
def forkVmasLoop (p np : ProcId) : VmaRef → List VmaRef → KernelM Bool
  | it2, [] => do
    modify fun s => s.setVmas (s.vmas.setNext it2 none)
    pure true
  | it2, it1 :: rest => do
    let s ← get
    let slot := s.vmas.vmaAlloc
    modify fun s => s.setVmas (s.vmas.setNext it2 slot)
    match slot with
    | none => forkVmasErr np
    | some i => do
      let s ← get
      let v := s.vmas.get it1
      if ← uvmcopyOffseted (s.proc p).pagetable (s.proc np).pagetable v.start v.length then do
        -- vma_copy copies the link too; the next turn or the end of the loop replaces it
        modify fun s => s.setVmas (s.vmas.modify (fun _ => s.vmas.get it1) (.slot i))
        dupFile v.file
        modify fun s => s.setVmas (s.vmas.forkHeap p np it1 i)
        forkVmasLoop p np (.slot i) rest
      else forkVmasErr np

def forkVmas (p np : ProcId) : KernelM Bool := do
  modify fun s => s.setVmas (s.vmas.modify (fun _ => s.vmas.get (.start p)) (.start np))
  let s ← get
  match s.vmas.refs p with
  | .error fault => throw fault
  | .ok refs => forkVmasLoop p np (.start np) refs.tail

namespace System

def freeproc (p : ProcId) : SystemM Unit := do
  onSys (freeprocMemory p)
  onTable (·.freeFields p)
  onTable (·.free p)

def allocproc : SystemM (Option ProcId) := do
  let m ← get
  match m.table.unusedSlot with
  | none => pure none
  | some p => do
    onTable (·.allocpid p)
    onTable (·.setUsed p)
    if ← onSys (allocprocMemory p) then pure (some p)
    else do
      freeproc p
      pure none

def fork : SystemM (Option Int) := do
  let m ← get
  let p := m.sys.current
  match ← allocproc with
  | none => pure none
  | some np => do
    onTable (·.inherit p np)
    onSys (forkInherit p np)
    let m ← get
    let pid := (m.table.proc np).pid
    onTable (·.setParent p np)
    onSys acquire
    onTable (·.publish np)
    if ← onSys (forkVmas p np) then do
      onSys release
      pure (some pid)
    else do
      freeproc np
      onSys release
      pure none

end System

end DeisoXv6
