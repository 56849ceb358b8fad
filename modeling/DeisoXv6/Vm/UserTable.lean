import DeisoXv6.Vm.FreeMem

/-! The page tables of processes: how vm.c and proc.c create, copy and free them. -/

set_option autoImplicit false

namespace DeisoXv6

def freewalkLoop (freewalk : PageNo → KernelM Unit) (pagetable : PageNo) : List Nat → KernelM Unit
  | [] => kfree pagetable
  | i :: rest => do
    let s ← get
    let pte := s.pte pagetable i
    if Pte.has pte PTE_V = true ∧ Pte.has pte (PTE_R ||| PTE_W ||| PTE_X) = false then do
      freewalk (pte2pa pte)
      modify (·.setPte pagetable i 0)
      freewalkLoop freewalk pagetable rest
    else do
      failIf (Pte.has pte PTE_V = true) (.panic .freewalk)
      freewalkLoop freewalk pagetable rest

@[irreducible] def entryIndices : List Nat := List.range 512

def freewalkFrom : Nat → PageNo → KernelM Unit
  | 0, _ => throw .endless
  | depth + 1, pagetable => freewalkLoop (freewalkFrom depth) pagetable entryIndices

/-- There are `2 ^ 52` pages, and a longer way down comes back to one of them. -/
def freewalk (pagetable : PageNo) : KernelM Unit := freewalkFrom (2 ^ 52 + 1) pagetable

def uvmfree (pagetable : PageNo) (sz : Nat) : KernelM Unit := do
  onlyIf (sz > 0) (uvmunmap pagetable 0 (pgroundup sz / PGSIZE) true)
  freewalk pagetable

def procFreepagetable (pagetable : PageNo) (sz : Nat) : KernelM Unit := do
  uvmunmap pagetable TRAMPOLINE 1 false
  uvmunmap pagetable TRAPFRAME 1 false
  uvmfree pagetable sz

def uvmcreate : KernelM (Option PageNo) := do
  match ← kalloc with
  | none => pure none
  | some pagetable => do
    modify (·.fill pagetable 0)
    pure (some pagetable)

/-- `PTE_R | PTE_X` and `PTE_R | PTE_W` as int. -/
def PERM_TRAMPOLINE : BitVec 32 := 0xa
def PERM_TRAPFRAME : BitVec 32 := 0x6

def procPagetable (trapframe : PageNo) : KernelM (Option PageNo) := do
  match ← uvmcreate with
  | none => pure none
  | some pagetable => do
    let s ← get
    if ← mappages pagetable TRAMPOLINE PGSIZE s.trampoline PERM_TRAMPOLINE then do
      if ← mappages pagetable TRAPFRAME PGSIZE trapframe PERM_TRAPFRAME then pure (some pagetable)
      else do
        uvmunmap pagetable TRAMPOLINE 1 false
        uvmfree pagetable 0
        pure none
    else do
      uvmfree pagetable 0
      pure none

/-- `memmove(mem, pa, PGSIZE)`. -/
def Sys.copyPage (s : Sys) (page source : PageNo) : Sys :=
  { s with mem := Function.update s.mem page (s.mem source) }

/-- The jump to `err` at address `i`. -/
def uvmcopyErr (new : PageNo) (start i : Nat) : KernelM Bool := do
  uvmunmap new (pgrounddown start) (sub64 i (pgrounddown start) / PGSIZE) true
  pure false

/-- One page of uvmcopy_offseted. -/
def uvmcopyPage (old new : PageNo) (i : Nat) : KernelM Bool := do
  match ← walk old i false with
  | none => pure true
  | some (table, k) => do
    let s ← get
    let pte := s.pte table k
    if Pte.has pte PTE_V = false then pure true
    else do
      match ← kalloc with
      | none => pure false
      | some mem => do
        modify (·.copyPage mem (pte2pa pte))
        if ← mappages new i PGSIZE mem ((pteFlags pte).truncate 32) then pure true
        else do
          kfree mem
          pure false

def uvmcopyLoop (old new : PageNo) (start stop : Nat) : Nat → Nat → KernelM Bool
  | 0, _ => throw .endless
  | fuel + 1, i =>
    if i < stop then do
      if ← uvmcopyPage old new i then uvmcopyLoop old new start stop fuel (u64 (i + PGSIZE))
      else uvmcopyErr new start i
    else pure true

/-- The result says whether every page that is mapped could be copied. -/
def uvmcopyOffseted (old new : PageNo) (start sz : Nat) : KernelM Bool :=
  uvmcopyLoop old new start (u64 (sz + start)) (2 ^ 64 / PGSIZE + 1) (pgrounddown start)

end DeisoXv6
