import DeisoXv6.Fs.File

/-! User memory as the kernel reaches it: lazyalloc, walkaddr and the copies of vm.c. -/

set_option autoImplicit false

namespace DeisoXv6

open Bytes

def Sys.store (s : Sys) (page : PageNo) (off : Nat) (bytes : List UInt8) : Sys :=
  { s with mem := Function.update s.mem page (overlay (s.mem page) off bytes) }

/-- memmove into a page, as readi uses it with a kernel address. -/
def storeAt (page : PageNo) (off : Nat) (bytes : List UInt8) : KernelM (Option Nat) := do
  modify (·.store page off bytes)
  pure (some (off + bytes.length))

/-- Read what the file of `v`, if it has one, holds for the page of `va`. -/
def loadPage (page : PageNo) (v : Vma) (va : Nat) : KernelM Unit :=
  match v.file with
  | none => pure ()
  | some f => do
    let pa := pgrounddown (sub64 va v.start)
    let stop := u64 (v.fileLength + v.start)
    onlyIf (stop > pa) do
      let remaining := sub64 stop pa
      let size := if PGSIZE ≥ remaining then remaining else PGSIZE
      let s ← get
      -- ilock and readi may sleep
      failIf (s.spinlocks ≠ 0) (.panic .sched)
      let i ← ilock (s.file f).ip
      let _ ← readi (storeAt page) i (u32 (pa + v.offset)) size 0
      iunlock i

/-- `(vma->permission << 1) | PTE_U | PTE_V` as an int. -/
def Vma.permissions (v : Vma) : BitVec 32 := v.permission <<< 1 ||| 0x10 ||| 1

/-- The page that is now mapped at `va`, or `none` for 0. -/
def lazyalloc (pagetable : PageNo) (va : Nat) (vma : VmaRef) : KernelM (Option PageNo) := do
  match ← kalloc with
  | none => pure none
  | some mem => do
    modify (·.fill mem 0)
    let s ← get
    let v := s.vmas.get vma
    loadPage mem v va
    if ← mappages pagetable (pgrounddown va) PGSIZE mem v.permissions then pure (some mem)
    else do
      kfree mem
      pure none

def Vma.Holds (v : Vma) (va : Nat) : Prop := v.start ≤ va ∧ va < v.stop

instance (v : Vma) (va : Nat) : Decidable (v.Holds va) := inferInstanceAs (Decidable (_ ∧ _))

def findVma (va : Nat) : KernelM (Option VmaRef) := do
  let s ← get
  match s.vmas.refs s.current with
  | .error fault => throw fault
  | .ok refs => pure (refs.find? fun r => (s.vmas.get r).Holds va)

/-- A null address is a failure for every caller. -/
def nonNull (page : PageNo) : Option PageNo := if page = 0 then none else some page

def walkaddr (pagetable : PageNo) (va : Nat) : KernelM (Option PageNo) :=
  if va ≥ MAXVA then pure none
  else do
    match ← findVma va with
    | none => pure none
    | some vma => do
      match ← walk pagetable va false with
      | none => lazyalloc pagetable va vma
      | some (table, i) => do
        let s ← get
        let pte := s.pte table i
        if Pte.has pte PTE_V = false then lazyalloc pagetable va vma
        else if Pte.has pte PTE_U = false then pure none
        else pure (nonNull (pte2pa pte))

def copyoutLoop (pagetable : PageNo) : Nat → Nat → List UInt8 → KernelM (Nat × Bool)
  | 0, _, _ => pure (0, true)
  | fuel + 1, dstva, src =>
    if src = [] then pure (0, true)
    else do
      let va0 := pgrounddown dstva
      match ← walkaddr pagetable va0 with
      | none => pure (0, false)
      | some pa0 => do
        let n := min (PGSIZE - (dstva - va0)) src.length
        modify (·.store pa0 (dstva - va0) (src.take n))
        let rest ← copyoutLoop pagetable fuel (u64 (va0 + PGSIZE)) (src.drop n)
        pure (n + rest.1, rest.2)

/-- The number of bytes stored, and whether these are all (0) or not (-1). -/
def copyout (pagetable : PageNo) (dstva : Nat) (src : List UInt8) : KernelM (Nat × Bool) :=
  copyoutLoop pagetable src.length dstva src

def copyinLoop (pagetable : PageNo) : Nat → Nat → Nat → KernelM (List UInt8 × Bool)
  | 0, _, _ => pure ([], true)
  | fuel + 1, srcva, len =>
    if len = 0 then pure ([], true)
    else do
      let va0 := pgrounddown srcva
      match ← walkaddr pagetable va0 with
      | none => pure ([], false)
      | some pa0 => do
        let s ← get
        let n := min (PGSIZE - (srcva - va0)) len
        let rest ← copyinLoop pagetable fuel (u64 (va0 + PGSIZE)) (len - n)
        pure (slice (s.mem pa0) (srcva - va0) n ++ rest.1, rest.2)

/-- The bytes copied, and whether all could be copied. -/
def copyin (pagetable : PageNo) (srcva len : Nat) : KernelM (List UInt8 × Bool) :=
  copyinLoop pagetable len srcva len

/-- The loop of copyinstr with `max` bytes to go; the inner loop stops at a null byte. -/
def copyinstrLoop (pagetable : PageNo) : Nat → Nat → Nat → KernelM (List UInt8 × Bool)
  | 0, _, _ => pure ([], false)
  | fuel + 1, srcva, max =>
    if max = 0 then pure ([], false)
    else do
      let va0 := pgrounddown srcva
      match ← walkaddr pagetable va0 with
      | none => pure ([], false)
      | some pa0 => do
        let s ← get
        let n := min (PGSIZE - (srcva - va0)) max
        let read := (slice (s.mem pa0) (srcva - va0) n).takeWhile (· ≠ 0)
        if read.length < n then pure (read ++ [0], true)
        else do
          let rest ← copyinstrLoop pagetable fuel (u64 (va0 + PGSIZE)) (max - n)
          pure (read ++ rest.1, rest.2)

/-- The bytes read, with the null byte, and whether there is one. -/
def copyinstr (pagetable : PageNo) (srcva max : Nat) : KernelM (List UInt8 × Bool) :=
  copyinstrLoop pagetable max srcva max

/-- either_copyin from a user address, for writei. -/
def copyinUser (src len : Nat) : KernelM (List UInt8 × Option Nat) := do
  let s ← get
  let copied ← copyin (s.proc s.current).pagetable src len
  pure (copied.1, if copied.2 then some (u64 (src + len)) else none)

end DeisoXv6
