import DeisoXv6.Kernel.State

/-! Physical pages and the three-level page tables of vm.c and kalloc.c.

A page-table page is 512 little-endian words of memory. The free list is a list of page numbers; the
link that kfree keeps in the first bytes of a free page is not shown in its contents, which kalloc
overwrites. -/

set_option autoImplicit false

namespace DeisoXv6

/-- `memset(page, c, PGSIZE)`. -/
def Sys.fill (s : Sys) (page : PageNo) (c : UInt8) : Sys :=
  { s with mem := Function.update s.mem page fun _ => c }

def kalloc : KernelM (Option PageNo) := do
  let s ← get
  match s.freelist with
  | [] => pure none
  | r :: rest => do
    modify fun s => { s with freelist := rest }
    modify (·.fill r 5)
    pure (some r)

def kfree (page : PageNo) : KernelM Unit := do
  let s ← get
  failIf (page * PGSIZE < s.kernelEnd ∨ page * PGSIZE ≥ PHYSTOP) (.panic .kfree)
  modify (·.fill page 1)
  modify fun s => { s with freelist := page :: s.freelist }

abbrev Pte := BitVec 64

def PTE_V : Pte := 1#64 <<< 0
def PTE_R : Pte := 1#64 <<< 1
def PTE_W : Pte := 1#64 <<< 2
def PTE_X : Pte := 1#64 <<< 3
def PTE_U : Pte := 1#64 <<< 4

def pa2pte (page : PageNo) : Pte := BitVec.ofNat 64 page <<< 10

/-- The page of PTE2PA: the address is shifted in 64 bits, which leaves 52 for the page number. -/
def pte2pa (pte : Pte) : PageNo := (pte >>> 10).toNat % 2 ^ 52

def pteFlags (pte : Pte) : Pte := pte &&& 0x3FF

def Pte.has (pte mask : Pte) : Bool := pte &&& mask != 0

def px (level va : Nat) : Nat := va / 2 ^ (12 + 9 * level) % 512

def Sys.pte (s : Sys) (table : PageNo) (i : Nat) : Pte :=
  BitVec.ofNat 64 (LittleEndian.load 8 (s.mem table) (8 * i))

def Sys.setPte (s : Sys) (table : PageNo) (i : Nat) (pte : Pte) : Sys :=
  { s with mem := Function.update s.mem table (LittleEndian.store 8 (s.mem table) (8 * i) pte.toNat) }

/-- The loop of walk over the indices of the upper levels, down to a page of leaf entries. -/
def walkFrom (alloc : Bool) : PageNo → List Nat → KernelM (Option PageNo)
  | table, [] => pure (some table)
  | table, i :: rest => do
    let s ← get
    if Pte.has (s.pte table i) PTE_V then walkFrom alloc (pte2pa (s.pte table i)) rest
    else if alloc = false then pure none
    else do
      match ← kalloc with
      | none => pure none
      | some page => do
        modify (·.fill page 0)
        modify (·.setPte table i (pa2pte page ||| PTE_V))
        walkFrom alloc page rest

/-- The address of an entry is its page and its index there. -/
def walk (pagetable : PageNo) (va : Nat) (alloc : Bool) : KernelM (Option (PageNo × Nat)) := do
  failIf (va ≥ MAXVA) (.panic .walk)
  let leaf ← walkFrom alloc pagetable [px 2 va, px 1 va]
  pure (leaf.map (·, px 0 va))

def isPageMapped (pagetable : PageNo) (va : Nat) : KernelM Bool := do
  match ← walk pagetable va false with
  | none => pure false
  | some (table, i) => do
    let s ← get
    pure (Pte.has (s.pte table i) PTE_V)

/-- The loop of mappages over the pages that remain. `perm` is an int, extended with its sign. -/
def mapLoop (pagetable : PageNo) (perm : BitVec 32) : Nat → Nat → PageNo → KernelM Bool
  | 0, _, _ => pure true
  | n + 1, a, page => do
    match ← walk pagetable a true with
    | none => pure false
    | some (table, i) => do
      modify (·.setPte table i (pa2pte page ||| perm.signExtend 64 ||| PTE_V))
      mapLoop pagetable perm n (u64 (a + PGSIZE)) (page + 1)

/-- The result says whether every page could be mapped. -/
def mappages (pagetable : PageNo) (va size : Nat) (page : PageNo) (perm : BitVec 32) : KernelM Bool := do
  failIf (size = 0) (.panic .mappages)
  let first := pgrounddown va
  let last := pgrounddown (u64 (va + size - 1))
  mapLoop pagetable perm (sub64 last first / PGSIZE + 1) first page

def uvmunmapLoop (pagetable : PageNo) (doFree : Bool) : Nat → Nat → KernelM Unit
  | 0, _ => pure ()
  | n + 1, a => do
    match ← walk pagetable a false with
    | none => uvmunmapLoop pagetable doFree n (a + PGSIZE)
    | some (table, i) => do
      let s ← get
      if Pte.has (s.pte table i) PTE_V = false then uvmunmapLoop pagetable doFree n (a + PGSIZE)
      else do
        failIf (pteFlags (s.pte table i) = PTE_V) (.panic .uvmunmapLeaf)
        onlyIf (doFree = true) (kfree (pte2pa (s.pte table i)))
        modify (·.setPte table i 0)
        uvmunmapLoop pagetable doFree n (a + PGSIZE)

def uvmunmap (pagetable : PageNo) (va npages : Nat) (doFree : Bool) : KernelM Unit := do
  failIf (va % PGSIZE ≠ 0) (.panic .uvmunmapAligned)
  uvmunmapLoop pagetable doFree ((u64 (va + npages * PGSIZE) - va) / PGSIZE) va

end DeisoXv6
