import DeisoXv6.Fs.ReadWrite

/-! vma_free_mem and vma_free: the pages of a range go, and what a shared mapping has in them goes back to
its file. sys_munmap calls them for the VMA that it finds. -/

set_option autoImplicit false

namespace DeisoXv6

/-- `memset` with zeroes from `off` in a page on; `none` is a null pointer. Beyond the page there are
fewer bytes of RAM than a `uint` that has wrapped asks for. -/
def memset (page : Option PageNo) (off n : Nat) : KernelM Unit :=
  if n = 0 then pure ()
  else match page with
    | none => throw .badAddress
    | some page =>
      if off + n ≤ PGSIZE then modify (·.store page off (List.replicate n 0)) else throw .badAddress

/-- What a turn of vma_free_mem does with the page at `pos`, for the range from `addr` to `stop`. -/
structure Turn where
  start : Nat
  stop : Nat
  writeEnd : Nat
  filePos : Nat

def Vma.turn (v : Vma) (addr stop pos : Nat) : Turn :=
  let start := if addr > pos then addr else pos
  let stop := if u64 (pos + PGSIZE) > stop then stop else u64 (pos + PGSIZE)
  let fileEnd := u64 (v.start + v.fileLength)
  { start
    stop
    writeEnd := if stop > fileEnd then fileEnd else stop
    filePos := u64 (sub64 start v.start + v.offset) }

def Vma.writes (v : Vma) (turn : Turn) : Option FileId :=
  if has v.flags MAP_SHARED = true ∧ turn.writeEnd > turn.start then v.file else none

def Vma.Shares (v : Vma) (turn : Turn) (pos : Nat) : Prop :=
  (turn.start > pos ∧ turn.start > v.start) ∨ (turn.stop < u64 (pos + PGSIZE) ∧ turn.stop < v.stop)

instance (v : Vma) (turn : Turn) (pos : Nat) : Decidable (v.Shares turn pos) :=
  inferInstanceAs (Decidable (_ ∨ _))

def writeBack (turn : Turn) : Option FileId → KernelM Unit
  | none => pure ()
  | some f => do
    beginOp
    let s ← get
    let i ← ilock (s.file f).ip
    let _ ← writei copyinUser i turn.start (u32 turn.filePos) (u32 (sub64 turn.writeEnd turn.start))
    iunlock i
    endOp

/-- A page that the VMA still needs is filled with zeroes, any other one is unmapped. -/
def dropPage (pagetable : PageNo) (v : Vma) (turn : Turn) (pos : Nat) : KernelM Unit :=
  if v.Shares turn pos then do
    let pa ← walkaddr pagetable turn.start
    memset pa (turn.start - pos) (u32 (sub64 turn.stop turn.start))
  else uvmunmap pagetable pos 1 true

def freePage (pagetable : PageNo) (v : Vma) (turn : Turn) (pos : Nat) : KernelM Unit := do
  if ← isPageMapped pagetable pos then do
    writeBack turn (v.writes turn)
    dropPage pagetable v turn pos
  else pure ()

def vmaFreeMemLoop (pagetable : PageNo) (v : Vma) (addr stop : Nat) : Nat → Nat → KernelM Unit
  | 0, _ => throw .endless
  | fuel + 1, pos =>
    if pos < stop then do
      freePage pagetable v (v.turn addr stop pos) pos
      vmaFreeMemLoop pagetable v addr stop fuel (u64 (pos + PGSIZE))
    else pure ()

/-- After `2 ^ 64 / PGSIZE` turns `pos` is where it was, and the loop does not end. -/
def vmaFreeMem (pagetable : PageNo) (vma : VmaRef) (addr length : Nat) : KernelM Unit := do
  let s ← get
  vmaFreeMemLoop pagetable (s.vmas.get vma) addr (u64 (addr + length)) (2 ^ 64 / PGSIZE + 1)
    (pgrounddown addr)

def Sys.setVmas (s : Sys) (vmas : VmaTable) : Sys := { s with vmas }

def closeFile : Option FileId → KernelM Unit
  | none => pure ()
  | some f => fileclose f

def vmaFree (pagetable : PageNo) (vma : VmaRef) : KernelM Unit := do
  let s ← get
  vmaFreeMem pagetable vma (s.vmas.get vma).start (s.vmas.get vma).length
  closeFile (s.vmas.get vma).file
  modify fun s => s.setVmas (s.vmas.modify (fun _ => .free) vma)

def munmapFound (addr length : Nat) : VmaTable.Munmap → KernelM (Option Nat)
  | .notFound | .refused => pure none
  -- prev->next = it->next, with prev still 0
  | .whole none _ => throw .nullPointer
  | .whole (some prev) it => do
    modify fun s => s.setVmas (s.vmas.setNext prev (s.vmas.get it).next)
    let s ← get
    vmaFree s.pagetable it
    pure (some 0)
  | .front it => do
    let s ← get
    vmaFreeMem s.pagetable it addr length
    modify fun s => s.setVmas (s.vmas.modify (VmaTable.cutFront addr length) it)
    pure (some 0)
  | .back it => do
    let s ← get
    vmaFreeMem s.pagetable it addr length
    modify fun s => s.setVmas (s.vmas.modify (VmaTable.cutBack length) it)
    pure (some 0)

def sysMunmap (addr length : Nat) : KernelM (Option Nat) := do
  let s ← get
  match s.vmas.refs s.current with
  | .error fault => throw fault
  | .ok refs => munmapFound addr length (s.vmas.munmapFind addr length none refs)

end DeisoXv6
