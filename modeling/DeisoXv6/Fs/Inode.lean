import DeisoXv6.Data.Bytes
import DeisoXv6.Kernel.State

/-! Blocks and inodes: the part of fs.c that reads and writes the contents of a file.

The bitmap and the inode blocks are kept as tables. readi and writei take the copy to or from memory
as an argument, since it may itself come back to the file system through a page fault. -/

set_option autoImplicit false

namespace DeisoXv6

open Function Bytes

def beginOp : KernelM Unit := modify fun s => { s with outstanding := s.outstanding + 1 }

def endOp : KernelM Unit := modify fun s => { s with outstanding := s.outstanding - 1 }

def logWrite : KernelM Unit := do
  let s ← get
  failIf (s.outstanding = 0) (.panic .logWrite)

def Sys.setBlock (s : Sys) (b : Nat) (contents : Block) : Sys :=
  { s with block := update s.block b contents }

def Sys.setBitmap (s : Sys) (b : Nat) (used : Bool) : Sys :=
  { s with bitmap := update s.bitmap b used }

def Sys.setInode (s : Sys) (i : InodeId) (ip : Inode) : Sys :=
  { s with inode := update s.inode i ip }

def Sys.setCopy (s : Sys) (i : InodeId) (copy : Dinode) : Sys :=
  s.setInode i { s.inode i with copy }

def Sys.setAddr (s : Sys) (i : InodeId) (k : Fin (NDIRECT + 1)) (addr : Nat) : Sys :=
  s.setCopy i { (s.inode i).copy with addrs := update (s.inode i).copy.addrs k addr }

def Block.zero : Block := ⟨fun _ => 0⟩

/-- A zeroed block, the first that the bitmap has free. -/
def balloc : KernelM Nat := do
  let s ← get
  match (List.range s.blocks).find? fun b => !s.bitmap b with
  | none => throw (.panic .balloc)
  | some b => do
    logWrite
    modify (·.setBitmap b true)
    modify (·.setBlock b .zero)
    pure b

def bfree (b : Nat) : KernelM Unit := do
  let s ← get
  failIf (s.bitmap b = false) (.panic .bfree)
  logWrite
  modify (·.setBitmap b false)

def iupdate (i : InodeId) : KernelM Unit := do
  logWrite
  modify fun s => { s with dinode := update s.dinode (s.inode i).inum (s.inode i).copy }

/-- The result is the pointer itself, which is not null. -/
def ilock : Option InodeId → KernelM InodeId
  | none => throw (.panic .ilock)
  | some i => do
    let s ← get
    failIf ((s.inode i).ref < 1) (.panic .ilock)
    failIf ((s.inode i).locked = true) .deadlock
    if (s.inode i).valid then do
      modify fun s => s.setInode i { s.inode i with locked := true }
      pure i
    else do
      modify fun s => s.setInode i { s.inode i with locked := true, valid := true, copy := s.dinode (s.inode i).inum }
      failIf ((s.dinode (s.inode i).inum).type = .free) (.panic .ilockType)
      pure i

def iunlock (i : InodeId) : KernelM Unit := do
  let s ← get
  failIf ((s.inode i).locked = false ∨ (s.inode i).ref < 1) (.panic .iunlock)
  modify fun s => s.setInode i { s.inode i with locked := false }

/-- `if((addr = ip->addrs[k]) == 0) ip->addrs[k] = addr = balloc(ip->dev)`. -/
def addrAlloc (i : InodeId) (k : Fin (NDIRECT + 1)) : KernelM Nat := do
  let s ← get
  if (s.inode i).copy.addrs k ≠ 0 then pure ((s.inode i).copy.addrs k)
  else do
    let addr ← balloc
    modify (·.setAddr i k addr)
    pure addr

def indirectAlloc (b bn : Nat) : KernelM Nat := do
  let s ← get
  if (s.block b).word bn ≠ 0 then pure ((s.block b).word bn)
  else do
    let addr ← balloc
    modify fun s => s.setBlock b ((s.block b).setWord bn addr)
    logWrite
    pure addr

def bmap (i : InodeId) (bn : Nat) : KernelM Nat :=
  if direct : bn < NDIRECT then addrAlloc i ⟨bn, by omega⟩
  else if bn - NDIRECT < NINDIRECT then do
    let b ← addrAlloc i (Fin.last NDIRECT)
    indirectAlloc b (bn - NDIRECT)
  else throw (.panic .bmap)

def freeAddrs (i : InodeId) : List (Fin (NDIRECT + 1)) → KernelM Unit
  | [] => pure ()
  | k :: rest => do
    let s ← get
    onlyIf ((s.inode i).copy.addrs k ≠ 0) do
      bfree ((s.inode i).copy.addrs k)
      modify (·.setAddr i k 0)
    freeAddrs i rest

def freeEntries (b : Nat) : List Nat → KernelM Unit
  | [] => pure ()
  | bn :: rest => do
    let s ← get
    onlyIf ((s.block b).word bn ≠ 0) (bfree ((s.block b).word bn))
    freeEntries b rest

def itrunc (i : InodeId) : KernelM Unit := do
  freeAddrs i ((List.finRange NDIRECT).map Fin.castSucc)
  let s ← get
  onlyIf ((s.inode i).copy.addrs (Fin.last NDIRECT) ≠ 0) do
    freeEntries ((s.inode i).copy.addrs (Fin.last NDIRECT)) (List.range NINDIRECT)
    freeAddrs i [Fin.last NDIRECT]
  modify fun s => s.setCopy i { (s.inode i).copy with size := 0 }
  iupdate i

def iput (i : InodeId) : KernelM Unit := do
  let s ← get
  onlyIf ((s.inode i).ref = 1 ∧ (s.inode i).valid = true ∧ (s.inode i).copy.nlink = 0) do
    failIf ((s.inode i).locked = true) .deadlock
    itrunc i
    modify fun s => s.setCopy i { (s.inode i).copy with type := .free }
    iupdate i
    modify fun s => s.setInode i { s.inode i with valid := false }
  modify fun s => s.setInode i { s.inode i with ref := (s.inode i).ref - 1 }

section Contents

variable {α : Type}

/-- The loop of readi with `n` bytes to go; `none` when a copy fails. -/
def readLoop (copyout : α → List UInt8 → KernelM (Option α)) (i : InodeId) : Nat → Nat → Nat → α → KernelM (Option α)
  | 0, _, _, dst => pure (some dst)
  | fuel + 1, off, n, dst =>
    if n = 0 then pure (some dst)
    else do
      let addr ← bmap i (off / BSIZE)
      let s ← get
      let m := min n (BSIZE - off % BSIZE)
      match ← copyout dst (slice (s.block addr).bytes (off % BSIZE) m) with
      | none => pure none
      | some dst => readLoop copyout i fuel (off + m) (n - m) dst

/-- The number of bytes read, with the advanced destination; `none` is -1. Each turn of the loop reads
at least one byte. -/
def readi (copyout : α → List UInt8 → KernelM (Option α)) (i : InodeId) (off n : Nat) (dst : α) :
    KernelM (Option (Nat × α)) := do
  let s ← get
  let size := (s.inode i).copy.size
  if off > size ∨ u32 (off + n) < off then pure (some (0, dst))
  else do
    let n := if u32 (off + n) > size then size - off else n
    let last ← readLoop copyout i n off n dst
    pure (last.map (n, ·))

/-- The loop of writei with `n` bytes to go. The result is where it stops in the file. -/
def writeLoop (copyin : α → Nat → KernelM (List UInt8 × Option α)) (i : InodeId) : Nat → Nat → Nat → α → KernelM Nat
  | 0, off, _, _ => pure off
  | fuel + 1, off, n, src =>
    if n = 0 then pure off
    else do
      let addr ← bmap i (off / BSIZE)
      let m := min n (BSIZE - off % BSIZE)
      let copied ← copyin src m
      -- bp->data holds what has been copied, also when the copy then fails
      modify fun s => s.setBlock addr ⟨fun j => overlay (s.block addr).bytes (off % BSIZE) copied.1 j⟩
      match copied.2 with
      | none => pure off
      | some src => do
        logWrite
        writeLoop copyin i fuel (off + m) (n - m) src

/-- The number of bytes written, or `none` for -1. -/
def writei (copyin : α → Nat → KernelM (List UInt8 × Option α)) (i : InodeId) (src : α) (off n : Nat) :
    KernelM (Option Nat) := do
  let s ← get
  if off > (s.inode i).copy.size ∨ u32 (off + n) < off then pure none
  else if u32 (off + n) > MAXFILE * BSIZE then pure none
  else do
    let last ← writeLoop copyin i n off n src
    modify fun s => s.setCopy i { (s.inode i).copy with size := max (s.inode i).copy.size last }
    iupdate i
    pure (some (last - off))

end Contents

end DeisoXv6
