import DeisoXv6.Kernel.Block
import DeisoXv6.Semantics.Returns
import DeisoXv6.Vm.Vma

/-! The state that the memory and file code works on: physical pages, VMAs, open files, inodes and the
disk as the buffer cache shows it.

A system call runs here without interleaving. Of the spin locks only the number held counts, since a
process must not sleep with one; the sleep lock of an inode is kept, since one call can take it twice.
A block is what bread returns, whether the log has installed it or not. The kernel's own pages (text,
data, stacks) are not distinguished from any other page that kalloc does not hand out. -/

set_option autoImplicit false

namespace DeisoXv6

/-- A physical address divided by PGSIZE. -/
abbrev PageNo := Nat

abbrev InodeId := Fin NINODE

instance : NeZero NINODE := ⟨by decide⟩

inductive InodeType where
  | free
  | dir
  | file
  | device
  deriving DecidableEq

/-- `struct dinode`, and the part of `struct inode` that is a copy of it. -/
structure Dinode where
  type : InodeType
  major : Int
  minor : Int
  nlink : Int
  size : Nat
  addrs : Fin (NDIRECT + 1) → Nat

/-- `struct inode`, with its sleep lock. There is one device. -/
structure Inode where
  inum : Nat
  ref : Int
  locked : Bool
  valid : Bool
  copy : Dinode

inductive FileType where
  | none
  | pipe
  | inode
  | device
  deriving DecidableEq

/-- `struct file`. The structure of a pipe is a page of its own. -/
structure File where
  type : FileType
  ref : Int
  readable : Bool
  writable : Bool
  pipe : PageNo
  ip : Option InodeId
  off : Nat
  major : Int

/-- `struct pipe`; `data` holds the bytes from `nread` to `nwrite`. -/
structure Pipe where
  data : List UInt8
  fits : data.length ≤ PIPESIZE
  readopen : Bool
  writeopen : Bool

/-- What the memory and file code keeps for a process. -/
structure UserProc where
  pagetable : PageNo
  trapframe : PageNo
  sz : Nat
  ofile : Fin NOFILE → Option FileId
  cwd : Option InodeId
  killed : Bool

structure Sys where
  mem : PageNo → Nat → UInt8
  freelist : List PageNo
  /-- The address `end` where the kernel's image ends. -/
  kernelEnd : Nat
  /-- The page of the trampoline code. -/
  trampoline : PageNo
  vmas : VmaTable
  proc : ProcId → UserProc
  /-- `myproc()`. -/
  current : ProcId
  file : FileId → File
  pipe : PageNo → Pipe
  inode : InodeId → Inode
  dinode : Nat → Dinode
  /-- `sb.size`. -/
  blocks : Nat
  bitmap : Nat → Bool
  block : Nat → Block
  /-- File-system calls between begin_op and end_op. -/
  outstanding : Nat
  /-- Spin locks that the caller holds. -/
  spinlocks : Nat

abbrev KernelM := StateT Sys (Except Fault)

def failIf (condition : Prop) [Decidable condition] (fault : Fault) : KernelM Unit :=
  if condition then throw fault else pure ()

/-- An `if` without `else`. -/
def onlyIf (condition : Prop) [Decidable condition] (body : KernelM Unit) : KernelM Unit :=
  if condition then body else pure ()

open Semantics

variable {condition : Prop} {fault e : Fault} {s s' : Sys} {α : Type} {f : Unit → KernelM α} {R : Sys → Sys → Prop}

@[simp] theorem returns_failIf [Decidable condition]
    {u : Unit} : Returns (failIf condition fault) s u s' ↔ ¬condition ∧ s' = s := by
  unfold failIf
  split
  · rename_i bad
    simp [bad]
  · rename_i good
    simp [good]

theorem returns_failIf_bind [Decidable condition] {a : α} :
    Returns (failIf condition fault >>= f) s a s' ↔ ¬condition ∧ Returns (f ()) s a s' := by
  rw [returns_bind]
  constructor
  · rintro ⟨_, _, passed, run⟩
    obtain ⟨good, rfl⟩ := returns_failIf.mp passed
    exact ⟨good, run⟩
  · rintro ⟨good, run⟩
    exact ⟨(), s, returns_failIf.mpr ⟨good, rfl⟩, run⟩

@[simp] theorem fails_failIf [Decidable condition] : Fails (failIf condition fault) s e ↔ condition ∧ e = fault := by
  unfold failIf
  split
  · rename_i bad
    simp [bad]
  · rename_i good
    simp [good]

theorem fails_failIf_bind [Decidable condition] : Fails (failIf condition fault >>= f) s e ↔
      (condition ∧ e = fault) ∨ (¬condition ∧ Fails (f ()) s e) := by
  rw [fails_bind, fails_failIf]
  refine or_congr_right ⟨?_, ?_⟩
  · rintro ⟨_, _, passed, later⟩
    obtain ⟨good, rfl⟩ := returns_failIf.mp passed
    exact ⟨good, later⟩
  · rintro ⟨good, later⟩
    exact ⟨(), s, returns_failIf.mpr ⟨good, rfl⟩, later⟩

theorem failIf_within [Std.Refl R] [Decidable condition] : Within R (failIf condition fault) :=
  .ite .throw .pure

theorem onlyIf_within [Std.Refl R] [Decidable condition]
    {body : KernelM Unit} (inner : Within R body) : Within R (onlyIf condition body) :=
  .ite inner .pure

def u32 (x : Nat) : Nat := x % 2 ^ 32

end DeisoXv6
