import Mathlib.Algebra.Ring.Int.Defs
import Mathlib.Algebra.Ring.Nat

/-! The constants of param.h, riscv.h, memlayout.h and fs.h that the modelled code reads. -/

set_option autoImplicit false

namespace DeisoXv6

def NPROC : Nat := 64
def MAXOPBLOCKS : Nat := 10
def LOGSIZE : Nat := MAXOPBLOCKS * 3
def MINTICKETS : Int := 1

def BSIZE : Nat := 1024

def NDIRECT : Nat := 12

def NINDIRECT : Nat := BSIZE / 4

def MAXFILE : Nat := NDIRECT + NINDIRECT

def NINODE : Nat := 50

def NOFILE : Nat := 16
def NFILE : Nat := 100

def PIPESIZE : Nat := 512

def CONSOLE : Int := 1

def NVMA : Nat := 128 * 2 ^ 6

def PGSIZE : Nat := 4096

def PHYSTOP : Nat := 0x80000000 + 128 * 1024 * 1024

/-- One beyond the highest virtual address that the kernel uses. -/
def MAXVA : Nat := 2 ^ 38

def TRAMPOLINE : Nat := MAXVA - PGSIZE

def TRAPFRAME : Nat := TRAMPOLINE - PGSIZE

end DeisoXv6
