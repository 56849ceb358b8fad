import DeisoXv6.Kernel.Block
import DeisoXv6.Semantics.BlockDevice

/-! The disk side of log.c: commit and recovery as programs over the cached disk.

Reads go through the buffer cache, so a home block recorded in the log is read with its cached
contents until it is installed. Reference counts (bpin, bunpin, brelse) do not affect contents and
are not represented. -/

set_option autoImplicit false

namespace DeisoXv6.RedoLog

open BlockDevice

/-- `struct logheader`; only `block[0..n)` is meaningful. -/
structure LogHeader where
  n : Nat
  block : Nat → BlockNo

/-- The fields of `struct log` that commit and recovery read besides the header. -/
structure Log where
  start : BlockNo
  size : Nat

def Log.slot (log : Log) (tail : Nat) : BlockNo := log.start + UInt32.ofNat (tail + 1)

abbrev LogProg := Prog BlockNo Block

def bread (b : BlockNo) : LogProg Block := .read b .done

def bwrite (b : BlockNo) (data : Block) : LogProg Unit := .write b data (.done ())

def installTrans (log : Log) (lh : LogHeader) : LogProg Unit :=
  Prog.forFrom (fun tail => do
    let lbuf ← bread (log.slot tail)
    let _dbuf ← bread (lh.block tail)
    bwrite (lh.block tail) lbuf) 0 lh.n

/-- The block read as a `struct logheader`. A negative count runs every loop zero times. -/
def headerOf (buf : Block) : LogHeader :=
  ⟨(intOfWord (buf.word 0)).toNat, fun i => UInt32.ofNat (buf.word (1 + i))⟩

def readHead (log : Log) : LogProg LogHeader := do
  let buf ← bread log.start
  pure (headerOf buf)

/-- `hb->block[i] = log.lh.block[i]` for `i < n`. -/
def putBlocks (hb : Block) (block : Nat → BlockNo) : Nat → Block
  | 0 => hb
  | n + 1 => (putBlocks hb block n).setWord (1 + n) (block n).toNat

def writeHead (log : Log) (lh : LogHeader) : LogProg Unit := do
  let buf ← bread log.start
  bwrite log.start (putBlocks (buf.setWord 0 lh.n) lh.block lh.n)

def recoverFromLog (log : Log) : LogProg Unit := do
  let lh ← readHead log
  installTrans log lh
  writeHead log { lh with n := 0 }

def writeLog (log : Log) (lh : LogHeader) : LogProg Unit :=
  Prog.forFrom (fun tail => do
    let _to ← bread (log.slot tail)
    let from_ ← bread (lh.block tail)
    bwrite (log.slot tail) from_) 0 lh.n

/-- Commit the transaction in `lh`; the result is the header left in memory. -/
def commit (log : Log) (lh : LogHeader) : LogProg LogHeader :=
  if 0 < lh.n then do
    writeLog log lh
    writeHead log lh
    installTrans log lh
    writeHead log { lh with n := 0 }
    pure { lh with n := 0 }
  else pure lh

theorem word_putBlocks_zero (hb : Block) (block : Nat → BlockNo) (n : Nat) :
    (putBlocks hb block n).word 0 = hb.word 0 := by
  induction n with
  | zero => rfl
  | succ n ih => rw [putBlocks, Block.word_setWord_ne _ _ _ _ (by decide) (by omega), ih]

theorem word_putBlocks (hb : Block) (block : Nat → BlockNo) (n i : Nat) (capacity : n ≤ LOGSIZE) (index : i < n) :
    (putBlocks hb block n).word (1 + i) = (block i).toNat := by
  induction n with
  | zero => omega
  | succ n ih =>
    have room : 1 + i < BSIZE / 4 := by unfold BSIZE; unfold LOGSIZE MAXOPBLOCKS at capacity; omega
    by_cases last : i = n
    · subst i
      exact Block.word_setWord_same _ _ _ room (block n).toNat_lt
    · rw [putBlocks, Block.word_setWord_ne _ _ _ _ room (by omega)]
      exact ih (by omega) (by omega)

end DeisoXv6.RedoLog
