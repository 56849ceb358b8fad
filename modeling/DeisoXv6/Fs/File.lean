import DeisoXv6.Fs.Inode
import DeisoXv6.Vm.PageTable

/-! Open files: the reference counts of file.c. -/

set_option autoImplicit false

namespace DeisoXv6

def Sys.setFile (s : Sys) (f : FileId) (file : File) : Sys :=
  { s with file := Function.update s.file f file }

def filedup (f : FileId) : KernelM Unit := do
  let s ← get
  failIf ((s.file f).ref < 1) (.panic .filedup)
  modify fun s => s.setFile f { s.file f with ref := (s.file f).ref + 1 }

open Semantics in
theorem returns_filedup {f : FileId} {s s' : Sys} {u : Unit} : Returns (filedup f) s u s' ↔
    1 ≤ (s.file f).ref ∧ s' = s.setFile f { s.file f with ref := (s.file f).ref + 1 } := by
  unfold filedup
  rw [returns_get_bind, returns_failIf_bind, returns_modify, Int.not_lt]

def Pipe.closeEnd (writable : Bool) (pi : Pipe) : Pipe :=
  if writable then { pi with writeopen := false } else { pi with readopen := false }

def pipeclose (pi : PageNo) (writable : Bool) : KernelM Unit := do
  modify fun s => { s with pipe := Function.update s.pipe pi ((s.pipe pi).closeEnd writable) }
  let s ← get
  onlyIf ((s.pipe pi).readopen = false ∧ (s.pipe pi).writeopen = false) (kfree pi)

def putInode : Option InodeId → KernelM Unit
  | none => throw .nullInode
  | some i => do
    beginOp
    iput i
    endOp

/-- What fileclose does with the last reference, `ff` being the file as it was. -/
def closeLast (ff : File) : KernelM Unit :=
  match ff.type with
  | .pipe => pipeclose ff.pipe ff.writable
  | .inode | .device => putInode ff.ip
  | .none => pure ()

def fileclose (f : FileId) : KernelM Unit := do
  let s ← get
  failIf ((s.file f).ref < 1) (.panic .fileclose)
  if (s.file f).ref - 1 > 0 then modify fun s => s.setFile f { s.file f with ref := (s.file f).ref - 1 }
  else do
    modify fun s => s.setFile f { s.file f with ref := 0, type := .none }
    closeLast (s.file f)

end DeisoXv6
