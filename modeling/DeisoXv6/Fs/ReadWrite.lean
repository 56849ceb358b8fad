import DeisoXv6.Vm.Access

/-! read and write: file.c, with the pipes and the console behind it.

A process that sleeps on a pipe or on the console gives up the spin lock, and finds what the others have
left when it wakes up. That is an argument here: the pipes, or the lines typed, that it finds one after
the other. When there are no more of them it sleeps on. -/

set_option autoImplicit false

namespace DeisoXv6

def Sys.pagetable (s : Sys) : PageNo := (s.proc s.current).pagetable

def Sys.killed (s : Sys) : Bool := (s.proc s.current).killed

def Sys.locked (s : Sys) : Sys := { s with spinlocks := s.spinlocks + 1 }

def acquire : KernelM Unit := modify Sys.locked

def release : KernelM Unit := modify fun s => { s with spinlocks := s.spinlocks - 1 }

def allocrangeLoop (pagetable : PageNo) (stop : Nat) : Nat → Nat → KernelM Unit
  | 0, _ => throw .endless
  | fuel + 1, pa =>
    if pa < stop then do
      let _ ← walkaddr pagetable pa
      allocrangeLoop pagetable stop fuel (u64 (pa + PGSIZE))
    else pure ()

/-- After `2 ^ 64 / PGSIZE` turns `pa` is where it was, and the loop does not end. -/
def allocrange (pagetable : PageNo) (va sz : Nat) : KernelM Unit :=
  allocrangeLoop pagetable (u64 (va + sz)) (2 ^ 64 / PGSIZE + 1) va

def size64 (n : Int) : Nat := (n % 2 ^ 64).toNat

def size32 (n : Int) : Nat := (n % 2 ^ 32).toNat

def Sys.setPipe (s : Sys) (pi : PageNo) (pipe : Pipe) : Sys :=
  { s with pipe := Function.update s.pipe pi pipe }

def Pipe.pop (pi : Pipe) : Pipe :=
  { pi with
    data := pi.data.tail
    fits := by
      have fits := pi.fits
      rw [List.length_tail]
      omega }

def Pipe.push (pi : Pipe) (ch : UInt8) (room : pi.data.length ≠ PIPESIZE) : Pipe :=
  { pi with
    data := pi.data ++ [ch]
    fits := by
      have fits := pi.fits
      rw [List.length_append, List.length_singleton]
      omega }

/-- Wait for a byte, or for the last writer to go; `false` if the process is killed. -/
def pipeAwait (pi : PageNo) (wakes : List Pipe) : KernelM Bool := do
  let s ← get
  if (s.pipe pi).data = [] ∧ (s.pipe pi).writeopen = true then
    if s.killed then pure false
    else match wakes with
      | [] => throw .endless
      | next :: wakes => do
        modify (·.setPipe pi next)
        pipeAwait pi wakes
  else pure true

/-- The bytes one by one; the result is how many have arrived. -/
def pipereadLoop (pi : PageNo) : Nat → Nat → KernelM Nat
  | 0, _ => pure 0
  | n + 1, addr => do
    let s ← get
    match (s.pipe pi).data with
    | [] => pure 0
    | ch :: _ => do
      modify fun s => s.setPipe pi (s.pipe pi).pop
      let copied ← copyout s.pagetable addr [ch]
      if copied.2 then (· + 1) <$> pipereadLoop pi n (u64 (addr + 1)) else pure 0

def piperead (pi : PageNo) (addr : Nat) (n : Int) (wakes : List Pipe) : KernelM (Option Nat) := do
  acquire
  if ← pipeAwait pi wakes then do
    let i ← pipereadLoop pi n.toNat addr
    release
    pure (some i)
  else do
    release
    pure none

/-- With `n` bytes to go. A turn writes a byte or sleeps. -/
def pipewriteLoop (pi : PageNo) : Nat → Nat → Nat → List Pipe → KernelM (Option Nat)
  | 0, _, _, _ => pure (some 0)
  | fuel + 1, addr, n, wakes =>
    if n = 0 then pure (some 0)
    else do
      let s ← get
      if (s.pipe pi).readopen = false ∨ s.killed then pure none
      else if room : (s.pipe pi).data.length ≠ PIPESIZE then do
        let copied ← copyin s.pagetable addr 1
        match copied with
        | ([ch], true) => do
          modify (·.setPipe pi ((s.pipe pi).push ch room))
          Option.map (· + 1) <$> pipewriteLoop pi fuel (u64 (addr + 1)) (n - 1) wakes
        | _ => pure (some 0)
      else match wakes with
        | [] => throw .endless
        | next :: wakes => do
          modify (·.setPipe pi next)
          pipewriteLoop pi fuel addr n wakes

def pipewrite (pi : PageNo) (addr : Nat) (n : Int) (wakes : List Pipe) : KernelM (Option Nat) := do
  acquire
  let i ← pipewriteLoop pi (n.toNat + wakes.length) addr n.toNat wakes
  release
  pure i

/-- With `n` bytes to go, of which `input` has been typed. A turn reads a byte or sleeps. -/
def consolereadLoop : Nat → Nat → Nat → List UInt8 → List (List UInt8) → KernelM (Option Nat)
  | 0, _, _, _, _ => pure (some 0)
  | fuel + 1, dst, n, input, wakes =>
    if n = 0 then pure (some 0)
    else match input with
      | [] => do
        let s ← get
        if s.killed then pure none
        else match wakes with
          | [] => throw .endless
          | next :: wakes => consolereadLoop fuel dst n next wakes
      | c :: input =>
        -- control-D
        if c = 4 then pure (some 0)
        else do
          let s ← get
          let copied ← copyout s.pagetable dst [c]
          if copied.2 then
            -- the end of the line
            if c = 10 then pure (some 1)
            else Option.map (· + 1) <$> consolereadLoop fuel (u64 (dst + 1)) (n - 1) input wakes
          else pure (some 0)

def consoleread (dst : Nat) (n : Int) (input : List UInt8) (wakes : List (List UInt8)) : KernelM (Option Nat) := do
  acquire
  let i ← consolereadLoop (n.toNat + wakes.length) dst n.toNat input wakes
  release
  pure i

/-- uartputc takes the bytes; its lock is not held while they are copied. -/
def consolewrite : Nat → Nat → KernelM Nat
  | 0, _ => pure 0
  | n + 1, src => do
    let s ← get
    let copied ← copyin s.pagetable src 1
    if copied.2 then (· + 1) <$> consolewrite n (u64 (src + 1)) else pure 0

structure Wakes where
  pipes : List Pipe
  input : List UInt8
  lines : List (List UInt8)

def copyoutUser (dst : Nat) (bytes : List UInt8) : KernelM (Option Nat) := do
  let s ← get
  let copied ← copyout s.pagetable dst bytes
  pure (if copied.2 then some (u64 (dst + bytes.length)) else none)

/-- `f->off += r`. -/
def Sys.advance (s : Sys) (f : FileId) (r : Nat) : Sys :=
  { s with file := Function.update s.file f { s.file f with off := u32 ((s.file f).off + r) } }

def fileread (f : FileId) (addr : Nat) (n : Int) (wakes : Wakes) : KernelM (Option Nat) := do
  let s ← get
  if (s.file f).readable = false then pure none
  else do
    allocrange s.pagetable addr (size64 n)
    match (s.file f).type with
    | .pipe => piperead (s.file f).pipe addr n wakes.pipes
    | .device =>
      if (s.file f).major = CONSOLE then consoleread addr n wakes.input wakes.lines else pure none
    | .inode => do
      let i ← ilock (s.file f).ip
      let s ← get
      let r ← readi copyoutUser i (s.file f).off (size32 n) addr
      modify fun s => s.advance f ((r.map Prod.fst).getD 0)
      iunlock i
      pure (r.map Prod.fst)
    | .none => throw (.panic .fileread)

def MAXWRITE : Nat := (MAXOPBLOCKS - 1 - 1 - 2) / 2 * BSIZE

/-- The bytes written to a file in turns of `MAXWRITE`, `n` being left. -/
def filewriteLoop (f : FileId) : Nat → Nat → Nat → KernelM Nat
  | 0, _, _ => pure 0
  | fuel + 1, addr, n =>
    if n = 0 then pure 0
    else do
      let n1 := min n MAXWRITE
      beginOp
      let s ← get
      let i ← ilock (s.file f).ip
      let s ← get
      let r ← writei copyinUser i addr (s.file f).off n1
      modify fun s => s.advance f (r.getD 0)
      iunlock i
      endOp
      if r = some n1 then (· + n1) <$> filewriteLoop f fuel (u64 (addr + n1)) (n - n1) else pure 0

def filewrite (f : FileId) (addr : Nat) (n : Int) (wakes : Wakes) : KernelM (Option Nat) := do
  let s ← get
  if (s.file f).writable = false then pure none
  else do
    allocrange s.pagetable addr (size64 n)
    match (s.file f).type with
    | .pipe => pipewrite (s.file f).pipe addr n wakes.pipes
    | .device =>
      if (s.file f).major = CONSOLE then some <$> consolewrite n.toNat addr else pure none
    | .inode => do
      let i ← filewriteLoop f n.toNat addr n.toNat
      pure (if (i : Int) = n then some i else none)
    | .none => throw (.panic .filewrite)

/-- The part of wait that copies the exit status of a child that has exited; the result is whether it
goes on to free the child. -/
def waitCopy (addr : Nat) (xstate : List UInt8) : KernelM Bool := do
  -- wait_lock and np->lock
  acquire
  acquire
  let s ← get
  if addr = 0 then pure true
  else do
    let copied ← copyout s.pagetable addr xstate
    if copied.2 then pure true
    else do
      release
      release
      pure false

end DeisoXv6
