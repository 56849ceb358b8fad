import DeisoXv6.Vm.Lazy
import DeisoXv6.Vm.WellFormed

/-! The page faults of usertrap, and when the access that faulted can go on afterwards. -/

set_option autoImplicit false

namespace DeisoXv6

open Function Semantics Layout

inductive Access where
  | fetch
  | load
  | store
  deriving DecidableEq

def Access.bit : Access → Pte
  | .fetch => PTE_X
  | .load => PTE_R
  | .store => PTE_W

/-- What the hardware asks of an entry for an access in user mode. A writable page that is not readable
is reserved, and every access to it faults. -/
structure Permits (pte : Pte) (kind : Access) : Prop where
  valid : Pte.has pte PTE_V = true
  user : Pte.has pte PTE_U = true
  kind : Pte.has pte kind.bit = true
  reserved : Pte.has pte PTE_W = true → Pte.has pte PTE_R = true

instance (pte : Pte) (kind : Access) : Decidable (Permits pte kind) :=
  decidable_of_iff (Pte.has pte PTE_V = true ∧ Pte.has pte PTE_U = true ∧ Pte.has pte kind.bit = true ∧
      (Pte.has pte PTE_W = true → Pte.has pte PTE_R = true))
    ⟨fun ⟨valid, user, here, reserved⟩ => ⟨valid, user, here, reserved⟩,
      fun ⟨valid, user, here, reserved⟩ => ⟨valid, user, here, reserved⟩⟩

def setKilled : KernelM Unit :=
  modify fun s =>
    { s with proc := update s.proc s.current { s.proc s.current with killed := true } }

/-- The branch of usertrap for a page fault; `stval` is the address. -/
def usertrapFault (stval : Nat) : KernelM Unit := do
  let s ← get
  match ← walkaddr (s.proc s.current).pagetable stval with
  | none => setKilled
  | some _ => pure ()

def Access.prot : Access → BitVec 32
  | .fetch => PROT_EXEC
  | .load => PROT_READ
  | .store => PROT_WRITE

structure Vma.Allows (v : Vma) (kind : Access) : Prop where
  kind : has v.permission kind.prot = true
  reserved : has v.permission PROT_WRITE = true → has v.permission PROT_READ = true

instance (v : Vma) (kind : Access) : Decidable (v.Allows kind) :=
  decidable_of_iff (has v.permission kind.prot = true ∧
      (has v.permission PROT_WRITE = true → has v.permission PROT_READ = true))
    ⟨fun ⟨here, reserved⟩ => ⟨here, reserved⟩, fun ⟨here, reserved⟩ => ⟨here, reserved⟩⟩

section Entry

variable {page : PageNo} {v : Vma}

theorem lazyPte_bit (kind : Access) : Pte.has (lazyPte page v) kind.bit = has v.permission kind.prot := by
  cases kind with
  | fetch =>
    rw [show Access.fetch.bit = 1#64 <<< 3 from rfl, has_bit (by decide), getLsbD_lazyPte (by decide),
      show Access.fetch.prot = 1#32 <<< 2 from rfl, has_prot_bit (by decide)]
    simp
  | load =>
    rw [show Access.load.bit = 1#64 <<< 1 from rfl, has_bit (by decide), getLsbD_lazyPte (by decide),
      show Access.load.prot = 1#32 <<< 0 from rfl, has_prot_bit (by decide)]
    simp
  | store =>
    rw [show Access.store.bit = 1#64 <<< 2 from rfl, has_bit (by decide), getLsbD_lazyPte (by decide),
      show Access.store.prot = 1#32 <<< 1 from rfl, has_prot_bit (by decide)]
    simp

theorem lazyPte_permits {kind : Access} : Permits (lazyPte page v) kind ↔ v.Allows kind := by
  have write : Pte.has (lazyPte page v) PTE_W = has v.permission PROT_WRITE := lazyPte_bit .store
  have read : Pte.has (lazyPte page v) PTE_R = has v.permission PROT_READ := lazyPte_bit .load
  constructor
  · rintro ⟨-, -, here, reserved⟩
    rw [write, read] at reserved
    exact ⟨lazyPte_bit kind ▸ here, reserved⟩
  · rintro ⟨here, reserved⟩
    rw [← write, ← read] at reserved
    exact ⟨lazyPte_valid, lazyPte_user, (lazyPte_bit kind).trans here, reserved⟩

end Entry

/-- Before the fault: the process is to be killed, or a page is mapped whose VMA allows the access. -/
def Sys.Resolves (s : Sys) (va : Nat) (kind : Access) : Prop :=
  let root := (s.proc s.current).pagetable
  (s.proc s.current).killed = true ∨ ¬s.Open root va ∨
    (¬s.Present root va ∧ (s.freelist.length ≤ (s.lacks root va).card ∨
      ∀ vma, s.vmaAt va = some vma → (s.vmas.get vma).Allows kind))

def emptyRoot : PageNo := 0x87fff

/-- The reserved VMA and `v` are on the list and nothing is mapped yet. A file of 6000 bytes is open. -/
def Sys.single (v : Vma) (pages : List PageNo) : Sys where
  mem := fun _ _ => 0
  freelist := pages
  kernelEnd := 0x80030000
  trampoline := 0x80007
  vmas :=
    { slot := update (fun _ => .free) 0 v
      start := update (fun _ => .free) 0
        ⟨false, MAXVA - 2 * PGSIZE, 2 * PGSIZE, 0, none, 0, 0, 0, some 0⟩
      heap := fun _ => none }
  proc := fun _ => ⟨emptyRoot, 0x87ffe, 0, fun _ => none, none, false⟩
  current := 0
  file := fun _ => ⟨.inode, 1, true, true, 0, some 0, 0, 0⟩
  pipe := fun _ => ⟨[], by decide, false, false⟩
  inode := fun _ => ⟨2, 1, false, true, ⟨.file, 0, 0, 1, 6000, fun k => if k.val < 6 then 50 + k.val else 0⟩⟩
  dinode := fun _ => ⟨.file, 0, 0, 1, 6000, fun k => if k.val < 6 then 50 + k.val else 0⟩
  blocks := 1000
  bitmap := fun b => decide (b < 56)
  block := fun b => ⟨fun _ => UInt8.ofNat b⟩
  outstanding := 0
  spinlocks := 0

def Layout.single (pages : List PageNo) : Layout where
  own := fun p => if p ∈ pages then .free else if p = emptyRoot then .table emptyRoot [] else .other
  tree := fun r path => if r = emptyRoot ∧ path = [] then some emptyRoot else none

theorem single_tree (pages : List PageNo) : (single pages).tree emptyRoot [] = some emptyRoot := by
  simp [single]

theorem single_tables (v : Vma) (pages : List PageNo) (nodup : pages.Nodup) (apart : emptyRoot ∉ pages)
    (ram : ∀ p ∈ pages, 0x80030000 ≤ p * PGSIZE ∧ p * PGSIZE < PHYSTOP) :
    Tables (.single pages) (.single v pages) := by
  have node : ∀ {r path p}, (single pages).tree r path = some p →
      r = emptyRoot ∧ path = [] ∧ p = emptyRoot := by
    intro r path p here
    simp only [single] at here
    split at here
    · rename_i root
      exact ⟨root.1, root.2, (Option.some.inj here).symm⟩
    · contradiction
  refine ⟨nodup, fun p => ?_, ram, show 0x80000000 ≤ 0x80030000 by decide, fun r path p here => ?_,
    fun r path p here => ?_, fun r path i _ => by simp [single], fun r path p i here _ _ => ?_⟩
  · change p ∈ pages ↔ (if p ∈ pages then Owner.free else _) = .free
    by_cases free : p ∈ pages
    · simp [free]
    · by_cases root : p = emptyRoot
      · simp [root]
      · simp [free, root]
  · obtain ⟨rfl, rfl, rfl⟩ := node here
    exact (if_neg apart).trans (if_pos rfl)
  · obtain ⟨-, -, rfl⟩ := node here
    decide
  · obtain ⟨rfl, rfl, rfl⟩ := node here
    have below : (single pages).tree emptyRoot ([] ++ [i]) = none := by simp [single]
    rw [below]
    change Pte.has (BitVec.ofNat 64 (LittleEndian.load 8 (fun _ => 0) (8 * i))) PTE_V = false
    rw [LittleEndian.load_zero]
    exact has_zero

theorem single_wellFormed {v : Vma} {pages : List PageNo} (placed : v.region.Placed)
    (below : v.region.pageEnd ≤ RESERVED) :
    WellFormed ([VmaRef.start 0, .slot 0].map fun r => ((Sys.single v pages).vmas.get r).region) := by
  refine ⟨rfl, fun r member => ?_, List.isChain_pair.mpr below⟩
  rcases List.mem_pair.mp member with rfl | rfl
  · exact ⟨show (MAXVA - 2 * PGSIZE) % PGSIZE = 0 by decide,
      show MAXVA - 2 * PGSIZE + 2 * PGSIZE < 2 ^ 64 by decide⟩
  · exact placed

def heapVma : Vma := ⟨true, PGSIZE, PGSIZE, 0, none, 0, PROT_READ ||| PROT_WRITE, MAP_PRIVATE, none⟩

def heapProcess : Sys := .single heapVma [0x87ff0, 0x87ff1, 0x87ff2]

theorem heapProcess_tables : Tables (.single heapProcess.freelist) heapProcess :=
  single_tables _ _ (by decide) (by decide) (by decide)

end DeisoXv6
