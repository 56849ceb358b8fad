import DeisoXv6.Proc.Fork
import DeisoXv6.Vm.NewTable
import DeisoXv6.Vm.PageFault

/-! allocproc: with four pages on the free list it finds a trapframe and a page table, with fewer it puts
back what it has taken. -/

set_option autoImplicit false

namespace DeisoXv6

open Function Semantics Table DeisoXv6.System

section Lifting

variable {α : Type} {m m' : System} {a : α}

theorem returns_onSys {f : KernelM α} :
    Returns (onSys f) m a m' ↔ ∃ s', Returns f m.sys a s' ∧ m' = { m with sys := s' } := by
  unfold Returns
  change (f.run m.sys).map _ = _ ↔ _
  cases f.run m.sys with
  | error e => exact ⟨fun wrong => (nomatch wrong), fun ⟨_, wrong, _⟩ => (nomatch wrong)⟩
  | ok r =>
    constructor
    · intro same
      cases same
      exact ⟨r.2, rfl, rfl⟩
    · rintro ⟨s', same, rfl⟩
      cases same
      rfl

theorem returns_onSys_bind {β : Type} {b : β} {f : KernelM α} {next : α → SystemM β} :
    Returns (onSys f >>= next) m b m' ↔
      ∃ a s', Returns f m.sys a s' ∧ Returns (next a) { m with sys := s' } b m' := by
  rw [returns_bind]
  constructor
  · rintro ⟨a, _, first, rest⟩
    obtain ⟨s', run, rfl⟩ := returns_onSys.mp first
    exact ⟨a, s', run, rest⟩
  · rintro ⟨a, s', run, rest⟩
    exact ⟨a, _, returns_onSys.mpr ⟨s', run, rfl⟩, rest⟩

theorem returns_onTable_bind {f : Table → Table} {next : Unit → SystemM α} :
    Returns (onTable f >>= next) m a m' ↔ Returns (next ()) { m with table := f m.table } a m' :=
  returns_modify_bind

end Lifting

section Allocproc

variable {g g' : Layout} {s s' : Sys} {p : ProcId} {page root trapframe pagetable : PageNo} {pages : List PageNo}

theorem Layout.Sound.assign {owner : Owner} (sound : g.Sound) (outside : ∀ r path, owner ≠ .table r path) :
    (g.assign page owner).Sound := by
  refine ⟨sound.rooted, fun q r path owned => ?_⟩
  by_cases here : q = page
  · subst here
    rw [assign_own] at owned
    exact absurd owned (outside r path)
  · exact sound.node q r path ((update_of_ne here ..).symm.trans owned)

/-- The slot `p` has memory: a trapframe and a page table that maps nothing of the user. -/
structure Allocated (g : Layout) (s : Sys) (p : ProcId) (trapframe root : PageNo) (g' : Layout) (s' : Sys) :
    Prop where
  evolves : Evolves g s g' { s' with proc := s.proc }
  known : g'.tree root [] = some root
  fresh : g.own root = .free
  others : ∀ r va, g.tree r [] = some r → va < MAXVA → s'.entry r va = s.entry r va
  empty : ∀ va, va < TRAPFRAME → s'.entry root va = 0
  bare : Uninhabited s' root
  reached : g'.Reached root
  ram : ∀ p ∈ g'.nodes root 2 [], s.InRam p
  own : g'.own trapframe = .other
  unowned : g.own trapframe = .free
  proc : s'.proc = update s.proc p { s.proc p with trapframe, pagetable := root }
  enough : 4 ≤ s.freelist.length

section

variable (memory : Allocated g s p trapframe root g' s')

include memory

theorem Allocated.vmas : s'.vmas = s.vmas := by
  have rest := memory.evolves.rest
  have same := congrArg Sys.vmas rest
  exact same

theorem Allocated.file : s'.file = s.file := by
  have rest := memory.evolves.rest
  have same := congrArg Sys.file rest
  exact same

theorem Allocated.kernelEnd : s'.kernelEnd = s.kernelEnd := by
  have rest := memory.evolves.rest
  have same := congrArg Sys.kernelEnd rest
  exact same

end

/-- The slot `p` got no page table. What it has is a trapframe at most. -/
structure Starved (s : Sys) (p : ProcId) (trapframe pagetable : PageNo) (s' : Sys) : Prop where
  few : s.freelist.length < 4
  rest : s' = { s with mem := s'.mem, freelist := s'.freelist, proc := s'.proc }
  proc : s'.proc = update s.proc p { s.proc p with trapframe, pagetable }
  pages : (trapframe = 0 ∧ pagetable = (s.proc p).pagetable ∧ s'.freelist = s.freelist) ∨
    (pagetable = 0 ∧ ∀ q, q ∈ s.freelist ↔ q = trapframe ∨ q ∈ s'.freelist)

/-- The trapframe is taken before the page table is made. -/
def Sys.takeTrapframe (s : Sys) (p : ProcId) (page : PageNo) (pages : List PageNo) : Sys :=
  ({ s with freelist := pages }.fill page 5).setProc p ({ · with trapframe := page })

theorem takeTrapframe_mem {q : PageNo} (other : q ≠ page) : (s.takeTrapframe p page pages).mem q = s.mem q :=
  update_of_ne other ..

theorem takeTrapframe_proc :
    (s.takeTrapframe p page pages).proc = update s.proc p { s.proc p with trapframe := page } := rfl

section

variable (tables : Tables g s) (first : s.freelist = page :: pages)

include tables first

theorem evolves_takeTrapframe : Tables (g.assign page .other) (s.takeTrapframe p page pages) ∧
      Evolves g s (g.assign page .other) { s.takeTrapframe p page pages with proc := s.proc } := by
  have free : g.own page = .free := (tables.free page).mp (by simp [first])
  have taken : Tables (g.assign page .other) (s.takeTrapframe p page pages) :=
    tables.take first rfl rfl (fun _ => takeTrapframe_mem) (fun wrong => nomatch wrong)
  have other : ∀ q, g.own q ≠ .free → q ≠ page := by
    rintro q used rfl
    exact used free
  refine ⟨taken, taken.frame (fun _ _ _ _ => rfl) rfl rfl, fun _ _ _ node => node, fun q used => ?_,
    fun q used _ => takeTrapframe_mem (p := p) (other q used), rfl⟩
  exact update_of_ne (other q used) ..

theorem entry_takeTrapframe {va : Nat}
    (known : g.tree root [] = some root) : (s.takeTrapframe p page pages).entry root va = s.entry root va := by
  have free : g.own page = .free := (tables.free page).mp (by simp [first])
  refine tables.entry_same (evolves_takeTrapframe tables first).1 rfl known fun path q node =>
    takeTrapframe_mem ?_
  rintro rfl
  exact tables.not_free node free

theorem allocated_newTable {s₂ : Sys}
    (made : NewTable (g.assign page .other) (s.takeTrapframe p page pages) page root g' s₂) :
    Allocated g s p page root g' (s₂.setProc p ({ · with pagetable := root })) := by
  have free : g.own page = .free := (tables.free page).mp (by simp [first])
  have before := (evolves_takeTrapframe (p := p) tables first).2
  have owner : (g.assign page .other).own page = .other := assign_own
  have apart : root ≠ page := by
    rintro rfl
    exact absurd (made.fresh.symm.trans owner) (fun wrong => nomatch wrong)
  have procs : s₂.proc = (s.takeTrapframe p page pages).proc := by rw [made.rest]
  refine ⟨?_, made.known, (update_of_ne apart ..).symm.trans made.fresh, fun r va known low => ?_,
    made.empty, ⟨⟨_, made.trampoline⟩, ⟨_, made.trapframe⟩, fun va low => ?_⟩, made.reached, made.ram, ?_, free, ?_, ?_⟩
  · refine before.trans ⟨made.tables.frame (fun _ _ _ _ => rfl) rfl rfl, made.tree, made.own, made.mem, ?_⟩
    rw [made.rest]
    rfl
  · exact (made.others r va known low).trans (entry_takeTrapframe tables first known)
  · have zero : (s₂.setProc p ({ · with pagetable := root })).entry root va = 0 := made.empty va low
    rw [zero, has_zero]
  · rw [made.own page (by rw [owner]; exact fun wrong => nomatch wrong), owner]
  · change update s₂.proc p { s₂.proc p with pagetable := root } = _
    rw [procs, takeTrapframe_proc, update_self, update_idem]
  · have enough : 3 ≤ pages.length := made.enough
    rw [first, List.length_cons]
    omega

end

theorem allocprocMemory_spec {ok : Bool} (tables : Tables g s) (sound : g.Sound)
    (run : Returns (allocprocMemory p) s ok s') :
    (ok = true ∧ ∃ trapframe root g', Allocated g s p trapframe root g' s') ∨
      (ok = false ∧ ∃ trapframe pagetable, Starved s p trapframe pagetable s') := by
  unfold allocprocMemory at run
  obtain ⟨taken, s₁, alloc, rest⟩ := returns_bind.mp run
  rcases returns_kalloc.mp alloc with ⟨empty, rfl, rfl⟩ | ⟨page, pages, first, rfl, rfl⟩
  · rw [returns_modify_bind] at rest
    obtain ⟨rfl, rfl⟩ := returns_pure.mp rest
    exact .inr ⟨rfl, 0, (s₁.proc p).pagetable, by rw [empty]; decide, rfl, rfl, .inl ⟨rfl, rfl, rfl⟩⟩
  · dsimp only at rest
    rw [returns_modify_bind] at rest
    obtain ⟨made, s₂, table, rest⟩ := returns_bind.mp rest
    have free : g.own page = .free := (tables.free page).mp (by simp [first])
    have grown := (evolves_takeTrapframe (p := p) tables first).1
    have sound' : (g.assign page .other).Sound := sound.assign fun _ _ wrong => nomatch wrong
    rcases procPagetable_spec grown sound' table with ⟨root, g', rfl, new⟩ | ⟨rfl, few, only, same⟩
    · dsimp only at rest
      rw [returns_modify_bind] at rest
      obtain ⟨rfl, rfl⟩ := returns_pure.mp rest
      exact .inl ⟨rfl, page, root, g', allocated_newTable tables first new⟩
    · dsimp only at rest
      rw [returns_modify_bind] at rest
      obtain ⟨rfl, rfl⟩ := returns_pure.mp rest
      have few : pages.length < 3 := few
      refine .inr ⟨rfl, page, 0, by rw [first, List.length_cons]; omega, ?_, ?_, .inr ⟨rfl, fun q => ?_⟩⟩
      · rw [only]
        rfl
      · change update s₂.proc p { s₂.proc p with pagetable := 0 } = _
        have procs : s₂.proc = (s.takeTrapframe p page pages).proc := by rw [only]
        rw [procs, takeTrapframe_proc, update_self, update_idem]
      · rw [first, List.mem_cons]
        exact or_congr_right (same q).symm

/-- The memory is as before, and the fields of `p` that freeproc clears are cleared. -/
structure Restored (s : Sys) (p : ProcId) (s' : Sys) : Prop where
  pages : ∀ q, q ∈ s'.freelist ↔ q ∈ s.freelist
  rest : s' = { s with
    mem := s'.mem, freelist := s'.freelist
    proc := update s.proc p (s.proc p).freed, vmas := s.vmas.setNext (.start p) none }

theorem Starved.restored {s₁ : Sys} (starved : Starved s p trapframe pagetable s₁) (tables : Tables g s)
    (none : (s.proc p).pagetable = 0) (run : Returns (freeprocMemory p) s₁ () s') : Restored s p s' := by
  have slot : s₁.proc p = { s.proc p with trapframe, pagetable } := by rw [starved.proc, update_self]
  have noTable : pagetable = 0 := by
    rcases starved.pages with ⟨-, same, -⟩ | ⟨zero, -⟩
    · exact same.trans none
    · exact zero
  unfold freeprocMemory at run
  rw [returns_get_bind, slot] at run
  obtain ⟨_, s₂, freed, rest⟩ := returns_bind.mp run
  obtain ⟨_, s₃, skip, last⟩ := returns_bind.mp rest
  rw [onlyIf, if_neg (fun wrong => wrong noTable)] at skip
  obtain ⟨-, rfl⟩ := returns_pure.mp skip
  rw [returns_modify_bind, returns_modify] at last
  have after : MemOnly s₁ s₃ ∧ ∀ q, q ∈ s₃.freelist ↔ q ∈ s.freelist := by
    rcases starved.pages with ⟨zero, -, same⟩ | ⟨-, list⟩
    · rw [onlyIf, if_neg (fun wrong => wrong zero)] at freed
      obtain ⟨-, rfl⟩ := returns_pure.mp freed
      exact ⟨rfl, fun q => by rw [same]⟩
    · have ram := tables.ram trapframe ((list trapframe).mpr (.inl rfl))
      have taken : trapframe ≠ 0 := by
        rintro rfl
        have := tables.kernel
        omega
      rw [onlyIf, if_pos taken] at freed
      obtain ⟨-, rfl⟩ := returns_kfree.mp freed
      refine ⟨rfl, fun q => ?_⟩
      rw [list q]
      exact List.mem_cons
  obtain ⟨only, list⟩ := after
  have procs : s₃.proc = s₁.proc := by rw [only]
  have emptied : update s₁.proc p (s₁.proc p).freed = update s.proc p (s.proc p).freed := by
    rw [slot, starved.proc, update_idem]
    rfl
  subst last
  refine ⟨list, ?_⟩
  unfold Sys.setProc
  rw [procs, emptied, only, starved.rest]
  rfl

/-- What the calls below need of the kernel: the page tables and the free list are in order, and the slots
that are not in use have no page table. -/
structure System.Ready (g : Layout) (m : System) : Prop where
  tables : Tables g m.sys
  sound : g.Sound
  slots : ∀ p, (m.table.proc p).state = .unused → (m.sys.proc p).pagetable = 0

variable {m m' : System}

theorem unusedSlot_state (found : m.table.unusedSlot = some p) : (m.table.proc p).state = .unused := by
  have holds := List.find?_some found
  exact of_decide_eq_true holds

theorem freeproc_used {t : Table} (used : (t.proc p).state = .used) :
    ((t.freeFields p).free p).totalTickets = t.totalTickets ∧ (((t.freeFields p).free p).proc p).state = .unused := by
  have same : ((t.freeFields p).proc p).state = .used := by
    simp only [freeFields, modify_proc, if_true, used]
  constructor
  · simp only [free, modify_totalTickets, withdraw, same]
    rfl
  · simp only [free, modify_proc, if_true]

theorem freeproc_returns (run : Returns (System.freeproc p) m () m') :
    ∃ s', Returns (freeprocMemory p) m.sys () s' ∧ m' = ⟨s', (m.table.freeFields p).free p⟩ := by
  unfold System.freeproc at run
  rw [returns_onSys_bind] at run
  obtain ⟨_, s', memory, rest⟩ := run
  rw [returns_onTable_bind] at rest
  exact ⟨s', memory, returns_modify.mp rest⟩

theorem allocproc_spec {a : Option ProcId} (ready : m.Ready g) (run : Returns allocproc m a m') :
    (a = none ∧ m.table.unusedSlot = none ∧ m' = m) ∨ ∃ p, m.table.unusedSlot = some p ∧
      ((a = none ∧ m.sys.freelist.length < 4 ∧ Restored m.sys p m'.sys ∧
          m'.table.totalTickets = m.table.totalTickets ∧ (m'.table.proc p).state = .unused) ∨
        (a = some p ∧ m'.table = (m.table.allocpid p).setUsed p ∧
          ∃ trapframe root g', Allocated g m.sys p trapframe root g' m'.sys)) := by
  unfold allocproc at run
  rw [returns_get_bind] at run
  cases found : m.table.unusedSlot with
  | none =>
    rw [found] at run
    obtain ⟨rfl, rfl⟩ := returns_pure.mp run
    exact .inl ⟨rfl, rfl, rfl⟩
  | some p =>
    rw [found] at run
    refine .inr ⟨p, rfl, ?_⟩
    dsimp only at run
    rw [returns_onTable_bind, returns_onTable_bind, returns_onSys_bind] at run
    obtain ⟨ok, s₁, alloc, run⟩ := run
    rcases allocprocMemory_spec ready.tables ready.sound alloc with
      ⟨rfl, memory⟩ | ⟨rfl, trapframe, pagetable, starved⟩
    · rw [if_pos rfl] at run
      obtain ⟨rfl, rfl⟩ := returns_pure.mp run
      exact .inr ⟨rfl, rfl, memory⟩
    · rw [if_neg (by simp)] at run
      obtain ⟨_, m₂, freed, run⟩ := returns_bind.mp run
      obtain ⟨rfl, rfl⟩ := returns_pure.mp run
      obtain ⟨s₂, memory, rfl⟩ := freeproc_returns freed
      have used : (((m.table.allocpid p).setUsed p).proc p).state = .used := by
        simp only [setUsed, setState, modify_proc, if_true]
      obtain ⟨tickets, state⟩ := freeproc_used used
      exact .inl ⟨rfl, starved.few,
        starved.restored ready.tables (ready.slots p (unusedSlot_state found)) memory, tickets, state⟩

def Table.forked (t : Table) (p np : ProcId) : Table := ((t.inherit p np).setParent p np).publish np

theorem fork_parts {np : ProcId} {m₁ : System} {a : Option Int}
    (alloc : Returns allocproc m (some np) m₁) (run : Returns fork m a m') :
    ∃ s₁ s₂ ok, Returns (forkInherit m.sys.current np) m₁.sys () s₁ ∧
      Returns (forkVmas m.sys.current np) s₁.locked ok s₂ ∧
      ((ok = true ∧ a.isSome ∧ m' = ⟨{ s₂ with spinlocks := s₂.spinlocks - 1 }, m₁.table.forked m.sys.current np⟩) ∨
        (ok = false ∧ a = none ∧ ∃ s₃, Returns (freeprocMemory np) s₂ () s₃ ∧
          m' = ⟨{ s₃ with spinlocks := s₃.spinlocks - 1 },
            ((m₁.table.forked m.sys.current np).freeFields np).free np⟩)) := by
  unfold fork at run
  rw [returns_get_bind] at run
  obtain ⟨b, m₂, alloc', rest⟩ := returns_bind.mp run
  obtain ⟨rfl, rfl⟩ := alloc.unique alloc'
  dsimp only at rest
  rw [returns_onTable_bind, returns_onSys_bind] at rest
  obtain ⟨_, s₁, inherit, rest⟩ := rest
  rw [returns_get_bind, returns_onTable_bind, returns_onSys_bind] at rest
  obtain ⟨_, _, locked, rest⟩ := rest
  have acquired := returns_modify.mp locked
  subst acquired
  rw [returns_onTable_bind, returns_onSys_bind] at rest
  obtain ⟨ok, s₂, copy, rest⟩ := rest
  refine ⟨s₁, s₂, ok, inherit, copy, ?_⟩
  cases ok with
  | true =>
    rw [if_pos rfl, returns_onSys_bind] at rest
    obtain ⟨_, _, unlock, rest⟩ := rest
    have released := returns_modify.mp unlock
    subst released
    obtain ⟨rfl, rfl⟩ := returns_pure.mp rest
    exact .inl ⟨rfl, rfl, rfl⟩
  | false =>
    rw [if_neg (by simp)] at rest
    obtain ⟨_, m₃, freed, rest⟩ := returns_bind.mp rest
    obtain ⟨s₃, memory, rfl⟩ := freeproc_returns freed
    rw [returns_onSys_bind] at rest
    obtain ⟨_, _, unlock, rest⟩ := rest
    have released := returns_modify.mp unlock
    subst released
    obtain ⟨rfl, rfl⟩ := returns_pure.mp rest
    exact .inr ⟨rfl, rfl, s₃, memory, rfl⟩

end Allocproc

/-! A system with one process. -/

def System.alone (vmas : VmaTable) (pages : List PageNo) : System where
  sys :=
    { Sys.single heapVma pages with
      vmas
      proc := update (fun _ => ⟨0, 0, 0, fun _ => none, none, false⟩) 0
        ⟨emptyRoot, 0x87ffe, 0, fun _ => none, some 0, false⟩ }
  table := { boot with proc := update boot.proc 0 { Proc.empty with state := .running } }

theorem single_sound {pages : List PageNo} : (Layout.single pages).Sound := by
  refine ⟨fun r path p node => ?_, fun p r path owned => ?_⟩
  · simp only [Layout.single] at node ⊢
    split at node
    · rename_i here
      simp [here.1]
    · contradiction
  · simp only [Layout.single] at owned ⊢
    split at owned
    · contradiction
    · split at owned
      · rename_i here
        cases owned
        simp [here]
      · contradiction

theorem alone_ready (vmas : VmaTable) (pages : List PageNo) (nodup : pages.Nodup) (apart : emptyRoot ∉ pages)
    (ram : ∀ p ∈ pages, 0x80030000 ≤ p * PGSIZE ∧ p * PGSIZE < PHYSTOP) :
    (alone vmas pages).Ready (.single pages) := by
  have tables := single_tables heapVma pages nodup apart ram
  refine ⟨tables.frame (fun _ _ _ _ => rfl) rfl rfl, single_sound, fun p unused => ?_⟩
  have other : p ≠ 0 := by
    rintro rfl
    change ProcState.running = .unused at unused
    contradiction
  change (update (fun _ => (⟨0, 0, 0, fun _ => none, none, false⟩ : UserProc)) 0 _ p).pagetable = 0
  rw [update_of_ne other]

def lastPages : List PageNo := [0x87ff0, 0x87ff1, 0x87ff2, 0x87ff3]

theorem lastPages_ready {vmas : VmaTable} : (alone vmas lastPages).Ready (.single lastPages) :=
  alone_ready vmas lastPages (by decide) (by decide) (by decide)

end DeisoXv6
