import DeisoXv6.Proc.Frame
import DeisoXv6.Proc.Inherit
import DeisoXv6.Vm.Ownership

/-! What a fork that fails leaves behind. allocproc undoes what it has done; what fork does after it, the
references to the open files and to the directory, stays with the slot. -/

set_option autoImplicit false

namespace DeisoXv6

open Function Semantics LinkedList VmaTable

/-- A slot that a later fork inherits nothing from. -/
structure System.Vacant (m : System) (p : ProcId) : Prop where
  state : (m.table.proc p).state = .unused
  ofile : ∀ fd, (m.sys.proc p).ofile fd = none
  cwd : (m.sys.proc p).cwd = none
  list : (m.sys.vmas.get (.start p)).next = none

/-- The resources that a failed fork has to leave as they were, and the slot that it has tried. -/
structure ForkUndone (m m' : System) : Prop where
  files : ∀ f, (m'.sys.file f).ref = (m.sys.file f).ref
  inodes : ∀ i, (m'.sys.inode i).ref = (m.sys.inode i).ref
  tickets : m'.table.totalTickets = m.table.totalTickets
  vmas : ∀ i, (m'.sys.vmas.slot i).used = (m.sys.vmas.slot i).used
  pages : ∀ page, page ∈ m'.sys.freelist ↔ page ∈ m.sys.freelist
  slot : ∀ np, m.table.unusedSlot = some np → m'.Vacant np

/-- fork fails in allocproc, and the slot that it finds has nothing left from an earlier process. -/
def FailsEarly (m : System) : Prop :=
  ∀ np, m.table.unusedSlot = some np → m.sys.freelist.length < 4 ∧
    (∀ fd, (m.sys.proc np).ofile fd = none) ∧ (m.sys.proc np).cwd = none

section ForkFailure

variable {g : Layout} {m m' : System} {s s' : Sys} {p np : ProcId}

theorem forkInherit_cwd (run : Returns (forkInherit p np) s () s') : (s'.proc np).cwd ≠ none := by
  unfold forkInherit at run
  rw [returns_modify_bind, returns_modify_bind] at run
  obtain ⟨_, s₁, -, rest⟩ := returns_bind.mp run
  rw [returns_get_bind] at rest
  obtain ⟨_, s₂, dup, last⟩ := returns_bind.mp rest
  have done := returns_modify.mp last
  subst done
  change (update s₂.proc np { s₂.proc np with cwd := (s₁.proc p).cwd } np).cwd ≠ none
  rw [update_self]
  intro null
  change (s₁.proc p).cwd = none at null
  rw [null] at dup
  exact returns_throw dup

theorem Restored.vacant (restored : Restored m.sys np m'.sys) (state : (m'.table.proc np).state = .unused) :
    m'.Vacant np ↔ (∀ fd, (m.sys.proc np).ofile fd = none) ∧ (m.sys.proc np).cwd = none := by
  have slot : m'.sys.proc np = (m.sys.proc np).freed := by
    rw [restored.rest]
    exact update_self ..
  have list : (m'.sys.vmas.get (.start np)).next = none := by
    rw [restored.rest]
    change (update m.sys.vmas.start np { m.sys.vmas.start np with next := none } np).next = none
    rw [update_self]
  constructor
  · intro vacant
    refine ⟨fun fd => ?_, ?_⟩
    · have closed := vacant.ofile fd
      rw [slot] at closed
      exact closed
    · have nowhere := vacant.cwd
      rw [slot] at nowhere
      exact nowhere
  · rintro ⟨closed, nowhere⟩
    refine ⟨state, fun fd => ?_, ?_, list⟩
    · rw [slot]
      exact closed fd
    · rw [slot]
      exact nowhere

theorem Restored.undone (restored : Restored m.sys np m'.sys) (found : m.table.unusedSlot = some np)
    (tickets : m'.table.totalTickets = m.table.totalTickets) (vacant : m'.Vacant np) : ForkUndone m m' := by
  refine ⟨fun f => ?_, fun i => ?_, tickets, fun i => ?_, restored.pages, fun q other => ?_⟩
  · rw [restored.rest]
  · rw [restored.rest]
  · rw [restored.rest]
    rfl
  · cases found.symm.trans other
    exact vacant

variable {m₁ : System} {it : VmaRef} {rest : List VmaRef} {s₁ : Sys}

theorem fork_late_cwd (alloc : Returns System.allocproc m (some np) m₁)
    (run : Returns System.fork m none m') : (m'.sys.proc np).cwd ≠ none := by
  obtain ⟨s₁, s₂, ok, inherit, copy, ending⟩ := fork_parts alloc run
  have same : s₂.proc = s₁.locked.proc := forkVmas_within _ _ _ copy
  rcases ending with ⟨-, wrong, -⟩ | ⟨-, -, s₃, memory, rfl⟩
  · contradiction
  · change (s₃.proc np).cwd ≠ none
    rw [freeprocMemory_proc memory, update_self, same]
    have kept := forkInherit_cwd inherit
    exact kept

theorem failed_fork_undone_iff (ready : m.Ready g) (run : Returns System.fork m none m') :
    ForkUndone m m' ↔ FailsEarly m := by
  have start := run
  unfold System.fork at start
  rw [returns_get_bind] at start
  obtain ⟨a, m₁, alloc, rest⟩ := returns_bind.mp start
  rcases allocproc_spec ready alloc with ⟨rfl, full, rfl⟩ | ⟨np, found, late⟩
  · obtain ⟨-, rfl⟩ := returns_pure.mp rest
    have nowhere : ∀ np, m'.table.unusedSlot ≠ some np := fun np found => nomatch full.symm.trans found
    exact iff_of_true ⟨fun _ => rfl, fun _ => rfl, rfl, fun _ => rfl, fun _ => Iff.rfl,
      fun np found => absurd found (nowhere np)⟩ fun np found => absurd found (nowhere np)
  · rcases late with ⟨rfl, few, restored, tickets, state⟩ | ⟨rfl, -, trapframe, root, g', memory⟩
    · obtain ⟨-, rfl⟩ := returns_pure.mp rest
      constructor
      · intro undone q other
        cases found.symm.trans other
        exact ⟨few, (restored.vacant state).mp (undone.slot np found)⟩
      · intro early
        exact restored.undone found tickets ((restored.vacant state).mpr (early np found).2)
    · refine iff_of_false (fun undone => ?_) fun early => ?_
      · exact fork_late_cwd alloc run (undone.slot np found).cwd
      · exact absurd (early np found).1 (Nat.not_lt.mpr memory.enough)

theorem forkVmas_exhausted (other : np ≠ p)
    (list : s.vmas.refs p = .ok (.start p :: it :: rest)) (exhausted : ∀ i, (s.vmas.slot i).used = true) :
    ∃ vmas, Returns (forkVmas p np) s false (s.setVmas vmas) := by
  -- the first VMA of the child is a copy, which is on no other list
  have copied : (s.vmas.modify (fun _ => s.vmas.get (.start p)) (.start np)).refs p =
      .ok (.start p :: it :: rest) := by
    have linked := linked_of_refs list
    obtain ⟨ids, shape⟩ := linked_shape linked
    refine refs_of_linked (linked.congr fun r member => ?_)
    rw [next_modify, update_of_ne]
    rintro rfl
    rw [shape] at member
    simp [other] at member
  have full : (s.vmas.modify (fun _ => s.vmas.get (.start p)) (.start np)).vmaAlloc = none :=
    VmaTable.vmaAlloc_full exhausted
  generalize start : s.vmas.modify (fun _ => s.vmas.get (.start p)) (.start np) = t at copied full
  have alone : (t.setNext (.start np) none).refs np = .ok [.start np] := by
    refine refs_of_linked ⟨rfl, ?_⟩
    rw [next_setNext, update_self]
    rfl
  refine ⟨t.setNext (.start np) none, ?_⟩
  unfold forkVmas
  rw [returns_modify_bind, returns_get_bind, start]
  rw [show (s.setVmas t).vmas.refs p = _ from copied]
  change Returns (forkVmasLoop p np (.start np) (it :: rest)) (s.setVmas t) false _
  unfold forkVmasLoop
  rw [returns_get_bind]
  rw [show (s.setVmas t).vmas.vmaAlloc = none from full, returns_modify_bind]
  change Returns (forkVmasErr np) (s.setVmas (t.setNext (.start np) none)) false _
  unfold forkVmasErr
  rw [returns_get_bind]
  rw [show (s.setVmas (t.setNext (.start np) none)).vmas.refs np = _ from alone]
  exact returns_bind.mpr ⟨(), _, returns_pure.mpr ⟨rfl, rfl⟩, returns_pure.mpr ⟨rfl, rfl⟩⟩

theorem freeprocMemory_frees {root : PageNo} (tables : Tables g s) (known : g.tree root [] = some root)
    (reached : g.Reached root) (bare : Uninhabited s root) (ram : ∀ page ∈ g.nodes root 2 [], s.InRam page)
    (table : (s.proc p).pagetable = root) (own : g.own (s.proc p).trapframe = .other)
    (frame : s.InRam (s.proc p).trapframe) : ∃ s', Returns (freeprocMemory p) s () s' := by
  generalize page : (s.proc p).trapframe = trapframe at own frame
  have used : g.own trapframe ≠ .free := by simp [own]
  have outside : ∀ r path, g.own trapframe ≠ .table r path := by simp [own]
  have nonzero : trapframe ≠ 0 := by
    rintro rfl
    have := tables.kernel
    have := frame.1
    omega
  have freed : Tables (g.assign trapframe .free) (s.freed trapframe) :=
    tables.give rfl rfl (fun _ => freed_mem) used outside frame.1 frame.2
  have kept : ∀ va, (s.freed trapframe).entry root va = s.entry root va := fun va =>
    tables.entry_same freed rfl known fun path q node => freed_mem (by
      rintro rfl
      exact outside _ _ (tables.table _ _ _ node))
  have nodes : (g.assign trapframe .free).nodes root 2 [] = g.nodes root 2 [] := nodes_congr rfl
  obtain ⟨s', table', -, -⟩ := procFreepagetable_frees freed known reached (bare.congr kept) (by rw [nodes]; exact ram)
  have root' : root ≠ 0 := by
    rintro rfl
    have := tables.kernel
    have := (ram 0 (mem_nodes.mpr ⟨[], by simp, by simp, known⟩)).1
    omega
  refine ⟨(s'.setProc p UserProc.freed).setVmas (s'.vmas.setNext (.start p) none), ?_⟩
  unfold freeprocMemory
  rw [returns_get_bind, page, table]
  refine returns_bind.mpr ⟨(), s.freed trapframe, ?_, returns_bind.mpr ⟨(), s', ?_, ?_⟩⟩
  · rw [onlyIf, if_pos nonzero]
    exact returns_kfree.mpr ⟨frame, rfl⟩
  · rw [onlyIf, if_pos root']
    exact table'
  · rw [returns_modify_bind]
    exact returns_modify.mpr rfl

theorem fork_late_returns {s₂ s₃ : Sys} (alloc : Returns System.allocproc m (some np) m₁)
    (inherit : Returns (forkInherit m.sys.current np) m₁.sys () s₁)
    (copy : Returns (forkVmas m.sys.current np) s₁.locked false s₂)
    (freed : Returns (freeprocMemory np) s₂ () s₃) : ∃ m', Returns System.fork m none m' := by
  refine ⟨⟨{ s₃ with spinlocks := s₃.spinlocks - 1 }, ((m₁.table.forked m.sys.current np).freeFields np).free np⟩, ?_⟩
  unfold System.fork
  rw [returns_get_bind]
  refine returns_bind.mpr ⟨some np, m₁, alloc, ?_⟩
  dsimp only
  rw [returns_onTable_bind, returns_onSys_bind]
  refine ⟨(), s₁, inherit, ?_⟩
  rw [returns_get_bind, returns_onTable_bind, returns_onSys_bind]
  refine ⟨(), s₁.locked, returns_modify.mpr rfl, ?_⟩
  rw [returns_onTable_bind, returns_onSys_bind]
  refine ⟨false, s₂, copy, ?_⟩
  rw [if_neg (by simp)]
  refine returns_bind.mpr ⟨(), ⟨s₃, ((m₁.table.forked m.sys.current np).freeFields np).free np⟩, ?_, ?_⟩
  · unfold System.freeproc
    rw [returns_onSys_bind]
    exact ⟨(), s₃, freed, returns_onTable_bind.mpr (returns_modify.mpr rfl)⟩
  · rw [returns_onSys_bind]
    exact ⟨(), _, returns_modify.mpr rfl, returns_pure.mpr ⟨rfl, rfl⟩⟩

theorem fork_exhausted (ready : m.Ready g) (alloc : Returns System.allocproc m (some np) m₁)
    (inherit : Returns (forkInherit m.sys.current np) m₁.sys () s₁) (other : np ≠ m.sys.current)
    (list : m.sys.vmas.refs m.sys.current = .ok (.start m.sys.current :: it :: rest))
    (exhausted : ∀ i, (m.sys.vmas.slot i).used = true) : ∃ m', Returns System.fork m none m' := by
  rcases allocproc_spec ready alloc with ⟨wrong, -⟩ | ⟨_, found, ⟨wrong, -⟩ | ⟨same, -, trapframe, root, g', memory⟩⟩
  · contradiction
  · contradiction
  cases same
  have inherited := forkInherit_inherited other inherit
  have slot : m₁.sys.proc np = { m.sys.proc np with trapframe, pagetable := root } := by
    rw [memory.proc, update_self]
  have vmas : s₁.vmas = m.sys.vmas := by
    rw [inherited.rest]
    exact memory.vmas
  obtain ⟨t, copy⟩ := forkVmas_exhausted (s := s₁.locked) other (by rw [← vmas] at list; exact list)
    (by rw [← vmas] at exhausted; exact exhausted)
  have child : (s₁.proc np).pagetable = root ∧ (s₁.proc np).trapframe = trapframe := by
    rw [inherited.proc, update_self, slot]
    exact ⟨rfl, rfl⟩
  have kernel : s₁.kernelEnd = m.sys.kernelEnd := by
    rw [inherited.rest]
    exact memory.kernelEnd
  have tables : Tables g' (s₁.locked.setVmas t) := (inherited.tables memory).frame (fun _ _ _ _ => rfl) rfl rfl
  have bare : Uninhabited (s₁.locked.setVmas t) root := memory.bare.congr fun va => inherited.entry memory memory.known
  have inRam : ∀ page, m.sys.InRam page → (s₁.locked.setVmas t).InRam page := by
    intro page inside
    unfold Sys.InRam
    change s₁.kernelEnd ≤ _ ∧ _
    rw [kernel]
    exact inside
  have frame : m.sys.InRam trapframe :=
    ready.tables.ram trapframe ((ready.tables.free trapframe).mpr memory.unowned)
  obtain ⟨s₃, freed⟩ := freeprocMemory_frees (p := np) tables memory.known memory.reached bare
    (fun page member => inRam page (memory.ram page member)) child.1
    ((congrArg g'.own child.2).trans memory.own) (inRam _ (child.2.symm ▸ frame))
  exact fork_late_returns alloc inherit copy freed

end ForkFailure

def nthVma (k : Nat) : Option VmaId := if inside : k < NVMA then some ⟨k, inside⟩ else none

/-- The mappings of the process, a page each, use every VMA of the pool. -/
def exhaustedVmas : VmaTable where
  slot := fun i => { heapVma with start := (NVMA - i.val) * PGSIZE, next := nthVma (i.val + 1) }
  start := (Sys.single heapVma []).vmas.start
  heap := fun _ => none

def poolExhausted (pages : List PageNo) : System := .alone exhaustedVmas pages

theorem exhaustedVmas_next {i : VmaId} : exhaustedVmas.next (.slot i) = (nthVma (i.val + 1)).map .slot := rfl

@[irreducible] def vmasFrom (k : Nat) : List VmaId := (List.finRange NVMA).drop k

variable {k : Nat}

theorem vmasFrom_end (beyond : NVMA ≤ k) : vmasFrom k = [] := by
  unfold vmasFrom
  exact List.drop_eq_nil_of_le (by rw [List.length_finRange]; exact beyond)

theorem vmasFrom_step (inside : k < NVMA) : vmasFrom k = ⟨k, inside⟩ :: vmasFrom (k + 1) := by
  unfold vmasFrom
  rw [List.drop_eq_getElem_cons (by rw [List.length_finRange]; exact inside), List.getElem_finRange]
  rfl

theorem exhaustedVmas_chain (n k : Nat) (whole : k + n = NVMA) :
    Linked exhaustedVmas.next ((nthVma k).map .slot) ((vmasFrom k).map .slot) := by
  induction n generalizing k with
  | zero =>
    have last : ¬k < NVMA := by omega
    rw [vmasFrom_end (Nat.le_of_not_lt last), nthVma, dif_neg last]
    rfl
  | succ n ih =>
    have inside : k < NVMA := by omega
    rw [vmasFrom_step inside, nthVma, dif_pos inside]
    refine ⟨rfl, ?_⟩
    rw [exhaustedVmas_next]
    exact ih (k + 1) (by omega)

/-- fork fails for want of a VMA and the slot keeps the directory of the parent. -/
theorem exhausted_pool_leaks : (poolExhausted lastPages).Ready (.single lastPages) ∧
    ∃ m', Returns System.fork (poolExhausted lastPages) none m' ∧ ¬ForkUndone (poolExhausted lastPages) m' := by
  have ready : (poolExhausted lastPages).Ready (.single lastPages) := lastPages_ready
  have alloc : Returns System.allocproc (poolExhausted lastPages) (some 1)
      (final System.allocproc (poolExhausted lastPages)) := returns_final (by decide +kernel)
  have inherit : Returns (forkInherit 0 1) (final System.allocproc (poolExhausted lastPages)).sys ()
      (final (forkInherit 0 1) (final System.allocproc (poolExhausted lastPages)).sys) :=
    returns_final (by decide +kernel)
  generalize final System.allocproc (poolExhausted lastPages) = m₁ at alloc inherit
  have list : exhaustedVmas.refs 0 = .ok (.start 0 :: .slot 0 :: (vmasFrom 1).map .slot) := by
    refine refs_of_linked ⟨rfl, rfl, ?_⟩
    rw [exhaustedVmas_next]
    exact exhaustedVmas_chain (NVMA - 1) 1 (by decide)
  obtain ⟨m', run⟩ := fork_exhausted ready alloc inherit (by decide) list (fun _ => rfl)
  refine ⟨ready, m', run, fun undone => ?_⟩
  exact fork_late_cwd alloc run (undone.slot 1 (by decide +kernel)).cwd

/-- Without a free page fork fails in allocproc. -/
theorem no_page_undone : ∃ m', Returns System.fork (poolExhausted []) none m' ∧ ForkUndone (poolExhausted []) m' := by
  have run := returns_final (m := System.fork) (s := poolExhausted []) (a := none) (by decide +kernel)
  have ready : (poolExhausted []).Ready (.single []) := alone_ready _ _ (by simp) (by simp) (by simp)
  refine ⟨_, run, (failed_fork_undone_iff ready run).mpr fun np found => ?_⟩
  obtain rfl : (1 : ProcId) = np := Option.some.inj ((by decide +kernel : _ = _).symm.trans found)
  exact ⟨by decide, fun _ => rfl, rfl⟩

end DeisoXv6
