import DeisoXv6.Proc.Frame
import DeisoXv6.Proc.Inherit
import DeisoXv6.Vm.Duplicate
import DeisoXv6.Vm.Reserved
import DeisoXv6.Vm.SysMmap

/-! A fork that succeeds: the child has the parent's list of VMAs, its files and a copy of its pages, and
nothing of the parent has changed.

The loop over the VMAs does three things at a time. What it does to the table of VMAs is `VmaTable.fork`;
the pages and the references to files are followed beside it. -/

set_option autoImplicit false

namespace DeisoXv6

open List Function Semantics LinkedList VmaTable

def Vma.HasPage (v : Vma) (q : Nat) : Prop := v.start / PGSIZE ≤ q ∧ q * PGSIZE < v.start + v.length

def VmaTable.backed (t : VmaTable) (refs : List VmaRef) (f : FileId) : Nat :=
  refs.countP fun r => (t.get r).file = some f

section Turn

variable {s s' : Sys} {p np : ProcId} {it1 it2 : VmaRef} {rest : List VmaRef}

theorem dupFile_returns {file : Option FileId} (run : Returns (dupFile file) s () s') :
    s' = { s with file := s'.file } ∧ ∀ f, s'.file f = (s.file f).more (if file = some f then 1 else 0) := by
  cases file with
  | none =>
    obtain ⟨-, rfl⟩ := returns_pure.mp run
    exact ⟨rfl, fun f => by rw [if_neg (by simp), more_zero]⟩
  | some g =>
    obtain ⟨-, rfl⟩ := returns_filedup.mp run
    refine ⟨rfl, fun f => ?_⟩
    by_cases same : f = g
    · subst same
      rw [if_pos rfl]
      exact update_self ..
    · rw [if_neg (fun wrong => same (Option.some.inj wrong).symm), more_zero]
      exact update_of_ne same ..

/-- The table of VMAs after a turn that has found the slot `i`. -/
def VmaTable.forkTurn (t : VmaTable) (p np : ProcId) (it2 it1 : VmaRef) (i : VmaId) : VmaTable :=
  (((t.setNext it2 (some i)).modify (fun _ => (t.setNext it2 (some i)).get it1) (.slot i))).forkHeap p np it1 i

theorem forkVmasLoop_turn (run : Returns (forkVmasLoop p np it2 (it1 :: rest)) s true s') :
    ∃ i s₁ s₂, s.vmas.vmaAlloc = some i ∧ Returns (uvmcopyOffseted (s.proc p).pagetable (s.proc np).pagetable
        ((s.vmas.setNext it2 (some i)).get it1).start ((s.vmas.setNext it2 (some i)).get it1).length)
        (s.setVmas (s.vmas.setNext it2 (some i))) true s₁ ∧ s₂ = { s₁ with vmas := s₂.vmas, file := s₂.file } ∧
      s₂.vmas = s.vmas.forkTurn p np it2 it1 i ∧
      (∀ f, s₂.file f = (s₁.file f).more (if ((s.vmas.setNext it2 (some i)).get it1).file = some f then 1 else 0)) ∧
      Returns (forkVmasLoop p np (.slot i) rest) s₂ true s' := by
  have failed : ∀ t, ¬Returns (forkVmasErr np) t true s' := by
    intro t wrong
    unfold forkVmasErr at wrong
    rw [returns_get_bind] at wrong
    split at wrong
    · exact returns_throw wrong
    · obtain ⟨_, _, _, last⟩ := returns_bind.mp wrong
      exact absurd (returns_pure.mp last).1 (by simp)
  unfold forkVmasLoop at run
  rw [returns_get_bind, returns_modify_bind] at run
  dsimp only at run
  split at run
  · exact absurd run (failed _)
  · rename_i i slot
    rw [returns_get_bind] at run
    obtain ⟨ok, s₁, copy, rest⟩ := returns_bind.mp run
    cases ok with
    | false =>
      rw [if_neg (by simp)] at rest
      exact absurd rest (failed _)
    | true =>
      rw [if_pos rfl, returns_modify_bind] at rest
      obtain ⟨_, s₂, dup, rest⟩ := returns_bind.mp rest
      rw [returns_modify_bind] at rest
      have only : MemOnly (s.setVmas (s.vmas.setNext it2 (some i))) s₁ := by
        rw [slot] at copy
        exact uvmcopyLoop_within _ _ _ copy
      have vmas : s₁.vmas = s.vmas.setNext it2 (some i) := by
        rw [only]
        rfl
      rw [slot] at copy dup
      obtain ⟨duped, files⟩ := dupFile_returns dup
      refine ⟨i, s₁, s₂.setVmas (s₂.vmas.forkHeap p np it1 i), slot, copy, ?_, ?_, files, rest⟩
      · rw [duped]
        rfl
      · have copied : s₂.vmas = s₁.vmas.modify (fun _ => s₁.vmas.get it1) (.slot i) := by
          rw [duped]
          rfl
        change s₂.vmas.forkHeap p np it1 i = _
        rw [copied, vmas]
        rfl

end Turn

theorem WellFormed.tail_low {rs : List Region} (wf : WellFormed rs) : ∀ r ∈ rs.tail, r.start + r.length ≤ RESERVED := by
  intro r member
  obtain ⟨a, front, rfl⟩ : ∃ a front, rs = a :: front := by
    cases rs with
    | nil => exact absurd member (by simp)
    | cons a front => exact ⟨a, front, rfl⟩
  obtain ⟨pre, post, rfl⟩ := append_of_mem (show r ∈ front from member)
  obtain ⟨pre', b, shape⟩ := (eq_nil_or_concat (a :: pre)).resolve_left (by simp)
  have whole : a :: (pre ++ r :: post) = pre' ++ b :: r :: post := by
    rw [← cons_append, shape, concat_eq_append, append_assoc]
    rfl
  rw [whole] at wf
  have start := wf.start_le b (by simp)
  exact Region.end_le_pageEnd.trans (wf.last_below.trans start)

variable {pages : Nat → Prop} {done : List VmaRef}

section Loop

variable {live : ProcId → Bool} {lists : ProcId → List VmaRef} {p np : ProcId} {old new : PageNo}
  {g₀ g : Layout} {s₀ s s' : Sys}

/-- What the loop over `rest` does, with the child's list built up to `it2`. -/
structure ForkedVmas (p np : ProcId) (old new : PageNo) (g₀ : Layout) (s₀ : Sys) (pages : Nat → Prop) (it2 : VmaRef)
    (rest : List VmaRef) (s s' : Sys) : Prop where
  vmas : forkLoop p np (fun _ => true) s.vmas it2 rest = .ok (true, s'.vmas)
  files : ∀ f, s'.file f = (s.file f).more (s.vmas.backed rest f)
  pages : ∃ g', Duplicate old new g₀ s₀ (fun q => pages q ∨ ∃ r ∈ rest, (s.vmas.get r).HasPage q) g' s'
  rest : s' = { s with mem := s'.mem, freelist := s'.freelist, vmas := s'.vmas, file := s'.file }

variable (known : g₀.tree old [] = some old) (user : ∀ q, q * PGSIZE < RESERVED → s₀.Present old (q * PGSIZE) →
    g₀.own (pte2pa (s₀.entry old (q * PGSIZE))) = .user old q)

include known user

theorem forkVmasLoop_forks {before rest : List VmaRef} {it2 : VmaRef}
    (owned : Owned s.vmas live lists) (alive : live p = true)
    (building : Building s.vmas live lists np done it2) (shape : lists p = before ++ rest)
    (slots : ∀ r ∈ rest, ∃ i, r = .slot i)
    (placed : ∀ r ∈ rest, (s.vmas.get r).region.Placed ∧ (s.vmas.get r).start + (s.vmas.get r).length ≤ RESERVED)
    (parent : (s.proc p).pagetable = old) (child : (s.proc np).pagetable = new)
    (dup : Duplicate old new g₀ s₀ pages g s) (run : Returns (forkVmasLoop p np it2 rest) s true s') :
    ForkedVmas p np old new g₀ s₀ pages it2 rest s s' := by
  induction rest generalizing s done it2 before pages g with
  | nil =>
    unfold forkVmasLoop at run
    rw [returns_modify_bind] at run
    obtain ⟨-, rfl⟩ := returns_pure.mp run
    have closed : Duplicate old new g₀ s₀ pages g (s.setVmas (s.vmas.setNext it2 none)) := dup.frame rfl rfl rfl
    refine ⟨rfl, fun f => more_zero.symm, ⟨g, closed.congr fun q => ?_⟩, rfl⟩
    simp
  | cons it1 rest ih =>
    obtain ⟨i, s₁, s₂, slot, copy, only₂, vmas, files, later⟩ := forkVmasLoop_turn run
    obtain ⟨j, rfl⟩ := slots it1 (by simp)
    have member : VmaRef.slot j ∈ lists p := by simp [shape]
    have unused := vmaAlloc_unused slot
    have source : (s.vmas.setNext it2 (some i)).get (.slot j) = s.vmas.get (.slot j) :=
      get_modify_other fun same => building.outside p alive it2 building.mem_last (same ▸ member)
    rw [source] at copy files
    have used : (s.vmas.get (.slot j)).used = true := owned.used p j alive member
    have only₁ : MemOnly (s.setVmas (s.vmas.setNext it2 (some i))) s₁ := uvmcopyLoop_within _ _ _ copy
    have turn : s₂.vmas = ((s.vmas.setNext it2 (some i)).modify (fun _ => s.vmas.get (.slot j)) (.slot i)).forkHeap
        p np (.slot j) i := by
      rw [vmas, VmaTable.forkTurn, source]
    have step := building.copied owned unused used p (.slot j)
    rw [← turn] at step
    have kept : ∀ r ∈ rest, s₂.vmas.get r = s.vmas.get r := fun r later =>
      step.kept p alive r (by simp [shape, later])
    have opened : Duplicate old new g₀ s₀ pages g (s.setVmas (s.vmas.setNext it2 (some i))) := dup.frame rfl rfl rfl
    rw [parent, child] at copy
    obtain ⟨g₁, copied⟩ := opened.range known user (placed (.slot j) (by simp)).1 (placed (.slot j) (by simp)).2 copy
    have again : Duplicate old new g₀ s₀ _ g₁ s₂ := copied.frame (by rw [only₂]) (by rw [only₂]) (by rw [only₂])
    have procs : s₂.proc = s.proc := by
      rw [only₂, only₁]
      rfl
    have longer : lists p = (before ++ [.slot j]) ++ rest := by
      rw [shape, append_assoc]
      rfl
    have whole := ih step.owned step.built longer (fun r member => slots r (by simp [member]))
      (fun r member => by rw [kept r member]; exact placed r (by simp [member])) (by rw [procs]; exact parent)
      (by rw [procs]; exact child) again later
    refine ⟨?_, fun f => ?_, ?_, ?_⟩
    · rw [forkLoop, slot]
      dsimp only
      rw [source, ← turn]
      exact whole.vmas
    · have first : s₁.file = s.file := by
        rw [only₁]
        rfl
      have same : s₂.vmas.backed rest f = s.vmas.backed rest f :=
        countP_congr fun r member => by rw [kept r member]
      rw [whole.files, files, first, more_more, same]
      by_cases behind : (s.vmas.get (.slot j)).file = some f
      · rw [if_pos behind, VmaTable.backed, VmaTable.backed, countP_cons_of_pos (by simp [behind]), Nat.add_comm]
      · rw [if_neg behind, VmaTable.backed, VmaTable.backed, countP_cons_of_neg (by simp [behind]), Nat.zero_add]
    · obtain ⟨g', pages'⟩ := whole.pages
      refine ⟨g', pages'.congr fun q => ?_⟩
      have same : (∃ r ∈ rest, (s₂.vmas.get r).HasPage q) ↔ ∃ r ∈ rest, (s.vmas.get r).HasPage q :=
        exists_congr fun r => and_congr_right fun member => by rw [kept r member]
      rw [same, exists_mem_cons_iff, or_assoc]
      rfl
    · rw [whole.rest, only₂, only₁]
      rfl

theorem forkVmas_forks (owned : Owned s.vmas live lists) (dead : live np = false) (alive : live p = true)
    (wf : WellFormed (s.vmas.regions (lists p))) (parent : (s.proc p).pagetable = old)
    (child : (s.proc np).pagetable = new) (dup : Duplicate old new g₀ s₀ (fun _ => False) g s)
    (run : Returns (forkVmas p np) s true s') : s.vmas.fork p np (fun _ => true) = .ok (true, s'.vmas) ∧
      (∀ f, s'.file f = (s.file f).more (s.vmas.backed (lists p).tail f)) ∧
      (∃ g', Duplicate old new g₀ s₀ (fun q => ∃ r ∈ (lists p).tail, (s.vmas.get r).HasPage q) g' s') ∧
      s' = { s with mem := s'.mem, freelist := s'.freelist, vmas := s'.vmas, file := s'.file } := by
  have head : ∀ q, live q = true → .start np ∉ lists q := by
    intro q alive' member
    rw [owned.start_mem alive' member, alive'] at dead
    contradiction
  have building := Building.start owned dead fun _ => s.vmas.get (.start p)
  generalize first : s.vmas.modify (fun _ => s.vmas.get (.start p)) (.start np) = t at building
  have owned₁ : Owned t live lists := by
    rw [← first]
    exact owned.modify_outside head fun i same => absurd same (by simp)
  have kept : ∀ r ∈ lists p, t.get r = s.vmas.get r := by
    rw [← first]
    exact Kept.modify head _ p alive
  obtain ⟨ids, shape⟩ := linked_shape (owned.linked p alive)
  have tail : (lists p).tail = ids.map .slot := by rw [shape]; rfl
  have inside : ∀ r ∈ ids.map VmaRef.slot, r ∈ lists p := fun r member => by
    rw [shape]
    exact mem_cons_of_mem _ member
  have placed : ∀ r ∈ ids.map VmaRef.slot, (t.get r).region.Placed ∧ (t.get r).start + (t.get r).length ≤ RESERVED := by
    intro r member
    rw [kept r (inside r member)]
    refine ⟨wf.placed _ (mem_map_of_mem (inside r member)), wf.tail_low (s.vmas.get r).region ?_⟩
    rw [VmaTable.regions, ← map_tail, tail]
    exact mem_map_of_mem member
  have again : Duplicate old new g₀ s₀ (fun _ => False) g (s.setVmas t) := dup.frame rfl rfl rfl
  unfold forkVmas at run
  rw [returns_modify_bind, returns_get_bind, first] at run
  have refs : (s.setVmas t).vmas.refs p = .ok (lists p) := owned₁.refs alive
  rw [refs] at run
  dsimp only at run
  rw [tail] at run
  have parts : lists p = [.start p] ++ ids.map .slot := shape
  have forked := forkVmasLoop_forks (s := s.setVmas t) known user owned₁ alive building parts (by simp) placed parent
    child again run
  refine ⟨?_, fun f => ?_, ?_, forked.rest⟩
  · rw [VmaTable.fork, first, owned₁.refs alive, shape]
    exact forked.vmas
  · rw [forked.files, tail]
    refine congrArg (s.file f).more (countP_congr fun r member => ?_)
    change (decide ((t.get r).file = some f)) = true ↔ _
    rw [kept r (inside r member)]
  · obtain ⟨g', pages⟩ := forked.pages
    refine ⟨g', pages.congr fun q => ?_⟩
    rw [false_or, tail]
    refine exists_congr fun r => and_congr_right fun member => ?_
    change (t.get r).HasPage q ↔ _
    rw [kept r (inside r member)]

end Loop

/-- What fork relies on: page tables and VMAs in order, and the pages of the caller inside its VMAs. -/
structure Forkable (g : Layout) (live : ProcId → Bool) (lists : ProcId → List VmaRef) (m : System) : Prop where
  ready : m.Ready g
  mapped : Mapped g m.sys (lists m.sys.current)
  owned : Owned m.sys.vmas live lists
  alive : live m.sys.current = true
  slots : ∀ p, live p = true → (m.table.proc p).state ≠ .unused
  covered : ∀ q, q * PGSIZE < RESERVED → m.sys.Present m.sys.pagetable (q * PGSIZE) →
    ∃ r ∈ (lists m.sys.current).tail, (m.sys.vmas.get r).HasPage q

/-- The page at `va` of `new` in `s'` is a copy of the one of `old` in `s`, on a page that was free. -/
structure FreshCopy (old new : PageNo) (s s' : Sys) (va : Nat) : Prop where
  present : s'.Present new va
  flags : pteFlags (s'.entry new va) = pteFlags (s.entry old va)
  fresh : pte2pa (s'.entry new va) ∈ s.freelist
  contents : s'.mem (pte2pa (s'.entry new va)) = s.mem (pte2pa (s.entry old va))

/-- The process `p` has the same memory, page table and VMAs. -/
structure ParentKept (p : ProcId) (refs : List VmaRef) (s s' : Sys) : Prop where
  proc : s'.proc p = s.proc p
  entry : ∀ va, va < MAXVA → s'.entry (s.proc p).pagetable va = s.entry (s.proc p).pagetable va
  memory : ∀ q, q * PGSIZE < RESERVED → s.Present (s.proc p).pagetable (q * PGSIZE) →
    s'.mem (pte2pa (s.entry (s.proc p).pagetable (q * PGSIZE))) =
      s.mem (pte2pa (s.entry (s.proc p).pagetable (q * PGSIZE)))
  list : s'.vmas.refs p = .ok refs
  vmas : ∀ r ∈ refs, s'.vmas.get r = s.vmas.get r
  heap : s'.vmas.heap p = s.vmas.heap p

/-- The child `np` is a duplicate of the parent `p`, whose VMAs are `lists p`. -/
structure Duplicated (live : ProcId → Bool) (lists : ProcId → List VmaRef) (p np : ProcId) (s s' : Sys) : Prop where
  vmas : ∃ refs, s'.vmas.refs np = .ok refs ∧ CopyOf s.vmas s'.vmas (lists p) refs ∧ refs.Nodup ∧
    (∀ i, .slot i ∈ refs → (s'.vmas.slot i).used = true ∧ ∀ q, live q = true → .slot i ∉ lists q) ∧
    ∀ h, s.vmas.heap p = some h → .slot h ∈ lists p → ∃ i, s'.vmas.heap np = some i ∧
      (VmaRef.slot i, VmaRef.slot h) ∈ refs.zip (lists p)
  files : ∀ f, (s'.file f).ref =
    (s.file f).ref + s.vmas.backed (lists p).tail f + (s.proc p).handles (List.finRange NOFILE) f
  descriptors : (s'.proc np).ofile = (s.proc p).ofile
  mapped : ∀ q, q * PGSIZE < RESERVED → s.Present (s.proc p).pagetable (q * PGSIZE) →
    FreshCopy (s.proc p).pagetable (s'.proc np).pagetable s s' (q * PGSIZE)
  unmapped : ∀ q, q * PGSIZE < RESERVED → ¬s.Present (s.proc p).pagetable (q * PGSIZE) →
    ¬s'.Present (s'.proc np).pagetable (q * PGSIZE)
  apart : ∀ q q', q * PGSIZE < RESERVED → q' * PGSIZE < RESERVED →
    s'.Present (s'.proc np).pagetable (q * PGSIZE) → s'.Present (s'.proc np).pagetable (q' * PGSIZE) →
    pte2pa (s'.entry (s'.proc np).pagetable (q * PGSIZE)) = pte2pa (s'.entry (s'.proc np).pagetable (q' * PGSIZE)) →
    q = q'
  parent : ParentKept p (lists p) s s'

section Fork

variable {g g' : Layout} {live : ProcId → Bool} {lists : ProcId → List VmaRef} {m m' : System} {np : ProcId}
  {pid : Int} {s s' s₁ : Sys} {old new trapframe root : PageNo}

theorem fork_some (run : Returns System.fork m (some pid) m') : ∃ np m₁, Returns System.allocproc m (some np) m₁ := by
  unfold System.fork at run
  rw [returns_get_bind] at run
  obtain ⟨slot, m₁, alloc, rest⟩ := returns_bind.mp run
  cases slot with
  | none => exact absurd (returns_pure.mp rest).1 (by simp)
  | some np => exact ⟨np, m₁, alloc⟩

theorem Inherited.duplicate (inherited : Inherited m.sys.current np s₁ s') (sound : g.Sound) (tables : Tables g s)
    (memory : Allocated g s np trapframe root g' s₁) : Duplicate old root g s (fun _ => False) g' s'.locked := by
  refine ⟨(inherited.tables memory).frame (fun _ _ _ _ => rfl) rfl rfl, memory.known, sound.no_tree tables memory.fresh,
    memory.evolves.tree, memory.evolves.own, fun page used outside => ?_, fun r va known low => ?_,
    fun q low wrong => wrong.elim, fun q low _ => ?_⟩
  · have apart : page ≠ (s₁.proc np).trapframe := by
      rintro rfl
      rw [memory.proc, update_self] at used
      exact used memory.unowned
    exact (inherited.mem page apart).trans (memory.evolves.mem page used outside)
  · exact (inherited.entry memory (memory.evolves.tree r [] r known)).trans (memory.others r va known low)
  · exact (inherited.entry memory memory.known).trans (memory.empty _ low)

variable {q : Nat}

theorem Duplicate.fresh (dup : Duplicate old new g s pages g' s') (tables : Tables g s)
    (low : q * PGSIZE < RESERVED) (here : pages q) (present : s.Present old (q * PGSIZE)) :
    FreshCopy old new s s' (q * PGSIZE) ∧ g'.own (pte2pa (s'.entry new (q * PGSIZE))) = .user new q := by
  obtain ⟨page, free, small, owner, entry, contents⟩ := dup.copied q low here present
  have number : pte2pa (s'.entry new (q * PGSIZE)) = page := by rw [entry, copyPte_page small]
  refine ⟨⟨?_, ?_, ?_, ?_⟩, ?_⟩
  · rw [Sys.Present, entry]
    exact copyPte_valid
  · rw [entry]
    exact copyPte_flags present
  · rw [number]
    exact (tables.free page).mpr free
  · rw [number]
    exact contents
  · rw [number]
    exact owner

theorem Cloned.vmas {p : ProcId} {t t' : VmaTable} (cloned : Cloned live lists p np t t' done)
    (dead : live np = false) (heap : t'.heap p = t.heap p) :
    t'.refs np = .ok done ∧ CopyOf t t' (lists p) done ∧ done.Nodup ∧
      (∀ i, .slot i ∈ done → (t'.slot i).used = true ∧ ∀ q, live q = true → .slot i ∉ lists q) ∧
      ∀ h, t.heap p = some h → .slot h ∈ lists p → ∃ i, t'.heap np = some i ∧
        (VmaRef.slot i, VmaRef.slot h) ∈ done.zip (lists p) := by
  have living : update live np true np = true := update_self ..
  have list : update lists np done np = done := update_self ..
  have linked := cloned.owned.linked np living
  rw [list] at linked
  refine ⟨refs_of_linked linked, cloned.copy, linked.nodup, fun i member => ⟨?_, fun q alive inside => ?_⟩, ?_⟩
  · exact cloned.owned.used np i living (by rw [list]; exact member)
  · have other : q ≠ np := by
      rintro rfl
      rw [dead] at alive
      contradiction
    refine other (cloned.owned.apart q np i ?_ living ?_ (by rw [list]; exact member))
    · rw [update_of_ne other]
      exact alive
    · rw [update_of_ne other]
      exact inside
  · rw [← heap]
    exact cloned.heap

/-- What the parts of a fork that succeeds add up to. -/
structure ForkCopied (g : Layout) (refs : List VmaRef) (np : ProcId) (root : PageNo) (g' : Layout) (m m' : System) :
    Prop where
  vmas : m.sys.vmas.fork m.sys.current np (fun _ => true) = .ok (true, m'.sys.vmas)
  pages : Duplicate m.sys.pagetable root g m.sys (fun q => ∃ r ∈ refs.tail, (m.sys.vmas.get r).HasPage q) g' m'.sys
  table : (m'.sys.proc np).pagetable = root
  files : ∀ f, m'.sys.file f = (m.sys.file f).more
    ((m.sys.proc m.sys.current).handles (List.finRange NOFILE) f + m.sys.vmas.backed refs.tail f)
  ofile : ∀ fd, (m'.sys.proc np).ofile fd = ((m.sys.proc m.sys.current).ofile fd).or ((m.sys.proc np).ofile fd)
  parent : m'.sys.proc m.sys.current = m.sys.proc m.sys.current

namespace Forkable

section

variable (forkable : Forkable g live lists m)

include forkable

theorem dead (found : m.table.unusedSlot = some np) : live np = false := by
  rw [← Bool.not_eq_true]
  exact fun alive => forkable.slots np alive (unusedSlot_state found)

theorem other (found : m.table.unusedSlot = some np) : np ≠ m.sys.current := by
  rintro rfl
  have alive := forkable.alive
  rw [forkable.dead found] at alive
  contradiction

theorem user (low : q * PGSIZE < RESERVED) (present : m.sys.Present m.sys.pagetable (q * PGSIZE)) :
    g.own (pte2pa (m.sys.entry m.sys.pagetable (q * PGSIZE))) = .user m.sys.pagetable q :=
  (forkable.mapped.held.user q low present).2.1

end

end Forkable

theorem fork_copied (forkable : Forkable g live lists m) (found : m.table.unusedSlot = some np)
    (run : Returns System.fork m (some pid) m') : ∃ root g', ForkCopied g (lists m.sys.current) np root g' m m' := by
  have other := forkable.other found
  obtain ⟨np', m₁, alloc⟩ := fork_some run
  rcases allocproc_spec forkable.ready alloc with
    ⟨wrong, -⟩ | ⟨_, found', ⟨wrong, -⟩ | ⟨same, -, trapframe, root, g', memory⟩⟩
  · contradiction
  · contradiction
  cases same
  cases found.symm.trans found'
  obtain ⟨s₁, s₂, ok, inherit, copy, ⟨rfl, -, rfl⟩ | ⟨-, wrong, -⟩⟩ := fork_parts alloc run
  case inr => contradiction
  have inherited := forkInherit_inherited other inherit
  have vmas : s₁.locked.vmas = m.sys.vmas := by
    change s₁.vmas = m.sys.vmas
    rw [inherited.rest]
    exact memory.vmas
  have parent₁ : m₁.sys.proc m.sys.current = m.sys.proc m.sys.current := by
    rw [memory.proc, update_of_ne (Ne.symm other)]
  have parent : s₁.proc m.sys.current = m.sys.proc m.sys.current := by
    rw [inherited.proc, update_of_ne (Ne.symm other), parent₁]
  have slot : m₁.sys.proc np = { m.sys.proc np with trapframe, pagetable := root } := by
    rw [memory.proc, update_self]
  have table : (s₁.proc np).pagetable = root := by
    rw [inherited.proc, update_self, slot]
    rfl
  -- the loop over the VMAs starts with a child that has no page
  have start : Duplicate m.sys.pagetable root g m.sys (fun _ => False) g' s₁.locked :=
    inherited.duplicate forkable.ready.sound forkable.ready.tables memory
  have owned : Owned s₁.locked.vmas live lists := by
    rw [vmas]
    exact forkable.owned
  have wf : WellFormed (s₁.locked.vmas.regions (lists m.sys.current)) := by
    rw [vmas]
    exact forkable.mapped.wf
  obtain ⟨forked, counts, ⟨g'', dup⟩, rest⟩ := forkVmas_forks (s := s₁.locked) forkable.mapped.held.known
    (fun _ => forkable.user) owned (forkable.dead found) forkable.alive wf (congrArg UserProc.pagetable parent) table
    start copy
  rw [vmas] at forked counts dup
  have procs : s₂.proc = s₁.proc := by
    rw [rest]
    rfl
  refine ⟨root, g'', forked, dup.frame rfl rfl rfl, ?_, fun f => ?_, fun fd => ?_, ?_⟩
  · exact (congrArg (UserProc.pagetable <| · np) procs).trans table
  · have before : s₁.locked.file f =
        (m.sys.file f).more ((m.sys.proc m.sys.current).handles (List.finRange NOFILE) f) := by
      change s₁.file f = _
      rw [inherited.file, memory.file, parent₁]
    exact (counts f).trans (by rw [before, more_more])
  · change (s₂.proc np).ofile fd = _
    rw [procs, inherited.proc, update_self, parent₁, slot]
    simp [UserProc.withFiles]
  · change s₂.proc m.sys.current = _
    rw [procs, parent]

theorem ForkCopied.kept (copied : ForkCopied g (lists m.sys.current) np root g' m m')
    (forkable : Forkable g live lists m) (found : m.table.unusedSlot = some np)
    (cloned : Cloned live lists m.sys.current np m.sys.vmas m'.sys.vmas done) :
    ParentKept m.sys.current (lists m.sys.current) m.sys m'.sys := by
  have other := Ne.symm (forkable.other found)
  refine ⟨copied.parent, fun va low => ?_, fun q low present => ?_, ?_, ?_, ?_⟩
  · exact copied.pages.others m.sys.pagetable va forkable.mapped.held.known low
  · have owner := forkable.user low present
    exact copied.pages.mem _ (fun free => nomatch owner.symm.trans free)
      (fun r path table => nomatch owner.symm.trans table)
  · have linked := cloned.owned.linked m.sys.current
    rw [update_of_ne other, update_of_ne other] at linked
    exact refs_of_linked (linked forkable.alive)
  · exact cloned.kept m.sys.current forkable.alive
  · exact fork_heap other copied.vmas

theorem fork_duplicates (forkable : Forkable g live lists m) (found : m.table.unusedSlot = some np)
    (closed : ∀ fd, (m.sys.proc np).ofile fd = none) (run : Returns System.fork m (some pid) m') :
    Duplicated live lists m.sys.current np m.sys m'.sys := by
  obtain ⟨root, g', copied⟩ := fork_copied forkable found run
  obtain ⟨ok, t', forked, spec⟩ := fork_spec _ forkable.owned (forkable.dead found) forkable.alive
  obtain ⟨rfl, rfl⟩ := Prod.mk.inj (Except.ok.inj (forked.symm.trans copied.vmas))
  obtain ⟨done, cloned⟩ := spec.succeeded rfl
  have kept := copied.kept forkable found cloned
  have mapped : ∀ q, q * PGSIZE < RESERVED → m.sys.Present m.sys.pagetable (q * PGSIZE) →
      FreshCopy m.sys.pagetable root m.sys m'.sys (q * PGSIZE) ∧
        g'.own (pte2pa (m'.sys.entry root (q * PGSIZE))) = .user root q := fun q low present =>
    copied.pages.fresh forkable.ready.tables low (forkable.covered q low present) present
  have unmapped : ∀ q, q * PGSIZE < RESERVED → ¬m.sys.Present m.sys.pagetable (q * PGSIZE) →
      ¬m'.sys.Present root (q * PGSIZE) := by
    intro q low absent present
    rw [Sys.Present, copied.pages.absent q low (fun both => absent both.2), has_zero] at present
    contradiction
  have table := copied.table
  subst table
  refine ⟨⟨done, cloned.vmas (forkable.dead found) kept.heap⟩, fun f => ?_, ?_, fun q low present => (mapped q low present).1,
    unmapped, ?_, kept⟩
  · rw [copied.files f]
    simp only [File.more, Nat.cast_add]
    omega
  · funext fd
    rw [copied.ofile, closed, Option.or_none]
  · intro q q' low low' present present' same
    have mine := (mapped q low (not_not.mp fun absent => unmapped q low absent present)).2
    have yours := (mapped q' low' (not_not.mp fun absent => unmapped q' low' absent present')).2
    rw [same, yours] at mine
    exact (Owner.user.inj mine).2.symm

end Fork

def heapSystem : System := .alone { heapProcess.vmas with heap := fun _ => some 0 } lastPages

theorem heapSystem_absent {va : Nat} : ¬heapSystem.sys.Present heapSystem.sys.pagetable va :=
  @single_absent heapVma lastPages va

theorem heapSystem_forkable :
    Forkable (.single lastPages) (fun p => p = 0) (fun _ => [.start 0, .slot 0]) heapSystem where
  ready := lastPages_ready
  mapped :=
    { held := ⟨lastPages_ready.tables, single_tree _, fun q _ present => absurd present heapSystem_absent, rfl, rfl,
        fun f pipe => absurd pipe (by simp [heapSystem, System.alone, Sys.single])⟩
      list := by decide +kernel
      wf := @single_wellFormed heapVma lastPages ⟨by decide, by decide⟩ (by decide)
      head := rfl }
  owned := @single_owned heapVma lastPages (fun _ => some 0) rfl rfl
  alive := rfl
  slots := by
    intro p alive
    obtain rfl : p = 0 := of_decide_eq_true alive
    decide
  covered := fun q _ present => absurd present heapSystem_absent

theorem heapSystem_duplicated : ∃ pid m', Returns System.fork heapSystem (some pid) m' ∧
    Duplicated (fun p => p = 0) (fun _ => [.start 0, .slot 0]) 0 1 heapSystem.sys m'.sys := by
  have run := returns_final (m := System.fork) (s := heapSystem) (a := some 1) (by decide +kernel)
  exact ⟨1, _, run, fork_duplicates heapSystem_forkable (by decide +kernel) (fun _ => rfl) run⟩

end DeisoXv6
