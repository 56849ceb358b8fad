import DeisoXv6.Vm.Fork

/-! The VMA lists of all processes, the calls that change them, and the condition under which a call
keeps them well formed. The checks of sys_mmap and sys_munmap are made in uint64 arithmetic, and a
length near 2^64 or a range that wraps passes them. -/

set_option autoImplicit false

namespace DeisoXv6

open Function LinkedList

structure Space where
  table : VmaTable
  live : ProcId → Bool

/-- A system call with its raw arguments, the file being the one that the descriptor names. fork
finds memory for the child's page table and for the pages of each VMA, or does not. -/
inductive Call where
  | mmap : VmaTable.Mmap → Call
  | munmap : UInt64 → UInt64 → Call
  | sbrk : BitVec 32 → Call
  | fork : Bool → (VmaRef → Bool) → Call

namespace Space

variable (s : Space)

def allocproc : Option ProcId := (List.finRange NPROC).find? fun p => !s.live p

def after : Except Fault (Option Nat × VmaTable) → Except Fault Space
  | .error fault => .error fault
  | .ok (_, t) => .ok { s with table := t }

def step (p : ProcId) : Call → Except Fault Space
  | .mmap call => s.after (s.table.mmap p call)
  | .munmap addr length => s.after (s.table.munmap p addr.toNat length.toNat)
  | .sbrk n => s.after (s.table.sbrk p n.toInt)
  | .fork memory copies => match s.allocproc with
    | none => .ok s
    | some np =>
      -- freeproc
      if memory = false then .ok { s with table := s.table.setNext (.start np) none }
      else match s.table.fork p np copies with
        | .error fault => .error fault
        | .ok (true, t) => .ok ⟨t, update s.live np true⟩
        | .ok (false, t) => .ok { s with table := t }

/-- Every live process has a well-formed list, made of slots of its own. -/
def WellFormed : Prop :=
  ∃ lists, Owned s.table s.live lists ∧ ∀ p, s.live p = true → DeisoXv6.WellFormed (s.table.regions (lists p))

def ReturnsWellFormed (r : Except Fault Space) : Prop := ∃ s', r = .ok s' ∧ s'.WellFormed

@[simp] theorem returnsWellFormed_ok : ReturnsWellFormed (.ok s) ↔ s.WellFormed :=
  ⟨fun ⟨_, same, wf⟩ => Except.ok.inj same ▸ wf, fun wf => ⟨s, rfl, wf⟩⟩

@[simp] theorem returnsWellFormed_error (fault : Fault) : ¬ReturnsWellFormed (.error fault) :=
  fun ⟨_, same, _⟩ => nomatch same

end Space

/-- The element that sys_munmap stops at. -/
def Vma.Covers (v : Vma) (addr length : Nat) : Prop := v.start ≤ addr ∧ v.stop ≥ u64 (addr + length)

/-- What must not happen when sys_munmap(addr, length) stops at `it`, with `pre` before it and `next`
behind it: the reserved VMA loses its front, or a wrapped range moves a boundary of `it` over a
neighbour. -/
structure Trims (t : VmaTable) (addr length : Nat) (pre : List VmaRef) (it next : VmaRef) : Prop where
  whole : pre = [] → ¬((t.get it).start = addr ∧ (t.get it).length = length)
  reserved : pre = [] → (t.get it).start = addr → length % PGSIZE = 0 → length = 0
  front : (t.get it).start = addr → length % PGSIZE = 0 → 2 ^ 64 ≤ addr + length →
    (t.get next).region.pageEnd ≤ addr + length - 2 ^ 64
  back : (t.get it).start ≠ addr → (t.get it).stop = u64 (addr + length) → 2 ^ 64 ≤ addr + length →
    ∀ prev ∈ pre.getLast?, pageUp addr ≤ (t.get prev).start

/-- The condition under which a call keeps the lists well formed. -/
def Space.Keeps (s : Space) (p : ProcId) : Call → Prop
  | .mmap call => call.permitted = true → s.table.vmaAlloc ≠ none → (s.table.start p).next ≠ none →
      call.length.toNat ≤ 2 ^ 64 - PGSIZE
  | .munmap addr length => ∀ pre it next post, s.table.refs p = .ok (pre ++ it :: next :: post) →
      (∀ r ∈ pre, ¬(s.table.get r).Covers addr.toNat length.toNat) →
      (s.table.get it).Covers addr.toNat length.toNat →
      Trims s.table addr.toNat length.toNat pre it next
  | .sbrk n => ∃ heap, s.table.heap p = some heap ∧
      (0 < n.toInt → ∀ refs, s.table.refs p = .ok refs → .slot heap ∈ refs)
  | .fork _ _ => True

section Lists

variable {t : VmaTable} {live : ProcId → Bool} {lists : ProcId → List VmaRef} {p q : ProcId}
  {r it next prev : VmaRef} {pre post rs : List VmaRef} {i : VmaId} {f : Vma → Vma} {s : Space}

@[simp] theorem regions_append : t.regions (pre ++ post) = t.regions pre ++ t.regions post := List.map_append

@[simp] theorem regions_cons : t.regions (r :: post) = (t.get r).region :: t.regions post := rfl

@[simp] theorem regions_nil : t.regions [] = [] := rfl

theorem region_modify_other (other : r ∉ rs) : (t.modify f r).regions rs = t.regions rs :=
  regions_congr fun r' member => by
    have apart : r' ≠ r := fun same => other (same ▸ member)
    rw [VmaTable.get_modify_other apart]

theorem Space.WellFormed.regions {s : Space} (wf : s.WellFormed) (owned : Owned s.table s.live lists)
    (alive : s.live p = true) : DeisoXv6.WellFormed (s.table.regions (lists p)) := by
  obtain ⟨lists', owned', wf'⟩ := wf
  have same := (owned.linked p alive).unique (owned'.linked p alive)
  rw [same]
  exact wf' p alive

theorem wellFormed_update (owned : Owned t live (update lists p rs)) (alive : live p = true)
    (others : ∀ q, q ≠ p → live q = true → DeisoXv6.WellFormed (t.regions (lists q))) :
    Space.WellFormed ⟨t, live⟩ ↔ DeisoXv6.WellFormed (t.regions rs) := by
  constructor
  · intro wf
    have here := wf.regions owned alive
    rwa [update_self] at here
  · refine fun wf => ⟨_, owned, fun q alive' => ?_⟩
    by_cases same : q = p
    · rw [same, update_self]
      exact wf
    · rw [update_of_ne same]
      exact others q same alive'

structure Listed (s : Space) (lists : ProcId → List VmaRef) (p : ProcId) : Prop where
  owned : Owned s.table s.live lists
  alive : s.live p = true
  wf : ∀ q, s.live q = true → DeisoXv6.WellFormed (s.table.regions (lists q))

section

variable (listed : Listed s lists p)

include listed

theorem Listed.refs : s.table.refs p = .ok (lists p) :=
  listed.owned.refs listed.alive

theorem Listed.space : s.WellFormed := ⟨lists, listed.owned, listed.wf⟩

theorem Listed.single (last : (s.table.start p).next = none) : lists p = [.start p] := by
  have linked := listed.owned.linked p listed.alive
  refine linked.unique ⟨rfl, ?_⟩
  exact congrArg (Option.map VmaRef.slot) last

theorem Listed.second (more : (s.table.start p).next ≠ none) : ∃ next post, lists p = .start p :: next :: post := by
  have linked := listed.owned.linked p listed.alive
  obtain ⟨ids, shape⟩ := VmaTable.linked_shape linked
  cases ids with
  | nil =>
    rw [shape] at linked
    have none : s.table.next (.start p) = .none := linked.2
    exact absurd (Option.map_eq_none_iff.mp none) more
  | cons i ids => exact ⟨_, _, shape⟩

theorem modified_iff (shape : lists p = pre ++ it :: post) (used : (f (s.table.get it)).used = (s.table.get it).used)
    (next : (f (s.table.get it)).next = (s.table.get it).next) : Space.WellFormed ⟨s.table.modify f it, s.live⟩ ↔
      (pre = [] → (f (s.table.get it)).start = (s.table.get it).start) ∧ (f (s.table.get it)).region.Placed ∧
      (∀ a ∈ pre.getLast?, Below (s.table.get a).region (f (s.table.get it)).region) ∧
      ∀ b ∈ post.head?, Below (f (s.table.get it)).region (s.table.get b).region := by
  have owned := listed.owned.modify used next
  have here : it ∈ lists p := by simp [shape]
  have once := (listed.owned.linked p listed.alive).nodup
  rw [shape, List.nodup_append] at once
  have before : it ∉ pre := fun member => once.2.2 _ member _ (by simp) rfl
  have behind : it ∉ post := (List.nodup_cons.mp once.2.1).1
  have others : ∀ q, q ≠ p → s.live q = true → DeisoXv6.WellFormed ((s.table.modify f it).regions (lists q)) := by
    intro q other alive
    rw [region_modify_other fun member => other (listed.owned.disjoint alive listed.alive member here)]
    exact listed.wf q alive
  have wf := listed.wf p listed.alive
  rw [← update_eq_self p lists] at owned
  rw [wellFormed_update owned listed.alive others]
  rw [shape, regions_append, regions_cons] at wf ⊢
  rw [region_modify_other before, region_modify_other behind, VmaTable.get_modify_same, wf.replace_iff]
  simp [VmaTable.regions, Vma.region]

theorem Listed.above (shape : lists p = pre ++ it :: post) :
    ∀ a ∈ pre.getLast?, Below (s.table.get a).region (s.table.get it).region := by
  have wf := listed.wf p listed.alive
  rw [shape, regions_append, regions_cons] at wf
  have itself := wf.replace_iff.mp wf
  simpa [VmaTable.regions] using itself.2.2.1

end

end Lists

end DeisoXv6
