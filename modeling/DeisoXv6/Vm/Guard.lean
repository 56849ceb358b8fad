import DeisoXv6.Vm.Effects
import DeisoXv6.Vm.Exec
import DeisoXv6.Vm.Shed

/-! The page under the stack. exec leaves one page free between the stack and the last segment, but only
as a gap of the list, and sys_mmap takes the first gap that is large enough. -/

set_option autoImplicit false

namespace DeisoXv6

open List Function LinkedList Semantics VmaTable

/-- The executable is laid out in ascending order, with room for the stack. -/
structure Ascending (rs : List Region) : Prop where
  chain : rs.reverse.IsChain Below
  top : ∀ r ∈ rs, r.pageEnd + 2 * PGSIZE ≤ RESERVED

/-- The stack of a process is the page at `base`; the VMA under it ends a page lower, and the heap is
above it. -/
def Guarded (t : VmaTable) (q : ProcId) (base : Nat) (rs : List VmaRef) : Prop :=
  ∃ above stack last below, rs = above ++ stack :: last :: below ∧ (t.get stack).region = ⟨base, PGSIZE⟩ ∧
    (t.get last).region.pageEnd + PGSIZE = base ∧ ∃ h, t.heap q = some h ∧ .slot h ∈ above

section Lists

variable {A : Type} {above below pre post : List A} {stack last it next : A}

theorem split_apart (same : above ++ stack :: last :: below = pre ++ it :: post) (one : it ≠ stack)
    (two : ∀ a ∈ pre.getLast?, a ≠ stack) : (∃ mid, above = pre ++ it :: mid ∧ post = mid ++ stack :: last :: below) ∨
      ∃ mid, pre = above ++ stack :: last :: mid ∧ below = mid ++ it :: post := by
  rcases append_eq_append_iff.mp same with ⟨mid, rfl, rest⟩ | ⟨mid, rfl, rest⟩
  · cases mid with
    | nil =>
      obtain ⟨rfl, -⟩ := List.cons.inj rest
      exact absurd rfl one
    | cons first mid =>
      obtain ⟨rfl, rest'⟩ := List.cons.inj rest
      cases mid with
      | nil => exact absurd rfl (two stack (by simp))
      | cons second mid =>
        obtain ⟨rfl, rest''⟩ := List.cons.inj rest'
        exact .inr ⟨mid, rfl, rest''⟩
  · cases mid with
    | nil =>
      obtain ⟨rfl, -⟩ := List.cons.inj rest
      exact absurd rfl one
    | cons first mid =>
      obtain ⟨rfl, rest'⟩ := List.cons.inj rest
      exact .inl ⟨mid, rfl, rest'⟩

theorem insert_apart (same : above ++ stack :: last :: below = pre ++ it :: post) (one : it ≠ stack) (new : A) :
    ∃ above' below', pre ++ it :: new :: post = above' ++ stack :: last :: below' ∧ ∀ x ∈ above, x ∈ above' := by
  rcases append_eq_append_iff.mp same with ⟨mid, rfl, rest⟩ | ⟨mid, rfl, rest⟩
  · cases mid with
    | nil =>
      obtain ⟨rfl, -⟩ := List.cons.inj rest
      exact absurd rfl one
    | cons first mid =>
      obtain ⟨rfl, rest'⟩ := List.cons.inj rest
      refine ⟨above, ?_⟩
      cases mid with
      | nil =>
        obtain ⟨rfl, rfl⟩ := List.cons.inj rest'
        exact ⟨new :: below, by simp, fun _ member => member⟩
      | cons second mid =>
        obtain ⟨rfl, rfl⟩ := List.cons.inj rest'
        exact ⟨mid ++ it :: new :: post, by simp, fun _ member => member⟩
  · cases mid with
    | nil =>
      obtain ⟨rfl, -⟩ := List.cons.inj rest
      exact absurd rfl one
    | cons first mid =>
      obtain ⟨rfl, rfl⟩ := List.cons.inj rest
      refine ⟨pre ++ it :: new :: mid, below, by simp, fun x member => ?_⟩
      simp only [mem_append, mem_cons] at member ⊢
      tauto

end Lists

section Guarded

variable {t t' : VmaTable} {live : ProcId → Bool} {lists : ProcId → List VmaRef} {p q : ProcId} {base va : Nat}
  {r it next prev : VmaRef} {pre post rs rs' : List VmaRef} {i : VmaId} {s s' : Space}

namespace Guarded

section

variable (guarded : Guarded t q base rs) (wf : WellFormed (t.regions rs))

include guarded wf

theorem free (low : base - PGSIZE ≤ va) (high : va < base) : ∀ r ∈ rs, ¬(t.get r).Holds va := by
  obtain ⟨above, stack, last, below, rfl, stackRegion, lastEnd, -⟩ := guarded
  have placed : ∀ r ∈ above ++ stack :: last :: below, (t.get r).stop = (t.get r).start + (t.get r).length :=
    fun r member => Vma.stop_eq (wf.placed _ (mem_map_of_mem member))
  have order := wf.pairwise
  rw [regions_append, regions_cons, regions_cons, pairwise_append, pairwise_cons, pairwise_cons] at order
  obtain ⟨-, ⟨-, under, -⟩, higher⟩ := order
  have stackStart : (t.get stack).start = base := congrArg Region.start stackRegion
  have lastStop : (t.get last).start + (t.get last).length + PGSIZE ≤ base :=
    lastEnd ▸ Nat.add_le_add_right (le_pageUp _) _
  rintro r member ⟨first, second⟩
  rw [placed r member] at second
  rcases mem_append.mp member with up | down
  · have beyond : (t.get stack).region.pageEnd ≤ (t.get r).start :=
      higher _ (mem_map_of_mem up) _ mem_cons_self
    have start : (t.get stack).region.start ≤ (t.get stack).region.pageEnd := Region.start_le_pageEnd
    rw [stackRegion] at start beyond
    change base ≤ _ at start
    omega
  · rcases mem_cons.mp down with rfl | down
    · omega
    · rcases mem_cons.mp down with rfl | down
      · omega
      · have beneath : (t.get r).region.pageEnd ≤ (t.get last).start := under _ (mem_map_of_mem down)
        have stop : (t.get r).start + (t.get r).length ≤ (t.get r).region.pageEnd := le_pageUp _
        omega

theorem base_lt : base < RESERVED := by
  obtain ⟨above, stack, last, below, rfl, stackRegion, -, h, -, member⟩ := guarded
  have order := wf.pairwise
  rw [regions_append, regions_cons, pairwise_append] at order
  have beyond : (t.get stack).region.pageEnd ≤ (t.get (.slot h)).start :=
    order.2.2 _ (mem_map_of_mem member) _ mem_cons_self
  have high : (t.get (.slot h)).start ≤ RESERVED :=
    wf.start_le _ (mem_map_of_mem (mem_append_left _ member))
  have stackEnd : base + PGSIZE ≤ (t.get stack).region.pageEnd := stackRegion ▸ le_pageUp _
  unfold PGSIZE at stackEnd
  omega

theorem under (once : rs.Nodup) (shape : rs = pre ++ it :: next :: post) (same : (t.get it).start = base) :
    (t.get next).region.pageEnd + PGSIZE = base := by
  obtain ⟨above, stack, last, below, rfl, stackRegion, lastEnd, -⟩ := guarded
  have order := wf.pairwise
  rw [regions_append, regions_cons, regions_cons, pairwise_append, pairwise_cons, pairwise_cons] at order
  obtain ⟨-, ⟨-, under, -⟩, higher⟩ := order
  have stackEnd : base + PGSIZE ≤ (t.get stack).region.pageEnd := stackRegion ▸ le_pageUp _
  have lastStart : (t.get last).region.start ≤ (t.get last).region.pageEnd := Region.start_le_pageEnd
  unfold PGSIZE at stackEnd lastEnd
  have here : it = stack := by
    have member : it ∈ above ++ stack :: last :: below := by simp [shape]
    rcases mem_append.mp member with up | down
    · have beyond : (t.get stack).region.pageEnd ≤ (t.get it).start :=
        higher _ (mem_map_of_mem up) _ mem_cons_self
      omega
    · rcases mem_cons.mp down with rfl | down
      · rfl
      · rcases mem_cons.mp down with rfl | down
        · change (t.get it).start ≤ _ at lastStart
          omega
        · have beneath : (t.get it).region.pageEnd ≤ (t.get last).region.start := under _ (mem_map_of_mem down)
          have start : (t.get it).region.start ≤ (t.get it).region.pageEnd := Region.start_le_pageEnd
          change (t.get it).start ≤ _ at start
          omega
  subst here
  have absent : ∀ {front back : List VmaRef}, (front ++ it :: back).Nodup → ∀ z ∈ front, ¬z = it := by
    intro front back once z member hit
    exact (nodup_append.mp once).2.2 z member it (by simp) hit
  obtain ⟨-, -, rest⟩ := first_unique (P := (· = it)) shape (absent once) rfl (absent (shape ▸ once)) rfl
  obtain ⟨rfl, -⟩ := List.cons.inj rest
  exact lastEnd

end

theorem frame (guarded : Guarded t q base rs) (same : ∀ r ∈ rs, (t'.get r).region = (t.get r).region)
    (heap : t'.heap q = t.heap q) : Guarded t' q base rs := by
  obtain ⟨above, stack, last, below, rfl, stackRegion, lastEnd, h, owner, member⟩ := guarded
  refine ⟨above, stack, last, below, rfl, ?_, ?_, h, heap.trans owner, member⟩
  · rw [same stack (by simp), stackRegion]
  · rw [same last (by simp), lastEnd]

section

variable (guarded : Guarded t q base (pre ++ it :: post))

include guarded

theorem insert (other : (t.get it).start ≠ base) (new : VmaRef)
    (same : ∀ r ∈ pre ++ it :: post, (t'.get r).region = (t.get r).region) (heap : t'.heap q = t.heap q) :
    Guarded t' q base (pre ++ it :: new :: post) := by
  obtain ⟨above, stack, last, below, shape, stackRegion, lastEnd, h, owner, member⟩ := guarded
  have apart : it ≠ stack := by
    rintro rfl
    exact other (congrArg Region.start stackRegion)
  obtain ⟨above', below', shape', more⟩ := insert_apart shape.symm apart new
  refine ⟨above', stack, last, below', shape', ?_, ?_, h, heap.trans owner, more _ member⟩
  · rw [same stack (by simp [shape]), stackRegion]
  · rw [same last (by simp [shape]), lastEnd]

theorem remove (other : (t.get it).start ≠ base)
    (notNext : ∀ a ∈ pre.getLast?, (t.get a).start ≠ base) (notHeap : (t.heap q).map .slot ≠ some it)
    (same : ∀ r ∈ pre ++ post, (t'.get r).region = (t.get r).region) (heap : t'.heap q = t.heap q) :
    Guarded t' q base (pre ++ post) := by
  obtain ⟨above, stack, last, below, shape, stackRegion, lastEnd, h, owner, member⟩ := guarded
  have stackStart : (t.get stack).start = base := congrArg Region.start stackRegion
  have apart : it ≠ stack := by
    rintro rfl
    exact other stackStart
  have behind : ∀ a ∈ pre.getLast?, a ≠ stack := by
    rintro a found rfl
    exact notNext a found stackStart
  rcases split_apart shape.symm apart behind with ⟨mid, rfl, rfl⟩ | ⟨mid, rfl, rfl⟩
  · refine ⟨pre ++ mid, stack, last, below, by simp, ?_, ?_, h, heap.trans owner, ?_⟩
    · rw [same stack (by simp), stackRegion]
    · rw [same last (by simp), lastEnd]
    · have still : VmaRef.slot h ≠ it := fun hit => notHeap (by rw [owner, Option.map_some, hit])
      simp only [mem_append, mem_cons] at member ⊢
      tauto
  · refine ⟨above, stack, last, mid ++ post, by simp, ?_, ?_, h, heap.trans owner, member⟩
    · rw [same stack (by simp), stackRegion]
    · rw [same last (by simp), lastEnd]

theorem modify (once : (pre ++ it :: post).Nodup)
    (other : (t.get it).start ≠ base) (notNext : ∀ a ∈ pre.getLast?, (t.get a).start ≠ base) (f : Vma → Vma) :
    Guarded (t.modify f it) q base (pre ++ it :: post) := by
  obtain ⟨above, stack, last, below, shape, stackRegion, lastEnd, h, owner, member⟩ := guarded
  have stackStart : (t.get stack).start = base := congrArg Region.start stackRegion
  have apart : stack ≠ it := by
    rintro rfl
    exact other stackStart
  have behind : ∀ a ∈ pre.getLast?, a ≠ stack := by
    rintro a found rfl
    exact notNext a found stackStart
  have apart' : last ≠ it := by
    rintro rfl
    rw [shape] at once
    rcases split_apart shape.symm apart.symm behind with ⟨mid, rfl, -⟩ | ⟨mid, -, rfl⟩
    · simp [nodup_append] at once
    · simp [nodup_append] at once
  refine ⟨above, stack, last, below, shape, ?_, ?_, h, by rw [heap_modify, owner], member⟩
  · rw [get_modify_other apart, stackRegion]
  · rw [get_modify_other apart', lastEnd]

end

theorem resize (guarded : Guarded t q base rs) (once : rs.Nodup) (owner : t.heap q = some i) (f : Vma → Vma) :
    Guarded (t.modify f (.slot i)) q base rs := by
  obtain ⟨above, stack, last, below, rfl, stackRegion, lastEnd, h, owner', member⟩ := guarded
  obtain rfl : h = i := Option.some.inj (owner'.symm.trans owner)
  rw [nodup_append] at once
  have apart : stack ≠ .slot h := fun hit => once.2.2 _ member stack (by simp) hit.symm
  have apart' : last ≠ .slot h := fun hit => once.2.2 _ member last (by simp) hit.symm
  refine ⟨above, stack, last, below, rfl, ?_, ?_, h, by rw [heap_modify, owner], member⟩
  · rw [get_modify_other apart, stackRegion]
  · rw [get_modify_other apart', lastEnd]

theorem copied (guarded : Guarded t p base rs) (once : rs.Nodup) (copy : CopyOf t t' rs rs')
    (heap : HeapCopied t' p q rs rs') (heaps : t'.heap p = t.heap p) : Guarded t' q base rs' := by
  obtain ⟨above, stack, last, below, rfl, stackRegion, lastEnd, h, owner, member⟩ := guarded
  have front := forall₂_take_append rs' above _ copy
  have back := forall₂_drop_append rs' above _ copy
  obtain ⟨i, owner', pair⟩ := heap h (heaps.trans owner) (by simp [member])
  rw [← take_append_drop above.length rs'] at pair ⊢
  generalize rs'.take above.length = above' at *
  generalize rs'.drop above.length = rest at *
  cases back with
  | @cons stack' _ _ _ alike rest =>
    cases rest with
    | @cons last' _ below' _ alike' _ =>
      refine ⟨above', stack', last', below', rfl, ?_, ?_, i, owner', ?_⟩
      · rw [alike.region, stackRegion]
      · rw [alike'.region, lastEnd]
      · rw [zip_append front.length_eq, mem_append] at pair
        rcases pair with up | down
        · exact (of_mem_zip up).1
        · rw [nodup_append] at once
          exact absurd rfl (once.2.2 _ member _ (of_mem_zip down).2)

end Guarded

/-- Neighbours at or above the stack leave a page between them. -/
def Space.PageAbove (s : Space) (base : Nat) (p : ProcId) : Prop :=
  ∀ refs, s.table.refs p = .ok refs → ∃ front a c back, refs = front ++ a :: c :: back ∧
    base ≤ (s.table.get c).start ∧ (s.table.get c).region.pageEnd + PGSIZE ≤ (s.table.get a).start

/-- The condition on a call under which the processes of `kin` keep the page under the stack at `base`
free. A mapping of one page finds room above the stack; an unmapped range does not belong to the heap,
to the stack or to the VMA under it; and no other process holds a pointer to a VMA that is not its own. -/
def Space.Spares (s : Space) (base : Nat) (kin : ProcId → Bool) (p : ProcId) : Call → Prop
  | .mmap call => kin p = true → 0 < call.length.toNat → call.length.toNat ≤ PGSIZE → s.PageAbove base p
  | .munmap addr length => kin p = true → ∀ pre it next post, s.table.refs p = .ok (pre ++ it :: next :: post) →
      (∀ r ∈ pre, ¬(s.table.get r).Covers addr.toNat length.toNat) →
      (s.table.get it).Covers addr.toNat length.toNat →
      (s.table.heap p).map .slot ≠ some it ∧ (s.table.get it).start ≠ base ∧
        ∀ a ∈ pre.getLast?, (s.table.get a).start ≠ base
  | .sbrk _ => kin p = false → ∀ heap refs, s.table.heap p = some heap → s.table.refs p = .ok refs → .slot heap ∈ refs
  | .fork _ _ => True

/-- Every process of `kin` has its stack at `base`, with the page under it free. -/
structure Kindred (s : Space) (kin : ProcId → Bool) (base : Nat) (lists : ProcId → List VmaRef) : Prop where
  owned : Owned s.table s.live lists
  wf : ∀ q, s.live q = true → WellFormed (s.table.regions (lists q))
  guarded : ∀ q, kin q = true → s.live q = true ∧ Guarded s.table q base (lists q)

/-- The processes of `kin` are guarded, whatever their lists are. -/
def Space.Guards (s : Space) (kin : ProcId → Bool) (base : Nat) : Prop :=
  ∃ lists, Owned s.table s.live lists ∧ ∀ q, kin q = true → s.live q = true ∧ Guarded s.table q base (lists q)

variable {kin : ProcId → Bool}

variable {a c : VmaRef} {front back : List VmaRef}

theorem mmapGap_highest {length : Nat} (order : (t.regions rs).Pairwise Below) (found : t.mmapGap length rs = some it)
    (pair : rs = front ++ a :: c :: back) (room : t.availableSpace a c ≥ pgroundup length) :
    (t.get a).start ≤ (t.get it).start := by
  induction rs generalizing front with
  | nil => exact absurd found (by simp [mmapGap])
  | cons first rest ih =>
    cases rest with
    | nil => exact absurd found (by simp [mmapGap])
    | cons second rest =>
      rw [regions_cons, pairwise_cons] at order
      rw [mmapGap] at found
      split at found
      · cases found
        cases front with
        | nil =>
          cases pair
          exact le_refl _
        | cons x front =>
          obtain ⟨-, rest'⟩ := List.cons.inj pair
          have member : a ∈ second :: rest := by simp [rest']
          have below : (t.get a).region.pageEnd ≤ (t.get it).start := order.1 _ (mem_map_of_mem member)
          exact le_trans (Region.start_le_pageEnd (r := (t.get a).region)) below
      · rename_i full
        cases front with
        | nil =>
          cases pair
          exact absurd room full
        | cons x front =>
          obtain ⟨-, rest'⟩ := List.cons.inj pair
          exact ih order.2 found rest'

namespace Kindred

section

variable (family : Kindred s kin base lists)

include family

theorem listed (alive : s.live p = true) : Listed s lists p :=
  ⟨family.owned, alive, family.wf⟩

theorem nodup (alive : s.live p = true) : (lists p).Nodup :=
  (family.owned.linked p alive).nodup

theorem guards : s.Guards kin base := ⟨lists, family.owned, family.guarded⟩

end

theorem guarded_framed : Framed fun t q rs => Guarded t q base rs :=
  fun _ _ _ _ guarded same heap => guarded.frame same heap

theorem guards_of_lineage (family : ∃ lists, Lineage (fun t q rs => Guarded t q base rs) s kin lists) :
    s.Guards kin base := by
  obtain ⟨lists, owned, guarded⟩ := family
  exact ⟨lists, owned, guarded⟩

theorem guardedLineage (family : Kindred s kin base lists) : Lineage (fun t q rs => Guarded t q base rs) s kin lists :=
  ⟨family.owned, family.guarded⟩

theorem availableSpace_eq (wf : WellFormed (t.regions rs)) (pair : rs = front ++ a :: c :: back) :
    t.availableSpace a c = (t.get a).start - (t.get c).region.pageEnd := by
  rw [pair, regions_append] at wf
  have upper : (t.get a).region.Placed := wf.placed _ (by simp)
  have lower : (t.get c).region.Placed := wf.placed _ (by simp)
  have bounded : (t.get a).start ≤ RESERVED := wf.start_le (t.get a).region (by simp)
  have below : (t.get c).region.pageEnd ≤ (t.get a).start := wf.last_below
  have ends : (t.get c).start + (t.get c).length ≤ (t.get c).region.pageEnd := le_pageUp _
  unfold RESERVED MAXVA PGSIZE at bounded
  have small : (t.get c).start + (t.get c).length ≤ 2 ^ 64 - PGSIZE := by
    unfold PGSIZE
    omega
  have aligned : (t.get a).start % PGSIZE = 0 := upper.aligned
  rw [VmaTable.availableSpace, pgrounddown_eq aligned, Vma.stop_eq lower, pgroundup_eq small]
  exact sub64_eq below (by omega)

variable {call : VmaTable.Mmap}

section

variable (family : Kindred s kin base lists)

include family

theorem gap_not_stack (member : kin p = true)
    (keeps : call.length.toNat ≤ 2 ^ 64 - PGSIZE) (spares : s.Spares base kin p (.mmap call))
    (shape : lists p = pre ++ it :: next :: post) (found : s.table.mmapGap call.length.toNat (lists p) = some it)
    (room : s.table.availableSpace it next ≥ pgroundup call.length.toNat) : (s.table.get it).start ≠ base := by
  obtain ⟨alive, guarded⟩ := family.guarded p member
  have wf := family.wf p alive
  rw [pgroundup_eq keeps] at room
  have free : ∀ {front a c back}, lists p = front ++ a :: c :: back →
      (s.table.get c).region.pageEnd + pageUp call.length.toNat ≤ (s.table.get a).start →
      (s.table.get a).start ≤ (s.table.get it).start := by
    intro front a c back pair gap
    refine mmapGap_highest wf.pairwise found pair ?_
    rw [availableSpace_eq wf pair, pgroundup_eq keeps]
    exact Nat.le_sub_of_add_le (Nat.add_comm .. ▸ gap)
  intro same
  rcases Nat.eq_zero_or_pos call.length.toNat with zero | positive
  · -- an empty mapping goes to the top
    obtain ⟨second, rest, top⟩ : ∃ second rest, lists p = .start p :: second :: rest := by
      refine (family.listed alive).second fun last => ?_
      have short := congrArg List.length (((family.listed alive).single last).symm.trans shape)
      simp only [length_append, length_cons, length_nil] at short
      omega
    have below := guarded.base_lt wf
    rw [top, regions_cons, regions_cons] at wf
    have first : (s.table.get (.start p)).start = RESERVED := wf.head_start
    have under : (s.table.get second).region.pageEnd ≤ (s.table.get (.start p)).start :=
      (isChain_cons_cons.mp wf.below).1
    have nothing : pageUp call.length.toNat = 0 := by
      rw [zero]
      decide
    have pair : lists p = [] ++ .start p :: second :: rest := top
    have highest := free pair (by omega)
    omega
  · by_cases small : call.length.toNat ≤ PGSIZE
    · obtain ⟨front, a, c, back, pair, high, gap⟩ :=
        spares member positive small (lists p) (family.owned.refs alive)
      have page : pageUp call.length.toNat ≤ PGSIZE := pageUp_le (Nat.mod_self _) small
      have highest := free pair (by omega)
      have start : (s.table.get c).region.start ≤ (s.table.get c).region.pageEnd := Region.start_le_pageEnd
      change (s.table.get c).start ≤ _ at start
      unfold PGSIZE at gap
      omega
    · -- a longer one does not fit under the stack
      have under : (s.table.get next).region.pageEnd + PGSIZE = base :=
        guarded.under wf (family.nodup alive) shape same
      rw [availableSpace_eq wf shape, same, ← under] at room
      have long := le_pageUp call.length.toNat
      omega

section

variable (alive : s.live p = true)

include alive

theorem mmap (keeps : s.Keeps p (.mmap call)) (spares : s.Spares base kin p (.mmap call))
    (effect : Effect s lists p (.mmap call) s') : s'.Guards kin base := by
  cases effect with
  | refused => exact family.guards
  | @mapped _ pre post it next i permitted shape gap room taken =>
    have more : (s.table.start p).next ≠ none := by
      intro last
      have short := congrArg List.length (((family.listed alive).single last).symm.trans shape)
      simp only [length_append, length_cons, length_nil] at short
      omega
    have short := keeps permitted (by simp [taken]) more
    apply guards_of_lineage
    refine family.guardedLineage.insert guarded_framed alive shape (vmaAlloc_unused taken) rfl rfl ?_
    intro member t' heap kept
    have guarded := (family.guarded p member).2
    have other := family.gap_not_stack member short spares shape gap room
    rw [shape] at guarded
    exact guarded.insert other (.slot i) kept (congrFun heap p)

theorem munmap {addr length : UInt64}
    (spares : s.Spares base kin p (.munmap addr length)) (effect : Effect s lists p (.munmap addr length) s') :
    s'.Guards kin base := by
  have spared := fun member pre it next post (shape : lists p = pre ++ it :: next :: post) =>
    spares member pre it next post (by rw [family.owned.refs alive, shape])
  -- a VMA that is cut is neither the stack nor the one under it
  have cut : ∀ {pre it next post f}, lists p = pre ++ it :: next :: post →
      (∀ r ∈ pre, ¬(s.table.get r).Covers addr.toNat length.toNat) →
      (s.table.get it).Covers addr.toNat length.toNat → (f (s.table.get it)).used = (s.table.get it).used →
      (f (s.table.get it)).next = (s.table.get it).next →
      Space.Guards ⟨s.table.modify f it, s.live⟩ kin base := by
    intro pre it next post f shape skipped covers used next'
    have here : it ∈ lists p := by simp [shape]
    refine guards_of_lineage ⟨_, family.guardedLineage.modify guarded_framed alive here used next' fun member => ?_⟩
    obtain ⟨-, notStack, notNext⟩ := spared member pre it next post shape skipped covers
    have guarded := (family.guarded p member).2
    have once := family.nodup alive
    rw [shape] at guarded once ⊢
    exact guarded.modify once notStack notNext f
  cases effect with
  | refused => exact family.guards
  | @removed _ _ pre post prev next i shape skipped covers whole =>
    apply guards_of_lineage
    refine family.guardedLineage.unlink guarded_framed alive shape fun member t' heap kept => ?_
    have split : lists p = (pre ++ [prev]) ++ .slot i :: next :: post := by simp [shape]
    obtain ⟨notHeap, notStack, notNext⟩ := spared member _ _ _ _ split skipped covers
    have guarded := (family.guarded p member).2
    rw [split] at guarded
    have joined : pre ++ prev :: next :: post = (pre ++ [prev]) ++ next :: post := by simp
    rw [joined] at kept ⊢
    exact guarded.remove notStack notNext notHeap kept (congrFun heap p)
  | front shape skipped covers start => exact cut shape skipped covers rfl rfl
  | back shape skipped covers start stop => exact cut shape skipped covers rfl rfl

theorem sbrk {n : BitVec 32}
    (spares : s.Spares base kin p (.sbrk n)) (effect : Effect s lists p (.sbrk n) s') : s'.Guards kin base := by
  cases effect with
  | refused => exact family.guards
  | @resized _ h heap =>
    have own : VmaRef.slot h ∈ lists p := by
      cases member : kin p with
      | false => exact spares member h (lists p) heap (family.owned.refs alive)
      | true =>
        obtain ⟨above, stack, last, below, shape, -, -, h', owner, here⟩ := (family.guarded p member).2
        obtain rfl : h' = h := Option.some.inj (owner.symm.trans heap)
        simp [shape, here]
    exact guards_of_lineage ⟨_, family.guardedLineage.modify guarded_framed alive own rfl rfl fun member =>
      (family.guarded p member).2.resize (family.nodup alive) heap _⟩

theorem fork {memory : Bool} {copies : VmaRef → Bool}
    (effect : Effect s lists p (.fork memory copies) s') : s'.Guards (s.descend s' kin p) base := by
  apply guards_of_lineage
  refine family.guardedLineage.fork guarded_framed effect fun parent np done _ _ cloned heap => ?_
  exact (family.guarded p parent).2.copied (family.nodup alive) cloned.copy cloned.heap heap

theorem step {call : Call} (keeps : s.Keeps p call)
    (spares : s.Spares base kin p call) (result : s.step p call = .ok s') :
    ∃ lists', Kindred s' (s.descend s' kin p) base lists' := by
  have same : s'.live = s.live → s.descend s' kin p = kin := by
    intro same
    funext q
    exact descend_eq (congrFun same q)
  have effect := step_effect family.owned alive result
  have guards : s'.Guards (s.descend s' kin p) base := by
    cases call with
    | mmap call =>
      rw [same (Space.after_live result)]
      exact family.mmap alive keeps spares effect
    | munmap addr length =>
      rw [same (Space.after_live result)]
      exact family.munmap alive spares effect
    | sbrk n =>
      rw [same (Space.after_live result)]
      exact family.sbrk alive spares effect
    | fork memory copies => exact family.fork alive effect
  obtain ⟨s'', result', wf⟩ := (step_iff (family.listed alive) call).mpr keeps
  obtain rfl : s' = s'' := Except.ok.inj (result.symm.trans result')
  obtain ⟨lists', owned, guarded⟩ := guards
  exact ⟨lists', owned, fun q alive' => wf.regions owned alive', guarded⟩

end

end

end Kindred

/-- A run of calls that spare the page under the stack at `base`, with the processes that have inherited
it at either end. -/
inductive Sparing (base : Nat) (s : Space) (kin : ProcId → Bool) : Space → (ProcId → Bool) → Prop where
  | refl : Sparing base s kin s kin
  | step {s₁ s₂ : Space} {kin₁ : ProcId → Bool} (p : ProcId) (call : Call) : Sparing base s kin s₁ kin₁ →
      s₁.live p = true → s₁.Keeps p call → s₁.Spares base kin₁ p call → s₁.step p call = .ok s₂ →
      Sparing base s kin s₂ (s₁.descend s₂ kin₁ p)

theorem Sparing.kindred {kin' : ProcId → Bool} (family : Kindred s kin base lists)
    (run : Sparing base s kin s' kin') : ∃ lists', Kindred s' kin' base lists' := by
  induction run with
  | refl => exact ⟨lists, family⟩
  | step p call _ alive keeps spares result ih =>
    obtain ⟨lists', family'⟩ := ih
    exact family'.step alive keeps spares result

/-- The list of process `q` has no VMA around `va`, and walkaddr refuses the address. -/
structure Space.Refused (s : Space) (q : ProcId) (va : Nat) : Prop where
  free : ∃ refs, s.table.refs q = .ok refs ∧ ∀ r ∈ refs, ¬(s.table.get r).Holds va
  walkaddr : ∀ (m : Sys) (pagetable : PageNo), m.vmas = s.table → m.current = q →
    Returns (walkaddr pagetable va) m none m

theorem refused_of_free {refs : List VmaRef} (listed : s.table.refs q = .ok refs)
    (free : ∀ r ∈ refs, ¬(s.table.get r).Holds va) : s.Refused q va := by
  refine ⟨⟨refs, listed, free⟩, ?_⟩
  rintro m pagetable same rfl
  unfold DeisoXv6.walkaddr
  split
  · exact returns_pure.mpr ⟨rfl, rfl⟩
  · have found : Returns (findVma va) m none m := by
      have nothing : m.vmaAt va = none := by
        unfold Sys.vmaAt
        rw [same, listed]
        change refs.find? _ = none
        simpa using free
      have ready : m.Listed := ⟨refs, same ▸ listed⟩
      exact nothing ▸ findVma_returns ready
    exact returns_bind.mpr ⟨_, _, found, returns_pure.mpr ⟨rfl, rfl⟩⟩

theorem ascending_wellFormed {reserved last : Region} {others : List Region}
    (ascending : Ascending (last :: others).reverse) (first : reserved.start = RESERVED)
    (placed : ∀ r ∈ reserved :: last :: others, r.Placed) :
    WellFormed (reserved :: ⟨last.pageEnd + 2 * PGSIZE, 0⟩ :: ⟨last.pageEnd + PGSIZE, PGSIZE⟩ :: last :: others) := by
  have top : last.pageEnd + 2 * PGSIZE ≤ RESERVED := ascending.top last (by simp)
  have aligned : last.pageEnd % PGSIZE = 0 := Nat.mul_mod_left ..
  have chain := ascending.chain
  rw [reverse_reverse] at chain
  have bound : RESERVED < 2 ^ 64 := by decide
  have wide : RESERVED % PGSIZE = 0 := by decide
  have heap : (⟨last.pageEnd + 2 * PGSIZE, 0⟩ : Region).Placed := by
    refine ⟨?_, ?_⟩
    · change (last.pageEnd + 2 * PGSIZE) % PGSIZE = 0
      unfold PGSIZE at *
      omega
    · change last.pageEnd + 2 * PGSIZE + 0 < 2 ^ 64
      omega
  have stack : (⟨last.pageEnd + PGSIZE, PGSIZE⟩ : Region).Placed := by
    refine ⟨?_, ?_⟩
    · change (last.pageEnd + PGSIZE) % PGSIZE = 0
      unfold PGSIZE at *
      omega
    · change last.pageEnd + PGSIZE + PGSIZE < 2 ^ 64
      omega
  refine ⟨by rw [List.head?_cons, Option.map_some, first], ?_, ?_⟩
  · intro r member
    simp only [mem_cons] at member placed
    rcases member with rfl | rfl | rfl | old
    · exact placed r (.inl rfl)
    · exact heap
    · exact stack
    · exact placed r (.inr old)
  · refine isChain_cons_cons.mpr ⟨?_, isChain_cons_cons.mpr ⟨?_, isChain_cons_cons.mpr ⟨?_, chain⟩⟩⟩
    · change pageUp (last.pageEnd + 2 * PGSIZE + 0) ≤ reserved.start
      rw [first, Nat.add_zero]
      exact pageUp_le wide top
    · change pageUp (last.pageEnd + PGSIZE + PGSIZE) ≤ last.pageEnd + 2 * PGSIZE
      have aligned' : (last.pageEnd + 2 * PGSIZE) % PGSIZE = 0 := heap.aligned
      exact pageUp_le aligned' (by omega)
    · exact Nat.le_add_right ..

theorem heapStart_eq {r : Region} (small : r.pageEnd + 2 * PGSIZE ≤ RESERVED) :
    heapStart (r.start + r.length) = r.pageEnd + 2 * PGSIZE ∧
      sub64 (heapStart (r.start + r.length)) PGSIZE = r.pageEnd + PGSIZE := by
  have bound : RESERVED < 2 ^ 63 := by decide
  have ends : r.start + r.length ≤ r.pageEnd := le_pageUp _
  have rounded : pgroundup (r.start + r.length) = r.pageEnd := by
    refine pgroundup_eq ?_
    unfold PGSIZE
    omega
  have start : heapStart (r.start + r.length) = r.pageEnd + 2 * PGSIZE := by
    rw [heapStart, rounded]
    exact Nat.mod_eq_of_lt (by omega)
  refine ⟨start, ?_⟩
  rw [start, sub64_eq (by omega) (by omega)]
  omega

theorem exec_kindred {image : Image} {heap stack : VmaId} {chain : List VmaRef}
    (listed : Listed s lists p) (ascending : Ascending ((loadable image.phs).map Proghdr.region))
    (executed : Executed s.live lists p image.phs s.table t' heap stack chain) :
    ∃ lists', Kindred ⟨t', s.live⟩ (fun q => q = p) (t'.slot stack).start lists' := by
  obtain ⟨last, first, stackRegion, heapRegion⟩ := executed.list.above
  have segments := executed.list.segments
  obtain ⟨below, rest, rfl⟩ : ∃ below rest, chain = below :: rest := by
    cases chain with
    | nil => simp [VmaTable.regions] at first
    | cons below rest => exact ⟨below, rest, rfl⟩
  obtain rfl : (t'.get below).region = last := by simpa [VmaTable.regions] using first
  have reversed : (loadable image.phs).map Proghdr.region = ((t'.get below).region :: t'.regions rest).reverse := by
    rw [← regions_cons, segments, reverse_reverse]
  rw [reversed] at ascending
  obtain ⟨heapAt, stackAt⟩ := heapStart_eq (ascending.top (t'.get below).region (by simp))
  rw [heapAt] at heapRegion
  rw [stackAt] at stackRegion
  have old := listed.wf p listed.alive
  obtain ⟨ids, shape⟩ := linked_shape (listed.owned.linked p listed.alive)
  rw [shape, regions_cons] at old
  have wf : WellFormed (t'.regions (.start p :: .slot heap :: .slot stack :: below :: rest)) := by
    simp only [regions_cons, heapRegion, stackRegion]
    refine ascending_wellFormed ascending (executed.reserved ▸ old.head_start) fun r member => ?_
    rcases mem_cons.mp member with rfl | later
    · rw [executed.reserved]
      exact old.placed _ (by simp)
    · exact executed.list.placed r later
  refine ⟨_, executed.owned, fun q alive => ?_, fun q here => ?_⟩
  · by_cases same : q = p
    · rw [same, update_self]
      exact wf
    · rw [update_of_ne same]
      change WellFormed (t'.regions (lists q))
      rw [regions_congr fun r member => congrArg Vma.region (executed.kept q same alive r member)]
      exact listed.wf q alive
  · obtain rfl : q = p := of_decide_eq_true here
    refine ⟨listed.alive, ?_⟩
    rw [update_self]
    have base : (t'.slot stack).start = (t'.get below).region.pageEnd + PGSIZE := congrArg Region.start stackRegion
    refine ⟨[.start q, .slot heap], .slot stack, below, rest, rfl, ?_, base.symm, heap, ?_, by simp⟩
    · rw [base]
      exact stackRegion
    · change t'.heap q = some heap
      rw [executed.heap, update_self]

/-- The page under the stack that exec makes is refused to the process and to all that descend from it,
in every run of calls that spare it. -/
theorem guard_page_kept (s : Space) (wf : s.WellFormed) (p : ProcId) (alive : s.live p = true) (image : Image)
    (ascending : Ascending ((loadable image.phs).map Proghdr.region)) (t' : VmaTable)
    (done : s.table.exec p image = .ok (true, t')) :
    ∃ heap stack chain, t'.refs p = .ok (.start p :: .slot heap :: .slot stack :: chain) ∧
      (t'.slot stack).length = PGSIZE ∧
      ∀ s' kin, Sparing (t'.slot stack).start ⟨t', s.live⟩ (fun q => q = p) s' kin → ∀ q, kin q = true →
        ∀ va, (t'.slot stack).start - PGSIZE ≤ va → va < (t'.slot stack).start → s'.Refused q va := by
  obtain ⟨lists, owned, lie⟩ := wf
  obtain ⟨heap, stack, chain, executed⟩ := exec_executed owned alive done
  obtain ⟨lists', family⟩ := exec_kindred ⟨owned, alive, lie⟩ ascending executed
  refine ⟨heap, stack, chain, ?_, ?_, fun s' kin run q member va low high => ?_⟩
  · have refs := executed.owned.refs alive
    rwa [update_self] at refs
  · obtain ⟨last, -, stackRegion, -⟩ := executed.list.above
    exact congrArg Region.length stackRegion
  · obtain ⟨lists'', family'⟩ := run.kindred family
    obtain ⟨alive', guarded⟩ := family'.guarded q member
    exact refused_of_free (family'.owned.refs alive') (guarded.free (family'.wf q alive') low high)

end Guarded

namespace Space

def image : Image := ⟨0, [some ⟨ELF_PROG_LOAD, 7, 0, 0, 4096, 4096⟩], true⟩

theorem image_ascending : Ascending ((loadable image.phs).map Proghdr.region) := by
  change Ascending [⟨0, 4096⟩]
  refine ⟨isChain_singleton _, fun r member => ?_⟩
  obtain rfl := mem_singleton.mp member
  decide

def started : Space := match userinit.table.exec 0 image with
  | .ok (true, t) => ⟨t, userinit.live⟩
  | _ => userinit

theorem started_exec : userinit.table.exec 0 image = .ok (true, started.table) ∧ started.live = userinit.live := by
  have succeeds : (match userinit.table.exec 0 image with | .ok (true, _) => true | _ => false) = true := by
    decide +kernel
  unfold started
  split at succeeds
  · rename_i t done
    rw [done]
    exact ⟨rfl, rfl⟩
  · contradiction

def next (s : Space) (p : ProcId) (call : Call) : Space := match s.step p call with
  | .ok s' => s'
  | .error _ => s

theorem step_next {s : Space} {p : ProcId} {call : Call}
    (returns : (match s.step p call with | .ok _ => true | .error _ => false) = true) :
    s.step p call = .ok (s.next p call) := by
  unfold next
  split at returns
  · rename_i s' done
    rw [done]
  · contradiction

def grown : Space := started.next 0 (mmapCall 0x2000)

def forked : Space := grown.next 0 (.fork true fun _ => true)

theorem forked_guard_page_kept : userinit.table.exec 0 image = .ok (true, started.table) ∧
    (started.table.slot 2).start = 0x2000 ∧ started.step 0 (mmapCall 0x2000) = .ok grown ∧
    grown.step 0 (.fork true fun _ => true) = .ok forked ∧ forked.live 1 = true ∧ forked.Refused 1 0x1000 := by
  have stepped : started.step 0 (mmapCall 0x2000) = .ok grown := step_next (by decide +kernel)
  have split : grown.step 0 (.fork true fun _ => true) = .ok forked := step_next (by decide +kernel)
  have base : (started.table.slot 2).start = 0x2000 := by decide +kernel
  refine ⟨started_exec.1, base, stepped, split, by decide +kernel, ?_⟩
  obtain ⟨heap, stack, chain, listed, -, kept⟩ := guard_page_kept userinit userinit_wellFormed 0 (by decide) image
    image_ascending started.table started_exec.1
  have refs : (started.table.refs 0).toOption = some [.start 0, .slot 3, .slot 2, .slot 1] := by decide +kernel
  rw [listed] at refs
  cases refs
  have run : Sparing 0x2000 ⟨started.table, userinit.live⟩ (fun q => q = 0) forked
      (grown.descend forked (started.descend grown (fun q => q = 0) 0) 0) := by
    rw [← started_exec.2]
    refine .step 0 (.fork true fun _ => true) (.step 0 (mmapCall 0x2000) .refl (by decide +kernel) ?_ ?_ stepped)
      (by decide +kernel) trivial trivial split
    · exact fun _ _ _ => by decide
    · exact fun _ _ small => absurd small (by decide)
  rw [base] at kept
  exact kept forked _ run 1 (by decide +kernel) 0x1000 (by decide) (by decide)

def full : Space := started.next 0 (mmapCall 0x3fffffb000)

def taken : Space := full.next 0 (mmapCall 0x1000)

/-- With no room above the stack, a mapping of one page goes under it. -/
theorem guard_page_mapped : userinit.WellFormed ∧ Ascending ((loadable image.phs).map Proghdr.region) ∧
    userinit.table.exec 0 image = .ok (true, started.table) ∧ (started.table.slot 2).start = 0x2000 ∧
    started.step 0 (mmapCall 0x3fffffb000) = .ok full ∧ full.step 0 (mmapCall 0x1000) = .ok taken ∧
    ¬taken.Refused 0 0x1000 := by
  refine ⟨userinit_wellFormed, image_ascending, started_exec.1, by decide +kernel, step_next (by decide +kernel),
    step_next (by decide +kernel), fun refused => ?_⟩
  obtain ⟨refs, listed, free⟩ := refused.free
  have mapped : (taken.table.refs 0).toOption = some [.start 0, .slot 0, .slot 3, .slot 2, .slot 4, .slot 1] := by
    decide +kernel
  rw [listed] at mapped
  cases mapped
  exact free (.slot 4) (by simp) (by decide +kernel)

end Space

end DeisoXv6
