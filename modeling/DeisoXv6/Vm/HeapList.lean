import DeisoXv6.Vm.Guard

/-! The heap of a process on its list. `p->heap` is a second pointer to an element of the list, and `p->sz`
repeats where the heap ends; sys_sbrk keeps both in step, sys_munmap knows neither. -/

set_option autoImplicit false

namespace DeisoXv6

open Function (update update_of_ne update_self)
open LinkedList VmaTable Space Vma

structure Breaks where
  space : Space
  sz : ProcId → Nat

namespace Breaks

variable (b : Breaks)

/-- sys_sbrk, with the assignment to `p->sz` at its end. -/
def sbrk (p : ProcId) (n : BitVec 32) : Except Fault Breaks :=
  match b.space.table.sbrk p n.toInt with
  | .error fault => .error fault
  | .ok (none, t) => .ok ⟨⟨t, b.space.live⟩, b.sz⟩
  | .ok (some _, t) => match t.heap p with
    | none => .error .nullPointer
    | some h => .ok ⟨⟨t, b.space.live⟩, update b.sz p (t.slot h).stop⟩

/-- fork copies `p->sz` to the child; freeproc clears it. -/
def fork (p : ProcId) (memory : Bool) (copies : VmaRef → Bool) : Except Fault Breaks :=
  match b.space.step p (.fork memory copies) with
  | .error fault => .error fault
  | .ok s => match b.space.allocproc with
    | none => .ok ⟨s, b.sz⟩
    | some np => .ok ⟨s, update b.sz np (if s.live np then b.sz p else 0)⟩

def step (p : ProcId) : Call → Except Fault Breaks
  | .sbrk n => b.sbrk p n
  | .fork memory copies => b.fork p memory copies
  | call => (b.space.step p call).map fun s => ⟨s, b.sz⟩

/-- exec sets `p->sz` to the end of what it has laid out. -/
def exec (p : ProcId) (image : Image) : Except Fault (Bool × Breaks) :=
  match b.space.table.exec p image, b.space.table.load image with
  | .error fault, _ => .error fault
  | .ok (true, t), .ok l => .ok (true, ⟨⟨t, b.space.live⟩, update b.sz p l.sz⟩)
  | .ok (done, t), _ => .ok (done, ⟨⟨t, b.space.live⟩, b.sz⟩)

/-- The heap of process `q` is on its list behind the first element, sys_sbrk returns whatever it is asked
for, and `p->sz` is the end of the heap. -/
structure HeapListed (q : ProcId) : Prop where
  listed : ∃ heap refs, b.space.table.heap q = some heap ∧ b.space.table.refs q = .ok refs ∧
    .slot heap ∈ refs.tail ∧ b.sz q = (b.space.table.slot heap).stop
  returns : ∀ n, ∃ b', b.sbrk q n = .ok b'

end Breaks

/-- The condition on a call under which the processes of `kin` keep their heaps. A range that sys_munmap takes
from the heap is neither all of it nor a part at its end, and no other process resizes a VMA that is not on
its own list. -/
def Space.SparesHeap (s : Space) (kin : ProcId → Bool) (p : ProcId) : Call → Prop
  | .munmap addr length => kin p = true → ∀ heap pre next post, s.table.heap p = some heap →
      s.table.refs p = .ok (pre ++ .slot heap :: next :: post) →
      (∀ r ∈ pre, ¬(s.table.get r).Covers addr.toNat length.toNat) →
      (s.table.slot heap).Covers addr.toNat length.toNat →
      if (s.table.slot heap).start = addr.toNat then (s.table.slot heap).length ≠ length.toNat
      else (s.table.slot heap).stop = u64 (addr.toNat + length.toNat) → length = 0
  | .sbrk _ => kin p = false → ∀ heap refs, s.table.heap p = some heap → s.table.refs p = .ok refs → .slot heap ∈ refs
  | .mmap _ | .fork _ _ => True

variable {call : Call}

section Lists

variable {t t' : VmaTable} {b b' : Breaks} {s s' : Space} {lists : ProcId → List VmaRef} {p q : ProcId} {h i : VmaId}
  {pre post rs rs' : List VmaRef} {it prev : VmaRef} {kin : ProcId → Bool} {sz : Nat}

variable {v : Vma} {length : UInt64} {n : BitVec 32} {l : Loading} {image : Image}

theorem Vma.stop_congr {w : Vma} (same : v.region = w.region) : v.stop = w.stop := by
  obtain ⟨start, length⟩ := Region.mk.inj same
  rw [stop, stop, start, length]

theorem Vma.stop_cutFront {addr : Nat} (start : v.start = addr) : (cutFront addr length.toNat v).stop = v.stop := by
  have small := length.toNat_lt
  subst start
  simp only [stop, cutFront, sub64, u64]
  omega

theorem Vma.stop_cutBack_zero : (cutBack 0 v).stop = v.stop := by
  simp only [stop, cutBack, sub64, u64, Nat.zero_mod, Nat.sub_zero, Nat.add_mod_right, Nat.add_mod_mod]

def HeapOn (t : VmaTable) (q : ProcId) (rs : List VmaRef) (sz : Nat) : Prop :=
  ∃ h, t.heap q = some h ∧ .slot h ∈ rs ∧ sz = (t.slot h).stop

namespace HeapOn

theorem frame (on : HeapOn t q rs sz) (heap : t'.heap q = t.heap q)
    (kept : ∀ h, t.heap q = some h → .slot h ∈ rs → .slot h ∈ rs')
    (same : ∀ h, t.heap q = some h → .slot h ∈ rs → (t'.slot h).stop = (t.slot h).stop) : HeapOn t' q rs' sz := by
  obtain ⟨h, owner, member, ends⟩ := on
  exact ⟨h, heap.trans owner, kept h owner member, ends.trans (same h owner member).symm⟩

theorem regions (on : HeapOn t q rs sz) (heap : t'.heap q = t.heap q)
    (same : ∀ r ∈ rs, (t'.get r).region = (t.get r).region) : HeapOn t' q rs sz := by
  apply on.frame heap
  · exact fun _ _ member => member
  · intro h _ member
    exact stop_congr (same _ member)

theorem copied (on : HeapOn t p rs sz) (copy : CopyOf t t' rs rs') (heap : HeapCopied t' p q rs rs')
    (heaps : t'.heap p = t.heap p) : HeapOn t' q rs' sz := by
  obtain ⟨h, owner, member, ends⟩ := on
  obtain ⟨i, owner', pair⟩ := heap h (heaps.trans owner) member
  have alike : (t'.get (.slot i)).Alike (t.get (.slot h)) := List.forall₂_iff_zip.mp copy |>.2 pair
  exact ⟨i, owner', (List.of_mem_zip pair).1, ends.trans (stop_congr alike.region).symm⟩

theorem framed (sz : ProcId → Nat) : Framed fun t q rs => HeapOn t q rs (sz q) :=
  fun _ _ _ _ on same heap => on.regions heap same

end HeapOn

theorem map_ok {f : Space → Breaks} {r : Except Fault Space} (result : r.map f = .ok b') :
    ∃ s', r = .ok s' ∧ f s' = b' := by
  cases r with
  | error fault => contradiction
  | ok s' => exact ⟨s', rfl, Except.ok.inj result⟩

theorem sbrk_live (result : b.sbrk p n = .ok b') : b'.space.live = b.space.live := by
  unfold Breaks.sbrk at result
  split at result
  · contradiction
  · cases result
    rfl
  · split at result
    · contradiction
    · cases result
      rfl

theorem sbrk_returns (owner : b.space.table.heap q = some h) (refs : b.space.table.refs q = .ok rs)
    (behind : .slot h ∈ rs.tail) (n : BitVec 32) : ∃ b', b.sbrk q n = .ok b' := by
  have called : ∃ a t', b.space.table.sbrk q n.toInt = .ok (a, t') := by
    simp only [VmaTable.sbrk, owner, refs]
    split
    · split <;> exact ⟨_, _, rfl⟩
    · split
      · exact ⟨_, _, rfl⟩
      · cases found : VmaTable.before (.slot h) rs with
        | none => exact absurd behind (before_none found)
        | some prev =>
          dsimp only
          split <;> exact ⟨_, _, rfl⟩
  obtain ⟨a, t', called⟩ := called
  unfold Breaks.sbrk
  rw [called]
  rcases sbrk_cases called with ⟨rfl, rfl⟩ | ⟨h', -, rfl, rfl⟩
  · exact ⟨_, rfl⟩
  · dsimp only
    rw [heap_modify, owner]
    exact ⟨_, rfl⟩

def Breaks.Heaped (b : Breaks) (kin : ProcId → Bool) (lists : ProcId → List VmaRef) : Prop :=
  Lineage (fun t q rs => HeapOn t q rs (b.sz q)) b.space kin lists

namespace Breaks.Heaped

section

variable (heaped : b.Heaped kin lists)

include heaped

section

variable (alive : b.space.live p = true)

include alive

theorem cut (member : it ∈ lists p) {f : Vma → Vma}
    (used : (f (b.space.table.get it)).used = (b.space.table.get it).used)
    (next : (f (b.space.table.get it)).next = (b.space.table.get it).next)
    (ends : kin p = true → (b.space.table.heap p).map .slot = some it →
      (f (b.space.table.get it)).stop = (b.space.table.get it).stop) :
    Heaped ⟨⟨b.space.table.modify f it, b.space.live⟩, b.sz⟩ kin lists := by
  refine Lineage.modify heaped (HeapOn.framed b.sz) alive member used next fun own => ?_
  apply (heaped.holds p own).2.frame
  · rw [heap_modify]
  · exact fun _ _ here => here
  · intro h owner _
    by_cases hit : it = .slot h
    · subst hit
      change (VmaTable.get _ (.slot h)).stop = (VmaTable.get _ (.slot h)).stop
      rw [get_modify_same]
      exact ends own (by rw [owner, Option.map_some])
    · exact congrArg stop (get_modify_other (Ne.symm hit))

theorem mmap {call : VmaTable.Mmap}
    (effect : Effect b.space lists p (.mmap call) s') : ∃ lists', Heaped ⟨s', b.sz⟩ kin lists' := by
  cases effect with
  | refused => exact ⟨lists, heaped⟩
  | mapped permitted shape gap room taken =>
    refine Lineage.insert heaped (HeapOn.framed b.sz) alive shape (vmaAlloc_unused taken) rfl rfl ?_
    intro own t' heap kept
    have on := (heaped.holds p own).2
    rw [shape] at on
    apply (on.regions (congrFun heap p) kept).frame rfl
    · intro h _ member
      exact (((List.sublist_cons_self _ _).cons_cons _).append_left _).subset member
    · exact fun _ _ _ => rfl

theorem munmap {addr : UInt64} (spares : b.space.SparesHeap kin p (.munmap addr length))
    (effect : Effect b.space lists p (.munmap addr length) s') : ∃ lists', Heaped ⟨s', b.sz⟩ kin lists' := by
  have spared := fun own heap pre next post owner (shape : lists p = pre ++ .slot heap :: next :: post) =>
    spares own heap pre next post owner (by rw [heaped.owned.refs alive, shape])
  cases effect with
  | refused => exact ⟨lists, heaped⟩
  | @removed _ _ pre post prev next i shape skipped covers whole =>
    refine Lineage.unlink heaped (HeapOn.framed b.sz) alive shape fun own t' heap kept => ?_
    have split : lists p = (pre ++ [prev]) ++ .slot i :: next :: post := by simp [shape]
    have on := (heaped.holds p own).2
    -- the VMA that goes is not the heap
    have other : b.space.table.heap p ≠ some i := by
      intro owner
      have safe := spared own i _ next post owner split skipped covers
      rw [if_pos whole.1] at safe
      exact safe whole.2
    have stays : ∀ h, b.space.table.heap p = some h → .slot h ∈ lists p → .slot h ∈ pre ++ prev :: next :: post := by
      intro h owner member
      have apart : h ≠ i := fun hit => other (hit ▸ owner)
      rw [shape] at member
      simpa [apart] using member
    apply on.frame (congrFun heap p) stays
    intro h owner member
    exact stop_congr (kept (.slot h) (stays h owner member))
  | front shape skipped covers start =>
    refine ⟨_, heaped.cut alive (by simp [shape]) rfl rfl fun _ _ => ?_⟩
    exact stop_cutFront start
  | @back _ _ pre post it next shape skipped covers start stop =>
    refine ⟨_, heaped.cut alive (by simp [shape]) rfl rfl fun own owner => ?_⟩
    -- only an empty range at the end of the heap is spared
    obtain ⟨h, heap, rfl⟩ := Option.map_eq_some_iff.mp owner
    have safe := spared own h pre next post heap shape skipped covers
    rw [if_neg (show (b.space.table.slot h).start ≠ addr.toNat from start)] at safe
    rw [safe stop, UInt64.toNat_zero]
    exact stop_cutBack_zero

theorem sbrk (spares : b.space.SparesHeap kin p (.sbrk n)) (result : b.sbrk p n = .ok b') : b'.Heaped kin lists := by
  unfold Breaks.sbrk at result
  split at result
  · contradiction
  · rename_i t called
    cases result
    rcases sbrk_cases called with ⟨-, rfl⟩ | ⟨h, -, absurd', -⟩
    · exact heaped
    · contradiction
  · rename_i a t called
    rcases sbrk_cases called with ⟨absurd', -⟩ | ⟨h, owner, -, rfl⟩
    · contradiction
    · rw [heap_modify, owner] at result
      cases result
      have own : VmaRef.slot h ∈ lists p := by
        cases member : kin p with
        | false => exact spares member h (lists p) owner (heaped.owned.refs alive)
        | true =>
          obtain ⟨h', owner', here, -⟩ := (heaped.holds p member).2
          obtain rfl : h' = h := Option.some.inj (owner'.symm.trans owner)
          exact here
      have owned : Owned (b.space.table.modify (resize n.toInt) (.slot h)) b.space.live lists :=
        heaped.owned.modify rfl rfl
      refine ⟨owned, fun q member => ?_⟩
      obtain ⟨alive', on⟩ := heaped.holds q member
      refine ⟨alive', ?_⟩
      by_cases here : q = p
      · subst here
        exact ⟨h, owner, own, update_self ..⟩
      · -- the heap of another process is another VMA
        change HeapOn (b.space.table.modify (resize n.toInt) (.slot h)) q (lists q) (update b.sz p _ q)
        rw [update_of_ne here]
        apply on.regions
        · exact congrFun heap_modify q
        · intro r member'
          have apart : r ≠ .slot h := fun hit =>
            here (heaped.owned.disjoint alive' alive member' (hit ▸ own))
          exact congrArg region (get_modify_other apart)

end

theorem sz_update {np : ProcId} (found : b.space.allocproc = some np) (v : Nat) :
    Lineage (fun t q rs => HeapOn t q rs (update b.sz np v q)) b.space kin lists := by
  refine ⟨heaped.owned, fun q member => ?_⟩
  obtain ⟨alive, on⟩ := heaped.holds q member
  have other : q ≠ np := by
    rintro rfl
    rw [allocproc_dead found] at alive
    contradiction
  refine ⟨alive, ?_⟩
  rw [update_of_ne other]
  exact on

theorem fork (alive : b.space.live p = true) {memory : Bool} {copies : VmaRef → Bool}
    (result : b.fork p memory copies = .ok b') : ∃ lists', b'.Heaped (b.space.descend b'.space kin p) lists' := by
  unfold Breaks.fork at result
  split at result
  · contradiction
  · rename_i s' stepped
    have effect := step_effect heaped.owned alive stepped
    split at result
    · rename_i full
      cases result
      refine Lineage.fork heaped (HeapOn.framed b.sz) effect fun _ np _ found => ?_
      rw [full] at found
      contradiction
    · rename_i np found
      cases result
      refine Lineage.fork (heaped.sz_update found _) (HeapOn.framed _) effect ?_
      intro parent np' done found' born cloned heap
      obtain rfl : np = np' := Option.some.inj (found.symm.trans found')
      dsimp only
      rw [update_self, if_pos born]
      exact (heaped.holds p parent).2.copied cloned.copy cloned.heap heap

theorem step (alive : b.space.live p = true)
    (spares : b.space.SparesHeap kin p call) (result : b.step p call = .ok b') :
    ∃ lists', b'.Heaped (b.space.descend b'.space kin p) lists' := by
  have same : b'.space.live = b.space.live → b.space.descend b'.space kin p = kin := by
    intro same
    funext q
    exact descend_eq (congrFun same q)
  cases call with
  | mmap call =>
    obtain ⟨s', stepped, rfl⟩ := map_ok result
    rw [same (after_live stepped)]
    exact heaped.mmap alive (step_effect heaped.owned alive stepped)
  | munmap addr length =>
    obtain ⟨s', stepped, rfl⟩ := map_ok result
    rw [same (after_live stepped)]
    exact heaped.munmap alive spares (step_effect heaped.owned alive stepped)
  | sbrk n =>
    have result : b.sbrk p n = .ok b' := result
    rw [same (sbrk_live result)]
    exact ⟨lists, heaped.sbrk alive spares result⟩
  | fork memory copies => exact heaped.fork alive result

theorem heapListed (own : kin q = true) : b.HeapListed q := by
  obtain ⟨alive, h, owner, member, ends⟩ := heaped.holds q own
  have refs := heaped.owned.refs alive
  obtain ⟨ids, shape⟩ := linked_shape (heaped.owned.linked q alive)
  have behind : VmaRef.slot h ∈ (lists q).tail := by
    rw [shape] at member ⊢
    simpa using member
  exact ⟨⟨h, lists q, owner, refs, behind, ends⟩, sbrk_returns owner refs behind⟩

end

end Breaks.Heaped

theorem push_ok {l' : Loading} {v : Option VmaId → Vma} (pushed : l.push v = .ok l') :
    ∃ h, l'.vma = some h ∧ l'.table.slot h = v l.vma ∧ l'.sz = l.sz := by
  unfold Loading.push at pushed
  split at pushed
  · contradiction
  · cases pushed
    exact ⟨_, rfl, update_self .., rfl⟩

theorem load_heap (done : t.load image = .ok l) : ∃ h, l.vma = some h ∧ (l.table.slot h).stop = l.sz := by
  simp only [VmaTable.load, bind, Except.bind] at done
  split at done
  · contradiction
  · split at done
    · contradiction
    · split at done
      · contradiction
      · rename_i stacked
        obtain ⟨-, -, -, top⟩ := push_ok stacked
        obtain ⟨h, head, slot, sz⟩ := push_ok done
        refine ⟨h, head, ?_⟩
        rw [slot, sz, top]
        simp only [stop, anonymous, Nat.add_zero, u64, Nat.mod_mod]

theorem exec_sz {live : ProcId → Bool} {heap stack : VmaId} {chain : List VmaRef}
    (owned : Owned t live lists) (loading : t.load image = .ok l) (new : NewList t' image.phs heap stack chain) :
    (t'.slot heap).stop = l.sz := by
  obtain ⟨heap', stack', chain', -, head, old⟩ := load_loaded owned loading
  obtain ⟨h, head', ends⟩ := load_heap loading
  obtain rfl : heap' = h := Option.some.inj (head.symm.trans head')
  obtain ⟨last, first, -, region⟩ := new.above
  obtain ⟨last', first', -, region'⟩ := old.above
  -- both lists have the segments of the executable
  rw [new.segments, ← old.segments, first'] at first
  obtain rfl : last' = last := Option.some.inj first
  have same : (t'.slot heap).region = (l.table.slot heap').region := region.trans region'.symm
  rw [stop_congr same, ends]

theorem exec_loads (done : t.exec p image = .ok (true, t')) : ∃ l, t.load image = .ok l := by
  cases loading : t.load image with
  | ok l => exact ⟨l, rfl⟩
  | error l =>
    simp only [VmaTable.exec, loading] at done
    cases freed : (l.table.setNext (.start p) (t.start p).next).freeList l.vma <;> simp [freed, Except.map] at done

theorem exec_parts (done : b.exec p image = .ok (true, b')) :
    ∃ t' l, b.space.table.exec p image = .ok (true, t') ∧ b.space.table.load image = .ok l ∧
      b' = ⟨⟨t', b.space.live⟩, update b.sz p l.sz⟩ := by
  unfold Breaks.exec at done
  split at done
  · contradiction
  · rename_i t' l called loading
    cases done
    exact ⟨t', l, called, loading, rfl⟩
  · rename_i t' called other
    cases done
    obtain ⟨l, loading⟩ := exec_loads called
    exact (other l loading rfl).elim

theorem exec_heaped (owned : Owned b.space.table b.space.live lists) (alive : b.space.live p = true)
    (done : b.exec p image = .ok (true, b')) : ∃ lists', b'.Heaped (fun q => q = p) lists' := by
  obtain ⟨t', l, called, loading, rfl⟩ := exec_parts done
  obtain ⟨heap, stack, chain, executed⟩ := exec_executed owned alive called
  refine ⟨_, executed.owned, fun q here => ?_⟩
  obtain rfl : q = p := of_decide_eq_true here
  refine ⟨alive, heap, ?_, ?_, ?_⟩
  · change t'.heap q = some heap
    rw [executed.heap, update_self]
  · rw [update_self]
    simp
  · change update b.sz q l.sz q = (t'.slot heap).stop
    rw [update_self, exec_sz owned loading executed.list]

/-- A run of calls that spare the heaps of the processes of `kin`. -/
inductive HeapSparing (b : Breaks) (kin : ProcId → Bool) : Breaks → (ProcId → Bool) → Prop where
  | refl : HeapSparing b kin b kin
  | step {b₁ b₂ : Breaks} {kin₁ : ProcId → Bool} (p : ProcId) (call : Call) : HeapSparing b kin b₁ kin₁ →
      b₁.space.live p = true → b₁.space.SparesHeap kin₁ p call → b₁.step p call = .ok b₂ →
      HeapSparing b kin b₂ (b₁.space.descend b₂.space kin₁ p)

theorem HeapSparing.heaped {kin' : ProcId → Bool} (heaped : b.Heaped kin lists) (run : HeapSparing b kin b' kin') :
    ∃ lists', b'.Heaped kin' lists' := by
  induction run with
  | refl => exact ⟨lists, heaped⟩
  | step p call _ alive spares result ih =>
    obtain ⟨lists', heaped'⟩ := ih
    exact heaped'.step alive spares result

/-- After exec the heap of the process, and of all that descend from it, stays on the list over every run of
calls that spare it. -/
theorem heap_stays_listed (b : Breaks) (lists : ProcId → List VmaRef)
    (owned : Owned b.space.table b.space.live lists) (p : ProcId) (alive : b.space.live p = true) (image : Image)
    (b' : Breaks) (done : b.exec p image = .ok (true, b')) (b'' : Breaks) (kin : ProcId → Bool)
    (run : HeapSparing b' (fun q => q = p) b'' kin) (q : ProcId) (own : kin q = true) : b''.HeapListed q := by
  obtain ⟨lists', heaped⟩ := exec_heaped owned alive done
  obtain ⟨lists'', heaped'⟩ := run.heaped heaped
  exact heaped'.heapListed own

end Lists

namespace Breaks

def booted : Breaks := ⟨userinit, update (fun _ => 0) 0 PGSIZE⟩

def begun : Breaks := match booted.exec 0 image with
  | .ok (true, b) => b
  | _ => booted

theorem begun_exec : booted.exec 0 image = .ok (true, begun) := by
  have succeeds : (match booted.exec 0 image with | .ok (true, _) => true | _ => false) = true := by
    decide +kernel
  unfold begun
  split at succeeds
  · rename_i b done
    rw [done]
  · contradiction

def next (b : Breaks) (p : ProcId) (call : Call) : Breaks := match b.step p call with
  | .ok b' => b'
  | .error _ => b

theorem step_next {b : Breaks} {p : ProcId}
    (returns : (match b.step p call with | .ok _ => true | .error _ => false) = true) :
    b.step p call = .ok (b.next p call) := by
  unfold next
  split at returns
  · rename_i b' done
    rw [done]
  · contradiction

def enlarged : Breaks := begun.next 0 (.sbrk 0x2000)

def trimmed : Breaks := enlarged.next 0 (.munmap 0x3000 0x1000)

def split : Breaks := trimmed.next 0 (.fork true fun _ => true)

theorem child_heap_stays_listed : split.space.live 1 = true ∧ split.HeapListed 1 := by
  obtain ⟨lists, owned, -⟩ := userinit_wellFormed
  refine ⟨by decide +kernel, ?_⟩
  have grows : HeapSparing begun (fun q => q = 0) enlarged _ :=
    .step 0 (.sbrk 0x2000) .refl (by decide +kernel) (fun stranger => absurd stranger (by decide))
      (step_next (by decide +kernel))
  have spared : enlarged.space.SparesHeap (begun.space.descend enlarged.space (fun q => q = 0) 0) 0
      (.munmap 0x3000 0x1000) := by
    intro _ heap _ _ _ owner _ _ _
    have third : enlarged.space.table.heap 0 = some 3 := by decide +kernel
    obtain rfl : 3 = heap := Option.some.inj (third.symm.trans owner)
    rw [if_pos (by decide +kernel)]
    decide +kernel
  have run := HeapSparing.step 0 (.fork true fun _ => true)
    (.step 0 (.munmap 0x3000 0x1000) grows (by decide +kernel) spared (step_next (by decide +kernel)))
    (by decide +kernel) trivial (step_next (by decide +kernel))
  exact heap_stays_listed booted lists owned 0 (by decide) image begun begun_exec split _ run 1
    (by decide +kernel)

def heapless : Breaks := begun.next 0 (.munmap 0x3000 0)

def shortened : Breaks := (begun.next 0 (.sbrk 2)).next 0 (.munmap 0x3001 1)

/-- A range of length 0 at the start of the empty heap takes the heap off its list, and sys_sbrk then follows a
null pointer. A range at its end leaves `p->sz` behind. -/
theorem heap_unlisted : userinit.WellFormed ∧ booted.exec 0 image = .ok (true, begun) ∧
    begun.step 0 (.munmap 0x3000 0) = .ok heapless ∧ ¬heapless.HeapListed 0 ∧
    heapless.sbrk 0 1 = .error .nullPointer ∧
    (begun.next 0 (.sbrk 2)).step 0 (.munmap 0x3001 1) = .ok shortened ∧ ¬shortened.HeapListed 0 := by
  have fails : heapless.sbrk 0 1 = .error .nullPointer := by
    have fault : (match heapless.sbrk 0 1 with | .error .nullPointer => true | _ => false) = true := by
      decide +kernel
    split at fault
    · assumption
    · contradiction
  refine ⟨userinit_wellFormed, begun_exec, step_next (by decide +kernel), fun listed => ?_, fails,
    step_next (by decide +kernel), fun listed => ?_⟩
  · obtain ⟨b', returns⟩ := listed.returns 1
    rw [fails] at returns
    contradiction
  · obtain ⟨heap, -, owner, -, -, ends⟩ := listed.listed
    have third : shortened.space.table.heap 0 = some 3 := by decide +kernel
    obtain rfl : 3 = heap := Option.some.inj (third.symm.trans owner)
    exact absurd ends (by decide +kernel)

end Breaks

end DeisoXv6
