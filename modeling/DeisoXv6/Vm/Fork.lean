import DeisoXv6.Vm.Ownership
import DeisoXv6.Vm.WellFormed

/-! fork gives the child a list of fresh slots that copies the parent's list field by field, with its heap the copy
of the parent's, or gives every slot back that it has taken. -/

set_option autoImplicit false

namespace DeisoXv6

open List Function LinkedList VmaTable

variable {t t' : VmaTable} {live : ProcId → Bool} {lists : ProcId → List VmaRef} {p np q : ProcId}
  {done before rs rs' : List VmaRef} {r it1 it2 : VmaRef} {i : VmaId} {u : VmaTable}

def Kept (live : ProcId → Bool) (lists : ProcId → List VmaRef) (t t' : VmaTable) : Prop :=
  ∀ q, live q = true → ∀ r ∈ lists q, t'.get r = t.get r

theorem Kept.trans {t'' : VmaTable} (first : Kept live lists t t') (second : Kept live lists t' t'') :
    Kept live lists t t'' := fun q alive r member =>
  (second q alive r member).trans (first q alive r member)

theorem Kept.modify (outside : ∀ q, live q = true → r ∉ lists q) (f : Vma → Vma) :
    Kept live lists t (t.modify f r) := fun q alive _ member =>
  get_modify_other fun found => outside q alive (found ▸ member)

/-- The list of a child of fork up to its last element, whose `next` is not set yet. -/
structure Building (t : VmaTable) (live : ProcId → Bool) (lists : ProcId → List VmaRef) (np : ProcId)
    (done : List VmaRef) (it2 : VmaRef) : Prop where
  last : ∃ front, done = front ++ [it2]
  linked : Linked (update t.next it2 none) (some (.start np)) done
  used : ∀ i, .slot i ∈ done → (t.slot i).used = true
  outside : ∀ q, live q = true → ∀ r ∈ done, r ∉ lists q

namespace Building

theorem mem_last (building : Building t live lists np done it2) : it2 ∈ done := by
  obtain ⟨front, rfl⟩ := building.last
  simp

theorem not_mem_of_unused (building : Building t live lists np done it2)
    (unused : (t.slot i).used = false) : .slot i ∉ done := by
  intro member
  rw [building.used i member] at unused
  contradiction

theorem start (owned : Owned t live lists) (dead : live np = false) (f : Vma → Vma) :
    Building (t.modify f (.start np)) live lists np [.start np] (.start np) where
  last := ⟨[], rfl⟩
  linked := ⟨rfl, update_self ..⟩
  used i member := by simp at member
  outside q alive r member found := by
    obtain rfl : r = .start np := by simpa using member
    rw [owned.start_mem alive found, alive] at dead
    contradiction

theorem close (building : Building t live lists np done it2) (owned : Owned t live lists) :
    Owned (t.setNext it2 none) (update live np true) (update lists np done) := by
  have closed : Owned (t.setNext it2 none) live lists := by
    refine owned.modify_outside (fun q alive => building.outside q alive it2 building.mem_last) ?_
    intro i _ _
    rfl
  have used : ∀ i, .slot i ∈ done → ((t.setNext it2 none).slot i).used = true := by
    intro i member
    change (VmaTable.get _ (.slot i)).used = true
    rw [setNext, get_modify]
    split
    · rename_i here
      rw [← here]
      exact building.used i member
    · exact building.used i member
  have living : ∀ q, q ≠ np → update live np true q = true → live q = true := fun q other alive =>
    (update_of_ne other ..).symm.trans alive
  refine ⟨fun q alive => ?_, fun q i alive member => ?_, fun q q' i alive alive' first second => ?_, closed.free⟩
  · by_cases same : q = np
    · rw [same, update_self, next_setNext]
      exact building.linked
    · rw [update_of_ne same]
      exact closed.linked q (living q same alive)
  · by_cases same : q = np
    · rw [same, update_self] at member
      exact used i member
    · rw [update_of_ne same] at member
      exact closed.used q i (living q same alive) member
  · by_cases one : q = np <;> by_cases two : q' = np
    · rw [one, two]
    · rw [one, update_self] at first
      rw [update_of_ne two] at second
      exact absurd second (building.outside q' (living q' two alive') _ first)
    · rw [two, update_self] at second
      rw [update_of_ne one] at first
      exact absurd first (building.outside q (living q one alive) _ second)
    · rw [update_of_ne one] at first
      rw [update_of_ne two] at second
      exact closed.apart q q' i (living q one alive) (living q' two alive') first second

theorem push (building : Building t live lists np done it2) (owned : Owned t live lists)
    (unused : (t.slot i).used = false) {v : Vma} (used : v.used = true) :
    Building ((t.setNext it2 (some i)).modify (fun _ => v) (.slot i)) live lists np
      (done ++ [.slot i]) (.slot i) := by
  have fresh := building.not_mem_of_unused unused
  have other : it2 ≠ .slot i := fun same => fresh (same ▸ building.mem_last)
  refine ⟨⟨done, rfl⟩, ?_, fun j member => ?_, fun q alive r member => ?_⟩
  · obtain ⟨front, rfl⟩ := building.last
    have longer := building.linked.snoc fresh
    rw [append_assoc]
    refine longer.congr fun r member => ?_
    rw [next_modify, next_setNext]
    by_cases new : r = .slot i
    · rw [new, update_self, update_of_ne (Ne.symm other), update_self]
    · by_cases end_ : r = it2
      · rw [end_, update_of_ne other, update_of_ne other, update_self, update_self]
        rfl
      · rw [update_of_ne new, update_of_ne new, update_of_ne end_,
          update_of_ne end_, update_of_ne new, update_of_ne end_]
  · change (VmaTable.get _ (.slot j)).used = true
    rw [get_modify]
    split
    · exact used
    · rename_i old
      have before : .slot j ∈ done := by
        simp only [mem_append, mem_singleton] at member
        exact member.resolve_right old
      rw [setNext, get_modify]
      split
      · rename_i here
        rw [← here]
        exact building.used j before
      · exact building.used j before
  · rcases mem_append.mp member with old | new
    · exact building.outside q alive r old
    · rw [mem_singleton.mp new]
      exact owned.unused_not_mem alive unused

end Building

theorem free_all (owned : Owned t live lists) (rs : List VmaRef)
    (outside : ∀ q, live q = true → ∀ r ∈ rs, r ∉ lists q) :
    Owned (rs.foldl (fun t r => t.modify (fun _ => .free) r) t) live lists ∧
      Kept live lists t (rs.foldl (fun t r => t.modify (fun _ => .free) r) t) := by
  induction rs generalizing t with
  | nil => exact ⟨owned, fun _ _ _ _ => rfl⟩
  | cons r rs ih =>
    have first : ∀ q, live q = true → r ∉ lists q := fun q alive => outside q alive r (by simp)
    have freed : Owned (t.modify (fun _ => .free) r) live lists :=
      owned.modify_outside first fun _ _ _ => rfl
    obtain ⟨all, kept⟩ := ih freed fun q alive r member => outside q alive r (by simp [member])
    exact ⟨all, (Kept.modify first _).trans kept⟩

theorem heap_free_all (rs : List VmaRef) : (rs.foldl (fun t r => t.modify (fun _ => .free) r) t).heap = t.heap := by
  induction rs generalizing t with
  | nil => rfl
  | cons r rs ih =>
    rw [foldl_cons, ih, heap_modify]

theorem forkUndo_spec (owned : Owned t live lists) (linked : Linked t.next (some (.start np)) done)
    (dead : live np = false) (outside : ∀ q, live q = true → ∀ r ∈ done, r ∉ lists q) :
    ∃ t', t.forkUndo np = .ok t' ∧ Owned t' live lists ∧ Kept live lists t t' := by
  have head : ∀ q, live q = true → .start np ∉ lists q := by
    intro q alive member
    rw [owned.start_mem alive member, alive] at dead
    contradiction
  obtain ⟨freed, kept⟩ := free_all owned done.tail fun q alive r member =>
    outside q alive r (mem_of_mem_tail member)
  refine ⟨_, by rw [forkUndo, refs_of_linked linked], ?_, ?_⟩
  · exact freed.modify_outside head fun i same => absurd same (by simp)
  · exact kept.trans (Kept.modify head _)

def VmaTable.regions (t : VmaTable) (rs : List VmaRef) : List Region := rs.map fun r => (t.get r).region

theorem regions_congr {rs : List VmaRef} (same : ∀ r ∈ rs, (t'.get r).region = (t.get r).region) :
    t'.regions rs = t.regions rs := map_congr_left same

theorem region_setNext (n : Option VmaId) : ((t.setNext it2 n).get r).region = (t.get r).region := by
  rw [setNext, get_modify]
  split
  · rename_i same
    rw [same]
    rfl
  · rfl

theorem Building.abandoned (building : Building t live lists np done it2) (owned : Owned t live lists)
    (dead : live np = false) {slot : Option VmaId} (unused : ∀ i, slot = some i → (t.slot i).used = false) :
    ∃ t', (t.setNext it2 slot).forkUndo np = .ok t' ∧ Owned t' live lists ∧ Kept live lists t t' := by
  have outside : ∀ q, live q = true → it2 ∉ lists q := fun q alive =>
    building.outside q alive it2 building.mem_last
  have kept : Kept live lists t (t.setNext it2 slot) := Kept.modify outside _
  have still : Owned (t.setNext it2 slot) live lists := by
    refine owned.modify_outside outside fun j same unused' => ?_
    have used := building.used j (same ▸ building.mem_last)
    subst same
    exact absurd (used.symm.trans unused') (by simp)
  cases slot with
  | none =>
    have linked : Linked (t.setNext it2 none).next (some (.start np)) done := by
      rw [next_setNext]
      exact building.linked
    obtain ⟨t', undone, owned', kept'⟩ := forkUndo_spec still linked dead building.outside
    exact ⟨t', undone, owned', kept.trans kept'⟩
  | some i =>
    have unused := unused i rfl
    have fresh := building.not_mem_of_unused unused
    have linked : Linked (t.setNext it2 (some i)).next (some (.start np)) (done ++ [.slot i]) := by
      obtain ⟨front, rfl⟩ := building.last
      have longer := building.linked.snoc fresh
      rw [append_assoc, next_setNext]
      refine longer.congr fun r member => ?_
      by_cases end_ : r = it2
      · rw [end_, update_self, update_self]
        rfl
      · rw [update_of_ne end_, update_of_ne end_]
        by_cases new : r = .slot i
        · rw [new, update_self]
          exact congrArg (Option.map VmaRef.slot) (owned.free i unused)
        · rw [update_of_ne new, update_of_ne end_]
    have apart : ∀ q, live q = true → ∀ r ∈ done ++ [.slot i], r ∉ lists q := by
      intro q alive r member
      rcases mem_append.mp member with old | new
      · exact building.outside q alive r old
      · rw [mem_singleton.mp new]
        exact owned.unused_not_mem alive unused
    obtain ⟨t', undone, owned', kept'⟩ := forkUndo_spec still linked dead apart
    exact ⟨t', undone, owned', kept.trans kept'⟩

def Vma.Alike (v w : Vma) : Prop := { v with next := none } = { w with next := none }

namespace Vma.Alike

variable {v w x : Vma}

theorem refl (v : Vma) : v.Alike v := rfl

theorem trans (first : v.Alike w) (second : w.Alike x) : v.Alike x := Eq.trans first second

theorem region (alike : v.Alike w) : v.region = w.region := by
  have same : ({ v with next := none } : Vma) = { w with next := none } := alike
  have regions := congrArg Vma.region same
  exact regions

end Vma.Alike

theorem alike_setNext (n : Option VmaId) : ((t.setNext it2 n).get r).Alike (t.get r) := by
  rw [setNext, get_modify]
  split
  · rename_i same
    rw [same]
    rfl
  · rfl

def CopyOf (t t' : VmaTable) (rs rs' : List VmaRef) : Prop := List.Forall₂ (fun r' r => (t'.get r').Alike (t.get r)) rs' rs

theorem CopyOf.congr {u' : VmaTable} (copy : CopyOf t t' rs rs') (child : ∀ r ∈ rs', (u'.get r).Alike (t'.get r))
    (parent : ∀ r ∈ rs, (t.get r).Alike (u.get r)) : CopyOf u u' rs rs' := by
  induction copy with
  | nil => exact .nil
  | cons alike _ ih =>
    refine .cons ?_ (ih ?_ ?_)
    · exact (child _ mem_cons_self).trans (alike.trans (parent _ mem_cons_self))
    · exact fun r member => child r (mem_cons_of_mem _ member)
    · exact fun r member => parent r (mem_cons_of_mem _ member)

def HeapCopied (t : VmaTable) (p np : ProcId) (rs rs' : List VmaRef) : Prop :=
  ∀ h, t.heap p = some h → .slot h ∈ rs → ∃ i, t.heap np = some i ∧ (VmaRef.slot i, VmaRef.slot h) ∈ rs'.zip rs

theorem CopyOf.regions (copy : CopyOf t t' rs rs') : t'.regions rs' = t.regions rs := by
  induction copy with
  | nil => rfl
  | cons alike _ ih => exact congrArg₂ List.cons alike.region ih

structure Cloned (live : ProcId → Bool) (lists : ProcId → List VmaRef) (p np : ProcId) (t t' : VmaTable)
    (done : List VmaRef) : Prop where
  owned : Owned t' (update live np true) (update lists np done)
  copy : CopyOf t t' (lists p) done
  kept : Kept live lists t t'
  heap : HeapCopied t' p np (lists p) done

/-- What fork leaves: the live lists as they were, and on success a copy of the parent's for the child. -/
structure Forked (live : ProcId → Bool) (lists : ProcId → List VmaRef) (p np : ProcId) (t : VmaTable)
    (ok : Bool) (t' : VmaTable) : Prop where
  kept : Kept live lists t t'
  failed : ok = false → Owned t' live lists
  succeeded : ok = true → ∃ done, Cloned live lists p np t t' done

theorem get_forkHeap : (t.forkHeap p np it1 i).get r = t.get r := by
  unfold forkHeap
  split
  · cases r <;> rfl
  · rfl

theorem next_forkHeap : (t.forkHeap p np it1 i).next = t.next := by
  funext r
  rw [VmaTable.next, get_forkHeap]
  rfl

theorem Owned.forkHeap (owned : Owned t live lists) : Owned (t.forkHeap p np it1 i) live lists := by
  have slot : ∀ j, (t.forkHeap p np it1 i).slot j = t.slot j := fun j => get_forkHeap (r := .slot j)
  refine ⟨fun q alive => ?_, fun q j alive member => ?_, owned.apart, fun j free => ?_⟩
  · rw [next_forkHeap]
    exact owned.linked q alive
  · rw [slot]
    exact owned.used q j alive member
  · rw [slot] at free ⊢
    exact owned.free j free

theorem Building.forkHeap {q : ProcId} (building : Building t live lists np done it2) :
    Building (t.forkHeap p q it1 i) live lists np done it2 := by
  refine ⟨building.last, ?_, fun j member => ?_, building.outside⟩
  · rw [next_forkHeap]
    exact building.linked
  · have slot : (t.forkHeap p q it1 i).slot j = t.slot j := get_forkHeap (r := .slot j)
    rw [slot]
    exact building.used j member

/-- What one iteration of the loop does when it has a slot and the pages. -/
structure Copied (live : ProcId → Bool) (lists : ProcId → List VmaRef) (np : ProcId)
    (done : List VmaRef) (i : VmaId) (t t' : VmaTable) : Prop where
  owned : Owned t' live lists
  built : Building t' live lists np (done ++ [.slot i]) (.slot i)
  kept : Kept live lists t t'

theorem Building.copied (building : Building t live lists np done it2) (owned : Owned t live lists)
    (unused : (t.slot i).used = false) {v : Vma} (used : v.used = true) (p : ProcId) (it1 : VmaRef) :
    Copied live lists np done i t (((t.setNext it2 (some i)).modify (fun _ => v) (.slot i)).forkHeap p np it1 i) := by
  have outside : ∀ q, live q = true → it2 ∉ lists q := fun q alive =>
    building.outside q alive it2 building.mem_last
  have fresh : ∀ q, live q = true → .slot i ∉ lists q := fun q alive =>
    owned.unused_not_mem alive unused
  have opened : Owned (t.setNext it2 (some i)) live lists := by
    refine owned.modify_outside outside fun j same unused' => ?_
    have used' := building.used j (same ▸ building.mem_last)
    subst same
    exact absurd (used'.symm.trans unused') (by simp)
  have filled : Owned ((t.setNext it2 (some i)).modify (fun _ => v) (.slot i)) live lists :=
    opened.modify_outside fresh fun _ _ unused' => absurd (used.symm.trans unused') (by simp)
  have kept : Kept live lists t ((t.setNext it2 (some i)).modify (fun _ => v) (.slot i)) :=
    (Kept.modify outside _).trans (Kept.modify fresh _)
  refine ⟨filled.forkHeap, (building.push owned unused used).forkHeap, fun q alive r member => ?_⟩
  rw [get_forkHeap]
  exact kept q alive r member

theorem forkHeap_heap : (t.forkHeap p np it1 i).heap q =
    if q = np ∧ (t.heap p).map VmaRef.slot = some it1 then some i else t.heap q := by
  unfold forkHeap
  split
  · rename_i same
    simp only [same, and_true]
    exact update_apply t.heap np (some i) q
  · rename_i other
    simp only [other, and_false, if_false]

theorem forkUndo_heap (undone : t.forkUndo np = .ok t') : t'.heap = t.heap := by
  unfold forkUndo at undone
  split at undone
  · contradiction
  · cases undone
    rw [setNext, heap_modify, heap_free_all]

variable {copies : VmaRef → Bool} {ok : Bool}

theorem forkLoop_heap {rest : List VmaRef} (other : q ≠ np)
    (looped : forkLoop p np copies t it2 rest = .ok (ok, t')) : t'.heap q = t.heap q := by
  induction rest generalizing t it2 with
  | nil =>
    cases looped
    rw [setNext, heap_modify]
  | cons it1 rest ih =>
    rw [forkLoop] at looped
    generalize t.vmaAlloc = slot at looped
    dsimp only at looped
    split at looped
    · rw [ih looped, forkHeap_heap, if_neg fun both => other both.1, heap_modify, setNext, heap_modify]
    · split at looped
      · contradiction
      · rename_i undone
        cases looped
        rw [forkUndo_heap undone, setNext, heap_modify]

theorem fork_heap (other : q ≠ np) (forked : t.fork p np copies = .ok (ok, t')) : t'.heap q = t.heap q := by
  unfold VmaTable.fork at forked
  dsimp only at forked
  split at forked
  · contradiction
  · rw [forkLoop_heap other forked, heap_modify]

theorem Building.copy_push (building : Building t live lists np done it2) (unused : (t.slot i).used = false)
    (copy : CopyOf t t before done) (parent : ∀ r ∈ before ++ [it1], t'.get r = t.get r)
    (child : ∀ r, t'.get r = ((t.setNext it2 (some i)).modify (fun _ => t.get it1) (.slot i)).get r) :
    CopyOf t' t' (before ++ [it1]) (done ++ [.slot i]) := by
  refine rel_append (CopyOf.congr copy ?_ ?_) (.cons ?_ .nil)
  · intro r member
    have other : r ≠ .slot i := fun hit => building.not_mem_of_unused unused (hit ▸ member)
    rw [child, get_modify_other other]
    exact alike_setNext (some i)
  · intro r member
    rw [parent r (mem_append_left _ member)]
    exact .refl _
  · rw [child, get_modify_same, parent it1 (by simp)]
    exact .refl _

theorem heapCopied_push (it1 : VmaRef) (i : VmaId) (heap : HeapCopied t p np before done) (other : p ≠ np)
    (lengths : done.length = before.length) {u : VmaTable} (heaps : u.heap = t.heap) :
    HeapCopied (u.forkHeap p np it1 i) p np (before ++ [it1]) (done ++ [.slot i]) := by
  intro h owner member
  rw [forkHeap_heap, if_neg (fun both => other both.1), heaps] at owner
  rw [forkHeap_heap, heaps, owner, Option.map_some, zip_append lengths]
  by_cases here : VmaRef.slot h = it1
  · refine ⟨i, if_pos ⟨rfl, congrArg some here⟩, ?_⟩
    rw [here]
    exact mem_append_right _ (mem_singleton.mpr rfl)
  · have old : VmaRef.slot h ∈ before := by
      rcases mem_append.mp member with old | last
      · exact old
      · exact absurd (mem_singleton.mp last) here
    obtain ⟨j, copied, pair⟩ := heap h owner old
    refine ⟨j, ?_, mem_append_left _ pair⟩
    rw [if_neg (fun both => here (Option.some.inj both.2))]
    exact copied

theorem Cloned.after (cloned : Cloned live lists p np u t' done) (kept : Kept live lists t u) (alive : live p = true) :
    Cloned live lists p np t t' done := by
  refine ⟨cloned.owned, cloned.copy.congr (fun r _ => .refl _) fun r member => ?_, kept.trans cloned.kept, cloned.heap⟩
  rw [kept p alive r member]
  exact .refl _

theorem forkLoop_spec (copies : VmaRef → Bool) (rest : List VmaRef) (owned : Owned t live lists)
    (dead : live np = false) (alive : live p = true) (building : Building t live lists np done it2)
    (shape : lists p = before ++ rest) (slots : ∀ r ∈ rest, ∃ i, r = .slot i) (copied : CopyOf t t before done)
    (heap : HeapCopied t p np before done) :
    ∃ ok t', forkLoop p np copies t it2 rest = .ok (ok, t') ∧ Forked live lists p np t ok t' := by
  have other : p ≠ np := by
    rintro rfl
    rw [alive] at dead
    contradiction
  induction rest generalizing t done it2 before with
  | nil =>
    have kept : Kept live lists t (t.setNext it2 none) := Kept.modify (fun q alive' =>
      building.outside q alive' it2 building.mem_last) _
    rw [append_nil] at shape
    refine ⟨true, _, rfl, kept, by simp, fun _ => ⟨done, building.close owned, ?_, kept, ?_⟩⟩
    · rw [shape]
      exact copied.congr (fun r _ => alike_setNext none) fun r _ => .refl _
    · rw [shape]
      intro h
      rw [setNext, heap_modify]
      exact heap h
  | cons it1 rest ih =>
    have unused : ∀ i, t.vmaAlloc = some i → (t.slot i).used = false := fun i =>
      vmaAlloc_unused
    rw [forkLoop]
    generalize t.vmaAlloc = slot at unused ⊢
    obtain ⟨u, undone, owned', kept⟩ := building.abandoned owned dead unused
    cases slot with
    | none => exact ⟨false, u, by simp only [undone], kept, fun _ => owned', by simp⟩
    | some i =>
      cases copy : copies it1 with
      | false => exact ⟨false, u, by simp only [undone], kept, fun _ => owned', by simp⟩
      | true =>
        obtain ⟨j, rfl⟩ := slots it1 (by simp)
        have member : VmaRef.slot j ∈ lists p := by simp [shape]
        have source : (t.setNext it2 (some i)).get (.slot j) = t.get (.slot j) :=
          get_modify_other fun same =>
            building.outside p alive it2 building.mem_last (same ▸ member)
        have used : (t.get (.slot j)).used = true := owned.used p j alive member
        simp only [source]
        have step := building.copied owned (unused i rfl) used p (.slot j)
        have inside : ∀ r ∈ before ++ [.slot j], r ∈ lists p := by
          intro r member
          rw [shape]
          simp only [mem_append, mem_cons] at member ⊢
          tauto
        have copied' := building.copy_push (unused i rfl) copied (fun r member => step.kept p alive r (inside r member))
          fun r => get_forkHeap
        have heap' := heapCopied_push (.slot j) i heap other (List.Forall₂.length_eq copied)
          (u := (t.setNext it2 (some i)).modify (fun _ => t.get (.slot j)) (.slot i))
          (by rw [heap_modify, setNext, heap_modify])
        obtain ⟨ok, t', looped, forked⟩ := ih step.owned step.built (by rw [shape]; simp)
          (fun r later => slots r (by simp [later])) copied' heap'
        refine ⟨ok, t', looped, step.kept.trans forked.kept, forked.failed, fun succeeded => ?_⟩
        obtain ⟨done', cloned⟩ := forked.succeeded succeeded
        exact ⟨done', cloned.after step.kept alive⟩

theorem fork_spec (copies : VmaRef → Bool) (owned : Owned t live lists) (dead : live np = false)
    (alive : live p = true) : ∃ ok t', t.fork p np copies = .ok (ok, t') ∧ Forked live lists p np t ok t' := by
  have head : ∀ q, live q = true → .start np ∉ lists q := by
    intro q alive' member
    rw [owned.start_mem alive' member, alive'] at dead
    contradiction
  let t₁ := t.modify (fun _ => t.get (.start p)) (.start np)
  have owned₁ : Owned t₁ live lists := owned.modify_outside head fun i same => absurd same (by simp)
  have kept₁ : Kept live lists t t₁ := Kept.modify head _
  obtain ⟨ids, shape⟩ := linked_shape (owned.linked p alive)
  have copied : CopyOf t₁ t₁ [.start p] [.start np] := by
    refine .cons ?_ .nil
    rw [get_modify_same, kept₁ p alive (.start p) (by simp [shape])]
    exact .refl _
  have heap : HeapCopied t₁ p np [.start p] [.start np] := fun h _ member => by simp at member
  obtain ⟨ok, t', looped, forked⟩ := forkLoop_spec copies (ids.map .slot) owned₁ dead alive
    (Building.start owned dead _) (shape : lists p = [.start p] ++ ids.map .slot) (by simp) copied heap
  refine ⟨ok, t', ?_, kept₁.trans forked.kept, forked.failed, fun succeeded => ?_⟩
  · rw [VmaTable.fork, owned₁.refs alive, shape]
    exact looped
  · obtain ⟨done, cloned⟩ := forked.succeeded succeeded
    exact ⟨done, cloned.after kept₁ alive⟩

end DeisoXv6
