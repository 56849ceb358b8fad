import DeisoXv6.Vm.Vma
import Mathlib.Data.Fintype.Card

/-! Which process owns which slot of the pool of VMAs: the lists of the live processes are disjoint
and made of used slots, and a free slot points nowhere. -/

set_option autoImplicit false

namespace DeisoXv6

open List Function LinkedList VmaTable

variable {t : VmaTable} {f : Vma → Vma} {r : VmaRef} {p q : ProcId}

namespace VmaTable

variable {r' : VmaRef} {l : List VmaRef}

theorem get_modify : (t.modify f r).get r' = if r' = r then f (t.get r) else t.get r' := by
  cases r with
  | start p =>
    cases r' with
    | start q => by_cases same : q = p <;> simp [get, modify, same]
    | slot i => simp [get, modify]
  | slot i =>
    cases r' with
    | start q => simp [get, modify]
    | slot j => by_cases same : j = i <;> simp [get, modify, same]

@[simp] theorem get_modify_same : (t.modify f r).get r = f (t.get r) := by
  rw [get_modify, if_pos rfl]

theorem get_modify_other (other : r' ≠ r) : (t.modify f r).get r' = t.get r' := by
  rw [get_modify, if_neg other]

@[simp] theorem heap_modify : (t.modify f r).heap = t.heap := by
  cases r <;> rfl

theorem next_modify : (t.modify f r).next = update t.next r ((f (t.get r)).next.map .slot) := by
  funext r'
  rw [next, get_modify]
  by_cases same : r' = r
  · rw [if_pos same, same, update_self]
  · rw [if_neg same, update_of_ne same]
    rfl

theorem next_setNext (n : Option VmaId) : (t.setNext r n).next = update t.next r (n.map .slot) := next_modify

theorem next_modify_keep (keep : (f (t.get r)).next = (t.get r).next) : (t.modify f r).next = t.next := by
  rw [next_modify, keep]
  exact update_eq_self r t.next

theorem linked_shape (linked : Linked t.next (some (.start p)) l) :
    ∃ ids : List VmaId, l = .start p :: ids.map .slot := by
  have slots : ∀ (l : List VmaRef) (n : Option VmaId), Linked t.next (n.map .slot) l →
      ∃ ids : List VmaId, l = ids.map .slot := by
    intro l
    induction l with
    | nil => exact fun _ _ => ⟨[], rfl⟩
    | cons r l ih =>
      rintro n ⟨same, rest⟩
      obtain ⟨i, -, rfl⟩ := Option.map_eq_some_iff.mp same
      obtain ⟨ids, rfl⟩ := ih _ rest
      exact ⟨i :: ids, rfl⟩
  cases l with
  | nil => exact absurd linked (by simp [Linked])
  | cons r l =>
    obtain ⟨same, rest⟩ := linked
    cases same
    obtain ⟨ids, rfl⟩ := slots l _ rest
    exact ⟨ids, rfl⟩

theorem refs_of_linked (linked : Linked t.next (some (.start p)) l) : t.refs p = .ok l := by
  obtain ⟨ids, rfl⟩ := linked_shape linked
  have once : ids.Nodup := (nodup_cons.mp linked.nodup).2.of_map
  have short : ids.length ≤ NVMA := by simpa using once.length_le_card
  rw [refs, linked.follow (by simpa using short)]

theorem linked_of_refs (found : t.refs p = .ok l) : Linked t.next (some (.start p)) l := by
  unfold refs at found
  split at found
  · rename_i l' followed
    cases found
    exact (follow_eq_some.mp followed).1
  · contradiction

theorem vmaAlloc_unused {i : VmaId} (found : t.vmaAlloc = some i) : (t.slot i).used = false := by
  unfold vmaAlloc at found
  simpa using List.find?_some found

theorem vmaAlloc_full (full : ∀ i, (t.slot i).used = true) : t.vmaAlloc = none := by
  unfold vmaAlloc
  exact List.find?_eq_none.mpr fun i _ => by simp [full i]

end VmaTable

structure Owned (t : VmaTable) (live : ProcId → Bool) (lists : ProcId → List VmaRef) : Prop where
  linked : ∀ p, live p = true → Linked t.next (some (.start p)) (lists p)
  used : ∀ p i, live p = true → .slot i ∈ lists p → (t.slot i).used = true
  apart : ∀ p q i, live p = true → live q = true → .slot i ∈ lists p → .slot i ∈ lists q → p = q
  free : ∀ i, (t.slot i).used = false → (t.slot i).next = none

namespace Owned

variable {live : ProcId → Bool} {lists : ProcId → List VmaRef} {it prev : VmaRef} {i : VmaId} {pre post : List VmaRef}

section

variable (owned : Owned t live lists)

include owned

section

variable (alive : live p = true)

include alive

theorem refs : t.refs p = .ok (lists p) :=
  refs_of_linked (owned.linked p alive)

theorem start_mem (member : .start q ∈ lists p) : q = p := by
  obtain ⟨ids, shape⟩ := linked_shape (owned.linked p alive)
  rw [shape] at member
  simpa using member

theorem slot_behind (shape : lists p = pre ++ prev :: it :: post) : ∃ i, it = .slot i := by
  obtain ⟨ids, slots⟩ := linked_shape (owned.linked p alive)
  have member : it ∈ (lists p).tail := by
    rw [shape]
    cases pre <;> simp
  rw [slots, tail_cons] at member
  obtain ⟨i, -, same⟩ := mem_map.mp member
  exact ⟨i, same.symm⟩

theorem disjoint (alive' : live q = true) (first : r ∈ lists p) (second : r ∈ lists q) : p = q := by
  cases r with
  | start x => exact (owned.start_mem alive first).symm.trans (owned.start_mem alive' second)
  | slot i => exact owned.apart p q i alive alive' first second

theorem unused_not_mem (unused : (t.slot i).used = false) : .slot i ∉ lists p := by
  intro member
  rw [owned.used p i alive member] at unused
  contradiction

end

theorem modify (used : (f (t.get r)).used = (t.get r).used)
    (next : (f (t.get r)).next = (t.get r).next) : Owned (t.modify f r) live lists := by
  have same : ∀ i, ((t.modify f r).slot i).used = (t.slot i).used ∧
      ((t.modify f r).slot i).next = (t.slot i).next := by
    intro i
    change ((t.modify f r).get (.slot i)).used = (t.get (.slot i)).used ∧
      ((t.modify f r).get (.slot i)).next = (t.get (.slot i)).next
    rw [get_modify]
    split
    · rename_i here
      rw [here]
      exact ⟨used, next⟩
    · exact ⟨rfl, rfl⟩
  refine ⟨fun p alive => ?_, fun p i alive member => ?_, owned.apart, fun i unused => ?_⟩
  · rw [next_modify_keep next]
    exact owned.linked p alive
  · rw [(same i).1]
    exact owned.used p i alive member
  · rw [(same i).2]
    exact owned.free i ((same i).1 ▸ unused)

theorem insert (alive : live p = true) (shape : lists p = pre ++ it :: post)
    (unused : (t.slot i).used = false) {v : Vma} (used : v.used = true) (next : v.next = (t.get it).next) :
    Owned ((t.modify (fun _ => v) (.slot i)).setNext it (some i)) live
      (update lists p (pre ++ it :: .slot i :: post)) := by
  have fresh : ∀ q, live q = true → .slot i ∉ lists q := fun q alive' =>
    owned.unused_not_mem alive' unused
  have here : it ∈ lists p := by simp [shape]
  have other : it ≠ .slot i := fun same => fresh p alive (same ▸ here)
  have links : ((t.modify (fun _ => v) (.slot i)).setNext it (some i)).next =
      update (update t.next (.slot i) (t.next it)) it (some (.slot i)) := by
    rw [next_setNext, next_modify, next]
    rfl
  have slot : ∀ j, ((t.modify (fun _ => v) (.slot i)).setNext it (some i)).slot j =
      if .slot j = it then { t.get it with next := some i } else if j = i then v else t.slot j := by
    intro j
    change VmaTable.get _ (.slot j) = _
    rw [setNext, get_modify, get_modify, get_modify, if_neg other]
    simp only [VmaRef.slot.injEq]
    rfl
  refine ⟨fun q alive' => ?_, fun q j alive' member => ?_, fun q q' j alive' alive'' first second => ?_,
    fun j free => ?_⟩
  · rw [links]
    by_cases same : q = p
    · rw [same, update_self]
      exact (shape ▸ owned.linked p alive).insert (shape ▸ fresh p alive)
    · rw [update_of_ne same]
      refine (owned.linked q alive').congr fun r member => ?_
      have first : r ≠ it := fun found => same (owned.disjoint alive' alive (found ▸ member) here)
      have second : r ≠ .slot i := fun found => fresh q alive' (found ▸ member)
      rw [update_of_ne first, update_of_ne second]
  · rw [slot]
    split
    · rename_i found
      have := owned.used p j alive (by rw [found]; exact here)
      rw [← found]
      exact this
    · split
      · exact used
      · rename_i notIt notNew
        refine owned.used q j alive' ?_
        by_cases same : q = p
        · rw [same, update_self] at member
          rw [same, shape]
          simpa [notNew] using member
        · rw [update_of_ne same] at member
          exact member
  · have back : ∀ q, live q = true → .slot j ∈ update lists p (pre ++ it :: .slot i :: post) q →
        (.slot j ∈ lists q) ∨ (j = i ∧ q = p) := by
      intro q alive' member
      by_cases same : q = p
      · rw [same, update_self] at member
        rw [same, shape]
        simp only [mem_append, mem_cons, VmaRef.slot.injEq] at member ⊢
        tauto
      · rw [update_of_ne same] at member
        exact .inl member
    rcases back q alive' first with one | ⟨rfl, rfl⟩ <;> rcases back q' alive'' second with two | ⟨new, rfl⟩
    · exact owned.apart q q' j alive' alive'' one two
    · exact absurd (new ▸ one) (fresh q alive')
    · exact absurd two (fresh q' alive'')
    · rfl
  · rw [slot] at free ⊢
    split at free
    · rename_i found
      have := owned.used p j alive (by rw [found]; exact here)
      rw [← found] at free
      exact absurd (this.symm.trans free) (by simp)
    · split at free
      · rw [used] at free
        contradiction
      · rename_i notIt notNew
        rw [if_neg notIt, if_neg notNew]
        exact owned.free j free

theorem unlink (alive : live p = true) (shape : lists p = pre ++ prev :: .slot i :: post) :
    Owned ((t.setNext prev (t.slot i).next).modify (fun _ => .free) (.slot i)) live
      (update lists p (pre ++ prev :: post)) := by
  have linked := owned.linked p alive
  have once := linked.nodup
  rw [shape] at linked once
  have here : prev ∈ lists p := by simp [shape]
  have gone : VmaRef.slot i ∈ lists p := by simp [shape]
  have absent : VmaRef.slot i ∉ pre ++ prev :: post := by
    rw [nodup_append] at once
    simp only [nodup_cons, mem_cons] at once
    simp only [mem_append, mem_cons]
    rintro (before | same | after)
    · exact once.2.2 _ before _ (by simp) rfl
    · exact once.2.1.1 (.inl same.symm)
    · exact once.2.1.2.1 after
  have other : VmaRef.slot i ≠ prev := fun same => absent (by simp [same])
  have links : ((t.setNext prev (t.slot i).next).modify (fun _ => .free) (.slot i)).next =
      update (update t.next prev (t.next (.slot i))) (.slot i) none := by
    rw [next_modify, next_setNext]
    rfl
  have slot : ∀ j, ((t.setNext prev (t.slot i).next).modify (fun _ => .free) (.slot i)).slot j =
      if j = i then .free else if .slot j = prev then { t.get prev with next := (t.slot i).next } else t.slot j := by
    intro j
    change VmaTable.get _ (.slot j) = _
    rw [get_modify, setNext, get_modify]
    simp only [VmaRef.slot.injEq]
    rfl
  have fewer : ∀ q j, .slot j ∈ update lists p (pre ++ prev :: post) q → .slot j ∈ lists q ∧ (q = p → j ≠ i) := by
    intro q j member
    by_cases same : q = p
    · subst same
      rw [update_self] at member
      refine ⟨?_, fun _ found => absent (found ▸ member)⟩
      rw [shape]
      simp only [mem_append, mem_cons] at member ⊢
      tauto
    · rw [update_of_ne same] at member
      exact ⟨member, fun found => absurd found same⟩
  refine ⟨fun q alive' => ?_, fun q j alive' member => ?_, fun q q' j alive' alive'' first second =>
    owned.apart q q' j alive' alive'' (fewer q j first).1 (fewer q' j second).1, fun j free => ?_⟩
  · rw [links]
    by_cases same : q = p
    · rw [same, update_self]
      refine linked.unlink.congr fun r member => ?_
      have still : r ≠ .slot i := fun found => absent (found ▸ member)
      rw [update_of_ne still]
    · rw [update_of_ne same]
      refine (owned.linked q alive').congr fun r member => ?_
      have first : r ≠ .slot i := fun found => same (owned.disjoint alive' alive (found ▸ member) gone)
      have second : r ≠ prev := fun found => same (owned.disjoint alive' alive (found ▸ member) here)
      rw [update_of_ne first, update_of_ne second]
  · obtain ⟨old, kept⟩ := fewer q j member
    have still : j ≠ i := by
      rintro rfl
      exact kept (owned.apart q p j alive' alive old gone) rfl
    rw [slot, if_neg still]
    split
    · rename_i found
      rw [← found]
      exact owned.used q j alive' old
    · exact owned.used q j alive' old
  · rw [slot] at free ⊢
    split at free
    · rename_i found
      rw [if_pos found]
      rfl
    · rename_i still
      rw [if_neg still]
      split at free
      · rename_i found
        have := owned.used p j alive (by rw [found]; exact here)
        rw [← found] at free
        exact absurd (this.symm.trans free) (by simp)
      · rename_i notPrev
        rw [if_neg notPrev]
        exact owned.free j free

theorem modify_outside (outside : ∀ q, live q = true → r ∉ lists q)
    (links : ∀ i, r = .slot i → (f (t.get r)).used = false → (f (t.get r)).next = none) :
    Owned (t.modify f r) live lists := by
  have slot : ∀ i, (t.modify f r).slot i = if .slot i = r then f (t.get r) else t.slot i := by
    intro i
    change VmaTable.get _ (.slot i) = _
    rw [get_modify]
    rfl
  refine ⟨fun q alive => ?_, fun q i alive member => ?_, owned.apart, fun i unused => ?_⟩
  · rw [next_modify]
    refine (owned.linked q alive).congr fun r' member => ?_
    have other : r' ≠ r := fun found => outside q alive (found ▸ member)
    rw [update_of_ne other]
  · have other : VmaRef.slot i ≠ r := fun found => outside q alive (found ▸ member)
    rw [slot, if_neg other]
    exact owned.used q i alive member
  · rw [slot] at unused ⊢
    split at unused
    · rename_i found
      rw [if_pos found]
      exact links i found.symm unused
    · rename_i other
      rw [if_neg other]
      exact owned.free i unused

theorem heap (heap : ProcId → Option VmaId) : Owned { t with heap := heap } live lists :=
  ⟨owned.linked, owned.used, owned.apart, owned.free⟩

end

end Owned

end DeisoXv6
