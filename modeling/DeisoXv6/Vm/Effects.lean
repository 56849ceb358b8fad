import DeisoXv6.Vm.Calls

/-! Everything that one call can do to the VMAs, by the branch that it takes. What holds over runs of calls is
proved from this and never from the code of the calls. -/

set_option autoImplicit false

namespace DeisoXv6

open Function VmaTable

/-- What a call of process `p` leaves, the lists being those before it. -/
inductive Effect (s : Space) (lists : ProcId → List VmaRef) (p : ProcId) : Call → Space → Prop where
  | refused {call : Call} : Effect s lists p call s
  | mapped {call : VmaTable.Mmap} {pre post : List VmaRef} {it next : VmaRef} {i : VmaId}
      (permitted : call.permitted = true) (shape : lists p = pre ++ it :: next :: post)
      (gap : s.table.mmapGap call.length.toNat (lists p) = some it)
      (room : s.table.availableSpace it next ≥ pgroundup call.length.toNat) (taken : s.table.vmaAlloc = some i) :
      Effect s lists p (.mmap call)
        ⟨(s.table.modify (fun _ => call.vma (s.table.get it)) (.slot i)).setNext it (some i), s.live⟩
  | removed {addr length : UInt64} {pre post : List VmaRef} {prev next : VmaRef} {i : VmaId}
      (shape : lists p = pre ++ prev :: .slot i :: next :: post)
      (skipped : ∀ r ∈ pre ++ [prev], ¬(s.table.get r).Covers addr.toNat length.toNat)
      (covers : (s.table.slot i).Covers addr.toNat length.toNat)
      (whole : (s.table.slot i).start = addr.toNat ∧ (s.table.slot i).length = length.toNat) :
      Effect s lists p (.munmap addr length)
        ⟨(s.table.setNext prev (s.table.slot i).next).modify (fun _ => .free) (.slot i), s.live⟩
  | front {addr length : UInt64} {pre post : List VmaRef} {it next : VmaRef}
      (shape : lists p = pre ++ it :: next :: post)
      (skipped : ∀ r ∈ pre, ¬(s.table.get r).Covers addr.toNat length.toNat)
      (covers : (s.table.get it).Covers addr.toNat length.toNat) (start : (s.table.get it).start = addr.toNat) :
      Effect s lists p (.munmap addr length) ⟨s.table.modify (cutFront addr.toNat length.toNat) it, s.live⟩
  | back {addr length : UInt64} {pre post : List VmaRef} {it next : VmaRef}
      (shape : lists p = pre ++ it :: next :: post)
      (skipped : ∀ r ∈ pre, ¬(s.table.get r).Covers addr.toNat length.toNat)
      (covers : (s.table.get it).Covers addr.toNat length.toNat) (start : (s.table.get it).start ≠ addr.toNat)
      (stop : (s.table.get it).stop = u64 (addr.toNat + length.toNat)) :
      Effect s lists p (.munmap addr length) ⟨s.table.modify (cutBack length.toNat) it, s.live⟩
  | resized {n : BitVec 32} {h : VmaId} (heap : s.table.heap p = some h) :
      Effect s lists p (.sbrk n) ⟨s.table.modify (resize n.toInt) (.slot h), s.live⟩
  | unforked {memory : Bool} {copies : VmaRef → Bool} {t' : VmaTable} (owned : Owned t' s.live lists)
      (kept : Kept s.live lists s.table t') (heap : ∀ q, s.live q = true → t'.heap q = s.table.heap q) :
      Effect s lists p (.fork memory copies) ⟨t', s.live⟩
  | forked {memory : Bool} {copies : VmaRef → Bool} {t' : VmaTable} {np : ProcId} {done : List VmaRef}
      (found : s.allocproc = some np) (cloned : Cloned s.live lists p np s.table t' done)
      (heap : ∀ q, s.live q = true → t'.heap q = s.table.heap q) :
      Effect s lists p (.fork memory copies) ⟨t', update s.live np true⟩

variable {s s' : Space} {lists : ProcId → List VmaRef} {p : ProcId}

theorem mmap_effect {call : VmaTable.Mmap} (owned : Owned s.table s.live lists) (alive : s.live p = true)
    (result : s.step p (.mmap call) = .ok s') : Effect s lists p (.mmap call) s' := by
  simp only [Space.step, VmaTable.mmap, owned.refs alive] at result
  split at result
  · cases result
    exact .refused
  · rename_i permitted
    cases gap : s.table.mmapGap call.length.toNat (lists p) with
    | none =>
      rw [gap] at result
      cases result
      exact .refused
    | some it =>
      cases taken : s.table.vmaAlloc with
      | none =>
        rw [gap, taken] at result
        cases result
        exact .refused
      | some i =>
        rw [gap, taken] at result
        cases result
        obtain ⟨pre, next, post, shape, room⟩ := mmapGap_some gap
        exact .mapped (by simpa using permitted) shape gap room taken

theorem munmap_effect {addr length : UInt64} (owned : Owned s.table s.live lists) (alive : s.live p = true)
    (result : s.step p (.munmap addr length) = .ok s') : Effect s lists p (.munmap addr length) s' := by
  simp only [Space.step, VmaTable.munmap, owned.refs alive] at result
  rcases munmapFind_cases (t := s.table) addr.toNat length.toNat (lists p) none with
    ⟨nothing, -⟩ | ⟨pre, it, next, post, shape, skipped, covers, found⟩
  · rw [nothing] at result
    cases result
    exact .refused
  · rw [found, Option.or_none] at result
    unfold munmapBranch at result
    split at result
    · rename_i whole
      rcases List.eq_nil_or_concat pre with rfl | ⟨above, prev, rfl⟩
      · contradiction
      · have chain : lists p = above ++ prev :: it :: next :: post := by simp [shape]
        obtain ⟨i, rfl⟩ := owned.slot_behind alive chain
        rw [List.concat_eq_append] at result skipped
        rw [List.getLast?_concat] at result
        cases result
        exact .removed chain skipped covers whole
    · split at result
      · rename_i start
        split at result
        · cases result
          exact .front shape skipped covers start
        · cases result
          exact .refused
      · rename_i start
        split at result
        · rename_i stop
          cases result
          exact .back shape skipped covers start stop
        · cases result
          exact .refused

theorem sbrk_cases {t t' : VmaTable} {n : Int} {a : Option Nat} (result : t.sbrk p n = .ok (a, t')) :
    (a = none ∧ t' = t) ∨ ∃ h, t.heap p = some h ∧ a = some (t.slot h).stop ∧ t' = t.modify (resize n) (.slot h) := by
  unfold VmaTable.sbrk at result
  cases heap : t.heap p with
  | none =>
    rw [heap] at result
    contradiction
  | some h =>
    rw [heap] at result
    dsimp only at result
    split at result
    · split at result <;> cases result
      · exact .inl ⟨rfl, rfl⟩
      · exact .inr ⟨h, rfl, rfl, rfl⟩
    · split at result
      · cases result
        exact .inr ⟨h, rfl, rfl, rfl⟩
      · split at result
        · contradiction
        · split at result
          · contradiction
          · split at result <;> cases result
            · exact .inl ⟨rfl, rfl⟩
            · exact .inr ⟨h, rfl, rfl, rfl⟩

theorem sbrk_effect {n : BitVec 32} (result : s.step p (.sbrk n) = .ok s') : Effect s lists p (.sbrk n) s' := by
  simp only [Space.step] at result
  cases called : s.table.sbrk p n.toInt with
  | error fault =>
    rw [called] at result
    contradiction
  | ok pair =>
    obtain ⟨a, t'⟩ := pair
    rw [called] at result
    cases result
    rcases sbrk_cases called with ⟨-, rfl⟩ | ⟨h, heap, -, rfl⟩
    · exact .refused
    · exact .resized heap

variable {memory : Bool} {copies : VmaRef → Bool}

theorem fork_effect (owned : Owned s.table s.live lists)
    (alive : s.live p = true) (result : s.step p (.fork memory copies) = .ok s') :
    Effect s lists p (.fork memory copies) s' := by
  simp only [Space.step] at result
  cases found : s.allocproc with
  | none =>
    rw [found] at result
    cases result
    exact .refused
  | some np =>
    rw [found] at result
    dsimp only at result
    have dead := allocproc_dead found
    have apart : ∀ q, s.live q = true → q ≠ np := by
      rintro q alive' rfl
      rw [alive'] at dead
      contradiction
    have head : ∀ q, s.live q = true → .start np ∉ lists q := fun q alive' member =>
      apart q alive' (owned.start_mem alive' member).symm
    split at result
    · cases result
      refine .unforked ?_ (Kept.modify head _) fun q _ => by rw [setNext, heap_modify]
      exact owned.modify_outside head fun i same => absurd same (by simp)
    · obtain ⟨ok, t', forked, spec⟩ := fork_spec copies owned dead alive
      have heap : ∀ q, s.live q = true → t'.heap q = s.table.heap q := fun q alive' =>
        fork_heap (apart q alive') forked
      rw [forked] at result
      cases ok with
      | false =>
        cases result
        exact .unforked (spec.failed rfl) spec.kept heap
      | true =>
        cases result
        obtain ⟨done, cloned⟩ := spec.succeeded rfl
        exact .forked found cloned heap

theorem step_effect {call : Call} (owned : Owned s.table s.live lists) (alive : s.live p = true)
    (result : s.step p call = .ok s') : Effect s lists p call s' := by
  cases call with
  | mmap call => exact mmap_effect owned alive result
  | munmap addr length => exact munmap_effect owned alive result
  | sbrk n => exact sbrk_effect result
  | fork memory copies => exact fork_effect owned alive result

/-- A child of a process of `kin` belongs to it. -/
def Space.descend (s s' : Space) (kin : ProcId → Bool) (p q : ProcId) : Bool :=
  kin q || (kin p && s'.live q && !s.live q)

/-- Every process of `kin` is live, and its list has the property `P`. -/
structure Lineage (P : VmaTable → ProcId → List VmaRef → Prop) (s : Space) (kin : ProcId → Bool)
    (lists : ProcId → List VmaRef) : Prop where
  owned : Owned s.table s.live lists
  holds : ∀ q, kin q = true → s.live q = true ∧ P s.table q (lists q)

/-- `P` depends on the heap pointer and on the regions of the list only. -/
def Framed (P : VmaTable → ProcId → List VmaRef → Prop) : Prop :=
  ∀ (t t' : VmaTable) (q : ProcId) (rs : List VmaRef), P t q rs →
    (∀ r ∈ rs, (t'.get r).region = (t.get r).region) → t'.heap q = t.heap q → P t' q rs

section Lineage

variable {P : VmaTable → ProcId → List VmaRef → Prop} {kin : ProcId → Bool} {t' : VmaTable} {q np : ProcId}
  {pre post : List VmaRef} {it prev next : VmaRef} {i : VmaId}

theorem descend_eq (same : s'.live q = s.live q) : s.descend s' kin p q = kin q := by
  cases old : s.live q <;> simp [Space.descend, same, old]

namespace Lineage

section

variable (family : Lineage P s kin lists) (framed : Framed P)

include family framed

theorem change {list : List VmaRef} (owned : Owned t' s.live (update lists p list))
    (same : ∀ q, q ≠ p → s.live q = true → ∀ r ∈ lists q, (t'.get r).region = (s.table.get r).region)
    (heap : t'.heap = s.table.heap) (own : kin p = true → P t' p list) :
    Lineage P ⟨t', s.live⟩ kin (update lists p list) := by
  refine ⟨owned, fun q member => ?_⟩
  obtain ⟨alive, holds⟩ := family.holds q member
  refine ⟨alive, ?_⟩
  by_cases here : q = p
  · rw [here, update_self]
    exact own (here ▸ member)
  · rw [update_of_ne here]
    exact framed _ _ _ _ holds (same q here alive) (congrFun heap q)

theorem modify (alive : s.live p = true) (member : it ∈ lists p)
    {f : Vma → Vma} (used : (f (s.table.get it)).used = (s.table.get it).used)
    (next : (f (s.table.get it)).next = (s.table.get it).next)
    (own : kin p = true → P (s.table.modify f it) p (lists p)) :
    Lineage P ⟨s.table.modify f it, s.live⟩ kin lists := by
  have owned := family.owned.modify used next
  rw [← update_eq_self p lists] at owned ⊢
  refine family.change framed owned (fun q other alive' r member' => ?_) heap_modify own
  have apart : r ≠ it := fun hit => other (family.owned.disjoint alive' alive member' (hit ▸ member))
  rw [get_modify_other apart]

theorem insert (alive : s.live p = true)
    (shape : lists p = pre ++ it :: post) (unused : (s.table.slot i).used = false) {v : Vma} (used : v.used = true)
    (behind : v.next = (s.table.get it).next) (own : kin p = true → ∀ t' : VmaTable, t'.heap = s.table.heap →
      (∀ r ∈ pre ++ it :: post, (t'.get r).region = (s.table.get r).region) → P t' p (pre ++ it :: .slot i :: post)) :
    ∃ lists', Lineage P ⟨(s.table.modify (fun _ => v) (.slot i)).setNext it (some i), s.live⟩ kin lists' := by
  have kept : ∀ q, s.live q = true → ∀ r ∈ lists q,
      (((s.table.modify (fun _ => v) (.slot i)).setNext it (some i)).get r).region = (s.table.get r).region := by
    intro q alive' r member
    have other : r ≠ .slot i := fun hit => family.owned.unused_not_mem alive' unused (hit ▸ member)
    rw [region_setNext, get_modify_other other]
  have heap : ((s.table.modify (fun _ => v) (.slot i)).setNext it (some i)).heap = s.table.heap := by
    rw [setNext, heap_modify, heap_modify]
  have owned := family.owned.insert alive shape unused used behind
  exact ⟨_, family.change framed owned (fun q _ => kept q) heap fun member =>
    own member _ heap (shape ▸ kept p alive)⟩

theorem unlink (alive : s.live p = true) (shape : lists p = pre ++ prev :: .slot i :: post)
    (own : kin p = true → ∀ t' : VmaTable, t'.heap = s.table.heap →
      (∀ r ∈ pre ++ prev :: post, (t'.get r).region = (s.table.get r).region) → P t' p (pre ++ prev :: post)) :
    ∃ lists', Lineage P ⟨(s.table.setNext prev (s.table.slot i).next).modify (fun _ => .free) (.slot i), s.live⟩ kin
      lists' := by
  have gone : VmaRef.slot i ∈ lists p := by simp [shape]
  have kept : ∀ r, r ≠ .slot i → (((s.table.setNext prev (s.table.slot i).next).modify (fun _ => .free)
      (.slot i)).get r).region = (s.table.get r).region := by
    intro r other
    rw [get_modify_other other, region_setNext]
  have heap : ((s.table.setNext prev (s.table.slot i).next).modify (fun _ => .free) (.slot i)).heap =
      s.table.heap := by
    rw [heap_modify, setNext, heap_modify]
  refine ⟨_, family.change framed (family.owned.unlink alive shape) (fun q other alive' r member => kept r ?_) heap
    fun member => own member _ heap fun r member' => kept r ?_⟩
  · rintro rfl
    exact other (family.owned.disjoint alive' alive member gone)
  · -- the list has every element once
    rintro rfl
    have once := (family.owned.linked p alive).nodup
    have split : lists p = (pre ++ [prev]) ++ .slot i :: post := by simp [shape]
    rw [split, List.nodup_middle] at once
    exact (List.nodup_cons.mp once).1 (by simpa using member')

theorem fork (effect : Effect s lists p (.fork memory copies) s')
    (own : kin p = true → ∀ np done, s.allocproc = some np → s'.live np = true →
      Cloned s.live lists p np s.table s'.table done → s'.table.heap p = s.table.heap p → P s'.table np done) :
    ∃ lists', Lineage P s' (s.descend s' kin p) lists' := by
  -- without a child the family is what it was
  have failed : ∀ t', Owned t' s.live lists → Kept s.live lists s.table t' →
      (∀ q, s.live q = true → t'.heap q = s.table.heap q) →
      ∃ lists', Lineage P ⟨t', s.live⟩ (s.descend ⟨t', s.live⟩ kin p) lists' := by
    intro t' owned kept heap
    refine ⟨lists, owned, fun q member => ?_⟩
    have same : (⟨t', s.live⟩ : Space).live q = s.live q := rfl
    rw [descend_eq same] at member
    obtain ⟨alive, holds⟩ := family.holds q member
    exact ⟨alive, framed _ _ _ _ holds (fun r here => congrArg Vma.region (kept q alive r here)) (heap q alive)⟩
  cases effect with
  | refused => exact failed s.table family.owned (fun _ _ _ _ => rfl) fun _ _ => rfl
  | unforked owned kept heap => exact failed _ owned kept heap
  | @forked _ _ t' np done found cloned heap =>
    have dead := allocproc_dead found
    refine ⟨_, cloned.owned, fun q member => ?_⟩
    by_cases child : q = np
    · subst child
      have stranger : kin q ≠ true := by
        intro old
        rw [(family.holds q old).1] at dead
        contradiction
      have parent : kin p = true := by
        simp only [Space.descend, stranger, Bool.false_or, Bool.and_eq_true] at member
        exact member.1.1
      refine ⟨update_self .., ?_⟩
      rw [update_self]
      exact own parent q done found (update_self ..) cloned (heap p (family.holds p parent).1)
    · have same : (⟨t', update s.live np true⟩ : Space).live q = s.live q := update_of_ne child ..
      rw [descend_eq same] at member
      obtain ⟨alive, holds⟩ := family.holds q member
      refine ⟨same.trans alive, ?_⟩
      rw [update_of_ne child]
      exact framed _ _ _ _ holds (fun r here => congrArg Vma.region (cloned.kept q alive r here)) (heap q alive)

end

end Lineage

end Lineage

end DeisoXv6
