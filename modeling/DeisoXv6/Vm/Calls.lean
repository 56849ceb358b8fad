import DeisoXv6.Vm.Mmap
import DeisoXv6.Vm.Munmap

/-! The VMA lists over sequences of calls. -/

set_option autoImplicit false

namespace DeisoXv6

open Function LinkedList VmaTable

section Lists

variable {t : VmaTable} {live : ProcId → Bool} {lists : ProcId → List VmaRef} {p q : ProcId}
  {r it next prev : VmaRef} {pre post rs : List VmaRef} {i : VmaId} {f : Vma → Vma} {s : Space}

theorem shrunk (listed : Listed s lists p) (used : (f (s.table.get r)).used = (s.table.get r).used)
    (next : (f (s.table.get r)).next = (s.table.get r).next)
    (start : (f (s.table.get r)).start = (s.table.get r).start)
    (shorter : (f (s.table.get r)).length ≤ (s.table.get r).length) :
    Space.WellFormed ⟨s.table.modify f r, s.live⟩ := by
  by_cases owner : ∃ q, s.live q = true ∧ r ∈ lists q
  · obtain ⟨q, alive, member⟩ := owner
    obtain ⟨pre, post, shape⟩ := List.append_of_mem member
    have listed' : Listed s lists q := ⟨listed.owned, alive, listed.wf⟩
    have wf := listed.wf q alive
    rw [shape, regions_append, regions_cons] at wf
    have placed : (s.table.get r).region.Placed := wf.placed _ (by simp)
    have inside : (s.table.get r).start + (s.table.get r).length < 2 ^ 64 := placed.inside
    have itself := wf.replace_iff.mp wf
    refine (modified_iff listed' shape used next).mpr ⟨fun _ => start, ⟨?_, ?_⟩, fun a last => ?_, ?_⟩
    · change (f (s.table.get r)).start % PGSIZE = 0
      rw [start]
      exact placed.aligned
    · change (f (s.table.get r)).start + (f (s.table.get r)).length < 2 ^ 64
      omega
    · refine le_trans ?_ (listed'.above shape a last)
      exact pageUp_mono (Nat.add_le_add start.le shorter)
    · intro b first
      have under : Below (s.table.get r).region (s.table.get b).region :=
        itself.2.2.2 _ (by simp [VmaTable.regions, Option.mem_def.mp first])
      exact under.trans start.ge
  · refine ⟨lists, listed.owned.modify used next, fun q alive => ?_⟩
    have outside : r ∉ lists q := fun member => owner ⟨q, alive, member⟩
    change DeisoXv6.WellFormed ((s.table.modify f r).regions (lists q))
    rw [region_modify_other outside]
    exact listed.wf q alive

theorem before_some (found : VmaTable.before r rs = some prev) : ∃ pre post, rs = pre ++ prev :: r :: post := by
  induction rs with
  | nil => contradiction
  | cons first rest ih =>
    cases rest with
    | nil => contradiction
    | cons second rest =>
      rw [VmaTable.before] at found
      split at found
      · rename_i same
        cases found
        exact ⟨[], rest, by rw [same]; rfl⟩
      · obtain ⟨pre, post, shape⟩ := ih found
        exact ⟨first :: pre, post, by rw [shape]; rfl⟩

theorem before_none (missing : VmaTable.before r rs = none) : r ∉ rs.tail := by
  induction rs with
  | nil => simp
  | cons first rest ih =>
    cases rest with
    | nil => simp
    | cons second rest =>
      rw [VmaTable.before] at missing
      split at missing
      · contradiction
      · rename_i other
        have later := ih missing
        simp only [List.tail_cons, List.mem_cons, not_or] at later ⊢
        exact ⟨fun same => other same.symm, later⟩

theorem grown (listed : Listed s lists p) {n : Int} (positive : 0 < n) (small : n < 2 ^ 31)
    (shape : lists p = pre ++ prev :: r :: post)
    (room : u64 ((s.table.get r).stop + sext n) ≤ (s.table.get prev).start) :
    Space.WellFormed ⟨s.table.modify (resize n) r, s.live⟩ := by
  have wf := listed.wf p listed.alive
  rw [shape, regions_append] at wf
  have placed : (s.table.get r).region.Placed := wf.placed _ (by simp)
  have above : (s.table.get prev).region.Placed := wf.placed _ (by simp)
  have inside : (s.table.get r).start + (s.table.get r).length < 2 ^ 64 := placed.inside
  have bounded : (s.table.get prev).start ≤ RESERVED := wf.start_le (s.table.get prev).region (by simp)
  have below : pageUp ((s.table.get r).start + (s.table.get r).length) ≤ (s.table.get prev).start :=
    wf.last_below
  have ends := (le_pageUp _).trans below
  have amount : sext n = n.toNat := by
    unfold sext
    omega
  rw [Vma.stop_eq placed, amount] at room
  unfold RESERVED MAXVA at bounded
  have fits : (s.table.get r).start + (s.table.get r).length + n.toNat ≤ (s.table.get prev).start := by
    unfold u64 at room
    omega
  have length : (resize n (s.table.get r)).length = (s.table.get r).length + n.toNat := by
    change u64 ((s.table.get r).length + sext n) = _
    rw [amount]
    exact Nat.mod_eq_of_lt (by omega)
  have split : lists p = (pre ++ [prev]) ++ r :: post := by simp [shape]
  refine (modified_iff listed split rfl rfl).mpr ⟨by simp, ⟨placed.aligned, ?_⟩, fun a last => ?_, ?_⟩
  · change (s.table.get r).start + (resize n (s.table.get r)).length < 2 ^ 64
    omega
  · obtain rfl : prev = a := by simpa using last
    refine pageUp_le above.aligned ?_
    change (s.table.get r).start + (resize n (s.table.get r)).length ≤ (s.table.get prev).start
    omega
  · intro b first
    have behind : DeisoXv6.WellFormed (s.table.regions (pre ++ [prev]) ++
        (s.table.get r).region :: s.table.regions post) := by
      have old := listed.wf p listed.alive
      rwa [split, regions_append, regions_cons] at old
    exact (behind.replace_iff.mp behind).2.2.2 _ (by simp [VmaTable.regions, Option.mem_def.mp first])

theorem resize_le {n : Int} {v : Vma} (small : -2 ^ 31 ≤ n) (negative : n < 0)
    (enough : sext (int (-n)) ≤ v.length) : (resize n v).length ≤ v.length := by
  have amount : (-n).toNat ≤ sext (int (-n)) := by
    unfold sext int
    rcases small.eq_or_lt with rfl | above
    · decide
    · rw [Int.bmod_eq_of_le (by omega) (by omega)]
      omega
  change u64 (v.length + sext n) ≤ v.length
  unfold u64 sext
  omega

theorem sbrk_iff (listed : Listed s lists p) (n : BitVec 32) :
    Space.ReturnsWellFormed (s.step p (.sbrk n)) ↔ s.Keeps p (.sbrk n) := by
  have low := n.le_toInt
  have high := n.toInt_lt
  have same := listed.space
  simp only [Space.step, VmaTable.sbrk, Space.Keeps, listed.refs, Except.ok.injEq]
  generalize n.toInt = n at *
  cases heap : s.table.heap p with
  | none => simp [Space.after]
  | some h =>
    have keeps : (∃ i, some h = some i ∧ (0 < n → ∀ refs, lists p = refs → .slot i ∈ refs)) ↔
        (0 < n → .slot h ∈ lists p) := by
      simp
    rw [keeps]
    simp only
    split
    · rename_i negative
      refine ⟨fun _ positive => absurd positive (by omega), fun _ => ?_⟩
      split
      · exact (Space.returnsWellFormed_ok _).mpr same
      · rename_i enough
        refine (Space.returnsWellFormed_ok _).mpr (shrunk listed rfl rfl rfl ?_)
        exact resize_le low negative (Nat.le_of_not_lt enough)
    · rename_i positive
      split
      · rename_i zero
        subst zero
        refine ⟨fun _ positive => absurd positive (by omega), fun _ => ?_⟩
        refine (Space.returnsWellFormed_ok _).mpr (shrunk listed rfl rfl rfl ?_)
        exact Nat.mod_le _ _
      · rename_i nonzero
        have positive : 0 < n := by omega
        cases found : VmaTable.before (.slot h) (lists p) with
        | none =>
          refine ⟨fun returns => absurd returns (by simp [Space.after]), fun keeps => ?_⟩
          obtain ⟨ids, shape⟩ := linked_shape (listed.owned.linked p listed.alive)
          have missing := before_none found
          have member := keeps positive
          rw [shape] at missing member
          exact absurd (by simpa using member) missing
        | some prev =>
          obtain ⟨pre, post, shape⟩ := before_some found
          refine ⟨fun _ _ => by simp [shape], fun _ => ?_⟩
          simp only
          split
          · exact (Space.returnsWellFormed_ok _).mpr same
          · rename_i room
            refine (Space.returnsWellFormed_ok _).mpr (grown listed positive high shape ?_)
            exact Nat.le_of_not_lt room

theorem allocproc_dead {np : ProcId} (found : s.allocproc = some np) : s.live np = false := by
  simpa [Space.allocproc] using List.find?_some found

theorem fork_returns (listed : Listed s lists p) (memory : Bool) (copies : VmaRef → Bool) :
    Space.ReturnsWellFormed (s.step p (.fork memory copies)) := by
  simp only [Space.step]
  cases found : s.allocproc with
  | none => exact (Space.returnsWellFormed_ok s).mpr listed.space
  | some np =>
    have dead := allocproc_dead found
    have head : ∀ q, s.live q = true → .start np ∉ lists q := by
      intro q alive member
      rw [listed.owned.start_mem alive member, alive] at dead
      contradiction
    cases memory with
    | false =>
      have owned : Owned (s.table.setNext (.start np) none) s.live lists :=
        listed.owned.modify_outside head fun i same => absurd same (by simp)
      refine (Space.returnsWellFormed_ok _).mpr ⟨lists, owned, fun q alive => ?_⟩
      rw [regions_congr fun r _ => region_setNext none]
      exact listed.wf q alive
    | true =>
      obtain ⟨ok, t', result, forked⟩ := fork_spec copies listed.owned dead listed.alive
      have old : ∀ q, s.live q = true → DeisoXv6.WellFormed (t'.regions (lists q)) := by
        intro q alive
        rw [regions_congr fun r member => congrArg Vma.region (forked.kept q alive r member)]
        exact listed.wf q alive
      simp only [Bool.true_eq_false, if_false, result]
      cases ok with
      | false => exact (Space.returnsWellFormed_ok _).mpr ⟨lists, forked.failed rfl, old⟩
      | true =>
        obtain ⟨done, cloned⟩ := forked.succeeded rfl
        refine (Space.returnsWellFormed_ok _).mpr ⟨_, cloned.owned, fun q alive => ?_⟩
        change DeisoXv6.WellFormed (t'.regions _)
        by_cases child : q = np
        · rw [child, update_self, cloned.copy.regions]
          exact listed.wf p listed.alive
        · change update s.live np true q = true at alive
          rw [update_of_ne child] at alive ⊢
          exact old q alive

/-- A call of a live process keeps the lists well formed exactly when its condition holds. -/
theorem step_iff (listed : Listed s lists p) (call : Call) :
    Space.ReturnsWellFormed (s.step p call) ↔ s.Keeps p call := by
  cases call with
  | mmap call => exact mmap_iff listed call
  | munmap addr length => exact munmap_iff listed addr length
  | sbrk n => exact sbrk_iff listed n
  | fork memory copies => exact iff_of_true (fork_returns listed memory copies) trivial

end Lists

namespace Space

def run : Space → List (ProcId × Call) → Except Fault Space
  | s, [] => .ok s
  | s, (p, call) :: rest => match s.step p call with
    | .error fault => .error fault
    | .ok s' => run s' rest

/-- Every call of the sequence is made by a live process and meets its condition. -/
def AllKeep : Space → List (ProcId × Call) → Prop
  | _, [] => True
  | s, (p, call) :: rest => s.live p = true ∧ s.Keeps p call ∧
    ∀ s', s.step p call = .ok s' → AllKeep s' rest

theorem after_live {s s' : Space} {r : Except Fault (Option Nat × VmaTable)}
    (result : s.after r = .ok s') : s'.live = s.live := by
  cases r with
  | error => contradiction
  | ok =>
    cases result
    rfl

theorem run_wellFormed {s : Space} (calls : List (ProcId × Call)) (wf : s.WellFormed)
    (keep : s.AllKeep calls) : ReturnsWellFormed (s.run calls) := by
  induction calls generalizing s with
  | nil => exact (returnsWellFormed_ok s).mpr wf
  | cons first rest ih =>
    obtain ⟨p, call⟩ := first
    obtain ⟨alive, condition, later⟩ := keep
    obtain ⟨lists, owned, lie⟩ := wf
    obtain ⟨s', result, wf'⟩ := (step_iff ⟨owned, alive, lie⟩ call).mpr condition
    rw [run, result]
    exact ih wf' (later s' result)

/-- The VMAs after userinit: the reserved one and the page of initcode. -/
def userinit : Space where
  table := {
    slot := update (fun _ => .free) 0
      ⟨true, 0, PGSIZE, PGSIZE, none, 0, PROT_EXEC ||| PROT_WRITE ||| PROT_READ, MAP_PRIVATE, none⟩
    start := update (fun _ => .free) 0
      ⟨false, MAXVA - 2 * PGSIZE, 2 * PGSIZE, 0, none, 0, 0, 0, some 0⟩
    heap := fun _ => none }
  live := update (fun _ => false) 0 true

theorem userinit_live {p : ProcId} : userinit.live p = true ↔ p = 0 := by
  by_cases first : p = 0
  · subst first
    exact iff_of_true rfl rfl
  · have dead : userinit.live p = false := by simp [userinit, first]
    simp [dead, first]

theorem userinit_wellFormed : userinit.WellFormed := by
  refine ⟨fun _ => [.start 0, .slot 0], ⟨?_, ?_, ?_, ?_⟩, ?_⟩
  · intro p alive
    rw [userinit_live.mp alive]
    exact ⟨rfl, rfl, rfl⟩
  · intro p i _ member
    obtain rfl : i = 0 := by simpa using member
    rfl
  · intro p q i alive alive' _ _
    rw [userinit_live.mp alive, userinit_live.mp alive']
  · intro i unused
    by_cases first : i = 0
    · subst first
      contradiction
    · have free : userinit.table.slot i = .free := by simp [userinit, first]
      rw [free]
      rfl
  · intro p _
    change DeisoXv6.WellFormed [⟨MAXVA - 2 * PGSIZE, 2 * PGSIZE⟩, ⟨0, PGSIZE⟩]
    refine ⟨rfl, fun r member => ?_, List.isChain_pair.mpr ?_⟩
    · rcases List.mem_pair.mp member with rfl | rfl
      · exact ⟨by decide, by decide⟩
      · exact ⟨by decide, by decide⟩
    · change pageUp (0 + PGSIZE) ≤ MAXVA - 2 * PGSIZE
      decide

def mmapCall (length : UInt64) : Call :=
  .mmap ⟨0, true, true, length, PROT_READ ||| PROT_WRITE, MAP_SHARED, 0⟩

theorem userinit_vmaAlloc : userinit.table.vmaAlloc ≠ none := by
  unfold VmaTable.vmaAlloc
  rw [ne_eq, List.find?_eq_none, not_forall]
  refine ⟨⟨1, by decide⟩, ?_⟩
  simp [userinit, Vma.free]

end Space

end DeisoXv6
