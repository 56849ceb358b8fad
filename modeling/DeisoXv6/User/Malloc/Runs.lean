import DeisoXv6.Semantics.Trace
import DeisoXv6.User.Malloc.Blocks

/-! What the allocator guarantees over whole runs of a program that calls malloc and free. -/

set_option autoImplicit false

namespace DeisoXv6.Malloc

open Finset Function Cycle

variable {s s' : State} {free used : Finset Nat} {n p q : Nat}

theorem sbrk_refines {t : VmaTable} {pid : ProcId} {h : VmaId} {refs : List VmaRef} {prev : VmaRef}
    (heap : t.heap pid = some h) (list : t.refs pid = .ok refs) (found : VmaTable.before (.slot h) refs = some prev)
    (n : Int) : ∃ t', t.sbrk pid n = .ok ((Heap.sbrk ⟨(t.slot h).start, (t.slot h).length, (t.get prev).start⟩ n).1, t') ∧
      (t'.slot h).start = (t.slot h).start ∧
      (t'.slot h).length = (Heap.sbrk ⟨(t.slot h).start, (t.slot h).length, (t.get prev).start⟩ n).2.length := by
  have resized : ((t.modify (VmaTable.resize n) (.slot h)).slot h) = VmaTable.resize n (t.slot h) := by
    simp [VmaTable.modify]
  have brk : Heap.brk ⟨(t.slot h).start, (t.slot h).length, (t.get prev).start⟩ = (t.slot h).stop := rfl
  simp only [VmaTable.sbrk, Heap.sbrk, heap, list, found, brk]
  rcases Int.lt_trichotomy n 0 with negative | rfl | positive
  · have notPositive : ¬ 0 < n := by omega
    simp only [negative, notPositive, true_and, false_and, if_true, if_false]
    split_ifs with short
    · exact ⟨t, rfl, rfl, rfl⟩
    · exact ⟨_, rfl, by rw [resized]; rfl, by rw [resized]; rfl⟩
  · simp only [Int.lt_irrefl, false_and, if_false, if_true]
    exact ⟨_, rfl, by rw [resized]; rfl, by rw [resized]; rfl⟩
  · have notNegative : ¬ n < 0 := by omega
    have nonzero : n ≠ 0 := by omega
    simp only [positive, notNegative, nonzero, true_and, false_and, if_false]
    split_ifs with full
    · exact ⟨t, rfl, rfl, rfl⟩
    · exact ⟨_, rfl, by rw [resized]; rfl, by rw [resized]; rfl⟩

theorem sbrk_grow {h : Heap} {base first : Nat} (bounds : h.Bounds base first) (positive : 0 < n)
    (small : UNIT * n < 2 ^ 31) :
    h.sbrk (int (n * UNIT : Nat)) = if h.start + h.length + UNIT * n > h.limit then (none, h)
      else (some (h.start + h.length), { h with length := h.length + UNIT * n }) := by
  have fits := bounds.fits
  have limit := bounds.limit
  unfold MAXVA at limit
  have amount : int (n * UNIT : Nat) = (UNIT * n : Nat) := by
    rw [Nat.mul_comm]
    exact Int.bmod_eq_of_le (by omega) (by omega)
  have wide : sext (UNIT * n : Nat) = UNIT * n := by
    unfold sext
    omega
  have brk : h.brk = h.start + h.length := Nat.mod_eq_of_lt (by omega)
  have more : u64 (h.start + h.length + UNIT * n) = h.start + h.length + UNIT * n := Nat.mod_eq_of_lt (by omega)
  have length : u64 (h.length + UNIT * n) = h.length + UNIT * n := Nat.mod_eq_of_lt (by omega)
  have notNegative : ¬ ((UNIT * n : Nat) : Int) < 0 := by omega
  have positive' : 0 < ((UNIT * n : Nat) : Int) := by
    unfold UNIT
    omega
  simp only [Heap.sbrk, amount, wide, brk, more, length, notNegative, positive', false_and, true_and, if_false]

namespace Owned

theorem extend_owned (owned : Owned s free used) (positive : 0 < n) (small : UNIT * n < 2 ^ 31) :
    ∃ result s' free', s.extend n (s.heap.sbrk (int (n * UNIT : Nat))) = some (result, s') ∧ Owned s' free' used ∧ Same s s' ∧
      (∀ a ∈ used, s'.mem a = s.mem a) ∧
      (result = none ∨ result = some s'.freep ∧ s.heap.length + UNIT ≤ s'.heap.length) := by
  rw [sbrk_grow owned.bounds positive small]
  split_ifs with full
  · exact ⟨none, s, free, rfl, owned, Same.refl s, fun _ _ => rfl, .inl rfl⟩
  · obtain ⟨fresh, grown⟩ := owned.grow positive (Nat.le_of_not_lt full)
    obtain ⟨s', free', freed, owned', same, heap, frame⟩ := grown.free_owned (mem_insert_self _ _)
    have off : s.heap.start + s.heap.length ∉ used := fun mem => fresh (mem_union_right _ mem)
    rw [erase_insert off] at owned' frame
    refine ⟨some s'.freep, s', free', ?_, owned', ?_, ?_, .inr ⟨rfl, ?_⟩⟩
    · simp only [State.extend, freed, Option.map_some]
    · exact ⟨same.base, same.first, same.live, same.start, same.limit, (Nat.le_add_right _ _).trans same.length⟩
    · intro a mem
      have other : a ≠ s.heap.start + s.heap.length := fun same => off (same ▸ mem)
      exact (frame a mem).trans (update_of_ne other _ _)
    · rw [heap]
      exact Nat.add_le_add_left (Nat.le_mul_of_pos_right _ positive) _

end Owned

/-- What malloc may return: nothing, or a block of `n` units that was not in use. -/
def Outcome (n : Nat) (used : Finset Nat) (s : State) : Option Nat → Prop
  | none => ∃ free, Owned s free used
  | some q => ∃ free h, q = h + UNIT ∧ h ∉ used ∧ (s.mem h).size = n ∧ Owned s free (insert h used)

namespace Owned

theorem take_owned (owned : Owned s free used) (node : q ∈ free) (next : (s.mem q).ptr = p) (positive : 0 < n)
    (large : (s.mem p).size ≥ n) : Outcome n used (s.take n q p).2 (some (s.take n q p).1) ∧
      Same s (s.take n q p).2 ∧ ∀ a ∈ used, (s.take n q p).2.mem a = s.mem a := by
  have node' : p ∈ free := next ▸ owned.cyclic.closed q node
  have off : ∀ a ∈ used, ∀ b ∈ free, a ≠ b := fun a mem b mem' same => owned.off_list mem (same ▸ mem')
  by_cases exact' : (s.mem p).size = n
  · have result : s.take n q p = (p + UNIT, skipped s q p) := if_pos exact'
    have other : p ≠ q := by
      rintro rfl
      exact owned.next_ne node (owned.not_base (exact' ▸ positive)) next
    rw [result]
    refine ⟨⟨_, p, rfl, ?_, ?_, owned.take_all node next (exact' ▸ positive)⟩, ?_, ?_⟩
    · exact fun mem => off p mem p node' rfl
    · simp [skipped, other, exact']
    · exact ⟨rfl, rfl, rfl, rfl, rfl, le_rfl⟩
    · intro a mem
      simp [skipped, off a mem q node]
  · have less : n < (s.mem p).size := Nat.lt_of_le_of_ne large (Ne.symm exact')
    have above := tail_above less
    have result : s.take n q p = (tail s n p + UNIT, cut s n q p) := by
      simp only [State.take, exact', if_false, update_self]
      rw [show p + UNIT * ((s.mem p).size - n) = tail s n p from rfl, update_of_ne above.ne']
      rfl
    have fresh := owned.tail_fresh node' positive less
    rw [result]
    refine ⟨⟨_, tail s n p, rfl, ?_, ?_, owned.take_tail node node' positive less⟩, ?_, ?_⟩
    · exact fun mem => fresh (mem_union_right _ mem)
    · simp [cut]
    · exact ⟨rfl, rfl, rfl, rfl, rfl, le_rfl⟩
    · intro a mem
      exact cut_mem (off a mem p node') fun same => fresh (same ▸ mem_union_right _ mem)

variable {k fuel : Nat}

theorem next_round {k' : Nat} (owned' : Owned s' free used) (start : s'.heap.start = s.heap.start)
    (limit : s'.heap.limit = s.heap.limit) (longer : s.heap.length + UNIT ≤ s'.heap.length) (few : k' ≤ free.card)
    (enough : k + 1 + (s.heap.limit - (s.heap.start + s.heap.length)) / UNIT * (s.heap.limit / UNIT + 2) ≤ fuel + 1) :
    k' + 1 + (s'.heap.limit - (s'.heap.start + s'.heap.length)) / UNIT * (s'.heap.limit / UNIT + 2) ≤ fuel := by
  have nodes := owned'.card_free_le
  have fits := owned'.bounds.fits
  rw [limit, start] at *
  have less : (s.heap.limit - (s.heap.start + s'.heap.length)) / UNIT + 1 ≤
      (s.heap.limit - (s.heap.start + s.heap.length)) / UNIT := by
    unfold UNIT at *
    omega
  have short : s'.heap.length / UNIT ≤ s.heap.limit / UNIT := Nat.div_le_div_right (by omega)
  have paid := Nat.mul_le_mul_right (s.heap.limit / UNIT + 2) less
  rw [Nat.succ_mul] at paid
  omega

/-- The induction is on the turns: a turn goes on along the list, or a larger heap starts a new round. -/
theorem find_owned (owned : Owned s free used) (node : q ∈ free) (next : (s.mem q).ptr = p)
    (positive : 0 < n) (small : UNIT * max n 4096 < 2 ^ 31) (round : (fun a => (s.mem a).ptr)^[k] p = s.freep)
    (enough : k + 1 + (s.heap.limit - (s.heap.start + s.heap.length)) / UNIT * (s.heap.limit / UNIT + 2) ≤ fuel) :
    ∃ result s', State.find n fuel s q p = some (result, s') ∧ Outcome n used s' result ∧ Same s s' ∧
      ∀ a ∈ used, s'.mem a = s.mem a := by
  induction fuel generalizing s free q p k with
  | zero => omega
  | succ fuel ih =>
    have node' : p ∈ free := next ▸ owned.cyclic.closed q node
    by_cases large : (s.mem p).size ≥ n
    · obtain ⟨outcome, same, frame⟩ := owned.take_owned node next positive large
      refine ⟨_, _, ?_, outcome, same, frame⟩
      rw [State.find, if_pos large]
    · by_cases last : p = s.freep
      · obtain ⟨result, s', free', called, owned', same, frame, grew⟩ :=
          owned.extend_owned (positive.trans_le (Nat.le_max_left n 4096)) small
        have more : s.morecore n = some (result, s') := called
        rcases grew with rfl | ⟨rfl, longer⟩
        · refine ⟨none, s', ?_, ⟨free', owned'⟩, same, frame⟩
          rw [State.find, if_neg large, if_pos last, more]
          rfl
        · obtain ⟨k', few, round'⟩ := owned'.cyclic.reach (owned'.cyclic.closed _ owned'.freep) owned'.freep
          have budget := owned'.next_round same.start same.limit longer few enough
          obtain ⟨result, s'', found, outcome, same', frame'⟩ := ih owned' owned'.freep rfl round' budget
          refine ⟨result, s'', ?_, outcome, same.trans same', fun a mem => (frame' a mem).trans (frame a mem)⟩
          rw [State.find, if_neg large, if_pos last, more]
          exact found
      · cases k with
        | zero => exact absurd round last
        | succ k =>
          obtain ⟨result, s', found, rest⟩ := ih owned node' rfl round (by omega)
          refine ⟨result, s', ?_, rest⟩
          rw [State.find, if_neg large, if_neg last]
          exact found

theorem freep_ne (owned : Owned s free used) : s.freep ≠ 0 := by
  have bounds := owned.bounds
  have null := bounds.null
  have low := bounds.low
  rcases owned.above _ (mem_union_left _ owned.freep) with same | above <;> omega

end Owned

variable {nbytes : BitVec 32} {a : Nat} {free' : Finset Nat} {b : Block}

theorem units_small (modest : nbytes.toNat ≤ 2 ^ 31 - 32) :
    0 < units nbytes.toNat ∧ UNIT * max (units nbytes.toNat) 4096 < 2 ^ 31 ∧
      nbytes.toNat + UNIT ≤ UNIT * units nbytes.toNat := by
  unfold units u32 UNIT
  omega

theorem Owned.malloc_owned (owned : Owned s free used) (modest : nbytes.toNat ≤ 2 ^ 31 - 32) :
    ∃ result s', s.malloc nbytes = some (result, s') ∧ Outcome (units nbytes.toNat) used s' result ∧ Same s s' ∧
      ∀ a ∈ used, s'.mem a = s.mem a := by
  have ready : s.ready = s := if_neg owned.freep_ne
  obtain ⟨positive, small, -⟩ := units_small modest
  obtain ⟨k, few, round⟩ := owned.cyclic.reach (owned.cyclic.closed _ owned.freep) owned.freep
  have budget : k + 1 + (s.heap.limit - (s.heap.start + s.heap.length)) / UNIT * (s.heap.limit / UNIT + 2) ≤ s.rounds := by
    have nodes := owned.card_free_le
    have fits := owned.bounds.fits
    have short : s.heap.length / UNIT ≤ s.heap.limit / UNIT := Nat.div_le_div_right (by omega)
    have less : (s.heap.limit - (s.heap.start + s.heap.length)) / UNIT ≤ s.heap.limit / UNIT :=
      Nat.div_le_div_right (Nat.sub_le _ _)
    have paid := Nat.mul_le_mul_right (s.heap.limit / UNIT + 2) less
    rw [State.rounds, Nat.succ_mul]
    omega
  rw [State.malloc, ready]
  exact owned.find_owned owned.freep rfl positive small round budget

def headers (live : List Block) : Finset Nat := (live.map Block.header).toFinset

/-- The blocks in use are those of the program, each as large as it asked for. -/
structure Held (s : State) (free : Finset Nat) : Prop where
  owned : Owned s free (headers s.live)
  size : ∀ b ∈ s.live, (s.mem b.header).size = units b.nbytes
  room : ∀ b ∈ s.live, b.nbytes + UNIT ≤ UNIT * units b.nbytes
  pointer : ∀ b ∈ s.live, b.p = b.header + UNIT
  distinct : s.live.Pairwise fun b c => b.header ≠ c.header

def Sound (s : State) : Prop :=
  (s.freep = 0 ∧ s.live = [] ∧ s.heap.Bounds s.base s.first) ∨ ∃ free, Held s free

theorem mem_headers {live : List Block} : a ∈ headers live ↔ ∃ b ∈ live, b.header = a := by
  simp [headers]

theorem Same.held (same : Same s s') (held : Held s free) (owned : Owned s' free' (headers s.live))
    (frame : ∀ a ∈ headers s.live, s'.mem a = s.mem a) : Held s' free' := by
  have live := same.live
  constructor
  · rw [live]
    exact owned
  · rw [live]
    intro b mem
    rw [frame _ (mem_headers.mpr ⟨b, mem, rfl⟩)]
    exact held.size b mem
  · rw [live]
    exact held.room
  · rw [live]
    exact held.pointer
  · rw [live]
    exact held.distinct

theorem Held.cons {h nbytes : Nat} (held : Held s free) (same : Same s s')
    (owned : Owned s' free' (insert h (headers s.live))) (fresh : h ∉ headers s.live)
    (frame : ∀ a ∈ headers s.live, s'.mem a = s.mem a) (size : (s'.mem h).size = units nbytes)
    (room : nbytes + UNIT ≤ UNIT * units nbytes) : Held { s' with live := ⟨h + UNIT, nbytes⟩ :: s'.live } free' := by
  have live := same.live
  have header : Block.header ⟨h + UNIT, nbytes⟩ = h := Nat.add_sub_cancel _ _
  have all : headers (⟨h + UNIT, nbytes⟩ :: s'.live) = insert h (headers s.live) := by
    rw [live, headers, List.map_cons, header, List.toFinset_cons]
    rfl
  constructor
  · change Owned _ _ (headers (⟨h + UNIT, nbytes⟩ :: s'.live))
    rw [all]
    exact ⟨owned.cyclic, owned.tiles, owned.apart, owned.base, owned.empty, owned.freep, owned.above, owned.bounds⟩
  · refine List.forall_mem_cons.mpr ⟨?_, ?_⟩
    · rw [header]
      exact size
    · intro b mem
      rw [live] at mem
      exact (congrArg Header.size (frame _ (mem_headers.mpr ⟨b, mem, rfl⟩))).trans (held.size b mem)
  · exact List.forall_mem_cons.mpr ⟨room, live ▸ held.room⟩
  · exact List.forall_mem_cons.mpr ⟨by rw [header], live ▸ held.pointer⟩
  · refine List.pairwise_cons.mpr ⟨?_, live ▸ held.distinct⟩
    intro b mem hit
    rw [live] at mem
    rw [header] at hit
    exact fresh (mem_headers.mpr ⟨b, mem, hit.symm⟩)

theorem ready_held (null : s.freep = 0) (none : s.live = []) (bounds : s.heap.Bounds s.base s.first) :
    Held s.ready {s.base} ∧ Same s s.ready := by
  have ready : s.ready = { s with mem := update s.mem s.base ⟨s.base, 0⟩, freep := s.base } := if_pos null
  rw [ready]
  have low := bounds.low
  have reach := bounds.reach
  refine ⟨⟨?_, ?_, ?_, ?_, ?_⟩, ⟨rfl, rfl, rfl, rfl, rfl, le_rfl⟩⟩
  · have empty : headers s.live = ∅ := by rw [none]; rfl
    change Owned _ _ (headers s.live)
    rw [empty]
    constructor
    · exact Cyclic.singleton (by simp)
    · intro a mem
      simp only [union_empty, mem_singleton] at mem
      subst mem
      refine ⟨?_, ?_⟩
      · simp only [update_self]
        change s.base + 16 ≤ s.heap.start + s.heap.length
        exact low.trans reach
      · intro b mem
        simp only [union_empty, mem_singleton] at mem
        subst mem
        exact fun less => absurd less (lt_irrefl _)
    · exact disjoint_empty_right _
    · exact mem_singleton_self _
    · simp
    · exact mem_singleton_self _
    · intro a mem
      simp only [union_empty, mem_singleton] at mem
      exact .inl mem
    · exact bounds
  · exact fun b mem => nomatch none ▸ mem
  · exact fun b mem => nomatch none ▸ mem
  · exact fun b mem => nomatch none ▸ mem
  · exact none ▸ List.Pairwise.nil

theorem Sound.ready (sound : Sound s) : ∃ free, Held s.ready free ∧ Same s s.ready := by
  rcases sound with ⟨null, none, bounds⟩ | ⟨free, held⟩
  · exact ⟨_, ready_held null none bounds⟩
  · have ready : s.ready = s := if_neg held.owned.freep_ne
    rw [ready]
    exact ⟨free, held, Same.refl s⟩

theorem malloc_ready (owned : Owned s.ready free used) (nbytes : BitVec 32) : s.ready.malloc nbytes = s.malloc nbytes := by
  have again : s.ready.ready = s.ready := if_neg owned.freep_ne
  have rounds : s.ready.rounds = s.rounds := by
    unfold State.ready
    split_ifs <;> rfl
  rw [State.malloc, again, rounds]
  rfl

theorem malloc_sound (sound : Sound s) (modest : nbytes.toNat ≤ 2 ^ 31 - 32) :
    ∃ s', s.step (.malloc nbytes) = some s' ∧ Sound s' ∧ s.heap.length ≤ s'.heap.length ∧ s'.heap.start = s.heap.start := by
  obtain ⟨free, held, same⟩ := sound.ready
  obtain ⟨result, s', called, outcome, same', frame⟩ := held.owned.malloc_owned modest
  rw [malloc_ready held.owned] at called
  have length := same.length.trans same'.length
  have start := same'.start.trans same.start
  simp only [State.step, called, Option.map_some]
  cases result with
  | none =>
    obtain ⟨free', owned⟩ := outcome
    exact ⟨s', rfl, .inr ⟨free', same'.held held owned frame⟩, length, start⟩
  | some q =>
    obtain ⟨free', h, rfl, fresh, size, owned⟩ := outcome
    exact ⟨_, rfl, .inr ⟨free', held.cons same' owned fresh frame size (units_small modest).2.2⟩, length, start⟩

theorem Held.headers_filter (held : Held s free) (mem : b ∈ s.live) :
    headers (s.live.filter (·.p ≠ b.p)) = (headers s.live).erase b.header := by
  have pointer := held.pointer b mem
  ext a
  simp only [mem_headers, List.mem_filter, mem_erase, decide_eq_true_eq]
  constructor
  · rintro ⟨c, ⟨member, other⟩, rfl⟩
    refine ⟨?_, c, member, rfl⟩
    intro same
    exact other (by rw [held.pointer c member, pointer, same])
  · rintro ⟨other, c, member, rfl⟩
    refine ⟨c, ⟨member, ?_⟩, rfl⟩
    intro same
    rw [held.pointer c member, pointer] at same
    exact other (Nat.add_right_cancel same)

theorem free_sound (sound : Sound s) (mem : b ∈ s.live) :
    ∃ s', s.step (.free b.p) = some s' ∧ Sound s' ∧ s'.heap = s.heap := by
  rcases sound with ⟨-, none, -⟩ | ⟨free, held⟩
  · exact nomatch none ▸ mem
  · have used : b.header ∈ headers s.live := mem_headers.mpr ⟨b, mem, rfl⟩
    obtain ⟨s', free', freed, owned, same, heap, frame⟩ := held.owned.free_owned used
    rw [← held.pointer b mem] at freed
    rw [← held.headers_filter mem] at owned frame
    have member : b.p ∈ s.live.map Block.p := List.mem_map_of_mem mem
    refine ⟨{ s' with live := s'.live.filter (·.p ≠ b.p) }, ?_, .inr ⟨free', ?_⟩, heap⟩
    · simp only [State.step, member, freed, if_true, Option.map_some]
    · have fewer : ∀ c ∈ s.live.filter (·.p ≠ b.p), c ∈ s.live := fun c member => (List.mem_filter.mp member).1
      rw [same.live]
      constructor
      · exact ⟨owned.cyclic, owned.tiles, owned.apart, owned.base, owned.empty, owned.freep, owned.above, owned.bounds⟩
      · intro c member
        refine (congrArg Header.size (frame _ (mem_headers.mpr ⟨c, member, rfl⟩))).trans ?_
        exact held.size c (fewer c member)
      · exact fun c member => held.room c (fewer c member)
      · exact fun c member => held.pointer c (fewer c member)
      · exact held.distinct.filter _

theorem Held.not_header (held : Held s free) (mem : b ∈ s.live) (above : b.p ≤ a)
    (below : a < b.p + b.nbytes) : a ∉ free ∪ headers s.live := by
  have used : b.header ∈ free ∪ headers s.live := mem_union_right _ (mem_headers.mpr ⟨b, mem, rfl⟩)
  have pointer := held.pointer b mem
  have room := held.room b mem
  have size := held.size b mem
  refine held.owned.tiles.not_mem used ?_ ?_
  · unfold UNIT at pointer
    omega
  · rw [size]
    unfold UNIT at *
    omega

theorem store_sound (sound : Sound s) {contents : Header} (step : s.step (.store a contents) = some s') :
    Sound s' ∧ s'.heap = s.heap := by
  simp only [State.step] at step
  split_ifs at step with own
  cases step
  obtain ⟨b, mem, above, below, -⟩ := own
  rcases sound with ⟨-, none, -⟩ | ⟨free, held⟩
  · exact nomatch none ▸ mem
  · have fresh := held.not_header mem above below
    refine ⟨.inr ⟨free, held.owned.store fresh contents, ?_, held.room, held.pointer, held.distinct⟩, rfl⟩
    intro c member
    have other : c.header ≠ a := by
      rintro rfl
      exact fresh (mem_union_right _ (mem_headers.mpr ⟨c, member, rfl⟩))
    exact (congrArg Header.size (update_of_ne other _ _)).trans (held.size c member)

def Apart (a n b m : Nat) : Prop := a + n ≤ b ∨ b + m ≤ a

def State.OnList (s : State) (a : Nat) : Prop := s.freep ≠ 0 ∧ ∃ k, (fun a => (s.mem a).ptr)^[k] s.freep = a

/-- Every live allocation lies in memory from sbrk, apart from the others, the free blocks and the headers. -/
structure Safe (s : State) : Prop where
  inside : ∀ b ∈ s.live, s.first ≤ b.p ∧ b.p + b.nbytes ≤ s.heap.brk
  apart : s.live.Pairwise fun b c => Apart b.p b.nbytes c.p c.nbytes
  free : ∀ b ∈ s.live, ∀ a, s.OnList a → Apart b.p b.nbytes a (UNIT * (s.mem a).size)
  headers : ∀ b ∈ s.live, (∀ c ∈ s.live, Apart b.p b.nbytes c.header UNIT) ∧ ∀ a, s.OnList a → Apart b.p b.nbytes a UNIT

theorem Held.apart (held : Held s free) (mem : b ∈ s.live) (block : a ∈ free ∪ headers s.live)
    (other : a ≠ b.header) : b.p + b.nbytes ≤ a ∨ a + UNIT * max 1 (s.mem a).size ≤ b.header := by
  have used : b.header ∈ free ∪ headers s.live := mem_union_right _ (mem_headers.mpr ⟨b, mem, rfl⟩)
  have pointer := held.pointer b mem
  have room := held.room b mem
  rcases Nat.lt_or_gt_of_ne other with below | above
  · exact .inr ((held.owned.tiles a block).2 _ used below)
  · have behind : b.header + UNIT * max 1 (s.mem b.header).size ≤ a := (held.owned.tiles _ used).2 a block above
    rw [held.size b mem] at behind
    left
    unfold UNIT at *
    omega

theorem State.OnList.mem (onList : s.OnList a) (owned : Owned s free used) : a ∈ free := by
  obtain ⟨-, k, rfl⟩ := onList
  exact owned.cyclic.iterate_mem owned.freep k

/-- The free list is one circle: every walk comes back to `freep`, the addresses go down once, no two blocks overlap. -/
structure State.Circle (s : State) : Prop where
  wrap : ∃! a, s.OnList a ∧ (s.mem a).ptr ≤ a
  back : ∀ a, s.OnList a → ∃ k, (fun a => (s.mem a).ptr)^[k] a = s.freep
  apart : ∀ a b, s.OnList a → s.OnList b → a ≠ b → Apart a (UNIT * (s.mem a).size) b (UNIT * (s.mem b).size)

theorem Owned.circle (owned : Owned s free used) : s.Circle := by
  have nodes : ∀ a, s.OnList a ↔ a ∈ free := by
    refine fun a => ⟨fun onList => onList.mem owned, fun mem => ⟨owned.freep_ne, ?_⟩⟩
    obtain ⟨k, -, hit⟩ := owned.cyclic.reach owned.freep mem
    exact ⟨k, hit⟩
  have behind : ∀ a b, a ∈ free → b ∈ free → a < b → a + UNIT * (s.mem a).size ≤ b := by
    intro a b mem mem' less
    have tiled : a + UNIT * max 1 (s.mem a).size ≤ b :=
      (owned.tiles a (mem_union_left _ mem)).2 b (mem_union_left _ mem') less
    unfold UNIT at *
    omega
  constructor <;> simp only [nodes]
  · exact owned.cyclic.existsUnique_wrap ⟨_, owned.freep⟩
  · intro a mem
    obtain ⟨k, -, hit⟩ := owned.cyclic.reach mem owned.freep
    exact ⟨k, hit⟩
  · intro a b mem mem' other
    exact (Nat.lt_or_gt_of_ne other).imp (behind a b mem mem') (behind b a mem' mem)

theorem Held.safe (held : Held s free) : Safe s := by
  have owned := held.owned
  have bounds := owned.bounds
  have brk : s.heap.brk = s.heap.start + s.heap.length := by
    have fits := bounds.fits
    have limit := bounds.limit
    unfold MAXVA at limit
    exact Nat.mod_eq_of_lt (by omega)
  have used : ∀ b ∈ s.live, b.header ∈ free ∪ headers s.live :=
    fun b mem => mem_union_right _ (mem_headers.mpr ⟨b, mem, rfl⟩)
  have away : ∀ b ∈ s.live, ∀ a, s.OnList a → a ≠ b.header := by
    rintro b mem a onList rfl
    exact owned.off_list (mem_headers.mpr ⟨b, mem, rfl⟩) (onList.mem owned)
  constructor
  · intro b mem
    have notBase : b.header ≠ s.base := fun same => owned.off_list (mem_headers.mpr ⟨b, mem, rfl⟩) (same ▸ owned.base)
    have low := owned.first_le (used b mem) notBase
    have high : b.header + UNIT * max 1 (s.mem b.header).size ≤ s.heap.start + s.heap.length :=
      (owned.tiles _ (used b mem)).1
    have pointer := held.pointer b mem
    have room := held.room b mem
    rw [held.size b mem] at high
    rw [brk]
    unfold UNIT at *
    omega
  · refine held.distinct.imp_of_mem ?_
    intro b c mem mem' other
    have pointer := held.pointer c mem'
    have room := held.room c mem'
    rcases held.apart mem (used c mem') other.symm with before | behind
    · left
      unfold UNIT at *
      omega
    · right
      rw [held.size c mem'] at behind
      have pointer' := held.pointer b mem
      unfold UNIT at *
      omega
  · intro b mem a onList
    have pointer := held.pointer b mem
    rcases held.apart mem (mem_union_left _ (onList.mem owned)) (away b mem a onList) with before | behind
    · exact .inl before
    · right
      unfold UNIT at *
      omega
  · intro b mem
    have pointer := held.pointer b mem
    constructor
    · intro c mem'
      by_cases same : c.header = b.header
      · right
        rw [same, pointer]
      · rcases held.apart mem (used c mem') same with before | behind
        · exact .inl before
        · right
          unfold UNIT at *
          omega
    · intro a onList
      rcases held.apart mem (mem_union_left _ (onList.mem owned)) (away b mem a onList) with before | behind
      · exact .inl before
      · right
        unfold UNIT at *
        omega

theorem Sound.safe (sound : Sound s) : Safe s := by
  rcases sound with ⟨-, none, -⟩ | ⟨free, held⟩
  · have empty : ∀ b ∈ s.live, False := fun b mem => nomatch none ▸ mem
    exact ⟨fun b mem => (empty b mem).elim, none ▸ .nil, fun b mem => (empty b mem).elim, fun b mem => (empty b mem).elim⟩
  · exact held.safe

def Event.Modest : Event → Prop
  | .malloc nbytes => nbytes.toNat ≤ 2 ^ 31 - 32
  | _ => True

instance (e : Event) : Decidable e.Modest := match e with
  | .malloc _ => inferInstanceAs (Decidable (_ ≤ _))
  | .free _ | .store _ _ => .isTrue trivial

theorem Fresh.sound (fresh : s.Fresh) : Sound s := by
  obtain ⟨null, none, base, low, first, fits, limit⟩ := fresh
  exact .inl ⟨null, none, base, low, first ▸ Nat.le_add_right _ _, first.le, first ▸ fits, limit⟩

theorem step_sound {e : Event} (sound : Sound s) (modest : e.Modest) (step : s.step e = some s') :
    Sound s' ∧ s.heap.length ≤ s'.heap.length ∧ s'.heap.start = s.heap.start := by
  cases e with
  | malloc nbytes =>
    obtain ⟨s₁, called, sound', longer, start⟩ := malloc_sound sound modest
    cases called.symm.trans step
    exact ⟨sound', longer, start⟩
  | free p =>
    have member : p ∈ s.live.map Block.p := by
      by_contra missing
      simp only [State.step, missing, if_false] at step
      cases step
    obtain ⟨b, mem, rfl⟩ := List.mem_map.mp member
    obtain ⟨s₁, called, sound', heap⟩ := free_sound sound mem
    cases called.symm.trans step
    exact ⟨sound', heap ▸ le_rfl, heap ▸ rfl⟩
  | store a contents =>
    obtain ⟨sound', heap⟩ := store_sound sound step
    exact ⟨sound', heap ▸ le_rfl, heap ▸ rfl⟩

abbrev Run := Semantics.Trace State.step State.Fresh

theorem Run.sound (r : Run) (modest : ∀ i, i < r.length → (r.event i).Modest) {i : Nat} (within : i ≤ r.length) :
    Sound (r.state i) :=
  r.invariant (fun _ => Fresh.sound) (fun i inside sound => (step_sound sound (modest i inside) (r.step i inside)).1) within

/-- In every run whose requests stay below 2^31 bytes, malloc and free return and every live allocation is owned,
and the break does not go down. -/
theorem Run.allocations_safe (r : Run) (modest : ∀ i, i < r.length → (r.event i).Modest) :
    (∀ i, i ≤ r.length → Safe (r.state i) ∧
      (∀ nbytes, Event.Modest (.malloc nbytes) → ((r.state i).malloc nbytes).isSome) ∧
      ∀ b ∈ (r.state i).live, ((r.state i).free b.p).isSome) ∧
    ∀ i, i < r.length → (r.state i).heap.length ≤ (r.state (i + 1)).heap.length ∧
      (r.state (i + 1)).heap.start = (r.state i).heap.start := by
  refine ⟨?_, fun i inside => (step_sound (r.sound modest inside.le) (modest i inside) (r.step i inside)).2⟩
  intro i within
  have sound := r.sound modest within
  refine ⟨sound.safe, ?_, ?_⟩
  · intro nbytes small
    obtain ⟨s', called, -⟩ := malloc_sound sound small
    simp only [State.step] at called
    obtain ⟨result, returned, -⟩ := Option.map_eq_some_iff.mp called
    rw [returned]
    rfl
  · intro b mem
    obtain ⟨s', called, -⟩ := free_sound sound mem
    have member : b.p ∈ (r.state i).live.map Block.p := List.mem_map_of_mem mem
    simp only [State.step, member, if_true] at called
    obtain ⟨result, returned, -⟩ := Option.map_eq_some_iff.mp called
    rw [returned]
    rfl

theorem Run.free_list_circle (r : Run) (modest : ∀ i, i < r.length → (r.event i).Modest) (i : Fin (r.length + 1)) :
    (r.state i).freep = 0 ∧ (r.state i).live = [] ∨ (r.state i).Circle := by
  rcases r.sound modest (Nat.le_of_lt_succ i.2) with ⟨null, none, -⟩ | ⟨free, held⟩
  · exact .inl ⟨null, none⟩
  · exact .inr held.owned.circle

def sample : State where
  mem _ := ⟨0, 0⟩
  base := 0x1000
  freep := 0
  heap := ⟨0x4000, 0, 0x3fffff0000⟩
  first := 0x4000
  live := []

theorem sample_fresh : sample.Fresh := by
  unfold State.Fresh sample UNIT MAXVA
  decide

def sampleEvents : List Event := [.malloc 100, .malloc 8, .store 0x13f90 ⟨7, 7⟩, .free 0x13f90, .malloc 70000]

def sampleRun : Run :=
  Semantics.Trace.ofEvents sample sample_fresh sampleEvents (.free 0) (by decide +kernel)

theorem sampleRun_allocations_safe : (∀ i, i < sampleRun.length → (sampleRun.event i).Modest) ∧
    (sampleRun.state 5).live = [⟨0x14010, 70000⟩, ⟨0x13f70, 8⟩] ∧ Safe (sampleRun.state 5) := by
  have modest : ∀ i, i < sampleRun.length → (sampleRun.event i).Modest := by
    change ∀ i, i < 5 → _
    decide +kernel
  exact ⟨modest, by decide +kernel, ((Run.allocations_safe sampleRun modest).1 5 (by decide)).1⟩

theorem sampleRun_free_list : (sampleRun.state 5).freep ≠ 0 ∧ (sampleRun.state 5).Circle := by
  have ready : (sampleRun.state 5).freep ≠ 0 := by decide +kernel
  refine ⟨ready, (Run.free_list_circle sampleRun ?_ (5 : Fin 6)).resolve_left fun none => ready none.1⟩
  change ∀ i, i < 5 → _
  decide +kernel

/-- sbrk is asked for 2^32 + 16 bytes and gives 16. -/
theorem malloc_wraps : sample.Fresh ∧ ∃ s', sample.step (.malloc 0xffffffff) = some s' ∧
    s'.live = [⟨0x4010, 0xffffffff⟩] ∧ s'.heap.brk = 0x4010 ∧ ¬ Safe s' := by
  have returns : (sample.step (.malloc 0xffffffff)).map (fun s => (s.live, s.heap.brk)) =
      some ([⟨0x4010, 0xffffffff⟩], 0x4010) := by decide +kernel
  obtain ⟨s', stepped, seen⟩ := Option.map_eq_some_iff.mp returns
  obtain ⟨live, brk⟩ := Prod.mk.inj seen
  refine ⟨sample_fresh, s', stepped, live, brk, ?_⟩
  intro safe
  have inside := (safe.inside ⟨0x4010, 0xffffffff⟩ (by rw [live]; exact List.mem_singleton.mpr rfl)).2
  rw [brk] at inside
  exact absurd inside (by decide)

end DeisoXv6.Malloc
