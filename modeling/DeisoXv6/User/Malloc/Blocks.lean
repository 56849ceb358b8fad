import DeisoXv6.User.Malloc.Allocator

/-! The blocks of the heap: those on the free list and those handed out. They do not overlap, and each operation of
the allocator moves, joins or splits them. -/

set_option autoImplicit false

namespace DeisoXv6.Malloc

open Finset Function Cycle

/-- The blocks at `bs` lie side by side below `top`. A block takes its header even when its size has wrapped to 0. -/
def Tiles (bs : Finset Nat) (size : Nat → Nat) (top : Nat) : Prop :=
  ∀ a ∈ bs, a + UNIT * max 1 (size a) ≤ top ∧ ∀ b ∈ bs, a < b → a + UNIT * max 1 (size a) ≤ b

namespace Tiles

variable {bs : Finset Nat} {size size' : Nat → Nat} {top top' a b n : Nat}

section

variable (tiles : Tiles bs size top)

include tiles

theorem congr (same : ∀ a ∈ bs, size' a = size a) : Tiles bs size' top := by
  intro a mem
  rw [same a mem]
  exact tiles a mem

theorem subset {bs' : Finset Nat} (fewer : bs' ⊆ bs) : Tiles bs' size top :=
  fun a mem => ⟨(tiles a (fewer mem)).1, fun b mem' => (tiles a (fewer mem)).2 b (fewer mem')⟩

theorem append (new : size' top = n) (some : 0 < n) (others : ∀ a ∈ bs, size' a = size a) :
    Tiles (insert top bs) size' (top + UNIT * n) := by
  intro a mem
  rcases mem_insert.mp mem with rfl | old
  · rw [new, max_eq_right some]
    refine ⟨le_rfl, ?_⟩
    intro b mem' above
    rcases mem_insert.mp mem' with rfl | old'
    · exact absurd above (lt_irrefl _)
    · have := (tiles b old').1
      omega
  · rw [others a old]
    refine ⟨(tiles a old).1.trans (Nat.le_add_right _ _), ?_⟩
    intro b mem' above
    rcases mem_insert.mp mem' with rfl | old'
    · exact (tiles a old).1
    · exact (tiles a old).2 b old' above

theorem merge (mem : a ∈ bs) (mem' : b ∈ bs) (other : a ≠ b)
    (adjacent : a + UNIT * size a = b) (new : size' a = u32 (size a + size b))
    (others : ∀ c ∈ bs, c ≠ a → c ≠ b → size' c = size c) : Tiles (bs.erase b) size' top := by
  have below := (tiles a mem).2
  have limits := tiles b mem'
  have smaller : size' a ≤ size a + size b := new ▸ Nat.mod_le _ _
  unfold Tiles
  unfold UNIT at *
  intro c member
  obtain ⟨off, old⟩ := mem_erase.mp member
  by_cases same : c = a
  · subst same
    refine ⟨by omega, ?_⟩
    intro d member' above
    obtain ⟨off', old'⟩ := mem_erase.mp member'
    have first := below d old' above
    have second := limits.2 d old'
    omega
  · rw [others c old same off]
    exact ⟨(tiles c old).1, fun d member' => (tiles c old).2 d (mem_of_mem_erase member')⟩

theorem not_mem (mem : a ∈ bs) (above : a < b) (below : b < a + UNIT * max 1 (size a)) : b ∉ bs :=
  fun old => Nat.not_lt_of_le ((tiles a mem).2 b old above) below

theorem split (mem : a ∈ bs) (some : 0 < n) (less : n < size a)
    (last : b = a + UNIT * (size a - n)) (rest : size' a = size a - n) (new : size' b = n)
    (others : ∀ c ∈ bs, c ≠ a → size' c = size c) : Tiles (insert b bs) size' top := by
  have limits := tiles a mem
  unfold Tiles
  unfold UNIT at *
  intro c member
  rcases mem_insert.mp member with rfl | old
  · refine ⟨by omega, ?_⟩
    intro d member' above
    rcases mem_insert.mp member' with rfl | old'
    · exact absurd above (lt_irrefl _)
    · have := limits.2 d old'
      omega
  · by_cases same : c = a
    · subst same
      refine ⟨by omega, ?_⟩
      intro d member' above
      rcases mem_insert.mp member' with rfl | old'
      · omega
      · have := limits.2 d old' above
        omega
    · rw [others c old same]
      refine ⟨(tiles c old).1, ?_⟩
      intro d member' above
      rcases mem_insert.mp member' with rfl | old'
      · have before := (tiles c old).2 a mem
        have behind := limits.2 c old
        unfold UNIT at before
        omega
      · exact (tiles c old).2 d old' above

theorem card_le (low : ∀ a ∈ bs, n ≤ a) : bs.card ≤ (top - n) / UNIT := by
  have inside : ∀ a ∈ bs, (a - n) / UNIT ∈ Finset.range ((top - n) / UNIT) := by
    intro a mem
    have above := low a mem
    have below := (tiles a mem).1
    unfold UNIT at *
    exact mem_range.mpr (by omega)
  have distinct : Set.InjOn (fun a => (a - n) / UNIT) bs := by
    intro a mem b mem' same
    change (a - n) / UNIT = (b - n) / UNIT at same
    have first := (tiles a mem).2 b mem'
    have second := (tiles b mem').2 a mem
    have lowA := low a mem
    have lowB := low b mem'
    unfold UNIT at *
    rcases Nat.lt_trichotomy a b with less | same | more
    · have := first less
      omega
    · exact same
    · have := second more
      omega
  rw [← card_range ((top - n) / UNIT)]
  exact card_le_card_of_injOn _ inside distinct

end

end Tiles

/-- Where the heap lies: above `base`, and below the next VMA. -/
structure Heap.Bounds (h : Heap) (base first : Nat) : Prop where
  null : 0 < base
  low : base + UNIT ≤ first
  start : h.start ≤ first
  reach : first ≤ h.start + h.length
  fits : h.start + h.length ≤ h.limit
  limit : h.limit ≤ MAXVA

/-- The free list has the nodes `free`, and the blocks at `used` are handed out. -/
structure Owned (s : State) (free used : Finset Nat) : Prop where
  cyclic : Cyclic free fun a => (s.mem a).ptr
  tiles : Tiles (free ∪ used) (fun a => (s.mem a).size) (s.heap.start + s.heap.length)
  apart : Disjoint free used
  base : s.base ∈ free
  empty : (s.mem s.base).size = 0
  freep : s.freep ∈ free
  above : ∀ a ∈ free ∪ used, a = s.base ∨ s.first ≤ a
  bounds : s.heap.Bounds s.base s.first

/-- What no operation of the allocator changes, and a heap that has not shrunk. -/
structure Same (s s' : State) : Prop where
  base : s'.base = s.base
  first : s'.first = s.first
  live : s'.live = s.live
  start : s'.heap.start = s.heap.start
  limit : s'.heap.limit = s.heap.limit
  length : s.heap.length ≤ s'.heap.length

theorem Same.refl (s : State) : Same s s := ⟨rfl, rfl, rfl, rfl, rfl, le_rfl⟩

theorem Same.trans {s s' s'' : State} (one : Same s s') (two : Same s' s'') : Same s s'' :=
  ⟨two.base.trans one.base, two.first.trans one.first, two.live.trans one.live, two.start.trans one.start,
    two.limit.trans one.limit, one.length.trans two.length⟩

namespace Owned

variable {s : State} {free used : Finset Nat} {a b p q bp n : Nat}

theorem off_list (owned : Owned s free used) (mem : bp ∈ used) : bp ∉ free :=
  fun member => disjoint_left.mp owned.apart member mem

theorem first_le (owned : Owned s free used) (mem : a ∈ free ∪ used) (other : a ≠ s.base) : s.first ≤ a :=
  (owned.above a mem).resolve_left other

theorem next_ne (owned : Owned s free used) (mem : p ∈ free) (other : p ≠ s.base) : (s.mem p).ptr ≠ p :=
  owned.cyclic.next_ne owned.base mem other.symm

def linked (s : State) (p bp : Nat) : State :=
  { s with
    mem := update (update s.mem bp ⟨(s.mem p).ptr, (s.mem bp).size⟩) p ⟨bp, (s.mem p).size⟩
    freep := p }

theorem link (owned : Owned s free used) (mem : bp ∈ used) (node : p ∈ free) (between : Between p (s.mem p).ptr bp) :
    Owned (linked s p bp) (insert bp free) (used.erase bp) := by
  have off := owned.off_list mem
  have other : bp ≠ p := fun same => off (same ▸ node)
  have size : ∀ a, ((linked s p bp).mem a).size = (s.mem a).size := by
    intro a
    simp only [linked, update_apply]
    split_ifs with here there
    · rw [here]
    · rw [there]
    · rfl
  have all : insert bp free ∪ used.erase bp = free ∪ used := by
    rw [insert_union, ← union_insert, insert_erase mem]
  constructor
  · refine owned.cyclic.insert node between ?_ ?_ ?_
    · simp [linked, other]
    · simp [linked]
    · intro a old away
      have off' : a ≠ bp := fun same => off (same ▸ old)
      simp [linked, away, off']
  · rw [all]
    exact owned.tiles.congr fun a _ => size a
  · refine disjoint_insert_left.mpr ⟨notMem_erase _ _, ?_⟩
    exact owned.apart.mono_right (erase_subset _ _)
  · exact mem_insert_of_mem owned.base
  · exact (size _).trans owned.empty
  · exact mem_insert_of_mem node
  · rw [all]
    exact owned.above
  · exact owned.bounds

def merged (s : State) (a : Nat) : State :=
  { s with
    mem := update s.mem a ⟨(s.mem (s.mem a).ptr).ptr, u32 ((s.mem a).size + (s.mem (s.mem a).ptr).size)⟩ }

theorem merge (owned : Owned s free used) (mem : a ∈ free) (next : (s.mem a).ptr = b) (other : a ≠ b)
    (adjacent : a + UNIT * (s.mem a).size = b) (start : s.freep ≠ b) : Owned (merged s a) (free.erase b) used := by
  subst next
  have mem' := owned.cyclic.closed a mem
  have notBase : a ≠ s.base := by
    intro same
    rw [same, owned.empty] at adjacent
    exact other (same ▸ adjacent)
  have notBase' : (s.mem a).ptr ≠ s.base := by
    have above := owned.first_le (mem_union_left _ mem) notBase
    have low := owned.bounds.low
    unfold UNIT at low
    omega
  have off : (s.mem a).ptr ∉ used := fun member => disjoint_left.mp owned.apart mem' member
  have all : free.erase (s.mem a).ptr ∪ used = (free ∪ used).erase (s.mem a).ptr := by
    rw [erase_union_distrib, erase_eq_of_notMem off]
  have others : ∀ c, c ≠ a → (merged s a).mem c = s.mem c := fun c away => by simp [merged, away]
  have here : (merged s a).mem a = ⟨(s.mem (s.mem a).ptr).ptr, u32 ((s.mem a).size + (s.mem (s.mem a).ptr).size)⟩ := by
    simp [merged]
  constructor
  · refine owned.cyclic.erase mem rfl other (by rw [here]) ?_
    intro c _ away _
    rw [others c away]
  · rw [all]
    refine owned.tiles.merge (mem_union_left _ mem) (mem_union_left _ mem') other adjacent (by rw [here]) ?_
    intro c _ away _
    rw [others c away]
  · exact owned.apart.mono_left (erase_subset _ _)
  · exact mem_erase.mpr ⟨notBase'.symm, owned.base⟩
  · exact (congrArg Header.size (others _ notBase.symm)).trans owned.empty
  · exact mem_erase.mpr ⟨start, owned.freep⟩
  · rw [all]
    exact fun c member => owned.above c (mem_of_mem_erase member)
  · exact owned.bounds

/-! free -/

theorem search_succ (mem : Nat → Header) (bp fuel p : Nat) : search mem bp (fuel + 1) p =
    if Between p (mem p).ptr bp then some p else search mem bp fuel (mem p).ptr := by
  simp only [search]
  by_cases between : Between p (mem p).ptr bp
  · rw [if_pos between]
    by_cases inside : p < bp ∧ bp < (mem p).ptr
    · exact if_pos inside
    · exact (if_neg inside).trans (if_pos (between.resolve_left inside))
  · rw [if_neg between]
    exact (if_neg fun inside => between (.inl inside)).trans (if_neg fun around => between (.inr around))

theorem search_finds {mem : Nat → Header} {k fuel : Nat} (cyclic : Cyclic free fun a => (mem a).ptr) (node : a ∈ free)
    (hit : Between ((fun a => (mem a).ptr)^[k] a) (mem ((fun a => (mem a).ptr)^[k] a)).ptr bp) (enough : k < fuel) :
    ∃ p ∈ free, search mem bp fuel a = some p ∧ Between p (mem p).ptr bp := by
  induction k generalizing a fuel with
  | zero =>
    obtain ⟨fuel, rfl⟩ : ∃ less, fuel = less + 1 := ⟨fuel - 1, by omega⟩
    exact ⟨a, node, (search_succ ..).trans (if_pos hit), hit⟩
  | succ k ih =>
    obtain ⟨fuel, rfl⟩ : ∃ less, fuel = less + 1 := ⟨fuel - 1, by omega⟩
    by_cases here : Between a (mem a).ptr bp
    · exact ⟨a, node, (search_succ ..).trans (if_pos here), here⟩
    · obtain ⟨p, node', found, between⟩ := ih (cyclic.closed a node) hit (Nat.lt_of_succ_lt_succ enough)
      exact ⟨p, node', (search_succ ..).trans ((if_neg here).trans found), between⟩

theorem card_free_le (owned : Owned s free used) : free.card ≤ s.heap.length / UNIT + 1 := by
  have tiles : Tiles (free.erase s.base) (fun a => (s.mem a).size) (s.heap.start + s.heap.length) :=
    owned.tiles.subset fun a mem => mem_union_left _ (mem_of_mem_erase mem)
  have low : ∀ a ∈ free.erase s.base, s.first ≤ a := by
    intro a mem
    obtain ⟨other, node⟩ := mem_erase.mp mem
    exact owned.first_le (mem_union_left _ node) other
  have few := tiles.card_le low
  have one := card_erase_add_one owned.base
  have start := owned.bounds.start
  unfold UNIT at *
  omega

/-- Link `bp` in behind `p`, then merge it with the node behind it and with the one before. -/
def joined (s : State) (p bp : Nat) : State :=
  let up := if bp + UNIT * (s.mem bp).size = (s.mem p).ptr then merged (linked s p bp) bp else linked s p bp
  if p + UNIT * (s.mem p).size = bp then merged up p else up

theorem join_eq (other : p ≠ bp) (around : bp + UNIT * (s.mem bp).size = (s.mem p).ptr → (s.mem p).ptr ≠ p)
    (next : (s.mem p).ptr ≠ bp) : { s with mem := join s.mem p bp, freep := p } = joined s p bp := by
  apply State.ext
  · funext c
    by_cases up : bp + UNIT * (s.mem bp).size = (s.mem p).ptr
    · have apart := around up
      by_cases down : p + UNIT * (s.mem p).size = bp <;> by_cases here : c = p <;> by_cases there : c = bp <;>
        simp [join, joined, merged, linked, up, down, other, other.symm, apart, next, here, there]
    · by_cases down : p + UNIT * (s.mem p).size = bp <;> by_cases here : c = p <;> by_cases there : c = bp <;>
        simp [join, joined, merged, linked, up, down, other, other.symm, here, there]
  all_goals
    simp only [joined]
    split_ifs <;> rfl

theorem joined_mem (awayP : a ≠ p) (awayB : a ≠ bp) : (joined s p bp).mem a = s.mem a := by
  simp only [joined]
  split_ifs <;> simp [merged, linked, awayP, awayB]

theorem joined_owned (owned : Owned s free used) (mem : bp ∈ used) (node : p ∈ free)
    (between : Between p (s.mem p).ptr bp) (around : bp + UNIT * (s.mem bp).size = (s.mem p).ptr → (s.mem p).ptr ≠ p) :
    ∃ free', Owned (joined s p bp) free' (used.erase bp) := by
  have off := owned.off_list mem
  have other : p ≠ bp := fun same => off (same ▸ node)
  have next : (s.mem p).ptr ≠ bp := fun same => off (same ▸ owned.cyclic.closed p node)
  have first := owned.link mem node between
  have ptr : ((linked s p bp).mem bp).ptr = (s.mem p).ptr := by simp [linked, other.symm]
  have size : ((linked s p bp).mem bp).size = (s.mem bp).size := by simp [linked, other.symm]
  have ptr' : ((linked s p bp).mem p).ptr = bp := by simp [linked]
  have size' : ((linked s p bp).mem p).size = (s.mem p).size := by simp [linked]
  simp only [joined]
  by_cases up : bp + UNIT * (s.mem bp).size = (s.mem p).ptr
  · have second := first.merge (mem_insert_self _ _) ptr next.symm (size ▸ up) (around up).symm
    have frame : (merged (linked s p bp) bp).mem p = (linked s p bp).mem p := by simp [merged, other]
    rw [if_pos up]
    split_ifs with down
    · refine ⟨_, second.merge ?_ (frame ▸ ptr') other ?_ other⟩
      · exact mem_erase.mpr ⟨(around up).symm, mem_insert_of_mem node⟩
      · rw [frame, size']
        exact down
    · exact ⟨_, second⟩
  · rw [if_neg up]
    split_ifs with down
    · refine ⟨_, first.merge (mem_insert_of_mem node) ptr' other ?_ other⟩
      rw [size']
      exact down
    · exact ⟨_, first⟩

theorem free_owned (owned : Owned s free used) (mem : bp ∈ used) :
    ∃ s' free', s.free (bp + UNIT) = some s' ∧ Owned s' free' (used.erase bp) ∧ Same s s' ∧ s'.heap = s.heap ∧
      ∀ a ∈ used.erase bp, s'.mem a = s.mem a := by
  have off := owned.off_list mem
  obtain ⟨t, target, here⟩ := owned.cyclic.exists_between ⟨_, owned.base⟩ off
  obtain ⟨k, few, hit⟩ := owned.cyclic.reach owned.freep target
  have enough : k < s.turns := Nat.lt_succ_of_le (few.trans owned.card_free_le)
  obtain ⟨p, node, found, between⟩ := search_finds owned.cyclic owned.freep (hit.symm ▸ here) enough
  have around : bp + UNIT * (s.mem bp).size = (s.mem p).ptr → (s.mem p).ptr ≠ p := by
    -- only `base` can point at itself, and it lies below every block
    intro up self
    have notBase : bp ≠ s.base := fun same => off (same ▸ owned.base)
    have above := owned.first_le (mem_union_right _ mem) notBase
    have low := owned.bounds.low
    by_cases single : p = s.base
    · rw [self, single] at up
      unfold UNIT at *
      omega
    · exact owned.next_ne node single self
  have other : p ≠ bp := fun same => off (same ▸ node)
  have next : (s.mem p).ptr ≠ bp := fun same => off (same ▸ owned.cyclic.closed p node)
  obtain ⟨free', owned'⟩ := owned.joined_owned mem node between around
  refine ⟨joined s p bp, free', ?_, owned', ?_, ?_, ?_⟩
  · simp only [State.free, Nat.add_sub_cancel, found, Option.map_some, join_eq other around next]
  · simp only [joined]
    split_ifs <;> exact ⟨rfl, rfl, rfl, rfl, rfl, le_rfl⟩
  · simp only [joined]
    split_ifs <;> rfl
  · intro a member
    obtain ⟨away, old⟩ := mem_erase.mp member
    exact joined_mem (fun same => owned.off_list old (same ▸ node)) away

/-! malloc -/

theorem not_base (owned : Owned s free used) (some : 0 < (s.mem p).size) : p ≠ s.base := by
  rintro rfl
  rw [owned.empty] at some
  exact lt_irrefl _ some

def skipped (s : State) (q p : Nat) : State :=
  { s with mem := update s.mem q ⟨(s.mem p).ptr, (s.mem q).size⟩, freep := q }

theorem take_all (owned : Owned s free used) (node : q ∈ free) (next : (s.mem q).ptr = p) (some : 0 < (s.mem p).size) :
    Owned (skipped s q p) (free.erase p) (insert p used) := by
  have node' : p ∈ free := next ▸ owned.cyclic.closed q node
  have notBase := owned.not_base some
  have other : q ≠ p := by
    rintro rfl
    exact owned.next_ne node notBase next
  have size : ∀ a, ((skipped s q p).mem a).size = (s.mem a).size := by
    intro a
    by_cases here : a = q
    · simp [skipped, here]
    · simp [skipped, here]
  have all : free.erase p ∪ insert p used = free ∪ used := by
    rw [union_insert, ← insert_union, insert_erase node']
  constructor
  · refine owned.cyclic.erase node next other (by simp [skipped]) ?_
    intro a _ away _
    simp [skipped, away]
  · rw [all]
    exact owned.tiles.congr fun a _ => size a
  · refine disjoint_insert_right.mpr ⟨notMem_erase _ _, ?_⟩
    exact owned.apart.mono_left (erase_subset _ _)
  · exact mem_erase.mpr ⟨notBase.symm, owned.base⟩
  · exact (size _).trans owned.empty
  · exact mem_erase.mpr ⟨other, node⟩
  · rw [all]
    exact owned.above
  · exact owned.bounds

def tail (s : State) (n p : Nat) : Nat := p + UNIT * ((s.mem p).size - n)

def cut (s : State) (n q p : Nat) : State :=
  { s with
    mem := update (update s.mem p ⟨(s.mem p).ptr, (s.mem p).size - n⟩) (tail s n p) ⟨(s.mem (tail s n p)).ptr, n⟩
    freep := q }

theorem tail_above (less : n < (s.mem p).size) : p < tail s n p := by
  unfold tail UNIT
  omega

theorem cut_mem (away : a ≠ p) (away' : a ≠ tail s n p) : (cut s n q p).mem a = s.mem a := by
  simp [cut, away, away']

section

variable (owned : Owned s free used)

include owned

theorem tail_fresh (node : p ∈ free) (some : 0 < n) (less : n < (s.mem p).size) : tail s n p ∉ free ∪ used := by
  refine owned.tiles.not_mem (mem_union_left _ node) (tail_above less) ?_
  unfold tail UNIT
  omega

theorem take_tail (node : q ∈ free) (node' : p ∈ free) (some : 0 < n)
    (less : n < (s.mem p).size) : Owned (cut s n q p) free (insert (tail s n p) used) := by
  have notBase := owned.not_base (Nat.lt_of_le_of_lt (Nat.zero_le n) less)
  have above := tail_above less
  have fresh := owned.tail_fresh node' some less
  have all : free ∪ insert (tail s n p) used = insert (tail s n p) (free ∪ used) := union_insert _ _ _
  have off : ∀ a ∈ free ∪ used, a ≠ tail s n p := fun a mem same => fresh (same ▸ mem)
  constructor
  · refine owned.cyclic.congr ?_
    intro a mem
    by_cases here : a = p
    · simp [here, cut, above.ne]
    · rw [cut_mem here (off a (mem_union_left _ mem))]
  · rw [all]
    refine owned.tiles.split (mem_union_left _ node') some less rfl ?_ ?_ ?_
    · simp [cut, above.ne]
    · simp [cut]
    · intro a mem away
      rw [cut_mem away (off a mem)]
  · refine disjoint_insert_right.mpr ⟨?_, owned.apart⟩
    exact fun mem => fresh (mem_union_left _ mem)
  · exact owned.base
  · rw [← owned.empty]
    exact congrArg Header.size (cut_mem notBase.symm (off _ (mem_union_left _ owned.base)))
  · exact node
  · rw [all]
    intro a mem
    rcases mem_insert.mp mem with rfl | old
    · have bound := owned.first_le (mem_union_left _ node') notBase
      exact .inr (bound.trans above.le)
    · exact owned.above a old
  · exact owned.bounds

theorem grow (some : 0 < n)
    (room : s.heap.start + s.heap.length + UNIT * n ≤ s.heap.limit) : s.heap.start + s.heap.length ∉ free ∪ used ∧
      Owned (s.grown { s.heap with length := s.heap.length + UNIT * n } (s.heap.start + s.heap.length) n) free
        (insert (s.heap.start + s.heap.length) used) := by
  have fresh : s.heap.start + s.heap.length ∉ free ∪ used := by
    intro mem
    have := (owned.tiles _ mem).1
    unfold UNIT at this
    omega
  have off : ∀ a ∈ free ∪ used, a ≠ s.heap.start + s.heap.length := fun a mem same => fresh (same ▸ mem)
  have others : ∀ a ∈ free ∪ used, (s.grown { s.heap with length := s.heap.length + UNIT * n }
      (s.heap.start + s.heap.length) n).mem a = s.mem a := by
    intro a mem
    simp [State.grown, off a mem]
  have all : free ∪ insert (s.heap.start + s.heap.length) used = insert (s.heap.start + s.heap.length) (free ∪ used) :=
    union_insert _ _ _
  have top : s.heap.start + (s.heap.length + UNIT * n) = s.heap.start + s.heap.length + UNIT * n := by omega
  refine ⟨fresh, ?_⟩
  constructor
  · refine owned.cyclic.congr ?_
    intro a mem
    rw [others a (mem_union_left _ mem)]
  · rw [all]
    change Tiles _ _ (s.heap.start + (s.heap.length + UNIT * n))
    rw [top]
    refine owned.tiles.append ?_ some ?_
    · simp [State.grown]
    · intro a mem
      rw [others a mem]
  · refine disjoint_insert_right.mpr ⟨?_, owned.apart⟩
    exact fun mem => fresh (mem_union_left _ mem)
  · exact owned.base
  · rw [← owned.empty]
    exact congrArg Header.size (others _ (mem_union_left _ owned.base))
  · exact owned.freep
  · rw [all]
    intro a mem
    rcases mem_insert.mp mem with rfl | old
    · exact .inr owned.bounds.reach
    · exact owned.above a old
  · have bounds := owned.bounds
    exact ⟨bounds.null, bounds.low, bounds.start, bounds.reach.trans (top ▸ Nat.le_add_right _ _), top ▸ room, bounds.limit⟩

theorem store (fresh : a ∉ free ∪ used) (contents : Header) :
    Owned { s with mem := update s.mem a contents } free used := by
  have off : ∀ b ∈ free ∪ used, update s.mem a contents b = s.mem b := by
    intro b mem
    have other : b ≠ a := fun same => fresh (same ▸ mem)
    exact update_of_ne other _ _
  constructor
  · exact owned.cyclic.congr fun b mem => congrArg Header.ptr (off b (mem_union_left _ mem))
  · exact owned.tiles.congr fun b mem => congrArg Header.size (off b mem)
  · exact owned.apart
  · exact owned.base
  · exact (congrArg Header.size (off _ (mem_union_left _ owned.base))).trans owned.empty
  · exact owned.freep
  · exact owned.above
  · exact owned.bounds

end

end Owned

end DeisoXv6.Malloc
