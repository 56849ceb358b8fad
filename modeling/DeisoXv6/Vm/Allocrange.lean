import DeisoXv6.Vm.Fork
import DeisoXv6.Vm.Prefault

/-! How often the loop of allocrange turns, and which pages it leaves mapped.

The loop goes from `va` in strides of a page and compares with `va + sz`, both modulo 2^64. The copies that
rely on it go from page to page instead. -/

set_option autoImplicit false

namespace DeisoXv6

open Finset Semantics Bytes

/-- After `k` turns of the loop `pa` is the index, and `t` the state. -/
inductive Turns (root : PageNo) (stop va : Nat) (s : Sys) : Nat → Nat → Sys → Prop where
  | start : Turns root stop va s 0 va s
  | turn {k pa : Nat} {a : Option PageNo} {t t' : Sys} (before : Turns root stop va s k pa t) (more : pa < stop)
      (walked : Returns (walkaddr root pa) t a t') : Turns root stop va s (k + 1) (u64 (pa + PGSIZE)) t'

def EndsWithin (root : PageNo) (va sz : Nat) (s : Sys) (bound : Nat) : Prop :=
  ∃ k ≤ bound, ∃ pa t, Turns root (u64 (va + sz)) va s k pa t ∧ u64 (va + sz) ≤ pa

def Untroubled (root : PageNo) (va sz : Nat) (s : Sys) : Prop :=
  ∀ k pa t, Turns root (u64 (va + sz)) va s k pa t → pa < u64 (va + sz) → ∃ a t', Returns (walkaddr root pa) t a t'

/-- The pages that a range of `n` bytes fills, the last one perhaps in part. -/
def pagesOf (n : Nat) : Nat := (n + (PGSIZE - 1)) / PGSIZE

/-- A negative length does not reach below address 0, and another one either wraps or leaves room for whole
pages below 2^64. -/
def StaysBelow (addr : Nat) (n : Int) : Prop :=
  if n < 0 then -n ≤ addr else 2 ^ 64 ≤ addr + n ∨ addr + pagesOf n.toNat * PGSIZE < 2 ^ 64

instance (addr : Nat) (n : Int) : Decidable (StaysBelow addr n) := inferInstanceAs (Decidable (ite ..))

section Count

variable {root : PageNo} {stop va sz k pa fuel : Nat} {s t s' : Sys}

theorem Turns.index (turns : Turns root stop va s k pa t) (small : va < 2 ^ 64) : pa = u64 (va + k * PGSIZE) := by
  induction turns with
  | start =>
    rw [Nat.zero_mul, Nat.add_zero]
    exact (Nat.mod_eq_of_lt small).symm
  | turn before more walked ih =>
    rw [ih]
    unfold u64 PGSIZE
    omega

theorem Turns.cons {a : Option PageNo} (more : va < stop) (walked : Returns (walkaddr root va) s a t)
    (turns : Turns root stop (u64 (va + PGSIZE)) t k pa s') : Turns root stop va s (k + 1) pa s' := by
  induction turns with
  | start => exact .turn .start more walked
  | turn before more' walked' ih => exact .turn ih more' walked'

theorem Turns.uncons (turns : Turns root stop va s (k + 1) pa s') :
    va < stop ∧ ∃ a t, Returns (walkaddr root va) s a t ∧ Turns root stop (u64 (va + PGSIZE)) t k pa s' := by
  induction k generalizing pa s' with
  | zero =>
    cases turns with
    | turn before more walked =>
      cases before
      exact ⟨more, _, _, walked, .start⟩
  | succ k ih =>
    cases turns with
    | turn before more walked =>
      obtain ⟨first, a, t, head, rest⟩ := ih before
      exact ⟨first, a, t, head, .turn rest more walked⟩

theorem returns_allocrangeLoop {u : Unit} : Returns (allocrangeLoop root stop fuel va) s u s' ↔
    ∃ k < fuel, ∃ pa, Turns root stop va s k pa s' ∧ stop ≤ pa := by
  induction fuel generalizing va s with
  | zero => exact iff_of_false returns_throw fun ⟨k, less, _⟩ => absurd less (Nat.not_lt_zero k)
  | succ fuel ih =>
    unfold allocrangeLoop
    by_cases more : va < stop
    · rw [if_pos more, returns_bind]
      constructor
      · rintro ⟨a, t, walked, later⟩
        obtain ⟨k, less, pa, turns, done⟩ := ih.mp later
        exact ⟨k + 1, Nat.succ_lt_succ less, pa, .cons more walked turns, done⟩
      · rintro ⟨k, less, pa, turns, done⟩
        cases k with
        | zero =>
          cases turns
          exact absurd more (Nat.not_lt.mpr done)
        | succ k =>
          obtain ⟨-, a, t, walked, rest⟩ := turns.uncons
          exact ⟨a, t, walked, ih.mpr ⟨k, Nat.lt_of_succ_lt_succ less, pa, rest, done⟩⟩
    · rw [if_neg more, returns_pure]
      constructor
      · rintro ⟨-, rfl⟩
        exact ⟨0, Nat.succ_pos _, va, .start, Nat.le_of_not_lt more⟩
      · rintro ⟨k, -, pa, turns, -⟩
        cases k with
        | zero =>
          cases turns
          exact ⟨rfl, rfl⟩
        | succ k => exact absurd turns.uncons.1 more

theorem Untroubled.turns (calm : Untroubled root va sz s) (small : va < 2 ^ 64)
    (below : ∀ j < k, u64 (va + j * PGSIZE) < u64 (va + sz)) :
    ∃ t, Turns root (u64 (va + sz)) va s k (u64 (va + k * PGSIZE)) t := by
  induction k with
  | zero =>
    refine ⟨s, ?_⟩
    rw [Nat.zero_mul, Nat.add_zero, show u64 va = va from Nat.mod_eq_of_lt small]
    exact .start
  | succ k ih =>
    obtain ⟨t, turns⟩ := ih fun j less => below j (Nat.lt_succ_of_lt less)
    have more := below k (Nat.lt_succ_self k)
    obtain ⟨a, t', walked⟩ := calm k _ t turns more
    refine ⟨t', ?_⟩
    have next := Turns.turn turns more walked
    rwa [next.index small] at next

variable {bound : Nat} {n : Int}

theorem EndsWithin.reaches (ends : EndsWithin root va sz s bound) (small : va < 2 ^ 64) :
    ∃ k ≤ bound, u64 (va + sz) ≤ u64 (va + k * PGSIZE) := by
  obtain ⟨k, le, pa, t, turns, done⟩ := ends
  exact ⟨k, le, turns.index small ▸ done⟩

theorem endsWithin_iff (calm : Untroubled root va sz s) (small : va < 2 ^ 64) :
    EndsWithin root va sz s bound ↔ ∃ k ≤ bound, u64 (va + sz) ≤ u64 (va + k * PGSIZE) := by
  constructor
  · exact fun ends => ends.reaches small
  · rintro ⟨k, le, done⟩
    -- the first index at or beyond the end
    have some : ∃ j, u64 (va + sz) ≤ u64 (va + j * PGSIZE) := ⟨k, done⟩
    obtain ⟨t, turns⟩ := calm.turns (k := Nat.find some) small fun j less => Nat.lt_of_not_le (Nat.find_min some less)
    exact ⟨_, (Nat.find_min' some done).trans le, _, t, turns, Nat.find_spec some⟩

theorem stop_of_negative (int : -2 ^ 31 ≤ n) (negative : n < 0) (small : va < 2 ^ 64) :
    (u64 (va + size64 n) : Int) = if -n ≤ va then va + n else va + n + 2 ^ 64 := by
  unfold u64 size64
  split <;> omega

theorem stop_of_nonnegative (int : n < 2 ^ 31) (positive : 0 ≤ n) (small : va < 2 ^ 64) :
    u64 (va + size64 n) = if 2 ^ 64 ≤ va + n then va + n.toNat - 2 ^ 64 else va + n.toNat := by
  unfold u64 size64
  split <;> omega

theorem reaches_end_iff (low : -2 ^ 31 ≤ n) (high : n < 2 ^ 31) (small : va < 2 ^ 64) :
    (∃ k ≤ pagesOf n.toNat + 1, u64 (va + size64 n) ≤ u64 (va + k * PGSIZE)) ↔ StaysBelow va n := by
  unfold StaysBelow
  by_cases negative : n < 0
  · have stop := stop_of_negative low negative small
    have none : pagesOf n.toNat = 0 := by
      unfold pagesOf PGSIZE
      omega
    rw [if_pos negative, none]
    split at stop
    · rename_i above
      refine iff_of_true ⟨0, Nat.zero_le _, ?_⟩ above
      unfold u64 at stop ⊢
      omega
    · rename_i below
      refine iff_of_false ?_ below
      rintro ⟨k, le, done⟩
      unfold u64 PGSIZE at done
      unfold u64 at stop
      have one : k = 0 ∨ k = 1 := by omega
      rcases one with rfl | rfl <;> omega
  · have stop := stop_of_nonnegative high (by omega) small
    rw [if_neg negative, stop]
    split
    · rename_i wraps
      refine iff_of_true ⟨0, Nat.zero_le _, ?_⟩ (.inl wraps)
      unfold u64
      omega
    · rename_i inside
      rw [or_iff_right inside]
      constructor
      · rintro ⟨k, le, done⟩
        unfold pagesOf u64 PGSIZE at *
        omega
      · intro room
        refine ⟨pagesOf n.toNat, Nat.le_succ _, ?_⟩
        unfold pagesOf u64 PGSIZE at *
        omega

/-- The pre-fault loop of read and write ends, with one turn more than there are pages at most. -/
theorem prefault_ends_iff {addr : UInt64} {n : BitVec 32} (calm : Untroubled root addr.toNat (size64 n.toInt) s) :
    EndsWithin root addr.toNat (size64 n.toInt) s (pagesOf n.toInt.toNat + 1) ↔ StaysBelow addr.toNat n.toInt := by
  have low : -2 ^ 31 ≤ n.toInt := by simpa using n.le_toInt
  have high : n.toInt < 2 ^ 31 := by simpa using n.toInt_lt
  rw [endsWithin_iff calm addr.toNat_lt, reaches_end_iff low high addr.toNat_lt]

theorem prefault_of_one_byte : (heapProcess.file 0).readable = true ∧
    EndsWithin emptyRoot PGSIZE (size64 1) heapProcess 2 := by
  refine ⟨rfl, (prefault_ends_iff (n := 1#32)
    (?_ : Untroubled emptyRoot (4096 : UInt64).toNat (size64 (1#32).toInt) heapProcess)).mpr (by decide)⟩
  intro k pa t turns more
  have past : ¬u64 (PGSIZE + PGSIZE) < u64 ((4096 : UInt64).toNat + size64 (1#32).toInt) := by decide
  match k with
  | 0 =>
    cases turns
    exact ⟨_, _, returns_final (a := some 0x87ff0) (by decide +kernel)⟩
  | 1 =>
    obtain ⟨-, a, t', -, rest⟩ := turns.uncons
    cases rest
    exact absurd more past
  | k + 2 =>
    obtain ⟨-, a, t', -, rest⟩ := turns.uncons
    exact absurd rest.uncons.1 past

/-- With the length -1 at address 0 the end is 2^64 - 1, which the index never reaches. -/
theorem prefault_never_ends : (heapProcess.file 0).readable = true ∧
    ¬EndsWithin emptyRoot 0 (size64 (-1)) heapProcess (pagesOf (-1 : Int).toNat + 1) ∧
    ∀ k pa t, Turns emptyRoot (u64 (0 + size64 (-1))) 0 heapProcess k pa t → pa < u64 (0 + size64 (-1)) := by
  have stop : u64 (0 + size64 (-1)) = 2 ^ 64 - 1 := by decide
  have below : ∀ k, u64 (0 + k * PGSIZE) < 2 ^ 64 - 1 := by
    intro k
    unfold u64 PGSIZE
    omega
  refine ⟨rfl, fun ends => ?_, fun k pa t turns => ?_⟩
  · obtain ⟨k, -, done⟩ := ends.reaches (by decide)
    exact absurd (below k) (Nat.not_lt.mpr (stop ▸ done))
  · rw [turns.index (by decide), stop]
    exact below k

end Count

structure Intersects (va sz p : Nat) : Prop where
  nonempty : 0 < sz
  first : va < (p + 1) * PGSIZE
  last : p * PGSIZE < va + sz

instance (va sz p : Nat) : Decidable (Intersects va sz p) :=
  decidable_of_iff (0 < sz ∧ va < (p + 1) * PGSIZE ∧ p * PGSIZE < va + sz)
    ⟨fun ⟨nonempty, first, last⟩ => ⟨nonempty, first, last⟩, fun ⟨nonempty, first, last⟩ => ⟨nonempty, first, last⟩⟩

def Sys.inVmas (s : Sys) (va sz : Nat) : Finset Nat :=
  (Finset.range (pagesOf (va + sz))).filter fun p => Intersects va sz p ∧ (s.vmaAt (p * PGSIZE)).isSome

/-- No copy over a part of the range calls lazyalloc. For copyout what is mapped for the user must not be
part of a page table. -/
structure CopiesStay (root : PageNo) (va sz : Nat) (s : Sys) : Prop where
  copyin : ∀ a len r t, va ≤ a → a + len ≤ va + sz → Returns (copyin root a len) s r t → t = s
  copyout : ∀ g a src r t, Tables g s → g.tree root [] = some root → SafeFrom g s root (va / PGSIZE) → va ≤ a →
    a + src.length ≤ va + sz → Returns (copyout root a src) s r t →
      t.freelist = s.freelist ∧ ∀ va', t.entry root va' = s.entry root va'

structure Prefilled (root : PageNo) (va sz : Nat) (s : Sys) : Prop where
  mapped : ∀ p, Intersects va sz p → (s.vmaAt (p * PGSIZE)).isSome → s.Present root (p * PGSIZE)
  copies : CopiesStay root va sz s

/-- A page that is not mapped yet has, at the offset of `va`, an address of the range that is in a VMA. -/
def Sys.Strides (s : Sys) (root : PageNo) (va sz : Nat) : Prop :=
  ∀ p, Intersects va sz p → (s.vmaAt (p * PGSIZE)).isSome → ¬s.Present root (p * PGSIZE) →
    p * PGSIZE + va % PGSIZE < va + sz ∧ (s.vmaAt (p * PGSIZE + va % PGSIZE)).isSome

section Pages

variable {g g' : Layout} {s s' s'' t : Sys} {root page : PageNo} {va sz fuel o p q k : Nat} {pages more : Finset Nat}

theorem Covers.union (first : Covers root pages s s') (second : Covers root more s' s'')
    (low : ∀ r ∈ pages ∪ more, r * PGSIZE < MAXVA) : Covers root (pages ∪ more) s s'' := by
  have behind : ∀ r ∈ more, r * PGSIZE < MAXVA := fun r member => low r (mem_union_right _ member)
  refine ⟨fun va => (second.vmaAt va).trans (first.vmaAt va), fun q other small => ?_, fun q member => ?_,
    fun va => ?_⟩
  · rw [mem_union, not_or] at other
    exact (second.entry q other.2 small).trans (first.entry q other.1 small)
  · rw [second.present_iff (low q member)]
    rcases mem_union.mp member with here | there
    · exact .inl (first.present q here)
    · exact .inr there
  · have part : s.newTables root pages ⊆ s.newTables root (pages ∪ more) :=
      biUnion_subset_biUnion_of_subset_left _ (filter_subset_filter _ subset_union_left)
    rw [second.lacks, first.lacks, first.newTables behind, sdiff_sdiff, sup_eq_union, union_sdiff_of_subset part]

theorem covered_snoc_shut (shut : ¬s.Open root ((p + k) * PGSIZE + o)) :
    s.covered root o p (k + 1) = s.covered root o p k := by
  ext q
  rw [mem_covered, mem_covered]
  constructor
  · rintro ⟨⟨first, last⟩, opened⟩
    have other : q ≠ p + k := by
      rintro rfl
      exact shut opened
    exact ⟨by omega, opened⟩
  · rintro ⟨⟨first, last⟩, opened⟩
    exact ⟨by omega, opened⟩

theorem covered_snoc_open (opened : s.Open root ((p + k) * PGSIZE + o)) :
    s.covered root o p (k + 1) = s.covered root o p k ∪ {p + k} := by
  ext q
  rw [mem_union, mem_singleton, mem_covered, mem_covered]
  constructor
  · rintro ⟨⟨first, last⟩, here⟩
    by_cases tail : q = p + k
    · exact .inr tail
    · exact .inl ⟨by omega, here⟩
  · rintro (⟨⟨first, last⟩, here⟩ | rfl)
    · exact ⟨by omega, here⟩
    · exact ⟨by omega, opened⟩

/-- `k` turns from page `p` on, at offset `o`, have found memory for each page that was not refused. -/
structure Strode (root : PageNo) (o p k : Nat) (s : Sys) (g' : Layout) (t : Sys) : Prop where
  tables : Tables g' t
  known : g'.tree root [] = some root
  safe : SafeFrom g' t root (p + k)
  files : SameFiles s t
  opened : ∀ va, t.Open root va ↔ s.Open root va
  covers : Covers root (s.covered root o p k) s t
  free : s.freelist.length = s.need root (s.covered root o p k) + t.freelist.length

theorem Strode.start (tables : Tables g s) (known : g.tree root [] = some root) (safe : SafeFrom g s root p) :
    Strode root o p 0 s g s := by
  have none : s.covered root o p 0 = ∅ := covered_zero
  refine ⟨tables, known, safe, .refl, fun _ => Iff.rfl, ?_, ?_⟩
  · rw [none]
    refine ⟨fun _ => rfl, fun _ _ _ => rfl, fun q member => absurd member (notMem_empty q), fun va => ?_⟩
    rw [Sys.newTables, Sys.unmapped, filter_empty, biUnion_empty, sdiff_empty]
  · rw [none, need_empty, Nat.zero_add]

theorem Strode.step {a : Option PageNo} (strode : Strode root o p k s g t) (inside : o < PGSIZE)
    (solid : s.SolidFiles) (memory : s.need root (s.covered root o p (k + 1)) ≤ s.freelist.length)
    (walked : Returns (walkaddr root ((p + k) * PGSIZE + o)) t a s') : ∃ g', Strode root o p (k + 1) s g' s' := by
  have number : ((p + k) * PGSIZE + o) / PGSIZE = p + k := page_offset inside
  have free := strode.free
  have result := walkaddr_maps strode.tables strode.known (number.symm ▸ strode.safe)
    (strode.files.solid solid) walked
  rw [number, strode.opened] at result
  rcases result with ⟨-, shut, rfl⟩ | ⟨-, opened, few, -⟩ | ⟨page, g', -, opened, maps⟩
  · refine ⟨g, strode.tables, strode.known, strode.safe.tail, strode.files, strode.opened, ?_, ?_⟩
    · rw [covered_snoc_shut shut]
      exact strode.covers
    · rw [covered_snoc_shut shut]
      exact free
  · -- the memory that is asked for includes what this page costs
    rw [covered_snoc_open opened, strode.covers.need_union fun r member => ?_, need_singleton] at memory
    · omega
    · rw [mem_singleton.mp member]
      exact Nat.lt_of_le_of_lt (Nat.le_add_right ..) opened.low
  · have low : ∀ r ∈ s.covered root o p k ∪ {p + k}, r * PGSIZE < MAXVA := by
      intro r member
      rcases mem_union.mp member with earlier | here
      · exact covered_low earlier
      · rw [mem_singleton.mp here]
        exact Nat.lt_of_le_of_lt (Nat.le_add_right ..) opened.low
    have there : t.Open root ((p + k) * PGSIZE + o) := (strode.opened _).mpr opened
    have moved := maps.free
    refine ⟨g', maps.tables, maps.tree _ _ _ strode.known, maps.safe strode.safe.tail,
      strode.files.trans maps.files, fun va => ?_, ?_, ?_⟩
    · rw [← number] at maps
      exact (maps.open_iff there va).trans (strode.opened va)
    · rw [covered_snoc_open opened]
      exact strode.covers.union maps.covers low
    · rw [covered_snoc_open opened,
        strode.covers.need_union fun r member => low r (mem_union_right _ member), need_singleton]
      omega

theorem Turns.strode (turns : Turns root (va + sz) va s k q t) (tables : Tables g s)
    (known : g.tree root [] = some root) (safe : SafeFrom g s root (va / PGSIZE)) (solid : s.SolidFiles)
    (fits : va + sz ≤ MAXVA)
    (memory : s.need root (s.covered root (va % PGSIZE) (va / PGSIZE) k) ≤ s.freelist.length) :
    q = va + k * PGSIZE ∧ ∃ g', Strode root (va % PGSIZE) (va / PGSIZE) k s g' t := by
  unfold MAXVA at fits
  have inside : va % PGSIZE < PGSIZE := Nat.mod_lt _ (by decide)
  induction turns with
  | start => exact ⟨by rw [Nat.zero_mul, Nat.add_zero], g, .start tables known safe⟩
  | @turn k pa a t t' before more walked ih =>
    have fewer : s.covered root (va % PGSIZE) (va / PGSIZE) k ⊆
        s.covered root (va % PGSIZE) (va / PGSIZE) (k + 1) := by
      intro q member
      rw [mem_covered] at member ⊢
      exact ⟨by omega, member.2⟩
    obtain ⟨place, g', strode⟩ := ih ((need_mono fewer).trans memory)
    have address : (va / PGSIZE + k) * PGSIZE + va % PGSIZE = pa := by
      rw [place]
      unfold PGSIZE
      omega
    refine ⟨?_, strode.step inside solid memory (address.symm ▸ walked)⟩
    rw [place] at more ⊢
    unfold u64 PGSIZE at *
    omega

variable {a len : Nat} {refs : List VmaRef}

theorem Intersects.onward {n : Nat} (size : min (PGSIZE - a % PGSIZE) len = n)
    (behind : Intersects ((a / PGSIZE + 1) * PGSIZE) (len - n) p) : Intersects a len p := by
  obtain ⟨nonempty, first, last⟩ := behind
  have whole : n = PGSIZE - a % PGSIZE := by omega
  have start : a + n = (a / PGSIZE + 1) * PGSIZE := by
    rw [whole]
    unfold PGSIZE
    omega
  exact ⟨by omega, by omega, by omega⟩

theorem Intersects.head (nonempty : 0 < len) : Intersects a len (a / PGSIZE) := by
  refine ⟨nonempty, ?_, ?_⟩ <;> unfold PGSIZE <;> omega

theorem copyinLoop_stays {r : List UInt8 × Bool}
    (mapped : ∀ p, Intersects a len p → s.Open root (p * PGSIZE) → s.Present root (p * PGSIZE))
    (run : Returns (copyinLoop root fuel a len) s r t) : t = s := by
  induction fuel generalizing a len r with
  | zero => exact (returns_pure.mp run).2
  | succ fuel ih =>
    by_cases empty : len = 0
    · subst empty
      exact (copyinLoop_zero.unique run).2.symm
    · obtain ⟨page, s', walked, later⟩ := (returns_copyinLoop empty).mp run
      rw [pgrounddown_eq_mul] at walked
      rcases walkaddr_returns walked with ⟨-, rfl, rfl⟩ | ⟨opened, -, rfl, rfl⟩ | ⟨opened, absent, -⟩
      · exact later.2
      · obtain ⟨rest, loop, -⟩ := later
        rw [pgrounddown_eq_mul, next_page opened.low] at loop
        exact ih (fun p behind => mapped p (behind.onward rfl)) loop
      · exact absurd (mapped _ (.head (Nat.pos_of_ne_zero empty)) opened) absent

theorem copyoutLoop_stays {src : List UInt8} {r : Nat × Bool} (tables : Tables g s)
    (known : g.tree root [] = some root) (safe : SafeFrom g s root (a / PGSIZE))
    (mapped : ∀ p, Intersects a src.length p → s.Open root (p * PGSIZE) → s.Present root (p * PGSIZE))
    (run : Returns (copyoutLoop root fuel a src) s r t) :
    t.freelist = s.freelist ∧ ∀ va', t.entry root va' = s.entry root va' := by
  induction fuel generalizing s a src r with
  | zero =>
    obtain ⟨-, rfl⟩ := returns_pure.mp run
    exact ⟨rfl, fun _ => rfl⟩
  | succ fuel ih =>
    by_cases empty : src = []
    · subst empty
      obtain ⟨-, rfl⟩ := copyoutLoop_zero.unique run
      exact ⟨rfl, fun _ => rfl⟩
    · obtain ⟨page, s', walked, later⟩ := (returns_copyoutLoop empty).mp run
      rw [pgrounddown_eq_mul] at walked
      rcases walkaddr_returns walked with ⟨-, rfl, rfl⟩ | ⟨opened, present, rfl, rfl⟩ | ⟨opened, absent, -⟩
      · obtain ⟨-, rfl⟩ := later
        exact ⟨rfl, fun _ => rfl⟩
      · have data := safe _ (le_rfl) opened.low present (opened.user present).1
        generalize pte2pa (s'.entry root (a / PGSIZE * PGSIZE)) = page at data later
        obtain ⟨rest, loop, -⟩ := later
        rw [pgrounddown_eq_mul, next_page opened.low] at loop
        have next : (a / PGSIZE + 1) * PGSIZE / PGSIZE = a / PGSIZE + 1 := Nat.mul_div_cancel _ (by decide)
        have kept := ih (tables.store data) (next.symm ▸ safe.tail.store tables data known)
          (fun p behind opened => ?_) loop
        · refine ⟨kept.1, fun va' => ?_⟩
          rw [kept.2, tables.entry_store data known]
        · rw [tables.present_store data known]
          rw [tables.open_store data known] at opened
          rw [List.length_drop] at behind
          exact mapped p (behind.onward rfl) opened
      · exact absurd (mapped _ (.head (List.length_pos_iff.mpr empty)) opened) absent

theorem copies_stay (mapped : ∀ p, Intersects va sz p → (s.vmaAt (p * PGSIZE)).isSome → s.Present root (p * PGSIZE)) :
    CopiesStay root va sz s := by
  have part : ∀ {a len p}, va ≤ a → a + len ≤ va + sz → Intersects a len p → Intersects va sz p := by
    rintro a len p above below ⟨nonempty, first, last⟩
    exact ⟨by omega, by omega, by omega⟩
  refine ⟨fun a len r t above below run => ?_, fun g a src r t tables known safe above below run => ?_⟩
  · exact copyinLoop_stays (fun p here opened => mapped p (part above below here) opened.vma) run
  · refine copyoutLoop_stays tables known (fun q after => ?_)
      (fun p here opened => mapped p (part above below here) opened.vma) run
    exact safe q ((Nat.div_le_div_right above).trans after)

theorem vmaAt_isSome (list : s.vmas.refs s.current = .ok refs) :
    (s.vmaAt va).isSome ↔ ∃ r ∈ refs, (s.vmas.get r).Holds va := by
  unfold Sys.vmaAt
  rw [list]
  exact List.find?_isSome.trans (by simp)

theorem base_le {start : Nat} (aligned : start % PGSIZE = 0) (inside : o < PGSIZE) (low : start ≤ q * PGSIZE + o) :
    start ≤ q * PGSIZE := by
  have le : start / PGSIZE ≤ q := page_offset (p := q) inside ▸ Nat.div_le_div_right low
  calc
    start = start / PGSIZE * PGSIZE := (Nat.div_mul_cancel (Nat.dvd_of_mod_eq_zero aligned)).symm
    _ ≤ q * PGSIZE := Nat.mul_le_mul_right _ le

theorem vmaAt_base (list : s.vmas.refs s.current = .ok refs)
    (wf : WellFormed (s.vmas.regions refs)) (inside : o < PGSIZE) (here : (s.vmaAt (q * PGSIZE + o)).isSome) :
    (s.vmaAt (q * PGSIZE)).isSome := by
  rw [vmaAt_isSome list] at here ⊢
  obtain ⟨r, member, low, high⟩ := here
  have aligned : (s.vmas.get r).start % PGSIZE = 0 := (wf.placed _ (List.mem_map_of_mem member)).aligned
  exact ⟨r, member, base_le aligned inside low, Nat.lt_of_le_of_lt (Nat.le_add_right ..) high⟩

theorem Turns.few (turns : Turns root (va + sz) va s k q t) (fits : va + sz ≤ MAXVA) : k ≤ pagesOf sz := by
  unfold MAXVA at fits
  induction turns with
  | start => exact Nat.zero_le _
  | turn before more walked ih =>
    rw [before.index (by omega)] at more
    unfold u64 at more
    unfold pagesOf PGSIZE at *
    omega

theorem mem_asked (fits : va + sz ≤ MAXVA) (present : ¬s.Present root (q * PGSIZE)) :
    q ∈ s.covered root (va % PGSIZE) (va / PGSIZE) (pagesOf sz) ↔ va / PGSIZE ≤ q ∧
      q * PGSIZE + va % PGSIZE < va + sz ∧ (s.vmaAt (q * PGSIZE + va % PGSIZE)).isSome := by
  have inside : va % PGSIZE < PGSIZE := Nat.mod_lt _ (by decide)
  have absent : ¬s.Present root (q * PGSIZE + va % PGSIZE) := by
    rwa [← present_page, page_offset inside]
  have below : va / PGSIZE ≤ q → (q < va / PGSIZE + pagesOf sz ↔ q * PGSIZE + va % PGSIZE < va + sz) := by
    unfold pagesOf PGSIZE
    omega
  rw [mem_covered]
  constructor
  · rintro ⟨⟨first, last⟩, opened⟩
    exact ⟨first, (below first).mp last, opened.vma⟩
  · rintro ⟨first, last, vma⟩
    exact ⟨⟨first, (below first).mpr last⟩, last.trans_le fits, vma, fun present => absurd present absent⟩

theorem asked_subset (list : s.vmas.refs s.current = .ok refs) (wf : WellFormed (s.vmas.regions refs)) :
    s.covered root (va % PGSIZE) (va / PGSIZE) (pagesOf sz) ⊆ s.inVmas va sz := by
  intro q member
  obtain ⟨⟨first, last⟩, opened⟩ := mem_covered.mp member
  have inside : va % PGSIZE < PGSIZE := Nat.mod_lt _ (by decide)
  have meets : Intersects va sz q := by
    refine ⟨?_, ?_, ?_⟩ <;> unfold pagesOf PGSIZE at * <;> omega
  rw [Sys.inVmas, mem_filter, mem_range]
  refine ⟨?_, meets, vmaAt_base list wf inside opened.vma⟩
  have last := meets.last
  unfold pagesOf PGSIZE at *
  omega

/-- allocrange maps every page of its range that starts in a VMA. -/
theorem allocrange_covers_iff {refs : List VmaRef} (tables : Tables g s) (known : g.tree root [] = some root)
    (safe : SafeFrom g s root (va / PGSIZE)) (solid : s.SolidFiles)
    (list : s.vmas.refs s.current = .ok refs) (wf : WellFormed (s.vmas.regions refs))
    (fits : va + sz ≤ MAXVA) (enough : s.need root (s.inVmas va sz) ≤ s.freelist.length) :
    (s.FilesReady → s.spinlocks = 0 → ∃ s', Returns (allocrange root va sz) s () s') ∧
      ∀ s', Returns (allocrange root va sz) s () s' → (Prefilled root va sz s' ↔ s.Strides root va sz) := by
  have stop : u64 (va + sz) = va + sz := Nat.mod_eq_of_lt (fits.trans_lt (by decide))
  have memory : ∀ k ≤ pagesOf sz, s.need root (s.covered root (va % PGSIZE) (va / PGSIZE) k) ≤ s.freelist.length := by
    intro k le
    have fewer : s.covered root (va % PGSIZE) (va / PGSIZE) k ⊆
        s.covered root (va % PGSIZE) (va / PGSIZE) (pagesOf sz) := by
      intro q member
      rw [mem_covered] at member ⊢
      exact ⟨by omega, member.2⟩
    exact (need_mono (fewer.trans (asked_subset list wf))).trans enough
  constructor
  · intro ready idle
    have calm : Untroubled root va sz s := by
      intro k pa t turns more
      rw [stop] at turns
      obtain ⟨-, g', strode⟩ := turns.strode tables known safe solid fits (memory k (turns.few fits))
      rcases returns_or_fails (walkaddr root pa) t with walked | ⟨e, fails⟩
      · exact walked
      · obtain ⟨-, -, -, -, held, -⟩ := (fails_walkaddr strode.tables (strode.files.ready ready).around).mp fails
        exact absurd (strode.files.spinlocks.trans idle) held
    have ends : EndsWithin root va sz s (pagesOf sz) := by
      refine (endsWithin_iff calm (lt_of_le_of_lt (Nat.le_add_right va sz) (fits.trans_lt (by decide)))).mpr
        ⟨pagesOf sz, le_rfl, ?_⟩
      unfold MAXVA at fits
      unfold u64 pagesOf PGSIZE
      omega
    obtain ⟨k, le, pa, t, turns, done⟩ := ends
    refine ⟨t, returns_allocrangeLoop.mpr ⟨k, ?_, pa, turns, done⟩⟩
    unfold MAXVA at fits
    unfold pagesOf at le
    unfold PGSIZE at *
    omega
  · intro s' run
    unfold allocrange at run
    rw [stop] at run
    obtain ⟨k, -, pa, turns, done⟩ := returns_allocrangeLoop.mp run
    have le := turns.few fits
    obtain ⟨place, g', strode⟩ := turns.strode tables known safe solid fits (memory k le)
    obtain rfl : k = pagesOf sz := by
      unfold pagesOf PGSIZE at *
      omega
    have low : ∀ {p}, Intersects va sz p → p * PGSIZE < MAXVA := fun here => here.last.trans_le fits
    constructor
    · intro filled p here vma absent
      have now := filled.mapped p here (strode.covers.vmaAt _ ▸ vma)
      rw [strode.covers.present_iff (low here), or_iff_right absent, mem_asked fits absent] at now
      exact now.2
    · intro strides
      have mapped : ∀ p, Intersects va sz p → (s'.vmaAt (p * PGSIZE)).isSome → s'.Present root (p * PGSIZE) := by
        intro p here vma
        rw [strode.covers.vmaAt] at vma
        rw [strode.covers.present_iff (low here)]
        by_cases before : s.Present root (p * PGSIZE)
        · exact .inl before
        · obtain ⟨below, there⟩ := strides p here vma before
          refine .inr ((mem_asked fits before).mpr ⟨?_, below, there⟩)
          have first := here.first
          unfold PGSIZE at *
          omega
      exact ⟨mapped, copies_stay mapped⟩

theorem allocrange_covers_heap :
    ∃ s', Returns (allocrange emptyRoot PGSIZE 10) heapProcess () s' ∧ Prefilled emptyRoot PGSIZE 10 s' := by
  have run := returns_final (m := allocrange emptyRoot PGSIZE 10) (s := heapProcess) (a := ()) (by decide +kernel)
  have solid : heapProcess.SolidFiles := fun vma f i file _ => by
    rw [(heapProcess_vma vma).1] at file
    contradiction
  have list : heapProcess.vmas.refs heapProcess.current = .ok [.start 0, .slot 0] := by decide +kernel
  refine ⟨_, run, ((allocrange_covers_iff heapProcess_tables (single_tree _)
    (fun q _ _ present => absurd present single_absent) solid list
    (single_wellFormed ⟨by decide, by decide⟩ (by decide)) (by decide) (by decide +kernel)).2 _ run).mpr ?_⟩
  rintro p ⟨-, first, last⟩ - -
  obtain rfl : p = 1 := by
    unfold PGSIZE at *
    omega
  decide

def twoPages : Sys := .single { heapVma with length := 2 * PGSIZE } [0x87ff0, 0x87ff1, 0x87ff2, 0x87ff3]

/-- The two bytes around a page boundary: the stride leads past the second page, and the copy allocates it. -/
theorem allocrange_misses_page : WellFormed ([VmaRef.start 0, .slot 0].map fun r => (twoPages.vmas.get r).region) ∧
    twoPages.need emptyRoot (twoPages.inVmas (2 * PGSIZE - 1) 2) ≤ twoPages.freelist.length ∧
    ∃ s' t, Returns (allocrange emptyRoot (2 * PGSIZE - 1) 2) twoPages () s' ∧
      ¬Prefilled emptyRoot (2 * PGSIZE - 1) 2 s' ∧
      Returns (copyout emptyRoot (2 * PGSIZE - 1) [1, 2]) s' (2, true) t ∧ t.freelist.length < s'.freelist.length := by
  refine ⟨single_wellFormed ⟨by decide, by decide⟩ (by decide), by decide +kernel, _, _,
    returns_final (by decide +kernel), fun filled => ?_, returns_final (by decide +kernel), by decide +kernel⟩
  exact absurd (filled.mapped 2 (by decide) (by decide +kernel)) (by decide +kernel)

end Pages

end DeisoXv6
