import DeisoXv6.Vm.Vma
import Mathlib.Data.List.Chain

/-! Well-formed VMA lists: page-aligned, page-disjoint and in descending order below the reserved
VMA. Only the region that a VMA covers counts; the lemmas say which changes of one region a list
survives. -/

set_option autoImplicit false

namespace DeisoXv6

open List

@[ext] structure Region where
  start : Nat
  length : Nat

def Vma.region (v : Vma) : Region := ⟨v.start, v.length⟩

/-- An address rounded up to a page, without the reduction modulo 2^64. -/
def pageUp (a : Nat) : Nat := (a + (PGSIZE - 1)) / PGSIZE * PGSIZE

structure Region.Placed (r : Region) : Prop where
  aligned : r.start % PGSIZE = 0
  inside : r.start + r.length < 2 ^ 64

def Region.pageEnd (r : Region) : Nat := pageUp (r.start + r.length)

/-- `b` comes after `a` in a list: it lies below it, on other pages. -/
def Below (a b : Region) : Prop := b.pageEnd ≤ a.start

/-- Where the reserved VMA of the trapframe and the trampoline starts. -/
def RESERVED : Nat := MAXVA - 2 * PGSIZE

structure WellFormed (rs : List Region) : Prop where
  reserved : rs.head?.map Region.start = some RESERVED
  placed : ∀ r ∈ rs, r.Placed
  below : rs.IsChain Below

section Arithmetic

variable {r : Region} {v : Vma} {x y : Nat}

theorem sub64_eq (le : y ≤ x) (small : x < 2 ^ 64) : sub64 x y = x - y := by
  unfold sub64 u64
  omega

theorem le_pageUp (x : Nat) : x ≤ pageUp x := by
  unfold pageUp PGSIZE
  omega

theorem pageUp_le (aligned : y % PGSIZE = 0) (le : x ≤ y) : pageUp x ≤ y := by
  unfold PGSIZE at aligned
  unfold pageUp PGSIZE
  omega

theorem pageUp_mono (le : x ≤ y) : pageUp x ≤ pageUp y := by
  unfold pageUp PGSIZE
  omega

theorem pgroundup_eq (small : x ≤ 2 ^ 64 - PGSIZE) : pgroundup x = pageUp x := by
  unfold PGSIZE at small
  unfold pgroundup pgrounddown u64 pageUp PGSIZE
  omega

theorem pgrounddown_eq (aligned : x % PGSIZE = 0) : pgrounddown x = x := by
  unfold pgrounddown
  omega

theorem Vma.stop_eq (placed : v.region.Placed) : v.stop = v.start + v.length :=
  Nat.mod_eq_of_lt placed.inside

theorem Region.start_le_pageEnd : r.start ≤ r.pageEnd :=
  (Nat.le_add_right ..).trans (le_pageUp _)

theorem Region.end_le_pageEnd : r.start + r.length ≤ r.pageEnd := le_pageUp _

end Arithmetic

instance : Trans Below Below Below :=
  ⟨fun first second => second.trans (Region.start_le_pageEnd.trans first)⟩

namespace WellFormed

variable {rs pre post : List Region} {a b r r' : Region}

theorem head_start (wf : WellFormed (a :: post)) : a.start = RESERVED := by
  simpa using wf.reserved

theorem pairwise (wf : WellFormed rs) : rs.Pairwise Below := isChain_iff_pairwise.mp wf.below

theorem last_below (wf : WellFormed (pre ++ a :: b :: post)) : Below a b :=
  (isChain_append_cons_cons.mp wf.below).2.1

theorem start_le (wf : WellFormed rs) : ∀ r ∈ rs, r.start ≤ RESERVED := by
  obtain ⟨reserved, -, below⟩ := wf
  have chain : ∀ (l : List Region) (a : Region), a.start ≤ RESERVED → (a :: l).IsChain Below →
      ∀ r ∈ a :: l, r.start ≤ RESERVED := by
    intro l
    induction l with
    | nil => simp
    | cons b l ih =>
      intro a first below r member
      rw [isChain_cons_cons] at below
      rcases mem_cons.mp member with rfl | later
      · exact first
      · exact ih b (Region.start_le_pageEnd.trans (below.1.trans first)) below.2 r later
  cases rs with
  | nil => simp
  | cons a l =>
    have first : a.start = RESERVED := by simpa using reserved
    exact chain l a first.le below

theorem insert (wf : WellFormed (pre ++ a :: b :: post)) (placed : r.Placed) (under : Below a r)
    (beyond : Below r b) : WellFormed (pre ++ a :: r :: b :: post) := by
  obtain ⟨front, -, back⟩ := isChain_append_cons_cons.mp wf.below
  refine ⟨?_, fun x member => ?_, ?_⟩
  · rw [← wf.reserved]
    cases pre <;> rfl
  · have cases : x = r ∨ x ∈ pre ++ a :: b :: post := by
      simp only [mem_append, mem_cons] at member ⊢
      tauto
    rcases cases with rfl | old
    · exact placed
    · exact wf.placed x old
  · exact isChain_append_cons_cons.mpr ⟨front, under, isChain_cons_cons.mpr ⟨beyond, back⟩⟩

theorem inserted (wf : WellFormed (pre ++ a :: r :: b :: post)) : r.Placed ∧ Below a r ∧ Below r b := by
  obtain ⟨-, under, rest⟩ := isChain_append_cons_cons.mp wf.below
  exact ⟨wf.placed r (by simp), under, (isChain_cons_cons.mp rest).1⟩

theorem remove (wf : WellFormed (pre ++ a :: r :: post)) : WellFormed (pre ++ a :: post) := by
  obtain ⟨front, under, back⟩ := isChain_append_cons_cons.mp wf.below
  refine ⟨?_, fun x member => wf.placed x ?_, ?_⟩
  · rw [← wf.reserved]
    cases pre <;> rfl
  · simp only [mem_append, mem_cons] at member ⊢
    tauto
  · cases post with
    | nil => exact front
    | cons b post =>
      rw [isChain_cons_cons] at back
      have skip : Below a b := back.1.trans (Region.start_le_pageEnd.trans under)
      exact isChain_append_cons_cons.mpr ⟨front, skip, back.2⟩

/-- A region may move or change size between its neighbours, and the first one may not move. -/
theorem replace_iff (wf : WellFormed (pre ++ r :: post)) : WellFormed (pre ++ r' :: post) ↔
    (pre = [] → r'.start = r.start) ∧ r'.Placed ∧ (∀ a ∈ pre.getLast?, Below a r') ∧
      ∀ b ∈ post.head?, Below r' b := by
  constructor
  · intro changed
    obtain ⟨-, rest, join⟩ := isChain_append.mp changed.below
    refine ⟨?_, changed.placed r' (by simp), by simpa using join, (isChain_cons.mp rest).1⟩
    rintro rfl
    exact changed.head_start.trans wf.head_start.symm
  · rintro ⟨first, placed, under, beyond⟩
    obtain ⟨front, rest, -⟩ := isChain_append.mp wf.below
    refine ⟨?_, fun x member => ?_, ?_⟩
    · rw [← wf.reserved]
      cases pre with
      | nil => simp [first rfl]
      | cons => rfl
    · have cases : x = r' ∨ x ∈ pre ++ r :: post := by
        simp only [mem_append, mem_cons] at member ⊢
        tauto
      rcases cases with rfl | old
      · exact placed
      · exact wf.placed x old
    · refine isChain_append.mpr ⟨front, isChain_cons.mpr ⟨beyond, ?_⟩, ?_⟩
      · exact (isChain_cons.mp rest).2
      · simpa using under

end WellFormed

end DeisoXv6
