import Mathlib.Algebra.Order.BigOperators.Group.List
import Mathlib.Algebra.Ring.Nat
import Mathlib.Data.Nat.Count

/-! A draw among candidates in a row, each with a number of tickets. Ticket `r` wins for the candidate whose tickets,
counted on from those of the candidates before, include it. Tickets beyond the last candidate are its own. -/

set_option autoImplicit false

namespace Weighted

open List

variable {α : Type*} (w : α → Nat)

def winner : List α → Nat → Option α
  | [], _ => none
  | x :: xs, r => if r < w x then some x else (winner xs (r - w x)).or (some x)

variable {w} {x : α} {xs pre post : List α} {r S : Nat}

theorem winner_of_lt (small : r < w x) : winner w (x :: xs) r = some x := if_pos small

theorem winner_add : winner w (x :: xs) (w x + r) = (winner w xs r).or (some x) := by
  rw [winner, if_neg (Nat.not_lt.mpr (Nat.le_add_right ..)), Nat.add_sub_cancel_left]

theorem winner_mem {y : α} (wins : winner w xs r = some y) : y ∈ xs := by
  induction xs generalizing r with
  | nil => exact nomatch wins
  | cons x xs ih =>
    unfold winner at wins
    split at wins
    · exact mem_cons.mpr (.inl (Option.some.inj wins).symm)
    · rcases Option.or_eq_some_iff.mp wins with later | ⟨-, here⟩
      · exact mem_cons_of_mem x (ih later)
      · exact mem_cons.mpr (.inl (Option.some.inj here).symm)

theorem exists_winner (more : xs ≠ []) : ∃ y, winner w xs r = some y := by
  cases xs with
  | nil => contradiction
  | cons x xs =>
    unfold winner
    split
    · exact ⟨x, rfl⟩
    · cases winner w xs (r - w x) with
      | none => exact ⟨x, rfl⟩
      | some y => exact ⟨y, rfl⟩

section Count

variable [DecidableEq α] {y : α}

theorem count_winner_cons (other : y ≠ x) (more : xs ≠ []) :
    Nat.count (fun r => winner w (y :: xs) r = some x) (w y + S) = Nat.count (fun r => winner w xs r = some x) S := by
  have own : Nat.count (fun r => winner w (y :: xs) r = some x) (w y) = 0 := by
    refine Nat.count_iff_forall_not.mpr fun r small wins => other ?_
    rw [winner_of_lt small] at wins
    exact Option.some.inj wins
  have rest (r : Nat) : winner w (y :: xs) (w y + r) = some x ↔ winner w xs r = some x := by
    obtain ⟨z, wins⟩ := exists_winner (w := w) (r := r) more
    rw [winner_add, wins, Option.some_or]
  rw [Nat.count_add, own, Nat.zero_add]
  simp only [rest]

theorem count_winner_first (new : x ∉ xs) :
    Nat.count (fun r => winner w (x :: xs) r = some x) (w x + S) = if xs = [] then w x + S else w x := by
  have own : Nat.count (fun r => winner w (x :: xs) r = some x) (w x) = w x :=
    Nat.count_iff_forall.mpr fun r small => winner_of_lt small
  rw [Nat.count_add, own]
  split
  · rename_i alone
    subst alone
    exact congrArg _ (Nat.count_iff_forall.mpr fun r _ => winner_add)
  · rename_i more
    refine congrArg _ (Nat.count_iff_forall_not.mpr fun r _ wins => new ?_)
    obtain ⟨z, later⟩ := exists_winner (w := w) (r := r) more
    rw [winner_add, later, Option.some_or] at wins
    exact winner_mem (later.trans wins)

/-- Every candidate wins with its own tickets; the last one also with those that nobody has. -/
theorem count_winner (distinct : (pre ++ x :: post).Nodup) (total : ((pre ++ x :: post).map w).sum ≤ S) :
    Nat.count (fun r => winner w (pre ++ x :: post) r = some x) S =
      if post = [] then w x + (S - ((pre ++ x :: post).map w).sum) else w x := by
  induction pre generalizing S with
  | nil =>
    rw [nil_append, map_cons, sum_cons] at total ⊢
    have new : x ∉ post := (nodup_cons.mp distinct).1
    obtain ⟨rest, rfl⟩ := Nat.exists_eq_add_of_le (Nat.le_trans (Nat.le_add_right ..) total)
    rw [count_winner_first new]
    split
    · rename_i alone
      rw [alone, map_nil, sum_nil, Nat.add_zero, Nat.add_sub_cancel_left]
    · rfl
  | cons y pre ih =>
    rw [cons_append, map_cons, sum_cons] at total ⊢
    rw [cons_append, nodup_cons] at distinct
    obtain ⟨rest, rfl⟩ := Nat.exists_eq_add_of_le (Nat.le_trans (Nat.le_add_right ..) total)
    have other : y ≠ x := fun same => distinct.1 (same ▸ mem_append_right _ mem_cons_self)
    rw [count_winner_cons other (append_ne_nil_of_right_ne_nil _ (cons_ne_nil _ _)),
      ih distinct.2 (Nat.le_of_add_le_add_left total), Nat.add_sub_add_left]

end Count

end Weighted
