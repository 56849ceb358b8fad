import DeisoXv6.Data.WeightedDraw
import DeisoXv6.Proc.Lottery

/-! The shares of the lottery: for how many of the numbers that can be drawn a process is selected.

The tickets of RUNNING processes are in the total and have no candidate, so they fall to the last one in the table. -/

set_option autoImplicit false

namespace DeisoXv6

open List Table

def Table.selected (t : Table) (r : Nat) : Option ProcId :=
  (drawLoop t (r + 1) (List.finRange NPROC) 0 ⟨none, false⟩).selected

/-- The number of residues of `total_tickets` for which the loop selects `p`. -/
def Table.wins (t : Table) (p : ProcId) : Nat :=
  ((Finset.range t.totalTickets.toNat).filter fun r => t.selected r = some p).card

def Table.runningTickets (t : Table) : Int :=
  ∑ p, if (t.proc p).state = .running then (t.proc p).tickets else 0

/-- The total is exact and an int, and nobody in it has less than MINTICKETS. -/
structure Table.FairTotal (t : Table) : Prop where
  funded : ∀ p, Counted (t.proc p).state → MINTICKETS ≤ (t.proc p).tickets
  total : t.totalTickets = t.exactTickets
  positive : 0 < t.totalTickets
  small : t.totalTickets < 2 ^ 31

structure Table.FairShares (t : Table) : Prop where
  target : ∀ random : UInt32, (draw t random).selected = t.selected (random.toNat % t.totalTickets.toNat)
  picks : ∀ r < t.totalTickets.toNat, (∃ p, (t.proc p).state = .runnable) → ∃ p, t.selected r = some p
  runnable : ∀ r < t.totalTickets.toNat, ∀ p, t.selected r = some p → (t.proc p).state = .runnable
  share : ∀ p, (t.proc p).state = .runnable → (∃ q, p < q ∧ (t.proc q).state = .runnable) →
    t.wins p = (t.proc p).tickets
  last : ∀ p, (t.proc p).state = .runnable → (∀ q, p < q → (t.proc q).state ≠ .runnable) →
    t.wins p = (t.proc p).tickets + t.runningTickets

section Shares

variable {t : Table} {p : ProcId}

def Table.weight (t : Table) (p : ProcId) : Nat := (t.proc p).tickets.toNat

def Table.candidates (t : Table) (ps : List ProcId) : List ProcId :=
  ps.filter fun p => (t.proc p).state = .runnable

theorem candidates_cons (ps : List ProcId) : t.candidates (p :: ps) =
    if (t.proc p).state = .runnable then p :: t.candidates ps else t.candidates ps := by
  simp [candidates, filter_cons]

theorem mem_candidates : p ∈ t.candidates (List.finRange NPROC) ↔ (t.proc p).state = .runnable := by
  simp [candidates]

namespace Table.FairTotal

variable (fair : t.FairTotal)

include fair

theorem weight_eq (runnable : (t.proc p).state = .runnable) : (t.weight p : Int) = (t.proc p).tickets := by
  have := fair.funded p (.inr runnable)
  unfold MINTICKETS at this
  exact Int.toNat_of_nonneg (by omega)

theorem runnableTickets_eq (ps : List ProcId) :
    t.runnableTickets ps = (((t.candidates ps).map t.weight).sum : Nat) := by
  induction ps with
  | nil => rfl
  | cons p ps ih =>
    rw [runnableTickets_cons, ih, candidates_cons]
    split
    · rename_i runnable
      rw [map_cons, sum_cons, Nat.cast_add, fair.weight_eq runnable]
    · rw [zero_add]

theorem drawLoop_selected (ps : List ProcId) (cum r : Nat) (d : Draw) (fits : cum + t.runnableTickets ps < 2 ^ 31) :
    (drawLoop t (cum + r + 1) ps cum d).selected = (Weighted.winner t.weight (t.candidates ps) r).or d.selected := by
  induction ps generalizing cum r d with
  | nil => exact (Option.none_or).symm
  | cons p ps ih =>
    rw [runnableTickets_cons] at fits
    rw [drawLoop, candidates_cons]
    split
    · rename_i runnable
      have weight := fair.weight_eq runnable
      have rest := fair.runnableTickets_eq ps
      rw [if_pos runnable] at fits
      have sum : int (cum + (t.proc p).tickets) = (cum + t.weight p : Nat) := by
        rw [← weight]
        exact int_of_range (by omega) (by unfold INTMAX; omega)
      dsimp only
      rw [sum]
      by_cases met : r < t.weight p
      · rw [if_pos (by omega), Weighted.winner_of_lt met, Option.some_or]
      · obtain ⟨r, rfl⟩ := Nat.exists_eq_add_of_le (Nat.le_of_not_lt met)
        rw [if_neg (by omega), Weighted.winner_add]
        have shifted : ((cum + (t.weight p + r) : Nat) : Int) = ((cum + t.weight p + r : Nat) : Int) := by omega
        rw [← Nat.cast_add, shifted, Nat.cast_add _ r, ih (cum + t.weight p) r _ (by omega)]
        rw [Option.or_assoc, Option.some_or]
    · rename_i other
      rw [if_neg other, zero_add] at fits
      exact ih cum r d fits

theorem total_eq : t.totalTickets = t.runnableTickets (List.finRange NPROC) + t.runningTickets := by
  rw [fair.total, runnableTickets, ← ofFn_eq_map, sum_ofFn, runningTickets, ← Finset.sum_add_distrib]
  refine Finset.sum_congr rfl fun p _ => ?_
  unfold share Counted
  cases (t.proc p).state <;> simp

theorem runningTickets_nonneg : 0 ≤ t.runningTickets := by
  refine Finset.sum_nonneg fun p _ => ?_
  split
  · have := fair.funded p (.inl ‹_›)
    unfold MINTICKETS at this
    omega
  · exact Int.le_refl 0

theorem selected_eq (r : Nat) : t.selected r = Weighted.winner t.weight (t.candidates (List.finRange NPROC)) r := by
  have total := fair.total_eq
  have running := fair.runningTickets_nonneg
  have small := fair.small
  have drawn := fair.drawLoop_selected (List.finRange NPROC) 0 r ⟨none, false⟩ (by omega)
  rwa [Option.or_none, Nat.cast_zero, zero_add] at drawn

theorem draw_selected (random : UInt32) :
    (draw t random).selected = t.selected (random.toNat % t.totalTickets.toNat) := by
  have positive := fair.positive
  have small := fair.small
  have total : (t.totalTickets.toNat : Int) = t.totalTickets := Int.toNat_of_nonneg positive.le
  have below := Nat.mod_lt random.toNat (show t.totalTickets.toNat > 0 by omega)
  have residue : (random.toNat : Int) % t.totalTickets = (random.toNat % t.totalTickets.toNat : Nat) := by
    rw [Int.natCast_emod, total]
  have target : targetTickets t random = (random.toNat % t.totalTickets.toNat : Nat) + 1 := by
    unfold targetTickets uint
    rw [residue]
    generalize random.toNat % t.totalTickets.toNat = r at below ⊢
    rw [Int.emod_eq_of_lt (by omega) (by omega)]
    rw [int_of_range (x := r + 1) (by omega) (by unfold INTMAX; omega)]
  unfold draw selected
  rw [target]

theorem wins_eq (runnable : (t.proc p).state = .runnable) : (t.wins p : Int) = (t.proc p).tickets +
    if ∃ q, p < q ∧ (t.proc q).state = .runnable then 0 else t.runningTickets := by
  obtain ⟨pre, post, split⟩ := append_of_mem (mem_candidates.mpr runnable)
  have sorted : (t.candidates (List.finRange NPROC)).Pairwise (· < ·) :=
    (pairwise_lt_finRange NPROC).sublist filter_sublist
  have distinct : (pre ++ p :: post).Nodup := by
    rw [← split]
    exact sorted.imp fun less => Fin.ne_of_lt less
  have total := fair.total_eq
  have nonneg := fair.runningTickets_nonneg
  rw [fair.runnableTickets_eq, split] at total
  have counted := Weighted.count_winner distinct (S := t.totalTickets.toNat) (w := t.weight) (by omega)
  have alone : post = [] ↔ ¬∃ q, p < q ∧ (t.proc q).state = .runnable := by
    rw [split, pairwise_append, pairwise_cons] at sorted
    rw [eq_nil_iff_forall_not_mem, not_exists]
    refine forall_congr' fun q => not_congr ⟨fun behind => ?_, fun ⟨later, other⟩ => ?_⟩
    · exact ⟨sorted.2.1.1 q behind, mem_candidates.mp (split ▸ mem_append_right _ (.tail _ behind))⟩
    · rcases mem_append.mp (split ▸ mem_candidates.mpr other) with ahead | here
      · exact absurd (sorted.2.2 q ahead p mem_cons_self) (Fin.lt_asymm later)
      · exact (mem_cons.mp here).resolve_left (Fin.ne_of_gt later)
  unfold wins
  rw [← Nat.count_eq_card_filter_range]
  simp only [fair.selected_eq, split]
  rw [counted, ← fair.weight_eq runnable]
  by_cases last : post = []
  · rw [if_pos last, if_neg (alone.mp last)]
    omega
  · rw [if_neg last, if_pos (not_not.mp (mt alone.mpr last))]
    omega

end Table.FairTotal

end Shares

end DeisoXv6
