import Mathlib.Data.List.Nodup

/-! Singly linked lists threaded through an arena of cells.

A list is a chain of `next` fields that ends in the null pointer. A traversal follows the fields for
as many cells as it is given, so it finds exactly the chains of at most that length. -/

set_option autoImplicit false

namespace LinkedList

open List Function

variable {I : Type}

/-- The cells reached from a pointer, in order, up to the null pointer. -/
def Linked (next : I → Option I) : Option I → List I → Prop
  | head, [] => head = none
  | head, i :: l => head = some i ∧ Linked next (next i) l

def follow (next : I → Option I) : Nat → Option I → Option (List I)
  | _, none => some []
  | 0, some _ => none
  | n + 1, some i => (follow next n (next i)).map (i :: ·)

variable {next : I → Option I} {head : Option I} {i j : I} {l l' : List I} {n : Nat}

theorem follow_eq_some : follow next n head = some l ↔ Linked next head l ∧ l.length ≤ n := by
  induction n generalizing head l with
  | zero => cases head <;> cases l <;> simp [follow, Linked]
  | succ n ih =>
    cases head with
    | none => cases l <;> simp [follow, Linked]
    | some i =>
      cases l with
      | nil => simp [follow, Linked]
      | cons j l =>
        simp only [follow, Linked, Option.map_eq_some_iff, ih, length_cons]
        constructor
        · rintro ⟨_, ⟨linked, short⟩, same⟩
          cases same
          exact ⟨⟨rfl, linked⟩, by omega⟩
        · rintro ⟨⟨same, linked⟩, short⟩
          cases same
          exact ⟨l, ⟨linked, by omega⟩, rfl⟩

theorem Linked.follow (linked : Linked next head l) (short : l.length ≤ n) :
    follow next n head = some l := follow_eq_some.mpr ⟨linked, short⟩

theorem Linked.unique (first : Linked next head l) (second : Linked next head l') : l = l' := by
  induction l generalizing head l' with
  | nil =>
    cases first
    cases l' with
    | nil => rfl
    | cons => exact absurd second.1 (by simp)
  | cons i l ih =>
    obtain ⟨rfl, rest⟩ := first
    cases l' with
    | nil => exact absurd second (by simp [Linked])
    | cons j l' =>
      obtain ⟨same, rest'⟩ := second
      cases same
      rw [ih rest rest']

theorem Linked.append (linked : Linked next head (l ++ i :: l')) : Linked next (some i) (i :: l') := by
  induction l generalizing head with
  | nil => exact ⟨rfl, linked.2⟩
  | cons j l ih => exact ih linked.2

theorem Linked.nodup (linked : Linked next head l) : l.Nodup := by
  induction l generalizing head with
  | nil => exact nodup_nil
  | cons i l ih =>
    refine nodup_cons.mpr ⟨fun again => ?_, ih linked.2⟩
    obtain ⟨front, back, rfl⟩ := append_of_mem again
    have once : Linked next (some i) (i :: (front ++ i :: back)) := ⟨rfl, linked.2⟩
    have same := congrArg List.length (once.unique linked.2.append)
    simp only [length_cons, length_append] at same
    omega

theorem Linked.congr {next' : I → Option I} (linked : Linked next head l)
    (same : ∀ i ∈ l, next' i = next i) : Linked next' head l := by
  induction l generalizing head with
  | nil => exact linked
  | cons i l ih =>
    refine ⟨linked.1, ?_⟩
    rw [same i (by simp)]
    exact ih linked.2 fun j member => same j (by simp [member])

variable [DecidableEq I]

theorem Linked.insert (linked : Linked next head (l ++ i :: l')) (fresh : j ∉ l ++ i :: l') :
    Linked (update (update next j (next i)) i (some j)) head (l ++ i :: j :: l') := by
  have once := linked.nodup
  have other : j ≠ i := by
    rintro rfl
    simp at fresh
  induction l generalizing head with
  | nil =>
    refine ⟨linked.1, update_self .., ?_⟩
    rw [update_of_ne other, update_self]
    refine linked.2.congr fun x member => ?_
    have first : x ≠ i := fun same => (nodup_cons.mp once).1 (same ▸ member)
    have second : x ≠ j := fun same => fresh (by simp [← same, member])
    rw [update_of_ne first, update_of_ne second]
  | cons x l ih =>
    have first : x ≠ i := by
      rintro rfl
      simp at once
    have second : x ≠ j := by
      rintro rfl
      simp at fresh
    refine ⟨linked.1, ?_⟩
    rw [update_of_ne first, update_of_ne second]
    exact ih linked.2 (fun member => fresh (by simp [member])) (nodup_cons.mp once).2

theorem Linked.unlink (linked : Linked next head (l ++ i :: j :: l')) :
    Linked (update next i (next j)) head (l ++ i :: l') := by
  have once := linked.nodup
  induction l generalizing head with
  | nil =>
    refine ⟨linked.1, ?_⟩
    rw [update_self]
    refine linked.2.2.congr fun x member => update_of_ne ?_ ..
    rintro rfl
    simp [member] at once
  | cons x l ih =>
    have other : x ≠ i := by
      rintro rfl
      simp at once
    refine ⟨linked.1, ?_⟩
    rw [update_of_ne other]
    exact ih linked.2 (nodup_cons.mp once).2

theorem Linked.snoc (linked : Linked next head (l ++ [i])) (fresh : j ∉ l ++ [i]) :
    Linked (update (update next j none) i (some j)) head (l ++ [i, j]) := by
  have last : next i = none := linked.append.2
  rw [← last]
  exact linked.insert fresh

end LinkedList
