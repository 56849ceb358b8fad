import Mathlib.Data.List.GetD
import Mathlib.Tactic.Common

/-! Ranges of a byte-addressed store as lists. -/

set_option autoImplicit false

namespace Bytes

open List

variable {f : Nat → UInt8} {a n x : Nat} {l : List UInt8}

/-- The `n` bytes from `a` on. -/
def slice (f : Nat → UInt8) (a n : Nat) : List UInt8 := (List.range n).map fun k => f (a + k)

/-- The store with `l` written at `a`. -/
def overlay (f : Nat → UInt8) (a : Nat) (l : List UInt8) : Nat → UInt8 := fun x =>
  if a ≤ x ∧ x < a + l.length then l.getD (x - a) 0 else f x

@[simp] theorem length_slice : (slice f a n).length = n := by simp [slice]

theorem getD_slice (inside : x < n) : (slice f a n).getD x 0 = f (a + x) := by
  simp [slice, getD_eq_getElem?_getD, inside]

theorem overlay_outside (outside : x < a ∨ a + l.length ≤ x) : overlay f a l x = f x := by
  unfold overlay
  rw [if_neg (by omega)]

theorem overlay_slice {g : Nat → UInt8} {b : Nat} (low : a ≤ x) (high : x < a + n) :
    overlay f a (slice g b n) x = g (b + (x - a)) := by
  unfold overlay
  rw [length_slice, if_pos ⟨low, high⟩, getD_slice (by omega)]

@[simp] theorem overlay_nil : overlay f a [] = f := by
  funext x
  exact overlay_outside (by simp; omega)

theorem overlay_replicate {b : UInt8} :
    overlay f a (List.replicate n b) x = if a ≤ x ∧ x < a + n then b else f x := by
  unfold overlay
  rw [length_replicate]
  by_cases here : a ≤ x ∧ x < a + n
  · rw [if_pos here, if_pos here, getD_eq_getElem _ _ (by rw [length_replicate]; omega), getElem_replicate]
  · rw [if_neg here, if_neg here]

theorem overlay_singleton {b : UInt8} : overlay f a [b] x = if x = a then b else f x := by
  by_cases here : x = a
  · subst here
    rw [if_pos rfl]
    unfold overlay
    simp
  · rw [if_neg here, overlay_outside]
    rw [length_singleton]
    omega

theorem slice_succ : slice f a (n + 1) = f a :: slice f (a + 1) n := by
  unfold slice
  rw [range_succ_eq_map, map_cons, map_map]
  refine congrArg _ (map_congr_left fun k _ => ?_)
  rw [Function.comp_apply, Nat.add_assoc, Nat.add_comm 1]

theorem mem_slice {x : UInt8} : x ∈ slice f a n ↔ ∃ j < n, f (a + j) = x := by simp [slice]

/-- What is read up to a null byte: all of it, or what is before the null byte. -/
theorem takeWhile_slice {read : List UInt8} (text : (slice f a n).takeWhile (· ≠ 0) = read) :
    0 ∉ read ∧ (read.length < n ∧ slice f a (read.length + 1) = read ++ [0] ∨ slice f a n = read) := by
  induction n generalizing a read with
  | zero =>
    subst text
    exact ⟨not_mem_nil, .inr rfl⟩
  | succ n ih =>
    rw [slice_succ, takeWhile_cons] at text
    subst text
    by_cases null : f a = 0
    · rw [if_neg (by simpa using null)]
      refine ⟨not_mem_nil, .inl ⟨Nat.succ_pos n, ?_⟩⟩
      rw [length_nil, slice_succ, null]
      rfl
    · obtain ⟨clean, rest⟩ := ih (a := a + 1) rfl
      rw [if_pos (by simpa using null), length_cons, slice_succ (n := n)]
      refine ⟨?_, rest.imp (fun ⟨ends, found⟩ => ⟨Nat.succ_lt_succ ends, ?_⟩) (congrArg (f a :: ·))⟩
      · exact not_mem_cons_of_ne_of_not_mem (Ne.symm null) clean
      · rw [slice_succ, found]
        rfl

theorem slice_add {m : Nat} : slice f a (m + n) = slice f a m ++ slice f (a + m) n := by
  unfold slice
  rw [range_add, map_append, map_map]
  refine congrArg _ (map_congr_left fun k _ => ?_)
  rw [Function.comp_apply, Nat.add_assoc]

theorem overlay_append {l' : List UInt8} : overlay (overlay f a l) (a + l.length) l' = overlay f a (l ++ l') := by
  funext x
  unfold overlay
  rw [length_append]
  by_cases second : a + l.length ≤ x ∧ x < a + l.length + l'.length
  · rw [if_pos second, if_pos (by omega), getD_append_right _ _ _ _ (by omega), Nat.sub_sub]
  · rw [if_neg second]
    by_cases first : a ≤ x ∧ x < a + l.length
    · rw [if_pos first, if_pos (by omega), getD_append _ _ _ _ (by omega)]
    · rw [if_neg first, if_neg (by omega)]

end Bytes
