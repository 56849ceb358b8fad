import Mathlib.Data.List.Basic

/-! Runs of a step function over states and events. A run is indexed by time, so that what happens between two
times can be stated and counted; a list of events that are all possible gives a run. -/

set_option autoImplicit false

namespace Semantics

variable {S E : Type}

structure Trace (step : S → E → Option S) (Start : S → Prop) where
  length : Nat
  state : Nat → S
  event : Nat → E
  start : Start (state 0)
  step : ∀ i, i < length → step (state i) (event i) = some (state (i + 1))

namespace Trace

variable {step : S → E → Option S} {Start : S → Prop}

theorem invariant (r : Trace step Start) {P : S → Prop} (initial : ∀ s, Start s → P s)
    (kept : ∀ i, i < r.length → P (r.state i) → P (r.state (i + 1))) {i : Nat} (within : i ≤ r.length) :
    P (r.state i) := by
  induction i with
  | zero => exact initial _ r.start
  | succ i ih => exact kept i within (ih (by omega))

/-- How many of the steps from time `s` to time `i` satisfy `p`. -/
def count (r : Trace step Start) (p : S → E → Bool) (s i : Nat) : Nat :=
  (List.range' s (i - s)).countP fun k => p (r.state k) (r.event k)

theorem count_self (r : Trace step Start) (p : S → E → Bool) (s : Nat) : r.count p s s = 0 := by
  simp [count]

theorem count_succ (r : Trace step Start) (p : S → E → Bool) {s i : Nat} (later : s ≤ i) :
    r.count p s (i + 1) = r.count p s i + if p (r.state i) (r.event i) then 1 else 0 := by
  have split : i + 1 - s = i - s + 1 := by omega
  have last : s + (i - s) = i := by omega
  rw [count, count, split, List.range'_concat, List.countP_append, Nat.one_mul, last]
  simp [List.countP_cons]

end Trace

section Events

variable (step : S → E → Option S)

def track (s : S) : List E → Nat → S
  | [], _ | _, 0 => s
  | e :: es, i + 1 => match step s e with
    | some next => track next es i
    | none => s

def possible (s : S) : List E → Bool
  | [] => true
  | e :: es => match step s e with
    | some next => possible next es
    | none => false

variable {step} {s : S} {es : List E}

theorem track_zero : track step s es 0 = s := by
  cases es <;> rfl

theorem track_step (runs : possible step s es = true) {i : Nat} {e : E} (event : es[i]? = some e) :
    step (track step s es i) e = some (track step s es (i + 1)) := by
  induction es generalizing s i with
  | nil => cases event
  | cons first es ih =>
    simp only [possible] at runs
    split at runs
    · rename_i next stepped
      cases i with
      | zero =>
        cases event
        simp [track, stepped, track_zero]
      | succ i =>
        simp only [track, stepped]
        exact ih runs event
    · contradiction

def Trace.ofEvents {Start : S → Prop} (s : S) (start : Start s) (es : List E) (spare : E)
    (runs : possible step s es = true) : Trace step Start where
  length := es.length
  state := track step s es
  event i := es.getD i spare
  start := by
    rw [track_zero]
    exact start
  step i within := by
    refine track_step runs ?_
    rw [List.getD_eq_getElem?_getD, List.getElem?_eq_getElem within]
    rfl

end Events

end Semantics
