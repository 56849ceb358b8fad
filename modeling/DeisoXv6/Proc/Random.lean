import DeisoXv6.Proc.Table
import Mathlib.Data.UInt
import Mathlib.Tactic.NormNum.GCD

/-! The generator behind the lottery. Schrage's division keeps the product of the Lehmer recurrence within a word:
with the modulus `n = g * (n / g) + n % g`, the product `g * s` is `rem * g - div * (n % g)` up to multiples of `n`. -/

set_option autoImplicit false

namespace DeisoXv6

/-- The states of the generator. -/
def Lehmer (s : UInt32) : Prop := 1 ≤ s.toNat ∧ s.toNat ≤ 2 ^ 31 - 2

/-- What lcg_parkmiller computes on its way, in exact arithmetic. -/
def lcgIntermediates (state : Int) : List Int :=
  let n := 0x7fffffff
  let g := 48271
  let div := state / (n / g)
  let rem := state % (n / g)
  let a := rem * g
  let b := div * (n % g)
  [n / g, n % g, div, rem, a, b] ++ if a > b then [a - b] else [n - b, a + (n - b)]

/-- The value returned, and the seed left. -/
def nextRandom (seed : UInt32) : UInt32 × UInt32 := (lcgParkmiller seed, lcgParkmiller seed)

/-- The values of `calls` calls in a row. -/
def randoms : (calls : Nat) → (seed : UInt32) → List UInt32
  | 0, _ => []
  | calls + 1, seed => (nextRandom seed).1 :: randoms calls (nextRandom seed).2

variable {s : UInt32}

theorem product_inj {s t : Nat} (below : s < 0x7fffffff) (below' : t < 0x7fffffff)
    (same : 48271 * s % 0x7fffffff = 48271 * t % 0x7fffffff) : s = t :=
  -- the multiplier has no factor in common with the modulus
  (Nat.ModEq.cancel_left_of_coprime (by norm_num) same).eq_of_lt_of_lt below below'

theorem product_pos {s : Nat} (positive : 1 ≤ s) (below : s < 0x7fffffff) : 0 < 48271 * s % 0x7fffffff := by
  refine Nat.pos_of_ne_zero fun zero => ?_
  have := product_inj below (t := 0) (by decide) (by rw [zero])
  omega

theorem lcgParkmiller_toNat (lehmer : Lehmer s) : (lcgParkmiller s).toNat = 48271 * s.toNat % 0x7fffffff := by
  obtain ⟨positive, small⟩ := lehmer
  have nonzero := product_pos positive (by omega)
  have quotient : (0x7fffffff : UInt32) / 48271 = 44488 := by decide
  have remainder : (0x7fffffff : UInt32) % 48271 = 3399 := by decide
  have a : (s % 44488 * 48271).toNat = s.toNat % 44488 * 48271 := by
    rw [UInt32.toNat_mul, UInt32.toNat_mod]
    exact Nat.mod_eq_of_lt (by simp; omega)
  have b : (s / 44488 * 3399).toNat = s.toNat / 44488 * 3399 := by
    rw [UInt32.toNat_mul, UInt32.toNat_div]
    exact Nat.mod_eq_of_lt (by simp; omega)
  simp only [lcgParkmiller, quotient, remainder, gt_iff_lt, UInt32.lt_iff_toNat_lt]
  split_ifs with more
  · rw [UInt32.toNat_sub_of_le _ _ (UInt32.le_iff_toNat_le.mpr more.le)]
    omega
  · have inside : s / 44488 * 3399 ≤ 0x7fffffff := UInt32.le_iff_toNat_le.mpr (by rw [b]; simp; omega)
    have modulus : (0x7fffffff : UInt32).toNat = 0x7fffffff := rfl
    rw [UInt32.toNat_add, UInt32.toNat_sub_of_le _ _ inside, modulus, Nat.mod_eq_of_lt (by omega)]
    omega

theorem lcgIntermediates_fit (lehmer : Lehmer s) : ∀ x ∈ lcgIntermediates s.toNat, 0 ≤ x ∧ x < 2 ^ 32 := by
  obtain ⟨positive, small⟩ := lehmer
  intro x mem
  simp only [lcgIntermediates] at mem
  split_ifs at mem with more <;> simp at mem <;> omega

theorem Lehmer.next (lehmer : Lehmer s) : Lehmer (lcgParkmiller s) := by
  obtain ⟨positive, small⟩ := lehmer
  have nonzero := product_pos positive (by omega)
  unfold Lehmer
  rw [lcgParkmiller_toNat ⟨positive, small⟩]
  omega

/-- The scheduler leaves a state of the generator for the next draw. -/
theorem Lehmer.pick {t : Table} (lehmer : Lehmer t.randomSeed) : Lehmer t.pick.2.randomSeed := by
  unfold Table.pick
  split
  · exact lehmer
  · exact lehmer.next

theorem Lehmer.randoms (lehmer : Lehmer s) (calls : Nat) : ∀ x ∈ randoms calls s, Lehmer x := by
  induction calls generalizing s with
  | zero => exact fun _ mem => nomatch mem
  | succ calls ih => exact List.forall_mem_cons.mpr ⟨lehmer.next, ih lehmer.next⟩

/-- Each state gives the next of the Lehmer recurrence, with no value on the way out of 32 bits; from seed 1 no call
yields 0 or 2^31 - 1. -/
theorem lehmer_recurrence :
    (∀ s, Lehmer s → (lcgParkmiller s).toNat = 48271 * s.toNat % (2 ^ 31 - 1) ∧ (nextRandom s).2 = lcgParkmiller s ∧
      (∀ x ∈ lcgIntermediates s.toNat, 0 ≤ x ∧ x < 2 ^ 32) ∧ Lehmer (lcgParkmiller s) ∧
      ∀ t, Lehmer t → lcgParkmiller s = lcgParkmiller t → s = t) ∧
    ∀ calls, ∀ x ∈ randoms calls 1, x ≠ 0 ∧ x ≠ 2 ^ 31 - 1 := by
  refine ⟨?_, ?_⟩
  · intro s lehmer
    refine ⟨lcgParkmiller_toNat lehmer, rfl, lcgIntermediates_fit lehmer, lehmer.next, ?_⟩
    intro t lehmer' same
    have products := congrArg UInt32.toNat same
    rw [lcgParkmiller_toNat lehmer, lcgParkmiller_toNat lehmer'] at products
    obtain ⟨-, small⟩ := lehmer
    obtain ⟨-, small'⟩ := lehmer'
    exact UInt32.toNat_inj.mp (product_inj (by omega) (by omega) products)
  · intro calls x mem
    obtain ⟨positive, small⟩ := Lehmer.randoms ⟨by decide, by decide⟩ calls x mem
    constructor
    · rintro rfl
      exact absurd positive (by decide)
    · rintro rfl
      exact absurd small (by decide)

theorem lehmer_recurrence_one : Lehmer 1 ∧ (lcgParkmiller 1).toNat = 48271 :=
  ⟨⟨by decide, by decide⟩, (lehmer_recurrence.1 1 ⟨by decide, by decide⟩).1⟩

end DeisoXv6
