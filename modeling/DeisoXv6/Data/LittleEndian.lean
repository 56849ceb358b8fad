import Mathlib.Tactic.Ring

/-! Little-endian words in a byte-addressed store.

A word of `n` bytes at `a` occupies the addresses from `a` up to `a + n`. Loads depend on those
bytes alone, so a store changes exactly the words that overlap it. -/

set_option autoImplicit false

namespace LittleEndian

def load : Nat → (Nat → UInt8) → Nat → Nat
  | 0, _, _ => 0
  | n + 1, bytes, a => (bytes a).toNat + 256 * load n bytes (a + 1)

def store (n : Nat) (bytes : Nat → UInt8) (a v : Nat) : Nat → UInt8 := fun x =>
  if a ≤ x ∧ x < a + n then UInt8.ofNat (v / 256 ^ (x - a)) else bytes x

theorem load_congr (n : Nat) (left right : Nat → UInt8) (a : Nat)
    (same : ∀ x, a ≤ x → x < a + n → left x = right x) : load n left a = load n right a := by
  induction n generalizing a with
  | zero => rfl
  | succ n ih =>
    have head : left a = right a := same a (Nat.le_refl a) (by omega)
    have rest := ih (a + 1) fun x low high => same x (by omega) (by omega)
    simp only [load, head, rest]

theorem load_zero (n a : Nat) : load n (fun _ => 0) a = 0 := by
  induction n generalizing a with
  | zero => rfl
  | succ n ih =>
    rw [load, ih]
    rfl

theorem load_digits (n : Nat) (bytes : Nat → UInt8) (a v : Nat)
    (digits : ∀ i, i < n → bytes (a + i) = UInt8.ofNat (v / 256 ^ i)) : load n bytes a = v % 256 ^ n := by
  induction n generalizing a v with
  | zero => simp [load, Nat.mod_one]
  | succ n ih =>
    have head : bytes a = UInt8.ofNat v := by simpa using digits 0 (by omega)
    have rest : load n bytes (a + 1) = v / 256 % 256 ^ n := by
      apply ih
      intro i bound
      have digit := digits (i + 1) (by omega)
      rw [Nat.pow_succ, Nat.mul_comm, ← Nat.div_div_eq_div_mul] at digit
      rw [← digit]
      congr 1
      omega
    have byte : (UInt8.ofNat v).toNat = v % 256 := by simp
    have width : 256 ^ (n + 1) = 256 * 256 ^ n := Nat.pow_succ'
    rw [load, head, rest, byte, width, Nat.mod_mul]

theorem load_store_same (n : Nat) (bytes : Nat → UInt8) (a v : Nat) : load n (store n bytes a v) a = v % 256 ^ n := by
  apply load_digits
  intro i bound
  have inside : a ≤ a + i ∧ a + i < a + n := by omega
  simp only [store, inside, and_self, if_true, Nat.add_sub_cancel_left]

theorem store_of_outside (n : Nat) (bytes : Nat → UInt8) (a v x : Nat)
    (outside : x < a ∨ a + n ≤ x) : store n bytes a v x = bytes x := by
  have apart : ¬ (a ≤ x ∧ x < a + n) := by omega
  simp only [store, apart, if_false]

theorem load_store_disjoint (m n : Nat) (bytes : Nat → UInt8) (a b v : Nat)
    (disjoint : a + m ≤ b ∨ b + n ≤ a) : load m (store n bytes b v) a = load m bytes a := by
  apply load_congr
  intro x low high
  exact store_of_outside n bytes b v x (by omega)

end LittleEndian
