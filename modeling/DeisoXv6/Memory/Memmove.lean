import Mathlib.Algebra.Ring.Nat
import Mathlib.Tactic.Common

/-! memmove, in the kernel and in the user library. Both copy upwards or downwards, and choose by different tests
the direction that reads each source byte before it is overwritten. -/

set_option autoImplicit false

namespace DeisoXv6

open Function

abbrev Address := BitVec 64

abbrev Memory := Address → UInt8

/-- `while(n-- > 0) *d++ = *s++` -/
def copyUp : Nat → Memory → (d s : Address) → Memory
  | 0, mem, _, _ => mem
  | n + 1, mem, d, s => copyUp n (update mem d (mem s)) (d + 1) (s + 1)

/-- `while(n-- > 0) *--d = *--s` -/
def copyDown : Nat → Memory → (d s : Address) → Memory
  | 0, mem, _, _ => mem
  | n + 1, mem, d, s => copyDown n (update mem (d - 1) (mem (s - 1))) (d - 1) (s - 1)

namespace Kernel

/-- string.c; `n` is a uint. -/
def memmove (mem : Memory) (dst src : Address) (n : BitVec 32) : Address × Memory :=
  if n = 0 then (dst, mem)
  else if src < dst ∧ src + n.setWidth 64 > dst then
    (dst, copyDown n.toNat mem (dst + n.setWidth 64) (src + n.setWidth 64))
  else (dst, copyUp n.toNat mem dst src)

end Kernel

namespace Ulib

/-- ulib.c; `n` is an int. -/
def memmove (mem : Memory) (vdst vsrc : Address) (n : BitVec 32) : Address × Memory :=
  if vsrc > vdst then (vdst, copyUp n.toInt.toNat mem vdst vsrc)
  else (vdst, copyDown n.toInt.toNat mem (vdst + n.signExtend 64) (vsrc + n.signExtend 64))

end Ulib

/-- `mem'` is `mem` with the `n` bytes at `src` copied to `dst`, as they were. -/
structure Transfers (mem mem' : Memory) (dst src : Address) (n : Nat) : Prop where
  copied : ∀ i < n, mem' (dst + .ofNat 64 i) = mem (src + .ofNat 64 i)
  frame : ∀ a, (∀ i < n, a ≠ dst + .ofNat 64 i) → mem' a = mem a

variable {mem mem₁ mem₂ : Memory} {dst src : Address} {n : Nat}

theorem Transfers.unique (first : Transfers mem mem₁ dst src n) (second : Transfers mem mem₂ dst src n) : mem₁ = mem₂ := by
  funext a
  by_cases inside : ∃ i < n, a = dst + .ofNat 64 i
  · obtain ⟨i, small, rfl⟩ := inside
    rw [first.copied i small, second.copied i small]
  · have outside : ∀ i < n, a ≠ dst + .ofNat 64 i := fun i small same => inside ⟨i, small, same⟩
    rw [first.frame a outside, second.frame a outside]

/-- Upwards is right where no byte is read after a lower one was written over it. -/
theorem copyUp_moves (small : n ≤ 2 ^ 64) (ahead : ∀ k, 0 < k → k < n → dst ≠ src + .ofNat 64 k) :
    Transfers mem (copyUp n mem dst src) dst src n := by
  induction n generalizing mem dst src with
  | zero => exact ⟨fun _ none => absurd none (Nat.not_lt_zero _), fun _ _ => rfl⟩
  | succ n ih =>
    have shift : ∀ (a : Address) i, a + 1 + .ofNat 64 i = a + .ofNat 64 (i + 1) := fun a i => by bv_omega
    have rest : Transfers (update mem dst (mem src)) (copyUp (n + 1) mem dst src) (dst + 1) (src + 1) n :=
      ih (by omega) fun k some less same => ahead k some (by omega) (by rw [shift] at same; bv_omega)
    constructor
    · intro i inside
      cases i with
      | zero =>
        have untouched : ∀ i < n, dst ≠ dst + 1 + .ofNat 64 i := fun i less => by bv_omega
        simpa using rest.frame dst untouched
      | succ i =>
        have apart : src + .ofNat 64 (i + 1) ≠ dst := (ahead (i + 1) (by omega) inside).symm
        rw [← shift dst, rest.copied i (by omega), shift, update_of_ne apart]
    · intro a outside
      have other : a ≠ dst := fun same => outside 0 (by omega) (by rw [same]; bv_omega)
      rw [rest.frame a fun i less => shift dst i ▸ outside (i + 1) (by omega), update_of_ne other]

/-- Downwards is right where no byte is read after a higher one was written over it. -/
theorem copyDown_moves (small : n ≤ 2 ^ 64) (behind : ∀ k, 0 < k → k < n → src ≠ dst + .ofNat 64 k) :
    Transfers mem (copyDown n mem (dst + .ofNat 64 n) (src + .ofNat 64 n)) dst src n := by
  induction n generalizing mem with
  | zero => exact ⟨fun _ none => absurd none (Nat.not_lt_zero _), fun _ _ => rfl⟩
  | succ n ih =>
    have back : ∀ a : Address, a + .ofNat 64 (n + 1) - 1 = a + .ofNat 64 n := fun a => by bv_omega
    rw [copyDown, back, back]
    have rest := @ih (update mem (dst + .ofNat 64 n) (mem (src + .ofNat 64 n))) (by omega)
      fun k some less => behind k some (by omega)
    constructor
    · intro i inside
      by_cases last : i = n
      · subst last
        have untouched : ∀ j < i, dst + .ofNat 64 i ≠ dst + .ofNat 64 j := fun j less => by bv_omega
        rw [rest.frame _ untouched, update_self]
      · have apart : src + .ofNat 64 i ≠ dst + .ofNat 64 n := by
          have := behind (n - i) (by omega) (by omega)
          bv_omega
        rw [rest.copied i (by omega), update_of_ne apart]
    · intro a outside
      rw [rest.frame a fun i less => outside i (by omega), update_of_ne (outside n (by omega))]

namespace Kernel

theorem memmove_moves (n : BitVec 32) (inside : src.toNat + n.toNat ≤ 2 ^ 64) (inside' : dst.toNat + n.toNat ≤ 2 ^ 64) :
    Transfers mem (memmove mem dst src n).2 dst src n.toNat := by
  have width : n.setWidth 64 = .ofNat 64 n.toNat := by bv_omega
  unfold memmove
  split_ifs with zero overlap
  · subst zero
    exact ⟨fun _ none => absurd none (Nat.not_lt_zero _), fun _ _ => rfl⟩
  · rw [width]
    exact copyDown_moves (by omega) fun k some less => by bv_omega
  · refine copyUp_moves (by omega) fun k some less same => overlap ?_
    constructor <;> bv_omega

end Kernel

namespace Ulib

theorem memmove_moves (i : BitVec 32) (length : i.toInt = n) (inside : src.toNat + n ≤ 2 ^ 64)
    (inside' : dst.toNat + n ≤ 2 ^ 64) : Transfers mem (memmove mem dst src i).2 dst src n := by
  have count : i.toInt.toNat = n := by omega
  have width : i.signExtend 64 = .ofNat 64 n := by
    rw [BitVec.signExtend, length]
    rfl
  unfold memmove
  rw [count, width]
  split_ifs with above
  · exact copyUp_moves (by omega) fun k some less => by bv_omega
  · exact copyDown_moves (by omega) fun k some less => by bv_omega

end Ulib

/-- Both copy as if through a temporary, for every length that their parameter can hold, and they agree. -/
theorem memmoves_through_temporary (mem : Memory) (dst src : Address) (n : Nat) (inside : src.toNat + n ≤ 2 ^ 64)
    (inside' : dst.toNat + n ≤ 2 ^ 64) :
    (∀ u : BitVec 32, u.toNat = n → Transfers mem (Kernel.memmove mem dst src u).2 dst src n) ∧
    (∀ i : BitVec 32, i.toInt = n → Transfers mem (Ulib.memmove mem dst src i).2 dst src n) ∧
    ∀ u i : BitVec 32, u.toNat = n → i.toInt = n → Kernel.memmove mem dst src u = Ulib.memmove mem dst src i := by
  have kernel : ∀ u : BitVec 32, u.toNat = n → Transfers mem (Kernel.memmove mem dst src u).2 dst src n := by
    rintro u rfl
    exact Kernel.memmove_moves u inside inside'
  have user : ∀ i : BitVec 32, i.toInt = n → Transfers mem (Ulib.memmove mem dst src i).2 dst src n :=
    fun i length => Ulib.memmove_moves i length inside inside'
  refine ⟨kernel, user, ?_⟩
  intro u i length length'
  refine Prod.ext ?_ ((kernel u length).unique (user i length'))
  unfold Kernel.memmove Ulib.memmove
  split_ifs <;> rfl

theorem memmoves_overlapping : (Ulib.memmove (fun a => a.toNat.toUInt8) 1 0 2).2 2 = 1 :=
  (memmoves_through_temporary (fun a => a.toNat.toUInt8) 1 0 2 (by decide) (by decide)).2.1 2 (by decide) |>.copied 1
    (by decide)

end DeisoXv6
