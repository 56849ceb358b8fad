import Mathlib.Data.BitVec

/-! Ring buffers with free-running counters. The counters are fixed-width and wrap around; a slot is a counter
modulo the size. The elements between the two counters are a queue, as long as the size divides the range of
the counters. -/

set_option autoImplicit false

namespace Ring

open List Function

variable {α : Type} {w size : Nat} [NeZero size]

def slot (size : Nat) [NeZero size] (i : BitVec w) : Fin size := Fin.ofNat size i.toNat

def window (data : Fin size → α) (head tail : BitVec w) : List α :=
  (List.range (tail - head).toNat).map fun k => data (slot size (head + BitVec.ofNat w k))

variable {data : Fin size → α} {head tail : BitVec w}

@[simp] theorem length_window : (window data head tail).length = (tail - head).toNat := by
  simp [window]

@[simp] theorem window_self : window data head head = [] := by
  simp [window]

theorem slot_add (divides : size ∣ 2 ^ w) (k : Nat) :
    (slot size (head + BitVec.ofNat w k)).val = (head.toNat + k) % size := by
  simp only [slot, Fin.val_ofNat, BitVec.toNat_add, BitVec.toNat_ofNat, Nat.add_mod_mod]
  exact Nat.mod_mod_of_dvd _ divides

theorem slot_ne (divides : size ∣ 2 ^ w) {j k : Nat} (less : j < k) (near : k < j + size) :
    slot size (head + BitVec.ofNat w j) ≠ slot size (head + BitVec.ofNat w k) := by
  intro same
  have equal := congrArg Fin.val same
  rw [slot_add divides, slot_add divides] at equal
  have parted : size ∣ head.toNat + k - (head.toNat + j) := (Nat.modEq_iff_dvd' (by omega)).mp equal
  have apart : head.toNat + k - (head.toNat + j) = k - j := by omega
  rw [apart] at parted
  have := Nat.le_of_dvd (by omega) parted
  omega

theorem add_sub_self (head tail : BitVec w) : head + BitVec.ofNat w (tail - head).toNat = tail := by
  rw [BitVec.ofNat_toNat, BitVec.setWidth_eq, BitVec.add_comm, BitVec.sub_add_cancel]

theorem toNat_push (room : (tail - head).toNat + 1 < 2 ^ w) :
    (tail + 1#w - head).toNat = (tail - head).toNat + 1 := by
  have same : tail + 1#w - head = tail - head + 1#w := by
    rw [BitVec.sub_eq_add_neg, BitVec.sub_eq_add_neg, BitVec.add_assoc, BitVec.add_comm 1#w, ← BitVec.add_assoc]
  have one : (1#w).toNat = 1 := Nat.mod_eq_of_lt (by omega)
  rw [same, BitVec.toNat_add, one, Nat.mod_eq_of_lt room]

theorem window_store (divides : size ∣ 2 ^ w) (room : (tail - head).toNat < size) (a : α) :
    window (update data (slot size tail) a) head tail = window data head tail := by
  have last : slot size tail = slot size (head + BitVec.ofNat w (tail - head).toNat) := by rw [add_sub_self]
  refine map_congr_left fun k before => ?_
  have less := mem_range.mp before
  exact update_of_ne (last ▸ slot_ne divides less (by omega)) ..

theorem window_succ (room : (tail - head).toNat + 1 < 2 ^ w) :
    window data head (tail + 1#w) = window data head tail ++ [data (slot size tail)] := by
  unfold window
  rw [toNat_push room, range_succ, map_append, map_singleton, add_sub_self]

theorem window_push (divides : size ∣ 2 ^ w) (narrow : size < 2 ^ w) (room : (tail - head).toNat < size) (a : α) :
    window (update data (slot size tail) a) head (tail + 1#w) = window data head tail ++ [a] := by
  rw [window_succ (by omega), window_store divides room, update_self]

theorem toNat_pop (some : head ≠ tail) : (tail - head).toNat = (tail - (head + 1#w)).toNat + 1 := by
  have apart : (tail - head).toNat ≠ 0 := by
    intro none
    have same := add_sub_self head tail
    rw [none] at same
    exact some (by simpa using same)
  have one : (1#w).toNat = 1 := Nat.mod_eq_of_lt (by have := (tail - head).isLt; omega)
  have same : tail - (head + 1#w) = tail - head - 1#w := by
    rw [BitVec.sub_eq_add_neg, BitVec.neg_add, BitVec.sub_eq_add_neg, BitVec.sub_eq_add_neg, BitVec.sub_eq_add_neg,
      BitVec.add_assoc]
  have less : 1#w ≤ tail - head := BitVec.le_def.mpr (by omega)
  rw [same, BitVec.toNat_sub_of_le less, one]
  omega

theorem window_pop (some : head ≠ tail) :
    window data head tail = data (slot size head) :: window data (head + 1#w) tail := by
  unfold window
  rw [toNat_pop some, range_succ_eq_map, map_cons, map_map]
  refine congrArg₂ _ (by simp) (map_congr_left fun k _ => ?_)
  have moved : head + BitVec.ofNat w (k + 1) = head + 1#w + BitVec.ofNat w k := by
    rw [BitVec.add_assoc, BitVec.ofNat_add_ofNat, Nat.add_comm]
  exact congrArg (fun i => data (slot size i)) moved

variable {mid : BitVec w}

theorem toNat_split (between : (mid - head).toNat ≤ (tail - head).toNat) :
    (tail - mid).toNat = (tail - head).toNat - (mid - head).toNat := by
  have same : tail - mid = tail - head - (mid - head) := (sub_sub_sub_cancel_right ..).symm
  rw [same, BitVec.toNat_sub_of_le (BitVec.le_def.mpr between)]

theorem window_append (between : (mid - head).toNat ≤ (tail - head).toNat) :
    window data head tail = window data head mid ++ window data mid tail := by
  have length : (tail - head).toNat = (mid - head).toNat + (tail - mid).toNat := by
    rw [toNat_split between]
    omega
  unfold window
  rw [length, range_add, map_append, map_map]
  refine congrArg _ (map_congr_left fun k _ => ?_)
  have moved : head + BitVec.ofNat w ((mid - head).toNat + k) = mid + BitVec.ofNat w k := by
    rw [← BitVec.ofNat_add_ofNat, ← BitVec.add_assoc, add_sub_self]
  exact congrArg (fun i => data (slot size i)) moved

theorem toNat_pred (some : head ≠ tail) : (tail - 1#w - head).toNat + 1 = (tail - head).toNat := by
  rw [toNat_pop some, sub_sub, add_comm 1#w]

theorem window_pred (some : head ≠ tail) :
    window data head tail = window data head (tail - 1#w) ++ [data (slot size (tail - 1#w))] := by
  have distance := toNat_pred some
  have last : window data head (tail - 1#w + 1#w) = _ := window_succ (distance ▸ (tail - head).isLt)
  rwa [BitVec.sub_add_cancel] at last

end Ring
