import DeisoXv6.Vm.Access

/-! Page-table entries bit by bit: what lazyalloc and mappages make of a page number and the `prot`
argument of sys_mmap. -/

set_option autoImplicit false

namespace DeisoXv6

/-- The flags that belong to a mapping with the given PROT bits. -/
def protFlags (prot : BitVec 32) : Pte := ((prot &&& 7) <<< 1).setWidth 64 ||| PTE_U ||| PTE_V

def lazyPte (page : PageNo) (v : Vma) : Pte := pa2pte page ||| v.permissions.signExtend 64 ||| PTE_V

section Bits

variable {page : PageNo} {prot : BitVec 32} {pte : Pte} {v : Vma} {i k : Nat}

theorem getLsbD_bit {w : Nat} (inside : k < w) : (1#w <<< k).getLsbD i = decide (i = k) := by
  rw [BitVec.getLsbD_shiftLeft, BitVec.getLsbD_one]
  by_cases same : i = k
  · simp [same, inside, show 0 < w by omega]
  · by_cases low : i < k
    · simp [same, low]
    · simp [same, low, show i - k ≠ 0 by omega]

theorem getLsbD_low {w : Nat} (inside : k ≤ w) : (BitVec.ofNat w (2 ^ k - 1)).getLsbD i = decide (i < k) := by
  rw [BitVec.getLsbD_ofNat, Nat.testBit_two_pow_sub_one]
  by_cases low : i < k
  · simp [low, show i < w by omega]
  · simp [low]

theorem getLsbD_pa2pte : (pa2pte page).getLsbD i = (decide (10 ≤ i ∧ i < 64) && page.testBit (i - 10)) := by
  unfold pa2pte
  rw [BitVec.getLsbD_shiftLeft, BitVec.getLsbD_ofNat]
  by_cases small : i < 64
  · by_cases high : 10 ≤ i
    · simp [small, high, Nat.not_lt.mpr high, show i - 10 < 64 by omega]
    · simp [high, show i < 10 by omega]
  · simp [small]

theorem getLsbD_protFlags : (protFlags prot).getLsbD i =
    (decide (i = 0) || decide (i = 4) || (decide (1 ≤ i ∧ i ≤ 3) && prot.getLsbD (i - 1))) := by
  unfold protFlags PTE_U PTE_V
  rw [BitVec.getLsbD_or, BitVec.getLsbD_or, getLsbD_bit (by decide), getLsbD_bit (by decide),
    BitVec.getLsbD_setWidth, BitVec.getLsbD_shiftLeft, BitVec.getLsbD_and,
    show (7 : BitVec 32) = BitVec.ofNat 32 (2 ^ 3 - 1) from rfl, getLsbD_low (by decide)]
  by_cases low : 1 ≤ i ∧ i ≤ 3
  · simp [low, show i < 64 by omega, show i < 32 by omega, show ¬i < 1 by omega, show i - 1 < 3 by omega,
      show i ≠ 0 by omega, show i ≠ 4 by omega]
  · by_cases zero : i = 0
    · simp [zero]
    · simp [zero, low, show ¬i - 1 < 3 by omega]

theorem getLsbD_permissions : v.permissions.getLsbD i =
    (decide (i = 0) || decide (i = 4) || (decide (1 ≤ i ∧ i < 32) && v.permission.getLsbD (i - 1))) := by
  unfold Vma.permissions
  rw [BitVec.getLsbD_or, BitVec.getLsbD_or, show (0x10 : BitVec 32) = 1#32 <<< 4 from rfl,
    show (1 : BitVec 32) = 1#32 <<< 0 from rfl, getLsbD_bit (by decide), getLsbD_bit (by decide),
    BitVec.getLsbD_shiftLeft]
  by_cases low : 1 ≤ i ∧ i < 32
  · simp [low, show ¬i < 1 by omega, show i ≠ 0 by omega, Bool.or_comm]
  · by_cases zero : i = 0
    · simp [zero]
    · simp [zero, show ¬i < 32 by omega, show i ≠ 4 by omega]

theorem getLsbD_lazyPte (inside : i < 64) : (lazyPte page v).getLsbD i =
    ((decide (10 ≤ i) && page.testBit (i - 10)) || decide (i = 0) || decide (i = 4) ||
      (decide (1 ≤ i) && v.permission.getLsbD (min (i - 1) 30))) := by
  unfold lazyPte PTE_V
  rw [BitVec.getLsbD_or, BitVec.getLsbD_or, getLsbD_pa2pte, getLsbD_bit (by decide),
    BitVec.getLsbD_signExtend, BitVec.msb_eq_getLsbD_last, getLsbD_permissions, getLsbD_permissions]
  by_cases low : i < 32
  · by_cases zero : i = 0
    · simp [zero]
    · simp [inside, low, zero, show min (i - 1) 30 = i - 1 by omega, show 1 ≤ i by omega, Bool.or_assoc]
  · simp [inside, low, show ¬i = 0 by omega, show i ≠ 4 by omega, show min (i - 1) 30 = 30 by omega,
      show 10 ≤ i by omega, show 1 ≤ i by omega]

theorem testBit_pte2pa : (pte2pa pte).testBit k = (decide (k < 52) && pte.getLsbD (10 + k)) := by
  unfold pte2pa
  rw [Nat.testBit_mod_two_pow, BitVec.testBit_toNat, BitVec.getLsbD_ushiftRight]

theorem getLsbD_pteFlags : (pteFlags pte).getLsbD i = (decide (i < 10) && pte.getLsbD i) := by
  unfold pteFlags
  rw [BitVec.getLsbD_and, show (0x3FF : Pte) = BitVec.ofNat 64 (2 ^ 10 - 1) from rfl,
    getLsbD_low (by decide), Bool.and_comm]

theorem and_bit_bne_zero {w : Nat} {x : BitVec w} (inside : k < w) : (x &&& 1#w <<< k != 0) = x.getLsbD k := by
  cases bit : x.getLsbD k with
  | false =>
    rw [bne_eq_false_iff_eq]
    refine BitVec.eq_of_getLsbD_eq fun i _ => ?_
    rw [BitVec.getLsbD_and, getLsbD_bit inside]
    by_cases same : i = k
    · simp [same, bit]
    · simp [same]
  | true =>
    rw [bne_iff_ne]
    intro zero
    have here := congrArg (·.getLsbD k) zero
    simp [BitVec.getLsbD_and, getLsbD_bit inside, bit] at here

theorem has_bit (inside : k < 64) : Pte.has pte (1#64 <<< k) = pte.getLsbD k := and_bit_bne_zero inside

theorem has_prot_bit (inside : k < 32) : has prot (1#32 <<< k) = prot.getLsbD k := and_bit_bne_zero inside

theorem pte2pa_table (small : page < 2 ^ 52) : pte2pa (pa2pte page ||| PTE_V) = page := by
  refine Nat.eq_of_testBit_eq fun k => ?_
  unfold PTE_V
  rw [testBit_pte2pa, BitVec.getLsbD_or, getLsbD_pa2pte, getLsbD_bit (by decide)]
  by_cases inside : k < 52
  · simp [inside, show 10 + k < 64 by omega]
  · have outside : page.testBit k = false :=
      Nat.testBit_lt_two_pow (small.trans_le (Nat.pow_le_pow_right (by decide) (Nat.le_of_not_lt inside)))
    simp [inside, outside]

theorem has_valid_table : Pte.has (pa2pte page ||| PTE_V) PTE_V = true := by
  unfold PTE_V
  rw [has_bit (by decide), BitVec.getLsbD_or, getLsbD_bit (by decide)]
  simp

/-- `prot` sets no bit of an entry for `page` that is not set anyway, its three PROT bits aside. -/
structure ProtFits (page : PageNo) (prot : BitVec 32) : Prop where
  flags : ∀ j, 4 ≤ j → j ≤ 8 → prot.getLsbD j = false
  number : ∀ j, 9 ≤ j → j ≤ 30 → prot.getLsbD j = true → page.testBit (j - 9) = true

theorem testBit_ram (ram : page < 2 ^ 20) (high : 20 ≤ k) : page.testBit k = false :=
  Nat.testBit_lt_two_pow (ram.trans_le (Nat.pow_le_pow_right (by decide) high))

theorem ProtFits.sign (fits : ProtFits page prot) (ram : page < 2 ^ 20) : prot.getLsbD 30 = false := by
  cases bit : prot.getLsbD 30 with
  | false => rfl
  | true =>
    have outside : page.testBit (30 - 9) = false := testBit_ram ram (by decide)
    rw [fits.number 30 (by decide) (by decide) bit] at outside
    contradiction

/-- The entry translates to `page` with the flags of its PROT bits exactly when `prot` fits. -/
theorem lazyPte_iff (ram : page < 2 ^ 20) :
    (pte2pa (lazyPte page v) = page ∧ pteFlags (lazyPte page v) = protFlags v.permission) ↔
      ProtFits page v.permission := by
  constructor
  · rintro ⟨number, flags⟩
    refine ⟨fun j low high => ?_, fun j low high bit => ?_⟩
    · have here := congrArg (·.getLsbD (j + 1)) flags
      simp only [getLsbD_pteFlags, getLsbD_protFlags, getLsbD_lazyPte (show j + 1 < 64 by omega)] at here
      have inside : j + 1 < 10 := by omega
      have beyond : ¬j + 1 ≤ 3 := by omega
      have above : j + 1 ≠ 4 := by omega
      have number : ¬10 ≤ j + 1 := by omega
      have bit : min (j + 1 - 1) 30 = j := by omega
      rw [bit] at here
      simpa only [inside, beyond, above, number, and_false, decide_true, decide_false, Bool.true_and,
        Bool.false_and, Bool.or_false, Bool.false_or, Nat.succ_ne_zero, Nat.le_add_left] using here
    · have here := congrArg (·.testBit (j - 9)) number
      simp only [testBit_pte2pa, show 10 + (j - 9) = j + 1 by omega,
        getLsbD_lazyPte (show j + 1 < 64 by omega), show min (j + 1 - 1) 30 = j by omega, bit] at here
      simpa [show j - 9 < 52 by omega] using here.symm
  · intro fits
    constructor
    · refine Nat.eq_of_testBit_eq fun k => ?_
      by_cases inside : k < 52
      · rw [testBit_pte2pa, getLsbD_lazyPte (by omega)]
        cases bit : v.permission.getLsbD (min (10 + k - 1) 30) with
        | false => simp [inside, show 10 + k ≠ 4 by omega]
        | true =>
          have low : k + 9 ≤ 30 := by
            by_contra beyond
            rw [show min (10 + k - 1) 30 = 30 by omega, fits.sign ram] at bit
            contradiction
          rw [show min (10 + k - 1) 30 = k + 9 by omega] at bit
          have here := fits.number (k + 9) (by omega) low bit
          rw [Nat.add_sub_cancel] at here
          simp [inside, here]
      · rw [testBit_pte2pa, testBit_ram ram (by omega)]
        simp [inside]
    · refine BitVec.eq_of_getLsbD_eq fun i _ => ?_
      rw [getLsbD_pteFlags, getLsbD_protFlags]
      by_cases inside : i < 10
      · rw [getLsbD_lazyPte (by omega), show min (i - 1) 30 = i - 1 by omega]
        by_cases low : i ≤ 3
        · simp [inside, low, show ¬10 ≤ i by omega]
        · by_cases user : i = 4
          · simp [user]
          · have clear := fits.flags (i - 1) (by omega) (by omega)
            simp [inside, low, user, clear, show ¬10 ≤ i by omega]
      · simp [inside, show i ≠ 0 by omega, show i ≠ 4 by omega, show ¬i ≤ 3 by omega]

/-- The bits of `prot` that can reach into an entry: all but the three PROT bits, bit 3, which sets
PTE_U again, bit 28, which every page number of the RAM has set, and bit 31, which is shifted out. -/
def CleanProt (prot : BitVec 32) : Prop := prot &&& 0x6FFFFFF0 = 0

instance : Decidable (CleanProt prot) := inferInstanceAs (Decidable (_ = _))

theorem CleanProt.bit (clean : CleanProt prot) (low : 4 ≤ i) (high : i ≤ 30) (other : i ≠ 28) :
    prot.getLsbD i = false := by
  have mask : ∀ j : Fin 32, 4 ≤ j.val → j.val ≤ 30 → j.val ≠ 28 →
      (0x6FFFFFF0 : BitVec 32).getLsbD j.val = true := by decide
  have here : (prot &&& 0x6FFFFFF0).getLsbD i = false := by
    rw [clean]
    exact BitVec.getLsbD_zero
  rw [BitVec.getLsbD_and, mask ⟨i, by omega⟩ low high other, Bool.and_true] at here
  exact here

theorem CleanProt.fits (clean : CleanProt prot) (ram : page.testBit 19 = true) : ProtFits page prot := by
  refine ⟨fun j low high => clean.bit low (by omega) (by omega), fun j low high bit => ?_⟩
  by_cases same : j = 28
  · subst same
    exact ram
  · rw [clean.bit (by omega) high same] at bit
    contradiction

theorem lazyPte_valid : Pte.has (lazyPte page v) PTE_V = true := by
  unfold PTE_V
  rw [has_bit (by decide), getLsbD_lazyPte (by decide)]
  simp

theorem lazyPte_user : Pte.has (lazyPte page v) PTE_U = true := by
  unfold PTE_U
  rw [has_bit (by decide), getLsbD_lazyPte (by decide)]
  simp

theorem pte2pa_lazyPte_ne_zero (real : page ≠ 0) (ram : page < 2 ^ 20) : pte2pa (lazyPte page v) ≠ 0 := by
  obtain ⟨k, bit⟩ := Nat.exists_testBit_of_ne_zero real
  have small : k < 20 := by
    by_contra high
    rw [testBit_ram ram (by omega)] at bit
    contradiction
  intro zero
  have here : (pte2pa (lazyPte page v)).testBit k = true := by
    rw [testBit_pte2pa, getLsbD_lazyPte (by omega), Nat.add_sub_cancel_left, bit]
    simp [show k < 52 by omega]
  rw [zero, Nat.zero_testBit] at here
  contradiction

theorem pteFlags_ne_valid (user : Pte.has pte PTE_U = true) : pteFlags pte ≠ PTE_V := by
  intro same
  have bit := congrArg (·.getLsbD 4) same
  unfold PTE_U at user
  rw [has_bit (by decide)] at user
  simp only [getLsbD_pteFlags, user] at bit
  exact absurd bit (by decide)

end Bits

end DeisoXv6
