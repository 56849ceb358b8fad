import DeisoXv6.Data.LittleEndian
import DeisoXv6.Kernel.Parameters

/-! Disk blocks and the 32-bit words that the kernel lays over them.

The log header and the indirect block are arrays of words inside a block; a word store changes
one of them and no other. -/

set_option autoImplicit false

namespace DeisoXv6

open LittleEndian

abbrev BlockNo := UInt32

@[ext] structure Block where
  data : Fin BSIZE → UInt8

def Block.bytes (b : Block) (i : Nat) : UInt8 :=
  if inside : i < BSIZE then b.data ⟨i, inside⟩ else 0

/-- The `i`-th 32-bit word of a block, as `((uint *) data)[i]` reads it. -/
def Block.word (b : Block) (i : Nat) : Nat := load 4 b.bytes (4 * i)

def Block.setWord (b : Block) (i v : Nat) : Block :=
  ⟨fun j => store 4 b.bytes (4 * i) v j⟩

def intOfWord (w : Nat) : Int := if w < 2 ^ 31 then w else (w : Int) - 2 ^ 32

theorem Block.bytes_setWord (b : Block) (i v x : Nat) (inside : x < BSIZE) :
    (b.setWord i v).bytes x = store 4 b.bytes (4 * i) v x := by
  simp only [bytes, setWord, inside, dif_pos]

theorem Block.word_setWord_same (b : Block) (i v : Nat) (inside : i < BSIZE / 4) (small : v < 2 ^ 32) :
    (b.setWord i v).word i = v := by
  have fits : 4 * i + 4 ≤ BSIZE := by unfold BSIZE at inside ⊢; omega
  have same : (b.setWord i v).word i = load 4 (store 4 b.bytes (4 * i) v) (4 * i) :=
    load_congr 4 _ _ _ fun x _ high => b.bytes_setWord i v x (by omega)
  rw [same, load_store_same]
  exact Nat.mod_eq_of_lt small

theorem Block.word_setWord_ne (b : Block) (i j v : Nat) (inside : j < BSIZE / 4) (apart : j ≠ i) :
    (b.setWord i v).word j = b.word j := by
  have fits : 4 * j + 4 ≤ BSIZE := by unfold BSIZE at inside ⊢; omega
  have same : (b.setWord i v).word j = load 4 (store 4 b.bytes (4 * i) v) (4 * j) :=
    load_congr 4 _ _ _ fun x _ high => b.bytes_setWord i v x (by omega)
  rw [same]
  exact load_store_disjoint 4 4 _ _ _ v (by omega)

end DeisoXv6
