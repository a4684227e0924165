/-
**Strings of bytes as strings of bits.**

The bits of a byte are counted from the highest one on.  A number that is given by its bytes has the
bits of those bytes.

Main results:

* `BitString.bitAt_setBit` — **setting a bit sets that bit and no other**.
-/

import Mathlib.Data.Nat.Digits.Defs

namespace BitString

open List

/-- The bit at a position. -/
def bitAt (v : List UInt8) (j : ℕ) : Bool := (v.getD (j / 8) 0).toNat.testBit (7 - j % 8)

/-- Setting the bit at a position. -/
def setBit (v : List UInt8) (j : ℕ) : List UInt8 :=
  v.modify (j / 8) (· ||| .ofNat (1 <<< (7 - j % 8)))

@[simp] theorem length_setBit (v : List UInt8) (j : ℕ) : (setBit v j).length = v.length := by
  simp [setBit]

@[simp] theorem bitAt_zeros (n j : ℕ) : bitAt (replicate n 0) j = false := by
  rw [bitAt, getD_eq_getElem?_getD, getElem?_replicate]
  split_ifs <;> simp

theorem bitAt_setBit {v : List UInt8} {j : ℕ} (hj : j < v.length * 8) (i : ℕ) :
    bitAt (setBit v j) i = (decide (i = j) || bitAt v i) := by
  have hbyte : j / 8 < v.length := by omega
  have hmask : (UInt8.ofNat (1 <<< (7 - j % 8))).toNat = 2 ^ (7 - j % 8) := by
    rw [Nat.one_shiftLeft]
    exact UInt8.toNat_ofNat_of_lt' (Nat.pow_lt_pow_right (by norm_num) (by omega : 7 - j % 8 < 8))
  simp only [bitAt, setBit, getD_eq_getElem?_getD, getElem?_modify]
  by_cases hsame : j / 8 = i / 8
  · rw [← hsame, getElem?_eq_getElem hbyte]
    simp only [if_true, Option.map_eq_map, Option.map_some, Option.getD_some, UInt8.toNat_or,
      hmask, Nat.testBit_or, Nat.testBit_two_pow]
    rw [Bool.or_comm]
    congr 1
    exact decide_eq_decide.2 (by omega)
  · have hne : i ≠ j := fun h => hsame (by rw [h])
    simp [hsame, hne]

theorem testBit_ofDigits {l : List ℕ} (h : ∀ d ∈ l, d < 2 ^ 8) (i : ℕ) :
    (Nat.ofDigits 256 l).testBit i = (l.getD (i / 8) 0).testBit (i % 8) := by
  induction l generalizing i with
  | nil => simp
  | cons d l ih =>
    have hsplit : Nat.ofDigits 256 (d :: l) = 2 ^ 8 * Nat.ofDigits 256 l + d := by
      rw [Nat.ofDigits_cons, Nat.add_comm]
      rfl
    rw [hsplit, Nat.testBit_two_pow_mul_add _ (h d mem_cons_self)]
    split_ifs with hi
    · rw [Nat.div_eq_of_lt hi, Nat.mod_eq_of_lt hi, getD_cons_zero]
    obtain ⟨k, rfl⟩ := Nat.exists_eq_add_of_le (Nat.le_of_not_lt hi)
    rw [Nat.add_sub_cancel_left, ih (fun d hd => h d (mem_cons_of_mem _ hd)),
      Nat.add_div_left _ (by norm_num), Nat.add_mod_left, getD_cons_succ]

end BitString
