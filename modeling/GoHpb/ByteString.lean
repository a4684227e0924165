/-
**Byte strings and fixed-size byte arrays.**

A Go `[]byte` is a list of bytes, and a Go array type `[n]byte` is a list of bytes whose length is
known to be `n`: a value of the wrong length cannot be built.  This module fixes the two types,
the order `bytes.Compare` puts on them, the cropping conversion that every `SetBytes` method of
the array types performs, and the minimal big-endian representation of a natural number, which is
what `(*big.Int).Bytes` returns.

Main results:

* `bigBytes_injective` — **a number is determined by its bytes**.
-/

import Mathlib

/-- The bytes are linearly ordered by their value. -/
instance instLinearOrderByte : LinearOrder UInt8 where
  le_refl := UInt8.le_refl
  le_trans _ _ _ := UInt8.le_trans
  le_antisymm _ _ := UInt8.le_antisymm
  le_total := UInt8.le_total
  lt_iff_le_not_ge a b := by
    simp only [UInt8.lt_iff_toNat_lt, UInt8.le_iff_toNat_le]
    omega
  toDecidableLE := inferInstance
  toDecidableEq := inferInstance
  toDecidableLT := inferInstance

/-! ### Byte strings of a fixed length -/

/-- A byte string: a Go `[]byte`, or the bytes of a Go `string`. -/
abbrev Bytes : Type := List UInt8

/-- A byte string of length `n`: a Go array `[n]byte`. -/
def FixedBytes (n : ℕ) : Type := { l : Bytes // l.length = n }

namespace FixedBytes

variable {n : ℕ}

instance instDecidableEq : DecidableEq (FixedBytes n) :=
  inferInstanceAs (DecidableEq { l : Bytes // l.length = n })

/-- Arrays of one length are compared lexicographically, as `bytes.Compare` does. -/
instance instLinearOrder : LinearOrder (FixedBytes n) :=
  inferInstanceAs (LinearOrder { l : Bytes // l.length = n })

/-- The bytes of an array. -/
def bytes (a : FixedBytes n) : Bytes := a.1

@[simp] theorem length_bytes (a : FixedBytes n) : a.bytes.length = n := a.2

theorem bytes_injective : Function.Injective (bytes : FixedBytes n → Bytes) :=
  Subtype.val_injective

@[simp] theorem bytes_inj {a b : FixedBytes n} : a.bytes = b.bytes ↔ a = b :=
  bytes_injective.eq_iff

@[simp] theorem bytes_mk (l : Bytes) (h : l.length = n) : bytes (⟨l, h⟩ : FixedBytes n) = l := rfl

/-- The zero value of the array type. -/
def zero (n : ℕ) : FixedBytes n := ⟨List.replicate n 0, List.length_replicate⟩

/-- The `SetBytes` conversion: a string that is too long loses its first bytes, one that is too
short is padded with zeros on the left. -/
def setBytes (n : ℕ) (b : Bytes) : FixedBytes n :=
  ⟨List.replicate (n - b.length) 0 ++ b.drop (b.length - n), by
    simp only [List.length_append, List.length_replicate, List.length_drop]
    omega⟩

theorem bytes_setBytes {b : Bytes} (h : b.length = n) : (setBytes n b).bytes = b := by
  subst h
  simp [setBytes]

@[simp] theorem setBytes_self (a : FixedBytes n) : setBytes n a.bytes = a :=
  bytes_injective (bytes_setBytes a.length_bytes)

end FixedBytes

/-! ### The bytes of a number -/

/-- The big-endian bytes of a natural number, without leading zeros; zero has no bytes. -/
def bigBytes (n : ℕ) : Bytes := ((Nat.digits 256 n).reverse).map UInt8.ofNat

@[simp] theorem bigBytes_zero : bigBytes 0 = [] := by simp [bigBytes]

theorem map_toNat_bigBytes (n : ℕ) : (bigBytes n).map UInt8.toNat = (Nat.digits 256 n).reverse := by
  rw [bigBytes, List.map_map]
  refine (List.map_congr_left fun d hd => ?_).trans (List.map_id _)
  have hlt : d < 256 := Nat.digits_lt_base (by norm_num) (List.mem_reverse.1 hd)
  simpa using hlt

/-- **A number is determined by its bytes.** -/
theorem bigBytes_injective : Function.Injective bigBytes := by
  intro m n h
  have hd : (Nat.digits 256 m).reverse = (Nat.digits 256 n).reverse := by
    rw [← map_toNat_bigBytes, ← map_toNat_bigBytes, h]
  exact Nat.digits_inj_iff.1 (List.reverse_injective hd)

theorem length_bigBytes_le {n k : ℕ} (h : n < 256 ^ k) : (bigBytes n).length ≤ k := by
  simpa [bigBytes] using (Nat.digits_length_le_iff (by norm_num) n).2 h

theorem length_bigBytes_pos {n : ℕ} (h : 0 < n) : 0 < (bigBytes n).length := by
  have hne : Nat.digits 256 n ≠ [] := Nat.digits_ne_nil_iff_ne_zero.2 (by omega)
  simpa [bigBytes, List.length_pos_iff] using hne
