/-
**Big integers as machine numbers.**

An integer without a bound is turned into a number of 64 bits by taking the low bits of its absolute
value, whether or not it fits, and then its sign.

Main results:

* `BigWord.int64_eq` — numbers that fit are not changed.
-/

import Mathlib

namespace BigWord

/-- The low bits as a signed number, with the sign of the integer. -/
def int64 (x : ℤ) : ℤ :=
  if x < 0 then (-(x.natAbs : ℤ).bmod (2 ^ 64)).bmod (2 ^ 64) else (x.natAbs : ℤ).bmod (2 ^ 64)

theorem int64_eq {x : ℤ} (hx : 0 ≤ x) (h : x < 2 ^ 63) : int64 x = x := by
  rw [int64, if_neg hx.not_gt, Int.natAbs_of_nonneg hx]
  exact Int.bmod_eq_of_le (by norm_num; omega) (by norm_num; omega)

end BigWord
