/-
**The FNV-1 hash, and the words it can be driven to.**

`hash/fnv` keeps a 32-bit word and, for every byte written, multiplies it by a prime and combines
the byte into its low end.  This module models the hash and answers the question that decides how
much an identity built from it is worth: **from every word, every word can be reached** by writing
suitable bytes.  Nobody who may choose the end of the hashed string is bound to a value.

The argument has a general half and a particular one.  In general, when the state space is finite
and writing a letter is injective, reachability is symmetric: a letter can be undone by writing it
often enough.  In particular, for FNV, reachability is then an equivalence relation that ignores
the low byte (a byte can be undone and another one written in its place) and that is stable under
multiplication by the prime.  Since the prime is `2 ^ 24 + 256 + 147`, adding one before the
multiplication moves the word by `256 * 65537` above the low byte, and these shifts generate
everything.

Main results:

* `Fnv.reach_all` — **every word is reachable from every word**.
-/

import GoHpb.ByteString

/-! ### Reachability under injective letters -/

section Reach

variable {σ β : Type*} {step : σ → β → σ}

/-- `y` is reachable from `x`: writing some letters turns `x` into `y`. -/
def Reach (step : σ → β → σ) (x y : σ) : Prop := ∃ r : List β, r.foldl step x = y

theorem Reach.refl (x : σ) : Reach step x x := ⟨[], rfl⟩

theorem Reach.trans {x y z : σ} (h : Reach step x y) (h' : Reach step y z) : Reach step x z := by
  obtain ⟨r, rfl⟩ := h
  obtain ⟨r', rfl⟩ := h'
  exact ⟨r ++ r', List.foldl_append⟩

theorem Reach.single (x : σ) (b : β) : Reach step x (step x b) := ⟨[b], rfl⟩

theorem foldl_replicate_eq_iterate (b : β) (n : ℕ) (x : σ) :
    (List.replicate n b).foldl step x = (fun s => step s b)^[n] x := by
  induction n generalizing x with
  | zero => rfl
  | succ n ih => rw [List.replicate_succ, List.foldl_cons, ih, Function.iterate_succ_apply]

/-- A letter that acts injectively on a finite space is undone by writing it often enough. -/
theorem Reach.single_symm [Finite σ] {b : β} (hb : Function.Injective fun s => step s b) (x : σ) :
    Reach step (step x b) x := by
  obtain ⟨n, hn, hper⟩ := hb.mem_periodicPts x
  obtain ⟨m, rfl⟩ : ∃ m, n = m + 1 := ⟨n - 1, by omega⟩
  refine ⟨List.replicate m b, ?_⟩
  rw [foldl_replicate_eq_iterate]
  exact hper

/-- **Reachability is symmetric** when every letter acts injectively on a finite space. -/
theorem Reach.symm [Finite σ] (hstep : ∀ b, Function.Injective fun s => step s b) {x y : σ}
    (h : Reach step x y) : Reach step y x := by
  obtain ⟨r, rfl⟩ := h
  induction r generalizing x with
  | nil => exact Reach.refl x
  | cons b r ih => exact ih.trans (Reach.single_symm (hstep b) x)

end Reach

namespace Fnv

/-! ### The hash -/

/-- The word an empty hash starts from. -/
def offset32 : UInt32 := 2166136261

/-- The multiplier, `2 ^ 24 + 403`. -/
def prime32 : UInt32 := 16777619

/-- Writing one byte: multiply, then combine the byte. -/
def writeByte (h : UInt32) (b : UInt8) : UInt32 := (h * prime32) ^^^ b.toUInt32

/-- Writing a byte string. -/
def write (h : UInt32) (data : Bytes) : UInt32 := data.foldl writeByte h

/-- The four bytes of the word, most significant first. -/
def sum (h : UInt32) : Bytes :=
  [(h >>> 24).toUInt8, (h >>> 16).toUInt8, (h >>> 8).toUInt8, h.toUInt8]

theorem write_append (h : UInt32) (a b : Bytes) : write h (a ++ b) = write (write h a) b :=
  List.foldl_append

/-! ### Reachable words -/

open scoped UInt32.CommRing

/-- The inverse of the multiplier. -/
def invPrime32 : UInt32 := 899433627

theorem invPrime32_mul (x : UInt32) : x * invPrime32 * prime32 = x := by
  rw [mul_assoc, show invPrime32 * prime32 = 1 from by decide, mul_one]

theorem mul_prime32_injective : Function.Injective fun x : UInt32 => x * prime32 := by
  intro x y h
  have h' : x * prime32 * invPrime32 = y * prime32 * invPrime32 := congrArg (· * invPrime32) h
  rwa [mul_assoc, mul_assoc, show prime32 * invPrime32 = 1 from by decide, mul_one, mul_one] at h'

theorem writeByte_injective (b : UInt8) : Function.Injective fun h => writeByte h b := by
  intro x y h
  exact mul_prime32_injective ((UInt32.xor_left_inj _).1 h)

theorem reach_symm {x y : UInt32} (h : Reach writeByte x y) : Reach writeByte y x :=
  h.symm writeByte_injective

theorem reach_mul (x : UInt32) : Reach writeByte x (x * prime32) := by
  have h : Reach writeByte x (writeByte x 0) := Reach.single x 0
  simpa [writeByte] using h

theorem reach_xor (x : UInt32) (b : UInt8) : Reach writeByte x (x ^^^ b.toUInt32) := by
  have hx : Reach writeByte (x * invPrime32) x := by
    simpa [invPrime32_mul] using reach_mul (x * invPrime32)
  have hb : Reach writeByte (x * invPrime32) (x ^^^ b.toUInt32) := by
    have h : Reach writeByte (x * invPrime32) (writeByte (x * invPrime32) b) := Reach.single _ b
    simpa [writeByte, invPrime32_mul] using h
  exact (reach_symm hx).trans hb

/-- **The low byte does not matter**: words with the same upper three bytes reach each other. -/
theorem reach_of_div_eq {x y : UInt32} (h : x.toNat / 256 = y.toNat / 256) :
    Reach writeByte x y := by
  have hlt : (x ^^^ y).toNat < 256 := by
    have hdiv : (x.toNat ^^^ y.toNat) / 2 ^ 8 = 0 := by
      rw [Nat.xor_div_two_pow, show (2 : ℕ) ^ 8 = 256 from rfl, h, Nat.xor_self]
    rw [UInt32.toNat_xor]
    omega
  have hb : (x ^^^ y).toUInt8.toUInt32 = x ^^^ y := by
    apply UInt32.toNat_inj.1
    rw [UInt8.toNat_toUInt32, UInt32.toNat_toUInt8]
    omega
  have hxy := reach_xor x (x ^^^ y).toUInt8
  rwa [hb, ← UInt32.xor_assoc, UInt32.xor_self, UInt32.zero_xor] at hxy

theorem toNat_add_div (k c : UInt32) (hc : c.toNat < 256) :
    (256 * k + c).toNat / 256 = (256 * k).toNat / 256 := by
  rw [UInt32.toNat_add, UInt32.toNat_mul]
  have h256 : (256 : UInt32).toNat = 256 := rfl
  rw [h256]
  omega

theorem reach_shift (k : UInt32) : Reach writeByte (256 * k) (256 * (k + 65537)) := by
  have h₁ : Reach writeByte (256 * (k * invPrime32)) (256 * k) := by
    have h := reach_mul (256 * (k * invPrime32))
    rwa [mul_assoc, invPrime32_mul] at h
  have h₂ : Reach writeByte (256 * (k * invPrime32)) (256 * (k * invPrime32) + 1) :=
    reach_of_div_eq (toNat_add_div _ 1 (by decide)).symm
  have h₃ : Reach writeByte (256 * (k * invPrime32) + 1) (256 * (k + 65537) + 147) := by
    have h := reach_mul (256 * (k * invPrime32) + 1)
    have heq : (256 * (k * invPrime32) + 1) * prime32 = 256 * (k + 65537) + 147 := by
      calc (256 * (k * invPrime32) + 1) * prime32
          = 256 * (k * invPrime32 * prime32) + prime32 := by ring
        _ = 256 * k + prime32 := by rw [invPrime32_mul]
        _ = 256 * (k + 65537) + 147 := by
            rw [show prime32 = 256 * 65537 + 147 from by decide]
            ring
    rwa [heq] at h
  have h₄ : Reach writeByte (256 * (k + 65537) + 147) (256 * (k + 65537)) :=
    reach_of_div_eq (toNat_add_div _ 147 (by decide))
  exact (((reach_symm h₁).trans h₂).trans h₃).trans h₄

theorem reach_shifts (n : ℕ) : Reach writeByte 0 (256 * (65537 * UInt32.ofNat n)) := by
  induction n with
  | zero => exact Reach.refl _
  | succ n ih =>
    have h := ih.trans (reach_shift (65537 * UInt32.ofNat n))
    have heq : 65537 * UInt32.ofNat n + 65537 = 65537 * UInt32.ofNat (n + 1) := by
      rw [UInt32.ofNat_add]
      show 65537 * UInt32.ofNat n + 65537 = 65537 * (UInt32.ofNat n + 1)
      ring
    rwa [heq] at h

/-- Every word is reachable from zero: `65537 * (1 - 2 ^ 16)` is one modulo `2 ^ 24`. -/
theorem reach_zero (x : UInt32) : Reach writeByte 0 x := by
  have h := reach_shifts (16711681 * (x.toNat / 256))
  refine h.trans (reach_of_div_eq ?_)
  have hx := x.toNat_lt
  simp only [UInt32.toNat_mul, UInt32.toNat_ofNat]
  norm_num
  omega

/-- **Every word is reachable from every word.** -/
theorem reach_all (x y : UInt32) : Reach writeByte x y :=
  (reach_symm (reach_zero x)).trans (reach_zero y)

/-! ### The bytes of the hash -/

theorem exists_sum_eq {t : Bytes} (ht : t.length = 4) : ∃ h, sum h = t := by
  match t, ht with
  | [a, b, c, d], _ =>
    have ha := a.toNat_lt
    have hb := b.toNat_lt
    have hc := c.toNat_lt
    have hd := d.toNat_lt
    have hw : (UInt32.ofNat (a.toNat * 16777216 + b.toNat * 65536 + c.toNat * 256 + d.toNat)).toNat
          = a.toNat * 16777216 + b.toNat * 65536 + c.toNat * 256 + d.toNat := by
      rw [UInt32.toNat_ofNat']
      omega
    refine ⟨UInt32.ofNat (a.toNat * 16777216 + b.toNat * 65536 + c.toNat * 256 + d.toNat), ?_⟩
    simp only [sum, List.cons.injEq, and_true]
    refine ⟨?_, ?_, ?_, ?_⟩ <;> apply UInt8.toNat_inj.1 <;>
      simp only [UInt32.toNat_toUInt8, UInt32.toNat_shiftRight, hw, UInt32.toNat_ofNat,
        Nat.shiftRight_eq_div_pow, Nat.reduceMod, Nat.reducePow] <;> omega

/-- **Every four bytes are the hash of some continuation** of what was written so far. -/
theorem exists_sum_write (h : UInt32) {t : Bytes} (ht : t.length = 4) :
    ∃ r, sum (write h r) = t := by
  obtain ⟨w, rfl⟩ := exists_sum_eq ht
  obtain ⟨r, hr⟩ := reach_all h w
  exact ⟨r, by rw [write, hr]⟩

end Fnv
