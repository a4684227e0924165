/-
**Compression of sparse byte strings.**

`common/bitutil/compress.go` writes the bytes that are not zero, and before them a string of bits
that says where they stand.  That string is itself compressed in the same way.  A reader that knows
the length can find out where the compressed string of bits ends.

Strings of bits are lists here, and the loops go through them in the order of the positions.

Main results:

* `Bitutil.bitsetDecodePartialBytes_encode` — **what is written is read**;
* `Bitutil.encode_of_decodePartial` — **what is read has been written so**.
-/

import GoHpb.ByteString
import GoHpb.FailState

namespace Bitutil

open List FailState

/-! ### Bits in bytes -/

/-- The byte with one bit. -/
def mask (i : ℕ) : UInt8 := (1 : UInt8) <<< UInt8.ofNat (7 - i)

/-- The byte of the first eight bits, the highest one first. -/
def packByte (bits : List Bool) : UInt8 :=
  (range 8).foldl (fun b i => if bits.getD i false then b ||| mask i else b) 0

def unpackByte (b : UInt8) : List Bool := (range 8).map fun i => b &&& mask i != 0

/-- The bits as a number of bytes. -/
def pack : ℕ → List Bool → Bytes
  | 0, _ => []
  | n + 1, bits => packByte bits :: pack n (bits.drop 8)

def unpack (b : Bytes) : List Bool := b.flatMap unpackByte

/-! ### The functions -/

inductive BitErr where
  | errMissingData
  | errUnreferencedData
  | errExceededTarget
  | errZeroContent
  deriving DecidableEq

def nonZeroBytes (data : Bytes) : Bytes := data.filter (· != 0)

/-- One bit for each byte, and zeros up to whole bytes. -/
def nonZeroBits (data : Bytes) : List Bool :=
  data.map (· != 0) ++ replicate (8 * ((data.length + 7) / 8) - data.length) false

def nonZeroBitset (data : Bytes) : Bytes := pack ((data.length + 7) / 8) (nonZeroBits data)

theorem length_pack (n : ℕ) : ∀ bits, (pack n bits).length = n := by
  induction n with
  | zero => exact fun _ => rfl
  | succ n ih => exact fun bits => congrArg (· + 1) (ih _)

def bitsetEncodeBytes (data : Bytes) : Bytes :=
  if data.length ≤ 1 then nonZeroBytes data
  else if nonZeroBytes data = [] then []
  else bitsetEncodeBytes (nonZeroBitset data) ++ nonZeroBytes data
termination_by data.length
decreasing_by
  rw [nonZeroBitset, length_pack]
  omega

def compressBytes (data : Bytes) : Bytes :=
  if (bitsetEncodeBytes data).length < data.length then bitsetEncodeBytes data else data

/-- The loop that puts the bytes into their places, of which `target` are left: what it fills in,
and the data that is left. -/
def fill : ℕ → List Bool → Bytes → Except BitErr (Bytes × Bytes)
  | target, [], data => .ok (replicate target 0, data)
  | target, false :: bits, data => do
    let (out, rest) ← fill (target - 1) bits data
    .ok (if target = 0 then out else 0 :: out, rest)
  | _, true :: _, [] => .error .errMissingData
  | 0, true :: _, _ :: _ => .error .errExceededTarget
  | target + 1, true :: bits, b :: data =>
    if b = 0 then .error .errZeroContent
    else do
      let (out, rest) ← fill target bits data
      .ok (b :: out, rest)

/-- `bitsetDecodePartialBytes`, with the data that is left instead of its position. -/
def bitsetDecodePartialBytes (data : Bytes) (target : ℕ) : Except BitErr (Bytes × Bytes) :=
  if target = 0 then .ok ([], data)
  else if data = [] then .ok (replicate target 0, data)
  else if target = 1 then .ok (data.take 1, if data.headD 0 ≠ 0 then data.drop 1 else data)
  else do
    let (bitset, rest) ← bitsetDecodePartialBytes data ((target + 7) / 8)
    fill target (unpack bitset) rest
termination_by target
decreasing_by omega

def bitsetDecodeBytes (data : Bytes) (target : ℕ) : Except BitErr Bytes := do
  let (out, rest) ← bitsetDecodePartialBytes data target
  if rest = [] then .ok out else .error .errUnreferencedData

def decompressBytes (data : Bytes) (target : ℕ) : Except BitErr Bytes :=
  if target < data.length then .error .errExceededTarget
  else if data.length = target then .ok data
  else bitsetDecodeBytes data target

/-! ### Packing -/

theorem unpackByte_packByte {bits : List Bool} (h : 8 ≤ bits.length) :
    unpackByte (packByte bits) = bits.take 8 := by
  have hall : ∀ a b c d e f g h : Bool,
      unpackByte (packByte [a, b, c, d, e, f, g, h]) = [a, b, c, d, e, f, g, h] := by
    decide +kernel
  match bits, h with
  | a :: b :: c :: d :: e :: f :: g :: h :: rest, _ => exact hall a b c d e f g h

theorem unpack_pack {n : ℕ} {bits : List Bool} (h : bits.length = 8 * n) :
    unpack (pack n bits) = bits := by
  induction n generalizing bits with
  | zero => exact (length_eq_zero_iff.1 h).symm
  | succ n ih =>
    have hrest : unpack (pack n (bits.drop 8)) = bits.drop 8 := ih (by rw [length_drop]; omega)
    rw [unpack] at hrest
    rw [pack, unpack, flatMap_cons, hrest, unpackByte_packByte (by omega), take_append_drop]

theorem byte_cases (b : UInt8) :
    packByte (unpackByte b) = b ∧ (true ∈ unpackByte b ↔ b ≠ 0) := by
  have hall : ∀ n : Fin 256, packByte (unpackByte (.ofNat n)) = .ofNat n ∧
      (true ∈ unpackByte (.ofNat n) ↔ UInt8.ofNat n ≠ 0) := by
    decide +kernel
  have h := hall ⟨b.toNat, b.toNat_lt⟩
  rwa [UInt8.ofNat_toNat] at h

theorem pack_unpack (b : Bytes) : pack b.length (unpack b) = b := by
  induction b with
  | nil => rfl
  | cons b l ih =>
    have hpack : packByte (unpackByte b ++ unpack l) = packByte (unpackByte b) := rfl
    have hdrop : (unpackByte b ++ unpack l).drop 8 = unpack l := rfl
    rw [length_cons, unpack, flatMap_cons, pack, ← unpack, hpack, hdrop, (byte_cases b).1, ih]

theorem length_unpack (b : Bytes) : (unpack b).length = 8 * b.length := by
  simp [unpack, unpackByte, Nat.mul_comm]

theorem unpack_nonZeroBitset (data : Bytes) : unpack (nonZeroBitset data) = nonZeroBits data := by
  refine unpack_pack ?_
  rw [nonZeroBits, length_append, length_map, length_replicate]
  omega

theorem nonZeroBytes_nonZeroBitset (data : Bytes) :
    nonZeroBytes (nonZeroBitset data) = [] ↔ nonZeroBytes data = [] := by
  have hbits : ∀ b : Bytes, nonZeroBytes b = [] ↔ true ∉ unpack b := by
    intro b
    simp [nonZeroBytes, unpack, (byte_cases _).2]
  rw [hbits, unpack_nonZeroBitset, nonZeroBits]
  simp [nonZeroBytes]

/-! ### What is written is read -/

theorem fill_nonZeroBytes (rest : Bytes) (k : ℕ) : ∀ data : Bytes,
    fill data.length (data.map (· != 0) ++ replicate k false) (nonZeroBytes data ++ rest) =
      .ok (data, rest)
  | [] => by
    induction k with
    | zero => rfl
    | succ k ih =>
      have hfill : fill 0 (replicate k false) rest = .ok ([], rest) := ih
      change (fill 0 (replicate k false) rest >>= _) = _
      rw [hfill]
      rfl
  | b :: data => by
    have ih := fill_nonZeroBytes rest k data
    by_cases hb : b = 0
    · simp only [hb, nonZeroBytes, map_cons, cons_append, bne_self_eq_false, length_cons,
        filter_cons, Bool.false_eq_true, if_false, fill] at ih ⊢
      rw [Nat.add_sub_cancel, ih]
      rfl
    · simp only [bne_iff_ne.2 hb, nonZeroBytes, map_cons, cons_append, length_cons, filter_cons,
        if_true, fill, if_neg hb] at ih ⊢
      rw [ih]
      rfl

theorem bitsetDecodePartialBytes_encode (rest : Bytes) (data : Bytes) (h : nonZeroBytes data ≠ []) :
    bitsetDecodePartialBytes (bitsetEncodeBytes data ++ rest) data.length = .ok (data, rest) := by
  induction hn : data.length using Nat.strongRecOn generalizing data rest with
  | ind n ih =>
    subst hn
    rw [bitsetEncodeBytes]
    split_ifs with hone
    · match data, hone with
      | [], _ => exact absurd rfl h
      | [b], _ =>
        have hb : b ≠ 0 := by
          rintro rfl
          exact h rfl
        simp [bitsetDecodePartialBytes, nonZeroBytes, hb]
    · have hlen := length_pack ((data.length + 7) / 8) (nonZeroBits data)
      have hbitset := ih _ (by omega) (nonZeroBytes data ++ rest) (nonZeroBitset data)
        (mt (nonZeroBytes_nonZeroBitset data).1 h) hlen
      rw [bitsetDecodePartialBytes, if_neg (by omega), if_neg (by simp [h]), if_neg (by omega),
        append_assoc, hbitset]
      change fill data.length (unpack (nonZeroBitset data)) (nonZeroBytes data ++ rest) = _
      rw [unpack_nonZeroBitset]
      exact fill_nonZeroBytes rest _ data

/-! ### What is read has been written so -/

theorem of_fill {target : ℕ} {bits : List Bool} {data out rest : Bytes}
    (h : fill target bits data = .ok (out, rest)) :
    out.length = target ∧ data = nonZeroBytes out ++ rest ∧
      (target ≤ bits.length →
        bits = out.map (· != 0) ++ replicate (bits.length - target) false) := by
  fun_induction fill target bits data generalizing out rest with
  | case1 target data =>
    cases h
    simp [nonZeroBytes]
  | case2 target bits data ih =>
    obtain ⟨r, hfill, h⟩ := except_bind_eq_ok.1 h
    obtain ⟨hlen, hdata, hbits⟩ := ih hfill
    cases h
    cases target with
    | zero =>
      have hnil : r.1 = [] := length_eq_zero_iff.1 hlen
      rw [hnil] at hdata hbits ⊢
      refine ⟨rfl, hdata, fun _ => ?_⟩
      simpa [replicate_succ] using hbits (Nat.zero_le _)
    | succ target =>
      refine ⟨congrArg (· + 1) hlen, hdata, fun hle => ?_⟩
      simpa using hbits (by simpa using hle)
  | case3 | case4 | case5 => cases h
  | case6 target bits b data hb ih =>
    obtain ⟨r, hfill, h⟩ := except_bind_eq_ok.1 h
    obtain ⟨hlen, hdata, hbits⟩ := ih hfill
    cases h
    refine ⟨congrArg (· + 1) hlen, ?_, fun hle => ?_⟩
    · simp only [nonZeroBytes, filter_cons, bne_iff_ne.2 hb, if_true, cons_append] at hdata ⊢
      rw [← hdata]
    · simpa [hb] using hbits (by simpa using hle)

theorem encode_of_nonZeroBytes {data : Bytes} (h : nonZeroBytes data = []) :
    bitsetEncodeBytes data = [] := by
  rw [bitsetEncodeBytes, h]
  simp

/-- **What is read has been written so.** -/
theorem encode_of_decodePartial {target : ℕ} : ∀ {data out rest : Bytes},
    bitsetDecodePartialBytes data target = .ok (out, rest) →
    out.length = target ∧ data = bitsetEncodeBytes out ++ rest := by
  induction target using Nat.strongRecOn with
  | ind target ih =>
    intro data out rest h
    rw [bitsetDecodePartialBytes] at h
    split_ifs at h with h0 hnil h1
    · cases h
      exact ⟨h0.symm, by rw [encode_of_nonZeroBytes rfl, nil_append]⟩
    · cases h
      rw [encode_of_nonZeroBytes (by simp [nonZeroBytes]), hnil]
      exact ⟨length_replicate, rfl⟩
    iterate 2
      obtain ⟨b, data, rfl⟩ := exists_cons_of_ne_nil hnil
      cases h
      refine ⟨h1.symm, ?_⟩
      rw [bitsetEncodeBytes, if_pos (by simp)]
      simp_all [nonZeroBytes]
    obtain ⟨⟨bitset, mid⟩, hbitset, hfill⟩ := except_bind_eq_ok.1 h
    obtain ⟨hlen, hdata⟩ := ih _ (by omega) hbitset
    obtain ⟨hout, hmid, hbits⟩ := of_fill hfill
    rw [length_unpack, hlen] at hbits
    have hsame : nonZeroBitset out = bitset := by
      rw [nonZeroBitset, nonZeroBits, hout, ← hbits (by omega), ← hlen, pack_unpack]
    have hencode : bitsetEncodeBytes out =
        if nonZeroBytes out = [] then [] else bitsetEncodeBytes bitset ++ nonZeroBytes out := by
      rw [bitsetEncodeBytes, if_neg (by omega), hsame]
    refine ⟨hout, ?_⟩
    rw [hdata, hmid, hencode]
    split_ifs with hzero
    · rw [encode_of_nonZeroBytes (by rw [← hsame, nonZeroBytes_nonZeroBitset, hzero]), hzero]
      rfl
    · rw [append_assoc]

/-- **Compression loses nothing and is unique**: what is compressed is not longer and is read back;
and a string that is read with some length is the only one that is written for the result. -/
theorem compression_lossless :
    (∀ data : Bytes, decompressBytes (compressBytes data) data.length = .ok data ∧
      (compressBytes data).length ≤ data.length) ∧
    ∀ (data : Bytes) (target : ℕ) (out : Bytes), bitsetDecodeBytes data target = .ok out →
      out.length = target ∧ bitsetEncodeBytes out = data := by
  refine ⟨fun data => ?_, fun data target out h => ?_⟩
  · rw [compressBytes, decompressBytes]
    split_ifs with hlt h₁ h₂ <;> try omega
    · refine ⟨?_, hlt.le⟩
      rw [bitsetDecodeBytes]
      by_cases hzero : nonZeroBytes data = []
      · -- only zeros are left out altogether
        rw [encode_of_nonZeroBytes hzero, bitsetDecodePartialBytes, if_neg (by omega)]
        have hzeros : data = replicate data.length 0 :=
          eq_replicate_of_mem fun b hb => by simpa using filter_eq_nil_iff.1 hzero b hb
        exact congrArg Except.ok hzeros.symm
      · have h := bitsetDecodePartialBytes_encode [] data hzero
        rw [append_nil] at h
        rw [h]
        rfl
    · exact ⟨rfl, le_rfl⟩
  · obtain ⟨⟨y, rest⟩, hdecode, h⟩ := except_bind_eq_ok.1 h
    dsimp only at h
    split_ifs at h with hrest
    cases h
    obtain ⟨hlen, hdata⟩ := encode_of_decodePartial hdecode
    rw [hdata, hrest, append_nil]
    exact ⟨hlen, rfl⟩

end Bitutil
