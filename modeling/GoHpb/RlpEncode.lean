/-
**The recursive length prefix encoding.**

`common/rlp/encode.go` writes a value as a tree of byte strings and lists, each preceded by a
header that says what follows and how long it is.  This module models the writer on such trees;
that what it writes can be read in only one way is a matter of the reader, in `RlpDecode`.

The header of a long item holds the number of bytes of its length, in one byte next to the tag.
Lengths of eight bytes are the longest that fit, which is why the results about the encoding are
about those shorter than `2 ^ 64`; a Go slice is always shorter than that.

Main results:

* `Rlp.encodeString_eq` — **everything but a single small byte is written with a header**.
-/

import GoHpb.ByteString

namespace Rlp

/-! ### The writer -/

/-- What is written: a byte string, or a list of items. -/
inductive Item where
  | str (b : Bytes)
  | list (l : List Item)

/-- The header of an item of `size` bytes: the small tag plus the size if it is below 56, and
otherwise the large tag plus the number of bytes of the size, followed by these bytes. -/
def puthead (smalltag largetag size : ℕ) : Bytes :=
  if size < 56 then [UInt8.ofNat (smalltag + size)]
  else UInt8.ofNat (largetag + (bigBytes size).length) :: bigBytes size

/-- A byte string: one byte below `0x80` stands for itself, everything else has a header. -/
def encodeString (b : Bytes) : Bytes :=
  match b with
  | [c] => if c ≤ 0x7F then [c] else puthead 0x80 0xB7 1 ++ [c]
  | b => puthead 0x80 0xB7 b.length ++ b

mutual

/-- The encoding of an item. -/
def encode : Item → Bytes
  | Item.str b => encodeString b
  | Item.list l => puthead 0xC0 0xF7 (encodeItems l).length ++ encodeItems l

/-- The encodings of the items of a list, one after the other. -/
def encodeItems : List Item → Bytes
  | [] => []
  | i :: l => encode i ++ encodeItems l

end

/-! ### Lengths -/

theorem toNat_ofNat_of_lt {n : ℕ} (h : n < 256) : (UInt8.ofNat n).toNat = n := by
  simpa using h

theorem length_bigBytes_size {n : ℕ} (h : n < 2 ^ 64) : (bigBytes n).length ≤ 8 :=
  length_bigBytes_le (lt_of_lt_of_le h (by norm_num))

theorem encodeString_eq (b : Bytes) : (∃ c : UInt8, c ≤ 0x7F ∧ b = [c] ∧ encodeString b = [c]) ∨
      encodeString b = puthead 0x80 0xB7 b.length ++ b := by
  match b with
  | [] => exact .inr rfl
  | [c] =>
    by_cases hc : c ≤ 0x7F
    · exact .inl ⟨c, hc, rfl, by simp [encodeString, hc]⟩
    · exact .inr (by simp [encodeString, hc])
  | _ :: _ :: _ => exact .inr rfl

theorem length_le_encodeString (b : Bytes) : b.length ≤ (encodeString b).length := by
  rcases encodeString_eq b with ⟨c, -, rfl, h⟩ | h
  · simp [h]
  · rw [h, List.length_append]; omega

theorem length_encodeItems_le (l : List Item) :
    (encodeItems l).length ≤ (encode (.list l)).length := by
  rw [encode, List.length_append]; omega

end Rlp
