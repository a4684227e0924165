/-
**The keys of the Merkle Patricia trie.**

A model of `common/trie/encoding.go`.  Inside the trie a key is a list of hexadecimal digits that
ends with the terminator 16.  In an encoded node the digits are packed two to a byte, behind a flag
that says whether there was a terminator and whether the number of digits is odd.

Main results:

* `compactToHex_hexToCompact` — **unpacking gives back what was packed**.
-/

import GoHpb.ByteString

open List

namespace MerkleTrie

/-- A hexadecimal digit, or the terminator 16. -/
abbrev Nibble : Type := Fin 17

instance Nibble.neZero : NeZero 17 := ⟨nofun⟩

/-! ### Packing -/

/-- The two digits of a byte. -/
def byteNibbles (b : UInt8) : List Nibble :=
  [⟨b.toNat / 16, by have := b.toNat_lt; omega⟩, ⟨b.toNat % 16, by omega⟩]

def keybytesToHex (str : Bytes) : List Nibble := str.flatMap byteNibbles ++ [16]

def hasTerm (s : List Nibble) : Bool := s.getLast? = some 16

/-- The byte of a digit. -/
def nibbleByte (a : Nibble) : UInt8 := UInt8.ofNat a.val

/-- `decodeNibbles`; the callers give it an even number of digits. -/
def decodeNibbles : List Nibble → Bytes
  | a :: c :: rest => (nibbleByte a <<< 4 ||| nibbleByte c) :: decodeNibbles rest
  | _ => []

/-- The first part of the flag byte. -/
def termFlag (terminator : Bool) : UInt8 := (if terminator then (1 : UInt8) else 0) <<< 5

/-- The bytes of some digits: behind an even number of them the flag byte has no digit. -/
def packNibbles (terminator : Bool) (hex : List Nibble) : Bytes :=
  if hex.length % 2 = 1 then
    match hex with
    | [] => []
    | a :: rest => (termFlag terminator ||| (1 : UInt8) <<< 4 ||| nibbleByte a) ::
        decodeNibbles rest
  else termFlag terminator :: decodeNibbles hex

def hexToCompact (hex : List Nibble) : Bytes :=
  packNibbles (hasTerm hex) (if hasTerm hex then hex.dropLast else hex)

/-- `compactToHex`; none is the panic on an empty string. -/
def compactToHex (compact : Bytes) : Option (List Nibble) :=
  let base := (keybytesToHex compact).dropLast
  match base with
  | [] => none
  | flag :: _ =>
    let base := if 2 ≤ flag.val then base ++ [16] else base
    some (base.drop (2 - flag.val % 2))

/-! ### Digits -/

/-- No terminator. -/
def HexDigits (s : List Nibble) : Prop := ∀ a ∈ s, a ≠ 16

/-- A terminator at the end and nowhere else. -/
def HexKey (s : List Nibble) : Prop := ∃ digits, s = digits ++ [16] ∧ HexDigits digits

instance instDecidableHexDigits (s : List Nibble) : Decidable (HexDigits s) :=
  inferInstanceAs (Decidable (∀ a ∈ s, a ≠ 16))

@[simp] theorem length_keybytesToHex (str : Bytes) :
    (keybytesToHex str).length = 2 * str.length + 1 := by
  have hflat : (str.flatMap byteNibbles).length = 2 * str.length := by
    induction str with
    | nil => rfl
    | cons b str ih =>
      rw [flatMap_cons, length_append, ih, length_cons]
      change 2 + _ = _
      omega
  rw [keybytesToHex, length_append, hflat]
  rfl

theorem hexKey_keybytesToHex (str : Bytes) : HexKey (keybytesToHex str) := by
  refine ⟨str.flatMap byteNibbles, rfl, fun a ha => ?_⟩
  obtain ⟨b, -, hab⟩ := mem_flatMap.1 ha
  have hlt := b.toNat_lt
  simp only [byteNibbles, mem_cons, not_mem_nil, or_false] at hab
  rcases hab with rfl | rfl
  · exact Fin.ne_of_val_ne (show b.toNat / 16 ≠ 16 by omega)
  · exact Fin.ne_of_val_ne (show b.toNat % 16 ≠ 16 by omega)

theorem byteNibbles_injective : Function.Injective byteNibbles := by
  intro a b h
  simp only [byteNibbles, List.cons.injEq, Fin.mk.injEq, and_true] at h
  rw [← UInt8.toNat_inj]
  omega

/-- **A key is determined by its digits.** -/
theorem keybytesToHex_injective : Function.Injective keybytesToHex := by
  intro s t h
  have hflat := append_cancel_right h
  induction s generalizing t with
  | nil =>
    cases t with
    | nil => rfl
    | cons b t => simp [byteNibbles] at hflat
  | cons a s ih =>
    cases t with
    | nil => simp [byteNibbles] at hflat
    | cons b t =>
      rw [flatMap_cons, flatMap_cons] at hflat
      obtain ⟨hhead, htail⟩ := append_inj hflat rfl
      rw [byteNibbles_injective hhead, ih (by rw [keybytesToHex, keybytesToHex, htail]) htail]

theorem byteNibbles_pack : ∀ a c : Nibble, a ≠ 16 → c ≠ 16 →
    byteNibbles (nibbleByte a <<< 4 ||| nibbleByte c) = [a, c] := by
  decide

theorem flatMap_decodeNibbles : ∀ s : List Nibble, HexDigits s → s.length % 2 = 0 →
    (decodeNibbles s).flatMap byteNibbles = s
  | [], _, _ => rfl
  | [_], _, hlen => by simp at hlen
  | a :: c :: rest, hdig, hlen => by
    have ha := hdig a (by simp)
    have hc := hdig c (by simp)
    have hrest : HexDigits rest := fun x hx => hdig x (by simp [hx])
    rw [decodeNibbles, flatMap_cons, byteNibbles_pack a c ha hc,
      flatMap_decodeNibbles rest hrest (by simp at hlen; omega)]
    rfl

theorem byteNibbles_flag : ∀ (terminator : Bool) (a : Nibble), a ≠ 16 →
    byteNibbles (termFlag terminator ||| (1 : UInt8) <<< 4 ||| nibbleByte a) =
      [if terminator then 3 else 1, a] ∧
      byteNibbles (termFlag terminator) = [if terminator then 2 else 0, 0] := by
  decide

variable {s : List Nibble}

theorem compactToHex_packNibbles (terminator : Bool) (hdig : HexDigits s) :
    compactToHex (packNibbles terminator s) = some (if terminator then s ++ [16] else s) := by
  unfold packNibbles
  by_cases hodd : s.length % 2 = 1
  · rw [if_pos hodd]
    cases s with
    | nil => simp at hodd
    | cons a rest =>
      have ha := hdig a (by simp)
      have hrest : HexDigits rest := fun x hx => hdig x (by simp [hx])
      simp only [compactToHex, keybytesToHex, flatMap_cons, dropLast_concat,
        (byteNibbles_flag terminator a ha).1,
        flatMap_decodeNibbles rest hrest (by simp at hodd; omega)]
      cases terminator <;> simp
  · rw [if_neg hodd]
    simp only [compactToHex, keybytesToHex, flatMap_cons, dropLast_concat,
      (byteNibbles_flag terminator 0 (by decide)).2, flatMap_decodeNibbles s hdig (by omega)]
    cases terminator <;> simp

theorem hasTerm_concat (s : List Nibble) : hasTerm (s ++ [16]) = true := by
  simp [hasTerm]

theorem hasTerm_of_digits (h : HexDigits s) : hasTerm s = false := by
  rw [hasTerm, decide_eq_false_iff_not]
  intro hlast
  exact h 16 (mem_of_getLast? hlast) rfl

/-- **Unpacking gives back what was packed.** -/
theorem compactToHex_hexToCompact (h : HexDigits s ∨ HexKey s) :
    compactToHex (hexToCompact s) = some s := by
  rcases h with hdig | ⟨digits, rfl, hdig⟩
  · have hpack := compactToHex_packNibbles false hdig
    simpa [hexToCompact, hasTerm_of_digits hdig] using hpack
  · have hpack := compactToHex_packNibbles true hdig
    simpa [hexToCompact, hasTerm_concat] using hpack

theorem hexToCompact_inj {s t : List Nibble} (hs : HexDigits s ∨ HexKey s)
    (ht : HexDigits t ∨ HexKey t) (h : hexToCompact s = hexToCompact t) : s = t := by
  have hsome := compactToHex_hexToCompact hs
  rw [h, compactToHex_hexToCompact ht] at hsome
  exact (Option.some.inj hsome).symm

end MerkleTrie
