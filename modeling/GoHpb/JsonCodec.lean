/-
**JSON documents and codecs that read back what they write.**

A codec is a pair of functions together with the proof that reading a written value gives it back,
so that a codec built from codecs needs no further argument.  There are two kinds: text codecs, for
strings and for the keys of objects, and document codecs.

The text codecs are the two that occur as map keys: the `0x`-prefixed hexadecimal form of byte
arrays, with the checks of `hexutil`, and the decimal form of 64-bit numbers.  Objects made from a
map list its entries in the order of the key texts, and reading one inserts the entries one by one.

Main results:

* `Json.field_of_mem` — **a field that was written is read back**.
-/

import GoHpb.ByteString
import GoHpb.ExchangeSort

open List

/-! ### Texts -/

/-- The bytes of a text made of ASCII characters. -/
def ascii (s : String) : Bytes := s.toList.map fun c => .ofNat c.toNat

/-- A text for every value, from which the value is read back. -/
structure TextCodec (κ : Type*) where
  text : κ → Bytes
  parse : Bytes → Option κ
  parse_text : ∀ k, parse (text k) = some k

theorem TextCodec.text_injective {κ : Type*} (c : TextCodec κ) : Function.Injective c.text := by
  intro a b h
  have hab := c.parse_text a
  rw [h, c.parse_text b] at hab
  exact (Option.some.inj hab).symm

/-- The digit for a number below sixteen. -/
def encodeNibble (n : ℕ) : UInt8 := .ofNat (if n < 10 then 48 + n else 87 + n)

/-- The value of a hexadecimal digit in either case. -/
def decodeNibble (c : UInt8) : Option ℕ :=
  if 48 ≤ c.toNat ∧ c.toNat ≤ 57 then some (c.toNat - 48)
  else if 65 ≤ c.toNat ∧ c.toNat ≤ 70 then some (c.toNat - 55)
  else if 97 ≤ c.toNat ∧ c.toNat ≤ 102 then some (c.toNat - 87)
  else none

/-- Two digits for each byte. -/
def hexEncode : Bytes → Bytes
  | [] => []
  | b :: bs => encodeNibble (b.toNat / 16) :: encodeNibble (b.toNat % 16) :: hexEncode bs

/-- Reading two digits for each byte. -/
def hexDecode : Bytes → Option Bytes
  | [] => some []
  | [_] => none
  | c :: d :: cs =>
    match decodeNibble c, decodeNibble d, hexDecode cs with
    | some hi, some lo, some bs => some (.ofNat (16 * hi + lo) :: bs)
    | _, _, _ => none

theorem decodeNibble_encodeNibble {n : ℕ} (h : n < 16) :
    decodeNibble (encodeNibble n) = some n := by
  interval_cases n <;> rfl

theorem hexDecode_hexEncode (bs : Bytes) : hexDecode (hexEncode bs) = some bs := by
  induction bs with
  | nil => rfl
  | cons b bs ih =>
    have hlt := b.toNat_lt
    have hb : .ofNat (16 * (b.toNat / 16) + b.toNat % 16) = b := by
      rw [Nat.div_add_mod, UInt8.ofNat_toNat]
    simp only [hexEncode, hexDecode, ih, hb,
      decodeNibble_encodeNibble (show b.toNat / 16 < 16 by omega),
      decodeNibble_encodeNibble (show b.toNat % 16 < 16 by omega)]

theorem length_hexEncode (bs : Bytes) : (hexEncode bs).length = 2 * bs.length := by
  induction bs with
  | nil => rfl
  | cons b bs ih =>
    simp only [hexEncode, length_cons, ih]
    omega

/-- The digits after the prefix: an empty text has none, and any other text must start with `0x`
or `0X` and have an even number of them. -/
def checkText (input : Bytes) : Option Bytes :=
  if input = [] then some []
  else if input.take 2 = ascii "0x" ∨ input.take 2 = ascii "0X" then
    if (input.drop 2).length % 2 ≠ 0 then none else some (input.drop 2)
  else none

/-- Reading a byte array of a fixed length. -/
def unmarshalFixedText (n : ℕ) (input : Bytes) : Option (FixedBytes n) :=
  match checkText input with
  | none => none
  | some raw =>
    match hexDecode raw with
    | none => none
    | some bs => if h : bs.length = n then some ⟨bs, h⟩ else none

/-- Byte arrays are written with the prefix `0x`. -/
def marshalText (bs : Bytes) : Bytes := ascii "0x" ++ hexEncode bs

theorem checkText_marshalText (bs : Bytes) : checkText (marshalText bs) = some (hexEncode bs) := by
  have h0 : ascii "0x" = [48, 120] := by decide
  simp [checkText, marshalText, h0, length_hexEncode]

/-- The hexadecimal texts of byte arrays. -/
def hexCodec (n : ℕ) : TextCodec (FixedBytes n) where
  text a := marshalText a.bytes
  parse := unmarshalFixedText n
  parse_text a := by
    simp only [unmarshalFixedText, checkText_marshalText, hexDecode_hexEncode]
    exact dif_pos a.length_bytes

/-- The decimal digits of a number, most significant first. -/
def decimal (n : ℕ) : Bytes :=
  if n = 0 then [48] else ((Nat.digits 10 n).reverse).map fun d => .ofNat (48 + d)

/-- The value of a string of decimal digits, with the value of those already read. -/
def digitsValue : ℕ → Bytes → Option ℕ
  | acc, [] => some acc
  | acc, c :: cs =>
    if 48 ≤ c.toNat ∧ c.toNat ≤ 57 then digitsValue (10 * acc + (c.toNat - 48)) cs else none

/-- Reading a 64-bit number. -/
def parseUint (input : Bytes) : Option UInt64 :=
  if input = [] then none
  else match digitsValue 0 input with
    | none => none
    | some n => if n < 2 ^ 64 then some (.ofNat n) else none

theorem digitsValue_map {ds : List ℕ} (h : ∀ d ∈ ds, d < 10) (acc : ℕ) :
    digitsValue acc (ds.map fun d => .ofNat (48 + d)) =
      some (ds.foldl (fun acc d => 10 * acc + d) acc) := by
  induction ds generalizing acc with
  | nil => rfl
  | cons d ds ih =>
    have hd : d < 10 := h d (by simp)
    have hval : (UInt8.ofNat (48 + d)).toNat = 48 + d := by
      rw [UInt8.toNat_ofNat']
      omega
    have hsub : 48 + d - 48 = d := by omega
    rw [map_cons, digitsValue, hval, if_pos (by omega), hsub,
      ih (fun e he => h e (by simp [he])), foldl_cons]

theorem digitsValue_decimal (n : ℕ) : digitsValue 0 (decimal n) = some n := by
  by_cases h : n = 0
  · subst h
    rfl
  rw [decimal, if_neg h, digitsValue_map fun d hd =>
    Nat.digits_lt_base (by norm_num) (mem_reverse.1 hd)]
  have hfold : (Nat.digits 10 n).reverse.foldl (fun acc d => 10 * acc + d) 0 =
      Nat.ofDigits 10 (Nat.digits 10 n) := by
    rw [foldl_reverse, Nat.ofDigits_eq_foldr]
    simp only [Nat.cast_id, add_comm]
  rw [hfold, Nat.ofDigits_digits]

theorem parseUint_decimal (n : UInt64) : parseUint (decimal n.toNat) = some n := by
  have hne : decimal n.toNat ≠ [] := by
    rw [decimal]
    split_ifs with h
    · simp
    · simpa using Nat.digits_ne_nil_iff_ne_zero.2 h
  rw [parseUint, if_neg hne, digitsValue_decimal]
  simp only [n.toNat_lt, if_true, UInt64.ofNat_toNat]

/-- The decimal texts of 64-bit numbers. -/
def uintCodec : TextCodec UInt64 where
  text n := decimal n.toNat
  parse := parseUint
  parse_text := parseUint_decimal

/-! ### Maps and their entries -/

section Entries

variable {κ β : Type*} [DecidableEq κ]

/-- The entries of a finite map, in the order of the texts of their keys. -/
def mapEntries (c : TextCodec κ) (m : Finmap fun _ : κ => β) : List (κ × β) :=
  (@sortedKeys κ (LinearOrder.lift' c.text c.text_injective) m.keys).filterMap fun k =>
    (m.lookup k).map fun v => (k, v)

/-- The finite map with the given entries; a later entry replaces an earlier one. -/
def insertAll (m : Finmap fun _ : κ => β) (entries : List (κ × β)) : Finmap fun _ : κ => β :=
  entries.foldl (fun m e => m.insert e.1 e.2) m

theorem mem_mapEntries {c : TextCodec κ} {m : Finmap fun _ : κ => β} {k : κ} {v : β} :
    (k, v) ∈ mapEntries c m ↔ m.lookup k = some v := by
  simp only [mapEntries, mem_filterMap, mem_sortedKeys, Finmap.mem_keys,
    Option.map_eq_some_iff, Prod.mk.injEq]
  constructor
  · rintro ⟨k', -, w, hw, rfl, rfl⟩
    exact hw
  · intro hv
    exact ⟨k, Finmap.mem_iff.2 ⟨v, hv⟩, v, hv, rfl, rfl⟩

theorem lookup_insertAll {m m' : Finmap fun _ : κ => β} {entries : List (κ × β)}
    (h : ∀ e ∈ entries, m.lookup e.1 = some e.2) (k : κ) : (insertAll m' entries).lookup k =
      if k ∈ entries.map Prod.fst then m.lookup k else m'.lookup k := by
  induction entries generalizing m' with
  | nil => simp [insertAll]
  | cons e entries ih =>
    have hrest : (insertAll (m'.insert e.1 e.2) entries).lookup k =
        if k ∈ entries.map Prod.fst then m.lookup k else (m'.insert e.1 e.2).lookup k :=
      ih fun f hf => h f (by simp [hf])
    simp only [insertAll, foldl_cons] at hrest ⊢
    rw [hrest, map_cons]
    by_cases hmem : k ∈ entries.map Prod.fst
    · simp [hmem]
    by_cases hk : k = e.1
    · subst hk
      rw [if_neg hmem, if_pos (by simp), Finmap.lookup_insert, h e (by simp)]
    · rw [if_neg hmem, if_neg (by simp [hk, hmem]), Finmap.lookup_insert_of_ne _ hk]

/-- **A finite map is rebuilt from its entries.** -/
theorem insertAll_mapEntries (c : TextCodec κ) (m : Finmap fun _ : κ => β) :
    insertAll ∅ (mapEntries c m) = m := by
  refine Finmap.ext_lookup fun k => ?_
  rw [lookup_insertAll (m := m) (fun e he => mem_mapEntries.1 he)]
  split_ifs with hk
  · rfl
  cases hv : m.lookup k with
  | none => simp
  | some v =>
    exact absurd (mem_map_of_mem (f := Prod.fst) (mem_mapEntries.2 hv)) hk

end Entries

/-! ### Documents -/

/-- A JSON document. -/
inductive Json where
  | null
  | bool (b : Bool)
  | num (n : ℕ)
  | str (s : Bytes)
  | arr (elements : List Json)
  | obj (fields : List (Bytes × Json))

/-- A document for every value, from which the value is read back. -/
structure JsonCodec (β : Type*) where
  write : β → Json
  read : Json → Option β
  read_write : ∀ v, read (write v) = some v

/-- Reading the elements of a list, up to the first failure. -/
def readAll {α β : Type*} (f : α → Option β) : List α → Option (List β)
  | [] => some []
  | a :: as =>
    match f a, readAll f as with
    | some b, some bs => some (b :: bs)
    | _, _ => none

theorem readAll_map {α β : Type*} {f : α → Option β} {g : β → α} (h : ∀ b, f (g b) = some b)
    (bs : List β) : readAll f (bs.map g) = some bs := by
  induction bs with
  | nil => rfl
  | cons b bs ih => simp only [map_cons, readAll, h, ih]

namespace JsonCodec

/-- 64-bit numbers. -/
def uint64 : JsonCodec UInt64 where
  write n := .num n.toNat
  read
    | .num n => if n < 2 ^ 64 then some (.ofNat n) else none
    | .null => some 0
    | _ => none
  read_write n := by simp only [n.toNat_lt, if_true, UInt64.ofNat_toNat]

/-- Numbers that count things in memory. -/
def count : JsonCodec ℕ where
  write n := .num n
  read
    | .num n => some n
    | .null => some 0
    | _ => none
  read_write _ := rfl

/-- Truth values. -/
def boolean : JsonCodec Bool where
  write b := .bool b
  read
    | .bool b => some b
    | .null => some false
    | _ => none
  read_write _ := rfl

/-- Byte arrays of a fixed length. -/
def fixed (n : ℕ) : JsonCodec (FixedBytes n) where
  write a := .str ((hexCodec n).text a)
  read
    | .str s => (hexCodec n).parse s
    | _ => none
  read_write a := (hexCodec n).parse_text a

variable {κ β : Type*}

/-- Lists; the empty one is written as a nil slice is, and read in both forms. -/
def list (c : JsonCodec β) : JsonCodec (List β) where
  write
    | [] => .null
    | v :: vs => .arr ((v :: vs).map c.write)
  read
    | .arr elements => readAll c.read elements
    | .null => some []
    | _ => none
  read_write
    | [] => rfl
    | v :: vs => readAll_map c.read_write (v :: vs)

/-- Reading an entry of an object. -/
def readEntry (k : TextCodec κ) (c : JsonCodec β) (e : Bytes × Json) : Option (κ × β) :=
  match k.parse e.1, c.read e.2 with
  | some key, some v => some (key, v)
  | _, _ => none

theorem readEntry_write (k : TextCodec κ) (c : JsonCodec β) (e : κ × β) :
    readEntry k c (k.text e.1, c.write e.2) = some e := by
  simp only [readEntry, k.parse_text, c.read_write]

/-- Finite maps. -/
def map [DecidableEq κ] (k : TextCodec κ) (c : JsonCodec β) :
    JsonCodec (Finmap fun _ : κ => β) where
  write m := .obj ((mapEntries k m).map fun e => (k.text e.1, c.write e.2))
  read
    | .obj fields => (readAll (readEntry k c) fields).map (insertAll ∅)
    | .null => some ∅
    | _ => none
  read_write m := by
    simp only [readAll_map (readEntry_write k c), Option.map_some, insertAll_mapEntries]

/-- The values of a Go `map[κ]struct{}`. -/
def unit : JsonCodec Unit where
  write _ := .obj []
  read
    | .obj _ => some ()
    | .null => some ()
    | _ => none
  read_write _ := rfl

/-- Finite sets, which are maps to the empty structure. -/
def set [DecidableEq κ] (k : TextCodec κ) : JsonCodec (Finset κ) where
  write s := .obj ((@sortedKeys κ (LinearOrder.lift' k.text k.text_injective) s).map fun a =>
    (k.text a, unit.write ()))
  read
    | .obj fields => (readAll (readEntry k unit) fields).map fun l => (l.map Prod.fst).toFinset
    | .null => some ∅
    | _ => none
  read_write s := by
    have hread := readAll_map (readEntry_write k unit)
      ((@sortedKeys κ (LinearOrder.lift' k.text k.text_injective) s).map fun a => (a, ()))
    rw [List.map_map] at hread
    simp only [Function.comp_def] at hread
    simp only [hread, Option.map_some, List.map_map, Function.comp_def, List.map_id']
    congr 1
    ext a
    simp

end JsonCodec

/-! ### Structures -/

namespace Json

/-- Reading a field of an object: the last entry with this name counts, and a missing one leaves
the zero value. -/
def field {β : Type*} (c : JsonCodec β) (zero : β) (name : Bytes) : List (Bytes × Json) → Option β
  | [] => some zero
  | e :: es =>
    if es.any fun f => f.1 = name then field c zero name es
    else if e.1 = name then c.read e.2 else field c zero name es

variable {β : Type*} {c : JsonCodec β} {zero : β} {name : Bytes} {es : List (Bytes × Json)}

/-- **A field that was written is read back**, if no two fields have the same name. -/
theorem field_of_mem {v : β} (hnodup : (es.map Prod.fst).Nodup) (hmem : (name, c.write v) ∈ es) :
    field c zero name es = some v := by
  induction es with
  | nil => simp at hmem
  | cons e es ih =>
    rw [map_cons, nodup_cons] at hnodup
    rcases mem_cons.1 hmem with rfl | hmem
    · have hany : (es.any fun f => f.1 = name) = false := by
        rw [any_eq_false]
        intro f hf hname
        exact hnodup.1 (mem_map.2 ⟨f, hf, by simpa using hname⟩)
      simp [field, hany, c.read_write]
    · have hany : (es.any fun f => f.1 = name) = true :=
        any_eq_true.2 ⟨_, hmem, by simp⟩
      rw [field, hany, if_pos rfl, ih hnodup.2 hmem]

end Json
