/-
**Decoding into typed values.**

A model of the writers and decoders that `makeWriter` and `makeDecoder` of `common/rlp` choose for
the types built from unsigned integers, big integers, booleans, strings, byte arrays, slices and
structs.

A decoder has to leave the stream rearmed.  One of them does not: `decodeByteArray` reads an array
of one byte with `Uint`, which refuses a zero byte before it rearms the stream, and ignores the
error.  The next value is then taken from what was read ahead for the array.

Main results:

* `Rlp.yields_decode` — **a value that round-trips is read**.
-/

import GoHpb.RlpBuffer

open FailState Rlp.Stream Stream List

namespace Rlp

/-! ### Values -/

/-- The unsigned integers of a size. -/
def Word : UintSize → Type
  | .u8 => UInt8
  | .u16 => UInt16
  | .u32 => UInt32
  | .u64 => UInt64

namespace Word

def toNat : {size : UintSize} → Word size → ℕ
  | .u8, w => UInt8.toNat w
  | .u16, w => UInt16.toNat w
  | .u32, w => UInt32.toNat w
  | .u64, w => UInt64.toNat w

/-- `SetUint`. -/
def ofNat : (size : UintSize) → ℕ → Word size
  | .u8, n => UInt8.ofNat n
  | .u16, n => UInt16.ofNat n
  | .u32, n => UInt32.ofNat n
  | .u64, n => UInt64.ofNat n

theorem ofNat_toNat {size : UintSize} (w : Word size) : ofNat size w.toNat = w := by
  cases size with
  | u8 => exact UInt8.ofNat_toNat
  | u16 => exact UInt16.ofNat_toNat
  | u32 => exact UInt32.ofNat_toNat
  | u64 => exact UInt64.ofNat_toNat

theorem toNat_lt {size : UintSize} (w : Word size) : w.toNat < 256 ^ (size.bits / 8) := by
  cases size with
  | u8 => exact UInt8.toNat_lt w
  | u16 => exact UInt16.toNat_lt w
  | u32 => exact UInt32.toNat_lt w
  | u64 => exact UInt64.toNat_lt w

end Word

mutual

/-- The values of a type; nil slices are empty ones. -/
def Ty.Value : Ty → Type
  | .uint size => Word size
  | .bigInt => ℕ
  | .bool => Bool
  | .string => Bytes
  | .byteArray n => FixedBytes n
  | .slice t => List t.Value
  | .struct fields => fields.Values
  | .iface => Item

/-- The values of the fields of a struct. -/
def Fields.Values : Fields → Type
  | .nil => Unit
  | .cons _ t rest => t.Value × rest.Values

end

/-! ### Writers -/

def writeUint (i : ℕ) : EncBuf → EncBuf :=
  if i = 0 then EncBuf.write [0x80]
  else if i < 128 then EncBuf.write [.ofNat i]
  else EncBuf.write (.ofNat (0x80 + (bigBytes i).length) :: bigBytes i)

def writeBool (b : Bool) : EncBuf → EncBuf :=
  if b then EncBuf.write [0x01] else EncBuf.write [0x80]

def writeBigInt (i : ℕ) : EncBuf → EncBuf :=
  if i = 0 then EncBuf.write [0x80] else EncBuf.encodeString (bigBytes i)

/-- The elements of a slice, one after the other. -/
def writeElems {α : Type} (writer : α → EncBuf → EncBuf) : List α → EncBuf → EncBuf
  | [], w => w
  | a :: l, w => writeElems writer l (writer a w)

/-- The writer of a slice: a byte slice is written as a string. -/
def sliceWriter : (t : Ty) → (t.Value → EncBuf → EncBuf) → List t.Value → EncBuf → EncBuf
  | .uint .u8, _, l => EncBuf.encodeString l
  | _, writer, l => writeList (writeElems writer l)

mutual

/-- The writer of a type. -/
def Ty.write : (t : Ty) → t.Value → EncBuf → EncBuf
  | .uint _, v => writeUint (Word.toNat v)
  | .bigInt, v => writeBigInt v
  | .bool, v => writeBool v
  | .string, v => EncBuf.encodeString v
  | .byteArray _, v => EncBuf.encodeString (FixedBytes.bytes v)
  | .slice t, v => sliceWriter t t.write v
  | .struct fields, v => writeList (fields.write v)
  | .iface, v => writeItem v

/-- Writing the fields of a struct. -/
def Fields.write : (fields : Fields) → fields.Values → EncBuf → EncBuf
  | .nil, _, w => w
  | .cons _ t rest, v, w => rest.write v.2 (t.write v.1 w)

end

/-- `EncodeToBytes` of a value. -/
def Ty.encodeToBytes (t : Ty) (v : t.Value) : Bytes := (t.write v EncBuf.empty).toBytes

/-! ### Decoders -/

def decodeUint (size : UintSize) : Read (Word size) := do
  let num ← mapError (wrapStreamError (.uint size)) (uint size.bits)
  pure (Word.ofNat size num)

def decodeBool : Read Bool := mapError (wrapStreamError .bool) bool

def decodeString : Read Bytes := mapError (wrapStreamError .string) bytes

def decodeByteSlice : Read Bytes :=
  mapError (wrapStreamError (.slice (.uint .u8))) bytes

def decodeBigInt : Read ℕ := do
  let b ← mapError (wrapStreamError .bigInt) bytes
  if 0 < b.length ∧ b.headD 0 = 0 then
    throw (wrapStreamError .bigInt .errCanonInt)
  else pure (beNat b)

/-- The first result of `Uint`, whatever its error. -/
def uintOrZero : Read ℕ := fun s =>
  match uint 64 s with
  | .ok v s' => .ok v s'
  | .error _ s' => .ok 0 s'

def decodeByteArray (n : ℕ) : Read (FixedBytes n) := do
  let k ← getKind
  match k.1 with
  | .byte =>
    if n = 0 then
      throw (.decodeError "input string too long" (.byteArray n) [])
    else if 1 < n then
      throw (.decodeError "input string too short" (.byteArray n) [])
    else do
      let bv ← uintOrZero
      pure (FixedBytes.setBytes n [.ofNat bv])
  | .string =>
    if n < k.2 then
      throw (.decodeError "input string too long" (.byteArray n) [])
    else if k.2 < n then
      throw (.decodeError "input string too short" (.byteArray n) [])
    else do
      let b ← readFull n
      if k.2 = 1 ∧ b.headD 0 < 128 then
        throw (wrapStreamError (.byteArray n) .errCanonSize)
      else pure (FixedBytes.setBytes n b)
  | .list => throw (wrapStreamError (.byteArray n) .errExpectedString)

/-- The decoder of a slice, as `makeListDecoder` chooses it. -/
def sliceDecoder (rounds : ℕ) : (t : Ty) → Read t.Value → Read (List t.Value)
  | .uint .u8, _ => decodeByteSlice
  | t, elemdec => decodeListSlice (.slice t) elemdec rounds

/-- The error of a field of a struct. -/
def fieldErr (typ : Ty) (name : String) : DecodeErr → DecodeErr
  | .eol => .decodeError "too few elements" typ []
  | e => addErrorContext (.field name) e

/-- The decoder of a struct, around that of its fields. -/
def decodeStruct {α : Type} (typ : Ty) (fields : Read α) : Read α := do
  let _ ← mapError (wrapStreamError typ) list
  let v ← fields
  mapError (wrapStreamError typ) listEnd
  pure v

mutual

/-- The decoder of a type. -/
def Ty.decode (rounds : ℕ) : (t : Ty) → Read t.Value
  | .uint size => decodeUint size
  | .bigInt => decodeBigInt
  | .bool => decodeBool
  | .string => decodeString
  | .byteArray n => decodeByteArray n
  | .slice t => sliceDecoder rounds t (t.decode rounds)
  | .struct fields => decodeStruct (.struct fields) (fields.decode rounds (.struct fields))
  | .iface => decodeInterface rounds

/-- Reading the fields of a struct. -/
def Fields.decode (rounds : ℕ) (typ : Ty) : (fields : Fields) → Read fields.Values
  | .nil => pure ()
  | .cons name t rest => do
      let v ← mapError (fieldErr typ name) (t.decode rounds)
      let vs ← rest.decode rounds typ
      pure (v, vs)

end

/-! ### What the writers write -/

/-- The tree of a slice. -/
def sliceItem : (t : Ty) → (t.Value → Item) → List t.Value → Item
  | .uint .u8, _, l => .str l
  | _, item, l => .list (l.map item)

mutual

/-- The tree that is written for a value. -/
def Ty.toItem : (t : Ty) → t.Value → Item
  | .uint _, v => .str (bigBytes (Word.toNat v))
  | .bigInt, v => .str (bigBytes v)
  | .bool, v => .str (bif v then [1] else [])
  | .string, v => .str v
  | .byteArray _, v => .str (FixedBytes.bytes v)
  | .slice t, v => sliceItem t t.toItem v
  | .struct fields, v => .list (fields.toItems v)
  | .iface, v => v

/-- The trees of the fields of a struct. -/
def Fields.toItems : (fields : Fields) → fields.Values → List Item
  | .nil, _ => []
  | .cons _ t rest, v => t.toItem v.1 :: rest.toItems v.2

end

/-- What is written for a value. -/
def Ty.enc (t : Ty) (v : t.Value) : Bytes := encode (t.toItem v)

variable {n : ℕ} {α : Type} {t : Ty} {c : Cursor} {b : Bytes}

/-- Only byte slices are special. -/
theorem slice_of_ne (h : t ≠ .uint .u8) :
    (∀ writer l, sliceWriter t writer l = writeList (writeElems writer l)) ∧
    (∀ item l, sliceItem t item l = .list (l.map item)) ∧
    ∀ rounds dec, sliceDecoder rounds t dec = decodeListSlice (.slice t) dec rounds := by
  cases t with
  | uint size =>
    cases size with
    | u8 => exact absurd rfl h
    | _ => exact ⟨fun _ _ => rfl, fun _ _ => rfl, fun _ _ => rfl⟩
  | _ => exact ⟨fun _ _ => rfl, fun _ _ => rfl, fun _ _ => rfl⟩

theorem bigBytes_of_lt (hpos : 0 < n) (hlt : n < 256) : bigBytes n = [.ofNat n] := by
  have hdigits : Nat.digits 256 n = [n] := Nat.digits_of_lt 256 n hpos.ne' hlt
  rw [bigBytes, hdigits]
  rfl

theorem writes_writeUint (h : n < 2 ^ 64) : Writer (writeUint n) (encodeString (bigBytes n)) := by
  unfold writeUint
  split_ifs with hzero hsmall
  · rw [hzero, bigBytes_zero]
    exact Writer.write _
  · have hbytes := bigBytes_of_lt (n := n) (by omega) (by omega)
    have hle : UInt8.ofNat n ≤ 0x7F := by
      rw [UInt8.le_iff_toNat_le, toNat_ofNat_of_lt (by omega)]
      simp
      omega
    rw [hbytes, encodeString, if_pos hle]
    exact Writer.write _
  have hlen := length_bigBytes_size h
  have hencode : encodeString (bigBytes n) =
      .ofNat (0x80 + (bigBytes n).length) :: bigBytes n := by
    rcases encodeString_cases (bigBytes n) with ⟨v, hv, hb, -⟩ | ⟨hencode, -⟩
    · -- a single small byte is below 128
      exfalso
      have hn := beNat_bigBytes n
      rw [hb, beNat_singleton] at hn
      have := UInt8.lt_iff_toNat_lt.1 hv
      simp at this
      omega
    · rw [hencode, header, puthead, if_pos (by omega)]
      rfl
  rw [hencode]
  exact Writer.write _

theorem writes_writeElems {writer : α → EncBuf → EncBuf} {item : α → Item}
    (h : ∀ a, Writer (writer a) (encode (item a))) :
    ∀ l : List α, Writer (writeElems writer l) (encodeItems (l.map item)) := by
  intro l
  induction l with
  | nil =>
    exact Writer.id
  | cons a l ih =>
    exact (h a).comp ih

mutual

/-- **The writer of a type writes the tree of the value.** -/
theorem writes_write : ∀ (t : Ty) (v : t.Value), Writer (t.write v) (t.enc v)
  | .uint size, v => by
    change Writer (writeUint (Word.toNat v)) (encodeString (bigBytes (Word.toNat v)))
    refine writes_writeUint (lt_of_lt_of_le (Word.toNat_lt v) ?_)
    cases size <;> simp [UintSize.bits]
  | .bigInt, v => by
    change Writer (writeBigInt v) (encodeString (bigBytes v))
    unfold writeBigInt
    split_ifs with hzero
    · rw [hzero, bigBytes_zero]
      exact Writer.write _
    · exact Writer.write _
  | .bool, v => by
    cases v with
    | false => exact Writer.write [0x80]
    | true => exact Writer.write [0x01]
  | .string, v => Writer.write (encodeString v)
  | .byteArray _, v => Writer.write (encodeString (FixedBytes.bytes v))
  | .slice t, v => by
    have hslice : ∀ l : List t.Value,
        Writer (sliceWriter t t.write l) (encode (sliceItem t t.toItem l)) := by
      intro l
      by_cases ht : t = .uint .u8
      · subst ht
        exact Writer.write (encodeString l)
      · rw [(slice_of_ne ht).1, (slice_of_ne ht).2.1, encode]
        exact (writes_writeElems (fun a => writes_write t a) l).list
    exact hslice v
  | .struct fields, v => by
    change Writer (writeList (fields.write v)) (encode (.list (fields.toItems v)))
    exact (writes_writeFields fields v).list
  | .iface, v => writes_writeItem v

theorem writes_writeFields : ∀ (fields : Fields) (v : fields.Values),
    Writer (fields.write v) (encodeItems (fields.toItems v))
  | .nil, v => by
    exact Writer.id
  | .cons _ t rest, v => by
    exact (writes_write t v.1).comp (writes_writeFields rest v.2)

end

theorem Ty.encodeToBytes_eq (t : Ty) (v : t.Value) : t.encodeToBytes v = t.enc v :=
  toBytes_of_writes (writes_write t v).writes

/-! ### The values that stall a stream -/

/-- The values after which the stream is not rearmed: arrays of one zero byte. -/
def Ty.Stalls : (t : Ty) → t.Value → Prop
  | .byteArray _, v => FixedBytes.bytes v = [0]
  | _, _ => False

/-- Every element of a slice. -/
def AllElems {α : Type} (P : α → Prop) (l : List α) : Prop := ∀ a ∈ l, P a

mutual

/-- The values in which nothing follows an array of one zero byte: it is not an element of a slice,
and not a field of a struct before another one. -/
def Ty.RoundTrips : (t : Ty) → t.Value → Prop
  | .slice t, v => AllElems (fun a => t.RoundTrips a ∧ ¬ t.Stalls a) v
  | .struct fields, v => fields.RoundTrip v
  | _, _ => True

def Fields.RoundTrip : (fields : Fields) → fields.Values → Prop
  | .nil, _ => True
  | .cons _ t rest, v =>
    t.RoundTrips v.1 ∧ (rest ≠ .nil → ¬ t.Stalls v.1) ∧ rest.RoundTrip v.2

end

/-- A zero byte has been read ahead, and is still to be taken. -/
structure Stream.Stalled (s : Stream) : Prop where
  ahead : s.Ahead .byte 0 s.toCursor
  byteval : s.byteval = 0

/-- The stream after the value `v`, which took `n` bytes. -/
structure After (t : Ty) (v : t.Value) (s : Stream) (n : ℕ) (s' : Stream) : Prop where
  cursor : s'.toCursor = s.toCursor.advance n
  stalled : t.Stalls v → s'.Stalled
  armed : ¬ t.Stalls v → s'.kind = none

/-! ### A value is read -/

variable {s s' : Stream} {rest : Bytes} {rounds : ℕ}

theorem mapError_of_ok {x : Read α} {a : α} (f : DecodeErr → DecodeErr)
    (h : x s = .ok a s') : mapError f x s = .ok a s' :=
  mapError_eq_ok.2 h

theorem yields_mapError {x : Read α} {a : α} {Q : Stream → Prop}
    {f : DecodeErr → DecodeErr} (h : Yields x s a Q) : Yields (mapError f x) s a Q := by
  obtain ⟨s', hx, hQ⟩ := h
  exact ⟨s', mapError_eq_ok.2 hx, hQ⟩

theorem uint_of_byte {maxbits : ℕ} (hahead : s.Ahead .byte 0 c) (hne : s.byteval ≠ 0) :
    uint maxbits s = .ok s.byteval.toNat { s with kind := none } := by
  unfold uint
  rw [bind_ok hahead.getKind]
  change (if s.byteval = 0 then _ else _ : Read ℕ) s = _
  rw [if_neg hne]
  rfl

theorem uint_of_zero {maxbits : ℕ} (hahead : s.Ahead .byte 0 c) (hzero : s.byteval = 0) :
    uint maxbits s = .error .errCanonInt s := by
  unfold uint
  rw [bind_ok hahead.getKind]
  change (if s.byteval = 0 then _ else _ : Read ℕ) s = _
  rw [if_pos hzero]
  rfl

theorem yields_uint (maxbits : ℕ) (hfront : Front s (encodeString (bigBytes n)) rest)
    (hn : n < 256 ^ (maxbits / 8)) (hbits : maxbits / 8 ≤ 8) :
    Yields (uint maxbits) s n (s.Moved (encodeString (bigBytes n)).length) := by
  have hlen := length_bigBytes_le hn
  have hvalue := beNat_bigBytes n
  have hget : ∀ {k size s₁}, getKind s = .ok (k, size) s₁ →
      uint maxbits s = uint maxbits s₁ := getKind_bind (.inl hfront.kind)
  rcases encodeString_cases (bigBytes n) with ⟨v, hv, hb, hencode⟩ | ⟨hencode, hcanon⟩
  · have hfits := hfront.fits
    have hinput := hfront.input
    rw [hencode] at hfits hinput ⊢
    obtain ⟨s₁, hkind, hahead, hbyte⟩ := yields_getKind_byte hfront.kind hv hfits hinput
    rw [hb, beNat_singleton] at hvalue
    have hne : s₁.byteval ≠ 0 := by
      rw [hbyte]
      rintro rfl
      rw [← hvalue] at hb
      simp at hb
    refine ⟨{ s₁ with kind := none }, ?_, hahead.cursor, rfl⟩
    rw [hget hkind, uint_of_byte hahead hne, hbyte, hvalue]
  have hfits := hfront.fits
  have hinput := hfront.input
  rw [hencode, length_append] at hfits
  rw [hencode, append_assoc] at hinput
  obtain ⟨s₁, hkind, hahead⟩ := yields_getKind hfront.kind (by simp) (by omega) hfits hinput
  have hdrop : s₁.input = bigBytes n ++ rest := by
    rw [hahead.cursor]
    simp only [Cursor.advance, hinput]
    exact drop_left
  -- the number after the header
  have hread : ∃ s₂, readUint (bigBytes n).length s₁ = .ok n s₂ ∧
      s₂.toCursor = s₁.toCursor.advance (bigBytes n).length ∧ s₂.kind = none := by
    rcases Nat.eq_zero_or_pos n with rfl | hpos
    · exact ⟨{ s₁ with kind := none }, rfl, (Cursor.advance_zero _).symm, rfl⟩
    have htake : s₁.input.take (bigBytes n).length = bigBytes n := by
      rw [hdrop, take_left]
    refine ⟨s₁.skip (bigBytes n).length, (readUint_eq_ok (length_bigBytes_pos hpos)).2
      ⟨?_, .inr ?_, ?_, rfl⟩, rfl, rfl⟩
    · rw [hahead.cursor]
      exact hfits.advance
    · rw [htake]
      exact headD_bigBytes_ne hpos
    · rw [htake, hvalue]
  obtain ⟨s₂, hread, hcursor, hkind₂⟩ := hread
  refine ⟨s₂, ?_, ?_, hkind₂⟩
  · rw [hget hkind]
    unfold uint
    rw [bind_ok hahead.getKind]
    change (if maxbits / 8 < (bigBytes n).length then _ else _ : Read ℕ) s₁ = _
    rw [if_neg (by omega), bind_ok (mapError_eq_ok.2 hread), if_neg]
    · rfl
    rintro ⟨hpos, hsmall⟩
    have hn : 0 < n := by
      rcases Nat.eq_zero_or_pos n with rfl | h
      · simp at hpos
      · exact h
    refine hcanon ?_
    rw [bigBytes_of_lt hn (by omega)]
    refine ⟨rfl, ?_⟩
    rw [headD_cons, UInt8.lt_iff_toNat_lt, toNat_ofNat_of_lt (by omega)]
    exact hsmall
  · rw [hcursor, hahead.cursor, hencode, length_append, Cursor.advance_advance]

theorem yields_decodeBigInt (hfront : Front s (encodeString (bigBytes n)) rest)
    (hlen : (encodeString (bigBytes n)).length < 2 ^ 64) :
    Yields decodeBigInt s n (s.Moved (encodeString (bigBytes n)).length) := by
  refine (yields_mapError (hfront.yields_bytes hlen)).bind fun s' hmoved => ?_
  have hcanon : ¬ (0 < (bigBytes n).length ∧ (bigBytes n).headD 0 = 0) := by
    rintro ⟨hpos, hzero⟩
    rcases Nat.eq_zero_or_pos n with rfl | hn
    · simp at hpos
    · exact headD_bigBytes_ne hn hzero
  rw [if_neg hcanon, beNat_bigBytes]
  exact Yields.pure hmoved

theorem decodeByteArray_getKind {k : Kind} {size : ℕ} (hopen : s.Open)
    (h : getKind s = .ok (k, size) s') : decodeByteArray n s = decodeByteArray n s' :=
  getKind_bind hopen h

/-- An array of one byte, which was read ahead: the stream stays as it is if the byte is zero. -/
theorem decodeByteArray_of_byte (hahead : s.Ahead .byte 0 c) :
    decodeByteArray 1 s = .ok (FixedBytes.setBytes 1 [s.byteval])
      (if s.byteval = 0 then s else { s with kind := none }) := by
  unfold decodeByteArray
  rw [bind_ok hahead.getKind]
  change (uintOrZero >>= fun bv => pure (FixedBytes.setBytes 1 [.ofNat bv]) :
    Read (FixedBytes 1)) s = _
  by_cases hzero : s.byteval = 0
  · have hread : uintOrZero s = .ok 0 s := by
      unfold uintOrZero
      rw [uint_of_zero hahead hzero]
    rw [bind_ok hread, if_pos hzero, hzero]
    rfl
  · have hread : uintOrZero s = .ok s.byteval.toNat { s with kind := none } := by
      unfold uintOrZero
      rw [uint_of_byte hahead hzero]
    rw [bind_ok hread, if_neg hzero, UInt8.ofNat_toNat]
    rfl

/-- An array is read, but the stream is rearmed only if it is not a single zero byte. -/
theorem yields_decodeByteArray {v : FixedBytes n} (hfront : Front s (encodeString v.bytes) rest)
    (hlen : (encodeString v.bytes).length < 2 ^ 64) :
    Yields (decodeByteArray n) s v (After (.byteArray n) v s (encodeString v.bytes).length) := by
  rcases encodeString_cases v.bytes with ⟨b, hb, hbytes, hencode⟩ | ⟨hencode, hcanon⟩
  · have hfits := hfront.fits
    have hinput := hfront.input
    rw [hencode] at hfits hinput ⊢
    obtain ⟨s₁, hkind, hahead, hbyte⟩ := yields_getKind_byte hfront.kind hb hfits hinput
    obtain rfl : n = 1 := by
      rw [← v.length_bytes, hbytes]
      rfl
    have hv : FixedBytes.setBytes 1 [s₁.byteval] = v := by
      rw [hbyte, ← hbytes, FixedBytes.setBytes_self]
    have hstalls : Ty.Stalls (.byteArray 1) v ↔ s₁.byteval = 0 := by
      change FixedBytes.bytes v = [0] ↔ _
      rw [hbytes, hbyte]
      simp
    refine ⟨_, (decodeByteArray_getKind (.inl hfront.kind) hkind).trans
      ((decodeByteArray_of_byte hahead).trans (by rw [hv])), ?_, fun h => ?_, fun h => ?_⟩
    · split_ifs
      · exact hahead.cursor
      · exact hahead.cursor
    · rw [hstalls] at h
      rw [if_pos h]
      exact ⟨⟨rfl, hahead.kind, hahead.size, hahead.kinderr⟩, h⟩
    · rw [hstalls] at h
      rw [if_neg h]
  · have hfits := hfront.fits
    have hinput := hfront.input
    rw [hencode, length_append] at hfits hlen
    rw [hencode, append_assoc] at hinput
    obtain ⟨s₁, hkind, hahead⟩ := yields_getKind hfront.kind (by simp) (by omega) hfits hinput
    have hdrop : (s.toCursor.advance (header .string v.bytes.length).length).input =
        v.bytes ++ rest := by
      simp only [Cursor.advance, hinput]
      exact drop_left
    have hfull := hahead.readFull hfits.advance hdrop
    have hstalls : ¬ Ty.Stalls (.byteArray n) v := by
      intro h
      have hzero : FixedBytes.bytes v = [0] := h
      rw [hzero] at hcanon
      exact hcanon ⟨rfl, by decide⟩
    refine ⟨s₁.skip v.bytes.length, ?_, ?_, fun h => absurd h hstalls, fun _ => rfl⟩
    · rw [decodeByteArray_getKind (.inl hfront.kind) hkind]
      unfold decodeByteArray
      rw [bind_ok hahead.getKind]
      change (if n < v.bytes.length then _ else _ : Read (FixedBytes n)) s₁ = _
      rw [v.length_bytes] at hfull hcanon ⊢
      rw [if_neg (lt_irrefl n), if_neg (lt_irrefl n), bind_ok hfull, if_neg hcanon,
        FixedBytes.setBytes_self]
      rfl
    · rw [hencode, length_append, ← Cursor.advance_advance]
      exact congrArg (Cursor.advance · v.bytes.length) hahead.cursor

theorem decode_of_atEnd (hrounds : 0 < rounds) (hkind : s.kind = none) (hend : s.atEnd = true)
    (t : Ty) : t.decode rounds s = .error .eol { s with kinderr := none } := by
  have hget := getKind_of_atEnd hkind hend
  have hbytes : bytes s = .error .eol { s with kinderr := none } := by
    unfold bytes
    rw [bind_error hget]
  have huint : ∀ maxbits, uint maxbits s = .error .eol { s with kinderr := none } := by
    intro maxbits
    unfold uint
    rw [bind_error hget]
  have hlist : list s = .error .eol { s with kinderr := none } := by
    unfold list
    rw [bind_error hget]
  have hwrap : ∀ {α : Type} {x : Read α} (typ : Ty), x s = .error .eol { s with kinderr := none } →
      mapError (wrapStreamError typ) x s = .error .eol { s with kinderr := none } :=
    fun typ h => mapError_eq_error.2 ⟨_, h, rfl⟩
  cases t with
  | uint size => exact bind_error (hwrap _ (huint size.bits))
  | bigInt => exact bind_error (hwrap _ hbytes)
  | bool => exact hwrap _ (bind_error (huint 8))
  | string => exact hwrap _ hbytes
  | byteArray n => exact bind_error hget
  | slice t =>
    change sliceDecoder rounds t (t.decode rounds) s = _
    by_cases ht : t = .uint .u8
    · subst ht
      exact hwrap _ hbytes
    · rw [(slice_of_ne ht).2.2]
      exact bind_error (hwrap _ hlist)
  | struct fields => exact bind_error (hwrap _ hlist)
  | iface => exact decodeInterface_of_atEnd hrounds hkind hend

theorem After.of_moved {v : t.Value} (hstalls : ¬ t.Stalls v)
    (h : s.Moved n s') : After t v s n s' :=
  ⟨h.cursor, fun hs => absurd hs hstalls, fun _ => h.kind⟩

theorem yields_decodeStruct (typ : Ty) {fields : Read α} {v : α}
    (hlt : b.length < 2 ^ 64) (hfront : Front s (header .list b.length ++ b) rest)
    (hread : ∀ s₁ : Stream, Front s₁ b rest →
      Yields fields s₁ v fun s₂ => s₂.toCursor = s₁.toCursor.advance b.length) :
    Yields (decodeStruct typ fields) s v (s.Moved ((header .list b.length).length + b.length)) := by
  obtain ⟨s₁, hlist, hfront₁, -, hleave⟩ := hfront.enter hlt
  refine Yields.bind ⟨s₁, mapError_eq_ok.2 hlist, rfl⟩ ?_
  rintro _ rfl
  refine (hread s₁ hfront₁).bind fun s₂ hcursor₂ => ?_
  exact (yields_mapError (hleave s₂ hcursor₂)).bind fun s₃ h₃ => Yields.pure h₃

mutual

/-- **A value that round-trips is read**, whatever stands behind it. -/
theorem yields_decode : ∀ (t : Ty) (v : t.Value) (rounds : ℕ) {s : Stream} {rest : Bytes},
    t.RoundTrips v → Front s (t.enc v) rest → (t.enc v).length < 2 ^ 64 →
    (t.enc v).length < rounds → Yields (t.decode rounds) s v (After t v s (t.enc v).length)
  | .uint size, v, _, s, rest, _, hfront, _, _ => by
    have hbits : size.bits / 8 ≤ 8 := by cases size <;> simp [UintSize.bits]
    obtain ⟨s', hread, hmoved⟩ := yields_uint _ hfront (Word.toNat_lt v) hbits
    refine ⟨s', ?_, After.of_moved id hmoved⟩
    have hnum := mapError_of_ok (wrapStreamError (Ty.uint size)) hread
    exact (bind_ok hnum).trans (congrArg (EStateM.Result.ok · s') (Word.ofNat_toNat v))
  | Ty.bigInt, v, _, s, rest, _, hfront, hlen, _ => by
    obtain ⟨s', hread, hmoved⟩ := yields_decodeBigInt hfront hlen
    exact ⟨s', hread, After.of_moved id hmoved⟩
  | .bool, v, _, s, rest, _, hfront, _, _ => by
    have hbytes : bigBytes (bif v then 1 else 0) = bif v then [1] else [] := by
      cases v with
      | false => exact bigBytes_zero
      | true => exact bigBytes_of_lt one_pos (by norm_num)
    have hfront' : Front s (encodeString (bigBytes (bif v then 1 else 0))) rest := by
      rw [hbytes]
      exact hfront
    obtain ⟨s', hread, hmoved⟩ := yields_uint 8 hfront' (by cases v <;> simp) (by norm_num)
    rw [hbytes] at hmoved
    refine ⟨s', mapError_eq_ok.2 ((bind_ok hread).trans ?_), After.of_moved id hmoved⟩
    cases v with
    | false | true => rfl
  | .string, v, _, s, rest, _, hfront, hlen, _ => by
    obtain ⟨s', hread, hmoved⟩ := Front.yields_bytes hfront hlen
    exact ⟨s', mapError_eq_ok.2 hread, After.of_moved id hmoved⟩
  | .byteArray n, v, _, s, rest, _, hfront, hlen, _ => yields_decodeByteArray hfront hlen
  | .slice t, v, rounds, s, rest, hround, hfront, hlen, hrounds => by
    have hslice : ∀ l : List t.Value, AllElems (fun a => t.RoundTrips a ∧ ¬ t.Stalls a) l →
        Front s (encode (sliceItem t t.toItem l)) rest →
        (encode (sliceItem t t.toItem l)).length < 2 ^ 64 →
        (encode (sliceItem t t.toItem l)).length < rounds →
        Yields (sliceDecoder rounds t (t.decode rounds)) s l
          (s.Moved (encode (sliceItem t t.toItem l)).length) := by
      intro l hround hfront hlen hrounds
      by_cases ht : t = .uint .u8
      · subst ht
        exact yields_mapError (Front.yields_bytes hfront hlen)
      rw [(slice_of_ne ht).2.1] at hfront hlen hrounds ⊢
      rw [(slice_of_ne ht).2.2]
      rw [length_encode_list] at hlen hrounds ⊢
      refine yields_decodeListSlice _ _ (by omega) hfront (fun hzero => ?_)
        fun s₁ hfront₁ hwithin => ?_
      · exact map_eq_nil_iff.1 (encodeItems_eq_nil hzero)
      refine yields_elems (fun hkind hend => decode_of_atEnd (by omega) hkind hend t)
        (fun a ha s rest hfront' hle => ?_) hfront₁ (by omega) hwithin
      obtain ⟨s', hread, hafter⟩ := yields_decode t a rounds (hround a ha).1 hfront'
        (by change (encode _).length < _; omega) (by change (encode _).length < _; omega)
      exact ⟨s', hread, hafter.cursor, hafter.armed (hround a ha).2⟩
    obtain ⟨s', hread, hmoved⟩ := hslice v hround hfront hlen hrounds
    exact ⟨s', hread, After.of_moved id hmoved⟩
  | .struct fields, v, rounds, s, rest, hround, hfront, hlen, hrounds => by
    have htotal : ((Ty.struct fields).enc v).length =
        (header .list (encodeItems (fields.toItems v)).length).length +
          (encodeItems (fields.toItems v)).length := length_encode_list (fields.toItems v)
    have hfront' : Front s (header .list (encodeItems (fields.toItems v)).length ++
        encodeItems (fields.toItems v)) rest := by
      exact hfront
    rw [htotal] at hlen hrounds ⊢
    obtain ⟨s', hread, hmoved⟩ := yields_decodeStruct (.struct fields) (by omega) hfront'
      fun s₁ hfront₁ => yields_decodeFields fields v rounds (.struct fields) hround hfront₁
        (by omega) (by omega)
    exact ⟨s', hread, After.of_moved id hmoved⟩
  | .iface, v, rounds, s, rest, _, hfront, hlen, hrounds => by
    obtain ⟨s', hread, hmoved⟩ := yields_decodeInterface hfront hlen hrounds
    exact ⟨s', hread, After.of_moved id hmoved⟩

theorem yields_decodeFields : ∀ (fields : Fields) (v : fields.Values) (rounds : ℕ) (typ : Ty)
    {s : Stream} {rest : Bytes}, fields.RoundTrip v →
    Front s (encodeItems (fields.toItems v)) rest →
    (encodeItems (fields.toItems v)).length < 2 ^ 64 →
    (encodeItems (fields.toItems v)).length < rounds →
    Yields (fields.decode rounds typ) s v fun s' =>
      s'.toCursor = s.toCursor.advance (encodeItems (fields.toItems v)).length
  | .nil, _, _, _, s, _, _, _, _, _ => ⟨s, rfl, (Cursor.advance_zero _).symm⟩
  | .cons name t others, (v, vs), rounds, typ, s, rest, hround, hfront, hlen, hrounds => by
    have hitems : encodeItems ((Fields.cons name t others).toItems (v, vs)) =
        t.enc v ++ encodeItems (others.toItems vs) := rfl
    rw [hitems] at hfront hlen hrounds ⊢
    rw [length_append] at hlen hrounds ⊢
    obtain ⟨hround₁, hstalls, hround₂⟩ := hround
    obtain ⟨s₁, hfirst, hafter⟩ := yields_decode t v rounds hround₁ hfront.first (by omega)
      (by omega)
    have hfirst' := mapError_of_ok (fieldErr typ name) hfirst
    by_cases hnil : others = .nil
    · subst hnil
      exact ⟨s₁, (bind_ok hfirst').trans rfl, hafter.cursor⟩
    obtain ⟨s₂, hothers, hcursor⟩ := yields_decodeFields others vs rounds typ hround₂
      (hfront.next hafter.cursor (hafter.armed (hstalls hnil))) (by omega) (by omega)
    refine ⟨s₂, (bind_ok hfirst').trans ((bind_ok hothers).trans rfl), ?_⟩
    change s₂.toCursor = _
    rw [hcursor, hafter.cursor, Cursor.advance_advance]

end

end Rlp
