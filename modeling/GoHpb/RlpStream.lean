/-
**The stream an encoding is read from.**

A model of `Stream` of `common/rlp/decode.go`.  A stream reads from an input, counts what is left of
it and of every list it is inside of, and keeps what it has read ahead: the kind and the size of the
next value, until that value is read.  An operation that takes the value has to *rearm* the stream,
that is, to forget what was read ahead; the next value is read only after that.

The part of a stream that moves with the input is its `Cursor`.  Sizes are natural numbers; those
that are read from the input have at most eight bytes.

Main results:

* `Rlp.Stream.yields_bytes`, `Rlp.Stream.yields_list` — **a string is read, and a list is entered**;
* `Rlp.Stream.of_bytes` — **what is read as a string is the encoding of that string**.
-/

import GoHpb.FailState
import GoHpb.RlpEncode

open FailState List

namespace Rlp

/-! ### Types -/

/-- The sizes of the unsigned integer types. -/
inductive UintSize where
  | u8
  | u16
  | u32
  | u64
  deriving DecidableEq

/-- `Bits` of the type. -/
def UintSize.bits : UintSize → ℕ
  | u8 => 8
  | u16 => 16
  | u32 => 32
  | u64 => 64

mutual

/-- The types that are encoded; a byte slice is a slice of 8-bit integers, and `iface` is the empty
interface type. -/
inductive Ty where
  | uint (size : UintSize)
  | bigInt
  | bool
  | string
  | byteArray (n : ℕ)
  | slice (elem : Ty)
  | struct (fields : Fields)
  | iface

/-- The fields of a struct type. -/
inductive Fields where
  | nil
  | cons (name : String) (typ : Ty) (rest : Fields)

end

/-- Where in a value a decoder has failed. -/
inductive ErrCtx where
  | index (i : ℕ)
  | field (name : String)
  | target (typ : Ty)

/-- The errors of a stream, and of the decoders.  `outOfRounds` is not an error of the source: it
stands for a loop that has not ended in the given number of rounds. -/
inductive DecodeErr where
  | eol
  | errExpectedString
  | errExpectedList
  | errCanonInt
  | errCanonSize
  | errElemTooLarge
  | errValueTooLarge
  | errMoreThanOneValue
  | errNotInList
  | errNotAtEOL
  | errUintOverflow
  | eof
  | errUnexpectedEOF
  | invalidBoolean (num : ℕ)
  | decodeError (msg : String) (typ : Ty) (ctx : List ErrCtx)
  | outOfRounds

/-! ### Streams -/

/-- The kinds of values. -/
inductive Kind where
  | byte
  | string
  | list
  deriving DecidableEq

/-- How much of a list has been read. -/
structure ListPos where
  pos : ℕ
  size : ℕ
  deriving DecidableEq

/-- What of a stream moves with the input: the bytes that the reader still holds, the number of
bytes that may be read if there is a limit, and the lists around the position, innermost first. -/
structure Cursor where
  input : Bytes
  remaining : ℕ
  limited : Bool
  stack : List ListPos
  deriving DecidableEq

/-- A stream: its cursor, and what has been read ahead. -/
structure Stream extends Cursor where
  /-- the kind of the value ahead; none if it has not been read -/
  kind : Option Kind
  size : ℕ
  byteval : UInt8
  kinderr : Option DecodeErr

/-- A method of a stream. -/
abbrev Read (α : Type) : Type := EStateM DecodeErr Stream α

/-- `BigEndian.Uint64`. -/
def beNat (b : Bytes) : ℕ := Nat.ofDigits 256 (b.reverse.map UInt8.toNat)

namespace Stream

/-- Forgetting what was read ahead. -/
def rearm : Read Unit := modify fun s => { s with kind := none }

/-- The bytes that may be read of the innermost list. -/
def takeFromList (n : ℕ) : Read Unit := fun s =>
  match s.stack with
  | [] => .ok () s
  | tos :: rest =>
    if tos.size - tos.pos < n then .error .errElemTooLarge s
    else .ok () { s with stack := ⟨tos.pos + n, tos.size⟩ :: rest }

/-- The bytes that may be read of the input. -/
def takeFromLimit (n : ℕ) : Read Unit := fun s =>
  if s.limited then
    if s.remaining < n then .error .errValueTooLarge s
    else .ok () { s with remaining := s.remaining - n }
  else .ok () s

def willRead (n : ℕ) : Read Unit := do
  rearm
  takeFromList n
  takeFromLimit n

/-- `Read` of the reader, until the buffer is full. -/
def readInput (n : ℕ) : Read Bytes := fun s =>
  if n ≤ s.input.length then
    .ok (s.input.take n) { s with input := s.input.drop n }
  else .error .errUnexpectedEOF { s with input := [] }

/-- `readFull`, into a buffer of length `n`. -/
def readFull (n : ℕ) : Read Bytes := do
  willRead n
  readInput n

def readByte : Read UInt8 := do
  willRead 1
  let b ← readInput 1
  pure (b.headD 0)

/-- `readUint`: a number of `size` bytes, which does not start with a zero byte. -/
def readUint : ℕ → Read ℕ
  | 0 => do
      rearm
      pure 0
  | 1 => do
      let b ← readByte
      pure b.toNat
  | size => do
      let b ← readFull size
      if b.headD 0 = 0 then throw .errCanonSize else pure (beNat b)

/-- The error of `readKind` at the end of the input. -/
def endOfInput (s : Stream) (e : DecodeErr) : DecodeErr :=
  if s.stack = [] then
    match e with
    | .errUnexpectedEOF => .eof
    | .errValueTooLarge => .eof
    | e => e
  else e

/-- The size of a long string or list, which is at least 56. -/
def readSize (kind : Kind) (sizesize : ℕ) (s : Stream) : (Kind × ℕ × Option DecodeErr) × Stream :=
  match readUint sizesize s with
  | .error e s' => ((kind, 0, some e), s')
  | .ok size s' =>
    ((kind, size, if size < 56 then some .errCanonSize else none), s')

/-- `readKind`: the kind and the size of the next value, or an error beside them. -/
def readKind (s : Stream) : (Kind × ℕ × Option DecodeErr) × Stream :=
  match readByte s with
  | .error e s' => ((.byte, 0, some (endOfInput s' e)), s')
  | .ok b s' =>
    if b < 0x80 then ((.byte, 0, none), { s' with byteval := b })
    else if b < 0xB8 then ((.string, b.toNat - 0x80, none), { s' with byteval := 0 })
    else if b < 0xC0 then readSize .string (b.toNat - 0xB7) { s' with byteval := 0 }
    else if b < 0xF8 then ((.list, b.toNat - 0xC0, none), { s' with byteval := 0 })
    else readSize .list (b.toNat - 0xF7) { s' with byteval := 0 }

/-- Whether a value of the given size fits into what is around it. -/
def sizeErr (s : Stream) (size : ℕ) : Option DecodeErr :=
  match s.stack with
  | [] => if s.limited ∧ s.remaining < size then some .errValueTooLarge else none
  | tos :: _ => if tos.size - tos.pos < size then some .errElemTooLarge else none

/-- Whether the innermost list has been read. -/
def atEnd (s : Stream) : Bool :=
  match s.stack with
  | [] => false
  | tos :: _ => tos.pos = tos.size

/-- What has been read ahead, or the error that was met then. -/
def cached (kind : Kind) : Read (Kind × ℕ) := fun s =>
  match s.kinderr with
  | some e => .error e s
  | none => .ok (kind, s.size) s

/-- `Kind`: the kind and the size of the next value. -/
def getKind : Read (Kind × ℕ) := fun s =>
  match s.kind with
  | some kind => cached kind s
  | none =>
    if s.atEnd then .error .eol { s with kinderr := none }
    else
      let r := readKind { s with kinderr := none }
      cached r.1.1 { r.2 with
        kind := some r.1.1
        size := r.1.2.1
        kinderr := r.1.2.2 <|> r.2.sizeErr r.1.2.1 }

def bytes : Read Bytes := do
  let k ← getKind
  match k.1 with
  | .byte => do
      rearm
      return [(← get).byteval]
  | .string => do
      let b ← readFull k.2
      if k.2 = 1 ∧ b.headD 0 < 128 then throw .errCanonSize else pure b
  | .list => throw .errExpectedString

/-- The error of a number that is not a size. -/
def numberErr : DecodeErr → DecodeErr
  | .errCanonSize => .errCanonInt
  | e => e

/-- `uint`.  A single zero byte is refused before the stream is rearmed. -/
def uint (maxbits : ℕ) : Read ℕ := do
  let k ← getKind
  match k.1 with
  | .byte => do
      let b := (← get).byteval
      if b = 0 then throw .errCanonInt
      else
        rearm
        pure b.toNat
  | .string =>
    if maxbits / 8 < k.2 then throw .errUintOverflow
    else do
      let v ← mapError numberErr (readUint k.2)
      if 0 < k.2 ∧ v < 128 then throw .errCanonSize else pure v
  | .list => throw .errExpectedString

def bool : Read Bool := do
  let num ← uint 8
  match num with
  | 0 => pure false
  | 1 => pure true
  | num => throw (.invalidBoolean num)

/-- `List`: entering a list. -/
def list : Read ℕ := do
  let k ← getKind
  if k.1 = .list then do
    modify fun s => { s with stack := ⟨0, k.2⟩ :: s.stack, kind := none, size := 0 }
    pure k.2
  else throw .errExpectedList

/-- `ListEnd`: leaving a list, which counts as read in the one around it. -/
def listEnd : Read Unit := fun s =>
  match s.stack with
  | [] => .error .errNotInList s
  | tos :: rest =>
    if tos.pos = tos.size then
      let stack := match rest with
        | [] => []
        | out :: rest => ⟨out.pos + tos.size, out.size⟩ :: rest
      .ok () { s with stack := stack, kind := none, size := 0 }
    else .error .errNotAtEOL s

/-- `NewStream` on a byte slice: the limit is the length of the slice. -/
def new (b : Bytes) : Stream :=
  { input := b, remaining := b.length, limited := true, stack := [], kind := none, size := 0
    byteval := 0, kinderr := none }

end Stream

/-! ### Numbers -/

/-- A byte that stands for itself; the reader and the writer compare in two ways. -/
theorem small_iff {v : UInt8} : v < 0x80 ↔ v ≤ 0x7F := by
  exact Nat.lt_succ_iff

theorem beNat_singleton (b : UInt8) : beNat [b] = b.toNat := by simp [beNat]

theorem beNat_bigBytes (n : ℕ) : beNat (bigBytes n) = n := by
  rw [beNat, map_reverse, map_toNat_bigBytes, reverse_reverse, Nat.ofDigits_digits]

theorem bigBytes_beNat {b : Bytes} (h : b.headD 1 ≠ 0) : bigBytes (beNat b) = b := by
  have hdigits : Nat.digits 256 (beNat b) = b.reverse.map UInt8.toNat := by
    refine Nat.digits_ofDigits 256 (by norm_num) _ (fun d hd => ?_) fun hne => ?_
    · obtain ⟨c, -, rfl⟩ := mem_map.1 hd
      exact UInt8.toNat_lt c
    cases b with
    | nil => simp at hne
    | cons c t =>
      have hc : c ≠ 0 := h
      simpa [UInt8.toNat_inj, ← UInt8.toNat_inj] using hc
  rw [bigBytes, hdigits, ← map_reverse, reverse_reverse, map_map]
  simp [Function.comp_def]

theorem headD_bigBytes_ne {n : ℕ} (h : 0 < n) : (bigBytes n).headD 0 ≠ 0 := by
  have hmap := map_toNat_bigBytes n
  have hlast := Nat.getLast_digit_ne_zero 256 h.ne'
  cases hb : bigBytes n with
  | nil =>
    have hpos := length_bigBytes_pos h
    simp [hb] at hpos
  | cons c t =>
    have hdigits : Nat.digits 256 n = (t.map UInt8.toNat).reverse ++ [c.toNat] := by
      rw [hb, map_cons, eq_comm, reverse_eq_iff] at hmap
      simpa using hmap
    simp only [hdigits, getLast_append_singleton] at hlast
    intro hc
    have hzero : c = 0 := hc
    simp [hzero] at hlast

theorem beNat_lt {b : Bytes} {k : ℕ} (h : b.length ≤ k) : beNat b < 256 ^ k := by
  refine lt_of_lt_of_le (Nat.ofDigits_lt_base_pow_length (by norm_num) fun d hd => ?_)
    (Nat.pow_le_pow_right (by norm_num) (by simpa using h))
  obtain ⟨c, -, rfl⟩ := mem_map.1 hd
  exact UInt8.toNat_lt c

/-! ### Cursors -/

namespace Cursor

variable {c : Cursor} {m n : ℕ}

/-- The cursor `n` bytes further on. -/
def advance (c : Cursor) (n : ℕ) : Cursor where
  input := c.input.drop n
  remaining := if c.limited then c.remaining - n else c.remaining
  limited := c.limited
  stack := match c.stack with
    | [] => []
    | tos :: rest => ⟨tos.pos + n, tos.size⟩ :: rest

/-- There are `n` bytes to read, and they may be read. -/
structure Fits (c : Cursor) (n : ℕ) : Prop where
  input : n ≤ c.input.length
  limit : c.limited = true → n ≤ c.remaining
  list : ∀ tos rest, c.stack = tos :: rest → n ≤ tos.size - tos.pos

theorem advance_advance (c : Cursor) (m n : ℕ) : (c.advance m).advance n = c.advance (m + n) := by
  simp only [advance, drop_drop, Cursor.mk.injEq]
  refine ⟨trivial, ?_, trivial, ?_⟩
  · split_ifs
    · omega
    · rfl
  · cases c.stack with
    | nil => rfl
    | cons tos rest => simp [Nat.add_assoc]

theorem Fits.advance (h : c.Fits (m + n)) : (c.advance m).Fits n := by
  refine ⟨?_, fun hl => ?_, fun tos rest hs => ?_⟩
  · have hinput := h.input
    simp only [Cursor.advance, length_drop]
    omega
  · have hlimit := h.limit hl
    have hl' : c.limited = true := hl
    simp only [Cursor.advance, hl', if_true]
    omega
  simp only [Cursor.advance] at hs
  cases hstack : c.stack with
  | nil => simp [hstack] at hs
  | cons top below =>
    have hlist := h.list top below hstack
    rw [hstack] at hs
    cases hs
    simp only
    omega

theorem Fits.add (h : c.Fits m) (h' : (c.advance m).Fits n) : c.Fits (m + n) := by
  refine ⟨?_, fun hl => ?_, fun tos rest hs => ?_⟩
  · have hinput := h'.input
    have hle := h.input
    simp only [Cursor.advance, length_drop] at hinput
    omega
  · have hlimit := h'.limit hl
    have hle := h.limit hl
    simp only [Cursor.advance, hl, if_true] at hlimit
    omega
  · have hle := h.list tos rest hs
    have hlist := h'.list ⟨tos.pos + m, tos.size⟩ rest (by simp only [Cursor.advance, hs])
    simp only at hlist
    omega

theorem Fits.mono (h : c.Fits n) (hmn : m ≤ n) : c.Fits m :=
  ⟨hmn.trans h.input, fun hl => hmn.trans (h.limit hl), fun tos rest hs =>
    hmn.trans (h.list tos rest hs)⟩

/-- Entering a list of the given size. -/
def push (c : Cursor) (size : ℕ) : Cursor := { c with stack := ⟨0, size⟩ :: c.stack }

/-- Leaving the innermost list. -/
def pop (c : Cursor) : Cursor :=
  { c with stack := match c.stack with
      | [] => []
      | [_] => []
      | tos :: out :: rest => ⟨out.pos + tos.size, out.size⟩ :: rest }

theorem Fits.push (h : c.Fits n) : (c.push n).Fits n := by
  refine ⟨h.input, h.limit, fun tos rest hs => ?_⟩
  cases hs
  exact le_rfl

theorem pop_advance_push (c : Cursor) (n : ℕ) : ((c.push n).advance n).pop = c.advance n := by
  simp only [push, advance, pop, Cursor.mk.injEq, true_and]
  cases c.stack with
  | nil | cons tos rest => exact ⟨rfl, rfl⟩

end Cursor

namespace Stream

variable {s s' : Stream} {n : ℕ}

/-! ### Reading bytes -/

/-- The stream after `n` bytes have been read. -/
def skip (s : Stream) (n : ℕ) : Stream := { s with toCursor := s.toCursor.advance n, kind := none }

theorem takeFromList_eq_ok {u : Unit} : takeFromList n s = .ok u s' ↔
      (∀ tos rest, s.stack = tos :: rest → n ≤ tos.size - tos.pos) ∧
        s' = { s with stack := (s.toCursor.advance n).stack } := by
  unfold takeFromList Cursor.advance
  cases hstack : s.stack with
  | nil =>
    have heq : { s with stack := [] } = s := by rw [← hstack]
    simp only [heq, EStateM.Result.ok.injEq, true_and, reduceCtorEq, false_implies, implies_true]
    exact eq_comm
  | cons tos rest =>
    by_cases hless : tos.size - tos.pos < n
    · simp only [hless, if_true, reduceCtorEq, false_iff, not_and]
      intro h
      have := h tos rest rfl
      omega
    simp only [hless, if_false, EStateM.Result.ok.injEq, true_and, List.cons.injEq]
    constructor
    · rintro rfl
      refine ⟨?_, rfl⟩
      rintro tos' rest' ⟨rfl, rfl⟩
      omega
    · rintro ⟨-, rfl⟩
      rfl

theorem takeFromLimit_eq_ok {u : Unit} : takeFromLimit n s = .ok u s' ↔
      (s.limited = true → n ≤ s.remaining) ∧
        s' = { s with remaining := (s.toCursor.advance n).remaining } := by
  unfold takeFromLimit
  by_cases hlimited : s.limited = true
  · by_cases hless : s.remaining < n
    · simp [hlimited, hless]
    · simp [Cursor.advance, hlimited, hless, eq_comm, Nat.le_of_not_lt hless]
  have hsame : (s.toCursor.advance n).remaining = s.remaining := if_neg hlimited
  rw [if_neg hlimited, hsame, EStateM.Result.ok.injEq]
  constructor
  · rintro ⟨-, rfl⟩
    exact ⟨fun h => absurd h hlimited, rfl⟩
  · rintro ⟨-, rfl⟩
    exact ⟨rfl, rfl⟩

/-- **`readFull` reads exactly the next bytes**, if they fit. -/
theorem readFull_eq_ok {b : Bytes} : readFull n s = .ok b s' ↔
      s.toCursor.Fits n ∧ b = s.input.take n ∧ s' = s.skip n := by
  have hinput : ∀ t : Stream, readInput n t = .ok b s' ↔
      n ≤ t.input.length ∧ b = t.input.take n ∧ s' = { t with input := t.input.drop n } := by
    intro t
    unfold readInput
    split_ifs with hle <;> simp [hle, eq_comm]
  constructor
  · intro h
    obtain ⟨_, s₁, hwill, hread⟩ := bind_eq_ok.1 h
    obtain ⟨_, s₂, hrearm, hwill⟩ := bind_eq_ok.1 hwill
    obtain ⟨_, s₃, htake, hcount⟩ := bind_eq_ok.1 hwill
    cases hrearm
    obtain ⟨hlist, rfl⟩ := takeFromList_eq_ok.1 htake
    obtain ⟨hlimit, rfl⟩ := takeFromLimit_eq_ok.1 hcount
    obtain ⟨hle, rfl, rfl⟩ := (hinput _).1 hread
    exact ⟨⟨hle, hlimit, hlist⟩, rfl, rfl⟩
  · rintro ⟨hfits, rfl, rfl⟩
    refine bind_eq_ok.2 ⟨(), _, bind_eq_ok.2 ⟨(), _, rfl, bind_eq_ok.2 ⟨(), _,
      takeFromList_eq_ok.2 ⟨hfits.list, rfl⟩, takeFromLimit_eq_ok.2 ⟨hfits.limit, rfl⟩⟩⟩,
      (hinput _).2 ⟨hfits.input, rfl, rfl⟩⟩

theorem readByte_eq : readByte = (readFull 1 >>= fun b => pure (b.headD 0) : Read UInt8) := by
  unfold readByte readFull
  rw [bind_assoc]

variable {rest : Bytes} {size : ℕ} {b : UInt8} {t : Bytes}

theorem readByte_eq_ok : readByte s = .ok b s' ↔
      s.toCursor.Fits 1 ∧ (∃ t, s.input = b :: t) ∧ s' = s.skip 1 := by
  rw [readByte_eq, bind_eq_ok]
  constructor
  · rintro ⟨l, s₁, hread, hpure⟩
    obtain ⟨hfits, rfl, rfl⟩ := readFull_eq_ok.1 hread
    cases hpure
    refine ⟨hfits, ?_, rfl⟩
    cases hinput : s.input with
    | nil => simpa [hinput] using hfits.input
    | cons c t => exact ⟨t, rfl⟩
  · rintro ⟨hfits, ⟨t, hinput⟩, rfl⟩
    exact ⟨[b], _, readFull_eq_ok.2 ⟨hfits, by simp [hinput], rfl⟩, rfl⟩

theorem readUint_eq_ok {k v : ℕ} (hk : 0 < k) : readUint k s = .ok v s' ↔
      s.toCursor.Fits k ∧ (k = 1 ∨ (s.input.take k).headD 0 ≠ 0) ∧
        v = beNat (s.input.take k) ∧ s' = s.skip k := by
  match k, hk with
  | 1, _ =>
    change (readByte >>= fun b => pure b.toNat : Read ℕ) s = _ ↔ _
    rw [bind_eq_ok]
    constructor
    · rintro ⟨b, s₁, hread, hpure⟩
      obtain ⟨hfits, ⟨t, hinput⟩, rfl⟩ := readByte_eq_ok.1 hread
      cases hpure
      exact ⟨hfits, .inl rfl, by simp [hinput, beNat_singleton], rfl⟩
    rintro ⟨hfits, -, rfl, rfl⟩
    cases hinput : s.input with
    | nil => simpa [hinput] using hfits.input
    | cons c t =>
      exact ⟨c, _, readByte_eq_ok.2 ⟨hfits, ⟨t, hinput⟩, rfl⟩, by
        rfl⟩
  | k + 2, _ =>
    change (readFull (k + 2) >>= fun b =>
      if b.headD 0 = 0 then throw .errCanonSize else pure (beNat b) : Read ℕ) s = _ ↔ _
    rw [bind_eq_ok]
    constructor
    · rintro ⟨b, s₁, hread, hpure⟩
      obtain ⟨hfits, rfl, rfl⟩ := readFull_eq_ok.1 hread
      split_ifs at hpure with hzero
      · cases hpure
      · cases hpure
        exact ⟨hfits, .inr hzero, rfl, rfl⟩
    · rintro ⟨hfits, hhead, rfl, rfl⟩
      refine ⟨_, _, readFull_eq_ok.2 ⟨hfits, rfl, rfl⟩, ?_⟩
      rcases hhead with hone | hzero
      · omega
      · rw [if_neg hzero]
        rfl

/-! ### Reading headers -/

/-- The header of a string or list. -/
def header : Kind → ℕ → Bytes
  | .byte, _ => []
  | .string, size => puthead 0x80 0xB7 size
  | .list, size => puthead 0xC0 0xF7 size

theorem skip_skip (s : Stream) (m n : ℕ) : (s.skip m).skip n = s.skip (m + n) := by
  simp only [skip, Cursor.advance_advance]

theorem readSize_eq {kind k : Kind} {sizesize size : ℕ} :
    readSize kind sizesize s = ((k, size, none), s') ↔
      k = kind ∧ readUint sizesize s = .ok size s' ∧ 56 ≤ size := by
  unfold readSize
  cases readUint sizesize s with
  | error e t => simp
  | ok v t =>
    by_cases hv : v < 56
    · simp only [hv, if_true, Prod.mk.injEq, reduceCtorEq, and_false, false_and, false_iff,
        EStateM.Result.ok.injEq]
      omega
    simp only [hv, if_false, Prod.mk.injEq, and_true, EStateM.Result.ok.injEq]
    constructor
    · rintro ⟨⟨rfl, rfl⟩, rfl⟩
      exact ⟨rfl, ⟨rfl, rfl⟩, by omega⟩
    · rintro ⟨rfl, ⟨rfl, rfl⟩, -⟩
      exact ⟨⟨rfl, rfl⟩, rfl⟩

theorem bigBytes_of_size {x : Bytes} {k : ℕ} (hlen : x.length = k) (hk : 0 < k)
    (hhead : k = 1 ∨ x.headD 0 ≠ 0) (hsize : 56 ≤ beNat x) : bigBytes (beNat x) = x := by
  refine bigBytes_beNat ?_
  cases x with
  | nil => simp at hlen; omega
  | cons c t =>
    rcases hhead with rfl | hhead
    · obtain rfl : t = [] := by simpa using hlen
      rw [beNat_singleton] at hsize
      rintro rfl
      simp at hsize
    · exact hhead

theorem puthead_of_byte (tag : ℕ) (hlow : tag ≤ b.toNat) (hhigh : b.toNat < tag + 56) :
    puthead tag (tag + 55) (b.toNat - tag) = [b] := by
  rw [puthead, if_pos (by omega), show tag + (b.toNat - tag) = b.toNat by omega, UInt8.ofNat_toNat]

theorem puthead_of_size {tag : ℕ} {x : Bytes} (hlow : tag + 55 < b.toNat)
    (hlen : x.length = b.toNat - (tag + 55))
    (hhead : b.toNat - (tag + 55) = 1 ∨ x.headD 0 ≠ 0) (hsize : 56 ≤ beNat x) :
    puthead tag (tag + 55) (beNat x) = b :: x := by
  rw [puthead, if_neg (by omega), bigBytes_of_size hlen (by omega) hhead hsize, hlen]
  congr 1
  rw [show tag + 55 + (b.toNat - (tag + 55)) = b.toNat by omega]
  exact UInt8.ofNat_toNat

theorem of_readSize (tag : ℕ) {kind k : Kind}
    (hfits : s.toCursor.Fits 1) (hinput : s.input = b :: t) (hlow : tag + 55 < b.toNat)
    (hhigh : b.toNat ≤ tag + 63)
    (h : readSize kind (b.toNat - (tag + 55)) { s.skip 1 with byteval := 0 } =
      ((k, size, none), s')) :
    k = kind ∧ size < 2 ^ 64 ∧ s.toCursor.Fits (puthead tag (tag + 55) size).length ∧
      (∃ rest, s.input = puthead tag (tag + 55) size ++ rest) ∧
      s' = { s.skip (puthead tag (tag + 55) size).length with byteval := 0 } := by
  obtain ⟨hkind, hread, hsize⟩ := readSize_eq.1 h
  obtain ⟨hfits', hhead, rfl, rfl⟩ := (readUint_eq_ok (by omega)).1 hread
  have htail : (s.skip 1).input = t := by simp [skip, Cursor.advance, hinput]
  simp only [htail] at hfits' hhead hsize ⊢
  have hlen : (t.take (b.toNat - (tag + 55))).length = b.toNat - (tag + 55) :=
    length_take_of_le (htail ▸ hfits'.input)
  have hput := puthead_of_size hlow hlen hhead hsize
  have hlength : (b :: t.take (b.toNat - (tag + 55))).length = 1 + (b.toNat - (tag + 55)) := by
    rw [length_cons, hlen, Nat.add_comm]
  refine ⟨hkind, ?_, ?_, ⟨t.drop (b.toNat - (tag + 55)), ?_⟩, ?_⟩
  · exact lt_of_lt_of_le (beNat_lt (k := 8) (by omega)) (by norm_num)
  · rw [hput, hlength]
    exact hfits.add hfits'
  · rw [hput, hinput, cons_append, take_append_drop]
  · rw [hput, hlength]
    simp only [skip, Cursor.advance_advance]

/-- **What stands in front of a stream whose kind was read**: a small byte, or a header in its only
form. -/
theorem of_readKind {k : Kind} (h : readKind s = ((k, size, none), s')) :
    (∃ b, k = .byte ∧ size = 0 ∧ b < 0x80 ∧ s.toCursor.Fits 1 ∧ (∃ t, s.input = b :: t) ∧
      s' = { s.skip 1 with byteval := b }) ∨
    (k ≠ .byte ∧ size < 2 ^ 64 ∧ s.toCursor.Fits (header k size).length ∧
      (∃ rest, s.input = header k size ++ rest) ∧
      s' = { s.skip (header k size).length with byteval := 0 }) := by
  unfold readKind at h
  cases hread : readByte s with
  | error e t =>
    rw [hread] at h
    simp at h
  | ok b t =>
    rw [hread] at h
    obtain ⟨hfits, ⟨rest, hinput⟩, rfl⟩ := readByte_eq_ok.1 hread
    simp only [UInt8.lt_iff_toNat_lt] at h
    split_ifs at h with h1 h2 h3 h4
    · cases h
      exact .inl ⟨b, rfl, rfl, UInt8.lt_iff_toNat_lt.2 h1, hfits, ⟨rest, hinput⟩, rfl⟩
    · have hput := puthead_of_byte 0x80 (by simp at h1; omega) (by simp at h2; omega)
      simp only [Prod.mk.injEq] at h
      obtain ⟨⟨rfl, rfl, -⟩, rfl⟩ := h
      refine .inr ⟨by simp, by have := UInt8.toNat_lt b; omega, ?_, ⟨rest, ?_⟩, ?_⟩
      · simpa only [header, hput, length_singleton] using hfits
      · simpa only [header, hput, singleton_append] using hinput
      · simp only [header, hput, length_singleton]
    · obtain ⟨rfl, hsize, hfit, hin, hs'⟩ := of_readSize 0x80 hfits hinput
        (by simp at h2; omega) (by simp at h3; omega) h
      exact .inr ⟨by simp, hsize, hfit, hin, hs'⟩
    · have hput := puthead_of_byte 0xC0 (by simp at h3; omega) (by simp at h4; omega)
      simp only [Prod.mk.injEq] at h
      obtain ⟨⟨rfl, rfl, -⟩, rfl⟩ := h
      refine .inr ⟨by simp, by have := UInt8.toNat_lt b; omega, ?_, ⟨rest, ?_⟩, ?_⟩
      · simpa only [header, hput, length_singleton] using hfits
      · simpa only [header, hput, singleton_append] using hinput
      · simp only [header, hput, length_singleton]
    · obtain ⟨rfl, hsize, hfit, hin, hs'⟩ := of_readSize 0xC0 hfits hinput
        (by simp at h4; omega) (by have := UInt8.toNat_lt b; omega) h
      exact .inr ⟨by simp, hsize, hfit, hin, hs'⟩

theorem readKind_byte (hb : b < 0x80) (hfits : s.toCursor.Fits 1) (hinput : s.input = b :: t) :
    readKind s = ((.byte, 0, none), { s.skip 1 with byteval := b }) := by
  unfold readKind
  rw [readByte_eq_ok.2 ⟨hfits, ⟨t, hinput⟩, rfl⟩]
  simp only [if_pos hb]

theorem readSize_bigBytes {kind : Kind} (hsize : 56 ≤ size)
    (hinput : s.input = bigBytes size ++ rest) (hfits : s.toCursor.Fits (bigBytes size).length) :
    readSize kind (bigBytes size).length s =
      ((kind, size, none), s.skip (bigBytes size).length) := by
  have htake : s.input.take (bigBytes size).length = bigBytes size := by
    rw [hinput, take_left]
  refine readSize_eq.2 ⟨rfl, (readUint_eq_ok (length_bigBytes_pos (by omega))).2
    ⟨hfits, ?_, ?_, rfl⟩, hsize⟩
  · rw [htake]
    exact .inr (headD_bigBytes_ne (by omega))
  · rw [htake, beNat_bigBytes]

/-- **A header is read.** -/
theorem readKind_header {k : Kind} (hk : k ≠ .byte) (hsize : size < 2 ^ 64)
    (hfits : s.toCursor.Fits (header k size).length) (hinput : s.input = header k size ++ rest) :
    readKind s = ((k, size, none), { s.skip (header k size).length with byteval := 0 }) := by
  have h8 := length_bigBytes_size hsize
  have hpos : 56 ≤ size → 0 < (bigBytes size).length := fun h => length_bigBytes_pos (by omega)
  -- the first byte of the header
  have hbyte : ∀ n, n < 256 → (UInt8.ofNat n).toNat = n := fun n hn => toNat_ofNat_of_lt hn
  have hread : ∀ b t, header k size = b :: t → readByte s = .ok b (s.skip 1) := by
    intro b t hb
    refine readByte_eq_ok.2 ⟨hfits.mono ?_, ⟨t ++ rest, ?_⟩, rfl⟩
    · rw [hb, length_cons]
      omega
    · rw [hinput, hb, cons_append]
  have hlong : ∀ b, header k size = b :: bigBytes size → 56 ≤ size →
      readSize k (bigBytes size).length { s.skip 1 with byteval := 0 } =
        ((k, size, none), { s.skip (header k size).length with byteval := 0 }) := by
    intro b hb hle
    rw [hb, length_cons, Nat.add_comm] at hfits
    have hin : ({ s.skip 1 with byteval := 0 } : Stream).input = bigBytes size ++ rest := by
      simp [skip, Cursor.advance, hinput, hb]
    rw [readSize_bigBytes hle hin hfits.advance, hb, length_cons, Nat.add_comm, ← skip_skip]
    rfl
  unfold readKind
  by_cases hless : size < 56
  · cases k with
    | byte => exact absurd rfl hk
    | string =>
      have hb : header .string size = [UInt8.ofNat (0x80 + size)] := if_pos hless
      rw [hread _ _ hb]
      simp only [UInt8.lt_iff_toNat_lt, hbyte (0x80 + size) (by omega)]
      rw [if_neg (by simp), if_pos (by simp; omega), hb]
      simp
    | list =>
      have hb : header .list size = [UInt8.ofNat (0xC0 + size)] := if_pos hless
      rw [hread _ _ hb]
      simp only [UInt8.lt_iff_toNat_lt, hbyte (0xC0 + size) (by omega)]
      rw [if_neg (by simp; omega), if_neg (by simp; omega), if_neg (by simp),
        if_pos (by simp; omega), hb]
      simp
  · cases k with
    | byte => exact absurd rfl hk
    | string =>
      have hb : header .string size =
          UInt8.ofNat (0xB7 + (bigBytes size).length) :: bigBytes size := if_neg hless
      rw [hread _ _ hb]
      simp only [UInt8.lt_iff_toNat_lt, hbyte (0xB7 + (bigBytes size).length) (by omega)]
      rw [if_neg (by simp; omega), if_neg (by simp; omega), if_pos (by simp; omega),
        Nat.add_sub_cancel_left]
      exact hlong _ hb (by omega)
    | list =>
      have hb : header .list size =
          UInt8.ofNat (0xF7 + (bigBytes size).length) :: bigBytes size := if_neg hless
      rw [hread _ _ hb]
      simp only [UInt8.lt_iff_toNat_lt, hbyte (0xF7 + (bigBytes size).length) (by omega)]
      rw [if_neg (by simp; omega), if_neg (by simp; omega), if_neg (by simp; omega),
        if_neg (by simp; omega), Nat.add_sub_cancel_left]
      exact hlong _ hb (by omega)

/-! ### Reading ahead -/

/-- The kind and the size of the next value have been read, without an error. -/
structure Ahead (s : Stream) (k : Kind) (size : ℕ) (c : Cursor) : Prop where
  cursor : s.toCursor = c
  kind : s.kind = some k
  size : s.size = size
  kinderr : s.kinderr = none

/-- The stream has been rearmed `n` bytes after `s`. -/
structure Moved (s : Stream) (n : ℕ) (s' : Stream) : Prop where
  cursor : s'.toCursor = s.toCursor.advance n
  kind : s'.kind = none

variable {k : Kind} {size : ℕ} {c : Cursor}

theorem Ahead.getKind (h : s.Ahead k size c) : Stream.getKind s = .ok (k, size) s := by
  simp only [Stream.getKind, h.kind, cached, h.kinderr, h.size]

theorem atEnd_of_fits (h : s.toCursor.Fits n) (hn : 0 < n) : s.atEnd = false := by
  unfold atEnd
  cases hstack : s.stack with
  | nil => rfl
  | cons tos rest =>
    have hle := h.list tos rest hstack
    simp only [decide_eq_false_iff_not]
    omega

theorem sizeErr_of_fits (h : s.toCursor.Fits n) : s.sizeErr n = none := by
  unfold sizeErr
  cases hstack : s.stack with
  | nil =>
    refine if_neg ?_
    rintro ⟨hlimited, hless⟩
    have hle := h.limit hlimited
    omega
  | cons tos rest =>
    have hle := h.list tos rest hstack
    exact if_neg (by omega)

theorem getKind_of_readKind (hkind : s.kind = none) (hend : s.atEnd = false)
    (hread : readKind { s with kinderr := none } = ((k, size, none), s'))
    (hsize : s'.sizeErr size = none) :
    getKind s = .ok (k, size)
      { s' with kind := some k, size := size, kinderr := none } := by
  unfold getKind
  split
  · rename_i kind hsome
    rw [hkind] at hsome
    cases hsome
  · simp only [hend, Bool.false_eq_true, if_false, hread, hsize, cached]
    rfl

theorem yields_getKind_byte (hkind : s.kind = none) (hb : b < 0x80)
    (hfits : s.toCursor.Fits 1) (hinput : s.input = b :: t) : Yields getKind s (.byte, 0) fun s' =>
      s'.Ahead .byte 0 (s.toCursor.advance 1) ∧ s'.byteval = b := by
  have hread := readKind_byte (s := { s with kinderr := none }) hb hfits hinput
  have hfits' : (({ s with kinderr := none } : Stream).skip 1).toCursor.Fits 0 :=
    Cursor.Fits.advance (n := 0) hfits
  exact ⟨_, getKind_of_readKind hkind (atEnd_of_fits hfits one_pos) hread
    (sizeErr_of_fits (s := { ({ s with kinderr := none } : Stream).skip 1 with byteval := b })
      hfits'), ⟨rfl, rfl, rfl, rfl⟩, rfl⟩

theorem length_header_pos (hk : k ≠ .byte) (size : ℕ) : 0 < (header k size).length := by
  cases k with
  | byte => exact absurd rfl hk
  | string | list =>
    simp only [header, puthead]
    split_ifs <;> simp

theorem yields_getKind (hkind : s.kind = none) (hk : k ≠ .byte)
    (hsize : size < 2 ^ 64) (hfits : s.toCursor.Fits ((header k size).length + size))
    (hinput : s.input = header k size ++ rest) : Yields getKind s (k, size) fun s' =>
      s'.Ahead k size (s.toCursor.advance (header k size).length) := by
  have hfits₀ : s.toCursor.Fits (header k size).length := hfits.mono (Nat.le_add_right _ _)
  have hread := readKind_header (s := { s with kinderr := none }) hk hsize hfits₀ hinput
  have hfits' : (({ s with kinderr := none } : Stream).skip (header k size).length).toCursor.Fits
      size := Cursor.Fits.advance (n := size) hfits
  exact ⟨_, getKind_of_readKind hkind (atEnd_of_fits hfits₀ (length_header_pos hk size)) hread
    (sizeErr_of_fits (s := { ({ s with kinderr := none } : Stream).skip (header k size).length with
      byteval := 0 }) hfits'), rfl, rfl, rfl, rfl⟩

/-- **What stands in front of a stream whose kind was read ahead.** -/
theorem of_getKind (hkind : s.kind = none) (h : getKind s = .ok (k, size) s') :
    (∃ b, k = .byte ∧ size = 0 ∧ b < 0x80 ∧ s.toCursor.Fits 1 ∧ (∃ t, s.input = b :: t) ∧
      s'.Ahead .byte 0 (s.toCursor.advance 1) ∧ s'.byteval = b) ∨
    (k ≠ .byte ∧ size < 2 ^ 64 ∧ s.toCursor.Fits (header k size).length ∧
      (∃ rest, s.input = header k size ++ rest) ∧
      s'.Ahead k size (s.toCursor.advance (header k size).length)) := by
  unfold getKind at h
  split at h
  · rename_i kind hsome
    rw [hkind] at hsome
    cases hsome
  split_ifs at h
  rcases hread : readKind { s with kinderr := none } with ⟨⟨k', size', err⟩, t⟩
  rw [hread] at h
  simp only [cached] at h
  cases herr : err <|> t.sizeErr size' with
  | some e =>
    rw [herr] at h
    cases h
  | none =>
    rw [herr] at h
    obtain ⟨⟨rfl, rfl⟩, rfl⟩ := h
    cases err with
    | some e => cases herr
    | none =>
      rcases of_readKind hread with ⟨b, rfl, rfl, hb, hfits, hinput, rfl⟩ |
        ⟨hk, hsize, hfits, hinput, rfl⟩
      · exact .inl ⟨b, rfl, rfl, hb, hfits, hinput, ⟨rfl, rfl, rfl, rfl⟩, rfl⟩
      · exact .inr ⟨hk, hsize, hfits, hinput, rfl, rfl, rfl, rfl⟩

/-- The stream is rearmed, or has read the kind of the next value without an error. -/
def Open (s : Stream) : Prop := s.kind = none ∨ ∃ k size, s.Ahead k size s.toCursor

theorem Ahead.isOpen (h : s.Ahead k size c) : s.Open :=
  .inr ⟨k, size, rfl, h.kind, h.size, h.kinderr⟩

theorem Open.ahead (hopen : s.Open) (h : getKind s = .ok (k, size) s') :
    ∃ c, s'.Ahead k size c := by
  rcases hopen with hkind | ⟨k', size', hahead⟩
  · rcases of_getKind hkind h with ⟨b, rfl, rfl, -, -, -, hahead, -⟩ | ⟨-, -, -, -, hahead⟩
    · exact ⟨_, hahead⟩
    · exact ⟨_, hahead⟩
  · rw [hahead.getKind] at h
    cases h
    exact ⟨_, hahead⟩

theorem getKind_bind {α : Type} {f : Kind × ℕ → Read α} (hopen : s.Open)
    (h : getKind s = .ok (k, size) s') : (Stream.getKind >>= f) s = (Stream.getKind >>= f) s' := by
  obtain ⟨c, hahead⟩ := hopen.ahead h
  rw [bind_ok h, bind_ok hahead.getKind]

/-! ### Strings -/

theorem encodeString_cases (b : Bytes) : (∃ v : UInt8, v < 0x80 ∧ b = [v] ∧ encodeString b = [v]) ∨
      encodeString b = header .string b.length ++ b ∧ ¬ (b.length = 1 ∧ b.headD 0 < 128) := by
  rcases encodeString_eq b with ⟨v, hv, rfl, hencode⟩ | hencode
  · exact .inl ⟨v, small_iff.2 hv, rfl, hencode⟩
  refine .inr ⟨hencode, ?_⟩
  rintro ⟨hone, hsmall⟩
  obtain ⟨v, rfl⟩ := length_eq_one_iff.1 hone
  have hv : v ≤ 0x7F := small_iff.1 hsmall
  have hlength := congrArg List.length hencode
  simp [encodeString, hv, puthead] at hlength

theorem bytes_of_string (hahead : s.Ahead .string size c) : bytes s = (do
      let b ← readFull size
      if size = 1 ∧ b.headD 0 < 128 then throw .errCanonSize else pure b : Read Bytes) s := by
  unfold bytes
  rw [bind_ok hahead.getKind]

theorem bytes_of_byte (hahead : s.Ahead .byte 0 c) :
    bytes s = .ok [s.byteval] { s with kind := none } := by
  unfold bytes
  rw [bind_ok hahead.getKind]
  rfl

theorem bytes_getKind (hopen : s.Open) (h : getKind s = .ok (k, size) s') : bytes s = bytes s' :=
  getKind_bind hopen h

theorem list_getKind (hopen : s.Open) (h : getKind s = .ok (k, size) s') : list s = list s' :=
  getKind_bind hopen h

theorem Ahead.readFull {b : Bytes} (hahead : s.Ahead k b.length c) (hfits : c.Fits b.length)
    (hinput : c.input = b ++ rest) : Stream.readFull b.length s = .ok b (s.skip b.length) := by
  refine readFull_eq_ok.2 ⟨?_, ?_, rfl⟩
  · rw [hahead.cursor]
    exact hfits
  · rw [hahead.cursor, hinput, take_left]

/-- **A string is read.** -/
theorem yields_bytes {b rest : Bytes} (hkind : s.kind = none)
    (hlen : (encodeString b).length < 2 ^ 64) (hfits : s.toCursor.Fits (encodeString b).length)
    (hinput : s.input = encodeString b ++ rest) :
    Yields bytes s b fun s' => s.Moved (encodeString b).length s' := by
  rcases encodeString_cases b with ⟨v, hv, rfl, hencode⟩ | ⟨hencode, hcanon⟩
  · rw [hencode] at hfits hinput ⊢
    obtain ⟨s₁, hget, hahead, hbyte⟩ := yields_getKind_byte hkind hv hfits hinput
    refine ⟨{ s₁ with kind := none }, ?_, hahead.cursor, rfl⟩
    rw [bytes_getKind (.inl hkind) hget, bytes_of_byte hahead, hbyte]
  rw [hencode, length_append] at hfits hlen
  rw [hencode, append_assoc] at hinput
  obtain ⟨s₁, hget, hahead⟩ := yields_getKind hkind (by simp) (by omega) hfits hinput
  have hdrop : (s.toCursor.advance (header .string b.length).length).input = b ++ rest := by
    simp only [Cursor.advance, hinput]
    exact drop_left
  have hfull := hahead.readFull hfits.advance hdrop
  refine ⟨s₁.skip b.length, ?_, ?_, rfl⟩
  · rw [bytes_getKind (.inl hkind) hget, bytes_of_string hahead, bind_ok hfull, if_neg hcanon]
    rfl
  · rw [hencode, length_append, ← Cursor.advance_advance]
    exact congrArg (Cursor.advance · b.length) hahead.cursor

/-- **What is read as a string is the encoding of that string.** -/
theorem of_bytes {b : Bytes} (hkind : s.kind = none) (h : bytes s = .ok b s') :
    (∃ rest, s.input = encodeString b ++ rest) ∧ s.toCursor.Fits (encodeString b).length ∧
      s.Moved (encodeString b).length s' := by
  cases hget : getKind s with
  | error e t =>
    unfold bytes at h
    rw [bind_error hget] at h
    cases h
  | ok r s₁ =>
    obtain ⟨k, size⟩ := r
    rw [bytes_getKind (.inl hkind) hget] at h
    rcases of_getKind hkind hget with
      ⟨v, rfl, rfl, hv, hfits, ⟨t, hinput⟩, hahead, hbyte⟩ | ⟨hk, hsize, hfits, ⟨t, hinput⟩, hahead⟩
    · rw [bytes_of_byte hahead] at h
      cases h
      have hencode : encodeString [s₁.byteval] = [v] := by
        rw [hbyte]
        exact if_pos (small_iff.1 hv)
      rw [hencode]
      exact ⟨⟨t, hinput⟩, hfits, hahead.cursor, rfl⟩
    cases k with
    | byte => exact absurd rfl hk
    | list =>
      unfold bytes at h
      rw [bind_ok hahead.getKind] at h
      cases h
    | string =>
      rw [bytes_of_string hahead] at h
      obtain ⟨b', s₂, hread, h⟩ := bind_eq_ok.1 h
      obtain ⟨hfits', rfl, rfl⟩ := readFull_eq_ok.1 hread
      split_ifs at h with hcanon
      · cases h
      cases h
      have hlen := length_take_of_le hfits'.input
      rw [hahead.cursor] at hfits'
      have hin : s₁.input = t := by
        rw [hahead.cursor]
        simp only [Cursor.advance, hinput, drop_left]
      have hencode : encodeString (s₁.input.take size) =
          header .string size ++ s₁.input.take size := by
        rcases encodeString_cases (s₁.input.take size) with ⟨v, hv, heq, -⟩ | ⟨hencode, -⟩
        · -- a single small byte is refused
          exact absurd ⟨by rw [← hlen, heq]; rfl, by rw [heq]; exact hv⟩ hcanon
        · rw [hencode, hlen]
      rw [hencode, length_append, hlen]
      refine ⟨⟨t.drop size, ?_⟩, hfits.add hfits', ?_, rfl⟩
      · rw [hinput, hin, append_assoc, take_append_drop]
      · rw [← Cursor.advance_advance]
        exact congrArg (Cursor.advance · size) hahead.cursor

/-! ### Lists -/

theorem list_of_ahead (hahead : s.Ahead .list size c) : list s = .ok size
      { s with toCursor := c.push size, kind := none, size := 0 } := by
  unfold list
  rw [bind_ok hahead.getKind, ← hahead.cursor]
  rfl

/-- **A list is entered.** -/
theorem yields_list (hkind : s.kind = none) (hsize : size < 2 ^ 64)
    (hfits : s.toCursor.Fits ((header .list size).length + size))
    (hinput : s.input = header .list size ++ rest) : Yields list s size fun s' => s'.kind = none ∧
      s'.toCursor = (s.toCursor.advance (header .list size).length).push size := by
  obtain ⟨s₁, hget, hahead⟩ := yields_getKind hkind (by simp) hsize hfits hinput
  exact ⟨_, (list_getKind (.inl hkind) hget).trans (list_of_ahead hahead), rfl, rfl⟩

theorem of_list (hkind : s.kind = none) (h : list s = .ok size s') :
    size < 2 ^ 64 ∧ s.toCursor.Fits (header .list size).length ∧
      (∃ rest, s.input = header .list size ++ rest) ∧ s'.kind = none ∧
      s'.toCursor = (s.toCursor.advance (header .list size).length).push size := by
  cases hget : getKind s with
  | error e t =>
    unfold list at h
    rw [bind_error hget] at h
    cases h
  | ok r s₁ =>
    obtain ⟨k, size'⟩ := r
    rw [list_getKind (.inl hkind) hget] at h
    rcases of_getKind hkind hget with
      ⟨v, rfl, rfl, -, -, -, hahead, -⟩ | ⟨hk, hsize, hfits, hinput, hahead⟩
    · unfold list at h
      rw [bind_ok hahead.getKind] at h
      cases h
    cases k with
    | byte => exact absurd rfl hk
    | string =>
      unfold list at h
      rw [bind_ok hahead.getKind] at h
      cases h
    | list =>
      rw [list_of_ahead hahead] at h
      cases h
      exact ⟨hsize, hfits, hinput, rfl, rfl⟩

theorem listEnd_eq_ok {u : Unit} : listEnd s = .ok u s' ↔
      (∃ tos rest, s.stack = tos :: rest ∧ tos.pos = tos.size) ∧
        s' = { s with toCursor := s.toCursor.pop, kind := none, size := 0 } := by
  unfold listEnd Cursor.pop
  cases hstack : s.stack with
  | nil => simp
  | cons tos rest =>
    by_cases hend : tos.pos = tos.size
    · cases rest with
      | nil | cons out rest => simp [hend, eq_comm]
    simp only [hend, if_false, reduceCtorEq, false_iff, not_and]
    rintro ⟨tos', rest', heq, hpos⟩
    cases heq
    exact absurd hpos hend

end Stream

end Rlp
