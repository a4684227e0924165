/-
**The buffer of the encoder.**

`common/rlp/encode.go` writes in two passes.  The writers append all string data to one buffer and
only note where a list starts; when a list ends, its size is known, and its header is kept aside.
`toBytes` then puts the headers between the string data.

This module models the buffer and the writer of trees, and proves that the two passes produce the
encoding that `RlpEncode` writes down directly.  With the two directions of `RlpDecode` this makes
`DecodeBytes` and `EncodeToBytes` inverse to each other.

Main results:

* `Rlp.Writes.list`, `Rlp.toBytes_of_writes` — **the two passes write the encoding**;
* `Rlp.rlp_bijection` — **decoding and encoding are inverse to each other**.
-/

import GoHpb.RlpDecode

open List

namespace Rlp

/-! ### The buffer -/

/-- The header of a list: where it belongs in the string data, and the size of the list with the
headers inside of it. -/
structure ListHead where
  offset : ℕ
  size : ℕ
  deriving DecidableEq

/-- The buffer: the string data, the headers in the order their lists start, and the number of bytes
all finished headers take. -/
structure EncBuf where
  str : Bytes
  lheads : List ListHead
  lhsize : ℕ
  deriving DecidableEq

def headsize (size : ℕ) : ℕ := if size < 56 then 1 else 1 + (bigBytes size).length

namespace EncBuf

/-- A buffer after `reset`. -/
def empty : EncBuf := ⟨[], [], 0⟩

/-- Appending string data. -/
def write (b : Bytes) (w : EncBuf) : EncBuf := { w with str := w.str ++ b }

def encodeString (b : Bytes) (w : EncBuf) : EncBuf := w.write (Rlp.encodeString b)

def size (w : EncBuf) : ℕ := w.str.length + w.lhsize

/-- `list`: a list starts here.  Until it ends, the size of its header holds the size of all headers
before it. -/
def list (w : EncBuf) : EncBuf :=
  { w with lheads := w.lheads ++ [⟨w.str.length, w.lhsize⟩] }

/-- `listEnd` of the list whose header has the index `lh`. -/
def listEnd (lh : ℕ) (w : EncBuf) : EncBuf :=
  match w.lheads[lh]? with
  | none => w
  | some head =>
    let size := w.size - head.offset - head.size
    { w with
      lheads := w.lheads.set lh ⟨head.offset, size⟩
      lhsize := w.lhsize + headsize size }

/-- The second pass from the position `strpos` of the string data on. -/
def render (str : Bytes) : List ListHead → ℕ → Bytes
  | [], strpos => str.drop strpos
  | head :: heads, strpos =>
    (str.take head.offset).drop strpos ++ puthead 0xC0 0xF7 head.size ++
      render str heads head.offset

def toBytes (w : EncBuf) : Bytes := render w.str w.lheads 0

end EncBuf

/-- A list written by `f`: its header is noted before, and completed after. -/
def writeList (f : EncBuf → EncBuf) (w : EncBuf) : EncBuf := (f w.list).listEnd w.lheads.length

mutual

/-- The writer of interface values that hold byte slices and slices of interface values. -/
def writeItem : Item → EncBuf → EncBuf
  | Item.str b => EncBuf.encodeString b
  | Item.list l => writeList (writeItems l)

/-- Writing the elements of a slice. -/
def writeItems : List Item → EncBuf → EncBuf
  | [], w => w
  | i :: l, w => writeItems l (writeItem i w)

end

/-- `EncodeToBytes` of a tree. -/
def encodeToBytes (i : Item) : Bytes := (writeItem i EncBuf.empty).toBytes

/-! ### The two passes -/

/-- The string data and the headers that a piece of an encoding consists of: put together from any
position of the string data on, they are the bytes `b`. -/
structure Piece (str : Bytes) (heads : List ListHead) (offset : ℕ) (b : Bytes) : Prop where
  /-- the headers stand in order, and inside of the piece -/
  bounds : ∀ h ∈ heads, offset ≤ h.offset ∧ h.offset ≤ offset + str.length
  length : str.length ≤ b.length
  render : ∀ before after : Bytes, ∀ more : List ListHead, before.length = offset →
    (∀ h ∈ more, offset + str.length ≤ h.offset) →
    EncBuf.render (before ++ str ++ after) (heads ++ more) offset =
      b ++ EncBuf.render (before ++ str ++ after) more (offset + str.length)

/-- The function writes the bytes `b`, whatever is in the buffer before. -/
def Writes (f : EncBuf → EncBuf) (b : Bytes) : Prop :=
  ∀ w, ∃ str heads, f w = ⟨w.str ++ str, w.lheads ++ heads, w.lhsize + (b.length - str.length)⟩ ∧
    Piece str heads w.str.length b

theorem Writes.id : Writes (fun w => w) [] := by
  intro w
  refine ⟨[], [], by simp, fun h hh => by simp at hh, le_rfl, ?_⟩
  intro before after more hlen hmore
  simp

theorem Writes.write (b : Bytes) : Writes (EncBuf.write b) b := by
  intro w
  refine ⟨b, [], by simp [EncBuf.write], fun h hh => by simp at hh, le_rfl, ?_⟩
  intro before after more hlen hmore
  rw [← hlen] at hmore ⊢
  rw [nil_append]
  cases more with
  | nil =>
    simp only [EncBuf.render, append_assoc, drop_left]
    rw [← drop_drop, drop_left, drop_left]
  | cons h more =>
    have hle := hmore h mem_cons_self
    have hfirst : (((before ++ b ++ after).take h.offset).drop before.length).take b.length =
        b := by
      rw [drop_take, take_take, append_assoc, drop_left, Nat.min_eq_left (by omega), take_left]
    have hsplit : ((before ++ b ++ after).take h.offset).drop before.length =
        b ++ ((before ++ b ++ after).take h.offset).drop (before.length + b.length) := by
      rw [← drop_drop]
      exact (take_append_drop b.length _).symm.trans (by rw [hfirst])
    simp only [EncBuf.render]
    rw [hsplit]
    simp only [append_assoc]

theorem Writes.comp {f g : EncBuf → EncBuf} {b c : Bytes} (hf : Writes f b) (hg : Writes g c) :
    Writes (fun w => g (f w)) (b ++ c) := by
  intro w
  obtain ⟨str, heads, hw, hpiece⟩ := hf w
  obtain ⟨str', heads', hw', hpiece'⟩ := hg (f w)
  have hlength := hpiece.length
  have hlength' := hpiece'.length
  rw [hw] at hpiece' hw'
  simp only [length_append] at hpiece'
  refine ⟨str ++ str', heads ++ heads', ?_, ?_, ?_, ?_⟩
  · dsimp only
    rw [hw, hw']
    simp only [append_assoc, EncBuf.mk.injEq, true_and, length_append]
    omega
  · intro h hh
    rw [length_append]
    rcases mem_append.1 hh with hh | hh
    · have := hpiece.bounds h hh
      omega
    · have := hpiece'.bounds h hh
      omega
  · simp only [length_append]
    omega
  intro before after more hlen hmore
  rw [length_append] at hmore
  have hfirst := hpiece.render before (str' ++ after) (heads' ++ more) hlen (by
    intro h hh
    rcases mem_append.1 hh with hh | hh
    · exact (hpiece'.bounds h hh).1
    · have := hmore h hh
      omega)
  have hsecond := hpiece'.render (before ++ str) after more (by
    rw [length_append, hlen]) (by
    intro h hh
    have := hmore h hh
    omega)
  simp only [append_assoc] at hfirst hsecond ⊢
  rw [hfirst, hsecond, length_append, Nat.add_assoc]

theorem length_puthead (size : ℕ) : (puthead 0xC0 0xF7 size).length = headsize size := by
  unfold puthead headsize
  split_ifs
  · rfl
  · rw [length_cons, Nat.add_comm]

/-- **A list is written with its header**, which is completed after its elements. -/
theorem Writes.list {f : EncBuf → EncBuf} {b : Bytes} (hf : Writes f b) :
    Writes (writeList f) (puthead 0xC0 0xF7 b.length ++ b) := by
  intro w
  obtain ⟨str, heads, hw, hpiece⟩ := hf w.list
  have hlength := hpiece.length
  have hget : (w.lheads ++ [⟨w.str.length, w.lhsize⟩] ++ heads)[w.lheads.length]? =
      some ⟨w.str.length, w.lhsize⟩ := by
    rw [append_assoc, getElem?_append_right le_rfl, Nat.sub_self]
    rfl
  refine ⟨str, ⟨w.str.length, b.length⟩ :: heads, ?_, ?_, ?_, ?_⟩
  · have hsize : (⟨w.str ++ str, w.lheads ++ [⟨w.str.length, w.lhsize⟩] ++ heads,
        w.lhsize + (b.length - str.length)⟩ : EncBuf).size - w.str.length - w.lhsize =
        b.length := by
      simp only [EncBuf.size, length_append]
      omega
    unfold writeList EncBuf.listEnd
    rw [hw]
    simp only [EncBuf.list] at hget hsize ⊢
    rw [hget]
    simp only [hsize]
    simp only [EncBuf.mk.injEq, true_and, append_assoc]
    constructor
    · rw [set_append_right _ _ le_rfl, Nat.sub_self]
      rfl
    · rw [length_append, length_puthead]
      omega
  · intro h hh
    rcases mem_cons.1 hh with rfl | hh
    · simp
    · exact hpiece.bounds h hh
  · rw [length_append]
    omega
  · intro before after more hlen hmore
    have hrest := hpiece.render before after more hlen hmore
    simp only [EncBuf.list] at hrest
    simp only [cons_append, EncBuf.render, hrest, drop_take_self]
    simp

theorem toBytes_of_writes {f : EncBuf → EncBuf} {b : Bytes} (hf : Writes f b) :
    (f EncBuf.empty).toBytes = b := by
  obtain ⟨str, heads, hw, hpiece⟩ := hf EncBuf.empty
  have hrender := hpiece.render [] [] [] rfl (by simp)
  rw [hw]
  simp only [EncBuf.empty, EncBuf.toBytes, nil_append, append_nil, length_nil,
    EncBuf.render, Nat.zero_add] at hrender ⊢
  rw [hrender]
  simp

/-- The functions that write values: they append string data, and put lists around it.  A type that
encodes itself can do nothing else. -/
inductive Writer : (EncBuf → EncBuf) → Bytes → Prop
  | id : Writer (fun w => w) []
  | write (b : Bytes) : Writer (EncBuf.write b) b
  | comp {f g : EncBuf → EncBuf} {b c : Bytes} :
    Writer f b → Writer g c → Writer (fun w => g (f w)) (b ++ c)
  | list {f : EncBuf → EncBuf} {b : Bytes} :
    Writer f b → Writer (writeList f) (puthead 0xC0 0xF7 b.length ++ b)

theorem Writer.writes {f : EncBuf → EncBuf} {b : Bytes} (h : Writer f b) : Writes f b := by
  induction h with
  | id => exact Writes.id
  | write b => exact Writes.write b
  | comp _ _ hf hg => exact hf.comp hg
  | list _ hf => exact hf.list

mutual

theorem writes_writeItem : ∀ i : Item, Writer (writeItem i) (encode i)
  | .str b => by
    exact Writer.write _
  | .list l => by
    exact (writes_writeItems l).list

theorem writes_writeItems : ∀ l : List Item, Writer (writeItems l) (encodeItems l)
  | [] => by
    exact Writer.id
  | i :: l => by
    exact (writes_writeItem i).comp (writes_writeItems l)

end

/-- **The two passes write the encoding of a tree.** -/
theorem encodeToBytes_eq (i : Item) : encodeToBytes i = encode i :=
  toBytes_of_writes (writes_writeItem i).writes

/-! ### The two directions together -/

/-- **Decoding and encoding are inverse to each other.**  Whatever can be written is read again;
whatever is read is what `EncodeToBytes` writes for the result, so that no two inputs are read as
the same tree; and reading always ends. -/
theorem rlp_bijection (rounds : ℕ) :
    (∀ i : Item, (encodeToBytes i).length < 2 ^ 64 → (encodeToBytes i).length < rounds →
      decodeBytes Ty.iface (decodeInterface rounds) (encodeToBytes i) = .ok i) ∧
    (∀ (b : Bytes) (i : Item), decodeBytes Ty.iface (decodeInterface rounds) b = .ok i →
      encodeToBytes i = b) ∧
    (∀ (b c : Bytes) (i : Item), decodeBytes Ty.iface (decodeInterface rounds) b = .ok i →
      decodeBytes Ty.iface (decodeInterface rounds) c = .ok i → b = c) ∧
    ∀ b : Bytes, b.length < rounds →
      decodeBytes Ty.iface (decodeInterface rounds) b ≠ .error DecodeErr.outOfRounds := by
  have hsound : ∀ (b : Bytes) (i : Item),
      decodeBytes .iface (decodeInterface rounds) b = .ok i → encodeToBytes i = b := by
    intro b i h
    unfold decodeBytes at h
    cases hdecode : decodeInterface rounds (Stream.new b) with
    | error e s =>
      rw [hdecode] at h
      cases h
    | ok j s =>
      rw [hdecode] at h
      simp only at h
      split_ifs at h with hmore
      cases h
      obtain ⟨⟨rest, hinput⟩, hmoved, -⟩ := (canonical_decodeInterface rounds).decoded rfl hdecode
      have hrest : s.input = rest := by
        rw [hmoved]
        simp only [Cursor.advance, hinput, drop_left]
      have hnil : rest = [] := by
        rw [hrest] at hmore
        exact length_eq_zero_iff.1 (by omega)
      rw [hnil, append_nil] at hinput
      rw [encodeToBytes_eq]
      exact hinput.symm
  refine ⟨fun i hlen hrounds => ?_, hsound, fun b c i hb hc => ?_, fun b hrounds h => ?_⟩
  · rw [encodeToBytes_eq] at hlen hrounds ⊢
    obtain ⟨s, hdecode, hmoved⟩ := yields_decodeInterface (Front.new (encode i)) hlen hrounds
    have hend : s.input = [] := by
      rw [hmoved.cursor]
      simp [Cursor.advance, Stream.new]
    simp only [decodeBytes, hdecode, hend]
    rfl
  · rw [← hsound b i hb, ← hsound c i hc]
  unfold decodeBytes at h
  cases hdecode : decodeInterface rounds (Stream.new b) with
  | ok j s =>
    rw [hdecode] at h
    simp only at h
    split_ifs at h
    cases h
  | error e s =>
    rw [hdecode] at h
    have hne := decodeInterface_ends (s := Stream.new b) rfl hrounds hdecode
    cases e with
    | outOfRounds => exact hne rfl
    | decodeError msg typ ctx => cases ctx <;> cases h
    | _ => cases h

/-- A list of a string and a nested empty list, written and read. -/
theorem rlp_bijection_nested :
    encodeToBytes (Item.list [Item.str [1, 2], Item.list []]) = [0xC4, 0x82, 1, 2, 0xC0] ∧
    decodeBytes Ty.iface (decodeInterface 6) [0xC4, 0x82, 1, 2, 0xC0] =
      .ok (Item.list [Item.str [1, 2], Item.list []]) := by
  have hbytes : encodeToBytes (.list [.str [1, 2], .list []]) =
      [0xC4, 0x82, 1, 2, 0xC0] := by decide
  refine ⟨hbytes, ?_⟩
  have h := (rlp_bijection 6).1 (.list [.str [1, 2], .list []])
  exact h (by decide) (by decide)

end Rlp
