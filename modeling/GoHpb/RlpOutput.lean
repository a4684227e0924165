/-
**The three outputs of the encoder.**

What is in the buffer of the encoder leaves it in three ways: `EncodeToBytes` puts it into one
slice, `Encode` hands it to a writer slice by slice, and `EncodeToReader` gives a reader which
returns it in parts of any size and can stop in the middle of a slice.  Each of them has a loop of
its own that puts the headers between the string data.

Main results:

* `Rlp.flatten_writeSlices` — **what is written is what `toBytes` returns**;
* `Rlp.EncReader.read_eq` — **a read returns the beginning of what is left**.
-/

import GoHpb.RlpTyped

open List

namespace Rlp

namespace EncBuf

/-- The loop of `toWriter`: the slices that are written from the position `strpos` of the string
data on. -/
def writeSlices (str : Bytes) : List ListHead → ℕ → List Bytes
  | [], strpos => if strpos < str.length then [str.drop strpos] else []
  | head :: heads, strpos =>
    if strpos < head.offset then
      (str.take head.offset).drop strpos :: puthead 0xC0 0xF7 head.size ::
        writeSlices str heads (strpos + (head.offset - strpos))
    else puthead 0xC0 0xF7 head.size :: writeSlices str heads strpos

/-- `toWriter`, for a writer that takes all it is given. -/
def toWriter (w : EncBuf) : List Bytes := writeSlices w.str w.lheads 0

end EncBuf

/-! ### The reader -/

structure EncReader where
  buf : Option EncBuf
  lhpos : ℕ := 0
  strpos : ℕ := 0
  piece : Option Bytes := none
  deriving DecidableEq

namespace EncReader

def next (r : EncReader) : Option Bytes × EncReader :=
  match r.buf, r.piece with
  | none, _ => (none, r)
  | some _, some piece => (some piece, r)
  | some buf, none =>
    match buf.lheads[r.lhpos]? with
    | some head =>
      let sizebefore := head.offset - r.strpos
      if 0 < sizebefore then
        (some ((buf.str.take head.offset).drop r.strpos),
          { r with strpos := r.strpos + sizebefore })
      else (some (puthead 0xC0 0xF7 head.size), { r with lhpos := r.lhpos + 1 })
    | none =>
      if r.strpos < buf.str.length then
        (some (buf.str.drop r.strpos), { r with strpos := buf.str.length })
      else (none, r)

/-- The loop of `Read` into a slice of length `size`, of which `out` has been filled: what is in it
at the end, and whether the end of the data is reported. -/
def readLoop (size : ℕ) : ℕ → Bytes → EncReader → Option ((Bytes × Bool) × EncReader)
  | 0, _, _ => none
  | rounds + 1, out, r =>
    match r.next with
    | (none, r) => some ((out, true), { r with buf := none, piece := none })
    | (some piece, r) =>
      let nn := min (size - out.length) piece.length
      if nn < piece.length then
        some ((out ++ piece.take nn, false), { r with piece := some (piece.drop nn) })
      else readLoop size rounds (out ++ piece) { r with piece := none }

/-- The number of rounds after which `Read` has ended: two for each header, and three more. -/
def rounds (r : EncReader) : ℕ :=
  2 * (r.buf.elim 0 fun buf => buf.lheads.length) + 3

def read (size : ℕ) (r : EncReader) : Option ((Bytes × Bool) × EncReader) :=
  readLoop size r.rounds [] r

/-- Reading with slices of the given sizes until the end is reported: what has been read, and
whether the end was. -/
def readToEnd : List ℕ → EncReader → Option (Bytes × Bool)
  | [], _ => some ([], false)
  | size :: sizes, r => do
    let ((b, eof), r) ← r.read size
    if eof then some (b, true)
    else do
      let (rest, eof) ← readToEnd sizes r
      some (b ++ rest, eof)

/-- The slices that are left to be read. -/
def pieces (r : EncReader) : List Bytes :=
  match r.buf with
  | none => []
  | some buf => r.piece.toList ++ EncBuf.writeSlices buf.str (buf.lheads.drop r.lhpos) r.strpos

/-! ### What is read -/

variable {r : EncReader}

theorem exists_next (r : EncReader) : ∃ r', r.next = (r.pieces.head?, r') ∧ r'.buf = r.buf ∧
    { r' with piece := none }.pieces = r.pieces.tail := by
  obtain ⟨buf, lhpos, strpos, piece⟩ := r
  rcases buf with _ | buf
  · exact ⟨_, rfl, rfl, rfl⟩
  rcases piece with _ | piece
  swap
  · exact ⟨_, rfl, rfl, rfl⟩
  cases hhead : buf.lheads[lhpos]? with
  | some head =>
    obtain ⟨hlt, rfl⟩ := List.getElem?_eq_some_iff.1 hhead
    simp only [next, pieces, hhead, Option.toList_none, nil_append, drop_eq_getElem_cons hlt,
      EncBuf.writeSlices]
    by_cases hbefore : strpos < buf.lheads[lhpos].offset
    · rw [if_pos hbefore, if_pos (by omega)]
      refine ⟨_, rfl, rfl, ?_⟩
      simp only [drop_eq_getElem_cons hlt, EncBuf.writeSlices]
      rw [if_neg (by omega)]
      rfl
    · rw [if_neg hbefore, if_neg (by omega)]
      exact ⟨_, rfl, rfl, rfl⟩
  | none =>
    have hdrop := drop_eq_nil_of_le (getElem?_eq_none_iff.1 hhead)
    simp only [next, pieces, hhead, Option.toList_none, nil_append, hdrop, EncBuf.writeSlices]
    split_ifs with hlt
    · refine ⟨_, rfl, rfl, ?_⟩
      simp only [hdrop, EncBuf.writeSlices, if_neg (lt_irrefl _), tail_cons]
    · refine ⟨_, rfl, rfl, ?_⟩
      simp only [hdrop, EncBuf.writeSlices, if_neg hlt, tail_nil]

/-- The loop fills the slice with what is left, and reports the end if it fits. -/
theorem readLoop_eq (size : ℕ) : ∀ (rounds : ℕ) (out : Bytes) (r : EncReader),
    r.pieces.length < rounds →
    ∃ r', readLoop size rounds out r = some ((out ++ r.pieces.flatten.take (size - out.length),
        decide (r.pieces.flatten.length ≤ size - out.length)), r') ∧
      r'.pieces.flatten = r.pieces.flatten.drop (size - out.length)
  | 0, _, _, h => by cases h
  | rounds + 1, out, r, h => by
    rw [readLoop]
    obtain ⟨r', hnext, hbuf, hmore⟩ := r.exists_next
    rw [hnext]
    cases hpieces : r.pieces with
    | nil =>
      simp [pieces]
    | cons piece more =>
      rw [hpieces, tail_cons] at hmore
      rw [hpieces, length_cons] at h
      rw [flatten_cons, length_append, head?_cons]
      rcases Nat.lt_or_ge (size - out.length) piece.length with hlt | hge
      · simp only [Nat.min_eq_left hlt.le, if_pos hlt]
        refine ⟨{ r' with piece := some (piece.drop (size - out.length)) }, ?_, ?_⟩
        · rw [take_append_of_le_length hlt.le, decide_eq_false (by omega)]
        cases hsome : r'.buf with
        | none => simp [pieces, ← hbuf, hsome] at hpieces
        | some buf =>
          rw [drop_append_of_le_length hlt.le, ← hmore]
          simp [pieces, hsome]
      · simp only [Nat.min_eq_right hge, if_neg (lt_irrefl _)]
        obtain ⟨r'', hloop, hrest⟩ := readLoop_eq size rounds (out ++ piece)
          { r' with piece := none } (by rw [hmore]; omega)
        rw [hmore, length_append] at hloop hrest
        have hsub : size - (out.length + piece.length) =
            size - out.length - piece.length := by omega
        refine ⟨r'', ?_, ?_⟩
        · rw [hloop, take_append, take_of_length_le hge, append_assoc, hsub]
          congr 3
          exact decide_eq_decide.2 (by omega)
        · rw [hrest, drop_append, drop_eq_nil_of_le hge, nil_append, hsub]

theorem length_pieces_lt (r : EncReader) : r.pieces.length < r.rounds := by
  have hslices : ∀ (str : Bytes) (heads : List ListHead) (strpos : ℕ),
      (EncBuf.writeSlices str heads strpos).length ≤ 2 * heads.length + 1 := by
    intro str heads
    induction heads with
    | nil =>
      intro strpos
      rw [EncBuf.writeSlices]
      split_ifs <;> simp
    | cons head heads ih =>
      intro strpos
      rw [EncBuf.writeSlices]
      split_ifs
      · have := ih (strpos + (head.offset - strpos))
        simp only [length_cons]
        omega
      · have := ih strpos
        simp only [length_cons]
        omega
  obtain ⟨buf, lhpos, strpos, piece⟩ := r
  cases buf with
  | none => simp [pieces, rounds]
  | some buf =>
    have hlen := hslices buf.str (buf.lheads.drop lhpos) strpos
    have hpiece : piece.toList.length ≤ 1 := by cases piece <;> simp
    simp only [pieces, rounds, length_append, Option.elim_some]
    rw [length_drop] at hlen
    omega

/-- **A read returns the beginning of what is left**, and reports the end if this is all. -/
theorem read_eq (size : ℕ) (r : EncReader) :
    ∃ r', r.read size = some ((r.pieces.flatten.take size,
        decide (r.pieces.flatten.length ≤ size)), r') ∧
      r'.pieces.flatten = r.pieces.flatten.drop size :=
  readLoop_eq size r.rounds [] r r.length_pieces_lt

theorem readToEnd_eq : ∀ (sizes : List ℕ) (r : EncReader),
    r.readToEnd sizes = some (r.pieces.flatten.take sizes.sum,
      decide (sizes ≠ [] ∧ r.pieces.flatten.length ≤ sizes.sum))
  | [], r => by simp [readToEnd]
  | size :: sizes, r => by
    obtain ⟨r', hread, hrest⟩ := read_eq size r
    have hsum : (size :: sizes).sum = size + sizes.sum := sum_cons
    simp only [readToEnd, hread, Option.bind_eq_bind, Option.bind_some, decide_eq_true_eq]
    split_ifs with hend
    · have hle : r.pieces.flatten.length ≤ (size :: sizes).sum := by omega
      rw [take_of_length_le hend, take_of_length_le hle,
        decide_eq_true (p := _ ∧ _) ⟨cons_ne_nil _ _, hle⟩]
    rw [readToEnd_eq sizes r', hrest, hsum, take_add]
    have heof : (sizes ≠ [] ∧ (r.pieces.flatten.drop size).length ≤ sizes.sum) ↔
        size :: sizes ≠ [] ∧ r.pieces.flatten.length ≤ (size :: sizes).sum := by
      rw [length_drop]
      refine ⟨fun h => ⟨cons_ne_nil _ _, by omega⟩, fun h => ⟨?_, by omega⟩⟩
      rintro rfl
      exact hend h.2
    rw [decide_eq_decide.2 heof]
    rfl

end EncReader

/-! ### The headers are in order -/

/-- The headers stand in the order of their offsets, all inside of the string data. -/
def Ordered (w : EncBuf) : Prop :=
  (w.lheads.map ListHead.offset ++ [w.str.length]).Pairwise (· ≤ ·)

theorem Ordered.list {w : EncBuf} (h : Ordered w) : Ordered w.list := by
  have hle : ∀ n ∈ w.lheads.map ListHead.offset ++ [w.str.length], n ≤ w.str.length := by
    intro n hn
    rcases mem_append.1 hn with hn | hn
    · exact (pairwise_append.1 h).2.2 n hn _ (mem_singleton_self _)
    · exact (mem_singleton.1 hn).le
  simp only [Ordered, EncBuf.list, map_append, map_singleton]
  exact pairwise_append.2 ⟨h, pairwise_singleton _ _, by simpa using hle⟩

theorem Ordered.listEnd {w : EncBuf} (h : Ordered w) (lh : ℕ) : Ordered (w.listEnd lh) := by
  unfold EncBuf.listEnd
  split
  · exact h
  next head hhead =>
    obtain ⟨hlt, rfl⟩ := List.getElem?_eq_some_iff.1 hhead
    simp only [Ordered, map_set]
    rw [← getElem_map ListHead.offset (h := by simpa using hlt), set_getElem_self]
    exact h

theorem Writer.ordered {f : EncBuf → EncBuf} {b : Bytes} (h : Writer f b) :
    ∀ {w : EncBuf}, Ordered w → Ordered (f w) := by
  induction h with
  | id => exact fun hw => hw
  | write b =>
    intro w hw
    obtain ⟨hoffsets, -, hle⟩ := pairwise_append.1 hw
    refine pairwise_append.2 ⟨hoffsets, pairwise_singleton _ _, fun n hn m hm => ?_⟩
    have hn := hle n hn _ (mem_singleton_self _)
    rw [mem_singleton.1 hm, EncBuf.write, length_append]
    omega
  | comp _ _ hf hg => exact fun hw => hg (hf hw)
  | list _ hf => exact fun hw => (hf hw.list).listEnd _

/-- **What is written is what `toBytes` returns.** -/
theorem flatten_writeSlices (str : Bytes) : ∀ (heads : List ListHead) (strpos : ℕ),
    (strpos :: heads.map ListHead.offset).Pairwise (· ≤ ·) →
    (EncBuf.writeSlices str heads strpos).flatten = EncBuf.render str heads strpos
  | [], strpos, _ => by
    rw [EncBuf.writeSlices, EncBuf.render]
    split_ifs with hlt
    · simp
    · rw [drop_eq_nil_of_le (by omega), flatten_nil]
  | head :: heads, strpos, h => by
    obtain ⟨hle, hrest⟩ := pairwise_cons.1 h
    have hhead : strpos ≤ head.offset := hle _ mem_cons_self
    have ih := flatten_writeSlices str heads head.offset hrest
    rw [EncBuf.writeSlices, EncBuf.render]
    split_ifs with hlt
    · rw [Nat.add_sub_cancel' hhead, flatten_cons, flatten_cons, ih, append_assoc]
    -- nothing is written before a header that directly follows another one
    obtain rfl : strpos = head.offset := by omega
    rw [flatten_cons, ih, drop_take_self, nil_append]

/-! ### The outputs -/

/-- **The three outputs agree**: whatever has been written to the buffer, `toBytes` returns,
`toWriter` writes and the reader gives the same bytes, as many as reported.  Read in parts of any
sizes they come in order, and the end is reported with the last of them. -/
theorem outputs_agree :
    (∀ (t : Ty) (v : t.Value), Writer (t.write v) (t.encodeToBytes v)) ∧
    ∀ (f : EncBuf → EncBuf) (b : Bytes), Writer f b →
      (f EncBuf.empty).toBytes = b ∧ (f EncBuf.empty).toWriter.flatten = b ∧
      (f EncBuf.empty).size = b.length ∧
      ∀ sizes : List ℕ, EncReader.readToEnd sizes { buf := some (f EncBuf.empty) } =
        some (b.take sizes.sum, decide (sizes ≠ [] ∧ b.length ≤ sizes.sum)) := by
  refine ⟨fun t v => ?_, fun f b h => ?_⟩
  · rw [t.encodeToBytes_eq v]
    exact writes_write t v
  have hbytes := toBytes_of_writes h.writes
  have hwriter : (f EncBuf.empty).toWriter.flatten = b := by
    have hordered := h.ordered (w := EncBuf.empty) (pairwise_singleton _ _)
    rw [EncBuf.toWriter, flatten_writeSlices _ _ _
      (pairwise_cons.2 ⟨fun _ _ => Nat.zero_le _, (pairwise_append.1 hordered).1⟩)]
    exact hbytes
  refine ⟨hbytes, hwriter, ?_, fun sizes => ?_⟩
  · obtain ⟨str, heads, hw, hpiece⟩ := h.writes EncBuf.empty
    have hlength := hpiece.length
    rw [hw]
    simp only [EncBuf.size, EncBuf.empty, nil_append, Nat.zero_add]
    omega
  · rw [EncReader.readToEnd_eq]
    have hpieces : EncReader.pieces { buf := some (f EncBuf.empty) } =
        (f EncBuf.empty).toWriter := rfl
    rw [hpieces, hwriter]

/-- A list of a string and an empty list, read in three parts of which one is empty. -/
theorem outputs_agree_nested :
    EncReader.readToEnd [2, 0, 7]
        { buf := some (writeItem (.list [.str [1, 2], .list []]) EncBuf.empty) } =
      some ([0xC4, 0x82, 1, 2, 0xC0], true) := by
  have h := outputs_agree.2 _ _ (outputs_agree.1 .iface (.list [.str [1, 2], .list []]))
  exact (h.2.2.2 [2, 0, 7]).trans (by decide)

end Rlp
