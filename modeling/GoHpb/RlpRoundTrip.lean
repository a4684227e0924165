/-
**Which values come back.**

A decoder never takes more of the input than the value it returns is written in; and it takes less
as soon as it has started from a stalled stream, that is, from one that still offers the zero byte
of an array that has been read already.  A value that is read back from its own encoding has used it
up, so it has no array of one zero byte in front of anything else.

Main results:

* `Rlp.frugal_decode` — **every decoder is frugal**, on rearmed and on stalled streams;
* `Rlp.typed_round_trip_iff` — **decoding gives back exactly the values that round-trip**.
-/

import GoHpb.RlpTyped

open FailState Rlp.Stream List Stream FixedBytes

namespace Rlp

variable {s s' : Stream} {rounds : ℕ}

/-! ### What a read takes up -/

/-- The stream is rearmed, or stalled. -/
def Stream.Ready (s : Stream) : Prop := s.kind = none ∨ s.Stalled

/-- The stream has moved by at most `n` bytes, and by less if `full` fails. -/
def Spends (s : Stream) (n : ℕ) (full : Prop) (s' : Stream) : Prop :=
  ∃ m, m ≤ n ∧ s'.toCursor = s.toCursor.advance m ∧ (m = n → full)

variable {e : DecodeErr} {t : Ty} {dec : Read t.Value} {typ : Ty} {n : ℕ} {v : t.Value} {size : ℕ}

theorem Spends.mono {P Q : Prop} (h : Spends s n P s') (hPQ : P → Q) : Spends s n Q s' := by
  obtain ⟨m, hle, hcursor, hfull⟩ := h
  exact ⟨m, hle, hcursor, fun heq => hPQ (hfull heq)⟩

theorem Spends.trans {s'' : Stream} {n n' : ℕ} {P Q : Prop} (h : Spends s n P s')
    (h' : Spends s' n' Q s'') : Spends s (n + n') (P ∧ Q) s'' := by
  obtain ⟨m, hle, hcursor, hfull⟩ := h
  obtain ⟨m', hle', hcursor', hfull'⟩ := h'
  refine ⟨m + m', by omega, ?_, fun heq => ⟨hfull (by omega), hfull' (by omega)⟩⟩
  rw [hcursor', hcursor, Cursor.advance_advance]

theorem Spends.of_moved (hkind : s.kind = none) (h : s.Moved n s') :
    Spends s n (s.kind = none) s' :=
  ⟨n, le_rfl, h.cursor, fun _ => hkind⟩

theorem Spends.of_cursor (P : Prop) (hn : 0 < n) (h : s'.toCursor = s.toCursor) : Spends s n P s' :=
  ⟨0, hn.le, h.trans (Cursor.advance_zero _).symm, fun heq => absurd heq hn.ne⟩

theorem length_header_mono {m n : ℕ} (h : m ≤ n) :
    (header .list m).length ≤ (header .list n).length := by
  have hbytes : (bigBytes m).length ≤ (bigBytes n).length := by
    simp only [bigBytes, length_map, length_reverse]
    exact Nat.le_length_digits_le 256 m n h
  simp only [header, puthead]
  split_ifs
  · simp
  · simp
  · omega
  · simpa using hbytes

theorem Spends.list {size n : ℕ} {P : Prop} {s₁ s₂ : Stream} {u : Unit} (hkind : s.kind = none)
    (hlist : list s = .ok size s₁) (h : Spends s₁ n P s₂) (hend : listEnd s₂ = .ok u s') :
    Spends s ((header .list n).length + n) (P ∧ s.kind = none) s' := by
  obtain ⟨m, hle, hcursor, hfull⟩ := h
  obtain ⟨-, -, -, -, hcursor₁⟩ := of_list hkind hlist
  obtain ⟨⟨tos, below, hstack, hpos⟩, rfl⟩ := listEnd_eq_ok.1 hend
  -- the list was left at its end, so its content is as long as its header says
  have hsize : m = size := by
    rw [hcursor, hcursor₁] at hstack
    simp only [Cursor.push, Cursor.advance, List.cons.injEq] at hstack
    rw [← hstack.1] at hpos
    simpa using hpos
  subst hsize
  have hheader := length_header_mono hle
  refine ⟨(header .list m).length + m, by omega, ?_, fun heq => ⟨hfull (by omega), hkind⟩⟩
  change s₂.toCursor.pop = _
  rw [hcursor, hcursor₁, Cursor.pop_advance_push, Cursor.advance_advance]

/-- A value has been read, at the end of which the stream is stalled only if the value says so. -/
structure Took (t : Ty) (s : Stream) (v : t.Value) (s' : Stream) : Prop where
  spends : Spends s (t.enc v).length (t.RoundTrips v ∧ s.kind = none) s'
  stalled : t.Stalls v → s'.Stalled
  armed : ¬ t.Stalls v → s'.kind = none

theorem Took.ready (h : Took t s v s') : s'.Ready := by
  by_cases hstalls : t.Stalls v
  · exact .inr (h.stalled hstalls)
  · exact .inl (h.armed hstalls)

/-- Decoders that take up at most what their results are written in, and report the end of a list
only in front of a value. -/
structure Frugal (t : Ty) (dec : Read t.Value) : Prop where
  took : ∀ {s s' v}, s.Ready → dec s = .ok v s' → Took t s v s'
  ends : ∀ {s s' e}, s.Ready → dec s = .error e s' → Ends s e s'

/-! ### The methods of a stream -/

theorem Stream.Ready.isOpen (hready : s.Ready) : s.Open := by
  rcases hready with hkind | hstalled
  · exact .inl hkind
  · exact hstalled.ahead.isOpen

theorem Ends.bytes (hready : s.Ready) {e : DecodeErr} {s' : Stream}
    (h : bytes s = .error e s') : Ends s e s' := (Refused.bytes hready.isOpen h).ends

theorem Spends.bytes {b : Bytes} (hready : s.Ready) (h : bytes s = .ok b s') :
    Spends s (encodeString b).length (s.kind = none) s' ∧ s'.kind = none := by
  rcases hready with hkind | hstalled
  · obtain ⟨-, -, hmoved⟩ := of_bytes hkind h
    exact ⟨Spends.of_moved hkind hmoved, hmoved.kind⟩
  rw [bytes_of_byte hstalled.ahead] at h
  cases h
  exact ⟨Spends.of_cursor _ (length_encode_pos (.str [s.byteval])) rfl, rfl⟩

theorem Refused.uint {maxbits : ℕ} :
    s.Open → uint maxbits s = .error e s' → Refused s e s' := by
  refine Refused.getKind_bind fun k => ?_
  rcases k with ⟨_ | _ | _, size⟩
  · intro s e s' h
    change (if s.byteval = 0 then _ else _ : Read ℕ) s = _ at h
    split_ifs at h
    · cases h
      trivial
    · cases h
  · refine .ite (.throw trivial) (((raises_readUint size).mapError fun {e} he => ?_).bind fun _ =>
      .ite (.throw trivial) (.pure _))
    cases e <;> trivial
  · exact .throw trivial

theorem Ends.uint {maxbits : ℕ} (hready : s.Ready) {e : DecodeErr} {s' : Stream}
    (h : uint maxbits s = .error e s') : Ends s e s' := (Refused.uint hready.isOpen h).ends

theorem bigBytes_of_number {x : Bytes} (hhead : x.length = 1 ∨ x.headD 0 ≠ 0)
    (hcanon : ¬ (0 < x.length ∧ beNat x < 128)) : bigBytes (beNat x) = x := by
  refine bigBytes_beNat ?_
  cases x with
  | nil => simp
  | cons c l =>
    rcases hhead with hlen | hhead
    · obtain rfl : l = [] := by simpa using hlen
      rw [beNat_singleton] at hcanon
      rintro rfl
      simp at hcanon
    · exact hhead

theorem of_uint {maxbits n : ℕ} (hkind : s.kind = none) (hbits : 1 ≤ maxbits / 8)
    (h : uint maxbits s = .ok n s') :
    s.Moved (encodeString (bigBytes n)).length s' ∧ n < 256 ^ (maxbits / 8) := by
  unfold uint at h
  obtain ⟨⟨k, size⟩, s₁, hget, h⟩ := bind_eq_ok.1 h
  rcases of_getKind hkind hget with
    ⟨b, rfl, rfl, hb, -, -, hahead, hbyte⟩ | ⟨hk, -, -, -, hahead⟩
  · change (if s₁.byteval = 0 then _ else _ : Read ℕ) s₁ = _ at h
    split_ifs at h with hzero
    · cases h
    cases h
    have hpos : 0 < s₁.byteval.toNat := by
      rw [Nat.pos_iff_ne_zero]
      exact fun heq => hzero (UInt8.toNat_inj.1 heq)
    have hlt := UInt8.toNat_lt s₁.byteval
    have hbytes : bigBytes s₁.byteval.toNat = [s₁.byteval] := by
      rw [bigBytes_of_lt hpos hlt, UInt8.ofNat_toNat]
    have hsmall : s₁.byteval ≤ 0x7F := hbyte ▸ small_iff.1 hb
    refine ⟨⟨?_, rfl⟩, hlt.trans_le ?_⟩
    · rw [hbytes, encodeString, if_pos hsmall]
      exact hahead.cursor
    · simpa using Nat.pow_le_pow_right (n := 256) (by norm_num) hbits
  cases k with
  | byte => exact absurd rfl hk
  | list => cases h
  | string =>
    change (if maxbits / 8 < size then _ else _ : Read ℕ) s₁ = _ at h
    split_ifs at h with hle
    · cases h
    obtain ⟨v, s₂, hread, h⟩ := bind_eq_ok.1 h
    split_ifs at h with hcanon
    · cases h
    cases h
    have hread := mapError_eq_ok.1 hread
    -- the bytes behind the header are those of the number
    have hnumber : ∃ x : Bytes, x.length = size ∧ n = beNat x ∧ bigBytes (beNat x) = x ∧
        s'.toCursor = s₁.toCursor.advance size ∧ s'.kind = none := by
      rcases Nat.eq_zero_or_pos size with rfl | hpos
      · cases hread
        exact ⟨[], rfl, rfl, bigBytes_zero, (Cursor.advance_zero _).symm, rfl⟩
      obtain ⟨hfits, hhead, rfl, rfl⟩ := (readUint_eq_ok hpos).1 hread
      have hlen := length_take_of_le hfits.input
      refine ⟨_, hlen, rfl, bigBytes_of_number ?_ ?_, rfl, rfl⟩
      · rw [hlen]
        exact hhead
      · rw [hlen]
        exact hcanon
    obtain ⟨x, hlen, rfl, hbytes, hcursor, hkind'⟩ := hnumber
    refine ⟨⟨?_, hkind'⟩, beNat_lt (by omega)⟩
    have hencode : encodeString x = header .string size ++ x := by
      rcases encodeString_cases x with ⟨b, hb, rfl, -⟩ | ⟨hencode, -⟩
      · exfalso
        refine hcanon ⟨by rw [← hlen]; simp, ?_⟩
        rw [beNat_singleton]
        exact UInt8.lt_iff_toNat_lt.1 hb
      · rw [hencode, hlen]
    rw [hbytes, hencode, length_append, hlen, hcursor, hahead.cursor, Cursor.advance_advance]

theorem Spends.uint {maxbits n : ℕ} (hready : s.Ready) (hbits : 1 ≤ maxbits / 8)
    (h : uint maxbits s = .ok n s') :
    Spends s (encodeString (bigBytes n)).length (s.kind = none) s' ∧ s'.kind = none ∧
      n < 256 ^ (maxbits / 8) := by
  rcases hready with hkind | hstalled
  · obtain ⟨hmoved, hlt⟩ := of_uint hkind hbits h
    exact ⟨Spends.of_moved hkind hmoved, hmoved.kind, hlt⟩
  · rw [uint_of_zero hstalled.ahead hstalled.byteval] at h
    cases h

theorem Stream.Ready.list (hready : s.Ready)
    (h : list s = .ok size s') : s.kind = none ∧ s'.kind = none := by
  rcases hready with hkind | hstalled
  · exact ⟨hkind, (of_list hkind h).2.2.2.1⟩
  unfold Stream.list at h
  rw [bind_ok hstalled.ahead.getKind] at h
  cases h

/-! ### The decoders -/

theorem Took.of_spends (hstalls : ¬ t.Stalls v) (hround : t.RoundTrips v)
    (h : Spends s (t.enc v).length (s.kind = none) s' ∧ s'.kind = none) : Took t s v s' :=
  ⟨h.1.mono fun hkind => ⟨hround, hkind⟩, fun hs => absurd hs hstalls, fun _ => h.2⟩

theorem Word.toNat_ofNat {size : UintSize} (h : n < 256 ^ (size.bits / 8)) :
    (Word.ofNat size n).toNat = n := by
  cases size with
  | u8 => exact UInt8.toNat_ofNat_of_lt' h
  | u16 => exact UInt16.toNat_ofNat_of_lt' h
  | u32 => exact UInt32.toNat_ofNat_of_lt' h
  | u64 => exact UInt64.toNat_ofNat_of_lt' h

theorem frugal_decodeUint (size : UintSize) : Frugal (.uint size) (decodeUint size) := by
  constructor
  · intro s s' v hready h
    obtain ⟨n, s₁, hread, h⟩ := bind_eq_ok.1 h
    cases h
    have hbits : 1 ≤ size.bits / 8 := by cases size <;> simp [UintSize.bits]
    obtain ⟨hspends, hkind, hlt⟩ := Spends.uint hready hbits (mapError_eq_ok.1 hread)
    refine Took.of_spends id trivial ⟨?_, hkind⟩
    change Spends s (encodeString (bigBytes (Word.ofNat size n).toNat)).length _ _
    rw [Word.toNat_ofNat hlt]
    exact hspends
  · intro s s' e hready h
    exact Ends.bind (Ends.wrap (Ends.uint hready)) (fun _ => .pure _) h

theorem frugal_decodeBigInt : Frugal .bigInt decodeBigInt := by
  constructor
  · intro s s' v hready h
    obtain ⟨b, s₁, hread, h⟩ := bind_eq_ok.1 h
    split_ifs at h with hcanon
    · cases h
    cases h
    refine Took.of_spends id trivial ?_
    change Spends s (encodeString (bigBytes (beNat b))).length _ _ ∧ _
    have hbytes : bigBytes (beNat b) = b := by
      refine bigBytes_beNat fun hzero => hcanon ?_
      cases b with
      | nil => simp at hzero
      | cons c l => exact ⟨Nat.succ_pos _, hzero⟩
    rw [hbytes]
    exact Spends.bytes hready (mapError_eq_ok.1 hread)
  · intro s s' e hready h
    exact Ends.bind (Ends.wrap (Ends.bytes hready)) (fun _ =>
      .ite (.throw (by simp [wrapStreamError])) (.pure _)) h

theorem frugal_decodeBool : Frugal .bool decodeBool := by
  constructor
  · intro s s' v hready h
    have h := mapError_eq_ok.1 h
    obtain ⟨n, s₁, hread, h⟩ := bind_eq_ok.1 h
    obtain ⟨hspends, hkind, -⟩ := Spends.uint hready (by norm_num) hread
    match n with
    | 0 =>
      cases h
      exact Took.of_spends id trivial ⟨hspends, hkind⟩
    | 1 =>
      cases h
      exact Took.of_spends id trivial ⟨hspends, hkind⟩
    | _ + 2 => cases h
  · intro s s' e hready h
    refine Ends.wrap (Ends.bind (Ends.uint hready) fun n => ?_) h
    match n with
    | 0 => exact .pure _
    | 1 => exact .pure _
    | _ + 2 => exact .throw (by simp)

theorem frugal_of_bytes (typ : Ty) (item : t.Value → Bytes)
    (hstalls : ∀ v, ¬ t.Stalls v) (hround : ∀ v, t.RoundTrips v)
    (henc : ∀ v, t.enc v = encodeString (item v)) (hok : ∀ {s s' v}, dec s = .ok v s' →
      bytes s = .ok (item v) s') (herror : ∀ {s s' e}, dec s = .error e s' →
      mapError (wrapStreamError typ) bytes s = .error e s') : Frugal t dec := by
  constructor
  · intro s s' v hready h
    refine Took.of_spends (hstalls v) (hround v) ?_
    rw [henc]
    exact Spends.bytes hready (hok h)
  · intro s s' e hready h
    exact Ends.wrap (Ends.bytes hready) (herror h)

theorem took_byte {c : Cursor} {s₁ : Stream} {v : FixedBytes 1} (hahead : s₁.Ahead .byte 0 c)
    (hsmall : s₁.byteval ≤ 0x7F) (hspends : Spends s 1 (s.kind = none) s₁)
    (h : decodeByteArray 1 s₁ = .ok v s') : Took (.byteArray 1) s v s' := by
  rw [decodeByteArray_of_byte hahead] at h
  obtain ⟨rfl, rfl⟩ := h
  have hbytes : (setBytes 1 [s₁.byteval]).bytes = [s₁.byteval] :=
    bytes_setBytes rfl
  have hstalls : Ty.Stalls (.byteArray 1) (setBytes 1 [s₁.byteval]) ↔
      s₁.byteval = 0 := by
    change FixedBytes.bytes _ = [0] ↔ _
    rw [hbytes]
    simp
  refine ⟨?_, fun hs => ?_, fun hs => ?_⟩
  · change Spends s (encodeString (setBytes 1 [s₁.byteval]).bytes).length _ _
    rw [hbytes, encodeString, if_pos hsmall]
    obtain ⟨m, hle, hcursor, hfull⟩ := hspends
    refine ⟨m, hle, ?_, fun heq => ⟨trivial, hfull heq⟩⟩
    split_ifs
    · exact hcursor
    · exact hcursor
  · rw [hstalls] at hs
    rw [if_pos hs]
    exact ⟨⟨rfl, hahead.kind, hahead.size, hahead.kinderr⟩, hs⟩
  · rw [hstalls] at hs
    rw [if_neg hs]

theorem took_string {n size : ℕ} {s₁ : Stream} {v : FixedBytes n} (hkind : s.kind = none)
    (hahead : s₁.Ahead .string size (s.toCursor.advance (header .string size).length))
    (h : decodeByteArray n s₁ = .ok v s') : Took (.byteArray n) s v s' := by
  unfold decodeByteArray at h
  rw [bind_ok hahead.getKind] at h
  change (if n < size then _ else if size < n then _ else _ : Read (FixedBytes n)) s₁ = _ at h
  split_ifs at h with hlong hshort
  · cases h
  · cases h
  obtain rfl : size = n := by omega
  obtain ⟨b, s₂, hread, h⟩ := bind_eq_ok.1 h
  obtain ⟨hfits, rfl, rfl⟩ := readFull_eq_ok.1 hread
  split_ifs at h with hcanon
  · cases h
  cases h
  have hlen := length_take_of_le hfits.input
  have hbytes := bytes_setBytes hlen
  rcases encodeString_cases (s₁.input.take size) with ⟨b, hb, hone, -⟩ | ⟨hencode, -⟩
  · -- a single small byte is refused
    exact absurd ⟨by rw [← hlen, hone]; rfl, by rw [hone]; exact hb⟩ hcanon
  have hstalls : ¬ Ty.Stalls (.byteArray size) (setBytes size (s₁.input.take size)) := by
    intro hs
    have hzero : FixedBytes.bytes _ = [0] := hs
    rw [hbytes] at hzero
    exact hcanon ⟨by rw [← hlen, hzero]; rfl, by rw [hzero]; decide⟩
  refine Took.of_spends hstalls trivial ⟨?_, rfl⟩
  change Spends s (encodeString (setBytes size (s₁.input.take size)).bytes).length _ _
  rw [hbytes, hencode, hlen, length_append, hlen]
  refine Spends.of_moved hkind ⟨?_, rfl⟩
  rw [← Cursor.advance_advance]
  exact congrArg (Cursor.advance · size) hahead.cursor

/-- An array of one byte takes that byte, unless the stream offers one that was taken already. -/
theorem frugal_decodeByteArray (n : ℕ) : Frugal (.byteArray n) (decodeByteArray n) := by
  constructor
  · intro s s' v hready h
    cases hget : getKind s with
    | error e s₁ =>
      unfold decodeByteArray at h
      rw [bind_error hget] at h
      cases h
    | ok r s₁ =>
      obtain ⟨k, size⟩ := r
      obtain ⟨c, hahead⟩ := hready.isOpen.ahead hget
      rw [decodeByteArray_getKind hready.isOpen hget] at h
      -- a byte is taken as an array of length one only
      have hone : k = .byte → n = 1 := by
        rintro rfl
        unfold decodeByteArray at h
        rw [bind_ok hahead.getKind] at h
        change (if n = 0 then _ else if 1 < n then _ else _ : Read (FixedBytes n)) s₁ = _ at h
        split_ifs at h
        · cases h
        · cases h
        · omega
      rcases hready with hkind | hstalled
      · rcases of_getKind hkind hget with
          ⟨b, rfl, rfl, hb, -, -, hahead', hbyte⟩ | ⟨hk, -, -, -, hahead'⟩
        · obtain rfl := hone rfl
          have hsmall : s₁.byteval ≤ 0x7F := hbyte ▸ small_iff.1 hb
          exact took_byte hahead hsmall ⟨1, le_rfl, hahead'.cursor, fun _ => hkind⟩ h
        cases k with
        | byte => exact absurd rfl hk
        | string => exact took_string hkind hahead' h
        | list =>
          unfold decodeByteArray at h
          rw [bind_ok hahead.getKind] at h
          cases h
      · rw [hstalled.ahead.getKind] at hget
        cases hget
        obtain rfl := hone rfl
        refine took_byte hahead ?_ (Spends.of_cursor _ one_pos rfl) h
        rw [hstalled.byteval]
        decide
  · intro s s' e hready h
    refine Ends.bind (fun h => (Refused.getKind hready.isOpen h).ends) (fun k => ?_) h
    rcases k with ⟨_ | _ | _, size⟩
    · refine .ite (.throw (by simp)) (.ite (.throw (by simp)) (Raises.bind ?_ fun _ => .pure _))
      intro s e s' h
      unfold uintOrZero at h
      split at h <;> cases h
    · refine .ite (.throw (by simp)) (.ite (.throw (by simp)) ?_)
      exact ((raises_readFull n).mono DecodeErr.Plain.ne_eol).bind fun _ =>
        .ite (.throw (by simp [wrapStreamError])) (.pure _)
    · exact .throw (by simp [wrapStreamError])

theorem decodeInterface_of_stalled (h : s.Stalled) : decodeInterface (rounds + 1) s =
    .ok (.str [s.byteval]) { s with kind := none } := by
  rw [decodeInterface, bind_ok h.ahead.getKind, if_neg (by simp)]
  exact map_ok (bytes_of_byte h.ahead)

theorem frugal_decodeInterface (rounds : ℕ) : Frugal .iface (decodeInterface rounds) := by
  have hcanonical := canonical_decodeInterface rounds
  constructor
  · intro s s' i hready h
    rcases hready with hkind | hs
    · have hmoved := (hcanonical.decoded hkind h).moved
      exact Took.of_spends id trivial ⟨Spends.of_moved hkind hmoved, hmoved.kind⟩
    cases rounds with
    | zero => cases h
    | succ rounds =>
      rw [decodeInterface_of_stalled hs] at h
      cases h
      exact Took.of_spends id trivial
        ⟨Spends.of_cursor _ (length_encode_pos (.str [s.byteval])) rfl, rfl⟩
  · intro s s' e hready h
    rcases hready with hkind | hs
    · rintro rfl
      obtain ⟨-, rfl⟩ := hcanonical.eol hkind h
      exact ⟨hkind, rfl⟩
    cases rounds with
    | zero =>
      cases h
      intro heq
      cases heq
    | succ rounds =>
      rw [decodeInterface_of_stalled hs] at h
      cases h

/-! ### Slices and structs -/

/-- The elements of a slice take up at most what they are written in.  One that stalls the stream
is followed by another element, as the end of the list is not met on a stalled stream. -/
theorem spends_decodeSliceElems (hdec : Frugal t dec) :
    ∀ {rounds i : ℕ} {s s' : Stream} {l : List t.Value}, s.Ready →
      decodeSliceElems dec rounds i s = .ok l s' → Spends s (encodeItems (l.map t.toItem)).length
        (AllElems (fun a => t.RoundTrips a ∧ ¬ t.Stalls a) l ∧ s.kind = none) s' := by
  intro rounds
  induction rounds with
  | zero =>
    intro i s s' l _ h
    cases h
  | succ rounds ih =>
    intro i s s' l hready h
    simp only [decodeSliceElems] at h
    cases helem : dec s with
    | ok a s₁ =>
      rw [helem] at h
      obtain ⟨l', hothers, rfl⟩ := map_eq_ok.1 h
      have htook := hdec.took hready helem
      have hspends := htook.spends.trans (ih htook.ready hothers)
      rw [map_cons, encodeItems, length_append]
      refine hspends.mono ?_
      rintro ⟨⟨hround, hkind⟩, hall, hkind₁⟩
      refine ⟨fun b hb => ?_, hkind⟩
      rcases mem_cons.1 hb with rfl | hb
      · refine ⟨hround, fun hstalls => ?_⟩
        have hahead := (htook.stalled hstalls).ahead.kind
        rw [hkind₁] at hahead
        cases hahead
      · exact hall b hb
    | error e s₁ =>
      rw [helem] at h
      have hends := hdec.ends hready helem
      cases e with
      | eol =>
        cases h
        obtain ⟨hkind, hcursor⟩ := hends rfl
        refine ⟨0, Nat.zero_le _, hcursor.trans (Cursor.advance_zero _).symm, fun _ => ?_⟩
        exact ⟨fun a ha => absurd ha not_mem_nil, hkind⟩
      | _ => cases h

theorem spends_decodeListSlice (hdec : Frugal t dec) (typ : Ty) {l : List t.Value}
    (hready : s.Ready) (h : decodeListSlice typ dec rounds s = .ok l s') :
    Spends s (encode (.list (l.map t.toItem))).length
      (AllElems (fun a => t.RoundTrips a ∧ ¬ t.Stalls a) l ∧ s.kind = none) s' ∧
      s'.kind = none := by
  obtain ⟨size, s₁, hlist, h⟩ := bind_eq_ok.1 h
  have hlist := mapError_eq_ok.1 hlist
  obtain ⟨hkind, hkind₁⟩ := hready.list hlist
  have hcontent : ∃ s₂, Spends s₁ (encodeItems (l.map t.toItem)).length
      (AllElems (fun a => t.RoundTrips a ∧ ¬ t.Stalls a) l) s₂ ∧
      listEnd s₂ = .ok () s' := by
    split_ifs at h with hzero
    · obtain ⟨u, s₂, hend, h⟩ := bind_eq_ok.1 h
      cases h
      refine ⟨s₁, ⟨0, Nat.zero_le _, (Cursor.advance_zero _).symm, fun _ a ha => ?_⟩, hend⟩
      exact absurd ha not_mem_nil
    · obtain ⟨l', s₂, helems, h⟩ := bind_eq_ok.1 h
      obtain ⟨u, s₃, hend, h⟩ := bind_eq_ok.1 h
      cases h
      have hspends := spends_decodeSliceElems hdec (.inl hkind₁) helems
      exact ⟨s₂, hspends.mono And.left, hend⟩
  obtain ⟨s₂, hspends, hend⟩ := hcontent
  rw [length_encode_list]
  refine ⟨hspends.list hkind hlist hend, ?_⟩
  obtain ⟨-, rfl⟩ := listEnd_eq_ok.1 hend
  rfl

/-- A struct that is too short is reported as such, not as the end of the list around it. -/
theorem raises_decodeFields : ∀ {fields : Fields}, Raises (fields.decode rounds typ) (· ≠ .eol)
  | .nil => Raises.pure ()
  | .cons name t others => by
    refine Raises.bind (fun s e s' h => ?_) fun _ =>
      raises_decodeFields.bind fun _ => .pure _
    obtain ⟨e', -, rfl⟩ := mapError_eq_error.1 h
    cases e' <;> simp [fieldErr, addErrorContext]

mutual

/-- **Every decoder is frugal.** -/
theorem frugal_decode (rounds : ℕ) : ∀ t : Ty, Frugal t (t.decode rounds)
  | .uint size => frugal_decodeUint size
  | .bigInt => frugal_decodeBigInt
  | .bool => frugal_decodeBool
  | .string => frugal_of_bytes .string (fun b => b) (fun _ => id) (fun _ => trivial)
      (fun _ => rfl) (fun h => mapError_eq_ok.1 h) fun h => h
  | .byteArray n => frugal_decodeByteArray n
  | .slice t => by
    by_cases ht : t = .uint .u8
    · subst ht
      exact frugal_of_bytes (.slice (.uint .u8)) (fun b => b) (fun _ => id)
        (fun v b _ => ⟨trivial, id⟩) (fun _ => rfl) (fun h => mapError_eq_ok.1 h) fun h => h
    have hdec := frugal_decode rounds t
    have hslice : ∀ l : List t.Value, (encode (sliceItem t t.toItem l)).length =
        (encode (.list (l.map t.toItem))).length := fun l => by rw [(slice_of_ne ht).2.1]
    have hsame : (Ty.slice t).decode rounds =
        decodeListSlice (.slice t) (t.decode rounds) rounds :=
      (slice_of_ne ht).2.2 rounds (t.decode rounds)
    rw [hsame]
    constructor
    · intro s s' v hready h
      obtain ⟨hspends, hkind⟩ := spends_decodeListSlice hdec (.slice t) hready h
      refine ⟨?_, False.elim, fun _ => hkind⟩
      rw [← hslice v] at hspends
      exact hspends
    · intro s s' e hready h
      exact Ends.decodeListSlice hready.isOpen h
  | .struct fields => by
    constructor
    · intro s s' v hready h
      have h' : decodeStruct (.struct fields) (fields.decode rounds (.struct fields)) s =
          .ok v s' := h
      unfold decodeStruct at h'
      obtain ⟨size, s₁, hlist, h'⟩ := bind_eq_ok.1 h'
      obtain ⟨v', s₂, hfields, h'⟩ := bind_eq_ok.1 h'
      obtain ⟨u, s₃, hend, h'⟩ := bind_eq_ok.1 h'
      cases h'
      have hlist := mapError_eq_ok.1 hlist
      have hend := mapError_eq_ok.1 hend
      obtain ⟨hkind, hkind₁⟩ := hready.list hlist
      have hspends := spends_decodeFields rounds (.struct fields) fields (.inl hkind₁) hfields
      refine ⟨?_, False.elim, fun _ => ?_⟩
      · change Spends s (encode (.list (fields.toItems v))).length _ s'
        rw [length_encode_list]
        exact (hspends.list hkind hlist hend).mono fun hfull => ⟨hfull.1.1, hfull.2⟩
      · obtain ⟨-, rfl⟩ := listEnd_eq_ok.1 hend
        rfl
    · intro s s' e hready h
      refine Ends.bind (Ends.wrap fun h => (Refused.list hready.isOpen h).ends) (fun _ => ?_) h
      refine raises_decodeFields.bind fun _ => Raises.bind ?_ fun _ => .pure _
      exact raises_listEnd.mapError fun he heq => he.ne_eol (wrapStreamError_eq_eol heq)
  | .iface => frugal_decodeInterface rounds

theorem spends_decodeFields (rounds : ℕ) (typ : Ty) : ∀ (fields : Fields) {s s' : Stream}
    {v : fields.Values}, s.Ready → fields.decode rounds typ s = .ok v s' →
    Spends s (encodeItems (fields.toItems v)).length
      (fields.RoundTrip v ∧ (fields ≠ .nil → s.kind = none)) s'
  | .nil, s, s', v, _, h => by
    cases h
    exact ⟨0, Nat.zero_le _, (Cursor.advance_zero _).symm,
      fun _ => ⟨trivial, fun hne => absurd rfl hne⟩⟩
  | .cons name t others, s, s', v, hready, h => by
    rw [Fields.decode] at h
    obtain ⟨v₁, s₁, hfirst, h⟩ := bind_eq_ok.1 h
    obtain ⟨vs, s₂, hothers, h⟩ := bind_eq_ok.1 h
    cases h
    have htook := (frugal_decode rounds t).took hready (mapError_eq_ok.1 hfirst)
    have hspends := htook.spends.trans (spends_decodeFields rounds typ others htook.ready hothers)
    have hitems : encodeItems ((Fields.cons name t others).toItems (v₁, vs)) =
        t.enc v₁ ++ encodeItems (others.toItems vs) := rfl
    rw [hitems, length_append]
    refine hspends.mono ?_
    rintro ⟨⟨hround, hkind⟩, hrounds, hkind₁⟩
    refine ⟨⟨hround, fun hne hstalls => ?_, hrounds⟩, fun _ => hkind⟩
    have hahead := (htook.stalled hstalls).ahead.kind
    rw [hkind₁ hne] at hahead
    cases hahead

end

/-! ### The round trip -/

theorem roundTrips_of_took {rest : Bytes} (hinput : s.input = t.enc v ++ rest)
    (htook : Took t s v s') (hrest : s'.input.length ≤ rest.length) : t.RoundTrips v := by
  obtain ⟨m, hle, hcursor, hfull⟩ := htook.spends
  refine (hfull ?_).1
  have hlen : s'.input.length = s.input.length - m := by
    rw [hcursor]
    simp only [Cursor.advance, length_drop]
  rw [hinput, length_append] at hlen
  omega

/-- **Decoding gives back exactly the values in which nothing follows an array of one zero byte.**
They are read in as many rounds as their encoding has bytes; no others are, in any number of rounds.
In front of anything else, and inside of any lists, a value is read and the stream rearmed behind it
exactly if the value round-trips and is not such an array itself. -/
theorem typed_round_trip_iff (t : Ty) (v : t.Value) (hlen : (t.encodeToBytes v).length < 2 ^ 64) :
    ((∃ rounds, decodeBytes t (t.decode rounds) (t.encodeToBytes v) = .ok v) ↔
      t.RoundTrips v) ∧ (t.RoundTrips v → ∀ rounds, (t.encodeToBytes v).length < rounds →
      decodeBytes t (t.decode rounds) (t.encodeToBytes v) = .ok v) ∧
    ∀ (s : Stream) (rest : Bytes), s.kind = none →
      s.toCursor.Fits (t.encodeToBytes v).length → s.input = t.encodeToBytes v ++ rest →
      ((∃ rounds, Yields (t.decode rounds) s v (s.Moved (t.encodeToBytes v).length)) ↔
        t.RoundTrips v ∧ ¬ t.Stalls v) := by
  rw [Ty.encodeToBytes_eq] at hlen ⊢
  have hread : t.RoundTrips v → ∀ rounds, (t.enc v).length < rounds →
      decodeBytes t (t.decode rounds) (t.enc v) = .ok v := by
    intro hround rounds hrounds
    obtain ⟨s', hdecode, hafter⟩ := yields_decode t v rounds hround (Front.new _) hlen hrounds
    have hempty : s'.input.length = 0 := by
      rw [hafter.cursor]
      simp [Cursor.advance, new]
    unfold decodeBytes
    rw [hdecode]
    simp only [hempty, lt_irrefl, if_false]
  refine ⟨⟨?_, fun hround => ⟨_, hread hround _ (Nat.lt_succ_self _)⟩⟩, hread, ?_⟩
  · rintro ⟨rounds, h⟩
    unfold decodeBytes at h
    cases hdecode : t.decode rounds (new (t.enc v)) with
    | error e s =>
      rw [hdecode] at h
      cases h
    | ok v' s =>
      rw [hdecode] at h
      simp only at h
      split_ifs at h with hpos
      cases h
      have htook := (frugal_decode rounds t).took (.inl rfl) hdecode
      have hinput : (new (t.enc v)).input = t.enc v ++ [] := (append_nil _).symm
      refine roundTrips_of_took hinput htook ?_
      rw [length_nil]
      omega
  · intro s rest hkind hfits hinput
    constructor
    · rintro ⟨rounds, s', hdecode, hmoved⟩
      have htook := (frugal_decode rounds t).took (.inl hkind) hdecode
      refine ⟨roundTrips_of_took hinput htook ?_, fun hstalls => ?_⟩
      · rw [hmoved.cursor]
        simp only [Cursor.advance, hinput, drop_left, le_refl]
      have hahead := (htook.stalled hstalls).ahead.kind
      rw [hmoved.kind] at hahead
      cases hahead
    · rintro ⟨hround, hstalls⟩
      obtain ⟨s', hdecode, hafter⟩ := yields_decode t v ((t.enc v).length + 1) hround
        ⟨hkind, hfits, hinput⟩ hlen (Nat.lt_succ_self _)
      exact ⟨_, s', hdecode, hafter.cursor, hafter.armed hstalls⟩

/-- A struct of an array of one byte and a number. -/
def tagged : Ty :=
  .struct (.cons "A" (.byteArray 1) (.cons "B" (.uint .u64) .nil))

/-- A slice of arrays of one byte, on a stalled stream: the loop does not end. -/
theorem decodeSliceElems_of_stalled (h : s.Stalled) : ∀ rounds i : ℕ,
    decodeSliceElems (decodeByteArray 1) rounds i s = .error .outOfRounds s := by
  intro rounds
  induction rounds with
  | zero =>
    intro i
    rfl
  | succ rounds ih =>
    intro i
    simp only [decodeSliceElems, decodeByteArray_of_byte h.ahead, if_pos h.byteval]
    exact map_eq_error.2 (ih (i + 1))

/-- The number behind an array of one zero byte is not read: the decoder finds the zero byte again,
and refuses it.  A slice of such arrays is read without end. -/
theorem typed_round_trip_zero_byte :
    tagged.encodeToBytes (⟨[0], rfl⟩, (5 : UInt64), ()) = [0xC2, 0x00, 0x05] ∧
    (∀ rounds, decodeBytes tagged (tagged.decode rounds) [0xC2, 0x00, 0x05] =
      .error (DecodeErr.decodeError "non-canonical integer (leading zero bytes)"
        (Ty.uint UintSize.u64) [ErrCtx.field "B", ErrCtx.target tagged])) ∧
    (Ty.slice (Ty.byteArray 1)).encodeToBytes [⟨[0], rfl⟩] = [0xC1, 0x00] ∧
    ∀ rounds, decodeBytes (Ty.slice (Ty.byteArray 1)) ((Ty.slice (Ty.byteArray 1)).decode rounds)
      [0xC1, 0x00] = .error DecodeErr.outOfRounds := by
  refine ⟨by decide, fun rounds => rfl, by decide, fun rounds => ?_⟩
  -- the stream inside of the list, and after its first element
  let inside : Stream := { new [0x00] with stack := [⟨0, 1⟩] }
  let after : Stream := { new [] with stack := [⟨1, 1⟩], kind := some Kind.byte }
  have hloop : ∃ s', decodeSliceElems (decodeByteArray 1) rounds 0 inside =
      .error DecodeErr.outOfRounds s' := by
    cases rounds with
    | zero => exact ⟨_, rfl⟩
    | succ rounds =>
      have hfirst : decodeByteArray 1 inside = .ok ⟨[0], rfl⟩ after := rfl
      have hstalled : after.Stalled := ⟨⟨rfl, rfl, rfl, rfl⟩, rfl⟩
      refine ⟨after, ?_⟩
      simp only [decodeSliceElems, hfirst]
      exact map_eq_error.2 (decodeSliceElems_of_stalled hstalled rounds 1)
  obtain ⟨s', hloop⟩ := hloop
  have hdecode : (Ty.slice (Ty.byteArray 1)).decode rounds (new [0xC1, 0x00]) =
      .error DecodeErr.outOfRounds s' := by
    change decodeListSlice _ (decodeByteArray 1) rounds (new [0xC1, 0x00]) = _
    have hlist : mapError (wrapStreamError (Ty.slice (Ty.byteArray 1))) list
        (new [0xC1, 0x00]) = .ok 1 inside := rfl
    unfold decodeListSlice
    rw [bind_ok hlist, if_neg one_ne_zero]
    exact bind_error hloop
  unfold decodeBytes
  rw [hdecode]
  rfl

/-- The same struct with another array is read. -/
theorem typed_round_trip_tagged :
    tagged.encodeToBytes (⟨[7], rfl⟩, (5 : UInt64), ()) = [0xC2, 0x07, 0x05] ∧
    decodeBytes tagged (tagged.decode 4) [0xC2, 0x07, 0x05] =
      Except.ok (⟨[7], rfl⟩, (5 : UInt64), ()) := by
  have hbytes : tagged.encodeToBytes (⟨[7], rfl⟩, (5 : UInt64), ()) = [0xC2, 0x07, 0x05] := by
    decide
  refine ⟨hbytes, ?_⟩
  have h := (typed_round_trip_iff tagged (⟨[7], rfl⟩, (5 : UInt64), ()) (by
    decide)).2.1
  refine h ⟨trivial, fun _ hstalls => ?_, trivial, fun _ => id, trivial⟩ 4 (by decide)
  cases hstalls

end Rlp
