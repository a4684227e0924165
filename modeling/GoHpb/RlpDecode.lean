/-
**Decoding into trees.**

`DecodeBytes` of `common/rlp/decode.go` into an interface value reads a tree of byte strings and
lists.  The decoder is the recursion between `decodeInterface` and `decodeListSlice`; the elements
of a list are read until the stream reports the end of the list.

Two facts make it the inverse of the encoder.  From a stream in front of an encoding, with anything
behind it, the decoder reads exactly that encoding.  And whatever it returns, the bytes it has
consumed are the encoding of the result, since every check on sizes admits one form only.

Main results:

* `Rlp.yields_decodeInterface` — an encoding is read;
* `Rlp.of_decodeInterface` — what was read is an encoding;
* `Rlp.decodeInterface_ends` — the rounds are enough if there are more of them than input bytes.
-/

import GoHpb.RlpStream

open FailState Rlp.Stream List Stream

namespace Rlp

/-! ### The decoders -/

def wrapStreamError (typ : Ty) : DecodeErr → DecodeErr
  | .errCanonInt =>
    .decodeError "non-canonical integer (leading zero bytes)" typ []
  | .errCanonSize => .decodeError "non-canonical size information" typ []
  | .errExpectedList => .decodeError "expected input list" typ []
  | .errExpectedString => .decodeError "expected input string or byte" typ []
  | .errUintOverflow => .decodeError "input string too long" typ []
  | .errNotAtEOL => .decodeError "input list has too many elements" typ []
  | e => e

def addErrorContext (ctx : ErrCtx) : DecodeErr → DecodeErr
  | .decodeError msg typ path => .decodeError msg typ (path ++ [ctx])
  | e => e

/-- `decodeSliceElems`: elements are read until the end of the list is reported. -/
def decodeSliceElems {α : Type} (elemdec : Read α) : ℕ → ℕ → Read (List α)
  | 0, _ => throw .outOfRounds
  | rounds + 1, i => fun s =>
    match elemdec s with
    | .ok a s' => (List.cons a <$> decodeSliceElems elemdec rounds (i + 1)) s'
    | .error .eol s' => .ok [] s'
    | .error e s' =>
      .error (addErrorContext (.index i) e) s'

def decodeListSlice {α : Type} (typ : Ty) (elemdec : Read α) (rounds : ℕ) : Read (List α) := do
  let size ← mapError (wrapStreamError typ) list
  if size = 0 then do
    listEnd
    pure []
  else do
    let l ← decodeSliceElems elemdec rounds 0
    listEnd
    pure l

def decodeInterface : ℕ → Read Item
  | 0 => throw .outOfRounds
  | rounds + 1 => do
      let k ← getKind
      if k.1 = .list then
        .list <$> decodeListSlice (.slice .iface) (decodeInterface rounds) rounds
      else .str <$> bytes

/-- The last step of `Decode`: an error with a context also names the type decoded into. -/
def addTarget (typ : Ty) : DecodeErr → DecodeErr
  | .decodeError msg t (c :: path) =>
    .decodeError msg t (c :: path ++ [.target typ])
  | e => e

/-- `DecodeBytes`, with the decoder of a type. -/
def decodeBytes {α : Type} (typ : Ty) (dec : Read α) (b : Bytes) : Except DecodeErr α :=
  match dec (new b) with
  | .error e _ => .error (addTarget typ e)
  | .ok a s =>
    if 0 < s.input.length then .error .errMoreThanOneValue else .ok a

/-! ### An encoding is read -/

variable {α : Type} {s s' : Stream} {rest : Bytes} {rounds : ℕ} {e : DecodeErr} {size : ℕ}
  {elemdec : Read α} {k : Kind} {x : Read α} {β : Type}

theorem map_ok {f : α → β} {a : α} (h : x s = .ok a s') : (f <$> x) s = .ok (f a) s' := by
  change EStateM.map f x s = _
  rw [EStateM.map, h]

theorem map_eq_ok {f : α → β} {b : β} : (f <$> x) s = .ok b s' ↔ ∃ a, x s = .ok a s' ∧ f a = b := by
  change EStateM.map f x s = _ ↔ _
  rw [EStateM.map]
  cases x s with
  | ok a t =>
    simp only [EStateM.Result.ok.injEq]
    constructor
    · rintro ⟨rfl, rfl⟩
      exact ⟨a, ⟨rfl, rfl⟩, rfl⟩
    · rintro ⟨_, ⟨rfl, rfl⟩, rfl⟩
      exact ⟨rfl, rfl⟩
  | error e t => simp

theorem map_eq_error {f : α → β} : (f <$> x) s = .error e s' ↔ x s = .error e s' := by
  change EStateM.map f x s = _ ↔ _
  rw [EStateM.map]
  cases x s <;> simp

theorem Cursor.advance_zero (c : Cursor) : c.advance 0 = c := by
  cases c with
  | mk input remaining limited stack =>
    cases stack <;> simp [Cursor.advance]

theorem getKind_of_atEnd (hkind : s.kind = none) (hend : s.atEnd = true) :
    getKind s = .error .eol { s with kinderr := none } := by
  unfold getKind
  split
  · rename_i kind hsome
    rw [hkind] at hsome
    cases hsome
  · rw [if_pos hend]

theorem decodeListSlice_getKind (typ : Ty) (elemdec : Read α) (rounds : ℕ)
    (hopen : s.Open) (h : getKind s = .ok (k, size) s') :
    decodeListSlice typ elemdec rounds s = decodeListSlice typ elemdec rounds s' := by
  have hlist : mapError (wrapStreamError typ) list s =
      mapError (wrapStreamError typ) list s' := by
    simp only [mapError, list_getKind hopen h]
  change EStateM.bind _ _ s = EStateM.bind _ _ s'
  simp only [EStateM.bind, hlist]

/-- The stream in front of an encoding. -/
structure Front (s : Stream) (b rest : Bytes) : Prop where
  kind : s.kind = none
  fits : s.toCursor.Fits b.length
  input : s.input = b ++ rest

theorem Front.new (b : Bytes) : Front (new b) b [] :=
  ⟨rfl, ⟨le_rfl, fun _ => le_rfl, fun _ _ h => by cases h⟩, (append_nil b).symm⟩

theorem Front.next {b c : Bytes} (h : Front s (b ++ c) rest)
    (hcursor : s'.toCursor = s.toCursor.advance b.length) (hkind : s'.kind = none) :
    Front s' c rest := by
  have hfits := h.fits
  rw [length_append] at hfits
  refine ⟨hkind, ?_, ?_⟩
  · rw [hcursor]
    exact hfits.advance
  · rw [hcursor]
    simp only [Cursor.advance, h.input, append_assoc, drop_left]

theorem Front.first {b c : Bytes} (h : Front s (b ++ c) rest) : Front s b (c ++ rest) := by
  have hfits := h.fits
  rw [length_append] at hfits
  exact ⟨h.kind, hfits.mono (Nat.le_add_right _ _), by rw [h.input, append_assoc]⟩

theorem Front.yields_bytes {b : Bytes} (h : Front s (encodeString b) rest)
    (hlen : (encodeString b).length < 2 ^ 64) :
    Yields Stream.bytes s b (s.Moved (encodeString b).length) :=
  Stream.yields_bytes h.kind hlen h.fits h.input

/-- The `n` bytes up to the end of the innermost list. -/
def Stream.Within (s : Stream) (n : ℕ) : Prop :=
  ∃ tos below, s.stack = tos :: below ∧ tos.pos + n = tos.size

/-- **A list is entered**: the stream stands in front of its content, and once that is read the list
can be left. -/
theorem Front.enter {b : Bytes} (hlen : b.length < 2 ^ 64)
    (h : Front s (header .list b.length ++ b) rest) :
    ∃ s₁, list s = .ok b.length s₁ ∧ Front s₁ b rest ∧ s₁.Within b.length ∧
      ∀ s₂ : Stream, s₂.toCursor = s₁.toCursor.advance b.length →
        Yields listEnd s₂ () (s.Moved ((header .list b.length).length + b.length)) := by
  have hfits := h.fits
  have hinput := h.input
  rw [length_append] at hfits
  rw [append_assoc] at hinput
  obtain ⟨s₁, hlist, hkind₁, hcursor₁⟩ := yields_list h.kind hlen hfits hinput
  refine ⟨s₁, hlist, ⟨hkind₁, ?_, ?_⟩, ⟨⟨0, b.length⟩,
    (s.toCursor.advance (header .list b.length).length).stack, ?_, Nat.zero_add _⟩, ?_⟩
  · rw [hcursor₁]
    exact hfits.advance.push
  · rw [hcursor₁]
    simp only [Cursor.push, Cursor.advance, hinput, drop_left]
  · rw [hcursor₁]
    rfl
  intro s₂ hcursor₂
  refine ⟨_, listEnd_eq_ok.2 ⟨⟨⟨b.length, b.length⟩, (s.toCursor.advance
    (header .list b.length).length).stack, ?_, rfl⟩, rfl⟩, ?_, rfl⟩
  · rw [hcursor₂, hcursor₁]
    simp [Cursor.push, Cursor.advance]
  · change s₂.toCursor.pop = _
    rw [hcursor₂, hcursor₁, Cursor.pop_advance_push, Cursor.advance_advance]

theorem yields_decodeListSlice (typ : Ty) (elemdec : Read α) {l : List α} {b : Bytes}
    (hlen : b.length < 2 ^ 64) (hfront : Front s (header .list b.length ++ b) rest)
    (hempty : b.length = 0 → l = []) (hread : ∀ s₁ : Stream, Front s₁ b rest → s₁.Within b.length →
      Yields (decodeSliceElems elemdec rounds 0) s₁ l (s₁.Moved b.length)) :
    Yields (decodeListSlice typ elemdec rounds) s l
      (s.Moved ((header .list b.length).length + b.length)) := by
  obtain ⟨s₁, hlist, hfront₁, hwithin, hleave⟩ := hfront.enter hlen
  refine Yields.bind ⟨s₁, mapError_eq_ok.2 hlist, rfl⟩ ?_
  rintro _ rfl
  by_cases hzero : b.length = 0
  · rw [if_pos hzero, hempty hzero]
    refine Yields.bind (hleave s₁ ?_) fun s₂ h₂ => Yields.pure h₂
    rw [hzero, Cursor.advance_zero]
  · rw [if_neg hzero]
    refine (hread s₁ hfront₁ hwithin).bind fun s₂ h₂ => ?_
    exact (hleave s₂ h₂.cursor).bind fun s₃ h₃ => Yields.pure h₃

theorem header_list (l : List Item) :
    encode (.list l) = header .list (encodeItems l).length ++ encodeItems l := by
  rfl

theorem length_encode_list (l : List Item) : (encode (.list l)).length =
    (header .list (encodeItems l).length).length + (encodeItems l).length := by
  rw [header_list, length_append]

theorem length_encode_pos (i : Item) : 0 < (encode i).length := by
  cases i with
  | str b =>
    rw [encode]
    rcases encodeString_eq b with ⟨c, -, -, h⟩ | h
    · rw [h]
      exact one_pos
    have hpos := length_header_pos (k := .string) (by simp) b.length
    rw [h, length_append]
    exact Nat.add_pos_left hpos _
  | list l =>
    have hpos := length_header_pos (k := .list) (by simp) (encodeItems l).length
    rw [length_encode_list]
    exact Nat.add_pos_left hpos _

theorem encodeItems_eq_nil {l : List Item} (h : (encodeItems l).length = 0) : l = [] := by
  cases l with
  | nil => rfl
  | cons i l =>
    rw [encodeItems, length_append] at h
    exact absurd (length_encode_pos i) (by omega)

theorem yields_elems {elemdec : Read α} {item : α → Item}
    (heol : ∀ {s : Stream}, s.kind = none → s.atEnd = true →
      elemdec s = .error .eol { s with kinderr := none }) :
    ∀ {l : List α} {rounds i : ℕ} {s : Stream} {rest : Bytes},
      (∀ a ∈ l, ∀ {s : Stream} {rest : Bytes}, Front s (encode (item a)) rest →
        (encode (item a)).length ≤ (encodeItems (l.map item)).length →
        Yields elemdec s a (s.Moved (encode (item a)).length)) →
      Front s (encodeItems (l.map item)) rest →
      (encodeItems (l.map item)).length < rounds →
      s.Within (encodeItems (l.map item)).length →
      Yields (decodeSliceElems elemdec rounds i) s l
        (s.Moved (encodeItems (l.map item)).length) := by
  intro l
  induction l with
  | nil =>
    intro rounds i s rest _ hfront hrounds hwithin
    obtain ⟨tos, below, hstack, hend⟩ := hwithin
    obtain ⟨rounds, rfl⟩ := Nat.exists_eq_succ_of_ne_zero (by omega : rounds ≠ 0)
    rw [map_nil, encodeItems, length_nil] at hend ⊢
    have hat : s.atEnd = true := by
      simp only [atEnd, hstack]
      simpa using hend
    refine ⟨{ s with kinderr := none }, ?_, (Cursor.advance_zero _).symm, hfront.kind⟩
    simp only [decodeSliceElems, heol hfront.kind hat]
  | cons a l ih =>
    intro rounds i s rest hread hfront hrounds hwithin
    obtain ⟨tos, below, hstack, hend⟩ := hwithin
    obtain ⟨rounds, rfl⟩ := Nat.exists_eq_succ_of_ne_zero (by omega : rounds ≠ 0)
    rw [map_cons, encodeItems] at hfront hrounds hread hend ⊢
    rw [length_append] at hrounds hend hread ⊢
    have hpos := length_encode_pos (item a)
    obtain ⟨s₁, hfirst, hmoved⟩ := hread a mem_cons_self hfront.first (by omega)
    obtain ⟨s₂, hothers, hmoved'⟩ := @ih rounds (i + 1) _ _
      (fun b hb s rest h hle => hread b (mem_cons_of_mem _ hb) h (by omega))
      (hfront.next hmoved.cursor hmoved.kind) (by omega)
      ⟨⟨tos.pos + (encode (item a)).length, tos.size⟩, below, by
        rw [hmoved.cursor]
        simp only [Cursor.advance, hstack], by simp only; omega⟩
    refine ⟨s₂, ?_, ?_, hmoved'.kind⟩
    · simp only [decodeSliceElems, hfirst]
      exact map_ok hothers
    rw [hmoved'.cursor, hmoved.cursor, Cursor.advance_advance]

theorem getKind_of_encodeString {b : Bytes} (hfront : Front s (encodeString b) rest)
    (hlen : (encodeString b).length < 2 ^ 64) :
    ∃ k size s₁, getKind s = .ok (k, size) s₁ ∧ k ≠ .list := by
  have hfits := hfront.fits
  have hinput := hfront.input
  rcases encodeString_cases b with ⟨v, hv, rfl, hencode⟩ | ⟨hencode, -⟩
  · rw [hencode] at hfits hinput
    obtain ⟨s₁, hget, -⟩ := yields_getKind_byte hfront.kind hv hfits hinput
    exact ⟨_, _, s₁, hget, by simp⟩
  · rw [hencode, length_append] at hfits hlen
    rw [hencode, append_assoc] at hinput
    obtain ⟨s₁, hget, -⟩ := yields_getKind hfront.kind (by simp) (by omega) hfits hinput
    exact ⟨_, _, s₁, hget, by simp⟩

theorem decodeInterface_of_atEnd (hrounds : 0 < rounds) {s : Stream} (hkind : s.kind = none)
    (hend : s.atEnd = true) :
    decodeInterface rounds s = .error .eol { s with kinderr := none } := by
  obtain ⟨rounds, rfl⟩ := Nat.exists_eq_succ_of_ne_zero hrounds.ne'
  exact bind_error (getKind_of_atEnd hkind hend)

/-- **An encoding is read**, whatever stands behind it.  The elements of a list are read in one
round less. -/
theorem yields_decodeInterface {rounds : ℕ} : ∀ {i : Item} {s : Stream} {rest : Bytes},
    Front s (encode i) rest → (encode i).length < 2 ^ 64 → (encode i).length < rounds →
    Yields (decodeInterface rounds) s i (s.Moved (encode i).length) := by
  induction rounds with
  | zero => exact fun _ _ hrounds => absurd hrounds (Nat.not_lt_zero _)
  | succ rounds ih =>
    intro i s rest hfront hlen hrounds
    cases i with
    | str b =>
      obtain ⟨k, size, s₁, hget, hk⟩ := getKind_of_encodeString hfront hlen
      obtain ⟨s₂, hbytes, hmoved⟩ := hfront.yields_bytes hlen
      refine ⟨s₂, ?_, hmoved⟩
      rw [decodeInterface, bind_ok hget, if_neg hk]
      exact map_ok ((bytes_getKind (.inl hfront.kind) hget).symm.trans hbytes)
    | list l =>
      have hhead := length_header_pos (k := .list) (by simp) (encodeItems l).length
      rw [length_encode_list] at hlen hrounds ⊢
      rw [header_list] at hfront
      obtain ⟨s₁, hget, -⟩ := yields_getKind hfront.kind (by simp) (by omega)
        (length_append ▸ hfront.fits) (hfront.input.trans (append_assoc _ _ _))
      have helems : ∀ s₂ : Stream, Front s₂ (encodeItems l) rest →
          s₂.Within (encodeItems l).length →
          Yields (decodeSliceElems (decodeInterface rounds) rounds 0) s₂ l
            (s₂.Moved (encodeItems l).length) := by
        intro s₂ hfront₂ hwithin
        have hread := @yields_elems Item (decodeInterface rounds) (fun i => i)
          (decodeInterface_of_atEnd (by omega)) l rounds 0 s₂ rest
        rw [map_id'] at hread
        exact hread (fun a _ s rest h hle => ih h (by omega) (by omega)) hfront₂ (by omega) hwithin
      obtain ⟨s₂, hdecode, hmoved⟩ := yields_decodeListSlice (.slice .iface)
        (decodeInterface rounds) (by omega) hfront encodeItems_eq_nil helems
      refine ⟨s₂, ?_, hmoved⟩
      rw [decodeInterface, bind_ok hget, if_pos rfl]
      exact map_ok ((decodeListSlice_getKind _ _ _ (.inl hfront.kind) hget).symm.trans hdecode)

/-- **The encoding is injective**, on everything short enough to be written. -/
theorem encode_inj {i j : Item} (hi : (encode i).length < 2 ^ 64) (hj : (encode j).length < 2 ^ 64)
    (h : encode i = encode j) : i = j := by
  obtain ⟨s, hread, -⟩ := yields_decodeInterface (Front.new (encode i)) hi (Nat.lt_succ_self _)
  obtain ⟨s', hread', -⟩ := yields_decodeInterface (Front.new (encode j)) hj (Nat.lt_succ_self _)
  rw [h, hread'] at hread
  cases hread
  rfl

/-! ### What was read is an encoding -/

/-- Not an error that the loops of the decoders react to. -/
def DecodeErr.Plain : DecodeErr → Prop
  | .eol => False
  | .outOfRounds => False
  | _ => True

theorem DecodeErr.Plain.ne_eol (h : e.Plain) : e ≠ .eol := by
  rintro rfl
  exact h

theorem DecodeErr.Plain.ne_outOfRounds (h : e.Plain) : e ≠ .outOfRounds := by
  rintro rfl
  exact h

theorem raises_readFull (n : ℕ) : Raises (readFull n) DecodeErr.Plain := by
  have hlist : Raises (takeFromList n) DecodeErr.Plain := by
    intro s e s' h
    unfold takeFromList at h
    split at h
    · cases h
    split_ifs at h
    cases h
    trivial
  have hlimit : Raises (takeFromLimit n) DecodeErr.Plain := by
    intro s e s' h
    unfold takeFromLimit at h
    split_ifs at h
    cases h
    trivial
  refine ((Raises.modify _).bind fun _ => hlist.bind fun _ => hlimit).bind fun _ => ?_
  intro s e s' h
  unfold readInput at h
  split_ifs at h
  cases h
  trivial

theorem raises_readByte : Raises readByte DecodeErr.Plain := by
  rw [readByte_eq]
  exact (raises_readFull 1).bind fun _ => .pure _

theorem raises_readUint : ∀ n : ℕ, Raises (readUint n) DecodeErr.Plain
  | 0 => (Raises.modify _).bind fun _ => .pure _
  | 1 => raises_readByte.bind fun _ => .pure _
  | n + 2 => (raises_readFull (n + 2)).bind fun _ => .ite (.throw trivial) (.pure _)

theorem plain_readKind (h : readKind s = ((k, size, some e), s')) : e.Plain := by
  have hsize : ∀ {kind : Kind} {n : ℕ} {t : Stream}, readSize kind n t = ((k, size, some e), s') →
      e.Plain := by
    intro kind n t h
    unfold readSize at h
    cases hread : readUint n t with
    | error e' t' =>
      rw [hread] at h
      cases h
      exact raises_readUint n hread
    | ok v t' =>
      rw [hread] at h
      by_cases hv : v < 56
      · simp only [hv, if_true, Prod.mk.injEq, Option.some.injEq] at h
        rw [← h.1.2.2]
        trivial
      · simp [hv] at h
  unfold readKind at h
  cases hread : readByte s with
  | error e' t =>
    rw [hread] at h
    have hplain := raises_readByte hread
    simp only [Prod.mk.injEq, Option.some.injEq] at h
    rw [← h.1.2.2]
    unfold endOfInput
    split_ifs
    · cases e' <;> trivial
    · exact hplain
  | ok b t =>
    rw [hread] at h
    dsimp only at h
    split_ifs at h
    · simp at h
    · simp at h
    · exact hsize h
    · simp at h
    · exact hsize h

theorem raises_listEnd : Raises listEnd DecodeErr.Plain := by
  intro s e s' h
  unfold listEnd at h
  split at h
  · cases h
    trivial
  split_ifs at h
  cases h
  trivial

/-- An error that no loop reacts to, or the end of a list in front of a value. -/
def Refused (s : Stream) (e : DecodeErr) (s' : Stream) : Prop :=
  e.Plain ∨ e = .eol ∧ s.kind = none ∧ s.atEnd = true ∧ s' = { s with kinderr := none }

namespace Refused

theorem plain {c : Cursor} (h : Refused s e s') (hahead : s.Ahead k size c) : e.Plain := by
  rcases h with hplain | ⟨-, hkind, -⟩
  · exact hplain
  · rw [hahead.kind] at hkind
    cases hkind

theorem getKind (hopen : s.Open) (h : getKind s = .error e s') : Refused s e s' := by
  rcases hopen with hkind | ⟨_, _, hahead⟩
  · unfold Stream.getKind at h
    split at h
    · rename_i kind hsome
      rw [hkind] at hsome
      cases hsome
    split_ifs at h with hend
    · cases h
      exact .inr ⟨rfl, hkind, hend, rfl⟩
    refine .inl ?_
    rcases hread : readKind { s with kinderr := none } with ⟨⟨k, size, err⟩, t⟩
    rw [hread] at h
    simp only [cached] at h
    cases err with
    | some e' =>
      cases h
      exact plain_readKind hread
    | none =>
      cases hsize : t.sizeErr size with
      | none =>
        rw [hsize] at h
        cases h
      | some e' =>
        rw [hsize] at h
        cases h
        unfold sizeErr at hsize
        split at hsize
        · split_ifs at hsize
          cases hsize
          trivial
        · split_ifs at hsize
          cases hsize
          trivial
  · rw [hahead.getKind] at h
    cases h

theorem getKind_bind {f : Kind × ℕ → Read α} (hf : ∀ k, Raises (f k) DecodeErr.Plain)
    (hopen : s.Open) (h : (Stream.getKind >>= f) s = .error e s') : Refused s e s' := by
  rcases bind_eq_error.1 h with h | ⟨k, t, -, h⟩
  · exact getKind hopen h
  · exact .inl (hf k h)

theorem bytes : s.Open → Stream.bytes s = .error e s' → Refused s e s' := by
  refine getKind_bind fun k => ?_
  rcases k with ⟨_ | _ | _, size⟩
  · exact fun _ _ _ h => by cases h
  · exact (raises_readFull size).bind fun _ => .ite (.throw trivial) (.pure _)
  · exact .throw trivial

theorem list : s.Open → Stream.list s = .error e s' → Refused s e s' :=
  getKind_bind fun _ => .ite ((Raises.modify _).bind fun _ => .pure _) (.throw trivial)

end Refused

/-- The end of a list is met in front of a value, and nothing is taken for it. -/
def Ends (s : Stream) (e : DecodeErr) (s' : Stream) : Prop :=
  e = .eol → s.kind = none ∧ s'.toCursor = s.toCursor

theorem Refused.ends (h : Refused s e s') : Ends s e s' := by
  rintro rfl
  rcases h with hplain | ⟨-, hkind, -, rfl⟩
  · exact absurd rfl hplain.ne_eol
  · exact ⟨hkind, rfl⟩

theorem Ends.bind {x : Read α} {f : α → Read β}
    (hx : ∀ {e s'}, x s = .error e s' → Ends s e s') (hf : ∀ a, Raises (f a) (· ≠ .eol))
    (h : (x >>= f) s = .error e s') : Ends s e s' := by
  rcases bind_eq_error.1 h with h | ⟨a, t, -, h⟩
  · exact hx h
  · exact fun heq => absurd heq (hf a h)

theorem wrapStreamError_eq_eol {typ : Ty} (h : wrapStreamError typ e = .eol) : e = .eol := by
  cases e <;> first | rfl | cases h

theorem Ends.wrap {typ : Ty} {x : Read α} (hx : ∀ {e s'}, x s = .error e s' → Ends s e s')
    {e : DecodeErr} {s' : Stream} (h : mapError (wrapStreamError typ) x s = .error e s') :
    Ends s e s' := by
  obtain ⟨e', hread, rfl⟩ := mapError_eq_error.1 h
  exact fun heq => hx hread (wrapStreamError_eq_eol heq)

theorem ahead_of_getKind (hkind : s.kind = none) (h : getKind s = .ok (k, size) s') :
    ∃ n, 0 < n ∧ n ≤ s.input.length ∧ s'.Ahead k size (s.toCursor.advance n) := by
  rcases of_getKind hkind h with ⟨b, rfl, rfl, -, hfits, -, hahead, -⟩ | ⟨hk, -, hfits, -, hahead⟩
  · exact ⟨1, one_pos, hfits.input, hahead⟩
  · exact ⟨_, length_header_pos hk size, hfits.input, hahead⟩

/-- The bytes `b` have been consumed. -/
structure Decoded (s : Stream) (b : Bytes) (s' : Stream) : Prop where
  input : ∃ rest, s.input = b ++ rest
  moved : s.Moved b.length s'

theorem Decoded.trans {s'' : Stream} {b b' : Bytes} (h : Decoded s b s') (h' : Decoded s' b' s'') :
    Decoded s (b ++ b') s'' := by
  obtain ⟨rest, hinput⟩ := h.input
  obtain ⟨rest', hinput'⟩ := h'.input
  refine ⟨⟨rest', ?_⟩, ?_, h'.moved.kind⟩
  · have hdrop : s'.input = rest := by
      rw [h.moved.cursor]
      simp only [Cursor.advance, hinput, drop_left]
    rw [append_assoc, ← hinput', hdrop, hinput]
  · rw [h'.moved.cursor, h.moved.cursor, Cursor.advance_advance, length_append]

/-- A decoder whose results are encoded by what it has consumed, and which reports the end of a
list without moving. -/
structure Canonical (enc : α → Bytes) (dec : Read α) : Prop where
  decoded : ∀ {s s' a}, s.kind = none → dec s = .ok a s' → Decoded s (enc a) s'
  eol : ∀ {s s'}, s.kind = none → dec s = .error .eol s' →
    s.atEnd = true ∧ s' = { s with kinderr := none }

theorem of_decodeSliceElems {elemdec : Read Item} (hdec : Canonical encode elemdec) :
    ∀ {rounds i : ℕ} {s s' : Stream} {l : List Item}, s.kind = none →
      decodeSliceElems elemdec rounds i s = .ok l s' →
      Decoded s (encodeItems l) s' ∧ s'.atEnd = true := by
  intro rounds
  induction rounds with
  | zero =>
    intro i s s' l hkind h
    cases h
  | succ rounds ih =>
    intro i s s' l hkind h
    simp only [decodeSliceElems] at h
    cases helem : elemdec s with
    | ok a t =>
      rw [helem] at h
      obtain ⟨l', hrest, rfl⟩ := map_eq_ok.1 h
      have hfirst := hdec.decoded hkind helem
      obtain ⟨hothers, hend⟩ := ih hfirst.moved.kind hrest
      exact ⟨hfirst.trans hothers, hend⟩
    | error e t =>
      rw [helem] at h
      cases e with
      | eol =>
        cases h
        obtain ⟨hend, rfl⟩ := hdec.eol hkind helem
        exact ⟨⟨⟨s.input, rfl⟩, (Cursor.advance_zero _).symm, hkind⟩, hend⟩
      | _ => cases h

theorem raises_decodeSliceElems : ∀ {rounds i : ℕ},
    Raises (decodeSliceElems elemdec rounds i) (· ≠ .eol) := by
  intro rounds
  induction rounds with
  | zero => exact fun {_} => Raises.throw (by simp)
  | succ rounds ih =>
    intro i s e s' h
    simp only [decodeSliceElems] at h
    cases helem : elemdec s with
    | ok a t =>
      rw [helem] at h
      exact ih (map_eq_error.1 h)
    | error e t =>
      rw [helem] at h
      cases e <;> cases h <;> simp [addErrorContext]

theorem of_decodeListSlice {typ : Ty} {elemdec : Read Item} (hdec : Canonical encode elemdec)
    {l : List Item} (hkind : s.kind = none) (h : decodeListSlice typ elemdec rounds s = .ok l s') :
    Decoded s (encode (.list l)) s' := by
  obtain ⟨size, s₁, hlist, h⟩ := bind_eq_ok.1 h
  obtain ⟨-, -, ⟨rest, hinput⟩, hkind₁, hcursor₁⟩ :=
    of_list hkind (mapError_eq_ok.1 hlist)
  -- the elements take up the size of the list
  have hcontent : ∃ s₂, Decoded s₁ (encodeItems l) s₂ ∧ (encodeItems l).length = size ∧
      listEnd s₂ = .ok () s' := by
    split_ifs at h with hzero
    · obtain ⟨u, s₂, hend, h⟩ := bind_eq_ok.1 h
      cases h
      exact ⟨s₁, ⟨⟨s₁.input, rfl⟩, (Cursor.advance_zero _).symm, hkind₁⟩, hzero.symm, hend⟩
    obtain ⟨l', s₂, helems, h⟩ := bind_eq_ok.1 h
    obtain ⟨u, s₃, hend, h⟩ := bind_eq_ok.1 h
    cases h
    obtain ⟨hdecoded, hat⟩ := of_decodeSliceElems hdec hkind₁ helems
    refine ⟨s₂, hdecoded, ?_, hend⟩
    have hstack : s₂.stack = ⟨0 + (encodeItems l).length, size⟩ ::
        (s.toCursor.advance (header .list size).length).stack := by
      rw [hdecoded.moved.cursor, hcursor₁]
      rfl
    simp only [atEnd, hstack, decide_eq_true_eq] at hat
    omega
  obtain ⟨s₂, hdecoded, rfl, hend⟩ := hcontent
  obtain ⟨-, rfl⟩ := listEnd_eq_ok.1 hend
  obtain ⟨rest', hinput'⟩ := hdecoded.input
  refine ⟨⟨rest', ?_⟩, ?_, rfl⟩
  · have hdrop : s₁.input = rest := by
      rw [hcursor₁]
      simp only [Cursor.push, Cursor.advance, hinput, drop_left]
    rw [header_list, append_assoc, ← hinput', hdrop, hinput]
  · change s₂.toCursor.pop = _
    rw [hdecoded.moved.cursor, hcursor₁, Cursor.pop_advance_push, Cursor.advance_advance,
      length_encode_list]

theorem Ends.decodeListSlice {typ : Ty} (hopen : s.Open)
    (h : decodeListSlice typ elemdec rounds s = .error e s') : Ends s e s' := by
  have hend : Raises listEnd (· ≠ .eol) := raises_listEnd.mono DecodeErr.Plain.ne_eol
  refine Ends.bind (Ends.wrap fun h => (Refused.list hopen h).ends) (fun size => ?_) h
  exact .ite (hend.bind fun _ => .pure _)
    (raises_decodeSliceElems.bind fun _ => hend.bind fun _ => .pure _)

/-- **What `decodeInterface` has read is the encoding of its result.** -/
theorem canonical_decodeInterface : ∀ rounds : ℕ, Canonical encode (decodeInterface rounds) := by
  intro rounds
  induction rounds with
  | zero =>
    constructor
    · intro s s' a _ h
      cases h
    · intro s s' _ h
      cases h
  | succ rounds ih =>
    constructor
    · intro s s' i hkind h
      obtain ⟨⟨k, size⟩, s₁, hget, h⟩ := bind_eq_ok.1 h
      split_ifs at h with hk
      · obtain ⟨l, hlist, rfl⟩ := map_eq_ok.1 h
        rw [← decodeListSlice_getKind _ _ _ (.inl hkind) hget] at hlist
        exact of_decodeListSlice ih hkind hlist
      · obtain ⟨b, hbytes, rfl⟩ := map_eq_ok.1 h
        rw [← bytes_getKind (.inl hkind) hget] at hbytes
        obtain ⟨hinput, -, hmoved⟩ := of_bytes hkind hbytes
        exact ⟨hinput, hmoved⟩
    · intro s s' hkind h
      rcases bind_eq_error.1 h with hget | ⟨⟨k, size⟩, s₁, hget, h⟩
      · rcases Refused.getKind (.inl hkind) hget with hplain | ⟨-, -, hend, hs'⟩
        · exact absurd rfl hplain.ne_eol
        · exact ⟨hend, hs'⟩
      -- the kind was read ahead, so the end of the list is not met
      obtain ⟨n, -, -, hahead⟩ := ahead_of_getKind hkind hget
      have hends : Ends s₁ .eol s' := by
        split_ifs at h with hk
        · exact Ends.decodeListSlice hahead.isOpen (map_eq_error.1 h)
        · exact (Refused.bytes hahead.isOpen (map_eq_error.1 h)).ends
      have hnone := (hends rfl).1
      rw [hahead.kind] at hnone
      cases hnone

/-! ### The rounds are enough -/

theorem decodeSliceElems_ends {elemdec : Read Item} (hdec : Canonical encode elemdec) {n : ℕ}
    (hends : ∀ {s s' e}, s.kind = none → s.input.length < n →
      elemdec s = .error e s' → e ≠ .outOfRounds) :
    ∀ {rounds i : ℕ} {s s' : Stream} {e : DecodeErr}, s.kind = none → s.input.length < n →
      s.input.length < rounds → decodeSliceElems elemdec rounds i s = .error e s' →
      e ≠ .outOfRounds := by
  intro rounds
  induction rounds with
  | zero =>
    intro i s s' e _ _ hrounds
    exact absurd hrounds (Nat.not_lt_zero _)
  | succ rounds ih =>
    intro i s s' e hkind hn hrounds h
    simp only [decodeSliceElems] at h
    cases helem : elemdec s with
    | ok a t =>
      rw [helem] at h
      have hfirst := hdec.decoded hkind helem
      have hpos := length_encode_pos a
      have hless : t.input.length < s.input.length := by
        obtain ⟨rest, hinput⟩ := hfirst.input
        rw [hfirst.moved.cursor]
        simp only [Cursor.advance, hinput, drop_left, length_append]
        omega
      exact ih hfirst.moved.kind (by omega) (by omega) (map_eq_error.1 h)
    | error e' t =>
      rw [helem] at h
      have hne := hends hkind hn helem
      cases e' <;> cases h <;> first | exact hne | simp [addErrorContext]

/-- **`decodeInterface` ends** within as many rounds as there are bytes in the input. -/
theorem decodeInterface_ends : ∀ {rounds : ℕ} {s s' : Stream} {e : DecodeErr}, s.kind = none →
    s.input.length < rounds → decodeInterface rounds s = .error e s' → e ≠ .outOfRounds := by
  intro rounds
  induction rounds with
  | zero =>
    intro s s' e _ hrounds
    exact absurd hrounds (Nat.not_lt_zero _)
  | succ rounds ih =>
    intro s s' e hkind hrounds h
    rcases bind_eq_error.1 h with hget | ⟨⟨k, size⟩, s₁, hget, h⟩
    · rcases Refused.getKind (.inl hkind) hget with hplain | ⟨rfl, -⟩
      · exact hplain.ne_outOfRounds
      · simp
    obtain ⟨n, hn, hle, hahead⟩ := ahead_of_getKind hkind hget
    split_ifs at h with hk
    · cases hk
      have h := map_eq_error.1 h
      unfold decodeListSlice at h
      rw [bind_ok (mapError_eq_ok.2 (list_of_ahead hahead))] at h
      have hend : Raises listEnd (· ≠ .outOfRounds) :=
        raises_listEnd.mono DecodeErr.Plain.ne_outOfRounds
      split_ifs at h with hzero
      · exact hend.bind (fun _ => .pure _) h
      rcases bind_eq_error.1 h with h | ⟨_, t, -, h⟩
      · have hless : (s.toCursor.advance n).input.length < rounds := by
          simp only [Cursor.advance, length_drop]
          omega
        exact decodeSliceElems_ends (canonical_decodeInterface rounds) ih rfl hless hless h
      · exact hend.bind (fun _ => .pure _) h
    · exact ((Refused.bytes hahead.isOpen (map_eq_error.1 h)).plain hahead).ne_outOfRounds

end Rlp
