/-
**Encrypted frames.**

After the handshake a message is sent as a frame: a header with the size, the code and the payload
padded to blocks, all encrypted with one key stream, and a MAC after either part.  The MACs are
those of everything that has been sent so far, so both sides advance a cipher stream and a hash with
every frame.  A side is in step with the other one if what it writes with is what the other one
reads with; a frame is then read as it was written, and both are in step again.

A hash is given by what has been written to it, and a cipher stream by its position in the key
stream.  AES and snappy are those of a library.

Main results:

* `RlpxFrameRW.InStep.readMsg_writeMsg` — **a frame is read as it was written**;
* `RlpxFrameRW.InStep.readMsg_set` — **a frame with a changed byte is not read**.
-/

import GoHpb.RlpTyped
import GoHpb.CryptoTable

open List
open Sample (array)

/-- What is used of AES and of snappy. -/
structure FrameLib where
  /-- the key stream of AES in counter mode, from the zero vector on -/
  keyStream : Bytes → ℕ → UInt8
  /-- AES on one block -/
  encrypt : Bytes → Bytes → FixedBytes 16
  snappyEncode : Bytes → Bytes
  decodedLen : Bytes → Option ℕ
  snappyDecode : Bytes → Option Bytes

/-- Decompression inverts compression. -/
def FrameLib.Inverts (lib : FrameLib) : Prop :=
  ∀ b, lib.decodedLen (lib.snappyEncode b) = some b.length ∧
    lib.snappyDecode (lib.snappyEncode b) = some b

/-! ### The two ends of a connection -/

def xorBytes (one other : Bytes) : Bytes := List.zipWith (· ^^^ ·) one other

/-- `XORKeyStream`, at a position of the key stream. -/
def xorKeyStream (stream : ℕ → UInt8) (pos : ℕ) (b : Bytes) : Bytes :=
  b.mapIdx fun i x => x ^^^ stream (pos + i)

/-- What the two sides agree upon in the handshake, and which of them started it. -/
structure EncHandshake where
  initiator : Bool
  initNonce : FixedBytes 32
  respNonce : FixedBytes 32
  /-- the shared secret of the two ephemeral keys -/
  ecdheSecret : Bytes
  auth : Bytes
  authResp : Bytes

structure Secrets where
  aes : Bytes
  mac : Bytes
  egressMAC : Bytes
  ingressMAC : Bytes

/-- `rlpxFrameRW`, without its connection. -/
structure RlpxFrameRW where
  /-- the key of the cipher streams -/
  aes : Bytes
  enc : ℕ
  dec : ℕ
  /-- the key of the cipher for the MACs -/
  macCipher : Bytes
  egressMAC : Bytes
  ingressMAC : Bytes
  snappy : Bool
  deriving DecidableEq

/-- A message with the payload that its reader yields. -/
structure Msg where
  code : UInt64
  payload : Bytes
  deriving DecidableEq

inductive FrameErr where
  | errPlainMessageTooLarge
  | sizeOverflow
  | eof
  | badHeaderMAC
  | badFrameMAC
  | code (err : Rlp.DecodeErr)
  | snappy

def maxUint24 : UInt32 := 0xffffff

def putInt24 (v : UInt32) : Bytes := [(v >>> 16).toUInt8, (v >>> 8).toUInt8, v.toUInt8]

def readInt24 (b : Bytes) : UInt32 :=
  (b.getD 2 0).toUInt32 ||| (b.getD 1 0).toUInt32 <<< 8 ||| (b.getD 0 0).toUInt32 <<< 16

/-- The frames of a connection, with or without compression. -/
def newRLPXFrameRW (s : Secrets) (snappy : Bool) : RlpxFrameRW :=
  ⟨s.aes, 0, 0, s.mac, s.egressMAC, s.ingressMAC, snappy⟩

def EncHandshake.secrets [Crypto] (h : EncHandshake) : Secrets :=
  let keccak256 (b : Bytes) : Bytes := (Crypto.keccak256 b).bytes
  let nonces := keccak256 (h.respNonce.bytes ++ h.initNonce.bytes)
  let sharedSecret := keccak256 (h.ecdheSecret ++ nonces)
  let aesSecret := keccak256 (h.ecdheSecret ++ sharedSecret)
  let mac := keccak256 (h.ecdheSecret ++ aesSecret)
  let mac1 := xorBytes mac h.respNonce.bytes ++ h.auth
  let mac2 := xorBytes mac h.initNonce.bytes ++ h.authResp
  if h.initiator then ⟨aesSecret, mac, mac1, mac2⟩ else ⟨aesSecret, mac, mac2, mac1⟩

/-- `mac.Sum(nil)[:16]`. -/
def macValue [Crypto] (mac : Bytes) : Bytes := (Crypto.keccak256 mac).bytes.take 16

/-- `updateMAC`: what has been written to the hash afterwards. -/
def updateMAC [Crypto] (lib : FrameLib) (key mac seed : Bytes) : Bytes :=
  mac ++ xorBytes (lib.encrypt key (Crypto.keccak256 mac).bytes).bytes seed

/-- `updateMAC` with the sum of the hash as its seed. -/
def reseed [Crypto] (lib : FrameLib) (key mac : Bytes) : Bytes :=
  updateMAC lib key mac (Crypto.keccak256 mac).bytes

namespace RlpxFrameRW

/-! ### Contents of a frame -/

/-- The encrypted header. -/
def encHead (lib : FrameLib) (rw : RlpxFrameRW) (fsize : UInt32) : Bytes :=
  xorKeyStream (lib.keyStream rw.aes) rw.enc
    (putInt24 fsize ++ [0xc2, 0x80, 0x80] ++ List.replicate 10 0)

/-- The encrypted contents, padded to blocks. -/
def encBody (lib : FrameLib) (rw : RlpxFrameRW) (fsize : UInt32) (content : Bytes) : Bytes :=
  let padding := (fsize % 16).toNat
  xorKeyStream (lib.keyStream rw.aes) (rw.enc + 16)
    (content ++ if 0 < padding then List.replicate (16 - padding) 0 else [])

/-- The encoded message code. -/
def ptype (code : UInt64) : Bytes := (Rlp.Ty.uint Rlp.UintSize.u64).encodeToBytes code

/-- What a frame contains before it is encrypted. -/
def content (lib : FrameLib) (rw : RlpxFrameRW) (msg : Msg) : Bytes :=
  ptype msg.code ++ if rw.snappy then lib.snappyEncode msg.payload else msg.payload

def readFull (n : ℕ) (conn : Bytes) : Except FrameErr (Bytes × Bytes) :=
  if n ≤ conn.length then .ok (conn.splitAt n) else .error .eof

/-- The frame size rounded up to a block boundary. -/
def roundUp (fsize : UInt32) : UInt32 :=
  let padding := fsize % 16
  if 0 < padding then fsize + (16 - padding) else fsize

/-- `Decode` of the message code. -/
def decodeCode : Rlp.Read UInt64 := Rlp.decodeUint .u64

/-- The message in a frame. -/
def readContent (lib : FrameLib) (rw : RlpxFrameRW) (content : Bytes) : Except FrameErr Msg :=
  match decodeCode (Rlp.Stream.new content) with
  | .error e _ => .error (.code e)
  | .ok code s =>
    if rw.snappy then
      match lib.decodedLen s.input with
      | none => .error .snappy
      | some size =>
        if maxUint24.toNat < size then .error .errPlainMessageTooLarge
        else
          match lib.snappyDecode s.input with
          | none => .error .snappy
          | some payload => .ok ⟨code, payload⟩
    else .ok ⟨code, s.input⟩

/-! ### Ciphers and contents -/

@[simp] theorem length_xorKeyStream (stream : ℕ → UInt8) (pos : ℕ) (b : Bytes) :
    (xorKeyStream stream pos b).length = b.length := length_mapIdx

theorem xorKeyStream_xorKeyStream (stream : ℕ → UInt8) (pos : ℕ) (b : Bytes) :
    xorKeyStream stream pos (xorKeyStream stream pos b) = b := by
  refine ext_getElem (by simp) fun i hi hi' => ?_
  simp [xorKeyStream]

theorem xorBytes_inj {key a b : Bytes} (hkey : a.length ≤ key.length) (hlen : a.length = b.length)
    (h : xorBytes key a = xorBytes key b) : a = b := by
  refine ext_getElem hlen fun i hi hi' => ?_
  have hget := congrArg (fun l => l[i]?) h
  simp only [xorBytes, getElem?_zipWith, getElem?_eq_getElem hi,
    getElem?_eq_getElem hi', getElem?_eq_getElem (hi.trans_le hkey)] at hget
  exact (UInt8.xor_right_inj _).1 (Option.some.inj hget)

@[simp] theorem length_encHead (lib : FrameLib) (w : RlpxFrameRW) (fsize : UInt32) :
    (w.encHead lib fsize).length = 16 := by
  simp [encHead, putInt24]

theorem readInt24_putInt24 {v : UInt32} (h : v ≤ maxUint24) (rest : Bytes) :
    readInt24 (putInt24 v ++ rest) = v := by
  have hv : v.toNat < 2 ^ 24 := Nat.lt_succ_of_le h
  refine UInt32.toNat.inj (Nat.eq_of_testBit_eq fun i => ?_)
  simp only [readInt24, putInt24, cons_append, getD_cons_zero, getD_cons_succ,
    UInt32.toNat_or, UInt32.toNat_shiftLeft, UInt8.toNat_toUInt32, UInt32.toNat_toUInt8,
    UInt32.toNat_shiftRight, Nat.testBit_or, Nat.testBit_mod_two_pow, Nat.testBit_shiftLeft,
    Nat.testBit_shiftRight]
  by_cases hi : i < 24
  · interval_cases i <;> simp
  have hbit := Nat.testBit_lt_two_pow (hv.trans_le (Nat.pow_le_pow_right two_pos (not_lt.1 hi)))
  have hlow : ¬ i < 8 ∧ ¬ i - 8 < 8 ∧ ¬ i - 16 < 8 := by omega
  simp [hbit, hlow]

theorem readFull_append {n : ℕ} {a b : Bytes} (h : a.length = n) :
    readFull n (a ++ b) = .ok (a, b) := by
  rw [← h, readFull, if_pos (by simp), splitAt_eq, take_left, drop_left]

theorem length_encBody {fsize : UInt32} {content : Bytes} (lib : FrameLib) (w : RlpxFrameRW)
    (hsize : fsize ≤ maxUint24) (hlen : fsize.toNat = content.length) :
    (w.encBody lib fsize content).length = (roundUp fsize).toNat := by
  have hlt : fsize.toNat < 2 ^ 24 := Nat.lt_succ_of_le hsize
  have hmod : (fsize % 16).toNat = fsize.toNat % 16 := UInt32.toNat_mod _ _
  have hpos : 0 < fsize % 16 ↔ 0 < fsize.toNat % 16 := by rw [UInt32.lt_iff_toNat_lt, hmod]; rfl
  rw [encBody, length_xorKeyStream, length_append, ← hlen, roundUp, hmod]
  simp only [hpos]
  split_ifs
  · have hsub : (16 - fsize % 16).toNat = 16 - fsize.toNat % 16 := by
      rw [UInt32.toNat_sub_of_le _ _ (UInt32.le_iff_toNat_le.2 (by rw [hmod]; exact
        (Nat.mod_lt _ (by norm_num)).le)), hmod]
      rfl
    rw [length_replicate, UInt32.toNat_add, hsub]
    exact (Nat.mod_eq_of_lt (by omega)).symm
  · rfl

/-! ### In step -/

/-- What one side writes with, the other one reads with. -/
structure InStep (w r : RlpxFrameRW) : Prop where
  aes : r.aes = w.aes
  macCipher : r.macCipher = w.macCipher
  snappy : r.snappy = w.snappy
  enc : r.dec = w.enc
  egressMAC : r.ingressMAC = w.egressMAC
  dec : r.enc = w.dec
  ingressMAC : r.egressMAC = w.ingressMAC

variable {lib : FrameLib} {w r : RlpxFrameRW} {fsize : UInt32} {head tag body tag' : Bytes}

/-- The sizes of a message stay below `2 ^ 24`: that of the frame, and with compression also that of
the payload. -/
def Fits (lib : FrameLib) (rw : RlpxFrameRW) (msg : Msg) : Prop :=
  (rw.content lib msg).length < 2 ^ 24 ∧ (rw.snappy = true → msg.payload.length < 2 ^ 24)

theorem yields_code (code : UInt64) (payload : Bytes) :
    FailState.Yields decodeCode (Rlp.Stream.new (ptype code ++ payload)) code
      fun s => s.input = payload := by
  have hptype : ptype code = Rlp.encodeString (bigBytes code.toNat) :=
    Rlp.Ty.encodeToBytes_eq (.uint .u64) code
  have hfront : Rlp.Front (Rlp.Stream.new (ptype code ++ payload))
      (Rlp.encodeString (bigBytes code.toNat)) payload := by
    rw [← hptype]
    exact ⟨rfl, ⟨by simp [Rlp.Stream.new], fun _ => by simp [Rlp.Stream.new], nofun⟩, rfl⟩
  obtain ⟨s, hread, hmoved⟩ := Rlp.yields_uint 64 hfront code.toNat_lt (by norm_num)
  have hnum := Rlp.mapError_of_ok (Rlp.wrapStreamError (Rlp.Ty.uint Rlp.UintSize.u64)) hread
  refine ⟨s, (FailState.bind_ok hnum).trans ?_, ?_⟩
  · exact congrArg (EStateM.Result.ok · s) UInt64.ofNat_toNat
  show s.toCursor.input = payload
  rw [hmoved.cursor, ← hptype]
  exact drop_left

variable {msg : Msg}

theorem readContent_content (h : InStep w r) (hlib : w.snappy = true → lib.Inverts)
    (hfits : w.Fits lib msg) : r.readContent lib (w.content lib msg) = .ok msg := by
  obtain ⟨s, hcode, hinput⟩ := yields_code msg.code
    (if w.snappy then lib.snappyEncode msg.payload else msg.payload)
  rw [readContent, content, hcode]
  dsimp only
  rw [hinput, h.snappy]
  cases hsnappy : w.snappy with
  | false => rfl
  | true =>
    obtain ⟨hlen, hdecode⟩ := hlib hsnappy msg.payload
    have hsize : ¬ maxUint24.toNat < msg.payload.length := not_lt.2 (Nat.le_pred_of_lt
      (hfits.2 hsnappy))
    simp only [if_true, hlen, if_neg hsize, hdecode]

theorem set_append_cases {a c : Bytes} {i : ℕ} {b : UInt8} (h : (a ++ c).set i b ≠ a ++ c) :
    ((a ++ c).set i b = a.set i b ++ c ∧ a.set i b ≠ a) ∨
      ∃ j, (a ++ c).set i b = a ++ c.set j b ∧ c.set j b ≠ c := by
  rw [set_append] at h ⊢
  split_ifs at h ⊢ with hi
  · exact .inl ⟨rfl, fun heq => h (by rw [heq])⟩
  · exact .inr ⟨i - a.length, rfl, fun heq => h (by rw [heq])⟩

variable [Crypto]

/-! ### Writing -/

/-- A frame whose size has been checked, and the state after it. -/
def writeFrame (lib : FrameLib) (rw : RlpxFrameRW) (fsize : UInt32) (content : Bytes) :
    Bytes × RlpxFrameRW :=
  let head := rw.encHead lib fsize
  let body := rw.encBody lib fsize content
  let mac := updateMAC lib rw.macCipher rw.egressMAC head
  let mac' := reseed lib rw.macCipher (mac ++ body)
  (head ++ macValue mac ++ body ++ macValue mac',
    { rw with enc := rw.enc + 16 + body.length, egressMAC := mac' })

/-- `WriteMsg`: what goes to the connection, and the state after it. -/
def writeMsg (lib : FrameLib) (rw : RlpxFrameRW) (msg : Msg) :
    Except FrameErr (Bytes × RlpxFrameRW) :=
  if rw.snappy ∧ maxUint24 < .ofNat msg.payload.length then
    .error .errPlainMessageTooLarge
  else
    let fsize := .ofNat (rw.content lib msg).length
    if maxUint24 < fsize then .error .sizeOverflow
    else .ok (rw.writeFrame lib fsize (rw.content lib msg))

/-! ### Reading -/

/-- The header: the size of the frame, and what has been written to the hash. -/
def readHead (lib : FrameLib) (rw : RlpxFrameRW) (headbuf : Bytes) :
    Except FrameErr (UInt32 × Bytes) :=
  let mac := updateMAC lib rw.macCipher rw.ingressMAC (headbuf.take 16)
  if macValue mac ≠ headbuf.drop 16 then .error .badHeaderMAC
  else .ok (readInt24 (xorKeyStream (lib.keyStream rw.aes) rw.dec (headbuf.take 16)), mac)

/-- The frame after its header: its contents, and what has been written to the hash. -/
def readFrame (lib : FrameLib) (rw : RlpxFrameRW) (fsize : UInt32) (mac framebuf tag : Bytes) :
    Except FrameErr (Bytes × Bytes) :=
  let mac' := reseed lib rw.macCipher (mac ++ framebuf)
  if macValue mac' ≠ tag then .error .badFrameMAC
  else
    .ok ((xorKeyStream (lib.keyStream rw.aes) (rw.dec + 16) framebuf).take fsize.toNat, mac')

/-- `ReadMsg`: the message, the state after it, and what is left on the connection. -/
def readMsg (lib : FrameLib) (rw : RlpxFrameRW) (conn : Bytes) :
    Except FrameErr (Msg × RlpxFrameRW × Bytes) :=
  (readFull 32 conn).bind fun (headbuf, conn) =>
  (rw.readHead lib headbuf).bind fun (fsize, mac) =>
  (readFull (roundUp fsize).toNat conn).bind fun (framebuf, conn) =>
  (readFull 16 conn).bind fun (tag, conn) =>
  (rw.readFrame lib fsize mac framebuf tag).bind fun (content, mac) =>
  (rw.readContent lib content).bind fun msg =>
  .ok (msg, { rw with dec := rw.dec + 16 + framebuf.length, ingressMAC := mac }, conn)

@[simp] theorem length_macValue (mac : Bytes) : (macValue mac).length = 16 := by
  rw [macValue, length_take, FixedBytes.length_bytes]
  rfl

/-! ### The two sides -/

/-- **The two sides of a handshake are in step.** -/
theorem inStep_new (h : EncHandshake) (snappy : Bool) : InStep (newRLPXFrameRW h.secrets snappy)
      (newRLPXFrameRW { h with initiator := !h.initiator }.secrets snappy) := by
  unfold EncHandshake.secrets
  cases h.initiator with
  | true | false => exact ⟨rfl, rfl, rfl, rfl, rfl, rfl, rfl⟩

theorem readMsg_parts {mac : Bytes} (hhead : (head ++ tag).length = 32) (htag : tag'.length = 16)
    (hread : r.readHead lib (head ++ tag) = .ok (fsize, mac))
    (hbody : body.length = (roundUp fsize).toNat) (rest : Bytes) :
    r.readMsg lib (head ++ tag ++ body ++ tag' ++ rest) =
      (r.readFrame lib fsize mac body tag').bind fun x => (r.readContent lib x.1).bind fun msg =>
        .ok (msg, { r with dec := r.dec + 16 + body.length, ingressMAC := x.2 }, rest) := by
  rw [readMsg, append_assoc, append_assoc, readFull_append hhead]
  simp only [Except.bind, hread, readFull_append hbody, readFull_append htag]

theorem readHead_encHead (h : InStep w r) (hsize : fsize ≤ maxUint24) :
    r.readHead lib (w.encHead lib fsize ++
        macValue (updateMAC lib r.macCipher r.ingressMAC (w.encHead lib fsize))) =
      .ok (fsize, updateMAC lib r.macCipher r.ingressMAC (w.encHead lib fsize)) := by
  have hlen : (w.encHead lib fsize).length = 16 := length_encHead lib w fsize
  rw [readHead, ← hlen, take_left, drop_left, if_neg (not_not.2 rfl), encHead, h.aes,
    h.enc, xorKeyStream_xorKeyStream, append_assoc, readInt24_putInt24 hsize]

theorem readFrame_encBody {content mac : Bytes} (h : InStep w r)
    (hlen : fsize.toNat = content.length) : r.readFrame lib fsize mac (w.encBody lib fsize content)
        (macValue (reseed lib r.macCipher (mac ++ w.encBody lib fsize content))) =
      .ok (content, reseed lib r.macCipher (mac ++ w.encBody lib fsize content)) := by
  rw [readFrame, if_neg (not_not.2 rfl)]
  rw [encBody, h.aes, h.enc, xorKeyStream_xorKeyStream, hlen, take_left]

theorem writeMsg_eq (hfits : w.Fits lib msg) :
    ∃ fsize, fsize ≤ maxUint24 ∧ fsize.toNat = (w.content lib msg).length ∧
      w.writeMsg lib msg = .ok (w.writeFrame lib fsize (w.content lib msg)) := by
  have hle : ∀ n < 2 ^ 24, UInt32.ofNat n ≤ maxUint24 ∧ (UInt32.ofNat n).toNat = n := by
    intro n hn
    have hnat : (UInt32.ofNat n).toNat = n := UInt32.toNat_ofNat_of_lt' (hn.trans (by decide))
    exact ⟨UInt32.le_iff_toNat_le.2 (hnat.le.trans (Nat.le_pred_of_lt hn)), hnat⟩
  have hplain : ¬ (w.snappy ∧ maxUint24 < .ofNat msg.payload.length) := fun hbig =>
    UInt32.not_lt.2 (hle _ (hfits.2 hbig.1)).1 hbig.2
  refine ⟨_, (hle _ hfits.1).1, (hle _ hfits.1).2, ?_⟩
  rw [writeMsg, if_neg hplain]
  exact if_neg (UInt32.not_lt.2 (hle _ hfits.1).1)

theorem readMsg_writeFrame {content : Bytes} (h : InStep w r) (hsize : fsize ≤ maxUint24)
    (hlen : fsize.toNat = content.length) (rest : Bytes) :
    r.readMsg lib ((w.writeFrame lib fsize content).1 ++ rest) =
      (r.readContent lib content).bind fun msg => .ok (msg, { r with
        dec := (w.writeFrame lib fsize content).2.enc
        ingressMAC := (w.writeFrame lib fsize content).2.egressMAC }, rest) := by
  rw [writeFrame, ← h.macCipher, ← h.egressMAC, ← h.enc]
  exact (readMsg_parts (by simp) (by simp) (readHead_encHead h hsize)
    (length_encBody lib w hsize hlen) rest).trans (by rw [readFrame_encBody h hlen]; rfl)

/-- **A frame is read as it was written**, and both sides are in step again. -/
theorem InStep.readMsg_writeMsg (h : InStep w r) (hlib : w.snappy = true → lib.Inverts)
    (hfits : w.Fits lib msg) :
    ∃ frame w', w.writeMsg lib msg = .ok (frame, w') ∧ w'.snappy = w.snappy ∧ ∀ rest,
      ∃ r', r.readMsg lib (frame ++ rest) = .ok (msg, r', rest) ∧ InStep w' r' := by
  obtain ⟨fsize, hsize, hlen, hwrite⟩ := writeMsg_eq hfits
  refine ⟨_, _, hwrite, rfl, fun rest => ⟨{ r with
    dec := (w.writeFrame lib fsize (w.content lib msg)).2.enc
    ingressMAC := (w.writeFrame lib fsize (w.content lib msg)).2.egressMAC }, ?_, ?_⟩⟩
  · exact (readMsg_writeFrame h hsize hlen rest).trans
      (by rw [readContent_content h hlib hfits]; rfl)
  · exact ⟨h.aes, h.macCipher, h.snappy, rfl, rfl, h.dec, h.ingressMAC⟩

/-! ### Changed bytes -/

/-- What the two MACs of a frame are computed from. -/
def histories (lib : FrameLib) (r : RlpxFrameRW) (frame : Bytes) : List Bytes :=
  let mac := updateMAC lib r.macCipher r.ingressMAC (frame.take 16)
  [mac, reseed lib r.macCipher (mac ++ (frame.drop 32).take (frame.length - 48))]

theorem histories_parts (hhead : head.length = 16) (htag : tag.length = 16)
    (htag' : tag'.length = 16) : r.histories lib (head ++ tag ++ body ++ tag') =
      [updateMAC lib r.macCipher r.ingressMAC head,
        reseed lib r.macCipher (updateMAC lib r.macCipher r.ingressMAC head ++ body)] := by
  have hdrop : (head ++ tag ++ body ++ tag').drop 32 = body ++ tag' := by
    rw [append_assoc, drop_append_of_le_length] <;> simp [hhead, htag]
  have htake : (head ++ tag ++ body ++ tag').take 16 = head := by
    rw [append_assoc, append_assoc, ← hhead, take_left]
  have hlen : (head ++ tag ++ body ++ tag').length - 48 = body.length := by
    simp only [length_append, hhead, htag, htag']
    omega
  rw [histories, htake, hdrop, hlen, take_left]

theorem updateMAC_inj {key mac a b : Bytes} (ha : a.length = 16) (hb : b.length = 16)
    (h : updateMAC lib key mac a = updateMAC lib key mac b) : a = b :=
  xorBytes_inj (by rw [ha, FixedBytes.length_bytes]) (ha.trans hb.symm) (append_cancel_left h)

theorem readMsg_of_head (hhead : head.length = 16) (htag : tag.length = 16)
    (hbad : macValue (updateMAC lib r.macCipher r.ingressMAC head) ≠ tag) (rest : Bytes) :
    r.readMsg lib (head ++ tag ++ rest) = .error .badHeaderMAC := by
  have hlen : (head ++ tag).length = 32 := by rw [length_append, hhead, htag]
  rw [readMsg, readFull_append hlen, ← hhead]
  simp only [Except.bind, readHead, ← hhead, take_left, drop_left, ne_eq, hbad,
    not_false_eq_true, if_true]

/-- **A frame with a changed byte is not read**, if its MACs differ from those of the frame. -/
theorem InStep.readMsg_set {frame : Bytes} {w' : RlpxFrameRW} {i : ℕ} {b : UInt8}
    (h : InStep w r) (hfits : w.Fits lib msg) (hwrite : w.writeMsg lib msg = .ok (frame, w'))
    (hset : frame.set i b ≠ frame) (hinj : Set.InjOn macValue
      {m | m ∈ r.histories lib frame ∨ m ∈ r.histories lib (frame.set i b)}) (rest : Bytes) :
    r.readMsg lib (frame.set i b ++ rest) = .error .badHeaderMAC ∨
      r.readMsg lib (frame.set i b ++ rest) = .error .badFrameMAC := by
  obtain ⟨fsize, hsize, hlen, hwrite'⟩ := writeMsg_eq hfits
  obtain ⟨rfl, -⟩ := Prod.mk.inj (Except.ok.inj (hwrite'.symm.trans hwrite))
  rw [← h.macCipher, ← h.egressMAC] at hset hinj ⊢
  have hhead := length_encHead lib w fsize
  have hbody := length_encBody lib w hsize hlen
  have hread := @readHead_encHead lib w r fsize _ h hsize
  generalize w.encHead lib fsize = head at *
  generalize w.encBody lib fsize (w.content lib msg) = body at *
  have hold := @histories_parts lib r head _ body _ _ hhead
    (length_macValue (updateMAC lib r.macCipher r.ingressMAC head)) (length_macValue
      (reseed lib r.macCipher (updateMAC lib r.macCipher r.ingressMAC head ++ body)))
  -- a byte of the frame MAC, of the contents, of the header MAC or of the header
  rcases set_append_cases hset with ⟨heq, hset⟩ | ⟨j, heq, hne⟩
  · rw [heq] at hinj ⊢
    rcases set_append_cases hset with ⟨heq, hset⟩ | ⟨j, heq, hne⟩
    · rw [heq] at hinj ⊢
      refine .inl ?_
      rcases set_append_cases hset with ⟨heq, hne⟩ | ⟨j, heq, hne⟩
      · have hlen : (head.set i b).length = 16 := by rw [length_set, hhead]
        rw [heq, hold, histories_parts hlen (by simp) (by simp)] at hinj
        rw [heq, append_assoc _ body, append_assoc _ _ rest]
        refine readMsg_of_head hlen (by simp) (fun hmac => hne ?_) _
        exact updateMAC_inj hlen hhead (hinj (by simp) (by simp) hmac)
      · rw [heq, append_assoc _ body, append_assoc _ _ rest]
        exact readMsg_of_head hhead (by simp) hne.symm _
    · refine .inr ?_
      rw [heq, hold, histories_parts hhead (by simp) (by simp)] at hinj
      rw [heq, readMsg_parts (by simp [hhead]) (by simp) hread (by rw [length_set, hbody]),
        readFrame, if_pos]
      · rfl
      intro hmac
      have hsame := hinj (by simp) (by simp) hmac
      exact hne (append_cancel_left (append_inj_left hsame (by simp)))
  · refine .inr ?_
    rw [heq, readMsg_parts (by simp [hhead]) (by simp) hread hbody, readFrame, if_pos hne.symm]
    rfl

/-! ### Sequences of messages -/

/-- Several calls of `WriteMsg`. -/
def writeAll (lib : FrameLib) : List Msg → RlpxFrameRW → Except FrameErr (Bytes × RlpxFrameRW)
  | [], w => .ok ([], w)
  | msg :: msgs, w =>
    (w.writeMsg lib msg).bind fun (frame, w) =>
    (writeAll lib msgs w).bind fun (frames, w) => .ok (frame ++ frames, w)

/-- Several calls of `ReadMsg`. -/
def readAll (lib : FrameLib) :
    ℕ → RlpxFrameRW → Bytes → Except FrameErr (List Msg × RlpxFrameRW × Bytes)
  | 0, r, conn => .ok ([], r, conn)
  | n + 1, r, conn =>
    (r.readMsg lib conn).bind fun (msg, r, conn) =>
    (readAll lib n r conn).bind fun (msgs, r, conn) => .ok (msg :: msgs, r, conn)

theorem InStep.readAll_writeAll (h : InStep w r) (hlib : w.snappy = true → lib.Inverts)
    (msgs : List Msg) (hfits : ∀ msg ∈ msgs, w.Fits lib msg) :
    ∃ frames w', writeAll lib msgs w = .ok (frames, w') ∧ w'.snappy = w.snappy ∧ ∀ rest,
      ∃ r', readAll lib msgs.length r (frames ++ rest) = .ok (msgs, r', rest) ∧ InStep w' r' := by
  induction msgs generalizing w r with
  | nil => exact ⟨[], w, rfl, rfl, fun rest => ⟨r, rfl, h⟩⟩
  | cons msg msgs ih =>
    obtain ⟨frame, w₁, hwrite, hsnappy, hread⟩ := h.readMsg_writeMsg hlib (hfits msg mem_cons_self)
    have hfits₁ : ∀ m ∈ msgs, w₁.Fits lib m := fun m hm => by
      rw [Fits, content, hsnappy]
      exact hfits m (mem_cons_of_mem msg hm)
    obtain ⟨r₀, -, hstep⟩ := hread []
    obtain ⟨frames, w₂, hwrites, hsnappy', -⟩ := ih hstep (hsnappy ▸ hlib) hfits₁
    refine ⟨frame ++ frames, w₂, ?_, hsnappy'.trans hsnappy, fun rest => ?_⟩
    · rw [writeAll, hwrite]
      simp only [Except.bind, hwrites]
    obtain ⟨r₁, hread₁, hstep₁⟩ := hread (frames ++ rest)
    obtain ⟨frames', w₂', hwrites', -, hreads⟩ := ih hstep₁ (hsnappy ▸ hlib) hfits₁
    obtain ⟨rfl, rfl⟩ := Prod.mk.inj (Except.ok.inj (hwrites.symm.trans hwrites'))
    obtain ⟨r₂, hread₂, hstep₂⟩ := hreads rest
    refine ⟨r₂, ?_, hstep₂⟩
    rw [length_cons, readAll, append_assoc, hread₁]
    simp only [Except.bind, hread₂]

end RlpxFrameRW

open RlpxFrameRW in
/-- **The frames of a connection are a faithful pipe.**  The two sides of a handshake are in step;
while two sides are in step, every sequence of messages is read as it was written and leaves them in
step, whatever else is on the connection; and a frame of which a byte has been changed is refused,
if its MACs have other values than those of the frame. -/
theorem frames_faithful [Crypto] {lib : FrameLib} (snappy : Bool)
    (hlib : snappy = true → lib.Inverts) :
    (∀ h : EncHandshake, InStep (newRLPXFrameRW h.secrets snappy)
      (newRLPXFrameRW { h with initiator := !h.initiator }.secrets snappy)) ∧
    ∀ w r, InStep w r → w.snappy = snappy →
      (∀ msgs : List Msg, (∀ msg ∈ msgs, w.Fits lib msg) →
        ∃ frames w', writeAll lib msgs w = .ok (frames, w') ∧ ∀ rest,
          ∃ r', readAll lib msgs.length r (frames ++ rest) = .ok (msgs, r', rest) ∧
            InStep w' r' ∧ w'.snappy = snappy) ∧
      ∀ msg frame w', w.Fits lib msg → w.writeMsg lib msg = .ok (frame, w') →
        ∀ i b, frame.set i b ≠ frame →
          Set.InjOn macValue {m | m ∈ r.histories lib frame ∨ m ∈ r.histories lib (frame.set i b)} →
          ∀ rest, r.readMsg lib (frame.set i b ++ rest) = .error .badHeaderMAC ∨
            r.readMsg lib (frame.set i b ++ rest) = .error .badFrameMAC := by
  refine ⟨fun h => inStep_new h snappy, ?_⟩
  rintro w r h rfl
  refine ⟨fun msgs hfits => ?_, fun msg frame w' hfits hwrite i b hset hinj rest =>
    h.readMsg_set hfits hwrite hset hinj rest⟩
  obtain ⟨frames, w', hwrite, hsnappy, hread⟩ := h.readAll_writeAll hlib msgs hfits
  refine ⟨frames, w', hwrite, fun rest => ?_⟩
  obtain ⟨r', hread', hstep⟩ := hread rest
  exact ⟨r', hread', hstep, hsnappy⟩

namespace PingFrame

/-- What has been written to the MAC before the frame, with its header and with its contents. -/
def egress : Bytes :=
  (array 33 0x77aae852a17dcb22142cdb0226a00c047703d2a9d083dd99bde60c6380e574590a).bytes

def headed : Bytes := egress ++ (array 16 0x1bfa0383cc4a79a7de515c28c05ac28c).bytes

def filled : Bytes := headed ++ (array 16 0x6135acbe4685714fc70a307298982363).bytes

/-- The contents with a changed byte. -/
def altered : Bytes := headed ++ (array 16 0x6035acbe4685714fc70a307298982363).bytes

/-- The MAC after the frame. -/
def finished : Bytes := filled ++ (array 16 0xea5dce98f3bee1e1f9b7058f00dd8d2f).bytes

/-- The sums of the hash that seed it again. -/
def egressSum : Hash :=
  array 32 0x3f02093e45a111f64f38e3554ee4d651e25136abfef73f33871ecf89fe028831

def filledSum : Hash :=
  array 32 0x8267bf00b2e3c9db5867692fad43159d713a0d872c1117f9f26bb2d2a9188e4e

def alteredSum : Hash :=
  array 32 0x417ca3b347538088e32eba6cee689ce1910373c4fd10d4c522ebcf2c68831e53

scoped instance crypto : Crypto := tableCrypto
  [(egress, egressSum), (filled, filledSum), (altered, alteredSum),
    (headed, array 32 0xcd1370bc6142146567aa2e827405cb85978fdd9dc51936e2489db09ca5651df9),
    (finished, array 32 0x9f6e3a9ead155a748f9b7073fe997b0dd48911ff83acb7748bdc653f96b7710a),
    (altered ++ (array 16 0x45bcbbdb46b5479085b0e0351d8bd460).bytes,
      array 32 0x1ce8342374cd62ab0fd5b4e0860a32e5d7dc78dc661bce290472d02a44cd4587)] []

/-- AES under two keys. -/
def lib : FrameLib where
  keyStream _ i := (array 32
    0x6736ab33baa7d3e0a9e247b33be9dec363f5acbe4685714fc70a307298982363).bytes.getD i 0
  encrypt _ b :=
    if b = egressSum.bytes then array 16 0x7cccaa72f66daa4777b31b9bfbb31c4f
    else if b = filledSum.bytes then array 16 0x683a7198415d283aa1d06ca0ad9e98b2
    else array 16 0x04c0186801e6c718669e5a59f3e34881
  snappyEncode := id
  decodedLen b := some b.length
  snappyDecode := some

def left : RlpxFrameRW := newRLPXFrameRW ⟨[1], [2], egress, []⟩ false

def right : RlpxFrameRW := newRLPXFrameRW ⟨[1], [2], [], egress⟩ false

def ping : Msg := ⟨2, [0xc0]⟩

def frame : Bytes :=
  (array 32 0x6736a9f13a27d3e0a9e247b33be9dec3cd1370bc6142146567aa2e827405cb85).bytes ++
    (array 32 0x6135acbe4685714fc70a3072989823639f6e3a9ead155a748f9b7073fe997b0d).bytes

end PingFrame

open RlpxFrameRW in
open PingFrame in
/-- A ping is read, and not if the first byte of its contents is changed. -/
theorem frames_faithful_ping :
    (∃ frames w', writeAll lib [ping] left = .ok (frames, w') ∧
      ∀ rest, ∃ r', readAll lib 1 right (frames ++ rest) =
        .ok ([ping], r', rest) ∧ InStep w' r' ∧ w'.snappy = false) ∧
    (right.readMsg lib (frame.set 32 0x60 ++ []) =
        .error .badHeaderMAC ∨
      right.readMsg lib (frame.set 32 0x60 ++ []) =
        .error .badFrameMAC) := by
  have hfacts : left.content lib ping = [0x02, 0xc0] ∧
      (left.writeMsg lib ping).toOption = some (frame,
        { left with enc := 32, egressMAC := finished }) ∧
      frame.set 32 0x60 ≠ frame ∧
      ∀ m ∈ right.histories lib frame ++
          right.histories lib (frame.set 32 0x60),
        ∀ n ∈ right.histories lib frame ++
          right.histories lib (frame.set 32 0x60),
        macValue m = macValue n → m = n := by
    decide +kernel
  obtain ⟨hcontent, hwrite, hset, hinj⟩ := hfacts
  have hfits : left.Fits lib ping :=
    ⟨by rw [hcontent]; decide, nofun⟩
  have hok : ∀ {x : Except FrameErr (Bytes × RlpxFrameRW)} {y}, x.toOption = some y →
      x = .ok y := by
    rintro (e | x) y h
    · cases h
    · exact congrArg Except.ok (Option.some.inj h)
  obtain ⟨-, hpipe⟩ := @frames_faithful _ lib false nofun
  obtain ⟨hseq, hchange⟩ := hpipe left right
    ⟨rfl, rfl, rfl, rfl, rfl, rfl, rfl⟩ rfl
  refine ⟨hseq [ping] fun m hm => mem_singleton.1 hm ▸ hfits,
    hchange _ _ _ hfits (hok hwrite) 32 0x60 hset (fun m hm n hn => ?_) []⟩
  exact hinj m (mem_append.2 hm) n (mem_append.2 hn)
