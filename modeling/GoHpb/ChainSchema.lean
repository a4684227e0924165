/-
**The keys of the chain database.**

A model of the key scheme of `blockchain/database_util.go`, with the entries that the consensus
engine and the tries keep in the same key-value store: every kind of entry has a prefix, and its
parameters follow in a fixed number of bytes.

Bloom bits are found by the number of the bit, the section and its head.  The number of the bit is
cut to sixteen bits in the key, so that numbers further apart share an entry; the blooms have 2048
bits.  How headers, bodies, receipts and the values kept as JSON are written down is a parameter,
which has to read back what it has written.

Main results:

* `Slot.key_injOn` — **different entries have different keys**;
* `readEntry_databaseAfter` — **what is read is what was written last and not deleted**.
-/

import GoHpb.BlockHeader
import GoHpb.JsonCodec
import GoHpb.KeyedStore

open KeyedStore List FixedBytes

/-! ### Numbers in keys -/

/-- The last `k` bytes of a number, the most significant one first. -/
def bigEndian : ℕ → ℕ → Bytes
  | 0, _ => []
  | k + 1, n => bigEndian k (n / 256) ++ [UInt8.ofNat n]

/-- The number with the given bytes. -/
def ofBigEndian (b : Bytes) : ℕ := b.foldl (fun n c => n * 256 + c.toNat) 0

@[simp] theorem length_bigEndian (k n : ℕ) : (bigEndian k n).length = k := by
  induction k generalizing n with
  | zero => rfl
  | succ k ih => simp [bigEndian, ih]

theorem ofBigEndian_bigEndian (k n : ℕ) : ofBigEndian (bigEndian k n) = n % 256 ^ k := by
  induction k generalizing n with
  | zero => simp [bigEndian, ofBigEndian, Nat.mod_one]
  | succ k ih =>
    have hlast : ofBigEndian (bigEndian (k + 1) n) =
        ofBigEndian (bigEndian k (n / 256)) * 256 + n % 256 := by
      simp [bigEndian, ofBigEndian, foldl_append]
    rw [hlast, ih, pow_succ', Nat.mod_mul, Nat.mul_comm, Nat.add_comm]

theorem bigEndian_inj {k m n : ℕ} (hm : m < 256 ^ k) (hn : n < 256 ^ k)
    (h : bigEndian k m = bigEndian k n) : m = n := by
  have hsame := congrArg ofBigEndian h
  rwa [ofBigEndian_bigEndian, ofBigEndian_bigEndian, Nat.mod_eq_of_lt hm,
    Nat.mod_eq_of_lt hn] at hsame

def encodeBlockNumber (number : UInt64) : Bytes := bigEndian 8 number.toNat

theorem encodeBlockNumber_inj {m n : UInt64} :
    encodeBlockNumber m = encodeBlockNumber n ↔ m = n := by
  refine ⟨fun h => UInt64.toNat_inj.1 (bigEndian_inj ?_ ?_ h), fun h => by rw [h]⟩
  · exact m.toNat_lt
  · exact n.toNat_lt

/-! ### Entries -/

/-- The entries of the database. -/
inductive Slot where
  | header (hash : Hash) (number : UInt64)
  | td (hash : Hash) (number : UInt64)
  | canonicalHash (number : UInt64)
  | blockNumber (hash : Hash)
  | body (hash : Hash) (number : UInt64)
  | blockReceipts (hash : Hash) (number : UInt64)
  | txLookup (hash : Hash)
  | bloomBits (bit : ℕ) (sec : UInt64) (head : Hash)
  | headHeader
  | headBlock
  | headFast
  | random
  | voteResult
  | chainConfig (hash : Hash)
  /-- a snapshot of the consensus engine -/
  | snapshot (hash : Hash)
  /-- a node of a trie, or the code of a contract -/
  | node (hash : Hash)
  deriving DecidableEq

namespace Slot

/-- The keys. -/
def key : Slot → Bytes
  | header hash number => ascii "h" ++ encodeBlockNumber number ++ hash.bytes
  | td hash number => ascii "h" ++ encodeBlockNumber number ++ hash.bytes ++ ascii "t"
  | canonicalHash number => ascii "h" ++ encodeBlockNumber number ++ ascii "n"
  | blockNumber hash => ascii "H" ++ hash.bytes
  | body hash number => ascii "b" ++ encodeBlockNumber number ++ hash.bytes
  | blockReceipts hash number => ascii "r" ++ encodeBlockNumber number ++ hash.bytes
  | txLookup hash => ascii "l" ++ hash.bytes
  | bloomBits bit sec head =>
    ascii "B" ++ bigEndian 2 bit ++ encodeBlockNumber sec ++ head.bytes
  | headHeader => ascii "LastHeader"
  | headBlock => ascii "LastBlock"
  | headFast => ascii "LastFast"
  | random => ascii "random"
  | voteResult => ascii "vote-result-key"
  | chainConfig hash => ascii "hpb-config-" ++ hash.bytes
  | snapshot hash => ascii "prometheus-" ++ hash.bytes
  | node hash => hash.bytes

/-- The bit number, if there is one, is not cut off in the key. -/
def Fits : Slot → Prop
  | bloomBits bit _ _ => bit < 2 ^ 16
  | _ => True

/-- The length of the key, and its first byte, unless the key is a hash. -/
def shape : Slot → ℕ × Option UInt8
  | header _ _ => (41, some 0x68)
  | td _ _ => (42, some 0x68)
  | canonicalHash _ => (10, some 0x68)
  | blockNumber _ => (33, some 0x48)
  | body _ _ => (41, some 0x62)
  | blockReceipts _ _ => (41, some 0x72)
  | txLookup _ => (33, some 0x6c)
  | bloomBits _ _ _ => (43, some 0x42)
  | headHeader => (10, some 0x4c)
  | headBlock => (9, some 0x4c)
  | headFast => (8, some 0x4c)
  | random => (6, some 0x72)
  | voteResult => (15, some 0x76)
  | chainConfig _ => (43, some 0x68)
  | snapshot _ => (43, some 0x70)
  | node _ => (32, none)

theorem shape_eq (s : Slot) :
    s.shape = (s.key.length, if s.key.length = 32 then none else s.key.head?) := by
  cases s <;> simp [shape, key, ascii, encodeBlockNumber]

/-- **Different entries have different keys.** -/
theorem key_injOn : Set.InjOn key { s | s.Fits } := by
  intro s hs t ht h
  have hshape : s.shape = t.shape := by rw [shape_eq, shape_eq, h]
  have hhash : ∀ {p q : Bytes} {a b : Hash}, p ++ a.bytes = q ++ b.bytes → p.length = q.length →
      p = q ∧ a = b := by
    intro p q a b heq hlen
    obtain ⟨hfront, hhash⟩ := append_inj heq hlen
    exact ⟨hfront, bytes_inj.1 hhash⟩
  have hnumber : ∀ {p q : Bytes} {m n : UInt64} {a b : Hash},
      p ++ encodeBlockNumber m ++ a.bytes = q ++ encodeBlockNumber n ++ b.bytes →
      p.length = q.length → p = q ∧ m = n ∧ a = b := by
    intro p q m n a b heq hlen
    obtain ⟨hfront, hab⟩ := hhash heq (by simp [hlen, encodeBlockNumber])
    obtain ⟨hpq, hmn⟩ := append_inj hfront hlen
    exact ⟨hpq, encodeBlockNumber_inj.1 hmn, hab⟩
  -- the shapes tell the kinds apart, and within one kind the parameters are read off the key
  cases s <;> cases t <;> try (simp [shape] at hshape; done)
  case header.header => obtain ⟨-, rfl, rfl⟩ := hnumber h rfl; rfl
  case body.body => obtain ⟨-, rfl, rfl⟩ := hnumber h rfl; rfl
  case blockReceipts.blockReceipts => obtain ⟨-, rfl, rfl⟩ := hnumber h rfl; rfl
  case td.td => obtain ⟨-, rfl, rfl⟩ := hnumber (append_cancel_right h) rfl; rfl
  case canonicalHash.canonicalHash =>
    rw [encodeBlockNumber_inj.1 (append_cancel_left (append_cancel_right h))]
  case bloomBits.bloomBits =>
    obtain ⟨hbit, rfl, rfl⟩ := hnumber h (by simp)
    rw [bigEndian_inj hs ht (append_cancel_left hbit)]
  case node.node => rw [bytes_inj.1 h]
  case blockNumber.blockNumber => obtain ⟨-, rfl⟩ := hhash h rfl; rfl
  case txLookup.txLookup => obtain ⟨-, rfl⟩ := hhash h rfl; rfl
  case chainConfig.chainConfig => obtain ⟨-, rfl⟩ := hhash h rfl; rfl
  case snapshot.snapshot => obtain ⟨-, rfl⟩ := hhash h rfl; rfl
  all_goals rfl

end Slot

/-! ### Values -/

/-- How the values are written down that have a form of their own: as RLP or as JSON. -/
structure Formats where
  (Header Td Body Receipts TxLookupEntry VoteResult ChainConfig Snapshot : Type)
  /-- the entry of a transaction: its block, the number of the block, and its place there -/
  lookupEntry : Hash → UInt64 → UInt64 → TxLookupEntry
  header : Codec Header Bytes
  td : Codec Td Bytes
  body : Codec Body Bytes
  receipts : Codec Receipts Bytes
  txLookup : Codec TxLookupEntry Bytes
  voteResult : Codec VoteResult Bytes
  chainConfig : Codec ChainConfig Bytes
  snapshot : Codec Snapshot Bytes

/-- A hash is stored as it is; no bytes are taken for a missing entry. -/
def hashCodec : Codec Hash Bytes where
  encode hash := hash.bytes
  decode data := if data = [] then none else some (setBytes 32 data)
  decode_encode hash := by
    have hne : hash.bytes ≠ [] := by
      intro hnil
      have hlen := hash.length_bytes
      rw [hnil] at hlen
      cases hlen
    rw [if_neg hne, setBytes_self]

/-- A number is stored in eight bytes; anything else is taken for a missing entry. -/
def numberCodec : Codec UInt64 Bytes where
  encode := encodeBlockNumber
  decode data := if data.length = 8 then some (UInt64.ofNat (ofBigEndian data)) else none
  decode_encode number := by
    have hlt : number.toNat < 256 ^ 8 := number.toNat_lt
    rw [encodeBlockNumber, if_pos (length_bigEndian 8 _), ofBigEndian_bigEndian,
      Nat.mod_eq_of_lt hlt, UInt64.ofNat_toNat]

/-- Bytes are stored as they are. -/
def bytesCodec : Codec Bytes Bytes where
  encode := id
  decode := some
  decode_encode _ := rfl

namespace Formats

variable (F : Formats)

/-- What an entry holds. -/
def Value : Slot → Type
  | .header _ _ => F.Header
  | .td _ _ => F.Td
  | .canonicalHash _ => Hash
  | .blockNumber _ => UInt64
  | .body _ _ => F.Body
  | .blockReceipts _ _ => F.Receipts
  | .txLookup _ => F.TxLookupEntry
  | .bloomBits _ _ _ => Bytes
  | .headHeader => Hash
  | .headBlock => Hash
  | .headFast => Hash
  | .random => Bytes
  | .voteResult => F.VoteResult
  | .chainConfig _ => F.ChainConfig
  | .snapshot _ => F.Snapshot
  | .node _ => Bytes

/-- How it is written down. -/
def codec : (s : Slot) → Codec (F.Value s) Bytes
  | .header _ _ => F.header
  | .td _ _ => F.td
  | .canonicalHash _ => hashCodec
  | .blockNumber _ => numberCodec
  | .body _ _ => F.body
  | .blockReceipts _ _ => F.receipts
  | .txLookup _ => F.txLookup
  | .bloomBits _ _ _ => bytesCodec
  | .headHeader => hashCodec
  | .headBlock => hashCodec
  | .headFast => hashCodec
  | .random => bytesCodec
  | .voteResult => F.voteResult
  | .chainConfig _ => F.chainConfig
  | .snapshot _ => F.snapshot
  | .node _ => bytesCodec

end Formats

/-! ### The functions that write and delete -/

/-- The calls that change the database; `WriteBlock` and `DeleteBlock` are sequences of them. -/
inductive Call (F : Formats) where
  | writeHeader (hash : Hash) (number : UInt64) (header : F.Header)
  | deleteHeader (hash : Hash) (number : UInt64)
  | writeTd (hash : Hash) (number : UInt64) (td : F.Td)
  | deleteTd (hash : Hash) (number : UInt64)
  | writeCanonicalHash (hash : Hash) (number : UInt64)
  | deleteCanonicalHash (number : UInt64)
  | writeBody (hash : Hash) (number : UInt64) (body : F.Body)
  | deleteBody (hash : Hash) (number : UInt64)
  | writeBlockReceipts (hash : Hash) (number : UInt64) (receipts : F.Receipts)
  | deleteBlockReceipts (hash : Hash) (number : UInt64)
  | writeTxLookupEntries (hash : Hash) (number : UInt64) (txs : List Hash)
  | deleteTxLookupEntry (hash : Hash)
  | writeBloomBits (bit : ℕ) (sec : UInt64) (head : Hash) (bits : Bytes)
  | writeHeadHeaderHash (hash : Hash)
  | writeHeadBlockHash (hash : Hash)
  | writeHeadFastBlockHash (hash : Hash)
  | writeRandom (rand : Bytes)
  | writeVoteResult (voteRst : F.VoteResult)
  | deleteVoteResult
  | writeChainConfig (hash : Hash) (cfg : Option F.ChainConfig)
  /-- `store` of a snapshot -/
  | storeSnapshot (hash : Hash) (snap : F.Snapshot)
  /-- a node of a trie or a code is written, or deleted -/
  | putNode (hash : Hash) (data : Bytes)
  | deleteNode (hash : Hash)

namespace Call

variable {F : Formats}

/-- What a call does, in the order of its writes. -/
def effects : Call F → List (Effect F.Value)
  | writeHeader hash number header =>
    [.put (.blockNumber hash) number, .put (.header hash number) header]
  | deleteHeader hash number =>
    [.delete (.blockNumber hash), .delete (.header hash number)]
  | writeTd hash number td => [.put (.td hash number) td]
  | deleteTd hash number => [.delete (.td hash number)]
  | writeCanonicalHash hash number => [.put (.canonicalHash number) hash]
  | deleteCanonicalHash number => [.delete (.canonicalHash number)]
  | writeBody hash number body => [.put (.body hash number) body]
  | deleteBody hash number => [.delete (.body hash number)]
  | writeBlockReceipts hash number receipts =>
    [.put (.blockReceipts hash number) receipts]
  | deleteBlockReceipts hash number => [.delete (.blockReceipts hash number)]
  | writeTxLookupEntries hash number txs => txs.zipIdx.map fun entry =>
      .put (.txLookup entry.1) (F.lookupEntry hash number (UInt64.ofNat entry.2))
  | deleteTxLookupEntry hash => [.delete (.txLookup hash)]
  | writeBloomBits bit sec head bits => [.put (.bloomBits bit sec head) bits]
  | writeHeadHeaderHash hash => [.put .headHeader hash]
  | writeHeadBlockHash hash => [.put .headBlock hash]
  | writeHeadFastBlockHash hash => [.put .headFast hash]
  | writeRandom rand => [.put .random rand]
  | writeVoteResult voteRst => [.put .voteResult voteRst]
  | deleteVoteResult => [.delete .voteResult]
  | writeChainConfig hash cfg => (cfg.map (Effect.put (Slot.chainConfig hash))).toList
  | storeSnapshot hash snap => [.put (.snapshot hash) snap]
  | putNode hash data => [.put (.node hash) data]
  | deleteNode hash => [.delete (.node hash)]

/-- The number of the bit is not cut off. -/
def Fits : Call F → Prop
  | writeBloomBits bit _ _ _ => bit < 2 ^ 16
  | _ => True

theorem fits_slot {c : Call F} (h : c.Fits) : ∀ e ∈ c.effects, e.slot.Fits := by
  intro e he
  cases c with
  | writeBloomBits bit sec head bits =>
    obtain rfl := mem_singleton.1 he
    exact h
  | writeTxLookupEntries hash number txs =>
    obtain ⟨entry, -, rfl⟩ := mem_map.1 he
    trivial
  | writeChainConfig hash cfg =>
    cases cfg with
    | none => cases he
    | some cfg =>
      obtain rfl := mem_singleton.1 he
      trivial
  | _ =>
    simp only [effects, mem_cons, not_mem_nil, or_false] at he
    rcases he with rfl | rfl <;> trivial

end Call

/-! ### What is read -/

section

variable {F : Formats}

/-- The functions that read an entry.  Those that return no pointer have the zero hash, the empty
string or the greatest number in place of a missing entry. -/
def readEntry (db : Finmap fun _ : Bytes => Bytes) (s : Slot) : Option (F.Value s) :=
  get Slot.key F.codec db s

/-- The database after a sequence of calls. -/
def databaseAfter (calls : List (Call F)) : Finmap fun _ : Bytes => Bytes :=
  (calls.flatMap Call.effects).foldl (apply Slot.key F.codec) ∅

/-- What was written last to an entry and not deleted since. -/
def lastWritten (calls : List (Call F)) : (s : Slot) → Option (F.Value s) :=
  (calls.flatMap Call.effects).foldl record fun _ => none

end

/-! ### A small database -/

namespace SmallStore

/-- The encodings themselves as values. -/
abbrev Encoding : Type := { b : Bytes // b ≠ [] }

def raw : Codec Encoding Bytes where
  encode b := b.1
  decode b := if h : b ≠ [] then some ⟨b, h⟩ else none
  decode_encode b := dif_pos b.2

theorem encode_list_ne_nil (l : List Rlp.Item) : Rlp.encode (.list l) ≠ [] := by
  rw [Rlp.encode, Rlp.puthead]
  split_ifs <;> simp

def formats : Formats where
  Header := Encoding
  Td := Encoding
  Body := Encoding
  Receipts := Encoding
  TxLookupEntry := Encoding
  VoteResult := Encoding
  ChainConfig := Encoding
  Snapshot := Encoding
  lookupEntry hash number index := ⟨Rlp.encode (.list [.str hash.bytes,
    .str (bigBytes number.toNat), .str (bigBytes index.toNat)]),
      encode_list_ne_nil _⟩
  header := raw
  td := raw
  body := raw
  receipts := raw
  txLookup := raw
  voteResult := raw
  chainConfig := raw
  snapshot := raw

def hash : Hash := zero 32

/-- A header that is deleted again, the lookup entry of a transaction, and bloom bits. -/
def calls : List (Call formats) :=
  [.writeHeader hash 1 ⟨[0xc0], by decide⟩, .writeTxLookupEntries hash 1 [hash],
    .writeBloomBits 1 0 hash [7], .deleteHeader hash 1]

end SmallStore
