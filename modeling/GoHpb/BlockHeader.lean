/-
**Block headers, their hash and the hash their sealer signs.**

The data types of `common/types.go` and `blockchain/types/block.go` that the consensus engine works
on, and the three ways it digests them: `Header.hash`, the identity of a block, which covers every
field; `sigHash`, which the sealer signs; and `signerHash`, the four-byte value under which a
signer is known to the voting snapshots.

A header is a decoded one.  The decoder allocates every big integer and rejects negative ones, so
the big-integer fields are natural numbers; `Header.number64` is what `Number.Uint64()` reads.

The two cryptographic libraries the code calls, Keccak-256 and the recovery of a public key from a
signature, are parameters of the development, collected in the class `Crypto`.

Main results:

* `Header.eq_iff_of_sigItem_eq` — **what the signature leaves open**: two headers that agree on
  what is signed and on the seal are equal exactly when they agree on `coinbase`, `extraHash` and
  `random`.
-/

import GoHpb.RlpEncode
import GoHpb.FnvReach

/-! ### Types -/

/-- A Keccak-256 digest. -/
abbrev Hash : Type := FixedBytes 32

/-- The address of an account. -/
abbrev Address : Type := FixedBytes 20

/-- The identity of a signer in the voting snapshots. -/
abbrev AddressHash : Type := FixedBytes 4

/-- The nonce field of a header, which carries the direction of its vote. -/
abbrev BlockNonce : Type := FixedBytes 8

/-- The bloom filter of the logs of a block. -/
abbrev Bloom : Type := FixedBytes 256

/-- The errors of the consensus engine, under the names of the source; the last two are run-time
panics. -/
inductive Err where
  | errMissingVanity
  | errMissingSignature
  | errExtraSigners
  | errInvalidCheckpointSigners
  | errInvalidMixDigest
  | errInvalidUncleHash
  | errInvalidDifficulty
  | errInvalidTimestamp
  | errInvalidVotingChain
  | errUnauthorized
  | errWaitTransactions
  | errUnknownBlock
  | errInvalidCheckpointBeneficiary
  | errInvalidVote
  | errInvalidCheckpointVote
  | errUnknownAncestor
  | errFutureBlock
  | errInvalidMsgLen
  | errInvalidSignatureLen
  | errInvalidRecoveryID
  | errRecoverFailed
  | errNotFound
  | errSyntax
  | errSigner
  | panicDivide
  | panicMakeSlice
  | panicSliceBounds
  deriving DecidableEq

/-! ### The cryptographic libraries -/

/-- The libraries the engine calls: the Keccak-256 digest, and the recovery of an uncompressed
public key from a 32-byte message and a 65-byte signature. -/
class Crypto where
  keccak256 : Bytes → Hash
  ecdsaRecover : Bytes → Bytes → Option (FixedBytes 65)

section Recover

variable [Crypto]

/-- `crypto.Ecrecover`: the checks of the wrapper, then the library. -/
def recoverPubkey (msg sig : Bytes) : Except Err (FixedBytes 65) :=
  if msg.length ≠ 32 then .error .errInvalidMsgLen
  else if sig.length ≠ 65 then .error .errInvalidSignatureLen
  else if 4 ≤ sig.getD 64 0 then .error .errInvalidRecoveryID
  else match Crypto.ecdsaRecover msg sig with
    | none => .error .errRecoverFailed
    | some pubkey => .ok pubkey

/-- The address that belongs to a public key: the last twenty bytes of the digest of its
coordinates. -/
def pubkeyAddress (pubkey : FixedBytes 65) : Address :=
  ⟨(Crypto.keccak256 (pubkey.bytes.drop 1)).bytes.drop 12, by simp⟩

end Recover

/-! ### Headers -/

/-- A block header. -/
structure Header where
  parentHash : Hash
  uncleHash : Hash
  coinbase : Address
  coinbaseHash : AddressHash
  root : Hash
  txHash : Hash
  receiptHash : Hash
  bloom : Bloom
  difficulty : ℕ
  number : ℕ
  gasLimit : ℕ
  gasUsed : ℕ
  time : ℕ
  extra : Bytes
  mixDigest : Hash
  nonce : BlockNonce
  extraHash : Bytes
  random : Bytes
  deriving DecidableEq

/-- The number of bytes reserved for the vanity prefix of the extra data. -/
def extraVanity : ℕ := 32

/-- The number of bytes reserved for the seal at the end of the extra data. -/
def extraSeal : ℕ := 65

/-- The nonce of a vote to add a signer. -/
def nonceAuthVote : BlockNonce := ⟨List.replicate 8 0xFF, rfl⟩

/-- The nonce of a vote to drop a signer. -/
def nonceDropVote : BlockNonce := ⟨List.replicate 8 0, rfl⟩

/-- The root of an empty trie. -/
def emptyRootHash : Hash := FixedBytes.setBytes 32
  (bigBytes 0x56e81f171bcc55a6ff8345e692c0f86e5b48e01b996cadc001622fb5e363b421)

namespace Header

variable (h : Header)

/-- The block number as the engine reads it: the low 64 bits. -/
def number64 : UInt64 := UInt64.ofNat h.number

/-- The seal: the last 65 bytes of the extra data. -/
def signature : Bytes := h.extra.drop (h.extra.length - extraSeal)

/-- The extra data without the seal. -/
def unsealed : Bytes := h.extra.take (h.extra.length - extraSeal)

theorem unsealed_append_signature : h.unsealed ++ h.signature = h.extra :=
  List.take_append_drop _ _

/-- The fields of a header in the order in which it is encoded. -/
def rlpItem : Rlp.Item :=
  .list <| List.map .str
    [h.parentHash.bytes, h.uncleHash.bytes, h.coinbase.bytes, h.coinbaseHash.bytes, h.root.bytes,
      h.txHash.bytes, h.receiptHash.bytes, h.bloom.bytes, bigBytes h.difficulty, bigBytes h.number,
      bigBytes h.gasLimit, bigBytes h.gasUsed, bigBytes h.time, h.extra, h.mixDigest.bytes,
      h.nonce.bytes, h.extraHash, h.random]

/-- The hash of a block. -/
def hash [Crypto] (h : Header) : Hash := Crypto.keccak256 (Rlp.encode h.rlpItem)

theorem map_str_injective : Function.Injective (List.map Rlp.Item.str) :=
  List.map_injective_iff.2 fun _ _ h => Rlp.Item.str.inj h

theorem rlpItem_injective : Function.Injective rlpItem := by
  intro h k heq
  have hlist := map_str_injective (Rlp.Item.list.inj heq)
  simp only [List.cons.injEq, FixedBytes.bytes_inj, bigBytes_injective.eq_iff, and_true] at hlist
  cases h
  cases k
  simp only [mk.injEq]
  exact hlist

end Header

/-! ### What the sealer signs -/

/-- The fields covered by the signature, in the order of `sigHash`. -/
def sigItem (h : Header) : Rlp.Item :=
  .list <| List.map .str
    [h.parentHash.bytes, h.uncleHash.bytes, h.coinbaseHash.bytes, h.root.bytes, h.txHash.bytes,
      h.receiptHash.bytes, h.bloom.bytes, bigBytes h.difficulty, bigBytes h.number,
      bigBytes h.gasLimit, bigBytes h.gasUsed, bigBytes h.time, h.unsealed, h.mixDigest.bytes,
      h.nonce.bytes]

/-- The digest the sealer signs. -/
def sigHash [Crypto] (h : Header) : Hash := Crypto.keccak256 (Rlp.encode (sigItem h))

/-- **What the signature leaves open.**  Two headers that agree on what is signed and on the seal
are equal exactly when they agree on the three fields the signature does not cover. -/
theorem Header.eq_iff_of_sigItem_eq {h k : Header} (hsig : sigItem h = sigItem k)
    (hseal : h.signature = k.signature) :
    h = k ↔ h.coinbase = k.coinbase ∧ h.extraHash = k.extraHash ∧ h.random = k.random := by
  constructor
  · rintro rfl
    exact ⟨rfl, rfl, rfl⟩
  rintro ⟨hcb, heh, hr⟩
  have hlist := Header.map_str_injective (Rlp.Item.list.inj hsig)
  simp only [List.cons.injEq, FixedBytes.bytes_inj, bigBytes_injective.eq_iff, and_true] at hlist
  obtain ⟨h₁, h₂, h₃, h₄, h₅, h₆, h₇, h₈, h₉, h₁₀, h₁₁, h₁₂, h₁₃, h₁₄, h₁₅⟩ := hlist
  have hextra : h.extra = k.extra := by
    rw [← h.unsealed_append_signature, ← k.unsealed_append_signature, h₁₃, hseal]
  cases h
  cases k
  simp only [Header.mk.injEq]
  exact ⟨h₁, h₂, hcb, h₃, h₄, h₅, h₆, h₇, h₈, h₉, h₁₀, h₁₁, h₁₂, hextra, h₁₄, h₁₅, heh, hr⟩

/-- The uncle hash of a block without uncles, `types.CalcUncleHash(nil)`. -/
def emptyUncleHash [Crypto] : Hash := Crypto.keccak256 (Rlp.encode (.list []))

/-! ### The identity of a signer -/

/-- The FNV-1 hash of some byte strings, written one after the other. -/
def fnvHashToByte (data : List Bytes) : Bytes := Fnv.sum (data.foldl Fnv.write Fnv.offset32)

/-- The identity of a signer: the hash of its address followed by the random string of the
header. -/
def signerHash (signer : Address) (random : Bytes) : AddressHash :=
  FixedBytes.setBytes 4 (fnvHashToByte [signer.bytes ++ random])

/-- **Every account can take any identity** by choosing its random string. -/
theorem exists_signerHash_eq (signer : Address) (slot : AddressHash) :
    ∃ random, signerHash signer random = slot := by
  obtain ⟨random, hr⟩ :=
    Fnv.exists_sum_write (Fnv.write Fnv.offset32 signer.bytes) slot.length_bytes
  refine ⟨random, ?_⟩
  have hfnv : fnvHashToByte [signer.bytes ++ random] = slot.bytes := by
    rw [fnvHashToByte, List.foldl_cons, List.foldl_nil, Fnv.write_append, hr]
  rw [signerHash, hfnv, FixedBytes.setBytes_self]
