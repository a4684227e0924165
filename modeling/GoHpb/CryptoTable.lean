/-
**Cryptography by tables, and a small chain.**

The development never computes a Keccak digest or recovers a public key: both are fields of the
class `Crypto`.  To evaluate its definitions on actual headers, an instance can be given by finite
tables, which is how a recorded exchange is replayed.  On the recorded inputs such an instance
answers what was recorded, and if the recorded digests are pairwise different it has no collisions
among them.

The second half is one such recording: the real digests, signatures and keys for a chain with a
single signer and for some headers that can follow its genesis block.

Main results:

* `tableCrypto_injOn` — **no collisions among recorded inputs with different digests**.
-/

import GoHpb.Historysnap
import GoHpb.JsonCodec

/-! ### Cryptography by tables -/

/-- The instance given by a table of digests and a table of recovered keys; anything else has the
zero digest and no key. -/
@[reducible] def tableCrypto (digests : List (Bytes × Hash))
    (keys : List ((Bytes × Bytes) × FixedBytes 65)) : Crypto where
  keccak256 b := ((digests.find? fun e => e.1 = b).map Prod.snd).getD (FixedBytes.zero 32)
  ecdsaRecover msg sig := (keys.find? fun e => e.1 = (msg, sig)).map Prod.snd

section Table

variable {digests : List (Bytes × Hash)} {keys : List ((Bytes × Bytes) × FixedBytes 65)}

theorem tableCrypto_keccak256 (hnodup : (digests.map Prod.fst).Nodup) {b : Bytes} {d : Hash}
    (h : (b, d) ∈ digests) : (tableCrypto digests keys).keccak256 b = d := by
  have hfind : digests.find? (fun e => e.1 = b) = some (b, d) := by
    induction digests with
    | nil => simp at h
    | cons e es ih =>
      rw [List.map_cons, List.nodup_cons] at hnodup
      rcases List.mem_cons.1 h with rfl | h
      · simp
      have hne : e.1 ≠ b := by
        intro he
        exact hnodup.1 (he ▸ List.mem_map_of_mem (f := Prod.fst) h)
      rw [List.find?_cons_of_neg (by simpa using hne)]
      exact ih hnodup.2 h
  change ((digests.find? fun e => e.1 = b).map Prod.snd).getD (FixedBytes.zero 32) = d
  rw [hfind]
  rfl

/-- **There are no collisions among recorded inputs with different digests.** -/
theorem tableCrypto_injOn (hfst : (digests.map Prod.fst).Nodup)
    (hsnd : (digests.map Prod.snd).Nodup) :
    Set.InjOn (tableCrypto digests keys).keccak256 { b | b ∈ digests.map Prod.fst } := by
  intro a ha b hb hab
  obtain ⟨⟨a', d⟩, hda, rfl⟩ := List.mem_map.1 ha
  obtain ⟨⟨b', e⟩, heb, rfl⟩ := List.mem_map.1 hb
  rw [tableCrypto_keccak256 hfst hda, tableCrypto_keccak256 hfst heb] at hab
  subst hab
  exact congrArg Prod.fst (List.inj_on_of_nodup_map hsnd hda heb rfl)

end Table

/-! ### A chain with one signer -/

namespace Sample

open FixedBytes

/-- A byte array written as a number. -/
def array (n v : ℕ) : FixedBytes n := setBytes n (bigBytes v)

/-- A signature: two numbers and the recovery byte. -/
def signature (r s : ℕ) (v : UInt8) : FixedBytes 65 :=
  setBytes 65 ((array 32 r).bytes ++ (array 32 s).bytes ++ [v])

/-- An uncompressed public key. -/
def publicKey (x y : ℕ) : FixedBytes 65 :=
  setBytes 65 (4 :: ((array 32 x).bytes ++ (array 32 y).bytes))

/-- The accounts: the only signer, and somebody else. -/
def member : Address := array 20 0x328809bc894f92807417d2dad6b7c998c1afdac6

def outsider : Address := array 20 0x1d96f2f6bef1202e4ce1ff6dad0c2cb002861d3e

/-- The identities of the accounts with the random strings `a` and `b`. -/
def memberHash : AddressHash := array 4 0x2fb07ab8

def outsiderHash : AddressHash := array 4 0x1b1b60c4

/-- The fields that all headers share; the blocks have no transactions and the state is empty. -/
def blank : Header :=
  { parentHash := zero 32
    uncleHash := array 32
      0x1dcc4de8dec75d7aab85b567b6ccd41ad312451b948a7413f0a142fd40d49347
    coinbase := zero 20, coinbaseHash := zero 4
    root := emptyRootHash, txHash := emptyRootHash, receiptHash := emptyRootHash
    bloom := zero 256, difficulty := 1, number := 0, gasLimit := 0, gasUsed := 0
    time := 1000, extra := List.replicate 97 0, mixDigest := zero 32
    nonce := nonceDropVote, extraHash := [], random := [] }

/-- The genesis block, with one signer. -/
def genesis : Header :=
  { blank with extraHash := List.replicate 32 0 ++ memberHash.bytes ++ List.replicate 65 0 }

/-- The hash of the genesis block. -/
def genesisHash : Hash := array 32
  0x184acba995413e7a4387893076a649b243ba27b4cc302f251a2a762ff2150345

/-- A header after the genesis block. -/
def second (coinbaseHash : AddressHash) (nonce : BlockNonce) (random : Bytes)
    (sig : FixedBytes 65) : Header :=
  { blank with
    parentHash := genesisHash, number := 1, difficulty := 2, time := 1015
    coinbaseHash := coinbaseHash, nonce := nonce, random := random
    extra := List.replicate 32 0 ++ sig.bytes }

/-- The seals of the headers below. -/
def addOutsiderSeal : FixedBytes 65 := signature
  0xa60e6fa584e37ee57a8d7118d635df9fb0fed61a947c6d7c9aabd96478416eb7
  0x735957858b7c015fe6935b79ac0bec41e21ae46c0753fab48ce57b0b3194b368 0

def dropMemberSeal : FixedBytes 65 := signature
  0x9314d1f288a158990f53bdcd641df0c49a606246e7bfb8bc5ac25b0bb990c5c8
  0x5ecfdffa0e6fb8606593bcea1331377c7f288dc918b62538ade7a35846b966ef 1

def takeoverSeal : FixedBytes 65 := signature
  0x20f29b77ed313b558f8e4fcafa83ec6c221c298c8edf3c70b9f213fdb83cfc03
  0x759f0938a838ed277abb74eeb35fb3405599278bea07fff7ce1d764857e3ba02 0

def followUpSeal : FixedBytes 65 := signature
  0x74a15f00689ca99149017d453238f22ca9bea21df251298862e4ff996aaad9f6
  0x77af05cbb21507d8b7144216d7b65fdcfd0d37afd4365049f607ce7829ea10a4 0

/-- The signer votes for the outsider. -/
def addOutsider : Header := second outsiderHash nonceAuthVote (ascii "a") addOutsiderSeal

/-- The only signer votes against itself. -/
def dropMember : Header := second memberHash nonceDropVote (ascii "a") dropMemberSeal

/-- The outsider seals with a random string that gives it the identity of the signer. -/
def takeover : Header := second outsiderHash nonceAuthVote (ascii "a3Fmlu") takeoverSeal

/-- The first header with another miner, and the same seal. -/
def otherMiner : Header := { addOutsider with coinbase := outsider }

/-- The hash of the first header. -/
def addOutsiderHash : Hash := array 32
  0xe3886d94aa5cd14a2f7c39793806fb907d0b5de30f737338e8e2417d898051a1

/-- A header after the first one, sealed by the same signer out of turn. -/
def followUp : Header :=
  { blank with
    parentHash := addOutsiderHash, number := 2, time := 1030, random := ascii "a"
    extra := List.replicate 32 0 ++ followUpSeal.bytes }

/-- The public keys of the accounts. -/
def memberKey : FixedBytes 65 := publicKey
  0x5eed5fa3a67696c334762bb4823e585e2ee579aba3558d9955296d6c04541b42
  0x6078dbd48d74af1fd0c72aa1a05147cf17be6b60bdbed6ba19b08ec28445b0ca

def outsiderKey : FixedBytes 65 := publicKey
  0x347746ccb908e583927285fa4bd202f08e2f82f09c920233d89c47c79e48f937
  0xd049130e3d1c14cf7b21afefc057f71da73dec8e8ff74ff47dc6a574ccd5d570

/-- The digests signed in the seals. -/
def addOutsiderDigest : Hash := array 32
  0xd1b2f88ef53828755fd9c44dbc200b7f4b71b221e3dba6d2ce5d45651c14b37f

def followUpDigest : Hash := array 32
  0xacf9172aeef5daa3ae719dc5bfb47b571f54bbcbbb7d772fde75f2302f9880e8

def dropMemberDigest : Hash := array 32
  0x562c3b9c8b3e930583616ea48eca634d6b2a6ec13fadefb241f27f6a626561df

/-- The recorded digests. -/
def digests : List (Bytes × Hash) :=
  [(Rlp.encode (Rlp.Item.list []), blank.uncleHash),
    (Rlp.encode genesis.rlpItem, genesisHash),
    (Rlp.encode addOutsider.rlpItem, addOutsiderHash),
    (Rlp.encode followUp.rlpItem, array 32
      0x7fcbf254e0558f5b9ca3fda4100ee3d1cc29942b6a175674ced27d7b3b6f70d7),
    (Rlp.encode dropMember.rlpItem, array 32
      0x1fe67644fa4642466d4d780bed2ec88371da6d90542b2d64e50016c5cb7f4fa3),
    (Rlp.encode takeover.rlpItem, array 32
      0x7c7230fe5ffdc4bdfcd0830858c7ce06e86d9de01f46653297b2dd57b00058fa),
    (Rlp.encode otherMiner.rlpItem, array 32
      0xab8cc2b847cea2db0041758fb66265e172f51073e1f8a8aab47a30a23ece0154),
    (Rlp.encode (sigItem addOutsider), addOutsiderDigest),
    (Rlp.encode (sigItem followUp), followUpDigest),
    (Rlp.encode (sigItem dropMember), dropMemberDigest),
    (memberKey.bytes.drop 1, array 32
      0xe769f8df756328d7976e542a328809bc894f92807417d2dad6b7c998c1afdac6),
    (outsiderKey.bytes.drop 1, array 32
      0x2fe2c368cc68094afb9667e41d96f2f6bef1202e4ce1ff6dad0c2cb002861d3e)]

/-- The recorded keys.  The header that takes over an identity has the same signed fields as the
first one. -/
def keys : List ((Bytes × Bytes) × FixedBytes 65) :=
  [((addOutsiderDigest.bytes, addOutsiderSeal.bytes), memberKey),
    ((followUpDigest.bytes, followUpSeal.bytes), memberKey),
    ((dropMemberDigest.bytes, dropMemberSeal.bytes), memberKey),
    ((addOutsiderDigest.bytes, takeoverSeal.bytes), outsiderKey)]

/-- The recording. -/
scoped instance crypto : Crypto := tableCrypto digests keys

theorem genesis_hash : genesis.hash = genesisHash := by decide +kernel

/-! ### Snapshots of the chain -/

/-- The default epoch and period. -/
def config : PrometheusConfig := ⟨15, 30000, by decide⟩

/-- A new signature cache. -/
def noSignatures : SigCache := Arc.new 4096

/-- The snapshot of the genesis block. -/
def oneSigner : Historysnap := newHistorysnap 0 genesisHash [memberHash]

/-- A snapshot in which both accounts are signers. -/
def twoSigners : Historysnap := newHistorysnap 0 genesisHash [memberHash, outsiderHash]

/-- The snapshot after the first signer has voted against itself: one of two votes is not enough,
so that the vote stands. -/
def onePending : Historysnap :=
  { number := 1
    hash := array 32
      0x1fe67644fa4642466d4d780bed2ec88371da6d90542b2d64e50016c5cb7f4fa3
    signers := {memberHash, outsiderHash}
    recents := (∅ : Finmap fun _ : UInt64 => AddressHash).insert 1 memberHash
    votes := [⟨memberHash, 1, memberHash, false⟩]
    tally := (∅ : Tallies).insert memberHash ⟨false, 1⟩ }

/-- The snapshot after the only signer has added the outsider. -/
def outsiderAdded : Historysnap :=
  { oneSigner with
    signers := {outsiderHash, memberHash}
    recents := (∅ : Finmap fun _ : UInt64 => AddressHash).insert 1 memberHash }

end Sample
