/-
**Transactions, their hash and their sender.**

A model of `blockchain/types/transaction.go` and `blockchain/types/tx_signer.go`: the fields of a
transaction, the hash it is known by, the hash its sender signs, and the recovery of the sender
with the checks made before it.

A transaction is a decoded one, so its big integers are natural numbers.  What the source caches in
a transaction (its hash, its size and its sender) is computed here.

Main results:

* `mem_txDifference` — what `TxDifference` keeps.
-/

import GoHpb.BlockHeader

/-- A decoded transaction. -/
structure Transaction where
  nonce : UInt64
  price : ℕ
  gasLimit : ℕ
  /-- the recipient; none for the creation of a contract -/
  recipient : Option Address
  amount : ℕ
  payload : Bytes
  v : ℕ
  r : ℕ
  s : ℕ
  deriving DecidableEq

namespace Transaction

/-- The fields that the sender signs. -/
def unsignedItems (tx : Transaction) : List Rlp.Item :=
  [.str (bigBytes tx.nonce.toNat), .str (bigBytes tx.price),
    .str (bigBytes tx.gasLimit),
    .str ((tx.recipient.map FixedBytes.bytes).getD []),
    .str (bigBytes tx.amount), .str tx.payload]

def rlpItem (tx : Transaction) : Rlp.Item :=
  .list (tx.unsignedItems ++
    [.str (bigBytes tx.v), .str (bigBytes tx.r), .str (bigBytes tx.s)])

def hash [Crypto] (tx : Transaction) : Hash := Crypto.keccak256 (Rlp.encode tx.rlpItem)

def size (tx : Transaction) : ℕ := (Rlp.encode tx.rlpItem).length

def cost (tx : Transaction) : ℕ := tx.price * tx.gasLimit + tx.amount

end Transaction

/-! ### Signers -/

/-- The errors of a signer; an error of the recovery is passed on. -/
inductive SignerErr where
  | errInvalidChainId
  | errInvalidSig
  | errInvalidPublicKey
  | errRecover (err : Err)
  deriving DecidableEq

/-- A signer for one chain. -/
structure BoeSigner where
  chainId : ℕ
  deriving DecidableEq

/-- `deriveChainId`; below `2 ^ 64` the subtraction wraps around. -/
def deriveChainId (v : ℕ) : ℕ :=
  if v < 2 ^ 64 then
    if v = 27 ∨ v = 28 then 0 else ((UInt64.ofNat v - 35) / 2).toNat
  else (v - 35) / 2

/-- The order of the curve. -/
def secp256k1N : ℕ := 0xfffffffffffffffffffffffffffffffebaaedce6af48a03bbfd25e8cd0364141

def validateSignatureValues (v : UInt8) (r s : ℕ) (homestead : Bool) : Bool :=
  if r < 1 ∨ s < 1 then false
  else if homestead ∧ secp256k1N / 2 < s then false
  else r < secp256k1N ∧ s < secp256k1N ∧ (v = 0 ∨ v = 1)

section Sender

variable [Crypto]

def recoverPlain (sighash : Hash) (r s : ℕ) (vb : ℤ) : Except SignerErr Address :=
  if 8 < vb.natAbs.size then .error .errInvalidSig
  else
    let v := (UInt64.ofNat vb.natAbs - 27).toUInt8
    if validateSignatureValues v r s true = false then .error .errInvalidSig
    else
      let sig := (FixedBytes.setBytes 32 (bigBytes r)).bytes ++
        (FixedBytes.setBytes 32 (bigBytes s)).bytes ++ [v]
      match recoverPubkey sighash.bytes sig with
      | .error err => .error (.errRecover err)
      | .ok pub =>
        if pub.bytes.head? ≠ some 4 then .error .errInvalidPublicKey
        else .ok (pubkeyAddress pub)

namespace BoeSigner

/-- `Hash`: what the sender signs. -/
def hash (signer : BoeSigner) (tx : Transaction) : Hash :=
  Crypto.keccak256 (Rlp.encode (.list (tx.unsignedItems ++
    [.str (bigBytes signer.chainId), .str [], .str []])))

def sender (signer : BoeSigner) (tx : Transaction) : Except SignerErr Address :=
  if deriveChainId tx.v ≠ signer.chainId then .error .errInvalidChainId
  else recoverPlain (signer.hash tx) tx.r tx.s (tx.v - 2 * signer.chainId - 8)

end BoeSigner

/-- `TxDifference`: the transactions of `a` whose hash is not that of a transaction of `b`. -/
def txDifference (a b : List Transaction) : List Transaction :=
  a.filter fun tx => tx.hash ∉ b.map Transaction.hash

theorem mem_txDifference {a b : List Transaction} {tx : Transaction} :
    tx ∈ txDifference a b ↔ tx ∈ a ∧ ∀ k ∈ b, k.hash ≠ tx.hash := by
  simp [txDifference]

end Sender
