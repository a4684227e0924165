/-
**Signing a transaction and finding its sender.**

A model of `SignTx`, `WithSignature` and `Sender` of `blockchain/types`, over the signers and the
recovery of `Transaction.lean`.  The chain id of a signature is folded into its number V by
`SignatureValues`, taken out again by `deriveChainId`, and a third formula turns V into the
recovery byte.  The sender of a transaction is cached together with the signer that found it; the
cache also serves a signer of the RPC client, which only repeats what a server has said.

The library that signs is a parameter (`Signing`).  What the wrapper promises about it is stated
as `Signing.Format` (V is 0 or 1) and `Signing.Recovers` (the signature is in the lower range and
recovers the key that made it).

Main results:

* `sender_signTx_iff` — **a signed transaction gives back the signer exactly if the chain id is not
  zero**;
* `sender_chain_exclusive` — **a signer accepts no V of another chain**.
-/

import GoHpb.Transaction
import GoHpb.RlpStream
import GoHpb.CryptoTable

open BoeSigner Rlp FixedBytes List
open Sample (array member memberKey outsider)

/-! ### Numbers with a fixed width -/

theorem beNat_replicate_append (k : ℕ) (b : Bytes) :
    beNat (replicate k 0 ++ b) = beNat b := by
  have hrev : (replicate k (0 : UInt8) ++ b).reverse.map UInt8.toNat =
      b.reverse.map UInt8.toNat ++ replicate k 0 := by simp
  rw [beNat, hrev, Nat.ofDigits_append_replicate_zero, beNat]

theorem beNat_inj_of_length {a b : Bytes} (hlen : a.length = b.length)
    (h : beNat a = beNat b) : a = b := by
  have hdigits : ∀ (l : Bytes), ∀ d ∈ l.reverse.map UInt8.toNat, d < 256 := by
    intro l d hd
    obtain ⟨c, -, rfl⟩ := mem_map.1 hd
    exact UInt8.toNat_lt c
  have heq := Nat.ofDigits_inj_of_len_eq (by norm_num) (by simp [hlen]) (hdigits a) (hdigits b) h
  have hinj : Function.Injective (map UInt8.toNat) :=
    map_injective_iff.2 fun x y hxy => UInt8.toNat_inj.1 hxy
  exact reverse_injective (hinj heq)

theorem beNat_setBytes {n m : ℕ} (h : m < 256 ^ n) :
    beNat (setBytes n (bigBytes m)).bytes = m := by
  have hbytes : (setBytes n (bigBytes m)).bytes =
      replicate (n - (bigBytes m).length) 0 ++ bigBytes m := by
    simp [setBytes, Nat.sub_eq_zero_of_le (length_bigBytes_le h)]
  rw [hbytes, beNat_replicate_append, beNat_bigBytes]

/-- **An array is recovered from its number**, whatever its leading zeros. -/
theorem setBytes_beNat {n : ℕ} (a : FixedBytes n) :
    setBytes n (bigBytes (beNat a.bytes)) = a := by
  apply bytes_injective
  refine beNat_inj_of_length (by simp) ?_
  exact beNat_setBytes (beNat_lt (by simp))

/-! ### Signing -/

/-- The library that signs a digest with a key; none is an error. -/
structure Signing (Key : Type) where
  sign : Hash → Key → Option Bytes
  publicKey : Key → FixedBytes 65

/-- The format of the signatures: V is 0 or 1. -/
def Signing.Format {Key : Type} (lib : Signing Key) : Prop :=
  ∀ (hash : Hash) (key : Key) (sig : Bytes), lib.sign hash key = some sig →
    sig.getD 64 0 = 0 ∨ sig.getD 64 0 = 1

/-- The key signs the digest with numbers in the lower range, and the signature recovers the
public key. -/
def Signing.Recovers [Crypto] {Key : Type} (lib : Signing Key) (key : Key) (hash : Hash) : Prop :=
  ∃ (r s : FixedBytes 32) (v : UInt8),
    lib.sign hash key = some (r.bytes ++ s.bytes ++ [v]) ∧ (v = 0 ∨ v = 1) ∧
      (1 ≤ beNat r.bytes ∧ beNat r.bytes < secp256k1N) ∧
      (1 ≤ beNat s.bytes ∧ beNat s.bytes ≤ secp256k1N / 2) ∧
      recoverPubkey hash.bytes (r.bytes ++ s.bytes ++ [v]) = .ok (lib.publicKey key) ∧
      (lib.publicKey key).bytes.head? = some 4

/-- `NewBoeSigner`; without a chain id it is zero. -/
def newBoeSigner (chainId : Option ℕ) : BoeSigner := ⟨chainId.getD 0⟩

/-- `SignatureValues`: the numbers R, S and V; none is the panic on a signature of the wrong
size.  The sums with the last byte are sums of bytes. -/
def BoeSigner.signatureValues (signer : BoeSigner) (sig : Bytes) : Option (ℕ × ℕ × ℕ) :=
  if sig.length ≠ 65 then none
  else
    let last := sig.getD 64 0
    some (beNat (sig.take 32), beNat ((sig.drop 32).take 32),
      if signer.chainId ≠ 0 then (last + 35).toNat + 2 * signer.chainId else (last + 27).toNat)

/-- The signers: that of a chain, and that of the RPC client, which repeats what a server said
about the transactions of a block. -/
inductive Signer where
  | boe (signer : BoeSigner)
  | senderFromServer (addr : Address) (blockhash : Hash)
  deriving DecidableEq

/-- The cached sender, with the signer that found it. -/
structure SenderCache where
  signer : Signer
  addr : Address

/-- A transaction in memory: its fields, and the cache for its sender. -/
structure TransactionObject where
  data : Transaction
  cache : Option SenderCache

/-- The errors of `SignTx`; the second one is a run-time panic. -/
inductive SignErr where
  | errSign
  | panicSignatureSize
  deriving DecidableEq

/-- `WithSignature`: a copy with the numbers of the signature, and with an empty cache. -/
def TransactionObject.withSignature (obj : TransactionObject) (signer : BoeSigner) (sig : Bytes) :
    Except SignErr TransactionObject :=
  match signer.signatureValues sig with
  | none => .error .panicSignatureSize
  | some (r, s, v) => .ok ⟨{ obj.data with r := r, s := s, v := v }, none⟩

section Senders

variable [Crypto]

def signTx {Key : Type} (lib : Signing Key) (obj : TransactionObject) (signer : BoeSigner)
    (key : Key) : Except SignErr TransactionObject :=
  match lib.sign (signer.hash obj.data) key with
  | none => .error .errSign
  | some sig => obj.withSignature signer sig

/-! ### The cached sender -/

namespace Signer

def equal : Signer → Signer → Bool
  | boe a, boe b => a.chainId = b.chainId
  | senderFromServer _ a, senderFromServer _ b => a = b
  | _, _ => false

/-- The method `Sender` of a signer; the second signer has an error of its own if nothing is
cached. -/
def sender : Signer → Transaction → Except (Option SignerErr) Address
  | boe signer, tx => (signer.sender tx).mapError some
  | senderFromServer addr blockhash, _ =>
    if blockhash = zero 32 then .error none else .ok addr

/-- The function `Sender`: the cached sender if it was found by an equal signer. -/
def senderOf (signer : Signer) (obj : TransactionObject) :
    Except (Option SignerErr) Address × TransactionObject :=
  let derived :=
    match signer.sender obj.data with
    | .error err => (.error err, obj)
    | .ok addr => (.ok addr, { obj with cache := some ⟨signer, addr⟩ })
  match obj.cache with
  | some sc => if sc.signer.equal signer then (.ok sc.addr, obj) else derived
  | none => derived

end Signer

/-- The transaction after `Sender` was called with some signers. -/
def senderCalls (obj : TransactionObject) (signers : List Signer) : TransactionObject :=
  signers.foldl (fun o signer => (signer.senderOf o).2) obj

/-- The cache of a transaction holds what the signer of a chain would find. -/
def CacheOk (obj : TransactionObject) : Prop :=
  ∀ (signer : BoeSigner) (addr : Address), obj.cache = some ⟨.boe signer, addr⟩ →
    signer.sender obj.data = .ok addr

omit [Crypto] in
theorem boe_equal_iff {a : Signer} {b : BoeSigner} : a.equal (.boe b) = true ↔ a = .boe b := by
  cases a with
  | boe a =>
    obtain ⟨a⟩ := a
    obtain ⟨b⟩ := b
    simp [Signer.equal]
  | senderFromServer addr blockhash => simp [Signer.equal]

theorem data_senderOf (signer : Signer) (obj : TransactionObject) :
    (signer.senderOf obj).2.data = obj.data := by
  unfold Signer.senderOf
  cases signer.sender obj.data <;> cases obj.cache <;> simp only [] <;> split_ifs <;> rfl

theorem cache_senderOf (signer : Signer) (obj : TransactionObject) :
    (signer.senderOf obj).2.cache = obj.cache ∨ ∃ addr, signer.sender obj.data = .ok addr ∧
        (signer.senderOf obj).2.cache = some ⟨signer, addr⟩ := by
  unfold Signer.senderOf
  cases hsender : signer.sender obj.data with
  | error err =>
    left
    cases hcache : obj.cache with
    | none => exact hcache
    | some sc => simp only []; split_ifs <;> exact hcache
  | ok addr =>
    cases hcache : obj.cache with
    | none => exact .inr ⟨addr, rfl, rfl⟩
    | some sc =>
      by_cases hequal : sc.signer.equal signer = true
      · left
        simp [hequal, hcache]
      · right
        exact ⟨addr, rfl, by simp [hequal]⟩

variable {signer : BoeSigner} {obj : TransactionObject} {r s : FixedBytes 32} {tx : Transaction}
  {v : UInt8} {addr : Address}

theorem boe_sender_ok :
    (Signer.boe signer).sender tx = .ok addr ↔ signer.sender tx = .ok addr := by
  cases hsender : signer.sender tx <;> simp [Signer.sender, hsender, Except.mapError]

theorem CacheOk.senderOf (h : CacheOk obj) (signer : Signer) : CacheOk (signer.senderOf obj).2 := by
  intro boe addr hcache
  rw [data_senderOf]
  rcases cache_senderOf signer obj with hsame | ⟨found, hfound, hnew⟩
  · exact h boe addr (hsame ▸ hcache)
  rw [hnew, Option.some.injEq, SenderCache.mk.injEq] at hcache
  obtain ⟨rfl, rfl⟩ := hcache
  exact boe_sender_ok.1 hfound

/-- **Any number of calls keep the cache right.** -/
theorem CacheOk.senderCalls (h : CacheOk obj) (signers : List Signer) :
    CacheOk (senderCalls obj signers) := by
  induction signers generalizing obj with
  | nil => exact h
  | cons signer signers ih => exact ih (h.senderOf signer)

theorem data_senderCalls (obj : TransactionObject) (signers : List Signer) :
    (senderCalls obj signers).data = obj.data := by
  induction signers generalizing obj with
  | nil => rfl
  | cons signer signers ih => exact (ih _).trans (data_senderOf signer obj)

theorem CacheOk.senderOf_fst (h : CacheOk obj) (signer : BoeSigner) :
    ((Signer.boe signer).senderOf obj).1 = (signer.sender obj.data).mapError some := by
  unfold Signer.senderOf
  have hderived : (Signer.boe signer).sender obj.data = (signer.sender obj.data).mapError some :=
    rfl
  cases hcache : obj.cache with
  | none =>
    rw [hderived]
    cases signer.sender obj.data <;> rfl
  | some sc =>
    obtain ⟨cached, addr⟩ := sc
    by_cases hequal : cached.equal (.boe signer) = true
    · obtain rfl := boe_equal_iff.1 hequal
      simp [hequal, h signer addr hcache, Except.mapError]
    · rw [hderived]
      cases signer.sender obj.data <;> simp [hequal, Except.mapError]

/-! ### The number V -/

omit [Crypto] in
theorem toNat_ofNat_sub {m : ℕ} (n : UInt64) (hm : m < 2 ^ 64) :
    (.ofNat m - n).toNat = (m + 2 ^ 64 - n.toNat) % 2 ^ 64 := by
  have hmod : (UInt64.ofNat m).toNat = m := UInt64.toNat_ofNat_of_lt' hm
  have hn := UInt64.toNat_lt n
  rw [UInt64.toNat_sub, hmod]
  omega

omit [Crypto] in
/-- **The numbers V of a chain id**: the two unprotected ones, the two of the chain, and those
below 35, which wrap around to a chain id of about `2 ^ 63`. -/
theorem deriveChainId_cases (v : ℕ) : (deriveChainId v = 0 ∧ (v = 27 ∨ v = 28)) ∨
      (v = 2 * deriveChainId v + 35 ∨ v = 2 * deriveChainId v + 36) ∨
      (v < 35 ∧ v ≠ 27 ∧ v ≠ 28) ∧ 2 ^ 62 ≤ deriveChainId v := by
  unfold deriveChainId
  split_ifs with hsmall hplain
  · exact .inl ⟨rfl, hplain⟩
  · right
    have hvalue : ((UInt64.ofNat v - 35) / 2).toNat = (v + 2 ^ 64 - 35) % 2 ^ 64 / 2 := by
      rw [UInt64.toNat_div, toNat_ofNat_sub 35 hsmall]
      rfl
    omega
  · right
    left
    omega

omit [Crypto] in
theorem validateSignatureValues_last {r s : ℕ} {homestead : Bool}
    (h : validateSignatureValues v r s homestead = true) : v = 0 ∨ v = 1 := by
  unfold validateSignatureValues at h
  split_ifs at h
  exact (of_decide_eq_true h).2.2

/-- **What `recoverPlain` accepts**: up to its sign, the number is 27 or 28. -/
theorem recoverPlain_ok {sighash : Hash} {r s : ℕ} {vb : ℤ}
    (h : recoverPlain sighash r s vb = .ok addr) : vb.natAbs = 27 ∨ vb.natAbs = 28 := by
  unfold recoverPlain at h
  dsimp only at h
  split_ifs at h with hsize hvalid
  have hlt : vb.natAbs < 2 ^ 8 := Nat.size_le.1 (not_lt.1 hsize)
  have hvalue : (UInt64.ofNat vb.natAbs - 27).toUInt8.toNat =
      (vb.natAbs + 2 ^ 64 - 27) % 2 ^ 64 % 256 := by
    rw [UInt64.toNat_toUInt8, toNat_ofNat_sub 27 (lt_trans hlt (by norm_num))]
    rfl
  rcases validateSignatureValues_last (Bool.eq_true_of_not_eq_false hvalid) with hlast | hlast
  · rw [hlast, UInt8.toNat_zero] at hvalue
    omega
  · rw [hlast, UInt8.toNat_one] at hvalue
    omega

theorem BoeSigner.v_of_sender (h : signer.sender tx = .ok addr) :
    tx.v = 2 * signer.chainId + 35 ∨ tx.v = 2 * signer.chainId + 36 := by
  unfold sender at h
  split_ifs at h with hchain
  have habs := recoverPlain_ok h
  have hcases := deriveChainId_cases tx.v
  omega

/-! ### Signed transactions -/

omit [Crypto] in
theorem signatureValues_v {sig : Bytes} {r s v : ℕ}
    (h : signer.signatureValues sig = some (r, s, v))
    (hlast : sig.getD 64 0 = 0 ∨ sig.getD 64 0 = 1) :
    (signer.chainId = 0 ∧ v = 27 + (sig.getD 64 0).toNat) ∨
      signer.chainId ≠ 0 ∧ v = 2 * signer.chainId + 35 + (sig.getD 64 0).toNat := by
  unfold signatureValues at h
  split_ifs at h with hlen hchain
  · right
    simp only [Option.some.injEq, Prod.mk.injEq] at h
    have hbyte : (sig.getD 64 0 + 35).toNat = (sig.getD 64 0).toNat + 35 := by
      rcases hlast with hlast | hlast <;> rw [hlast] <;> rfl
    omega
  · left
    simp only [Option.some.injEq, Prod.mk.injEq] at h
    have hbyte : (sig.getD 64 0 + 27).toNat = (sig.getD 64 0).toNat + 27 := by
      rcases hlast with hlast | hlast <;> rw [hlast] <;> rfl
    omega

omit [Crypto] in
theorem deriveChainId_signatureValues {sig : Bytes} {r s v : ℕ}
    (h : signer.signatureValues sig = some (r, s, v))
    (hlast : sig.getD 64 0 = 0 ∨ sig.getD 64 0 = 1) : deriveChainId v = signer.chainId := by
  have hv := signatureValues_v h hlast
  have hcases := deriveChainId_cases v
  have hbyte : (sig.getD 64 0).toNat = 0 ∨ (sig.getD 64 0).toNat = 1 := by
    rcases hlast with hlast | hlast <;> rw [hlast] <;> simp
  omega

theorem recoverPlain_of_recovers {hash : Hash} {pub : FixedBytes 65} (hv : v = 0 ∨ v = 1)
    (hr : 1 ≤ beNat r.bytes ∧ beNat r.bytes < secp256k1N)
    (hs : 1 ≤ beNat s.bytes ∧ beNat s.bytes ≤ secp256k1N / 2)
    (hrec : recoverPubkey hash.bytes (r.bytes ++ s.bytes ++ [v]) = .ok pub)
    (hpub : pub.bytes.head? = some 4) :
    recoverPlain hash (beNat r.bytes) (beNat s.bytes) (27 + v.toNat) =
      .ok (pubkeyAddress pub) := by
  have hbyte : (UInt64.ofNat (27 + (v.toNat : ℤ)).natAbs - 27).toUInt8 = v := by
    rcases hv with rfl | rfl <;> rfl
  have hsize : ¬ 8 < (27 + (v.toNat : ℤ)).natAbs.size := by
    rcases hv with rfl | rfl <;> decide
  have hvalid : validateSignatureValues v (beNat r.bytes) (beNat s.bytes) true = true := by
    have hhalf : secp256k1N / 2 < secp256k1N := by decide
    have hsN : beNat s.bytes < secp256k1N := lt_of_le_of_lt hs.2 hhalf
    unfold validateSignatureValues
    rw [if_neg (by omega), if_neg (by simp [hs.2])]
    simp [hr.2, hsN, hv]
  unfold recoverPlain
  rw [if_neg hsize]
  simp only [hbyte, hvalid, Bool.true_eq_false, if_false, setBytes_beNat, hrec, hpub, ne_eq,
    not_true_eq_false]

theorem signTx_eq {Key : Type} {lib : Signing Key} {key : Key}
    (hsign : lib.sign (signer.hash obj.data) key = some (r.bytes ++ s.bytes ++ [v])) :
    signTx lib obj signer key = .ok ⟨{ obj.data with
      r := beNat r.bytes, s := beNat s.bytes,
      v := if signer.chainId ≠ 0 then (v + 35).toNat + 2 * signer.chainId
        else (v + 27).toNat }, none⟩ := by
  have hlast : (r.bytes ++ s.bytes ++ [v]).getD 64 0 = v := by
    simp
  have htake : (r.bytes ++ s.bytes ++ [v]).take 32 = r.bytes := by
    rw [append_assoc]
    exact take_left' (by simp)
  have hdrop : ((r.bytes ++ s.bytes ++ [v]).drop 32).take 32 = s.bytes := by
    rw [append_assoc, drop_left' (by simp)]
    exact take_left' (by simp)
  have hvalues : signer.signatureValues (r.bytes ++ s.bytes ++ [v]) =
      some (beNat r.bytes, beNat s.bytes,
        if signer.chainId ≠ 0 then (v + 35).toNat + 2 * signer.chainId else (v + 27).toNat) := by
    unfold signatureValues
    rw [if_neg (by simp)]
    simp only [hlast, htake, hdrop]
  unfold signTx
  simp only [hsign, TransactionObject.withSignature, hvalues]

/-- A key that signs as promised is found again behind the protected numbers V. -/
theorem BoeSigner.sender_signed {Key : Type} {lib : Signing Key} {key : Key} (hv : v = 0 ∨ v = 1)
    (hr : 1 ≤ beNat r.bytes ∧ beNat r.bytes < secp256k1N)
    (hs : 1 ≤ beNat s.bytes ∧ beNat s.bytes ≤ secp256k1N / 2)
    (hrec : recoverPubkey (signer.hash tx).bytes (r.bytes ++ s.bytes ++ [v]) =
      .ok (lib.publicKey key)) (hpub : (lib.publicKey key).bytes.head? = some 4) :
    signer.sender { tx with
      r := beNat r.bytes, s := beNat s.bytes,
      v := (v + 35).toNat + 2 * signer.chainId } =
      .ok (pubkeyAddress (lib.publicKey key)) := by
  have hbyte : (v + 35).toNat = v.toNat + 35 := by
    rcases hv with rfl | rfl <;> rfl
  have hbit : v.toNat = 0 ∨ v.toNat = 1 := by
    rcases hv with rfl | rfl <;> simp
  have hderive : deriveChainId ((v + 35).toNat + 2 * signer.chainId) = signer.chainId := by
    have hcases := deriveChainId_cases ((v + 35).toNat + 2 * signer.chainId)
    omega
  unfold sender
  rw [if_neg (not_not.2 hderive)]
  have hvb : (((v + 35).toNat + 2 * signer.chainId : ℕ) : ℤ) - 2 * signer.chainId - 8 =
      27 + v.toNat := by
    rw [hbyte]
    push_cast
    ring
  rw [hvb]
  exact recoverPlain_of_recovers hv hr hs hrec hpub

/-- **Signing and recovery agree exactly if the chain id is not zero.**  The transaction may have
any sender cached before it is signed, and `Sender` may be called with any signers before the call
in question. -/
theorem sender_signTx_iff {Key : Type} (lib : Signing Key) (key : Key) (obj : TransactionObject)
    (chainId : ℕ) (hlib : lib.Recovers key ((newBoeSigner (some chainId)).hash obj.data)) :
    (∃ signed, signTx lib obj (newBoeSigner (some chainId)) key = .ok signed ∧
      ∀ signers : List Signer,
        ((Signer.boe (newBoeSigner (some chainId))).senderOf (senderCalls signed signers)).1 =
          .ok (pubkeyAddress (lib.publicKey key))) ↔ chainId ≠ 0 := by
  obtain ⟨r, s, v, hsign, hv, hr, hs, hrec, hpub⟩ := hlib
  have hsigned := signTx_eq hsign
  constructor
  · rintro ⟨signed, hok, hcalls⟩ rfl
    -- already without earlier calls, V is 27 or 28 and is refused
    obtain rfl := Except.ok.inj (hsigned.symm.trans hok)
    have hfirst := hcalls []
    rw [CacheOk.senderOf_fst (fun _ _ h => by cases h)] at hfirst
    have hsender := boe_sender_ok.1 hfirst
    have hV := v_of_sender hsender
    rcases hv with rfl | rfl <;> simp [senderCalls, newBoeSigner] at hV
  · intro hchain
    refine ⟨_, hsigned, fun signers => ?_⟩
    rw [CacheOk.senderOf_fst (CacheOk.senderCalls (fun _ _ h => by cases h) signers),
      data_senderCalls, if_pos (show (newBoeSigner (some chainId)).chainId ≠ 0 from hchain)]
    exact congrArg (Except.mapError some) (sender_signed hv hr hs hrec hpub)

/-- **Replay protection.**  A transaction signed for one chain is refused by the signer of every
other one, and a signer finds a sender for no V but the two of its chain. -/
theorem sender_chain_exclusive {Key : Type} (lib : Signing Key) (hlib : lib.Format) :
    (∀ c₁ c₂ : ℕ, c₁ ≠ c₂ → ∀ (obj signed : TransactionObject) (key : Key),
      signTx lib obj (newBoeSigner (some c₁)) key = .ok signed →
        (newBoeSigner (some c₂)).sender signed.data = .error SignerErr.errInvalidChainId) ∧
      ∀ (c : ℕ) (tx : Transaction) (addr : Address),
        (newBoeSigner (some c)).sender tx = .ok addr →
          tx.v = 2 * c + 35 ∨ tx.v = 2 * c + 36 := by
  refine ⟨fun c₁ c₂ hne obj signed key hsigned => ?_, fun c tx addr h => v_of_sender h⟩
  unfold signTx at hsigned
  cases hsig : lib.sign ((newBoeSigner (some c₁)).hash obj.data) key with
  | none => simp [hsig] at hsigned
  | some sig =>
    simp only [hsig, TransactionObject.withSignature] at hsigned
    cases hvalues : (newBoeSigner (some c₁)).signatureValues sig with
    | none => simp [hvalues] at hsigned
    | some numbers =>
      simp only [hvalues, Except.ok.injEq] at hsigned
      subst hsigned
      have hderive := deriveChainId_signatureValues hvalues (hlib _ key sig hsig)
      unfold sender
      rw [if_pos]
      rw [hderive]
      exact hne

end Senders

/-! ### A recorded signature -/

namespace Signed

/-- A payment that is not signed yet. -/
def payment : TransactionObject :=
  ⟨{ nonce := 3, price := 2, gasLimit := 21000, recipient := some outsider, amount := 9
     payload := [], v := 0, r := 0, s := 0 }, none⟩

/-- The digests that are signed on the chains with the ids zero and seven. -/
def digestZero : Hash := array 32
  0xa9181de121dd0a4b1ed52c718f52b1497c3830cd2191bd206ab8c86d523024b3

def digestSeven : Hash := array 32
  0x18f0d37d9e2de657c82ed319a5d7c771014995c0d3bdea30b06a26d4f14ad7f4

/-- The numbers of the two signatures. -/
def rZero : FixedBytes 32 := array 32
  0x6536b9f4e82b7d0f8652e3e683e58463b89df1f69a0971c091ba1584fb32639c

def sZero : FixedBytes 32 := array 32
  0x2c88e83efa6dbfdff2909d4a434614636000397d53556feb63841e410f7a7625

def rSeven : FixedBytes 32 := array 32
  0xe45e29e15770bba65819f905b93543dee53de41330f270c5ef4f0fff6b9fe5ab

def sSeven : FixedBytes 32 := array 32
  0x38007d97f7b9200da7eb3659ce652c9d45f2f8a0cbb247efa3f9f2084bc491fc

/-- What is signed for a chain. -/
def preimage (chainId : ℕ) : Bytes :=
  encode (.list (payment.data.unsignedItems ++
    [.str (bigBytes chainId), .str [], .str []]))

scoped instance crypto : Crypto := tableCrypto
  [(preimage 0, digestZero), (preimage 7, digestSeven),
    (memberKey.bytes.drop 1, array 32
      0xe769f8df756328d7976e542a328809bc894f92807417d2dad6b7c998c1afdac6)]
  [((digestZero.bytes, rZero.bytes ++ sZero.bytes ++ [0]), memberKey),
    ((digestSeven.bytes, rSeven.bytes ++ sSeven.bytes ++ [1]), memberKey)]

/-- The recorded signatures of one key. -/
def lib : Signing Unit where
  sign hash _ :=
    if hash = digestZero then some (rZero.bytes ++ sZero.bytes ++ [0])
    else if hash = digestSeven then some (rSeven.bytes ++ sSeven.bytes ++ [1])
    else none
  publicKey _ := memberKey

theorem format_lib : lib.Format := by
  intro hash key sig hsig
  simp only [lib] at hsig
  split_ifs at hsig
  · left
    rw [← Option.some.inj hsig]
    decide
  · right
    rw [← Option.some.inj hsig]
    decide

end Signed

open Signed in
/-- On the chain with the id zero, the transaction that was just signed has no sender. -/
theorem sender_signTx_zero : (match signTx lib payment (newBoeSigner (some 0)) () with
      | .ok signed => ((Signer.boe (newBoeSigner (some 0))).senderOf signed).1
      | .error _ => .ok member) =
      .error (some SignerErr.errInvalidSig) := by
  decide

open Signed in
/-- On the chain with the id seven it has the sender that signed it. -/
theorem sender_signTx_seven :
    ∃ signed, signTx lib payment (newBoeSigner (some 7)) () = .ok signed ∧
      ∀ signers : List Signer,
        ((Signer.boe (newBoeSigner (some 7))).senderOf (senderCalls signed signers)).1 =
          .ok (pubkeyAddress memberKey) :=
  (sender_signTx_iff lib () payment 7
    ⟨rSeven, sSeven, 1, by decide, .inr rfl, by decide,
      by decide, by decide, by decide⟩).2 (by decide)

open Signed in
/-- The transaction signed for the chain seven is refused on the chain eight. -/
theorem sender_chain_exclusive_seven :
    ∃ signed, signTx lib payment (newBoeSigner (some 7)) () = .ok signed ∧
      (newBoeSigner (some 8)).sender signed.data = .error SignerErr.errInvalidChainId :=
  have hsigned : signTx lib payment (newBoeSigner (some 7)) () =
      .ok ⟨{ payment.data with
        r := beNat rSeven.bytes, s := beNat sSeven.bytes, v := 50 }, none⟩ :=
    (signTx_eq (r := rSeven) (s := sSeven) (v := 1)
      (show lib.sign _ () = _ by decide)).trans rfl
  ⟨_, hsigned, (sender_chain_exclusive lib format_lib).1 7 8 (by decide)
    payment _ () hsigned⟩
