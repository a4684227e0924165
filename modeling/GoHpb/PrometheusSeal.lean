/-
**Preparing and sealing a block.**

`Prometheus.prepare` fills in the fields of a header that the engine is responsible for, `finalize`
those that follow from the transactions, and `Prometheus.sealBlock` signs the result.  Every check
of `Prometheus.verifyHeader` has its counterpart here, and they match with one exception.  The time
of a new block is the time of its parent plus the period, but at least the current time; the
comparison reads the sum as a *signed* 64-bit integer, while the verification reads it as an
unsigned one.  A sum of `2 ^ 63` or more counts as negative, the current time is taken, and the
header is rejected.

What the worker and the transaction layer contribute is data: the header it starts from, the roots
and the bloom filter of the block.  The order in which Go iterates over the proposals and the random
choice among them are an index.

Main results:

* `Prometheus.verifyHeader_eq_verdict` — **the verdict does not depend on the caches**;
* `Prometheus.verifyHeader_produced` — **what is produced is accepted, except for that**.
-/

import GoHpb.PrometheusSnapshot

open FailState List Prometheus FixedBytes

/-! ### Preparing a header -/

/-- The random string of this node: the configured one, or else one derived from the hardware. -/
def getUniqueRandom (chain : ChainReader) (hardware : Bytes) : Bytes :=
  if chain.getRandom = [] then hardware else chain.getRandom

/-- The proposals that make sense. -/
def validProposals (proposals : Finmap fun _ : AddressHash => Bool) (snap : Historysnap) :
    List AddressHash :=
  (sortedKeys proposals.keys).filter fun address =>
    (proposals.lookup address).any fun authorize => snap.validVote address authorize

/-- One of the proposals that make sense, if there are any. -/
def pickProposal (proposals : Finmap fun _ : AddressHash => Bool) (snap : Historysnap)
    (rand : ℕ) : Option (AddressHash × Bool) :=
  let addresses := validProposals proposals snap
  addresses[rand % addresses.length]?.map fun address =>
    (address, (proposals.lookup address).getD false)

/-- The nonce of a vote; a block without a vote has the one for dropping. -/
def voteNonce : Option (AddressHash × Bool) → BlockNonce
  | some (_, true) => nonceAuthVote
  | some (_, false) => nonceDropVote
  | none => zero 8

theorem voteNonce_none : voteNonce none = nonceDropVote := by decide

/-- The identity a vote is about. -/
def voteTarget : Option (AddressHash × Bool) → AddressHash
  | some (address, _) => address
  | none => zero 4

/-- The extra data before the seal: the vanity, cut or padded to its length, and at a checkpoint the
signers. -/
def prepareVanity (config : PrometheusConfig) (snap : Historysnap) (header : Header) : Bytes :=
  (header.extra ++ List.replicate (extraVanity - header.extra.length) 0).take extraVanity ++
    if config.checkpoint header.number64 then signersBytes snap else []

/-- The extra data, with room for the seal. -/
def prepareExtra (config : PrometheusConfig) (snap : Historysnap) (header : Header) : Bytes :=
  prepareVanity config snap header ++ List.replicate extraSeal 0

/-- What `Int64()` reads: the low 64 bits as a signed integer. -/
def int64 (n : ℕ) : ℤ := Int.bmod n (2 ^ 64)

/-- The time of a new block: a period after its parent, but not in the past. -/
def prepareTime (config : PrometheusConfig) (now : UnixTime) (parent : Header) : ℕ :=
  if int64 (parent.time + config.period.toNat) < now.val then now.val
  else parent.time + config.period.toNat

/-- The header with the fields the engine is responsible for. -/
def preparedHeader (config : PrometheusConfig) (now : UnixTime) (random : Bytes)
    (snap : Historysnap) (vote : Option (AddressHash × Bool)) (inturn : Bool) (parent : Header)
    (header : Header) : Header :=
  { header with
    coinbaseHash := voteTarget vote
    nonce := voteNonce vote
    random := random
    difficulty := if inturn then diffInTurn else diffNoTurn
    extra := prepareExtra config snap header
    mixDigest := zero 32
    time := prepareTime config now parent }

/-! ### Completing it -/

/-- What follows from executing the transactions of a block: the state root, and the roots of the
transactions and receipts with the bloom filter, which are used if there are any. -/
structure BlockContent where
  root : Hash
  transactions : ℕ
  transactionsRoot : Hash
  receipts : ℕ
  receiptsRoot : Hash
  receiptsBloom : Bloom

/-- The header of a new block without uncles. -/
def newBlock [Crypto] (header : Header) (content : BlockContent) : Header :=
  { header with
    txHash := if content.transactions = 0 then emptyRootHash else content.transactionsRoot
    receiptHash := if content.receipts = 0 then emptyRootHash else content.receiptsRoot
    bloom := if content.receipts = 0 then header.bloom else content.receiptsBloom
    uncleHash := emptyUncleHash }

/-- Completing a header with what follows from the transactions. -/
def finalize [Crypto] (header : Header) (content : BlockContent) : Header :=
  newBlock { header with root := content.root, uncleHash := emptyUncleHash } content

/-! ### Sealing it -/

/-- The unit of the delays of sealers out of turn, in nanoseconds. -/
def wiggleTime : Int64 := 500000000

/-- The additional delay of a sealer out of turn. -/
def outOfTurnDelay (snap : Historysnap) (number : UInt64) (signerHash : AddressHash) :
    Except Err Int64 :=
  if snap.signers.card = 0 then .error .panicDivide
  else
    let half := .ofNat (snap.signers.card / 2)
    let currentIndex := number % .ofNat snap.signers.card
    let offset := snap.getOffset signerHash
    let wiggle := Int64.ofNat (snap.signers.card / 2 + 1) * wiggleTime
    let near := if currentIndex ≤ half then offset - currentIndex ≤ half
      else offset + half ≤ currentIndex
    .ok (if near then 1000 * wiggleTime else (offset - currentIndex - half).toInt64 * wiggle)

/-- Whether an account may seal a block, and how long it waits in addition to the time of the
block. -/
def sealDelay (snap : Historysnap) (header : Header) (signerHash : AddressHash) :
    Except Err Int64 :=
  if signerHash ∉ snap.signers then .error .errUnauthorized
  else if header.difficulty = diffNoTurn then outOfTurnDelay snap header.number64 signerHash
  else .ok 0

/-- Copying a signature to the end of the extra data. -/
def Header.putSeal (header : Header) (sighash : Bytes) : Header :=
  { header with
    extra := header.unsealed ++
      (sighash.take extraSeal ++ header.signature.drop sighash.length) }

/-- Signing a header. -/
def signHeader [Crypto] (sign : Bytes → Except Err Bytes) (header : Header) : Except Err Header :=
  if header.extra.length < extraSeal then .error .panicSliceBounds
  else (sign (sigHash header).bytes).map header.putSeal

namespace Prometheus

variable [Crypto]

/-- Preparing a header. -/
def prepare (now : UnixTime) (chain : ChainReader) (hardware : Bytes) (rand : ℕ)
    (header : Header) : EngineM Header := do
  let c ← get
  let random := getUniqueRandom chain hardware
  let snap ← snapshot now chain (header.number64 - 1) header.parentHash []
  let vote := if c.config.checkpoint header.number64 then none
    else pickProposal c.proposals snap rand
  let inturn ← fromExcept (snap.inturn header.number64 (signerHash c.signer random))
  match chain.getHeader header.parentHash (header.number64 - 1) with
  | none => throw .errUnknownAncestor
  | some parent =>
    return preparedHeader c.config now random snap vote inturn parent header

/-- Sealing a block.  If it is stopped while it waits for its time, there is no result. -/
def sealBlock (now : UnixTime) (chain : ChainReader) (stop : Bool) (transactions : ℕ)
    (header : Header) : EngineM (Option Header) := do
  let c ← get
  fromExcept <| checks
    [(decide (header.number64 = 0), .errUnknownBlock),
      (decide (c.config.period = 0) && decide (transactions = 0), .errWaitTransactions)]
  let snap ← snapshot now chain (header.number64 - 1) header.parentHash []
  let _ ← fromExcept (sealDelay snap header (signerHash c.signer header.random))
  fromExcept <| if stop then .ok none
    else (signHeader (c.signFn c.signer) header).map some

/-! ### What success says -/

variable {now : UnixTime} {chain : ChainReader} {header h : Header} {c c' : Prometheus}
  {hardware : Bytes} {rand : ℕ}

theorem prepare_eq_ok (hrun : prepare now chain hardware rand header c = .ok h c') :
    ∃ snap vote inturn parent, snapshot now chain (header.number64 - 1) header.parentHash [] c =
        .ok snap c' ∧ (c.config.checkpoint header.number64 = true → vote = none) ∧
      snap.inturn header.number64 (signerHash c.signer (getUniqueRandom chain hardware)) =
        .ok inturn ∧ chain.getHeader header.parentHash (header.number64 - 1) = some parent ∧
      h = preparedHeader c.config now (getUniqueRandom chain hardware) snap vote inturn parent
        header := by
  rw [prepare, get_bind] at hrun
  obtain ⟨snap, c₁, hsnap, hrun₁⟩ := bind_eq_ok.1 hrun
  obtain ⟨inturn, c₂, hturn, hrun₂⟩ := bind_eq_ok.1 hrun₁
  obtain ⟨hinturn, rfl⟩ := fromExcept_eq_ok.1 hturn
  cases hparent : chain.getHeader header.parentHash (header.number64 - 1) with
  | none =>
    simp only [hparent] at hrun₂
    cases hrun₂
  | some parent =>
    simp only [hparent] at hrun₂
    cases hrun₂
    exact ⟨snap, _, inturn, parent, hsnap, fun hcheckpoint => if_pos hcheckpoint, hinturn, rfl, rfl⟩

theorem sealBlock_eq_ok {stop : Bool} {transactions : ℕ}
    (hrun : sealBlock now chain stop transactions header c = .ok (some h) c') :
    header.number64 ≠ 0 ∧ ∃ snap sighash,
      snapshot now chain (header.number64 - 1) header.parentHash [] c = .ok snap c' ∧
      signerHash c.signer header.random ∈ snap.signers ∧
      c.signFn c.signer (sigHash header).bytes = .ok sighash ∧ h = header.putSeal sighash := by
  rw [sealBlock, get_bind] at hrun
  obtain ⟨_, _, hchecks, hrun₁⟩ := bind_eq_ok.1 hrun
  obtain ⟨hpass, hsame⟩ := fromExcept_eq_ok.1 hchecks
  rw [hsame] at hrun₁
  obtain ⟨snap, c₁, hsnap, hrun₂⟩ := bind_eq_ok.1 hrun₁
  obtain ⟨_, _, hdelay, hrun₃⟩ := bind_eq_ok.1 hrun₂
  obtain ⟨hauthorized, rfl⟩ := fromExcept_eq_ok.1 hdelay
  obtain ⟨hsign, rfl⟩ := fromExcept_eq_ok.1 hrun₃
  have hzero : header.number64 ≠ 0 := by
    have hfirst := checks_eq_ok.1 hpass _ mem_cons_self
    simpa using hfirst
  refine ⟨hzero, snap, ?_⟩
  have hmem : signerHash c.signer header.random ∈ snap.signers := by
    by_contra hnot
    rw [sealDelay, if_pos hnot] at hauthorized
    cases hauthorized
  cases stop with
  | true => cases hsign
  | false =>
    rw [if_neg Bool.false_ne_true, signHeader] at hsign
    split_ifs at hsign with hlength
    · cases hsign
    cases hsig : c.signFn c.signer (sigHash header).bytes with
    | error e =>
      rw [hsig] at hsign
      cases hsign
    | ok sighash =>
      rw [hsig] at hsign
      cases hsign
      exact ⟨sighash, hsnap, hmem, rfl, rfl⟩

end Prometheus

/-! ### The fields of a produced header -/

namespace Header

theorem unsealed_append {header : Header} {front back : Bytes}
    (hextra : header.extra = front ++ back) (hlength : back.length = extraSeal) :
    header.unsealed = front ∧ header.signature = back := by
  have hdrop : header.extra.length - extraSeal = front.length := by
    rw [hextra, length_append, hlength, Nat.add_sub_cancel]
  rw [unsealed, signature, hdrop, hextra]
  exact ⟨take_left, drop_left⟩

section PutSeal

variable {header : Header} {sighash : Bytes} (hextra : extraSeal ≤ header.extra.length)
  (hsig : sighash.length = extraSeal)

include hextra hsig

theorem putSeal_extra : (header.putSeal sighash).extra = header.unsealed ++ sighash := by
  have hlength : header.signature.length = extraSeal := by
    rw [signature, length_drop]
    omega
  rw [putSeal, take_of_length_le hsig.le, drop_eq_nil_of_le (hlength.trans hsig.symm).le,
    append_nil]

theorem putSeal_unsealed : (header.putSeal sighash).unsealed = header.unsealed :=
  (unsealed_append (putSeal_extra hextra hsig) hsig).1

theorem putSeal_signature : (header.putSeal sighash).signature = sighash :=
  (unsealed_append (putSeal_extra hextra hsig) hsig).2

theorem sigHash_putSeal [Crypto] : sigHash (header.putSeal sighash) = sigHash header := by
  rw [sigHash, sigHash, sigItem, sigItem, putSeal_unsealed hextra hsig]
  rfl

theorem recoverSigner_putSeal [Crypto] {signer : Address}
    (hrecover : (recoverPubkey (sigHash header).bytes sighash).map pubkeyAddress = .ok signer) :
    recoverSigner (header.putSeal sighash) = .ok signer := by
  have hlength : ¬ (header.putSeal sighash).extra.length < extraSeal := by
    rw [putSeal_extra hextra hsig, length_append, hsig]
    omega
  rw [recoverSigner, if_neg hlength, sigHash_putSeal hextra hsig, putSeal_signature hextra hsig]
  exact hrecover

end PutSeal

end Header

theorem length_prepareVanity (config : PrometheusConfig) (snap : Historysnap) (header : Header) :
    (prepareVanity config snap header).length = extraVanity +
      if config.checkpoint header.number64 then (signersBytes snap).length else 0 := by
  have hvanity : ((header.extra ++ List.replicate (extraVanity - header.extra.length) 0).take
      extraVanity).length = extraVanity := by
    rw [length_take, length_append, length_replicate]
    omega
  rw [prepareVanity, length_append, hvanity]
  split_ifs <;> rfl

theorem drop_prepareVanity {config : PrometheusConfig} {snap : Historysnap} {header : Header}
    (h : config.checkpoint header.number64 = true) :
    (prepareVanity config snap header).drop extraVanity = signersBytes snap := by
  rw [prepareVanity, if_pos h]
  refine drop_left' ?_
  rw [length_take, length_append, length_replicate]
  omega

theorem length_signersBytes (snap : Historysnap) :
    (signersBytes snap).length = snap.signersList.length * 4 := by
  rw [signersBytes]
  induction snap.signersList with
  | nil => rfl
  | cons signer signers ih =>
    rw [flatMap_cons, length_append, ih, length_bytes, length_cons]
    omega

theorem int64_eq (n : ℕ) : int64 n = if n % 2 ^ 64 < 2 ^ 63 then ((n % 2 ^ 64 : ℕ) : ℤ)
      else ((n % 2 ^ 64 : ℕ) : ℤ) - 2 ^ 64 := by
  have hdef : int64 n =
      if (n : ℤ) % (2 ^ 64 : ℕ) < ((2 ^ 64 : ℕ) + 1) / 2 then (n : ℤ) % (2 ^ 64 : ℕ)
      else (n : ℤ) % (2 ^ 64 : ℕ) - (2 ^ 64 : ℕ) := Int.bmod_def _ _
  split_ifs <;> omega

theorem le_prepareTime (config : PrometheusConfig) (now : UnixTime) (parent : Header) :
    now.val ≤ prepareTime config now parent := by
  rw [prepareTime, int64_eq]
  split_ifs <;> omega

/-- **The time of a new block satisfies the verification** exactly when a period after the parent
does not count as negative. -/
theorem prepareTime_ge_iff {config : PrometheusConfig} {now : UnixTime} {parent : Header}
    (hclock : prepareTime config now parent < 2 ^ 63) :
    .ofNat parent.time + config.period ≤ .ofNat (prepareTime config now parent) ↔
      (parent.time + config.period.toNat) % 2 ^ 64 < 2 ^ 63 := by
  have hleft : (.ofNat parent.time + config.period).toNat =
      (parent.time + config.period.toNat) % 2 ^ 64 := by
    rw [UInt64.toNat_add, UInt64.toNat_ofNat', Nat.mod_add_mod]
  have hright : (UInt64.ofNat (prepareTime config now parent)).toNat =
      prepareTime config now parent := UInt64.toNat_ofNat_of_lt' (hclock.trans (by decide))
  rw [UInt64.le_iff_toNat_le, hleft, hright]
  rw [prepareTime] at hclock ⊢
  rw [int64_eq] at hclock ⊢
  split_ifs at hclock ⊢ <;> omega

/-! ### What is produced is accepted -/

/-- A block and the branch that leads to it. -/
structure Head [Crypto] (pool : HeaderPool) (n : ℕ) (path : List Header) (parent : Header) :
    Prop where
  branch : Branch pool.genesis pool.headers n parent.hash path
  root : ∀ k ∈ path.head?, k.parentHash = pool.genesis.hash
  number64_eq : parent.number64 = .ofNat n

theorem Head.number64_sub_one [Crypto] {pool : HeaderPool} {n : ℕ} {path : List Header}
    {parent header : Header} (hhead : Head pool n path parent)
    (hnumber : header.number = parent.number + 1) : header.number64 - 1 = .ofNat n := by
  rw [← hhead.number64_eq, Header.number64, hnumber, UInt64.ofNat_add]
  exact add_sub_cancel_right _ _

/-- A chain that has a block and its ancestors. -/
structure ChainReader.Holds [Crypto] (chain : ChainReader) (pool : HeaderPool)
    (path : List Header) (parent : Header) : Prop where
  genesis_eq : chain.genesis = pool.genesis
  serves : chain.Serves path
  getHeader_eq : chain.getHeader parent.hash parent.number64 = some parent

/-- A signing function whose signatures are those of the account. -/
def Signs [Crypto] (signer : Address) (sign : Bytes → Except Err Bytes) : Prop :=
  ∀ digest sighash, sign digest = .ok sighash →
    sighash.length = extraSeal ∧
      (recoverPubkey digest sighash).map pubkeyAddress = .ok signer

namespace Prometheus

variable [Crypto] {config : PrometheusConfig} {pool : HeaderPool} {now now₁ now' : UnixTime}
  {chain : ChainReader} {n : ℕ} {path : List Header} {parent header : Header} {c c' : Prometheus}
  {snap : Historysnap} {vote : Option (AddressHash × Bool)} {inturn : Bool} {random : Bytes}
  {content : BlockContent} {sighash : Bytes}

theorem snapshot_head (hhead : Head pool n path parent) (hholds : chain.Holds pool path parent)
    (hparent : header.parentHash = parent.hash) (hnumber : header.number = parent.number + 1) :
    Spec (Sound config pool now) (snapshot now chain (header.number64 - 1) header.parentHash [])
      (fun snap c => Sound config pool now c ∧ replay config now pool.genesis path = .ok snap)
      (fun e c => Sound config pool now c ∧ replay config now pool.genesis path = .error e) := by
  rw [hparent, hhead.number64_sub_one hnumber]
  exact snapshot_spec hholds.genesis_eq hhead.branch hhead.root (append_nil path).symm hholds.serves

/-! ### The verdict without caches -/

/-- The program returns `r` from every sound engine, and leaves the engine sound. -/
def Returns (config : PrometheusConfig) (pool : HeaderPool) (now : UnixTime) {α : Type}
    (x : EngineM α) (r : Except Err α) : Prop :=
  Spec (Sound config pool now) x (fun a c => Sound config pool now c ∧ r = .ok a)
    fun e c => Sound config pool now c ∧ r = .error e

section Returns

variable {α β : Type} {x : EngineM α} {r : Except Err α}

theorem Returns.bind {f : α → EngineM β} {g : α → Except Err β} (hx : Returns config pool now x r)
    (hf : ∀ a, r = .ok a → Returns config pool now (f a) (g a)) :
    Returns config pool now (x >>= f) (r >>= g) := by
  intro c hc
  cases hrun : x c with
  | ok a c' =>
    obtain ⟨hc', hr⟩ := hx.of_ok hc hrun
    rw [bind_ok hrun, hr]
    exact hf a hr c' hc'
  | error e c' =>
    obtain ⟨hc', hr⟩ := hx.of_error hc hrun
    rw [bind_error hrun, hr]
    exact ⟨hc', rfl⟩

theorem returns_fromExcept (r : Except Err α) : Returns config pool now (fromExcept r) r :=
  Spec.fromExcept (fun _ _ hr hc => ⟨hc, hr⟩) fun _ _ hr hc => ⟨hc, hr⟩

theorem returns_get {f : Prometheus → EngineM α} (h : ∀ c, c.config = config →
    Returns config pool now (f c) r) : Returns config pool now (get >>= f) r :=
  fun c hc => h c hc.config_eq c hc

end Returns

theorem returns_ecrecover (h : header ∈ pool.headers) :
    Returns config pool now (withSignatures (ecrecover header)) (recoverSigner header) := by
  refine Spec.onPart (fun a c hc hr => ?_) fun e c hc hr => ?_
  all_goals
    obtain ⟨heq, hsound⟩ := ecrecover_sound pool.hash_injOn hc.signatures h
    exact ⟨⟨hc.config_eq, hc.recents, hc.db, hsound⟩, heq.symm.trans hr⟩

/-- The verdict on a header that follows a branch, from the headers alone. -/
def verdict (config : PrometheusConfig) (now : UnixTime) (chain : ChainReader) (genesis : Header)
    (path : List Header) (header : Header) : Except Err Unit := do
  verifyStandalone config now header
  if header.number64 = 0 then return
  checkParent config chain header []
  let snap ← replay config now genesis path
  checkSigners config snap header
  let signer ← recoverSigner header
  checkSealer snap header signer

theorem returns_verifyHeader (hhead : Head pool n path parent)
    (hholds : chain.Holds pool path parent) (hparent : header.parentHash = parent.hash)
    (hnumber : header.number = parent.number + 1) (hmem : header ∈ pool.headers) :
    Returns config pool now (verifyHeader now chain header [])
      (verdict config now chain pool.genesis path header) := by
  refine returns_get fun c hconfig => ?_
  rw [hconfig]
  refine (returns_fromExcept _).bind fun _ _ => ?_
  unfold verifyCascadingFields
  split_ifs with hzero
  · exact fun c hc => ⟨hc, rfl⟩
  have hsnap : Returns config pool now (snapshot now chain (header.number64 - 1)
      header.parentHash []) _ := snapshot_head hhead hholds hparent hnumber
  refine returns_get fun c hconfig => ?_
  rw [hconfig]
  refine (returns_fromExcept _).bind fun _ _ => hsnap.bind fun snap hreplay =>
    (returns_fromExcept _).bind fun _ _ => ?_
  -- the second snapshot is the same as the first
  rw [hreplay] at hsnap
  unfold verifySeal
  rw [if_neg hzero]
  exact Returns.bind (g := fun snap => recoverSigner header >>= checkSealer snap header) hsnap
    fun _ _ => (returns_ecrecover hmem).bind fun _ _ => returns_fromExcept _

/-- **The verdict does not depend on the caches**: every reachable engine says of a header what its
ancestors and its own fields say. -/
theorem verifyHeader_eq_verdict (hc : Reachable config pool now c)
    (hhead : Head pool n path parent) (hholds : chain.Holds pool path parent)
    (hparent : header.parentHash = parent.hash) (hnumber : header.number = parent.number + 1)
    (hmem : header ∈ pool.headers) : outcome (verifyHeader now chain header [] c) =
      verdict config now chain pool.genesis path header :=
  outcome_of_spec (returns_verifyHeader hhead hholds hparent hnumber hmem) hc.sound

/-! ### A produced header -/

/-- A header before it is signed. -/
def unsignedHeader (config : PrometheusConfig) (now : UnixTime) (random : Bytes)
    (snap : Historysnap) (vote : Option (AddressHash × Bool)) (inturn : Bool)
    (parent header : Header) (content : BlockContent) : Header :=
  finalize (preparedHeader config now random snap vote inturn parent header) content

theorem unsignedHeader_extra :
    (unsignedHeader config now random snap vote inturn parent header content).extra =
      prepareVanity config snap header ++ List.replicate extraSeal 0 := rfl

theorem extraSeal_le_unsignedHeader : extraSeal ≤
    (unsignedHeader config now random snap vote inturn parent header content).extra.length := by
  rw [unsignedHeader_extra, length_append, length_replicate]
  omega

theorem unsignedHeader_unsealed :
    (unsignedHeader config now random snap vote inturn parent header content).unsealed =
      prepareVanity config snap header :=
  (Header.unsealed_append unsignedHeader_extra length_replicate).1

theorem unsignedHeader_time :
    (unsignedHeader config now random snap vote inturn parent header content).time =
      prepareTime config now parent := by
  simp only [unsignedHeader, finalize, newBlock, preparedHeader]

/-- **A produced header passes the standalone checks** once its time has come. -/
theorem standalone_produced (hsig : sighash.length = extraSeal)
    (hvote : config.checkpoint header.number64 = true → vote = none)
    (hnow : prepareTime config now parent ≤ now'.val) : Standalone config now'
      ((unsignedHeader config now random snap vote inturn parent header content).putSeal
        sighash) := by
  have hlength : ((unsignedHeader config now random snap vote inturn parent header
      content).putSeal sighash).extra.length = extraVanity +
        (if config.checkpoint header.number64 then snap.signersList.length * 4 else 0) +
        extraSeal := by
    rw [Header.putSeal_extra extraSeal_le_unsignedHeader hsig, unsignedHeader_unsealed,
      length_append, length_prepareVanity, hsig, length_signersBytes]
  refine ⟨?_, fun hcheckpoint => ?_, ?_, fun hcheckpoint => ?_, ?_, fun hcheckpoint => ?_,
    fun hcheckpoint => ?_, rfl, rfl, fun _ => ?_⟩
  · rw [Header.putSeal, unsignedHeader_time]
    exact hnow
  · change voteTarget vote = _
    rw [hvote hcheckpoint]
    rfl
  · change voteNonce vote = _ ∨ voteNonce vote = _
    rcases vote with _ | ⟨address, _ | _⟩
    · exact .inr voteNonce_none
    · exact .inr rfl
    · exact .inl rfl
  · change voteNonce vote = _
    rw [hvote hcheckpoint, voteNonce_none]
  · omega
  · change config.checkpoint header.number64 = false at hcheckpoint
    rw [hlength, hcheckpoint]
    rfl
  · change config.checkpoint header.number64 = true at hcheckpoint
    rw [hlength, hcheckpoint, if_pos rfl]
    omega
  · change (if inturn then diffInTurn else diffNoTurn) = _ ∨ _
    cases inturn
    · exact .inr rfl
    · exact .inl rfl

theorem checkSigners_produced (hsig : sighash.length = extraSeal) : checkSigners config snap
      ((unsignedHeader config now random snap vote inturn parent header content).putSeal
        sighash) = .ok () := by
  rw [checkSigners, if_neg]
  rintro ⟨hcheckpoint, hne⟩
  refine hne ?_
  rw [Header.putSeal_unsealed extraSeal_le_unsignedHeader hsig, unsignedHeader_unsealed]
  exact drop_prepareVanity hcheckpoint

theorem checkParent_head (hhead : Head pool n path parent) (hholds : chain.Holds pool path parent)
    (hparent : header.parentHash = parent.hash) (hnumber : header.number = parent.number + 1) :
    checkParent config chain header [] =
      if .ofNat header.time < .ofNat parent.time + config.period then
        .error .errInvalidTimestamp else .ok () := by
  have hsub : header.number64 - 1 = parent.number64 :=
    (hhead.number64_sub_one hnumber).trans hhead.number64_eq.symm
  have hfound : parentOf chain header [] = some parent := by
    change chain.getHeader header.parentHash (header.number64 - 1) = some parent
    rw [hparent, hsub, hholds.getHeader_eq]
  rw [checkParent, hfound]
  simp only [hsub, hparent, ne_eq, not_true_eq_false, or_self, if_false]

theorem verifyHeader_signed {k : Header} {signer : Address}
    (hk : k = (unsignedHeader config now random snap vote inturn parent header content).putSeal
      sighash) (hc : Sound config pool now' c) (hhead : Head pool n path parent)
    (hholds : chain.Holds pool path parent) (hparent : k.parentHash = parent.hash)
    (hnumber : k.number = parent.number + 1) (hmem : k ∈ pool.headers) (hne : k.number64 ≠ 0)
    (hreplay : replay config now pool.genesis path = .ok snap)
    (hvote : config.checkpoint header.number64 = true → vote = none)
    (hsig : sighash.length = extraSeal) (hrecover : recoverSigner k = .ok signer)
    (hsealer : checkSealer snap k signer = .ok ()) (hnow' : k.time ≤ now'.val) :
    outcome (verifyHeader now' chain k [] c) =
      if (parent.time + config.period.toNat) % 2 ^ 64 < 2 ^ 63 then .ok ()
      else .error .errInvalidTimestamp := by
  have htime : k.time = prepareTime config now parent := by
    rw [hk, Header.putSeal, unsignedHeader_time]
  rw [htime] at hnow'
  have hstandalone : Standalone config now' k := hk ▸ standalone_produced hsig hvote hnow'
  have hsigners : checkSigners config snap k = .ok () := hk ▸ checkSigners_produced hsig
  have hcheck : checkParent config chain k [] = _ := checkParent_head hhead hholds hparent hnumber
  rw [htime] at hcheck
  have hverified := prepareTime_ge_iff (hnow'.trans_lt now'.isLt)
  rw [outcome_of_spec (returns_verifyHeader hhead hholds hparent hnumber hmem) hc, verdict,
    verifyStandalone_eq_ok.2 hstandalone, if_neg hne, hcheck]
  by_cases hsum : (parent.time + config.period.toNat) % 2 ^ 64 < 2 ^ 63
  · have hlater : now ≤ now' := (le_prepareTime config now parent).trans hnow'
    rw [if_neg (UInt64.not_lt.2 (hverified.2 hsum)), if_pos hsum, replay_mono hlater hreplay,
      hrecover]
    change checkSigners config snap k >>= _ = _
    rw [hsigners]
    exact hsealer
  · rw [if_pos (UInt64.not_le.1 fun hle => hsum (hverified.1 hle)), if_neg hsum]
    rfl

/-- **What is produced is accepted, except for the time.**  Let a header after the block `parent` be
prepared and sealed by the same authorised account, whose signatures are correct.  A node that has
the same ancestors and whose clock has reached the time of the header accepts it, unless a period
after the parent counts as negative; then it is rejected for its time. -/
theorem verifyHeader_produced {chain₁ chain' : ChainReader} {hardware : Bytes} {rand : ℕ}
    {stop : Bool} {prepared signed : Header} {c₁ d d₁ e : Prometheus}
    (hhead : Head pool n path parent) (hparent : header.parentHash = parent.hash)
    (hnumber : header.number = parent.number + 1)
    (hc : Reachable config pool now c) (hchain : chain.Holds pool path parent)
    (hprepare : prepare now chain hardware rand header c = .ok prepared c₁)
    (hd : Reachable config pool now₁ d) (hchain₁ : chain₁.Holds pool path parent)
    (hnow₁ : now ≤ now₁) (hsigner : d.signer = c.signer)
    (hsigns : Signs d.signer (d.signFn d.signer))
    (hseal : sealBlock now₁ chain₁ stop content.transactions (finalize prepared content) d =
      .ok (some signed) d₁)
    (he : Reachable config pool now' e) (hchain' : chain'.Holds pool path parent)
    (hmem : signed ∈ pool.headers) (hnow' : signed.time ≤ now'.val) :
    outcome (verifyHeader now' chain' signed [] e) =
      if (parent.time + config.period.toNat) % 2 ^ 64 < 2 ^ 63 then .ok ()
      else .error Err.errInvalidTimestamp := by
  obtain ⟨snap, vote, inturn, parent', hsnap, hvote, hinturn, hget, rfl⟩ := prepare_eq_ok hprepare
  rw [hc.sound.config_eq] at hvote hseal
  -- the parent that was found is the head of the chain
  have hsub := (hhead.number64_sub_one hnumber).trans hhead.number64_eq.symm
  rw [hparent, hsub, hchain.getHeader_eq] at hget
  obtain rfl : parent = parent' := Option.some_inj.1 hget
  have hreplay : replay config now pool.genesis path = .ok snap :=
    ((snapshot_head hhead hchain hparent hnumber).of_ok hc.sound hsnap).2
  obtain ⟨hne, snap₁, sighash, hsnap₁, hauthorized, hsign, hk⟩ := sealBlock_eq_ok hseal
  -- sealing works with the same snapshot
  have hreplay₁ : replay config now₁ pool.genesis path = .ok snap₁ :=
    ((snapshot_head hhead hchain₁ hparent hnumber).of_ok hd.sound hsnap₁).2
  rw [replay_mono hnow₁ hreplay] at hreplay₁
  obtain rfl : snap = snap₁ := Except.ok.inj hreplay₁
  obtain ⟨hsig, hrecover⟩ := hsigns _ _ hsign
  have hsealer : checkSealer snap signed d.signer = .ok () := by
    rw [hk]
    exact checkSealer_eq_ok.2 ⟨hauthorized, inturn, hsigner ▸ hinturn, rfl⟩
  have hrecovered : recoverSigner signed = .ok d.signer := by
    rw [hk]
    exact Header.recoverSigner_putSeal extraSeal_le_unsignedHeader hsig hrecover
  refine verifyHeader_signed hk he.sound hhead hchain' ?_ ?_ hmem ?_ hreplay hvote hsig hrecovered
    hsealer hnow'
  · rw [hk]
    exact hparent
  · rw [hk]
    exact hnumber
  rw [hk]
  simp only [Header.number64, Header.putSeal]
  exact hne

end Prometheus

/-! ### A block after the genesis block -/

namespace Sample

/-- The header the worker starts from. -/
def worker : Header :=
  { blank with parentHash := genesisHash, number := 1, difficulty := 0, time := 1001, extra := [] }

/-- A block without transactions on an empty state. -/
def content : BlockContent where
  root := emptyRootHash
  transactions := 0
  transactionsRoot := emptyRootHash
  receipts := 0
  receiptsRoot := emptyRootHash
  receiptsBloom := zero 256

/-- The engine of the signer, which proposes the outsider. -/
def miner : Prometheus :=
  { engine with
    proposals := (∅ : Finmap fun _ : AddressHash => Bool).insert outsiderHash true
    signFn := fun _ digest =>
      if digest = addOutsiderDigest.bytes then .ok addOutsiderSeal.bytes
      else .error .errSigner }

/-- What the engine makes of the header. -/
def prepared : Header := { addOutsider with extra := List.replicate 97 0 }

theorem head_genesis : Head pool 0 [] genesis where
  branch := .genesis
  root := fun _ h => by cases h
  number64_eq := by decide

theorem chain_holds : chain.Holds pool [] genesis where
  genesis_eq := rfl
  serves := fun _ h => absurd h not_mem_nil
  getHeader_eq := by
    have hnumber : genesis.number64 = 0 := by decide
    rw [genesis_hash, hnumber]
    simp [chain]

/-- A period so long that the end of it counts as negative. -/
def longPeriod : PrometheusConfig := ⟨9223372036854775808, 30000, config.epoch_ne_zero⟩

theorem miner_runs :
    (recoverPubkey addOutsiderDigest.bytes addOutsiderSeal.bytes).map pubkeyAddress =
      .ok miner.signer ∧ recoverSigner addOutsider = .ok miner.signer ∧
    (∀ c ∈ [(1000, miner), (1015, { miner with config := longPeriod })],
      outcome (prepare c.1 chain [] 0 worker c.2) = .ok prepared ∧
      outcome (sealBlock c.1 chain false 0 (finalize prepared content) c.2) =
        .ok (some addOutsider)) ∧
    outcome (verifyHeader 2000 chain addOutsider []
      { engine with config := longPeriod }) = .error .errInvalidTimestamp := by
  decide +kernel

theorem miner_signs : Signs miner.signer (miner.signFn miner.signer) := by
  intro digest sighash hsign
  simp only [miner] at hsign
  split_ifs at hsign with hdigest
  cases hsign
  rw [hdigest]
  exact ⟨length_bytes addOutsiderSeal, miner_runs.1⟩

end Sample

open scoped Sample in
/-- The signer votes for the outsider; another node accepts the block. -/
theorem Prometheus.verifyHeader_produced_addOutsider :
    outcome (prepare 1000 Sample.chain [] 0 Sample.worker Sample.miner) =
      .ok Sample.prepared ∧ outcome (sealBlock 1000 Sample.chain false 0
      (finalize Sample.prepared Sample.content) Sample.miner) =
      .ok (some Sample.addOutsider) ∧
    outcome (verifyHeader 2000 Sample.chain Sample.addOutsider [] Sample.engine) =
      .ok () := by
  obtain ⟨hprepare, hseal⟩ := Sample.miner_runs.2.2.1 (1000, Sample.miner) (by simp)
  have hminer : Prometheus.Reachable Sample.config Sample.pool 1000 Sample.miner :=
    .new rfl rfl rfl fun _ => rfl
  have hengine : Prometheus.Reachable Sample.config Sample.pool 2000 Sample.engine :=
    .new rfl rfl rfl fun _ => rfl
  have hverify := verifyHeader_produced Sample.head_genesis (by decide +kernel) rfl
    hminer Sample.chain_holds (eq_ok_of_outcome hprepare) hminer Sample.chain_holds le_rfl rfl
    Sample.miner_signs (eq_ok_of_outcome hseal) hengine Sample.chain_holds (.inr rfl)
    (by decide)
  exact ⟨hprepare, hseal, hverify⟩

open Sample in
/-- With a period of `2 ^ 63` seconds the signer takes the current time for its block, and every
other node rejects it. -/
theorem produced_header_rejected : outcome (prepare 1015 chain [] 0 worker
      { miner with config := longPeriod }) = .ok prepared ∧
    outcome (sealBlock 1015 chain false 0
      (finalize prepared content)
      { miner with config := longPeriod }) = .ok (some addOutsider) ∧
    recoverSigner addOutsider = .ok miner.signer ∧
    outcome (verifyHeader 2000 chain addOutsider []
      { engine with config := longPeriod }) =
        .error Err.errInvalidTimestamp := by
  obtain ⟨-, hrecover, hruns, hrejected⟩ := miner_runs
  obtain ⟨hprepare, hseal⟩ := hruns (1015, { miner with config := longPeriod })
    (by simp)
  exact ⟨hprepare, hseal, hrecover, hrejected⟩

open scoped Sample in
/-- The block after the genesis block, seen by a node without caches. -/
theorem Prometheus.verifyHeader_eq_verdict_addOutsider :
    outcome (verifyHeader 2000 Sample.chain Sample.addOutsider [] Sample.engine) =
      verdict Sample.config 2000 Sample.chain Sample.pool.genesis [] Sample.addOutsider := by
  have hengine : Prometheus.Reachable Sample.config Sample.pool 2000 Sample.engine :=
    .new rfl rfl rfl fun _ => rfl
  exact verifyHeader_eq_verdict hengine Sample.head_genesis Sample.chain_holds (by decide +kernel)
    rfl (.inr rfl)
