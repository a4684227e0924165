/-
**The consensus engine: snapshots of the chain and the verification of headers.**

The engine owns two caches, the signature cache and the cache of recent snapshots, and writes
snapshots to the database.  `Prometheus.snapshot` finds the snapshot of a block by walking towards
the genesis block until a cached or stored one turns up, and then applies the headers it has
passed.  `Prometheus.verifyHeader` checks a header by itself, then against its parent, and then
against the snapshot of its parent.

The methods are programs in `EStateM`: what they have put into the caches or the database stays
there when they fail.  The walk is recursive in the block number.  The genesis block is verified in
the course of it; since its number is zero, only the standalone checks apply to it, so that the
walk calls `verifyStandalone` and `Prometheus.verifyHeader_genesis` connects the two.

Time is read once per call, in seconds, and is an argument.

Main results:

* `verifyStandalone_eq_ok` — **what the standalone checks say**;
* `Prometheus.verifySeal_eq_ok` — **what an accepted seal says**;
* `Prometheus.verifyCascadingFields_eq_ok` — **what is checked against the parent**.
-/

import GoHpb.CryptoTable
import GoHpb.HistorysnapJson
import GoHpb.FailState

open FailState FixedBytes

/-! ### The chain and the engine -/

/-- The number of seconds since 1970, a positive 64-bit integer. -/
abbrev UnixTime : Type := Fin (2 ^ 63)

/-- What the engine reads from the chain: headers by hash and number, the genesis block, and the
random string configured for this node. -/
structure ChainReader where
  getHeader : Hash → UInt64 → Option Header
  genesis : Header
  getRandom : Bytes
  genesis_number : genesis.number64 = 0

/-- The number of blocks between two snapshots in the database. -/
def checkpointInterval : ℕ := 1024

/-- The number of snapshots and of signatures kept in memory. -/
def inmemoryHistorysnaps : ℕ := 128

def inmemorySignatures : ℕ := 4096

/-- The difficulty of a block sealed in turn. -/
def diffInTurn : ℕ := 2

/-- The difficulty of a block sealed out of turn. -/
def diffNoTurn : ℕ := 1

/-- The engine.  A signing function takes the account and the digest. -/
structure Prometheus where
  config : PrometheusConfig
  db : Database
  recents : Arc Hash Historysnap
  signatures : SigCache
  proposals : Finmap fun _ : AddressHash => Bool
  signer : Address
  signFn : Address → Bytes → Except Err Bytes

/-- A method of the engine. -/
abbrev EngineM : Type → Type := EStateM Err Prometheus

/-! ### Checks that need only the header -/

section Standalone

variable [Crypto]

/-- The checks of `verifyHeader` before it looks at the parent. -/
def verifyStandalone (config : PrometheusConfig) (now : UnixTime) (header : Header) :
    Except Err Unit :=
  let checkpoint := config.checkpoint header.number64
  let signersBytes := header.extra.length - extraVanity - extraSeal
  checks
    [(decide (now.val < header.time), .errFutureBlock),
      (checkpoint && header.coinbaseHash ≠ zero 4, .errInvalidCheckpointBeneficiary),
      (header.nonce ≠ nonceAuthVote && header.nonce ≠ nonceDropVote, .errInvalidVote),
      (checkpoint && header.nonce ≠ nonceDropVote, .errInvalidCheckpointVote),
      (decide (header.extra.length < extraVanity), .errMissingVanity),
      (decide (header.extra.length < extraVanity + extraSeal), .errMissingSignature),
      (!checkpoint && signersBytes ≠ 0, .errExtraSigners),
      (checkpoint && signersBytes % 4 ≠ 0, .errInvalidCheckpointSigners),
      (decide (header.mixDigest ≠ zero 32), .errInvalidMixDigest),
      (decide (header.uncleHash ≠ emptyUncleHash), .errInvalidUncleHash),
      (0 < header.number64 && (header.difficulty ≠ diffInTurn && header.difficulty ≠ diffNoTurn),
        .errInvalidDifficulty)]

/-- What the standalone checks establish. -/
structure Standalone (config : PrometheusConfig) (now : UnixTime) (header : Header) : Prop where
  time_le : header.time ≤ now.val
  beneficiary : config.checkpoint header.number64 = true →
    header.coinbaseHash = zero 4
  vote : header.nonce = nonceAuthVote ∨ header.nonce = nonceDropVote
  checkpoint_vote : config.checkpoint header.number64 = true → header.nonce = nonceDropVote
  length_le : extraVanity + extraSeal ≤ header.extra.length
  no_signers : config.checkpoint header.number64 = false →
    header.extra.length = extraVanity + extraSeal
  signers : config.checkpoint header.number64 = true →
    (header.extra.length - extraVanity - extraSeal) % 4 = 0
  mixDigest_eq : header.mixDigest = zero 32
  uncleHash_eq : header.uncleHash = emptyUncleHash
  difficulty : 0 < header.number64 →
    header.difficulty = diffInTurn ∨ header.difficulty = diffNoTurn

/-- **What the standalone checks say.** -/
theorem verifyStandalone_eq_ok {config : PrometheusConfig} {now : UnixTime} {header : Header} :
    verifyStandalone config now header = .ok () ↔ Standalone config now header := by
  simp only [verifyStandalone, checks_eq_ok, List.forall_mem_cons, List.not_mem_nil,
    false_implies, implies_true, and_true, Bool.and_eq_false_imp, decide_eq_false_iff_not,
    Bool.not_eq_true', decide_eq_true_eq, not_lt, not_not, ne_eq]
  constructor
  · rintro ⟨h₁, h₂, h₃, h₄, -, h₆, h₇, h₈, h₉, h₁₀, h₁₁⟩
    refine ⟨h₁, h₂, ?_, h₄, h₆, fun hc => ?_, h₈, h₉, h₁₀, fun hpos => ?_⟩
    · exact or_iff_not_imp_left.2 h₃
    · have hzero := h₇ hc
      omega
    · exact or_iff_not_imp_left.2 (h₁₁ hpos)
  · rintro ⟨h₁, h₂, h₃, h₄, h₆, h₇, h₈, h₉, h₁₀, h₁₁⟩
    refine ⟨h₁, h₂, or_iff_not_imp_left.1 h₃, h₄, ?_, h₆, fun hc => ?_, h₈, h₉, h₁₀, fun hpos => ?_⟩
    · omega
    · have hlen := h₇ hc
      omega
    · exact or_iff_not_imp_left.1 (h₁₁ hpos)

end Standalone

/-! ### Snapshots -/

/-- The signers listed in the genesis block.  A field that is too short makes the length of the
list negative. -/
def genesisSigners (genesis : Header) : Except Err (List AddressHash) :=
  if genesis.extraHash.length + 4 ≤ extraVanity + extraSeal then .error .panicMakeSlice
  else .ok <|
    (List.range ((genesis.extraHash.length - extraVanity - extraSeal) / 4)).map fun i =>
      setBytes 4 ((genesis.extraHash.drop (extraVanity + i * 4)).take 4)

/-- The header with a given hash and number: the last of the parents if there are any, otherwise
from the chain. -/
def nextHeader [Crypto] (chain : ChainReader) (number : UInt64) (hash : Hash)
    (parents : List Header) : Except Err (Header × List Header) :=
  match parents.getLast? with
  | some header =>
    if header.hash ≠ hash ∨ header.number64 ≠ number then .error .errUnknownAncestor
    else .ok (header, parents.dropLast)
  | none =>
    match chain.getHeader hash number with
    | none => .error .errUnknownAncestor
    | some header => .ok (header, [])

namespace Prometheus

/-- Working with the signature cache. -/
def withSignatures {α : Type} (f : SigCache → Except Err α × SigCache) : EngineM α :=
  onPart Prometheus.signatures (fun signatures c => { c with signatures := signatures }) f

/-- A snapshot from memory, or from the database at every 1024th block. -/
def findSnapshot (number : ℕ) (hash : Hash) : EngineM (Option Historysnap) := fun c =>
  let recents := (c.recents.get hash).2
  match (c.recents.get hash).1 with
  | some snap => .ok (some snap) { c with recents := recents }
  | none =>
    if number % checkpointInterval = 0 then
      match loadHistorysnap c.db hash with
      | .ok snap => .ok (some snap) { c with recents := recents }
      | .error _ => .ok none { c with recents := recents }
    else .ok none { c with recents := recents }

/-- Writing a snapshot to the database. -/
def storeSnapshot (snap : Historysnap) : EngineM Unit :=
  modify fun c => { c with db := snap.store c.db }

theorem get_bind {α : Type} (f : Prometheus → EngineM α) (c : Prometheus) :
    (get >>= f) c = f c c := rfl

theorem withSignatures_eq_ok {α : Type} {f : SigCache → Except Err α × SigCache} {a : α}
    {c c' : Prometheus} : withSignatures f c = .ok a c' ↔
      (f c.signatures).1 = .ok a ∧ c' = { c with signatures := (f c.signatures).2 } :=
  onPart_eq_ok

/-- Keeping a snapshot in memory. -/
def addRecent (snap : Historysnap) : EngineM Unit :=
  modify fun c => { c with recents := c.recents.add snap.hash snap }

variable [Crypto]

/-- The snapshot of the genesis block, after the block has been verified. -/
def genesisSnapshot (now : UnixTime) (chain : ChainReader) : EngineM Historysnap := do
  let c ← get
  fromExcept (verifyStandalone c.config now chain.genesis)
  let signers ← fromExcept (genesisSigners chain.genesis)
  let snap := newHistorysnap 0 chain.genesis.hash signers
  storeSnapshot snap
  return snap

/-- The walk towards the genesis block: a snapshot, and the headers between it and the block asked
for, in ascending order. -/
def snapshotWalk (now : UnixTime) (chain : ChainReader) :
    ℕ → Hash → List Header → List Header → EngineM (Historysnap × List Header)
  | 0, hash, _, headers => do
      match ← findSnapshot 0 hash with
      | some snap => return (snap, headers)
      | none =>
        let snap ← genesisSnapshot now chain
        return (snap, headers)
  | number + 1, hash, parents, headers => do
      match ← findSnapshot (number + 1) hash with
      | some snap => return (snap, headers)
      | none =>
        let next ← fromExcept (nextHeader chain (.ofNat (number + 1)) hash parents)
        snapshotWalk now chain number next.1.parentHash next.2 (next.1 :: headers)

/-- Applying the headers the walk has passed, and keeping the result. -/
def finishSnapshot (found : Historysnap × List Header) : EngineM Historysnap := do
  let c ← get
  let snap ← withSignatures (found.1.apply c.config found.2)
  addRecent snap
  if snap.number.toNat % checkpointInterval = 0 ∧ 0 < found.2.length then
    storeSnapshot snap
  return snap

/-- The snapshot of the block with a given number and hash. -/
def snapshot (now : UnixTime) (chain : ChainReader) (number : UInt64) (hash : Hash)
    (parents : List Header) : EngineM Historysnap := do
  let found ← snapshotWalk now chain number.toNat hash parents []
  finishSnapshot found

/-! ### Verification -/

/-- The sealer must be a signer, and the difficulty must say whether it is in turn. -/
def checkSealer (snap : Historysnap) (header : Header) (signer : Address) : Except Err Unit :=
  if signerHash signer header.random ∉ snap.signers then .error .errUnauthorized
  else match snap.inturn header.number64 (signerHash signer header.random) with
    | .error e => .error e
    | .ok inturn =>
      if inturn ∧ header.difficulty ≠ diffInTurn then .error .errInvalidDifficulty
      else if ¬ inturn ∧ header.difficulty ≠ diffNoTurn then
        .error .errInvalidDifficulty
      else .ok ()

/-- The seal of a header, checked against the snapshot of its parent. -/
def verifySeal (now : UnixTime) (chain : ChainReader) (header : Header) (parents : List Header) :
    EngineM Unit := do
  if header.number64 = 0 then throw .errUnknownBlock
  let snap ← snapshot now chain (header.number64 - 1) header.parentHash parents
  let signer ← withSignatures (ecrecover header)
  fromExcept (checkSealer snap header signer)

/-- The parent of a header: the last of the parents if there are any, otherwise from the chain. -/
def parentOf (chain : ChainReader) (header : Header) (parents : List Header) : Option Header :=
  match parents.getLast? with
  | some parent => some parent
  | none => chain.getHeader header.parentHash (header.number64 - 1)

/-- The number, the hash and the time of the parent. -/
def checkParent (config : PrometheusConfig) (chain : ChainReader) (header : Header)
    (parents : List Header) : Except Err Unit :=
  match parentOf chain header parents with
  | none => .error .errUnknownAncestor
  | some parent =>
    if parent.number64 ≠ header.number64 - 1 ∨ parent.hash ≠ header.parentHash then
      .error .errUnknownAncestor
    else if .ofNat header.time < .ofNat parent.time + config.period then
      .error .errInvalidTimestamp
    else .ok ()

/-- The bytes of the signers, in ascending order. -/
def signersBytes (snap : Historysnap) : Bytes := snap.signersList.flatMap bytes

/-- A checkpoint block lists the signers between the vanity and the seal. -/
def checkSigners (config : PrometheusConfig) (snap : Historysnap) (header : Header) :
    Except Err Unit :=
  if config.checkpoint header.number64 ∧ header.unsealed.drop extraVanity ≠ signersBytes snap then
    .error .errInvalidCheckpointSigners
  else .ok ()

/-- The checks of a header against the chain. -/
def verifyCascadingFields (now : UnixTime) (chain : ChainReader) (header : Header)
    (parents : List Header) : EngineM Unit := do
  if header.number64 = 0 then return
  let c ← get
  fromExcept (checkParent c.config chain header parents)
  let snap ← snapshot now chain (header.number64 - 1) header.parentHash parents
  fromExcept (checkSigners c.config snap header)
  verifySeal now chain header parents

/-- Verifying a header. -/
def verifyHeader (now : UnixTime) (chain : ChainReader) (header : Header)
    (parents : List Header) : EngineM Unit := do
  let c ← get
  fromExcept (verifyStandalone c.config now header)
  verifyCascadingFields now chain header parents

/-- Verifying a batch of headers, each with the ones before it as parents. -/
def verifyHeaders (now : UnixTime) (chain : ChainReader) (c : Prometheus) (before : List Header) :
    List Header → List (Except Err Unit)
  | [] => []
  | header :: headers =>
    match verifyHeader now chain header before c with
    | .ok _ c =>
      .ok () :: verifyHeaders now chain c (before ++ [header]) headers
    | .error e c =>
      .error e :: verifyHeaders now chain c (before ++ [header]) headers

/-! ### What acceptance says -/

variable {now : UnixTime} {chain : ChainReader} {header : Header} {parents : List Header}
  {config : PrometheusConfig} {snap : Historysnap} {signer : Address} {c c' : Prometheus}

omit [Crypto] in
theorem checkSealer_eq_ok : checkSealer snap header signer = .ok () ↔
      signerHash signer header.random ∈ snap.signers ∧ ∃ inturn,
        snap.inturn header.number64 (signerHash signer header.random) = .ok inturn ∧
          header.difficulty = if inturn then diffInTurn else diffNoTurn := by
  rw [checkSealer]
  by_cases hmem : signerHash signer header.random ∈ snap.signers
  · rw [if_neg (not_not.2 hmem)]
    cases snap.inturn header.number64 (signerHash signer header.random) with
    | error e => simp
    | ok inturn =>
      cases inturn <;> simp [hmem]
  · simp [hmem]

theorem checkParent_eq_ok : checkParent config chain header parents = .ok () ↔
      ∃ parent, parentOf chain header parents = some parent ∧
        parent.number64 = header.number64 - 1 ∧ parent.hash = header.parentHash ∧
        .ofNat parent.time + config.period ≤ .ofNat header.time := by
  rw [checkParent]
  cases parentOf chain header parents with
  | none => simp
  | some parent =>
    simp only [Option.some.injEq, exists_eq_left']
    by_cases hlink : parent.number64 = header.number64 - 1 ∧ parent.hash = header.parentHash
    · simp [hlink.1, hlink.2]
    rw [if_pos (not_and_or.1 hlink)]
    simp only [reduceCtorEq, false_iff]
    exact fun h => hlink ⟨h.1, h.2.1⟩

/-- **What an accepted seal says.** -/
theorem verifySeal_eq_ok : verifySeal now chain header parents c = .ok () c' ↔
      header.number64 ≠ 0 ∧ ∃ snap c₁ signer,
        snapshot now chain (header.number64 - 1) header.parentHash parents c = .ok snap c₁ ∧
        (ecrecover header c₁.signatures).1 = .ok signer ∧ checkSealer snap header signer = .ok () ∧
        c' = { c₁ with signatures := (ecrecover header c₁.signatures).2 } := by
  rw [verifySeal]
  by_cases hzero : header.number64 = 0
  · simp only [ne_eq, hzero, not_true_eq_false, false_and, iff_false]
    exact fun h => by cases h
  simp only [ne_eq, hzero, not_false_eq_true, true_and]
  constructor
  · intro h
    obtain ⟨snap, c₁, hsnap, h⟩ := bind_eq_ok.1 h
    obtain ⟨signer, c₂, hsigner, h⟩ := bind_eq_ok.1 h
    obtain ⟨hrec, rfl⟩ := withSignatures_eq_ok.1 hsigner
    obtain ⟨hcheck, rfl⟩ := fromExcept_eq_ok.1 h
    exact ⟨snap, c₁, signer, hsnap, hrec, hcheck, rfl⟩
  · rintro ⟨snap, c₁, signer, hsnap, hrec, hcheck, rfl⟩
    exact bind_eq_ok.2 ⟨snap, c₁, hsnap, bind_eq_ok.2 ⟨signer, _,
      withSignatures_eq_ok.2 ⟨hrec, rfl⟩, fromExcept_eq_ok.2 ⟨hcheck, rfl⟩⟩⟩

theorem verifyCascadingFields_zero (h : header.number64 = 0) :
    verifyCascadingFields now chain header parents c = .ok () c := by
  rw [verifyCascadingFields, if_pos h]
  rfl

/-- **What is checked against the parent.** -/
theorem verifyCascadingFields_eq_ok (hne : header.number64 ≠ 0) :
    verifyCascadingFields now chain header parents c = .ok () c' ↔
      checkParent c.config chain header parents = .ok () ∧ ∃ snap c₁,
        snapshot now chain (header.number64 - 1) header.parentHash parents c = .ok snap c₁ ∧
        checkSigners c.config snap header = .ok () ∧
        verifySeal now chain header parents c₁ = .ok () c' := by
  rw [verifyCascadingFields, if_neg hne, get_bind]
  constructor
  · intro h
    obtain ⟨_, _, hrun₁, h₁⟩ := bind_eq_ok.1 h
    obtain ⟨hparent, rfl⟩ := fromExcept_eq_ok.1 hrun₁
    obtain ⟨snap, c₁, hsnap, h₂⟩ := bind_eq_ok.1 h₁
    obtain ⟨_, _, hrun₂, hseal⟩ := bind_eq_ok.1 h₂
    obtain ⟨hsigners, rfl⟩ := fromExcept_eq_ok.1 hrun₂
    exact ⟨hparent, snap, _, hsnap, hsigners, hseal⟩
  · rintro ⟨hparent, snap, c₁, hsnap, hsigners, hseal⟩
    exact bind_eq_ok.2 ⟨(), c, fromExcept_eq_ok.2 ⟨hparent, rfl⟩, bind_eq_ok.2 ⟨snap, c₁, hsnap,
      bind_eq_ok.2 ⟨(), c₁, fromExcept_eq_ok.2 ⟨hsigners, rfl⟩, hseal⟩⟩⟩

theorem verifyHeader_eq_ok : verifyHeader now chain header parents c = .ok () c' ↔
      Standalone c.config now header ∧
        verifyCascadingFields now chain header parents c = .ok () c' := by
  rw [verifyHeader, get_bind, ← verifyStandalone_eq_ok]
  constructor
  · intro h
    obtain ⟨_, _, hrun, hcascading⟩ := bind_eq_ok.1 h
    obtain ⟨hstandalone, rfl⟩ := fromExcept_eq_ok.1 hrun
    exact ⟨hstandalone, hcascading⟩
  · rintro ⟨hstandalone, h⟩
    exact bind_eq_ok.2 ⟨(), c, fromExcept_eq_ok.2 ⟨hstandalone, rfl⟩, h⟩

theorem verifyHeader_genesis : verifyHeader now chain chain.genesis parents c =
      (fromExcept (verifyStandalone c.config now chain.genesis) : EngineM Unit) c := by
  rw [verifyHeader, get_bind]
  cases hcheck : verifyStandalone c.config now chain.genesis with
  | ok u => exact verifyCascadingFields_zero chain.genesis_number
  | error e => rfl

end Prometheus

/-! ### A node at the genesis block -/

namespace Sample

/-- A chain that consists of the genesis block. -/
def chain : ChainReader where
  getHeader hash number := if hash = genesisHash ∧ number = 0 then some genesis else none
  genesis := genesis
  getRandom := ascii "a"
  genesis_number := by decide

/-- An engine without snapshots. -/
def engine : Prometheus where
  config := config
  db := ∅
  recents := Arc.new inmemoryHistorysnaps
  signatures := Arc.new inmemorySignatures
  proposals := ∅
  signer := member
  signFn := fun _ _ => .error .errSigner

end Sample

/-- What a method returned. -/
def outcome {α : Type} : EStateM.Result Err Prometheus α → Except Err α
  | .ok a _ => .ok a
  | .error e _ => .error e

/-- The engine a method left behind. -/
def engineAfter {α : Type} : EStateM.Result Err Prometheus α → Prometheus
  | .ok _ c => c
  | .error _ c => c

theorem eq_ok_of_outcome {α : Type} {r : EStateM.Result Err Prometheus α} {a : α}
    (h : outcome r = .ok a) : r = .ok a (engineAfter r) := by
  cases r with
  | ok b c =>
    cases h
    rfl
  | error e c => cases h

open Sample in
theorem Sample.verifyHeader_addOutsider :
    outcome (Prometheus.verifyHeader 2000 chain addOutsider [] engine) = .ok () := by
  decide +kernel
