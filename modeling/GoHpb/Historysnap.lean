/-
**Voting snapshots.**

A snapshot records, for one block of the chain, who may seal blocks and which votes are pending.
Every header carries a vote: its `coinbaseHash` names an identity and its nonce says whether to
add or to drop it.  `Historysnap.apply` runs over a list of headers, lets the sealer of each
replace its earlier vote on the same identity, and changes the signer set when more than half of
the signers agree.

Go maps are finite maps and sets; nothing here depends on the order in which a map is iterated,
since `Historysnap.signersList` sorts.  The configuration and the signature cache, which every
snapshot of an engine shares, are arguments.  The header loop is cut into the steps of the source:
`startHeader`, `discardPrevious`, `castVote` and `settle`.

Main results:

* `Historysnap.applyVote_eq_ok` — **what one header does**, the inversion of `applyVote`;
* `Historysnap.applyVotes_invariant`, `Historysnap.Reachable.invariant` — **the run rules**: what
  every header keeps holds along every run.
-/

import GoHpb.BlockHeader
import GoHpb.ArcCache
import GoHpb.ExchangeSort

/-! ### The data of a snapshot -/

/-- The parameters of the engine.  An epoch of length zero is replaced by a default when the engine
is created, so that the division by it is defined. -/
structure PrometheusConfig where
  period : UInt64
  epoch : UInt64
  epoch_ne_zero : epoch ≠ 0

/-- Whether a block number is a multiple of the epoch, where pending votes are dropped. -/
def PrometheusConfig.checkpoint (config : PrometheusConfig) (number : UInt64) : Bool :=
  number % config.epoch = 0

/-- A pending vote. -/
structure Vote where
  signer : AddressHash
  block : UInt64
  addressHash : AddressHash
  authorize : Bool
  deriving DecidableEq

/-- The count of the pending votes about one identity. -/
structure Tally where
  authorize : Bool
  votes : ℕ
  deriving DecidableEq

/-- The counts of all pending votes. -/
abbrev Tallies : Type := Finmap fun _ : AddressHash => Tally

/-- The state of the votes at a block. -/
structure Historysnap where
  number : UInt64
  hash : Hash
  signers : Finset AddressHash
  recents : Finmap fun _ : UInt64 => AddressHash
  votes : List Vote
  tally : Tallies
  deriving DecidableEq

/-- The snapshot of a block at which the signers are known and no vote is pending. -/
def newHistorysnap (number : UInt64) (hash : Hash) (signersHash : List AddressHash) : Historysnap :=
  { number := number, hash := hash, signers := signersHash.toFinset, recents := ∅, votes := [],
    tally := ∅ }

/-! ### The vote pool -/

namespace Tallies

/-- Counting one more vote; the first one fixes the direction. -/
def increment (t : Tallies) (address : AddressHash) (authorize : Bool) : Tallies :=
  match t.lookup address with
  | some old => t.insert address { old with votes := old.votes + 1 }
  | none => t.insert address { authorize := authorize, votes := 1 }

/-- Counting one vote less; a count that would reach zero is deleted. -/
def decrement (t : Tallies) (address : AddressHash) (authorize : Bool) : Bool × Tallies :=
  match t.lookup address with
  | none => (false, t)
  | some tally =>
    if tally.authorize ≠ authorize then (false, t)
    else if 1 < tally.votes then (true, t.insert address { tally with votes := tally.votes - 1 })
    else (true, t.erase address)

end Tallies

namespace Historysnap

variable (s : Historysnap) (address : AddressHash) (authorize : Bool)

/-- A vote makes sense if it adds an identity that is not a signer or drops one that is. -/
def validVote : Bool :=
  (address ∈ s.signers && !authorize) || (address ∉ s.signers && authorize)

/-- Adding a vote to the pool, if it makes sense. -/
def cast : Bool × Historysnap :=
  if s.validVote address authorize then
    (true, { s with tally := s.tally.increment address authorize })
  else (false, s)

/-- Taking a vote out of the pool. -/
def uncast : Bool × Historysnap :=
  ((s.tally.decrement address authorize).1,
    { s with tally := (s.tally.decrement address authorize).2 })

theorem validVote_eq_true {s : Historysnap} {address : AddressHash} {authorize : Bool} :
    s.validVote address authorize = true ↔ authorize = decide (address ∉ s.signers) := by
  by_cases h : address ∈ s.signers <;> cases authorize <;> simp [validVote, h]

/-! ### Whose turn it is -/

/-- The signers in ascending order. -/
def signersList (s : Historysnap) : List AddressHash := sortedKeys s.signers

/-- The position of a signer; the number of signers for anybody else. -/
def getOffset (s : Historysnap) (signerHash : AddressHash) : UInt64 :=
  .ofNat (s.signersList.idxOf signerHash)

/-- Whether a signer is in turn at a block number; the remainder is undefined if there are no
signers. -/
def inturn (s : Historysnap) (number : UInt64) (signerHash : AddressHash) : Except Err Bool :=
  if s.signersList.length = 0 then .error .panicDivide
  else .ok (number % .ofNat s.signersList.length = s.getOffset signerHash)

/-- **Deciding whose turn it is fails exactly when there are no signers.** -/
theorem inturn_eq_panic_iff (s : Historysnap) (number : UInt64) (signerHash : AddressHash) :
    s.inturn number signerHash = .error .panicDivide ↔ s.signers = ∅ := by
  simp only [inturn, signersList, length_sortedKeys, Finset.card_eq_zero]
  split_ifs with h <;> simp [h]

end Historysnap

/-! ### The sealer of a header -/

/-- The cache of the sealers that were already recovered, by the hash of the header. -/
abbrev SigCache : Type := Arc Hash Address

/-- The account that signed a header. -/
def recoverSigner [Crypto] (header : Header) : Except Err Address :=
  if header.extra.length < extraSeal then .error .errMissingSignature
  else (recoverPubkey (sigHash header).bytes header.signature).map pubkeyAddress

/-- The account that signed a header, from the cache if it is there. -/
def ecrecover [Crypto] (header : Header) (sigcache : SigCache) : Except Err Address × SigCache :=
  match sigcache.get header.hash with
  | (some address, sigcache) => (.ok address, sigcache)
  | (none, sigcache) =>
    match recoverSigner header with
    | .error e => (.error e, sigcache)
    | .ok signer => (.ok signer, sigcache.add header.hash signer)

/-! ### Processing a header -/

/-- The direction of the vote a header carries. -/
def voteDirection (nonce : BlockNonce) : Except Err Bool :=
  if nonce = nonceAuthVote then .ok true
  else if nonce = nonceDropVote then .ok false
  else .error .errInvalidVote

namespace Historysnap

/-- The length of the window in which a sealer counts as recent. -/
def limit (s : Historysnap) : UInt64 := .ofNat (s.signers.card / 2 + 1)

/-- Dropping the sealer that leaves the window. -/
def forgetRecent (s : Historysnap) (number : UInt64) : Historysnap :=
  if s.limit ≤ number then { s with recents := s.recents.erase (number - s.limit) } else s

/-- Before the sealer of a header is looked at: votes are dropped at a checkpoint, and the oldest
recent sealer is forgotten. -/
def startHeader (config : PrometheusConfig) (s : Historysnap) (number : UInt64) : Historysnap :=
  (if config.checkpoint number then { s with votes := [], tally := ∅ } else s).forgetRecent number

/-- The vote of a signer about an identity. -/
def isVote (signerHash address : AddressHash) (v : Vote) : Bool :=
  v.signer = signerHash && v.addressHash = address

variable (s : Historysnap)

/-- Discarding the earlier vote of a signer about an identity. -/
def discardPrevious (signerHash address : AddressHash) : Historysnap :=
  match s.votes.find? (isVote signerHash address) with
  | none => s
  | some vote =>
    { (s.uncast vote.addressHash vote.authorize).2 with
      votes := s.votes.eraseP (isVote signerHash address) }

/-- Casting the vote of a header; one that makes no sense is not recorded. -/
def castVote (vote : Vote) : Historysnap :=
  if (s.cast vote.addressHash vote.authorize).1 then
    { (s.cast vote.addressHash vote.authorize).2 with votes := s.votes ++ [vote] }
  else (s.cast vote.addressHash vote.authorize).2

/-- Discarding the votes a dropped signer had cast. -/
def discardBy (address : AddressHash) : Historysnap :=
  { (s.votes.filter fun v => v.signer = address).foldl
      (fun s v => (s.uncast v.addressHash v.authorize).2) s with
    votes := s.votes.filter fun v => v.signer ≠ address }

/-- Discarding the votes about an identity whose membership has just changed. -/
def discardAbout (address : AddressHash) : Historysnap :=
  { s with
    votes := s.votes.filter fun v => v.addressHash ≠ address
    tally := s.tally.erase address }

/-- Changing the membership of an identity. -/
def changeSigner (number : UInt64) (address : AddressHash) (authorize : Bool) :
    Historysnap :=
  if authorize then { s with signers := insert address s.signers }
  else
    (({ s with signers := s.signers.erase address } : Historysnap).forgetRecent number).discardBy
      address

/-- If the votes about an identity are more than half of the signers, its membership changes. -/
def settle (number : UInt64) (address : AddressHash) : Historysnap :=
  match s.tally.lookup address with
  | none => s
  | some tally =>
    if s.signers.card / 2 < tally.votes then
      (s.changeSigner number address tally.authorize).discardAbout address
    else s

/-- The state just before the votes are compared with the threshold. -/
def polled (config : PrometheusConfig) (s : Historysnap) (vote : Vote) : Historysnap :=
  let s := s.startHeader config vote.block
  let s := { s with recents := s.recents.insert vote.block vote.signer }
  (s.discardPrevious vote.signer vote.addressHash).castVote vote

/-- The vote of a header sealed by a given account. -/
def voteOf (header : Header) (signer : Address) (authorize : Bool) : Vote :=
  { signer := signerHash signer header.random, block := header.number64,
    addressHash := header.coinbaseHash, authorize := authorize }

/-- Processing a header whose sealer is known. -/
def applyVote (config : PrometheusConfig) (s : Historysnap) (header : Header) (signer : Address) :
    Except Err Historysnap :=
  if signerHash signer header.random ∉ s.signers then .error .errUnauthorized
  else match voteDirection header.nonce with
    | .error e => .error e
    | .ok authorize =>
      .ok ((s.polled config (voteOf header signer authorize)).settle header.number64
        header.coinbaseHash)

variable [Crypto]

/-- Processing a header. -/
def applyHeader (config : PrometheusConfig) (s : Historysnap) (header : Header)
    (sigcache : SigCache) : Except Err Historysnap × SigCache :=
  match ecrecover header sigcache with
  | (.error e, sigcache) => (.error e, sigcache)
  | (.ok signer, sigcache) => (s.applyVote config header signer, sigcache)

/-- Processing headers one after the other, up to the first error. -/
def applyLoop (config : PrometheusConfig) :
    Historysnap → List Header → SigCache → Except Err Historysnap × SigCache
  | s, [], sigcache => (.ok s, sigcache)
  | s, header :: headers, sigcache =>
    match s.applyHeader config header sigcache with
    | (.error e, sigcache) => (.error e, sigcache)
    | (.ok s, sigcache) => applyLoop config s headers sigcache

/-- Whether every header has the number after the one before it. -/
def contiguous (headers : List Header) : Bool :=
  headers.IsChain fun h k => k.number64 = h.number64 + 1

/-- The snapshot after a list of headers. -/
def apply (config : PrometheusConfig) (s : Historysnap) (headers : List Header)
    (sigcache : SigCache) : Except Err Historysnap × SigCache :=
  match headers with
  | [] => (.ok s, sigcache)
  | header :: rest =>
    if ¬ contiguous (header :: rest) then (.error .errInvalidVotingChain, sigcache)
    else if header.number64 ≠ s.number + 1 then
      (.error .errInvalidVotingChain, sigcache)
    else match s.applyLoop config (header :: rest) sigcache with
      | (.error e, sigcache) => (.error e, sigcache)
      | (.ok snap, sigcache) =>
        (.ok { snap with
          number := snap.number + .ofNat (header :: rest).length
          hash := ((header :: rest).getLast (List.cons_ne_nil _ _)).hash }, sigcache)

/-! ### What one header does -/

omit [Crypto] in
/-- **What one header does**: its sealer is a signer, its nonce is a vote, and the vote is cast and
settled. -/
theorem applyVote_eq_ok {config : PrometheusConfig} {s s' : Historysnap} {header : Header}
    {signer : Address} (h : s.applyVote config header signer = .ok s') :
    signerHash signer header.random ∈ s.signers ∧ ∃ authorize,
      voteDirection header.nonce = .ok authorize ∧
        s' = (s.polled config (voteOf header signer authorize)).settle header.number64
          header.coinbaseHash := by
  simp only [applyVote] at h
  split_ifs at h with hmem
  refine ⟨hmem, ?_⟩
  cases hdir : voteDirection header.nonce with
  | error e => simp [hdir] at h
  | ok authorize =>
    simp only [hdir, Except.ok.injEq] at h
    exact ⟨authorize, rfl, h.symm⟩

theorem applyHeader_eq_ok {config : PrometheusConfig} {s s' : Historysnap} {header : Header}
    {sigcache : SigCache} (h : (s.applyHeader config header sigcache).1 = .ok s') :
    ∃ signer, (ecrecover header sigcache).1 = .ok signer ∧
      s.applyVote config header signer = .ok s' := by
  simp only [applyHeader] at h
  rcases hr : ecrecover header sigcache with ⟨e | signer, c⟩
  · simp [hr] at h
  · exact ⟨signer, rfl, by simpa [hr] using h⟩

theorem applyHeader_snd (config : PrometheusConfig) (s : Historysnap) (header : Header)
    (sigcache : SigCache) :
    (s.applyHeader config header sigcache).2 = (ecrecover header sigcache).2 := by
  simp only [applyHeader]
  rcases ecrecover header sigcache with ⟨e | signer, c⟩ <;> rfl

/-! ### Runs -/

/-- Applying the votes of headers whose sealers are known. -/
def applyVotes (config : PrometheusConfig) :
    Historysnap → List (Header × Address) → Except Err Historysnap
  | s, [] => .ok s
  | s, e :: es =>
    match s.applyVote config e.1 e.2 with
    | .error err => .error err
    | .ok s => applyVotes config s es

end Historysnap

/-- The headers of a run together with the accounts recovered for them. -/
def recovered [Crypto] : List Header → SigCache → List (Header × Address)
  | [], _ => []
  | header :: headers, sigcache =>
    match ecrecover header sigcache with
    | (.error _, _) => []
    | (.ok signer, sigcache) => (header, signer) :: recovered headers sigcache

namespace Historysnap

variable {config : PrometheusConfig} {s s' : Historysnap}

theorem applyVotes_cons_eq_ok {e : Header × Address} {es : List (Header × Address)}
    (h : s.applyVotes config (e :: es) = .ok s') :
    ∃ m, s.applyVote config e.1 e.2 = .ok m ∧ m.applyVotes config es = .ok s' := by
  simp only [applyVotes] at h
  cases hm : s.applyVote config e.1 e.2 with
  | error err => simp [hm] at h
  | ok m => exact ⟨m, rfl, by simpa [hm] using h⟩

/-- **The run rule**: what holds at the start and is kept by every header holds at the end.  The
property may speak about the headers processed so far. -/
theorem applyVotes_invariant {P : List (Header × Address) → Historysnap → Prop}
    (hstep : ∀ hist s s' e, P hist s → s.applyVote config e.1 e.2 = .ok s' → P (hist ++ [e]) s')
    {es : List (Header × Address)} (h : s.applyVotes config es = .ok s') :
    ∀ hist, P hist s → P (hist ++ es) s' := by
  induction es generalizing s with
  | nil =>
    intro hist hP
    cases h
    simpa using hP
  | cons e es ih =>
    intro hist hP
    obtain ⟨m, hm, hrest⟩ := applyVotes_cons_eq_ok h
    simpa using ih hrest (hist ++ [e]) (hstep hist s m e hP hm)

variable [Crypto] {headers : List Header} {sigcache : SigCache}

theorem applyLoop_cons_eq_ok {header : Header}
    (h : (s.applyLoop config (header :: headers) sigcache).1 = .ok s') :
    ∃ signer m, (ecrecover header sigcache).1 = .ok signer ∧
      s.applyVote config header signer = .ok m ∧
      (m.applyLoop config headers (ecrecover header sigcache).2).1 = .ok s' := by
  simp only [applyLoop] at h
  have hsnd := applyHeader_snd config s header sigcache
  rcases hm : s.applyHeader config header sigcache with ⟨e | m, c⟩
  · simp [hm] at h
  have hfst : (s.applyHeader config header sigcache).1 = .ok m := by rw [hm]
  obtain ⟨signer, hs, hv⟩ := applyHeader_eq_ok hfst
  simp only [hm] at h hsnd
  exact ⟨signer, m, hs, hv, hsnd ▸ h⟩

theorem applyLoop_eq_ok (h : (s.applyLoop config headers sigcache).1 = .ok s') :
    s.applyVotes config (recovered headers sigcache) = .ok s' ∧
      (recovered headers sigcache).map Prod.fst = headers := by
  induction headers generalizing s sigcache with
  | nil => exact ⟨h, rfl⟩
  | cons header headers ih =>
    obtain ⟨signer, m, hs, hv, hrest⟩ := applyLoop_cons_eq_ok h
    obtain ⟨hvotes, hmap⟩ := ih hrest
    rcases hr : ecrecover header sigcache with ⟨e | x, c⟩
    · simp [hr] at hs
    simp only [hr, Except.ok.injEq] at hs hvotes hmap
    subst hs
    simp only [recovered, hr, applyVotes, hv, List.map_cons, hmap]
    exact ⟨hvotes, trivial⟩

theorem apply_cons_eq_ok {header : Header}
    (h : (s.apply config (header :: headers) sigcache).1 = .ok s') :
    contiguous (header :: headers) = true ∧ header.number64 = s.number + 1 ∧
      ∃ m, (s.applyLoop config (header :: headers) sigcache).1 = .ok m ∧ s' = { m with
          number := m.number + .ofNat (header :: headers).length
          hash := ((header :: headers).getLast (List.cons_ne_nil _ _)).hash } := by
  simp only [apply] at h
  split_ifs at h with hcont hnum
  refine ⟨by simpa using hcont, by simpa using hnum, ?_⟩
  rcases hm : s.applyLoop config (header :: headers) sigcache with ⟨e | m, c⟩
  · simp [hm] at h
  · simp only [hm, Except.ok.injEq] at h
    exact ⟨m, rfl, h.symm⟩

/-! ### Reachable snapshots -/

/-- The snapshots reached from a new one by successful calls of `apply`, with the headers that
were processed on the way. -/
inductive Reachable (config : PrometheusConfig) : List (Header × Address) → Historysnap → Prop
  | new (number : UInt64) (hash : Hash) (signersHash : List AddressHash) :
      Reachable config [] (newHistorysnap number hash signersHash)
  | apply {hist : List (Header × Address)} {s s' : Historysnap} {headers : List Header}
      {sigcache : SigCache} :
      Reachable config hist s → (s.apply config headers sigcache).1 = .ok s' →
        Reachable config (hist ++ recovered headers sigcache) s'

/-- **The rule for reachable snapshots**: what holds of a new snapshot, does not depend on its
number and hash, and is kept by every header, holds of every reachable snapshot. -/
theorem Reachable.invariant {P : List (Header × Address) → Historysnap → Prop}
    (hnew : ∀ number hash signersHash, P [] (newHistorysnap number hash signersHash))
    (hhead : ∀ hist s number hash, P hist s → P hist { s with number := number, hash := hash })
    (hstep : ∀ hist s s' e, P hist s → s.applyVote config e.1 e.2 = .ok s' →
      P (hist ++ [e]) s')
    {hist : List (Header × Address)} (h : Reachable config hist s) : P hist s := by
  induction h with
  | new number hash signersHash => exact hnew number hash signersHash
  | @apply hist s s' headers sigcache _ happ ih =>
    cases headers with
    | nil =>
      cases happ
      simpa [recovered] using ih
    | cons header rest =>
      obtain ⟨-, -, m, hm, rfl⟩ := apply_cons_eq_ok happ
      exact hhead _ _ _ _ (applyVotes_invariant hstep (applyLoop_eq_ok hm).1 _ ih)

end Historysnap
