/-
**The download scheduler.**

The scheduler of `synctrl` is given a chain of headers, and hands the retrieval of their bodies and
receipts out to peers.  A part of a block that is still missing waits in a task queue ordered by
number; a peer reserves a batch of tasks, and delivers the contents, or the batch is given back.
The contents gather in a result cache, whose first entry is the block of number `resultOffset`;
complete results leave the cache in order.
-/

import GoHpb.BigWord
import GoHpb.Trie
import GoHpb.WorkLedger

namespace Synctrl

open MerkleTrie (Trie Node TrieErr)
open WorkLedger (popMin)

/-! ### The digests of the contents of a block -/

/-- `Update` of a trie without a database; an error is only logged. -/
def updateTrie (t : Trie) (key value : Bytes) : Trie :=
  match t.tryUpdate ∅ key value with
  | .ok t' => t'
  | .error _ => t

/-- `DeriveSha`: the root of a trie with the encodings of the items under their indices. -/
def deriveSha [Crypto] (items : List Bytes) : Except TrieErr Hash :=
  let trie := items.zipIdx.foldl
    (fun t item => updateTrie t (Rlp.encode (.str (bigBytes item.2))) item.1)
    ⟨.nil, FixedBytes.zero 32, 0, 0⟩
  trie.hash.map Prod.fst

def calcUncleHash [Crypto] (uncles : List Header) : Hash :=
  Crypto.keccak256 (Rlp.encode (.list (uncles.map Header.rlpItem)))

/-- The encoding of an item of a list, `GetRlp`. -/
class GetRlp (α : Type) where
  getRlp : α → Bytes

export GetRlp (getRlp)

/-! ### Priorities -/

/-- A number as a 32-bit float: the leading 24 bits, the rest rounded to the nearest, ties to
even. -/
def float32 (n : ℕ) : ℕ :=
  if n < 2 ^ 24 then n
  else
    let unit := 2 ^ (n.log2 - 23)
    let lead := n / unit
    let rest := n % unit
    if unit < 2 * rest ∨ (2 * rest = unit ∧ lead % 2 = 1) then (lead + 1) * unit else lead * unit

/-- The number of a header as the scheduler reads it, `Number.Uint64()`. -/
def number (header : Header) : ℕ := header.number % 2 ^ 64

theorem number_of_lt {header : Header} (h : header.number < 2 ^ 24) :
    number header = header.number :=
  Nat.mod_eq_of_lt (h.trans (by norm_num))

/-- The priority of a header in a task queue, up to the sign: the least one comes first. -/
def priority (header : Header) : ℕ := float32 (number header)

theorem priority_of_lt {header : Header} (h : header.number < 2 ^ 24) :
    priority header = header.number := by
  rw [priority, number_of_lt h, float32, if_pos h]

/-! ### The state -/

inductive SyncMode where
  | fullSync
  | fastSync
  | lightSync
  deriving DecidableEq

/-- The errors of the scheduler, a partial failure with the one that stopped it, and the panic of an
index out of range. -/
inductive SyncErr where
  | errInvalidChain
  | errInvalidBody
  | errInvalidReceipt
  | errNoFetchesPending
  | errStaleDelivery
  | partialFailure (failure : SyncErr)
  | panicIndex
  deriving DecidableEq

/-- A retrieval that a peer is working on. -/
structure FetchRequest where
  headers : List Header
  time : ℕ

/-- The parts of a block collected so far, and how many are still pending. -/
structure FetchResult (Tx Rcpt : Type) where
  pending : ℤ
  header : Header
  uncles : List Header
  transactions : List Tx
  receipts : List Rcpt

/-- One part less is pending. -/
def FetchResult.settle {Tx Rcpt : Type} (r : FetchResult Tx Rcpt) : FetchResult Tx Rcpt :=
  { r with pending := r.pending - 1 }

/-- The tasks of one part of the blocks: the hashes of those that are not done, the ones that wait,
the requests of the peers, and the hashes of those that are done. -/
structure Lane where
  taskPool : Finset Hash
  taskQueue : List Header
  pendPool : AList fun _ : String => FetchRequest
  donePool : Finset Hash

/-- The two parts of a block that are retrieved apart from the header. -/
inductive Part where
  | block
  | receipt
  deriving DecidableEq

/-- The scheduler. -/
structure Scheduler (Tx Rcpt : Type) where
  mode : SyncMode
  fastSyncPivot : ℕ
  headerHead : Hash
  block : Lane
  receipt : Lane
  resultCache : List (Option (FetchResult Tx Rcpt))
  resultOffset : ℕ

namespace Lane

/-- No tasks. -/
def empty : Lane := ⟨∅, [], ∅, ∅⟩

/-- The headers of all requests. -/
def inFlight (l : Lane) : List Header := l.pendPool.entries.flatMap fun e => e.2.headers

/-- A new task. -/
def add [Crypto] (l : Lane) (header : Header) : Lane :=
  { l with taskPool := insert header.hash l.taskPool, taskQueue := l.taskQueue ++ [header] }

/-- A task is done. -/
def finish [Crypto] (l : Lane) (header : Header) : Lane :=
  { l with taskPool := l.taskPool.erase header.hash, donePool := insert header.hash l.donePool }

variable (l : Lane)

/-- Headers go back into the queue. -/
def push (headers : List Header) : Lane :=
  { l with taskQueue := l.taskQueue ++ headers }

/-- A request is deleted. -/
def forget (id : String) : Lane := { l with pendPool := l.pendPool.erase id }

/-- The headers of a request go back into the queue, and the request is deleted. -/
def giveBack (id : String) (request : FetchRequest) : Lane :=
  (l.push request.headers).forget id

/-- Done tasks are dropped. -/
def drop (hashes : Finset Hash) : Lane := { l with donePool := l.donePool \ hashes }

/-- `Revoke` for the tasks of one part. -/
def revoke (peerId : String) : Lane :=
  match l.pendPool.lookup peerId with
  | some request => l.giveBack peerId request
  | none => l

/-- The requests that are older than a timeout. -/
def expired (now timeout : ℕ) : List (Σ _ : String, FetchRequest) :=
  l.pendPool.entries.filter fun e => timeout < now - e.2.time

/-- `expire` at a time: the peers with the numbers of their headers, which go back into the
queue. -/
def expire (now timeout : ℕ) : List (String × ℕ) × Lane :=
  ((l.expired now timeout).map fun e => (e.1, e.2.headers.length),
    { l with
      taskQueue := l.taskQueue ++ (l.expired now timeout).flatMap fun e => e.2.headers
      pendPool := ⟨l.pendPool.entries.filter fun e => ¬ timeout < now - e.2.time,
        l.pendPool.nodupKeys.sublist List.filter_sublist⟩ })

end Lane

/-- A peer: its name, and the hashes it is known to lack. -/
structure PeerConnection where
  id : String
  lacks : Hash → Bool

namespace Scheduler

variable {Tx Rcpt : Type}

/-- `newScheduler` followed by `Prepare`. -/
def prepared (blockCacheLimit offset : ℕ) (mode : SyncMode) (pivot : ℕ) : Scheduler Tx Rcpt :=
  ⟨mode, pivot, FixedBytes.zero 32, Lane.empty, Lane.empty, List.replicate blockCacheLimit none,
    offset⟩

variable (s : Scheduler Tx Rcpt)

/-- The tasks of a part. -/
def lane : Part → Lane
  | .block => s.block
  | .receipt => s.receipt

/-- Replaces the tasks of a part. -/
def setLane (part : Part) (l : Lane) : Scheduler Tx Rcpt :=
  match part with
  | .block => { s with block := l }
  | .receipt => { s with receipt := l }

/-- Receipts are retrieved in the fast phase of a fast synchronisation. -/
def fastPhase (header : Header) : Bool :=
  s.mode = .fastSync ∧ number header ≤ s.fastSyncPivot

/-- The place of a header in the result cache. -/
def index (header : Header) : ℤ :=
  BigWord.int64 header.number - BigWord.int64 s.resultOffset

section Schedule

variable [Crypto]

/-- The header is queued for the retrieval of its contents. -/
def enqueue (s : Scheduler Tx Rcpt) (header : Header) : Scheduler Tx Rcpt :=
  { s with
    block := s.block.add header
    receipt := if s.fastPhase header then s.receipt.add header else s.receipt
    headerHead := header.hash }

/-- `Schedule`: the new headers, and the scheduler after it. -/
def schedule (s : Scheduler Tx Rcpt) : List Header → ℕ → List Header × Scheduler Tx Rcpt
  | [], _ => ([], s)
  | header :: headers, next =>
    if number header ≠ next then ([], s)
    else if s.headerHead ≠ FixedBytes.zero 32 ∧ s.headerHead ≠ header.parentHash then ([], s)
    else if header.hash ∈ s.block.taskPool ∨ header.hash ∈ s.receipt.taskPool then
      schedule s headers next
    else
      let r := schedule (s.enqueue header) headers (next + 1)
      (header :: r.1, r.2)

end Schedule

/-! ### Reserving tasks -/

/-- A result without contents. -/
def newResult (s : Scheduler Tx Rcpt) (header : Header) : FetchResult Tx Rcpt :=
  ⟨if s.fastPhase header then 2 else 1, header, [], [], []⟩

/-- The first to request a part of a block creates its result. -/
def touch (s : Scheduler Tx Rcpt) (i : ℕ) (header : Header) : Scheduler Tx Rcpt :=
  match s.resultCache[i]? with
  | some none => { s with resultCache := s.resultCache.set i (some (s.newResult header)) }
  | _ => s

/-- Changes the result at an index. -/
def modifyResult (s : Scheduler Tx Rcpt) (i : ℕ) (f : FetchResult Tx Rcpt → FetchResult Tx Rcpt) :
    Scheduler Tx Rcpt :=
  { s with resultCache := s.resultCache.modify i (Option.map f) }

/-- The variables of the loop of `reserveHeaders`. -/
structure Batch where
  space : ℤ
  proc : ℤ
  send : List Header
  skip : List Header
  progress : Bool

variable [Crypto]

/-- The loop of `reserveHeaders`: pops tasks while there is space for their results.  A task without
contents is done at once; one whose contents the peer lacks is skipped. -/
def reserveLoop (part : Part) (p : PeerConnection) (count : ℕ) (isNoop : Header → Bool) :
    ℕ → Batch → Scheduler Tx Rcpt → Except SyncErr Batch × Scheduler Tx Rcpt
  | 0, b, s => (.ok b, s)
  | rounds + 1, b, s =>
    if b.proc < b.space ∧ b.send.length < count then
      match popMin priority (s.lane part).taskQueue with
      | none => (.ok b, s)
      | some (header, queue) =>
        let s := s.setLane part { s.lane part with taskQueue := queue }
        let i := s.index header
        if (s.resultCache.length : ℤ) ≤ i ∨ i < 0 then
          (.error .errInvalidChain, s)
        else
          let s := s.touch i.toNat header
          if isNoop header then
            reserveLoop part p count isNoop rounds
              { b with space := b.space - 1, progress := true }
              ((s.setLane part ((s.lane part).finish header)).modifyResult i.toNat
                FetchResult.settle)
          else if p.lacks header.hash then
            reserveLoop part p count isNoop rounds
              { b with proc := b.proc + 1, skip := b.skip ++ [header] } s
          else
            reserveLoop part p count isNoop rounds
              { b with proc := b.proc + 1, send := b.send ++ [header] } s
    else (.ok b, s)

/-- The room for the results of new requests. -/
def space (s : Scheduler Tx Rcpt) (part : Part) : ℤ :=
  s.resultCache.length - (s.lane part).donePool.card - (s.lane part).inFlight.length

/-- `reserveHeaders` at a time: the request, and whether tasks were done on the way. -/
def reserveHeaders (s : Scheduler Tx Rcpt) (part : Part) (p : PeerConnection) (count now : ℕ)
    (isNoop : Header → Bool) : Except SyncErr (Option FetchRequest × Bool) × Scheduler Tx Rcpt :=
  let l := s.lane part
  if l.taskQueue = [] then (.ok (none, false), s)
  else if (l.pendPool.lookup p.id).isSome then (.ok (none, false), s)
  else
    match reserveLoop part p count isNoop l.taskQueue.length ⟨s.space part, 0, [], [], false⟩ s with
    | (.error e, s) => (.error e, s)
    | (.ok b, s) =>
      let l := (s.lane part).push b.skip
      if b.send = [] then (.ok (none, b.progress), s.setLane part l)
      else
        let request : FetchRequest := ⟨b.send, now⟩
        (.ok (some request, b.progress),
          s.setLane part { l with pendPool := l.pendPool.insert p.id request })

/-- A block without transactions and uncles. -/
def isNoopBody (header : Header) : Bool :=
  header.txHash = emptyRootHash ∧ header.uncleHash = emptyUncleHash

/-- A block without receipts. -/
def isNoopReceipt (header : Header) : Bool := header.receiptHash = emptyRootHash

variable (s : Scheduler Tx Rcpt)

def reserveBodies (p : PeerConnection) (count now : ℕ) :
    Except SyncErr (Option FetchRequest × Bool) × Scheduler Tx Rcpt :=
  s.reserveHeaders .block p count now isNoopBody

def reserveReceipts (p : PeerConnection) (count now : ℕ) :
    Except SyncErr (Option FetchRequest × Bool) × Scheduler Tx Rcpt :=
  s.reserveHeaders .receipt p count now isNoopReceipt

/-! ### Giving tasks back -/

/-- `cancel` of a request of a peer. -/
def cancel (part : Part) (id : String) (request : FetchRequest) :
    Scheduler Tx Rcpt :=
  s.setLane part ((s.lane part).giveBack id request)

/-- `Revoke`: both requests of a peer. -/
def revoke (peerId : String) : Scheduler Tx Rcpt :=
  { s with block := s.block.revoke peerId, receipt := s.receipt.revoke peerId }

/-- `ExpireBodies` and `ExpireReceipts`. -/
def expire (part : Part) (now timeout : ℕ) :
    List (String × ℕ) × Scheduler Tx Rcpt :=
  let r := (s.lane part).expire now timeout
  (r.1, s.setLane part r.2)

/-! ### Deliveries -/

/-- The loop of `deliver` from the header of number `i` on: how many contents were accepted, the
failure, and the headers that are left. -/
def deliverLoop (part : Part) (results : ℕ)
    (reconstruct : Header → ℕ → FetchResult Tx Rcpt → Except SyncErr (FetchResult Tx Rcpt)) :
    ℕ → List Header → Scheduler Tx Rcpt → ℕ × Option SyncErr × List Header × Scheduler Tx Rcpt
  | i, [], s => (i, none, [], s)
  | i, header :: headers, s =>
    if results ≤ i then (i, none, header :: headers, s)
    else if (s.resultCache.length : ℤ) ≤ s.index header ∨ s.index header < 0 then
      (i, some .errInvalidChain, header :: headers, s)
    else
      match s.resultCache[(s.index header).toNat]? with
      | some (some result) =>
        match reconstruct header i result with
        | .error e => (i, some e, header :: headers, s)
        | .ok result =>
          deliverLoop part results reconstruct (i + 1) headers
            ((s.setLane part ((s.lane part).finish header)).modifyResult
              (s.index header).toNat fun _ => result.settle)
      | _ => (i, some .errInvalidChain, header :: headers, s)

/-- The error of a delivery. -/
def deliveryErr (accepted : ℕ) : Option SyncErr → Option SyncErr
  | none => none
  | some .errInvalidChain => some .errInvalidChain
  | some e =>
    if 0 < accepted then some (.partialFailure e) else some .errStaleDelivery

/-- `deliver`: the number of accepted contents and the error. -/
def deliver (s : Scheduler Tx Rcpt) (part : Part) (id : String) (results : ℕ)
    (reconstruct : Header → ℕ → FetchResult Tx Rcpt → Except SyncErr (FetchResult Tx Rcpt)) :
    (ℕ × Option SyncErr) × Scheduler Tx Rcpt :=
  match (s.lane part).pendPool.lookup id with
  | none => ((0, some .errNoFetchesPending), s)
  | some request =>
    let s := s.setLane part ((s.lane part).forget id)
    let (accepted, failure, rest, s) := deliverLoop part results reconstruct 0 request.headers s
    ((accepted, deliveryErr accepted failure), s.setLane part ((s.lane part).push rest))

variable [GetRlp Tx] [GetRlp Rcpt]

/-- The contents of a body have the digests of the header. -/
def bodyFits (header : Header) (txs : List Tx) (uncles : List Header) : Bool :=
  deriveSha (txs.map getRlp) = .ok header.txHash ∧ calcUncleHash uncles = header.uncleHash

/-- The receipts have the digest of the header. -/
def receiptsFit (header : Header) (receipts : List Rcpt) : Bool :=
  deriveSha (receipts.map getRlp) = .ok header.receiptHash

/-- The callback of `DeliverBodies`. -/
def reconstructBody (txLists : List (List Tx)) (uncleLists : List (List Header)) (header : Header)
    (i : ℕ) (result : FetchResult Tx Rcpt) : Except SyncErr (FetchResult Tx Rcpt) :=
  match txLists[i]?, uncleLists[i]? with
  | some txs, some uncles =>
    if bodyFits header txs uncles then
      .ok { result with transactions := txs, uncles := uncles }
    else .error .errInvalidBody
  | _, _ => .error .panicIndex

/-- The callback of `DeliverReceipts`. -/
def reconstructReceipts (receiptList : List (List Rcpt)) (header : Header) (i : ℕ)
    (result : FetchResult Tx Rcpt) : Except SyncErr (FetchResult Tx Rcpt) :=
  match receiptList[i]? with
  | some receipts =>
    if receiptsFit header receipts then .ok { result with receipts := receipts }
    else .error .errInvalidReceipt
  | none => .error .panicIndex

def deliverBodies (s : Scheduler Tx Rcpt) (id : String) (txLists : List (List Tx))
    (uncleLists : List (List Header)) : (ℕ × Option SyncErr) × Scheduler Tx Rcpt :=
  s.deliver .block id txLists.length (reconstructBody txLists uncleLists)

def deliverReceipts (s : Scheduler Tx Rcpt) (id : String) (receiptList : List (List Rcpt)) :
    (ℕ × Option SyncErr) × Scheduler Tx Rcpt :=
  s.deliver .receipt id receiptList.length (reconstructReceipts receiptList)

/-! ### Complete results -/

/-- How many headers after the pivot have to be in the cache. -/
def fsHeaderForceVerify : ℕ := 24

/-- The next entries of the cache are there. -/
def verifiable (rest : List (Option (FetchResult Tx Rcpt))) : Bool :=
  (List.range fsHeaderForceVerify).all fun j =>
    match rest[j]? with
    | some (some _) => true
    | _ => false

/-- The loop of `countProcessableItems`, over the rest of the cache. -/
def countFrom (mode : SyncMode) (pivot : ℕ) : List (Option (FetchResult Tx Rcpt)) → ℕ
  | [] => 0
  | none :: _ => 0
  | some result :: rest =>
    if 0 < result.pending then 0
    else if mode = .fastSync ∧ number result.header = pivot ∧ ¬ verifiable rest then 0
    else countFrom mode pivot rest + 1

def countProcessableItems (s : Scheduler Tx Rcpt) : ℕ :=
  countFrom s.mode s.fastSyncPivot s.resultCache

/-- `WaitResults`, when the wait is over. -/
def waitResults (s : Scheduler Tx Rcpt) : List (FetchResult Tx Rcpt) × Scheduler Tx Rcpt :=
  let nproc := s.countProcessableItems
  let results := (s.resultCache.take nproc).reduceOption
  let hashes := (results.map fun r => r.header.hash).toFinset
  (results,
    { s with
      block := s.block.drop hashes
      receipt := s.receipt.drop hashes
      resultCache := s.resultCache.drop nproc ++ List.replicate nproc none
      resultOffset := s.resultOffset + nproc })

end Scheduler

end Synctrl
