/-
**The block puller.**

The puller of `synctrl` follows the announcements of new blocks.  An announcement waits in
`announced` for the block to arrive by itself; then one of the announcers is asked for the header,
and its announcement is in `fetching`; the ones whose headers came wait in `fetched`, and are in
`completing` while their bodies are retrieved.  The same announcement may be in two of the tables:
it is an object that they share.  A counter for each peer is to bound its outstanding announcements.
-/

import GoHpb.SyncScheduler
import GoHpb.FinmapTotal

namespace Synctrl

/-! ### The state -/

/-- The time allowance before an announced block is requested, in milliseconds. -/
def arriveTimeout : ℕ := 500

/-- The interval used to collate almost expired announcements with fetches. -/
def gatherSlack : ℕ := 100

/-- The time allowed to return a requested block. -/
def fetchTimeout : ℕ := 5000

/-- The allowed distance backward from the head of the chain. -/
def maxUncleDist : ℕ := 7

/-- The allowed distance forward from the head of the chain. -/
def maxQueueDist : ℕ := 32

/-- The number of blocks a peer may have announced. -/
def hashLimit : ℕ := 256

/-- The number of blocks a peer may have delivered. -/
def blockLimit : ℕ := 64

/-- An announcement; its header comes later. -/
structure Announce where
  hash : Hash
  number : ℕ
  header : Option Header
  time : ℕ
  origin : String

/-- A block as it was put together. -/
structure PulledBlock (Tx : Type) where
  header : Header
  transactions : List Tx
  uncles : List Header
  deriving DecidableEq

/-- An import that is scheduled. -/
structure Inject (Tx : Type) where
  origin : String
  block : PulledBlock Tx
  deriving DecidableEq

/-- The state of the loop.  An announcement is named by its index in the list of all those that were
accepted, so that the tables can share it. -/
structure Puller (Tx : Type) where
  heap : List Announce
  announces : String → ℤ
  announced : Finmap fun _ : Hash => List ℕ
  fetching : Finmap fun _ : Hash => ℕ
  fetched : Finmap fun _ : Hash => List ℕ
  completing : Finmap fun _ : Hash => ℕ
  queue : List (Inject Tx)
  queues : String → ℤ
  queued : Finmap fun _ : Hash => Inject Tx

/-- What the local chain answers while an event is handled: its height, and whether it has a
block. -/
structure LocalChain where
  chainHeight : ℕ
  getBlock : Hash → Bool

/-- The distance of a number from the head of the chain, as a signed number. -/
def LocalChain.dist (chain : LocalChain) (n : ℕ) : ℤ :=
  (BigWord.int64 n - BigWord.int64 chain.chainHeight).bmod (2 ^ 64)

/-- The number is too far away from the head of the chain. -/
def LocalChain.far (chain : LocalChain) (n : ℕ) : Bool :=
  chain.dist n < -maxUncleDist ∨ (maxQueueDist : ℤ) < chain.dist n

namespace Puller

variable {Tx : Type}

/-- `NewPuller`. -/
def new : Puller Tx := ⟨[], fun _ => 0, ∅, ∅, ∅, ∅, [], fun _ => 0, ∅⟩

variable (s : Puller Tx)

/-- The origin of an announcement. -/
def origin (r : ℕ) : String := (s.heap[r]?.map Announce.origin).getD ""

/-- The time of an announcement. -/
def time (r : ℕ) : ℕ := (s.heap[r]?.map Announce.time).getD 0

/-- Announcements are taken off the counters of their origins. -/
def discount (refs : List ℕ) (counts : String → ℤ) : String → ℤ :=
  refs.foldl (fun c r => Function.update c (s.origin r) (c (s.origin r) - 1)) counts

def forgetHash (hash : Hash) : Puller Tx :=
  let counts := s.discount ((s.announced.lookup hash).getD []) s.announces
  let counts := s.discount (s.fetching.lookup hash).toList counts
  let counts := s.discount ((s.fetched.lookup hash).getD []) counts
  let counts := s.discount (s.completing.lookup hash).toList counts
  { s with
    announces := counts
    announced := s.announced.erase hash
    fetching := s.fetching.erase hash
    fetched := s.fetched.erase hash
    completing := s.completing.erase hash }

def forgetBlock (hash : Hash) : Puller Tx :=
  match s.queued.lookup hash with
  | some op =>
    { s with
      queues := Function.update s.queues op.origin (s.queues op.origin - 1)
      queued := s.queued.erase hash }
  | none => s

/-! ### Announcements -/

/-- The loop at a notification. -/
def notify (chain : LocalChain) (a : Announce) : Puller Tx :=
  let count := s.announces a.origin + 1
  if (hashLimit : ℤ) < count then s
  else if 0 < a.number ∧ chain.far a.number then s
  else if (s.fetching.lookup a.hash).isSome then s
  else if (s.completing.lookup a.hash).isSome then s
  else
    { s with
      heap := s.heap ++ [a]
      announces := Function.update s.announces a.origin count
      announced := s.announced.insert a.hash
        ((s.announced.lookup a.hash).getD [] ++ [s.heap.length]) }

/-- The fetches that took too long, visited in some order. -/
def expire (now : ℕ) (order : List Hash) : Puller Tx :=
  order.foldl (fun s hash =>
    match s.fetching.lookup hash with
    | some r => if fetchTimeout < now - s.time r then s.forgetHash hash else s
    | none => s) s

/-- The announcements of a block waited long enough. -/
def due (now : ℕ) (hash : Hash) : Option (ℕ × List ℕ) :=
  match s.announced.lookup hash with
  | some (first :: rest) =>
    if arriveTimeout - gatherSlack < now - s.time first then some (first, rest) else none
  | _ => none

/-- A random one of some announcements. -/
def pick (rand : Hash → ℕ) (hash : Hash) (first : ℕ) (rest : List ℕ) : ℕ :=
  (first :: rest).getD (rand hash % (rest.length + 1)) first

/-- One block of the loop at the fetch timer. -/
def fetchOne (chain : LocalChain) (now : ℕ) (rand : Hash → ℕ) (s : Puller Tx) (hash : Hash) :
    Puller Tx :=
  match s.due now hash with
  | some (first, rest) =>
    let announce := pick rand hash first rest
    let s := s.forgetHash hash
    if chain.getBlock hash then s
    else { s with fetching := s.fetching.insert hash announce }
  | none => s

/-- The loop at the fetch timer: the blocks are visited in some order, and one of the announcements
of each is picked at random. -/
def fetchTimer (s : Puller Tx) (chain : LocalChain) (now : ℕ) (order : List Hash)
    (rand : Hash → ℕ) : Puller Tx :=
  order.foldl (fetchOne chain now rand) s

/-- The loop at the completion timer. -/
def completeTimer (s : Puller Tx) (chain : LocalChain) (order : List Hash) (rand : Hash → ℕ) :
    Puller Tx :=
  order.foldl (fun s hash =>
    match s.fetched.lookup hash with
    | some (first :: rest) =>
      let announce := pick rand hash first rest
      let s := s.forgetHash hash
      if chain.getBlock hash then s
      else { s with completing := s.completing.insert hash announce }
    | _ => s) s

section Blocks

variable [Crypto] [DecidableEq Tx]

def enqueue (s : Puller Tx) (chain : LocalChain) (peer : String) (block : PulledBlock Tx) :
    Puller Tx :=
  let hash := block.header.hash
  let count := s.queues peer + 1
  if (blockLimit : ℤ) < count then s.forgetHash hash
  else if chain.far (number block.header) then s.forgetHash hash
  else if (s.queued.lookup hash).isSome then s
  else
    { s with
      queues := Function.update s.queues peer count
      queued := s.queued.insert hash ⟨peer, block⟩
      queue := s.queue ++ [⟨peer, block⟩] }

/-- The blocks that are still being completed go to the import queue. -/
def enqueueAll (s : Puller Tx) (chain : LocalChain) (blocks : List (PulledBlock Tx)) : Puller Tx :=
  blocks.foldl (fun s block =>
    match s.completing.lookup block.header.hash with
    | some r => s.enqueue chain (s.origin r) block
    | none => s) s

/-- The imports that fit the chain leave the queue; the import itself runs on its own. -/
def importRounds (chain : LocalChain) : ℕ → Puller Tx → Puller Tx
  | 0, s => s
  | rounds + 1, s =>
    match WorkLedger.popMin (fun op : Inject Tx => priority op.block.header) s.queue with
    | none => s
    | some (op, queue) =>
      let n := number op.block.header
      if (chain.chainHeight + 1) % 2 ^ 64 < n then { s with queue := queue ++ [op] }
      else if (n + maxUncleDist) % 2 ^ 64 < chain.chainHeight ∨
          chain.getBlock op.block.header.hash then
        importRounds chain rounds ({ s with queue := queue }.forgetBlock op.block.header.hash)
      else importRounds chain rounds { s with queue := queue }

/-- The import of queued blocks. -/
def importQueued (s : Puller Tx) (chain : LocalChain) : Puller Tx :=
  importRounds chain s.queue.length s

/-! ### Deliveries -/

/-- The headers of a delivery, sorted: unknown ones, announcements that need a body, and complete
blocks. -/
structure Sorted (Tx : Type) where
  unknown : List Header
  incomplete : List ℕ
  complete : List (PulledBlock Tx)

/-- The announcement whose header was requested from a peer. -/
def requested (s : Puller Tx) (peer : String) (hash : Hash) : Option ℕ :=
  match s.fetching.lookup hash with
  | some r =>
    if s.origin r = peer ∧ s.fetched.lookup hash = none ∧ s.completing.lookup hash = none ∧
        s.queued.lookup hash = none then some r
    else none
  | none => none

/-- A header is kept with its announcement. -/
def setHeader (s : Puller Tx) (r : ℕ) (header : Header) (time : ℕ) : Puller Tx :=
  { s with heap := s.heap.modify r fun a => { a with header := some header, time := time } }

/-- One header of a delivery. -/
def sortHeader (chain : LocalChain) (peer : String) (time : ℕ) (acc : Puller Tx × Sorted Tx)
    (header : Header) : Puller Tx × Sorted Tx :=
  let (s, sorted) := acc
  let hash := header.hash
  match s.requested peer hash with
  | none => (s, { sorted with unknown := sorted.unknown ++ [header] })
  | some r =>
    if some (number header) ≠ s.heap[r]?.map Announce.number then (s.forgetHash hash, sorted)
    else if chain.getBlock hash then (s.forgetHash hash, sorted)
    else
      let s := s.setHeader r header time
      if header.txHash = emptyRootHash ∧ header.uncleHash = emptyUncleHash then
        ({ s with completing := s.completing.insert hash r },
          { sorted with complete := sorted.complete ++ [⟨header, [], []⟩] })
      else (s, { sorted with incomplete := sorted.incomplete ++ [r] })

/-- The announcements that need a body wait for the completion timer. -/
def addFetched (s : Puller Tx) (incomplete : List ℕ) : Puller Tx :=
  incomplete.foldl (fun s r =>
    match s.heap[r]?.bind Announce.header with
    | some header =>
      let refs := (s.fetched.lookup header.hash).getD [] ++ [r]
      if (s.completing.lookup header.hash).isSome then s
      else { s with fetched := s.fetched.insert header.hash refs }
    | none => s) s

/-- The loop at a delivery of headers: the headers that were not requested, and the state. -/
def headerFilter (s : Puller Tx) (chain : LocalChain) (peer : String) (headers : List Header)
    (time : ℕ) : List Header × Puller Tx :=
  let (s, sorted) := headers.foldl (sortHeader chain peer time) (s, ⟨[], [], []⟩)
  (sorted.unknown, (s.addFetched sorted.incomplete).enqueueAll chain sorted.complete)

variable [GetRlp Tx]

/-- The body fits an announcement that is being completed. -/
def bodyMatches (s : Puller Tx) (peer : String) (hash : Hash) (r : ℕ) (txs : List Tx)
    (uncles : List Header) : Bool :=
  s.queued.lookup hash = none ∧ s.origin r = peer ∧
    ((s.heap[r]?.bind Announce.header).any fun header => Scheduler.bodyFits header txs uncles)

/-- One body of a delivery, against the announcements that are being completed, in some order. -/
def matchBody (chain : LocalChain) (peer : String) (order : List Hash) (s : Puller Tx)
    (txs : List Tx) (uncles : List Header) : Puller Tx × Bool × List (PulledBlock Tx) :=
  order.foldl (fun acc hash =>
    let (s, isMatched, blocks) := acc
    match s.completing.lookup hash with
    | some r =>
      if s.bodyMatches peer hash r txs uncles then
        if chain.getBlock hash then (s.forgetHash hash, true, blocks)
        else
          match s.heap[r]?.bind Announce.header with
          | some header => (s, true, blocks ++ [⟨header, txs, uncles⟩])
          | none => (s, true, blocks)
      else (s, isMatched, blocks)
    | none => (s, isMatched, blocks)) (s, false, [])

/-- The bodies of a delivery, one after the other: the ones that matched nothing, and the blocks. -/
def matchBodies (chain : LocalChain) (peer : String) (order : List Hash) :
    List (List Tx × List Header) → Puller Tx →
      List (List Tx × List Header) × List (PulledBlock Tx) × Puller Tx
  | [], s => ([], [], s)
  | (txs, uncles) :: bodies, s =>
    let (s, isMatched, blocks) := matchBody chain peer order s txs uncles
    let (rest, blocks', s) := matchBodies chain peer order bodies s
    (if isMatched then rest else (txs, uncles) :: rest, blocks ++ blocks', s)

/-- The loop at a delivery of bodies: what was not requested, and the state. -/
def bodyFilter (s : Puller Tx) (chain : LocalChain) (peer : String) (transactions : List (List Tx))
    (uncles : List (List Header)) (order : List Hash) :
    (List (List Tx) × List (List Header)) × Puller Tx :=
  let (rest, blocks, s) := matchBodies chain peer order (transactions.zip uncles) s
  ((rest.map Prod.fst ++ transactions.drop uncles.length,
      rest.map Prod.snd ++ uncles.drop transactions.length), s.enqueueAll chain blocks)

/-! ### Events -/

/-- The events of the loop, with the time, the answers of the local chain, the order in which the
tables are visited, and the random choices. -/
inductive Event (Tx : Type) where
  | expire (now : ℕ) (order : List Hash)
  | importQueued (chain : LocalChain)
  | notify (chain : LocalChain) (peer : String) (hash : Hash) (number time : ℕ)
  | inject (chain : LocalChain) (peer : String) (block : PulledBlock Tx)
  | done (hash : Hash)
  | fetchTimer (chain : LocalChain) (now : ℕ) (order : List Hash) (rand : Hash → ℕ)
  | completeTimer (chain : LocalChain) (order : List Hash) (rand : Hash → ℕ)
  | headerFilter (chain : LocalChain) (peer : String) (headers : List Header) (time : ℕ)
  | bodyFilter (chain : LocalChain) (peer : String) (transactions : List (List Tx))
      (uncles : List (List Header)) (order : List Hash)

/-- One event. -/
def step (s : Puller Tx) : Event Tx → Puller Tx
  | .expire now order => s.expire now order
  | .importQueued chain => s.importQueued chain
  | .notify chain peer hash number time => s.notify chain ⟨hash, number, none, time, peer⟩
  | .inject chain peer block => s.enqueue chain peer block
  | .done hash => (s.forgetHash hash).forgetBlock hash
  | .fetchTimer chain now order rand => s.fetchTimer chain now order rand
  | .completeTimer chain order rand => s.completeTimer chain order rand
  | .headerFilter chain peer headers time => (s.headerFilter chain peer headers time).2
  | .bodyFilter chain peer transactions uncles order =>
    (s.bodyFilter chain peer transactions uncles order).2

end Blocks

end Puller

end Synctrl
