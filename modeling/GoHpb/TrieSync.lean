/-
**Downloading a state trie.**

A model of `common/trie/sync.go` and of `NewStateSync` of `blockchain/state`.  The scheduler keeps a
table of requests by hash, for trie nodes and for contract code alike.  A request knows its
parents, the requests that wait for it, and the number of requests it waits for itself.  When the
data of a node arrives, its children that are not known yet are requested; when a request does not
wait any more, its data goes to the memory batch, and its parents are notified.

A parent is a request of the table, and is named by its hash here; that a parent is in the table
as long as somebody refers to it is one of the results about runs.  The calls of `commit` inside of
`commit` are bounded by the number of requests, which is another one.
-/

import GoHpb.TrieMap
import GoHpb.RlpTyped

namespace MerkleTrie

/-- `request`: `callback` says whether values are handed to the callback of the state sync. -/
structure Request where
  hash : Hash
  data : Option Bytes
  raw : Bool
  parents : List Hash
  depth : ℕ
  deps : ℤ
  callback : Bool

structure SyncMemBatch where
  batch : NodeDb
  order : List Hash

/-- What is written for the memory batch. -/
def SyncMemBatch.puts (membatch : SyncMemBatch) : List (Hash × Bytes) :=
  membatch.order.map fun key => (key, (membatch.batch.lookup key).getD [])

structure TrieSync where
  database : NodeDb
  membatch : SyncMemBatch
  requests : Finmap fun _ : Hash => Request
  queue : List (Hash × ℕ)

structure SyncResult where
  hash : Hash
  data : Bytes

/-- The errors of the scheduler and its panics; the last two are a parent outside of the table, and
a call too many. -/
inductive SyncErr where
  | notRequested
  | alreadyProcessed
  | node (err : NodeErr)
  | account (err : Rlp.DecodeErr)
  | panicSubTrieAncestor (parent : Hash)
  | panicRawEntryAncestor (parent : Hash)
  | panicUnknownNode
  | staleParent
  | outOfRounds

/-- The type `Account`. -/
def accountTy : Rlp.Ty :=
  .struct (.cons "Nonce" (.uint .u64)
    (.cons "Balance" .bigInt
      (.cons "Root" (.byteArray 32)
        (.cons "CodeHash" (.slice (.uint .u8))
          .nil))))

/-- `rlp.Decode` into an account. -/
def decodeAccount (leaf : Bytes) : Except Rlp.DecodeErr accountTy.Value :=
  match accountTy.decode (leaf.length + 1) (Rlp.Stream.new leaf) with
  | .ok obj _ => .ok obj
  | .error err _ => .error err

namespace TrieSync

/-- The methods of the scheduler. -/
abbrev SyncM (α : Type) : Type := EStateM SyncErr TrieSync α

/-- Put a request into the table. -/
def setRequest (hash : Hash) (req : Request) (s : TrieSync) : TrieSync :=
  { s with requests := s.requests.insert hash req }

/-- Whether an entry is in the memory batch or in the database. -/
def has (s : TrieSync) (hash : Hash) : Bool :=
  (s.membatch.batch.lookup hash).isSome || (s.database.lookup hash).isSome

/-- `schedule`. -/
def scheduled (req : Request) (s : TrieSync) : TrieSync :=
  match s.requests.lookup req.hash with
  | some old => s.setRequest req.hash { old with parents := old.parents ++ req.parents }
  | none => { s.setRequest req.hash req with queue := s.queue ++ [(req.hash, req.depth)] }

def schedule (req : Request) : SyncM Unit := modify (scheduled req)

/-- The last part of `AddSubTrie` and `AddRawEntry`: link the request to its parent. -/
def link (req : Request) (parent : Hash) (err : SyncErr) : SyncM Unit := do
  if parent = FixedBytes.zero 32 then schedule req
  else
    match (← MonadState.get).requests.lookup parent with
    | none => throw err
    | some ancestor => do
        modify (setRequest parent { ancestor with deps := ancestor.deps + 1 })
        schedule { req with parents := req.parents ++ [parent] }

/-- Whether the entry of the database is a node. -/
def isLocal (s : TrieSync) (hash : Hash) : Bool :=
  match s.database.lookup hash with
  | none => false
  | some blob =>
    match decodeNode (some hash) blob 0 with
    | .ok _ => true
    | .error _ => false

def addSubTrie (root : Hash) (depth : ℕ) (parent : Hash) (callback : Bool) : SyncM Unit := do
  let s ← MonadState.get
  if root = emptyRootHash ∨ (s.membatch.batch.lookup root).isSome ∨ s.isLocal root then pure ()
  else
    link ⟨root, none, false, [], depth, 0, callback⟩ parent (.panicSubTrieAncestor parent)

/-- One element of the queue with the highest priority, and the others. -/
def popItem (queue : List (Hash × ℕ)) : Option (Hash × List (Hash × ℕ)) :=
  (queue.argmax Prod.snd).map fun item => (item.1, queue.erase item)

/-- Some elements of the queue, by their priority. -/
def popItems : ℕ → List (Hash × ℕ) → List Hash × List (Hash × ℕ)
  | 0, queue => ([], queue)
  | n + 1, queue =>
    match popItem queue with
    | none => ([], queue)
    | some (hash, rest) => (hash :: (popItems n rest).1, (popItems n rest).2)

def missing (max : ℕ) (s : TrieSync) : List Hash × TrieSync :=
  let popped := popItems (if max = 0 then s.queue.length else max) s.queue
  (popped.1, { s with queue := popped.2 })

/-- The children of a node that `children` looks at, with their depths. -/
def kids (depth : ℕ) : Node → Option (List (Node × ℕ))
  | .short k c _ => some [(c, depth + k.length)]
  | .full cs _ => some
      (((List.finRange 17).filter fun i => !(cs i).isNil).map fun i => (cs i, depth + 1))
  | _ => none

/-- Notify the parents of a request that is complete. -/
def notify (commit : Hash → SyncM Unit) : List Hash → SyncM Unit
  | [] => pure ()
  | parent :: parents => do
      match (← MonadState.get).requests.lookup parent with
      | none => throw .staleParent
      | some req => do
          modify (setRequest parent { req with deps := req.deps - 1 })
          if req.deps - 1 = 0 then commit parent
          notify commit parents

/-- The first part of `commit`: move a request from the table to the memory batch. -/
def store (hash : Hash) (data : Bytes) (s : TrieSync) : TrieSync :=
  { s with
    membatch := ⟨s.membatch.batch.insert hash data, s.membatch.order ++ [hash]⟩
    requests := s.requests.erase hash }

def commit : ℕ → Hash → SyncM Unit
  | 0, _ => throw .outOfRounds
  | rounds + 1, hash => do
      match (← MonadState.get).requests.lookup hash with
      | none => throw .staleParent
      | some req => do
          modify (store hash (req.data.getD []))
          notify (commit rounds) req.parents

/-- The first writes of `Commit`. -/
def writePart (i : ℕ) (s : TrieSync) : TrieSync :=
  { s with database := s.database.write (s.membatch.puts.take i) }

/-- All writes of `Commit`, after which the memory batch is dropped. -/
def writeAll (s : TrieSync) : TrieSync :=
  { s with database := s.database.write s.membatch.puts, membatch := ⟨∅, []⟩ }

/-- `Commit`, with a writer that fails at the given write, if at all. -/
def flush (fails : Option ℕ) (s : TrieSync) : TrieSync :=
  match fails with
  | some i => if i < s.membatch.puts.length then s.writePart i else s.writeAll
  | none => s.writeAll

def pending (s : TrieSync) : ℕ := s.requests.keys.card

section State

variable [Crypto]

def emptyState : Hash := Crypto.keccak256 []

def addRawEntry (hash : Hash) (depth : ℕ) (parent : Hash) : SyncM Unit := do
  let s ← MonadState.get
  if hash = emptyState ∨ s.has hash then pure ()
  else
    link ⟨hash, none, true, [], depth, 0, false⟩ parent (.panicRawEntryAncestor parent)

/-- The callback of the state sync. -/
def leafCallback (leaf : Bytes) (parent : Hash) : SyncM Unit :=
  match decodeAccount leaf with
  | .error err => throw (.account err)
  | .ok (_, _, root, codeHash, _) => do
      addSubTrie root 64 parent false
      addRawEntry (FixedBytes.setBytes 32 codeHash) 64 parent

/-- Notify the callback, if there is one, of a value. -/
def notifyLeaf (req : Request) (node : Node) : SyncM Unit :=
  match req.callback, node with
  | true, .value leaf => leafCallback leaf req.hash
  | _, _ => pure ()

/-- The request for a child that is not known. -/
def unknownChild (req : Request) (node : Node) (depth : ℕ) (s : TrieSync) : List Request :=
  match node with
  | .hash hash =>
    if s.has hash then [] else [⟨hash, none, false, [req.hash], depth, 0, req.callback⟩]
  | _ => []

/-- The second loop of `children`. -/
def childRequests (req : Request) : List (Node × ℕ) → SyncM (List Request)
  | [] => pure []
  | (node, depth) :: rest => do
      notifyLeaf req node
      let here := unknownChild req node depth (← MonadState.get)
      let more ← childRequests req rest
      pure (here ++ more)

def children (req : Request) (object : Node) : SyncM (List Request) :=
  match kids req.depth object with
  | none => throw .panicUnknownNode
  | some nodes => childRequests req nodes

/-- `commit`, from outside. -/
def commitRequest (hash : Hash) : SyncM Unit := do
  commit (← MonadState.get).requests.keys.card hash

/-- Schedule some requests. -/
def scheduleAll : List Request → SyncM Unit
  | [] => pure ()
  | req :: reqs => do
      schedule req
      scheduleAll reqs

/-- The last part of `Process` for a node. -/
def enqueue (hash : Hash) (requests : List Request) : SyncM Bool := do
  match (← MonadState.get).requests.lookup hash with
  | none => throw .staleParent
  | some request =>
    if requests = [] ∧ request.deps = 0 then do
      commitRequest hash
      pure true
    else do
      modify (setRequest hash { request with deps := request.deps + requests.length })
      scheduleAll requests
      pure false

/-- The body of the loop of `Process`; the result says whether something was committed. -/
def processItem (item : SyncResult) : SyncM Bool := do
  match (← MonadState.get).requests.lookup item.hash with
  | none => throw .notRequested
  | some request =>
    if request.data.isSome then throw .alreadyProcessed
    else if request.raw then do
      modify (setRequest item.hash { request with data := some item.data })
      commitRequest item.hash
      pure true
    else
      match decodeNode (some item.hash) item.data 0 with
      | .error err => throw (.node err)
      | .ok node => do
          modify (setRequest item.hash { request with data := some item.data })
          let requests ← children request node
          enqueue item.hash requests

/-- The loop of `Process`. -/
def processFrom : ℕ → Bool → List SyncResult → TrieSync → (Bool × ℕ × Option SyncErr) × TrieSync
  | _, committed, [], s => ((committed, 0, none), s)
  | i, committed, item :: results, s =>
    match processItem item s with
    | .ok c s' => processFrom (i + 1) (committed || c) results s'
    | .error err s' => ((committed, i, some err), s')

def process (results : List SyncResult) (s : TrieSync) : (Bool × ℕ × Option SyncErr) × TrieSync :=
  processFrom 0 false results s

end State

end TrieSync

def newStateSync (root : Hash) (database : NodeDb) : EStateM.Result SyncErr TrieSync Unit :=
  TrieSync.addSubTrie root 0 (FixedBytes.zero 32) true ⟨database, ⟨∅, []⟩, ∅, []⟩

end MerkleTrie
