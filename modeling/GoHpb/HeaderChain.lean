/-
**The chain database and the header chain.**

A model of the parts of `blockchain/database_util.go` that headers, bodies, total difficulties and
the canonical numbering go through, and of `blockchain/headerchain.go`: a header is written with
its total difficulty; if this is larger than that of the current head, the canonical numbering is
moved to the branch of the header; and the head can be set back to a lower number.

A bucket of the database is a finite map.  The caches are finite maps from which entries may
disappear at any time, and which are looked at by hash alone, before the database is asked by hash
and number.  The result of a random tie-break is an argument.  A `nil` that is dereferenced is a
panic; the loops have a number of rounds that is enough for them on any sound database, and say so
if they need more.
-/

import GoHpb.CryptoTable
import GoHpb.FailState
import GoHpb.FinmapTotal
import GoHpb.Transaction

open FailState FixedBytes
open Sample (array blank)

/-! ### The database -/

/-- Where a transaction is found. -/
structure TxLookupEntry where
  blockHash : Hash
  blockIndex : UInt64
  index : UInt64
  deriving DecidableEq

/-- The chain database. -/
structure ChainDb where
  /-- the canonical numbering -/
  canonical : Finmap fun _ : UInt64 => Hash := ∅
  headers : Finmap fun _ : Hash × UInt64 => Header := ∅
  bodies : Finmap fun _ : Hash × UInt64 => List Transaction := ∅
  tds : Finmap fun _ : Hash × UInt64 => ℕ := ∅
  lookups : Finmap fun _ : Hash => TxLookupEntry := ∅
  headHeaderHash : Hash := zero 32
  headBlockHash : Hash := zero 32
  headFastBlockHash : Hash := zero 32

namespace ChainDb

variable (db : ChainDb)

/-- `GetCanonicalHash`: the zero hash for a number without an entry. -/
def getCanonicalHash (number : UInt64) : Hash :=
  (db.canonical.lookup number).getD (zero 32)

def writeCanonicalHash (hash : Hash) (number : UInt64) : ChainDb :=
  { db with canonical := db.canonical.insert number hash }

def deleteCanonicalHash (number : UInt64) : ChainDb :=
  { db with canonical := db.canonical.erase number }

def writeTd (hash : Hash) (number : UInt64) (td : ℕ) : ChainDb :=
  { db with tds := db.tds.insert (hash, number) td }

def deleteTd (hash : Hash) (number : UInt64) : ChainDb :=
  { db with tds := db.tds.erase (hash, number) }

def writeHeader [Crypto] (db : ChainDb) (header : Header) : ChainDb :=
  { db with headers := db.headers.insert (header.hash, header.number64) header }

def deleteHeader (db : ChainDb) (hash : Hash) (number : UInt64) : ChainDb :=
  { db with headers := db.headers.erase (hash, number) }

end ChainDb

/-! ### The canonical table -/

/-- The table as a function of the natural numbers; there are keys for 64-bit numbers only. -/
def numberTable (canonical : Finmap fun _ : UInt64 => Hash) (n : ℕ) : Option Hash :=
  if n < 2 ^ 64 then canonical.lookup (.ofNat n) else none

/-- The canonical entry for a number. -/
def ChainDb.canonicalAt (db : ChainDb) (n : ℕ) : Option Hash := numberTable db.canonical n

theorem ofNat_ne_ofNat {n k : ℕ} (hn : n < 2 ^ 64) (hk : k < 2 ^ 64) (hne : n ≠ k) :
    UInt64.ofNat n ≠ UInt64.ofNat k := by
  intro heq
  have htoNat := congrArg UInt64.toNat heq
  rw [UInt64.toNat_ofNat_of_lt' hn, UInt64.toNat_ofNat_of_lt' hk] at htoNat
  exact hne htoNat

theorem numberTable_update {canonical canonical' : Finmap fun _ : UInt64 => Hash} {k : ℕ}
    (hk : k < 2 ^ 64) {x : Option Hash} (hself : canonical'.lookup (.ofNat k) = x)
    (hother : ∀ i ≠ .ofNat k, canonical'.lookup i = canonical.lookup i) :
    numberTable canonical' = Function.update (numberTable canonical) k x := by
  funext n
  by_cases hn : n = k
  · rw [hn, Function.update_self, numberTable, if_pos hk, hself]
  · rw [Function.update_of_ne hn, numberTable, numberTable]
    exact ite_congr rfl (fun hlt => hother _ (ofNat_ne_ofNat hlt hk hn)) fun _ => rfl

theorem numberTable_insert (canonical : Finmap fun _ : UInt64 => Hash) {k : ℕ} (hk : k < 2 ^ 64)
    (hash : Hash) : numberTable (canonical.insert (.ofNat k) hash) =
      Function.update (numberTable canonical) k (some hash) :=
  numberTable_update hk (Finmap.lookup_insert _) fun _ => Finmap.lookup_insert_of_ne _

/-! ### The header chain -/

/-- What can end an operation on a chain early.  The last one is the end of the rounds that the
model allows a loop. -/
inductive ChainErr where
  | errUnknownAncestor
  | errInvalidOldChain
  | errInvalidNewChain
  | panic
  | outOfRounds
  deriving DecidableEq

/-- What became of a block or header that was written. -/
inductive WriteStatus where
  | canonStatTy
  | sideStatTy
  deriving DecidableEq

structure HeaderChain where
  chainDb : ChainDb
  genesisHeader : Header
  currentHeader : Header
  currentHeaderHash : Hash
  headerCache : Finmap fun _ : Hash => Header := ∅
  tdCache : Finmap fun _ : Hash => ℕ := ∅

namespace HeaderChain

/-- A change of the database alone. -/
def onDb (f : ChainDb → ChainDb) (hc : HeaderChain) : HeaderChain :=
  { hc with chainDb := f hc.chainDb }

variable (hash : Hash) (number : UInt64)

/-- `GetTd`: the number matters only if the cache does not have the hash. -/
def getTd (hc : HeaderChain) : Option ℕ × HeaderChain :=
  match hc.tdCache.lookup hash with
  | some td => (some td, hc)
  | none =>
    match hc.chainDb.tds.lookup (hash, number) with
    | none => (none, hc)
    | some td => (some td, { hc with tdCache := hc.tdCache.insert hash td })

def getHeader (hc : HeaderChain) : Option Header × HeaderChain :=
  match hc.headerCache.lookup hash with
  | some header => (some header, hc)
  | none =>
    match hc.chainDb.headers.lookup (hash, number) with
    | none => (none, hc)
    | some header => (some header, { hc with headerCache := hc.headerCache.insert hash header })

def writeTd (td : ℕ) (hc : HeaderChain) : HeaderChain :=
  { hc.onDb (fun db => db.writeTd hash number td) with tdCache := hc.tdCache.insert hash td }

/-- The loop that deletes the canonical entries from `i` on, up to the first gap. -/
def deleteFrom : ℕ → UInt64 → ChainDb → ChainDb
  | 0, _, db => db
  | rounds + 1, i, db =>
    if db.getCanonicalHash i = zero 32 then db
    else deleteFrom rounds (i + 1) (db.deleteCanonicalHash i)

/-- Deleting all canonical entries from `i` on; every round removes an entry. -/
def deleteAbove (i : UInt64) (db : ChainDb) : ChainDb :=
  deleteFrom (db.canonical.keys.card + 1) i db

/-- The loop that overwrites stale canonical entries, from `headNumber` down to the first one that
agrees. -/
def overwrite : ℕ → Hash → UInt64 → Option Header → EStateM ChainErr HeaderChain Unit
  | 0, _, _, _ => throw .outOfRounds
  | rounds + 1, headHash, headNumber, headHeader => do
      let canonical ← operate fun hc => (hc.chainDb.getCanonicalHash headNumber, hc)
      if canonical = headHash then return ()
      else
        modify fun hc => hc.onDb fun db => db.writeCanonicalHash headHash headNumber
        match headHeader with
        | none => throw .panic
        | some header =>
          let next ← operate (getHeader header.parentHash (header.number64 - 1))
          overwrite rounds header.parentHash (header.number64 - 1) next

section Operations

variable [Crypto]

/-- The state after the genesis block has been committed. -/
def start (genesis : Header) : HeaderChain :=
  { chainDb :=
      { canonical := (∅ : Finmap fun _ : UInt64 => Hash).insert genesis.number64 genesis.hash
        headers := (∅ : Finmap fun _ : Hash × UInt64 => Header).insert
          (genesis.hash, genesis.number64) genesis
        tds := (∅ : Finmap fun _ : Hash × UInt64 => ℕ).insert
          (genesis.hash, genesis.number64) genesis.difficulty
        headHeaderHash := genesis.hash, headBlockHash := genesis.hash }
    genesisHeader := genesis, currentHeader := genesis, currentHeaderHash := genesis.hash }

def setCurrentHeader (head : Header) (hc : HeaderChain) : HeaderChain :=
  { hc.onDb (fun db => { db with headHeaderHash := head.hash }) with
    currentHeader := head, currentHeaderHash := head.hash }

/-- Overwriting the stale entries below a header and making it the head; `headHeader` is its
parent. -/
def rewriteBelow (header : Header) (headHeader : Option Header) :
    EStateM ChainErr HeaderChain Unit := do
  overwrite (header.number64.toNat + 1) header.parentHash (header.number64 - 1) headHeader
  modify fun hc => hc.onDb fun db => db.writeCanonicalHash header.hash header.number64
  modify (setCurrentHeader header)

/-- The canonical numbering is moved to the branch of a header. -/
def makeCanonical (header : Header) : EStateM ChainErr HeaderChain Unit := do
  modify fun hc => hc.onDb (deleteAbove (header.number64 + 1))
  let headHeader ← operate (getHeader header.parentHash (header.number64 - 1))
  rewriteBelow header headHeader

/-- `WriteHeader`; `coin` is the result of the random tie-break. -/
def writeHeader (coin : Bool) (header : Header) : EStateM ChainErr HeaderChain WriteStatus := do
  let ptd ← operate (getTd header.parentHash (header.number64 - 1))
  match ptd with
  | none => throw .errUnknownAncestor
  | some ptd =>
    let localTd ← operate fun hc => hc.getTd hc.currentHeaderHash hc.currentHeader.number64
    modify (writeTd header.hash header.number64 (header.difficulty + ptd))
    modify fun hc => hc.onDb fun db => db.writeHeader header
    match localTd with
    | none => throw .panic
    | some localTd =>
      if localTd < header.difficulty + ptd || (header.difficulty + ptd = localTd && coin) then
        makeCanonical header
        modify fun hc => { hc with headerCache := hc.headerCache.insert header.hash header }
        return .canonStatTy
      else
        modify fun hc => { hc with headerCache := hc.headerCache.insert header.hash header }
        return .sideStatTy

/-- The loop of `SetHead` that deletes headers, from the head down. -/
def rewind (head : UInt64) : ℕ → Option Header → EStateM ChainErr HeaderChain (Option Header)
  | 0, _ => throw .outOfRounds
  | rounds + 1, current =>
    match current with
    | none => return none
    | some header =>
      if head < header.number64 then do
        modify fun hc => hc.onDb fun db =>
          (db.deleteHeader header.hash header.number64).deleteTd header.hash header.number64
        let next ← operate (getHeader header.parentHash (header.number64 - 1))
        rewind head rounds next
      else return some header

/-- Deleting the canonical entries from `height` down to the one above `head`. -/
def deleteDown (head : UInt64) : ℕ → UInt64 → ChainDb → ChainDb
  | 0, _, db => db
  | rounds + 1, i, db =>
    if head < i then deleteDown head rounds (i - 1) (db.deleteCanonicalHash i) else db

/-- `SetHead`, without the callback for every deleted header. -/
def setHead (head : UInt64) : EStateM ChainErr HeaderChain Unit := do
  let current ← operate fun hc => (hc.currentHeader, hc)
  let found ← rewind head (current.number64.toNat + 1) (some current)
  modify fun hc => hc.onDb (deleteDown head current.number64.toNat current.number64)
  modify fun hc => { hc with headerCache := ∅, tdCache := ∅ }
  modify fun hc => setCurrentHeader (found.getD hc.genesisHeader) hc

end Operations

end HeaderChain

/-! ### A small tree of headers -/

namespace Forks

/-- The header at the root of the tree. -/
def root : Header := { blank with extra := [] }

/-- A header with the given parent. -/
def child (parentHash : Hash) (number difficulty time : ℕ) : Header :=
  { root with parentHash := parentHash, number := number, difficulty := difficulty, time := time }

/-- The hashes of the headers that have children. -/
def rootHash : Hash := array 32
  0x9357c5952e259a54e7694c121ebbf75c406c45f3dc02732c117aca0cf00e9381

def firstHash : Hash := array 32
  0x8bcbd2f4600055d092f958afb0ed09fb66c65bc98d041bbdc44b6199356b3b89

def secondHash : Hash := array 32
  0xf47bfbd2bd563dbd4b8d94657f36ed34d0d9c84f04f85557eb6bd8cbfeef01f8

def heavyFirstHash : Hash := array 32
  0x299791b29c4704466d841165492ba0d1d2426ca6c7282da723129e10e9bd337a

def sideThirdHash : Hash := array 32
  0x146a9d4e533819ae1d569ffec22f700b3af207fd39134f9ca1fa20f40f813982

/-- A branch of three headers of difficulty one. -/
def first : Header := child rootHash 1 1 1015

def second : Header := child firstHash 2 1 1030

def third : Header := child secondHash 3 1 1045

/-- A branch of two headers of difficulty two. -/
def heavyFirst : Header := child rootHash 1 2 1020

def heavySecond : Header := child heavyFirstHash 2 2 1040

/-- A branch that leaves the first one after its second header. -/
def sideThird : Header := child secondHash 3 1 1050

def sideFourth : Header := child sideThirdHash 4 1 1065

/-- The digests of the headers. -/
def digests : List (Bytes × Hash) :=
  [(Rlp.encode root.rlpItem, rootHash),
    (Rlp.encode first.rlpItem, firstHash),
    (Rlp.encode second.rlpItem, secondHash),
    (Rlp.encode third.rlpItem, array 32
      0xfcd4c8cc0f2b7bb3a3438bfa4eb1be90f1f3e1bd86d0d0ab1daa269062ed09f3),
    (Rlp.encode heavyFirst.rlpItem, heavyFirstHash),
    (Rlp.encode heavySecond.rlpItem, array 32
      0x467fa23fc66efad56057fccc60607f911ff6ed1721f9dc0710de7177e21a15d2),
    (Rlp.encode sideThird.rlpItem, sideThirdHash),
    (Rlp.encode sideFourth.rlpItem, array 32
      0x4096c3665efaffd8cd4d1375b45be38b59081837ba38822db23f6282b6c31012)]

scoped instance crypto : Crypto := tableCrypto digests []

end Forks
