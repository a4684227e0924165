/-
**Importing blocks: the write of a block, and reorganisations.**

A model of the import path of `blockchain/blockchain.go`: `WriteBlockAndState` stores a block with
its total difficulty and, if this is larger than that of the head, makes the block the new head;
`reorg` moves the canonical numbering from the branch of the old head to that of the new one; and
`insert` makes one block the head.

The block is written to the database in a batch, after a reorganisation and before the block
becomes the head.  The state that the batch carries, the receipts and the preimages are left out,
as are the events that a reorganisation sends.
-/

import GoHpb.HeaderChain

open FailState

/-! ### Blocks in the database -/

/-- A block; uncles are left out. -/
structure Block where
  header : Header
  transactions : List Transaction
  deriving DecidableEq

namespace Block

def hash [Crypto] (block : Block) : Hash := block.header.hash

def parentHash (block : Block) : Hash := block.header.parentHash

def number (block : Block) : ℕ := block.header.number

/-- `NumberU64`. -/
def number64 (block : Block) : UInt64 := block.header.number64

def difficulty (block : Block) : ℕ := block.header.difficulty

end Block

namespace ChainDb

/-- `GetBlock`: the header and the body together. -/
def getBlock (db : ChainDb) (hash : Hash) (number : UInt64) : Option Block :=
  match db.headers.lookup (hash, number), db.bodies.lookup (hash, number) with
  | some header, some body => some ⟨header, body⟩
  | _, _ => none

section Crypto

variable [Crypto]

def writeBlock (db : ChainDb) (block : Block) : ChainDb :=
  { db with bodies := db.bodies.insert (block.hash, block.number64) block.transactions }.writeHeader
    block.header

def writeTxLookupEntries (db : ChainDb) (block : Block) : ChainDb :=
  { db with
    lookups := block.transactions.zipIdx.foldl (fun lookups entry =>
      lookups.insert entry.1.hash ⟨block.hash, block.number64, UInt64.ofNat entry.2⟩) db.lookups }

/-- `DeleteTxLookupEntry`, for several transactions. -/
def deleteTxLookupEntries (db : ChainDb) (txs : List Transaction) : ChainDb :=
  { db with lookups := txs.foldl (fun lookups tx => lookups.erase tx.hash) db.lookups }

end Crypto

end ChainDb

/-! ### The chain -/

structure BlockChain where
  hc : HeaderChain
  currentBlock : Block
  currentFastBlock : Block
  blockCache : Finmap fun _ : Hash => Block := ∅

namespace BlockChain

/-- The database, which the header chain works on too. -/
def chainDb (bc : BlockChain) : ChainDb := bc.hc.chainDb

def onDb (f : ChainDb → ChainDb) (bc : BlockChain) : BlockChain := { bc with hc := bc.hc.onDb f }

def getTd (hash : Hash) (number : UInt64) (bc : BlockChain) : Option ℕ × BlockChain :=
  ((bc.hc.getTd hash number).1, { bc with hc := (bc.hc.getTd hash number).2 })

section Crypto

variable [Crypto]

/-- The state after the genesis block has been committed. -/
def start (genesis : Block) : BlockChain :=
  { hc := (HeaderChain.start genesis.header).onDb fun db =>
      { db with
        bodies := (∅ : Finmap fun _ : Hash × UInt64 => List Transaction).insert
          (genesis.hash, genesis.number64) genesis.transactions }
    currentBlock := genesis, currentFastBlock := genesis }

def getBlock (hash : Hash) (number : UInt64) (bc : BlockChain) : Option Block × BlockChain :=
  match bc.blockCache.lookup hash with
  | some block => (some block, bc)
  | none =>
    match bc.chainDb.getBlock hash number with
    | none => (none, bc)
    | some block => (some block, { bc with blockCache := bc.blockCache.insert block.hash block })

/-- The block that a block names as its parent. -/
def getParent (block : Block) : BlockChain → Option Block × BlockChain :=
  getBlock block.parentHash (block.number64 - 1)

/-- `insert`: the block becomes the head.  The head of the headers and the fast head follow only if
the block was not canonical before. -/
def insert (block : Block) (bc : BlockChain) : BlockChain :=
  let bc' := { bc.onDb (fun db =>
      { db.writeCanonicalHash block.hash block.number64 with headBlockHash := block.hash }) with
    currentBlock := block }
  if bc.chainDb.getCanonicalHash block.number64 ≠ block.hash then
    { bc' with
      hc := (bc'.hc.setCurrentHeader block.header).onDb fun db =>
        { db with headFastBlockHash := block.hash }
      currentFastBlock := block }
  else bc'

/-! ### Reorganisations -/

/-- Going up a branch to the block with a number, collecting the blocks that are passed. -/
def reduce (target : UInt64) :
    ℕ → Option Block → List Block → EStateM ChainErr BlockChain (Option Block × List Block)
  | 0, _, _ => throw .outOfRounds
  | rounds + 1, current, chain =>
    match current with
    | none => return (none, chain)
    | some block =>
      if block.number64 = target then return (some block, chain)
      else do
        let parent ← operate (getParent block)
        reduce target rounds parent (chain ++ [block])

/-- Going up two branches to their common block, collecting the blocks that are passed. -/
def findCommon : ℕ → Block → Block → List Block → List Block →
    EStateM ChainErr BlockChain (List Block × List Block)
  | 0, _, _, _, _ => throw .outOfRounds
  | rounds + 1, oldBlock, newBlock, oldChain, newChain =>
    if oldBlock.hash = newBlock.hash then return (oldChain, newChain)
    else do
      let oldParent ← operate (getParent oldBlock)
      let newParent ← operate (getParent newBlock)
      match oldParent, newParent with
      | none, _ => throw .errInvalidOldChain
      | some _, none => throw .errInvalidNewChain
      | some oldParent, some newParent =>
        findCommon rounds oldParent newParent (oldChain ++ [oldBlock]) (newChain ++ [newBlock])

/-- The two branches above their common block, each from its head on. -/
def branches (oldBlock newBlock : Block) :
    EStateM ChainErr BlockChain (List Block × List Block) := do
  if newBlock.number64 < oldBlock.number64 then
    let (found, oldChain) ← reduce newBlock.number64 (oldBlock.number + 1) (some oldBlock) []
    match found with
    | none => throw .errInvalidOldChain
    | some block => findCommon (newBlock.number + 1) block newBlock oldChain []
  else
    let (found, newChain) ← reduce oldBlock.number64 (newBlock.number + 1) (some newBlock) []
    match found with
    | none => throw .errInvalidNewChain
    | some block => findCommon (oldBlock.number + 1) oldBlock block [] newChain

/-- Every block of the new branch becomes the head in turn, and its transactions are found there. -/
def adopt (newChain : List Block) (bc : BlockChain) : BlockChain :=
  newChain.foldl
    (fun bc block => (bc.insert block).onDb fun db => db.writeTxLookupEntries block) bc

def reorg (oldBlock newBlock : Block) : EStateM ChainErr BlockChain Unit := do
  let (oldChain, newChain) ← branches oldBlock newBlock
  modify (adopt newChain)
  modify fun bc => bc.onDb fun db => db.deleteTxLookupEntries
    (txDifference (oldChain.flatMap Block.transactions) (newChain.flatMap Block.transactions))

/-- A reorganisation, unless the block is a child of the head. -/
def reorgUnlessChild (head block : Block) : EStateM ChainErr BlockChain Unit :=
  if block.parentHash ≠ head.hash then reorg head block else pure ()

/-- The block is written and becomes the head. -/
def becomeHead (block : Block) : EStateM ChainErr BlockChain Unit := do
  let head ← operate fun bc => (bc.currentBlock, bc)
  reorgUnlessChild head block
  modify fun bc => bc.onDb fun db => (db.writeBlock block).writeTxLookupEntries block
  modify (insert block)

/-- `WriteBlockAndState`; `coin` is the result of the random tie-break. -/
def writeBlockAndState (coin : Bool) (block : Block) : EStateM ChainErr BlockChain WriteStatus := do
  let ptd ← operate (getTd block.parentHash (block.number64 - 1))
  match ptd with
  | none => throw .errUnknownAncestor
  | some ptd =>
    let localTd ← operate fun bc => bc.getTd bc.currentBlock.hash bc.currentBlock.number64
    let externTd := block.difficulty + ptd
    modify fun bc => { bc with hc := bc.hc.writeTd block.hash block.number64 externTd }
    match localTd with
    | none => throw .panic
    | some localTd =>
      if localTd < externTd || (externTd = localTd && coin) then
        becomeHead block
        return .canonStatTy
      else
        modify fun bc => bc.onDb fun db => db.writeBlock block
        return .sideStatTy

end Crypto

end BlockChain
