/-
**What the import of blocks keeps: the tree of blocks and total difficulties.**

The blocks that a chain may ever see are collected in a pool, in which no two blocks have the same
hash.  The parent relation of the pool makes it a tree, and every state of the chain that is reached
from the genesis block by successful imports holds a part of this tree that is closed under parents:
this is the invariant `BlockChain.Sound`, which also says that a stored total difficulty is the sum
of the difficulties on the way to the genesis block.  The invariant does not mention the canonical
numbering, which is the subject of another module.

Main results:

* `BlockChain.writeBlockAndState_eq_ok` — **what a successful import does**;
* `BlockChain.Sound.of_wrote` — **the import of a block keeps the invariant**.
-/

import GoHpb.BlockChain
import GoHpb.BlockTree

open FailState BlockTree FinmapTotal

/-! ### The tree of blocks -/

/-- The blocks that may be seen, with no two of the same hash.  The genesis block has number zero,
and its parent hash is not the hash of a block. -/
structure BlockPool [Crypto] where
  genesis : Block
  blocks : Set Block
  genesis_mem : genesis ∈ blocks
  genesis_number : genesis.number = 0
  genesis_orphan : ∀ block ∈ blocks, block.hash ≠ genesis.parentHash
  hash_injOn : Set.InjOn Block.hash blocks

variable [Crypto]

namespace BlockPool

variable {pool : BlockPool} {b p q : Block} {td td' : ℕ}

/-- The block `p` is the parent of `b`. -/
def Up (pool : BlockPool) (b p : Block) : Prop :=
  p ∈ pool.blocks ∧ p.hash = b.parentHash ∧ b.number = p.number + 1

theorem up_number (b p : Block) (h : pool.Up b p) : b.number = p.number + 1 := h.2.2

theorem up_unique (b p q : Block) (hp : pool.Up b p) (hq : pool.Up b q) : p = q :=
  pool.hash_injOn hp.1 hq.1 (hp.2.1.trans hq.2.1.symm)

theorem Up.number64 (h : pool.Up b p) : b.number64 - 1 = p.number64 := by
  have hnumber : b.number64 = p.number64 + 1 := by
    change UInt64.ofNat b.number = UInt64.ofNat p.number + 1
    rw [h.2.2, UInt64.ofNat_add]
    rfl
  rw [hnumber, add_sub_cancel_right]

/-- The sum of the difficulties on the way from a block to the genesis block. -/
def TotalDifficulty (pool : BlockPool) (b : Block) (td : ℕ) : Prop :=
  ∃ bs, Segment pool.Up b bs pool.genesis ∧
    td = (bs.map Block.difficulty).sum + pool.genesis.difficulty

theorem TotalDifficulty.child (h : pool.TotalDifficulty p td) (hup : pool.Up b p) :
    pool.TotalDifficulty b (b.difficulty + td) := by
  obtain ⟨bs, hbs, rfl⟩ := h
  refine ⟨b :: bs, .cons hup hbs, ?_⟩
  rw [List.map_cons, List.sum_cons, add_assoc]

theorem TotalDifficulty.unique (h : pool.TotalDifficulty b td) (h' : pool.TotalDifficulty b td') :
    td = td' := by
  obtain ⟨bs, hbs, rfl⟩ := h
  obtain ⟨cs, hcs, rfl⟩ := h'
  rw [hbs.unique up_number up_unique hcs]

end BlockPool

/-! ### What the database holds -/

/-- The database has the block under its hash and number. -/
def ChainDb.Stored (db : ChainDb) (b : Block) : Prop := db.getBlock b.hash b.number64 = some b

namespace ChainDb

variable {db db' : ChainDb}

omit [Crypto] in
theorem getBlock_congr (hheaders : db'.headers = db.headers) (hbodies : db'.bodies = db.bodies)
    (hash : Hash) (number : UInt64) : db'.getBlock hash number = db.getBlock hash number := by
  rw [getBlock, getBlock, hheaders, hbodies]

theorem getBlock_writeBlock (db : ChainDb) (block : Block) (hash : Hash) (number : UInt64) :
    (db.writeBlock block).getBlock hash number =
      if (hash, number) = (block.hash, block.number64) then some block
      else db.getBlock hash number := by
  have hheaders : (db.writeBlock block).headers =
      db.headers.insert (block.hash, block.number64) block.header := rfl
  have hbodies : (db.writeBlock block).bodies =
      db.bodies.insert (block.hash, block.number64) block.transactions := rfl
  rw [getBlock, hheaders, hbodies, lookup_insert_eq, lookup_insert_eq]
  split_ifs <;> rfl

end ChainDb

namespace BlockChain

variable {pool : BlockPool} {bc bc' bc'' : BlockChain} {b p a old new block : Block}
  {bs chain : List Block}

/-- The blocks in the database and in the cache of blocks: each has the hash and number it is found
under, and the database has the parents of its blocks. -/
structure Holds (pool : BlockPool) (bc : BlockChain) : Prop where
  getBlock_eq : ∀ hash number block, bc.chainDb.getBlock hash number = some block →
    block ∈ pool.blocks ∧ block.hash = hash ∧ block.number64 = number
  genesis_stored : bc.chainDb.Stored pool.genesis
  parent_stored : ∀ b, bc.chainDb.Stored b →
    b = pool.genesis ∨ ∃ p, bc.chainDb.Stored p ∧ pool.Up b p
  blockCache_eq : ∀ hash b, bc.blockCache.lookup hash = some b →
    bc.chainDb.Stored b ∧ b.hash = hash

/-- The parent of the block is stored. -/
def HasParent (pool : BlockPool) (bc : BlockChain) (b : Block) : Prop :=
  ∃ p, bc.chainDb.Stored p ∧ pool.Up b p

omit [Crypto] in
/-- The database has the parent that the block names, one number below. -/
def Knows (bc : BlockChain) (b : Block) : Prop :=
  ∃ p ∈ bc.chainDb.getBlock b.parentHash (b.number64 - 1), b.number = p.number + 1

instance (bc : BlockChain) (b : Block) : Decidable (bc.Knows b) :=
  match h : bc.chainDb.getBlock b.parentHash (b.number64 - 1) with
  | none => isFalse (by simp [Knows, h])
  | some p => decidable_of_iff (b.number = p.number + 1) (by simp [Knows, h])

/-- The block is the genesis block, or its parent is stored. -/
def Rooted (pool : BlockPool) (bc : BlockChain) (b : Block) : Prop :=
  b = pool.genesis ∨ bc.HasParent pool b

/-- The two states have the same store of headers, bodies and total difficulties. -/
structure StoreEq (bc bc' : BlockChain) : Prop where
  headers_eq : bc'.chainDb.headers = bc.chainDb.headers
  bodies_eq : bc'.chainDb.bodies = bc.chainDb.bodies
  tds_eq : bc'.chainDb.tds = bc.chainDb.tds
  tdCache_eq : bc'.hc.tdCache = bc.hc.tdCache

namespace StoreEq

omit [Crypto] in
theorem refl (bc : BlockChain) : StoreEq bc bc := ⟨rfl, rfl, rfl, rfl⟩

omit [Crypto] in
theorem trans (h : StoreEq bc bc') (h' : StoreEq bc' bc'') : StoreEq bc bc'' :=
  ⟨h'.headers_eq.trans h.headers_eq, h'.bodies_eq.trans h.bodies_eq, h'.tds_eq.trans h.tds_eq,
    h'.tdCache_eq.trans h.tdCache_eq⟩

theorem stored_iff (h : StoreEq bc bc') : bc'.chainDb.Stored b ↔ bc.chainDb.Stored b := by
  rw [ChainDb.Stored, ChainDb.Stored, ChainDb.getBlock_congr h.headers_eq h.bodies_eq]

end StoreEq

theorem Stored.mem (h : Holds pool bc) (hb : bc.chainDb.Stored b) : b ∈ pool.blocks :=
  (h.getBlock_eq _ _ _ hb).1

theorem Knows.hasParent (h : Holds pool bc) (hb : bc.Knows b) : bc.HasParent pool b := by
  obtain ⟨p, hp, hnumber⟩ := hb
  obtain ⟨hmem, hhash, hnumber64⟩ := h.getBlock_eq _ _ _ hp
  refine ⟨p, ?_, hmem, hhash, hnumber⟩
  rw [ChainDb.Stored, hhash, hnumber64]
  exact hp

theorem Holds.rooted (h : Holds pool bc) (hb : bc.chainDb.Stored b) : bc.Rooted pool b :=
  h.parent_stored b hb

theorem Holds.of_storeEq (h : Holds pool bc) (heq : StoreEq bc bc')
    (hcache : bc'.blockCache = bc.blockCache) : Holds pool bc' where
  getBlock_eq := by
    intro hash number block hblock
    rw [ChainDb.getBlock_congr heq.headers_eq heq.bodies_eq] at hblock
    exact h.getBlock_eq hash number block hblock
  genesis_stored := heq.stored_iff.2 h.genesis_stored
  parent_stored := by
    intro b hb
    rcases h.parent_stored b (heq.stored_iff.1 hb) with rfl | ⟨p, hp, hup⟩
    · exact .inl rfl
    · exact .inr ⟨p, heq.stored_iff.2 hp, hup⟩
  blockCache_eq := by
    intro hash b hb
    rw [hcache] at hb
    obtain ⟨hstored, hhash⟩ := h.blockCache_eq hash b hb
    exact ⟨heq.stored_iff.2 hstored, hhash⟩

/-! ### Reading blocks -/

/-- What a reader changes: only the cache of blocks, and it still holds blocks of the database. -/
structure ReadOnly (pool : BlockPool) (bc bc' : BlockChain) : Prop where
  eq : ∃ cache, bc' = { bc with blockCache := cache }
  holds : Holds pool bc'

theorem ReadOnly.trans (h : ReadOnly pool bc bc') (h' : ReadOnly pool bc' bc'') :
    ReadOnly pool bc bc'' := by
  obtain ⟨cache, rfl⟩ := h.eq
  obtain ⟨cache', rfl⟩ := h'.eq
  exact ⟨⟨cache', rfl⟩, h'.holds⟩

theorem ReadOnly.rooted (h : ReadOnly pool bc bc') (hb : bc.Rooted pool b) : bc'.Rooted pool b := by
  obtain ⟨cache, rfl⟩ := h.eq
  exact hb

theorem Holds.of_chainDb (h : Holds pool bc) {hash : Hash} {number : UInt64}
    (hb : bc.chainDb.getBlock hash number = some b) : bc.chainDb.Stored b ∧ b.hash = hash := by
  obtain ⟨-, hhash, hnumber⟩ := h.getBlock_eq hash number b hb
  refine ⟨?_, hhash⟩
  rw [← hhash, ← hnumber] at hb
  exact hb

theorem Holds.getBlock (h : Holds pool bc) (hash : Hash) (number : UInt64) :
    ReadOnly pool bc (bc.getBlock hash number).2 := by
  rw [BlockChain.getBlock]
  cases hcache : bc.blockCache.lookup hash with
  | some block => exact ⟨⟨bc.blockCache, rfl⟩, h⟩
  | none =>
    cases hdb : bc.chainDb.getBlock hash number with
    | none => exact ⟨⟨bc.blockCache, rfl⟩, h⟩
    | some block =>
      refine ⟨⟨bc.blockCache.insert block.hash block, rfl⟩, ?_⟩
      refine { h with blockCache_eq := ?_ }
      intro hash' b hb
      obtain ⟨rfl, rfl⟩ | ⟨-, hb⟩ := of_lookup_insert hb
      · exact ⟨(h.of_chainDb hdb).1, rfl⟩
      · exact h.blockCache_eq hash' b hb

theorem Holds.of_getBlock (h : Holds pool bc) {hash : Hash} {number : UInt64}
    (hb : (bc.getBlock hash number).1 = some b) : bc.chainDb.Stored b ∧ b.hash = hash := by
  rw [BlockChain.getBlock] at hb
  cases hcache : bc.blockCache.lookup hash with
  | some block =>
    simp only [hcache] at hb
    cases hb
    exact h.blockCache_eq hash b hcache
  | none =>
    simp only [hcache] at hb
    cases hdb : bc.chainDb.getBlock hash number with
    | none => simp [hdb] at hb
    | some block =>
      simp only [hdb] at hb
      cases hb
      exact h.of_chainDb hdb

theorem Holds.of_getParent (h : Holds pool bc) (hb : bc.Rooted pool b)
    (hp : (getParent b bc).1 = some p) : bc.chainDb.Stored p ∧ pool.Up b p := by
  obtain ⟨hstored, hhash⟩ := h.of_getBlock hp
  refine ⟨hstored, ?_⟩
  rcases hb with rfl | ⟨q, hq, hup⟩
  · exact absurd hhash (pool.genesis_orphan p (Stored.mem h hstored))
  obtain rfl : p = q :=
    pool.hash_injOn (Stored.mem h hstored) hup.1 (hhash.trans hup.2.1.symm)
  exact hup

/-! ### Reorganisations -/

theorem reduce_eq_ok {target : UInt64} {rounds : ℕ} {chain' : List Block} (h : Holds pool bc)
    (hb : bc.Rooted pool b)
    (hrun : reduce target rounds (some b) chain bc = .ok (some a, chain') bc') :
    ReadOnly pool bc bc' ∧ bc.Rooted pool a ∧
      ∃ bs, Segment pool.Up b bs a ∧ chain' = chain ++ bs := by
  induction rounds generalizing b chain bc with
  | zero => cases hrun
  | succ rounds ih =>
    simp only [reduce] at hrun
    by_cases htarget : b.number64 = target
    · rw [if_pos htarget] at hrun
      cases hrun
      exact ⟨⟨⟨_, rfl⟩, h⟩, hb, [], .nil _, (List.append_nil _).symm⟩
    rw [if_neg htarget] at hrun
    obtain ⟨parent, bc₁, hread, hrest⟩ := bind_eq_ok.1 hrun
    have hro : ReadOnly pool bc (getParent b bc).2 := h.getBlock _ _
    cases hread
    cases hp : (getParent b bc).1 with
    | none =>
      -- past the root the loop ends without a block
      rw [hp] at hrest
      cases rounds with
      | zero | succ rounds => cases hrest
    | some p =>
      rw [hp] at hrest
      obtain ⟨hstored, hup⟩ := h.of_getParent hb hp
      have hrooted := hro.rooted (h.rooted hstored)
      obtain ⟨hro', ha, bs, hbs, rfl⟩ := ih hro.holds hrooted hrest
      refine ⟨hro.trans hro', ?_, b :: bs, .cons hup hbs, by simp⟩
      obtain ⟨cache, hcache⟩ := hro.eq
      rw [hcache] at ha
      exact ha

theorem findCommon_eq_ok {rounds : ℕ} {oldChain newChain oldChain' newChain' : List Block}
    (h : Holds pool bc) (hold : bc.Rooted pool old) (hnew : bc.Rooted pool new)
    (hmem : old ∈ pool.blocks ∧ new ∈ pool.blocks)
    (hrun : findCommon rounds old new oldChain newChain bc = .ok (oldChain', newChain') bc') :
    ReadOnly pool bc bc' ∧ ∃ os ns a, Segment pool.Up old os a ∧ Segment pool.Up new ns a ∧
      oldChain' = oldChain ++ os ∧ newChain' = newChain ++ ns := by
  induction rounds generalizing old new oldChain newChain bc with
  | zero => cases hrun
  | succ rounds ih =>
    simp only [findCommon] at hrun
    by_cases heq : old.hash = new.hash
    · rw [if_pos heq] at hrun
      cases hrun
      obtain rfl := pool.hash_injOn hmem.1 hmem.2 heq
      exact ⟨⟨⟨_, rfl⟩, h⟩, [], [], _, .nil _, .nil _, by simp⟩
    rw [if_neg heq] at hrun
    obtain ⟨oldParent, bc₁, hread, hrun₁⟩ := bind_eq_ok.1 hrun
    obtain ⟨newParent, bc₂, hread', hrest⟩ := bind_eq_ok.1 hrun₁
    have hro : ReadOnly pool bc (getParent old bc).2 := h.getBlock _ _
    cases hread
    have hro' : ReadOnly pool _ (getParent new (getParent old bc).2).2 := hro.holds.getBlock _ _
    cases hread'
    cases hp : (getParent old bc).1 with
    | none =>
      rw [hp] at hrest
      cases hrest
    | some p =>
      rw [hp] at hrest
      cases hq : (getParent new (getParent old bc).2).1 with
      | none =>
        rw [hq] at hrest
        cases hrest
      | some q =>
        rw [hq] at hrest
        obtain ⟨hstored, hup⟩ := h.of_getParent hold hp
        obtain ⟨hstored', hup'⟩ := hro.holds.of_getParent (hro.rooted hnew) hq
        have hall := hro.trans hro'
        obtain ⟨hro'', os, ns, a, hos, hns, rfl, rfl⟩ := ih hall.holds
          (hall.rooted (h.rooted hstored))
          (hro'.rooted (hro.holds.rooted hstored')) ⟨hup.1, hup'.1⟩ hrest
        exact ⟨hall.trans hro'', old :: os, new :: ns, a, .cons hup hos,
          .cons hup' hns, by simp, by simp⟩

theorem branches_eq_ok {oldChain newChain : List Block} (h : Holds pool bc)
    (hold : bc.Rooted pool old) (hnew : bc.Rooted pool new)
    (hmem : old ∈ pool.blocks ∧ new ∈ pool.blocks)
    (hrun : branches old new bc = .ok (oldChain, newChain) bc') : ReadOnly pool bc bc' ∧
      ∃ a, Segment pool.Up old oldChain a ∧ Segment pool.Up new newChain a := by
  have mem_of : ∀ {b bs a}, b ∈ pool.blocks → Segment pool.Up b bs a → a ∈ pool.blocks := by
    intro b bs a hb hbs
    exact (hbs.forall_mem (fun _ _ hup _ => hup.1) hb).2
  simp only [branches] at hrun
  split at hrun
  · -- the old branch is the higher one
    obtain ⟨⟨found, chain⟩, bc₁, hreduce, hrest⟩ := bind_eq_ok.1 hrun
    cases found with
    | none => cases hrest
    | some block =>
      obtain ⟨hro, hblock, bs, hbs, rfl⟩ := reduce_eq_ok h hold hreduce
      obtain ⟨hro', os, ns, a, hos, hns, rfl, rfl⟩ := findCommon_eq_ok hro.holds
        (hro.rooted hblock) (hro.rooted hnew) ⟨mem_of hmem.1 hbs, hmem.2⟩ hrest
      exact ⟨hro.trans hro', a, hbs.trans hos, hns⟩
  · obtain ⟨⟨found, chain⟩, bc₁, hreduce, hrest⟩ := bind_eq_ok.1 hrun
    cases found with
    | none => cases hrest
    | some block =>
      obtain ⟨hro, hblock, bs, hbs, rfl⟩ := reduce_eq_ok h hnew hreduce
      obtain ⟨hro', os, ns, a, hos, hns, rfl, rfl⟩ := findCommon_eq_ok hro.holds
        (hro.rooted hold) (hro.rooted hblock) ⟨hmem.1, mem_of hmem.2 hbs⟩ hrest
      exact ⟨hro.trans hro', a, hos, hbs.trans hns⟩

/-- Writing the numbers of blocks, one after the other. -/
def writeNumbers (bs : List Block) (canonical : Finmap fun _ : UInt64 => Hash) :
    Finmap fun _ : UInt64 => Hash :=
  bs.foldl (fun canonical b => canonical.insert b.number64 b.hash) canonical

theorem insert_storeEq (block : Block) (bc : BlockChain) : StoreEq bc (bc.insert block) := by
  rw [insert]
  split <;> exact ⟨rfl, rfl, rfl, rfl⟩

@[simp] theorem insert_blockCache (block : Block) (bc : BlockChain) :
    (bc.insert block).blockCache = bc.blockCache := by
  rw [insert]
  split <;> rfl

@[simp] theorem insert_currentBlock (block : Block) (bc : BlockChain) :
    (bc.insert block).currentBlock = block := by
  rw [insert]
  split <;> rfl

theorem insert_canonical (block : Block) (bc : BlockChain) : (bc.insert block).chainDb.canonical =
      bc.chainDb.canonical.insert block.number64 block.hash := by
  rw [insert]
  split <;> rfl

theorem adopt_spec (chain : List Block) (bc : BlockChain) :
    StoreEq bc (bc.adopt chain) ∧ (bc.adopt chain).blockCache = bc.blockCache ∧
      (bc.adopt chain).chainDb.canonical = writeNumbers chain bc.chainDb.canonical := by
  induction chain generalizing bc with
  | nil => exact ⟨StoreEq.refl bc, rfl, rfl⟩
  | cons b chain ih =>
    obtain ⟨hstore, hcache, hcanonical⟩ :=
      ih ((bc.insert b).onDb fun db => db.writeTxLookupEntries b)
    have hhead : StoreEq bc ((bc.insert b).onDb fun db => db.writeTxLookupEntries b) :=
      (insert_storeEq b bc).trans ⟨rfl, rfl, rfl, rfl⟩
    refine ⟨hhead.trans hstore, hcache.trans (insert_blockCache b bc), ?_⟩
    refine hcanonical.trans ?_
    change writeNumbers chain (bc.insert b).chainDb.canonical = _
    rw [insert_canonical]
    rfl

/-- **What a reorganisation does**: it finds the two branches above a common block, and writes the
numbers of the new one. -/
theorem reorg_eq_ok (h : Holds pool bc) (hold : bc.Rooted pool old) (hnew : bc.Rooted pool new)
    (hmem : old ∈ pool.blocks ∧ new ∈ pool.blocks) (hrun : reorg old new bc = .ok () bc') :
    StoreEq bc bc' ∧ Holds pool bc' ∧ ∃ os ns a, Segment pool.Up old os a ∧
      Segment pool.Up new ns a ∧ bc'.chainDb.canonical = writeNumbers ns bc.chainDb.canonical := by
  obtain ⟨⟨os, ns⟩, bc₁, hbranches, hrest⟩ := bind_eq_ok.1 hrun
  obtain ⟨hro, a, hos, hns⟩ := branches_eq_ok h hold hnew hmem hbranches
  obtain ⟨hstore, hcache, hcanonical⟩ := adopt_spec ns bc₁
  have hread : StoreEq bc bc₁ := by
    obtain ⟨cache, rfl⟩ := hro.eq
    exact ⟨rfl, rfl, rfl, rfl⟩
  have hadopt : StoreEq bc₁ bc' := by
    cases hrest
    exact hstore.trans ⟨rfl, rfl, rfl, rfl⟩
  cases hrest
  refine ⟨hread.trans hadopt, hro.holds.of_storeEq hadopt hcache, os, ns, a, hos, hns, ?_⟩
  refine hcanonical.trans ?_
  obtain ⟨cache, rfl⟩ := hro.eq
  rfl

/-! ### Total difficulties -/

/-- The invariant: what the chain holds, with the total difficulties of all blocks. -/
structure Sound (pool : BlockPool) (bc : BlockChain) : Prop extends Holds pool bc where
  td_eq : ∀ hash number td, bc.chainDb.tds.lookup (hash, number) = some td →
    ∃ b, bc.chainDb.Stored b ∧ b.hash = hash ∧ pool.TotalDifficulty b td
  td_stored : ∀ b, bc.chainDb.Stored b →
    ∃ td, bc.chainDb.tds.lookup (b.hash, b.number64) = some td
  tdCache_eq : ∀ hash td, bc.hc.tdCache.lookup hash = some td →
    ∃ b, bc.chainDb.Stored b ∧ b.hash = hash ∧ pool.TotalDifficulty b td
  current_stored : bc.chainDb.Stored bc.currentBlock

omit [Crypto] in
theorem getTd_snd (hash : Hash) (number : UInt64) (bc : BlockChain) :
    ∃ cache, (bc.getTd hash number).2 = { bc with hc := { bc.hc with tdCache := cache } } := by
  simp only [getTd, HeaderChain.getTd]
  cases bc.hc.tdCache.lookup hash with
  | some td => exact ⟨bc.hc.tdCache, rfl⟩
  | none =>
    cases bc.hc.chainDb.tds.lookup (hash, number) with
    | none => exact ⟨bc.hc.tdCache, rfl⟩
    | some td => exact ⟨bc.hc.tdCache.insert hash td, rfl⟩

theorem Sound.with_tdCache (h : Sound pool bc) {cache : Finmap fun _ : Hash => ℕ}
    (hcache : ∀ hash td, cache.lookup hash = some td →
      ∃ b, bc.chainDb.Stored b ∧ b.hash = hash ∧ pool.TotalDifficulty b td) :
    Sound pool { bc with hc := { bc.hc with tdCache := cache } } :=
  ⟨{ h with }, h.td_eq, h.td_stored, hcache, h.current_stored⟩

theorem Sound.getTd (h : Sound pool bc) (hash : Hash) (number : UInt64) :
    Sound pool (bc.getTd hash number).2 := by
  simp only [BlockChain.getTd, HeaderChain.getTd]
  cases hcache : bc.hc.tdCache.lookup hash with
  | some td => exact h
  | none =>
    cases hdb : bc.hc.chainDb.tds.lookup (hash, number) with
    | none => exact h
    | some td =>
      refine h.with_tdCache ?_
      intro hash' td' hlookup
      obtain ⟨rfl, rfl⟩ | ⟨-, hlookup⟩ := of_lookup_insert hlookup
      · exact h.td_eq _ number _ hdb
      · exact h.tdCache_eq hash' td' hlookup

theorem Sound.getTd_fst (h : Sound pool bc) (hb : bc.chainDb.Stored b) :
    ∃ td, (bc.getTd b.hash b.number64).1 = some td ∧
      bc.chainDb.tds.lookup (b.hash, b.number64) = some td ∧ pool.TotalDifficulty b td := by
  obtain ⟨td, htd⟩ := h.td_stored b hb
  -- a total difficulty found under the hash of the block is that of the block
  have total_of : ∀ {td'}, (∃ b', bc.chainDb.Stored b' ∧ b'.hash = b.hash ∧
      pool.TotalDifficulty b' td') → pool.TotalDifficulty b td' := by
    rintro td' ⟨b', hb', hhash, htotal⟩
    obtain rfl : b' = b :=
      pool.hash_injOn (Stored.mem h.toHolds hb') (Stored.mem h.toHolds hb) hhash
    exact htotal
  have htotal := total_of (h.td_eq _ _ _ htd)
  refine ⟨td, ?_, htd, htotal⟩
  simp only [BlockChain.getTd, HeaderChain.getTd]
  cases hcache : bc.hc.tdCache.lookup b.hash with
  | some td' =>
    have heq := (total_of (h.tdCache_eq _ _ hcache)).unique htotal
    simp only [heq]
  | none =>
    have hdb : bc.hc.chainDb.tds.lookup (b.hash, b.number64) = some td := htd
    simp only [hdb]

/-! ### The import of a block -/

/-- The state after the import has the block with its total difficulty, and nothing else that is
new. -/
structure Wrote (pool : BlockPool) (bc : BlockChain) (block : Block) (td : ℕ)
    (bc' : BlockChain) : Prop where
  getBlock_eq : ∀ hash number, bc'.chainDb.getBlock hash number =
    if (hash, number) = (block.hash, block.number64) then some block
    else bc.chainDb.getBlock hash number
  tds_eq : bc'.chainDb.tds = bc.chainDb.tds.insert (block.hash, block.number64) td
  blockCache_eq : ∀ hash b, bc'.blockCache.lookup hash = some b →
    bc.chainDb.Stored b ∧ b.hash = hash
  tdCache_eq : ∀ hash td', bc'.hc.tdCache.lookup hash = some td' →
    (hash = block.hash ∧ td' = td) ∨
      ∃ b, bc.chainDb.Stored b ∧ b.hash = hash ∧ pool.TotalDifficulty b td'

theorem Wrote.stored_iff {td : ℕ} (h : Wrote pool bc block td bc') (hsound : Holds pool bc)
    (hblock : block ∈ pool.blocks) : bc'.chainDb.Stored b ↔ bc.chainDb.Stored b ∨ b = block := by
  rw [ChainDb.Stored, h.getBlock_eq]
  constructor
  · intro hb
    split at hb
    · cases hb
      exact .inr rfl
    · exact .inl hb
  rintro (hb | rfl)
  · split
    · rename_i hkey
      obtain rfl : b = block :=
        pool.hash_injOn (Stored.mem hsound hb) hblock (congrArg Prod.fst hkey)
      rfl
    · exact hb
  · rw [if_pos rfl]

/-- **The import of a block keeps the invariant.** -/
theorem Sound.of_wrote {td : ℕ} (h : Sound pool bc) (hwrote : Wrote pool bc block td bc')
    (hblock : block ∈ pool.blocks) (hknown : bc.HasParent pool block)
    (htd : pool.TotalDifficulty block td)
    (hcurrent : bc'.currentBlock = bc.currentBlock ∨ bc'.currentBlock = block) :
    Sound pool bc' := by
  have hiff : ∀ {b}, bc'.chainDb.Stored b ↔ bc.chainDb.Stored b ∨ b = block :=
    hwrote.stored_iff h.toHolds hblock
  refine ⟨⟨?_, hiff.2 (.inl h.genesis_stored), ?_, ?_⟩, ?_, ?_, ?_, ?_⟩
  · intro hash number b hb
    rw [hwrote.getBlock_eq] at hb
    split at hb
    · rename_i hkey
      cases hb
      exact ⟨hblock, (congrArg Prod.fst hkey).symm, (congrArg Prod.snd hkey).symm⟩
    · exact h.getBlock_eq hash number b hb
  · intro b hb
    rcases hiff.1 hb with hb | rfl
    · rcases h.parent_stored b hb with rfl | ⟨p, hp, hup⟩
      · exact .inl rfl
      · exact .inr ⟨p, hiff.2 (.inl hp), hup⟩
    · obtain ⟨p, hp, hup⟩ := hknown
      exact .inr ⟨p, hiff.2 (.inl hp), hup⟩
  · intro hash b hb
    obtain ⟨hstored, hhash⟩ := hwrote.blockCache_eq hash b hb
    exact ⟨hiff.2 (.inl hstored), hhash⟩
  · intro hash number td' hlookup
    rw [hwrote.tds_eq] at hlookup
    obtain ⟨hkey, rfl⟩ | ⟨-, hlookup⟩ := of_lookup_insert hlookup
    · exact ⟨block, hiff.2 (.inr rfl), (congrArg Prod.fst hkey).symm, htd⟩
    · obtain ⟨b, hb, hhash, htotal⟩ := h.td_eq hash number td' hlookup
      exact ⟨b, hiff.2 (.inl hb), hhash, htotal⟩
  · intro b hb
    rw [hwrote.tds_eq, lookup_insert_eq]
    split_ifs with hkey
    · exact ⟨td, rfl⟩
    rcases hiff.1 hb with hb | rfl
    · exact h.td_stored b hb
    · exact absurd rfl hkey
  · intro hash td' hlookup
    rcases hwrote.tdCache_eq hash td' hlookup with ⟨rfl, rfl⟩ | ⟨b, hb, hhash, htotal⟩
    · exact ⟨block, hiff.2 (.inr rfl), rfl, htd⟩
    · exact ⟨b, hiff.2 (.inl hb), hhash, htotal⟩
  · rcases hcurrent with heq | heq
    · rw [heq]
      exact hiff.2 (.inl h.current_stored)
    · rw [heq]
      exact hiff.2 (.inr rfl)

/-- The numbering after the block has become the head: the numbers of the branch above a common
block of the old head and the block are written. -/
def Renumbers (pool : BlockPool) (bc : BlockChain) (block : Block) (bc' : BlockChain) : Prop :=
  ∃ os ns a, Segment pool.Up bc.currentBlock os a ∧ Segment pool.Up block ns a ∧
    bc'.chainDb.canonical =
      (writeNumbers ns bc.chainDb.canonical).insert block.number64 block.hash

theorem becomeHead_eq_ok (h : Holds pool bc) (hcurrent : bc.chainDb.Stored bc.currentBlock)
    (hblock : block ∈ pool.blocks) (hknown : bc.HasParent pool block)
    (hrun : becomeHead block bc = .ok () bc') :
    bc'.currentBlock = block ∧ Renumbers pool bc block bc' ∧
      bc'.chainDb.tds = bc.chainDb.tds ∧ bc'.hc.tdCache = bc.hc.tdCache ∧
      (∀ hash number, bc'.chainDb.getBlock hash number =
        if (hash, number) = (block.hash, block.number64) then some block
        else bc.chainDb.getBlock hash number) ∧
      ∀ hash b, bc'.blockCache.lookup hash = some b → bc.chainDb.Stored b ∧ b.hash = hash := by
  have hmem := Stored.mem h hcurrent
  obtain ⟨_, _, hread, hrun₁⟩ := bind_eq_ok.1 hrun
  cases hread
  obtain ⟨_, bc₁, hreorg, hrest⟩ := bind_eq_ok.1 hrun₁
  -- with or without a reorganisation, the numbers of a branch are written
  have hmoved : StoreEq bc bc₁ ∧ Holds pool bc₁ ∧ ∃ os ns a,
      Segment pool.Up bc.currentBlock os a ∧ Segment pool.Up block ns a ∧
      bc₁.chainDb.canonical.insert block.number64 block.hash =
        (writeNumbers ns bc.chainDb.canonical).insert block.number64 block.hash := by
    simp only [reorgUnlessChild] at hreorg
    by_cases hparent : block.parentHash ≠ bc.currentBlock.hash
    · rw [if_pos hparent] at hreorg
      obtain ⟨hstore, hholds, os, ns, a, hos, hns, hcanonical⟩ :=
        reorg_eq_ok h (h.rooted hcurrent) (.inr hknown) ⟨hmem, hblock⟩ hreorg
      exact ⟨hstore, hholds, os, ns, a, hos, hns, by rw [hcanonical]⟩
    rw [if_neg hparent] at hreorg
    cases hreorg
    obtain ⟨p, -, hup⟩ := hknown
    obtain rfl : p = bc.currentBlock :=
      pool.hash_injOn hup.1 hmem (hup.2.1.trans (not_not.1 hparent))
    refine ⟨StoreEq.refl bc, h, [], [block], bc.currentBlock, .nil _, Segment.single hup, ?_⟩
    change _ = (bc.chainDb.canonical.insert block.number64 block.hash).insert _ _
    rw [Finmap.insert_insert]
  obtain ⟨hstore, hholds, os, ns, a, hos, hns, hcanonical⟩ := hmoved
  cases hrest
  have hinsert := insert_storeEq block
    (bc₁.onDb fun db => (db.writeBlock block).writeTxLookupEntries block)
  refine ⟨insert_currentBlock _ _, ⟨os, ns, a, hos, hns, ?_⟩, hinsert.tds_eq.trans hstore.tds_eq,
    hinsert.tdCache_eq.trans hstore.tdCache_eq, ?_, ?_⟩
  · exact (insert_canonical _ _).trans hcanonical
  · intro hash number
    rw [ChainDb.getBlock_congr hinsert.headers_eq hinsert.bodies_eq]
    refine (ChainDb.getBlock_writeBlock bc₁.chainDb block hash number).trans ?_
    rw [ChainDb.getBlock_congr hstore.headers_eq hstore.bodies_eq]
  · intro hash b hb
    rw [insert_blockCache] at hb
    obtain ⟨hstored, hhash⟩ := hholds.blockCache_eq hash b hb
    exact ⟨hstore.stored_iff.1 hstored, hhash⟩

/-- **What a successful import does.** -/
theorem writeBlockAndState_eq_ok {coin : Bool} {status : WriteStatus} (h : Sound pool bc)
    (hblock : block ∈ pool.blocks) (hknown : bc.HasParent pool block)
    (hrun : writeBlockAndState coin block bc = .ok status bc') :
    ∃ td localTd, pool.TotalDifficulty block td ∧
      pool.TotalDifficulty bc.currentBlock localTd ∧ Wrote pool bc block td bc' ∧
      ((status = .canonStatTy ∧ localTd ≤ td ∧ bc'.currentBlock = block ∧
          Renumbers pool bc block bc') ∨
        (status = .sideStatTy ∧ td ≤ localTd ∧ bc'.currentBlock = bc.currentBlock ∧
          bc'.chainDb.canonical = bc.chainDb.canonical)) := by
  obtain ⟨p, hp, hup⟩ := id hknown
  -- the two total difficulties that are read
  obtain ⟨ptd, hptd, -, htotal⟩ := h.getTd_fst hp
  rw [hup.2.1, ← hup.number64] at hptd
  obtain ⟨cache₁, hcache₁⟩ := getTd_snd block.parentHash (block.number64 - 1) bc
  have hsound₁ := h.getTd block.parentHash (block.number64 - 1)
  rw [hcache₁] at hsound₁
  obtain ⟨localTd, hlocal, -, htotal'⟩ := hsound₁.getTd_fst hsound₁.current_stored
  have hsound₂ := hsound₁.getTd bc.currentBlock.hash bc.currentBlock.number64
  obtain ⟨cache₂, hcache₂⟩ := getTd_snd bc.currentBlock.hash bc.currentBlock.number64
    { bc with hc := { bc.hc with tdCache := cache₁ } }
  rw [hcache₂] at hsound₂
  obtain ⟨_, bc₁, hread₁, hrun₁⟩ := bind_eq_ok.1 hrun
  cases hread₁
  rw [hptd, hcache₁] at hrun₁
  obtain ⟨_, bc₂, hread₂, hrun₂⟩ := bind_eq_ok.1 hrun₁
  cases hread₂
  rw [hlocal, hcache₂] at hrun₂
  obtain ⟨_, bc₃, hwrite, hrest⟩ := bind_eq_ok.1 hrun₂
  have hbc₃ : bc₃ = { bc with
      hc := { bc.hc.onDb (fun db => db.writeTd block.hash block.number64 (block.difficulty + ptd))
        with tdCache := cache₂.insert block.hash (block.difficulty + ptd) } } := by
    cases hwrite
    rfl
  have htdCache : ∀ hash td', (cache₂.insert block.hash (block.difficulty + ptd)).lookup hash =
      some td' → (hash = block.hash ∧ td' = block.difficulty + ptd) ∨
        ∃ b, bc.chainDb.Stored b ∧ b.hash = hash ∧ pool.TotalDifficulty b td' := by
    intro hash td' hlookup
    exact (of_lookup_insert hlookup).imp_right fun hlookup =>
      hsound₂.tdCache_eq hash td' hlookup.2
  refine ⟨block.difficulty + ptd, localTd, htotal.child hup, htotal', ?_⟩
  by_cases hbetter :
      (localTd < block.difficulty + ptd || (block.difficulty + ptd = localTd && coin)) = true
  · simp only [hbetter, if_true] at hrest
    obtain ⟨_, bc₄, hhead, hret⟩ := bind_eq_ok.1 hrest
    cases hret
    subst hbc₃
    have hholds : Holds pool { bc with
        hc := { bc.hc.onDb (fun db => db.writeTd block.hash block.number64 (block.difficulty + ptd))
          with tdCache := cache₂.insert block.hash (block.difficulty + ptd) } } :=
      { h with }
    obtain ⟨hcurrent, hnumbers, htds, htdc, hget, hblocks⟩ :=
      becomeHead_eq_ok hholds h.current_stored hblock hknown hhead
    refine ⟨⟨hget, htds, hblocks, ?_⟩, .inl ⟨rfl, ?_, hcurrent, hnumbers⟩⟩
    · rw [htdc]
      exact htdCache
    · simp only [Bool.or_eq_true, Bool.and_eq_true, decide_eq_true_eq] at hbetter
      omega
  · simp only [hbetter] at hrest
    cases hrest
    subst hbc₃
    refine ⟨⟨ChainDb.getBlock_writeBlock _ block, rfl, h.blockCache_eq, htdCache⟩,
      .inr ⟨rfl, ?_, rfl, rfl⟩⟩
    simp only [Bool.or_eq_true, decide_eq_true_eq, not_or] at hbetter
    omega

end BlockChain
