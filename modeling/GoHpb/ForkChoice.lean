/-
**Runs of imports, and the choice of the head.**

A run is any sequence of successful imports of blocks with known parents, with reads and evictions
of the caches in between.  After every run that starts with the genesis block, the stored total
difficulties are the sums of the difficulties down to the genesis block, and the head is one of the
blocks with the largest one.  This does not depend on how ties are decided, nor on the order of the
imports.

Main results:

* `fork_choice` — **the head has the largest total difficulty**, whatever the order of the imports.
-/

import GoHpb.BlockImport

open FailState BlockTree BlockChain List

section Runs

variable [Crypto]

namespace BlockChain

variable {pool : BlockPool} {bc bc' bc'' : BlockChain} {b block : Block}

/-! ### Steps -/

/-- The total difficulty that `GetTd` answers for a block. -/
def td (bc : BlockChain) (b : Block) : Option ℕ := (bc.getTd b.hash b.number64).1

/-- Reads fill the caches, and any entry may be evicted. -/
inductive CacheStep (bc : BlockChain) : BlockChain → Prop
  | readBlock (hash : Hash) (number : UInt64) : CacheStep bc (bc.getBlock hash number).2
  | readTd (hash : Hash) (number : UInt64) : CacheStep bc (bc.getTd hash number).2
  | evictBlock (hash : Hash) :
      CacheStep bc { bc with blockCache := bc.blockCache.erase hash }
  | evictTd (hash : Hash) :
      CacheStep bc { bc with hc := { bc.hc with tdCache := bc.hc.tdCache.erase hash } }

namespace CacheStep

theorem sound (h : CacheStep bc bc') (hsound : Sound pool bc) : Sound pool bc' := by
  cases h with
  | readBlock hash number =>
    have hro := hsound.toHolds.getBlock hash number
    obtain ⟨cache, hcache⟩ := hro.eq
    have hholds := hro.holds
    rw [hcache] at hholds ⊢
    exact ⟨hholds, hsound.td_eq, hsound.td_stored, hsound.tdCache_eq, hsound.current_stored⟩
  | readTd hash number => exact hsound.getTd hash number
  | evictBlock hash =>
    refine ⟨{ hsound with blockCache_eq := ?_ },
      hsound.td_eq, hsound.td_stored, hsound.tdCache_eq, hsound.current_stored⟩
    intro hash' b hb
    exact hsound.blockCache_eq hash' b (FinmapTotal.of_lookup_erase hb).2
  | evictTd hash =>
    refine hsound.with_tdCache ?_
    intro hash' td hlookup
    exact hsound.tdCache_eq hash' td (FinmapTotal.of_lookup_erase hlookup).2

theorem same (h : CacheStep bc bc') :
    bc'.chainDb = bc.chainDb ∧ bc'.currentBlock = bc.currentBlock := by
  cases h with
  | readBlock hash number =>
    rw [getBlock]
    cases bc.blockCache.lookup hash with
    | some block => exact ⟨rfl, rfl⟩
    | none => cases bc.chainDb.getBlock hash number <;> exact ⟨rfl, rfl⟩
  | readTd hash number =>
    obtain ⟨cache, hcache⟩ := getTd_snd hash number bc
    rw [hcache]
    exact ⟨rfl, rfl⟩
  | evictBlock hash | evictTd hash => exact ⟨rfl, rfl⟩

end CacheStep

variable {status : WriteStatus} {coin : Bool}

theorem Sound.write (h : Sound pool bc) (hblock : block ∈ pool.blocks) (hknown : bc.Knows block)
    (hrun : writeBlockAndState coin block bc = .ok status bc') :
    Sound pool bc' ∧ ∀ b, bc'.chainDb.Stored b ↔ bc.chainDb.Stored b ∨ b = block := by
  have hparent := hknown.hasParent h.toHolds
  obtain ⟨td, localTd, htd, -, hwrote, hcases⟩ := writeBlockAndState_eq_ok h hblock hparent hrun
  have hcurrent : bc'.currentBlock = bc.currentBlock ∨ bc'.currentBlock = block := by
    rcases hcases with ⟨-, -, heq, -⟩ | ⟨-, -, heq, -⟩
    · exact .inr heq
    · exact .inl heq
  exact ⟨h.of_wrote hwrote hblock hparent htd hcurrent, fun b => hwrote.stored_iff h.toHolds hblock⟩

/-- No stored block is heavier than the head. -/
def Heaviest (pool : BlockPool) (bc : BlockChain) : Prop :=
  ∀ b, bc.chainDb.Stored b → ∀ td tdHead, pool.TotalDifficulty b td →
    pool.TotalDifficulty bc.currentBlock tdHead → td ≤ tdHead

/-- An import never makes the head lighter, and the block is not heavier than the head after it. -/
theorem head_of_write (h : Sound pool bc) (hblock : block ∈ pool.blocks) (hknown : bc.Knows block)
    (hrun : writeBlockAndState coin block bc = .ok status bc') {tdOld tdNew td : ℕ}
    (hold : pool.TotalDifficulty bc.currentBlock tdOld)
    (hnew : pool.TotalDifficulty bc'.currentBlock tdNew) (htd : pool.TotalDifficulty block td) :
    tdOld ≤ tdNew ∧ td ≤ tdNew := by
  obtain ⟨td', localTd, htd', hlocal, -, hcases⟩ :=
    writeBlockAndState_eq_ok h hblock (hknown.hasParent h.toHolds) hrun
  obtain rfl := htd.unique htd'
  obtain rfl := hold.unique hlocal
  rcases hcases with ⟨-, hle, heq, -⟩ | ⟨-, hle, heq, -⟩
  · -- the block is the new head
    rw [heq] at hnew
    obtain rfl := hnew.unique htd
    exact ⟨hle, le_rfl⟩
  · rw [heq] at hnew
    obtain rfl := hnew.unique hold
    exact ⟨le_rfl, hle⟩

theorem Heaviest.write (hmax : Heaviest pool bc) (h : Sound pool bc) (hblock : block ∈ pool.blocks)
    (hknown : bc.Knows block) (hrun : writeBlockAndState coin block bc = .ok status bc') :
    Heaviest pool bc' := by
  intro b hb td tdHead htd hhead
  obtain ⟨localTd, -, -, hlocal⟩ := h.getTd_fst h.current_stored
  rcases ((h.write hblock hknown hrun).2 b).1 hb with hb | rfl
  · obtain ⟨tdBlock, -, htdBlock, -⟩ :=
      writeBlockAndState_eq_ok h hblock (hknown.hasParent h.toHolds) hrun
    have hle := hmax b hb td localTd htd hlocal
    exact hle.trans (head_of_write h hblock hknown hrun hlocal hhead htdBlock).1
  · exact (head_of_write h hblock hknown hrun hlocal hhead htd).2

/-- The import of a block, if its parent is known. -/
def importBlock (bc : BlockChain) (entry : Bool × Block) : Option BlockChain :=
  if bc.Knows entry.2 then
    match writeBlockAndState entry.1 entry.2 bc with
    | .ok _ bc' => some bc'
    | .error _ _ => none
  else none

theorem importBlock_eq_some {entry : Bool × Block} (h : importBlock bc entry = some bc') :
    bc.Knows entry.2 ∧ ∃ status, writeBlockAndState entry.1 entry.2 bc = .ok status bc' := by
  rw [importBlock] at h
  split at h
  · rename_i hknown
    split at h
    · rename_i status _ hwrite
      cases h
      exact ⟨hknown, status, hwrite⟩
    · cases h
  · cases h

/-- The import of several blocks, each with the result of its tie-break. -/
def importAll (entries : List (Bool × Block)) (bc : BlockChain) : Option BlockChain :=
  entries.foldlM importBlock bc

end BlockChain

/-! ### Runs -/

namespace BlockPool

open BlockChain

variable {pool : BlockPool} {bc bc' : BlockChain} {bs cs : List Block} {b : Block}

/-- The chain with the genesis block only. -/
def start (pool : BlockPool) : BlockChain := BlockChain.start pool.genesis

/-- A run imports the blocks of a list, one after the other. -/
inductive Run (pool : BlockPool) (bc : BlockChain) : List Block → BlockChain → Prop
  | refl : Run pool bc [] bc
  | write {bs : List Block} {bc' bc'' : BlockChain} {coin : Bool} {block : Block}
      {status : WriteStatus} : Run pool bc bs bc' → block ∈ pool.blocks → bc'.Knows block →
      writeBlockAndState coin block bc' = .ok status bc'' →
      Run pool bc (bs ++ [block]) bc''
  | cache {bs : List Block} {bc' bc'' : BlockChain} : Run pool bc bs bc' → CacheStep bc' bc'' →
      Run pool bc bs bc''

theorem getBlock_start {hash : Hash} {number : UInt64}
    (h : pool.start.chainDb.getBlock hash number = some b) :
    b = pool.genesis ∧ hash = b.hash ∧ number = b.number64 := by
  simp only [start, BlockChain.start, HeaderChain.start, BlockChain.chainDb, HeaderChain.onDb,
    ChainDb.getBlock] at h
  by_cases hkey : (hash, number) = (pool.genesis.hash, pool.genesis.number64)
  · have hheader : (pool.genesis.header.hash, pool.genesis.header.number64) =
      (pool.genesis.hash, pool.genesis.number64) := rfl
    rw [hkey, hheader, Finmap.lookup_insert, Finmap.lookup_insert] at h
    cases h
    exact ⟨rfl, congrArg Prod.fst hkey, congrArg Prod.snd hkey⟩
  · rw [Finmap.lookup_insert_of_ne _ hkey] at h
    simp at h

theorem stored_genesis : pool.start.chainDb.Stored pool.genesis := by
  simp only [ChainDb.Stored, start, BlockChain.start, HeaderChain.start, BlockChain.chainDb,
    HeaderChain.onDb, ChainDb.getBlock]
  have hheader : (pool.genesis.header.hash, pool.genesis.header.number64) =
      (pool.genesis.hash, pool.genesis.number64) := rfl
  rw [hheader, Finmap.lookup_insert, Finmap.lookup_insert]

theorem stored_start_iff : pool.start.chainDb.Stored b ↔ b = pool.genesis :=
  ⟨fun h => (getBlock_start h).1, fun h => h ▸ stored_genesis⟩

theorem sound_start (pool : BlockPool) : Sound pool pool.start := by
  have hkey : pool.start.chainDb.tds = (∅ : Finmap fun _ : Hash × UInt64 => ℕ).insert
        (pool.genesis.hash, pool.genesis.number64) pool.genesis.difficulty := rfl
  refine ⟨⟨?_, stored_genesis, ?_, ?_⟩, ?_, ?_, ?_, stored_genesis⟩
  · intro hash number b hb
    obtain ⟨rfl, hhash, hnumber⟩ := getBlock_start hb
    exact ⟨pool.genesis_mem, hhash.symm, hnumber.symm⟩
  · intro b hb
    exact .inl (stored_start_iff.1 hb)
  · intro hash b hb
    simp [start, BlockChain.start] at hb
  · intro hash number td hlookup
    obtain ⟨heq, rfl⟩ | ⟨-, hlookup⟩ := FinmapTotal.of_lookup_insert hlookup
    · exact ⟨pool.genesis, stored_genesis, (congrArg Prod.fst heq).symm, [], .nil _,
        (Nat.zero_add _).symm⟩
    · simp at hlookup
  · intro b hb
    obtain rfl := stored_start_iff.1 hb
    exact ⟨_, by rw [hkey, Finmap.lookup_insert]⟩
  · intro hash td hlookup
    simp [start, BlockChain.start, HeaderChain.start, HeaderChain.onDb] at hlookup

namespace Run

variable (h : pool.Run bc bs bc') (hbc : Sound pool bc)
include h hbc

/-- **Runs keep the invariant.** -/
theorem sound : Sound pool bc' := by
  induction h with
  | refl => exact hbc
  | write _ hblock hknown hrun ih => exact (ih.write hblock hknown hrun).1
  | cache _ hstep ih => exact hstep.sound ih

theorem stored_iff :
    bc'.chainDb.Stored b ↔ bc.chainDb.Stored b ∨ b ∈ bs := by
  induction h with
  | refl => simp
  | write hprev hblock hknown hrun ih =>
    rw [((hprev.sound hbc).write hblock hknown hrun).2, ih, mem_append,
      mem_singleton, or_assoc]
  | cache _ hstep ih =>
    rw [hstep.same.1]
    exact ih

theorem head_le {tdOld tdNew : ℕ}
    (hold : pool.TotalDifficulty bc.currentBlock tdOld)
    (hnew : pool.TotalDifficulty bc'.currentBlock tdNew) : tdOld ≤ tdNew := by
  induction h generalizing tdNew with
  | refl => exact (hold.unique hnew).le
  | write hprev hblock hknown hrun ih =>
    have hsound := hprev.sound hbc
    obtain ⟨tdMid, -, -, hmid⟩ := hsound.getTd_fst hsound.current_stored
    obtain ⟨tdBlock, -, htd, -⟩ :=
      writeBlockAndState_eq_ok hsound hblock (hknown.hasParent hsound.toHolds) hrun
    exact (ih hmid).trans (head_of_write hsound hblock hknown hrun hmid hnew htd).1
  | cache _ hstep ih =>
    rw [hstep.same.2] at hnew
    exact ih hnew

omit h hbc

/-- **After a run from the genesis block no stored block is heavier than the head.** -/
theorem heaviest (h : pool.Run pool.start bs bc) : Heaviest pool bc := by
  induction h with
  | refl =>
    intro b hb td tdHead htd hhead
    obtain rfl := stored_start_iff.1 hb
    exact (htd.unique hhead).le
  | write hprev hblock hknown hrun ih =>
    exact ih.write (hprev.sound (sound_start pool)) hblock hknown hrun
  | cache _ hstep ih =>
    intro b hb
    rw [hstep.same.1] at hb
    rw [hstep.same.2]
    exact ih b hb

end Run

theorem run_importAll {entries : List (Bool × Block)} (hmem : ∀ e ∈ entries, e.2 ∈ pool.blocks)
    (h : importAll entries bc = some bc') : pool.Run bc (entries.map Prod.snd) bc' := by
  induction entries using reverseRecOn generalizing bc' with
  | nil =>
    cases h
    exact .refl
  | append_singleton entries e ih =>
    rw [importAll, foldlM_append] at h
    obtain ⟨bc₁, hprev, hlast⟩ := Option.bind_eq_some_iff.1 h
    have hrun := ih (fun e' he' => hmem e' (mem_append_left _ he')) hprev
    have hstep : importBlock bc₁ e = some bc' := by simpa using hlast
    obtain ⟨hknown, status, hwrite⟩ := importBlock_eq_some hstep
    rw [map_append]
    exact .write hrun (hmem e (by simp)) hknown hwrite

end BlockPool

open BlockChain

/-- **The choice of the head.**  After any run from the genesis block, the database has for every
imported block the sum of the difficulties on its way to the genesis block; the head is an imported
block, or the genesis block, and no imported block is heavier; going on with the run never makes
the head lighter; and two runs that import the same blocks end with equally heavy heads. -/
theorem fork_choice (pool : BlockPool) : (∀ bs bc, pool.Run pool.start bs bc →
      (∀ b ∈ pool.genesis :: bs, ∃ td, bc.chainDb.tds.lookup (b.hash, b.number64) = some td ∧
        bc.td b = some td ∧ pool.TotalDifficulty b td) ∧ bc.currentBlock ∈ pool.genesis :: bs ∧
      (∀ b ∈ pool.genesis :: bs, ∃ td tdHead, bc.td b = some td ∧
        bc.td bc.currentBlock = some tdHead ∧ td ≤ tdHead) ∧
      ∀ cs bc', pool.Run bc cs bc' → ∃ td td', bc.td bc.currentBlock = some td ∧
        bc'.td bc'.currentBlock = some td' ∧ td ≤ td') ∧
    ∀ bs cs bc bc', pool.Run pool.start bs bc → pool.Run pool.start cs bc' →
      (∀ b, b ∈ bs ↔ b ∈ cs) → bc.td bc.currentBlock = bc'.td bc'.currentBlock := by
  have stored : ∀ {bs bc}, pool.Run pool.start bs bc →
      ∀ b, bc.chainDb.Stored b ↔ b ∈ pool.genesis :: bs := by
    intro bs bc h b
    rw [h.stored_iff (BlockPool.sound_start pool), BlockPool.stored_start_iff, mem_cons]
  constructor
  · intro bs bc h
    have hsound := h.sound (BlockPool.sound_start pool)
    obtain ⟨tdHead, htdHead, -, hhead⟩ := hsound.getTd_fst hsound.current_stored
    refine ⟨?_, (stored h _).1 hsound.current_stored, ?_, ?_⟩
    · intro b hb
      obtain ⟨td, htd, hdb, htotal⟩ := hsound.getTd_fst ((stored h b).2 hb)
      exact ⟨td, hdb, htd, htotal⟩
    · intro b hb
      have hb := (stored h b).2 hb
      obtain ⟨td, htd, -, htotal⟩ := hsound.getTd_fst hb
      exact ⟨td, tdHead, htd, htdHead, h.heaviest b hb td tdHead htotal hhead⟩
    · intro cs bc' h'
      have hsound' := h'.sound hsound
      obtain ⟨td', htd', -, htotal'⟩ := hsound'.getTd_fst hsound'.current_stored
      exact ⟨tdHead, td', htdHead, htd', h'.head_le hsound hhead htotal'⟩
  · intro bs cs bc bc' h h' hmem
    have hsound := h.sound (BlockPool.sound_start pool)
    have hsound' := h'.sound (BlockPool.sound_start pool)
    -- each head is stored in the other chain
    have hsame : ∀ b, bc.chainDb.Stored b ↔ bc'.chainDb.Stored b := by
      intro b
      rw [stored h, stored h', mem_cons, mem_cons, hmem]
    obtain ⟨td, htd, -, htotal⟩ := hsound.getTd_fst hsound.current_stored
    obtain ⟨td', htd', -, htotal'⟩ := hsound'.getTd_fst hsound'.current_stored
    have hle := h'.heaviest _ ((hsame _).1 hsound.current_stored) td td' htotal htotal'
    have hge := h.heaviest _ ((hsame _).2 hsound'.current_stored) td' td htotal' htotal
    rw [BlockChain.td, BlockChain.td, htd, htd', le_antisymm hle hge]

end Runs

/-! ### Two orders of three imports -/

namespace Forks

/-- A block without transactions. -/
def block (header : Header) : Block := ⟨header, []⟩

/-- The blocks of the two branches. -/
def blocks : List Block := [root, first, second, third, heavyFirst, heavySecond].map block

theorem blocks_hash :
    (blocks.map Block.hash).Nodup ∧ ∀ b ∈ blocks, b.hash ≠ (block root).parentHash := by
  decide +kernel

def pool : BlockPool where
  genesis := block root
  blocks := { b | b ∈ blocks }
  genesis_mem := mem_cons_self
  genesis_number := rfl
  genesis_orphan := blocks_hash.2
  hash_injOn := fun _ ha _ hb h => inj_on_of_nodup_map blocks_hash.1 ha hb h

/-- Two orders in which the same blocks can be imported. -/
def lightFirst : List (Bool × Block) :=
  [(false, block first), (false, block second), (false, block heavyFirst)]

def heaviestFirst : List (Bool × Block) :=
  [(false, block heavyFirst), (false, block first), (false, block second)]

theorem orders_run : (importAll lightFirst pool.start).map currentBlock =
        some (block second) ∧
      (importAll heaviestFirst pool.start).map currentBlock =
        some (block heavyFirst) := by
  decide +kernel

end Forks

open Forks in
theorem fork_choice_orders :
    ∃ bc bc', importAll lightFirst pool.start = some bc ∧
      importAll heaviestFirst pool.start = some bc' ∧
      bc.currentBlock ≠ bc'.currentBlock ∧ bc.td bc.currentBlock = bc'.td bc'.currentBlock := by
  obtain ⟨bc, hlight, hhead⟩ := Option.map_eq_some_iff.1 orders_run.1
  obtain ⟨bc', hheavy, hhead'⟩ := Option.map_eq_some_iff.1 orders_run.2
  refine ⟨bc, bc', hlight, hheavy, ?_, ?_⟩
  · rw [hhead, hhead']
    intro heq
    have hnumber : 2 = 1 := congrArg Block.number heq
    omega
  have hrun : pool.Run pool.start _ bc :=
    BlockPool.run_importAll (by simp [lightFirst, pool, blocks]) hlight
  have hrun' : pool.Run pool.start _ bc' :=
    BlockPool.run_importAll (by simp [heaviestFirst, pool, blocks]) hheavy
  refine (fork_choice pool).2 _ _ bc bc' hrun hrun' ?_
  intro b
  simp only [lightFirst, heaviestFirst, map_cons, map_nil, mem_cons,
    not_mem_nil, or_false]
  rw [← or_assoc, or_comm]
