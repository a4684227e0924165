/-
**The canonical numbering under the import of blocks.**

The canonical table should have an entry exactly for the numbers up to that of the head, and these
entries should be the head and its ancestors.  At and below the head this is what a reorganisation
establishes, but nothing deletes the entries above a new head that is lower than the old one: the
property survives an import exactly if the new head is not lower.

Main results:

* `canonical_index_iff` — **the property holds after rising runs, and a further import keeps it
  exactly if it does not make a lower block the head**.
-/

import GoHpb.ForkChoice

open FailState BlockTree Block

section Index

variable [Crypto]

namespace BlockChain

variable {pool : BlockPool} {bc bc' : BlockChain} {block : Block} {bs : List Block}

theorem numberTable_writeNumbers (hbs : ∀ b ∈ bs, b.number < 2 ^ 64)
    (canonical : Finmap fun _ : UInt64 => Hash) : numberTable (writeNumbers bs canonical) =
      writeAll hash number bs (numberTable canonical) := by
  induction bs generalizing canonical with
  | nil => rfl
  | cons b bs ih =>
    rw [List.forall_mem_cons] at hbs
    change numberTable (writeNumbers bs (canonical.insert b.number64 b.hash)) =
      writeAll hash number bs
        (Function.update (numberTable canonical) b.number (some b.hash))
    rw [ih hbs.2, ← numberTable_insert canonical hbs.1]
    rfl

/-! ### The property -/

/-- The table has an entry exactly for the numbers up to that of the head, the entry for the head's
number is the head, and the block of each other entry has the entry below as its parent hash. -/
structure CanonicalIndex (bc : BlockChain) : Prop where
  isSome_iff : ∀ n, (bc.chainDb.canonicalAt n).isSome ↔ n ≤ bc.currentBlock.number
  head_eq : bc.chainDb.canonicalAt bc.currentBlock.number = some bc.currentBlock.hash
  linked : ∀ n hash, bc.chainDb.canonicalAt (n + 1) = some hash →
    ∃ b, bc.chainDb.getBlock hash (.ofNat (n + 1)) = some b ∧
      bc.chainDb.canonicalAt n = some b.parentHash

theorem Sound.segment_head (h : Sound pool bc) :
    ∃ bs, Segment pool.Up bc.currentBlock bs pool.genesis := by
  obtain ⟨td, -, -, bs, hbs, -⟩ := h.getTd_fst h.current_stored
  exact ⟨bs, hbs⟩

theorem Sound.stored_of_segment (h : Sound pool bc) {b a : Block} (hb : bc.chainDb.Stored b)
    (hseg : Segment pool.Up b bs a) : bc.chainDb.Stored a := by
  refine (hseg.forall_mem (P := fun c => bc.chainDb.Stored c) ?_ hb).2
  intro c p hup hc
  rcases h.parent_stored c hc with rfl | ⟨q, hq, hup'⟩
  · -- the genesis block has no parent
    exact absurd hup.2.1 (pool.genesis_orphan p hup.1)
  · rwa [BlockPool.up_unique c p q hup hup']

/-- **The property in terms of the branch of the head**: the table has its blocks, and nothing
above the head. -/
theorem canonicalIndex_iff (h : Sound pool bc) : bc.CanonicalIndex ↔
      Indexes hash number pool.Up bc.chainDb.canonicalAt bc.currentBlock ∧
        ∀ n, bc.currentBlock.number < n → bc.chainDb.canonicalAt n = none := by
  constructor
  · intro hindex
    constructor
    · -- from the head down: each entry gives the one below
      have hdown : ∀ {b bs a}, Segment pool.Up b bs a → bc.chainDb.Stored b →
          bc.chainDb.canonicalAt b.number = some b.hash →
          bc.chainDb.canonicalAt a.number = some a.hash := by
        intro b bs a hseg
        induction hseg with
        | nil b => exact fun _ hb => hb
        | @cons b p a bs hup hrest ih =>
          intro hstored hb
          have hp := h.stored_of_segment hstored (Segment.single hup)
          refine ih hp ?_
          rw [hup.2.2] at hb
          obtain ⟨c, hc, hbelow⟩ := hindex.linked _ _ hb
          obtain ⟨hmem, hhash, -⟩ := h.getBlock_eq _ _ _ hc
          obtain rfl : c = b := pool.hash_injOn hmem (Stored.mem h.toHolds hstored) hhash
          rw [hbelow, hup.2.1]
      intro bs a hseg
      exact hdown hseg h.current_stored hindex.head_eq
    · intro n hn
      rw [← Option.not_isSome_iff_eq_none, hindex.isSome_iff]
      exact not_le.2 hn
  rintro ⟨hindexes, habove⟩
  obtain ⟨bs, hroot⟩ := h.segment_head
  have hentry : ∀ n ≤ bc.currentBlock.number, ∃ cs c, Segment pool.Up bc.currentBlock cs c ∧
      c.number = n ∧ bc.chainDb.canonicalAt n = some c.hash := by
    intro n hn
    have hlow : pool.genesis.number ≤ n := by
      rw [pool.genesis_number]
      exact Nat.zero_le n
    obtain ⟨c, cs, hcs, rfl⟩ := hroot.exists_height BlockPool.up_number hlow hn
    exact ⟨cs, c, hcs, rfl, hindexes cs c hcs⟩
  refine ⟨?_, hindexes [] _ (.nil _), ?_⟩
  · intro n
    constructor
    · intro hsome
      by_contra hn
      rw [habove n (not_le.1 hn)] at hsome
      cases hsome
    · intro hn
      obtain ⟨cs, c, -, -, hc⟩ := hentry n hn
      rw [hc]
      rfl
  intro n hash hlookup
  have hn : n + 1 ≤ bc.currentBlock.number := by
    by_contra hn
    rw [habove _ (not_le.1 hn)] at hlookup
    cases hlookup
  obtain ⟨cs, c, hcs, hnumber, hc⟩ := hentry (n + 1) hn
  rw [hc] at hlookup
  cases hlookup
  have hstored := h.stored_of_segment h.current_stored hcs
  refine ⟨c, ?_, ?_⟩
  · rw [← hnumber]
    exact hstored
  rcases h.parent_stored c hstored with rfl | ⟨p, -, hup⟩
  · rw [pool.genesis_number] at hnumber
    omega
  have hp := hindexes _ p (hcs.trans (Segment.single hup))
  have hpn : p.number = n := by
    have := hup.2.2
    omega
  rw [hpn] at hp
  rw [hp, hup.2.1]

/-! ### One import -/

theorem Renumbers.indexes (hnumbers : Renumbers pool bc block bc') (hlt : block.number < 2 ^ 64)
    (hindex : Indexes hash number pool.Up bc.chainDb.canonicalAt bc.currentBlock) :
    Indexes hash number pool.Up bc'.chainDb.canonicalAt block ∧
      ∀ n, block.number < n → bc'.chainDb.canonicalAt n = bc.chainDb.canonicalAt n := by
  obtain ⟨os, ns, a, hos, hns, hcanonical⟩ := hnumbers
  have hsmall : ∀ b ∈ ns, b.number < 2 ^ 64 := by
    intro b hb
    exact (hns.height_mem BlockPool.up_number hb).2.trans_lt hlt
  have hmoved := hindex.writeAll BlockPool.up_number BlockPool.up_unique hos hns
  -- the last write repeats an entry that is there already
  have htable : bc'.chainDb.canonicalAt =
      writeAll hash number ns bc.chainDb.canonicalAt := by
    have hhead := hmoved [] block (.nil block)
    have heq : bc'.chainDb.canonicalAt = Function.update
        (writeAll hash number ns bc.chainDb.canonicalAt) block.number
        (some block.hash) := by
      change numberTable bc'.chainDb.canonical = _
      rw [hcanonical]
      change numberTable (Finmap.insert (.ofNat block.number) block.hash _) = _
      rw [numberTable_insert _ hlt, numberTable_writeNumbers hsmall]
      rfl
    rw [heq, ← hhead, Function.update_eq_self]
  rw [htable]
  exact ⟨hmoved, fun n hn => writeAll_of_lt BlockPool.up_number hns hn⟩

/-- **One import keeps the property exactly if it does not make a lower block the head.** -/
theorem canonicalIndex_write {coin : Bool} {status : WriteStatus} (h : Sound pool bc)
    (hindex : bc.CanonicalIndex) (hblock : block ∈ pool.blocks) (hknown : bc.Knows block)
    (hrun : writeBlockAndState coin block bc = .ok status bc') :
    bc'.CanonicalIndex ↔ (status = .canonStatTy →
      block.number < 2 ^ 64 ∧ bc.currentBlock.number ≤ block.number) := by
  obtain ⟨hindexes, habove⟩ := (canonicalIndex_iff h).1 hindex
  have hsound := (h.write hblock hknown hrun).1
  obtain ⟨td, localTd, -, -, -, hcases⟩ :=
    writeBlockAndState_eq_ok h hblock (hknown.hasParent h.toHolds) hrun
  rcases hcases with ⟨rfl, -, hcurrent, hnumbers⟩ | ⟨rfl, -, hcurrent, hcanonical⟩
  · constructor
    · intro hindex' _
      have hlt : block.number < 2 ^ 64 := by
        have hhead := hindex'.head_eq
        rw [hcurrent, ChainDb.canonicalAt, numberTable] at hhead
        by_contra hge
        rw [if_neg hge] at hhead
        cases hhead
      refine ⟨hlt, ?_⟩
      by_contra hlower
      -- the entry of the old head is still there
      have hkept := (hnumbers.indexes hlt hindexes).2 _ (not_le.1 hlower)
      rw [hindex.head_eq] at hkept
      have hle := (hindex'.isSome_iff bc.currentBlock.number).1 (by rw [hkept]; rfl)
      rw [hcurrent] at hle
      exact hlower hle
    · intro hcond
      obtain ⟨hlt, hle⟩ := hcond rfl
      obtain ⟨hindexes', hkept⟩ := hnumbers.indexes hlt hindexes
      refine (canonicalIndex_iff hsound).2 ?_
      rw [hcurrent]
      refine ⟨hindexes', ?_⟩
      intro n hn
      rw [hkept n hn]
      exact habove n (hle.trans_lt hn)
  · refine iff_of_true ?_ (fun hstatus => by cases hstatus)
    have htable : bc'.chainDb.canonicalAt = bc.chainDb.canonicalAt := by
      funext n
      rw [ChainDb.canonicalAt, ChainDb.canonicalAt, hcanonical]
    refine (canonicalIndex_iff hsound).2 ?_
    rw [hcurrent, htable]
    exact ⟨hindexes, habove⟩

theorem CanonicalIndex.cache (h : bc.CanonicalIndex) (hstep : CacheStep bc bc') :
    bc'.CanonicalIndex := by
  obtain ⟨hdb, hcurrent⟩ := hstep.same
  refine ⟨?_, ?_, ?_⟩
  · rw [hdb, hcurrent]
    exact h.isSome_iff
  · rw [hdb, hcurrent]
    exact h.head_eq
  · rw [hdb]
    exact h.linked

end BlockChain

/-! ### Runs -/

namespace BlockPool

open BlockChain

variable {pool : BlockPool} {bc : BlockChain}

/-- Runs from the genesis block in which a block becomes the head only if it is not lower than the
head before. -/
inductive RisingRun (pool : BlockPool) : BlockChain → Prop
  | start : RisingRun pool pool.start
  | write {bc bc' : BlockChain} {coin : Bool} {block : Block} {status : WriteStatus} :
      RisingRun pool bc → block ∈ pool.blocks → bc.Knows block →
      writeBlockAndState coin block bc = .ok status bc' →
      (status = .canonStatTy →
        block.number < 2 ^ 64 ∧ bc.currentBlock.number ≤ block.number) →
      RisingRun pool bc'
  | cache {bc bc' : BlockChain} : RisingRun pool bc → CacheStep bc bc' → RisingRun pool bc'

theorem canonicalIndex_start (pool : BlockPool) : pool.start.CanonicalIndex := by
  have hkey : pool.genesis.header.number64 = .ofNat 0 := by
    exact congrArg UInt64.ofNat pool.genesis_number
  have htable : pool.start.chainDb.canonicalAt =
      Function.update (numberTable ∅) 0 (some pool.genesis.hash) := by
    rw [← numberTable_insert ∅ (by norm_num), ← hkey]
    rfl
  refine (canonicalIndex_iff (sound_start pool)).2 ⟨?_, ?_⟩
  · intro bs a hseg
    cases hseg with
    | nil =>
      change pool.start.chainDb.canonicalAt pool.genesis.number = some pool.genesis.hash
      rw [htable, pool.genesis_number, Function.update_self]
    | cons hup _ => exact absurd hup.2.1 (pool.genesis_orphan _ hup.1)
  · intro n hn
    change pool.genesis.number < n at hn
    rw [htable, Function.update_of_ne (by omega), numberTable]
    simp

/-- **Rising runs keep the property.** -/
theorem RisingRun.sound (h : pool.RisingRun bc) : Sound pool bc ∧ bc.CanonicalIndex := by
  induction h with
  | start => exact ⟨sound_start pool, canonicalIndex_start pool⟩
  | write _ hblock hknown hrun hcond ih =>
    exact ⟨(ih.1.write hblock hknown hrun).1,
      (canonicalIndex_write ih.1 ih.2 hblock hknown hrun).2 hcond⟩
  | cache _ hstep ih => exact ⟨hstep.sound ih.1, ih.2.cache hstep⟩

end BlockPool

open BlockChain

end Index

/-! ### A lower head -/

namespace Forks

/-- Three light blocks, and then two heavy ones on another branch. -/
def heavierLater : List (Bool × Block) :=
  [(false, block first), (false, block second), (false, block third), (false, block heavyFirst),
    (false, block heavySecond)]

theorem heavierLater_run : (BlockChain.importBlock pool.start (false, block first)).isSome ∧
      (BlockChain.importAll heavierLater pool.start).map (fun bc =>
        (bc.currentBlock.number, (bc.chainDb.canonicalAt 3).isSome)) = some (2, true) := by
  decide +kernel

end Forks
