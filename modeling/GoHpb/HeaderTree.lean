/-
**The tree of headers, and the two loops that move the canonical numbering.**

The headers that a chain may ever see form a tree, in which no two headers have the same hash.  A
header chain holds some of them.  Unlike blocks, headers are deleted again when the head is set
back, along the branch of the head only, so that a header on another branch may outlive its
ancestors: the invariant `HeaderChain.Sound` says only that a stored header had a parent in the
tree, while `HeaderChain.Indexed` says that the branch of the head is stored and is what the
canonical table has.

`WriteHeader` moves the numbering with two loops.  The first deletes entries up to the first gap,
the second rewrites entries until one agrees.  The second one succeeds exactly if the header is
*attached*: going up through stored parents leads to a canonical header.

Main results:

* `HeaderChain.overwrite_segment` — **the second loop reaches the fork of an attached header**.
-/

import GoHpb.BlockTree
import GoHpb.HeaderChain

open FailState BlockTree Function FixedBytes

/-! ### The tree of headers -/

/-- The headers that may be seen, with no two of the same hash and none with the zero hash, and with
numbers that leave room for one more. -/
structure HeaderTree [Crypto] where
  genesis : Header
  headers : Set Header
  genesis_mem : genesis ∈ headers
  genesis_number : genesis.number = 0
  hash_injOn : Set.InjOn Header.hash headers
  hash_ne_zero : ∀ header ∈ headers, header.hash ≠ zero 32
  number_lt : ∀ header ∈ headers, header.number + 1 < 2 ^ 64

variable [Crypto]

namespace HeaderTree

variable {tree : HeaderTree} {b p q : Header}

/-- The header `p` is the parent of `b`. -/
def Up (tree : HeaderTree) (b p : Header) : Prop :=
  p ∈ tree.headers ∧ p.hash = b.parentHash ∧ b.number = p.number + 1

theorem up_number (b p : Header) (h : tree.Up b p) : b.number = p.number + 1 := h.2.2

theorem up_unique (b p q : Header) (hp : tree.Up b p) (hq : tree.Up b q) : p = q :=
  tree.hash_injOn hp.1 hq.1 (hp.2.1.trans hq.2.1.symm)

omit [Crypto] in
theorem number64_of_succ (h : b.number = p.number + 1) : b.number64 - 1 = p.number64 := by
  have hnumber : b.number64 = p.number64 + 1 := by
    rw [Header.number64, Header.number64, h, UInt64.ofNat_add]
    rfl
  rw [hnumber, add_sub_cancel_right]

theorem genesis_number_le (tree : HeaderTree) (n : ℕ) : tree.genesis.number ≤ n := by
  rw [tree.genesis_number]
  exact Nat.zero_le n

theorem toNat_number64 (hb : b ∈ tree.headers) : b.number64.toNat = b.number :=
  UInt64.toNat_ofNat_of_lt' ((Nat.lt_succ_self _).trans (tree.number_lt b hb))

theorem Up.eq_of_hash (h : tree.Up b p) (hq : q ∈ tree.headers) (hhash : q.hash = b.parentHash) :
    q = p :=
  tree.hash_injOn hq h.1 (hhash.trans h.2.1.symm)

end HeaderTree

/-! ### What a header chain holds -/

/-- The database has the header under its hash and number. -/
def ChainDb.HasHeader (db : ChainDb) (h : Header) : Prop :=
  db.headers.lookup (h.hash, h.number64) = some h

/-- The database has `p` where `b` names its parent, one number below. -/
def ChainDb.StoredUp (db : ChainDb) (b p : Header) : Prop :=
  db.headers.lookup (b.parentHash, b.number64 - 1) = some p ∧ b.number = p.number + 1

/-- Going up through stored parents leads from the header to a canonical one. -/
def ChainDb.Attached (db : ChainDb) (b : Header) : Prop :=
  ∃ p bs a, db.StoredUp b p ∧ Segment db.StoredUp p bs a ∧ db.canonicalAt a.number = some a.hash

namespace HeaderChain

variable {tree : HeaderTree} {hc hc' hc'' : HeaderChain} {b p a h : Header}
  {hash : Hash} {number : UInt64}

/-- The headers and total difficulties in the database and in the caches. -/
structure Sound (tree : HeaderTree) (hc : HeaderChain) : Prop where
  lookup_eq : ∀ hash number h, hc.chainDb.headers.lookup (hash, number) = some h →
    h ∈ tree.headers ∧ h.hash = hash ∧ h.number64 = number
  td_iff : ∀ key, (hc.chainDb.tds.lookup key).isSome ↔ (hc.chainDb.headers.lookup key).isSome
  parent_up : ∀ h, hc.chainDb.HasHeader h → h = tree.genesis ∨ ∃ p, tree.Up h p
  headerCache_eq : ∀ hash h, hc.headerCache.lookup hash = some h →
    hc.chainDb.HasHeader h ∧ h.hash = hash
  tdCache_eq : ∀ hash td, hc.tdCache.lookup hash = some td →
    ∃ h, hc.chainDb.HasHeader h ∧ h.hash = hash ∧
      hc.chainDb.tds.lookup (h.hash, h.number64) = some td

/-- The branch of the current header leads to the genesis header and is stored, and the canonical
table has this branch and nothing above it. -/
structure Indexed (tree : HeaderTree) (hc : HeaderChain) : Prop where
  hash_eq : hc.currentHeaderHash = hc.currentHeader.hash
  root : ∃ bs, Segment tree.Up hc.currentHeader bs tree.genesis
  stored : ∀ bs a, Segment tree.Up hc.currentHeader bs a → hc.chainDb.HasHeader a
  indexes : Indexes Header.hash Header.number tree.Up hc.chainDb.canonicalAt hc.currentHeader
  above : ∀ n, hc.currentHeader.number < n → hc.chainDb.canonicalAt n = none

theorem Sound.mem (hs : Sound tree hc) (hh : hc.chainDb.HasHeader h) : h ∈ tree.headers :=
  (hs.lookup_eq _ _ _ hh).1

theorem Sound.hasHeader (hs : Sound tree hc)
    (hh : hc.chainDb.headers.lookup (hash, number) = some h) : hc.chainDb.HasHeader h := by
  obtain ⟨-, hhash, hnumber⟩ := hs.lookup_eq _ _ _ hh
  rw [ChainDb.HasHeader, hhash, hnumber]
  exact hh

theorem Indexed.current_stored (hi : Indexed tree hc) : hc.chainDb.HasHeader hc.currentHeader :=
  hi.stored [] _ (.nil _)

theorem Indexed.exists_number (hi : Indexed tree hc) {n : ℕ} (hn : n ≤ hc.currentHeader.number) :
    ∃ cs c, Segment tree.Up hc.currentHeader cs c ∧ c.number = n := by
  obtain ⟨bs, hroot⟩ := hi.root
  obtain ⟨c, cs, hcs, hnumber⟩ :=
    hroot.exists_height HeaderTree.up_number (tree.genesis_number_le n) hn
  exact ⟨cs, c, hcs, hnumber⟩

theorem Indexed.segment_of_canonical (hi : Indexed tree hc) {n : ℕ}
    (hn : hc.chainDb.canonicalAt n = some hash) :
    ∃ cs c, Segment tree.Up hc.currentHeader cs c ∧ c.number = n ∧ c.hash = hash := by
  have hle : n ≤ hc.currentHeader.number := by
    by_contra hgt
    rw [hi.above n (not_le.1 hgt)] at hn
    cases hn
  obtain ⟨cs, c, hcs, rfl⟩ := hi.exists_number hle
  rw [hi.indexes cs c hcs] at hn
  exact ⟨cs, c, hcs, rfl, Option.some.inj hn⟩

omit [Crypto] in
theorem getCanonicalHash_ofNat (db : ChainDb) {i : ℕ} (hi : i < 2 ^ 64) :
    db.getCanonicalHash (.ofNat i) = (db.canonicalAt i).getD (zero 32) := by
  rw [ChainDb.getCanonicalHash, ChainDb.canonicalAt, numberTable, if_pos hi]

theorem getCanonicalHash_eq_iff (db : ChainDb) (hb : b ∈ tree.headers)
    (hne : hash ≠ zero 32) :
    db.getCanonicalHash b.number64 = hash ↔ db.canonicalAt b.number = some hash := by
  have hlt : b.number < 2 ^ 64 := (Nat.lt_succ_self _).trans (tree.number_lt b hb)
  rw [Header.number64, getCanonicalHash_ofNat db hlt]
  cases db.canonicalAt b.number with
  | none =>
    constructor
    · intro hzero
      exact absurd hzero.symm hne
    · intro hnone
      cases hnone
  | some d => simp

theorem canonicalAt_write (db : ChainDb) (hb : b ∈ tree.headers) :
    (db.writeCanonicalHash b.hash b.number64).canonicalAt =
      update db.canonicalAt b.number (some b.hash) :=
  numberTable_insert db.canonical ((Nat.lt_succ_self _).trans (tree.number_lt b hb)) b.hash

/-! ### Reading headers and total difficulties -/

omit [Crypto] in
theorem getHeader_snd (hash : Hash) (number : UInt64) (hc : HeaderChain) :
    ∃ cache, (hc.getHeader hash number).2 = { hc with headerCache := cache } := by
  rw [getHeader]
  cases hc.headerCache.lookup hash with
  | some header => exact ⟨hc.headerCache, rfl⟩
  | none =>
    cases hc.chainDb.headers.lookup (hash, number) with
    | none => exact ⟨hc.headerCache, rfl⟩
    | some header => exact ⟨hc.headerCache.insert hash header, rfl⟩

theorem Sound.getHeader (hs : Sound tree hc) (hash : Hash) (number : UInt64) :
    Sound tree (hc.getHeader hash number).2 := by
  rw [HeaderChain.getHeader]
  cases hcache : hc.headerCache.lookup hash with
  | some header => exact hs
  | none =>
    cases hdb : hc.chainDb.headers.lookup (hash, number) with
    | none => exact hs
    | some header =>
      refine { hs with headerCache_eq := ?_ }
      intro hash' h hlookup
      obtain ⟨rfl, rfl⟩ | ⟨-, hlookup⟩ := FinmapTotal.of_lookup_insert hlookup
      · exact ⟨hs.hasHeader hdb, (hs.lookup_eq _ _ _ hdb).2.1⟩
      · exact hs.headerCache_eq hash' h hlookup

theorem Sound.of_getHeader (hs : Sound tree hc) (hh : (hc.getHeader hash number).1 = some h) :
    hc.chainDb.HasHeader h ∧ h.hash = hash := by
  rw [HeaderChain.getHeader] at hh
  cases hcache : hc.headerCache.lookup hash with
  | some header =>
    simp only [hcache] at hh
    cases hh
    exact hs.headerCache_eq hash h hcache
  | none =>
    simp only [hcache] at hh
    cases hdb : hc.chainDb.headers.lookup (hash, number) with
    | none => simp [hdb] at hh
    | some header =>
      simp only [hdb] at hh
      cases hh
      exact ⟨hs.hasHeader hdb, (hs.lookup_eq _ _ _ hdb).2.1⟩

theorem Sound.getHeader_fst (hs : Sound tree hc) (hh : hc.chainDb.HasHeader h) :
    (hc.getHeader h.hash h.number64).1 = some h := by
  rw [HeaderChain.getHeader]
  cases hcache : hc.headerCache.lookup h.hash with
  | some header =>
    obtain ⟨hstored, hhash⟩ := hs.headerCache_eq _ _ hcache
    rw [tree.hash_injOn (hs.mem hstored) (hs.mem hh) hhash]
  | none => simp only [show hc.chainDb.headers.lookup (h.hash, h.number64) = some h from hh]

omit [Crypto] in
theorem getTd_snd (hash : Hash) (number : UInt64) (hc : HeaderChain) :
    ∃ cache, (hc.getTd hash number).2 = { hc with tdCache := cache } := by
  rw [getTd]
  cases hc.tdCache.lookup hash with
  | some td => exact ⟨hc.tdCache, rfl⟩
  | none =>
    cases hc.chainDb.tds.lookup (hash, number) with
    | none => exact ⟨hc.tdCache, rfl⟩
    | some td => exact ⟨hc.tdCache.insert hash td, rfl⟩

theorem Sound.getTd (hs : Sound tree hc) (hash : Hash) (number : UInt64) :
    Sound tree (hc.getTd hash number).2 := by
  rw [HeaderChain.getTd]
  cases hcache : hc.tdCache.lookup hash with
  | some td => exact hs
  | none =>
    cases hdb : hc.chainDb.tds.lookup (hash, number) with
    | none => exact hs
    | some td =>
      refine { hs with tdCache_eq := ?_ }
      intro hash' td' hlookup
      obtain ⟨rfl, rfl⟩ | ⟨-, hlookup⟩ := FinmapTotal.of_lookup_insert hlookup
      · -- a total difficulty is stored with its header
        have hsome : (hc.chainDb.headers.lookup (hash', number)).isSome :=
          (hs.td_iff _).1 (by rw [hdb]; rfl)
        obtain ⟨h, hh⟩ := Option.isSome_iff_exists.1 hsome
        obtain ⟨-, hhash, hnumber⟩ := hs.lookup_eq _ _ _ hh
        refine ⟨h, hs.hasHeader hh, hhash, ?_⟩
        rw [hhash, hnumber]
        exact hdb
      · exact hs.tdCache_eq hash' td' hlookup

theorem Sound.getTd_fst (hs : Sound tree hc) (hh : hc.chainDb.HasHeader h) :
    (hc.getTd h.hash h.number64).1 = hc.chainDb.tds.lookup (h.hash, h.number64) := by
  rw [HeaderChain.getTd]
  cases hcache : hc.tdCache.lookup h.hash with
  | some td =>
    obtain ⟨h', hstored, hhash, htd⟩ := hs.tdCache_eq _ _ hcache
    rw [tree.hash_injOn (hs.mem hstored) (hs.mem hh) hhash] at htd
    exact htd.symm
  | none => cases hc.chainDb.tds.lookup (h.hash, h.number64) <;> rfl

theorem Sound.exists_td (hs : Sound tree hc) (hh : hc.chainDb.HasHeader h) :
    ∃ td, hc.chainDb.tds.lookup (h.hash, h.number64) = some td := by
  refine Option.isSome_iff_exists.1 ((hs.td_iff _).2 ?_)
  rw [show hc.chainDb.headers.lookup (h.hash, h.number64) = some h from hh]
  rfl

/-! ### Deleting entries -/

omit [Crypto] in
theorem canonicalAt_delete (db : ChainDb) {i : ℕ} (hi : i < 2 ^ 64) :
    (db.deleteCanonicalHash (.ofNat i)).canonicalAt = update db.canonicalAt i none :=
  numberTable_update hi (Finmap.lookup_erase _ _) fun _ => Finmap.lookup_erase_ne

omit [Crypto] in
/-- The loop deletes all entries from `i` on, if there are none from `m` on and there is no gap
before. -/
theorem canonicalAt_deleteFrom {m : ℕ} (hm : m < 2 ^ 64) (rounds : ℕ) (i : ℕ) (db : ChainDb)
    (hnext : ∀ n, i ≤ n → n < m → ∃ hash ≠ zero 32, db.canonicalAt n = some hash)
    (habove : ∀ n, m ≤ n → db.canonicalAt n = none) (hi : i < 2 ^ 64) (hrounds : m - i < rounds) :
    (deleteFrom rounds (.ofNat i) db).canonicalAt = truncate i db.canonicalAt := by
  induction rounds generalizing i db with
  | zero => omega
  | succ rounds ih =>
    rw [deleteFrom, getCanonicalHash_ofNat db hi]
    by_cases him : i < m
    · obtain ⟨hash, hne, hat⟩ := hnext i le_rfl him
      have hdelete := canonicalAt_delete db hi
      have hsucc : UInt64.ofNat i + 1 = UInt64.ofNat (i + 1) := by
        rw [UInt64.ofNat_add]
        rfl
      rw [hat, Option.getD_some, if_neg hne, hsucc, ih (i + 1) _ _ _ (by omega) (by omega)]
      · rw [hdelete, truncate_update]
      · intro n hin hnm
        rw [hdelete, update_of_ne (by omega)]
        exact hnext n (by omega) hnm
      intro n hmn
      rw [hdelete]
      by_cases hn : n = i
      · rw [hn, update_self]
      · rw [update_of_ne hn]
        exact habove n hmn
    · -- the first gap is at the start
      rw [habove i (not_lt.1 him), Option.getD_none, if_pos rfl]
      funext n
      by_cases hin : i ≤ n
      · rw [truncate_of_le hin]
        exact habove n (by omega)
      · rw [truncate_of_lt (by omega)]

omit [Crypto] in
theorem le_card_keys {m : ℕ} (hm : m < 2 ^ 64) (db : ChainDb)
    (h : ∀ n < m, (db.canonicalAt n).isSome) : m ≤ db.canonical.keys.card := by
  have hcard := Finset.card_le_card_of_injOn (s := Finset.range m) (t := db.canonical.keys)
    .ofNat ?_ ?_
  · rwa [Finset.card_range] at hcard
  · intro n hn
    have hn := Finset.mem_range.1 hn
    have hsome := h n hn
    rw [ChainDb.canonicalAt, numberTable, if_pos (hn.trans hm)] at hsome
    exact Finmap.mem_keys.2 (Finmap.lookup_isSome.1 hsome)
  · intro n hn k hk heq
    by_contra hne
    exact ofNat_ne_ofNat ((Finset.mem_range.1 hn).trans hm) ((Finset.mem_range.1 hk).trans hm)
      hne heq

/-- **What the first loop does**: nothing is left from `i` on. -/
theorem canonicalAt_deleteAbove (hs : Sound tree hc) (hi : Indexed tree hc) {i : ℕ}
    (hlt : i < 2 ^ 64) :
    (deleteAbove (.ofNat i) hc.chainDb).canonicalAt = truncate i hc.chainDb.canonicalAt := by
  have hmem := hs.mem hi.current_stored
  have hm : hc.currentHeader.number + 1 < 2 ^ 64 := tree.number_lt _ hmem
  have hentry : ∀ n < hc.currentHeader.number + 1,
      ∃ hash ≠ zero 32, hc.chainDb.canonicalAt n = some hash := by
    intro n hn
    obtain ⟨cs, c, hcs, rfl⟩ := hi.exists_number (Nat.le_of_lt_succ hn)
    exact ⟨c.hash, tree.hash_ne_zero c (hs.mem (hi.stored cs c hcs)), hi.indexes cs c hcs⟩
  refine canonicalAt_deleteFrom hm _ i hc.chainDb (fun n _ hn => hentry n hn) ?_ hlt ?_
  · intro n hn
    exact hi.above n (by omega)
  have hcard := le_card_keys hm hc.chainDb fun n hn => by
    obtain ⟨hash, -, hhash⟩ := hentry n hn
    rw [hhash]
    rfl
  omega

omit [Crypto] in
theorem canonicalAt_deleteDown (head : UInt64) (rounds i : ℕ) (db : ChainDb) (hi : i < 2 ^ 64)
    (hrounds : i ≤ rounds) : (deleteDown head rounds (.ofNat i) db).canonicalAt =
      fun n => if head.toNat < n ∧ n ≤ i then none else db.canonicalAt n := by
  induction rounds generalizing i db with
  | zero =>
    funext n
    rw [deleteDown, if_neg (by omega)]
  | succ rounds ih =>
    rw [deleteDown]
    have htoNat : (UInt64.ofNat i).toNat = i := UInt64.toNat_ofNat_of_lt' hi
    by_cases hlt : head < .ofNat i
    · have hlt' : head.toNat < i := by
        rw [← htoNat]
        exact UInt64.lt_iff_toNat_lt.1 hlt
      have hpred : UInt64.ofNat i - 1 = UInt64.ofNat (i - 1) := by
        obtain ⟨k, rfl⟩ : ∃ k, i = k + 1 := ⟨i - 1, by omega⟩
        rw [UInt64.ofNat_add, Nat.add_sub_cancel]
        exact add_sub_cancel_right _ _
      rw [if_pos hlt, hpred, ih (i - 1) _ (by omega) (by omega)]
      funext n
      rw [canonicalAt_delete db hi]
      by_cases hn : n = i
      · rw [hn, update_self, ite_self, if_pos ⟨hlt', le_rfl⟩]
      rw [update_of_ne hn]
      by_cases hcond : head.toNat < n ∧ n ≤ i
      · rw [if_pos hcond, if_pos ⟨hcond.1, by omega⟩]
      · rw [if_neg hcond, if_neg (by omega)]
    · rw [if_neg hlt]
      have hge : i ≤ head.toNat := by
        rw [← htoNat]
        exact not_lt.1 fun hlt' => hlt (UInt64.lt_iff_toNat_lt.2 hlt')
      funext n
      rw [if_neg (by omega)]

/-! ### The walk -/

omit [Crypto] in
theorem overwrite_of_eq (rounds : ℕ) (current : Option Header)
    (h : hc.chainDb.getCanonicalHash number = hash) :
    overwrite (rounds + 1) hash number current hc = .ok () hc := by
  have hread : (operate fun hc : HeaderChain => (hc.chainDb.getCanonicalHash number, hc) :
      EStateM ChainErr HeaderChain Hash) hc = .ok hash hc := by
    rw [operate, h]
  simp only [overwrite]
  rw [bind_ok hread, if_pos rfl]
  rfl

/-- One round of the walk: the entry of a header is written, and its parent is read. -/
def round (b : Header) (hc : HeaderChain) : Option Header × HeaderChain :=
  getHeader b.parentHash (b.number64 - 1)
    (hc.onDb fun db => db.writeCanonicalHash b.hash b.number64)

theorem overwrite_of_ne (rounds : ℕ) {current : Option Header}
    (hcurrent : ∀ h, current = some h → h.hash = hash ∧ h.number64 = number)
    (h : hc.chainDb.getCanonicalHash number ≠ hash) :
    overwrite (rounds + 1) hash number current hc =
      match current with
      | none => .error .panic (hc.onDb fun db => db.writeCanonicalHash hash number)
      | some header => overwrite rounds header.parentHash (header.number64 - 1)
          (hc.round header).1 (hc.round header).2 := by
  have hread : (operate fun hc : HeaderChain => (hc.chainDb.getCanonicalHash number, hc) :
      EStateM ChainErr HeaderChain Hash) hc = .ok (hc.chainDb.getCanonicalHash number) hc := rfl
  simp only [overwrite]
  rw [bind_ok hread, if_neg h]
  cases current with
  | none => rfl
  | some header =>
    obtain ⟨rfl, rfl⟩ := hcurrent header rfl
    rfl

theorem Sound.up (hs : Sound tree hc) (hup : hc.chainDb.StoredUp b p) :
    tree.Up b p ∧ hc.chainDb.HasHeader p := by
  obtain ⟨hmem, hhash, -⟩ := hs.lookup_eq _ _ _ hup.1
  exact ⟨⟨hmem, hhash, hup.2⟩, hs.hasHeader hup.1⟩

theorem storedUp_of_up (hup : tree.Up b p) (hp : hc.chainDb.HasHeader p) :
    hc.chainDb.StoredUp b p := by
  refine ⟨?_, hup.2.2⟩
  rw [← hup.2.1, HeaderTree.number64_of_succ hup.2.2]
  exact hp

theorem exists_fork (hs : Sound tree hc) {bs : List Header}
    (hseg : Segment hc.chainDb.StoredUp p bs a) (hp : hc.chainDb.HasHeader p)
    (ha : hc.chainDb.canonicalAt a.number = some a.hash) : ∃ ns c, Segment tree.Up p ns c ∧
      (∀ h ∈ ns, hc.chainDb.HasHeader h ∧ hc.chainDb.canonicalAt h.number ≠ some h.hash) ∧
      hc.chainDb.canonicalAt c.number = some c.hash := by
  induction hseg with
  | nil p => exact ⟨[], p, .nil p, fun _ h => absurd h List.not_mem_nil, ha⟩
  | @cons p q a bs hup hrest ih =>
    by_cases hcanon : hc.chainDb.canonicalAt p.number = some p.hash
    · exact ⟨[], p, .nil p, fun _ h => absurd h List.not_mem_nil, hcanon⟩
    obtain ⟨htree, hq⟩ := hs.up hup
    obtain ⟨ns, c, hns, hall, hc'⟩ := ih hq ha
    exact ⟨p :: ns, c, .cons htree hns, List.forall_mem_cons.2 ⟨⟨hp, hcanon⟩, hall⟩, hc'⟩

/-- What the second loop changes: the canonical table and the cache of headers. -/
structure Moved (tree : HeaderTree) (hc hc' : HeaderChain) : Prop where
  eq : ∃ canonical cache, hc' = { hc with
    chainDb := { hc.chainDb with canonical := canonical }, headerCache := cache }
  sound : Sound tree hc'

theorem Moved.trans (h : Moved tree hc hc') (h' : Moved tree hc' hc'') : Moved tree hc hc'' := by
  obtain ⟨canonical, cache, rfl⟩ := h.eq
  obtain ⟨canonical', cache', rfl⟩ := h'.eq
  exact ⟨⟨canonical', cache', rfl⟩, h'.sound⟩

theorem Moved.headers (h : Moved tree hc hc') : hc'.chainDb.headers = hc.chainDb.headers := by
  obtain ⟨canonical, cache, rfl⟩ := h.eq
  rfl

theorem Sound.written (hs : Sound tree hc) (b : Header) :
    Sound tree (hc.onDb fun db => db.writeCanonicalHash b.hash b.number64) :=
  { hs with }

theorem moved_round (hs : Sound tree hc) (hb : b ∈ tree.headers) :
    Moved tree hc (hc.round b).2 ∧ (hc.round b).2.chainDb.canonicalAt =
      update hc.chainDb.canonicalAt b.number (some b.hash) := by
  obtain ⟨cache, hcache⟩ := getHeader_snd b.parentHash (b.number64 - 1)
    (hc.onDb fun db => db.writeCanonicalHash b.hash b.number64)
  refine ⟨⟨⟨_, cache, hcache⟩, (hs.written b).getHeader _ _⟩, ?_⟩
  rw [round, hcache]
  exact canonicalAt_write hc.chainDb hb

/-- **The second loop reaches the fork**: it rewrites the entries of the headers before the first
canonical one. -/
theorem overwrite_segment {ns : List Header} (hseg : Segment tree.Up p ns a) {rounds : ℕ}
    {current : Option Header} (hs : Sound tree hc) (hp : p ∈ tree.headers)
    (hrounds : ns.length < rounds)
    (hns : ∀ h ∈ ns, hc.chainDb.HasHeader h ∧ hc.chainDb.canonicalAt h.number ≠ some h.hash)
    (ha : hc.chainDb.canonicalAt a.number = some a.hash) (hcurrent : ns ≠ [] → current = some p) :
    ∃ hc', overwrite rounds p.hash p.number64 current hc = .ok () hc' ∧
      Moved tree hc hc' ∧ hc'.chainDb.canonicalAt =
        writeAll Header.hash Header.number ns hc.chainDb.canonicalAt := by
  induction hseg generalizing hc rounds current with
  | nil p =>
    obtain ⟨rounds, rfl⟩ : ∃ k, rounds = k + 1 := ⟨rounds - 1, by omega⟩
    have hcanon : hc.chainDb.getCanonicalHash p.number64 = p.hash :=
      (getCanonicalHash_eq_iff _ hp (tree.hash_ne_zero p hp)).2 ha
    exact ⟨hc, overwrite_of_eq rounds current hcanon, ⟨⟨_, _, rfl⟩, hs⟩, rfl⟩
  | @cons p q a ns hup hrest ih =>
    obtain ⟨rounds, rfl⟩ : ∃ k, rounds = k + 1 := ⟨rounds - 1, by omega⟩
    obtain rfl := hcurrent (List.cons_ne_nil p ns)
    rw [List.forall_mem_cons] at hns
    have hcanon : hc.chainDb.getCanonicalHash p.number64 ≠ p.hash := by
      intro heq
      exact hns.1.2 ((getCanonicalHash_eq_iff _ hp (tree.hash_ne_zero p hp)).1 heq)
    obtain ⟨hmoved, htable⟩ := moved_round hs hp
    -- the headers still to come are lower than the entry that was written
    have hlower : ∀ h, h ∈ ns ∨ h = a → h.number ≠ p.number := by
      intro h hh
      have hpq := hup.2.2
      rcases hh with hh | rfl
      · have := (hrest.height_mem HeaderTree.up_number hh).2
        omega
      · have := hrest.height_eq HeaderTree.up_number
        omega
    have hread : ns ≠ [] → (hc.round p).1 = some q := by
      intro hne
      have hq : q ∈ ns := by
        cases hrest with
        | nil => exact absurd rfl hne
        | cons _ _ => exact List.mem_cons_self
      rw [round, ← hup.2.1, HeaderTree.number64_of_succ hup.2.2]
      exact (hs.written p).getHeader_fst (hns.2 q hq).1
    obtain ⟨hc', hrun, hmoved', htable'⟩ := ih hmoved.sound hup.1
      (Nat.lt_of_succ_lt_succ hrounds) (fun h hh => by
        rw [htable, update_of_ne (hlower h (.inl hh)), ChainDb.HasHeader, hmoved.headers]
        exact hns.2 h hh)
      (by rw [htable, update_of_ne (hlower a (.inr rfl))]; exact ha) hread
    refine ⟨hc', ?_, hmoved.trans hmoved', ?_⟩
    · rw [overwrite_of_ne rounds (fun _ h => by cases h; exact ⟨rfl, rfl⟩) hcanon]
      rw [hup.2.1, ← HeaderTree.number64_of_succ hup.2.2] at hrun
      exact hrun
    · rw [htable', htable]
      rfl

theorem segment_of_overwrite {hc₀ : HeaderChain} {rounds : ℕ} {current : Option Header}
    (hs₀ : Sound tree hc₀) (hi₀ : Indexed tree hc₀) (hs : Sound tree hc)
    (hheaders : hc.chainDb.headers = hc₀.chainDb.headers)
    (hbelow : ∀ n < b.number, hc.chainDb.canonicalAt n = hc₀.chainDb.canonicalAt n)
    (hup : tree.Up b p)
    (hcurrent : ∀ h, current = some h → hc.chainDb.HasHeader h ∧ h.hash = b.parentHash)
    (hrun : overwrite rounds b.parentHash (b.number64 - 1) current hc =
      .ok () hc') : hc₀.chainDb.Attached b := by
  induction rounds generalizing b p current hc with
  | zero => cases hrun
  | succ rounds ih =>
    have hpn : p.number < b.number := by
      have := hup.2.2
      omega
    by_cases hcanon : hc.chainDb.getCanonicalHash (b.number64 - 1) = b.parentHash
    · -- the entry agrees, and its header is stored
      rw [← hup.2.1, HeaderTree.number64_of_succ hup.2.2,
        getCanonicalHash_eq_iff _ hup.1 (tree.hash_ne_zero p hup.1), hbelow _ hpn] at hcanon
      obtain ⟨cs, c, hcs, -, hhash⟩ := hi₀.segment_of_canonical hcanon
      have hstored := hi₀.stored cs c hcs
      obtain rfl : c = p := tree.hash_injOn (hs₀.mem hstored) hup.1 hhash
      exact ⟨c, [], c, storedUp_of_up hup hstored, .nil c, hcanon⟩
    have hplace : ∀ h, current = some h →
        h.hash = b.parentHash ∧ h.number64 = b.number64 - 1 := by
      intro h hh
      obtain ⟨hstored, hhash⟩ := hcurrent h hh
      obtain rfl := hup.eq_of_hash (hs.mem hstored) hhash
      exact ⟨hhash, (HeaderTree.number64_of_succ hup.2.2).symm⟩
    rw [overwrite_of_ne rounds hplace hcanon] at hrun
    cases current with
    | none => cases hrun
    | some h =>
      obtain ⟨hstored, hhash⟩ := hcurrent h rfl
      obtain rfl := hup.eq_of_hash (hs.mem hstored) hhash
      have hstored₀ : hc₀.chainDb.HasHeader h := by
        rw [ChainDb.HasHeader, ← hheaders]
        exact hstored
      -- the genesis header is canonical, so that this one has a parent in the tree
      rcases hs₀.parent_up h hstored₀ with rfl | ⟨q, hq⟩
      · exfalso
        apply hcanon
        rw [← hup.2.1, HeaderTree.number64_of_succ hup.2.2,
          getCanonicalHash_eq_iff _ hup.1 (tree.hash_ne_zero _ hup.1), hbelow _ hpn]
        obtain ⟨bs, hroot⟩ := hi₀.root
        exact hi₀.indexes bs _ hroot
      obtain ⟨hmoved, htable⟩ := moved_round hs hup.1
      have hnext : ∀ h', (hc.round h).1 = some h' →
          (hc.round h).2.chainDb.HasHeader h' ∧ h'.hash = h.parentHash := by
        intro h' hh'
        rw [ChainDb.HasHeader, hmoved.headers]
        exact (hs.written h).of_getHeader hh'
      obtain ⟨q', bs, a, hq', hseg, ha⟩ := ih hmoved.sound (hmoved.headers.trans hheaders)
        (fun n hn => by rw [htable, update_of_ne (by omega), hbelow n (hn.trans hpn)])
        hq hnext hrun
      exact ⟨h, h :: bs, a, storedUp_of_up hup hstored₀, .cons hq' hseg, ha⟩

end HeaderChain
