/-
**The trie is a map, and its root hash is the fingerprint of the map.**

A session is a database with an open trie on it.  Its runs consist of the operations of the trie,
of changes of the cache limit, and of opening a trie again, on the empty root or on a root that was
committed before; which nodes are loaded, hashed or unloaded at any time is left to the code.  Next
to a session runs what it should mean: the contents of the open trie, and the contents at each
committed root.

The digest is not assumed to be injective on all byte strings.  A set `P` collects the byte strings
in play: those in the database at the start, and the encodings of the tries that are committed.

Main results:

* `Reach.good` — **the invariant of a run**;
* `trie_refines_map` — **every operation succeeds and every look-up finds the last value written**;
* `root_hash_canonical` — **two tries have the same root hash exactly if they have the same
  contents**.
-/

import GoHpb.TrieRefine
import GoHpb.TrieHash
import GoHpb.CryptoTable
import GoHpb.FinmapTotal

namespace MerkleTrie

open Patricia Trie Crypto FixedBytes

/-! ### Maps and their trees -/

/-- The contents of a trie. -/
abbrev Contents : Type := Bytes → Option Bytes

/-- An empty value removes the key. -/
def Contents.write (m : Contents) (key value : Bytes) : Contents :=
  fun k => if k = key then (if value = [] then none else some value) else m k

theorem Contents.write_write_empty {m : Contents} {key : Bytes} (hkey : m key = none)
    (value : Bytes) : (m.write key value).write key [] = m := by
  funext k
  unfold Contents.write
  by_cases hk : k = key
  · rw [if_pos hk, if_pos rfl, hk, hkey]
  · rw [if_neg hk, if_neg hk]

/-- The tree of a map whose keys have the length `len`. -/
structure Shows (len : ℕ) (t : TrieTree) (m : Contents) : Prop where
  canon : PTree.Canon (2 * len + 1) t
  find : ∀ key : Bytes, key.length = len → t.find (keybytesToHex key) = m key
  keys : ∀ hex, hex.length = 2 * len + 1 → (t.find hex).isSome = true →
    ∃ key : Bytes, key.length = len ∧ hex = keybytesToHex key

section Shows

variable {len : ℕ} {t t' : TrieTree} {m : Contents}

theorem Shows.empty (len : ℕ) : Shows len .nil fun _ => none :=
  ⟨.inl rfl, fun _ _ => rfl, fun hex _ hsome => by cases hsome⟩

/-- **A map has one tree.** -/
theorem Shows.unique (h : Shows len t m) (h' : Shows len t' m) : t = t' := by
  refine h.canon.ext h'.canon fun hex hlen => ?_
  by_cases hsome : (t.find hex).isSome = true
  · obtain ⟨key, hkey, rfl⟩ := h.keys hex hlen hsome
    rw [h.find key hkey, h'.find key hkey]
  by_cases hsome' : (t'.find hex).isSome = true
  · obtain ⟨key, hkey, rfl⟩ := h'.keys hex hlen hsome'
    rw [h.find key hkey, h'.find key hkey]
  · rw [Bool.not_eq_true, Option.isSome_eq_false_iff, Option.isNone_iff_eq_none] at hsome hsome'
    rw [hsome, hsome']

theorem Shows.congr {m' : Contents} (h : Shows len t m)
    (heq : ∀ key : Bytes, key.length = len → m key = m' key) : Shows len t m' :=
  ⟨h.canon, fun key hkey => (h.find key hkey).trans (heq key hkey), h.keys⟩

theorem Shows.insert (h : Shows len t m) {key value : Bytes} (hkey : key.length = len)
    (hvalue : value ≠ []) :
    Shows len (PTree.insert (.value value) t (keybytesToHex key)) (m.write key value) := by
  have hlen : (keybytesToHex key).length = 2 * len + 1 := by rw [length_keybytesToHex, hkey]
  have hfind : ∀ hex : List Nibble, hex.length = 2 * len + 1 →
      (PTree.insert (.value value) t (keybytesToHex key)).find hex =
        if hex = keybytesToHex key then some value else t.find hex := fun hex hhex =>
    PTree.find_insert h.canon value hlen hhex
  refine ⟨.inr (h.canon.insert value hlen), fun k hk => ?_, fun hex hhex hsome => ?_⟩
  · rw [hfind _ (by rw [length_keybytesToHex, hk]), h.find k hk, Contents.write, if_neg hvalue]
    exact if_congr keybytesToHex_injective.eq_iff rfl rfl
  rw [hfind hex hhex] at hsome
  by_cases heq : hex = keybytesToHex key
  · exact ⟨key, hkey, heq⟩
  · rw [if_neg heq] at hsome
    exact h.keys hex hhex hsome

theorem Shows.remove (h : Shows len t m) {key : Bytes} (hkey : key.length = len) :
    Shows len (t.remove (keybytesToHex key)) (m.write key []) := by
  have hlen : (keybytesToHex key).length = 2 * len + 1 := by rw [length_keybytesToHex, hkey]
  have hfind : ∀ hex : List Nibble, hex.length = 2 * len + 1 →
      (t.remove (keybytesToHex key)).find hex =
        if hex = keybytesToHex key then none else t.find hex := by
    intro hex hhex
    rcases h.canon with rfl | hwf
    · exact (ite_self none).symm
    · exact PTree.find_remove hwf hlen hhex
  refine ⟨h.canon.remove hlen, fun k hk => ?_, fun hex hhex hsome => ?_⟩
  · rw [hfind _ (by rw [length_keybytesToHex, hk]), h.find k hk, Contents.write, if_pos rfl]
    exact if_congr keybytesToHex_injective.eq_iff rfl rfl
  rw [hfind hex hhex] at hsome
  by_cases heq : hex = keybytesToHex key
  · rw [if_pos heq] at hsome
    cases hsome
  · rw [if_neg heq] at hsome
    exact h.keys hex hhex hsome

theorem Shows.hexOk (h : Shows len t m) : HexOk t := by
  rcases h.canon with rfl | hwf
  · trivial
  refine hexOk_of_find hwf fun hex hhex hsome => ?_
  obtain ⟨key, -, rfl⟩ := h.keys hex hhex hsome
  exact .inr (hexKey_keybytesToHex key)

theorem Shows.nil_or_isNode (h : Shows len t m) : t = .nil ∨ isNode t = true := by
  rcases h.canon with rfl | hwf
  · exact .inl rfl
  right
  generalize hN : 2 * len + 1 = N at hwf
  cases hwf with
  | value v => cases hN
  | short | full => rfl

end Shows

/-! ### Runs -/

/-- A database, and a trie that is open on it. -/
structure Session where
  db : NodeDb
  trie : Trie

/-- What a session means: the contents of the open trie, and those at each committed root. -/
structure Meaning where
  contents : Contents
  saved : List (Hash × Contents)

section Runs

variable [Crypto]

/-- The byte strings in play: their digests are different, none of them is the zero hash, which
`New` takes for no root at all, and the hash of the empty node belongs to that node. -/
structure RootDigests (P : Set Bytes) : Prop extends Digests P where
  notZero : ∀ e ∈ P, keccak256 e ≠ zero 32
  notEmpty : ∀ e ∈ P, keccak256 e = emptyRootHash → e = [0x80]

theorem RootDigests.of_forall {pool : List Bytes} (h : ∀ e ∈ pool, e.length < 2 ^ 64 ∧
    (keccak256 e ≠ zero 32 ∧ (keccak256 e = emptyRootHash → e = [0x80])) ∧
    ∀ b ∈ pool, keccak256 e = keccak256 b → e = b) : RootDigests {e | e ∈ pool} :=
  ⟨⟨fun a ha => (h a ha).2.2, fun a ha => (h a ha).1⟩, fun a ha => (h a ha).2.1.1,
    fun a ha => (h a ha).2.1.2⟩

variable {t : TrieTree} {db : NodeDb} {c : Contents} {trie : Trie} {key : Bytes} {root : Hash}

theorem RootDigests.ne_emptyRootHash {P : Set Bytes} (hP : RootDigests P)
    (hnode : isNode t = true) (hmem : enc t ∈ P) : keccak256 (enc t) ≠ emptyRootHash := by
  intro heq
  obtain ⟨l, hl⟩ := exists_treeItem_eq hnode
  have henc : Rlp.encode (.list l) = Rlp.encode (.str []) := by
    rw [← hl]
    exact hP.notEmpty _ hmem heq
  have hsize : (Rlp.encode (.list l)).length < 2 ^ 64 := by
    rw [henc]
    decide
  cases Rlp.encode_inj hsize (henc ▸ hsize) henc

/-- The encodings of the tree of a map are in play. -/
def Pooled (P : Set Bytes) (len : ℕ) (m : Contents) : Prop :=
  ∀ t, Shows len t m → ∀ e ∈ encodings t, e ∈ P

/-- A content-addressed database. -/
def DbOk (P : Set Bytes) (db : NodeDb) : Prop :=
  ∀ h e, db.lookup h = some e → h = keccak256 e ∧ e ∈ P

/-- **The runs of sessions**, with keys of the length `len`. -/
inductive Reach (P : Set Bytes) (len : ℕ) : Session → Meaning → Prop where
  | start {db : NodeDb} (hdb : DbOk P db) :
      Reach P len ⟨db, ⟨.nil, zero 32, 0, 0⟩⟩ ⟨fun _ => none, []⟩
  | update {s : Session} {m : Meaning} {key value : Bytes} {t : Trie} (h : Reach P len s m)
      (hkey : key.length = len) (hop : s.trie.tryUpdate s.db key value = .ok t) :
      Reach P len ⟨s.db, t⟩ ⟨m.contents.write key value, m.saved⟩
  | delete {s : Session} {m : Meaning} {key : Bytes} {t : Trie} (h : Reach P len s m)
      (hkey : key.length = len) (hop : s.trie.tryDelete s.db key = .ok t) :
      Reach P len ⟨s.db, t⟩ ⟨m.contents.write key [], m.saved⟩
  | get {s : Session} {m : Meaning} {key : Bytes} {v : Option Bytes} {t : Trie}
      (h : Reach P len s m) (hkey : key.length = len)
      (hop : s.trie.tryGet s.db key = .ok (v, t)) : Reach P len ⟨s.db, t⟩ m
  | hash {s : Session} {m : Meaning} {root : Hash} {t : Trie} (h : Reach P len s m)
      (hop : s.trie.hash = .ok (root, t)) : Reach P len ⟨s.db, t⟩ m
  | commit {s : Session} {m : Meaning} {root : Hash} {t : Trie} {db : NodeDb}
      (h : Reach P len s m) (hpool : Pooled P len m.contents)
      (hop : s.trie.commitTo s.db = .ok (root, t, db)) :
      Reach P len ⟨db, t⟩ ⟨m.contents, (root, m.contents) :: m.saved⟩
  | setCacheLimit {s : Session} {m : Meaning} (h : Reach P len s m) (limit : UInt16) :
      Reach P len ⟨s.db, s.trie.setCacheLimit limit⟩ m
  | reopen {s : Session} {m : Meaning} {root : Hash} {c : Contents} {t : Trie}
      (h : Reach P len s m) (hroot : (root, c) ∈ m.saved)
      (hop : Trie.new root s.db = .ok t) : Reach P len ⟨s.db, t⟩ ⟨c, m.saved⟩
  | reopenEmpty {s : Session} {m : Meaning} {root : Hash} {t : Trie} (h : Reach P len s m)
      (hroot : root = zero 32 ∨ root = emptyRootHash)
      (hop : Trie.new root s.db = .ok t) : Reach P len ⟨s.db, t⟩ ⟨fun _ => none, m.saved⟩

/-- A root under which a tree is in the database. -/
def RootOf (db : NodeDb) (root : Hash) (t : TrieTree) : Prop :=
  (t = .nil ∧ root = emptyRootHash) ∨
    (isNode t = true ∧ root = keccak256 (enc t) ∧ Saved db t ∧ Held db t)

theorem RootOf.mono {db db' : NodeDb} (hext : Extends db db')
    (h : RootOf db root t) : RootOf db' root t :=
  h.imp_right fun ⟨hnode, hroot, hsaved, hheld⟩ =>
    ⟨hnode, hroot, hsaved.mono hext, hheld.mono hext⟩

/-- What holds along a run: the database is content-addressed, the trie stands for the tree of its
contents, and the committed trees are in the database. -/
structure Good (P : Set Bytes) (len : ℕ) (s : Session) (m : Meaning) : Prop where
  db : DbOk P s.db
  trie : ∃ t, Shows len t m.contents ∧ Rep s.db true s.trie.root t
  saved : ∀ root c, (root, c) ∈ m.saved → ∃ t, Shows len t c ∧ RootOf s.db root t

variable {P : Set Bytes} {len : ℕ} {s : Session} {m : Meaning}

theorem DbOk.sizes (hP : Digests P) (h : DbOk P db) : SizesOk db :=
  fun k e hk => hP.size e (h k e hk).2

/-! ### Single operations -/

omit [Crypto] in
theorem callsFrom_root (n : Node) (hkey : key.length = len) :
    (keybytesToHex key).length = 2 * len + 1 ∧
      callsFrom n (2 * len + 1) ≤ rounds (keybytesToHex key) := by
  have hlen : (keybytesToHex key).length = 2 * len + 1 := by rw [length_keybytesToHex, hkey]
  rw [rounds, hlen]
  exact ⟨rfl, callsFrom_le _ _⟩

variable (hsize : SizesOk db) (hshows : Shows len t c) (hrep : Rep db true trie.root t)
include hsize hshows hrep

theorem tryGet_rep (hkey : key.length = len) :
    ∃ trie', trie.tryGet db key = .ok (c key, trie') ∧ Rep db true trie'.root t := by
  obtain ⟨hlen, hcalls⟩ := callsFrom_root trie.root hkey
  have hdrop : ((keybytesToHex key).drop 0).length = 2 * len + 1 := hlen
  obtain ⟨n', d, hget, hrep'⟩ :=
    getFrom_rep trie.cachegen hsize hrep hshows.canon hshows.hexOk hdrop hcalls
  rw [List.drop_zero, hshows.find key hkey] at hget
  unfold tryGet
  dsimp only
  rw [hget]
  cases d with
  | true => exact ⟨{ trie with root := n' }, rfl, hrep'⟩
  | false => exact ⟨trie, rfl, hrep⟩

theorem tryDelete_rep (hkey : key.length = len) :
    ∃ trie' t', trie.tryDelete db key = .ok trie' ∧ Shows len t' (c.write key []) ∧
      Rep db true trie'.root t' := by
  obtain ⟨hlen, hcalls⟩ := callsFrom_root trie.root hkey
  obtain ⟨d, n', hdel, hrep', -⟩ := deleteAt_rep trie.cachegen hsize hrep hshows.canon
    hshows.hexOk [] hlen hcalls
  unfold tryDelete
  dsimp only
  rw [hdel]
  exact ⟨{ trie with root := n' }, _, rfl, hshows.remove hkey, hrep'⟩

theorem tryUpdate_rep (hkey : key.length = len) (value : Bytes) :
    ∃ trie' t', trie.tryUpdate db key value = .ok trie' ∧ Shows len t' (c.write key value) ∧
      Rep db true trie'.root t' := by
  unfold tryUpdate
  dsimp only
  by_cases hvalue : value = []
  · subst hvalue
    exact tryDelete_rep hsize hshows hrep hkey
  obtain ⟨hlen, hcalls⟩ := callsFrom_root trie.root hkey
  obtain ⟨d, n', hins, hrep', -⟩ := insertAt_rep trie.cachegen hsize hrep
    hshows.canon hshows.hexOk [] hlen value hcalls
  rw [if_pos (by simpa using hvalue), hins]
  exact ⟨{ trie with root := n' }, _, rfl, hshows.insert hkey hvalue, hrep'⟩

omit hsize hshows hrep

/-- The root hash of a tree. -/
def rootHash (t : TrieTree) : Hash :=
  if t.isNil then emptyRootHash else keccak256 (enc t)

theorem rootHash_of_isNode (hnode : isNode t = true) : rootHash t = keccak256 (enc t) := by
  cases t with
  | nil | value v => cases hnode
  | short k c | full cs => rfl

theorem hashRoot_rep (hshows : Shows len t c) (hrep : Rep db true trie.root t) (commit : Bool) :
    (trie.hashRoot commit).hashed = .hash (rootHash t) ∧
      (∀ p ∈ (trie.hashRoot commit).puts, p.1 = keccak256 p.2 ∧ p.2 ∈ encodings t) ∧
      (∀ db', Writes db (trie.hashRoot commit).puts db' →
        Rep db' true (trie.hashRoot commit).cached t) ∧
      (commit = true → ∀ db', Writes db (trie.hashRoot commit).puts db' →
        RootOf db' (rootHash t) t) := by
  rcases hshows.nil_or_isNode with rfl | hnode
  · have hroot : trie.root = .nil := by
      have hnil := hrep.isNil_eq
      cases hr : trie.root with
      | nil => rfl
      | _ => rw [hr] at hnil; cases hnil
    unfold hashRoot
    rw [hroot]
    exact ⟨rfl, nofun, fun db' _ => .nil true, fun _ db' _ => .inl ⟨rfl, rfl⟩⟩
  have hnotnil : t.isNil = false := by cases t <;> first | rfl | cases hnode
  have hhash : trie.hashRoot commit =
      Hasher.hash ⟨trie.cachegen, trie.cachelimit, commit⟩ trie.root true := by
    have hnil := hrep.isNil_eq
    rw [hnotnil] at hnil
    unfold hashRoot
    cases hr : trie.root with
    | nil => rw [hr] at hnil; cases hnil
    | _ => rfl
  have hspec := nodeHash_hash ⟨trie.cachegen, trie.cachelimit, commit⟩ hrep hnode hshows.hexOk
  have htop : ¬ ((enc t).length < 32 ∧ true = false) := fun hc => by cases hc.2
  rw [hhash, rootHash_of_isNode hnode]
  refine ⟨?_, hspec.puts, hspec.cached, fun hcommit db' hw => ?_⟩
  · rw [hspec.hashed, if_neg htop]
  · obtain ⟨hsaved, hheld⟩ := hspec.saved hcommit db' hw
    exact .inr ⟨hnode, rfl, hsaved htop, hheld⟩

theorem hash_rep (hshows : Shows len t c) (hrep : Rep db true trie.root t) :
    ∃ trie', trie.hash = .ok (rootHash t, trie') ∧ Rep db true trie'.root t := by
  obtain ⟨hhashed, -, hcached, -⟩ := hashRoot_rep hshows hrep false
  have hputs : (trie.hashRoot false).puts = [] := by
    unfold hashRoot
    split
    · rfl
    · exact puts_hash_of_not_commit rfl _ _
  refine ⟨{ trie with root := (trie.hashRoot false).cached }, ?_, ?_⟩
  · unfold Trie.hash
    dsimp only
    rw [hhashed]
  · refine hcached db ⟨Extends.refl db, ?_⟩
    rw [hputs]
    exact nofun

theorem DbOk.write (hP : Digests P) (hdb : DbOk P db) {puts : List (Hash × Bytes)}
    (hputs : ∀ p ∈ puts, p.1 = keccak256 p.2 ∧ p.2 ∈ P) :
    DbOk P (db.write puts) ∧ Writes db puts (db.write puts) := by
  induction puts generalizing db with
  | nil => exact ⟨hdb, Extends.refl db, nofun⟩
  | cons p puts ih =>
    obtain ⟨hp, hmem⟩ := hputs p List.mem_cons_self
    have hext : Extends db (db.insert p.1 p.2) := by
      intro k e hk
      by_cases heq : k = p.1
      · obtain ⟨hke, he⟩ := hdb k e hk
        have : e = p.2 := hP.inj he hmem (by rw [← hke, ← hp, heq])
        rw [heq, this, Finmap.lookup_insert]
      · rw [Finmap.lookup_insert_of_ne _ heq, hk]
    have hdb' : DbOk P (db.insert p.1 p.2) := by
      intro k e hk
      obtain ⟨heq, rfl⟩ | ⟨-, hk⟩ := FinmapTotal.of_lookup_insert hk
      · exact ⟨heq.trans hp, hmem⟩
      · exact hdb k e hk
    obtain ⟨hok, hext', hall⟩ := ih hdb' fun q hq => hputs q (List.mem_cons_of_mem p hq)
    refine ⟨hok, hext.trans hext', fun q hq => ?_⟩
    rcases List.mem_cons.1 hq with rfl | hq
    · exact hext' _ _ (Finmap.lookup_insert _)
    · exact hall q hq

theorem commitTo_eq (hshows : Shows len t c) (hrep : Rep db true trie.root t) (db' : NodeDb) :
    trie.commitTo db' = .ok (rootHash t,
      { trie with root := (trie.hashRoot true).cached, cachegen := trie.cachegen + 1 },
      db'.write (trie.hashRoot true).puts) := by
  unfold commitTo
  dsimp only
  rw [(hashRoot_rep hshows hrep true).1]

theorem commitTo_rep (hP : Digests P) (hdb : DbOk P db) (hshows : Shows len t c)
    (hrep : Rep db true trie.root t) (hpool : Pooled P len c) :
    ∃ trie' db', trie.commitTo db = .ok (rootHash t, trie', db') ∧ DbOk P db' ∧
      Extends db db' ∧ Rep db' true trie'.root t ∧ RootOf db' (rootHash t) t := by
  obtain ⟨-, hputs, hcached, hsaved⟩ := hashRoot_rep hshows hrep true
  have hputs' : ∀ p ∈ (trie.hashRoot true).puts, p.1 = keccak256 p.2 ∧ p.2 ∈ P :=
    fun p hp => ⟨(hputs p hp).1, hpool t hshows _ (hputs p hp).2⟩
  obtain ⟨hok, hw⟩ := hdb.write hP hputs'
  exact ⟨_, _, commitTo_eq hshows hrep db, hok, hw.1, hcached _ hw, hsaved rfl _ hw⟩

variable (hP : RootDigests P)
include hP

theorem new_rep (hdb : DbOk P db) (hshows : Shows len t c)
    (hroot : RootOf db root t) : ∃ trie, Trie.new root db = .ok trie ∧ Rep db true trie.root t := by
  unfold new
  rcases hroot with ⟨rfl, rfl⟩ | ⟨hnode, rfl, hsaved, hheld⟩
  · exact ⟨_, if_neg fun hc => hc.2 rfl, .nil true⟩
  obtain ⟨-, hmem⟩ := hdb _ _ hsaved
  have hrep : Rep db true (.hash (keccak256 (enc t))) t :=
    .hash hnode rfl hsaved hheld nofun
  obtain ⟨n, hn, -, hrep'⟩ := resolveHash_rep (hdb.sizes hP.toDigests) hrep hshows.hexOk 0 []
  refine ⟨⟨n, keccak256 (enc t), 0, 0⟩, ?_, hrep'⟩
  rw [if_pos ⟨hP.notZero _ hmem, hP.ne_emptyRootHash hnode hmem⟩, hn]
  rfl

theorem rootHash_inj {t t' : TrieTree} {c c' : Contents}
    (hshows : Shows len t c) (hshows' : Shows len t' c') (hpool : Pooled P len c)
    (hpool' : Pooled P len c') (heq : rootHash t = rootHash t') : t = t' := by
  rcases hshows.nil_or_isNode with rfl | hnode <;> rcases hshows'.nil_or_isNode with rfl | hnode'
  · rfl
  · rw [rootHash_of_isNode hnode'] at heq
    exact absurd heq.symm (hP.ne_emptyRootHash hnode' (hpool' t' hshows' _
      (enc_mem_encodings hnode')))
  · rw [rootHash_of_isNode hnode] at heq
    exact absurd heq (hP.ne_emptyRootHash hnode (hpool t hshows _ (enc_mem_encodings hnode)))
  rw [rootHash_of_isNode hnode, rootHash_of_isNode hnode'] at heq
  have hmem := hpool t hshows
  have hmem' := hpool' t' hshows'
  exact enc_inj hP.toDigests hnode hnode' hshows.hexOk hshows'.hexOk hmem hmem'
    (hP.inj (hmem _ (enc_mem_encodings hnode)) (hmem' _ (enc_mem_encodings hnode')) heq)

/-! ### Whole runs -/

variable (h : Reach P len s m)
include h

/-- **The invariant of a run.** -/
theorem Reach.good : Good P len s m := by
  induction h with
  | start hdb => exact ⟨hdb, ⟨.nil, Shows.empty len, .nil true⟩, nofun⟩
  | update h hkey hop ih =>
    obtain ⟨t, hshows, hrep⟩ := ih.trie
    obtain ⟨trie', t', hok, hshows', hrep'⟩ :=
      tryUpdate_rep (ih.db.sizes hP.toDigests) hshows hrep hkey _
    obtain rfl := Except.ok.inj (hop.symm.trans hok)
    exact ⟨ih.db, ⟨t', hshows', hrep'⟩, ih.saved⟩
  | delete h hkey hop ih =>
    obtain ⟨t, hshows, hrep⟩ := ih.trie
    obtain ⟨trie', t', hok, hshows', hrep'⟩ :=
      tryDelete_rep (ih.db.sizes hP.toDigests) hshows hrep hkey
    obtain rfl := Except.ok.inj (hop.symm.trans hok)
    exact ⟨ih.db, ⟨t', hshows', hrep'⟩, ih.saved⟩
  | get h hkey hop ih =>
    obtain ⟨t, hshows, hrep⟩ := ih.trie
    obtain ⟨trie', hok, hrep'⟩ := tryGet_rep (ih.db.sizes hP.toDigests) hshows hrep hkey
    obtain ⟨-, rfl⟩ := Prod.mk.inj (Except.ok.inj (hop.symm.trans hok))
    exact ⟨ih.db, ⟨t, hshows, hrep'⟩, ih.saved⟩
  | hash h hop ih =>
    obtain ⟨t, hshows, hrep⟩ := ih.trie
    obtain ⟨trie', hok, hrep'⟩ := hash_rep hshows hrep
    obtain ⟨-, rfl⟩ := Prod.mk.inj (Except.ok.inj (hop.symm.trans hok))
    exact ⟨ih.db, ⟨t, hshows, hrep'⟩, ih.saved⟩
  | commit h hpool hop ih =>
    obtain ⟨t, hshows, hrep⟩ := ih.trie
    obtain ⟨trie', db', hok, hdb, hext, hrep', hroot⟩ :=
      commitTo_rep hP.toDigests ih.db hshows hrep hpool
    obtain ⟨rfl, heq⟩ := Prod.mk.inj (Except.ok.inj (hop.symm.trans hok))
    obtain ⟨rfl, rfl⟩ := Prod.mk.inj heq
    refine ⟨hdb, ⟨t, hshows, hrep'⟩, fun root c hc => ?_⟩
    rcases List.mem_cons.1 hc with heq | hc
    · obtain ⟨rfl, rfl⟩ := Prod.mk.inj heq
      exact ⟨t, hshows, hroot⟩
    · obtain ⟨t', hshows', hroot'⟩ := ih.saved root c hc
      exact ⟨t', hshows', hroot'.mono hext⟩
  | setCacheLimit h limit ih => exact { ih with }
  | reopen h hroot hop ih =>
    obtain ⟨t, hshows, hsaved⟩ := ih.saved _ _ hroot
    obtain ⟨trie', hok, hrep'⟩ := new_rep hP ih.db hshows hsaved
    obtain rfl := Except.ok.inj (hop.symm.trans hok)
    exact ⟨ih.db, ⟨t, hshows, hrep'⟩, ih.saved⟩
  | reopenEmpty h hroot hop ih =>
    obtain rfl := Except.ok.inj (hop.symm.trans (if_neg fun hc => hroot.elim hc.1 hc.2))
    exact ⟨ih.db, ⟨.nil, Shows.empty len, .nil true⟩, ih.saved⟩

theorem Reach.exists_update (hkey : key.length = len)
    (value : Bytes) : ∃ t, Reach P len ⟨s.db, t⟩ ⟨m.contents.write key value, m.saved⟩ := by
  obtain ⟨hdb, ⟨t, hshows, hrep⟩, -⟩ := h.good hP
  obtain ⟨t', -, hok, -⟩ := tryUpdate_rep (hdb.sizes hP.toDigests) hshows hrep hkey value
  exact ⟨t', h.update hkey hok⟩

theorem Reach.exists_commit
    (hpool : Pooled P len m.contents) :
    ∃ root s', Reach P len s' ⟨m.contents, (root, m.contents) :: m.saved⟩ := by
  obtain ⟨-, ⟨t, hshows, hrep⟩, -⟩ := h.good hP
  exact ⟨_, _, h.commit hpool (commitTo_eq hshows hrep s.db)⟩

/-- **Every operation succeeds and every look-up finds the last value written, in the open trie
and in a trie that is opened again at a committed root.** -/
theorem trie_refines_map :
    (∀ key : Bytes, key.length = len →
      (∃ t, s.trie.tryGet s.db key = .ok (m.contents key, t)) ∧
      (∀ value, ∃ t, s.trie.tryUpdate s.db key value = .ok t) ∧
      ∃ t, s.trie.tryDelete s.db key = .ok t) ∧
    (∃ root t, s.trie.hash = .ok (root, t)) ∧
    (∃ root t db, s.trie.commitTo s.db = .ok (root, t, db)) ∧
    (∀ root c, (root, c) ∈ m.saved → ∃ t, Trie.new root s.db = .ok t ∧
      ∀ key : Bytes, key.length = len → ∃ t', t.tryGet s.db key = .ok (c key, t')) := by
  obtain ⟨hdb, ⟨t, hshows, hrep⟩, hsaved⟩ := h.good hP
  have hsize := hdb.sizes hP.toDigests
  refine ⟨fun key hkey => ⟨?_, fun value => ?_, ?_⟩, ?_, ?_, fun root c hc => ?_⟩
  · obtain ⟨t', hok, -⟩ := tryGet_rep hsize hshows hrep hkey
    exact ⟨t', hok⟩
  · obtain ⟨t', -, hok, -⟩ := tryUpdate_rep hsize hshows hrep hkey value
    exact ⟨t', hok⟩
  · obtain ⟨t', -, hok, -⟩ := tryDelete_rep hsize hshows hrep hkey
    exact ⟨t', hok⟩
  · obtain ⟨t', hok, -⟩ := hash_rep hshows hrep
    exact ⟨_, t', hok⟩
  · exact ⟨_, _, _, commitTo_eq hshows hrep s.db⟩
  obtain ⟨t', hshows', hroot⟩ := hsaved root c hc
  obtain ⟨trie', hok, hrep'⟩ := new_rep hP hdb hshows' hroot
  refine ⟨trie', hok, fun key hkey => ?_⟩
  obtain ⟨t'', hget, -⟩ := tryGet_rep hsize hshows' hrep' hkey
  exact ⟨t'', hget⟩

omit h

/-- **Two tries have the same root hash exactly if they have the same contents**, however they
came about. -/
theorem root_hash_canonical {s' : Session} {m' : Meaning}
    (h : Reach P len s m) (h' : Reach P len s' m') (hpool : Pooled P len m.contents)
    (hpool' : Pooled P len m'.contents) :
    ∃ root root' t t', s.trie.hash = .ok (root, t) ∧ s'.trie.hash = .ok (root', t') ∧
      (root = root' ↔ ∀ key : Bytes, key.length = len → m.contents key = m'.contents key) := by
  obtain ⟨-, ⟨t, hshows, hrep⟩, -⟩ := h.good hP
  obtain ⟨-, ⟨t', hshows', hrep'⟩, -⟩ := h'.good hP
  obtain ⟨trie, hok, -⟩ := hash_rep hshows hrep
  obtain ⟨trie', hok', -⟩ := hash_rep hshows' hrep'
  refine ⟨_, _, trie, trie', hok, hok', fun heq key hkey => ?_, fun heq => ?_⟩
  · rw [← hshows.find key hkey, ← hshows'.find key hkey,
      rootHash_inj hP hshows hshows' hpool hpool' heq]
  · rw [hshows.unique (hshows'.congr fun key hkey => (heq key hkey).symm)]

omit hP

end Runs

/-! ### A trie with two keys -/

namespace TwoKeys

def valueA : Bytes := List.replicate 33 0x11

def valueB : Bytes := List.replicate 33 0x22

def leafA : Bytes := [0xe3, 0x32, 0xa1] ++ valueA

def leafB : Bytes := [0xe3, 0x34, 0xa1] ++ valueB

def hashA : Hash :=
  Sample.array 32 0x792c42fa51506fcc4123fb6111e72107d2e5f3f5bb4bdabf43ccdc323f9ade85

def hashB : Hash :=
  Sample.array 32 0x47864e1acb943a6b18dbe13adaffa126ebd78403ffdc0afb04e77e6ec2f5bbe1

def branch : Bytes :=
  [0xf8, 0x51, 0x80, 0xa0] ++ hashA.bytes ++ [0x80, 0xa0] ++ hashB.bytes ++ List.replicate 13 0x80

def root : Hash :=
  Sample.array 32 0x82b229fb2ae060c8e5726fb3c0ad1b03f341eaecac709c55120ebb9de021e8d2

/-- The encodings of its nodes. -/
def pool : List Bytes := [leafA, leafB, branch]

/-- Their digests. -/
scoped instance crypto : Crypto := tableCrypto [(leafA, hashA), (leafB, hashB), (branch, root)] []

theorem rootDigests : RootDigests {e | e ∈ pool} := RootDigests.of_forall (by decide)

/-- The contents with the one key, and with both. -/
def first : Contents := Contents.write (fun _ => none) [0x12] valueA

def both : Contents := first.write [0x34] valueB

/-- The tree of the two keys. -/
def tree : TrieTree :=
  PTree.insert (.value valueB)
    (PTree.insert (.value valueA) .nil (keybytesToHex [0x12])) (keybytesToHex [0x34])

theorem shows_tree : Shows 1 tree both :=
  ((Shows.empty 1).insert rfl (by decide)).insert rfl (by decide)

theorem pooled : Pooled {e | e ∈ pool} 1 both := by
  intro t ht
  have henc : ∀ e ∈ encodings tree, e ∈ pool := by decide
  rw [ht.unique shows_tree]
  exact henc

theorem start (len : ℕ) : Reach {e | e ∈ pool} len
    ⟨∅, ⟨.nil, zero 32, 0, 0⟩⟩ ⟨fun _ => none, []⟩ :=
  .start fun h e he => by rw [Finmap.lookup_empty] at he; cases he

theorem exists_reach : ∃ s, Reach {e | e ∈ pool} 1 s ⟨both, []⟩ := by
  have hA : ([0x12] : Bytes).length = 1 := rfl
  have hB : ([0x34] : Bytes).length = 1 := rfl
  obtain ⟨t, h⟩ := (start 1).exists_update rootDigests hA valueA
  obtain ⟨t', h'⟩ := h.exists_update rootDigests hB valueB
  exact ⟨_, h'⟩

end TwoKeys

open TwoKeys in
theorem trie_refines_map_twoKeys : ∃ s root, Reach {e | e ∈ pool} 1 s
      ⟨both, [(root, both)]⟩ ∧
    (∃ t, s.trie.tryGet s.db [0x12] = .ok (some valueA, t)) ∧
    (∃ t, s.trie.tryGet s.db [0x56] = .ok (none, t)) ∧ ∃ t, Trie.new root s.db = .ok t ∧
      ∃ t', t.tryGet s.db [0x34] = .ok (some valueB, t') := by
  obtain ⟨s, h⟩ := exists_reach
  obtain ⟨root, s', h'⟩ := h.exists_commit rootDigests pooled
  obtain ⟨hops, -, -, hsaved⟩ := trie_refines_map rootDigests h'
  obtain ⟨t, hnew, hget⟩ := hsaved root both List.mem_cons_self
  exact ⟨s', root, h', (hops [0x12] rfl).1, (hops [0x56] rfl).1, t, hnew, hget [0x34] rfl⟩

open TwoKeys in
theorem root_hash_canonical_twoKeys : ∃ s s' m' root t t',
    Reach {e | e ∈ pool} 1 s ⟨both, []⟩ ∧ Reach {e | e ∈ pool} 1 s' m' ∧
      m' = ⟨((Contents.write both [0x56] [1]).write [0x56] []), []⟩ ∧
      s.trie.hash = .ok (root, t) ∧ s'.trie.hash = .ok (root, t') := by
  have hC : ([0x56] : Bytes).length = 1 := rfl
  obtain ⟨s, h⟩ := exists_reach
  obtain ⟨t₁, h₁⟩ := h.exists_update rootDigests hC [1]
  obtain ⟨t₂, h₂⟩ := h₁.exists_update rootDigests hC []
  have heq : (Contents.write both [0x56] [1]).write [0x56] [] = both :=
    Contents.write_write_empty rfl [1]
  have hpool : Pooled {e | e ∈ pool} 1
      ((Contents.write both [0x56] [1]).write [0x56] []) := by
    rw [heq]
    exact pooled
  obtain ⟨root, root', t, t', hhash, hhash', hiff⟩ :=
    root_hash_canonical rootDigests h h₂ pooled hpool
  have hroot : root = root' := hiff.2 fun key _ => congrFun heq.symm key
  exact ⟨s, _, _, root, t, t', h, h₂, rfl, hhash, hroot ▸ hhash'⟩

end MerkleTrie
