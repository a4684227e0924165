/-
**A download is complete, and the database is closed at every moment.**

The steps of a download are those of the scheduler, with correct data in any order and in any
batches, and with a writer that may fail.  Along every run the database has with an entry all that
the entry refers to, also in the middle of writing a batch; and when nothing is pending any more, it
has the whole state.

The table of requests does not tell a code from a trie node with the same bytes.  A node that was
requested as code first is stored without its children, and everybody who refers to it takes it for
complete: this is what happens to the state at the end.

Main results:

* `stateSync_complete` — **when nothing is pending the database has the whole state, and it is
  closed at every moment**.
-/

import GoHpb.TrieSyncSteps

namespace MerkleTrie

open FailState FinmapTotal Patricia List TrieSync StateEntry Finmap

section Runs

variable [Crypto] {w : StateTries} {P : Set Bytes} {s : TrieSync}

/-! ### Writing -/

variable {db : NodeDb}

omit [Crypto] in
theorem stored_write (puts : List (Hash × Bytes)) {k : Hash} :
    Stored (db.write puts) k ↔ Stored db k ∨ k ∈ puts.map Prod.fst := by
  induction puts generalizing db with
  | nil => simp [NodeDb.write]
  | cons p puts ih =>
    have hinsert : Stored (db.insert p.1 p.2) k ↔ Stored db k ∨ k = p.1 := by
      unfold Stored
      by_cases hk : k = p.1
      · subst hk
        simp
      · simp [hk]
    have hwrite : db.write (p :: puts) = NodeDb.write (db.insert p.1 p.2) puts := rfl
    rw [hwrite, ih, hinsert, map_cons, mem_cons, or_assoc]

omit [Crypto] in
theorem map_fst_puts (membatch : SyncMemBatch) : membatch.puts.map Prod.fst = membatch.order := by
  unfold SyncMemBatch.puts
  rw [map_map]
  exact map_id _

/-- **The database is closed after every prefix of the writes.** -/
theorem StoreOk.write (hP : Digests P) {membatch : SyncMemBatch}
    (h : StoreOk w P db membatch) (i : ℕ) : StoreOk w P (db.write (membatch.puts.take i)) membatch ∧
      ∀ k, Stored (db.write (membatch.puts.take i)) k ↔
        Stored db k ∨ k ∈ membatch.order.take i := by
  have hstored : ∀ k, Stored (db.write (membatch.puts.take i)) k ↔
      Stored db k ∨ k ∈ membatch.order.take i := by
    intro k
    rw [stored_write, map_take, map_fst_puts]
  have hputs : ∀ p ∈ membatch.puts.take i, p.1 = Crypto.keccak256 p.2 ∧ p.2 ∈ P := by
    intro p hp
    obtain ⟨key, hkey, rfl⟩ := mem_map.1 (mem_of_mem_take hp)
    obtain ⟨e, he⟩ := Option.isSome_iff_exists.1 ((h.mem key).2 hkey)
    rw [he]
    exact h.batch key e he
  refine ⟨⟨(h.addressed.write hP hputs).1, fun j k hj hk => ?_, h.batch, h.mem,
    fun pre j post hsplit k hk => ?_⟩, hstored⟩
  · rw [hstored] at hj ⊢
    rcases hj with hj | hj
    · exact .inl (h.closed j k hj hk)
    obtain ⟨pre, post, hsplit⟩ := append_of_mem hj
    have horder : membatch.order = pre ++ j :: (post ++ membatch.order.drop i) := by
      have := take_append_drop i membatch.order
      rw [hsplit] at this
      simpa using this.symm
    rcases h.order _ _ _ horder k hk with hk | hk
    · rw [hsplit]
      exact .inr (mem_append_left _ hk)
    · exact .inl hk
  · exact (h.order pre j post hsplit k hk).imp_right fun hk => (hstored k).2 (.inl hk)

variable (hP : Digests P) (h : SyncOk w P s [] [] none)
include hP h

theorem SyncOk.writePart (i : ℕ) :
    SyncOk w P (s.writePart i) [] [] none := by
  obtain ⟨hstore, hstored⟩ := h.store.write hP i
  have hpresent : ∀ {k}, Present s k → Present (s.writePart i) k := fun hk =>
    hk.imp_right fun hk => (hstored _).2 (.inl hk)
  exact ⟨h.table, hstore, fun k hne hp j hj => (h.waiting k hne hp j hj).imp_left hpresent,
    h.root.imp_left hpresent⟩

theorem SyncOk.writeAll :
    SyncOk w P s.writeAll [] [] none := by
  obtain ⟨hstore, hstored⟩ := h.store.write hP s.membatch.puts.length
  rw [take_length] at hstore hstored
  have hpresent : ∀ {k}, Present s k → Present s.writeAll k := by
    rintro k (hk | hk)
    · refine .inr ((hstored k).2 (.inr ?_))
      rwa [SyncMemBatch.puts, length_map, take_length]
    · exact .inr ((hstored k).2 (.inl hk))
  refine ⟨h.table, ⟨hstore.addressed, hstore.closed, fun k e he => ?_, fun k => ?_, ?_⟩,
    fun k hne hp j hj => (h.waiting k hne hp j hj).imp_left hpresent,
    h.root.imp_left hpresent⟩
  · cases he
  · rw [TrieSync.writeAll, lookup_empty]
    simp
  · intro pre k post hsplit
    cases pre <;> cases hsplit

theorem SyncOk.flush (fails : Option ℕ) :
    SyncOk w P (s.flush fails) [] [] none := by
  cases fails with
  | none => exact h.writeAll hP
  | some i =>
    unfold TrieSync.flush
    dsimp only
    split_ifs
    · exact h.writePart hP i
    · exact h.writeAll hP

/-! ### Runs -/

omit hP h

/-- **The runs of a download** of a state into a database. -/
inductive SyncRun (w : StateTries) (P : Set Bytes) (db : NodeDb) : TrieSync → Prop where
  | start {s : TrieSync}
      (h : newStateSync (StateEntry.account w.accounts).key db = .ok () s) :
      SyncRun w P db s
  | missing {s : TrieSync} (h : SyncRun w P db s) (max : ℕ) : SyncRun w P db (s.missing max).2
  | process {s : TrieSync} (h : SyncRun w P db s) (items : List SyncResult)
      (hitems : ∀ item ∈ items, item.hash = Crypto.keccak256 item.data ∧ item.data ∈ P) :
      SyncRun w P db (s.process items).2
  | flush {s : TrieSync} (h : SyncRun w P db s) (fails : Option ℕ) :
      SyncRun w P db (s.flush fails)

/-- With an entry of the state, the database has all that it refers to. -/
def StateClosed (w : StateTries) (db : NodeDb) : Prop :=
  ∀ x, w.Reachable x → Stored db x.key → ∀ y ∈ w.refs x, Stored db y.key

theorem syncOk_newStateSync (hP : RootDigests P) (hw : w.Sound P) (hdb : DbOk P db)
    (hclosed : StateClosed w db) : ∃ s,
      newStateSync (StateEntry.account w.accounts).key db = .ok () s ∧
        SyncOk w P s [] [] none := by
  have hlookup : ∀ k q, ¬ (∅ : Requests).lookup k = some q := fun k q hq => by
    rw [lookup_empty] at hq
    cases hq
  have hstore : StoreOk w P db ⟨∅, []⟩ := by
    refine ⟨hdb, ?_, fun k e he => ?_, fun k => ?_, fun pre k post hsplit => ?_⟩
    · rintro _ _ hstored ⟨x, y, hx, hy, rfl, rfl⟩
      exact hclosed x hx hstored y hy
    · cases he
    · simp
    · cases pre <;> cases hsplit
  have htable : TableOk w P ∅ [] :=
    ⟨fun k q hq => absurd hq (hlookup k q), fun k q hq => absurd hq (hlookup k q),
      fun k q hq => absurd hq (hlookup k q), nofun⟩
  have hmem : enc w.accounts ∈ P := hw.pool _ (enc_mem_encodings hw.node)
  by_cases hlocal : isLocal ⟨db, ⟨∅, []⟩, ∅, []⟩ (account w.accounts).key = true
  · -- the state is there already
    refine ⟨⟨db, ⟨∅, []⟩, ∅, []⟩, ?_, htable, hstore, ?_, .inl (.inr ?_)⟩
    · unfold newStateSync addSubTrie
      change (if _ then pure () else _ : TrieSync.SyncM Unit) _ = _
      rw [if_pos (.inr (.inr hlocal))]
      rfl
    · rintro k - ⟨q, hq, -⟩
      exact absurd hq (hlookup k q)
    · unfold isLocal at hlocal
      cases hdb' : db.lookup (account w.accounts).key with
      | none => rw [hdb'] at hlocal; cases hlocal
      | some blob => rw [Stored, hdb']; rfl
  have hq : TodoOk w P ⟨(account w.accounts).key, none, false, [], 0, 0, true⟩ :=
    todoOk_of_reachable .root rfl ⟨rfl, rfl⟩ rfl rfl
  obtain ⟨hg, q', hq', -⟩ := scheduled_spec hq.data ⟨db, ⟨∅, []⟩, ∅, []⟩
  refine ⟨scheduled _ ⟨db, ⟨∅, []⟩, ∅, []⟩, ?_, ?_, ?_, ?_, .inr ⟨q', hq'⟩⟩
  · unfold newStateSync addSubTrie
    change (if _ then pure () else _ : TrieSync.SyncM Unit) _ = _
    rw [if_neg]
    · unfold link
      rw [if_pos rfl]
      rfl
    rintro (hempty | hbatch | hloc)
    · exact hP.ne_emptyRootHash hw.node hmem hempty
    · rw [lookup_empty] at hbatch
      cases hbatch
    · exact hlocal hloc
  · unfold scheduled
    rw [lookup_empty]
    exact (TableOk.schedule htable hq).2 (lookup_empty _)
  · rw [hg.database, hg.membatch]
    exact hstore
  · rintro k - hp
    obtain ⟨q, hq, -⟩ := hg.processed.1 hp
    exact absurd hq (hlookup k q)

theorem SyncRun.syncOk (hP : RootDigests P) (hw : w.Sound P) (hu : w.Unambiguous) (hdb : DbOk P db)
    (hclosed : StateClosed w db) (h : SyncRun w P db s) : SyncOk w P s [] [] none := by
  induction h with
  | start h =>
    obtain ⟨s', hrun, hok⟩ := syncOk_newStateSync hP hw hdb hclosed
    rw [hrun] at h
    cases h
    exact hok
  | missing _ max ih => exact { ih with }
  | process _ items hitems ih => exact (ih.process hP hw hu items hitems 0 false).1
  | flush _ fails ih => exact ih.flush hP.toDigests fails

/-- **When nothing is pending and the memory batch is written, the database has the whole state;
after every prefix of the writes it has with an entry all that the entry refers to; and correct data
is never refused, unless it was not asked for or is there already.** -/
theorem stateSync_complete (hP : RootDigests P) (hw : w.Sound P) (hu : w.Unambiguous)
    {db : NodeDb} (hdb : DbOk P db) (hclosed : StateClosed w db) (h : SyncRun w P db s) :
    (s.pending = 0 → ∀ x, w.Reachable x → Stored (s.flush none).database x.key) ∧
    (∀ i, StateClosed w (s.writePart i).database) ∧ ∀ items : List SyncResult,
      (∀ item ∈ items, item.hash = Crypto.keccak256 item.data ∧ item.data ∈ P) →
      (s.process items).1.2.2 = none ∨ (s.process items).1.2.2 = some SyncErr.notRequested ∨
        (s.process items).1.2.2 = some SyncErr.alreadyProcessed := by
  have hok := h.syncOk hP hw hu hdb hclosed
  refine ⟨fun hpending => ?_, fun i x hx hstored y hy => ?_,
    fun items hitems => (hok.process hP hw hu items hitems 0 false).2⟩
  · have hall := hok.writeAll hP.toDigests
    have hroot : Stored s.writeAll.database (account w.accounts).key := by
      rcases hall.root with (hroot | hroot) | ⟨q, hq⟩
      · cases hroot
      · exact hroot
      have hmem : (account w.accounts).key ∈ s.requests.keys := mem_keys_of_lookup hq
      rw [Finset.card_eq_zero.1 hpending] at hmem
      cases hmem
    intro x hx
    induction hx with
    | root => exact hroot
    | ref hx hy ih => exact hall.store.closed _ _ ih ⟨_, _, hx, hy, rfl, rfl⟩
  · exact (hok.writePart hP.toDigests i).store.closed _ _ hstored ⟨x, y, hx, hy, rfl, rfl⟩

end Runs

/-! ### A code that is a storage node -/

/-- A branch with two leaves. -/
def twoLeaves (a b : Bytes) : TrieTree := .full fun i =>
  if i = 1 then .short [2, 16] (.value a)
  else if i = 3 then .short [4, 16] (.value b)
  else .nil

theorem hexOk_leaf (k : List Nibble) (hk : HexDigits k) (v : Bytes) :
    HexOk (.short (k ++ [16]) (.value v)) := ⟨⟨k, rfl, hk⟩, trivial⟩

theorem hexOk_twoLeaves (a b : Bytes) : HexOk (twoLeaves a b) := by
  refine ⟨rfl, fun i => ?_⟩
  dsimp only
  split_ifs
  · exact ⟨rfl, hexOk_leaf [2] (by decide) a⟩
  · exact ⟨rfl, hexOk_leaf [4] (by decide) b⟩
  · exact ⟨rfl, trivial⟩

/-- Whether a program has returned. -/
def outcomeIsOk {ε σ α : Type} : EStateM.Result ε σ α → Bool
  | .ok _ _ => true
  | .error _ _ => false

/-- The scheduler for a root and an empty database. -/
def startOf [Crypto] (root : Hash) : TrieSync :=
  match newStateSync root ∅ with
  | .ok _ s => s
  | .error _ s => s

theorem newStateSync_startOf [Crypto] {root : Hash}
    (hok : outcomeIsOk (newStateSync root ∅) = true) :
    newStateSync root ∅ = .ok () (startOf root) := by
  rw [startOf]
  cases hnew : newStateSync root ∅ with
  | ok u s => rfl
  | error e s =>
    rw [hnew] at hok
    cases hok

namespace SharedCode

/-- An account whose code is the root of the storage trie of the other one. -/
def codeAccount : Bytes := encodeAccount 0 0 emptyRootHash TwoKeys.root.bytes

def noCode : Hash :=
  Sample.array 32 0xc5d2460186f7233c927e7db2dcc703c0e500b653ca82273b7bfad8045d85a470

def storageAccount : Bytes := encodeAccount 0 0 TwoKeys.root noCode.bytes

def leafOne : Bytes := [0xf8, 0x49, 0x32, 0xb8, 0x46] ++ codeAccount

def leafTwo : Bytes := [0xf8, 0x49, 0x34, 0xb8, 0x46] ++ storageAccount

def hashOne : Hash :=
  Sample.array 32 0x053b2dde47ebdbcc404b83b4cdf1eda3deff7a2f3a1eaee44a332ae959b7831c

def hashTwo : Hash :=
  Sample.array 32 0x096a0efe96385f6909e13981f3366c3c9e81d1798485c21d39256cde41541fa9

def top : Bytes :=
  [0xf8, 0x51, 0x80, 0xa0] ++ hashOne.bytes ++ [0x80, 0xa0] ++ hashTwo.bytes ++
    List.replicate 13 0x80

def hashTop : Hash :=
  Sample.array 32 0x78f912972db00714d208c74e02b387dba8990a10d56b97bc74ad56864d8d4942

def table : List (Bytes × Hash) :=
  [(TwoKeys.leafA, TwoKeys.hashA), (TwoKeys.leafB, TwoKeys.hashB),
    (TwoKeys.branch, TwoKeys.root), (leafOne, hashOne), (leafTwo, hashTwo), (top, hashTop),
    ([], noCode)]

scoped instance crypto : Crypto := tableCrypto table []

/-- The byte strings in play. -/
def pool : List Bytes := table.map Prod.fst

/-- The state. -/
def state : StateTries where
  accounts := twoLeaves codeAccount storageAccount
  storage v := if v = storageAccount then twoLeaves TwoKeys.valueA TwoKeys.valueB else .nil
  code v := if v = codeAccount then TwoKeys.branch else []

theorem rootDigests : RootDigests {e | e ∈ pool} := RootDigests.of_forall (by decide +kernel)

theorem facts : (∀ e ∈ encodings state.accounts, e ∈ pool) ∧ [] ∈ pool ∧
    (∀ v ∈ values state.accounts, v ∈ [codeAccount, storageAccount]) ∧
    ∀ v ∈ [codeAccount, storageAccount], v = encodeAccount 0 0 (rootHash (state.storage v))
        (crypto.keccak256 (state.code v)).bytes ∧
      state.code v ∈ pool ∧ ∀ e ∈ encodings (state.storage v), e ∈ pool := by
  decide +kernel

theorem sound : state.Sound {e | e ∈ pool} where
  node := rfl
  hex := hexOk_twoLeaves _ _
  pool := facts.1
  leaf := by
    obtain ⟨-, -, hvalues, hleaf⟩ := facts
    have hhex : ∀ v, (state.storage v = .nil ∨ isNode (state.storage v) = true) ∧
        HexOk (state.storage v) := by
      intro v
      unfold state
      dsimp only
      split_ifs
      · exact ⟨.inr rfl, hexOk_twoLeaves _ _⟩
      · exact ⟨.inl rfl, trivial⟩
    intro v hv
    obtain ⟨haccount, hcode, hstorage⟩ := hleaf v (hvalues v hv)
    exact ⟨⟨0, 0, haccount⟩, (hhex v).1, (hhex v).2, hstorage, hcode⟩
  empty := facts.2.1

/-- The scheduler at the start. -/
def start : TrieSync := startOf hashTop

/-- The data arrives from the top down, the code before the storage trie is looked at. -/
def items : List SyncResult :=
  [⟨hashTop, top⟩, ⟨hashOne, leafOne⟩, ⟨hashTwo, leafTwo⟩, ⟨TwoKeys.root, TwoKeys.branch⟩]

def done : TrieSync := (start.process items).2

theorem start_facts : ((StateEntry.account state.accounts).key = hashTop ∧
      outcomeIsOk (newStateSync hashTop ∅) = true ∧
      ∀ item ∈ items, item.hash = crypto.keccak256 item.data ∧ item.data ∈ pool) ∧
    ByHash (.short [4, 16] (.value storageAccount)) ∧
      ByHash (.short [2, 16] (.value TwoKeys.valueA)) ∧
      storageAccount ∈ leafValues (.short [4, 16] (.value storageAccount)) := by
  decide +kernel

theorem run : SyncRun state {e | e ∈ pool} ∅ done := by
  obtain ⟨⟨hkey, hok, hitems⟩, -⟩ := start_facts
  exact .process (.start (hkey ▸ newStateSync_startOf hok)) items hitems

theorem reachable : state.Reachable (.storage (.short [2, 16] (.value TwoKeys.valueA))) := by
  obtain ⟨-, hbig, hbig', hvalue⟩ := start_facts
  refine .ref (x := .storage (twoLeaves TwoKeys.valueA TwoKeys.valueB)) ?_ ?_
  · refine .ref (x := .account (.short [4, 16] (.value storageAccount))) ?_ ?_
    · refine StateTries.Reachable.root.ref (mem_append_left _ (mem_map_of_mem ?_))
      exact (mem_links_iff rfl).2 ⟨hbig, .full _ 3⟩
    refine mem_append_right _ (mem_flatMap.2 ⟨storageAccount, hvalue, ?_⟩)
    have hstorage : state.storage storageAccount = twoLeaves TwoKeys.valueA TwoKeys.valueB := by
      unfold state
      dsimp only
      rw [if_pos rfl]
    have hnode : isNode (twoLeaves TwoKeys.valueA TwoKeys.valueB) = true := rfl
    refine mem_append_left _ ?_
    rw [hstorage, if_pos hnode]
    exact mem_singleton_self _
  · exact mem_map_of_mem ((mem_links_iff rfl).2 ⟨hbig', .full _ 1⟩)

end SharedCode

instance (db : NodeDb) (h : Hash) : Decidable (Stored db h) := by
  unfold Stored
  infer_instance

open SharedCode in
/-- Nothing is pending and all is written, but a leaf of the storage trie is missing, and so is
what the stored root of that trie refers to. -/
theorem stateSync_sharedCode : ∃ w P s, RootDigests P ∧ w.Sound P ∧ SyncRun w P ∅ s ∧
    s.pending = 0 ∧ (∃ x, w.Reachable x ∧ ¬ Stored (s.flush none).database x.key) ∧
    ¬ StateClosed w (s.flush none).database := by
  have hdone : done.pending = 0 ∧ ¬ Stored (done.flush none).database (storage
        (.short [2, 16] (.value TwoKeys.valueA))).key ∧
      Stored (done.flush none).database
        (account state.accounts).key := by decide +kernel
  obtain ⟨hpending, hmissing, hroot⟩ := hdone
  refine ⟨state, {e | e ∈ pool}, done, rootDigests,
    sound, run, hpending, ⟨_, reachable, hmissing⟩,
    fun hclosed => hmissing ?_⟩
  have hall : ∀ x, state.Reachable x →
      Stored (done.flush none).database x.key := by
    intro x hx
    induction hx with
    | root => exact hroot
    | ref hx hy ih => exact hclosed _ hx ih _ hy
  exact hall _ reachable

namespace OneAccount

/-- A state with one account, which has a code. -/
def code : Bytes := [0x60, 0x00, 0x60, 0x00]

def codeHash : Hash :=
  Sample.array 32 0x5e3ce470a8506d55e59815db7232a08774174ae0c7fdb2fbc81a49e4e242b0d6

def account : Bytes := encodeAccount 1 5 emptyRootHash codeHash.bytes

def leaf : Bytes := [0xf8, 0x4b, 0x82, 0x20, 0x12, 0xb8, 0x46] ++ account

def root : Hash :=
  Sample.array 32 0x7248502001a89bc1371330dbd93c8b06670b6ebf7cee6de5bbfc07d46ec08058

def table : List (Bytes × Hash) := [(leaf, root), (code, codeHash), ([], SharedCode.noCode)]

scoped instance crypto : Crypto := tableCrypto table []

def pool : List Bytes := table.map Prod.fst

def state : StateTries where
  accounts := .short [1, 2, 16] (.value account)
  storage _ := .nil
  code _ := code

theorem rootDigests : RootDigests {e | e ∈ pool} := RootDigests.of_forall (by decide +kernel)

theorem facts : ((∀ e ∈ encodings state.accounts, e ∈ pool) ∧ [] ∈ pool ∧
      account = encodeAccount 1 5 (rootHash .nil) (crypto.keccak256 code).bytes ∧
      code ∈ pool) ∧ leaf ≠ code ∧ enc state.accounts = leaf ∧
    (StateEntry.account state.accounts).key = root ∧ outcomeIsOk (newStateSync root ∅) = true ∧
      ∀ item ∈ [(⟨root, leaf⟩ : SyncResult), ⟨codeHash, code⟩],
        item.hash = crypto.keccak256 item.data ∧ item.data ∈ pool := by
  decide +kernel

theorem sound : state.Sound {e | e ∈ pool} where
  node := rfl
  hex := hexOk_leaf [1, 2] (by decide) account
  pool := facts.1.1
  leaf := by
    obtain ⟨⟨-, -, haccount, hcode⟩, -⟩ := facts
    intro v hv
    obtain rfl : v = account := mem_singleton.1 hv
    exact ⟨⟨1, 5, haccount⟩, .inl rfl, trivial, nofun, hcode⟩
  empty := facts.1.2.1

theorem reachable_iff {x : StateEntry} : state.Reachable x ↔
    x = .account state.accounts ∨ x = .code code := by
  have hrefs : state.refs (.account state.accounts) = [.code code] := rfl
  constructor
  · intro h
    induction h with
    | root => exact .inl rfl
    | ref _ hy ih =>
      rcases ih with rfl | rfl
      · exact .inr (mem_singleton.1 hy)
      · cases hy
  · rintro (rfl | rfl)
    · exact .root
    · exact StateTries.Reachable.root.ref (by rw [hrefs]; exact mem_singleton_self _)

theorem unambiguous : state.Unambiguous := by
  obtain ⟨-, hne, henc, -⟩ := facts
  intro x y hx hy hdata z hz
  rcases reachable_iff.1 hx with rfl | rfl <;> rcases reachable_iff.1 hy with rfl | rfl
  · exact ⟨z, hz, rfl⟩
  · exact absurd (henc.symm.trans hdata) hne
  · cases hz
  · cases hz

def start : TrieSync := startOf root

def done : TrieSync := (start.process [⟨root, leaf⟩, ⟨codeHash, code⟩]).2

theorem run : SyncRun state {e | e ∈ pool} ∅ done := by
  obtain ⟨-, -, -, hkey, hok, hitems⟩ := facts
  exact .process (.start (hkey ▸ newStateSync_startOf hok)) _ hitems

end OneAccount

open OneAccount in
theorem stateSync_complete_oneAccount : done.pending = 0 ∧
    Stored (done.flush none).database (StateEntry.code code).key ∧
    ∀ i, StateClosed state (done.writePart i).database := by
  have hpending : done.pending = 0 := by decide +kernel
  obtain ⟨hall, hclosed, -⟩ := stateSync_complete rootDigests sound
    unambiguous (fun h e he => by rw [lookup_empty] at he; cases he)
    (fun x hx hstored => by rw [Stored, lookup_empty] at hstored; cases hstored)
    run
  exact ⟨hpending, hall hpending _ (reachable_iff.2 (.inr rfl)), hclosed⟩

end MerkleTrie
