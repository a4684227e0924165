/-
**The canonical numbering of the header chain.**

Every operation of the header chain should leave the canonical table with exactly the branch of the
current header.  Setting the head back always does.  Writing a header does if the header stays on
the side, or if it is attached: it may become the head although some of its ancestors have been
deleted when the head was set back, and then the walk that rewrites the table runs into the missing
header.

Main results:

* `header_index_iff` — **the property holds in every reachable state, and writing a header succeeds
  and keeps it exactly if the header stays on the side or is attached**.
-/

import GoHpb.HeaderTree

open FailState BlockTree HeaderTree FinmapTotal List Prod

section Index

variable [Crypto]

namespace HeaderChain

variable {tree : HeaderTree} {hc hc' : HeaderChain} {b p a h header : Header} {hash : Hash}

/-! ### The property -/

/-- The table has an entry exactly for the numbers up to that of the current header, the entry for
its number is the current header, and the header of each other entry has the entry below as its
parent hash. -/
structure CanonicalIndex (hc : HeaderChain) : Prop where
  hash_eq : hc.currentHeaderHash = hc.currentHeader.hash
  isSome_iff : ∀ n, (hc.chainDb.canonicalAt n).isSome ↔ n ≤ hc.currentHeader.number
  head_eq : hc.chainDb.canonicalAt hc.currentHeader.number = some hc.currentHeader.hash
  linked : ∀ n hash, hc.chainDb.canonicalAt (n + 1) = some hash →
    ∃ h, hc.chainDb.headers.lookup (hash, .ofNat (n + 1)) = some h ∧
      hc.chainDb.canonicalAt n = some h.parentHash

theorem Indexed.segment_root (hi : Indexed tree hc) {cs : List Header}
    (hcs : Segment tree.Up hc.currentHeader cs a) : ∃ ds, Segment tree.Up a ds tree.genesis := by
  obtain ⟨bs, hroot⟩ := hi.root
  rcases hcs.compare up_unique hroot with ⟨ds, hds, -⟩ | ⟨es, hes, -⟩
  · exact ⟨ds, hds⟩
  -- the genesis header has no parent
  cases hes with
  | cons hup _ =>
    have hzero := hup.2.2
    rw [tree.genesis_number] at hzero
    omega

theorem Indexed.canonicalIndex (hi : Indexed tree hc) : hc.CanonicalIndex := by
  refine ⟨hi.hash_eq, ?_, hi.indexes [] _ (.nil _), ?_⟩
  · intro n
    constructor
    · intro hn
      obtain ⟨d, hd⟩ := Option.isSome_iff_exists.1 hn
      obtain ⟨cs, c, hcs, rfl, -⟩ := hi.segment_of_canonical hd
      have hle := hcs.height_eq up_number
      omega
    · intro hn
      obtain ⟨cs, c, hcs, rfl⟩ := hi.exists_number hn
      rw [hi.indexes cs c hcs]
      rfl
  intro n hash hn
  obtain ⟨cs, c, hcs, hnumber, rfl⟩ := hi.segment_of_canonical hn
  refine ⟨c, ?_, ?_⟩
  · rw [← hnumber]
    exact hi.stored cs c hcs
  obtain ⟨ds, hds⟩ := hi.segment_root hcs
  cases hds with
  | nil =>
    rw [tree.genesis_number] at hnumber
    omega
  | @cons _ q _ _ hup _ =>
    have hq := hi.indexes _ q (hcs.trans (Segment.single hup))
    have hqn : q.number = n := by
      have := hup.2.2
      omega
    rw [hqn] at hq
    rw [hq, hup.2.1]

/-! ### Moving the numbering -/

omit [Crypto] in
theorem deleteFrom_eq (rounds : ℕ) (i : UInt64) (db : ChainDb) :
    ∃ canonical, deleteFrom rounds i db = { db with canonical := canonical } := by
  induction rounds generalizing i db with
  | zero => exact ⟨db.canonical, rfl⟩
  | succ rounds ih =>
    rw [deleteFrom]
    split
    · exact ⟨db.canonical, rfl⟩
    · obtain ⟨canonical, hcanonical⟩ := ih (i + 1) (db.deleteCanonicalHash i)
      exact ⟨canonical, hcanonical⟩

omit [Crypto] in
theorem deleteDown_eq (head : UInt64) (rounds : ℕ) (i : UInt64) (db : ChainDb) :
    ∃ canonical, deleteDown head rounds i db = { db with canonical := canonical } := by
  induction rounds generalizing i db with
  | zero => exact ⟨db.canonical, rfl⟩
  | succ rounds ih =>
    rw [deleteDown]
    split
    · obtain ⟨canonical, hcanonical⟩ := ih (i - 1) (db.deleteCanonicalHash i)
      exact ⟨canonical, hcanonical⟩
    · exact ⟨db.canonical, rfl⟩

variable (hs : Sound tree hc)
include hs

theorem Sound.with_canonical (canonical : Finmap fun _ : UInt64 => Hash) :
    Sound tree { hc with chainDb := { hc.chainDb with canonical := canonical } } :=
  { hs with }

variable (hi : Indexed tree hc)
include hi

theorem makeCanonical_eq
    (hheader : header ∈ tree.headers) : ∃ hc₂ current, Moved tree hc hc₂ ∧
      hc₂.chainDb.canonicalAt = truncate (header.number + 1) hc.chainDb.canonicalAt ∧
      (∀ h, current = some h → hc.chainDb.HasHeader h ∧ h.hash = header.parentHash) ∧
      (∀ p, hc.chainDb.StoredUp header p → current = some p) ∧
      makeCanonical header hc = rewriteBelow header current hc₂ := by
  obtain ⟨canonical, hdelete⟩ := deleteFrom_eq (hc.chainDb.canonical.keys.card + 1)
    (header.number64 + 1) hc.chainDb
  have hs₁ := hs.with_canonical canonical
  have hfst : ∀ p, hc.chainDb.StoredUp header p → (getHeader header.parentHash (header.number64 - 1)
      { hc with chainDb := { hc.chainDb with canonical := canonical } }).1 = some p := by
    intro p hp
    obtain ⟨hup, hstored⟩ := hs.up hp
    rw [← hup.2.1, number64_of_succ hup.2.2]
    exact hs₁.getHeader_fst hstored
  obtain ⟨cache, hcache⟩ := getHeader_snd header.parentHash (header.number64 - 1)
    { hc with chainDb := { hc.chainDb with canonical := canonical } }
  refine ⟨_, _, ⟨⟨canonical, cache, hcache⟩, hs₁.getHeader _ _⟩, ?_,
    fun h hh => hs₁.of_getHeader hh, hfst, ?_⟩
  · rw [hcache]
    change ({ hc.chainDb with canonical := canonical } : ChainDb).canonicalAt = _
    have hsucc : header.number64 + 1 = .ofNat (header.number + 1) := by
      rw [UInt64.ofNat_add]
      rfl
    rw [← hdelete, hsucc]
    exact canonicalAt_deleteAbove hs hi (tree.number_lt header hheader)
  · have hstart : makeCanonical header hc =
        rewriteBelow header (getHeader header.parentHash (header.number64 - 1)
          (hc.onDb (deleteAbove (header.number64 + 1)))).1
          (getHeader header.parentHash (header.number64 - 1)
            (hc.onDb (deleteAbove (header.number64 + 1)))).2 := rfl
    have hdeleted : hc.onDb (deleteAbove (header.number64 + 1)) =
        { hc with chainDb := { hc.chainDb with canonical := canonical } } := by
      rw [onDb, deleteAbove, hdelete]
    rw [hstart, hdeleted]

/-- What the table has to look like for the branch of a new head to be indexed: the entries above
it are deleted, and those from the fork up to the head are written. -/
theorem Indexed.adopt
    (hheader : hc.chainDb.HasHeader header) (hup : tree.Up header p) {ns : List Header} {c : Header}
    (hns : Segment tree.Up p ns c) (hstored : ∀ h ∈ ns, hc.chainDb.HasHeader h)
    (hcanon : hc.chainDb.canonicalAt c.number = some c.hash)
    (hheaders : hc'.chainDb.headers = hc.chainDb.headers) (hcurrent : hc'.currentHeader = header)
    (hhash : hc'.currentHeaderHash = header.hash)
    (htable : hc'.chainDb.canonicalAt = Function.update (writeAll Header.hash Header.number ns
      (truncate (header.number + 1) hc.chainDb.canonicalAt)) header.number (some header.hash)) :
    Indexed tree hc' := by
  have hpn := hup.2.2
  have hcn := hns.height_eq up_number
  -- the fork is on the branch of the head before
  obtain ⟨cs, c', hcs, -, hhash'⟩ := hi.segment_of_canonical hcanon
  have hcmem : c ∈ tree.headers := (hns.forall_mem (fun _ _ h _ => h.1) hup.1).2
  obtain rfl : c' = c := tree.hash_injOn (hs.mem (hi.stored cs c' hcs)) hcmem hhash'
  obtain ⟨ds, hds⟩ := hi.segment_root hcs
  have hfork := hi.indexes.truncate (i := header.number + 1) up_number hcs (by omega)
  have hparent := hfork.writeAll up_number up_unique (.nil c') hns
  have hhead := hparent.cons up_number up_unique hup
  refine ⟨by rw [hhash, hcurrent], ?_, ?_, ?_, ?_⟩
  · rw [hcurrent]
    exact ⟨_, .cons hup (hns.trans hds)⟩
  · rw [hcurrent]
    intro es e hes
    rw [ChainDb.HasHeader, hheaders]
    cases hes with
    | nil => exact hheader
    | @cons _ q _ es hup' hrest =>
      obtain rfl := up_unique _ _ _ hup hup'
      rcases hns.compare up_unique hrest with ⟨fs, hfs, -⟩ | ⟨fs, -, rfl⟩
      · exact hi.stored _ e (hcs.trans hfs)
      · exact hstored e (by simp)
  · rw [hcurrent, htable]
    exact hhead
  · rw [hcurrent]
    intro n hn
    rw [htable, Function.update_of_ne (by omega),
      writeAll_of_lt up_number hns (by omega), truncate_of_le (by omega)]

/-- **The numbering moves to the branch of an attached header.** -/
theorem makeCanonical_of_attached
    (hheader : hc.chainDb.HasHeader header) (hatt : hc.chainDb.Attached header) :
    ∃ hc', makeCanonical header hc = .ok () hc' ∧ Sound tree hc' ∧
      Indexed tree hc' ∧ hc'.currentHeader = header := by
  have hmem := hs.mem hheader
  obtain ⟨p, bs, d, hstoredUp, hseg, hd⟩ := hatt
  obtain ⟨hup, hp⟩ := hs.up hstoredUp
  obtain ⟨ns, c, hns, hall, hcanon⟩ := exists_fork hs hseg hp hd
  have hpn := hup.2.2
  have hcn := hns.height_eq up_number
  obtain ⟨hc₂, current, hmoved, htable, -, hread, hrun⟩ := makeCanonical_eq hs hi hmem
  have hheaders := hmoved.headers
  -- the walk reaches the fork
  have hwalk : ∃ hc₃, overwrite (header.number64.toNat + 1) p.hash p.number64 current hc₂ =
      .ok () hc₃ ∧ Moved tree hc₂ hc₃ ∧ hc₃.chainDb.canonicalAt =
        writeAll Header.hash Header.number ns hc₂.chainDb.canonicalAt := by
    refine overwrite_segment hns hmoved.sound hup.1 ?_ ?_ ?_ fun _ => hread p hstoredUp
    · rw [toNat_number64 hmem]
      omega
    · intro h hh
      have hlow := (hns.height_mem up_number hh).2
      rw [ChainDb.HasHeader, hheaders, htable, truncate_of_lt (by omega)]
      exact hall h hh
    · rw [htable, truncate_of_lt (by omega)]
      exact hcanon
  obtain ⟨hc₃, hwalk, hmoved', htable'⟩ := hwalk
  refine ⟨setCurrentHeader header
    (hc₃.onDb fun db => db.writeCanonicalHash header.hash header.number64), ?_, ?_, ?_, rfl⟩
  · rw [hrun, rewriteBelow, ← hup.2.1, number64_of_succ hpn]
    exact (bind_ok hwalk).trans rfl
  · have hs₃ := hmoved'.sound
    exact { hs₃ with }
  refine Indexed.adopt hs hi hheader hup hns (fun h hh => (hall h hh).1) hcanon
    (hmoved'.headers.trans hheaders) rfl rfl ?_
  refine (canonicalAt_write hc₃.chainDb hmem).trans ?_
  rw [htable', htable]

theorem attached_of_makeCanonical
    (hheader : header ∈ tree.headers) (hup : tree.Up header p)
    (hrun : makeCanonical header hc = .ok () hc') : hc.chainDb.Attached header := by
  obtain ⟨hc₂, current, hmoved, htable, hfound, -, heq⟩ := makeCanonical_eq hs hi hheader
  rw [heq, rewriteBelow] at hrun
  obtain ⟨_, hc₃, hwalk, -⟩ := bind_eq_ok.1 hrun
  refine segment_of_overwrite hs hi hmoved.sound hmoved.headers ?_ hup ?_ hwalk
  · intro n hn
    rw [htable, truncate_of_lt (by omega)]
  intro h hh
  rw [ChainDb.HasHeader, hmoved.headers]
  exact hfound h hh

/-! ### Writing a header -/

omit hi

omit hs

/-- The header would become the head: it is heavier than the current header, or as heavy and the
tie is decided for it. -/
def Outweighs (hc : HeaderChain) (coin : Bool) (header : Header) : Prop :=
  ∃ ptd localTd, (hc.getTd header.parentHash (header.number64 - 1)).1 = some ptd ∧
    (hc.getTd hc.currentHeaderHash hc.currentHeader.number64).1 = some localTd ∧
    (localTd < header.difficulty + ptd ∨ (header.difficulty + ptd = localTd ∧ coin = true))

/-- The parent of the header is known. -/
def Knows (hc : HeaderChain) (header : Header) : Prop := ∃ p, hc.chainDb.StoredUp header p

instance (hc : HeaderChain) (header : Header) : Decidable (hc.Knows header) :=
  match h : hc.chainDb.headers.lookup (header.parentHash, header.number64 - 1) with
  | none => isFalse (by simp [Knows, ChainDb.StoredUp, h])
  | some p => decidable_of_iff (header.number = p.number + 1)
      (by simp [Knows, ChainDb.StoredUp, h])

/-- The header is stored, with a total difficulty. -/
def record (header : Header) (td : ℕ) (hc : HeaderChain) : HeaderChain :=
  (hc.writeTd header.hash header.number64 td).onDb fun db => db.writeHeader header

/-- The header is put into the cache. -/
def remember (header : Header) (hc : HeaderChain) : HeaderChain :=
  { hc with headerCache := hc.headerCache.insert header.hash header }

theorem lookup_record (td : ℕ) (key : Hash × UInt64) :
    (hc.record header td).chainDb.headers.lookup key =
      if key = (header.hash, header.number64) then some header else hc.chainDb.headers.lookup key :=
  lookup_insert_eq _ _ _ key

variable (hs : Sound tree hc)
include hs

theorem hasHeader_record (hheader : header ∈ tree.headers) (td : ℕ) :
    (hc.record header td).chainDb.HasHeader h ↔ hc.chainDb.HasHeader h ∨ h = header := by
  rw [ChainDb.HasHeader, lookup_record]
  constructor
  · intro hh
    split at hh
    · cases hh
      exact .inr rfl
    · exact .inl hh
  · rintro (hh | rfl)
    · split
      · rename_i hkey
        rw [tree.hash_injOn (hs.mem hh) hheader (congrArg fst hkey)]
      · exact hh
    · rw [if_pos rfl]

theorem Sound.record (hheader : header ∈ tree.headers)
    (hup : tree.Up header p) (td : ℕ) : Sound tree (hc.record header td) := by
  have hiff : ∀ {h}, (hc.record header td).chainDb.HasHeader h ↔
      hc.chainDb.HasHeader h ∨ h = header := hasHeader_record hs hheader td
  have htds : ∀ key, (hc.record header td).chainDb.tds.lookup key =
      if key = (header.hash, header.number64) then some td else hc.chainDb.tds.lookup key :=
    lookup_insert_eq _ _ _
  refine ⟨?_, ?_, ?_, ?_, ?_⟩
  · intro hash number h hh
    rw [lookup_record] at hh
    split at hh
    · rename_i hkey
      cases hh
      exact ⟨hheader, (congrArg fst hkey).symm, (congrArg snd hkey).symm⟩
    · exact hs.lookup_eq hash number h hh
  · intro key
    rw [htds, lookup_record]
    split
    · simp
    · exact hs.td_iff key
  · intro h hh
    rcases hiff.1 hh with hh | rfl
    · exact hs.parent_up h hh
    · exact .inr ⟨p, hup⟩
  · intro hash h hh
    obtain ⟨hstored, hhash⟩ := hs.headerCache_eq hash h hh
    exact ⟨hiff.2 (.inl hstored), hhash⟩
  · intro hash td' hlookup
    change (hc.tdCache.insert header.hash td).lookup hash = some td' at hlookup
    obtain ⟨rfl, rfl⟩ | ⟨heq, hlookup⟩ := of_lookup_insert hlookup
    · exact ⟨header, hiff.2 (.inr rfl), rfl, by rw [htds, if_pos rfl]⟩
    obtain ⟨h, hstored, rfl, htd⟩ := hs.tdCache_eq hash td' hlookup
    refine ⟨h, hiff.2 (.inl hstored), rfl, ?_⟩
    rw [htds, if_neg fun hkey => heq (congrArg fst hkey)]
    exact htd

theorem Indexed.record (hi : Indexed tree hc)
    (hheader : header ∈ tree.headers) (td : ℕ) : Indexed tree (hc.record header td) :=
  ⟨hi.hash_eq, hi.root,
    fun bs a hseg => (hasHeader_record hs hheader td).2 (.inl (hi.stored bs a hseg)),
    hi.indexes, hi.above⟩

theorem attached_record (hheader : header ∈ tree.headers) (td : ℕ) :
    (hc.record header td).chainDb.Attached header ↔ hc.chainDb.Attached header := by
  have hstep : ∀ b p, b.number ≤ header.number →
      ((hc.record header td).chainDb.StoredUp b p ↔ hc.chainDb.StoredUp b p) := by
    intro b p hb
    rw [ChainDb.StoredUp, ChainDb.StoredUp, lookup_record]
    by_cases hkey : (b.parentHash, b.number64 - 1) = (header.hash, header.number64)
    · rw [if_pos hkey]
      constructor
      · rintro ⟨heq, hnumber⟩
        cases heq
        omega
      rintro ⟨heq, hnumber⟩
      obtain ⟨hmem, hhash, -⟩ := hs.lookup_eq _ _ _ heq
      have := tree.hash_injOn hmem hheader (hhash.trans (congrArg fst hkey))
      rw [this] at hnumber
      omega
    · rw [if_neg hkey]
  constructor
  · rintro ⟨p, bs, a, hup, hseg, ha⟩
    refine ⟨p, bs, a, (hstep _ _ le_rfl).1 hup, ?_, ha⟩
    exact hseg.mono (fun _ _ h => h.2) (fun b p hb => (hstep b p hb).1) (by have := hup.2; omega)
  · rintro ⟨p, bs, a, hup, hseg, ha⟩
    refine ⟨p, bs, a, (hstep _ _ le_rfl).2 hup, ?_, ha⟩
    exact hseg.mono (fun _ _ h => h.2) (fun b p hb => (hstep b p hb).2) (by have := hup.2; omega)

theorem writeHeader_eq (hi : Indexed tree hc) (coin : Bool)
    (hup : hc.chainDb.StoredUp header p) :
    ∃ hc₂ td, Sound tree hc₂ ∧ Indexed tree hc₂ ∧ hc₂.chainDb = hc.chainDb ∧
      (hc.Outweighs coin header → writeHeader coin header hc = (do
        makeCanonical header
        modify (remember header)
        return WriteStatus.canonStatTy) (hc₂.record header td)) ∧
      (¬ hc.Outweighs coin header → writeHeader coin header hc =
        EStateM.Result.ok WriteStatus.sideStatTy ((hc₂.record header td).remember header)) := by
  obtain ⟨htree, hp⟩ := hs.up hup
  -- the total difficulty of the parent, and then that of the current header
  obtain ⟨ptd, hptd⟩ := hs.exists_td hp
  obtain ⟨localTd, hlocal⟩ := hs.exists_td hi.current_stored
  have hread := hs.getTd_fst hp
  rw [hptd, htree.2.1, ← number64_of_succ hup.2] at hread
  have hs₁ := hs.getTd header.parentHash (header.number64 - 1)
  obtain ⟨cache₁, hcache₁⟩ := getTd_snd header.parentHash (header.number64 - 1) hc
  rw [hcache₁] at hs₁
  have hread₁ := hs₁.getTd_fst hi.current_stored
  rw [hlocal, ← hi.hash_eq] at hread₁
  have hread₀ := hs.getTd_fst hi.current_stored
  rw [hlocal, ← hi.hash_eq] at hread₀
  have hs₂ := hs₁.getTd hc.currentHeaderHash hc.currentHeader.number64
  obtain ⟨cache₂, hcache₂⟩ := getTd_snd hc.currentHeaderHash hc.currentHeader.number64
    { hc with tdCache := cache₁ }
  rw [hcache₂] at hs₂
  have hrun : writeHeader coin header hc =
      (if localTd < header.difficulty + ptd || (header.difficulty + ptd = localTd && coin) then do
        makeCanonical header
        modify (remember header)
        return WriteStatus.canonStatTy
      else do
        modify (remember header)
        return WriteStatus.sideStatTy : EStateM ChainErr HeaderChain WriteStatus)
        ({ hc with tdCache := cache₂ }.record header (header.difficulty + ptd)) := by
    rw [writeHeader]
    refine (bind_ok rfl).trans ?_
    rw [hread, hcache₁]
    refine (bind_ok rfl).trans ?_
    simp only [hread₁, hcache₂]
    rfl
  refine ⟨{ hc with tdCache := cache₂ }, header.difficulty + ptd, hs₂, { hi with }, rfl, ?_, ?_⟩
  · rintro ⟨ptd', localTd', hptd', hlocal', hcond⟩
    rw [hread] at hptd'
    rw [hread₀] at hlocal'
    cases hptd'
    cases hlocal'
    rw [hrun, if_pos (by simpa using hcond)]
  · intro hnot
    rw [hrun, if_neg]
    · rfl
    · intro hcond
      exact hnot ⟨ptd, localTd, hread, hread₀, by simpa using hcond⟩

theorem Sound.remember (hh : hc.chainDb.HasHeader h) :
    Sound tree (hc.remember h) := by
  refine { hs with headerCache_eq := ?_ }
  intro hash h' hlookup
  change (hc.headerCache.insert h.hash h).lookup hash = some h' at hlookup
  obtain ⟨heq, rfl⟩ | ⟨-, hlookup⟩ := of_lookup_insert hlookup
  · exact ⟨hh, heq.symm⟩
  · exact hs.headerCache_eq hash h' hlookup

omit hs

theorem Indexed.remember (hi : Indexed tree hc) (h : Header) : Indexed tree (hc.remember h) :=
  { hi with }

theorem writeHeader_of_attached (hs : Sound tree hc) (hi : Indexed tree hc) (coin : Bool)
    (hheader : header ∈ tree.headers) (hknown : hc.Knows header)
    (hcond : hc.Outweighs coin header → hc.chainDb.Attached header) :
    ∃ status hc', writeHeader coin header hc = .ok status hc' ∧ Sound tree hc' ∧
      Indexed tree hc' := by
  obtain ⟨p, hup⟩ := hknown
  obtain ⟨hc₂, td, hs₂, hi₂, hdb, hcanon, hside⟩ := writeHeader_eq hs hi coin hup
  have hsrec := hs₂.record hheader (hs.up hup).1 td
  have hirec := hi₂.record hs₂ hheader td
  have hstored := (hasHeader_record (h := header) hs₂ hheader td).2 (.inr rfl)
  by_cases hout : hc.Outweighs coin header
  · have hatt : (hc₂.record header td).chainDb.Attached header := by
      rw [attached_record hs₂ hheader]
      rw [hdb]
      exact hcond hout
    obtain ⟨hc', hrun, hs', hi', hcurrent⟩ := makeCanonical_of_attached hsrec hirec hstored hatt
    have hstored' := hi'.current_stored
    rw [hcurrent] at hstored'
    refine ⟨.canonStatTy, hc'.remember header, ?_, hs'.remember hstored', hi'.remember header⟩
    rw [hcanon hout]
    exact (bind_ok hrun).trans rfl
  · exact ⟨_, _, hside hout, hsrec.remember hstored, hirec.remember header⟩

theorem attached_of_writeHeader (hs : Sound tree hc) (hi : Indexed tree hc) {coin : Bool}
    {status : WriteStatus} (hheader : header ∈ tree.headers) (hknown : hc.Knows header)
    (hrun : writeHeader coin header hc = .ok status hc')
    (hout : hc.Outweighs coin header) : hc.chainDb.Attached header := by
  obtain ⟨p, hup⟩ := hknown
  obtain ⟨hc₂, td, hs₂, hi₂, hdb, hcanon, -⟩ := writeHeader_eq hs hi coin hup
  rw [hcanon hout] at hrun
  obtain ⟨_, hc₃, hmake, -⟩ := bind_eq_ok.1 hrun
  have htree := (hs.up hup).1
  have hatt := attached_of_makeCanonical (hs₂.record hheader htree td)
    (hi₂.record hs₂ hheader td) hheader htree hmake
  rw [attached_record hs₂ hheader, hdb] at hatt
  exact hatt

/-! ### Setting the head back -/

/-- Erasing the entries of some headers. -/
def eraseAll {α : Type} (bs : List Header) (m : Finmap fun _ : Hash × UInt64 => α) :
    Finmap fun _ : Hash × UInt64 => α :=
  bs.foldl (fun m b => m.erase (b.hash, b.number64)) m

theorem lookup_eraseAll {α : Type} (bs : List Header) (m : Finmap fun _ : Hash × UInt64 => α)
    (key : Hash × UInt64) : (eraseAll bs m).lookup key =
      if key ∈ bs.map fun b => (b.hash, b.number64) then none else m.lookup key := by
  induction bs generalizing m with
  | nil => rfl
  | cons b bs ih =>
    change (eraseAll bs (m.erase (b.hash, b.number64))).lookup key = _
    rw [ih, map_cons]
    by_cases hkey : key = (b.hash, b.number64)
    · rw [hkey, Finmap.lookup_erase, ite_self, if_pos mem_cons_self]
    rw [Finmap.lookup_erase_ne hkey]
    by_cases hmem : key ∈ bs.map fun b => (b.hash, b.number64)
    · rw [if_pos hmem, if_pos (mem_cons_of_mem _ hmem)]
    rw [if_neg hmem, if_neg]
    intro hcons
    rcases mem_cons.1 hcons with heq | hmem'
    · exact hkey heq
    · exact hmem hmem'

/-- The state after the headers of a list and their total difficulties have been deleted. -/
def forget (bs : List Header) (cache : Finmap fun _ : Hash => Header) (hc : HeaderChain) :
    HeaderChain :=
  { hc with
    chainDb := { hc.chainDb with
      headers := eraseAll bs hc.chainDb.headers, tds := eraseAll bs hc.chainDb.tds }
    headerCache := cache }

/-- What the cache of headers has while headers are being deleted: maybe deleted ones, but each
under its hash. -/
def CachedIn (tree : HeaderTree) (hc : HeaderChain) : Prop :=
  ∀ hash h, hc.headerCache.lookup hash = some h → h ∈ tree.headers ∧ h.hash = hash

theorem CachedIn.getHeader (hcache : CachedIn tree hc) (hup : tree.Up b p)
    (hp : hc.chainDb.HasHeader p) : (hc.getHeader b.parentHash (b.number64 - 1)).1 = some p ∧
      CachedIn tree (hc.getHeader b.parentHash (b.number64 - 1)).2 := by
  rw [← hup.2.1, number64_of_succ hup.2.2, HeaderChain.getHeader]
  cases hlookup : hc.headerCache.lookup p.hash with
  | some h =>
    obtain ⟨hmem, hhash⟩ := hcache _ _ hlookup
    exact ⟨congrArg some (tree.hash_injOn hmem hup.1 hhash), hcache⟩
  | none =>
    simp only [show hc.chainDb.headers.lookup (p.hash, p.number64) = some p from hp]
    refine ⟨trivial, ?_⟩
    intro hash h hh
    obtain ⟨heq, rfl⟩ | ⟨-, hh⟩ := of_lookup_insert hh
    · exact ⟨hup.1, heq.symm⟩
    · exact hcache hash h hh

theorem hasHeader_forget {bs : List Header} (cache : Finmap fun _ : Hash => Header)
    (hmem : h ∈ tree.headers) (hbs : ∀ b ∈ bs, b ∈ tree.headers ∧ h.number ≠ b.number)
    (hh : hc.chainDb.HasHeader h) : (hc.forget bs cache).chainDb.HasHeader h := by
  change (eraseAll bs hc.chainDb.headers).lookup (h.hash, h.number64) = some h
  rw [lookup_eraseAll, if_neg]
  · exact hh
  intro hkey
  obtain ⟨b, hb, heq⟩ := mem_map.1 hkey
  have hnumber := congrArg UInt64.toNat (congrArg snd heq)
  rw [toNat_number64 (hbs b hb).1, toNat_number64 hmem] at hnumber
  exact (hbs b hb).2 hnumber.symm

theorem rewind_segment {bs : List Header} (hseg : Segment tree.Up b bs a) {head : UInt64}
    {rounds : ℕ} (hcache : CachedIn tree hc) (hb : b ∈ tree.headers) (hrounds : bs.length < rounds)
    (hbs : ∀ h ∈ bs, head < h.number64 ∧ hc.chainDb.HasHeader h) (ha : ¬ head < a.number64)
    (hstored : hc.chainDb.HasHeader a) :
    ∃ cache, rewind head rounds (some b) hc = .ok (some a) (hc.forget bs cache) := by
  induction hseg generalizing hc rounds with
  | nil b =>
    obtain ⟨rounds, rfl⟩ : ∃ k, rounds = k + 1 := ⟨rounds - 1, by omega⟩
    refine ⟨hc.headerCache, ?_⟩
    simp only [rewind, if_neg ha]
    rfl
  | @cons b p a bs hup hrest ih =>
    obtain ⟨rounds, rfl⟩ : ∃ k, rounds = k + 1 := ⟨rounds - 1, by omega⟩
    rw [forall_mem_cons] at hbs
    rw [length_cons] at hrounds
    -- the headers still to come have lower numbers than the one that is deleted
    have hkeep : ∀ {h}, h ∈ bs ∨ h = a → hc.chainDb.HasHeader h →
        (hc.forget [b] hc.headerCache).chainDb.HasHeader h := by
      intro h hor hh
      have hpb := hup.2.2
      have hlow : h.number < b.number := by
        rcases hor with hmem | rfl
        · have := (hrest.height_mem up_number hmem).2
          omega
        · have := hrest.height_eq up_number
          omega
      have hmem : h ∈ tree.headers := by
        obtain ⟨hall, hend⟩ := hrest.forall_mem (P := fun c => c ∈ tree.headers)
          (fun _ _ hup _ => hup.1) hup.1
        rcases hor with hmem | rfl
        · exact hall h hmem
        · exact hend
      refine hasHeader_forget _ hmem ?_ hh
      intro c hc'
      obtain rfl := mem_singleton.1 hc'
      exact ⟨hb, hlow.ne⟩
    have hp : (hc.forget [b] hc.headerCache).chainDb.HasHeader p := by
      cases hrest with
      | nil => exact hkeep (.inr rfl) hstored
      | cons _ _ => exact hkeep (.inl mem_cons_self) (hbs.2 p mem_cons_self).2
    have hcache₁ : CachedIn tree (hc.forget [b] hc.headerCache) := hcache
    obtain ⟨hread, hcache₂⟩ := hcache₁.getHeader hup hp
    obtain ⟨cache, hsnd⟩ := getHeader_snd b.parentHash (b.number64 - 1)
      (hc.forget [b] hc.headerCache)
    rw [hsnd] at hcache₂
    obtain ⟨cache', hrun⟩ := ih hcache₂ hup.1 (Nat.lt_of_succ_lt_succ hrounds)
      (fun h hh => ⟨(hbs.2 h hh).1, hkeep (.inl hh) (hbs.2 h hh).2⟩) ha
      (hkeep (.inr rfl) hstored)
    refine ⟨cache', ?_⟩
    have hround : rewind head (rounds + 1) (some b) hc =
        rewind head rounds (getHeader b.parentHash (b.number64 - 1)
          (hc.forget [b] hc.headerCache)).1 (getHeader b.parentHash (b.number64 - 1)
          (hc.forget [b] hc.headerCache)).2 := by
      simp only [rewind, if_pos hbs.1.1]
      rfl
    rw [hround, hread, hsnd]
    exact hrun

theorem Sound.rewound (hs : Sound tree hc) (bs : List Header)
    (hdb : hc'.chainDb.headers = eraseAll bs hc.chainDb.headers)
    (htds : hc'.chainDb.tds = eraseAll bs hc.chainDb.tds) (hheaders : hc'.headerCache = ∅)
    (htdCache : hc'.tdCache = ∅) : Sound tree hc' := by
  have hsub : ∀ key h, hc'.chainDb.headers.lookup key = some h →
      hc.chainDb.headers.lookup key = some h := by
    intro key h hh
    rw [hdb, lookup_eraseAll] at hh
    split at hh
    · cases hh
    · exact hh
  refine ⟨?_, ?_, ?_, ?_, ?_⟩
  · intro hash number h hh
    exact hs.lookup_eq hash number h (hsub _ h hh)
  · intro key
    rw [hdb, htds, lookup_eraseAll, lookup_eraseAll]
    split
    · simp
    · exact hs.td_iff key
  · intro h hh
    exact hs.parent_up h (hsub _ h hh)
  · intro hash h hh
    rw [hheaders] at hh
    simp at hh
  · intro hash td hh
    rw [htdCache] at hh
    simp at hh

/-- **Setting the head back keeps the invariants.** -/
theorem setHead_spec (hs : Sound tree hc) (hi : Indexed tree hc) (head : UInt64) :
    ∃ hc', setHead head hc = .ok () hc' ∧ Sound tree hc' ∧ Indexed tree hc' := by
  have hmem := hs.mem hi.current_stored
  have hlt := tree.number_lt _ hmem
  have htoNat := toNat_number64 hmem
  -- the new head: the ancestor with the given number, or the head itself if it is lower
  obtain ⟨bs, a, hseg, hnumber⟩ := hi.exists_number (min_le_right head.toNat _)
  have hstored := hi.stored bs a hseg
  have hbsStored : ∀ h ∈ bs, hc.chainDb.HasHeader h := by
    intro h hh
    obtain ⟨ds, es, hds, -, -⟩ := hseg.split_mem hh
    exact hi.stored ds h hds
  have hbsNumber : ∀ h ∈ bs, head.toNat < h.number := by
    intro h hh
    obtain ⟨hlow, hhigh⟩ := hseg.height_mem up_number hh
    omega
  have hcache : CachedIn tree hc := by
    intro hash h hh
    obtain ⟨hstored, hhash⟩ := hs.headerCache_eq hash h hh
    exact ⟨hs.mem hstored, hhash⟩
  have hrewind : ∃ cache, rewind head (hc.currentHeader.number64.toNat + 1)
      (some hc.currentHeader) hc = .ok (some a) (hc.forget bs cache) := by
    refine rewind_segment hseg hcache hmem ?_ ?_ ?_ hstored
    · have hlen := hseg.height_eq up_number
      omega
    · intro h hh
      refine ⟨?_, hbsStored h hh⟩
      rw [UInt64.lt_iff_toNat_lt, toNat_number64 (hs.mem (hbsStored h hh))]
      exact hbsNumber h hh
    · rw [UInt64.lt_iff_toNat_lt, toNat_number64 (hs.mem hstored)]
      omega
  obtain ⟨cache, hrewind⟩ := hrewind
  obtain ⟨canonical, hcanonical⟩ := deleteDown_eq head hc.currentHeader.number64.toNat
    hc.currentHeader.number64 (hc.forget bs cache).chainDb
  have htable : (deleteDown head hc.currentHeader.number64.toNat hc.currentHeader.number64
      (hc.forget bs cache).chainDb).canonicalAt =
        fun n => if head.toNat < n ∧ n ≤ hc.currentHeader.number then none
          else hc.chainDb.canonicalAt n := by
    refine canonicalAt_deleteDown head _ hc.currentHeader.number _ (by omega) ?_
    rw [htoNat]
  rw [hcanonical] at htable
  refine ⟨setCurrentHeader a { hc.forget bs cache with
    chainDb := { (hc.forget bs cache).chainDb with canonical := canonical }
    headerCache := ∅, tdCache := ∅ }, ?_, ?_, ?_⟩
  · have hdown : (hc.forget bs cache).onDb (deleteDown head hc.currentHeader.number64.toNat
        hc.currentHeader.number64) = { hc.forget bs cache with
          chainDb := { (hc.forget bs cache).chainDb with canonical := canonical } } := by
      rw [onDb, hcanonical]
    rw [setHead]
    refine (bind_ok rfl).trans ((bind_ok hrewind).trans ?_)
    change EStateM.Result.ok () (setCurrentHeader a { (hc.forget bs cache).onDb (deleteDown head
      hc.currentHeader.number64.toNat hc.currentHeader.number64) with
        headerCache := ∅, tdCache := ∅ }) = _
    rw [hdown]
  · exact hs.rewound bs rfl rfl rfl rfl
  refine ⟨rfl, ?_, ?_, ?_, ?_⟩
  · obtain ⟨ds, hds⟩ := hi.segment_root hseg
    exact ⟨ds, hds⟩
  · intro cs c hcs
    have hc' := hi.stored _ c (hseg.trans hcs)
    refine hasHeader_forget cache (hs.mem hc') ?_ hc'
    intro h hh
    have hlow := (hseg.height_mem up_number hh).1
    have hle := hcs.height_eq up_number
    change a.number = _ at hle
    exact ⟨hs.mem (hbsStored h hh), by omega⟩
  · intro cs c hcs
    have hle := hcs.height_eq up_number
    change a.number = _ at hle
    refine (congrFun htable c.number).trans ?_
    rw [if_neg (by omega)]
    exact hi.indexes _ c (hseg.trans hcs)
  · intro n hn
    change a.number < n at hn
    refine (congrFun htable n).trans ?_
    split
    · rfl
    · exact hi.above n (by omega)

/-! ### Reads and evictions -/

/-- Reads fill the caches, and any entry may be evicted. -/
inductive CacheStep (hc : HeaderChain) : HeaderChain → Prop
  | readHeader (hash : Hash) (number : UInt64) : CacheStep hc (hc.getHeader hash number).2
  | readTd (hash : Hash) (number : UInt64) : CacheStep hc (hc.getTd hash number).2
  | evictHeader (hash : Hash) :
      CacheStep hc { hc with headerCache := hc.headerCache.erase hash }
  | evictTd (hash : Hash) : CacheStep hc { hc with tdCache := hc.tdCache.erase hash }

theorem CacheStep.sound (h : CacheStep hc hc') (hs : Sound tree hc) : Sound tree hc' := by
  cases h with
  | readHeader hash number => exact hs.getHeader hash number
  | readTd hash number => exact hs.getTd hash number
  | evictHeader hash =>
    refine { hs with headerCache_eq := ?_ }
    intro hash' h hh
    exact hs.headerCache_eq hash' h (of_lookup_erase hh).2
  | evictTd hash =>
    refine { hs with tdCache_eq := ?_ }
    intro hash' td hh
    exact hs.tdCache_eq hash' td (of_lookup_erase hh).2

theorem CacheStep.indexed (h : CacheStep hc hc') (hi : Indexed tree hc) : Indexed tree hc' := by
  cases h with
  | readHeader hash number =>
    obtain ⟨cache, hcache⟩ := getHeader_snd hash number hc
    rw [hcache]
    exact { hi with }
  | readTd hash number =>
    obtain ⟨cache, hcache⟩ := getTd_snd hash number hc
    rw [hcache]
    exact { hi with }
  | evictHeader hash | evictTd hash => exact { hi with }

end HeaderChain

/-! ### Reachable states -/

namespace HeaderTree

open HeaderChain

variable {tree : HeaderTree} {hc : HeaderChain}

/-- The header chain with the genesis header only. -/
def start (tree : HeaderTree) : HeaderChain := HeaderChain.start tree.genesis

/-- The states reached by setting the head back and by writing headers with known parents that stay
on the side or are attached. -/
inductive Reachable (tree : HeaderTree) : HeaderChain → Prop
  | start : Reachable tree tree.start
  | write {hc hc' : HeaderChain} {coin : Bool} {header : Header} {status : WriteStatus} :
      Reachable tree hc → header ∈ tree.headers → hc.Knows header →
      (hc.Outweighs coin header → hc.chainDb.Attached header) →
      writeHeader coin header hc = .ok status hc' → Reachable tree hc'
  | setHead {hc hc' : HeaderChain} {head : UInt64} : Reachable tree hc →
      HeaderChain.setHead head hc = .ok () hc' → Reachable tree hc'
  | cache {hc hc' : HeaderChain} : Reachable tree hc → CacheStep hc hc' → Reachable tree hc'

theorem lookup_start {key : Hash × UInt64} {h : Header}
    (hh : tree.start.chainDb.headers.lookup key = some h) :
    h = tree.genesis ∧ key = (tree.genesis.hash, tree.genesis.number64) := by
  obtain ⟨hkey, rfl⟩ | ⟨-, hh⟩ := of_lookup_insert hh
  · exact ⟨rfl, hkey⟩
  · simp at hh

theorem hasHeader_start : tree.start.chainDb.HasHeader tree.genesis := by
  simp only [ChainDb.HasHeader, start, HeaderChain.start, Finmap.lookup_insert]

theorem sound_start (tree : HeaderTree) : Sound tree tree.start := by
  refine ⟨?_, ?_, ?_, ?_, ?_⟩
  · intro hash number h hh
    obtain ⟨rfl, hkey⟩ := lookup_start hh
    exact ⟨tree.genesis_mem, (congrArg fst hkey).symm, (congrArg snd hkey).symm⟩
  · intro key
    simp only [start, HeaderChain.start, lookup_insert_eq]
    split_ifs <;> simp
  · intro h hh
    exact .inl (lookup_start hh).1
  · intro hash h hh
    simp [start, HeaderChain.start] at hh
  · intro hash td hh
    simp [start, HeaderChain.start] at hh

theorem indexed_start (tree : HeaderTree) : Indexed tree tree.start := by
  have hkey : tree.genesis.number64 = .ofNat 0 := by
    rw [Header.number64, tree.genesis_number]
  have htable : tree.start.chainDb.canonicalAt =
      Function.update (numberTable ∅) 0 (some tree.genesis.hash) := by
    rw [← numberTable_insert ∅ (by norm_num), ← hkey]
    rfl
  have honly : ∀ {bs a}, Segment tree.Up tree.genesis bs a → a = tree.genesis := by
    intro bs a hseg
    cases hseg with
    | nil => rfl
    | cons hup _ =>
      have hzero := hup.2.2
      rw [tree.genesis_number] at hzero
      omega
  refine ⟨rfl, ⟨[], .nil _⟩, ?_, ?_, ?_⟩
  · intro bs a hseg
    rw [honly hseg]
    exact hasHeader_start
  · intro bs a hseg
    rw [honly hseg, htable, tree.genesis_number, Function.update_self]
  · intro n hn
    change tree.genesis.number < n at hn
    rw [htable, Function.update_of_ne (by omega), numberTable]
    simp

/-- **The invariants hold in every reachable state.** -/
theorem Reachable.sound (h : tree.Reachable hc) : Sound tree hc ∧ Indexed tree hc := by
  induction h with
  | start => exact ⟨sound_start tree, indexed_start tree⟩
  | write _ hheader hknown hcond hrun ih =>
    obtain ⟨status, hc', hrun', hs', hi'⟩ :=
      writeHeader_of_attached ih.1 ih.2 _ hheader hknown hcond
    rw [hrun] at hrun'
    cases hrun'
    exact ⟨hs', hi'⟩
  | setHead _ hrun ih =>
    obtain ⟨hc', hrun', hs', hi'⟩ := setHead_spec ih.1 ih.2 _
    rw [hrun] at hrun'
    cases hrun'
    exact ⟨hs', hi'⟩
  | cache _ hstep ih => exact ⟨hstep.sound ih.1, hstep.indexed ih.2⟩

end HeaderTree

open HeaderChain

/-- **The canonical index of the header chain.**  In every reachable state the canonical table is
the branch of the current header; setting the head back always keeps this; and writing a header with
a known parent succeeds and keeps it exactly if the header stays on the side or is attached to the
canonical chain. -/
theorem header_index_iff (tree : HeaderTree) {hc : HeaderChain} (h : tree.Reachable hc) :
    hc.CanonicalIndex ∧
      (∀ head, ∃ hc', setHead head hc = .ok () hc' ∧ hc'.CanonicalIndex) ∧
      ∀ coin header, header ∈ tree.headers → hc.Knows header →
        ((∃ status hc', writeHeader coin header hc = .ok status hc' ∧
          hc'.CanonicalIndex) ↔ (hc.Outweighs coin header → hc.chainDb.Attached header)) := by
  obtain ⟨hs, hi⟩ := h.sound
  refine ⟨hi.canonicalIndex, ?_, ?_⟩
  · intro head
    obtain ⟨hc', hrun, -, hi'⟩ := setHead_spec hs hi head
    exact ⟨hc', hrun, hi'.canonicalIndex⟩
  intro coin header hheader hknown
  constructor
  · rintro ⟨status, hc', hrun, -⟩ hout
    exact attached_of_writeHeader hs hi hheader hknown hrun hout
  intro hcond
  obtain ⟨status, hc', hrun, -, hi'⟩ := writeHeader_of_attached hs hi coin hheader hknown hcond
  exact ⟨status, hc', hrun, hi'.canonicalIndex⟩

end Index

/-! ### A header whose ancestors have been deleted -/

/-- The operations of the header chain. -/
inductive HeaderOp where
  | write (coin : Bool) (header : Header)
  | setHead (head : UInt64)

section Operations

variable [Crypto]

/-- An operation; a header is written if its parent is known. -/
def HeaderChain.perform (hc : HeaderChain) : HeaderOp → Option HeaderChain
  | .write coin header =>
    if hc.Knows header then
      match hc.writeHeader coin header with
      | .ok _ hc' => some hc'
      | .error _ _ => none
    else none
  | .setHead head =>
    match hc.setHead head with
    | .ok _ hc' => some hc'
    | .error _ _ => none

end Operations

namespace Forks

/-- The headers of a branch and of a side branch. -/
def headers : List Header := [root, first, second, third, sideThird, sideFourth]

theorem headers_hash : (headers.map Header.hash).Nodup ∧
    (∀ h ∈ headers, h.hash ≠ FixedBytes.zero 32) ∧ ∀ h ∈ headers, h.number + 1 < 2 ^ 64 := by
  decide +kernel

def tree : HeaderTree where
  genesis := root
  headers := { h | h ∈ headers }
  genesis_mem := mem_cons_self
  genesis_number := rfl
  hash_injOn := fun _ ha _ hb h => inj_on_of_nodup_map headers_hash.1 ha hb h
  hash_ne_zero := headers_hash.2.1
  number_lt := headers_hash.2.2

/-- The side branch starts above the header that the head is then set back to. -/
def rewinding : List HeaderOp :=
  [.write false first, .write false second, .write false third,
    .write false sideThird, .setHead 1]

/-- The error that an operation ends with. -/
def failure {ε σ α : Type} : EStateM.Result ε σ α → Option ε
  | .ok _ _ => none
  | .error e _ => some e

theorem rewinding_run :
    (tree.start.chainDb.headers.lookup (first.parentHash, first.number64 - 1) = some root ∧
      tree.start.chainDb.canonicalAt root.number = some root.hash) ∧
    (rewinding.foldlM HeaderChain.perform tree.start).map (fun hc =>
      (decide (hc.Knows sideFourth), failure (hc.writeHeader false sideFourth))) =
        some (true, some .panic) := by
  decide +kernel

end Forks

open Forks in
/-- The parent of the last header survives when the head is set back below its own parent: the
header becomes the head, and the walk does not find its grandparent's header. -/
theorem write_after_rewind_panics :
    ∃ hc hc', rewinding.foldlM HeaderChain.perform tree.start = some hc ∧
      hc.Knows sideFourth ∧
      hc.writeHeader false sideFourth = .error .panic hc' := by
  obtain ⟨hc, hrun, hpair⟩ := Option.map_eq_some_iff.1 rewinding_run.2
  have hknown : decide (hc.Knows sideFourth) = true := congrArg fst hpair
  have hfail : failure (hc.writeHeader false sideFourth) = some .panic :=
    congrArg snd hpair
  cases hwrite : hc.writeHeader false sideFourth with
  | ok status hc' =>
    rw [hwrite] at hfail
    cases hfail
  | error e hc' =>
    rw [hwrite] at hfail
    cases hfail
    exact ⟨hc, hc', hrun, of_decide_eq_true hknown, hwrite⟩

open Forks in
theorem header_index_iff_first : ∃ status hc', tree.start.writeHeader false first =
      .ok status hc' ∧ hc'.CanonicalIndex := by
  have hup : tree.start.chainDb.StoredUp first root :=
    ⟨rewinding_run.1.1, rfl⟩
  refine ((header_index_iff tree .start).2.2 false first ?_
    ⟨Forks.root, hup⟩).2 fun _ => ?_
  · simp [Forks.tree, Forks.headers]
  · exact ⟨Forks.root, [], Forks.root, hup, .nil _, Forks.rewinding_run.1.2⟩
