/-
**The table of requests.**

A request waits for as many others as refer to it.  The number is kept in the request, the
references in the others, and between the two stand the references that are still to be made and
the notifications that are still to be given: the list of what is owed.  With that list the books
balance at every step.

From the balance follow the facts that the scheduler relies on.  The parents of a request are in the
table; a request that waits for nothing has all it refers to in the memory batch or in the database,
so it may be stored; and the chain of notifications that storing it sets off ends.

Main results:

* `exists_commit` — **a request that waits for nothing is stored, with all that waited for it
  only**.
-/

import GoHpb.StateEntries

namespace MerkleTrie

open FailState FinmapTotal List TrieSync

section Predicates

variable [Crypto] (w : StateTries) (P : Set Bytes)

/-- The entry with the first hash refers to one with the second hash. -/
def Needs (h k : Hash) : Prop :=
  ∃ x y, w.Reachable x ∧ y ∈ w.refs x ∧ x.key = h ∧ y.key = k

/-- The way an entry is requested. -/
def RoleOf (r : Request) : StateEntry → Prop
  | .account _ => r.raw = false ∧ r.callback = true
  | .storage _ => r.raw = false ∧ r.callback = false
  | .code _ => r.raw = true

/-- A request for an entry of the state, with its data if it has been delivered. -/
structure RequestOk (h : Hash) (r : Request) : Prop where
  hash : r.hash = h
  entry : ∃ x, w.Reachable x ∧ x.key = h ∧ RoleOf r x
  data : ∀ e, r.data = some e → h = Crypto.keccak256 e ∧ e ∈ P

/-- The table of requests. -/
abbrev Requests : Type := Finmap fun _ : Hash => Request

/-- The number of references to a request. -/
def refCount (reqs : Requests) (h : Hash) : ℕ := total (fun r => r.parents.count h) reqs

/-- A request of the table that has its data. -/
def Processed (reqs : Requests) (h : Hash) : Prop :=
  ∃ r, reqs.lookup h = some r ∧ r.data.isSome = true

/-- **The books balance**, up to what is owed. -/
structure TableOk (reqs : Requests) (owed : List Hash) : Prop where
  request : ∀ h r, reqs.lookup h = some r → RequestOk w P h r
  deps : ∀ h r, reqs.lookup h = some r → r.deps = (refCount reqs h + owed.count h : ℕ)
  parent : ∀ h r, reqs.lookup h = some r → ∀ p ∈ r.parents, Processed reqs p
  owed : ∀ p ∈ owed, Processed reqs p

/-- An entry is in the database. -/
def Stored (db : NodeDb) (h : Hash) : Prop := (db.lookup h).isSome = true

/-- The database is closed under references, and it stays so while the memory batch is written to
it. -/
structure StoreOk (db : NodeDb) (membatch : SyncMemBatch) : Prop where
  addressed : DbOk P db
  closed : ∀ h k, Stored db h → Needs w h k → Stored db k
  batch : DbOk P membatch.batch
  mem : ∀ h, (membatch.batch.lookup h).isSome = true ↔ h ∈ membatch.order
  order : ∀ pre h post, membatch.order = pre ++ h :: post → ∀ k, Needs w h k →
    k ∈ pre ∨ Stored db k

/-- An entry is in the memory batch or in the database. -/
def Present (s : TrieSync) (h : Hash) : Prop := h ∈ s.membatch.order ∨ Stored s.database h

/-- An entry is present, or it is requested, or it will be, with a reference to the given one. -/
def Awaits (s : TrieSync) (todo : List Request) (h k : Hash) : Prop :=
  Present s k ∨ (∃ q, s.requests.lookup k = some q ∧ h ∈ q.parents) ∨
    ∃ q ∈ todo, q.hash = k ∧ h ∈ q.parents

/-- Requests with data wait for all that they refer to; one of them may be left out. -/
def Waiting (s : TrieSync) (todo : List Request) (without : Option Hash) : Prop :=
  ∀ h, some h ≠ without → Processed s.requests h → ∀ k, Needs w h k → Awaits s todo h k

/-- The state of a download, with requests that are still to be scheduled and notifications that
are still to be given. -/
structure SyncOk (s : TrieSync) (todo : List Request) (owed : List Hash) (without : Option Hash) :
    Prop where
  table : TableOk w P s.requests (todo.flatMap Request.parents ++ owed)
  store : StoreOk w P s.database s.membatch
  waiting : Waiting w s todo without
  root : Present s (StateEntry.account w.accounts).key ∨
    ∃ q, s.requests.lookup (StateEntry.account w.accounts).key = some q

/-- A request that may be scheduled. -/
structure TodoOk (q : Request) : Prop where
  request : RequestOk w P q.hash q
  data : q.data = none
  deps : q.deps = 0

end Predicates

variable [Crypto] {w : StateTries} {P : Set Bytes} {reqs : Requests} {owed : List Hash}
  {s : TrieSync} {todo : List Request} {without : Option Hash}

/-! ### Changes of the table -/

variable {r : Request} {h : Hash} {s' : TrieSync} {q : Request} {hash : Hash} {owed' : List Hash}
  {r r' : Request} {h k : Hash}

omit [Crypto] in
theorem Processed.insert (hp : Processed reqs k) (hr : reqs.lookup h = some r)
    (hdata : r.data.isSome = true → r'.data.isSome = true) : Processed (reqs.insert h r') k := by
  obtain ⟨q, hq, hsome⟩ := hp
  by_cases hk : k = h
  · subst hk
    obtain rfl := Option.some.inj (hr.symm.trans hq)
    exact ⟨r', Finmap.lookup_insert _, hdata hsome⟩
  · exact ⟨q, (Finmap.lookup_insert_of_ne _ hk).trans hq, hsome⟩

theorem TableOk.insert (ht : TableOk w P reqs owed) (hok : RequestOk w P h r)
    (hdeps : r.deps = (refCount (reqs.insert h r) h + owed'.count h : ℕ)) (hsum : ∀ k, k ≠ h →
      refCount (reqs.insert h r) k + owed'.count k = refCount reqs k + owed.count k)
    (hproc : ∀ {p}, Processed reqs p → Processed (reqs.insert h r) p)
    (hparents : ∀ p ∈ r.parents, Processed reqs p) (howed : ∀ p ∈ owed', Processed reqs p) :
    TableOk w P (reqs.insert h r) owed' := by
  refine ⟨fun k q hq => ?_, fun k q hq => ?_, fun k q hq p hp => hproc ?_,
    fun p hp => hproc (howed p hp)⟩
  · rcases of_lookup_insert hq with ⟨rfl, rfl⟩ | ⟨-, hq⟩
    · exact hok
    · exact ht.request k q hq
  · rcases of_lookup_insert hq with ⟨rfl, rfl⟩ | ⟨hk, hq⟩
    · exact hdeps
    · rw [hsum k hk]
      exact ht.deps k q hq
  · rcases of_lookup_insert hq with ⟨rfl, rfl⟩ | ⟨-, hq⟩
    · exact hparents p hp
    · exact ht.parent k q hq p hp

theorem TableOk.update
    (ht : TableOk w P reqs owed) (hr : reqs.lookup h = some r) (hok : RequestOk w P h r')
    (hparents : r'.parents = r.parents) (hdata : r.data.isSome = true → r'.data.isSome = true)
    (hdeps : r'.deps - r.deps = (owed'.count h : ℤ) - owed.count h)
    (howed : ∀ k, k ≠ h → owed'.count k = owed.count k)
    (hproc : ∀ p ∈ owed', Processed reqs p) : TableOk w P (reqs.insert h r') owed' := by
  have hcount : ∀ k, refCount (reqs.insert h r') k = refCount reqs k := by
    intro k
    have htotal := total_insert (f := fun q : Request => q.parents.count k) (b := r') hr
    rw [hparents] at htotal
    exact Nat.add_right_cancel htotal
  refine ht.insert hok ?_ (fun k hk => by rw [hcount, howed k hk])
    (fun hp => hp.insert hr hdata) (fun p hp => ht.parent h r hr p (hparents ▸ hp)) hproc
  have := ht.deps h r hr
  rw [hcount]
  push_cast at this ⊢
  omega

theorem TableOk.refCount_eq_zero (ht : TableOk w P reqs owed)
    (hnot : ¬ Processed reqs h) : refCount reqs h = 0 ∧ owed.count h = 0 := by
  refine ⟨total_eq_zero fun k r hr => ?_, count_eq_zero.2 fun hmem => hnot (ht.owed h hmem)⟩
  exact count_eq_zero.2 fun hmem => hnot (ht.parent k r hr h hmem)

theorem TableOk.schedule (ht : TableOk w P reqs (q.parents ++ owed)) (hq : TodoOk w P q) :
    (∀ old, reqs.lookup q.hash = some old →
      TableOk w P (reqs.insert q.hash { old with parents := old.parents ++ q.parents }) owed) ∧
    (reqs.lookup q.hash = none → TableOk w P (reqs.insert q.hash q) owed) := by
  constructor
  · intro old hold
    have hcount : ∀ k,
        refCount (reqs.insert q.hash { old with parents := old.parents ++ q.parents }) k =
          refCount reqs k + q.parents.count k := by
      intro k
      have htotal := total_insert (f := fun q : Request => q.parents.count k)
        (b := { old with parents := old.parents ++ q.parents }) hold
      simp only [count_append] at htotal
      unfold refCount
      omega
    have hok := ht.request _ old hold
    refine ht.insert { hok with } ?_ (fun k _ => ?_) (fun hp => hp.insert hold id) (fun p hp => ?_)
      fun p hp => ht.owed p (mem_append_right _ hp)
    · refine (ht.deps _ old hold).trans ?_
      rw [hcount, count_append, add_assoc]
    · rw [hcount, count_append, add_assoc]
    rcases mem_append.1 hp with hp | hp
    · exact ht.parent _ old hold p hp
    · exact ht.owed p (mem_append_left _ hp)
  · intro hnone
    have hcount : ∀ k, refCount (reqs.insert q.hash q) k = refCount reqs k + q.parents.count k :=
      fun k => total_insert_new hnone
    have hnot : ¬ Processed reqs q.hash := by
      rintro ⟨r, hr, -⟩
      rw [hnone] at hr
      cases hr
    refine ht.insert hq.request ?_ (fun k _ => ?_) ?_ (fun p hp => ht.owed p (mem_append_left _ hp))
      fun p hp => ht.owed p (mem_append_right _ hp)
    · obtain ⟨href, howed⟩ := ht.refCount_eq_zero hnot
      rw [count_append] at howed
      rw [hq.deps, hcount, href]
      push_cast
      omega
    · rw [hcount, count_append, add_assoc]
    · rintro p ⟨r, hr, hsome⟩
      have hne : p ≠ q.hash := fun heq => hnot (heq ▸ ⟨r, hr, hsome⟩)
      exact ⟨r, (Finmap.lookup_insert_of_ne _ hne).trans hr, hsome⟩

theorem TableOk.erase (ht : TableOk w P reqs owed)
    (hr : reqs.lookup h = some r) (hdeps : r.deps = 0) :
    TableOk w P (reqs.erase h) (r.parents ++ owed) ∧
      (∀ k q, reqs.lookup k = some q → h ∉ q.parents) := by
  have hzero := ht.deps h r hr
  have href : refCount reqs h = 0 := by omega
  have howed : owed.count h = 0 := by omega
  have hnone : ∀ k q, reqs.lookup k = some q → h ∉ q.parents := fun k q hq =>
    count_eq_zero.1 (eq_zero_of_total (f := fun r : Request => r.parents.count h) href hq)
  have hlookup : ∀ {k q}, (reqs.erase h).lookup k = some q → k ≠ h ∧ reqs.lookup k = some q :=
    of_lookup_erase
  have hproc : ∀ {p}, p ≠ h → Processed reqs p → Processed (reqs.erase h) p := by
    rintro p hp ⟨q, hq, hsome⟩
    exact ⟨q, (Finmap.lookup_erase_ne hp).trans hq, hsome⟩
  refine ⟨⟨fun k q hq => ?_, fun k q hq => ?_, fun k q hq p hp => ?_, fun p hp => ?_⟩, hnone⟩
  · exact ht.request k q (hlookup hq).2
  · have htotal : refCount (reqs.erase h) k + r.parents.count k = refCount reqs k :=
      total_erase hr
    have hq' := ht.deps k q (hlookup hq).2
    rw [hq', count_append]
    omega
  · refine hproc (fun heq => hnone k q (hlookup hq).2 (heq ▸ hp)) ?_
    exact ht.parent k q (hlookup hq).2 p hp
  · rcases mem_append.1 hp with hp | hp
    · exact hproc (fun heq => hnone h r hr (heq ▸ hp)) (ht.parent h r hr p hp)
    · refine hproc (fun heq => ?_) (ht.owed p hp)
      exact count_eq_zero.1 howed (heq ▸ hp)

/-! ### Scheduling -/

/-- A change that only adds requests and references. -/
structure Grows (s s' : TrieSync) : Prop where
  database : s'.database = s.database
  membatch : s'.membatch = s.membatch
  request : ∀ k q, s.requests.lookup k = some q →
    ∃ q', s'.requests.lookup k = some q' ∧ q.parents ⊆ q'.parents ∧ q'.data = q.data
  fresh : ∀ k q', s'.requests.lookup k = some q' → q'.data.isSome = true →
    ∃ q, s.requests.lookup k = some q ∧ q'.data = q.data

omit [Crypto] in
theorem Grows.refl (s : TrieSync) : Grows s s :=
  ⟨rfl, rfl, fun _ q hq => ⟨q, hq, List.Subset.refl _, rfl⟩, fun _ q hq _ => ⟨q, hq, rfl⟩⟩

omit [Crypto] in
theorem Grows.trans {s' s'' : TrieSync} (h : Grows s s') (h' : Grows s' s'') : Grows s s'' := by
  refine ⟨h'.database.trans h.database, h'.membatch.trans h.membatch, fun k q hq => ?_,
    fun k q hq hsome => ?_⟩
  · obtain ⟨q', hq', hsub, hdata⟩ := h.request k q hq
    obtain ⟨q'', hq'', hsub', hdata'⟩ := h'.request k q' hq'
    exact ⟨q'', hq'', List.Subset.trans hsub hsub', hdata'.trans hdata⟩
  · obtain ⟨q', hq', hdata⟩ := h'.fresh k q hq hsome
    obtain ⟨q'', hq'', hdata'⟩ := h.fresh k q' hq' (hdata ▸ hsome)
    exact ⟨q'', hq'', hdata.trans hdata'⟩

omit [Crypto] in
theorem grows_insert {r' : Request} (queue : List (Hash × ℕ))
    (hold : ∀ r, s.requests.lookup h = some r → r.parents ⊆ r'.parents ∧ r'.data = r.data)
    (hnew : s.requests.lookup h = none → r'.data = none) :
    Grows s { s with requests := s.requests.insert h r', queue := queue } := by
  refine ⟨rfl, rfl, fun k q hq => ?_, fun k q hq hsome => ?_⟩
  · by_cases hk : k = h
    · subst hk
      exact ⟨r', Finmap.lookup_insert _, hold q hq⟩
    · exact ⟨q, (Finmap.lookup_insert_of_ne _ hk).trans hq, List.Subset.refl _, rfl⟩
  rcases of_lookup_insert hq with ⟨rfl, rfl⟩ | ⟨-, hq⟩
  · cases hr : s.requests.lookup k with
    | some r => exact ⟨r, rfl, (hold r hr).2⟩
    | none =>
      rw [hnew hr] at hsome
      cases hsome
  · exact ⟨q, hq, rfl⟩

omit [Crypto] in
theorem grows_setRequest (hr : s.requests.lookup h = some r) (hparents : r'.parents = r.parents)
    (hdata : r'.data = r.data) : Grows s (s.setRequest h r') := by
  refine grows_insert s.queue (fun q hq => ?_) fun hnone => ?_
  · obtain rfl := Option.some.inj (hr.symm.trans hq)
    exact ⟨hparents ▸ List.Subset.refl _, hdata⟩
  · rw [hr] at hnone
    cases hnone

omit [Crypto] in
theorem Grows.present (h : Grows s s') {k : Hash} (hk : Present s k) : Present s' k := by
  unfold Present at hk ⊢
  rwa [h.database, h.membatch]

omit [Crypto] in
theorem Grows.awaits (hg : Grows s s') (ha : Awaits s todo h k) : Awaits s' todo h k := by
  refine ha.imp hg.present (.imp_left ?_)
  rintro ⟨q, hq, hmem⟩
  obtain ⟨q', hq', hsub, -⟩ := hg.request k q hq
  exact ⟨q', hq', hsub hmem⟩

omit [Crypto] in
theorem Grows.processed (hg : Grows s s') : Processed s'.requests h ↔ Processed s.requests h := by
  constructor
  · rintro ⟨q, hq, hsome⟩
    obtain ⟨q', hq', hdata⟩ := hg.fresh h q hq hsome
    exact ⟨q', hq', hdata ▸ hsome⟩
  · rintro ⟨q, hq, hsome⟩
    obtain ⟨q', hq', -, hdata⟩ := hg.request h q hq
    exact ⟨q', hq', hdata ▸ hsome⟩

theorem SyncOk.grow {todo' : List Request} (h : SyncOk w P s todo owed without) (hg : Grows s s')
    (ht : TableOk w P s'.requests (todo'.flatMap Request.parents ++ owed'))
    (htodo : ∀ k q, q ∈ todo → k ∈ q.parents → Awaits s' todo' k q.hash) :
    SyncOk w P s' todo' owed' without := by
  refine ⟨ht, ?_, fun k hne hp j hj => ?_, ?_⟩
  · rw [hg.database, hg.membatch]
    exact h.store
  · rcases h.waiting k hne (hg.processed.1 hp) j hj with ha | ⟨q, hq, hmem⟩ | ⟨q, hq, rfl, hmem⟩
    · exact .inl (hg.present ha)
    · obtain ⟨q', hq', hsub, -⟩ := hg.request j q hq
      exact .inr (.inl ⟨q', hq', hsub hmem⟩)
    · exact htodo k q hq hmem
  · rcases h.root with hroot | ⟨q, hq⟩
    · exact .inl (hg.present hroot)
    · obtain ⟨q', hq', -⟩ := hg.request _ q hq
      exact .inr ⟨q', hq'⟩

omit [Crypto] in
theorem scheduled_spec (hdata : q.data = none) (s : TrieSync) : Grows s (s.scheduled q) ∧
      ∃ q', (s.scheduled q).requests.lookup q.hash = some q' ∧ q.parents ⊆ q'.parents := by
  unfold scheduled
  cases hold : s.requests.lookup q.hash with
  | some old =>
    refine ⟨grows_insert s.queue (fun r hr => ?_) fun hnone => ?_,
      _, Finmap.lookup_insert _, subset_append_right _ _⟩
    · obtain rfl := Option.some.inj (hold.symm.trans hr)
      exact ⟨subset_append_left _ _, rfl⟩
    · rw [hold] at hnone
      cases hnone
  | none =>
    refine ⟨grows_insert _ (fun r hr => ?_) fun _ => hdata,
      q, Finmap.lookup_insert _, List.Subset.refl _⟩
    rw [hold] at hr
    cases hr

/-- **Scheduling a request that is owed.** -/
theorem SyncOk.schedule (h : SyncOk w P s (q :: todo) owed without) (hq : TodoOk w P q) :
    SyncOk w P (s.scheduled q) todo owed without ∧ Grows s (s.scheduled q) ∧
      ∀ k ∈ q.parents, Awaits (s.scheduled q) todo k q.hash := by
  obtain ⟨hg, q', hq', hsub⟩ := scheduled_spec hq.data s
  have hawaits : ∀ k ∈ q.parents, Awaits (s.scheduled q) todo k q.hash := fun k hk =>
    .inr (.inl ⟨q', hq', hsub hk⟩)
  have ht : TableOk w P s.requests (q.parents ++ (todo.flatMap Request.parents ++ owed)) := by
    have := h.table
    rwa [flatMap_cons, append_assoc] at this
  refine ⟨h.grow hg ?_ fun k r hr hk => ?_, hg, hawaits⟩
  · unfold scheduled
    cases hold : s.requests.lookup q.hash with
    | some old => exact (ht.schedule hq).1 old hold
    | none => exact (ht.schedule hq).2 hold
  · rcases mem_cons.1 hr with rfl | hr
    · exact hawaits k hk
    · exact .inr (.inr ⟨r, hr, rfl, hk⟩)

theorem exists_scheduleAll (h : SyncOk w P s todo owed without) (htodo : ∀ q ∈ todo, TodoOk w P q) :
    ∃ s', TrieSync.scheduleAll todo s = .ok () s' ∧ SyncOk w P s' [] owed without := by
  induction todo generalizing s with
  | nil => exact ⟨s, rfl, h⟩
  | cons q todo ih =>
    obtain ⟨hok, -, -⟩ := h.schedule (htodo q mem_cons_self)
    exact ih hok fun r hr => htodo r (mem_cons_of_mem q hr)

/-! ### Storing -/

theorem SyncOk.present (h : SyncOk w P s [] owed none)
    (hr : s.requests.lookup hash = some r) (hsome : r.data.isSome = true) (hdeps : r.deps = 0)
    {k : Hash} (hk : Needs w hash k) : Present s k := by
  have hnone := (h.table.erase hr hdeps).2
  rcases h.waiting hash (by simp) ⟨r, hr, hsome⟩ k hk with hp | ⟨q, hq, hmem⟩ | ⟨q, hq, -⟩
  · exact hp
  · exact absurd hmem (hnone k q hq)
  · cases hq

theorem SyncOk.stored (h : SyncOk w P s [] owed none) {e : Bytes}
    (hr : s.requests.lookup hash = some r) (he : r.data = some e) (hdeps : r.deps = 0) :
    SyncOk w P (s.store hash e) [] (r.parents ++ owed) none := by
  have hsome : r.data.isSome = true := by rw [he]; rfl
  obtain ⟨htable, hnone⟩ := h.table.erase hr hdeps
  have hpresent : ∀ {k}, Present s k → Present (s.store hash e) k := fun hk =>
    hk.imp_left fun hk => mem_append_left _ hk
  have hself : Present (s.store hash e) hash := .inl (by simp [TrieSync.store])
  refine ⟨htable, ⟨h.store.addressed, h.store.closed, fun k d hd => ?_, fun k => ?_,
    fun pre k post hsplit j hj => ?_⟩, fun k _ hp j hj => ?_, ?_⟩
  · rcases of_lookup_insert hd with ⟨rfl, rfl⟩ | ⟨-, hd⟩
    · exact (h.table.request k r hr).data _ he
    · exact h.store.batch k d hd
  · simp only [TrieSync.store, mem_append, mem_singleton, lookup_insert_eq]
    split_ifs with hk
    · simp [hk]
    · simp [hk, h.store.mem k]
  · -- the new element is the last one
    rcases eq_nil_or_concat post with rfl | ⟨post', last, rfl⟩
    · have hlast := append_inj_left' hsplit rfl
      have heq := append_inj_right' hsplit rfl
      obtain rfl := (List.cons.inj heq).1
      rw [← hlast]
      exact h.present hr hsome hdeps hj
    · have hsplit' : s.membatch.order ++ [hash] = (pre ++ k :: post') ++ [last] := by
        simpa [TrieSync.store] using hsplit
      exact h.store.order pre k post' (append_inj_left' hsplit' rfl) j hj
  · obtain ⟨q, hq, hqsome⟩ := hp
    obtain ⟨-, hq'⟩ := of_lookup_erase hq
    rcases h.waiting k (by simp) ⟨q, hq', hqsome⟩ j hj with hp | ⟨q', hq', hmem⟩ | ⟨q', hq', -⟩
    · exact .inl (hpresent hp)
    · by_cases hj : j = hash
      · subst hj
        exact .inl hself
      · exact .inr (.inl ⟨q', (Finmap.lookup_erase_ne hj).trans hq', hmem⟩)
    · cases hq'
  · rcases h.root with hroot | ⟨q, hq⟩
    · exact .inl (hpresent hroot)
    by_cases hk : (StateEntry.account w.accounts).key = hash
    · exact .inl (hk ▸ hself)
    · exact .inr ⟨q, (Finmap.lookup_erase_ne hk).trans hq⟩

theorem SyncOk.notified {p : Hash} (h : SyncOk w P s [] (p :: owed) none) :
    ∃ q, s.requests.lookup p = some q ∧ q.data.isSome = true ∧
      SyncOk w P (s.setRequest p { q with deps := q.deps - 1 }) [] owed none := by
  obtain ⟨q, hq, hsome⟩ := h.table.owed p mem_cons_self
  refine ⟨q, hq, hsome, ?_⟩
  have hok := h.table.request p q hq
  have htable : TableOk w P (s.requests.insert p { q with deps := q.deps - 1 }) owed := by
    refine h.table.update hq { hok with } rfl id ?_ (fun k hk => ?_)
      fun k hk => h.table.owed k (mem_cons_of_mem p hk)
    · simp
    · simp [Ne.symm hk]
  exact h.grow (grows_setRequest hq rfl rfl) htable nofun

omit [Crypto] in
theorem notify_cons {commit : Hash → TrieSync.SyncM Unit} {p : Hash}
    (hq : s.requests.lookup p = some q) (parents : List Hash) :
    TrieSync.notify commit (p :: parents) s =
      ((if q.deps - 1 = 0 then commit p else pure ()) >>= fun _ =>
        TrieSync.notify commit parents) (s.setRequest p { q with deps := q.deps - 1 }) := by
  rw [notify, get_bind, hq]
  dsimp only
  by_cases hdeps : q.deps - 1 = 0
  · rw [if_pos hdeps, if_pos hdeps]
    rfl
  · rw [if_neg hdeps, if_neg hdeps]
    rfl

theorem exists_notify {commit : Hash → TrieSync.SyncM Unit} {rounds : ℕ}
    (hcommit : ∀ s owed p q, SyncOk w P s [] owed none → s.requests.lookup p = some q →
      q.data.isSome = true → q.deps = 0 → s.requests.keys.card ≤ rounds →
      ∃ s', commit p s = .ok () s' ∧ SyncOk w P s' [] owed none ∧
        s'.requests.keys.card ≤ rounds) (parents : List Hash)
    (h : SyncOk w P s [] (parents ++ owed) none) (hcard : s.requests.keys.card ≤ rounds) :
    ∃ s', TrieSync.notify commit parents s = .ok () s' ∧
      SyncOk w P s' [] owed none ∧ s'.requests.keys.card ≤ rounds := by
  induction parents generalizing s with
  | nil => exact ⟨s, rfl, h, hcard⟩
  | cons p parents ih =>
    obtain ⟨q, hq, hsome, hok⟩ := h.notified
    have hcard' : (s.setRequest p { q with deps := q.deps - 1 }).requests.keys.card ≤ rounds := by
      rw [setRequest, card_keys_insert hq]
      exact hcard
    by_cases hdeps : q.deps - 1 = 0
    · obtain ⟨s', hrun, hok', hcardB⟩ :=
        hcommit _ _ p _ hok (Finmap.lookup_insert _) hsome hdeps hcard'
      obtain ⟨s'', hrun', hok'', hcardC⟩ := ih hok' hcardB
      refine ⟨s'', ?_, hok'', hcardC⟩
      rw [notify_cons hq, if_pos hdeps, bind_ok hrun]
      exact hrun'
    · obtain ⟨s'', hrun', hok'', hcardC⟩ := ih hok hcard'
      refine ⟨s'', ?_, hok'', hcardC⟩
      rw [notify_cons hq, if_neg hdeps]
      exact hrun'

/-- **A request that waits for nothing is stored, with all that waited for it only.**  The number
of requests bounds the calls. -/
theorem exists_commit (rounds : ℕ) (h : SyncOk w P s [] owed none)
    (hr : s.requests.lookup hash = some r) (hsome : r.data.isSome = true) (hdeps : r.deps = 0)
    (hcard : s.requests.keys.card ≤ rounds) :
    ∃ s', TrieSync.commit rounds hash s = .ok () s' ∧ SyncOk w P s' [] owed none ∧
      s'.requests.keys.card ≤ rounds := by
  obtain ⟨e, he⟩ := Option.isSome_iff_exists.1 hsome
  induction rounds generalizing s owed hash r e with
  | zero =>
    have hmem := mem_keys_of_lookup hr
    rw [Finset.card_eq_zero.1 (Nat.le_zero.1 hcard)] at hmem
    cases hmem
  | succ rounds ih =>
    have hcard' : (s.store hash e).requests.keys.card ≤ rounds := by
      have := card_keys_erase hr
      change (s.requests.erase hash).keys.card ≤ rounds
      omega
    obtain ⟨s', hrun, hok, hcardB⟩ := exists_notify (fun s owed p q h hq hsome hdeps hcard => by
        obtain ⟨e, he⟩ := Option.isSome_iff_exists.1 hsome
        exact ih h hq hsome hdeps hcard e he) r.parents (h.stored hr he hdeps) hcard'
    refine ⟨s', ?_, hok, hcardB.trans (Nat.le_succ _)⟩
    rw [commit, get_bind, hr]
    change notify (commit rounds) r.parents (s.store hash (r.data.getD [])) = _
    rw [he]
    exact hrun

end MerkleTrie
