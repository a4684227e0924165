/-
**The steps of a download.**

What arrives is the data of an entry of the state, and the request for it tells what the entry is:
a node of the account trie, a node of a storage trie, or a code.  Processing a node requests what
the node refers to: its children that are held by their hash, and for the value of an account its
storage trie and its code.  A child that is embedded in the node is not looked at, and does not have
to be, since it refers to nothing.

The same bytes may be several entries at once; they are requested as the first of them that is met.
So the results need that equal byte strings of the state refer to the same byte strings.

Main results:

* `exists_childRequests` — **the children of a node**;
* `SyncOk.processItem`, `SyncOk.process` — **the data of an entry is processed**.
-/

import GoHpb.TrieSyncTable

namespace MerkleTrie

open FailState FinmapTotal Patricia List TrieSync TrieSync StateEntry Crypto FixedBytes

section Steps

variable [Crypto] {w : StateTries} {P : Set Bytes} {owed : List Hash} {s : TrieSync}
  {todo : List Request} {without : Option Hash}

/-! ### Requests from a leaf -/

theorem exists_ref_of_needs (hP : Digests P) (hw : w.Sound P) (hu : w.Unambiguous) {x : StateEntry}
    (hx : w.Reachable x) {k : Hash} (hk : Needs w x.key k) : ∃ z ∈ w.refs x, z.key = k := by
  obtain ⟨x', y, hx', hy, hkey, rfl⟩ := hk
  have hdata : x'.data = x.data := hP.inj (hx'.entryOk hw).mem (hx.entryOk hw).mem hkey
  obtain ⟨z, hz, heq⟩ := hu x' x hx' hx hdata y hy
  exact ⟨z, hz, congrArg keccak256 heq⟩

variable {t : TrieTree} {hash : Hash} {c : TrieTree} {p : Hash} {r : Request} {callback : Bool}
  {t c : TrieTree} {req : Request} {q : Request} {v : Bytes}

theorem todoOk_of_reachable {x : StateEntry} (hx : w.Reachable x) (hhash : q.hash = x.key)
    (hrole : RoleOf q x) (hdata : q.data = none) (hdeps : q.deps = 0) : TodoOk w P q :=
  ⟨⟨rfl, ⟨x, hx, hhash.symm, hrole⟩, fun e he => by rw [hdata] at he; cases he⟩, hdata, hdeps⟩

theorem SyncOk.exists_link (h : SyncOk w P s [] owed without) (hq : TodoOk w P q)
    (hparents : q.parents = []) (hp : Processed s.requests p)
    (hzero : p ≠ zero 32) (err : SyncErr) :
    ∃ s', link q p err s = .ok () s' ∧ SyncOk w P s' [] owed without ∧
      Grows s s' ∧ Awaits s' [] p q.hash := by
  obtain ⟨a, ha, hsome⟩ := hp
  have hok := h.table.request p a ha
  have hg : Grows s (s.setRequest p { a with deps := a.deps + 1 }) := grows_setRequest ha rfl rfl
  have htable : TableOk w P (s.requests.insert p { a with deps := a.deps + 1 }) (p :: owed) := by
    refine h.table.update ha { hok with } rfl id ?_ (fun k hk => ?_) fun k hk => ?_
    · simp
    · simp [Ne.symm hk]
    rcases mem_cons.1 hk with rfl | hk
    · exact ⟨a, ha, hsome⟩
    · exact h.table.owed k hk
  have hq' : TodoOk w P { q with parents := q.parents ++ [p] } :=
    ⟨⟨hq.request.hash, hq.request.entry, hq.request.data⟩, hq.data, hq.deps⟩
  have hready : SyncOk w P (s.setRequest p { a with deps := a.deps + 1 })
      [{ q with parents := q.parents ++ [p] }] owed without := by
    refine h.grow hg ?_ nofun
    rw [flatMap_cons, flatMap_nil, hparents]
    exact htable
  obtain ⟨hok', hg', hawaits⟩ := hready.schedule hq'
  refine ⟨_, ?_, hok', hg.trans hg', hawaits p (by simp)⟩
  unfold link
  rw [if_neg hzero, get_bind, ha]
  rfl

/-- A step of a leaf: nothing is lost, and the parent waits for some hashes. -/
def Step (w : StateTries) (P : Set Bytes) (without : Option Hash) (p : Hash)
    (x : TrieSync.SyncM Unit) (s : TrieSync) (ks : List Hash) : Prop :=
  ∃ s', x s = .ok () s' ∧ SyncOk w P s' [] [] without ∧ Grows s s' ∧
    ∀ k ∈ ks, Awaits s' [] p k

theorem Step.skip (h : SyncOk w P s [] [] without) {c : TrieSync → Prop}
    [DecidablePred c] (hc : c s) (x : TrieSync.SyncM Unit) :
    Step w P without p (MonadState.get >>= fun s => if c s then pure () else x) s [] := by
  refine ⟨s, ?_, h, Grows.refl s, nofun⟩
  rw [get_bind, if_pos hc]
  rfl

theorem Step.request (h : SyncOk w P s [] [] without) (hq : TodoOk w P q)
    (hparents : q.parents = []) (hp : Processed s.requests p) (hzero : p ≠ zero 32)
    (err : SyncErr) {c : TrieSync → Prop} [DecidablePred c] (hc : c s → Present s q.hash) :
    Step w P without p
      (MonadState.get >>= fun s => if c s then pure () else link q p err) s [q.hash] := by
  by_cases hcond : c s
  · obtain ⟨s', hrun, hok, hg, -⟩ := Step.skip h (p := p) hcond (link q p err)
    refine ⟨s', hrun, hok, hg, fun k hk => ?_⟩
    obtain rfl := mem_singleton.1 hk
    exact hg.awaits (.inl (hc hcond))
  obtain ⟨s', hrun, hok, hg, hawaits⟩ := h.exists_link hq hparents hp hzero err
  refine ⟨s', ?_, hok, hg, fun k hk => ?_⟩
  · rw [get_bind, if_neg hcond]
    exact hrun
  · obtain rfl := mem_singleton.1 hk
    exact hawaits

theorem step_addSubTrie (hP : RootDigests P) (h : SyncOk w P s [] [] without)
    (hp : Processed s.requests p) (hzero : p ≠ zero 32)
    (ht : t = .nil ∨ isNode t = true ∧ w.Reachable (.storage t) ∧ enc t ∈ P) (depth : ℕ) :
    Step w P without p (addSubTrie (rootHash t) depth p false) s
      (if isNode t then [(storage t).key] else []) := by
  rcases ht with rfl | ⟨hnode, hreach, hmem⟩
  · exact Step.skip h (.inl rfl) _
  have hroot : rootHash t = (storage t).key := rootHash_of_isNode hnode
  rw [if_pos hnode, ← hroot]
  refine Step.request h (todoOk_of_reachable hreach hroot ⟨rfl, rfl⟩ rfl rfl) rfl hp hzero _
    fun hcond => ?_
  rcases hcond with hempty | hbatch | hlocal
  · rw [hroot] at hempty
    exact absurd hempty (hP.ne_emptyRootHash hnode hmem)
  · exact .inl ((h.store.mem _).1 hbatch)
  unfold isLocal at hlocal
  cases hdb : s.database.lookup (rootHash t) with
  | none => rw [hdb] at hlocal; cases hlocal
  | some blob => exact .inr (by rw [Stored, hdb]; rfl)

theorem present_of_has (h : SyncOk w P s todo owed without) {k : Hash} (hk : s.has k = true) :
    Present s k := by
  rcases Bool.or_eq_true_iff.1 hk with hk | hk
  · exact .inl ((h.store.mem k).1 hk)
  · exact .inr hk

theorem step_addRawEntry (hP : RootDigests P) (hempty : [] ∈ P) (h : SyncOk w P s [] [] without)
    (hp : Processed s.requests p) (hzero : p ≠ zero 32) {c : Bytes}
    (hc : c = [] ∨ w.Reachable (code c) ∧ c ∈ P) (depth : ℕ) :
    Step w P without p (addRawEntry (keccak256 c) depth p) s
      (if c = [] then [] else [(code c).key]) := by
  by_cases hnil : c = []
  · rw [if_pos hnil]
    exact Step.skip h (Or.inl (by rw [hnil]; rfl)) _
  obtain ⟨hreach, hmem⟩ := hc.resolve_left hnil
  rw [if_neg hnil]
  refine Step.request h (todoOk_of_reachable hreach rfl ?_ rfl rfl) rfl hp hzero _ fun hcond => ?_
  · exact rfl
  rcases hcond with hstate | hhas
  · exact absurd (hP.inj hmem hempty hstate) hnil
  · exact present_of_has h hhas

theorem step_leafCallback (hP : RootDigests P) (hempty : [] ∈ P) (h : SyncOk w P s [] [] without)
    (hp : Processed s.requests p) (hzero : p ≠ zero 32) (hv : w.LeafOk P v)
    (hlen : v.length < 2 ^ 64) (hreach : ∀ y ∈ w.leafRefs v, w.Reachable y) :
    Step w P without p (leafCallback v p) s ((w.leafRefs v).map key) := by
  obtain ⟨nonce, balance, hacc⟩ := hv.account
  have hdecode : decodeAccount v = .ok (mkAccount nonce balance (rootHash (w.storage v))
      (keccak256 (w.code v)).bytes) := by
    have hlen' := hlen
    rw [hacc] at hlen'
    exact (congrArg decodeAccount hacc).trans (decodeAccount_encode hlen')
  have hstorage : w.storage v = .nil ∨ isNode (w.storage v) = true ∧
      w.Reachable (.storage (w.storage v)) ∧ enc (w.storage v) ∈ P := by
    refine hv.storage.imp_right fun hnode => ⟨hnode, hreach _ ?_, ?_⟩
    · exact mem_append_left _ (by rw [if_pos hnode]; exact mem_singleton_self _)
    · exact hv.pool _ (enc_mem_encodings hnode)
  have hcode : w.code v = [] ∨ w.Reachable (.code (w.code v)) ∧ w.code v ∈ P := by
    by_cases hnil : w.code v = []
    · exact .inl hnil
    refine .inr ⟨hreach _ (mem_append_right _ ?_), hv.code⟩
    rw [if_neg hnil]
    exact mem_singleton_self _
  obtain ⟨s₁, hrun₁, hok₁, hg₁, haw₁⟩ := step_addSubTrie hP h hp hzero hstorage 64
  obtain ⟨s₂, hrun₂, hok₂, hg₂, haw₂⟩ :=
    step_addRawEntry hP hempty hok₁ (hg₁.processed.2 hp) hzero hcode 64
  refine ⟨s₂, ?_, hok₂, hg₁.trans hg₂, fun k hk => ?_⟩
  · unfold leafCallback
    rw [hdecode]
    change (addSubTrie (rootHash (w.storage v)) 64 p false >>= fun _ =>
      addRawEntry (setBytes 32 (keccak256 (w.code v)).bytes) 64 p) s = _
    rw [bind_ok hrun₁, setBytes_self]
    exact hrun₂
  obtain ⟨y, hy, rfl⟩ := mem_map.1 hk
  rcases mem_append.1 hy with hy | hy
  · split_ifs at hy with hnode
    · obtain rfl := mem_singleton.1 hy
      refine hg₂.awaits (haw₁ _ ?_)
      rw [if_pos hnode]
      exact mem_singleton_self _
    · cases hy
  · split_ifs at hy with hnil
    · cases hy
    obtain rfl := mem_singleton.1 hy
    refine haw₂ _ ?_
    rw [if_neg hnil]
    exact mem_singleton_self _

/-! ### Requests from a node -/

/-- The entry of a child, in the same trie. -/
def nodeEntry (callback : Bool) (t : TrieTree) : StateEntry :=
  if callback then .account t else .storage t

theorem nodeEntry_data (callback : Bool) (t : TrieTree) : (nodeEntry callback t).data = enc t := by
  cases callback with
  | true | false => rfl

theorem nodeEntry_ok (h : w.EntryOk P (nodeEntry callback t)) : isNode t = true ∧ HexOk t := by
  cases callback with
  | true | false => exact ⟨h.1, h.2.1⟩

/-- What a child of a node is good for: its hash, or the value of an account. -/
def kidRefs (w : StateTries) (callback : Bool) (c : TrieTree) : List StateEntry :=
  (if ByHash c then [nodeEntry callback c] else []) ++
    match callback, c with
    | true, .value v => w.leafRefs v
    | _, _ => []

theorem step_callback (hP : RootDigests P) (hempty : [] ∈ P) (h : SyncOk w P s [] [] without)
    (hp : Processed s.requests req.hash) (hzero : req.hash ≠ zero 32)
    (hc : ∀ v, c = .value v → req.callback = true → w.LeafOk P v ∧
      v.length < 2 ^ 64 ∧ ∀ y ∈ w.leafRefs v, w.Reachable y) :
    Step w P without req.hash (notifyLeaf req (linkNode 0 c)) s
      ((match req.callback, c with
        | true, .value v => w.leafRefs v
        | _, _ => []).map key) := by
  have hskip : Step w P without req.hash (pure ()) s [] := ⟨s, rfl, h, Grows.refl s, nofun⟩
  unfold notifyLeaf
  cases hcb : req.callback with
  | false => exact hskip
  | true =>
    cases c with
    | value v =>
      obtain ⟨hv, hlen, hreach⟩ := hc v rfl hcb
      exact step_leafCallback hP hempty h hp hzero hv hlen hreach
    | nil => exact hskip
    | short k d | full ds =>
      unfold linkNode
      split_ifs <;> exact hskip

theorem linkNode_of_byHash (hc : ByHash c) :
    linkNode 0 c = .hash (keccak256 (enc c)) := if_pos hc

theorem isHash_linkNode (hc : ¬ ByHash c) : (linkNode 0 c).isHash = false := by
  rw [show linkNode 0 c = _ from if_neg hc]
  exact isHash_expand 0 none c

theorem unknownChild_spec (h : SyncOk w P s todo owed without)
    (hc : ByHash c → w.Reachable (nodeEntry req.callback c)) (depth : ℕ) :
    (∀ q ∈ unknownChild req (linkNode 0 c) depth s,
        TodoOk w P q ∧ q.parents = [req.hash]) ∧
      (ByHash c → Awaits s (unknownChild req (linkNode 0 c) depth s) req.hash
        (nodeEntry req.callback c).key) := by
  by_cases hbig : ByHash c
  · have hlink : linkNode 0 c = .hash (nodeEntry req.callback c).key := by
      rw [linkNode_of_byHash hbig]
      unfold nodeEntry
      split_ifs <;> rfl
    have hrole : RoleOf ⟨(nodeEntry req.callback c).key, none, false, [req.hash], depth, 0,
        req.callback⟩ (nodeEntry req.callback c) := by
      cases req.callback with
      | true | false => exact ⟨rfl, rfl⟩
    rw [hlink]
    unfold unknownChild
    dsimp only
    by_cases hhas : s.has (nodeEntry req.callback c).key = true
    · rw [if_pos hhas]
      exact ⟨nofun, fun _ => .inl (present_of_has h hhas)⟩
    rw [if_neg hhas]
    refine ⟨fun q hq => ?_, fun _ => .inr (.inr ⟨_, mem_singleton_self _, rfl, ?_⟩)⟩
    · obtain rfl := mem_singleton.1 hq
      exact ⟨todoOk_of_reachable (hc hbig) rfl hrole rfl rfl, rfl⟩
    · exact mem_singleton_self _
  · have hnone : unknownChild req (linkNode 0 c) depth s = [] := by
      have hnot := isHash_linkNode hbig
      cases hn : linkNode 0 c with
      | hash k => rw [hn] at hnot; cases hnot
      | _ => rfl
    rw [hnone]
    exact ⟨nofun, fun hb => absurd hb hbig⟩

omit [Crypto] in
theorem Awaits.mono {todo' : List Request} {h k : Hash} (ha : Awaits s todo h k)
    (hsub : todo ⊆ todo') : Awaits s todo' h k :=
  ha.imp_right fun ha => ha.imp_right fun ⟨q, hq, hrest⟩ => ⟨q, hsub hq, hrest⟩

/-- **The children of a node**: what they refer to is present, requested or to be requested. -/
theorem exists_childRequests (hP : RootDigests P) (hempty : [] ∈ P)
    (h : SyncOk w P s [] [] without) (hp : Processed s.requests req.hash)
    (hzero : req.hash ≠ zero 32) (l : List (TrieTree × ℕ))
    (hbig : ∀ c ∈ l, ByHash c.1 → w.Reachable (nodeEntry req.callback c.1))
    (hleaf : ∀ c ∈ l, ∀ v, c.1 = .value v → req.callback = true → w.LeafOk P v ∧
      v.length < 2 ^ 64 ∧ ∀ y ∈ w.leafRefs v, w.Reachable y) :
    ∃ qs s', childRequests req (l.map fun c => (linkNode 0 c.1, c.2)) s =
        .ok qs s' ∧ SyncOk w P s' [] [] without ∧ Grows s s' ∧
      (∀ q ∈ qs, TodoOk w P q ∧ q.parents = [req.hash]) ∧
      ∀ c ∈ l, ∀ y ∈ kidRefs w req.callback c.1, Awaits s' qs req.hash y.key := by
  induction l generalizing s with
  | nil => exact ⟨[], s, rfl, h, Grows.refl s, nofun, nofun⟩
  | cons c l ih =>
    obtain ⟨s₁, hrun₁, hok₁, hg₁, haw₁⟩ :=
      step_callback hP hempty h hp hzero (hleaf c mem_cons_self)
    obtain ⟨htodo, hhere⟩ := unknownChild_spec hok₁ (hbig c mem_cons_self) c.2
    obtain ⟨qs, s₂, hrun₂, hok₂, hg₂, htodo₂, haw₂⟩ := ih hok₁ (hg₁.processed.2 hp)
      (fun d hd => hbig d (mem_cons_of_mem c hd))
      fun d hd => hleaf d (mem_cons_of_mem c hd)
    refine ⟨unknownChild req (linkNode 0 c.1) c.2 s₁ ++ qs, s₂, ?_, hok₂, hg₁.trans hg₂,
      fun q hq => ?_, fun d hd y hy => ?_⟩
    · rw [map_cons, childRequests, bind_ok hrun₁]
      change (childRequests req (l.map fun c => (linkNode 0 c.1, c.2)) >>= fun more =>
        pure (unknownChild req (linkNode 0 c.1) c.2 s₁ ++ more)) s₁ = _
      rw [bind_ok hrun₂]
      rfl
    · rcases mem_append.1 hq with hq | hq
      · exact htodo q hq
      · exact htodo₂ q hq
    rcases mem_cons.1 hd with rfl | hd
    · rcases mem_append.1 hy with hy | hy
      · split_ifs at hy with hb
        · obtain rfl := mem_singleton.1 hy
          exact (hg₂.awaits (hhere hb)).mono (subset_append_left _ _)
        · cases hy
      · have hmem := mem_map_of_mem (f := key) hy
        exact (hg₂.awaits (haw₁ _ hmem)).mono (nil_subset _)
    · exact (haw₂ d hd y hy).mono (subset_append_right _ _)

/-- The children that the scheduler looks at. -/
def kidTrees (depth : ℕ) : TrieTree → List (TrieTree × ℕ)
  | .short k c => [(c, depth + k.length)]
  | .full cs => ((List.finRange 17).filter fun i => !(linkNode 0 (cs i)).isNil).map
      fun i => (cs i, depth + 1)
  | _ => []

theorem kids_expand (hnode : isNode t = true) (hash : Option Hash) (depth : ℕ) :
    kids depth (expand 0 hash t) =
      some ((kidTrees depth t).map fun c => (linkNode 0 c.1, c.2)) := by
  cases t with
  | nil | value v => cases hnode
  | short k c => rfl
  | full cs =>
    rw [kidTrees, map_map]
    rfl

/-- The children of a node. -/
inductive Child : TrieTree → TrieTree → Prop
  | short (k : List Nibble) (c : TrieTree) : Child (.short k c) c
  | full (cs : Fin 17 → TrieTree) (i : Fin 17) : Child (.full cs) (cs i)

theorem mem_kidTrees (depth : ℕ) (h : Child t c) (hc : ByHash c ∨ isValue c = true) :
    ∃ d, (c, d) ∈ kidTrees depth t := by
  cases h with
  | short k => exact ⟨_, mem_singleton_self _⟩
  | full cs i =>
    refine ⟨depth + 1, mem_map.2 ⟨i, mem_filter.2 ⟨mem_finRange i, ?_⟩, rfl⟩⟩
    rcases hc with hc | hc
    · rw [linkNode_of_byHash hc]
      rfl
    cases hci : cs i with
    | value v => rfl
    | _ => rw [hci] at hc; cases hc

theorem of_mem_kidTrees {depth d : ℕ} (h : (c, d) ∈ kidTrees depth t) : Child t c := by
  cases t with
  | nil | value v => cases h
  | short k c' =>
    obtain ⟨rfl, -⟩ := Prod.mk.inj (mem_singleton.1 h)
    exact .short k c
  | full cs =>
    obtain ⟨i, -, heq⟩ := mem_map.1 h
    exact (Prod.mk.inj heq).1 ▸ .full cs i

omit [Crypto] in
theorem mem_gather_iff {α : Type} {f g : TrieTree → List α} {x : α} (hnode : isNode t = true)
    (hshort : ∀ k c, g (.short k c) = f c)
    (hfull : ∀ cs, g (.full cs) = (List.ofFn fun i => f (cs i)).flatten) :
    x ∈ g t ↔ ∃ c, Child t c ∧ x ∈ f c := by
  cases t with
  | nil | value v => cases hnode
  | short k c =>
    rw [hshort]
    exact ⟨fun h => ⟨c, .short k c, h⟩, by rintro ⟨_, ⟨⟩, h⟩; exact h⟩
  | full cs =>
    rw [hfull, mem_flatten]
    constructor
    · rintro ⟨l, hl, hx⟩
      obtain ⟨i, rfl⟩ := mem_ofFn.1 hl
      exact ⟨cs i, .full cs i, hx⟩
    · rintro ⟨_, ⟨⟩, hx⟩
      exact ⟨_, mem_ofFn.2 ⟨_, rfl⟩, hx⟩

variable (hnode : isNode t = true)
include hnode

theorem mem_links_iff : c ∈ links t ↔ ByHash c ∧ Child t c := by
  rw [mem_gather_iff hnode (fun _ _ => by rw [links]) fun _ => by rw [links]]
  constructor
  · rintro ⟨d, hd, hmem⟩
    split_ifs at hmem with hbig
    · obtain rfl := mem_singleton.1 hmem
      exact ⟨hbig, hd⟩
    · rw [links_eq_nil_of_small fun hn => not_le.1 fun hle => hbig ⟨hn, hle⟩] at hmem
      cases hmem
  · rintro ⟨hbig, hd⟩
    exact ⟨c, hd, by rw [if_pos hbig]; exact mem_singleton_self c⟩

theorem mem_leafValues_iff :
    v ∈ leafValues t ↔ ∃ c, Child t c ∧ v ∈ if ByHash c then [] else leafValues c :=
  mem_gather_iff hnode (fun _ _ => by rw [leafValues]) fun _ => by rw [leafValues]

theorem mem_leafValues_of_child (h : Child t (.value v)) :
    v ∈ leafValues t := by
  refine (mem_leafValues_iff hnode).2 ⟨_, h, ?_⟩
  exact mem_singleton_self v

theorem child_of_mem_leafValues (hv : 32 ≤ v.length)
    (h : v ∈ leafValues t) : Child t (.value v) := by
  obtain ⟨d, hd, hmem⟩ := (mem_leafValues_iff hnode).1 h
  split_ifs at hmem with hbig
  · cases hmem
  cases d with
  | nil => cases hmem
  | value u =>
    obtain rfl := mem_singleton.1 hmem
    exact hd
  | short k c | full cs =>
    have := length_lt_of_small rfl (not_le.1 fun hle => hbig ⟨rfl, hle⟩) hmem
    omega

omit hnode

omit [Crypto] in
theorem Child.isNode (h : Child t c) : isNode t = true := by
  cases h <;> rfl

theorem Child.length_lt (h : Child t c) (hc : c = .value v) : v.length < (enc t).length := by
  have hlen : ∀ l, treeItem t = .list l → linkItem c ∈ l → v.length < (enc t).length := by
    intro l hl hmem
    have hlt := length_encode_lt_of_mem hmem
    rw [← hl, hc] at hlt
    exact lt_of_le_of_lt (Rlp.length_le_encodeString v) hlt
  cases h with
  | short k => exact hlen _ (treeItem_short _ _) (by simp)
  | full cs i => exact hlen _ (treeItem_full cs) (mem_ofFn.2 ⟨i, rfl⟩)

theorem mem_refs_of_kid {depth : ℕ} {c : TrieTree × ℕ} (hc : c ∈ kidTrees depth t)
    (hbig : ByHash c.1) : nodeEntry callback c.1 ∈ w.refs (nodeEntry callback t) := by
  have hchild := of_mem_kidTrees hc
  have hlink : c.1 ∈ links t := (mem_links_iff hchild.isNode).2 ⟨hbig, hchild⟩
  cases callback with
  | true => exact mem_append_left _ (mem_map_of_mem hlink)
  | false => exact mem_map_of_mem hlink

theorem exists_kid_of_ref (hok : w.EntryOk P (nodeEntry callback t)) (depth : ℕ) {z : StateEntry}
    (hz : z ∈ w.refs (nodeEntry callback t)) :
    ∃ c ∈ kidTrees depth t, z ∈ kidRefs w callback c.1 := by
  have hlink : ∀ c ∈ links t, ∃ d ∈ kidTrees depth t,
      nodeEntry callback c ∈ kidRefs w callback d.1 := by
    intro c hc
    obtain ⟨hbig, hchild⟩ := (mem_links_iff (nodeEntry_ok hok).1).1 hc
    obtain ⟨d, hd⟩ := mem_kidTrees depth hchild (.inl hbig)
    refine ⟨(c, d), hd, mem_append_left _ ?_⟩
    rw [if_pos hbig]
    exact mem_singleton_self _
  cases callback with
  | false =>
    obtain ⟨c, hc, rfl⟩ := mem_map.1 hz
    exact hlink c hc
  | true =>
    obtain ⟨hnode, -, -, hleaf⟩ := hok
    rcases mem_append.1 hz with hz | hz
    · obtain ⟨c, hc, rfl⟩ := mem_map.1 hz
      exact hlink c hc
    obtain ⟨v, hv, hz⟩ := mem_flatMap.1 hz
    obtain ⟨nonce, balance, hacc⟩ := (hleaf v (leafValues_subset t hv)).account
    have hlen : 32 ≤ v.length := by
      rw [hacc]
      exact (lt_length_encodeAccount _ _ _ _).le
    obtain ⟨d, hd⟩ :=
      mem_kidTrees depth (child_of_mem_leafValues hnode hlen hv) (.inr rfl)
    exact ⟨(.value v, d), hd, mem_append_right _ hz⟩

/-! ### Processing -/

theorem SyncOk.setData (h : SyncOk w P s [] [] none) (hr : s.requests.lookup hash = some r)
    {e : Bytes} (he : hash = keccak256 e) (hmem : e ∈ P) :
    SyncOk w P (s.setRequest hash { r with data := some e }) [] [] (some hash) ∧
      Processed (s.setRequest hash { r with data := some e }).requests hash := by
  have hok := h.table.request hash r hr
  have hentry : RequestOk w P hash { r with data := some e } :=
    ⟨hok.hash, hok.entry, fun d hd => by obtain rfl := Option.some.inj hd; exact ⟨he, hmem⟩⟩
  refine ⟨⟨?_, h.store, fun k hne hp j hj => ?_, ?_⟩, _, Finmap.lookup_insert _, rfl⟩
  · exact h.table.update hr hentry rfl (fun _ => rfl) (by simp) (fun _ _ => rfl) nofun
  · obtain ⟨q, hq, hsome⟩ := hp
    have hk : k ≠ hash := fun heq => hne (congrArg some heq)
    have hq' := (Finmap.lookup_insert_of_ne _ hk).symm.trans hq
    rcases h.waiting k (by simp) ⟨q, hq', hsome⟩ j hj with hp | ⟨q', hq', hmem'⟩ | ⟨q', hq', -⟩
    · exact .inl hp
    · by_cases hjh : j = hash
      · subst hjh
        obtain rfl := Option.some.inj (hr.symm.trans hq')
        exact .inr (.inl ⟨_, Finmap.lookup_insert _, hmem'⟩)
      · exact .inr (.inl ⟨q', (Finmap.lookup_insert_of_ne _ hjh).trans hq', hmem'⟩)
    · cases hq'
  · rcases h.root with hroot | ⟨q, hq⟩
    · exact .inl hroot
    by_cases hk : (account w.accounts).key = hash
    · exact .inr ⟨_, by rw [hk]; exact Finmap.lookup_insert _⟩
    · exact .inr ⟨q, (Finmap.lookup_insert_of_ne _ hk).trans hq⟩

theorem SyncOk.complete (h : SyncOk w P s todo owed (some hash))
    (hawaits : ∀ k, Needs w hash k → Awaits s todo hash k) : SyncOk w P s todo owed none := by
  refine ⟨h.table, h.store, fun k _ hp j hj => ?_, h.root⟩
  by_cases hk : k = hash
  · subst hk
    exact hawaits j hj
  · exact h.waiting k (fun heq => hk (Option.some.inj heq)) hp j hj

theorem exists_commitRequest (h : SyncOk w P s [] [] none)
    (hr : s.requests.lookup hash = some r) (hsome : r.data.isSome = true) (hdeps : r.deps = 0) :
    ∃ s', commitRequest hash s = .ok () s' ∧ SyncOk w P s' [] [] none := by
  obtain ⟨s', hrun, hok, -⟩ := exists_commit _ h hr hsome hdeps le_rfl
  exact ⟨s', hrun, hok⟩

omit [Crypto] in
theorem flatMap_parents {qs : List Request} (hqs : ∀ q ∈ qs, q.parents = [hash]) :
    qs.flatMap Request.parents = List.replicate qs.length hash := by
  induction qs with
  | nil => rfl
  | cons q qs ih =>
    rw [flatMap_cons, hqs q mem_cons_self, ih fun r hr => hqs r (mem_cons_of_mem q hr)]
    rfl

theorem exists_enqueue (h : SyncOk w P s [] [] (some hash)) (hp : Processed s.requests hash)
    {qs : List Request} (hqs : ∀ q ∈ qs, TodoOk w P q ∧ q.parents = [hash])
    (hawaits : ∀ k, Needs w hash k → Awaits s qs hash k) :
    ∃ b s', enqueue hash qs s = .ok b s' ∧ SyncOk w P s' [] [] none := by
  obtain ⟨r, hr, hsome⟩ := hp
  rw [enqueue, get_bind, hr]
  dsimp only
  by_cases hdone : qs = [] ∧ r.deps = 0
  · rw [if_pos hdone]
    rw [hdone.1] at hawaits
    have hready : SyncOk w P s [] [] none := h.complete hawaits
    obtain ⟨s', hrun', hok⟩ := exists_commitRequest hready hr hsome hdone.2
    exact ⟨true, s', (bind_ok hrun').trans rfl, hok⟩
  rw [if_neg hdone]
  have hok := h.table.request hash r hr
  have hparents := flatMap_parents fun q hq => (hqs q hq).2
  have htable : TableOk w P (s.requests.insert hash { r with deps := r.deps + qs.length })
      (qs.flatMap Request.parents) := by
    refine h.table.update hr { hok with } rfl id ?_ (fun k hk => ?_) fun k hk => ?_
    · simp [hparents]
    · rw [hparents, count_replicate, if_neg (by simpa using Ne.symm hk)]
      rfl
    rw [hparents] at hk
    rw [eq_of_mem_replicate hk]
    exact ⟨r, hr, hsome⟩
  have hg : Grows s (s.setRequest hash { r with deps := r.deps + qs.length }) :=
    grows_setRequest hr rfl rfl
  have hready : SyncOk w P (s.setRequest hash { r with deps := r.deps + qs.length }) qs []
      none := by
    have hgrown : SyncOk w P (s.setRequest hash { r with deps := r.deps + qs.length }) qs []
        (some hash) := h.grow hg (by rwa [append_nil]) nofun
    exact hgrown.complete fun k hk => hg.awaits (hawaits k hk)
  obtain ⟨s', hrun', hok'⟩ := exists_scheduleAll hready fun q hq => (hqs q hq).1
  exact ⟨false, s', (bind_ok hrun').trans rfl, hok'⟩

/-- The data of a code: it refers to nothing, and nobody refers to a request without data. -/
theorem SyncOk.exists_processRaw (h : SyncOk w P s [] [] none)
    (hr : s.requests.lookup hash = some r) (hnone : ¬ r.data.isSome = true) {e : Bytes}
    (he : hash = keccak256 e) (hmem : e ∈ P) (hneeds : ∀ k, ¬ Needs w hash k) :
    ∃ s', commitRequest hash (s.setRequest hash { r with data := some e }) =
      .ok () s' ∧ SyncOk w P s' [] [] none := by
  obtain ⟨hset, -⟩ := h.setData hr he hmem
  have hdeps : r.deps = 0 := by
    have hnot : ¬ Processed s.requests hash := by
      rintro ⟨q, hq, hsome⟩
      obtain rfl := Option.some.inj (hr.symm.trans hq)
      exact hnone hsome
    obtain ⟨href, howed⟩ := h.table.refCount_eq_zero hnot
    rw [h.table.deps hash r hr, href, howed]
    rfl
  have hready := hset.complete fun k hk => absurd hk (hneeds k)
  exact exists_commitRequest hready (Finmap.lookup_insert _) rfl hdeps

variable (hP : RootDigests P) (hw : w.Sound P)
include hP hw

theorem SyncOk.exists_processNode
    (h : SyncOk w P s [] [] none) (hr : s.requests.lookup hash = some r)
    (hx : w.Reachable (nodeEntry r.callback t)) (hhash : hash = keccak256 (enc t))
    (hneeds : ∀ k, Needs w hash k → ∃ z ∈ w.refs (nodeEntry r.callback t), z.key = k) :
    ∃ b s', (children r (expand 0 (some hash) t) >>= enqueue hash)
        (s.setRequest hash { r with data := some (enc t) }) = .ok b s' ∧
      SyncOk w P s' [] [] none := by
  have hok := hx.entryOk hw
  obtain ⟨hnode, -⟩ := nodeEntry_ok hok
  have hmem : enc t ∈ P := nodeEntry_data r.callback t ▸ hok.mem
  obtain ⟨hset, hproc⟩ := h.setData hr hhash hmem
  have hrhash := (h.table.request hash r hr).hash
  have hzero : r.hash ≠ zero 32 := by
    rw [hrhash, hhash]
    exact hP.notZero _ hmem
  obtain ⟨qs, s', hrun, hok', hg, hqs, hawaits⟩ := exists_childRequests hP hw.empty hset
    (hrhash.symm ▸ hproc) hzero (kidTrees r.depth t)
    (fun c hc hbig => hx.ref (mem_refs_of_kid hc hbig))
    fun c hc v hv hcb => by
      rw [hcb] at hx hok
      have hchild := of_mem_kidTrees hc
      have hlen := hchild.length_lt hv
      have hv' := mem_leafValues_of_child hnode (hv ▸ hchild)
      refine ⟨hok.2.2.2 v (leafValues_subset t hv'), lt_trans hlen (hP.size _ hmem), ?_⟩
      exact fun y hy => hx.ref (mem_append_right _ (mem_flatMap.2 ⟨v, hv', hy⟩))
  rw [hrhash] at hqs hawaits
  obtain ⟨b, s'', hrun', hok''⟩ := exists_enqueue hok' (hg.processed.2 hproc) hqs fun k hk => by
    obtain ⟨z, hz, rfl⟩ := hneeds k hk
    obtain ⟨c, hc, hzc⟩ := exists_kid_of_ref hok r.depth hz
    exact hawaits c hc z hzc
  refine ⟨b, s'', ?_, hok''⟩
  have hchildren : children r (expand 0 (some hash) t)
      (s.setRequest hash { r with data := some (enc t) }) = .ok qs s' := by
    unfold children
    rw [kids_expand hnode]
    exact hrun
  rw [bind_ok hchildren]
  exact hrun'

/-- **The data of an entry is processed**, unless it was not requested or is there already. -/
theorem SyncOk.processItem (hu : w.Unambiguous)
    (h : SyncOk w P s [] [] none) {item : SyncResult}
    (hitem : item.hash = keccak256 item.data) (hmem : item.data ∈ P) :
    (∃ b s', processItem item s = .ok b s' ∧ SyncOk w P s' [] [] none) ∨
      processItem item s = .error .notRequested s ∨
      TrieSync.processItem item s = .error .alreadyProcessed s := by
  rw [TrieSync.processItem, get_bind]
  cases hr : s.requests.lookup item.hash with
  | none => exact .inr (.inl rfl)
  | some r =>
    dsimp only
    by_cases hsome : r.data.isSome = true
    · rw [if_pos hsome]
      exact .inr (.inr rfl)
    rw [if_neg hsome]
    left
    obtain ⟨hset, hproc⟩ := h.setData hr hitem hmem
    have hreq := h.table.request _ r hr
    obtain ⟨x, hx, hkey, hrole⟩ := hreq.entry
    have hdata : item.data = x.data :=
      hP.inj hmem (hx.entryOk hw).mem (hitem.symm.trans hkey.symm)
    have hneeds : ∀ k, Needs w item.hash k → ∃ z ∈ w.refs x, z.key = k := fun k hk =>
      exists_ref_of_needs hP.toDigests hw hu hx (hkey.symm ▸ hk)
    by_cases hraw : r.raw = true
    · rw [if_pos hraw]
      have hcode : w.refs x = [] := by
        cases x with
        | account t | storage t => rw [hrole.1] at hraw; cases hraw
        | code c => rfl
      obtain ⟨s', hrun', hok⟩ := h.exists_processRaw hr hsome hitem hmem fun k hk => by
        obtain ⟨z, hz, -⟩ := hneeds k hk
        rw [hcode] at hz
        cases hz
      exact ⟨true, s', (bind_ok hrun').trans rfl, hok⟩
    · rw [if_neg hraw]
      obtain ⟨t, rfl⟩ : ∃ t, x = nodeEntry r.callback t := by
        cases x with
        | account t => exact ⟨t, by rw [nodeEntry, hrole.2, if_pos rfl]⟩
        | storage t => exact ⟨t, by rw [nodeEntry, hrole.2, if_neg (by simp)]⟩
        | code c => exact absurd hrole hraw
      rw [nodeEntry_data] at hdata
      rw [hdata] at hitem hmem ⊢
      obtain ⟨hnode, hhex⟩ := nodeEntry_ok (hx.entryOk hw)
      rw [decodeNode_enc hnode hhex (hP.size _ hmem)]
      exact h.exists_processNode hP hw hr hx hitem hneeds

theorem SyncOk.process (hu : w.Unambiguous)
    (items : List SyncResult)
    (hitems : ∀ item ∈ items, item.hash = keccak256 item.data ∧ item.data ∈ P) (i : ℕ)
    (committed : Bool) (h : SyncOk w P s [] [] none) :
    SyncOk w P (processFrom i committed items s).2 [] [] none ∧
      ((processFrom i committed items s).1.2.2 = none ∨
        (processFrom i committed items s).1.2.2 = some .notRequested ∨
        (processFrom i committed items s).1.2.2 = some .alreadyProcessed) := by
  induction items generalizing i committed s with
  | nil => exact ⟨h, .inl rfl⟩
  | cons item items ih =>
    obtain ⟨hitem, hmem⟩ := hitems item mem_cons_self
    rw [processFrom]
    rcases h.processItem hP hw hu hitem hmem with ⟨b, s', hrun, hok⟩ | hrun | hrun
    · rw [hrun]
      exact ih (fun x hx => hitems x (mem_cons_of_mem item hx)) _ _ hok
    · rw [hrun]
      exact ⟨h, .inr (.inl rfl)⟩
    · rw [hrun]
      exact ⟨h, .inr (.inr rfl)⟩

omit hP hw

end Steps

end MerkleTrie
