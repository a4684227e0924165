/-
**Hashing a trie.**

The hasher walks through the nodes that are loaded and have no usable hash.  It gives the Merkle
hash of the tree that the trie stands for, leaves that tree as it is, and, when it commits, writes
entries after which all nodes of the tree are in the database.

The entries are written after the walk, so the results speak of any larger database that has all of
them.

Main results:

* `nodeHash_hash` — **what hashing does**.
-/

import GoHpb.TrieRep

namespace MerkleTrie

open Patricia Hasher Crypto

/-- The second database has the entries of the first one and the new ones. -/
def Writes (db : NodeDb) (puts : List (Hash × Bytes)) (db' : NodeDb) : Prop :=
  Extends db db' ∧ ∀ p ∈ puts, db'.lookup p.1 = some p.2

theorem Writes.mono {db db' : NodeDb} {puts puts' : List (Hash × Bytes)} (h : Writes db puts db')
    (hsub : puts' ⊆ puts) : Writes db puts' db' :=
  ⟨h.1, fun p hp => h.2 p (hsub hp)⟩

variable [Crypto] {db : NodeDb} {top : Bool} {n : Node} {t : TrieTree} {h : Hasher}

theorem puts_hash_of_not_commit (hcommit : h.commit = false) (n : Node) (force : Bool) :
    (h.hash n force).puts = [] := by
  have hstore : ∀ cached item force, (h.store cached item force).2 = [] := by
    intro cached item force
    unfold store
    dsimp only
    split_ifs with hsmall hc
    · rfl
    · rw [hcommit] at hc
      cases hc
    · rfl
  have hfinish : ∀ (node : Node) (f : NodeFlag) item cached puts force, puts = [] →
      ((h.reuse node f).getD (h.finish f item cached puts force)).puts = [] := by
    intro node f item cached puts force hputs
    cases hhash : f.hash with
    | some k =>
      have hreuse : h.reuse node f = some ⟨.hash k, node, []⟩ := by
        simp [reuse, hhash, hcommit]
      rw [hreuse]
      rfl
    | none =>
      have hreuse : h.reuse node f = none := by simp [reuse, hhash]
      rw [hreuse, hputs]
      exact hstore _ _ _
  induction n generalizing force with
  | nil => rfl
  | value v => exact hstore _ _ _
  | hash k => rfl
  | short k c f ih =>
    rw [hash_short]
    refine hfinish _ _ _ _ _ _ ?_
    unfold hashVal
    split_ifs
    · rfl
    · exact ih false
  | full cs f ih =>
    rw [hash_full]
    refine hfinish _ _ _ _ _ _ (List.flatten_eq_nil_iff.2 fun l hl => ?_)
    obtain ⟨i, rfl⟩ := List.mem_ofFn.1 hl
    unfold hashChild
    split_ifs
    · rfl
    · exact ih i false

/-- What the hasher returns for a child: what the parent holds, entries for nodes of the child,
and a node that stands for the same tree. -/
structure ChildHash (h : Hasher) (db : NodeDb) (t : TrieTree) (r : HashResult) : Prop where
  item : r.hashed.item = linkItem t
  puts : ∀ p ∈ r.puts, p.1 = keccak256 p.2 ∧ p.2 ∈ encodings t
  cached : ∀ db', Writes db r.puts db' → Rep db' false r.cached t
  saved : h.commit = true → ∀ db', Writes db r.puts db' → Linked db' t ∧ Held db' t

/-- What the hasher returns for a node; the root is always hashed. -/
structure NodeHash (h : Hasher) (db : NodeDb) (top : Bool) (t : TrieTree) (r : HashResult) :
    Prop where
  hashed : r.hashed = if (enc t).length < 32 ∧ top = false then Hashed.inline (treeItem t)
    else Hashed.hash (keccak256 (enc t))
  puts : ∀ p ∈ r.puts, p.1 = keccak256 p.2 ∧ p.2 ∈ encodings t
  cached : ∀ db', Writes db r.puts db' → Rep db' top r.cached t
  saved : h.commit = true → ∀ db', Writes db r.puts db' →
    (¬ ((enc t).length < 32 ∧ top = false) → Saved db' t) ∧ Held db' t

theorem childHash_plain (hrep : Rep db false n t) (hnode : isNode t = false) :
    ChildHash h db t (HashResult.plain n) := by
  cases hrep with
  | hash hnode' hh hsaved hheld htop => rw [hnode] at hnode'; cases hnode'
  | short hc hf | full hcs hf => cases hnode
  | nil =>
    refine ⟨rfl, fun p hp => ?_, fun db' _ => .nil false, fun _ db' _ => ⟨?_, trivial⟩⟩
    · cases hp
    · intro hn
      cases hn
  | value _ v =>
    refine ⟨rfl, fun p hp => ?_, fun db' _ => .value false v, fun _ db' _ => ⟨?_, trivial⟩⟩
    · cases hp
    · intro hn
      cases hn

theorem NodeHash.child {r : HashResult} (hnode : isNode t = true)
    (hr : NodeHash h db false t r) : ChildHash h db t r where
  item := by
    rw [hr.hashed]
    rcases linkItem_cases hnode with ⟨hsmall, hlink⟩ | ⟨hbig, hlink⟩
    · rw [if_pos ⟨hsmall, rfl⟩, hlink]
      rfl
    · rw [if_neg (fun hc => absurd hc.1 (not_lt.2 hbig)), hlink]
      rfl
  puts := hr.puts
  cached := hr.cached
  saved := fun hcommit db' hw =>
    ⟨fun _ hbig => (hr.saved hcommit db' hw).1 fun hc => absurd hc.1 (not_lt.2 hbig),
      (hr.saved hcommit db' hw).2⟩

theorem nodeHash_reuse {f : NodeFlag} {r : HashResult} (hnode : isNode t = true)
    (hrep : Rep db top n t) (hf : FlagOk db top f t) (hr : h.reuse n f = some r) :
    NodeHash h db top t r := by
  unfold reuse at hr
  cases hhash : f.hash with
  | none => simp [hhash] at hr
  | some k =>
    simp only [hhash] at hr
    obtain rfl := hf.hash k hhash
    have hbig : ¬ ((enc t).length < 32 ∧ top = false) := by
      rintro ⟨hsmall, htop⟩
      have := hf.size _ hhash htop
      omega
    -- in each case nothing is written, and the hash is the cached one
    have hcase : ∀ m : Node, (∀ db', Extends db db' → Rep db' top m t) →
        (h.commit = true → f.dirty = false) →
        NodeHash h db top t ⟨.hash (keccak256 (enc t)), m, []⟩ := by
      intro m hm hclean
      refine ⟨(if_neg hbig).symm, fun p hp => ?_, fun db' hw => hm db' hw.1,
        fun hcommit db' hw => ?_⟩
      · cases hp
      · have hstored := hf.clean _ hhash (hclean hcommit)
        exact ⟨fun _ => hstored.1.mono hw.1, hstored.2.mono hw.1⟩
    split_ifs at hr with hcommit hunload hdirty
    · obtain rfl := Option.some.inj hr
      exact hcase n (fun db' hext => hrep.mono hext) fun hc => by rw [hcommit] at hc; cases hc
    · obtain rfl := Option.some.inj hr
      have hclean : f.dirty = false := by
        unfold NodeFlag.canUnload at hunload
        simp only [Bool.and_eq_true, Bool.not_eq_true'] at hunload
        exact hunload.1
      have hstored := hf.clean _ hhash hclean
      refine hcase _ (fun db' hext => ?_) fun _ => hclean
      exact .hash hnode rfl (hstored.1.mono hext) (hstored.2.mono hext)
        fun htop => hf.size _ hhash htop
    · obtain rfl := Option.some.inj hr
      exact hcase n (fun db' hext => hrep.mono hext) fun _ => hdirty

theorem nodeHash_finish {f : NodeFlag} {mk : NodeFlag → Node} {puts : List (Hash × Bytes)}
    (hnode : isNode t = true) (hf : FlagOk db top f t) (hreuse : h.reuse n f = none)
    (hputs : ∀ p ∈ puts, p.1 = keccak256 p.2 ∧ p.2 ∈ encodings t)
    (hmk : ∀ db', Writes db puts db' → ∀ f', FlagOk db' top f' t → Rep db' top (mk f') t)
    (hheld : h.commit = true → ∀ db', Writes db puts db' → Held db' t) :
    NodeHash h db top t (h.finish f (treeItem t) mk puts top) := by
  -- a node that is not reused has no hash, unless it is dirty and committed
  have hdirty : h.commit = false → f.hash = none := by
    intro hcommit
    unfold reuse at hreuse
    cases hhash : f.hash with
    | none => rfl
    | some k => simp [hhash, hcommit] at hreuse
  have hhash : f.hash.getD (keccak256 (enc t)) = keccak256 (enc t) := by
    cases hhash : f.hash with
    | none => rfl
    | some k => exact hf.hash k hhash
  by_cases hsmall : (enc t).length < 32 ∧ top = false
  · have hstore : h.store f.hash (treeItem t) top = (.inline (treeItem t), []) :=
      if_pos hsmall
    have hflag : ∀ db' gen dirty, FlagOk db' top ⟨none, gen, dirty⟩ t := fun db' gen dirty =>
      ⟨nofun, nofun, nofun, fun _ _ => ⟨hsmall.2, hsmall.1⟩⟩
    unfold finish
    rw [hstore]
    refine ⟨(if_pos hsmall).symm, ?_, ?_, ?_⟩
    · simpa using hputs
    · intro db' hw
      exact hmk db' (hw.mono (by simp)) _ (hflag _ _ _)
    · intro hcommit db' hw
      exact ⟨fun hn => absurd hsmall hn, hheld hcommit db' (hw.mono (by simp))⟩
  have hstore : h.store f.hash (treeItem t) top = (.hash (keccak256 (enc t)),
        if h.commit then [(keccak256 (enc t), enc t)] else []) := by
    have hstored : h.store f.hash (treeItem t) top =
        (.hash (f.hash.getD (keccak256 (enc t))),
          if h.commit then [(f.hash.getD (keccak256 (enc t)), enc t)] else []) :=
      if_neg hsmall
    rw [hstored, hhash]
  unfold finish
  rw [hstore]
  -- after a commit the node and everything below it are in the database
  have hstored : h.commit = true → ∀ db', Writes db (puts ++
      if h.commit then [(keccak256 (enc t), enc t)] else []) db' →
      Saved db' t ∧ Held db' t := by
    intro hcommit db' hw
    refine ⟨?_, hheld hcommit db' (hw.mono (by simp))⟩
    exact hw.2 (keccak256 (enc t), enc t) (by simp [hcommit])
  refine ⟨(if_neg hsmall).symm, ?_, ?_, ?_⟩
  · intro p hp
    rcases List.mem_append.1 hp with hp | hp
    · exact hputs p hp
    split_ifs at hp
    · obtain rfl := List.mem_singleton.1 hp
      exact ⟨rfl, enc_mem_encodings hnode⟩
    · cases hp
  · intro db' hw
    refine hmk db' (hw.mono (by simp)) _ ⟨?_, ?_, ?_, nofun⟩
    · exact fun k hk => (Option.some.inj hk).symm
    · intro k hk htop
      exact not_lt.1 fun hlt => hsmall ⟨hlt, htop⟩
    intro k hk hclean
    cases hcommit : h.commit with
    | true => exact hstored hcommit db' hw
    | false =>
      rw [hcommit] at hclean
      have hsmall' := hf.small (hdirty hcommit) (by simpa using hclean)
      exact absurd ⟨hsmall'.2, hsmall'.1⟩ hsmall
  · intro hcommit db' hw
    exact ⟨fun _ => (hstored hcommit db' hw).1, (hstored hcommit db' hw).2⟩

theorem childHash_hashVal (hrep : Rep db false n t)
    (hhash : isNode t = true → NodeHash h db false t (h.hash n false)) :
    ChildHash h db t (h.hashVal n) := by
  unfold hashVal
  by_cases hnode : isNode t = true
  · have hval : n.isValue = false := by
      rw [hrep.isValue_eq]
      cases t <;> first | rfl | cases hnode
    rw [hval, if_neg (by simp)]
    exact (hhash hnode).child hnode
  rw [Bool.not_eq_true] at hnode
  by_cases hval : n.isValue = true
  · rw [if_pos hval]
    exact childHash_plain hrep hnode
  cases hrep with
  | nil => exact childHash_plain (.nil false) hnode
  | value _ v => exact absurd rfl hval
  | hash hnode' => rw [hnode] at hnode'; cases hnode'
  | short | full => cases hnode

theorem childHash_hashChild (hrep : Rep db false n t) {i : Fin 17} (hlast : i = 16 → t = .nil)
    (hval : isValue t = false) (hhash : isNode t = true → NodeHash h db false t (h.hash n false)) :
    ChildHash h db t (h.hashChild i n) := by
  unfold hashChild
  by_cases hplain : isPlain i n = true
  · rw [if_pos hplain]
    refine childHash_plain hrep ?_
    have hnil : t = .nil := by
      unfold isPlain at hplain
      rw [Bool.or_eq_true, beq_iff_eq] at hplain
      rcases hplain with hi | hn
      · exact hlast hi
      · rw [hrep.isNil_eq] at hn
        exact PTree.isNil_iff.1 hn
    rw [hnil]
    rfl
  · rw [if_neg hplain]
    have hnode : isNode t = true := by
      cases t with
      | nil =>
        refine absurd ?_ hplain
        unfold isPlain
        rw [hrep.isNil_eq]
        exact Bool.or_true _
      | value v => cases hval
      | short k c | full cs => rfl
    exact (hhash hnode).child hnode

theorem hashChildren_short {c : Node} {s : TrieTree} (hchild : ChildHash h db s (h.hashVal c))
    (k : List Nibble) (f : NodeFlag) : h.hashChildren (.short k c f) = treeItem (.short k s) := by
  rw [hashChildren, hchild.item, treeItem_short]

theorem hashChildren_full {cs : Fin 17 → Node} {ts : Fin 17 → TrieTree}
    (hchild : ∀ i, ChildHash h db (ts i) (h.hashChild i (cs i))) (f : NodeFlag) :
    h.hashChildren (.full cs f) = treeItem (.full ts) := by
  rw [hashChildren, treeItem_full]
  congr 2
  funext i
  exact (hchild i).item

/-- **What hashing does.** -/
theorem nodeHash_hash (h : Hasher) (hrep : Rep db top n t) (hnode : isNode t = true)
    (hhex : HexOk t) : NodeHash h db top t (h.hash n top) := by
  induction hrep with
  | nil | value => cases hnode
  | @hash top k t hnode' hhash hsaved hheld htop =>
    subst hhash
    have hbig : ¬ ((enc t).length < 32 ∧ top = false) := fun hc =>
      absurd hc.1 (not_lt.2 (htop hc.2))
    refine ⟨(if_neg hbig).symm, nofun, fun db' hw => ?_, fun _ db' hw => ?_⟩
    · exact .hash hnode' rfl (hsaved.mono hw.1) (hheld.mono hw.1) htop
    · exact ⟨fun _ => hsaved.mono hw.1, hheld.mono hw.1⟩
  | @short top k c f s hc hf ih =>
    have hchild : ChildHash h db s (h.hashVal c) :=
      childHash_hashVal hc fun hn => ih hn hhex.2
    rw [hash_short, hashChildren_short hchild]
    cases hreuse : h.reuse (.short k c f) f with
    | some r => exact nodeHash_reuse hnode (.short hc hf) hf hreuse
    | none =>
      refine nodeHash_finish hnode hf hreuse ?_ ?_ ?_
      · intro p hp
        exact ⟨(hchild.puts p hp).1, encodings_short_subset k s (hchild.puts p hp).2⟩
      · intro db' hw f' hf'
        exact .short (hchild.cached db' hw) hf'
      · intro hcommit db' hw
        exact hchild.saved hcommit db' hw
  | @full top cs f ts hcs hf ih =>
    have hchild : ∀ i, ChildHash h db (ts i) (h.hashChild i (cs i)) := fun i =>
      childHash_hashChild (hcs i) (fun hi => hi ▸ hhex.1) (hhex.2 i).1
        fun hn => ih i hn (hhex.2 i).2
    have hsub : ∀ i, (h.hashChild i (cs i)).puts ⊆
        (List.ofFn fun i => (h.hashChild i (cs i)).puts).flatten := by
      intro i p hp
      exact List.mem_flatten.2 ⟨_, List.mem_ofFn.2 ⟨i, rfl⟩, hp⟩
    rw [hash_full, hashChildren_full hchild]
    cases hreuse : h.reuse (.full cs f) f with
    | some r => exact nodeHash_reuse hnode (.full hcs hf) hf hreuse
    | none =>
      refine nodeHash_finish hnode hf hreuse ?_ ?_ ?_
      · intro p hp
        obtain ⟨l, hl, hp⟩ := List.mem_flatten.1 hp
        obtain ⟨i, rfl⟩ := List.mem_ofFn.1 hl
        exact ⟨((hchild i).puts p hp).1, encodings_full_subset ts i ((hchild i).puts p hp).2⟩
      · intro db' hw f' hf'
        exact .full (fun i => (hchild i).cached db' (hw.mono (hsub i))) hf'
      · intro hcommit db' hw i
        exact (hchild i).saved hcommit db' (hw.mono (hsub i))

theorem hashChildren_rep (h : Hasher) (hrep : Rep db top n t) (hnode : isNode t = true)
    (hhex : HexOk t) (hloaded : n.isHash = false) : h.hashChildren n = treeItem t := by
  cases hrep with
  | nil | value => cases hnode
  | hash => cases hloaded
  | short hc hf =>
    exact hashChildren_short (childHash_hashVal hc fun hn => nodeHash_hash h hc hn hhex.2) _ _
  | full hcs hf =>
    exact hashChildren_full (fun i => childHash_hashChild (hcs i) (fun hi => hi ▸ hhex.1)
      (hhex.2 i).1 fun hn => nodeHash_hash h (hcs i) hn (hhex.2 i).2) _

end MerkleTrie
