/-
**Merkle proofs.**

A proof for a key is the list of encodings along the path of the key, without the nodes that are
embedded in their parents.  The verifier starts from the root hash; it checks the hash of an
element, decodes it, and follows the key inside of it to the hash of the next element, to a value
or to nothing.

The prover, the hasher and the verifier decide separately which nodes are elements.  On the tree
they agree: a list passes the verifier exactly if it is the path of the key, and the answer is the
one of the tree.

Main results:

* `verifyFrom_eq_ok_iff` — **only the path passes the verifier**;
* `proof_complete_sound` — **proofs are complete and sound**.
-/

import GoHpb.TrieMap

namespace MerkleTrie

open Patricia List Crypto

/-! ### The prover -/

/-- The first loop of `Prove`: the nodes on the path of a key; none if a node is missing, which is
logged. -/
def Trie.pathNodes (db : NodeDb) (cachegen : UInt16) :
    ℕ → Node → List Nibble → Except TrieErr (Option (List Node))
  | 0, _, _ => .error .outOfRounds
  | _ + 1, _, [] => .ok (some [])
  | _ + 1, .nil, _ => .ok (some [])
  | r + 1, .short k c f, key =>
    if key.length < k.length ∨ key.take k.length ≠ k then
      .ok (some [.short k c f])
    else do
      let nodes ← pathNodes db cachegen r c (key.drop k.length)
      return nodes.map (.short k c f :: ·)
  | r + 1, .full cs f, a :: key => do
      let nodes ← pathNodes db cachegen r (cs a) key
      return nodes.map (.full cs f :: ·)
  | r + 1, .hash h, key =>
    match Trie.resolveHash db cachegen h [] with
    | .ok n => pathNodes db cachegen r n key
    | .error (.missingNode _ _) => .ok none
    | .error err => .error err
  | _ + 1, .value _, _ => .error .panicInvalidNode

/-- `cache`. -/
def Node.cachedHash : Node → Option Hash
  | .short _ _ f => f.hash
  | .full _ f => f.hash
  | _ => none

/-- The errors of `VerifyProof`, and its panics. -/
inductive ProofErr where
  | hashMismatch (i : ℕ)
  | badNode (i : ℕ) (err : NodeErr)
  | keyMismatch (i : ℕ)
  | additionalNodes
  | unexpectedEnd
  | panic (err : TrieErr)
  deriving DecidableEq

/-- `get`: follow the key inside of a decoded node. -/
def get : Node → List Nibble → Except TrieErr (List Nibble × Node)
  | .short k c _, key =>
    if key.length < k.length ∨ key.take k.length ≠ k then .ok ([], .nil)
    else get c (key.drop k.length)
  | .full _ _, [] => .error .panicIndex
  | .full cs _, a :: key => get (cs a) key
  | .hash h, key => .ok (key, .hash h)
  | .nil, key => .ok (key, .nil)
  | .value v, _ => .ok ([], .value v)

section Defs

variable [Crypto]

/-- The second loop of `Prove`: the root and the nodes with a hash become elements. -/
def proofElements : ℕ → List Node → List Bytes
  | _, [] => []
  | i, n :: nodes =>
    let hasher : Hasher := ⟨0, 0, false⟩
    let collapsed := hasher.hashChildren n
    let hn := (hasher.store n.cachedHash collapsed false).1
    if hn.hash?.isSome ∨ i = 0 then Rlp.encode collapsed :: proofElements (i + 1) nodes
    else proofElements (i + 1) nodes

def Trie.prove (t : Trie) (db : NodeDb) (key : Bytes) : Except TrieErr (List Bytes) := do
  let hex := keybytesToHex key
  let nodes ← Trie.pathNodes db t.cachegen (Trie.rounds hex) t.root hex
  return (nodes.map (proofElements 0)).getD []

/-- The loop of `VerifyProof`. -/
def verifyFrom : Hash → List Nibble → ℕ → List Bytes → Except ProofErr (Option Bytes)
  | _, _, _, [] => .error .unexpectedEnd
  | wantHash, key, i, buf :: rest =>
    if keccak256 buf ≠ wantHash then .error (.hashMismatch i)
    else
      match decodeNode (some wantHash) buf 0 with
      | .error err => .error (.badNode i err)
      | .ok n =>
        match get n key with
        | .error err => .error (.panic err)
        | .ok (_, .nil) =>
          if rest ≠ [] then .error (.keyMismatch i) else .ok none
        | .ok (keyrest, .hash h) => verifyFrom h keyrest (i + 1) rest
        | .ok (_, .value v) =>
          if rest ≠ [] then .error .additionalNodes else .ok (some v)
        -- no case of the switch
        | .ok _ => verifyFrom wantHash key (i + 1) rest

def verifyProof (rootHash : Hash) (key : Bytes) (proof : List Bytes) :
    Except ProofErr (Option Bytes) :=
  verifyFrom rootHash (keybytesToHex key) 0 proof

end Defs

/-! ### The path of a key -/

section Paths

variable [Crypto] {db : NodeDb} {top : Bool} {n : Node} {t : TrieTree} {key : List Nibble}

/-- A child that is not embedded in its parent. -/
def ownElement (t : TrieTree) : List Bytes :=
  if isNode t ∧ 32 ≤ (enc t).length then [enc t] else []

/-- The elements below a node, on the path of a key. -/
def below : TrieTree → List Nibble → List Bytes
  | .nil, _ => []
  | .value _, _ => []
  | .short k c, key =>
    if key.take k.length = k then ownElement c ++ below c (key.drop k.length) else []
  | .full _, [] => []
  | .full cs, a :: key => ownElement (cs a) ++ below (cs a) key

theorem ownElement_subset (t : TrieTree) : ownElement t ⊆ encodings t := by
  unfold ownElement
  split_ifs with h
  · exact cons_subset.2 ⟨enc_mem_encodings h.1, nil_subset _⟩
  · exact nil_subset _

theorem below_subset (t : TrieTree) (key : List Nibble) : below t key ⊆ encodings t := by
  induction t generalizing key with
  | nil | value v => exact nil_subset _
  | short k c ih =>
    unfold below
    split_ifs with h
    · have hsub := encodings_short_subset k c
      exact append_subset.2
        ⟨List.Subset.trans (ownElement_subset c) hsub, List.Subset.trans (ih _) hsub⟩
    · exact nil_subset _
  | full cs ih =>
    cases key with
    | nil => exact nil_subset _
    | cons a key =>
      have hsub := encodings_full_subset cs a
      exact append_subset.2
        ⟨List.Subset.trans (ownElement_subset _) hsub, List.Subset.trans (ih a key) hsub⟩

/-! ### The verifier -/

/-- What the verifier finds in a node: nothing, a value, or the hash of the next element, which is
the first one of the given list. -/
inductive GetSpec (t : TrieTree) (key : List Nibble) : List Bytes → List Nibble × Node → Prop
  | absent (rest : List Nibble) (hfind : t.find key = none) : GetSpec t key [] (rest, .nil)
  | found {v : Bytes} (hfind : t.find key = some v) : GetSpec t key [] ([], .value v)
  | link {rest : List Nibble} {t' : TrieTree} (hnode : isNode t' = true)
      (hcanon : PTree.Canon rest.length t') (hhex : HexOk t → HexOk t')
      (hsub : encodings t' ⊆ encodings t) (hfind : t.find key = t'.find rest) :
      GetSpec t key (enc t' :: below t' rest) (rest, .hash (keccak256 (enc t')))

theorem GetSpec.lift {c : TrieTree} {key' : List Nibble} {l : List Bytes} {r : List Nibble × Node}
    (h : GetSpec c key' l r) (hhex : HexOk t → HexOk c) (hsub : encodings c ⊆ encodings t)
    (hfind : t.find key = c.find key') : GetSpec t key l r := by
  cases h with
  | absent rest h => exact .absent rest (hfind.trans h)
  | found h => exact .found (hfind.trans h)
  | link hnode hcanon hhex' hsub' hfind' =>
    exact .link hnode hcanon (hhex' ∘ hhex) (List.Subset.trans hsub' hsub) (hfind.trans hfind')

theorem exists_get_linkNode {gen : UInt16} (hcanon : PTree.Canon key.length t)
    (h : ∃ r, get (expand gen none t) key = .ok r ∧ GetSpec t key (below t key) r) :
    ∃ r, get (linkNode gen t) key = .ok r ∧ GetSpec t key (ownElement t ++ below t key) r := by
  unfold linkNode ownElement
  split_ifs with hbig
  · exact ⟨_, rfl, .link hbig.1 hcanon id (List.Subset.refl _) rfl⟩
  · exact h

/-- **Following a key inside of a decoded node.** -/
theorem exists_get_expand (gen : UInt16) (hash : Option Hash) (hcanon : PTree.Canon key.length t) :
    ∃ r, get (expand gen hash t) key = .ok r ∧ GetSpec t key (below t key) r := by
  induction t generalizing key hash with
  | nil => exact ⟨_, rfl, .absent key rfl⟩
  | value v => exact ⟨_, rfl, .found rfl⟩
  | short k c ih =>
    obtain ⟨m, hm, -, hwf, -⟩ := (hcanon.resolve_left (by simp)).short_inv
    rw [expand_short, get, below]
    by_cases htake : key.take k.length = k
    · have hcanon' : PTree.Canon (key.drop k.length).length c := by
        rw [length_drop, hm, Nat.add_sub_cancel_left]
        exact .inr hwf
      rw [if_neg (not_or.2 ⟨by omega, not_not.2 htake⟩), if_pos htake]
      obtain ⟨r, hr, hspec⟩ := exists_get_linkNode hcanon' (ih none hcanon')
      refine ⟨r, hr, hspec.lift (fun hhex => hhex.2) (encodings_short_subset k c) ?_⟩
      rw [PTree.find, if_pos htake]
    · rw [if_pos (.inr htake), if_neg htake]
      refine ⟨_, rfl, .absent [] ?_⟩
      rw [PTree.find, if_neg htake]
  | full cs ih =>
    obtain ⟨m, hm, -, hwf⟩ := (hcanon.resolve_left (by simp)).full_inv
    cases key with
    | nil => cases hm
    | cons a key =>
      have hcanon' : PTree.Canon key.length (cs a) := by
        rw [Nat.succ.inj hm]
        exact hwf a
      obtain ⟨r, hr, hspec⟩ := exists_get_linkNode hcanon' (ih a none hcanon')
      exact ⟨r, hr, hspec.lift (fun hhex => (hhex.2 a).2) (encodings_full_subset cs a) rfl⟩

omit [Crypto] in
theorem last_eq_ok_iff {err : ProofErr} {v : Option Bytes} (rest : List Bytes) (x : Option Bytes) :
    (if rest ≠ [] then Except.error err else Except.ok x) = Except.ok v ↔ rest = [] ∧ v = x := by
  cases rest with
  | nil => simp [eq_comm]
  | cons e rest => simp

/-- **Only the path of the key passes the verifier**, and the answer is the one of the tree. -/
theorem verifyFrom_eq_ok_iff {P : Set Bytes} (hP : Digests P) {proof : List Bytes}
    (hinj : Set.InjOn keccak256 (P ∪ {e | e ∈ proof})) (hnode : isNode t = true)
    (hcanon : PTree.Canon key.length t) (hhex : HexOk t) (hsub : ∀ e ∈ encodings t, e ∈ P) (i : ℕ)
    (v : Option Bytes) : verifyFrom (keccak256 (enc t)) key i proof = Except.ok v ↔
      proof = enc t :: below t key ∧ v = t.find key := by
  -- induction on the list: each element takes the place of the tree below the last one
  induction proof generalizing t key i with
  | nil =>
    refine ⟨fun h => ?_, fun h => ?_⟩
    · cases h
    · cases h.1
  | cons buf rest ih =>
    have hmem := hsub _ (enc_mem_encodings hnode)
    rw [verifyFrom, List.cons.injEq]
    by_cases hbuf : buf = enc t
    · subst hbuf
      obtain ⟨r, hr, hspec⟩ :=
        exists_get_expand 0 (some (keccak256 (enc t))) hcanon
      rw [if_neg (not_not.2 rfl), decodeNode_enc hnode hhex (hP.size _ hmem)]
      simp only [hr, true_and]
      generalize below t key = l at hspec
      cases hspec with
      | absent rest' hfind | found hfind =>
        rw [hfind]
        exact last_eq_ok_iff rest _
      | link hnode' hcanon' hhex' hsub' hfind =>
        have hinj' : Set.InjOn keccak256 (P ∪ {e | e ∈ rest}) :=
          hinj.mono (Set.union_subset_union_right _ fun e he => mem_cons_of_mem _ he)
        rw [hfind]
        exact ih hinj' hnode' hcanon' (hhex' hhex) (fun e he => hsub e (hsub' he)) _
    · have hne : keccak256 buf ≠ keccak256 (enc t) := fun heq =>
        hbuf (hinj (Or.inr mem_cons_self) (Or.inl hmem) heq)
      rw [if_pos hne]
      refine ⟨fun h => ?_, fun h => absurd h.1.1 hbuf⟩
      cases h

/-! ### The prover and the path -/

theorem proofElements_cons (hrep : Rep db top n t) (hnode : isNode t = true) (hhex : HexOk t)
    (hloaded : n.isHash = false) (i : ℕ) (nodes : List Node) : proofElements i (n :: nodes) =
      (if i = 0 then [enc t] else ownElement t) ++ proofElements (i + 1) nodes := by
  have hcollapsed := hashChildren_rep ⟨0, 0, false⟩ hrep hnode hhex hloaded
  rw [proofElements, hcollapsed]
  by_cases hi : i = 0
  · rw [if_pos (.inr hi), if_pos hi]
    rfl
  -- the hash of a node depends on its size only
  have hstored : (Hasher.store ⟨0, 0, false⟩ n.cachedHash (treeItem t) false).1.hash?.isSome =
      decide (32 ≤ (enc t).length) := by
    by_cases hbig : 32 ≤ (enc t).length
    · rw [decide_eq_true hbig]
      exact congrArg (fun x : Hashed × _ => x.1.hash?.isSome)
        (if_neg fun hc => absurd hbig (not_le.2 hc.1))
    · rw [decide_eq_false hbig]
      exact congrArg (fun x : Hashed × _ => x.1.hash?.isSome) (if_pos ⟨not_le.1 hbig, rfl⟩)
  unfold ownElement
  rw [if_neg hi, hstored]
  simp only [hnode, decide_eq_true_eq, hi, or_false, true_and]
  split_ifs with hbig
  · rfl
  · rfl

omit [Crypto] in
theorem Canon.isNode_eq_false (h : PTree.Canon 0 t) : isNode t = false := by
  rcases h with rfl | hwf
  · rfl
  cases t with
  | nil | value v => rfl
  | short k c =>
    obtain ⟨m, hm, hk, -⟩ := hwf.short_inv
    exact absurd (length_eq_zero_iff.1 (by omega)) hk
  | full cs =>
    obtain ⟨m, hm, -⟩ := hwf.full_inv
    cases hm

/-- **The nodes that the prover collects.** -/
theorem pathNodes_rep (hsize : SizesOk db) (gen : UInt16) {rounds : ℕ} (hrep : Rep db top n t)
    (hcanon : PTree.Canon key.length t) (hhex : HexOk t)
    (hrounds : callsFrom n key.length ≤ rounds) :
    ∃ nodes, Trie.pathNodes db gen rounds n key = .ok (some nodes) ∧ ∀ i, proofElements i nodes =
        (if i = 0 ∧ isNode t then [enc t] else ownElement t) ++ below t key := by
  induction rounds generalizing top n t key with
  | zero => exact absurd hrounds (by have := lt_callsFrom n key.length; omega)
  | succ r ih =>
    cases key with
    | nil =>
      have hnode := Canon.isNode_eq_false hcanon
      have hbelow : below t [] = [] := by cases t <;> first | rfl | cases hnode
      refine ⟨[], by cases n <;> rfl, fun i => ?_⟩
      simp [ownElement, hnode, hbelow, proofElements]
    | cons x rest =>
      cases hrep with
      | nil =>
        refine ⟨[], rfl, fun i => ?_⟩
        simp [ownElement, isNode, below, proofElements]
      | value =>
        rcases hcanon with hc | hc
        · cases hc
        · cases hc.value_inv
      | hash hnode hhash hsaved hheld htop =>
        have hhashed := Rep.hash hnode hhash hsaved hheld htop
        obtain ⟨m, hm, hnothash, hmrep⟩ := resolveHash_rep hsize hhashed hhex gen []
        have hcalls : callsFrom m (x :: rest).length ≤ r := by
          rw [callsFrom_hash] at hrounds
          rw [callsFrom_of_not hnothash]
          omega
        obtain ⟨nodes, hnodes, hspec⟩ := ih hmrep hcanon hhex hcalls
        refine ⟨nodes, ?_, hspec⟩
        rw [Trie.pathNodes, hm]
        · exact hnodes
        · exact cons_ne_nil x rest
      | @short _ k c f s hc hf =>
        obtain ⟨m, hm, hk, hwf, -⟩ := (hcanon.resolve_left (by simp)).short_inv
        have hnode : isNode (.short k s) = true := rfl
        rw [Trie.pathNodes, below]
        swap
        · exact cons_ne_nil x rest
        by_cases htake : (x :: rest).take k.length = k
        · have hlen : ((x :: rest).drop k.length).length = m := by
            rw [length_drop]
            omega
          have hcalls : callsFrom c ((x :: rest).drop k.length).length ≤ r := by
            have hpos := length_pos_of_ne_nil hk
            have := callsFrom_le c m
            rw [callsFrom_of_not rfl] at hrounds
            rw [hlen]
            omega
          obtain ⟨nodes, hnodes, hspec⟩ :=
            ih hc (hlen ▸ .inr hwf) hhex.2 hcalls
          rw [if_neg (not_or.2 ⟨by omega, not_not.2 htake⟩), if_pos htake, hnodes]
          refine ⟨.short k c f :: nodes, rfl, fun i => ?_⟩
          rw [proofElements_cons (.short hc hf) hnode hhex rfl, hspec,
            if_neg (fun h : i + 1 = 0 ∧ _ => Nat.succ_ne_zero i h.1)]
          simp only [hnode, and_true]
        · rw [if_pos (.inr htake), if_neg htake]
          refine ⟨_, rfl, fun i => ?_⟩
          rw [proofElements_cons (.short hc hf) hnode hhex rfl]
          simp only [hnode, and_true, proofElements]
      | @full _ cs f ts hcs hf =>
        obtain ⟨m, hm, -, hwf⟩ := (hcanon.resolve_left (by simp)).full_inv
        have hnode : isNode (.full ts) = true := rfl
        have hcalls : callsFrom (cs x) rest.length ≤ r := by
          have := callsFrom_le (cs x) rest.length
          rw [callsFrom_of_not rfl, length_cons] at hrounds
          omega
        have hcanon' : PTree.Canon rest.length (ts x) := by
          rw [Nat.succ.inj hm]
          exact hwf x
        obtain ⟨nodes, hnodes, hspec⟩ := ih (hcs x) hcanon' (hhex.2 x).2 hcalls
        rw [Trie.pathNodes, below, hnodes]
        refine ⟨.full cs f :: nodes, rfl, fun i => ?_⟩
        rw [proofElements_cons (.full hcs hf) hnode hhex rfl, hspec,
          if_neg (fun h : i + 1 = 0 ∧ _ => Nat.succ_ne_zero i h.1)]
        simp only [hnode, and_true]

/-- **The proof of a key is its path.** -/
theorem prove_rep {len : ℕ} (hsize : SizesOk db) {trie : Trie} {c : Contents}
    (hshows : Shows len t c) (hrep : Rep db true trie.root t) (hnode : isNode t = true)
    {key : Bytes} (hkey : key.length = len) :
    trie.prove db key = .ok (enc t :: below t (keybytesToHex key)) := by
  have hlen : (keybytesToHex key).length = 2 * len + 1 := by rw [length_keybytesToHex, hkey]
  have hcalls : callsFrom trie.root (keybytesToHex key).length ≤
      Trie.rounds (keybytesToHex key) := callsFrom_le _ _
  obtain ⟨nodes, hnodes, hspec⟩ := pathNodes_rep hsize trie.cachegen hrep
    (hlen ▸ hshows.canon) hshows.hexOk hcalls
  unfold Trie.prove
  dsimp only
  rw [hnodes]
  have helements := hspec 0
  rw [if_pos ⟨rfl, hnode⟩] at helements
  exact congrArg Except.ok helements

/-- **Proofs are complete and sound**: the proof of a key passes with the value of the key, and
whatever passes, passes with that value. -/
theorem proof_complete_sound {P : Set Bytes} {len : ℕ} {s : Session} {m : Meaning}
    (hP : RootDigests P) (h : Reach P len s m) (hpool : Pooled P len m.contents)
    (hne : ∃ key : Bytes, key.length = len ∧ m.contents key ≠ none) {key : Bytes}
    (hkey : key.length = len) : ∃ root t, s.trie.hash = .ok (root, t) ∧
      (∃ proof, s.trie.prove s.db key = .ok proof ∧
        verifyProof root key proof = .ok (m.contents key)) ∧
      ∀ proof : List Bytes, Set.InjOn keccak256 (P ∪ {e | e ∈ proof}) →
        ∀ v, verifyProof root key proof = .ok v → v = m.contents key := by
  obtain ⟨hdb, ⟨t, hshows, hrep⟩, -⟩ := h.good hP
  have hnode : isNode t = true := by
    refine hshows.nil_or_isNode.resolve_left fun hnil => ?_
    obtain ⟨k, hk, hsome⟩ := hne
    rw [← hshows.find k hk, hnil] at hsome
    exact hsome rfl
  have hlen : (keybytesToHex key).length = 2 * len + 1 := by rw [length_keybytesToHex, hkey]
  have hverify : ∀ proof : List Bytes, Set.InjOn keccak256 (P ∪ {e | e ∈ proof}) → ∀ v,
      verifyProof (rootHash t) key proof = .ok v ↔
        proof = enc t :: below t (keybytesToHex key) ∧ v = m.contents key := by
    intro proof hinj v
    rw [rootHash_of_isNode hnode, ← hshows.find key hkey]
    exact verifyFrom_eq_ok_iff hP.toDigests hinj hnode (hlen ▸ hshows.canon) hshows.hexOk
      (hpool t hshows) 0 v
  obtain ⟨trie, hhash, -⟩ := hash_rep hshows hrep
  refine ⟨rootHash t, trie, hhash, ⟨_, prove_rep (hdb.sizes hP.toDigests) hshows hrep hnode hkey,
    ?_⟩, fun proof hinj v hv => ((hverify proof hinj v).1 hv).2⟩
  -- the elements of the proof are encodings of the tree
  refine (hverify _ (hP.inj.mono (Set.union_subset (fun _ h => h) fun e he => ?_)) _).2 ⟨rfl, rfl⟩
  refine hpool t hshows e ?_
  rcases mem_cons.1 he with rfl | he
  · exact enc_mem_encodings hnode
  · exact below_subset t _ he

end Paths

open TwoKeys in
theorem proof_complete_sound_twoKeys : ∃ s root t proof,
    Reach {e | e ∈ pool} 1 s ⟨both, []⟩ ∧ s.trie.hash = .ok (root, t) ∧
      s.trie.prove s.db [0x12] = .ok proof ∧
      verifyProof root [0x12] proof = .ok (some valueA) ∧
      ∀ v, verifyProof root [0x12] [branch, leafB] = .ok v →
        v = some valueA := by
  have hkey : ([0x12] : Bytes).length = 1 := rfl
  obtain ⟨s, h⟩ := exists_reach
  obtain ⟨root, t, hhash, ⟨proof, hproof, hverify⟩, hsound⟩ :=
    proof_complete_sound rootDigests h pooled ⟨[0x12], rfl, by decide⟩ hkey
  refine ⟨s, root, t, proof, h, hhash, hproof, hverify, hsound _ ?_⟩
  have hsub : ∀ e ∈ [branch, leafB], e ∈ pool := by decide
  exact rootDigests.inj.mono (Set.union_subset (fun _ h => h) hsub)

end MerkleTrie
