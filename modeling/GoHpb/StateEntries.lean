/-
**What belongs to a state.**

A state consists of the nodes of the account trie, and for each account of the nodes of its storage
trie and of its code.  All of them are byte strings that are stored under their hash.  A node
refers to its children that are not embedded in it; a leaf of the account trie refers to the root of
a storage trie and to a code.

The entries are named by what they are, and not by their hash: the same byte string may be a trie
node and a code.

Main results:

* `links_eq_nil_of_small`, `length_lt_of_small` — an embedded node refers to nothing;
* `decodeAccount_encode` — accounts are read back;
* `StateTries.Reachable.entryOk` — what holds for every entry of a state.
-/

import GoHpb.TrieSync
import GoHpb.RlpRoundTrip

namespace MerkleTrie

open Patricia List

/-! ### Stored nodes -/

/-- All values of a tree. -/
def values : TrieTree → List Bytes
  | .nil => []
  | .value v => [v]
  | .short _ c => values c
  | .full cs => (List.ofFn fun i => values (cs i)).flatten

section Nodes

variable [Crypto]

/-- A node that its parent holds by its hash. -/
def ByHash (t : TrieTree) : Prop := isNode t = true ∧ 32 ≤ (enc t).length

instance (t : TrieTree) : Decidable (ByHash t) := by
  unfold ByHash
  infer_instance

/-- The nodes that a stored node refers to by their hash, through the nodes that are embedded in
it. -/
def links : TrieTree → List TrieTree
  | .nil => []
  | .value _ => []
  | .short _ c => if ByHash c then [c] else links c
  | .full cs => (List.ofFn fun i => if ByHash (cs i) then [cs i] else links (cs i)).flatten

/-- The values in a stored node. -/
def leafValues : TrieTree → List Bytes
  | .nil => []
  | .value v => [v]
  | .short _ c => if ByHash c then [] else leafValues c
  | .full cs => (List.ofFn fun i => if ByHash (cs i) then [] else leafValues (cs i)).flatten

variable {t c : TrieTree}

theorem lt_length_enc_of_byHash {l : List Rlp.Item} (ht : treeItem t = .list l)
    (hmem : linkItem c ∈ l) (hc : ByHash c) : 32 < (enc t).length := by
  have hlink : linkItem c = .str (Crypto.keccak256 (enc c)).bytes := by
    rcases linkItem_cases hc.1 with ⟨hsmall, -⟩ | ⟨-, hlink⟩
    · exact absurd hc.2 (not_le.2 hsmall)
    · exact hlink
  have hlt := length_encode_lt_of_mem hmem
  rw [hlink, ← ht, Rlp.encode] at hlt
  have hle := Rlp.length_le_encodeString (Crypto.keccak256 (enc c)).bytes
  rw [FixedBytes.length_bytes] at hle
  exact lt_of_le_of_lt hle hlt

theorem small_child {l : List Rlp.Item} (ht : treeItem t = .list l)
    (hmem : linkItem c ∈ l) (hsmall : (enc t).length < 32) :
    ¬ ByHash c ∧ (isNode c = true → (enc c).length < 32) ∧ ∀ v, c = .value v → v.length < 32 := by
  have hnot : ¬ ByHash c := fun hc => by
    have := lt_length_enc_of_byHash ht hmem hc
    omega
  refine ⟨hnot, fun hnode => not_le.1 fun hle => hnot ⟨hnode, hle⟩, ?_⟩
  rintro v rfl
  have hlt := length_encode_lt_of_mem hmem
  have hle : v.length ≤ (Rlp.encode (linkItem (.value v))).length :=
    Rlp.length_le_encodeString v
  rw [← ht] at hlt
  change _ < (enc t).length at hlt
  omega

/-- **An embedded node refers to nothing.** -/
theorem links_eq_nil_of_small {t : TrieTree} (hsmall : isNode t = true → (enc t).length < 32) :
    links t = [] := by
  induction t with
  | nil | value v => rfl
  | short k c ih =>
    obtain ⟨hnot, hc, -⟩ := small_child (treeItem_short k c) (c := c) (by simp) (hsmall rfl)
    rw [links, if_neg hnot]
    exact ih hc
  | full cs ih =>
    rw [links, flatten_eq_nil_iff]
    intro l hl
    obtain ⟨i, rfl⟩ := mem_ofFn.1 hl
    obtain ⟨hnot, hc, -⟩ :=
      small_child (treeItem_full cs) (mem_ofFn.2 ⟨i, rfl⟩) (hsmall rfl)
    rw [if_neg hnot]
    exact ih i hc

theorem length_lt_of_small {t : TrieTree} (hnode : isNode t = true) (hsmall : (enc t).length < 32)
    {v : Bytes} (hv : v ∈ leafValues t) : v.length < 32 := by
  have hchild : ∀ c : TrieTree, (isNode c = true → (enc c).length < 32 → ∀ v ∈ leafValues c,
      v.length < 32) → (isNode c = true → (enc c).length < 32) →
      (∀ v, c = .value v → v.length < 32) → ∀ v ∈ leafValues c, v.length < 32 := by
    intro c ih hc hvalue v hv
    cases c with
    | nil => cases hv
    | value w => exact hvalue v (congrArg _ (mem_singleton.1 hv).symm)
    | short k d | full ds => exact ih rfl (hc rfl) v hv
  induction t generalizing v with
  | nil | value w => cases hnode
  | short k c ih =>
    obtain ⟨hnot, hc, hvalue⟩ := small_child (treeItem_short k c) (c := c) (by simp) hsmall
    rw [leafValues, if_neg hnot] at hv
    exact hchild c (fun hn hs w hw => ih hn hs hw) hc hvalue v hv
  | full cs ih =>
    obtain ⟨l, hl, hv⟩ := mem_flatten.1 hv
    obtain ⟨i, rfl⟩ := mem_ofFn.1 hl
    obtain ⟨hnot, hc, hvalue⟩ :=
      small_child (treeItem_full cs) (mem_ofFn.2 ⟨i, rfl⟩) hsmall
    rw [if_neg hnot] at hv
    exact hchild (cs i) (fun hn hs w hw => ih i hn hs hw) hc hvalue v hv

theorem links_induction {Q : TrieTree → Prop} (hshort : ∀ k c, Q (.short k c) → Q c)
    (hfull : ∀ cs i, Q (.full cs) → Q (cs i)) (ht : Q t)
    (hc : c ∈ links t) : Q c ∧ isNode c = true := by
  have hchild : ∀ d : TrieTree, Q d → (c ∈ links d → Q c ∧ isNode c = true) →
      c ∈ (if ByHash d then [d] else links d) → Q c ∧ isNode c = true := by
    intro d hd ih hmem
    split_ifs at hmem with hbig
    · obtain rfl := mem_singleton.1 hmem
      exact ⟨hd, hbig.1⟩
    · exact ih hmem
  induction t with
  | nil | value v => cases hc
  | short k d ih => exact hchild d (hshort k d ht) (ih (hshort k d ht)) hc
  | full ds ih =>
    obtain ⟨l, hl, hc⟩ := mem_flatten.1 hc
    obtain ⟨i, rfl⟩ := mem_ofFn.1 hl
    exact hchild (ds i) (hfull ds i ht) (ih i (hfull ds i ht)) hc

theorem leafValues_subset (t : TrieTree) : leafValues t ⊆ values t := by
  induction t with
  | nil => exact nil_subset _
  | value v => exact fun _ h => h
  | short k c ih =>
    rw [leafValues]
    split_ifs
    · exact nil_subset _
    · exact ih
  | full cs ih =>
    intro v hv
    obtain ⟨l, hl, hv⟩ := mem_flatten.1 hv
    obtain ⟨i, rfl⟩ := mem_ofFn.1 hl
    refine mem_flatten.2 ⟨values (cs i), mem_ofFn.2 ⟨i, rfl⟩, ?_⟩
    split_ifs at hv
    · cases hv
    · exact ih i hv

end Nodes

/-! ### Accounts -/

variable (nonce : UInt64) (balance : ℕ) (root : Hash) (codeHash : Bytes)

/-- An account. -/
def mkAccount : accountTy.Value :=
  (nonce, balance, root, codeHash, ())

/-- `rlp.EncodeToBytes` of an account. -/
def encodeAccount : Bytes :=
  accountTy.encodeToBytes (mkAccount nonce balance root codeHash)

theorem encodeAccount_eq :
    encodeAccount nonce balance root codeHash =
      accountTy.enc (mkAccount nonce balance root codeHash) := Rlp.Ty.encodeToBytes_eq _ _

/-- **Accounts are read back.** -/
theorem decodeAccount_encode {nonce : UInt64} {balance : ℕ} {root : Hash} {codeHash : Bytes}
    (hlen : (encodeAccount nonce balance root codeHash).length < 2 ^ 64) :
    decodeAccount (encodeAccount nonce balance root codeHash) =
      .ok (mkAccount nonce balance root codeHash) := by
  rw [encodeAccount_eq] at hlen ⊢
  have hround : accountTy.RoundTrips (mkAccount nonce balance root codeHash) := by
    refine ⟨trivial, fun _ h => h, trivial, fun _ h => h, trivial, fun _ h => ?_, ?_, ?_, trivial⟩
    · have hbytes : FixedBytes.bytes root = [0] := h
      have hlength := congrArg List.length hbytes
      rw [FixedBytes.length_bytes] at hlength
      cases hlength
    · exact fun a _ => ⟨trivial, fun h => h⟩
    · exact fun h => absurd rfl h
  obtain ⟨s', hdecode, -⟩ := Rlp.yields_decode accountTy _ _ hround (Rlp.Front.new _) hlen
    (Nat.lt_succ_self _)
  unfold decodeAccount
  rw [hdecode]

theorem lt_length_encodeAccount (nonce : UInt64) (balance : ℕ) (root : Hash) (codeHash : Bytes) :
    32 < (encodeAccount nonce balance root codeHash).length := by
  rw [encodeAccount_eq]
  have hmem : Rlp.Item.str root.bytes ∈ [Rlp.Item.str (bigBytes nonce.toNat),
      Rlp.Item.str (bigBytes balance), Rlp.Item.str root.bytes, Rlp.Item.str codeHash] := by simp
  have hlt := length_encode_lt_of_mem hmem
  have hle := Rlp.length_le_encodeString root.bytes
  rw [FixedBytes.length_bytes] at hle
  exact lt_of_le_of_lt hle hlt

/-! ### Entries -/

/-- An entry of a state. -/
inductive StateEntry where
  | account (t : TrieTree)
  | storage (t : TrieTree)
  | code (c : Bytes)

/-- The tries of a state: storage and code are given by the value of an account. -/
structure StateTries where
  accounts : TrieTree
  storage : Bytes → TrieTree
  code : Bytes → Bytes

section Entries

variable [Crypto]

/-- The byte string that is stored for an entry. -/
def StateEntry.data : StateEntry → Bytes
  | .account t => enc t
  | .storage t => enc t
  | .code c => c

/-- The key that it is stored under. -/
def StateEntry.key (x : StateEntry) : Hash := Crypto.keccak256 x.data

namespace StateTries

variable (w : StateTries)

/-- What an account refers to. -/
def leafRefs (v : Bytes) : List StateEntry :=
  (if isNode (w.storage v) then [.storage (w.storage v)] else []) ++
    if w.code v = [] then [] else [.code (w.code v)]

/-- What an entry refers to. -/
def refs : StateEntry → List StateEntry
  | .account t => (links t).map .account ++ (leafValues t).flatMap w.leafRefs
  | .storage t => (links t).map .storage
  | .code _ => []

/-- The entries of the state. -/
inductive Reachable : StateEntry → Prop where
  | root : Reachable (.account w.accounts)
  | ref {x y : StateEntry} (h : Reachable x) (hy : y ∈ w.refs x) : Reachable y

/-- The value of an account, with a storage trie and a code. -/
structure LeafOk (P : Set Bytes) (v : Bytes) : Prop where
  account : ∃ nonce balance,
    v = encodeAccount nonce balance (rootHash (w.storage v)) (Crypto.keccak256 (w.code v)).bytes
  storage : w.storage v = .nil ∨ isNode (w.storage v) = true
  hex : HexOk (w.storage v)
  pool : ∀ e ∈ encodings (w.storage v), e ∈ P
  code : w.code v ∈ P

/-- The accounts are the ones of the tries, and all byte strings are in play. -/
structure Sound (P : Set Bytes) : Prop where
  node : isNode w.accounts = true
  hex : HexOk w.accounts
  pool : ∀ e ∈ encodings w.accounts, e ∈ P
  leaf : ∀ v ∈ values w.accounts, w.LeafOk P v
  empty : [] ∈ P

/-- Equal byte strings refer to the same byte strings, whatever they are in the state. -/
def Unambiguous : Prop :=
  ∀ x y, w.Reachable x → w.Reachable y → x.data = y.data →
    ∀ z ∈ w.refs x, ∃ z' ∈ w.refs y, z'.data = z.data

/-- What holds for an entry of a sound state. -/
def EntryOk (P : Set Bytes) : StateEntry → Prop
  | .account t => isNode t = true ∧ HexOk t ∧ (∀ e ∈ encodings t, e ∈ P) ∧
      ∀ v ∈ values t, w.LeafOk P v
  | .storage t => isNode t = true ∧ HexOk t ∧ ∀ e ∈ encodings t, e ∈ P
  | .code c => c ∈ P ∧ c ≠ []

variable {w} {P : Set Bytes}

theorem EntryOk.mem {x : StateEntry} (h : w.EntryOk P x) : x.data ∈ P := by
  cases x with
  | account t => exact h.2.2.1 _ (enc_mem_encodings h.1)
  | storage t => exact h.2.2 _ (enc_mem_encodings h.1)
  | code c => exact h.1

theorem nodeOk_of_link {t c : TrieTree} (hhex : HexOk t) (hpool : ∀ e ∈ encodings t, e ∈ P)
    {V : Set Bytes} (hvalues : ∀ v ∈ values t, v ∈ V) (hc : c ∈ links t) :
    isNode c = true ∧ HexOk c ∧ (∀ e ∈ encodings c, e ∈ P) ∧ ∀ v ∈ values c, v ∈ V := by
  have h := links_induction
    (Q := fun t => HexOk t ∧ (∀ e ∈ encodings t, e ∈ P) ∧ ∀ v ∈ values t, v ∈ V)
    (fun k c h => ⟨h.1.2, fun e he => h.2.1 e (encodings_short_subset k c he), h.2.2⟩)
    (fun cs i h => ⟨(h.1.2 i).2, fun e he => h.2.1 e (encodings_full_subset cs i he),
      fun v hv => h.2.2 v (mem_flatten.2 ⟨_, mem_ofFn.2 ⟨i, rfl⟩, hv⟩)⟩)
    ⟨hhex, hpool, hvalues⟩ hc
  exact ⟨h.2, h.1⟩

/-- **What holds for every entry of a state.** -/
theorem Reachable.entryOk (hw : w.Sound P) {x : StateEntry} (h : w.Reachable x) :
    w.EntryOk P x := by
  induction h with
  | root => exact ⟨hw.node, hw.hex, hw.pool, hw.leaf⟩
  | @ref x y _ hy ih =>
    cases x with
    | account t =>
      obtain ⟨-, hhex, hpool, hleaf⟩ := ih
      rcases mem_append.1 hy with hy | hy
      · obtain ⟨c, hc, rfl⟩ := mem_map.1 hy
        exact nodeOk_of_link (V := {v | w.LeafOk P v}) hhex hpool hleaf hc
      obtain ⟨v, hv, hy⟩ := mem_flatMap.1 hy
      have hok := hleaf v (leafValues_subset t hv)
      rcases mem_append.1 hy with hy | hy
      · split_ifs at hy with hnode
        · obtain rfl := mem_singleton.1 hy
          exact ⟨hnode, hok.hex, hok.pool⟩
        · cases hy
      · split_ifs at hy with hcode
        · cases hy
        · obtain rfl := mem_singleton.1 hy
          exact ⟨hok.code, hcode⟩
    | storage t =>
      obtain ⟨-, hhex, hpool⟩ := ih
      obtain ⟨c, hc, rfl⟩ := mem_map.1 hy
      obtain ⟨hnode, hhex', hpool', -⟩ :=
        nodeOk_of_link (V := Set.univ) hhex hpool (fun _ _ => trivial) hc
      exact ⟨hnode, hhex', hpool'⟩
    | code c => cases hy

end StateTries

end Entries

end MerkleTrie
