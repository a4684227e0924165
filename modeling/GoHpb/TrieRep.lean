/-
**Nodes in memory, nodes in the database, and the tree they stand for.**

A trie is spread over the memory and the database: some nodes are loaded, some are known by their
hash only, and some are part of their parent's encoding.  The relation `Rep` says which resolved
tree a node stands for.  It also says what the flags promise: a cached hash is the hash of the
node's encoding, and a clean node with a cached hash is in the database with everything below it.

The root is treated separately, since the hasher gives it a hash however short it is; a short node
anywhere else has no hash.

Main results:

* `decodeNode_enc`, `rep_expand` — **decoding an encoded tree gives a node that stands for it**.
-/

import GoHpb.Trie
import GoHpb.TrieCode

namespace MerkleTrie

open Patricia List Rlp Crypto

/-- Every entry of the first database is in the second one. -/
def Extends (db db' : NodeDb) : Prop := ∀ h e, db.lookup h = some e → db'.lookup h = some e

theorem Extends.refl (db : NodeDb) : Extends db db := fun _ _ h => h

theorem Extends.trans {db db' db'' : NodeDb} (h : Extends db db') (h' : Extends db' db'') :
    Extends db db'' := fun k e hk => h' k e (h k e hk)

variable [Crypto]

/-! ### What a node stands for -/

/-- The encoding of a node is in the database. -/
def Saved (db : NodeDb) (t : TrieTree) : Prop :=
  db.lookup (keccak256 (enc t)) = some (enc t)

/-- A child that its parent holds by its hash is in the database. -/
def Linked (db : NodeDb) (t : TrieTree) : Prop :=
  isNode t = true → 32 ≤ (enc t).length → Saved db t

/-- All nodes below a node that are held by their hash are in the database. -/
def Held (db : NodeDb) : TrieTree → Prop
  | .nil => True
  | .value _ => True
  | .short _ c => Linked db c ∧ Held db c
  | .full cs => ∀ i, Linked db (cs i) ∧ Held db (cs i)

/-- What the flags of a node promise; `top` is set for the root. -/
structure FlagOk (db : NodeDb) (top : Bool) (f : NodeFlag) (t : TrieTree) : Prop where
  hash : ∀ h, f.hash = some h → h = keccak256 (enc t)
  size : ∀ h, f.hash = some h → top = false → 32 ≤ (enc t).length
  clean : ∀ h, f.hash = some h → f.dirty = false → Saved db t ∧ Held db t
  small : f.hash = none → f.dirty = false → top = false ∧ (enc t).length < 32

/-- **The tree that a node stands for.** -/
inductive Rep (db : NodeDb) : Bool → Node → TrieTree → Prop where
  | nil (top : Bool) : Rep db top .nil .nil
  | value (top : Bool) (v : Bytes) : Rep db top (.value v) (.value v)
  | hash {top : Bool} {h : Hash} {t : TrieTree} (hnode : isNode t = true)
      (hhash : h = keccak256 (enc t)) (hsaved : Saved db t) (hheld : Held db t)
      (hsize : top = false → 32 ≤ (enc t).length) : Rep db top (.hash h) t
  | short {top : Bool} {k : List Nibble} {c : Node} {f : NodeFlag} {t : TrieTree}
      (hc : Rep db false c t) (hf : FlagOk db top f (.short k t)) :
      Rep db top (.short k c f) (.short k t)
  | full {top : Bool} {cs : Fin 17 → Node} {f : NodeFlag} {ts : Fin 17 → TrieTree}
      (hcs : ∀ i, Rep db false (cs i) (ts i)) (hf : FlagOk db top f (.full ts)) :
      Rep db top (.full cs f) (.full ts)

section Basics

variable {db db' : NodeDb} {top : Bool} {n : Node} {t : TrieTree} {f : NodeFlag}

theorem Saved.mono (hext : Extends db db') (h : Saved db t) : Saved db' t := hext _ _ h

theorem Held.mono (hext : Extends db db') : ∀ {t : TrieTree}, Held db t → Held db' t
  | .nil, _ => trivial
  | .value _, _ => trivial
  | .short _ _, h => ⟨fun hn hs => (h.1 hn hs).mono hext, Held.mono hext h.2⟩
  | .full _, h => fun i => ⟨fun hn hs => ((h i).1 hn hs).mono hext, Held.mono hext (h i).2⟩

theorem FlagOk.mono (hext : Extends db db') (h : FlagOk db top f t) : FlagOk db' top f t where
  hash := h.hash
  size := h.size
  clean := fun k hk hd => ⟨(h.clean k hk hd).1.mono hext, (h.clean k hk hd).2.mono hext⟩
  small := h.small

/-- **More entries in the database change nothing.** -/
theorem Rep.mono (hext : Extends db db') (h : Rep db top n t) : Rep db' top n t := by
  induction h with
  | nil top => exact .nil top
  | value top v => exact .value top v
  | hash hnode hhash hsaved hheld hsize =>
    exact .hash hnode hhash (hsaved.mono hext) (hheld.mono hext) hsize
  | short hc hf ih => exact .short ih (hf.mono hext)
  | full hcs hf ih => exact .full ih (hf.mono hext)

theorem flagOk_newFlag (db : NodeDb) (top : Bool) (gen : UInt16) (t : TrieTree) :
    FlagOk db top (Trie.newFlag gen) t where
  hash := fun h hh => by cases hh
  size := fun h hh => by cases hh
  clean := fun h hh => by cases hh
  small := fun _ hd => by cases hd

theorem flagOk_embedded (db : NodeDb) (gen : UInt16) (h : (enc t).length < 32) :
    FlagOk db false ⟨none, gen, false⟩ t where
  hash := fun h hh => by cases hh
  size := fun h hh => by cases hh
  clean := fun h hh => by cases hh
  small := fun _ _ => ⟨rfl, h⟩

theorem FlagOk.setGen (h : FlagOk db top f t) (gen : UInt16) :
    FlagOk db top { f with gen := gen } t where
  hash := h.hash
  size := h.size
  clean := h.clean
  small := h.small

theorem Rep.isNil_eq (h : Rep db top n t) : n.isNil = t.isNil := by
  cases h with
  | hash hnode hhash hsaved hheld hsize => cases t <;> first | rfl | cases hnode
  | _ => rfl

theorem Rep.isValue_eq (h : Rep db top n t) : n.isValue = isValue t := by
  cases h with
  | hash hnode hhash hsaved hheld hsize => cases t <;> first | rfl | cases hnode
  | _ => rfl

end Basics

/-! ### Decoding -/

section Decode

variable {db : NodeDb}

omit [Crypto] in
theorem encodeItems_append (l m : List Rlp.Item) :
    encodeItems (l ++ m) = encodeItems l ++ encodeItems m := by
  induction l with
  | nil => rfl
  | cons i l ih => rw [cons_append, encodeItems, ih, encodeItems, append_assoc]

/-- The node that is read from the encoding of a tree: the children are embedded or held by their
hash. -/
def expand (gen : UInt16) : Option Hash → TrieTree → Node
  | _, .nil => .nil
  | _, .value v => .value v
  | hash, .short k c =>
    .short k (if isNode c ∧ 32 ≤ (enc c).length then .hash (keccak256 (enc c))
      else expand gen none c) ⟨hash, gen, false⟩
  | hash, .full cs =>
    .full (fun i => if isNode (cs i) ∧ 32 ≤ (enc (cs i)).length then
      .hash (keccak256 (enc (cs i))) else expand gen none (cs i)) ⟨hash, gen, false⟩

/-- A child of such a node. -/
def linkNode (gen : UInt16) (c : TrieTree) : Node :=
  if isNode c ∧ 32 ≤ (enc c).length then .hash (keccak256 (enc c))
  else expand gen none c

theorem expand_short (gen : UInt16) (hash : Option Hash) (k : List Nibble) (c : TrieTree) :
    expand gen hash (.short k c) = .short k (linkNode gen c) ⟨hash, gen, false⟩ := rfl

theorem isHash_expand (gen : UInt16) (hash : Option Hash) (t : TrieTree) :
    (expand gen hash t).isHash = false := by
  cases t <;> rfl

/-- The decoder works on the children that are embedded in a node. -/
def DecodesChild (gen : UInt16) (dec : Bytes → Except NodeErr Node) (c : TrieTree) : Prop :=
  isNode c = true → (enc c).length < 32 →
    ∀ rest, dec (enc c ++ rest) = .ok (expand gen none c)

variable {gen : UInt16} {dec : Bytes → Except NodeErr Node} {t : TrieTree}

theorem decodeRef_link {c : TrieTree}
    (hval : isValue c = false) (hsize : (encode (linkItem c)).length < 2 ^ 64)
    (hdec : DecodesChild gen dec c) (rest : Bytes) :
    decodeRef dec (encode (linkItem c) ++ rest) = .ok (linkNode gen c, rest) := by
  unfold decodeRef linkNode
  rw [split_encode hsize]
  by_cases hnode : isNode c = true
  · rcases linkItem_cases hnode with ⟨hsmall, hlink⟩ | ⟨hbig, hlink⟩
    · -- embedded in its parent
      obtain ⟨l, hl⟩ := exists_treeItem_eq hnode
      have hkind : (linkItem c).kind = .list := by rw [hlink, hl]; rfl
      have henc : encode (linkItem c) = enc c := by rw [hlink]; rfl
      simp only [hkind, henc, length_append, if_true]
      rw [if_neg (by omega), hdec hnode hsmall rest, if_neg (fun h => absurd h.2 (by omega))]
      rfl
    -- held by its hash
    have hlen : (keccak256 (enc c)).bytes.length = 32 := FixedBytes.length_bytes _
    have hkind : (linkItem c).kind = .string := by
      rw [hlink, Rlp.Item.kind, if_neg]
      omega
    have hcontent : (linkItem c).content = (keccak256 (enc c)).bytes := by
      rw [hlink]
      rfl
    rw [if_pos ⟨hnode, hbig⟩]
    simp [hkind, hcontent, FixedBytes.length_bytes]
  · -- nothing
    have hnil : c = .nil := by
      cases c with
      | nil => rfl
      | value v => cases hval
      | short k s | full cs => exact absurd rfl hnode
    subst hnil
    have hkind : (linkItem (.nil : TrieTree)).kind = .string := rfl
    have hcontent : (linkItem (.nil : TrieTree)).content = [] := rfl
    rw [if_neg (fun h => hnode h.1)]
    simp [hkind, hcontent, expand]

theorem decodeRefs_links (l : List TrieTree)
    (hl : ∀ c ∈ l, ∀ rest, decodeRef dec (encode (linkItem c) ++ rest) =
      .ok (linkNode gen c, rest)) (i : ℕ) (rest : Bytes) :
    decodeRefs dec l.length i (encodeItems (l.map linkItem) ++ rest) =
      .ok (l.map (linkNode gen), rest) := by
  induction l generalizing i with
  | nil => rfl
  | cons c l ih =>
    have hn := hl c (by simp) (encodeItems (l.map linkItem) ++ rest)
    have hns := ih (fun c' hc' => hl c' (by simp [hc'])) (i + 1)
    rw [map_cons, encodeItems, append_assoc, length_cons, decodeRefs, hn]
    simp only [hns, Except.map, map_cons]

theorem decodeShort_enc {k : List Nibble} {c : TrieTree}
    (hhex : HexOk (.short k c)) (hsize : (enc (.short k c)).length < 2 ^ 64)
    (hdec : DecodesChild gen dec c) (hash : Option Hash) :
    decodeShort dec hash (encodeItems [.str (hexToCompact k), linkItem c]) gen =
      .ok (expand gen hash (.short k c)) := by
  rw [enc, treeItem_short] at hsize
  have hkeysize : (encode (.str (hexToCompact k))).length < 2 ^ 64 :=
    lt_trans (length_encode_lt_of_mem (by simp)) hsize
  have hlinksize : (encode (linkItem c)).length < 2 ^ 64 :=
    lt_trans (length_encode_lt_of_mem (by simp)) hsize
  have helems : encodeItems [.str (hexToCompact k), linkItem c] =
      encode (.str (hexToCompact k)) ++ (encode (linkItem c) ++ []) := rfl
  unfold decodeShort
  rw [helems, splitString_encode hkeysize]
  simp only [compactToHex_hexToCompact hhex.key]
  have hkey := hhex.1
  by_cases hval : isValue c = true
  · rw [if_pos hval] at hkey
    obtain ⟨digits, rfl, -⟩ := hkey
    cases c with
    | value v =>
      rw [hasTerm_concat, if_pos rfl, linkItem, if_neg (by simp [isNode]), treeItem]
      have hvsize : (encode (.str v)).length < 2 ^ 64 := hlinksize
      rw [splitString_encode hvsize]
      rfl
    | _ => cases hval
  · rw [if_neg hval] at hkey
    rw [hasTerm_of_digits hkey, if_neg (by simp)]
    rw [Bool.not_eq_true] at hval
    rw [decodeRef_link hval hlinksize hdec []]
    rfl

theorem decodeFull_enc {cs : Fin 17 → TrieTree}
    (hhex : HexOk (.full cs)) (hsize : (enc (.full cs)).length < 2 ^ 64)
    (hdec : ∀ i, DecodesChild gen dec (cs i)) (hash : Option Hash) :
    decodeFull dec hash (encodeItems (List.ofFn fun i => linkItem (cs i))) gen =
      .ok (expand gen hash (.full cs)) := by
  have hlinksize : ∀ i, (encode (linkItem (cs i))).length < 2 ^ 64 := fun i =>
    lt_trans (length_encode_lt_of_mem (mem_ofFn.2 ⟨i, rfl⟩)) hsize
  let front : List TrieTree := List.ofFn fun i : Fin 16 => cs i.castSucc
  have hsplit : (List.ofFn fun i => linkItem (cs i)) =
      front.map linkItem ++ [linkItem (cs 16)] := by
    rfl
  have helems : encodeItems (List.ofFn fun i => linkItem (cs i)) =
      encodeItems (front.map linkItem) ++ (encode (linkItem (cs 16)) ++ []) := by
    rw [hsplit, encodeItems_append]
    rfl
  have hlen : front.length = 16 := length_ofFn
  have hfront : ∀ c ∈ front, ∀ rest,
      decodeRef dec (encode (linkItem c) ++ rest) = .ok (linkNode gen c, rest) := by
    intro c hc rest
    obtain ⟨i, rfl⟩ := mem_ofFn.1 hc
    exact decodeRef_link (hhex.2 _).1 (hlinksize _) (hdec _) rest
  have hns := decodeRefs_links front hfront 0 (encode (linkItem (cs 16)) ++ [])
  have hlast : splitString (encode (linkItem (cs 16)) ++ []) = .ok ([], []) := by
    rw [hhex.1]
    exact splitString_encode (by simp [encode, encodeString, puthead]) []
  have hchildren : (fun i : Fin 17 => if i = 16 then .nil
      else (front.map (linkNode gen)).getD i.val .nil) = fun i => linkNode gen (cs i) := by
    funext i
    by_cases hi : i = 16
    · subst hi
      rw [hhex.1, if_pos rfl]
      rfl
    have hcs : front.get ⟨i.val, by omega⟩ = cs i := by
      simp only [front, List.get_eq_getElem, List.getElem_ofFn]
      rfl
    rw [if_neg hi, List.getD_eq_getElem _ _ (by rw [List.length_map]; omega), List.getElem_map,
      ← hcs]
    rfl
  rw [hlen] at hns
  unfold decodeFull
  rw [helems, hns]
  simp only [hlast, length_nil, if_true, hchildren]
  rfl

omit [Crypto] in
theorem decodeNodeFrom_list {rounds : ℕ} {l : List Rlp.Item}
    (hsize : (encode (.list l)).length < 2 ^ 64) (hash : Option Hash) (gen : UInt16)
    (rest : Bytes) {n : Node}
    (hn : (l.length = 2 ∧ decodeShort (fun b => decodeNodeFrom rounds none b gen) hash
        (encodeItems l) gen = .ok n) ∨
      (l.length = 17 ∧ decodeFull (fun b => decodeNodeFrom rounds none b gen) hash
        (encodeItems l) gen = .ok n)) :
    decodeNodeFrom (rounds + 1) hash (encode (.list l) ++ rest) gen = .ok n := by
  have hne : ¬ (encode (.list l) ++ rest).length = 0 := by
    have := length_encode_pos (.list l)
    rw [length_append]
    omega
  have hcount := countValues_encodeItems (lt_of_le_of_lt (length_encodeItems_le _) hsize)
  rw [decodeNodeFrom, if_neg hne, splitList, split_encode hsize]
  rcases hn with ⟨hlen, hdec⟩ | ⟨hlen, hdec⟩
  · rw [hlen] at hcount
    simp only [Rlp.Item.kind, Rlp.Item.content, hcount, hdec, Except.mapError]
  · rw [hlen] at hcount
    simp only [Rlp.Item.kind, Rlp.Item.content, hcount, hdec, Except.mapError]

/-- **Decoding an encoded tree**, whatever follows the encoding. -/
theorem decodeNodeFrom_enc (hnode : isNode t = true) (hhex : HexOk t)
    (hsize : (enc t).length < 2 ^ 64) {rounds : ℕ} (hrounds : (enc t).length < rounds)
    (hash : Option Hash) (gen : UInt16) (rest : Bytes) :
    decodeNodeFrom rounds hash (enc t ++ rest) gen = .ok (expand gen hash t) := by
  induction t generalizing rounds hash rest with
  | nil | value v => cases hnode
  | short k c ih =>
    obtain ⟨rounds, rfl⟩ := Nat.exists_eq_succ_of_ne_zero (Nat.ne_zero_of_lt hrounds)
    have hdec : DecodesChild gen (fun b => decodeNodeFrom rounds none b gen) c := by
      intro hnodec hsmall rest'
      have hin := length_enc_lt_of_link hnodec hsmall (treeItem_short k c) (by simp)
      have hlt : (enc c).length < rounds := by omega
      exact ih hnodec hhex.2 (by omega) hlt none rest'
    have hr := decodeShort_enc hhex hsize hdec hash
    exact decodeNodeFrom_list hsize hash gen rest (.inl ⟨rfl, hr⟩)
  | full cs ih =>
    obtain ⟨rounds, rfl⟩ := Nat.exists_eq_succ_of_ne_zero (Nat.ne_zero_of_lt hrounds)
    have hdec : ∀ i, DecodesChild gen (fun b => decodeNodeFrom rounds none b gen) (cs i) := by
      intro i hnodec hsmall rest'
      have hin := length_enc_lt_of_link hnodec hsmall (treeItem_full cs) (mem_ofFn.2 ⟨i, rfl⟩)
      have hlt : (enc (cs i)).length < rounds := by omega
      exact ih i hnodec (hhex.2 i).2 (by omega) hlt none rest'
    have hns := decodeFull_enc hhex hsize hdec hash
    exact decodeNodeFrom_list hsize hash gen rest (.inr ⟨length_ofFn, hns⟩)

theorem decodeNode_enc (hnode : isNode t = true) (hhex : HexOk t)
    (hsize : (enc t).length < 2 ^ 64) (hash : Option Hash) (gen : UInt16) :
    decodeNode hash (enc t) gen = .ok (expand gen hash t) := by
  have hdec := decodeNodeFrom_enc hnode hhex hsize (Nat.lt_succ_self _) hash gen []
  rw [append_nil] at hdec
  exact hdec

/-- **The node that is read from an encoding stands for the tree.** -/
theorem rep_expand (hheld : Held db t) {top : Bool} {hash : Option Hash}
    (hf : FlagOk db top ⟨hash, gen, false⟩ t) : Rep db top (expand gen hash t) t := by
  have hlink : ∀ c, Linked db c → (∀ hash, FlagOk db false ⟨hash, gen, false⟩ c →
      Rep db false (expand gen hash c) c) → Held db c → Rep db false (linkNode gen c) c := by
    intro c hlinked hrep hheld
    unfold linkNode
    split_ifs with hbig
    · exact .hash hbig.1 rfl (hlinked hbig.1 hbig.2) hheld fun _ => hbig.2
    by_cases hnode : isNode c = true
    · exact hrep none (flagOk_embedded db gen (not_le.1 fun hle => hbig ⟨hnode, hle⟩))
    cases c with
    | nil => exact .nil false
    | value v => exact .value false v
    | short k c | full cs => exact absurd rfl hnode
  induction t generalizing top hash with
  | nil => exact .nil top
  | value v => exact .value top v
  | short k c ih => exact .short (hlink c hheld.1 (fun _ hf => ih hheld.2 hf) hheld.2) hf
  | full cs ih =>
    exact .full (fun i => hlink (cs i) (hheld i).1 (fun _ hf => ih i (hheld i).2 hf) (hheld i).2) hf

/-- **Loading a node does not change what the trie stands for.** -/
theorem resolveHash_rep (hsize : ∀ h e, db.lookup h = some e → e.length < 2 ^ 64) {top : Bool}
    {h : Hash} (hrep : Rep db top (.hash h) t) (hhex : HexOk t) (gen : UInt16)
    (path : List Nibble) :
    ∃ n, Trie.resolveHash db gen h path = .ok n ∧ n.isHash = false ∧ Rep db top n t := by
  cases hrep with
  | hash hnode hhash hsaved hheld htop =>
    subst hhash
    have hflag : FlagOk db top ⟨some (keccak256 (enc t)), gen, false⟩ t :=
      ⟨fun k hk => (Option.some.inj hk).symm, fun _ _ => htop, fun _ _ _ => ⟨hsaved, hheld⟩,
        fun hk => by cases hk⟩
    refine ⟨_, ?_, isHash_expand gen _ t, rep_expand hheld hflag⟩
    have hlookup : db.lookup (keccak256 (enc t)) = some (enc t) := hsaved
    rw [Trie.resolveHash, hlookup]
    simp only [decodeNode_enc hnode hhex (hsize _ _ hsaved)]

end Decode

end MerkleTrie
