/-
**The Merkle encoding of a resolved trie.**

What the nodes in memory and in the database stand for is a compressed tree in which every node is
present (`TrieTree`).  Such a tree has one encoding: a node holds each of its children, if their
encoding is shorter than 32 bytes, or else the hash of the encoding.  This module defines the
encoding on trees and proves that a tree is determined by it, as long as the digests of the
encodings in play are different.

Main results:

* `enc_inj` — **a tree is determined by its encoding**.
-/

import GoHpb.TrieNode
import GoHpb.PatriciaTree

namespace MerkleTrie

open Patricia List Rlp.Item

/-- A trie with all its nodes. -/
abbrev TrieTree : Type := PTree 17 Bytes

/-! ### Encoding -/

/-- A branch or a run of digits. -/
def isNode : TrieTree → Bool
  | .short _ _ => true
  | .full _ => true
  | _ => false

def isValue : TrieTree → Bool
  | .value _ => true
  | _ => false

section Encoding

variable [Crypto]

/-- What the parent of a node holds: the node, if it is short, or its hash. -/
def refItem (i : Rlp.Item) : Rlp.Item :=
  if (Rlp.encode i).length < 32 then i else .str (Crypto.keccak256 (Rlp.encode i)).bytes

/-- What is encoded for a tree. -/
def treeItem : TrieTree → Rlp.Item
  | .nil => .str []
  | .value v => .str v
  | .short k c => .list
      [.str (hexToCompact k), if isNode c then refItem (treeItem c) else treeItem c]
  | .full cs => .list
      (List.ofFn fun i => if isNode (cs i) then refItem (treeItem (cs i)) else treeItem (cs i))

/-- What the parent of a tree holds. -/
def linkItem (t : TrieTree) : Rlp.Item := if isNode t then refItem (treeItem t) else treeItem t

/-- The encoding of a tree. -/
def enc (t : TrieTree) : Bytes := Rlp.encode (treeItem t)

/-- The encodings of all nodes of a tree. -/
def encodings : TrieTree → List Bytes
  | .nil => []
  | .value _ => []
  | .short k c => enc (.short k c) :: encodings c
  | .full cs => enc (.full cs) :: (List.ofFn fun i => encodings (cs i)).flatten

/-- The digests of a set of encodings: different encodings have different digests, and all of them
can be written. -/
structure Digests (P : Set Bytes) : Prop where
  inj : Set.InjOn Crypto.keccak256 P
  size : ∀ e ∈ P, e.length < 2 ^ 64

theorem treeItem_short (k : List Nibble) (c : TrieTree) :
    treeItem (.short k c) = .list [.str (hexToCompact k), linkItem c] := rfl

theorem treeItem_full (cs : Fin 17 → TrieTree) :
    treeItem (.full cs) = .list (List.ofFn fun i => linkItem (cs i)) := rfl

variable {t : TrieTree}

theorem exists_treeItem_eq (h : isNode t = true) : ∃ l, treeItem t = .list l := by
  cases t with
  | nil | value v => cases h
  | short k c => exact ⟨_, treeItem_short k c⟩
  | full cs => exact ⟨_, treeItem_full cs⟩

theorem enc_mem_encodings (h : isNode t = true) : enc t ∈ encodings t := by
  cases t with
  | nil | value v => cases h
  | short k c | full cs => exact mem_cons_self

theorem encodings_short_subset (k : List Nibble) (c : TrieTree) :
    encodings c ⊆ encodings (.short k c) := by
  intro e he
  exact mem_cons_of_mem _ he

theorem encodings_full_subset (cs : Fin 17 → TrieTree) (i : Fin 17) :
    encodings (cs i) ⊆ encodings (.full cs) := by
  intro e he
  refine mem_cons_of_mem _ (mem_flatten.2 ⟨encodings (cs i), ?_, he⟩)
  exact mem_ofFn.2 ⟨i, rfl⟩

theorem linkItem_cases (h : isNode t = true) : ((enc t).length < 32 ∧ linkItem t = treeItem t) ∨
      (32 ≤ (enc t).length ∧ linkItem t = .str (Crypto.keccak256 (enc t)).bytes) := by
  rw [linkItem, if_pos h, refItem]
  by_cases hlen : (Rlp.encode (treeItem t)).length < 32
  · exact .inl ⟨hlen, if_pos hlen⟩
  · exact .inr ⟨not_lt.1 hlen, if_neg hlen⟩

omit [Crypto] in
theorem length_encode_lt_of_mem {i : Rlp.Item} {l : List Rlp.Item} (h : i ∈ l) :
    (Rlp.encode i).length < (Rlp.encode (.list l)).length := by
  have hle : (Rlp.encode i).length ≤ (Rlp.encodeItems l).length := by
    induction l with
    | nil => cases h
    | cons j l ih =>
      rw [Rlp.encodeItems, length_append]
      rcases mem_cons.1 h with rfl | h
      · omega
      · have := ih h
        omega
  have hhead : 0 < (Rlp.puthead 0xC0 0xF7 (Rlp.encodeItems l).length).length := by
    unfold Rlp.puthead
    split_ifs <;> simp
  rw [Rlp.encode, length_append]
  omega

theorem length_enc_lt_of_link {t c : TrieTree} {l : List Rlp.Item} (hnode : isNode c = true)
    (hsmall : (enc c).length < 32) (ht : treeItem t = .list l) (hmem : linkItem c ∈ l) :
    (enc c).length < (enc t).length := by
  have hlink : linkItem c = treeItem c := by
    rcases linkItem_cases hnode with ⟨-, hlink⟩ | ⟨hbig, -⟩
    · exact hlink
    · omega
  rw [enc, enc, ht, ← hlink]
  exact length_encode_lt_of_mem hmem

end Encoding

/-! ### Terminators -/

/-- The terminator stands at the end of the keys: in a run of digits that leads to a value, and
nowhere else. -/
def HexOk : TrieTree → Prop
  | .nil => True
  | .value _ => True
  | .short k c => (if isValue c then HexKey k else HexDigits k) ∧ HexOk c
  | .full cs => cs 16 = .nil ∧ ∀ i, isValue (cs i) = false ∧ HexOk (cs i)

theorem HexOk.key {k : List Nibble} {c : TrieTree} (h : HexOk (.short k c)) :
    HexDigits k ∨ HexKey k := by
  have hkey := h.1
  split_ifs at hkey
  · exact .inr hkey
  · exact .inl hkey

theorem HexKey.of_append {k rest : List Nibble} (h : HexKey (k ++ rest)) (hrest : rest ≠ []) :
    HexDigits k ∧ HexKey rest := by
  obtain ⟨digits, heq, hdig⟩ := h
  rw [← dropLast_append_getLast hrest, ← append_assoc] at heq
  obtain ⟨hfront, hlast⟩ := append_inj' heq rfl
  have hk : HexDigits k := fun a ha => hdig a (hfront ▸ mem_append_left _ ha)
  refine ⟨hk, rest.dropLast, ?_, fun a ha => hdig a (hfront ▸ mem_append_right _ ha)⟩
  rw [← hlast, dropLast_append_getLast hrest]

/-- **A tree whose keys are hexadecimal** has its terminators where they belong. -/
theorem hexOk_of_find {n : ℕ} {t : TrieTree} (h : PTree.Wf n t)
    (hkeys : ∀ key, key.length = n → (t.find key).isSome = true → key = [] ∨ HexKey key) :
    HexOk t := by
  induction h with
  | value v => trivial
  | @short n k c hk hc hshort ih =>
    have hbelow : ∀ key, key.length = n → (c.find key).isSome = true → HexKey (k ++ key) := by
      intro key hlen hsome
      refine (hkeys (k ++ key) (by simp [hlen]) ?_).resolve_left (by simp [hk])
      rwa [PTree.find_short_append]
    refine ⟨?_, ih fun key hlen hsome => ?_⟩
    · obtain ⟨key, v, hlen, hfind⟩ := hc.exists_find
      have hkey := hbelow key hlen (by rw [hfind]; rfl)
      by_cases hval : isValue c = true
      · cases hc with
        | value w =>
          obtain rfl := length_eq_zero_iff.1 hlen
          rwa [append_nil] at hkey
        | short hk' hc' hs' | full i j hij hi hj hcs => cases hval
      · rw [if_neg hval]
        refine (hkey.of_append ?_).1
        rintro rfl
        cases hc with
        | value w => exact hval rfl
        | short hk' hc' hs' => cases hshort
        | full i j hij hi hj hcs => cases hlen
    · by_cases hnil : key = []
      · exact .inl hnil
      · exact .inr ((hbelow key hlen hsome).of_append hnil).2
  | @full n cs i j hij hi hj hcs ih =>
    have hbelow : ∀ a key, key.length = n → ((cs a).find key).isSome = true →
        HexKey ([a] ++ key) := by
      intro a key hlen hsome
      exact (hkeys (a :: key) (by simp [hlen]) hsome).resolve_left (by simp)
    -- a value directly below the branch would be the only child
    have hpos : n ≠ 0 := by
      rintro rfl
      have hterm : ∀ a, cs a ≠ .nil → a = 16 := by
        intro a ha
        obtain ⟨key, v, hlen, hfind⟩ := (hcs a ha).exists_find
        obtain rfl := length_eq_zero_iff.1 hlen
        obtain ⟨digits, heq, -⟩ := hbelow a [] rfl (by rw [hfind]; rfl)
        have hsingle : [] ++ [a] = digits ++ [16] := by simpa using heq
        exact (List.cons.inj (append_inj' hsingle rfl).2).1
      exact hij ((hterm i hi).trans (hterm j hj).symm)
    have hdigit : ∀ a, cs a ≠ .nil → a ≠ 16 := by
      intro a ha
      obtain ⟨key, v, hlen, hfind⟩ := (hcs a ha).exists_find
      have hkey := hbelow a key hlen (by rw [hfind]; rfl)
      refine (hkey.of_append ?_).1 a (by simp)
      rintro rfl
      exact hpos hlen.symm
    refine ⟨?_, fun a => ?_⟩
    · by_contra hne
      exact hdigit 16 hne rfl
    by_cases hnil : cs a = .nil
    · rw [hnil]
      exact ⟨rfl, trivial⟩
    refine ⟨?_, ih a hnil fun key hlen hsome => ?_⟩
    · have hwf := hcs a hnil
      cases hcase : cs a with
      | value v =>
        rw [hcase] at hwf
        generalize hn : n = m at hwf
        cases hwf
        exact absurd hn hpos
      | _ => rfl
    · by_cases hkey : key = []
      · exact .inl hkey
      · exact .inr ((hbelow a key hlen hsome).of_append hkey).2

/-! ### The tree of an encoding -/

section Injective

variable [Crypto] {P : Set Bytes}

theorem linkItem_inj (hP : Digests P) {c c' : TrieTree} (hval : isValue c = false)
    (hval' : isValue c' = false) (hc : ∀ e ∈ encodings c, e ∈ P)
    (hc' : ∀ e ∈ encodings c', e ∈ P) (h : linkItem c = linkItem c')
    (ih : isNode c = true → isNode c' = true → enc c = enc c' → c = c') : c = c' := by
  have hempty : ∀ {t : TrieTree}, isNode t = true → linkItem t ≠ .str [] := by
    intro t ht heq
    obtain ⟨l, hl⟩ := exists_treeItem_eq ht
    rcases linkItem_cases ht with ⟨-, hlink⟩ | ⟨-, hlink⟩
    · rw [heq, hl] at hlink
      cases hlink
    rw [heq, str.injEq] at hlink
    have hlen := congrArg List.length hlink
    simp at hlen
  have hnil : ∀ {t : TrieTree}, isValue t = false → isNode t = false → t = .nil := by
    intro t hv hn
    cases t with
    | nil => rfl
    | value v => cases hv
    | short k s | full cs => cases hn
  have hlinknil : linkItem (.nil : TrieTree) = .str [] := rfl
  by_cases hnode : isNode c = true
  · by_cases hnode' : isNode c' = true
    · refine ih hnode hnode' ?_
      obtain ⟨l, hl⟩ := exists_treeItem_eq hnode
      obtain ⟨l', hl'⟩ := exists_treeItem_eq hnode'
      rcases linkItem_cases hnode with ⟨-, hlink⟩ | ⟨-, hlink⟩ <;>
        rcases linkItem_cases hnode' with ⟨-, hlink'⟩ | ⟨-, hlink'⟩
      · have hitem : treeItem c = treeItem c' := hlink.symm.trans (h.trans hlink')
        rw [enc, enc, hitem]
      · rw [h, hlink', hl] at hlink
        cases hlink
      · rw [h, hlink', hl'] at hlink
        cases hlink
      rw [h, hlink', str.injEq, FixedBytes.bytes_inj] at hlink
      exact (hP.inj (hc' _ (enc_mem_encodings hnode')) (hc _ (enc_mem_encodings hnode))
        hlink).symm
    · rw [hnil hval' (by simpa using hnode'), hlinknil] at h
      exact absurd h (hempty hnode)
  · have hcnil := hnil hval (by simpa using hnode)
    by_cases hnode' : isNode c' = true
    · rw [hcnil, hlinknil] at h
      exact absurd h.symm (hempty hnode')
    · rw [hcnil, hnil hval' (by simpa using hnode')]

omit [Crypto] in
theorem HexOk.isValue_eq {k : List Nibble} {c c' : TrieTree} (h : HexOk (.short k c))
    (h' : HexOk (.short k c')) : isValue c = isValue c' := by
  have hexcl : HexKey k → ¬ HexDigits k := by
    rintro ⟨digits, rfl, -⟩ hdig
    exact hdig 16 (by simp) rfl
  have hkey := h.1
  have hkey' := h'.1
  by_cases hv : isValue c = true <;> by_cases hv' : isValue c' = true
  · rw [hv, hv']
  · rw [if_pos hv] at hkey
    rw [if_neg hv'] at hkey'
    exact absurd hkey' (hexcl hkey)
  · rw [if_neg hv] at hkey
    rw [if_pos hv'] at hkey'
    exact absurd hkey (hexcl hkey')
  · rw [Bool.not_eq_true] at hv hv'
    rw [hv, hv']

/-- **A tree is determined by its encoding.** -/
theorem enc_inj (hP : Digests P) {t t' : TrieTree} (hnode : isNode t = true)
    (hnode' : isNode t' = true) (hhex : HexOk t) (hhex' : HexOk t')
    (hmem : ∀ e ∈ encodings t, e ∈ P) (hmem' : ∀ e ∈ encodings t', e ∈ P)
    (h : enc t = enc t') : t = t' := by
  induction t generalizing t' with
  | nil | value v => cases hnode
  | short k c ih =>
    have hitem := Rlp.encode_inj (hP.size _ (hmem _ (enc_mem_encodings hnode)))
      (hP.size _ (hmem' _ (enc_mem_encodings hnode'))) h
    cases t' with
    | nil | value v => cases hnode'
    | full cs' =>
      rw [treeItem_short, treeItem_full, list.injEq] at hitem
      have hlen := congrArg List.length hitem
      simp at hlen
    | short k' c' =>
      rw [treeItem_short, treeItem_short] at hitem
      simp only [list.injEq, List.cons.injEq, str.injEq, and_true] at hitem
      obtain ⟨hkey, hlink⟩ := hitem
      obtain rfl := hexToCompact_inj hhex.key hhex'.key hkey
      have hsame := hhex.isValue_eq hhex'
      have hsub : ∀ e ∈ encodings c, e ∈ P := fun e he =>
        hmem e (encodings_short_subset k c he)
      have hsub' : ∀ e ∈ encodings c', e ∈ P := fun e he =>
        hmem' e (encodings_short_subset k c' he)
      have hchild : c = c' := by
        cases hv : isValue c with
        | true =>
          cases c with
          | value v =>
            cases c' with
            | value w =>
              rw [linkItem, linkItem] at hlink
              simp only [isNode, treeItem, str.injEq, Bool.false_eq_true,
                if_false] at hlink
              rw [hlink]
            | _ => cases hsame
          | _ => cases hv
        | false =>
          rw [hv] at hsame
          refine linkItem_inj hP hv hsame.symm hsub hsub' hlink fun hn hn' henc => ?_
          exact ih hn hn' hhex.2 hhex'.2 hsub hsub' henc
      rw [hchild]
  | full cs ih =>
    have hitem := Rlp.encode_inj (hP.size _ (hmem _ (enc_mem_encodings hnode)))
      (hP.size _ (hmem' _ (enc_mem_encodings hnode'))) h
    cases t' with
    | nil | value v => cases hnode'
    | short k' c' =>
      rw [treeItem_short, treeItem_full, list.injEq] at hitem
      have hlen := congrArg List.length hitem
      simp at hlen
    | full cs' =>
      rw [treeItem_full, treeItem_full, list.injEq] at hitem
      have hlinks := ofFn_injective hitem
      have hchildren : cs = cs' := by
        funext i
        have hsub : ∀ e ∈ encodings (cs i), e ∈ P := fun e he =>
          hmem e (encodings_full_subset cs i he)
        have hsub' : ∀ e ∈ encodings (cs' i), e ∈ P := fun e he =>
          hmem' e (encodings_full_subset cs' i he)
        refine linkItem_inj hP (hhex.2 i).1 (hhex'.2 i).1 hsub hsub' (congrFun hlinks i)
          fun hn hn' henc => ?_
        exact ih i hn hn' (hhex.2 i).2 (hhex'.2 i).2 hsub hsub' henc
      rw [hchildren]

end Injective

end MerkleTrie
