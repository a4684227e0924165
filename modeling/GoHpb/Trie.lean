/-
**The Merkle Patricia trie.**

A model of `common/trie/trie.go`: look-up, insertion and deletion in a trie whose nodes are loaded
from the database when they are needed, and the two operations that hash it, one of which writes
to the database.

The database is the content-addressed store of encoded nodes.  The recursive functions follow the
key: every call takes a digit of it or loads a node, which is then not a hash.  They are given a
number of calls; `rounds` of the whole key is enough for every trie that the operations build.
-/

import GoHpb.TrieNode
import GoHpb.PatriciaTree

namespace MerkleTrie

/-- The database of encoded nodes, by their hash. -/
abbrev NodeDb : Type := Finmap fun _ : Hash => Bytes

/-- Put some entries into the database, in order. -/
def NodeDb.write (db : NodeDb) (puts : List (Hash × Bytes)) : NodeDb :=
  puts.foldl (fun d p => d.insert p.1 p.2) db

/-- The errors of the trie: a node that is not in the database, with the path to it, and the
run-time panics; the last one is a call too many. -/
inductive TrieErr where
  | missingNode (nodeHash : Hash) (path : List Nibble)
  | panicDecode (nodeHash : Hash) (err : NodeErr)
  | panicIndex
  | panicInvalidNode
  | panicNotHash
  | outOfRounds
  deriving DecidableEq

/-- A trie; its database is given to the operations. -/
structure Trie where
  root : Node
  originalRoot : Hash
  cachegen : UInt16
  cachelimit : UInt16

namespace Trie

open Patricia (commonLen)

def newFlag (cachegen : UInt16) : NodeFlag := ⟨none, cachegen, true⟩

def resolveHash (db : NodeDb) (cachegen : UInt16) (h : Hash) (path : List Nibble) :
    Except TrieErr Node :=
  match db.lookup h with
  | none => .error (.missingNode h path)
  | some enc =>
    match decodeNode (some h) enc cachegen with
    | .error err => .error (.panicDecode h err)
    | .ok n => .ok n

def resolve (db : NodeDb) (cachegen : UInt16) (n : Node) (path : List Nibble) :
    Except TrieErr Node :=
  match n with
  | .hash h => resolveHash db cachegen h path
  | n => .ok n

def new (root : Hash) (db : NodeDb) : Except TrieErr Trie :=
  if root ≠ FixedBytes.zero 32 ∧ root ≠ emptyRootHash then
    (resolveHash db 0 root []).map fun n => ⟨n, root, 0, 0⟩
  else .ok ⟨.nil, root, 0, 0⟩

/-- The calls that suffice for a key. -/
def rounds (key : List Nibble) : ℕ := 2 * key.length + 2

/-! ### Look-up -/

/-- The method `tryGet`: the value, the node with what was loaded in it, and whether something was
loaded. -/
def getFrom (db : NodeDb) (cachegen : UInt16) :
    ℕ → Node → List Nibble → ℕ → Except TrieErr (Option Bytes × Node × Bool)
  | 0, _, _, _ => .error .outOfRounds
  | _ + 1, .nil, _, _ => .ok (none, .nil, false)
  | _ + 1, .value v, _, _ => .ok (some v, .value v, false)
  | r + 1, .short k c f, key, pos =>
    if key.length - pos < k.length ∨ (key.drop pos).take k.length ≠ k then
      .ok (none, .short k c f, false)
    else do
      let (value, newnode, didResolve) ← getFrom db cachegen r c key (pos + k.length)
      if didResolve then
        return (value, .short k newnode { f with gen := cachegen }, didResolve)
      return (value, .short k c f, didResolve)
  | r + 1, .full cs f, key, pos =>
    match key.drop pos with
    | [] => .error .panicIndex
    | a :: _ => do
        let (value, newnode, didResolve) ← getFrom db cachegen r (cs a) key (pos + 1)
        if didResolve then
          return (value, .full (Function.update cs a newnode) { f with gen := cachegen },
            didResolve)
        return (value, .full cs f, didResolve)
  | r + 1, .hash h, key, pos => do
      let child ← resolveHash db cachegen h (key.take pos)
      let (value, newnode, _) ← getFrom db cachegen r child key pos
      return (value, newnode, true)

def tryGet (t : Trie) (db : NodeDb) (key : Bytes) : Except TrieErr (Option Bytes × Trie) := do
  let hex := keybytesToHex key
  let (value, newroot, didResolve) ← getFrom db t.cachegen (rounds hex) t.root hex 0
  return (value, if didResolve then { t with root := newroot } else t)

/-! ### Insertion -/

/-- The method `insert`: whether something has changed, and the new node. -/
def insertAt (db : NodeDb) (cachegen : UInt16) :
    ℕ → Node → List Nibble → List Nibble → Node → Except TrieErr (Bool × Node)
  | 0, _, _, _, _ => .error .outOfRounds
  | _ + 1, .value v, _, [], .value w => .ok (decide (v ≠ w), .value w)
  | _ + 1, .value _, _, [], _ => .error .panicInvalidNode
  | _ + 1, _, _, [], value => .ok (true, value)
  | r + 1, .short k c f, path, x :: key, value =>
    let hex := x :: key
    let matchlen := commonLen hex k
    if matchlen = k.length then do
      let (dirty, nn) ←
        insertAt db cachegen r c (path ++ hex.take matchlen) (hex.drop matchlen) value
      if dirty then return (true, .short k nn (newFlag cachegen))
      return (false, .short k c f)
    else
      match k.drop matchlen, hex.drop matchlen with
      | d :: k', y :: key' => do
          let (_, old) ← insertAt db cachegen r .nil (path ++ k.take (matchlen + 1)) k' c
          let (_, new) ←
            insertAt db cachegen r .nil (path ++ hex.take (matchlen + 1)) key' value
          let branch := .full
            (Function.update (Function.update (fun _ => .nil) d old) y new)
            (newFlag cachegen)
          if matchlen = 0 then return (true, branch)
          return (true, .short (hex.take matchlen) branch (newFlag cachegen))
      | _, _ => .error .panicIndex
  | r + 1, .full cs f, path, a :: key, value => do
      let (dirty, nn) ← insertAt db cachegen r (cs a) (path ++ [a]) key value
      if dirty then return (true, .full (Function.update cs a nn) (newFlag cachegen))
      return (false, .full cs f)
  | _ + 1, .nil, _, a :: key, value =>
    .ok (true, .short (a :: key) value (newFlag cachegen))
  | r + 1, .hash h, path, a :: key, value => do
      let rn ← resolveHash db cachegen h path
      let (dirty, nn) ← insertAt db cachegen r rn path (a :: key) value
      if dirty then return (true, nn)
      return (false, rn)
  | _ + 1, .value _, _, _ :: _, _ => .error .panicInvalidNode

/-! ### Deletion -/

/-- The method `delete`: whether something has changed, and the new node. -/
def deleteAt (db : NodeDb) (cachegen : UInt16) :
    ℕ → Node → List Nibble → List Nibble → Except TrieErr (Bool × Node)
  | 0, _, _, _ => .error .outOfRounds
  | r + 1, .short k c f, path, key =>
    let matchlen := commonLen key k
    if matchlen < k.length then .ok (false, .short k c f)
    else if matchlen = key.length then .ok (true, .nil)
    else do
      let (dirty, child) ←
        deleteAt db cachegen r c (path ++ key.take k.length) (key.drop k.length)
      if dirty then
        match child with
        | .short k' c' _ => return (true, .short (k ++ k') c' (newFlag cachegen))
        | child => return (true, .short k child (newFlag cachegen))
      else return (false, .short k c f)
  | _ + 1, .full _ _, _, [] => .error .panicIndex
  | r + 1, .full cs f, path, a :: key => do
      let (dirty, nn) ← deleteAt db cachegen r (cs a) (path ++ [a]) key
      if dirty then
        let cs' := Function.update cs a nn
        -- the single entry that is left, if there is only one
        match (List.finRange 17).filter fun i => !(cs' i).isNil with
        | [pos] =>
          if pos ≠ 16 then
            match ← resolve db cachegen (cs' pos) path with
            | .short k c _ => return (true, .short (pos :: k) c (newFlag cachegen))
            | _ => return (true, .short [pos] (cs' pos) (newFlag cachegen))
          else return (true, .short [pos] (cs' pos) (newFlag cachegen))
        | _ => return (true, .full cs' (newFlag cachegen))
      else return (false, .full cs f)
  | _ + 1, .value _, _, _ => .ok (true, .nil)
  | _ + 1, .nil, _, _ => .ok (false, .nil)
  | r + 1, .hash h, path, key => do
      let rn ← resolveHash db cachegen h path
      let (dirty, nn) ← deleteAt db cachegen r rn path key
      if dirty then return (true, nn)
      return (false, rn)

def tryDelete (t : Trie) (db : NodeDb) (key : Bytes) : Except TrieErr Trie := do
  let hex := keybytesToHex key
  let (_, n) ← deleteAt db t.cachegen (rounds hex) t.root [] hex
  return { t with root := n }

/-- `TryUpdate`: an empty value deletes the key. -/
def tryUpdate (t : Trie) (db : NodeDb) (key value : Bytes) : Except TrieErr Trie :=
  if value.length ≠ 0 then do
    let hex := keybytesToHex key
    let (_, n) ← insertAt db t.cachegen (rounds hex) t.root [] hex (.value value)
    return { t with root := n }
  else t.tryDelete db key

/-! ### The root hash -/

def setCacheLimit (t : Trie) (l : UInt16) : Trie := { t with cachelimit := l }

variable [Crypto]

/-- `hashRoot`, with a database to write to or without one. -/
def hashRoot (t : Trie) (commit : Bool) : HashResult :=
  match t.root with
  | .nil => ⟨.hash emptyRootHash, .nil, []⟩
  | root => Hasher.hash ⟨t.cachegen, t.cachelimit, commit⟩ root true

def hash (t : Trie) : Except TrieErr (Hash × Trie) :=
  let r := t.hashRoot false
  match r.hashed with
  | .hash h => .ok (h, { t with root := r.cached })
  | .inline _ => .error .panicNotHash

def commitTo (t : Trie) (db : NodeDb) : Except TrieErr (Hash × Trie × NodeDb) :=
  let r := t.hashRoot true
  match r.hashed with
  | .hash h =>
    .ok (h, { t with root := r.cached, cachegen := t.cachegen + 1 }, db.write r.puts)
  | .inline _ => .error .panicNotHash

end Trie

end MerkleTrie
