/-
**The nodes of the Merkle Patricia trie, their decoding and their hashing.**

A model of `common/trie/node.go` and `common/trie/hasher.go`.  A node in memory is a branch, a run
of digits, a value, or only the hash of a node that is in the database.  Branches and runs carry a
flag with their cached hash, the cache generation and whether they still have to be written.

The hasher gives, for a node, what its parent should hold in its place (the hash of its encoding,
or the node itself if that is shorter than 32 bytes), the node with the new flags in it, and the
entries to write to the database.  It never reads the database, so that the entries are returned as
a list.  A collapsed node is only ever encoded; it is represented by what is encoded.

Main results:

* `Hasher.hash_short`, `Hasher.hash_full` — the hash of a node is made from those of its children.
-/

import GoHpb.BlockHeader
import GoHpb.RlpSplit
import GoHpb.TrieKey

namespace MerkleTrie

/-! ### Nodes -/

/-- The flags of a node: its cached hash, its cache generation, and whether it has changes that
must be written to the database. -/
structure NodeFlag where
  hash : Option Hash
  gen : UInt16
  dirty : Bool
  deriving DecidableEq

/-- A node; the first kind is the Go nil. -/
inductive Node where
  | nil
  | value (v : Bytes)
  | hash (h : Hash)
  | short (key : List Nibble) (val : Node) (flags : NodeFlag)
  | full (children : Fin 17 → Node) (flags : NodeFlag)

namespace Node

def isNil : Node → Bool
  | nil => true
  | _ => false

def isValue : Node → Bool
  | value _ => true
  | _ => false

def isHash : Node → Bool
  | hash _ => true
  | _ => false

/-- What the encoder writes for a node as it is. -/
def rlpItem : Node → Rlp.Item
  | nil => .list []
  | value v => .str v
  | hash h => .str h.bytes
  | short k c _ => .list [.str (k.map nibbleByte), c.rlpItem]
  | full cs _ => .list (List.ofFn fun i => (cs i).rlpItem)

/-- The same with the empty string for nil. -/
def plainItem : Node → Rlp.Item
  | nil => .str []
  | n => n.rlpItem

end Node

/-- `canUnload`: the node is clean and has not been used for some generations; the difference of
the generations wraps around. -/
def NodeFlag.canUnload (f : NodeFlag) (cachegen cachelimit : UInt16) : Bool :=
  !f.dirty && cachelimit ≤ cachegen - f.gen

/-! ### Decoding -/

/-- Where in a node an error was found. -/
inductive NodeCtx where
  | short
  | full
  | val
  | child (i : ℕ)
  deriving DecidableEq

/-- The errors of the decoder. -/
inductive NodeErr where
  | unexpectedEOF
  | decode (err : Rlp.RawErr)
  | elements (count : ℕ)
  | raw (err : Rlp.RawErr)
  | valueNode (err : Rlp.RawErr)
  | oversized (size : ℕ)
  | stringSize (size : ℕ)
  | wrap (ctx : NodeCtx) (err : NodeErr)
  | panicIndex
  deriving DecidableEq

/-- `decodeRef`: a reference to a node, and what follows it.  The node that is embedded in its
parent is decoded by `dec`. -/
def decodeRef (dec : Bytes → Except NodeErr Node) (buf : Bytes) : Except NodeErr (Node × Bytes) :=
  match Rlp.split buf with
  | .error err => .error (.raw err)
  | .ok (kind, val, rest) =>
    if kind = .list then
      if 32 < buf.length - rest.length then
        .error (.oversized (buf.length - rest.length))
      else (dec buf).map fun n => (n, rest)
    else if kind = .string ∧ val.length = 0 then .ok (.nil, rest)
    else if kind = .string ∧ val.length = 32 then
      .ok (.hash (FixedBytes.setBytes 32 val), rest)
    else .error (.stringSize val.length)

def decodeShort (dec : Bytes → Except NodeErr Node) (hash : Option Hash) (elems : Bytes)
    (cachegen : UInt16) : Except NodeErr Node :=
  match Rlp.splitString elems with
  | .error err => .error (.raw err)
  | .ok (kbuf, rest) =>
    let flag : NodeFlag := ⟨hash, cachegen, false⟩
    match compactToHex kbuf with
    | none => .error .panicIndex
    | some key =>
      if hasTerm key then
        match Rlp.splitString rest with
        | .error err => .error (.valueNode err)
        | .ok (val, _) => .ok (.short key (.value val) flag)
      else
        match decodeRef dec rest with
        | .error err => .error (.wrap .val err)
        | .ok (r, _) => .ok (.short key r flag)

/-- The loop of `decodeFull` over `count` children, from the child `i` on. -/
def decodeRefs (dec : Bytes → Except NodeErr Node) :
    ℕ → ℕ → Bytes → Except NodeErr (List Node × Bytes)
  | 0, _, elems => .ok ([], elems)
  | count + 1, i, elems =>
    match decodeRef dec elems with
    | .error err => .error (.wrap (.child i) err)
    | .ok (cld, rest) =>
      (decodeRefs dec count (i + 1) rest).map fun (l, rest) => (cld :: l, rest)

def decodeFull (dec : Bytes → Except NodeErr Node) (hash : Option Hash) (elems : Bytes)
    (cachegen : UInt16) : Except NodeErr Node :=
  match decodeRefs dec 16 0 elems with
  | .error err => .error err
  | .ok (children, rest) =>
    match Rlp.splitString rest with
    | .error err => .error (.raw err)
    | .ok (val, _) =>
      .ok (.full
        (fun i => if i = 16 then (if val.length = 0 then .nil else .value val)
          else children.getD i.val .nil)
        ⟨hash, cachegen, false⟩)

/-- `decodeNode`, for at most `rounds` nodes inside each other; an embedded node is shorter than
the one around it. -/
def decodeNodeFrom : ℕ → Option Hash → Bytes → UInt16 → Except NodeErr Node
  | 0, _, _, _ => .error .unexpectedEOF
  | rounds + 1, hash, buf, cachegen =>
    if buf.length = 0 then .error .unexpectedEOF
    else
      match Rlp.splitList buf with
      | .error err => .error (.decode err)
      | .ok (elems, _) =>
        let dec := fun b => decodeNodeFrom rounds none b cachegen
        match Rlp.countValues elems with
        | .error .panicIndex => .error .panicIndex
        | .error _ => .error (.elements 0)
        | .ok 2 =>
          (decodeShort dec hash elems cachegen).mapError (.wrap .short)
        | .ok 17 =>
          (decodeFull dec hash elems cachegen).mapError (.wrap .full)
        | .ok count => .error (.elements count)

def decodeNode (hash : Option Hash) (buf : Bytes) (cachegen : UInt16) : Except NodeErr Node :=
  decodeNodeFrom (buf.length + 1) hash buf cachegen

/-! ### Hashing -/

/-- What a parent holds in the place of a hashed node: a hash, or the collapsed node. -/
inductive Hashed where
  | hash (h : Hash)
  | inline (item : Rlp.Item)

namespace Hashed

def item : Hashed → Rlp.Item
  | hash h => .str h.bytes
  | inline i => i

def hash? : Hashed → Option Hash
  | hash h => some h
  | inline _ => none

end Hashed

/-- What the hasher returns: what the parent holds, the node with its new flags, and the entries
that are put into the database. -/
structure HashResult where
  hashed : Hashed
  cached : Node
  puts : List (Hash × Bytes)

/-- A hasher; it writes to the database if `commit` is set. -/
structure Hasher where
  cachegen : UInt16
  cachelimit : UInt16
  commit : Bool

/-- A child that is not hashed. -/
def HashResult.plain (n : Node) : HashResult := ⟨.inline n.plainItem, n, []⟩

/-- A child of a branch: the last one is a value, and it is not hashed. -/
def Hasher.isPlain (i : Fin 17) (n : Node) : Bool := i == 16 || n.isNil

namespace Hasher

/-- The first part of `hash`: a cached hash is used if nothing has to be written, and a node that
was written and not used for long is unloaded. -/
def reuse (h : Hasher) (n : Node) (f : NodeFlag) : Option HashResult :=
  match f.hash with
  | none => none
  | some hash =>
    if h.commit = false then some ⟨.hash hash, n, []⟩
    else if f.canUnload h.cachegen h.cachelimit then
      some ⟨.hash hash, .hash hash, []⟩
    else if f.dirty = false then some ⟨.hash hash, n, []⟩
    else none

variable [Crypto]

/-- `store`: the reference to a collapsed node, whose cached hash is used if there is one. -/
def store (h : Hasher) (cached : Option Hash) (item : Rlp.Item) (force : Bool) :
    Hashed × List (Hash × Bytes) :=
  let enc := Rlp.encode item
  if enc.length < 32 ∧ force = false then (.inline item, [])
  else
    let hash := cached.getD (Crypto.keccak256 enc)
    (.hash hash, if h.commit then [(hash, enc)] else [])

/-- The last part of `hash`: store the collapsed node, and set the flags of the other one. -/
def finish (h : Hasher) (f : NodeFlag) (item : Rlp.Item) (cached : NodeFlag → Node)
    (puts : List (Hash × Bytes)) (force : Bool) : HashResult :=
  let stored := h.store f.hash item force
  ⟨stored.1, cached { f with hash := stored.1.hash?, dirty := !h.commit && f.dirty },
    puts ++ stored.2⟩

def hash (h : Hasher) : Node → Bool → HashResult
  | .nil, _ => HashResult.plain .nil
  | .value v, force =>
    let stored := h.store none (.str v) force
    ⟨stored.1, .value v, stored.2⟩
  | .hash hash, _ => ⟨.hash hash, .hash hash, []⟩
  | .short k c f, force =>
    (h.reuse (.short k c f) f).getD
      (let r := if c.isValue then HashResult.plain c else h.hash c false
      h.finish f (.list [.str (hexToCompact k), r.hashed.item])
        (.short k r.cached) r.puts force)
  | .full cs f, force =>
    (h.reuse (.full cs f) f).getD
      (let r := fun i => if isPlain i (cs i) then HashResult.plain (cs i) else h.hash (cs i) false
      h.finish f (.list (List.ofFn fun i => (r i).hashed.item))
        (.full fun i => (r i).cached) (List.ofFn fun i => (r i).puts).flatten force)

/-- The child of a run of digits. -/
def hashVal (h : Hasher) (c : Node) : HashResult :=
  if c.isValue then HashResult.plain c else h.hash c false

/-- A child of a branch. -/
def hashChild (h : Hasher) (i : Fin 17) (c : Node) : HashResult :=
  if isPlain i c then HashResult.plain c else h.hash c false

/-- The collapsed node of `hashChildren`. -/
def hashChildren (h : Hasher) : Node → Rlp.Item
  | .short k c _ =>
    .list [.str (hexToCompact k), (h.hashVal c).hashed.item]
  | .full cs _ => .list (List.ofFn fun i => (h.hashChild i (cs i)).hashed.item)
  | n => n.rlpItem

theorem hash_short (h : Hasher) (k : List Nibble) (c : Node) (f : NodeFlag) (force : Bool) :
    h.hash (.short k c f) force = (h.reuse (.short k c f) f).getD
      (h.finish f (h.hashChildren (.short k c f)) (.short k (h.hashVal c).cached)
        (h.hashVal c).puts force) := by
  rfl

theorem hash_full (h : Hasher) (cs : Fin 17 → Node) (f : NodeFlag) (force : Bool) :
    h.hash (.full cs f) force = (h.reuse (.full cs f) f).getD
      (h.finish f (h.hashChildren (.full cs f)) (.full fun i => (h.hashChild i (cs i)).cached)
        (List.ofFn fun i => (h.hashChild i (cs i)).puts).flatten force) := by
  rfl

end Hasher

end MerkleTrie
