/-
**Snapshots in the database.**

Snapshots at every 1024th block are written to the database as JSON documents, under the hash of
their block, and read back after a restart.  The documents are built from the codecs of
`GoHpb/JsonCodec.lean`, with the field names of the source, so that a snapshot read back is the
one that was written.

The configuration and the signature cache are not part of the document; loading attaches those of
the engine, which are arguments in this development.

Main results:

* `loadHistorysnap_store_self`, `loadHistorysnap_store_of_ne` — **what is stored is what is
  loaded**, and the other records are not touched.
-/

import GoHpb.Historysnap
import GoHpb.JsonCodec

open JsonCodec Json FixedBytes

/-! ### Documents -/

/-- The fields of a vote. -/
def Vote.fields (v : Vote) : List (Bytes × Json) :=
  [(ascii "signerHash", (fixed 4).write v.signer),
    (ascii "block", uint64.write v.block),
    (ascii "address", (fixed 4).write v.addressHash),
    (ascii "authorize", boolean.write v.authorize)]

/-- The documents of votes. -/
def voteCodec : JsonCodec Vote where
  write v := .obj v.fields
  read
    | .obj fields =>
      match field (fixed 4) (zero 4) (ascii "signerHash") fields,
        field uint64 0 (ascii "block") fields,
        field (fixed 4) (zero 4) (ascii "address") fields,
        field boolean false (ascii "authorize") fields with
      | some signer, some block, some addressHash, some authorize =>
        some ⟨signer, block, addressHash, authorize⟩
      | _, _, _, _ => none
    | _ => none
  read_write v := by
    have hnames : v.fields.map Prod.fst =
      [ascii "signerHash", ascii "block", ascii "address", ascii "authorize"] := rfl
    have hnodup : (v.fields.map Prod.fst).Nodup := by
      rw [hnames]
      decide
    have hsigner : field (fixed 4) (zero 4) (ascii "signerHash")
        v.fields = some v.signer :=
      field_of_mem hnodup (by simp [Vote.fields])
    have hblock : field uint64 0 (ascii "block") v.fields = some v.block :=
      field_of_mem hnodup (by simp [Vote.fields])
    have haddressHash : field (fixed 4) (zero 4) (ascii "address")
        v.fields = some v.addressHash :=
      field_of_mem hnodup (by simp [Vote.fields])
    have hauthorize : field boolean false (ascii "authorize") v.fields =
        some v.authorize :=
      field_of_mem hnodup (by simp [Vote.fields])
    simp only [hsigner, hblock, haddressHash, hauthorize]

/-- The fields of a count. -/
def Tally.fields (t : Tally) : List (Bytes × Json) :=
  [(ascii "authorize", boolean.write t.authorize),
    (ascii "votes", count.write t.votes)]

/-- The documents of counts. -/
def tallyCodec : JsonCodec Tally where
  write t := .obj t.fields
  read
    | .obj fields =>
      match field boolean false (ascii "authorize") fields,
        field count 0 (ascii "votes") fields with
      | some authorize, some votes => some ⟨authorize, votes⟩
      | _, _ => none
    | .null => some ⟨false, 0⟩
    | _ => none
  read_write t := by
    have hnames : t.fields.map Prod.fst = [ascii "authorize", ascii "votes"] := rfl
    have hnodup : (t.fields.map Prod.fst).Nodup := by
      rw [hnames]
      decide
    have hauthorize : field boolean false (ascii "authorize") t.fields =
        some t.authorize :=
      field_of_mem hnodup (by simp [Tally.fields])
    have hvotes : field count 0 (ascii "votes") t.fields = some t.votes :=
      field_of_mem hnodup (by simp [Tally.fields])
    simp only [hauthorize, hvotes]

/-- The documents of the signer sets, the recent sealers and the counts. -/
def signersCodec : JsonCodec (Finset AddressHash) := set (hexCodec 4)

def recentsCodec : JsonCodec (Finmap fun _ : UInt64 => AddressHash) :=
  map uintCodec (fixed 4)

def talliesCodec : JsonCodec Tallies := map (hexCodec 4) tallyCodec

/-- The fields of a snapshot. -/
def Historysnap.fields (s : Historysnap) : List (Bytes × Json) :=
  [(ascii "number", uint64.write s.number),
    (ascii "hash", (fixed 32).write s.hash),
    (ascii "signers", signersCodec.write s.signers),
    (ascii "recents", recentsCodec.write s.recents),
    (ascii "votes", (list voteCodec).write s.votes),
    (ascii "tally", talliesCodec.write s.tally)]

/-- The documents of snapshots. -/
def historysnapCodec : JsonCodec Historysnap where
  write s := .obj s.fields
  read
    | .obj fields =>
      match field uint64 0 (ascii "number") fields,
        field (fixed 32) (zero 32) (ascii "hash") fields,
        field signersCodec ∅ (ascii "signers") fields,
        field recentsCodec ∅ (ascii "recents") fields,
        field (list voteCodec) [] (ascii "votes") fields,
        field talliesCodec ∅ (ascii "tally") fields with
      | some number, some hash, some signers, some recents, some votes, some tally =>
        some ⟨number, hash, signers, recents, votes, tally⟩
      | _, _, _, _, _, _ => none
    | .null => some ⟨0, zero 32, ∅, ∅, [], ∅⟩
    | _ => none
  read_write s := by
    have hnames : s.fields.map Prod.fst = [ascii "number", ascii "hash", ascii "signers",
      ascii "recents", ascii "votes", ascii "tally"] := rfl
    have hnodup : (s.fields.map Prod.fst).Nodup := by
      rw [hnames]
      decide
    have hnumber : field uint64 0 (ascii "number") s.fields = some s.number :=
      field_of_mem hnodup (by simp [Historysnap.fields])
    have hhash : field (fixed 32) (zero 32) (ascii "hash") s.fields =
        some s.hash :=
      field_of_mem hnodup (by simp [Historysnap.fields])
    have hsigners : field signersCodec ∅ (ascii "signers") s.fields = some s.signers :=
      field_of_mem hnodup (by simp [Historysnap.fields])
    have hrecents : field recentsCodec ∅ (ascii "recents") s.fields = some s.recents :=
      field_of_mem hnodup (by simp [Historysnap.fields])
    have hvotes : field (list voteCodec) [] (ascii "votes") s.fields =
        some s.votes :=
      field_of_mem hnodup (by simp [Historysnap.fields])
    have htally : field talliesCodec ∅ (ascii "tally") s.fields = some s.tally :=
      field_of_mem hnodup (by simp [Historysnap.fields])
    simp only [hnumber, hhash, hsigners, hrecents, hvotes, htally]

/-! ### The database -/

/-- The records of the database. -/
abbrev Database : Type := Finmap fun _ : Bytes => Json

/-- The key of the snapshot of a block. -/
def snapshotKey (hash : Hash) : Bytes := ascii "prometheus-" ++ hash.bytes

theorem snapshotKey_injective : Function.Injective snapshotKey := fun _ _ h =>
  bytes_injective (List.append_cancel_left h)

/-- Writing a snapshot to the database. -/
def Historysnap.store (s : Historysnap) (db : Database) : Database :=
  db.insert (snapshotKey s.hash) (historysnapCodec.write s)

/-- Reading the snapshot of a block from the database. -/
def loadHistorysnap (db : Database) (hash : Hash) : Except Err Historysnap :=
  match db.lookup (snapshotKey hash) with
  | none => .error .errNotFound
  | some blob =>
    match historysnapCodec.read blob with
    | none => .error .errSyntax
    | some snap => .ok snap

/-- **What is stored is what is loaded.** -/
theorem loadHistorysnap_store_self (s : Historysnap) (db : Database) :
    loadHistorysnap (s.store db) s.hash = .ok s := by
  simp only [loadHistorysnap, Historysnap.store, Finmap.lookup_insert, historysnapCodec.read_write]

theorem loadHistorysnap_store_of_ne (s : Historysnap) (db : Database) {hash : Hash}
    (h : hash ≠ s.hash) : loadHistorysnap (s.store db) hash = loadHistorysnap db hash := by
  have hkey : snapshotKey hash ≠ snapshotKey s.hash := fun heq => h (snapshotKey_injective heq)
  simp only [loadHistorysnap, Historysnap.store, Finmap.lookup_insert_of_ne _ hkey]
