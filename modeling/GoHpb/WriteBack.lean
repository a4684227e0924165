/-
**What an object writes back.**

A state object keeps three layers of storage: the trie of the account, the entries that were read or
written, and the entries that are still to be written.  They are *coherent* if the entries to be
written are the newest ones and every other cached entry is the one of the trie; then the object
writes back exactly what its observers see, and the account it leaves in the account trie is
determined by that.

A storage trie has no entries with the zero value: writing zero deletes the entry.

Main results:

* `StateObject.Coherent.lookup_updateTrie` — **what is written back is what is seen**.
-/

import GoHpb.StateView

open Finmap FixedBytes

/-! ### Storage -/

/-- No entry has the zero value. -/
def Storage.Proper (storage : Storage) : Prop :=
  ∀ key value, storage.lookup key = some value → value ≠ zero 32

namespace Storage.Proper

variable {s : Storage} {key : Hash}

theorem empty : Storage.Proper ∅ := by
  intro key value h
  simp at h

theorem lookup_eq (h : Storage.Proper s) (key : Hash) :
    s.lookup key = if (s.lookup key).getD (zero 32) = zero 32 then none
      else some ((s.lookup key).getD (zero 32)) := by
  cases hkey : s.lookup key with
  | none => simp
  | some value =>
    have hne := h key value hkey
    simp [hne]

end Storage.Proper

namespace StateObject

/-- The storage trie, whether it has been opened or not. -/
def storageTrie (obj : StateObject) : Storage := obj.trie.getD obj.data.root

/-- The three layers of storage agree: the entries to be written are the newest ones, and every
other cached entry is the one of the trie. -/
structure Coherent (obj : StateObject) : Prop where
  dirty : ∀ key value, obj.dirtyStorage.lookup key = some value →
    obj.cachedStorage.lookup key = some value
  cached : ∀ key value, obj.cachedStorage.lookup key = some value →
    obj.dirtyStorage.lookup key = none →
    (obj.storageTrie.lookup key).getD (zero 32) = value
  proper : Storage.Proper obj.storageTrie

variable {obj obj' : StateObject}

/-! ### Writing back -/

theorem lookup_writeStorage (dirty trie : Storage) (key k : Hash) :
    (writeStorage dirty trie key).lookup k =
      if k = key then
        match dirty.lookup k with
        | none => trie.lookup k
        | some value => if value = zero 32 then none else some value
      else trie.lookup k := by
  unfold writeStorage
  by_cases hk : k = key
  · subst hk
    cases hdirty : dirty.lookup k with
    | none => simp
    | some value =>
      by_cases hzero : value = zero 32
      · simp [hzero]
      · simp [hzero, lookup_insert]
  · rw [if_neg hk]
    split
    · rfl
    split_ifs
    · exact lookup_erase_ne hk
    · exact lookup_insert_of_ne _ hk

theorem lookup_foldl_writeStorage (dirty : Storage) (keys : List Hash) (trie : Storage) (k : Hash) :
    (keys.foldl (writeStorage dirty) trie).lookup k =
      if k ∈ keys then
        match dirty.lookup k with
        | none => trie.lookup k
        | some value => if value = zero 32 then none else some value
      else trie.lookup k := by
  induction keys generalizing trie with
  | nil => simp
  | cons key keys ih =>
    rw [List.foldl_cons, ih, lookup_writeStorage]
    -- the later entries write the same again
    by_cases hkeys : k ∈ keys
    · rw [if_pos hkeys, if_pos (List.mem_cons_of_mem _ hkeys)]
      by_cases hk : k = key
      · rw [if_pos hk]
        cases dirty.lookup k <;> rfl
      · rw [if_neg hk]
    · rw [if_neg hkeys]
      by_cases hk : k = key
      · rw [if_pos hk, if_pos (by simp [hk])]
      · rw [if_neg hk, if_neg (by simp [hk, hkeys])]

theorem lookup_storageTrie_updateTrie (obj : StateObject) (key : Hash) :
    obj.updateTrie.storageTrie.lookup key =
      match obj.dirtyStorage.lookup key with
      | none => obj.storageTrie.lookup key
      | some value => if value = zero 32 then none else some value := by
  have hfold := lookup_foldl_writeStorage obj.dirtyStorage (sortedKeys obj.dirtyStorage.keys)
    obj.storageTrie key
  change ((sortedKeys obj.dirtyStorage.keys).foldl (writeStorage obj.dirtyStorage)
    obj.storageTrie).lookup key = _
  rw [hfold]
  split_ifs with hmem
  · rfl
  · rw [mem_sortedKeys, mem_keys] at hmem
    rw [lookup_eq_none.2 hmem]

theorem storageTrie_updateRoot (obj : StateObject) :
    obj.updateRoot.storageTrie = obj.updateTrie.storageTrie := rfl

theorem Coherent.storageValue_eq (h : obj.Coherent) (key : Hash) :
    obj.storageValue key = (match obj.dirtyStorage.lookup key with
      | none => (obj.storageTrie.lookup key).getD (zero 32)
      | some value => value) := by
  unfold storageValue
  cases hdirty : obj.dirtyStorage.lookup key with
  | some value => simp [h.dirty key value hdirty]
  | none =>
    cases hcached : obj.cachedStorage.lookup key with
    | none => rfl
    | some value => exact (h.cached key value hcached hdirty).symm

/-- **What is written back is what is seen**, where zero is deleted. -/
theorem Coherent.lookup_updateTrie (h : obj.Coherent) (key : Hash) :
    obj.updateTrie.storageTrie.lookup key =
      if obj.storageValue key = zero 32 then none else some (obj.storageValue key) := by
  rw [lookup_storageTrie_updateTrie, h.storageValue_eq]
  cases obj.dirtyStorage.lookup key with
  | some value => rfl
  | none => exact h.proper.lookup_eq key

/-! ### The changes of an object -/

theorem coherent_newObject {data : Account} (h : Storage.Proper data.root) :
    (newObject data).Coherent :=
  ⟨by simp [newObject], by simp [newObject], h⟩

namespace Coherent

variable (h : obj.Coherent)
include h

theorem congr (hdirty : obj'.dirtyStorage = obj.dirtyStorage)
    (hcached : obj'.cachedStorage = obj.cachedStorage)
    (htrie : obj'.storageTrie = obj.storageTrie) : obj'.Coherent := by
  refine ⟨fun key value hkey => ?_, fun key value hkey hclean => ?_, ?_⟩
  · rw [hdirty] at hkey
    rw [hcached]
    exact h.dirty key value hkey
  · rw [hcached] at hkey
    rw [hdirty] at hclean
    rw [htrie]
    exact h.cached key value hkey hclean
  · rw [htrie]
    exact h.proper

theorem setState (key value : Hash) : (obj.setState key value).Coherent := by
  refine ⟨fun k v hk => ?_, fun k v hk hclean => ?_, h.proper⟩
  · by_cases hkey : k = key
    · subst hkey
      simpa [StateObject.setState, lookup_insert] using hk
    · simp only [StateObject.setState, lookup_insert_of_ne _ hkey] at hk ⊢
      exact h.dirty k v hk
  · by_cases hkey : k = key
    · subst hkey
      simp [StateObject.setState, lookup_insert] at hclean
    · simp only [StateObject.setState, lookup_insert_of_ne _ hkey] at hk hclean
      exact h.cached k v hk hclean

theorem cacheState (key : Hash) : (obj.cacheState key).Coherent := by
  have htrie : obj.getTrie.Coherent := h.congr rfl rfl rfl
  unfold StateObject.cacheState
  cases hkey : obj.cachedStorage.lookup key with
  | some value => exact h
  | none =>
    split_ifs with hzero
    · exact htrie
    have hclean : obj.dirtyStorage.lookup key = none := by
      cases hdirty : obj.dirtyStorage.lookup key with
      | none => rfl
      | some value =>
        rw [h.dirty key value hdirty] at hkey
        cases hkey
    refine ⟨fun k v hk => ?_, fun k v hk hk' => ?_, htrie.proper⟩
    · have hne : k ≠ key := by
        rintro rfl
        have hk' : obj.dirtyStorage.lookup k = some v := hk
        rw [hclean] at hk'
        cases hk'
      simp only [lookup_insert_of_ne _ hne]
      exact h.dirty k v hk
    · by_cases hne : k = key
      · subst hne
        simp only [lookup_insert, Option.some.injEq] at hk
        rw [← hk]
        simp [storageValue, hkey, storageTrie, getTrie]
      · simp only [lookup_insert_of_ne _ hne] at hk
        exact htrie.cached k v hk hk'

theorem updateRoot : obj.updateRoot.Coherent := by
  refine ⟨fun key value hkey => ?_, fun key value hkey _ => ?_, fun key value hkey => ?_⟩
  · simp [StateObject.updateRoot, updateTrie] at hkey
  · have hvalue : obj.storageValue key = value := by
      have hkey' : obj.cachedStorage.lookup key = some value := hkey
      simp [storageValue, hkey']
    rw [storageTrie_updateRoot, h.lookup_updateTrie, hvalue]
    split_ifs with hzero
    · exact hzero.symm
    · rfl
  · rw [storageTrie_updateRoot, h.lookup_updateTrie] at hkey
    split_ifs at hkey with hzero
    cases hkey
    exact hzero

theorem deepCopy : obj.deepCopy.Coherent := by
  refine ⟨fun key value hkey => hkey, fun key value hkey hclean => ?_, h.proper⟩
  have hkey' : obj.dirtyStorage.lookup key = some value := hkey
  have hclean' : obj.dirtyStorage.lookup key = none := hclean
  rw [hkey'] at hclean'
  cases hclean'

omit h

end Coherent

/-! ### What is seen of what was written -/

theorem Coherent.storageValue_updateRoot (h : obj.Coherent) (key : Hash) :
    obj.updateRoot.storageValue key = obj.storageValue key := by
  have hroot := h.lookup_updateTrie key
  rw [h.updateRoot.storageValue_eq]
  have hclean : obj.updateRoot.dirtyStorage.lookup key = none := by
    simp [StateObject.updateRoot, updateTrie]
  rw [hclean, storageTrie_updateRoot, hroot]
  split_ifs with hzero
  · exact hzero.symm
  · rfl

variable [Crypto]

theorem Coherent.readCode (h : obj.Coherent) (codes : Finmap fun _ : Hash => Bytes) :
    (obj.readCode codes).Coherent := by
  rw [StateObject.readCode_eq]
  exact h.congr rfl rfl rfl

end StateObject

/-- An account of the account trie that is seen as the given view, but for the code. -/
structure Account.Shows (x : AccountView) (data : Account) : Prop where
  nonce : data.nonce = x.nonce
  balance : data.balance = x.balance
  codeHash : data.codeHash = x.codeHash
  root : ∀ key, data.root.lookup key =
    if x.storage key = zero 32 then none else some (x.storage key)

namespace Account.Shows

variable {x : AccountView} {data data' : Account}

theorem unique (h : Account.Shows x data) (h' : Account.Shows x data') : data = data' := by
  have hroot : data.root = data'.root :=
    ext_lookup fun key => (h.root key).trans (h'.root key).symm
  cases data with
  | mk nonce balance root codeHash =>
    cases data' with
    | mk nonce' balance' root' codeHash' =>
      obtain rfl : nonce = nonce' := h.nonce.trans h'.nonce.symm
      obtain rfl : balance = balance' := h.balance.trans h'.balance.symm
      obtain rfl : codeHash = codeHash' := h.codeHash.trans h'.codeHash.symm
      obtain rfl : root = root' := hroot
      rfl

end Account.Shows

namespace StateObject

variable [Crypto] {obj obj' : StateObject}

theorem Coherent.shows_updateRoot (h : obj.Coherent) (codes : Finmap fun _ : Hash => Bytes) :
    Account.Shows (obj.view codes) obj.updateRoot.data :=
  ⟨rfl, rfl, rfl, h.lookup_updateTrie⟩

/-- What `Finalise` leaves in the account trie for a dirty object. -/
def entry (deleteEmptyObjects : Bool) (obj : StateObject) : Option Account :=
  if obj.suicided || (deleteEmptyObjects && obj.empty) then none else some obj.updateRoot.data

theorem empty_congr {codes : Finmap fun _ : Hash => Bytes} (h : obj.view codes = obj'.view codes) :
    obj.empty = obj'.empty := by
  have hnonce : obj.data.nonce = obj'.data.nonce := congrArg AccountView.nonce h
  have hbalance : obj.data.balance = obj'.data.balance := congrArg AccountView.balance h
  have hcodeHash : obj.data.codeHash = obj'.data.codeHash := congrArg AccountView.codeHash h
  unfold empty
  rw [hnonce, hbalance, hcodeHash]

/-- **Objects that are seen alike write back the same.** -/
theorem Coherent.entry_eq {deleteEmptyObjects : Bool} {codes : Finmap fun _ : Hash => Bytes}
    (h : obj.Coherent) (h' : obj'.Coherent) (hview : obj.view codes = obj'.view codes) :
    obj.entry deleteEmptyObjects = obj'.entry deleteEmptyObjects := by
  have hsuicided : obj.suicided = obj'.suicided := congrArg AccountView.suicided hview
  have hdata : obj.updateRoot.data = obj'.updateRoot.data :=
    (hview ▸ h.shows_updateRoot codes).unique (h'.shows_updateRoot codes)
  rw [entry, entry, hsuicided, empty_congr hview, hdata]

end StateObject
