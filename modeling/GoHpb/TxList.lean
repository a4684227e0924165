/-
**The transactions of one account in the pool.**

`txpool/tx_list.go` keeps the transactions of an account by their nonces, with a heap of the nonces
beside it, and remembers upper bounds of their costs and gas limits.  Transactions that the account
cannot pay are filtered out; if the bounds are below the limits, nothing is looked at.  The bounds
are raised when a transaction is added and lowered to the limits by a filter, and never computed
again.

The functions of the heap are parameters; nothing here depends on how it is arranged.  A map is a
list of its entries; loops over it take them in this order.

Main results:

* `TxPool.TxList.Capped.apply` — **no operation leaves a transaction above the bounds**.
-/

import GoHpb.Transaction
import Mathlib.Data.List.AList

namespace TxPool

open List

/-- The functions of `container/heap` on a slice of nonces. -/
class Heap where
  init : List UInt64 → List UInt64
  push : List UInt64 → UInt64 → List UInt64
  pop : List UInt64 → UInt64 × List UInt64
  remove : List UInt64 → ℕ → List UInt64
  /-- the loops that pop end with the slice -/
  length_pop : ∀ h, (pop h).2.length = h.length - 1

variable [Heap]

/-! ### The sorted map -/

/-- The transactions by their nonces. -/
abbrev Items : Type := AList fun _ : UInt64 => Transaction

structure TxSortedMap where
  items : Items
  index : List UInt64
  cache : Option (List Transaction)

namespace TxSortedMap

variable (m : TxSortedMap)

/-- The transactions in the map. -/
def stored : List Transaction := m.items.entries.map (·.2)

def put (tx : Transaction) : TxSortedMap where
  items := m.items.insert tx.nonce tx
  index := if m.items.lookup tx.nonce = none then Heap.push m.index tx.nonce else m.index
  cache := none

/-- The loop of `Forward`. -/
def forwardLoop (threshold : UInt64) : ℕ → TxSortedMap → List (Option Transaction) × TxSortedMap
  | 0, m => ([], m)
  | rounds + 1, m =>
    if m.index ≠ [] ∧ m.index.headD 0 < threshold then
      let (nonce, index) := Heap.pop m.index
      let (removed, m') := forwardLoop threshold rounds
        { m with items := m.items.erase nonce, index := index }
      (m.items.lookup nonce :: removed, m')
    else ([], m)

def forward (threshold : UInt64) : List (Option Transaction) × TxSortedMap :=
  let (removed, m) := forwardLoop threshold m.index.length m
  (removed, { m with cache := m.cache.map (·.drop removed.length) })

def filter (p : Transaction → Bool) : List Transaction × TxSortedMap :=
  let removed := (m.items.entries.filter fun e => p e.2).map (·.2)
  let items : Items :=
    ⟨m.items.entries.filter fun e => !p e.2, m.items.nodupKeys.sublist filter_sublist⟩
  if removed = [] then ([], m) else (removed, ⟨items, Heap.init items.keys, none⟩)

/-- The loop of `Cap`, over the sorted nonces from the last one down. -/
def capLoop (index : List UInt64) (threshold : ℕ) : ℕ → Items → List (Option Transaction) × Items
  | 0, items => ([], items)
  | size + 1, items =>
    if threshold < size + 1 then
      let nonce := index.getD size 0
      let (drops, items') := capLoop index threshold size (items.erase nonce)
      (items.lookup nonce :: drops, items')
    else ([], items)

def cap (threshold : ℕ) : List (Option Transaction) × TxSortedMap :=
  if m.items.keys.length ≤ threshold then ([], m)
  else
    let index := m.index.mergeSort
    let (drops, items) := capLoop index threshold m.items.keys.length m.items
    (drops, ⟨items, Heap.init (index.take threshold),
      m.cache.map fun cache => cache.take (cache.length - drops.length)⟩)

def remove (nonce : UInt64) : Bool × TxSortedMap :=
  if m.items.lookup nonce = none then (false, m)
  else
    let index := if nonce ∈ m.index then Heap.remove m.index (m.index.idxOf nonce)
      else m.index
    (true, ⟨m.items.erase nonce, index, none⟩)

/-- The loop of `Ready`. -/
def readyLoop : ℕ → UInt64 → TxSortedMap → List (Option Transaction) × TxSortedMap
  | 0, _, m => ([], m)
  | rounds + 1, next, m =>
    if m.index ≠ [] ∧ m.index.headD 0 = next then
      let (ready, m') := readyLoop rounds (next + 1)
        { m with items := m.items.erase next, index := (Heap.pop m.index).2 }
      (m.items.lookup next :: ready, m')
    else ([], m)

def ready (start : UInt64) : List (Option Transaction) × TxSortedMap :=
  if m.index = [] ∨ start < m.index.headD 0 then ([], m)
  else
    let (ready, m) := readyLoop m.index.length (m.index.headD 0) m
    (ready, { m with cache := none })

end TxSortedMap

/-! ### The list -/

structure TxList where
  strict : Bool
  txs : TxSortedMap
  costcap : ℤ
  gascap : ℤ

namespace TxList

def newTxList (strict : Bool) : TxList := ⟨strict, ⟨∅, [], none⟩, 0, 0⟩

variable (l : TxList)

/-- The price that a replacement has to exceed. -/
def threshold (old : Transaction) (priceBump : UInt64) : ℤ :=
  old.price * (100 + priceBump.toInt64).toInt / 100

def add (tx : Transaction) (priceBump : UInt64) : (Bool × Option Transaction) × TxList :=
  let old := l.txs.items.lookup tx.nonce
  if old.any fun old => tx.price ≤ threshold old priceBump then ((false, none), l)
  else ((true, old), { l with
    txs := l.txs.put tx, costcap := max l.costcap tx.cost, gascap := max l.gascap tx.gasLimit })

/-- The lower one of a nonce and that of a transaction. -/
def lower (lowest : UInt64) (tx : Transaction) : UInt64 :=
  if tx.nonce < lowest then tx.nonce else lowest

/-- `Filter`: the transactions that exceed a limit, those after them, and the list. -/
def filter (costLimit gasLimit : ℤ) : (List Transaction × List Transaction) × TxList :=
  if l.costcap ≤ costLimit ∧ l.gascap ≤ gasLimit then (([], []), l)
  else
    let (removed, txs) := l.txs.filter fun tx => costLimit < tx.cost ∨ gasLimit < tx.gasLimit
    if l.strict ∧ removed ≠ [] then
      let lowest := removed.foldl lower (.ofNat (2 ^ 64 - 1))
      let (invalids, txs) := txs.filter fun tx => lowest < tx.nonce
      ((removed, invalids), ⟨l.strict, txs, costLimit, gasLimit⟩)
    else ((removed, []), ⟨l.strict, txs, costLimit, gasLimit⟩)

def remove (tx : Transaction) : (Bool × List Transaction) × TxList :=
  let (removed, txs) := l.txs.remove tx.nonce
  if removed ∧ l.strict then
    let (invalids, txs) := txs.filter fun t => tx.nonce < t.nonce
    ((true, invalids), { l with txs := txs })
  else ((removed, []), { l with txs := txs })

/-- The operations on a list. -/
inductive Op where
  | add (tx : Transaction) (priceBump : UInt64)
  | forward (threshold : UInt64)
  | filter (costLimit gasLimit : ℤ)
  | cap (threshold : ℕ)
  | remove (tx : Transaction)
  | ready (start : UInt64)

def apply : Op → TxList
  | .add tx priceBump => (l.add tx priceBump).2
  | .forward threshold => { l with txs := (l.txs.forward threshold).2 }
  | .filter costLimit gasLimit => (l.filter costLimit gasLimit).2
  | .cap threshold => { l with txs := (l.txs.cap threshold).2 }
  | .remove tx => (l.remove tx).2
  | .ready start => { l with txs := (l.txs.ready start).2 }

/-- A sequence of operations on a new list. -/
def run (strict : Bool) (ops : List Op) : TxList := ops.foldl apply (newTxList strict)

end TxList

/-! ### What is removed -/

namespace TxSortedMap

variable {m : TxSortedMap} {tx t : Transaction}

omit [Heap] in
theorem erase_subset (items : Items) (nonce : UInt64) :
    (items.erase nonce).entries.map (·.2) ⊆ items.entries.map (·.2) :=
  ((kerase_sublist nonce items.entries).map _).subset

theorem mem_stored_put (h : tx ∈ (m.put t).stored) : tx = t ∨ tx ∈ m.stored := by
  rw [stored, put, AList.entries_insert, map_cons, mem_cons] at h
  exact h.imp_right fun h => erase_subset m.items t.nonce h

theorem stored_forward (threshold : UInt64) : (m.forward threshold).2.stored ⊆ m.stored := by
  have hloop : ∀ (rounds : ℕ) (m : TxSortedMap),
      (forwardLoop threshold rounds m).2.stored ⊆ m.stored := by
    intro rounds
    induction rounds with
    | zero => exact fun m => Subset.refl _
    | succ rounds ih =>
      intro m
      rw [forwardLoop]
      split_ifs
      · exact Subset.trans (ih _) (erase_subset m.items _)
      · exact Subset.refl _
  exact hloop m.index.length m

theorem stored_cap (threshold : ℕ) : (m.cap threshold).2.stored ⊆ m.stored := by
  have hloop : ∀ (index : List UInt64) (size : ℕ) (items : Items),
      (capLoop index threshold size items).2.entries.map (·.2) ⊆ items.entries.map (·.2) := by
    intro index size
    induction size with
    | zero => exact fun items => Subset.refl _
    | succ size ih =>
      intro items
      rw [capLoop]
      split_ifs
      · exact Subset.trans (ih _) (erase_subset items _)
      · exact Subset.refl _
  unfold cap
  split_ifs
  · exact Subset.refl _
  · exact hloop _ _ m.items

theorem stored_ready (start : UInt64) : (m.ready start).2.stored ⊆ m.stored := by
  have hloop : ∀ (rounds : ℕ) (next : UInt64) (m : TxSortedMap),
      (readyLoop rounds next m).2.stored ⊆ m.stored := by
    intro rounds
    induction rounds with
    | zero => exact fun next m => Subset.refl _
    | succ rounds ih =>
      intro next m
      rw [readyLoop]
      split_ifs
      · exact Subset.trans (ih _ _) (erase_subset m.items _)
      · exact Subset.refl _
  unfold ready
  split_ifs
  · exact Subset.refl _
  · exact hloop _ _ m

theorem stored_remove (nonce : UInt64) : (m.remove nonce).2.stored ⊆ m.stored := by
  rw [remove]
  split
  · exact Subset.refl _
  · exact erase_subset m.items nonce

omit [Heap] in
theorem mem_map_filter (q : Transaction → Bool) :
    tx ∈ (m.items.entries.filter fun e => q e.2).map (·.2) ↔ tx ∈ m.stored ∧ q tx = true := by
  simp only [stored, mem_map, List.mem_filter]
  constructor
  · rintro ⟨e, ⟨he, hq⟩, rfl⟩
    exact ⟨⟨e, he, rfl⟩, hq⟩
  · rintro ⟨⟨e, he, rfl⟩, hq⟩
    exact ⟨e, ⟨he, hq⟩, rfl⟩

theorem mem_filter (p : Transaction → Bool) :
    (tx ∈ (m.filter p).1 ↔ tx ∈ m.stored ∧ p tx = true) ∧
      (tx ∈ (m.filter p).2.stored ↔ tx ∈ m.stored ∧ p tx = false) := by
  have hremoved := @mem_map_filter m tx p
  simp only [filter]
  split_ifs with hnil
  · -- nothing is taken out, and the map stays as it is
    rw [hnil] at hremoved
    refine ⟨hremoved, fun h => ⟨h, ?_⟩, And.left⟩
    exact Bool.eq_false_iff.2 fun hp => not_mem_nil (hremoved.2 ⟨h, hp⟩)
  · refine ⟨hremoved, ?_⟩
    rw [← Bool.not_eq_true']
    exact mem_map_filter (fun tx => !p tx)

end TxSortedMap

namespace TxList

/-- The bounds are above all transactions. -/
def Capped (l : TxList) : Prop :=
  ∀ tx ∈ l.txs.stored, tx.cost ≤ l.costcap ∧ tx.gasLimit ≤ l.gascap

omit [Heap] in
theorem Capped.of_subset {l : TxList} (h : Capped l) {txs : TxSortedMap}
    (hsub : txs.stored ⊆ l.txs.stored) : Capped { l with txs := txs } :=
  fun tx htx => h tx (hsub htx)

variable {l : TxList}

omit [Heap] in
theorem foldl_lower_lt_iff {n : UInt64} : ∀ (removed : List Transaction) (start : UInt64),
    removed.foldl lower start < n ↔ start < n ∨ ∃ t ∈ removed, t.nonce < n
  | [], start => by simp
  | t :: removed, start => by
    have hlower : lower start t < n ↔ start < n ∨ t.nonce < n := by
      simp only [lower, UInt64.lt_iff_toNat_lt]
      split_ifs <;> omega
    rw [foldl_cons, foldl_lower_lt_iff removed, hlower, or_assoc, exists_mem_cons_iff]

/-- The result of a filter with two limits: what exceeds a limit is removed; of a strict list, those
that stay although a transaction with a lower nonce is removed are invalid; the others are kept. -/
structure Filtered (l : TxList) (costLimit gasLimit : ℤ) (removed invalids : List Transaction)
    (l' : TxList) : Prop where
  mem_removed : ∀ tx, tx ∈ removed ↔
    tx ∈ l.txs.stored ∧ (costLimit < tx.cost ∨ gasLimit < tx.gasLimit)
  mem_invalids : ∀ tx, tx ∈ invalids ↔ l.strict = true ∧ (tx ∈ l.txs.stored ∧ tx ∉ removed) ∧
    ∃ t ∈ removed, t.nonce < tx.nonce
  mem_kept : ∀ tx, tx ∈ l'.txs.stored ↔ tx ∈ l.txs.stored ∧ tx ∉ removed ∧ tx ∉ invalids

theorem Capped.filter (h : Capped l) (costLimit gasLimit : ℤ) :
    Capped (l.filter costLimit gasLimit).2 ∧
      Filtered l costLimit gasLimit (l.filter costLimit gasLimit).1.1
        (l.filter costLimit gasLimit).1.2 (l.filter costLimit gasLimit).2 := by
  by_cases hshort : l.costcap ≤ costLimit ∧ l.gascap ≤ gasLimit
  · rw [TxList.filter, if_pos hshort]
    refine ⟨h, fun tx => ⟨nofun, fun ⟨htx, hlt⟩ => ?_⟩, by simp, by simp⟩
    have := h tx htx
    omega
  have hfilter := fun tx => @TxSortedMap.mem_filter _ l.txs tx
    fun tx => costLimit < tx.cost ∨ gasLimit < tx.gasLimit
  simp only [TxList.filter, if_neg hshort]
  generalize l.txs.filter _ = r at hfilter ⊢
  simp only [decide_eq_true_eq, decide_eq_false_iff_not] at hfilter
  have hkept : ∀ tx, tx ∈ r.2.stored ↔ tx ∈ l.txs.stored ∧ tx ∉ r.1 := by
    intro tx
    rw [(hfilter tx).2, (hfilter tx).1]
    tauto
  have hcapped : ∀ tx ∈ r.2.stored, tx.cost ≤ costLimit ∧ tx.gasLimit ≤ gasLimit := by
    intro tx htx
    have := ((hfilter tx).2.1 htx).2
    omega
  split_ifs with hstrict
  · have hlowest : ∀ n : UInt64, r.1.foldl lower (.ofNat (2 ^ 64 - 1)) < n ↔
        ∃ t ∈ r.1, t.nonce < n := by
      intro n
      have hmax : ¬ UInt64.ofNat (2 ^ 64 - 1) < n := by
        have hlt := n.toNat_lt
        rw [UInt64.lt_iff_toNat_lt, show (UInt64.ofNat (2 ^ 64 - 1)).toNat = 2 ^ 64 - 1 from rfl]
        omega
      rw [foldl_lower_lt_iff, or_iff_right hmax]
    generalize r.1.foldl lower _ = lowest at hlowest ⊢
    have hinvalid := fun tx => @TxSortedMap.mem_filter _ r.2 tx
      fun tx => lowest < tx.nonce
    generalize r.2.filter _ = s at hinvalid ⊢
    simp only [decide_eq_true_eq, decide_eq_false_iff_not, hlowest, hkept] at hinvalid
    refine ⟨fun tx htx => hcapped tx ((hkept tx).2 ((hinvalid tx).2.1 htx).1),
      fun tx => (hfilter tx).1, fun tx => ?_, fun tx => ?_⟩
    · rw [(hinvalid tx).1, and_iff_right hstrict.1]
    rw [(hinvalid tx).2, (hinvalid tx).1]
    exact ⟨fun ⟨h, hnot⟩ => ⟨h.1, h.2, fun h => hnot h.2⟩,
      fun ⟨htx, hne, hnot⟩ => ⟨⟨htx, hne⟩, fun ht => hnot ⟨⟨htx, hne⟩, ht⟩⟩⟩
  · refine ⟨hcapped, fun tx => (hfilter tx).1, fun tx => ⟨nofun, ?_⟩, fun tx => ?_⟩
    · rintro ⟨hs, -, t, ht, -⟩
      exact absurd ⟨hs, ne_nil_of_mem ht⟩ hstrict
    · rw [hkept]
      simp

/-- **No operation leaves a transaction above the bounds.** -/
theorem Capped.apply (h : Capped l) (op : Op) : Capped (l.apply op) := by
  cases op with
  | add tx priceBump =>
    simp only [TxList.apply, add]
    split_ifs
    · exact h
    intro t ht
    rcases TxSortedMap.mem_stored_put ht with rfl | ht
    · exact ⟨le_max_right _ _, le_max_right _ _⟩
    · exact ⟨(h t ht).1.trans (le_max_left _ _), (h t ht).2.trans (le_max_left _ _)⟩
  | forward threshold => exact h.of_subset (TxSortedMap.stored_forward threshold)
  | filter costLimit gasLimit => exact (h.filter costLimit gasLimit).1
  | cap threshold => exact h.of_subset (TxSortedMap.stored_cap threshold)
  | remove tx =>
    have hremove := TxSortedMap.stored_remove (m := l.txs) tx.nonce
    simp only [TxList.apply, remove]
    split_ifs
    · exact h.of_subset fun t ht => hremove ((TxSortedMap.mem_filter _).2.1 ht).1
    · exact h.of_subset hremove
  | ready start => exact h.of_subset (TxSortedMap.stored_ready start)

theorem capped_run (strict : Bool) (ops : List Op) : Capped (run strict ops) :=
  ops.foldlRecOn _ nofun fun _ h op _ => h.apply op

/-- **A filter is exact after any operations**: the bounds are above all transactions, and what is
removed, invalid and kept does not depend on them. -/
theorem filter_exact (strict : Bool) (ops : List Op) :
    (∀ tx ∈ (run strict ops).txs.stored,
      tx.cost ≤ (run strict ops).costcap ∧ tx.gasLimit ≤ (run strict ops).gascap) ∧
    ∀ costLimit gasLimit : ℤ, Filtered (run strict ops) costLimit gasLimit
      ((run strict ops).filter costLimit gasLimit).1.1
      ((run strict ops).filter costLimit gasLimit).1.2
      ((run strict ops).filter costLimit gasLimit).2 :=
  ⟨capped_run strict ops, fun costLimit gasLimit =>
    ((capped_run strict ops).filter costLimit gasLimit).2⟩

end TxList

end TxPool
