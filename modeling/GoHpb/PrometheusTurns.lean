/-
**Who may seal, whose turn it is, and how long the others wait.**

The first signers are listed in the genesis block.  Its verification bounds the length of one field,
`Extra`, and the signers are cut out of another one, `ExtraHash`, whose length nobody has checked:
if it is too short the length of the list is negative, or the list is empty.

The signers of a snapshot are listed in ascending order, and the one at the position of the block
number modulo their count is in turn.  The list does not depend on the order in which the map of
signers is iterated, so every node finds the same signer.

A signer out of turn waits longer.  `Seal` compares its position with the one in turn, both as
unsigned numbers, and subtracts them before it knows which is larger.  Behind the position in turn
the difference wraps around, and as a signed duration it is negative: such a signer does not wait
but seals first.  The product with the unit of time is signed as well and can leave its range, if
there are many signers.

Main results:

* `Prometheus.genesisSnapshot_iff` — **the signers of an accepted genesis block can be read exactly
  if its list has room for one**;
* `Historysnap.signers_turns` — **each signer is in turn once in a round, and nobody else is**;
* `outOfTurnDelay_pos_iff` — **the delay is positive exactly at the positions that wait**.
-/

import GoHpb.PrometheusSeal
import GoHpb.TxSigning

open ExchangeSort FailState FixedBytes List

/-! ### The first signers -/

namespace Prometheus

section Genesis

variable [Crypto] {now : UnixTime} {chain : ChainReader} {c c₁ : Prometheus} {parents : List Header}

omit [Crypto] in
theorem mem_genesisSigners {genesis : Header} {signers : List AddressHash} {a : AddressHash}
    (h : genesisSigners genesis = .ok signers) :
    a ∈ signers ↔ ∃ i, extraVanity + (i + 1) * 4 + extraSeal ≤ genesis.extraHash.length ∧
      a.bytes = (genesis.extraHash.drop (extraVanity + i * 4)).take 4 := by
  rw [genesisSigners] at h
  split_ifs at h
  cases h
  simp only [mem_map, mem_range]
  have hcount : ∀ i, i < (genesis.extraHash.length - extraVanity - extraSeal) / 4 ↔
      extraVanity + (i + 1) * 4 + extraSeal ≤ genesis.extraHash.length := by
    intro i
    omega
  refine exists_congr fun i => ?_
  rw [hcount i]
  refine and_congr_right fun hi => ?_
  constructor
  · rintro rfl
    refine bytes_setBytes ?_
    rw [length_take, length_drop]
    omega
  · intro hbytes
    rw [← hbytes, setBytes_self]

/-- **The signers of an accepted genesis block can be read, and there are some, exactly if its list
has room for one.** -/
theorem genesisSnapshot_iff
    (haccept : verifyHeader now chain chain.genesis parents c = .ok () c₁) :
    (∃ snap c', genesisSnapshot now chain c = .ok snap c' ∧ snap.signers.Nonempty ∧
      ∀ a, a ∈ snap.signers ↔
        ∃ i, extraVanity + (i + 1) * 4 + extraSeal ≤ chain.genesis.extraHash.length ∧
          a.bytes = (chain.genesis.extraHash.drop (extraVanity + i * 4)).take 4) ↔
      extraVanity + 4 + extraSeal ≤ chain.genesis.extraHash.length := by
  rw [verifyHeader_genesis] at haccept
  have hstandalone := (fromExcept_eq_ok.1 haccept).1
  constructor
  · rintro ⟨snap, c', -, ⟨a, ha⟩, hchunks⟩
    obtain ⟨i, hi, -⟩ := (hchunks a).1 ha
    omega
  intro hlen
  have hsigners : ∃ signers, genesisSigners chain.genesis = .ok signers := by
    rw [genesisSigners, if_neg (by omega)]
    exact ⟨_, rfl⟩
  obtain ⟨signers, hsigners⟩ := hsigners
  have hmem : ∀ a, a ∈ (newHistorysnap 0 chain.genesis.hash signers).signers ↔ _ :=
    fun a => mem_toFinset.trans (mem_genesisSigners hsigners)
  refine ⟨newHistorysnap 0 chain.genesis.hash signers,
    { c with db := (newHistorysnap 0 chain.genesis.hash signers).store c.db }, ?_, ?_, hmem⟩
  · rw [genesisSnapshot, get_bind, bind_ok (fromExcept_eq_ok.2 ⟨hstandalone, rfl⟩),
      bind_ok (fromExcept_eq_ok.2 ⟨hsigners, rfl⟩)]
    rfl
  -- the first chunk is a signer
  have hfirst : ((chain.genesis.extraHash.drop (extraVanity + 0 * 4)).take 4).length = 4 := by
    rw [length_take, length_drop]
    omega
  exact ⟨setBytes 4 _, (hmem _).2 ⟨0, by omega, bytes_setBytes hfirst⟩⟩

end Genesis

end Prometheus

namespace Sample

/-- A chain whose genesis block lists its signers in no field. -/
def unlisted : ChainReader :=
  { chain with genesis := { genesis with extraHash := [] }, genesis_number := by decide }

end Sample

open Sample in
/-- A genesis block is accepted and its signers cannot be read. -/
theorem Prometheus.genesisSnapshot_unlisted : outcome
        (Prometheus.verifyHeader 2000 unlisted unlisted.genesis [] engine) =
        .ok () ∧ outcome (Prometheus.genesisSnapshot 2000 unlisted engine) =
        .error Err.panicMakeSlice := by
  decide

open Sample in
/-- The signer of a genesis block that lists one. -/
theorem Prometheus.genesisSnapshot_chain :
    ∃ snap c', Prometheus.genesisSnapshot 2000 chain engine =
        .ok snap c' ∧ snap.signers.Nonempty ∧ ∀ a, a ∈ snap.signers ↔
        ∃ i, extraVanity + (i + 1) * 4 + extraSeal ≤ chain.genesis.extraHash.length ∧
          a.bytes = (chain.genesis.extraHash.drop (extraVanity + i * 4)).take 4 :=
  (Prometheus.genesisSnapshot_iff (eq_ok_of_outcome (show outcome (Prometheus.verifyHeader 2000
    chain chain.genesis [] engine) = .ok () by decide))).2
    (by decide)

namespace Historysnap

/-! ### Turns -/

variable {s : Historysnap} {a : AddressHash}

theorem card_signers_le (s : Historysnap) : s.signers.card ≤ 2 ^ 32 := by
  have hcard := Finset.card_le_card_of_injOn (s := s.signers) (t := Finset.range (256 ^ 4))
    (fun a => Rlp.beNat a.bytes)
    (fun a _ => Finset.mem_coe.2 (Finset.mem_range.2 (Rlp.beNat_lt (by simp))))
    (fun a _ b _ h => bytes_injective (beNat_inj_of_length (by simp) h))
  rwa [Finset.card_range] at hcard

/-- The position of a signer, or the number of signers for anybody else. -/
def offset (s : Historysnap) (a : AddressHash) : ℕ := s.signersList.idxOf a

@[simp] theorem length_signersList (s : Historysnap) : s.signersList.length = s.signers.card :=
  length_sortedKeys s.signers

theorem offset_lt_iff : s.offset a < s.signers.card ↔ a ∈ s.signers := by
  rw [offset, ← length_signersList, idxOf_lt_length_iff, signersList, mem_sortedKeys]

theorem offset_le (s : Historysnap) (a : AddressHash) : s.offset a ≤ s.signers.card := by
  rw [← length_signersList]
  exact idxOf_le_length

theorem toNat_getOffset (s : Historysnap) (a : AddressHash) : (s.getOffset a).toNat = s.offset a :=
  UInt64.toNat_ofNat_of_lt' ((s.offset_le a).trans_lt (s.card_signers_le.trans_lt (by norm_num)))

theorem toNat_card (s : Historysnap) : (UInt64.ofNat s.signers.card).toNat = s.signers.card :=
  UInt64.toNat_ofNat_of_lt' (s.card_signers_le.trans_lt (by norm_num))

theorem inturn_eq (hne : s.signers.Nonempty) (number : UInt64) :
    s.inturn number a = .ok (decide (number.toNat % s.signers.card = s.offset a)) := by
  have hlen : ¬ s.signersList.length = 0 := by
    rw [length_signersList]
    exact hne.card_pos.ne'
  rw [inturn, if_neg hlen]
  congr 1
  refine decide_eq_decide.2 ?_
  rw [← UInt64.toNat_inj, UInt64.toNat_mod, length_signersList, toNat_card, toNat_getOffset]

theorem inturn_iff (hne : s.signers.Nonempty) {number : UInt64} :
    s.inturn number a = .ok true ↔ number.toNat % s.signers.card = s.offset a := by
  rw [inturn_eq hne, Except.ok.injEq, decide_eq_true_iff]

/-- The list is the same in whatever order the map is iterated. -/
theorem signersList_eq {order : List AddressHash} (hnodup : order.Nodup)
    (horder : order.toFinset = s.signers) : exchangeSort order = s.signersList := by
  have hval : s.signers.1 = (order : Multiset AddressHash) := by
    rw [← horder, toFinset_val, hnodup.dedup]
  rw [signersList, sortedKeys, hval]
  rfl

theorem signersList_sorted (s : Historysnap) : s.signersList.Pairwise (· < ·) := by
  have hsort := exchangeSort_sorted s.signers.toList
  rw [signersList_eq s.signers.nodup_toList (Finset.toList_toFinset _)] at hsort
  exact (hsort.and (nodup_sortedKeys s.signers)).imp fun h => lt_of_le_of_ne h.1 h.2

theorem exists_inturn (hne : s.signers.Nonempty) (number : UInt64) :
    ∃ a ∈ s.signers, s.inturn number a = .ok true := by
  have hlt : number.toNat % s.signers.card < s.signersList.length := by
    rw [length_signersList]
    exact Nat.mod_lt _ hne.card_pos
  refine ⟨s.signersList.get ⟨_, hlt⟩, mem_sortedKeys.1 (get_mem _ _), ?_⟩
  rw [inturn_iff hne]
  exact ((nodup_sortedKeys s.signers).idxOf_getElem _ hlt).symm

theorem exists_unique_turn {n o : ℕ} (ho : o < n) (first : ℕ) :
    ∃! k, k < n ∧ (first + k) % n = o := by
  have hn : 0 < n := by omega
  have hfirst := Nat.mod_lt first hn
  refine ⟨(o + n - first % n) % n, ⟨Nat.mod_lt _ hn, ?_⟩, ?_⟩
  · rw [Nat.add_mod_mod, ← Nat.mod_add_mod, show first % n + (o + n - first % n) = o + n by omega,
      Nat.add_mod_right, Nat.mod_eq_of_lt ho]
  rintro k ⟨hk, hturn⟩
  have hsame : first + k ≡ first + (o + n - first % n) % n [MOD n] := by
    rw [Nat.ModEq, hturn, Nat.add_mod_mod, ← Nat.mod_add_mod,
      show first % n + (o + n - first % n) = o + n by omega, Nat.add_mod_right,
      Nat.mod_eq_of_lt ho]
  exact Nat.ModEq.eq_of_lt_of_lt (Nat.ModEq.add_left_cancel' first hsame) hk (Nat.mod_lt _ hn)

/-- **Turns are taken one after the other**: whatever the order in which the map is iterated, the
list of signers is the same and ascending; every number has exactly one signer in turn and nobody
else is; and in a round of consecutive numbers each signer is in turn exactly once. -/
theorem signers_turns (s : Historysnap) (hne : s.signers.Nonempty) :
    (∀ order : List AddressHash, order.Nodup → order.toFinset = s.signers →
      exchangeSort order = s.signersList) ∧
    s.signersList.Pairwise (· < ·) ∧ (∀ a, a ∈ s.signersList ↔ a ∈ s.signers) ∧
    (∀ number, ∃! a, a ∈ s.signers ∧ s.inturn number a = .ok true) ∧
    (∀ number, ∀ a ∉ s.signers, s.inturn number a = .ok false) ∧
    ∀ first : ℕ, first + s.signers.card ≤ 2 ^ 64 → ∀ a ∈ s.signers,
      ∃! k, k < s.signers.card ∧ s.inturn (.ofNat (first + k)) a = .ok true := by
  refine ⟨fun order => signersList_eq, s.signersList_sorted, fun a => mem_sortedKeys,
    fun number => ?_, fun number a ha => ?_, fun first hfirst a ha => ?_⟩
  · obtain ⟨a, ha, hturn⟩ := exists_inturn hne number
    refine ⟨a, ⟨ha, hturn⟩, fun b hb => ?_⟩
    have hsame := ((inturn_iff hne).1 hb.2).symm.trans ((inturn_iff hne).1 hturn)
    exact (idxOf_inj (mem_sortedKeys.2 hb.1)).1 hsame
  · rw [inturn_eq hne, Except.ok.injEq, decide_eq_false_iff_not]
    have hout := mt offset_lt_iff.1 ha
    have := Nat.mod_lt number.toNat hne.card_pos
    omega
  obtain ⟨k, ⟨hk, hturn⟩, hunique⟩ := exists_unique_turn (offset_lt_iff.2 ha) first
  have hnumber : ∀ j < s.signers.card, (UInt64.ofNat (first + j)).toNat = first + j :=
    fun j hj => UInt64.toNat_ofNat_of_lt' (show first + j < 2 ^ 64 by omega)
  refine ⟨k, ⟨hk, (inturn_iff hne).2 ((hnumber k hk).symm ▸ hturn)⟩, ?_⟩
  rintro j ⟨hj, hjturn⟩
  have hj' := (inturn_iff hne).1 hjturn
  rw [hnumber j hj] at hj'
  exact hunique j ⟨hj, hj'⟩

end Historysnap

/-- Two signers, in the order of their identities. -/
def twoSigners : Historysnap :=
  newHistorysnap 0 (zero 32)
    [setBytes 4 [1], setBytes 4 [2]]

/-- The first of two signers is in turn at one of the blocks ten and eleven. -/
theorem signers_turns_twoSigners :
    ∃! k, k < twoSigners.signers.card ∧ twoSigners.inturn (.ofNat (10 + k))
      (setBytes 4 [1]) = .ok true :=
  (Historysnap.signers_turns twoSigners (by decide)).2.2.2.2.2 10 (by decide) _ (by decide)

/-! ### Delays -/

section Delay

variable (snap : Historysnap) (number : UInt64) (a : AddressHash)

/-- No subtraction of `Seal` goes below zero.  In the first case the second subtraction is made
only if the difference is larger than half. -/
def NoWrap : Prop :=
  let half := snap.signers.card / 2
  let currentIndex := number.toNat % snap.signers.card
  if currentIndex ≤ half then currentIndex ≤ snap.offset a
  else snap.offset a + half ≤ currentIndex ∨ currentIndex + half ≤ snap.offset a

instance instDecidableNoWrap : Decidable (NoWrap snap number a) := by
  unfold NoWrap
  infer_instance

/-- The signer is ahead of the position in turn, near enough for the fixed delay or so that the
product of the distance stays positive; or the position in turn is in the upper half, and the signer
far enough behind it for the fixed delay. -/
def Waits : Prop :=
  let half := snap.signers.card / 2
  let currentIndex := number.toNat % snap.signers.card
  (currentIndex ≤ half ∧ currentIndex < snap.offset a ∧
    (snap.offset a - currentIndex ≤ half ∨
      0 < (((snap.offset a - currentIndex - half) * ((half + 1) * 500000000) : ℕ) : ℤ).bmod
        (2 ^ 64))) ∨
  (half < currentIndex ∧ snap.offset a + half ≤ currentIndex)

end Delay

theorem toInt_delay (x : UInt64) (n : ℕ) : (x.toInt64 * (Int64.ofNat n * wiggleTime)).toInt =
      ((x.toNat * (n * 500000000) : ℕ) : ℤ).bmod (2 ^ 64) := by
  have hx : x.toInt64.toInt = (x.toNat : ℤ).bmod (2 ^ 64) := BitVec.toInt_eq_toNat_bmod _
  have hw : wiggleTime.toInt = 500000000 := by decide
  have hn : (Int64.ofNat n).toInt = (n : ℤ).bmod (2 ^ 64) := Int64.toInt_ofNat'
  rw [Int64.toInt_mul, Int64.toInt_mul, hx, hn, hw, Int.bmod_mul_bmod, Int.bmod_mul_bmod,
    Int.mul_bmod_bmod]
  push_cast
  rfl

section Delay

variable {snap : Historysnap} {number : UInt64} {a : AddressHash}

/-- The delay, case by case: the fixed one if the signer is near, else the product. -/
theorem outOfTurnDelay_eq (hpos : 0 < snap.signers.card) (number : UInt64) (a : AddressHash) :
    ∃ half currentIndex offset : UInt64, half.toNat = snap.signers.card / 2 ∧
      currentIndex.toNat = number.toNat % snap.signers.card ∧ offset.toNat = snap.offset a ∧
      outOfTurnDelay snap number a = .ok
        (if (if currentIndex ≤ half then offset - currentIndex ≤ half
          else offset + half ≤ currentIndex) then 1000 * wiggleTime
        else (offset - currentIndex - half).toInt64 *
          (Int64.ofNat (snap.signers.card / 2 + 1) * wiggleTime)) := by
  have hcard := snap.card_signers_le
  refine ⟨.ofNat (snap.signers.card / 2), number % .ofNat snap.signers.card,
    snap.getOffset a, UInt64.toNat_ofNat_of_lt' (show snap.signers.card / 2 < 2 ^ 64 by omega), ?_,
    snap.toNat_getOffset a, by rw [outOfTurnDelay, if_neg hpos.ne']⟩
  rw [UInt64.toNat_mod, snap.toNat_card]

/-- **The delay of a signer out of turn is positive, and computed without going below zero, exactly
at the positions that wait.** -/
theorem outOfTurnDelay_pos_iff (htwo : 2 ≤ snap.signers.card) (ha : a ∈ snap.signers)
    (hturn : snap.inturn number a = .ok false) :
    ((∃ d, outOfTurnDelay snap number a = .ok d ∧ 0 < d) ∧ NoWrap snap number a) ↔
      Waits snap number a := by
  have hcard := snap.card_signers_le
  have hpos : 0 < snap.signers.card := by omega
  have hother : number.toNat % snap.signers.card ≠ snap.offset a := by
    intro hsame
    rw [Historysnap.inturn_eq (Finset.card_pos.1 hpos), decide_eq_true hsame] at hturn
    cases hturn
  have ho := Historysnap.offset_lt_iff.2 ha
  have hc := Nat.mod_lt number.toNat hpos
  obtain ⟨half, currentIndex, offset, hhalf, hcur, hoff, hdelay⟩ :=
    outOfTurnDelay_eq hpos number a
  have hfixed : (0 : Int64) < 1000 * wiggleTime := by decide
  simp only [hdelay, Except.ok.injEq, exists_eq_left', NoWrap, Waits]
  simp only [← hhalf, ← hcur, ← hoff] at hother ho hc ⊢
  by_cases hlow : currentIndex ≤ half
  · have hlow' := UInt64.le_iff_toNat_le.1 hlow
    simp only [if_pos hlow, if_pos hlow']
    rcases Nat.lt_or_ge offset.toNat currentIndex.toNat with hlt | hge
    · -- behind the position in turn the difference wraps
      have hnot : ¬ currentIndex.toNat ≤ offset.toNat := by omega
      simp [hnot, hlt.le.not_gt, hlow'.not_gt]
    have hdiff := UInt64.toNat_sub_of_le offset currentIndex (UInt64.le_iff_toNat_le.2 hge)
    by_cases hnear : offset - currentIndex ≤ half
    · have hnear' := UInt64.le_iff_toNat_le.1 hnear
      rw [hdiff] at hnear'
      rw [if_pos hnear]
      exact ⟨fun _ => .inl ⟨hlow', by omega, .inl hnear'⟩, fun _ => ⟨hfixed, hge⟩⟩
    have hfar : half.toNat < offset.toNat - currentIndex.toNat := by
      rw [UInt64.le_iff_toNat_le, hdiff] at hnear
      omega
    have hdiff' := UInt64.toNat_sub_of_le (offset - currentIndex) half
      (UInt64.le_iff_toNat_le.2 (by omega))
    rw [if_neg hnear, Int64.lt_iff_toInt_lt, toInt_delay, hdiff', hdiff]
    simp only [hge, and_true, hlow', true_and, hlow'.not_gt, false_and, or_false,
      hfar.not_ge, false_or]
    exact ⟨fun h => ⟨by omega, h⟩, fun h => h.2⟩
  · have hhigh : half.toNat < currentIndex.toNat := by
      rw [UInt64.le_iff_toNat_le] at hlow
      omega
    simp only [if_neg hlow, if_neg hhigh.not_ge]
    have hsum : (offset + half).toNat = offset.toNat + half.toNat := by
      rw [UInt64.toNat_add, Nat.mod_eq_of_lt (by omega)]
    by_cases hnear : offset + half ≤ currentIndex
    · have hnear' := UInt64.le_iff_toNat_le.1 hnear
      rw [hsum] at hnear'
      rw [if_pos hnear]
      exact ⟨fun _ => .inr ⟨hhigh, hnear'⟩, fun _ => ⟨hfixed, .inl hnear'⟩⟩
    -- here the position is ahead by less than half, so that the difference wraps
    have hnot : ¬ offset.toNat + half.toNat ≤ currentIndex.toNat := by
      rw [UInt64.le_iff_toNat_le, hsum] at hnear
      exact hnear
    have hbelow : ¬ currentIndex.toNat + half.toNat ≤ offset.toNat := by omega
    simp [hnot, hbelow, hhigh.not_ge]

/-- The first of two signers seals the first block two seconds before it is due. -/
theorem outOfTurnDelay_twoSigners :
    2 ≤ twoSigners.signers.card ∧ setBytes 4 [1] ∈ twoSigners.signers ∧
      twoSigners.inturn 1 (setBytes 4 [1]) = .ok false ∧
      outOfTurnDelay twoSigners 1 (setBytes 4 [1]) = .ok (-2000000000) ∧
      ¬ NoWrap twoSigners 1 (setBytes 4 [1]) := by
  decide

/-- The second of two signers waits for the first at a block with an even number. -/
theorem outOfTurnDelay_pos_twoSigners :
    ((∃ d, outOfTurnDelay twoSigners 2 (setBytes 4 [2]) = .ok d ∧ 0 < d) ∧
      NoWrap twoSigners 2 (setBytes 4 [2])) ↔
      Waits twoSigners 2 (setBytes 4 [2]) :=
  outOfTurnDelay_pos_iff (by decide) (by decide) (by decide)

end Delay
