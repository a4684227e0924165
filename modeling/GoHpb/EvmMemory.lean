/-
**The gas of memory expansion.**

`memoryGasCost` of `hvm/evm/gas_table.go` with the memory of `memory.go`, as `Interpreter.Run` calls
it: the size an operand asks for is rounded up to words, the fee is charged against the running
`lastGasCost`, and the store is grown.  Values of the type `uint64` are natural numbers, reduced
modulo `2^64` where the code computes with them.

The total of `w` words is `3 w + w² / 512`.  The guard admits word counts whose square is beyond
`2^64`, so the total is exact up to `0x1fffffffe0` bytes only, while the guard is `0xffffffffe0`.

Main results:

* `exact_iff_sound` — **an expansion is exact outside the gap below the guard, and only there**.
-/

import Mathlib

namespace EvmMemory

open List

/-! ### The source -/

/-- `Memory`: the bytes, and the gas paid for them so far. -/
structure Memory where
  store : List UInt8
  lastGasCost : ℕ

/-- The error of a gas computation. -/
inductive GasErr
  | errGasUintOverflow

/-- `Memory.Resize`: grows the store, never shrinks it. -/
def Memory.resize (m : Memory) (size : ℕ) : Memory :=
  if m.store.length < size then
    { m with store := m.store ++ replicate (size - m.store.length) 0 }
  else m

/-- `toWordSize`, the words that hold `size` bytes. -/
def toWordSize (size : ℕ) : ℕ :=
  if size > 2 ^ 64 - 1 - 31 then (2 ^ 64 - 1) / 32 + 1 else (size + 31) / 32

/-- `math.SafeMul`, with the overflow flag. -/
def safeMul (x y : ℕ) : ℕ × Bool :=
  if x = 0 ∨ y = 0 then (0, false) else (x * y % 2 ^ 64, y > (2 ^ 64 - 1) / x)

/-- `memoryGasCost`: the fee of the memory beyond what is paid for. -/
def memoryGasCost (mem : Memory) (newMemSize : ℕ) : Except GasErr (ℕ × Memory) :=
  if newMemSize = 0 then .ok (0, mem)
  else if newMemSize > 0xffffffffe0 then .error .errGasUintOverflow
  else
    let newMemSizeWords := toWordSize newMemSize
    let newMemSize := newMemSizeWords * 32 % 2 ^ 64
    if newMemSize > mem.store.length then
      let square := newMemSizeWords * newMemSizeWords % 2 ^ 64
      let linCoef := newMemSizeWords * 3 % 2 ^ 64
      let quadCoef := square / 512
      let newTotalFee := (linCoef + quadCoef) % 2 ^ 64
      .ok ((2 ^ 64 - mem.lastGasCost + newTotalFee) % 2 ^ 64,
        { mem with lastGasCost := newTotalFee })
    else .ok (0, mem)

/-- The memory part of a round of `Interpreter.Run`, when an operand asks for `memSize` bytes. -/
def expand (mem : Memory) (memSize : ℕ) : Except GasErr (ℕ × Memory) :=
  match safeMul (toWordSize memSize) 32 with
  | (_, true) => .error .errGasUintOverflow
  | (memorySize, false) => (memoryGasCost mem memorySize).map fun (fee, mem) =>
    (fee, if memorySize > 0 then mem.resize memorySize else mem)

/-! ### The specification -/

/-- The gas of `w` words of memory. -/
def cost (w : ℕ) : ℕ := 3 * w + w * w / 512

def Memory.words (m : Memory) : ℕ := m.store.length / 32

/-- The words that `n` bytes take. -/
def wordsOf (n : ℕ) : ℕ := (n + 31) / 32

/-- An expansion **is exact**: it overflows, or it charges the difference of the two totals and
leaves the new total in `lastGasCost`. -/
def Exact (mem : Memory) (n : ℕ) : Prop :=
  ∀ fee mem', expand mem n = .ok (fee, mem') →
    (fee : ℤ) = cost (max mem.words (wordsOf n)) - cost mem.words ∧
      mem'.words = max mem.words (wordsOf n) ∧ mem'.lastGasCost = cost mem'.words

/-- The sizes whose total is computed without a wrap, and those that are refused. -/
def Sound (n : ℕ) : Prop := n ≤ 0x1fffffffe0 ∨ 0xffffffffe0 < n

/-- The memories that expansions to sound sizes reach, with the instructions writing to them. -/
inductive Expanded : Memory → Prop
  | new : Expanded ⟨[], 0⟩
  | expand {mem mem' : Memory} {n fee : ℕ} : Expanded mem → n < 2 ^ 64 → Sound n →
      EvmMemory.expand mem n = .ok (fee, mem') → Expanded mem'
  | write {mem : Memory} {store : List UInt8} : Expanded mem →
      store.length = mem.store.length → Expanded { mem with store }

variable {mem mem' : Memory} {n v w fee : ℕ}

/-! ### One expansion -/

/-- The total as the code computes it, with the square reduced modulo `2^64`. -/
def total (w : ℕ) : ℕ := 3 * w + w * w % 2 ^ 64 / 512

theorem total_eq_cost (hw : w < 2 ^ 32) : total w = cost w := by
  have hsq : w * w < 2 ^ 32 * 2 ^ 32 := Nat.mul_lt_mul'' hw hw
  unfold total cost
  omega

theorem total_lt_cost (hlow : 2 ^ 32 ≤ w) (hw : w < 2 ^ 35) :
    total w < cost w ∧ cost w < total w + 2 ^ 64 := by
  have hsq : w * w < 2 ^ 35 * 2 ^ 35 := Nat.mul_lt_mul'' hw hw
  have hsq' : 2 ^ 32 * 2 ^ 32 ≤ w * w := Nat.mul_le_mul hlow hlow
  unfold total cost
  omega

theorem cost_mono (h : v ≤ w) : cost v ≤ cost w := by
  have hsq : v * v ≤ w * w := Nat.mul_le_mul h h
  unfold cost
  omega

theorem cost_lt (hw : w < 2 ^ 32) : cost w < 2 ^ 64 :=
  (cost_mono hw.le).trans_lt (by decide)

/-- The memory holds whole words and has paid the gas of them. -/
structure Settled (mem : Memory) : Prop where
  length : mem.store.length = 32 * mem.words
  words : mem.words < 2 ^ 32
  paid : mem.lastGasCost = cost mem.words

theorem memoryGasCost_eq (hs : Settled mem) (hw : w < 2 ^ 59) : memoryGasCost mem (32 * w) =
      if 0xffffffffe0 < 32 * w then .error .errGasUintOverflow
      else if w ≤ mem.words then .ok (0, mem)
      else .ok ((2 ^ 64 - mem.lastGasCost + total w) % 2 ^ 64,
        { mem with lastGasCost := total w }) := by
  have hlen := hs.length
  have hsize : toWordSize (32 * w) = w := by
    unfold toWordSize
    split_ifs <;> omega
  have hgrow : w * 32 % 2 ^ 64 > mem.store.length ↔ ¬ w ≤ mem.words := by omega
  unfold memoryGasCost
  simp only [hsize, hgrow]
  split_ifs with hzero hguard hle
  · omega
  · rfl
  · omega
  · rfl
  · rfl
  have htotal : (w * 3 % 2 ^ 64 + w * w % 2 ^ 64 / 512) % 2 ^ 64 = total w := by
    unfold total
    omega
  rw [htotal]

theorem safeMul_eq (hw : w ≤ 2 ^ 59) : safeMul w 32 = (32 * w % 2 ^ 64, decide (w = 2 ^ 59)) := by
  by_cases hzero : w = 0
  · rw [hzero]
    rfl
  have hover : 32 > (2 ^ 64 - 1) / w ↔ w = 2 ^ 59 := by
    rw [gt_iff_lt, Nat.div_lt_iff_lt_mul (by omega)]
    omega
  rw [safeMul, if_neg (by simp [hzero]), Nat.mul_comm w, decide_eq_decide.2 hover]

/-- **What an expansion does to a settled memory.** -/
theorem expand_eq (hs : Settled mem) (hn : n < 2 ^ 64) : expand mem n =
      if 0xffffffffe0 < n then .error .errGasUintOverflow
      else if wordsOf n ≤ mem.words then .ok (0, mem)
      else .ok ((2 ^ 64 - mem.lastGasCost + total (wordsOf n)) % 2 ^ 64,
        ⟨mem.store ++ replicate (32 * wordsOf n - mem.store.length) 0,
          total (wordsOf n)⟩) := by
  have hlen := hs.length
  have hwords : toWordSize n = wordsOf n := by
    unfold toWordSize wordsOf
    split_ifs <;> omega
  have hwide : wordsOf n ≤ 2 ^ 59 ∧ (0xffffffffe0 < 32 * wordsOf n ↔ 0xffffffffe0 < n) := by
    unfold wordsOf
    omega
  unfold expand
  rw [hwords, safeMul_eq hwide.1]
  by_cases htop : wordsOf n = 2 ^ 59
  · simp only [htop, decide_true, if_pos (hwide.2.1 (by omega))]
  have hfits : 32 * wordsOf n % 2 ^ 64 = 32 * wordsOf n := Nat.mod_eq_of_lt (by omega)
  simp only [htop, decide_false, hfits, memoryGasCost_eq hs (by omega : wordsOf n < 2 ^ 59),
    hwide.2]
  by_cases hover : 0xffffffffe0 < n
  · simp only [hover, if_true]
    rfl
  by_cases hle : wordsOf n ≤ mem.words
  · have hkeep : ¬ mem.store.length < 32 * wordsOf n := by omega
    simp only [hover, hle, Except.map, Memory.resize, hkeep, if_true, if_false, ite_self]
  have hgrow : mem.store.length < 32 * wordsOf n := by omega
  have hpos : 32 * wordsOf n > 0 := by omega
  simp only [hover, hle, Except.map, Memory.resize, hpos, hgrow, if_true, if_false]

/-! ### Every expansion -/

theorem words_grown (hs : Settled mem) (hw : mem.words < w) (c : ℕ) :
    (Memory.mk (mem.store ++ replicate (32 * w - mem.store.length) 0) c).words = w := by
  have hlen := hs.length
  simp only [Memory.words, length_append, length_replicate] at hlen hw ⊢
  omega

theorem wordsOf_lt_of_sound (h : Sound n) (hn : ¬ 0xffffffffe0 < n) : wordsOf n < 2 ^ 32 := by
  unfold Sound at h
  unfold wordsOf
  omega

theorem exact_of_sound (hs : Settled mem) (hn : n < 2 ^ 64) (h : Sound n) : Exact mem n := by
  intro fee mem' he
  rw [expand_eq hs hn] at he
  split_ifs at he with hover hle
  · cases he
    simp [max_eq_left hle, hs.paid]
  have hw := wordsOf_lt_of_sound h hover
  have hgrow : mem.words < wordsOf n := Nat.lt_of_not_le hle
  have hmono := cost_mono hgrow.le
  have hpaid := hs.paid
  have hbound := cost_lt hw
  cases he
  rw [max_eq_right hgrow.le, words_grown hs hgrow, total_eq_cost hw]
  exact ⟨by omega, rfl, rfl⟩

theorem Settled.expand (hs : Settled mem) (hn : n < 2 ^ 64) (h : Sound n)
    (he : EvmMemory.expand mem n = .ok (fee, mem')) : Settled mem' := by
  have hpaid := (exact_of_sound hs hn h _ _ he).2.2
  rw [expand_eq hs hn] at he
  split_ifs at he with hover hle
  · cases he
    exact hs
  have hgrow : mem.words < wordsOf n := Nat.lt_of_not_le hle
  have hlen := hs.length
  cases he
  refine ⟨?_, (words_grown hs hgrow _).trans_lt (wordsOf_lt_of_sound h hover), hpaid⟩
  rw [words_grown hs hgrow, length_append, length_replicate]
  omega

/-- Every memory that expansions to sound sizes reach has paid for what it holds. -/
theorem Expanded.settled (h : Expanded mem) : Settled mem := by
  induction h with
  | new => exact ⟨rfl, by decide, rfl⟩
  | expand _ hn hsound he ih => exact ih.expand hn hsound he
  | @write mem store _ hlen ih =>
    have hwords : Memory.words { mem with store } = mem.words := congrArg (· / 32) hlen
    exact ⟨hwords ▸ hlen.trans ih.length, hwords ▸ ih.words, hwords ▸ ih.paid⟩

theorem sound_of_exact (hs : Settled mem) (hn : n < 2 ^ 64) (h : Exact mem n) : Sound n := by
  by_contra hgap
  simp only [Sound, not_or] at hgap
  have hw : 2 ^ 32 ≤ wordsOf n ∧ wordsOf n < 2 ^ 35 := by
    unfold wordsOf
    omega
  have hgrow : mem.words < wordsOf n := lt_of_lt_of_le hs.words hw.1
  have he := expand_eq hs hn
  rw [if_neg hgap.2, if_neg hgrow.not_ge] at he
  have hfee := (h _ _ he).1
  have hshort := total_lt_cost hw.1 hw.2
  have hpaid := hs.paid
  have hbound := cost_lt hs.words
  rw [max_eq_right hgrow.le] at hfee
  omega

/-- **Memory gas is exact for the sizes outside the gap and for no other**, at every memory that
such expansions reach; the fees there grow with the size. -/
theorem exact_iff_sound (h : Expanded mem) : (∀ n < 2 ^ 64, Exact mem n ↔ Sound n) ∧
      ∀ m n fee fee' mem' mem'', m ≤ n → n < 2 ^ 64 → Sound m → Sound n →
        expand mem m = .ok (fee, mem') → expand mem n = .ok (fee', mem'') → fee ≤ fee' := by
  refine ⟨fun n hn => ⟨sound_of_exact h.settled hn, exact_of_sound h.settled hn⟩, ?_⟩
  intro m n fee fee' mem' mem'' hle hlt hm hn hem hen
  have hfee := (exact_of_sound h.settled (by omega) hm _ _ hem).1
  have hfee' := (exact_of_sound h.settled hlt hn _ _ hen).1
  have hwords : wordsOf m ≤ wordsOf n := by
    unfold wordsOf
    omega
  have hmono := cost_mono (max_le_max_left mem.words hwords)
  omega

/-- Two words are paid for, and the next expansion is exact if it stays below the gap. -/
theorem exact_after_two_words : expand ⟨[], 0⟩ 33 = .ok (6, ⟨replicate 64 0, 6⟩) ∧
      Exact ⟨replicate 64 0, 6⟩ 100 ∧ ¬ Exact ⟨replicate 64 0, 6⟩ 0x2000000000 := by
  have hexact := (exact_iff_sound
    (@Expanded.expand _ _ 33 6 .new (by decide) (.inl (by decide)) rfl)).1
  exact ⟨rfl, (hexact 100 (by decide)).2 (.inl (by decide)),
    fun h => absurd ((hexact _ (by decide)).1 h) (by unfold Sound; decide)⟩

/-- `2^37` bytes are charged without the quadratic part, `2^55`. -/
theorem wide_memory_undercharged :
    memoryGasCost ⟨[], 0⟩ (2 ^ 37) = .ok (3 * 2 ^ 32, ⟨[], 3 * 2 ^ 32⟩) ∧
      cost (wordsOf (2 ^ 37)) = 3 * 2 ^ 32 + 2 ^ 55 := by
  refine ⟨?_, by decide⟩
  rfl

end EvmMemory
