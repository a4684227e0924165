/-
**The index of the log blooms.**

A header has a bloom of 2048 bits.  The indexer of `node/bloombits.go` takes the blooms of the
blocks of a section one after the other, and the generator of `blockchain/bloombits` turns them
around: for each of the 2048 bits it keeps a string with one bit for each block.

`Bitset` compares the number of a bit with the number of blocks, not with that of the bits in a
bloom.  A section of fewer blocks than a bloom has bits can therefore not be written.

Main results:

* `Bloombits.Filled.process` — **adding the next bloom fills the next place**.
-/

import GoHpb.BitCompress
import GoHpb.BitString
import GoHpb.RlpStream
import GoHpb.BlockHeader

namespace Bloombits

open BitString List

def bloomByteLength : ℕ := 256

def bloomBitLength : ℕ := 8 * bloomByteLength

inductive IndexErr where
  | sectionCountNotMultipleOf8
  | errSectionOutOfBounds
  | unexpectedIndex
  | notFullyGenerated
  deriving DecidableEq

/-- The strings of the bits of a bloom, for a number of blocks. -/
structure Generator where
  blooms : Fin bloomBitLength → Bytes
  sections : ℕ
  nextBit : ℕ

def newGenerator (sections : ℕ) : Except IndexErr Generator :=
  if sections % 8 ≠ 0 then .error .sectionCountNotMultipleOf8
  else .ok ⟨fun _ => replicate (sections / 8) 0, sections, 0⟩

/-- The test of a bit of a bloom, whose last byte has the lowest bits. -/
def bloomBit (bloom : Bloom) (i : ℕ) : Bool :=
  (bloom.bytes.getD (bloomByteLength - 1 - i / 8) 0).toNat.testBit (i % 8)

namespace Generator

variable (b : Generator)

def addBloom (index : ℕ) (bloom : Bloom) : Except IndexErr Generator :=
  if b.sections ≤ b.nextBit then .error .errSectionOutOfBounds
  else if b.nextBit ≠ index then .error .unexpectedIndex
  else .ok { b with
    blooms := fun i => if bloomBit bloom i then setBit (b.blooms i) b.nextBit else b.blooms i
    nextBit := b.nextBit + 1 }

def bitset (idx : Fin bloomBitLength) : Except IndexErr Bytes :=
  if b.nextBit ≠ b.sections then .error .notFullyGenerated
  else if b.sections ≤ idx then .error .errSectionOutOfBounds
  else .ok (b.blooms idx)

/-- `Process` of the indexer for a block of the section that starts at `first`: an error of the
generator is dropped. -/
def process (first number : ℕ) (bloom : Bloom) : Generator :=
  match b.addBloom (number - first) bloom with
  | .ok b => b
  | .error _ => b

/-- `Commit` of the indexer: the strings that are written for the bits. -/
def commit : Except IndexErr (List Bytes) :=
  (finRange bloomBitLength).mapM fun i => (b.bitset i).map Bitutil.compressBytes

end Generator

/-- The blooms of the section `s` go into a new generator. -/
def processSection (size s : ℕ) (blooms : ℕ → Bloom) : Except IndexErr Generator :=
  (newGenerator size).map fun gen =>
    (range size).foldl (fun gen j => gen.process (s * size) (s * size + j) (blooms j)) gen

theorem bloomBit_eq (bloom : Bloom) (i : Fin bloomBitLength) :
    bloomBit bloom i = (Rlp.beNat bloom.bytes).testBit i := by
  have hbyte : i / 8 < bloomByteLength := Nat.div_lt_of_lt_mul i.2
  have hlen : bloom.bytes.length = bloomByteLength := bloom.length_bytes
  have hdigits : ∀ d ∈ bloom.bytes.reverse.map UInt8.toNat, d < 2 ^ 8 := by
    intro d hd
    obtain ⟨c, -, rfl⟩ := mem_map.1 hd
    exact UInt8.toNat_lt c
  rw [Rlp.beNat, testBit_ofDigits hdigits, bloomBit, getD_eq_getElem?_getD, getD_eq_getElem?_getD,
    getElem?_map, getElem?_reverse (by omega), hlen]
  cases bloom.bytes[bloomByteLength - 1 - i / 8]? <;> rfl

/-- The generator has taken the first blooms of a section. -/
structure Filled (blooms : ℕ → Bloom) (size k : ℕ) (gen : Generator) : Prop where
  sections : gen.sections = size
  nextBit : gen.nextBit = k
  length : ∀ i, (gen.blooms i).length = size / 8
  bits : ∀ i j, bitAt (gen.blooms i) j = (decide (j < k) && bloomBit (blooms j) i)

variable {blooms : ℕ → Bloom} {size k : ℕ} {gen : Generator}

/-- **Adding the next bloom fills the next place.** -/
theorem Filled.process (h : Filled blooms size k gen) (hmul : size % 8 = 0) (hk : k < size)
    (first : ℕ) : Filled blooms size (k + 1) (gen.process first (first + k) (blooms k)) := by
  have hroom : ¬ gen.sections ≤ gen.nextBit := by
    rw [h.sections, h.nextBit]
    omega
  rw [Generator.process, Generator.addBloom, if_neg hroom, Nat.add_sub_cancel_left,
    if_neg (not_not.2 h.nextBit)]
  refine ⟨h.sections, by rw [h.nextBit], fun i => ?_, fun i j => ?_⟩
  · dsimp only
    split_ifs <;> simp [h.length]
  have hj : decide (j < k + 1) = (decide (j = k) || decide (j < k)) := by
    rw [← Bool.decide_or]
    exact decide_eq_decide.2 (by omega)
  have hset : bitAt (setBit (gen.blooms i) gen.nextBit) j =
      (decide (j = k) || bitAt (gen.blooms i) j) := by
    rw [bitAt_setBit (by rw [h.length, h.nextBit]; omega), h.nextBit]
  dsimp only
  split_ifs with hbit
  · rw [hset, h.bits, hj]
    by_cases hjk : j = k
    · simp [hjk, hbit]
    · simp [hjk]
  · rw [h.bits, hj]
    by_cases hjk : j = k
    · simp [hjk, hbit]
    · simp [hjk]

theorem exists_processSection (hmul : size % 8 = 0) (s : ℕ) (blooms : ℕ → Bloom) :
    ∃ gen, processSection size s blooms = .ok gen ∧ Filled blooms size size gen := by
  rw [processSection, newGenerator, if_neg (not_not.2 hmul)]
  refine ⟨_, rfl, ?_⟩
  have hfill : ∀ n ≤ size, Filled blooms size n ((range n).foldl
      (fun gen j => gen.process (s * size) (s * size + j) (blooms j))
      ⟨fun _ => replicate (size / 8) 0, size, 0⟩) := by
    intro n hn
    induction n with
    | zero => exact ⟨rfl, rfl, by simp, by simp⟩
    | succ n ih =>
      rw [range_succ, foldl_append]
      exact (ih (by omega)).process hmul (by omega) _
  exact hfill size le_rfl

/-- What a generator that has taken a whole section should do: every bit has its string, with that
bit of each bloom, and all strings are written. -/
def Turned (blooms : ℕ → Bloom) (size : ℕ) (gen : Generator) : Prop :=
  (∀ i, gen.bitset i = .ok (gen.blooms i) ∧
    ∀ j < size, bitAt (gen.blooms i) j = (Rlp.beNat (blooms j).bytes).testBit i) ∧
  gen.commit = .ok ((finRange bloomBitLength).map fun i => Bitutil.compressBytes (gen.blooms i))

/-- A section of eight blocks has no string for the ninth bit of the blooms. -/
theorem bitset_of_short_section :
    ∃ gen, processSection 8 0 (fun _ => FixedBytes.zero 256) = .ok gen ∧
      gen.bitset ⟨8, by decide⟩ = .error .errSectionOutOfBounds :=
  ⟨_, rfl, rfl⟩

/-- **A section is turned around and written exactly if it has as many blocks as a bloom has
bits.** -/
theorem section_written_iff (size s : ℕ) (hmul : size % 8 = 0) (blooms : ℕ → Bloom) :
    (∃ gen, processSection size s blooms = .ok gen ∧ Turned blooms size gen) ↔
      bloomBitLength ≤ size := by
  constructor
  · rintro ⟨gen, hgen, hturned⟩
    obtain ⟨gen', hgen', hfilled⟩ := exists_processSection hmul s blooms
    obtain rfl : gen' = gen := Except.ok.inj (hgen'.symm.trans hgen)
    by_contra hlt
    have hlast := (hturned.1 ⟨size, Nat.lt_of_not_le hlt⟩).1
    rw [Generator.bitset, if_neg (not_not.2 (hfilled.nextBit.trans hfilled.sections.symm)),
      if_pos hfilled.sections.le] at hlast
    cases hlast
  · intro hle
    obtain ⟨gen, hgen, hfilled⟩ := exists_processSection hmul s blooms
    have hbitset : gen.bitset = fun i => pure (gen.blooms i) := by
      funext i
      rw [Generator.bitset, if_neg (not_not.2 (hfilled.nextBit.trans hfilled.sections.symm)),
        hfilled.sections, if_neg (not_le.2 (i.2.trans_le hle))]
      rfl
    refine ⟨gen, hgen, fun i => ⟨congrFun hbitset i, fun j hj => ?_⟩, ?_⟩
    · rw [hfilled.bits, decide_eq_true hj, Bool.true_and, bloomBit_eq]
    · rw [Generator.commit, hbitset]
      exact mapM_pure

/-- The size of a section in use. -/
theorem section_written_4096 : ∃ gen,
    processSection 4096 0 (fun _ => FixedBytes.zero 256) = .ok gen ∧
      Turned (fun _ => FixedBytes.zero 256) 4096 gen :=
  (section_written_iff 4096 0 (by decide) _).2 (by decide)

end Bloombits
