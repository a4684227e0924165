/-
**The transactions that come back after a reorganisation.**

When the head of the chain moves, `TxPool.reset` collects the transactions of the blocks that are no
longer on the chain.  Two cursors go down from the old and the new head, first the higher one to the
height of the other, then both until they meet, and what only the old branch had is handed to the
pool again.  The walk is not made if the heads are more than 64 blocks apart.  That distance is
computed with floating-point numbers: above `2 ^ 53` they are not exact, and heads that are close
can seem to be too far apart.

Main results:

* `TxPool.walk_eq` — **the loops stop at the common ancestor**;
* `TxPool.reinject_exact_iff` — **the right transactions come back exactly if the distance does not
  seem too large, or there are none**.
-/

import GoHpb.BlockTree
import GoHpb.TxSigning

namespace TxPool

open BlockTree List

/-! ### The walk -/

/-- What the pool reads of a block. -/
structure ChainBlock where
  hash : Hash
  parentHash : Hash
  number : ℕ
  transactions : List Transaction
  deriving DecidableEq

abbrev GetBlock : Type := Hash → ℕ → Option ChainBlock

/-- Going to the parent. -/
def parent (getBlock : GetBlock) (b : ChainBlock) : Option ChainBlock :=
  getBlock b.parentHash (b.number - 1)

/-- The loops of `reset` that take one cursor down to a height. -/
def descend (getBlock : GetBlock) (height : ℕ) : ℕ → ChainBlock → List Transaction →
    Option (ChainBlock × List Transaction)
  | 0, _, _ => none
  | rounds + 1, b, txs =>
    if height < b.number then
      (parent getBlock b).bind fun p => descend getBlock height rounds p (txs ++ b.transactions)
    else some (b, txs)

/-- The loop that takes both cursors down until they meet. -/
def meet (getBlock : GetBlock) : ℕ → ChainBlock → ChainBlock → List Transaction →
    List Transaction → Option (ChainBlock × List Transaction × List Transaction)
  | 0, _, _, _, _ => none
  | rounds + 1, rem, add, discarded, included =>
    if rem.hash ≠ add.hash then
      (parent getBlock rem).bind fun rem' => (parent getBlock add).bind fun add' =>
        meet getBlock rounds rem' add' (discarded ++ rem.transactions)
          (included ++ add.transactions)
    else some (rem, discarded, included)

/-- The three loops: where they stop, and the transactions of the blocks they have passed. -/
def walk (getBlock : GetBlock) (old new : ChainBlock) :
    Option (ChainBlock × List Transaction × List Transaction) := do
  let (rem, discarded) ← descend getBlock new.number (old.number + 1) old []
  let (add, included) ← descend getBlock rem.number (new.number + 1) new []
  meet getBlock (rem.number + 1) rem add discarded included

/-- A number as a 64-bit float: the leading 53 bits, the rest rounded to the nearest, ties to
even. -/
def float64 (n : ℕ) : ℕ :=
  if n < 2 ^ 53 then n
  else
    let unit := 2 ^ (n.log2 - 52)
    let lead := n / unit
    let rest := n % unit
    if unit < 2 * rest ∨ (2 * rest = unit ∧ lead % 2 = 1) then (lead + 1) * unit else lead * unit

theorem float64_of_lt {n : ℕ} (h : n < 2 ^ 53) : float64 n = n := if_pos h

/-- The distance of two heights, `math.Abs(float64(oldNum) - float64(newNum))`. -/
def depth (oldNum newNum : ℕ) : ℕ := float64 (Nat.dist (float64 oldNum) (float64 newNum))

theorem depth_of_lt {oldNum newNum : ℕ} (hold : oldNum < 2 ^ 53) (hnew : newNum < 2 ^ 53) :
    depth oldNum newNum = Nat.dist oldNum newNum := by
  rw [depth, float64_of_lt hold, float64_of_lt hnew, float64_of_lt]
  rw [Nat.dist]
  omega

/-- The transactions that `reset` hands to `addTxsLocked`; none if it returns because a block is
missing. -/
def reinject [Crypto] (getBlock : GetBlock) (old new : ChainBlock) : Option (List Transaction) :=
  if old.hash = new.parentHash then some []
  else if 64 < depth old.number new.number then some []
  else (walk getBlock old new).map fun r => txDifference r.2.1 r.2.2

/-! ### Trees of blocks -/

/-- The blocks that are found form a tree: every ancestor is found up to the genesis block, and a
hash is that of one block. -/
structure Blocks (getBlock : GetBlock) : Prop where
  hash_eq : ∀ {h n b}, getBlock h n = some b → b.hash = h ∧ b.number = n
  inj : ∀ {h n b k m c}, getBlock h n = some b → getBlock k m = some c → b.hash = c.hash → b = c
  ancestor : ∀ {h n b}, getBlock h n = some b → b.number ≠ 0 →
    ∃ p, getBlock b.parentHash (b.number - 1) = some p
  genesis : ∀ {h k b c}, getBlock h 0 = some b → getBlock k 0 = some c → b = c
  root : ∀ {h k n b c}, getBlock h 0 = some b → getBlock k n = some c → c.hash ≠ b.parentHash

/-- A block that is found. -/
def Found (getBlock : GetBlock) (b : ChainBlock) : Prop := getBlock b.hash b.number = some b

/-- A block and its parent. -/
def Up (getBlock : GetBlock) (b p : ChainBlock) : Prop :=
  b.number ≠ 0 ∧ parent getBlock b = some p

/-- The branches above the last common ancestor of two blocks. -/
structure Fork (getBlock : GetBlock) (old new : ChainBlock) (os ns : List ChainBlock)
    (a : ChainBlock) : Prop where
  old : Segment (Up getBlock) old os a
  new : Segment (Up getBlock) new ns a
  apart : ∀ b ∈ os, b ∉ ns

/-- The transactions of blocks. -/
def txs (bs : List ChainBlock) : List Transaction := bs.flatMap ChainBlock.transactions

theorem txs_cons (b : ChainBlock) (bs : List ChainBlock) :
    txs (b :: bs) = b.transactions ++ txs bs := flatMap_cons

section Tree

variable {getBlock : GetBlock} (hb : Blocks getBlock) {old new b p a : ChainBlock}
  {os ns : List ChainBlock}

include hb

theorem Blocks.up (hfound : Found getBlock b) (hpos : b.number ≠ 0) :
    ∃ p, Up getBlock b p ∧ Found getBlock p ∧ b.number = p.number + 1 := by
  obtain ⟨p, hp⟩ := hb.ancestor hfound hpos
  obtain ⟨hhash, hnumber⟩ := hb.hash_eq hp
  exact ⟨p, ⟨hpos, hp⟩, by rw [Found, hhash, hnumber]; exact hp, by omega⟩

theorem Blocks.height (h : Up getBlock b p) : b.number = p.number + 1 := by
  have := (hb.hash_eq h.2).2
  have := h.1
  omega

theorem Blocks.between (h : Segment (Up getBlock) b os a) {x : ChainBlock} (hx : x ∈ os) :
    a.number < x.number ∧ x.number ≤ b.number :=
  h.height_mem (fun _ _ hup => hb.height hup) hx

theorem Blocks.length (h : Segment (Up getBlock) b os a) : b.number = a.number + os.length :=
  h.height_eq fun _ _ hup => hb.height hup

theorem descend_eq (height rounds : ℕ) (txs₀ : List Transaction) (hfound : Found getBlock b)
    (hrounds : b.number < rounds) :
    ∃ a bs, descend getBlock height rounds b txs₀ = some (a, txs₀ ++ txs bs) ∧
      Segment (Up getBlock) b bs a ∧ Found getBlock a ∧ a.number = min b.number height := by
  induction rounds generalizing b txs₀ with
  | zero => omega
  | succ rounds ih =>
    rw [descend]
    by_cases hlow : height < b.number
    · obtain ⟨p, hup, hp, hnum⟩ := hb.up hfound (by omega)
      obtain ⟨a, bs, hrun, hseg, ha, hnumber⟩ := ih (txs₀ ++ b.transactions) hp (by omega)
      refine ⟨a, b :: bs, ?_, .cons hup hseg, ha, by omega⟩
      rw [if_pos hlow, hup.2, Option.bind_some, hrun, txs_cons, append_assoc]
    · refine ⟨b, [], ?_, .nil b, hfound, by omega⟩
      rw [if_neg hlow, show txs [] = [] from rfl, append_nil]

theorem meet_eq (rounds : ℕ) (d i : List Transaction) (hold : Found getBlock old)
    (hnew : Found getBlock new) (hsame : old.number = new.number) (hrounds : old.number < rounds) :
    ∃ a os ns, meet getBlock rounds old new d i = some (a, d ++ txs os, i ++ txs ns) ∧
      Fork getBlock old new os ns a := by
  induction rounds generalizing old new d i with
  | zero => omega
  | succ rounds ih =>
    rw [meet]
    by_cases hne : old.hash ≠ new.hash
    · have hpos : old.number ≠ 0 := by
        intro hzero
        have hold' : getBlock old.hash 0 = some old := hzero ▸ hold
        have hnew' : getBlock new.hash 0 = some new := (hsame ▸ hzero : new.number = 0) ▸ hnew
        exact hne (congrArg ChainBlock.hash (hb.genesis hold' hnew'))
      obtain ⟨p, hup, hp, hnum⟩ := hb.up hold hpos
      obtain ⟨q, huq, hq, hnum'⟩ := hb.up hnew (hsame ▸ hpos)
      obtain ⟨a, os, ns, hrun, hfork⟩ :=
        ih (d ++ old.transactions) (i ++ new.transactions) hp hq (by omega) (by omega)
      refine ⟨a, old :: os, new :: ns, ?_, .cons hup hfork.old, .cons huq hfork.new, ?_⟩
      · rw [if_pos hne, hup.2, Option.bind_some, huq.2, Option.bind_some, hrun, txs_cons, txs_cons,
          append_assoc, append_assoc]
      -- the heads differ, and what comes later on a branch is lower
      intro x hx hx'
      rcases mem_cons.1 hx with rfl | hx <;> rcases mem_cons.1 hx' with rfl | hx'
      · exact hne rfl
      · have := hb.between hfork.new hx'
        omega
      · have := hb.between hfork.old hx
        omega
      · exact hfork.apart x hx hx'
    · have heq : old = new := hb.inj hold hnew (not_not.1 hne)
      refine ⟨old, [], [], ?_, .nil old, heq ▸ .nil old, nofun⟩
      rw [if_neg hne, show txs [] = [] from rfl, append_nil, append_nil]

/-- **The loops stop at the common ancestor**, having collected the transactions above it. -/
theorem walk_eq (hold : Found getBlock old) (hnew : Found getBlock new) :
    ∃ a os ns, walk getBlock old new = some (a, txs os, txs ns) ∧
      Fork getBlock old new os ns a := by
  obtain ⟨rem, os₁, hrun₁, hseg₁, hrem, hnum₁⟩ :=
    descend_eq hb new.number (old.number + 1) [] hold (by omega)
  obtain ⟨add, ns₁, hrun₂, hseg₂, hadd, hnum₂⟩ :=
    descend_eq hb rem.number (new.number + 1) [] hnew (by omega)
  obtain ⟨a, os₂, ns₂, hrun₃, hfork⟩ := meet_eq hb (rem.number + 1) (txs os₁) (txs ns₁) hrem hadd
    (by omega) (by omega)
  refine ⟨a, os₁ ++ os₂, ns₁ ++ ns₂, ?_, hseg₁.trans hfork.old, hseg₂.trans hfork.new, ?_⟩
  · simp only [nil_append] at hrun₁ hrun₂
    rw [walk, hrun₁]
    simp only [Option.bind_eq_bind, Option.bind_some, hrun₂, hrun₃]
    simp only [txs, flatMap_append]
  -- of the two first parts one is empty, and the other is above both second parts
  intro x hx hx'
  rcases mem_append.1 hx with hx | hx <;> rcases mem_append.1 hx' with hx' | hx'
  · have := hb.between hseg₁ hx
    have := hb.between hseg₂ hx'
    omega
  · have := hb.between hseg₁ hx
    have := hb.between hfork.new hx'
    omega
  · have := hb.between hfork.old hx
    have := hb.between hseg₂ hx'
    omega
  · exact hfork.apart x hx hx'

theorem Fork.unique {os' ns' : List ChainBlock} {a' : ChainBlock}
    (h : Fork getBlock old new os ns a) (h' : Fork getBlock old new os' ns' a') :
    os = os' ∧ ns = ns' ∧ a = a' := by
  have hfun : ∀ b p q, Up getBlock b p → Up getBlock b q → p = q :=
    fun b p q hp hq => Option.some.inj (hp.2.symm.trans hq.2)
  -- if one ancestor is below the other, the higher one is on both branches above the lower one
  have hbelow : ∀ {os ns os' ns' : List ChainBlock} {a a' : ChainBlock},
      Fork getBlock old new os ns a → Fork getBlock old new os' ns' a' → a'.number ≤ a.number →
        os = os' ∧ ns = ns' ∧ a = a' := by
    intro os ns os' ns' a a' h h' hle
    rcases h.old.compare hfun h'.old with ⟨ds, hds, rfl⟩ | ⟨es, hes, -⟩
    · rcases h.new.compare hfun h'.new with ⟨ds', hds', rfl⟩ | ⟨es, hes, -⟩
      · cases hds with
        | nil =>
          have := hb.length hds'
          rw [eq_nil_of_length_eq_zero (show ds'.length = 0 by omega)]
          simp
        | cons hup hrest =>
          cases hds' with
          | nil =>
            have := hb.length hrest
            have := hb.height hup
            omega
          | cons _ _ => exact absurd (by simp) (h'.apart a (by simp))
      · have := hb.length hes
        rw [length_cons] at this
        omega
    · have := hb.length hes
      rw [length_cons] at this
      omega
  rcases Nat.le_total a'.number a.number with hle | hle
  · exact hbelow h h' hle
  · obtain ⟨h₁, h₂, h₃⟩ := hbelow h' h hle
    exact ⟨h₁.symm, h₂.symm, h₃.symm⟩

theorem Fork.of_child (hold : Found getBlock old) (hnew : Found getBlock new)
    (hchild : old.hash = new.parentHash) : Fork getBlock old new [] [new] old := by
  have hpos : new.number ≠ 0 := fun hzero =>
    hb.root (show getBlock new.hash 0 = some new from hzero ▸ hnew) hold hchild
  obtain ⟨p, hup, hp, -⟩ := hb.up hnew hpos
  have hhash : p.hash = old.hash := (hb.hash_eq hup.2).1.trans hchild.symm
  exact ⟨.nil old, Segment.single (hb.inj hp hold hhash ▸ hup), nofun⟩

/-! ### What comes back -/

/-- **The right transactions come back exactly if the heads do not seem too far apart, or there are
none**; and the loops stop at the last common ancestor. -/
theorem reinject_exact_iff [Crypto] (hold : Found getBlock old) (hnew : Found getBlock new) :
    ∃ a os ns back, Fork getBlock old new os ns a ∧
      walk getBlock old new = some (a, txs os, txs ns) ∧ reinject getBlock old new = some back ∧
      ((∀ tx, tx ∈ back ↔ tx ∈ txs os ∧ ∀ k ∈ txs ns, k.hash ≠ tx.hash) ↔
        depth old.number new.number ≤ 64 ∨ ∀ tx ∈ txs os, ∃ k ∈ txs ns, k.hash = tx.hash) := by
  obtain ⟨a, os, ns, hwalk, hfork⟩ := walk_eq hb hold hnew
  have hnone : (∀ tx, tx ∈ ([] : List Transaction) ↔ tx ∈ txs os ∧ ∀ k ∈ txs ns, k.hash ≠ tx.hash) ↔
        ∀ tx ∈ txs os, ∃ k ∈ txs ns, k.hash = tx.hash := by
    simp only [not_mem_nil, false_iff, not_and, not_forall, not_not, exists_prop]
  by_cases hchild : old.hash = new.parentHash
  · refine ⟨a, os, ns, [], hfork, hwalk, if_pos hchild, ?_⟩
    rw [hnone, (hfork.unique hb (Fork.of_child hb hold hnew hchild)).1]
    exact iff_of_true nofun (.inr nofun)
  by_cases hdeep : 64 < depth old.number new.number
  · refine ⟨a, os, ns, [], hfork, hwalk, by rw [reinject, if_neg hchild, if_pos hdeep], ?_⟩
    rw [hnone]
    exact (or_iff_right (not_le.2 hdeep)).symm
  · refine ⟨a, os, ns, txDifference (txs os) (txs ns), hfork, hwalk, ?_, ?_⟩
    · rw [reinject, if_neg hchild, if_neg hdeep, hwalk]
      rfl
    · exact iff_of_true (fun tx => mem_txDifference) (.inl (not_lt.1 hdeep))

end Tree

/-! ### One chain -/

/-- A hash with a number in it. -/
def nameOf (n : ℕ) : Hash := FixedBytes.setBytes 32 (bigBytes n)

/-- A block of the chain; every block has one transaction, whose nonce is the height. -/
def lineBlock (n : ℕ) : ChainBlock :=
  ⟨nameOf (n + 1), nameOf n, n, [⟨UInt64.ofNat n, 1, 21000, none, 0, [], 0, 0, 0⟩]⟩

/-- A chain up to the height `2 ^ 60`. -/
def line : GetBlock := fun h n =>
  if n < 2 ^ 60 ∧ h = nameOf (n + 1) then some (lineBlock n) else none

theorem nameOf_inj {n m : ℕ} (hn : n ≤ 2 ^ 60) (hm : m ≤ 2 ^ 60) (h : nameOf n = nameOf m) :
    n = m := by
  have hlt : 2 ^ 60 < 256 ^ 32 := by norm_num
  rw [← beNat_setBytes (hn.trans_lt hlt), ← beNat_setBytes (hm.trans_lt hlt)]
  exact congrArg (fun a : Hash => Rlp.beNat a.bytes) h

theorem line_eq_some {h : Hash} {n : ℕ} {b : ChainBlock} :
    line h n = some b ↔ n < 2 ^ 60 ∧ h = nameOf (n + 1) ∧ b = lineBlock n := by
  rw [line, Option.ite_none_right_eq_some, Option.some.injEq, and_assoc, @eq_comm _ (lineBlock n)]

theorem found_line {n : ℕ} (h : n < 2 ^ 60) : Found line (lineBlock n) :=
  line_eq_some.2 ⟨h, rfl, rfl⟩

theorem blocks_line : Blocks line where
  hash_eq h := by
    obtain ⟨-, rfl, rfl⟩ := line_eq_some.1 h
    exact ⟨rfl, rfl⟩
  inj h h' heq := by
    obtain ⟨hn, rfl, rfl⟩ := line_eq_some.1 h
    obtain ⟨hm, rfl, rfl⟩ := line_eq_some.1 h'
    have := nameOf_inj (by omega) (by omega) heq
    rw [Nat.succ.inj this]
  ancestor {h n b} hb hpos := by
    obtain ⟨hn, rfl, rfl⟩ := line_eq_some.1 hb
    have hpos : n ≠ 0 := hpos
    exact ⟨lineBlock (n - 1), line_eq_some.2 ⟨by show n - 1 < _; omega, by
      show nameOf n = nameOf (n - 1 + 1)
      rw [Nat.sub_add_cancel (by omega)], rfl⟩⟩
  genesis h h' := by
    obtain ⟨-, rfl, rfl⟩ := line_eq_some.1 h
    obtain ⟨-, rfl, rfl⟩ := line_eq_some.1 h'
    rfl
  root h h' heq := by
    obtain ⟨-, rfl, rfl⟩ := line_eq_some.1 h
    obtain ⟨hn, rfl, rfl⟩ := line_eq_some.1 h'
    have := nameOf_inj (by omega) (by omega) heq
    omega

theorem fork_line (n k : ℕ) (h : n + k < 2 ^ 60) :
    ∃ os, Fork line (lineBlock (n + k)) (lineBlock n) os [] (lineBlock n) ∧
      (k ≠ 0 → lineBlock (n + k) ∈ os) := by
  induction k with
  | zero => exact ⟨[], ⟨.nil _, .nil _, nofun⟩, fun h => absurd rfl h⟩
  | succ k ih =>
    obtain ⟨os, hfork, -⟩ := ih (by omega)
    have hup : Up line (lineBlock (n + (k + 1))) (lineBlock (n + k)) :=
      ⟨Nat.succ_ne_zero _, line_eq_some.2 ⟨by show n + (k + 1) - 1 < _; omega, rfl, rfl⟩⟩
    exact ⟨_, ⟨.cons hup hfork.old, hfork.new, fun _ _ => not_mem_nil⟩, fun _ => mem_cons_self⟩

open Sample in
/-- The heads of a small reorganisation, from the height 3 back to 1. -/
theorem reinject_exact_line : ∃ a os ns back, Fork line (lineBlock 3) (lineBlock 1) os ns a ∧
      walk line (lineBlock 3) (lineBlock 1) = some (a, txs os, txs ns) ∧
      reinject line (lineBlock 3) (lineBlock 1) = some back ∧
      ∀ tx, tx ∈ back ↔ tx ∈ txs os ∧ ∀ k ∈ txs ns, k.hash ≠ tx.hash := by
  obtain ⟨a, os, ns, back, hfork, hwalk, hback, hiff⟩ := reinject_exact_iff blocks_line
    (found_line (show 3 < 2 ^ 60 by norm_num)) (found_line (show 1 < 2 ^ 60 by norm_num))
  refine ⟨a, os, ns, back, hfork, hwalk, hback, hiff.2 (.inl ?_)⟩
  exact (depth_of_lt (show 3 < 2 ^ 53 by norm_num) (show 1 < 2 ^ 53 by norm_num)).trans_le
    (by decide)

open Sample in
/-- Heads that are 64 blocks apart, and seem to be 65 apart: nothing comes back. -/
theorem reinject_line_skipped :
    Nat.dist (2 ^ 53 + 3) (2 ^ 53 - 61) = 64 ∧ depth (2 ^ 53 + 3) (2 ^ 53 - 61) = 65 ∧
      reinject line (lineBlock (2 ^ 53 + 3)) (lineBlock (2 ^ 53 - 61)) = some [] ∧
      ∃ os, Fork line (lineBlock (2 ^ 53 + 3)) (lineBlock (2 ^ 53 - 61)) os []
        (lineBlock (2 ^ 53 - 61)) ∧ txs os ≠ [] := by
  have hdepth : depth (2 ^ 53 + 3) (2 ^ 53 - 61) = 65 := by decide
  have hname : (lineBlock (2 ^ 53 + 3)).hash ≠ (lineBlock (2 ^ 53 - 61)).parentHash := fun h => by
    have := nameOf_inj (by norm_num) (by norm_num) h
    omega
  obtain ⟨os, hfork, hmem⟩ := fork_line (2 ^ 53 - 61) 64 (by norm_num)
  refine ⟨by decide, hdepth, ?_, os, hfork, ?_⟩
  · rw [reinject, if_neg hname]
    exact if_pos (hdepth.symm ▸ (by norm_num : 64 < 65))
  · exact ne_nil_of_mem (mem_flatMap.2 ⟨_, hmem (by norm_num), mem_cons_self⟩)

end TxPool
