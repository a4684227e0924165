/-
**What the operations of the state keep, every program keeps.**

Messages and contracts reach the world state only through its operations, so an assertion that every
operation keeps is kept by the processing of a message.  Gas is counted in unsigned numbers, so the
refund counter is only ever increased; the one place that changes it in another way is the end of a
message, where it may be multiplied by the gas price.

Main results:

* `Closed.guard` — **contracts and messages keep a closed assertion**.
-/

import GoHpb.EvmRules
import GoHpb.StateRevert

open FailState UndoJournal List

/-- The refund counter is not decreased. -/
def StateOp.Unsigned : StateOp → Prop
  | addRefund gas => 0 ≤ gas
  | _ => True

section Closure

variable [Crypto]

/-- An assertion that every operation of the state keeps. -/
structure Closed (I : StateDB → Prop) : Prop where
  run : ∀ {st st' : StateDB} (op : StateOp), op.Unsigned → op.run st = some st' → I st → I st'
  refund : ∀ {st : StateDB} {price : ℤ}, 0 ≤ price → I st →
    I { st with refund := st.refund * price }

omit [Crypto] in
theorem StateOp.Permitted.unsigned {May Free : Address → Prop} {op : StateOp}
    (h : op.Permitted May Free) : op.Unsigned := by
  cases op <;> first | exact h | trivial

/-- **What the operations keep, contracts and messages keep**, at any address. -/
theorem Closed.guard {I : StateDB → Prop} (hI : Closed I) :
    Evm.Guard (fun _ : Unit => I) (fun _ => I) (fun _ => True) fun _ => True where
  fails := id
  free _ _ := trivial
  run op hop hrun := hI.run op hop.unsigned hrun
  may_free := id
  may_code _ _ := trivial
  vacant _ _ := trivial
  nextNonce {_ _ a} _ := hI.run (.setNonce a _) trivial rfl
  enter := hI.run .snapshot trivial rfl
  back h :=
    ⟨(), hI.run .snapshot trivial rfl h, fun h' hback =>
      hI.run (.revertToSnapshot _) trivial hback h'⟩

theorem Closed.message {I : StateDB → Prop} (hI : Closed I) (vm : Machine) (fuel : ℕ)
    (beneficiary : Address) {msg : Message} {w : World} (hprice : 0 ≤ msg.gasPrice)
    (h : I w.state) : I (worldAfter (applyMessage vm fuel beneficiary msg w)).state := by
  have hspec := hI.guard.spec_applyMessage vm fuel (i := ()) trivial (fun gas =>
    hI.guard.stable.keeps_payFees (hI.refund hprice) beneficiary gas ()) w h
  cases hrun : applyMessage vm fuel beneficiary msg w with
  | ok r w' =>
    rw [hrun] at hspec
    exact hspec.1
  | error e w' =>
    rw [hrun] at hspec
    exact hspec

/-! ### The refund counter -/

namespace StateDB

variable {st st' st'' : StateDB} {a : Address}

/-- Neither the refund counter nor a value it may be set back to is negative. -/
structure RefundOk (st : StateDB) : Prop where
  refund : 0 ≤ st.refund
  journal : ∀ prev, JournalEntry.refundChange prev ∈ st.journal → 0 ≤ prev

namespace RefundOk

omit [Crypto] in
theorem of_entry (h : RefundOk st) {e : JournalEntry} (he : e.account ≠ none)
    (hrefund : st'.refund = st.refund) (hjournal : st'.journal = st.journal ++ [e]) :
    RefundOk st' := by
  refine ⟨hrefund ▸ h.refund, fun prev hprev => ?_⟩
  rw [hjournal] at hprev
  rcases mem_append.1 hprev with hprev | hprev
  · exact h.journal prev hprev
  · rw [← mem_singleton.1 hprev] at he
    exact absurd rfl he

omit [Crypto] in
theorem congr (h : RefundOk st) (hrefund : st'.refund = st.refund)
    (hjournal : ∀ e ∈ st'.journal, e ∈ st.journal) : RefundOk st' :=
  ⟨hrefund ▸ h.refund, fun prev hprev => h.journal prev (hjournal _ hprev)⟩

theorem step (h : RefundOk st) {op : StateOp} (hop : op.Unsigned) (hstep : Step op st st') :
    RefundOk st' := by
  have hload : ∀ a, (st.load a).refund = st.refund := fun a => by rw [load_eq]
  cases hstep with
  | load a => exact h.congr (hload a) (by simp)
  | readCode hlive | cacheState key hlive => exact h.congr (hload _) (by simp [setStateObject])
  | create a balance =>
    refine h.of_entry (e := st.creation a) ?_ (hload a) (by simp [record, update])
    rw [account_creation]
    exact Option.some_ne_none a
  | @edit a obj obj' e hlive hedit =>
    refine h.of_entry (e := e) ?_ (hload a) (by simp [record, update])
    rw [hedit.flags.1]
    exact Option.some_ne_none a
  | addRefund hgas =>
    subst hgas
    refine ⟨add_nonneg h.refund hop, fun prev hprev => ?_⟩
    rcases mem_append.1 hprev with hprev | hprev
    · exact h.journal prev hprev
    · cases mem_singleton.1 hprev
      exact h.refund
  | addLog log =>
    refine ⟨h.refund, fun prev hprev => ?_⟩
    rcases mem_append.1 hprev with hprev | hprev
    · exact h.journal prev hprev
    · cases mem_singleton.1 hprev
  | addPreimage preimage hnew =>
    rw [StateDB.addPreimage, if_neg hnew]
    refine ⟨h.refund, fun prev hprev => ?_⟩
    rcases mem_append.1 hprev with hprev | hprev
    · exact h.journal prev hprev
    · cases mem_singleton.1 hprev

omit [Crypto] in
theorem undo {e : JournalEntry} (h : RefundOk st) (he : e ∈ st.journal)
    (hundo : e.undo st = some st') : RefundOk st' := by
  refine ⟨?_, fun prev hprev => h.journal prev (journal_undo hundo ▸ hprev)⟩
  have hload : ∀ a, 0 ≤ (st.load a).refund := fun a => by
    rw [load_eq]
    exact h.refund
  cases Undone.of_undo hundo with
  | refund prev => exact h.journal prev he
  | load ha | restore ha hlive hback | touched hlive | unmarked hlive _ _ => exact hload _
  | _ => exact h.refund

theorem closed : Closed RefundOk where
  refund hprice h := ⟨mul_nonneg h.refund hprice, h.journal⟩
  run _ hop hrun h :=
    StateOp.invariant (fun ht hstep => ht.step hop hstep) (fun ht => ht.congr rfl fun _ => id)
      (fun ht he hundo => ht.undo he hundo)
      (fun _ _ ht => ht.congr rfl fun _ he => mem_of_mem_take he) hrun h

end RefundOk

/-! ### The states the program reaches -/

/-- The states the program reaches: a state is opened at a trie, changed by operations and by
messages, prepared for a transaction, finalised, committed, copied, reset, and its suicided accounts
are flagged. -/
inductive Lawful : StateDB → Prop
  | new (trie : Finmap fun _ : Address => Account) (codes : Finmap fun _ : Hash => Bytes) :
      Lawful (StateDB.new trie codes)
  | run {st st' : StateDB} (op : StateOp) : op.Unsigned → Lawful st → op.run st = some st' →
      Lawful st'
  | message (vm : Machine) (fuel : ℕ) (beneficiary : Address) {msg : Message} (w : World) :
      0 ≤ msg.gasPrice → Lawful w.state →
      Lawful (worldAfter (applyMessage vm fuel beneficiary msg w)).state
  | prepare {st : StateDB} (thash bhash : Hash) (txIndex : ℕ) : Lawful st →
      Lawful (st.prepare thash bhash txIndex)
  | finalise {st st' : StateDB} (deleteEmptyObjects : Bool) : Lawful st →
      st.finalise deleteEmptyObjects = some st' → Lawful st'
  | commitTo {st : StateDB} (deleteEmptyObjects : Bool) : Lawful st →
      Lawful (st.commitTo deleteEmptyObjects)
  | deleteSuicides {st st' : StateDB} : Lawful st → st.deleteSuicides = some st' → Lawful st'
  | copy {st st' : StateDB} : Lawful st → st.copy = some st' → Lawful st'
  | reset {st : StateDB} (trie : Finmap fun _ : Address => Account) : Lawful st →
      Lawful (st.reset trie)

theorem Lawful.refundOk (h : Lawful st) : RefundOk st := by
  have hclear : ∀ {t : StateDB}, t.refund = 0 → t.journal = [] → RefundOk t := by
    intro t hrefund hjournal
    exact ⟨hrefund.ge, by simp [hjournal]⟩
  induction h with
  | new trie codes => exact hclear rfl rfl
  | run op hop _ hrun ih => exact RefundOk.closed.run op hop hrun ih
  | @message vm fuel beneficiary msg w hprice _ ih =>
    exact RefundOk.closed.message vm fuel beneficiary hprice ih
  | prepare thash bhash txIndex _ ih => exact ⟨ih.refund, ih.journal⟩
  | finalise deleteEmptyObjects _ hfinal _ =>
    obtain ⟨t, -, rfl⟩ := Option.map_eq_some_iff.1 hfinal
    exact hclear rfl rfl
  | commitTo deleteEmptyObjects _ _ => exact hclear rfl rfl
  | deleteSuicides _ hdelete _ =>
    refine foldlM_induction (fun {t a t'} _ ht hstep => ?_) (hclear rfl rfl) hdelete
    obtain ⟨obj, -, rfl⟩ := Option.map_eq_some_iff.1 hstep
    split_ifs <;> exact ⟨ht.refund, ht.journal⟩
  | @copy st _ _ hcopy ih =>
    refine foldlM_induction (fun {t a t'} _ ht hstep => ?_) ?_ hcopy
    · obtain ⟨obj, -, rfl⟩ := Option.map_eq_some_iff.1 hstep
      exact ⟨ht.refund, ht.journal⟩
    · exact ⟨ih.refund, fun prev hprev => absurd hprev not_mem_nil⟩
  | reset trie _ _ => exact hclear rfl rfl

/-- **The refund counter is never negative.** -/
theorem Lawful.refund_nonneg (h : Lawful st) : 0 ≤ st.refund := h.refundOk.refund

end StateDB

end Closure
