/-
**Transactions in the work environment of a miner.**

A model of `commitTransaction` in `worker/worker.go`.  The transaction is applied above a snapshot;
if it fails, the state goes back to the snapshot, and the header, the transactions and the receipts
have not been touched.  The gas pool is an object of its own that no snapshot covers: a transaction
that fails after it has bought its gas has taken that gas from the block for good.

A call that ends in a run-time panic, or not at all within the fuel, returns nothing.

Main results:

* `Work.Reached.restorable` — **the states of the miner are restorable**;
* `commitTransaction_error_iff` — **when a failed transaction costs the block nothing**.
-/

import GoHpb.StateMoves
import GoHpb.StateProcessor

open FailState StateTransition StateDB UndoJournal

/-- The work environment: the signer, the state, the number of transactions, the gas used as it
stands in the header, the transactions and their receipts. -/
structure Work where
  signer : BoeSigner
  state : StateDB
  tcount : ℕ
  gasUsed : ℤ
  txs : List Transaction
  receipts : List Receipt

/-- What `commitTransaction` returns, and what it leaves of the environment and the gas pool. -/
structure Commit where
  result : Except TxErr (List Log)
  env : Work
  gasPool : ℕ

/-- The errors that are returned. -/
def TxErr.returned : TxErr → Bool
  | message Abort.panic => false
  | message Abort.outOfFuel => false
  | _ => true

section Mining

variable [Crypto]

def Work.commitTransaction (vm : Machine) (fuel : ℕ) (env : Work) (tx : Transaction)
    (coinbase : Address) (gasPool : ℕ) : Option Commit :=
  let snap := env.state.snapshot
  match applyWithReceipt vm fuel coinbase env.signer tx env.gasUsed ⟨snap.2, gasPool⟩ with
  | (.error e, w) =>
    if e.returned then
      (w.state.revertToSnapshot snap.1).map fun st =>
        ⟨.error e, { env with state := st }, w.gasPool⟩
    else none
  | (.ok (receipt, gasUsed), w) =>
    some ⟨.ok receipt.logs,
      { env with
        state := w.state
        gasUsed := gasUsed
        txs := env.txs ++ [tx]
        receipts := env.receipts ++ [receipt] }, w.gasPool⟩

/-- The environments of the miner: `makeCurrent` opens the state of the parent block, and the
transactions are prepared and committed one after another. -/
inductive Work.Reached : Work → Prop
  | makeCurrent {trie : Finmap fun _ : Address => Account} (signer : BoeSigner)
      (codes : Finmap fun _ : Hash => Bytes) :
      ProperTrie trie → Reached ⟨signer, StateDB.new trie codes, 0, 0, [], []⟩
  | prepare {env : Work} (thash : Hash) (tcount : ℕ) : Reached env →
      Reached { env with
        state := env.state.prepare thash (FixedBytes.zero 32) tcount, tcount := tcount }
  | commit {env : Work} {c : Commit} (vm : Machine) (fuel : ℕ) (tx : Transaction)
      (coinbase : Address) (gasPool : ℕ) : Reached env →
      env.commitTransaction vm fuel tx coinbase gasPool = some c → Reached c.env

/-! ### The states of the miner -/

namespace StateDB

variable {st st' : StateDB} {a : Address} {vm : Machine} {fuel : ℕ} {msg : Message} {w w' : World}

/-- States that a failed transaction leaves as they were. -/
structure Restorable (st : StateDB) : Prop where
  wf : st.Wf
  noGhost : st.NoGhost
  lawful : st.Lawful

/-- The state has been reached since a snapshot of `st₀`, which is still valid. -/
def Above (st₀ st : StateDB) : Prop := RevisionsOk st₀ ∧ Since st₀ st

/-- **Contracts keep what is needed to go back to a snapshot.** -/
theorem guard_since : Evm.Guard Above Above (fun _ => True) fun _ => True where
  fails := id
  free _ _ := trivial
  run _ hop hrun h := ⟨h.1, h.2.extend (Tracks.run h.2.noGhost hop.direct hrun)⟩
  may_free := id
  may_code _ _ := trivial
  vacant _ _ := trivial
  nextNonce {_ st a} _ h := by
    have hdirect : (StateOp.setNonce a ((st.getNonce a).1 + 1)).Direct := trivial
    exact ⟨h.1, h.2.extend (Tracks.run h.2.noGhost hdirect rfl)⟩
  enter h := ⟨h.1, h.2.snapshotAgain⟩
  back {i _} h := ⟨i, ⟨h.1, h.2.snapshotAgain⟩, fun h' hback =>
    ⟨h.1, h'.2.revertBetween h.1 h.2.nextId hback⟩⟩

theorem noGhost_payFees (msg : Message) (beneficiary : Address) (gas : UInt64) :
    Spec (fun w => w.state.NoGhost) (payFees msg beneficiary gas) (fun _ w => w.state.NoGhost)
      fun _ _ => False := by
  have hstable : Evm.Stable (fun _ : Unit => NoGhost) (fun _ _ => True) fun _ => True := by
    refine ⟨fun _ => trivial, fun _ _ => trivial, fun op hop hrun h => ?_⟩
    have hpermitted : op.Permitted (fun _ => True) fun _ => True := hop.permitted
    exact (Tracks.run h hpermitted.direct hrun).noGhost
  intro w hw
  obtain ⟨w', hw', -⟩ : Yields (payFees msg beneficiary gas) w _ _ :=
    yields_payFees beneficiary gas (show w.At w.state.view w.gasPool from ⟨rfl, rfl⟩)
  have hkeeps : Evm.MaintainsWorld (fun _ : Unit => NoGhost) (fun _ _ => True)
      (payFees msg beneficiary gas) fun _ => True :=
    hstable.keeps_payFees (fun h => h.congr rfl rfl) beneficiary gas
  rw [hw']
  exact ((hkeeps ()).of_ok hw hw').1

/-- **A message above a snapshot**: if it fails, the state can still go back. -/
theorem spec_applyMessage_above (vm : Machine) (fuel : ℕ) (beneficiary : Address) (msg : Message)
    (st : StateDB) : Spec (fun w => Above st w.state) (applyMessage vm fuel beneficiary msg)
      (fun _ w => w.state.NoGhost) fun _ w => Above st w.state :=
  guard_since.spec_applyMessage vm fuel trivial fun gas =>
    (noGhost_payFees msg beneficiary gas).mono (fun _ hw => hw.2.noGhost) (fun _ _ => id)
      fun _ _ => False.elim

theorem closed_wf : Closed Wf where
  run _ _ hrun h := h.run hrun
  refund _ h := h.congr rfl rfl rfl id h.revisions

theorem NoGhost.finaliseObject (h : st.NoGhost) (hwf : st.Wf)
    (hfin : st.finaliseObject true a = some st') : st'.NoGhost := by
  obtain ⟨obj, hobj, rfl⟩ := Option.map_eq_some_iff.1 hfin
  split_ifs with hdead
  · exact h.store rfl (fun b hb => Finmap.lookup_erase_ne hb) fun _ => Finmap.lookup_erase a st.trie
  · refine h.store rfl (fun b hb => Finmap.lookup_insert_of_ne _ hb) fun hdeleted => ?_
    exact absurd (hwf.dead hobj hdeleted) hdead

theorem NoGhost.finalise (h : st.NoGhost) (hwf : st.Wf) (hfin : st.finalise true = some st') :
    st'.NoGhost := by
  obtain ⟨t, ht, rfl⟩ := Option.map_eq_some_iff.1 hfin
  have hboth : t.Wf ∧ t.NoGhost := by
    refine foldlM_induction (P := fun t => t.Wf ∧ t.NoGhost) (fun _ ht hstep => ?_) ⟨hwf, h⟩ ht
    exact ⟨ht.1.finaliseObject hstep, ht.2.finaliseObject ht.1 hstep⟩
  exact hboth.2.congr rfl rfl

end StateDB

section Transactions

variable {vm : Machine} {fuel : ℕ} {coinbase : Address} {signer : BoeSigner} {tx : Transaction}
  {usedGas : ℤ} {gasPool : ℕ} {st : StateDB} {w : World}

/-- A transaction that fails above a snapshot: the state can go back, and the gas pool has lost what
was bought. -/
theorem applyWithReceipt_eq_error {e : TxErr} (hst : st.Restorable) (he : e.returned = true)
    (h : applyWithReceipt vm fuel coinbase signer tx usedGas ⟨st.snapshot.2, gasPool⟩ =
      (.error e, w)) : Above st w.state ∧ w.state.Wf ∧ w.state.Lawful ∧
      ((w.gasPool = gasPool ∧ ∀ msg, tx.asMessage signer = .ok msg →
          ¬ msg.Affordable st.view gasPool) ∨
        (w.gasPool + tx.gasLimit = gasPool ∧ ∃ msg, tx.asMessage signer = .ok msg ∧
          msg.Affordable st.view gasPool)) := by
  have habove : Above st st.snapshot.2 := ⟨hst.wf.revisions, Since.snapshot hst.noGhost⟩
  have hlawful : st.snapshot.2.Lawful := hst.lawful.run .snapshot trivial rfl
  unfold applyWithReceipt at h
  cases hmsg : tx.asMessage signer with
  | error e' =>
    rw [hmsg] at h
    cases h
    exact ⟨habove, hst.wf.snapshot, hlawful, .inl ⟨rfl, nofun⟩⟩
  | ok msg =>
    rw [hmsg] at h
    obtain ⟨hgas, hprice, -, -⟩ := asMessage_eq_ok hmsg
    have hnonneg : 0 ≤ msg.gasPrice := hprice ▸ Int.natCast_nonneg _
    cases hrun : applyTransaction vm fuel coinbase msg ⟨st.snapshot.2, gasPool⟩ with
    | ok r w' =>
      simp only [hrun] at h
      cases h
    | error e' w' =>
      simp only [hrun] at h
      cases h
      rcases bind_eq_error.1 hrun with hmessage | ⟨r, w₁, -, hfinal⟩
      · have hwf := closed_wf.message vm fuel coinbase (w := ⟨st.snapshot.2, gasPool⟩) hnonneg
          hst.wf.snapshot
        have hlawful' := Lawful.message vm fuel coinbase ⟨st.snapshot.2, gasPool⟩ hnonneg hlawful
        rw [hmessage] at hwf hlawful'
        refine ⟨(spec_applyMessage_above vm fuel coinbase msg st).of_error habove hmessage, hwf,
          hlawful', ?_⟩
        have hcharged := spec_applyMessage_gas.of_error
          ⟨⟨view_snapshot st, rfl⟩, hlawful.refundOk⟩ hmessage
        rcases hcharged with ⟨hno, hpool⟩ | ⟨hyes, hpool⟩
        · refine .inl ⟨hpool, fun msg' hmsg' => ?_⟩
          cases hmsg'
          exact hno
        · exact .inr ⟨hgas ▸ hpool, msg, rfl, hyes⟩
      · -- the end of a transaction does not return an error
        rcases bind_eq_error.1 hfinal with hpanic | ⟨u, w₂, -, hpure⟩
        · unfold onState zoom attempt at hpanic
          cases hfinalise : w₁.state.finalise true with
          | none =>
            simp only [hfinalise] at hpanic
            cases hpanic
            cases he
          | some st' =>
            simp only [hfinalise] at hpanic
            cases hpanic
        · cases hpure

theorem restorable_applyWithReceipt {r : Receipt × ℤ} (hst : st.Restorable)
    (h : applyWithReceipt vm fuel coinbase signer tx usedGas ⟨st.snapshot.2, gasPool⟩ =
      (.ok r, w)) : w.state.Restorable := by
  have habove : Above st st.snapshot.2 := ⟨hst.wf.revisions, Since.snapshot hst.noGhost⟩
  have hlawful : st.snapshot.2.Lawful := hst.lawful.run .snapshot trivial rfl
  obtain ⟨hafter, -⟩ := applyWithReceipt_eq_ok hlawful h
  obtain ⟨msg, _, w₁, hprice, -, -, -, hmessage, hfinalise, -⟩ := message_of_applyWithReceipt h
  have hwf := closed_wf.message vm fuel coinbase (w := ⟨st.snapshot.2, gasPool⟩) hprice
    hst.wf.snapshot
  rw [hmessage] at hwf
  have hghost := (spec_applyMessage_above vm fuel coinbase msg st).of_ok habove hmessage
  exact ⟨hwf.finalise hfinalise, hghost.finalise hwf hfinalise, hafter⟩

/-- **The states of the miner are restorable.** -/
theorem Work.Reached.restorable {env : Work} (h : env.Reached) : env.state.Restorable := by
  induction h with
  | makeCurrent signer codes htrie =>
    exact ⟨wf_new htrie codes, by simp [NoGhost, StateDB.new], .new _ _⟩
  | prepare thash tcount _ ih =>
    exact ⟨ih.wf.congr rfl rfl rfl id ih.wf.revisions, ih.noGhost.congr rfl rfl,
      ih.lawful.prepare _ _ _⟩
  | @commit env c vm fuel tx coinbase gasPool _ hcommit ih =>
    unfold Work.commitTransaction at hcommit
    rcases hrun : applyWithReceipt vm fuel coinbase env.signer tx env.gasUsed
      ⟨env.state.snapshot.2, gasPool⟩ with ⟨e | ⟨receipt, gasUsed⟩, w⟩
    · simp only [hrun] at hcommit
      split_ifs at hcommit with he
      obtain ⟨st, hback, rfl⟩ := Option.map_eq_some_iff.1 hcommit
      obtain ⟨⟨hrev, hsince⟩, hwf, hlawful, -⟩ := applyWithReceipt_eq_error ih he hrun
      obtain ⟨st', hback', -, hghost⟩ := hsince.revert hrev
      rw [hback] at hback'
      cases hback'
      exact ⟨hwf.revertToSnapshot hback, hghost,
        hlawful.run (.revertToSnapshot env.state.snapshot.1) trivial hback⟩
    · simp only [hrun] at hcommit
      cases hcommit
      exact restorable_applyWithReceipt ih hrun

end Transactions

end Mining

namespace SignedPayment

/-- An environment in which the payer has the given balance and nonce. -/
def work (balance : ℤ) (nonce : UInt64) : Work := ⟨⟨7⟩, state balance nonce, 0, 0, [], []⟩

theorem reached_work (balance : ℤ) (nonce : UInt64) : (work balance nonce).Reached := by
  refine .makeCurrent _ _ fun {a data} h => ?_
  by_cases ha : a = Payments.payer
  · subst ha
    cases h
    exact Storage.Proper.empty
  · simp [Finmap.lookup_insert_of_ne _ ha] at h

end SignedPayment
