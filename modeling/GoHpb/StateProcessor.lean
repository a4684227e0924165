/-
**The transactions of a block and their gas.**

A model of `ApplyTransaction` and of the loop of `Process` in `blockchain/state_processor.go`, with
the receipts.  Gas is held in three places: the transition counts it in a 64-bit number, the pool of
the block loses what a transaction buys and gets back what it leaves, and the counter of the block
adds up what the receipts say.  Here the three are compared.  A transaction buys its gas limit; what
its run leaves and the refund, half of the used gas at most, return to the pool, and the rest is the
gas used.

What the engine adds to the state after the last transaction touches neither the gas nor the
receipts, and the bloom filter of a receipt is left out.

Main results:

* `process_gas` — **the gas of a block**.
-/

import GoHpb.EvmClosure
import GoHpb.MessageView
import GoHpb.TxSigning

open FailState StateTransition StateDB

/-! ### Receipts -/

/-- A receipt: whether the machine failed, the gas used in the block so far and by the transaction,
the address of a new contract, and the logs. -/
structure Receipt where
  failed : Bool
  cumulativeGasUsed : ℤ
  txHash : Hash
  contractAddress : Address
  gasUsed : ℤ
  logs : List Log

/-- The errors of a transaction. -/
inductive TxErr where
  | signer (err : SignerErr)
  | message (err : Abort)
  deriving DecidableEq

section Blocks

variable [Crypto]

def Transaction.asMessage (signer : BoeSigner) (tx : Transaction) : Except SignerErr Message :=
  (signer.sender tx).map fun sender =>
    { sender := sender, recipient := tx.recipient, nonce := tx.nonce, gasPrice := tx.price
      gas := tx.gasLimit, value := tx.amount, data := tx.payload, checkNonce := true }

/-- `ApplyTransaction`: the receipt and the gas used in the block, and what is left of the state and
of the gas pool. -/
def applyWithReceipt (vm : Machine) (fuel : ℕ) (author : Address) (signer : BoeSigner)
    (tx : Transaction) (usedGas : ℤ) (w : World) : Except TxErr (Receipt × ℤ) × World :=
  match tx.asMessage signer with
  | .error e => (.error (.signer e), w)
  | .ok msg =>
    match applyTransaction vm fuel author msg w with
    | .error e w' => (.error (.message e), w')
    | .ok (gas, failed) w' =>
      let receipt : Receipt :=
        { failed := failed
          cumulativeGasUsed := usedGas + gas
          txHash := tx.hash
          contractAddress := if msg.recipient.isNone then Evm.createAddress msg.sender tx.nonce
            else FixedBytes.zero 20
          gasUsed := gas
          logs := w'.state.getLogs tx.hash }
      (.ok (receipt, usedGas + gas), w')

/-- The loop of `Process`, from the transaction with the index `i` on. -/
def processFrom (vm : Machine) (fuel : ℕ) (author : Address) (signer : BoeSigner) (bhash : Hash) :
    ℕ → List Transaction → ℤ → World → Except TxErr (List Receipt × ℤ × World)
  | _, [], usedGas, w => .ok ([], usedGas, w)
  | i, tx :: txs, usedGas, w =>
    match applyWithReceipt vm fuel author signer tx usedGas
        { w with state := w.state.prepare tx.hash bhash i } with
    | (.error e, _) => .error e
    | (.ok (receipt, usedGas'), w') =>
      (processFrom vm fuel author signer bhash (i + 1) txs usedGas' w').map fun rest =>
        (receipt :: rest.1, rest.2)

/-- `Process`: the receipts, the gas used, and what is left of the state and of the gas pool.  The
logs are those of the receipts. -/
def process (vm : Machine) (fuel : ℕ) (author : Address) (signer : BoeSigner) (bhash : Hash)
    (gasLimit : ℕ) (txs : List Transaction) (statedb : StateDB) :
    Except TxErr (List Receipt × ℤ × World) :=
  processFrom vm fuel author signer bhash 0 txs 0 ⟨statedb, gasLimit⟩

/-! ### The gas of a message -/

/-- The gas used is the gas that the run required, the intrinsic gas included, less a refund of at
most half of it. -/
def Billed (bought intrinsic : ℕ) (used : ℤ) : Prop :=
  ∃ required refund : ℕ, intrinsic ≤ required ∧ required ≤ bought ∧ refund ≤ required / 2 ∧
    used = required - refund

/-- What is left of the gas pool when a message has failed: nothing is taken before the gas is
bought, and nothing is given back after that. -/
def Message.Charged (msg : Message) (v : View) (before after : ℕ) : Prop :=
  (¬ msg.Affordable v before ∧ after = before) ∨
    (msg.Affordable v before ∧ after + msg.gas = before)

variable {vm : Machine} {fuel : ℕ} {beneficiary : Address} {msg : Message} {w w' : World}

theorem spec_payFees_gas {left : UInt64} {n : ℕ} (hsmall : msg.gas < 2 ^ 64) :
    Spec (fun w => RefundOk w.state ∧ w.gasPool = n) (payFees msg beneficiary left)
      (fun used w => ∀ intrinsic, intrinsic + left.toNat ≤ msg.gas →
        Billed msg.gas intrinsic used ∧ w.gasPool + used = n + msg.gas)
      fun _ _ => False := by
  rintro w ⟨hok, rfl⟩
  have hfees : Yields (payFees msg beneficiary left) w _ _ :=
    yields_payFees beneficiary left (show w.At w.state.view w.gasPool from ⟨rfl, rfl⟩)
  obtain ⟨w', hw', hat⟩ := hfees
  rw [hw']
  intro intrinsic hleft
  have hrefund : 0 ≤ w.state.view.refund := hok.refund
  have hle : left.toNat ≤ msg.gas := by omega
  have hgas := View.toNat_gasAfter hrefund hle hsmall
  obtain ⟨hlow, hhigh⟩ := View.refundOf_bounds hrefund hle
  have hpool := hat.gasPool
  simp only [gasUsed] at hhigh ⊢
  exact ⟨⟨msg.gas - left.toNat, (w.state.view.refundOf msg left).toNat, by omega, by omega,
    by omega, by omega⟩, by omega⟩

/-- **What a message takes from the gas pool**: the gas it used, and all the gas it bought if it
fails after that. -/
theorem spec_applyMessage_gas {v : View} {gasPool : ℕ} :
    Spec (fun w => w.At v gasPool ∧ RefundOk w.state) (applyMessage vm fuel beneficiary msg)
      (fun r w => Nonempty (Meter vm) →
        Billed msg.gas (intrinsicGas msg.data msg.recipient.isNone) r.2.1 ∧
          w.gasPool + r.2.1 = gasPool)
      fun _ w => msg.Charged v gasPool w.gasPool := by
  have hG := RefundOk.closed.guard
  -- the choice of the way only looks the sender up
  have hchoice : Spec (fun w => w.At v gasPool ∧ RefundOk w.state) (onState (isNative msg))
      (fun _ w => w.At v gasPool ∧ RefundOk w.state) fun _ w =>
        msg.Charged v gasPool w.gasPool := by
    rintro w ⟨hat, hok⟩
    unfold isNative
    cases msg.recipient with
    | none => exact ⟨hat, hok⟩
    | some addr =>
      exact ⟨⟨view_load.trans hat.view, hat.gasPool⟩,
        RefundOk.closed.run (.lookUp msg.sender) trivial rfl hok⟩
  refine Spec.bind hchoice fun native => ?_
  have hcheck : Spec (fun w => w.At v gasPool) (preCheck msg) _ _ := spec_preCheck
  refine Spec.bind ((hcheck.and (hG.stable.keeps_preCheck msg ())).mono (fun _ => id)
    (fun _ _ => id) fun _ w hw => .inl hw.1) fun gas => ?_
  rintro w ⟨⟨haffordable, rfl, hat⟩, hok, -⟩
  have hpool := haffordable.pool
  have hsmall := haffordable.small
  have hbought : w.gasPool + msg.gas = gasPool := by
    rw [hat.gasPool]
    omega
  have hF : ∀ w' : World, RefundOk w'.state → w'.gasPool = w.gasPool →
      msg.Charged v gasPool w'.gasPool := by
    intro w' _ hw'
    exact .inr ⟨haffordable, by rw [hw', hbought]⟩
  refine (?_ : Spec (fun w' => RefundOk w'.state ∧ w'.gasPool = w.gasPool) _ _ _) w ⟨hok, rfl⟩
  generalize intrinsicGas msg.data msg.recipient.isNone = intrinsic
  by_cases hlarge : 2 ^ 64 ≤ intrinsic
  · rw [if_pos hlarge]
    exact Spec.throw fun w' hw' => hF w' hw'.1 hw'.2
  rw [if_neg hlarge]
  by_cases hless : UInt64.ofNat msg.gas < UInt64.ofNat intrinsic
  · rw [if_pos hless]
    exact Spec.throw fun w' hw' => hF w' hw'.1 hw'.2
  -- the fees, for what the run has left
  have hfees : ∀ left : UInt64, (Nonempty (Meter vm) →
      left ≤ .ofNat msg.gas - .ofNat intrinsic) →
      Spec (fun w' => RefundOk w'.state ∧ w'.gasPool = w.gasPool) (payFees msg beneficiary left)
        (fun used w' => Nonempty (Meter vm) →
          Billed msg.gas intrinsic used ∧ w'.gasPool + used = gasPool)
        fun _ w' => msg.Charged v gasPool w'.gasPool := by
    intro left hleft
    refine (spec_payFees_gas hsmall).mono (fun _ => id) (fun used w' hbill hmeter => ?_)
      fun _ _ => False.elim
    have hle := UInt64.le_iff_toNat_le.1 (hleft hmeter)
    rw [UInt64.not_lt] at hless
    rw [UInt64.toNat_sub_of_le _ _ hless] at hle
    rw [UInt64.le_iff_toNat_le] at hless
    rw [UInt64.toNat_ofNat_of_lt' (not_le.1 hlarge), UInt64.toNat_ofNat_of_lt' hsmall] at hle hless
    obtain ⟨hbilled, hpaid⟩ := hbill intrinsic (by omega)
    exact ⟨hbilled, by omega⟩
  split_ifs
  · exact hG.stable.spec_transitionOnNative (i := ()) hF (hfees _ fun _ => UInt64.le_refl _)
  · exact hG.spec_transitionOnEVM vm fuel (i := ()) trivial hF fun out hout => hfees out.gas hout

/-! ### The gas of a block -/

variable {signer : BoeSigner} {tx : Transaction}

theorem asMessage_eq_ok (h : tx.asMessage signer = .ok msg) :
    msg.gas = tx.gasLimit ∧ msg.gasPrice = tx.price ∧ msg.data = tx.payload ∧
      msg.recipient = tx.recipient := by
  unfold Transaction.asMessage at h
  cases hsender : signer.sender tx with
  | error e =>
    rw [hsender] at h
    cases h
  | ok sender =>
    rw [hsender] at h
    cases h
    exact ⟨rfl, rfl, rfl, rfl⟩

theorem message_of_applyWithReceipt {usedGas usedGas' : ℤ} {receipt : Receipt}
    (h : applyWithReceipt vm fuel beneficiary signer tx usedGas w = (.ok (receipt, usedGas'), w')) :
    ∃ msg r w₁, 0 ≤ msg.gasPrice ∧ msg.gas = tx.gasLimit ∧ msg.data = tx.payload ∧
      msg.recipient = tx.recipient ∧ applyMessage vm fuel beneficiary msg w = .ok r w₁ ∧
      w₁.state.finalise true = some w'.state ∧ w'.gasPool = w₁.gasPool ∧
      receipt.gasUsed = r.2.1 ∧ receipt.cumulativeGasUsed = usedGas' ∧
      usedGas' = usedGas + r.2.1 := by
  unfold applyWithReceipt at h
  cases hmsg : tx.asMessage signer with
  | error e =>
    rw [hmsg] at h
    cases h
  | ok msg =>
    rw [hmsg] at h
    obtain ⟨hgas, hprice, hdata, hrecipient⟩ := asMessage_eq_ok hmsg
    cases hrun : applyTransaction vm fuel beneficiary msg w with
    | error e w₁ =>
      simp only [hrun] at h
      cases h
    | ok r w₁ =>
      simp only [hrun] at h
      obtain ⟨result, w₂, hmessage, hfinal⟩ := bind_eq_ok.1 hrun
      obtain ⟨_, w₃, hattempt, hpure⟩ := bind_eq_ok.1 hfinal
      cases hpure
      obtain ⟨st, hfinalise, rfl⟩ := zoom_eq_ok.1 hattempt
      cases h
      exact ⟨msg, result, w₂, hprice ▸ Int.natCast_nonneg _, hgas, hdata, hrecipient, hmessage,
        attempt_eq_ok.1 hfinalise, rfl, rfl, rfl, rfl⟩

/-- **One transaction**: the gas on its receipt is taken from the pool and added to the counter. -/
theorem applyWithReceipt_eq_ok {usedGas usedGas' : ℤ} {receipt : Receipt} (hst : w.state.Lawful)
    (h : applyWithReceipt vm fuel beneficiary signer tx usedGas w =
      (.ok (receipt, usedGas'), w')) :
    w'.state.Lawful ∧ receipt.cumulativeGasUsed = usedGas' ∧
      usedGas' = usedGas + receipt.gasUsed ∧ (Nonempty (Meter vm) →
        Billed tx.gasLimit (intrinsicGas tx.payload tx.recipient.isNone) receipt.gasUsed ∧
          w'.gasPool + receipt.gasUsed = w.gasPool) := by
  obtain ⟨msg, r, w₁, hprice, hgas, hdata, hrecipient, hmessage, hfinalise, hpool, hused, hsum,
    hcounter⟩ := message_of_applyWithReceipt h
  have hlawful := Lawful.message vm fuel beneficiary w hprice hst
  rw [hmessage] at hlawful
  refine ⟨hlawful.finalise true hfinalise, hsum, hused ▸ hcounter, fun hmeter => ?_⟩
  have hbilled := spec_applyMessage_gas.of_ok ⟨⟨rfl, rfl⟩, hst.refundOk⟩ hmessage hmeter
  rw [hgas, hdata, hrecipient] at hbilled
  rw [hused, hpool]
  exact hbilled

theorem processFrom_gas {bhash : Hash} (hmeter : Nonempty (Meter vm))
    {txs : List Transaction} : ∀ {i : ℕ} {usedGas total : ℤ} {w w' : World}
    {receipts : List Receipt}, w.state.Lawful →
    processFrom vm fuel beneficiary signer bhash i txs usedGas w = .ok (receipts, total, w') →
    List.Forall₂ (fun tx receipt => Billed tx.gasLimit
        (intrinsicGas tx.payload tx.recipient.isNone) receipt.gasUsed) txs receipts ∧
      (∀ j receipt, receipts[j]? = some receipt → receipt.cumulativeGasUsed =
        usedGas + ((receipts.take (j + 1)).map Receipt.gasUsed).sum) ∧
      total = usedGas + (receipts.map Receipt.gasUsed).sum ∧
      w'.gasPool + (receipts.map Receipt.gasUsed).sum = w.gasPool := by
  -- by induction on the transactions, for any gas used before
  induction txs with
  | nil =>
    rintro i usedGas total w w' receipts - ⟨⟩
    exact ⟨List.Forall₂.nil, by simp, by simp, by simp⟩
  | cons tx txs ih =>
    intro i usedGas total w w' receipts hst h
    unfold processFrom at h
    have hprepared : (w.state.prepare tx.hash bhash i).Lawful := hst.prepare _ _ _
    rcases hrun : applyWithReceipt vm fuel beneficiary signer tx usedGas
      { w with state := w.state.prepare tx.hash bhash i } with ⟨e | ⟨receipt, usedGas'⟩, w₁⟩
    · rw [hrun] at h
      cases h
    rw [hrun] at h
    obtain ⟨hlawful, hcumulative, hused, hgas⟩ := applyWithReceipt_eq_ok hprepared hrun
    obtain ⟨hbilled, hpool⟩ := hgas hmeter
    cases hrest : processFrom vm fuel beneficiary signer bhash (i + 1) txs usedGas' w₁ with
    | error e =>
      simp only [hrest] at h
      cases h
    | ok rest =>
      obtain ⟨receipts', total', w₂⟩ := rest
      simp only [hrest] at h
      cases h
      obtain ⟨hbills, hsums, htotal, hpool'⟩ := ih hlawful hrest
      refine ⟨List.Forall₂.cons hbilled hbills, fun j r hr => ?_, ?_, ?_⟩
      · cases j with
        | zero =>
          cases hr
          simp [hcumulative, hused]
        | succ j =>
          rw [hsums j r hr, hused, List.take_succ_cons, List.map_cons, List.sum_cons, add_assoc]
      · rw [htotal, hused, List.map_cons, List.sum_cons, add_assoc]
      · rw [List.map_cons, List.sum_cons]
        linarith

/-- **The gas of a block.**  Each receipt says at least the intrinsic gas of its transaction less
half of the gas that the transaction used before the refund, and at most its gas limit; the receipts
add up to the gas used, which is at most the gas limit of the block and missing in the pool. -/
theorem process_gas (hmeter : Nonempty (Meter vm)) {signer : BoeSigner} {bhash : Hash}
    {gasLimit : ℕ} {txs : List Transaction} {statedb : StateDB} {receipts : List Receipt}
    {total : ℤ} (hst : statedb.Lawful)
    (h : process vm fuel beneficiary signer bhash gasLimit txs statedb =
      .ok (receipts, total, w)) : List.Forall₂ (fun tx receipt =>
        Billed tx.gasLimit (intrinsicGas tx.payload tx.recipient.isNone) receipt.gasUsed ∧
          receipt.gasUsed ≤ tx.gasLimit) txs receipts ∧ (∀ i receipt, receipts[i]? = some receipt →
        receipt.cumulativeGasUsed = ((receipts.take (i + 1)).map Receipt.gasUsed).sum) ∧
      (receipts.map Receipt.gasUsed).sum = total ∧ total ≤ gasLimit ∧
      w.gasPool = gasLimit - total := by
  obtain ⟨hbills, hsums, htotal, hpool⟩ := processFrom_gas hmeter hst h
  rw [zero_add] at htotal
  simp only at hpool
  refine ⟨hbills.imp ?_, fun i receipt hi => ?_, htotal.symm, ?_, ?_⟩
  · rintro tx receipt ⟨required, refund, hintrinsic, hbought, hrefund, hused⟩
    exact ⟨⟨required, refund, hintrinsic, hbought, hrefund, hused⟩, by omega⟩
  · rw [hsums i receipt hi, zero_add]
  · omega
  · omega

end Blocks

/-! ### A signed payment -/

namespace SignedPayment

open Payments

/-- A payment that was signed for the chain seven. -/
def tx : Transaction :=
  { Signed.payment.data with
    v := 50, r := Rlp.beNat Signed.rSeven.bytes, s := Rlp.beNat Signed.sSeven.bytes }

scoped instance crypto : Crypto := tableCrypto
  [([], Sample.array 32 0xc5d2460186f7233c927e7db2dcc703c0e500b653ca82273b7bfad8045d85a470),
    (Signed.preimage 7, Signed.digestSeven),
    (Sample.memberKey.bytes.drop 1, Sample.array 32
      0xe769f8df756328d7976e542a328809bc894f92807417d2dad6b7c998c1afdac6),
    (Rlp.encode tx.rlpItem, Sample.array 32
      0xa9121a411d05432c277f44d620c4a58d3afed57621c7a305bb16ceb2087c706b)]
  [((Signed.digestSeven.bytes, Signed.rSeven.bytes ++ Signed.sSeven.bytes ++ [1]),
    Sample.memberKey)]

/-- The state at the start of a block, in which the payer has the given balance and nonce. -/
def state (balance : ℤ) (nonce : UInt64) : StateDB :=
  StateDB.new ((∅ : Finmap fun _ : Address => Account).insert payer
    { owner balance with nonce := nonce }) ∅

/-- The plain machine counts its gas, since it returns none. -/
def meter : Meter plain where
  left _ := 0
  start _ := UInt64.zero_le
  halt h := by
    cases h
    exact UInt64.le_refl 0
  suicide h := nomatch h
  resume _ _ := UInt64.le_refl 0

end SignedPayment

open Payments SignedPayment in
/-- A block with the payment: its gas is the intrinsic gas. -/
theorem process_gas_payment :
    ∃ receipts w, process plain 0 beneficiary ⟨7⟩ (FixedBytes.zero 32) 30000
        [tx] (state 100000 3) = .ok (receipts, 10, w) ∧
      (w.gasPool : ℤ) = 30000 - 10 := by
  have htotal : (process plain 0 beneficiary ⟨7⟩ (FixedBytes.zero 32) 30000
      [tx] (state 100000 3)).map (fun r => r.2.1) = .ok 10 := by
    decide
  cases hrun : process plain 0 beneficiary ⟨7⟩ (FixedBytes.zero 32) 30000
    [tx] (state 100000 3) with
  | error e =>
    rw [hrun] at htotal
    cases htotal
  | ok r =>
    obtain ⟨receipts, total, w⟩ := r
    rw [hrun] at htotal
    cases htotal
    exact ⟨receipts, w, rfl, (process_gas ⟨meter⟩ (.new _ _) hrun).2.2.2.2⟩
