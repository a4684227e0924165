/-
**The sender of a message, and its nonce.**

A message whose nonce is checked should increase the nonce of its sender by one.  The native way of
`TransitionOnNative` does not touch the nonce; the other way increases it, once by itself and once
more for every creation by the sender's own code.

The module follows the sender through a message with the tools of `AccountStanding`: through the
checks and the purchase of gas, along one of the two ways, and through the refund.

Main results:

* `sender_standing_native`, `sender_after_evm` — **the sender after a message**.
-/

import GoHpb.AccountStanding
import GoHpb.EvmRules

open FailState StateDB StateTransition UndoJournal Evm

section Messages

variable [Crypto] {S : Address} {H : Hash}

/-! ### What payments and contracts keep -/

omit [Crypto] in
theorem ne_of_live {st : StateDB} {a : Address} (h : (st.live S).isSome)
    (hnone : st.live a = none) : a ≠ S := by
  rintro rfl
  rw [hnone] at h
  cases h

omit [Crypto] in
theorem local_refund (st : StateDB) (refund : ℤ) : Local none st { st with refund := refund } :=
  ⟨rfl, rfl, fun _ _ => rfl, fun _ _ => Iff.rfl, rfl, rfl, [], by simp, by simp⟩

/-- **Payments are quiet.** -/
theorem stable_quiet (S : Address) : Stable (Quiet S) (fun _ _ => True) fun a => a ≠ S where
  fails _ := trivial
  free h hnone := ne_of_live h.isSome hnone
  pay _ hop hrun h := h.run hop hrun

theorem quiet_transitionOnNative {beneficiary : Address} {gas : UInt64} {msg : Message}
    {w w' : World} {r : Bytes × ℤ × Bool} (hsome : (w.state.live S).isSome)
    (h : transitionOnNative msg beneficiary gas w = .ok r w') : Quiet S w.state w'.state := by
  have hK := stable_quiet S
  have hfees : MaintainsWorld (Quiet S) (fun _ _ => True) (payFees msg beneficiary gas)
      fun _ => True :=
    hK.keeps_payFees (fun {_ st} hst =>
      hst.trans (Quiet.of_local hst.isSome (local_refund st _) nofun)) beneficiary gas
  have hspec := hK.spec_transitionOnNative (n := w.gasPool) (fun _ _ _ => trivial)
    ((hfees w.state).mono (fun _ hw => hw.1) (fun _ _ => id) fun _ _ => id)
  exact (hspec.of_ok ⟨Quiet.refl hsome, rfl⟩ h).1

/-- **Contracts keep a safe account safe.**  Its code runs only if it has some, and its nonce is
increased only by its code. -/
theorem guard_kept (S : Address) (H : Hash) :
    Guard (Kept S H) (fun _ _ => True) (fun a => a = S → H ≠ emptyCodeHash) fun a => a ≠ S where
  fails _ := trivial
  free h hnone := ne_of_live h.safe.isSome hnone
  run _ hop hrun h := h.run hop hrun
  may_free hne heq := absurd heq hne
  may_code {_ st a} h hcode := by
    -- the code of a safe account is the one its hash says
    rintro rfl rfl
    obtain ⟨obj, hobj, hhash, hnone, -⟩ := h.safe.live
    apply hcode
    have hread : obj.readCode st.codes = obj := by
      unfold StateObject.readCode
      split
      · rfl
      · rw [if_pos hhash]
    simp [StateDB.getCode, hobj, hread, hnone rfl]
  vacant h hvacant := by
    rintro rfl
    exact hvacant h.safe.collision
  nextNonce {_ st a} hmay h := by
    by_cases ha : a = S
    · subst ha
      exact h.extend (Extends.nextNonce (hmay rfl) h.safe)
    · have hpermits : Permits S H (.setNonce a ((st.getNonce a).1 + 1)) := ha
      exact h.run hpermits rfl
  enter {_ st} h := h.extend (Extends.snapshot st)
  back {_ st} h := by
    have hsnap : Extends S st st.snapshot.2 := Extends.snapshot st
    refine ⟨st.snapshot.2, ?_, fun hsince hback => ?_⟩
    · exact Kept.refl (h.safe.of_extends hsnap) (hsnap.revisionsOk h.revisionsOk)
    · exact h.extend (Extends.revert h.revisionsOk hsince.ext hback)

theorem kept_payFees (S : Address) (H : Hash) (msg : Message) (beneficiary : Address)
    (gas : UInt64) :
    MaintainsWorld (Kept S H) (fun _ _ => True) (payFees msg beneficiary gas) fun _ => True :=
  (guard_kept S H).stable.keeps_payFees (fun {_ st} h =>
    h.extend (Extends.of_local (local_refund st _) nofun)) beneficiary gas

/-! ### The sender before its message runs -/

/-- The standing of an account that has just been created. -/
def freshStanding : Standing := (newObject emptyAccount).standing

/-- The state `st` has been reached from `st₀`, and the account `S` now exists, as it was or as a
new account. -/
structure Prepared (S : Address) (st₀ st : StateDB) : Prop where
  standing : st.standing S = some ((st₀.standing S).getD freshStanding)
  journal : ∃ es, st.journal = st₀.journal ++ es ∧
    es.countP (JournalEntry.isNonceChange S) = 0
  revisions : st.validRevisions = st₀.validRevisions
  nextId : st.nextRevisionId = st₀.nextRevisionId
  recorded : Recorded S st₀ → Recorded S st

section Sender

variable {st st' st'' : StateDB} {w w' : World} {msg : Message} {p : Standing}

theorem isSome_of_standing (h : st.standing S = some p) : (st.live S).isSome := by
  obtain ⟨obj, hobj, -⟩ := Option.map_eq_some_iff.1 h
  simp [hobj]

theorem getNonce_of_standing (h : st.standing S = some p) : (st.getNonce S).1 = p.nonce := by
  obtain ⟨obj, hobj, rfl⟩ := Option.map_eq_some_iff.1 h
  simp [getNonce, hobj, StateObject.standing]

theorem getNonce_eq (st : StateDB) (S : Address) :
    (st.getNonce S).1 = ((st.standing S).getD freshStanding).nonce := by
  unfold StateDB.getNonce StateDB.standing
  cases st.live S <;> rfl

theorem Prepared.isSome (h : Prepared S st st') : (st'.live S).isSome :=
  isSome_of_standing h.standing

theorem Prepared.quiet (h : Prepared S st st') (h' : Quiet S st' st'') : Prepared S st st'' := by
  obtain ⟨es, hes, hcount⟩ := h.journal
  obtain ⟨fs, hfs, hcount'⟩ := h'.journal
  exact ⟨h'.standing.trans h.standing,
    ⟨es ++ fs, by rw [hfs, hes, List.append_assoc], by rw [List.countP_append, hcount, hcount']⟩,
    h'.revisions.trans h.revisions, h'.nextId.trans h.nextId,
    fun hr => h'.recorded (h.recorded hr)⟩

theorem Prepared.of_load {a : Address} (h : Prepared S (st.load a) st') : Prepared S st st' :=
  ⟨by simpa using h.standing, by simpa using h.journal, by simpa using h.revisions,
    by simpa using h.nextId, fun hr => h.recorded hr.load⟩

theorem prepared_ensureExists {u : Unit} (h : ensureExists S st = .ok u st') :
    Prepared S st st' := by
  have heq : ensureExists S st = createMissing (st.live S).isSome S (st.load S) := rfl
  rw [heq] at h
  cases hlive : st.live S with
  | some obj =>
    rw [hlive] at h
    cases h
    refine Prepared.of_load (a := S) ⟨?_, ⟨[], by simp, rfl⟩, rfl, rfl, id⟩
    have hsome : (st.load S).standing S = some obj.standing := standing_eq_some (by simpa)
    rw [hsome]
    rfl
  | none =>
    -- the account is created, with an entry about its object
    rw [hlive] at h
    cases h
    have hlive' : (st.load S).live S = none := by simpa using hlive
    have hstanding : st.standing S = none := by rw [StateDB.standing, hlive]; rfl
    have hcreate : (st.load S).createAccount S =
        (((st.load S).load S).record (.createObjectChange S)).update S
          (newObject emptyAccount) := by
      simp only [StateDB.createAccount, StateDB.createObject, hlive']
    change Prepared S st ((st.load S).createAccount S)
    rw [hcreate]
    refine ⟨?_, ⟨[.createObjectChange S], by simp [update, record], rfl⟩,
      by simp [update, record], by simp [update, record], fun _ => ?_⟩
    · have hdel : (newObject emptyAccount).deleted = false := rfl
      rw [hstanding, standing_update_self hdel]
      rfl
    · exact Recorded.update_self fun hd => by simp [newObject] at hd

variable {r : Bytes × ℤ × Bool} {beneficiary : Address} {gas : UInt64} {vm : Machine} {fuel : ℕ}

theorem prepared_preCheck (h : preCheck msg w = .ok gas w') : Prepared msg.sender w.state w'.state ∧
      (msg.checkNonce = true → (w.state.getNonce msg.sender).1 = msg.nonce) := by
  obtain ⟨_, w₁, h₁, h⟩ := bind_eq_ok.1 h
  obtain ⟨nonce, w₂, h₂, h⟩ := bind_eq_ok.1 h
  obtain ⟨st₁, hensure, rfl⟩ := zoom_eq_ok.1 h₁
  have hprep : Prepared msg.sender w.state st₁ := prepared_ensureExists hensure
  obtain ⟨st₂, hget, rfl⟩ := zoom_eq_ok.1 h₂
  cases hget
  have hquiet : Quiet msg.sender st₁ (st₁.load msg.sender) := Quiet.load hprep.isSome _
  split_ifs at h with hhigh hlow
  · cases h
  · cases h
  have hbuy := ((stable_quiet msg.sender).keeps_buyGas msg (st₁.load msg.sender)).of_ok
    (Quiet.refl hquiet.isSome) h
  refine ⟨hprep.quiet (hquiet.trans hbuy.1), fun hcheck => ?_⟩
  have hnonce : (st₁.getNonce msg.sender).1 = (w.state.getNonce msg.sender).1 := by
    rw [getNonce_of_standing hprep.standing, getNonce_eq]
  rw [hnonce] at hhigh hlow
  simp only [hcheck, Bool.true_and, decide_eq_true_eq, UInt64.not_lt] at hhigh hlow
  exact UInt64.le_antisymm hlow hhigh

/-! ### The way a message takes -/

/-- Whether the message takes the native way. -/
def Message.native (msg : Message) (st : StateDB) : Bool :=
  msg.recipient.isSome && decide ((st.getCodeSize msg.sender).1 = 0)

omit [Crypto] in
theorem isNative_eq_ok {native : Bool} (h : isNative msg st = .ok native st') :
    native = msg.native st ∧ (st' = st ∨ st' = st.load msg.sender) := by
  unfold isNative at h
  unfold Message.native
  cases hto : msg.recipient with
  | none =>
    rw [hto] at h
    cases h
    exact ⟨rfl, .inl rfl⟩
  | some addr =>
    rw [hto] at h
    cases h
    exact ⟨rfl, .inr rfl⟩

/-- **What a successful message has gone through**: its nonce was checked, its gas was bought, and
one of the two ways has been taken. -/
theorem applyMessage_eq_ok (h : applyMessage vm fuel beneficiary msg w = .ok r w') :
    ∃ gas w₁, Prepared msg.sender w.state w₁.state ∧
      (msg.checkNonce = true → (w.state.getNonce msg.sender).1 = msg.nonce) ∧
      (if msg.native w.state = true then transitionOnNative msg beneficiary gas w₁ = .ok r w'
      else transitionOnEVM vm fuel msg beneficiary gas w₁ = .ok r w') := by
  obtain ⟨native, w₁, h₁, hchecked⟩ := bind_eq_ok.1 h
  obtain ⟨gas, w₂, h₂, hrun⟩ := bind_eq_ok.1 hchecked
  obtain ⟨st₁, hchoice, rfl⟩ := zoom_eq_ok.1 h₁
  obtain ⟨hnative, hst₁⟩ := isNative_eq_ok hchoice
  obtain ⟨hprep, hnonce⟩ := prepared_preCheck h₂
  have hprep' : Prepared msg.sender w.state w₂.state := by
    rcases hst₁ with rfl | rfl
    · exact hprep
    · exact hprep.of_load
  have hnonce' : msg.checkNonce = true → (w.state.getNonce msg.sender).1 = msg.nonce := by
    intro hcheck
    rw [← hnonce hcheck]
    rcases hst₁ with rfl | rfl
    · rfl
    · simp [getNonce]
  refine ⟨gas - UInt64.ofNat (intrinsicGas msg.data msg.recipient.isNone), w₂, hprep', hnonce', ?_⟩
  rw [← hnative]
  split_ifs at hrun with hbig hgas hway
  · cases hrun
  · cases hrun
  · rw [if_pos hway]
    exact hrun
  · rw [if_neg hway]
    exact hrun

theorem sender_standing_native (hp : w.state.standing msg.sender = some p)
    (h : transitionOnNative msg beneficiary gas w = .ok r w') :
    w'.state.standing msg.sender = some p := by
  rw [(quiet_transitionOnNative (isSome_of_standing hp) h).standing, hp]

/-- The nonce of `S` has been set to the next one. -/
structure Bumped (S : Address) (st st' : StateDB) : Prop where
  standing : ∀ p, st.standing S = some p →
    st'.standing S = some { p with nonce := p.nonce + 1 }
  journal : ∃ es, st'.journal = st.journal ++ es ∧
    es.countP (JournalEntry.isNonceChange S) = 1
  revisions : st'.validRevisions = st.validRevisions
  nextId : st'.nextRevisionId = st.nextRevisionId
  recorded : Recorded S st → Recorded S st'

theorem Bumped.of_quiet (h : Quiet S st st') (h' : Bumped S st' st'') : Bumped S st st'' := by
  obtain ⟨es, hes, hcount⟩ := h.journal
  obtain ⟨fs, hfs, hcount'⟩ := h'.journal
  exact ⟨fun p hp => h'.standing p (h.standing.trans hp),
    ⟨es ++ fs, by rw [hfs, hes, List.append_assoc], by rw [List.countP_append, hcount, hcount']⟩,
    h'.revisions.trans h.revisions, h'.nextId.trans h.nextId,
    fun hr => h'.recorded (h.recorded hr)⟩

theorem bumped_increaseNonce {nonce : UInt64} (hsome : (st.live S).isSome)
    (h : increaseNonce S st = .ok nonce st') : Bumped S st st' := by
  cases h
  change Bumped S st ((st.load S).setNonce S ((st.getNonce S).1 + 1))
  refine Bumped.of_quiet (Quiet.load hsome S) ?_
  obtain ⟨obj, hobj⟩ := Option.isSome_iff_exists.1 hsome
  have hobj' : (st.load S).live S = some obj := by simpa using hobj
  have hdel : (obj.setNonce ((st.getNonce S).1 + 1)).deleted = false := (lookup_load_self hobj).2
  have hnonce : (st.getNonce S).1 = obj.data.nonce := by simp [getNonce, hobj]
  rw [StateDB.setNonce, change_eq hobj']
  refine ⟨fun p hp => ?_, ⟨[.nonceChange S obj.data.nonce], ?_, ?_⟩, ?_, ?_,
    fun hr => Recorded.update_self fun hd => ?_⟩
  · rw [standing_eq_some hobj', Option.some.injEq] at hp
    rw [standing_update_self hdel, ← hp, hnonce]
    rfl
  · simp [update, record]
  · simp [JournalEntry.isNonceChange]
  · simp [update, record]
  · simp [update, record]
  · simpa [record] using hr.mem_dirty hobj' hd

/-- **On the other way the nonce of the sender is increased once**, and what follows keeps its
standing. -/
theorem sender_standing_evm (hsome : (w.state.live msg.sender).isSome)
    (h : transitionOnEVM vm fuel msg beneficiary gas w = .ok r w') :
    ∃ st, Bumped msg.sender w.state st ∧ ∀ H, Safe msg.sender H st → RevisionsOk st →
      Kept msg.sender H st w'.state := by
  obtain ⟨_, w₁, h₁, h⟩ := bind_eq_ok.1 h
  obtain ⟨out, w₂, h₂, h⟩ := bind_eq_ok.1 h
  obtain ⟨st₁, hensure, rfl⟩ := zoom_eq_ok.1 h₁
  obtain ⟨st₂, hrun, rfl⟩ := zoom_eq_ok.1 h₂
  have hK := stable_quiet msg.sender
  have hquiet := ((hK.keeps_ensureExists msg.sender) w.state).of_ok (Quiet.refl hsome) hensure
  split_ifs at h with herr
  · cases h
  obtain ⟨used, w₃, h₃, h⟩ := bind_eq_ok.1 h
  cases h
  -- it is enough to find the state after the increase, since the fees keep the standing
  suffices hfound : ∃ st, Bumped msg.sender st₁ st ∧ ∀ H, Safe msg.sender H st → RevisionsOk st →
      Kept msg.sender H st st₂ by
    obtain ⟨st, hbump, hkept⟩ := hfound
    refine ⟨st, hbump.of_quiet hquiet.1, fun H hsafe hrev => ?_⟩
    exact ((kept_payFees msg.sender H msg beneficiary out.gas st).of_ok (hkept H hsafe hrev) h₃).1
  unfold runMessage at hrun
  cases hto : msg.recipient with
  | none =>
    rw [hto] at hrun
    obtain ⟨created, st₃, hcreate, hrun⟩ := bind_eq_ok.1 hrun
    cases hrun
    unfold Evm.create at hcreate
    rw [if_neg (Nat.not_lt_zero _)] at hcreate
    obtain ⟨solvent, st₄, hcan, hcreate⟩ := bind_eq_ok.1 hcreate
    have hquiet' := ((hK.keeps_canTransfer msg.sender msg.value) st₁).of_ok
      (Quiet.refl hquiet.1.isSome) hcan
    split_ifs at hcreate with hsolvent
    · -- a creation that cannot be paid is an error of the message
      cases hcreate
      exact absurd rfl herr
    obtain ⟨nonce, st₅, hbump, hdeploy⟩ := bind_eq_ok.1 hcreate
    refine ⟨st₅, (bumped_increaseNonce hquiet'.1.isSome hbump).of_quiet hquiet'.1,
      fun H hsafe hrev => ?_⟩
    have hG := guard_kept msg.sender H
    exact (hG.keeps_deploy (hG.keeps_interpret vm fuel) msg.sender _ msg.data gas msg.value
      st₅).of_ok (Kept.refl hsafe hrev) hdeploy |>.1
  | some addr =>
    rw [hto] at hrun
    obtain ⟨nonce, st₃, hbump, hrun⟩ := bind_eq_ok.1 hrun
    refine ⟨st₃, bumped_increaseNonce hquiet.1.isSome hbump, fun H hsafe hrev => ?_⟩
    obtain ⟨target, st₄, htarget, hrun⟩ := bind_eq_ok.1 hrun
    have hG := guard_kept msg.sender H
    have hkept := (hG.stable.keeps_toAccount msg st₃).of_ok (Kept.refl hsafe hrev) htarget
    exact (hG.keeps_call (hG.keeps_interpret vm fuel) msg.sender target msg.data gas msg.value
      st₃).of_ok hkept.1 hrun |>.1

/-! ### One message -/

/-- What is asked of the state a message starts from: an account whose hash is that of the empty
code has no code, a code does not have the zero hash, and revisions are numbered in order. -/
structure StateDB.Ready (S : Address) (st : StateDB) : Prop where
  code : ∀ p, st.standing S = some p → p.code = []
  codeHash : ∀ p, st.standing S = some p → p.codeHash ≠ emptyCodeHash →
    p.codeHash ≠ FixedBytes.zero 32
  revisionsOk : RevisionsOk st

/-- The number of changes of the nonce of `S` that a message has left in the journal. -/
def bumps (S : Address) (st st' : StateDB) : ℕ :=
  (st'.journal.drop st.journal.length).countP (JournalEntry.isNonceChange S)

theorem Prepared.revisionsOk (h : Prepared S st st') (hrev : RevisionsOk st) : RevisionsOk st' := by
  intro r hr
  rw [h.revisions] at hr
  rw [h.nextId]
  exact hrev r hr

theorem Bumped.revisionsOk (h : Bumped S st st') (hrev : RevisionsOk st) : RevisionsOk st' := by
  intro r hr
  rw [h.revisions] at hr
  rw [h.nextId]
  exact hrev r hr

theorem StateDB.Ready.standing (h : st.Ready S) : ((st.standing S).getD freshStanding).code = [] ∧
      (((st.standing S).getD freshStanding).codeHash ≠ emptyCodeHash →
        ((st.standing S).getD freshStanding).codeHash ≠ FixedBytes.zero 32) := by
  cases hp : st.standing S with
  | some p => exact ⟨h.code p hp, h.codeHash p hp⟩
  | none => exact ⟨ite_self [], fun hcode => absurd rfl hcode⟩

omit [Crypto] in
theorem nonce_add_one_ne_zero {n : UInt64} (h : n.toNat + 1 < 2 ^ 64) : n + 1 ≠ 0 := by
  intro hzero
  have := congrArg UInt64.toNat hzero
  simp at this
  omega

/-- **The sender after a message that did not take the native way**, as long as its nonce does not
wrap around: its nonce has grown by the number of entries about it, which is one for an account
without code. -/
theorem sender_after_evm {w₀ : World} (hready : w₀.state.Ready msg.sender)
    (hprep : Prepared msg.sender w₀.state w.state)
    (hp : (w₀.state.standing msg.sender).getD freshStanding = p)
    (hwrap : p.nonce.toNat + 1 < 2 ^ 64)
    (h : transitionOnEVM vm fuel msg beneficiary gas w = .ok r w') : w'.state.standing msg.sender =
        some { p with nonce := p.nonce + UInt64.ofNat (bumps msg.sender w₀.state w'.state) } ∧
      (p.codeHash = emptyCodeHash → bumps msg.sender w₀.state w'.state = 1) ∧
      RevisionsOk w'.state ∧
      (Recorded msg.sender w₀.state → Recorded msg.sender w'.state) := by
  obtain ⟨hcode, hhash⟩ := hready.standing
  have hstanding := hprep.standing
  rw [hp] at hcode hhash hstanding
  obtain ⟨st, hbump, hkept⟩ := sender_standing_evm hprep.isSome h
  have hnext := hbump.standing p hstanding
  have hrev := hbump.revisionsOk (hprep.revisionsOk hready.revisionsOk)
  have hsafe : Safe msg.sender p.codeHash st := by
    refine ⟨_, hnext, rfl, hcode, ?_⟩
    by_cases hempty : p.codeHash = emptyCodeHash
    · exact .inr ⟨hempty, nonce_add_one_ne_zero hwrap⟩
    · exact .inl ⟨hempty, hhash hempty⟩
  have hafter := hkept p.codeHash hsafe hrev
  -- the entries: none before the increase, one for it, and those of the trail after it
  obtain ⟨es, hes, hnone⟩ := hprep.journal
  obtain ⟨fs, hfs, hone⟩ := hbump.journal
  obtain ⟨gs, hgs, htrail⟩ := hafter.ext.journal
  rw [hnext] at htrail
  obtain ⟨hend, hempty⟩ := trail_nonce htrail
  have hcount : bumps msg.sender w₀.state w'.state =
      1 + gs.countP (JournalEntry.isNonceChange msg.sender) := by
    have hjournal : w'.state.journal = w₀.state.journal ++ (es ++ fs ++ gs) := by
      rw [hgs, hfs, hes]
      simp only [List.append_assoc]
    rw [bumps, hjournal, List.drop_left, List.countP_append, List.countP_append, hnone, hone]
  refine ⟨?_, fun hno => ?_, hafter.revisionsOk, fun hr => ?_⟩
  · rw [hend, hcount, UInt64.ofNat_add, ← add_assoc]
    rfl
  · rw [hcount, hempty hno]
  · exact hafter.ext.recorded (hbump.recorded (hprep.recorded hr))

end Sender

end Messages
