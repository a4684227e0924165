/-
**Used nonces.**

An account without code whose nonce has moved past `n` has used up the nonce `n`, and it can never
send a message with that nonce again: no message takes the nonce back, the end of a transaction
writes it to the trie, and the next block starts from there.  With what a message does to the nonce
of its sender this gives the law about nonces, and shows where the code breaks it.

Main results:

* `Spent.after_message`, `Spent.after_finalise`, `Spent.after_block`, `Spent.applied` — **a used
  nonce stays used**.
-/

import GoHpb.SenderNonce

open FailState StateDB StateTransition Evm Finmap StateDB

section Law

variable [Crypto] {S : Address}

/-! ### Used nonces -/

/-- The account has no code, is not marked as suicided, and its nonce is above `n`. -/
structure Standing.Used (n : UInt64) (p : Standing) : Prop where
  nonce : n < p.nonce
  codeHash : p.codeHash = emptyCodeHash
  code : p.code = []
  suicided : p.suicided = false

/-- The account `S` has used up the nonce `n`, and the trie knows it or will know it. -/
structure Spent (S : Address) (n : UInt64) (st : StateDB) : Prop where
  standing : ∃ p, st.standing S = some p ∧ p.Used n
  recorded : Recorded S st
  revisionsOk : RevisionsOk st

section Used

variable {st st' : StateDB} {n : UInt64} {p : Standing} {w w' : World} {msg : Message}

theorem Standing.Used.ne_zero (h : p.Used n) : p.nonce ≠ 0 := by
  intro hzero
  have hlt := h.nonce
  rw [hzero] at hlt
  exact UInt64.not_lt_zero hlt

theorem Spent.safe (h : Spent S n st) : Safe S emptyCodeHash st := by
  obtain ⟨p, hp, hused⟩ := h.standing
  exact ⟨p, hp, hused.codeHash, hused.code, .inr ⟨rfl, hused.ne_zero⟩⟩

theorem Spent.kept (h : Spent S n st) (hkept : Kept S emptyCodeHash st st') : Spent S n st' := by
  obtain ⟨p, hp, hused⟩ := h.standing
  obtain ⟨es, -, htrail⟩ := hkept.ext.journal
  rw [hp] at htrail
  obtain ⟨hend, hempty⟩ := trail_nonce htrail
  rw [hempty hused.codeHash] at hend
  refine ⟨⟨p, by simpa using hend, hused⟩, hkept.ext.recorded h.recorded, hkept.revisionsOk⟩

variable {beneficiary : Address} {obj : StateObject} {r : Bytes × ℤ × Bool} {vm : Machine}
  {a : Address} {fuel : ℕ}

theorem spent_of_evm {gas : UInt64} {w₀ : World} (hready : w₀.state.Ready msg.sender)
    (hprep : Prepared msg.sender w₀.state w.state)
    (hp : (w₀.state.standing msg.sender).getD freshStanding = p)
    (hwrap : p.nonce.toNat + 1 < 2 ^ 64) (hcode : p.codeHash = emptyCodeHash)
    (hsuicided : p.suicided = false) (hrecorded : Recorded msg.sender w₀.state) (hn : n ≤ p.nonce)
    (h : transitionOnEVM vm fuel msg beneficiary gas w = .ok r w') :
    Spent msg.sender n w'.state := by
  obtain ⟨hstanding, hone, hrev, hrec⟩ := sender_after_evm hready hprep hp hwrap h
  rw [hone hcode] at hstanding
  have hnocode : p.code = [] := hp ▸ hready.standing.1
  refine ⟨⟨_, hstanding, ⟨?_, hcode, hnocode, hsuicided⟩⟩, hrec hrecorded, hrev⟩
  rw [UInt64.le_iff_toNat_le] at hn
  rw [UInt64.lt_iff_toNat_lt, UInt64.toNat_add]
  have hone' : (UInt64.ofNat 1).toNat = 1 := rfl
  omega

theorem Spent.ready (h : Spent S n st) : st.Ready S := by
  obtain ⟨p, hp, hused⟩ := h.standing
  refine ⟨fun q hq => ?_, fun q hq hne => ?_, h.revisionsOk⟩
  · rw [hp, Option.some.injEq] at hq
    exact hq ▸ hused.code
  · rw [hp, Option.some.injEq] at hq
    exact absurd (hq ▸ hused.codeHash) hne

theorem Spent.prepared (h : Spent S n st) (hprep : Prepared S st st') : Spent S n st' := by
  obtain ⟨p, hp, hused⟩ := h.standing
  refine ⟨⟨p, ?_, hused⟩, hprep.recorded h.recorded, hprep.revisionsOk h.revisionsOk⟩
  rw [hprep.standing, hp]
  rfl

/-- **A used nonce stays used through a message**, of its own account too. -/
theorem Spent.after_message (h : Spent S n w.state)
    (hmsg : msg.sender = S → msg.checkNonce = true ∧ msg.nonce.toNat + 1 < 2 ^ 64)
    (hok : applyMessage vm fuel beneficiary msg w = .ok r w') : Spent S n w'.state := by
  by_cases hS : msg.sender = S
  · subst hS
    obtain ⟨hcheck, hwrap⟩ := hmsg rfl
    obtain ⟨gas, w₁, hprep, hnonce, hway⟩ := applyMessage_eq_ok hok
    obtain ⟨p, hp, hused⟩ := h.standing
    split_ifs at hway with hnative
    · have hspent := h.prepared hprep
      have hfees := kept_payFees msg.sender emptyCodeHash msg beneficiary gas w₁.state
      have hspec := (guard_kept msg.sender emptyCodeHash).stable.spec_transitionOnNative
        (n := w₁.gasPool) (fun _ _ _ => trivial)
        (hfees.mono (fun _ hw => hw.1) (fun _ _ => id) fun _ _ => id)
      exact hspent.kept (hspec.of_ok ⟨Kept.refl hspent.safe hspent.revisionsOk, rfl⟩ hway).1
    · have hpn : p.nonce = msg.nonce := by rw [← hnonce hcheck, getNonce_of_standing hp]
      refine spent_of_evm h.ready hprep (by rw [hp]; rfl) (hpn ▸ hwrap) hused.codeHash
        hused.suicided h.recorded (UInt64.le_of_lt hused.nonce) hway
  · have hspec := (guard_kept S emptyCodeHash).spec_applyMessage vm fuel
      (fun heq => absurd heq hS) fun gas =>
        kept_payFees S emptyCodeHash msg beneficiary gas w.state
    exact h.kept (hspec.of_ok (Kept.refl h.safe h.revisionsOk) hok).1

theorem Spent.refused (h : Spent msg.sender msg.nonce w.state) (hcheck : msg.checkNonce = true) :
    applyMessage vm fuel beneficiary msg w ≠ .ok r w' := by
  intro hok
  obtain ⟨gas, w₁, -, hnonce, -⟩ := applyMessage_eq_ok hok
  obtain ⟨p, hp, hused⟩ := h.standing
  have hlt := hused.nonce
  rw [← getNonce_of_standing hp, hnonce hcheck] at hlt
  exact UInt64.lt_irrefl _ hlt

/-! ### The end of a transaction -/

/-- The trie and the live object of `S`, if there is one, know that the nonce `n` is used. -/
structure Written (S : Address) (n : UInt64) (st : StateDB) : Prop where
  trie : ∃ data, st.trie.lookup S = some data ∧ (newObject data).standing.Used n
  object : ∀ obj, st.stateObjects.lookup S = some obj →
    obj.deleted = false ∧ obj.standing.Used n

theorem Spent.object (h : Spent S n st) (hobj : st.stateObjects.lookup S = some obj) :
    obj.deleted = false ∧ obj.standing.Used n := by
  obtain ⟨p, hp, hused⟩ := h.standing
  obtain ⟨found, hlive, rfl⟩ := Option.map_eq_some_iff.1 hp
  rcases of_live hlive with ⟨hfound, hkept⟩ | ⟨hnone, -⟩
  · obtain rfl := Option.some.inj (hobj.symm.trans hfound)
    exact ⟨hkept, hused⟩
  · rw [hobj] at hnone
    cases hnone

theorem Standing.Used.keeps (h : obj.standing.Used n) :
    obj.suicided = false ∧ obj.empty = false := by
  have hhash : obj.data.codeHash = emptyCodeHash := h.codeHash
  have hnonce : ¬ obj.data.nonce = 0 := h.ne_zero
  refine ⟨?_, by simp [StateObject.empty, hnonce]⟩
  have hsuicided := h.suicided
  simpa [StateObject.standing, hhash] using hsuicided

theorem Standing.Used.of_data {data : Account} (h : obj.standing.Used n)
    (hnonce : data.nonce = obj.data.nonce) (hhash : data.codeHash = obj.data.codeHash) :
    (newObject data).standing.Used n := by
  refine ⟨?_, hhash.trans h.codeHash, ite_self [], by simp [StateObject.standing, newObject]⟩
  have hlt := h.nonce
  rw [StateObject.standing, ← hnonce] at hlt
  exact hlt

theorem Spent.written (h : Spent S n st) (hdirty : S ∉ st.stateObjectsDirty) : Written S n st := by
  refine ⟨?_, fun obj hobj => h.object hobj⟩
  cases hobj : st.stateObjects.lookup S with
  | none =>
    obtain ⟨p, hp, hused⟩ := h.standing
    rw [StateDB.standing, live_of_lookup_none hobj, Option.map_map] at hp
    obtain ⟨data, hdata, rfl⟩ := Option.map_eq_some_iff.1 hp
    exact ⟨data, hdata, hused⟩
  | some obj =>
    obtain ⟨hclean, hmarked⟩ := h.recorded obj hobj
    cases hd : obj.onDirty with
    | true => exact ⟨obj.data, hclean hd, (h.object hobj).2.of_data rfl rfl⟩
    | false => exact absurd (hmarked hd) hdirty

theorem written_of_object (htrie : st.trie.lookup S = some obj.data)
    (hobj : st.stateObjects.lookup S = some obj) (hdel : obj.deleted = false)
    (hused : obj.standing.Used n) : Written S n st := by
  refine ⟨⟨obj.data, htrie, hused.of_data rfl rfl⟩, fun found hfound => ?_⟩
  rw [hobj, Option.some.injEq] at hfound
  exact hfound ▸ ⟨hdel, hused⟩

theorem Written.congr (h : Written S n st) (htrie : st'.trie.lookup S = st.trie.lookup S)
    (hobjects : st'.stateObjects.lookup S = st.stateObjects.lookup S) : Written S n st' :=
  ⟨htrie ▸ h.trie, hobjects ▸ h.object⟩

theorem finaliseObject_other (hne : S ≠ a) (h : st.finaliseObject true a = some st') :
    st'.trie.lookup S = st.trie.lookup S ∧ st'.stateObjects.lookup S = st.stateObjects.lookup S ∧
      st'.stateObjectsDirty = st.stateObjectsDirty ∧ st'.validRevisions = st.validRevisions ∧
      st'.nextRevisionId = st.nextRevisionId := by
  obtain ⟨obj, -, hst⟩ := Option.map_eq_some_iff.1 h
  split_ifs at hst
  · subst hst
    exact ⟨lookup_erase_ne hne, lookup_insert_of_ne _ hne, rfl, rfl, rfl⟩
  · subst hst
    exact ⟨lookup_insert_of_ne _ hne, lookup_insert_of_ne _ hne, rfl, rfl, rfl⟩

theorem finaliseObject_self (hobject : ∀ obj, st.stateObjects.lookup S = some obj →
    obj.deleted = false ∧ obj.standing.Used n) (h : st.finaliseObject true S = some st') :
    ∃ obj, st.stateObjects.lookup S = some obj ∧ st' = st.updateStateObject S obj.updateRoot := by
  obtain ⟨obj, hobj, hst⟩ := Option.map_eq_some_iff.1 h
  obtain ⟨hsuicided, hempty⟩ := (hobject obj hobj).2.keeps
  rw [hsuicided, hempty] at hst
  exact ⟨obj, hobj, hst.symm⟩

theorem Spent.finaliseObject (h : Spent S n st)
    (hfin : st.finaliseObject true a = some st') : Spent S n st' := by
  by_cases hS : S = a
  · subst hS
    obtain ⟨obj, hobj, rfl⟩ := finaliseObject_self (fun _ ho => h.object ho) hfin
    obtain ⟨hdel, hused⟩ := h.object hobj
    refine ⟨⟨obj.updateRoot.standing, ?_, hused⟩, fun found hfound => ?_, h.revisionsOk⟩
    · exact standing_eq_some (live_of_lookup (lookup_insert _) hdel)
    obtain rfl : obj.updateRoot = found := by
      simpa [updateStateObject, setStateObject, lookup_insert] using hfound
    exact ⟨fun _ => lookup_insert _, (h.recorded obj hobj).2⟩
  · obtain ⟨htrie, hobjects, hdirty, hrev, hid⟩ := finaliseObject_other hS hfin
    obtain ⟨p, hp, hused⟩ := h.standing
    refine ⟨⟨p, ?_, hused⟩, fun obj hobj => ?_, fun r hr => ?_⟩
    · rw [← hp, StateDB.standing, StateDB.standing, live_eq, live_eq, htrie, hobjects]
    · rw [hobjects] at hobj
      rw [htrie, hdirty]
      exact h.recorded obj hobj
    · rw [hrev] at hr
      rw [hid]
      exact h.revisionsOk r hr

theorem Written.finaliseObject (h : Written S n st)
    (hfin : st.finaliseObject true a = some st') : Written S n st' := by
  by_cases hS : S = a
  · subst hS
    obtain ⟨obj, hobj, rfl⟩ := finaliseObject_self h.object hfin
    exact written_of_object (lookup_insert _) (lookup_insert _) (h.object obj hobj).1
      (h.object obj hobj).2
  · obtain ⟨htrie, hobjects, -⟩ := finaliseObject_other hS hfin
    exact h.congr htrie hobjects

theorem spent_finaliseObjects {keys : List Address} (h : Spent S n st)
    (hkeys : S ∈ keys ∨ Written S n st)
    (hfin : keys.foldlM (finaliseObject true) st = some st') :
    Spent S n st' ∧ Written S n st' := by
  induction keys generalizing st with
  | nil =>
    obtain rfl : st = st' := by simpa using hfin
    exact ⟨h, hkeys.resolve_left (by simp)⟩
  | cons a keys ih =>
    rw [List.foldlM_cons, Option.bind_eq_bind, Option.bind_eq_some_iff] at hfin
    obtain ⟨st₁, hfirst, hrest⟩ := hfin
    refine ih (h.finaliseObject hfirst) ?_ hrest
    rcases hkeys with hmem | hwritten
    · rcases List.mem_cons.1 hmem with rfl | hmem
      · obtain ⟨obj, hobj, rfl⟩ := finaliseObject_self (fun _ ho => h.object ho) hfirst
        exact .inr (written_of_object (lookup_insert _) (lookup_insert _)
          (h.object hobj).1 (h.object hobj).2)
      · exact .inl hmem
    · exact .inr (hwritten.finaliseObject hfirst)

/-- **`Finalise` writes the used nonce to the trie.** -/
theorem Spent.after_finalise (h : Spent S n st) (hfin : st.finalise true = some st') :
    Spent S n st' ∧ Written S n st' := by
  obtain ⟨st₁, hloop, rfl⟩ := Option.map_eq_some_iff.1 hfin
  have hkeys : S ∈ sortedKeys st.stateObjectsDirty ∨ Written S n st := by
    by_cases hdirty : S ∈ st.stateObjectsDirty
    · exact .inl (mem_sortedKeys.2 hdirty)
    · exact .inr (h.written hdirty)
  obtain ⟨hspent, hwritten⟩ := spent_finaliseObjects h hkeys hloop
  obtain ⟨p, hp, hused⟩ := hspent.standing
  refine ⟨⟨⟨p, ?_, hused⟩, hspent.recorded, fun r hr => ?_⟩, hwritten.trie, hwritten.object⟩
  · rw [← hp]
    exact standing_congr rfl rfl
  · simp [clearJournalAndRefund] at hr

/-! ### The end of a block -/

theorem Written.commitObject (h : Written S n st) : Written S n (st.commitObject true a) := by
  unfold StateDB.commitObject
  cases hobj : st.stateObjects.lookup a with
  | none => exact h
  | some obj =>
    by_cases hS : S = a
    · subst hS
      obtain ⟨hdel, hused⟩ := h.object obj hobj
      obtain ⟨hsuicided, hempty⟩ := hused.keeps
      simp only [hsuicided, hempty, Bool.and_false, Bool.or_self, Bool.false_eq_true, if_false]
      by_cases hdirty : decide (S ∈ st.stateObjectsDirty) = true
      · rw [if_pos hdirty]
        exact written_of_object (lookup_insert _) (lookup_insert _) hdel hused
      · rw [if_neg hdirty]
        exact h.congr rfl rfl
    · dsimp only
      split
      · exact h.congr (lookup_erase_ne hS) (lookup_insert_of_ne _ hS)
      split
      · exact h.congr (lookup_insert_of_ne _ hS) (lookup_insert_of_ne _ hS)
      · exact h.congr rfl rfl

/-- **The next block starts from a trie that knows the used nonce.** -/
theorem Spent.after_block (h : Spent S n st) (hend : endBlock st = some st') : Spent S n st' := by
  obtain ⟨st₁, hfin, rfl⟩ := Option.map_eq_some_iff.1 hend
  have hcommit : ∀ (keys : List Address) (st₂ : StateDB), Written S n st₂ →
      Written S n (keys.foldl (commitObject true) st₂) := by
    intro keys
    induction keys with
    | nil => exact fun _ hwritten => hwritten
    | cons a keys ih => exact fun st₂ hwritten => ih _ hwritten.commitObject
  obtain ⟨data, hdata, hused⟩ :=
    (hcommit (sortedKeys st₁.stateObjects.keys) st₁ (h.after_finalise hfin).2).trie
  refine ⟨⟨_, ?_, hused⟩, fun obj hobj => ?_, fun r hr => ?_⟩
  · exact standing_eq_some ((live_new _ _ S).trans (congrArg (Option.map newObject) hdata))
  · simp [new] at hobj
  · simp [new] at hr

/-! ### Transactions of a chain -/

theorem Spent.prepare (h : Spent S n st) (thash bhash : Hash) (txIndex : ℕ) :
    Spent S n (st.prepare thash bhash txIndex) := by
  obtain ⟨p, hp, hused⟩ := h.standing
  refine ⟨⟨p, ?_, hused⟩, h.recorded, h.revisionsOk⟩
  rw [← hp]
  exact standing_congr rfl rfl

theorem applyTransaction_eq_ok {r : ℤ × Bool}
    (h : applyTransaction vm fuel beneficiary msg w = .ok r w') :
    ∃ ret w₁, applyMessage vm fuel beneficiary msg w = .ok (ret, r) w₁ ∧
      w₁.state.finalise true = some w'.state := by
  obtain ⟨result, w₁, hmsg, hfin⟩ := bind_eq_ok.1 h
  obtain ⟨_, w₂, hfin, hret⟩ := bind_eq_ok.1 hfin
  cases hret
  obtain ⟨st₁, hst, rfl⟩ := zoom_eq_ok.1 hfin
  exact ⟨result.1, w₁, hmsg, attempt_eq_ok.1 hst⟩

/-- **A used nonce stays used along a chain.** -/
theorem Spent.applied {msgs : List Message} (h : Spent S n st) (hrun : Applied st msgs st')
    (hmsgs : ∀ msg ∈ msgs, msg.sender = S →
      msg.checkNonce = true ∧ msg.nonce.toNat + 1 < 2 ^ 64) : Spent S n st' := by
  induction hrun with
  | start => exact h
  | transaction vm fuel gasPool beneficiary thash bhash txIndex _ htx ih =>
    have hbefore := ih fun m hm => hmsgs m (List.mem_append_left _ hm)
    obtain ⟨ret, w₁, hmsg, hfin⟩ := applyTransaction_eq_ok htx
    have hafter := (hbefore.prepare thash bhash txIndex).after_message
      (hmsgs _ (by simp)) (w := ⟨_, gasPool⟩) hmsg
    exact (hafter.after_finalise hfin).1
  | block _ hblock ih => exact (ih hmsgs).after_block hblock

end Used

/-! ### The law -/

/-- A transaction that uses up its nonce for good: its nonce is checked, its sender has no code and
is not about to be deleted, and it does not take the native way. -/
structure Message.UsesNonce (msg : Message) (st : StateDB) : Prop where
  checkNonce : msg.checkNonce = true
  native : msg.native st = false
  ready : st.Ready msg.sender
  recorded : Recorded msg.sender st
  codeHash : ((st.standing msg.sender).getD freshStanding).codeHash = emptyCodeHash
  suicided : ((st.standing msg.sender).getD freshStanding).suicided = false
  nonce : (st.getNonce msg.sender).1.toNat + 1 < 2 ^ 64

theorem usesNonce_new {trie : Finmap fun _ : Address => Account}
    {codes : Finmap fun _ : Hash => Bytes} {msg : Message} {data : Account}
    (hcheck : msg.checkNonce = true) (hto : msg.recipient = none)
    (hdata : trie.lookup msg.sender = some data) (hhash : data.codeHash = emptyCodeHash)
    (hnonce : data.nonce.toNat + 1 < 2 ^ 64) : msg.UsesNonce (new trie codes) := by
  have hlive : (new trie codes).live msg.sender = some (newObject data) := by
    rw [live_new, hdata]
    rfl
  have hp : (new trie codes).standing msg.sender = some (newObject data).standing :=
    standing_eq_some hlive
  have hstanding : (newObject data).standing.codeHash = emptyCodeHash := hhash
  refine ⟨hcheck, by simp [Message.native, hto], ⟨fun p h => ?_, fun p h hne => ?_, ?_⟩, ?_, ?_, ?_,
    ?_⟩
  · rw [hp, Option.some.injEq] at h
    exact h ▸ ite_self []
  · rw [hp, Option.some.injEq] at h
    exact absurd (h ▸ hstanding) hne
  · intro r hr
    simp [new] at hr
  · intro obj hobj
    simp [new] at hobj
  · rw [hp]
    exact hhash
  · rw [hp]
    simp [newObject, StateObject.standing]
  · rw [getNonce_of_standing hp]
    exact hnonce

theorem Message.UsesNonce.spent {vm : Machine} {fuel : ℕ} {beneficiary : Address} {msg : Message}
    {w w' : World} {r : ℤ × Bool} (h : msg.UsesNonce w.state)
    (hok : applyTransaction vm fuel beneficiary msg w = .ok r w') :
    Spent msg.sender msg.nonce w'.state := by
  obtain ⟨ret, w₁, hmsg, hfin⟩ := applyTransaction_eq_ok hok
  obtain ⟨gas, w₂, hprep, hnonce, hway⟩ := applyMessage_eq_ok hmsg
  rw [h.native, if_neg Bool.false_ne_true] at hway
  have hwrap := h.nonce
  rw [getNonce_eq] at hwrap
  have hle : msg.nonce ≤ ((w.state.standing msg.sender).getD freshStanding).nonce := by
    rw [← getNonce_eq, hnonce h.checkNonce]
    exact UInt64.le_refl _
  have hspent := spent_of_evm h.ready hprep rfl hwrap h.codeHash h.suicided h.recorded hle hway
  exact (hspent.after_finalise hfin).1

end Law
