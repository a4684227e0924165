/-
**The signer set can become empty.**

`Historysnap.inturn` divides by the number of signers, and `Prometheus.prepare` calls it without
asking first whether there are any.  The signer set shrinks by votes only, and a vote needs more
than half of the signers.  One signer is more than half of one: the last signer can vote itself out,
and nothing in the verification of its header forbids it.  After that no block can be sealed, and a
node that tries to prepare one divides by zero.

This is the only way.  On every branch, the signer sets of all blocks are nonempty exactly when no
header is such a vote.

Main results:

* `Historysnap.stepHeader_signers_eq_empty` — **one header empties the signer set exactly when it
  drops the last signer**;
* `signers_nonempty_iff` — **the signer sets along a branch are nonempty exactly when no header
  drops the last signer**.
-/

import GoHpb.HistorysnapMajority
import GoHpb.PrometheusSeal

open FailState List

namespace Historysnap

variable {config : PrometheusConfig} {s s' : Historysnap} {header : Header} {signer : Address}

/-! ### One header -/

/-- The header carries the vote of the only signer against itself. -/
def DropsLast (s : Historysnap) (header : Header) : Prop :=
  header.nonce = nonceDropVote ∧ s.signers = {header.coinbaseHash}

theorem voteDirection_eq_false {nonce : BlockNonce} :
    voteDirection nonce = .ok false ↔ nonce = nonceDropVote := by
  have hne : nonceDropVote ≠ nonceAuthVote := by decide
  rw [voteDirection]
  split_ifs with hauth hdrop
  · simp [hauth, hne.symm]
  · simp [hdrop]
  · simp [hdrop]

theorem eq_of_isVote_polled (h : TallyInv s) {vote v : Vote} (hv : v ∈ (s.polled config vote).votes)
    (hvote : isVote vote.signer vote.addressHash v) : v = vote := by
  have hstart : TallyInv { s.startHeader config vote.block with
      recents := (s.startHeader config vote.block).recents.insert vote.block vote.signer } :=
    (h.startHeader vote.block).congr rfl rfl rfl
  rw [polled, castVote_eq] at hv
  split_ifs at hv with hvalid
  · rcases mem_append.1 hv with hv | hv
    · exact absurd hvote (hstart.not_isVote_discardPrevious v hv)
    · exact mem_singleton.1 hv
  · exact absurd hvote (hstart.not_isVote_discardPrevious v hv)

theorem mem_polled_of_valid {vote : Vote}
    (hvalid : vote.authorize = decide (vote.addressHash ∉ s.signers)) :
    vote ∈ (s.polled config vote).votes := by
  rw [polled, castVote_eq, if_pos]
  · exact mem_append_right _ (mem_singleton_self vote)
  · rw [validVote_eq_true]
    simpa using hvalid

theorem dropsLast_of_applyVote (h : TallyInv s) (hne : s.signers.Nonempty)
    (hstep : s.applyVote config header signer = .ok s') (hempty : s'.signers = ∅) :
    s.DropsLast header := by
  obtain ⟨hsigner, authorize, hdir, rfl⟩ := applyVote_eq_ok hstep
  have hp : TallyInv (s.polled config (voteOf header signer authorize)) := h.polled hsigner
  rw [settle_signers hp, polled_signers] at hempty
  split_ifs at hempty with hlt hmem
  · -- the signer set was a singleton
    have hlast : s.signers = {header.coinbaseHash} :=
      (Finset.erase_eq_empty_iff _ _).1 hempty |>.resolve_left hne.ne_empty
    obtain ⟨v, hv, hva⟩ := countAbout_ne_zero.1 (Nat.ne_of_gt (Nat.zero_lt_of_lt hlt))
    -- the voter and the sealer are both the only signer
    have hvoter : v.signer = header.coinbaseHash := by
      have hstanding := hp.standing v hv
      rwa [polled_signers, hlast, Finset.mem_singleton] at hstanding
    have hsealer : signerHash signer header.random = header.coinbaseHash := by
      rwa [hlast, Finset.mem_singleton] at hsigner
    have hsame : v = voteOf header signer authorize := by
      refine eq_of_isVote_polled h hv ?_
      simp [isVote, voteOf, hvoter, hsealer, hva]
    have hauthorize : v.authorize = false := by
      rw [hp.ballot.directed v hv, hva, direction, polled_signers]
      simp [hmem]
    rw [hsame] at hauthorize
    change authorize = false at hauthorize
    rw [hauthorize] at hdir
    exact ⟨voteDirection_eq_false.1 hdir, hlast⟩
  · exact absurd hempty (Finset.insert_ne_empty _ _)
  · exact absurd hempty hne.ne_empty

theorem applyVote_of_dropsLast (h : TallyInv s) (hstep : s.applyVote config header signer = .ok s')
    (hdrop : s.DropsLast header) : s'.signers = ∅ := by
  obtain ⟨hnonce, hlast⟩ := hdrop
  obtain ⟨hsigner, authorize, hdir, rfl⟩ := applyVote_eq_ok hstep
  rw [voteDirection_eq_false.2 hnonce] at hdir
  cases hdir
  have hp : TallyInv (s.polled config (voteOf header signer false)) := h.polled hsigner
  have hmem : header.coinbaseHash ∈ s.signers := by
    rw [hlast]
    exact Finset.mem_singleton_self _
  have hcount : countAbout (s.polled config (voteOf header signer false)).votes
      header.coinbaseHash ≠ 0 := by
    refine countAbout_ne_zero.2 ⟨voteOf header signer false, mem_polled_of_valid ?_, rfl⟩
    simp [voteOf, hmem]
  have hmajority : s.signers.card / 2 < countAbout
      (s.polled config (voteOf header signer false)).votes header.coinbaseHash := by
    rw [hlast, Finset.card_singleton]
    omega
  rw [settle_signers hp, polled_signers, if_pos hmajority, if_pos hmem, hlast,
    Finset.erase_singleton]

variable [Crypto]

theorem stepHeader_eq_applyVote (hstep : s.stepHeader config header = .ok s') :
    ∃ signer m, s.applyVote config header signer = .ok m ∧
      s' = m.withHead (s.number + 1) header.hash := by
  rw [stepHeader] at hstep
  cases hvote : s.voteHeader config header with
  | error e =>
    rw [hvote] at hstep
    cases hstep
  | ok m =>
    rw [hvote] at hstep
    cases hstep
    obtain ⟨signer, -, happly⟩ := except_bind_eq_ok.1 hvote
    exact ⟨signer, m, happly, rfl⟩

theorem TallyInv.stepHeader (h : TallyInv s) (hstep : s.stepHeader config header = .ok s') :
    TallyInv s' := by
  obtain ⟨signer, m, happly, rfl⟩ := stepHeader_eq_applyVote hstep
  exact (h.applyVote happly).congr rfl rfl rfl

/-- **One header empties the signer set exactly when it drops the last signer.** -/
theorem stepHeader_signers_eq_empty (h : TallyInv s) (hne : s.signers.Nonempty)
    (hstep : s.stepHeader config header = .ok s') : s'.signers = ∅ ↔ s.DropsLast header := by
  obtain ⟨signer, m, happly, rfl⟩ := stepHeader_eq_applyVote hstep
  change m.signers = ∅ ↔ s.DropsLast header
  constructor
  · intro hempty
    exact dropsLast_of_applyVote h hne happly hempty
  · intro hdrop
    exact applyVote_of_dropsLast h happly hdrop

end Historysnap

/-! ### Branches -/

section Branch

variable [Crypto] {config : PrometheusConfig} {now : UnixTime} {genesis : Header} {U : Set Header}
  {n : ℕ} {hash : Hash} {path : List Header} {snap : Historysnap}

/-- **The rule for branches**: what holds of the snapshot of the genesis block and is kept by every
header holds of the snapshot of every block. -/
theorem replay_invariant {P : Historysnap → Prop} (hU : Set.InjOn Header.hash U)
    (h : Branch genesis U n hash path)
    (hgenesis : ∀ s, replayGenesis config now genesis = .ok s → P s)
    (hstep : ∀ s s' header, P s → s.stepHeader config header = .ok s' → P s')
    (hok : replay config now genesis path = .ok snap) : P snap := by
  induction h generalizing snap with
  | genesis =>
    obtain ⟨s, hgen, hs⟩ := except_bind_eq_ok.1 hok
    cases hs
    exact hgenesis _ hgen
  | next hb hmem hlt hnumber hparent ih =>
    rw [replay_concat hU (.next hb hmem hlt hnumber hparent)] at hok
    obtain ⟨m, hm, hlast⟩ := except_bind_eq_ok.1 hok
    exact hstep m snap _ (ih hm) hlast

variable (hU : Set.InjOn Header.hash U) (h : Branch genesis U n hash path)
include hU h

theorem replay_tallyInv
    (hok : replay config now genesis path = .ok snap) : Historysnap.TallyInv snap := by
  refine replay_invariant hU h (fun s hgen => ?_)
    (fun _ _ _ hinv hstep => hinv.stepHeader hstep) hok
  obtain ⟨_, -, h₁⟩ := except_bind_eq_ok.1 hgen
  obtain ⟨signers, -, h₂⟩ := except_bind_eq_ok.1 h₁
  cases h₂
  exact Historysnap.TallyInv.of_empty rfl rfl

theorem replay_take
    {p q : List Header} (hpath : path = p ++ q) (hok : replay config now genesis path = .ok snap) :
    ∃ s, replay config now genesis p = .ok s := by
  obtain ⟨hash', hp⟩ := h.take hpath
  rw [replay_eq_foldlM hU h, hpath] at hok
  obtain ⟨m, hgen, hfold⟩ := except_bind_eq_ok.1 hok
  rw [foldlM_append] at hfold
  obtain ⟨s, hs, -⟩ := except_bind_eq_ok.1 hfold
  refine ⟨s, ?_⟩
  rw [replay_eq_foldlM hU hp, hgen]
  exact hs

/-- **The signer sets along a branch are nonempty exactly when no header drops the last signer.**
On a branch that starts from a genesis block with a signer, `inturn` is defined for the snapshot of
every block if and only if no header carries the vote of the only signer against itself. -/
theorem signers_nonempty_iff
    (hok : replay config now genesis path = .ok snap) {signers : List AddressHash}
    (hgenesis : genesisSigners genesis = .ok signers) (hne : signers ≠ []) :
    (∀ p q s, path = p ++ q → replay config now genesis p = .ok s → s.signers.Nonempty ∧
        ∀ number signerHash, s.inturn number signerHash ≠ .error Err.panicDivide) ↔
      ∀ p header q s, path = p ++ header :: q → replay config now genesis p = .ok s →
        ¬ s.DropsLast header := by
  -- the snapshot of a header comes from that of the block before it
  have hnext : ∀ {p header q s}, path = p ++ header :: q →
      replay config now genesis (p ++ [header]) = .ok s →
      ∃ m, replay config now genesis p = .ok m ∧ Historysnap.TallyInv m ∧
        m.stepHeader config header = .ok s := by
    intro p header q s hpath hs
    obtain ⟨_, hconcat⟩ := h.take (p := p ++ [header]) (q := q) (by simpa using hpath)
    obtain ⟨_, hp⟩ := h.take hpath
    rw [replay_concat hU hconcat] at hs
    obtain ⟨m, hm, hstep⟩ := except_bind_eq_ok.1 hs
    exact ⟨m, hm, replay_tallyInv hU hp hm, hstep⟩
  constructor
  · intro hall p header q s hpath hs hdrop
    have hpath' : path = (p ++ [header]) ++ q := by simpa using hpath
    obtain ⟨s', hs'⟩ := replay_take hU h hpath' hok
    obtain ⟨m, hm, hinv, hstep⟩ := hnext hpath hs'
    rw [hs] at hm
    cases hm
    have hempty := (Historysnap.stepHeader_signers_eq_empty hinv (hall p _ s hpath hs).1 hstep).2
      hdrop
    exact (hall _ q s' hpath' hs').1.ne_empty hempty
  intro hnone p q s hpath hs
  have hnonempty : s.signers.Nonempty := by
    induction p using reverseRecOn generalizing q s with
    | nil =>
      obtain ⟨m, hgen, hm⟩ := except_bind_eq_ok.1 hs
      cases hm
      obtain ⟨_, -, h₁⟩ := except_bind_eq_ok.1 hgen
      obtain ⟨signers', hsigners, h₂⟩ := except_bind_eq_ok.1 h₁
      rw [hgenesis] at hsigners
      cases hsigners
      cases h₂
      exact toFinset_nonempty_iff signers |>.2 hne
    | append_singleton p header ih =>
      have hpath' : path = p ++ header :: q := by simpa using hpath
      obtain ⟨m, hm, hinv, hstep⟩ := hnext hpath' hs
      refine Finset.nonempty_iff_ne_empty.2 fun hempty => hnone p header q m hpath' hm ?_
      exact (Historysnap.stepHeader_signers_eq_empty hinv (ih _ m hpath' hm) hstep).1 hempty
  refine ⟨hnonempty, fun number signerHash hpanic => ?_⟩
  exact hnonempty.ne_empty ((Historysnap.inturn_eq_panic_iff s number signerHash).1 hpanic)

omit hU h

end Branch

/-! ### The last signer -/

namespace Sample

/-- The chain on which the only signer has voted itself out. -/
def chainDropped : ChainReader := chain.extend [dropMember]

/-- The header of the next block, as the worker starts it. -/
def workerNext : Header := { worker with parentHash := dropMember.hash, number := 2 }

theorem signer_runs : genesisSigners genesis = .ok [memberHash] ∧
    replay config 2000 genesis [addOutsider] =
      .ok { outsiderAdded with number := 1, hash := addOutsiderHash } ∧
    outcome (Prometheus.verifyHeader 2000 chain dropMember [] engine) = .ok () ∧
    (outcome (Prometheus.snapshot 2000 chainDropped 1 dropMember.hash [] engine)).map
      (fun snap => snap.signers) = .ok ∅ ∧
    outcome (Prometheus.prepare 2000 chainDropped [] 0 workerNext engine) =
      .error .panicDivide := by decide +kernel

end Sample

open Sample in
/-- **A node divides by zero.**  The genesis block has one signer; its header with a vote against
itself is accepted; the snapshot of that block has no signers; and preparing the next block fails
with a division by zero. -/
theorem prepare_divides_by_zero : genesisSigners genesis = .ok [memberHash] ∧
    outcome (Prometheus.verifyHeader 2000 chain dropMember [] engine) =
      .ok () ∧
    (outcome (Prometheus.snapshot 2000 chainDropped 1 dropMember.hash []
      engine)).map (fun snap => snap.signers) = .ok ∅ ∧
    outcome (Prometheus.prepare 2000 chainDropped [] 0 workerNext engine) =
      .error Err.panicDivide := by
  obtain ⟨hgenesis, -, haccepted, hempty, hpanic⟩ := signer_runs
  exact ⟨hgenesis, haccepted, hempty, hpanic⟩

open Sample in
/-- The first header of the chain does not drop the last signer, and there are signers. -/
theorem signers_nonempty_iff_addOutsider :
    genesisSigners genesis = .ok [memberHash] ∧
    replay config 2000 genesis [addOutsider] =
      .ok { outsiderAdded with number := 1, hash := addOutsiderHash } ∧
    ∀ p q s, [addOutsider] = p ++ q →
      replay config 2000 genesis p = .ok s →
      s.signers.Nonempty ∧
        ∀ number signerHash, s.inturn number signerHash ≠ .error .panicDivide := by
  obtain ⟨hgenesis, hok, -⟩ := signer_runs
  refine ⟨hgenesis, hok, (signers_nonempty_iff pool.hash_injOn branchOne hok hgenesis
    (cons_ne_nil _ _)).2 ?_⟩
  rintro p header q s hpath - ⟨hnonce, -⟩
  have hheader : header ∈ [addOutsider] :=
    hpath ▸ mem_append_right p mem_cons_self
  rw [mem_singleton.1 hheader] at hnonce
  exact absurd hnonce (by decide)
