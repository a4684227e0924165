/-
**The signer set changes only by a majority of standing votes.**

`GoHpb/HistorysnapTally.lean` shows that the count compared with the threshold is the number of
standing votes.  This module adds where these votes come from: each was cast by a processed header,
and no checkpoint has been passed since.  With that, whenever processing a header changes the
membership of an identity, more than half of the signers have exactly one standing vote about it,
cast since the last checkpoint and in the direction of the change.

Main results:

* `Historysnap.signers_change_by_majority` — **every change has a majority of the signers behind
  it**.
-/

import GoHpb.HistorysnapTally

open List

namespace Historysnap

variable {config : PrometheusConfig} {s s' : Historysnap}

/-! ### Where the standing votes come from -/

/-- The vote was cast by one of the processed headers, and no header after it was a checkpoint. -/
def CastSince (config : PrometheusConfig) (hist : List (Header × Address)) (v : Vote) : Prop :=
  ∃ older e newer authorize, hist = older ++ e :: newer ∧
    (∀ f ∈ newer, config.checkpoint f.1.number64 = false) ∧
    voteDirection e.1.nonce = .ok authorize ∧ v = voteOf e.1 e.2 authorize

variable {hist : List (Header × Address)} {e : Header × Address}

theorem CastSince.append {v : Vote} (h : CastSince config hist v)
    (he : config.checkpoint e.1.number64 = false) : CastSince config (hist ++ [e]) v := by
  obtain ⟨older, f, newer, authorize, rfl, hnewer, hdir, hv⟩ := h
  refine ⟨older, f, newer ++ [e], authorize, by simp, fun g hg => ?_, hdir, hv⟩
  rcases mem_append.1 hg with hg | hg
  · exact hnewer g hg
  · rw [mem_singleton.1 hg]
    exact he

/-- The votes that stand when the threshold is checked are the one just cast and, unless this is a
checkpoint, earlier ones. -/
theorem mem_polled_votes {vote v : Vote} (h : v ∈ (s.polled config vote).votes) :
    v = vote ∨ v ∈ s.votes ∧ config.checkpoint vote.block = false := by
  have hcast : ∀ t : Historysnap, v ∈ (t.castVote vote).votes → v = vote ∨ v ∈ t.votes := by
    intro t ht
    rw [castVote_eq] at ht
    split_ifs at ht
    · rcases mem_append.1 ht with ht | ht
      · exact .inr ht
      · exact .inl (mem_singleton.1 ht)
    · exact .inr ht
  refine (hcast _ h).imp_right fun hv => ?_
  rw [discardPrevious_votes] at hv
  have hstart := mem_of_mem_eraseP hv
  rw [startHeader_votes] at hstart
  split_ifs at hstart with hc
  · simp at hstart
  · exact ⟨hstart, by simpa using hc⟩

theorem settle_votes_subset (s : Historysnap) (number : UInt64) (address : AddressHash) :
    (s.settle number address).votes ⊆ s.votes := by
  have hchange : ∀ authorize, (s.changeSigner number address authorize).votes ⊆ s.votes := by
    intro authorize
    cases authorize
    · simp [changeSigner, discardBy]
    · simp [changeSigner]
  simp only [settle]
  split
  · exact List.Subset.refl _
  split_ifs
  · exact fun v hv => hchange _ (mem_of_mem_filter hv)
  · exact List.Subset.refl _

/-- The tally agrees with the votes, and every standing vote was cast since the last checkpoint. -/
structure Backed (config : PrometheusConfig) (hist : List (Header × Address)) (s : Historysnap) :
    Prop where
  tallyInv : TallyInv s
  cast : ∀ v ∈ s.votes, CastSince config hist v

theorem Backed.polled {authorize : Bool}
    (h : Backed config hist s) (hsigner : signerHash e.2 e.1.random ∈ s.signers)
    (hdir : voteDirection e.1.nonce = .ok authorize) :
    Backed config (hist ++ [e]) (s.polled config (voteOf e.1 e.2 authorize)) := by
  refine ⟨h.tallyInv.polled hsigner, fun v hv => ?_⟩
  rcases mem_polled_votes hv with rfl | ⟨hv, hcheck⟩
  · exact ⟨hist, e, [], authorize, rfl, by simp, hdir, rfl⟩
  · exact (h.cast v hv).append hcheck

theorem Backed.applyVote (h : Backed config hist s) (hstep : s.applyVote config e.1 e.2 = .ok s') :
    Backed config (hist ++ [e]) s' := by
  obtain ⟨hsigner, authorize, hdir, rfl⟩ := applyVote_eq_ok hstep
  have hpolled := h.polled hsigner hdir
  exact ⟨hpolled.tallyInv.settle _ _, fun v hv => hpolled.cast v (settle_votes_subset _ _ _ hv)⟩

/-! ### Changes of the signer set -/

/-- The signer set after the threshold was checked: if more than half of the signers voted about an
identity, its membership is turned over. -/
theorem settle_signers (h : TallyInv s) (number : UInt64) (address : AddressHash) :
    (s.settle number address).signers =
      if s.signers.card / 2 < countAbout s.votes address then
        if address ∈ s.signers then s.signers.erase address else insert address s.signers
      else s.signers := by
  have hlookup := h.ballot.counts address
  by_cases hzero : countAbout s.votes address = 0
  · simp [settle, hlookup, hzero]
  rw [if_neg hzero] at hlookup
  simp only [settle, hlookup]
  split_ifs with hlt hmem
  · simp [discardAbout, changeSigner, direction, hmem]
  · simp [discardAbout, changeSigner, direction, hmem]
  · rfl

theorem TallyInv.exists_voters (h : TallyInv s) (address : AddressHash) :
    ∃ voters ⊆ s.signers, voters.card = countAbout s.votes address ∧
      ∀ x ∈ voters, ∃ v ∈ s.votes, v.addressHash = address ∧
        s.votes.filter (isVote x address) = [v] := by
  let about := s.votes.filter fun v => v.addressHash = address
  have hpairs : (about.map fun v => (v.signer, v.addressHash)).Nodup :=
    h.unique.sublist (filter_sublist.map _)
  have hsigners : (about.map Vote.signer).Nodup := by
    rw [nodup_map_iff_inj_on (hpairs.of_map _)]
    intro v hv w hw hvw
    refine inj_on_of_nodup_map hpairs hv hw ?_
    have hva : v.addressHash = address := by simpa using (mem_filter.1 hv).2
    have hwa : w.addressHash = address := by simpa using (mem_filter.1 hw).2
    rw [hvw, hva, hwa]
  refine ⟨(about.map Vote.signer).toFinset, ?_, ?_, ?_⟩
  · intro x hx
    obtain ⟨v, hv, rfl⟩ := mem_map.1 (mem_toFinset.1 hx)
    exact h.standing v (mem_of_mem_filter hv)
  · rw [toFinset_card_of_nodup hsigners, length_map, countAbout, countP_eq_length_filter]
  intro x hx
  obtain ⟨v, hv, rfl⟩ := mem_map.1 (mem_toFinset.1 hx)
  obtain ⟨hmem, hva⟩ := mem_filter.1 hv
  -- two votes found for one signer would be one entry twice
  have hnodup : (s.votes.filter (isVote v.signer address)).Nodup :=
    (h.unique.of_map _).filter _
  refine ⟨v, hmem, by simpa using hva, perm_singleton.1 ?_⟩
  refine (perm_ext_iff_of_nodup hnodup (nodup_singleton v)).2 fun w => ?_
  rw [mem_filter, mem_singleton]
  constructor
  · rintro ⟨hw, hp⟩
    refine inj_on_of_nodup_map h.unique hw hmem ?_
    simp only [isVote, Bool.and_eq_true, decide_eq_true_eq] at hp hva
    rw [hp.1, hp.2, hva]
  · rintro rfl
    exact ⟨hmem, by simpa [isVote] using hva⟩

section Runs

variable [Crypto] {hist : List (Header × Address)}

theorem Reachable.backed (h : Reachable config hist s) : Backed config hist s :=
  h.invariant (P := Backed config)
    (fun _ _ _ => ⟨TallyInv.of_empty rfl rfl, by simp [newHistorysnap]⟩)
    (fun _ _ _ _ h => ⟨h.tallyInv.congr rfl rfl rfl, h.cast⟩)
    fun _ _ _ _ h hstep => h.applyVote hstep

/-- **Every change of the signer set has a majority of the signers behind it.**  In a run of
`apply` over a reachable snapshot, let `m` be the state after some of the headers and let the next
one change the membership of `a`.  Then more than half of the signers of `m` have exactly one
standing vote about `a` when the threshold is checked, and this vote points in the direction of the
change and was cast by a header since the last checkpoint. -/
theorem signers_change_by_majority {m m' : Historysnap} {headers : List Header} {header : Header}
    {sigcache sigcache' : SigCache} {a : AddressHash} (hr : Reachable config hist s)
    (hloop : s.applyLoop config headers sigcache = (.ok m, sigcache'))
    (hstep : (m.applyHeader config header sigcache').1 = .ok m')
    (hchange : decide (a ∈ m'.signers) ≠ decide (a ∈ m.signers)) :
    ∃ signer authorize, (ecrecover header sigcache').1 = .ok signer ∧
      voteDirection header.nonce = .ok authorize ∧
      ∃ voters ⊆ m.signers, m.signers.card < 2 * voters.card ∧ ∀ x ∈ voters, ∃ v,
        (m.polled config (voteOf header signer authorize)).votes.filter (isVote x a) = [v] ∧
          v.authorize = decide (a ∈ m'.signers) ∧
          CastSince config (hist ++ recovered headers sigcache ++ [(header, signer)]) v := by
  have hm : Backed config (hist ++ recovered headers sigcache) m :=
    applyVotes_invariant (P := Backed config) (fun _ _ _ _ h hstep => h.applyVote hstep)
      (applyLoop_eq_ok (by rw [hloop])).1 hist hr.backed
  obtain ⟨signer, hrec, hvote⟩ := applyHeader_eq_ok hstep
  obtain ⟨hsigner, authorize, hdir, rfl⟩ := applyVote_eq_ok hvote
  have hp : Backed config (hist ++ recovered headers sigcache ++ [(header, signer)])
      (m.polled config (voteOf header signer authorize)) :=
    hm.polled (e := (header, signer)) hsigner hdir
  refine ⟨signer, authorize, hrec, hdir, ?_⟩
  have heq := settle_signers hp.tallyInv header.number64 header.coinbaseHash
  rw [polled_signers] at heq
  by_cases hlt : m.signers.card / 2 <
      countAbout (m.polled config (voteOf header signer authorize)).votes header.coinbaseHash
  · rw [if_pos hlt] at heq
    have ha : a = header.coinbaseHash := by
      by_contra hne
      rw [heq] at hchange
      split_ifs at hchange <;> simp [hne] at hchange
    subst ha
    obtain ⟨voters, hsub, hcard, hvoters⟩ := hp.tallyInv.exists_voters header.coinbaseHash
    refine ⟨voters, by simpa using hsub, by omega, fun x hx => ?_⟩
    obtain ⟨v, hv, hva, hone⟩ := hvoters x hx
    refine ⟨v, hone, ?_, hp.cast v hv⟩
    rw [hp.tallyInv.ballot.directed v hv, hva, direction, polled_signers, heq]
    split_ifs with hmem <;> simp [hmem]
  · rw [heq, if_neg hlt] at hchange
    exact absurd rfl hchange

end Runs

open scoped Sample in
/-- The only signer adds somebody else: one vote of one signer is a majority. -/
theorem signers_change_by_majority_addOutsider : Sample.outsiderHash ∉ Sample.oneSigner.signers ∧
      Sample.outsiderHash ∈ Sample.outsiderAdded.signers ∧ ∃ signer authorize,
        (ecrecover Sample.addOutsider Sample.noSignatures).1 = .ok signer ∧
        voteDirection Sample.addOutsider.nonce = .ok authorize ∧
        ∃ voters ⊆ Sample.oneSigner.signers,
          Sample.oneSigner.signers.card < 2 * voters.card ∧ ∀ x ∈ voters, ∃ v,
            (Sample.oneSigner.polled Sample.config
                (voteOf Sample.addOutsider signer authorize)).votes.filter
              (isVote x Sample.outsiderHash) = [v] ∧
            v.authorize = decide (Sample.outsiderHash ∈ Sample.outsiderAdded.signers) ∧
            CastSince Sample.config ([] ++ recovered [] Sample.noSignatures ++
              [(Sample.addOutsider, signer)]) v := by
  have hbefore : Sample.outsiderHash ∉ Sample.oneSigner.signers := by decide
  have hafter : Sample.outsiderHash ∈ Sample.outsiderAdded.signers := by decide
  have hstep : (Sample.oneSigner.applyHeader Sample.config Sample.addOutsider
      Sample.noSignatures).1 = .ok Sample.outsiderAdded := by decide +kernel
  refine ⟨hbefore, hafter, ?_⟩
  have hnew : Reachable Sample.config [] Sample.oneSigner := .new _ _ _
  have hloop : Sample.oneSigner.applyLoop Sample.config [] Sample.noSignatures =
      (.ok Sample.oneSigner, Sample.noSignatures) := rfl
  exact signers_change_by_majority hnew hloop hstep (by simp [hbefore, hafter])

end Historysnap
