/-
**The tally agrees with the votes.**

A snapshot keeps its pending votes twice: as the chronological list `votes`, and as the counts
`tally` that are compared with the threshold.  `apply` updates the two in five places — when an
earlier vote is replaced, when a vote is cast, at a checkpoint, when a signer is dropped and when
an identity has changed its membership — and nowhere recomputes one from the other.  Here the two
are shown to agree in every reachable snapshot.

The counts are described by a function: `Tallies.Counts t dir n` says that `t` has the count `n b`
in the direction `dir b` for every identity `b`, and no entry where the count is zero.  Casting,
uncasting and deleting update `n` at one identity.

Main results:

* `Historysnap.Reachable.tallyInv` — **it holds of every reachable snapshot**.
-/

import GoHpb.CryptoTable

open List Function

/-! ### Counts -/

namespace Tallies

/-- The tally has the count `n b` in the direction `dir b`, and no entry where it is zero. -/
def Counts (t : Tallies) (dir : AddressHash → Bool) (n : AddressHash → ℕ) : Prop :=
  ∀ b, t.lookup b = if n b = 0 then none else some { authorize := dir b, votes := n b }

variable {t : Tallies} {dir : AddressHash → Bool} {n : AddressHash → ℕ} {a : AddressHash}

theorem Counts.congr {dir' : AddressHash → Bool} {n' : AddressHash → ℕ} (h : t.Counts dir n)
    (hn : ∀ b, n b = n' b) (hdir : ∀ b, n b ≠ 0 → dir b = dir' b) : t.Counts dir' n' := by
  intro b
  rw [h b, ← hn b]
  split_ifs with hb
  · rfl
  · rw [hdir b hb]

variable (h : t.Counts dir n)
include h

theorem Counts.insert {k : ℕ} (hk : k ≠ 0) :
    Counts (t.insert a { authorize := dir a, votes := k }) dir (update n a k) := by
  intro b
  by_cases hb : b = a
  · subst hb
    simp [Finmap.lookup_insert, hk]
  · rw [Finmap.lookup_insert_of_ne _ hb, update_of_ne hb, h b]

theorem Counts.erase : Counts (t.erase a) dir (update n a 0) := by
  intro b
  by_cases hb : b = a
  · subst hb
    simp [Finmap.lookup_erase]
  · rw [Finmap.lookup_erase_ne hb, update_of_ne hb, h b]

theorem Counts.increment :
    (t.increment a (dir a)).Counts dir (update n a (n a + 1)) := by
  by_cases ha : n a = 0
  · simp only [Tallies.increment, h a, ha, if_true]
    exact h.insert (by omega)
  · simp only [Tallies.increment, h a, ha, if_false]
    exact h.insert (by omega)

theorem Counts.decrement (ha : n a ≠ 0) :
    (t.decrement a (dir a)).2.Counts dir (update n a (n a - 1)) := by
  simp only [Tallies.decrement, h a, ha, if_false, ne_eq, not_true_eq_false]
  split_ifs with h1
  · exact h.insert (by omega)
  have hone : n a - 1 = 0 := by omega
  rw [hone]
  exact h.erase

omit h

end Tallies

/-- The number of votes about an identity. -/
def countAbout (votes : List Vote) (b : AddressHash) : ℕ :=
  votes.countP fun v => v.addressHash = b

theorem countAbout_append (l₁ l₂ : List Vote) (b : AddressHash) :
    countAbout (l₁ ++ l₂) b = countAbout l₁ b + countAbout l₂ b := countP_append

theorem countAbout_cons (v : Vote) (l : List Vote) (b : AddressHash) :
    countAbout (v :: l) b = countAbout l b + if v.addressHash = b then 1 else 0 := by
  simp [countAbout, countP_cons]

theorem countAbout_ne_zero {votes : List Vote} {b : AddressHash} :
    countAbout votes b ≠ 0 ↔ ∃ v ∈ votes, v.addressHash = b := by
  rw [← Nat.pos_iff_ne_zero, countAbout, countP_pos_iff]
  simp

theorem countAbout_filter_add (p : Vote → Bool) (votes : List Vote) (b : AddressHash) :
    countAbout (votes.filter p) b + countAbout (votes.filter fun v => !p v) b =
      countAbout votes b := by
  induction votes with
  | nil => rfl
  | cons v votes ih =>
    cases hp : p v <;> simp only [filter_cons, hp, Bool.not_true, Bool.not_false, if_true,
      Bool.false_eq_true, if_false, countAbout_cons] <;> omega

theorem countAbout_filter_ne (votes : List Vote) (a b : AddressHash) :
    countAbout (votes.filter fun v => v.addressHash ≠ a) b =
      update (countAbout votes) a 0 b := by
  by_cases hb : b = a
  · subst hb
    rw [update_self, ← not_ne_iff, countAbout_ne_zero]
    rintro ⟨v, hv, rfl⟩
    simp at hv
  · rw [update_of_ne hb, countAbout, countAbout, countP_filter]
    refine countP_congr fun v _ => ?_
    by_cases hv : v.addressHash = b <;> simp [hv, hb]

/-! ### Votes and tally -/

/-- The votes all point in the directions `dir`, and the tally counts them. -/
structure Ballot (votes : List Vote) (tally : Tallies) (dir : AddressHash → Bool) : Prop where
  counts : tally.Counts dir (countAbout votes)
  directed : ∀ v ∈ votes, v.authorize = dir v.addressHash

namespace Ballot

variable {votes : List Vote} {tally : Tallies} {dir : AddressHash → Bool}

theorem empty (dir : AddressHash → Bool) : Ballot [] ∅ dir :=
  ⟨fun _ => by simp [countAbout], by simp⟩

theorem add (h : Ballot votes tally dir) {v : Vote} (hv : v.authorize = dir v.addressHash) :
    Ballot (votes ++ [v]) (tally.increment v.addressHash v.authorize) dir := by
  refine ⟨?_, ?_⟩
  · rw [hv]
    refine h.counts.increment.congr (fun b => ?_) fun _ _ => rfl
    by_cases hb : b = v.addressHash
    · subst hb
      simp [countAbout]
    · simp [hb, Ne.symm hb, countAbout]
  · intro w hw
    rcases mem_append.1 hw with hw | hw
    · exact h.directed w hw
    · rw [mem_singleton.1 hw, hv]

theorem remove {l₁ l₂ : List Vote} {v : Vote} (h : Ballot (l₁ ++ v :: l₂) tally dir) :
    Ballot (l₁ ++ l₂) (tally.decrement v.addressHash v.authorize).2 dir := by
  have hmem : v ∈ l₁ ++ v :: l₂ := by simp
  refine ⟨?_, fun w hw => h.directed w ?_⟩
  · rw [h.directed v hmem]
    refine (h.counts.decrement (countAbout_ne_zero.2 ⟨v, hmem, rfl⟩)).congr
      (fun b => ?_) fun _ _ => rfl
    rw [update_apply]
    split_ifs with hb
    · subst hb
      simp only [countAbout_append, countAbout_cons, if_true]
      omega
    · simp [countAbout_append, countAbout_cons, Ne.symm hb]
  · rcases mem_append.1 hw with hw | hw <;> simp [hw]

variable {s : Historysnap}

theorem counts_foldl {n : AddressHash → ℕ} {l : List Vote} (h : s.tally.Counts dir n)
    (hl : ∀ v ∈ l, v.authorize = dir v.addressHash) (hle : ∀ b, countAbout l b ≤ n b) :
    (l.foldl (fun s v => (s.uncast v.addressHash v.authorize).2) s).tally.Counts dir
      fun b => n b - countAbout l b := by
  induction l generalizing s n with
  | nil => exact h
  | cons v l ih =>
    have hself := hle v.addressHash
    rw [countAbout_cons, if_pos rfl] at hself
    have hdec : (s.uncast v.addressHash v.authorize).2.tally.Counts dir
        (update n v.addressHash (n v.addressHash - 1)) := by
      rw [hl v (by simp)]
      exact h.decrement (by omega)
    have hval : ∀ b, update n v.addressHash (n v.addressHash - 1) b =
        n b - if v.addressHash = b then 1 else 0 := by
      intro b
      by_cases hb : b = v.addressHash
      · subst hb
        simp
      · simp [hb, Ne.symm hb]
    refine (ih hdec (fun w hw => hl w (by simp [hw])) fun b => ?_).congr (fun b => ?_)
      fun _ _ => rfl
    · have := hle b
      rw [countAbout_cons] at this
      rw [hval]
      omega
    · rw [hval, countAbout_cons]
      omega

theorem discardBy (h : Ballot s.votes s.tally dir) (a : AddressHash) :
    Ballot (s.discardBy a).votes (s.discardBy a).tally dir := by
  have hsplit := countAbout_filter_add (fun v => decide (v.signer = a)) s.votes
  refine ⟨?_, fun v hv => h.directed v (mem_of_mem_filter hv)⟩
  refine (counts_foldl h.counts (fun v hv => h.directed v (mem_of_mem_filter hv))
    fun b => ?_).congr (fun b => ?_) fun _ _ => rfl
  · have := hsplit b
    omega
  have := hsplit b
  simp only [Historysnap.discardBy, decide_not, ne_eq]
  omega

theorem discardAbout (h : Ballot s.votes s.tally dir) {a : AddressHash}
    {dir' : AddressHash → Bool} (hdir : ∀ b, b ≠ a → dir b = dir' b) :
    Ballot (s.discardAbout a).votes (s.discardAbout a).tally dir' := by
  refine ⟨h.counts.erase.congr (fun b => (countAbout_filter_ne s.votes a b).symm) ?_, ?_⟩
  · intro b hb
    refine hdir b fun hba => ?_
    rw [hba, update_self] at hb
    exact hb rfl
  · intro v hv
    obtain ⟨hmem, hne⟩ := mem_filter.1 hv
    rw [h.directed v hmem]
    exact hdir _ (by simpa using hne)

end Ballot

namespace Historysnap

/-! ### What the steps leave alone -/

section Frame

variable {config : PrometheusConfig} {s : Historysnap} {number : UInt64} {address : AddressHash}

@[simp] theorem forgetRecent_signers : (s.forgetRecent number).signers = s.signers := by
  simp only [forgetRecent]
  split_ifs <;> rfl

@[simp] theorem forgetRecent_votes : (s.forgetRecent number).votes = s.votes := by
  simp only [forgetRecent]
  split_ifs <;> rfl

@[simp] theorem forgetRecent_tally : (s.forgetRecent number).tally = s.tally := by
  simp only [forgetRecent]
  split_ifs <;> rfl

@[simp] theorem startHeader_signers : (s.startHeader config number).signers = s.signers := by
  simp only [startHeader, forgetRecent_signers]
  split_ifs <;> rfl

theorem startHeader_votes :
    (s.startHeader config number).votes = if config.checkpoint number then [] else s.votes := by
  simp only [startHeader, forgetRecent_votes]
  split_ifs <;> rfl

theorem startHeader_tally :
    (s.startHeader config number).tally = if config.checkpoint number then ∅ else s.tally := by
  simp only [startHeader, forgetRecent_tally]
  split_ifs <;> rfl

@[simp] theorem discardPrevious_signers (signerHash : AddressHash) :
    (s.discardPrevious signerHash address).signers = s.signers := by
  simp only [discardPrevious]
  split <;> rfl

theorem castVote_eq (vote : Vote) : s.castVote vote =
      if s.validVote vote.addressHash vote.authorize then
        { s with votes := s.votes ++ [vote],
                 tally := s.tally.increment vote.addressHash vote.authorize }
      else s := by
  simp only [castVote, cast]
  split_ifs <;> simp_all

@[simp] theorem castVote_signers (vote : Vote) : (s.castVote vote).signers = s.signers := by
  rw [castVote_eq]
  split_ifs <;> rfl

@[simp] theorem polled_signers (vote : Vote) : (s.polled config vote).signers = s.signers := by
  simp [polled]

theorem foldl_uncast_signers (l : List Vote) (s : Historysnap) :
    (l.foldl (fun s v => (s.uncast v.addressHash v.authorize).2) s).signers = s.signers := by
  induction l generalizing s with
  | nil => rfl
  | cons v l ih => exact ih _

@[simp] theorem discardBy_signers : (s.discardBy address).signers = s.signers :=
  foldl_uncast_signers _ _

theorem discardPrevious_votes (signerHash : AddressHash) :
    (s.discardPrevious signerHash address).votes = s.votes.eraseP (isVote signerHash address) := by
  simp only [discardPrevious]
  cases hf : s.votes.find? (isVote signerHash address) with
  | some v => rfl
  | none => exact (eraseP_of_forall_not (by simpa using hf)).symm

end Frame

/-! ### The invariant -/

/-- The direction a vote about an identity must have: towards changing its membership. -/
def direction (s : Historysnap) (b : AddressHash) : Bool := b ∉ s.signers

/-- The tally counts the votes, all votes point towards a change, no signer has two votes about
one identity, and every voter is a signer. -/
structure TallyInv (s : Historysnap) : Prop where
  ballot : Ballot s.votes s.tally s.direction
  unique : (s.votes.map fun v => (v.signer, v.addressHash)).Nodup
  standing : ∀ v ∈ s.votes, v.signer ∈ s.signers

namespace TallyInv

variable {config : PrometheusConfig} {s t : Historysnap}

theorem congr (h : TallyInv s) (hsigners : t.signers = s.signers) (hvotes : t.votes = s.votes)
    (htally : t.tally = s.tally) : TallyInv t := by
  have hdir : t.direction = s.direction := by
    funext b
    rw [direction, direction, hsigners]
  exact ⟨by rw [hvotes, htally, hdir]; exact h.ballot, by rw [hvotes]; exact h.unique,
    by rw [hvotes, hsigners]; exact h.standing⟩

theorem of_empty (hvotes : s.votes = []) (htally : s.tally = ∅) : TallyInv s :=
  ⟨by rw [hvotes, htally]; exact Ballot.empty _, by simp [hvotes], by simp [hvotes]⟩

variable (h : TallyInv s)
include h

theorem startHeader (number : UInt64) :
    TallyInv (s.startHeader config number) := by
  by_cases hc : config.checkpoint number
  · exact of_empty (by simp [startHeader_votes, hc]) (by simp [startHeader_tally, hc])
  · exact h.congr startHeader_signers (by simp [startHeader_votes, hc])
      (by simp [startHeader_tally, hc])

theorem discardPrevious (signerHash address : AddressHash) :
    TallyInv (s.discardPrevious signerHash address) := by
  have hsub : ((s.discardPrevious signerHash address).votes).Sublist s.votes := by
    rw [discardPrevious_votes]
    exact eraseP_sublist
  refine ⟨?_, h.unique.sublist (hsub.map _), fun v hv => ?_⟩
  · simp only [Historysnap.discardPrevious]
    cases hf : s.votes.find? (isVote signerHash address) with
    | none => exact h.ballot
    | some v =>
      obtain ⟨hv, l₁, l₂, hsplit, hl₁⟩ := find?_eq_some_iff_append.1 hf
      have herase : s.votes.eraseP (isVote signerHash address) = l₁ ++ l₂ := by
        rw [hsplit, eraseP_append_right _ (by simpa using hl₁), eraseP_cons_of_pos hv]
      have hballot := h.ballot
      rw [hsplit] at hballot
      simp only [herase]
      exact hballot.remove
  · simpa using h.standing v (hsub.subset hv)

theorem not_isVote_discardPrevious {signerHash address : AddressHash} :
    ∀ v ∈ (s.discardPrevious signerHash address).votes, ¬ isVote signerHash address v := by
  intro v hv hp
  rw [discardPrevious_votes] at hv
  obtain ⟨w, l₁, l₂, hl₁, hw, hsplit, herase⟩ :=
    exists_of_eraseP (mem_of_mem_eraseP hv) hp
  rw [herase] at hv
  have hunique := h.unique
  rw [hsplit, map_append, map_cons, nodup_middle, nodup_cons] at hunique
  refine hunique.1 ?_
  have hpair : (w.signer, w.addressHash) = (v.signer, v.addressHash) := by
    simp only [isVote, Bool.and_eq_true, decide_eq_true_eq] at hp hw
    rw [hp.1, hp.2, hw.1, hw.2]
  rw [hpair, ← map_append]
  exact mem_map_of_mem hv

theorem castVote {vote : Vote} (hsigner : vote.signer ∈ s.signers)
    (hfresh : ∀ v ∈ s.votes, ¬ isVote vote.signer vote.addressHash v) :
    TallyInv (s.castVote vote) := by
  rw [castVote_eq]
  split_ifs with hvalid
  · refine ⟨h.ballot.add (validVote_eq_true.1 hvalid), ?_, ?_⟩
    · rw [map_append, nodup_append_comm, map_cons, map_nil, singleton_append, nodup_cons]
      refine ⟨fun hmem => ?_, h.unique⟩
      obtain ⟨v, hv, hpair⟩ := mem_map.1 hmem
      rw [Prod.mk.injEq] at hpair
      exact hfresh v hv (by simp [isVote, hpair.1, hpair.2])
    · intro v hv
      rcases mem_append.1 hv with hv | hv
      · exact h.standing v hv
      · rw [mem_singleton.1 hv]
        exact hsigner
  · exact h

theorem polled {vote : Vote} (hsigner : vote.signer ∈ s.signers) :
    TallyInv (s.polled config vote) := by
  have hstart : TallyInv { s.startHeader config vote.block with
      recents := (s.startHeader config vote.block).recents.insert vote.block vote.signer } :=
    (h.startHeader vote.block).congr rfl rfl rfl
  exact (hstart.discardPrevious _ _).castVote (by simpa using hsigner)
    hstart.not_isVote_discardPrevious

theorem changeSigner (number : UInt64) (address : AddressHash) (authorize : Bool) :
    TallyInv ((s.changeSigner number address authorize).discardAbout address) := by
  -- the membership of the other identities does not change
  have hdir : ∀ b, b ≠ address → s.direction b =
      ((s.changeSigner number address authorize).discardAbout address).direction b := fun b hb => by
    cases authorize <;> simp [Historysnap.changeSigner, discardAbout, direction, hb]
  cases authorize with
  | true =>
    refine ⟨h.ballot.discardAbout hdir, h.unique.sublist (filter_sublist.map _), ?_⟩
    intro v hv
    exact Finset.mem_insert_of_mem (h.standing v (mem_of_mem_filter hv))
  | false =>
    let t := ({ s with signers := s.signers.erase address } : Historysnap).forgetRecent number
    have hballot : Ballot t.votes t.tally s.direction := by
      rw [forgetRecent_votes, forgetRecent_tally]
      exact h.ballot
    refine ⟨(hballot.discardBy address).discardAbout hdir, ?_, ?_⟩
    · refine h.unique.sublist (List.Sublist.map _ ?_)
      refine filter_sublist.trans ?_
      simp only [Historysnap.changeSigner, Bool.false_eq_true, if_false, Historysnap.discardBy,
        forgetRecent_votes]
      exact filter_sublist
    intro v hv
    have hby := mem_of_mem_filter hv
    simp only [Historysnap.changeSigner, Bool.false_eq_true, if_false, Historysnap.discardBy,
      forgetRecent_votes] at hby
    obtain ⟨hmem, hne⟩ := mem_filter.1 hby
    have hsigner := h.standing v hmem
    simp only [Historysnap.discardAbout, Historysnap.changeSigner, Bool.false_eq_true, if_false,
      discardBy_signers, forgetRecent_signers]
    exact Finset.mem_erase.2 ⟨by simpa using hne, hsigner⟩

theorem settle (number : UInt64) (address : AddressHash) :
    TallyInv (s.settle number address) := by
  simp only [Historysnap.settle]
  split
  · exact h
  split_ifs
  · exact h.changeSigner number address _
  · exact h

/-- **Every header keeps the invariant.** -/
theorem applyVote {s' : Historysnap} {header : Header} {signer : Address}
    (hstep : s.applyVote config header signer = .ok s') : TallyInv s' := by
  obtain ⟨hsigner, authorize, -, rfl⟩ := applyVote_eq_ok hstep
  exact (h.polled hsigner).settle _ _

omit h

end TallyInv

section Runs

variable [Crypto] {config : PrometheusConfig} {s : Historysnap}

/-- **The tally agrees with the votes in every reachable snapshot.** -/
theorem Reachable.tallyInv {hist : List (Header × Address)} (h : Reachable config hist s) :
    TallyInv s :=
  h.invariant (P := fun _ s => TallyInv s) (fun _ _ _ => TallyInv.of_empty rfl rfl)
    (fun _ _ _ _ h => h.congr rfl rfl rfl) fun _ _ _ _ h hstep => h.applyVote hstep

/-- In every reachable snapshot an identity has a count exactly when somebody votes about it; the
count is the number of these votes, and they all point towards changing its membership.  No signer
has two votes about one identity, and every voter is a signer. -/
theorem tally_agrees_with_votes {hist : List (Header × Address)} (h : Reachable config hist s) :
    (∀ a, ((s.tally.lookup a).isSome ↔ ∃ v ∈ s.votes, v.addressHash = a) ∧
      ∀ tally, s.tally.lookup a = some tally →
        tally.votes = (s.votes.filter fun v => v.addressHash = a).length ∧
        tally.authorize = decide (a ∉ s.signers) ∧
        ∀ v ∈ s.votes, v.addressHash = a → v.authorize = tally.authorize) ∧
    (s.votes.map fun v => (v.signer, v.addressHash)).Nodup ∧
    ∀ v ∈ s.votes, v.signer ∈ s.signers := by
  have hinv := h.tallyInv
  refine ⟨fun a => ⟨?_, fun tally htally => ?_⟩, hinv.unique, hinv.standing⟩
  · rw [hinv.ballot.counts a, ← countAbout_ne_zero]
    by_cases hzero : countAbout s.votes a = 0 <;> simp [hzero]
  rw [hinv.ballot.counts a] at htally
  split_ifs at htally
  cases htally
  refine ⟨countP_eq_length_filter, rfl, fun v hv hva => ?_⟩
  rw [hinv.ballot.directed v hv, hva]

end Runs

open Sample in
/-- A snapshot with a standing vote: of two signers, one has voted against itself. -/
theorem tally_agrees_with_votes_onePending :
    ∃ hist, Reachable config hist onePending ∧
      (∀ a, ((onePending.tally.lookup a).isSome ↔
          ∃ v ∈ onePending.votes, v.addressHash = a) ∧
        ∀ tally, onePending.tally.lookup a = some tally →
          tally.votes = (onePending.votes.filter fun v => v.addressHash = a).length ∧
          tally.authorize = decide (a ∉ onePending.signers) ∧
          ∀ v ∈ onePending.votes, v.addressHash = a → v.authorize = tally.authorize) ∧
      (onePending.votes.map fun v => (v.signer, v.addressHash)).Nodup ∧
      ∀ v ∈ onePending.votes, v.signer ∈ onePending.signers := by
  have happly : (twoSigners.apply config [dropMember]
      noSignatures).1 = .ok onePending := by decide +kernel
  have hnew : Reachable config [] twoSigners := .new _ _ _
  have hreach := hnew.apply happly
  exact ⟨_, hreach, tally_agrees_with_votes hreach⟩

end Historysnap
