/-
**Replaying headers one at a time.**

`Historysnap.apply` checks the numbers of a whole list of headers, runs through it with the
signature cache, and sets the number and the hash of the result at the end.  Here the same thing is
described header by header and without the cache: `Historysnap.stepHeader` processes one header and
moves on to its number and its hash.  On a list whose numbers follow each other, `apply` is the
iteration of `stepHeader`.  A run may therefore be cut anywhere, which is what makes it possible to
continue from a snapshot that was found somewhere.

The signature cache is sound for a set of headers if what it has for the hash of one of them is the
account that signed it.  No two headers of the set may have the same hash for that to be kept.

Main results:

* `ecrecover_sound`, `Historysnap.applyLoop_sound` — **a sound cache makes no difference**;
* `Historysnap.apply_eq_foldlM` — **`apply` is the iteration of `stepHeader`**.
-/

import GoHpb.Historysnap
import GoHpb.FailState

open FailState List

namespace Historysnap

variable {config : PrometheusConfig} {s s' : Historysnap} {header : Header} {headers : List Header}

/-! ### The votes do not depend on the number and the hash -/

/-- A snapshot with another number and hash. -/
def withHead (s : Historysnap) (number : UInt64) (hash : Hash) : Historysnap :=
  { s with number := number, hash := hash }

section WithHead

variable (s) (number : UInt64) (hash : Hash)

theorem withHead_self : s.withHead s.number s.hash = s := rfl

theorem forgetRecent_withHead (k : UInt64) :
    (s.withHead number hash).forgetRecent k = (s.forgetRecent k).withHead number hash := by
  have hlimit : (s.withHead number hash).limit = s.limit := rfl
  simp only [forgetRecent, hlimit]
  split_ifs <;> rfl

theorem startHeader_withHead (k : UInt64) : (s.withHead number hash).startHeader config k =
      (s.startHeader config k).withHead number hash := by
  simp only [startHeader]
  split_ifs
  · exact forgetRecent_withHead { s with votes := [], tally := ∅ } number hash k
  · exact forgetRecent_withHead s number hash k

theorem discardPrevious_withHead (signerHash address : AddressHash) :
    (s.withHead number hash).discardPrevious signerHash address =
      (s.discardPrevious signerHash address).withHead number hash := by
  simp only [discardPrevious, withHead]
  cases s.votes.find? (isVote signerHash address) <;> rfl

theorem castVote_withHead (vote : Vote) :
    (s.withHead number hash).castVote vote = (s.castVote vote).withHead number hash := by
  have hvalid : (s.withHead number hash).validVote vote.addressHash vote.authorize =
    s.validVote vote.addressHash vote.authorize := rfl
  simp only [castVote, cast, hvalid]
  split_ifs <;> rfl

theorem foldl_uncast_withHead (votes : List Vote) :
    votes.foldl (fun s v => (s.uncast v.addressHash v.authorize).2) (s.withHead number hash) =
      (votes.foldl (fun s v => (s.uncast v.addressHash v.authorize).2) s).withHead number hash := by
  induction votes generalizing s with
  | nil => rfl
  | cons v votes ih => exact ih (s.uncast v.addressHash v.authorize).2

theorem discardBy_withHead (address : AddressHash) : (s.withHead number hash).discardBy address =
      (s.discardBy address).withHead number hash := by
  have hvotes : (s.withHead number hash).votes = s.votes := rfl
  simp only [discardBy, hvotes, foldl_uncast_withHead]
  rfl

theorem changeSigner_withHead (k : UInt64) (address : AddressHash) (authorize : Bool) :
    (s.withHead number hash).changeSigner k address authorize =
      (s.changeSigner k address authorize).withHead number hash := by
  cases authorize with
  | true => rfl
  | false =>
    have hforget := forgetRecent_withHead { s with signers := s.signers.erase address }
      number hash k
    have hdiscard := discardBy_withHead
      (({ s with signers := s.signers.erase address } : Historysnap).forgetRecent k)
      number hash address
    rw [← hforget] at hdiscard
    exact hdiscard

theorem settle_withHead (k : UInt64) (address : AddressHash) :
    (s.withHead number hash).settle k address = (s.settle k address).withHead number hash := by
  have htally : (s.withHead number hash).tally = s.tally := rfl
  have hsigners : (s.withHead number hash).signers = s.signers := rfl
  simp only [settle, htally, hsigners, changeSigner_withHead]
  cases s.tally.lookup address with
  | none => rfl
  | some tally =>
    simp only
    split_ifs <;> rfl

theorem polled_withHead (vote : Vote) : (s.withHead number hash).polled config vote =
      (s.polled config vote).withHead number hash := by
  simp only [polled, startHeader_withHead]
  rw [← castVote_withHead, ← discardPrevious_withHead]
  rfl

/-- **The votes do not depend on the number and the hash**, and leave them alone. -/
theorem applyVote_withHead (header : Header) (signer : Address) :
    (s.withHead number hash).applyVote config header signer =
      (s.applyVote config header signer).map fun m => m.withHead number hash := by
  have hsigners : (s.withHead number hash).signers = s.signers := rfl
  simp only [applyVote, hsigners, polled_withHead, settle_withHead]
  split_ifs with hmem
  · cases voteDirection header.nonce <;> rfl
  · rfl

end WithHead

theorem applyVote_number_hash {signer : Address} (h : s.applyVote config header signer = .ok s') :
    s'.number = s.number ∧ s'.hash = s.hash := by
  have hself : s.applyVote config header signer =
      (s.applyVote config header signer).map fun m => m.withHead s.number s.hash :=
    applyVote_withHead s s.number s.hash header signer
  rw [h] at hself
  rw [Except.ok.inj hself]
  exact ⟨rfl, rfl⟩

end Historysnap

/-! ### The signature cache -/

section Cache

variable [Crypto] {U : Set Header} {sigcache : SigCache} {header : Header}

/-- What the cache has for the hash of a header in the set is the account that signed it. -/
def SigCache.Sound (U : Set Header) (sigcache : SigCache) : Prop :=
  sigcache.All fun hash signer =>
    ∀ header ∈ U, header.hash = hash → recoverSigner header = .ok signer

/-- **A sound cache makes no difference**, and it stays sound. -/
theorem ecrecover_sound (hU : Set.InjOn Header.hash U) (hc : SigCache.Sound U sigcache)
    (hheader : header ∈ U) : (ecrecover header sigcache).1 = recoverSigner header ∧
      SigCache.Sound U (ecrecover header sigcache).2 := by
  have hget : SigCache.Sound U (sigcache.get header.hash).2 := Arc.all_get hc _
  rw [ecrecover]
  rcases hfound : sigcache.get header.hash with ⟨_ | address, c⟩
  · rw [hfound] at hget
    cases hrec : recoverSigner header with
    | error e => exact ⟨rfl, hget⟩
    | ok signer =>
      refine ⟨rfl, Arc.all_add hget ?_⟩
      -- the only header with this hash is the one just recovered
      intro other hother hhash
      rw [hU hother hheader hhash]
      exact hrec
  · rw [hfound] at hget
    have hfst : (sigcache.get header.hash).1 = some address := by rw [hfound]
    exact ⟨(Arc.get_all hc hfst header hheader rfl).symm, hget⟩

end Cache

namespace Historysnap

/-! ### One header -/

variable [Crypto] {config : PrometheusConfig} {s s' : Historysnap} {header : Header}
  {headers : List Header} {U : Set Header} {sigcache : SigCache}

/-- The vote of a header, whose sealer is recovered without the cache. -/
def voteHeader (config : PrometheusConfig) (s : Historysnap) (header : Header) :
    Except Err Historysnap :=
  recoverSigner header >>= s.applyVote config header

/-- One header: its vote is applied, and the snapshot moves on to its number and its hash. -/
def stepHeader (config : PrometheusConfig) (s : Historysnap) (header : Header) :
    Except Err Historysnap :=
  (s.voteHeader config header).map fun m => m.withHead (s.number + 1) header.hash

theorem stepHeader_eq_ok (h : s.stepHeader config header = .ok s') :
    s'.number = s.number + 1 ∧ s'.hash = header.hash := by
  rw [stepHeader] at h
  cases hvote : s.voteHeader config header with
  | error e =>
    rw [hvote] at h
    cases h
  | ok m =>
    rw [hvote] at h
    cases h
    exact ⟨rfl, rfl⟩

theorem voteHeader_withHead (number : UInt64) (hash : Hash) :
    (s.withHead number hash).voteHeader config header =
      (s.voteHeader config header).map fun m => m.withHead number hash := by
  rw [voteHeader, voteHeader]
  cases recoverSigner header with
  | error e => rfl
  | ok signer => exact applyVote_withHead s number hash header signer

theorem foldlM_stepHeader (number : UInt64) (hash : Hash) :
    headers.foldlM (stepHeader config) (s.withHead number hash) =
      (headers.foldlM (voteHeader config) s).map fun m =>
        m.withHead (number + .ofNat headers.length)
          ((headers.map Header.hash).getLastD hash) := by
  induction headers generalizing s number hash with
  | nil =>
    change Except.ok (s.withHead number hash) = Except.ok (s.withHead (number + 0) hash)
    rw [UInt64.add_zero]
  | cons header headers ih =>
    rw [foldlM_cons, foldlM_cons, stepHeader, voteHeader_withHead]
    cases s.voteHeader config header with
    | error e => rfl
    | ok m =>
      change headers.foldlM (stepHeader config) (m.withHead (number + 1) header.hash) = _
      rw [ih]
      have hlength : number + 1 + .ofNat headers.length =
          number + .ofNat (header :: headers).length := by
        rw [length_cons, UInt64.ofNat_add, UInt64.add_comm (.ofNat headers.length),
          UInt64.add_assoc]
        rfl
      rw [hlength, map_cons, getLastD_cons]
      rfl

/-! ### The loop -/

variable (hU : Set.InjOn Header.hash U) (hc : SigCache.Sound U sigcache)
include hU hc

/-- **A sound cache makes no difference to the loop.** -/
theorem applyLoop_sound
    (hheaders : ∀ h ∈ headers, h ∈ U) :
    (s.applyLoop config headers sigcache).1 = headers.foldlM (voteHeader config) s ∧
      SigCache.Sound U (s.applyLoop config headers sigcache).2 := by
  induction headers generalizing s sigcache with
  | nil => exact ⟨rfl, hc⟩
  | cons header headers ih =>
    obtain ⟨hhead, htail⟩ := forall_mem_cons.1 hheaders
    obtain ⟨hrec, hsound⟩ := ecrecover_sound hU hc hhead
    rw [foldlM_cons, voteHeader, ← hrec]
    simp only [applyLoop, applyHeader]
    rcases hfound : ecrecover header sigcache with ⟨e | signer, c⟩
    · rw [hfound] at hsound
      exact ⟨rfl, hsound⟩
    rw [hfound] at hsound
    simp only
    cases hvote : s.applyVote config header signer with
    | error e =>
      refine ⟨?_, hsound⟩
      change _ = (s.applyVote config header signer >>= _)
      rw [hvote]
      rfl
    | ok m =>
      obtain ⟨hfst, hsnd⟩ := @ih m c hsound htail
      refine ⟨?_, hsnd⟩
      change _ = (s.applyVote config header signer >>= _)
      rw [hvote]
      exact hfst

theorem apply_sound
    (hheaders : ∀ h ∈ headers, h ∈ U) : SigCache.Sound U (s.apply config headers sigcache).2 := by
  cases headers with
  | nil => exact hc
  | cons header rest =>
    have hloop : SigCache.Sound U (s.applyLoop config (header :: rest) sigcache).2 :=
      (applyLoop_sound hU hc hheaders).2
    simp only [apply]
    split_ifs
    · exact hc
    · rcases hm : s.applyLoop config (header :: rest) sigcache with ⟨e | m, c⟩ <;>
        rw [hm] at hloop <;> exact hloop
    · exact hc

/-- **`apply` is the iteration of `stepHeader`** on headers whose numbers follow each other. -/
theorem apply_eq_foldlM
    (hheaders : ∀ h ∈ headers, h ∈ U) (hcont : contiguous headers = true)
    (hfirst : ∀ h ∈ headers.head?, h.number64 = s.number + 1) :
    (s.apply config headers sigcache).1 = headers.foldlM (stepHeader config) s := by
  cases headers with
  | nil => rfl
  | cons header rest =>
    have hloop : (s.applyLoop config (header :: rest) sigcache).1 =
        (header :: rest).foldlM (voteHeader config) s :=
      (applyLoop_sound hU hc hheaders).1
    have hfold : (header :: rest).foldlM (stepHeader config) s =
        ((header :: rest).foldlM (voteHeader config) s).map fun m =>
          m.withHead (s.number + .ofNat (header :: rest).length)
            (((header :: rest).map Header.hash).getLastD s.hash) :=
      foldlM_stepHeader s.number s.hash
    have hnumber : header.number64 = s.number + 1 := hfirst header rfl
    rw [hfold, ← hloop]
    simp only [apply, hcont, not_true_eq_false, if_false, hnumber, ne_eq]
    rcases hm : s.applyLoop config (header :: rest) sigcache with ⟨e | m, c⟩
    · rfl
    -- the loop has not touched the number
    have hkept : m.number = s.number :=
      applyVotes_invariant (P := fun _ t => t.number = s.number)
        (fun _ _ _ _ hP hvote => (applyVote_number_hash hvote).1.trans hP)
        (applyLoop_eq_ok (by rw [hm])).1 [] rfl
    have hlast : ((header :: rest).map Header.hash).getLastD s.hash =
        ((header :: rest).getLast (cons_ne_nil _ _)).hash := by
      rw [getLastD_eq_getLast?, getLast?_map,
        getLast?_eq_some_getLast (cons_ne_nil _ _)]
      rfl
    rw [hlast, ← hkept]
    rfl

omit hU hc

end Historysnap
