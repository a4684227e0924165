/-
**Cutting a run of headers, and leaving the snapshot alone.**

`Historysnap.apply` works on a copy.  Here its maps and its list of votes lie in a memory, the copy
takes new places, and the loop writes to the places of the copy while it goes through the headers,
also when it fails later.  Nothing that was in the memory before is written to, so the snapshot that
`apply` is called on still has what it had.

A list of headers may be cut anywhere.  The check of the numbers and the last update are made once
for a call, but the votes do not read the number and the hash of the snapshot, and the numbers of
two lists follow each other exactly if those of the whole do.

Main results:

* `Historysnap.apply_eq_ok_iff`, `Historysnap.apply_append` — **a run can be cut**;
* `SnapshotMemory.Kept`, `Historysnap.applyIn_spec` — **`apply` computes what it should and writes
  to its copy only**.
-/

import GoHpb.HistorysnapReplay
import GoHpb.HistorysnapTally

open Function Function List

namespace Historysnap

variable [Crypto] {config : PrometheusConfig} {s s' : Historysnap} {headers h₁ h₂ : List Header}
  {c c' : SigCache}

/-! ### Cutting a run -/

/-- The numbers of the headers count up from the one after a number. -/
def Follows : UInt64 → List Header → Prop
  | _, [] => True
  | n, h :: hs => h.number64 = n + 1 ∧ Follows (n + 1) hs

omit [Crypto] in
theorem follows_cons_iff {n : UInt64} {h : Header} {hs : List Header} :
    Follows n (h :: hs) ↔ contiguous (h :: hs) = true ∧ h.number64 = n + 1 := by
  induction hs generalizing n h with
  | nil => simp [Follows, contiguous]
  | cons k hs ih =>
    have htail := @ih (n + 1) k
    simp only [contiguous, decide_eq_true_eq] at htail ⊢
    rw [Follows, htail, isChain_cons_cons]
    constructor
    · rintro ⟨hh, hchain, hk⟩
      exact ⟨⟨by rw [hk, hh], hchain⟩, hh⟩
    · rintro ⟨⟨hk, hchain⟩, hh⟩
      exact ⟨hh, hchain, by rw [hk, hh]⟩

/-- The number after some headers. -/
def advance (n : UInt64) (headers : List Header) : UInt64 := n + .ofNat headers.length

omit [Crypto] in
theorem advance_append (n : UInt64) (h₁ h₂ : List Header) :
    advance n (h₁ ++ h₂) = advance (advance n h₁) h₂ := by
  rw [advance, length_append, UInt64.ofNat_add, ← UInt64.add_assoc, advance, advance]

omit [Crypto] in
theorem follows_append {n : UInt64} :
    Follows n (h₁ ++ h₂) ↔ Follows n h₁ ∧ Follows (advance n h₁) h₂ := by
  induction h₁ generalizing n with
  | nil => simp [Follows, advance]
  | cons h h₁ ih =>
    have hadvance : advance n (h :: h₁) = advance (n + 1) h₁ := advance_append n [h] h₁
    rw [cons_append, Follows, ih, Follows, hadvance, and_assoc]

/-- The hash after some headers. -/
def lastHash (hash : Hash) (headers : List Header) : Hash :=
  (headers.map Header.hash).getLastD hash

theorem lastHash_append (hash : Hash) (h₁ h₂ : List Header) :
    lastHash hash (h₁ ++ h₂) = lastHash (lastHash hash h₁) h₂ := by
  simp only [lastHash, getLastD_eq_getLast?, map_append, getLast?_append]
  cases (h₂.map Header.hash).getLast? <;> rfl

theorem applyLoop_append (h₁ h₂ : List Header) : s.applyLoop config (h₁ ++ h₂) c =
      match s.applyLoop config h₁ c with
      | (.error e, c) => (.error e, c)
      | (.ok m, c) => m.applyLoop config h₂ c := by
  induction h₁ generalizing s c with
  | nil => rfl
  | cons h h₁ ih =>
    simp only [cons_append, applyLoop]
    rcases s.applyHeader config h c with ⟨e | m, d⟩
    · rfl
    · exact ih

theorem applyLoop_withHead (config : PrometheusConfig) (s : Historysnap) (headers : List Header)
    (c : SigCache) (number : UInt64) (hash : Hash) :
    (s.withHead number hash).applyLoop config headers c =
      ((s.applyLoop config headers c).1.map fun m => m.withHead number hash,
        (s.applyLoop config headers c).2) := by
  induction headers generalizing s c with
  | nil => rfl
  | cons h hs ih =>
    simp only [applyLoop, applyHeader]
    rcases ecrecover h c with ⟨e | signer, d⟩
    · rfl
    simp only [applyVote_withHead]
    cases s.applyVote config h signer with
    | error e => rfl
    | ok m => exact ih m d

theorem applyLoop_number {m : Historysnap} (h : s.applyLoop config headers c = (.ok m, c')) :
    m.number = s.number := by
  have hself := applyLoop_withHead config s headers c s.number s.hash
  rw [withHead_self, h] at hself
  have hm := Except.ok.inj (congrArg Prod.fst hself)
  rw [hm]
  rfl

/-- **What a successful `apply` is**, also for no headers: the numbers follow, and the loop goes
through. -/
theorem apply_eq_ok_iff : s.apply config headers c = (.ok s', c') ↔
      Follows s.number headers ∧ ∃ m, s.applyLoop config headers c = (.ok m, c') ∧
        s' = m.withHead (advance s.number headers) (lastHash s.hash headers) := by
  cases headers with
  | nil =>
    have hself : s.withHead (advance s.number []) (lastHash s.hash []) = s := by
      exact congrArg (fun n => s.withHead n s.hash) (UInt64.add_zero s.number)
    simp only [apply, applyLoop, Follows, true_and, Prod.mk.injEq, Except.ok.injEq]
    constructor
    · rintro ⟨rfl, rfl⟩
      exact ⟨s, ⟨rfl, rfl⟩, hself.symm⟩
    · rintro ⟨m, ⟨rfl, rfl⟩, rfl⟩
      exact ⟨hself.symm, rfl⟩
  | cons h hs =>
    rw [apply, follows_cons_iff]
    by_cases hcont : contiguous (h :: hs) = true
    · by_cases hnum : h.number64 = s.number + 1
      · rw [if_neg (not_not.2 hcont), if_neg (not_not.2 hnum)]
        rcases hm : s.applyLoop config (h :: hs) c with ⟨e | m, d⟩
        · simp
        have hlast : ((h :: hs).getLast (cons_ne_nil _ _)).hash =
            lastHash s.hash (h :: hs) := by
          rw [lastHash, getLastD_eq_getLast?, getLast?_map,
            getLast?_eq_some_getLast (cons_ne_nil _ _)]
          rfl
        dsimp only
        rw [hlast, applyLoop_number hm]
        simp only [hcont, hnum, and_self, true_and, Prod.mk.injEq, Except.ok.injEq]
        constructor
        · rintro ⟨rfl, rfl⟩
          exact ⟨m, ⟨rfl, rfl⟩, rfl⟩
        · rintro ⟨_, ⟨rfl, rfl⟩, rfl⟩
          exact ⟨rfl, rfl⟩
      · simp [hcont, hnum]
    · simp [hcont]

/-- **A run can be cut**: applying two lists one after the other is applying the whole. -/
theorem apply_append : s.apply config (h₁ ++ h₂) c = (.ok s', c') ↔
      ∃ m d, s.apply config h₁ c = (.ok m, d) ∧ m.apply config h₂ d = (.ok s', c') := by
  simp only [apply_eq_ok_iff, follows_append, applyLoop_append, advance_append, lastHash_append]
  constructor
  · rintro ⟨⟨hf₁, hf₂⟩, m₂, hrun, rfl⟩
    rcases hm : s.applyLoop config h₁ c with ⟨e | m₁, d⟩
    · simp [hm] at hrun
    have hrest : m₁.applyLoop config h₂ d = (.ok m₂, c') := by rwa [hm] at hrun
    refine ⟨_, d, ⟨hf₁, m₁, rfl, rfl⟩, hf₂,
      m₂.withHead (advance s.number h₁) (lastHash s.hash h₁), ?_, rfl⟩
    rw [applyLoop_withHead, hrest]
    rfl
  · rintro ⟨m, d, ⟨hf₁, m₁, hm, rfl⟩, hf₂, m₂, hrun, rfl⟩
    refine ⟨⟨hf₁, hf₂⟩, ?_⟩
    rw [applyLoop_withHead] at hrun
    rcases hr : m₁.applyLoop config h₂ d with ⟨e | m₃, d'⟩
    · rw [hr] at hrun
      cases hrun
    rw [hr] at hrun
    cases hrun
    exact ⟨m₃, by rw [hm]; exact hr, rfl⟩

end Historysnap

/-! ### Snapshots in a memory -/

/-- A snapshot with the places of its maps and of its list of votes. -/
structure SnapshotObject where
  number : UInt64
  hash : Hash
  signers : ℕ
  recents : ℕ
  votes : ℕ
  tally : ℕ

/-- The places of a memory, of which those from a number on are free. -/
structure SnapshotMemory where
  objects : ℕ → SnapshotObject
  signers : ℕ → Finset AddressHash
  recents : ℕ → Finmap fun _ : UInt64 => AddressHash
  votes : ℕ → List Vote
  tally : ℕ → Tallies
  next : ℕ

namespace SnapshotMemory

variable {m m' m'' : SnapshotMemory} {p q base : ℕ} {s : Historysnap}

variable (m) (p)

/-- The snapshot at a place. -/
def read : Historysnap :=
  { number := (m.objects p).number, hash := (m.objects p).hash
    signers := m.signers (m.objects p).signers, recents := m.recents (m.objects p).recents
    votes := m.votes (m.objects p).votes, tally := m.tally (m.objects p).tally }

/-- `copy`: new maps and a new list with the same contents. -/
def copy : SnapshotMemory :=
  { objects := update m.objects m.next
      { number := (m.objects p).number, hash := (m.objects p).hash
        signers := m.next, recents := m.next, votes := m.next, tally := m.next }
    signers := update m.signers m.next (m.signers (m.objects p).signers)
    recents := update m.recents m.next (m.recents (m.objects p).recents)
    votes := update m.votes m.next (m.votes (m.objects p).votes)
    tally := update m.tally m.next (m.tally (m.objects p).tally)
    next := m.next + 1 }

/-- Writing to the fields, the maps and the list of a snapshot. -/
def write (s : Historysnap) : SnapshotMemory :=
  { m with
    objects := update m.objects p
      { m.objects p with number := s.number, hash := s.hash }
    signers := update m.signers (m.objects p).signers s.signers
    recents := update m.recents (m.objects p).recents s.recents
    votes := update m.votes (m.objects p).votes s.votes
    tally := update m.tally (m.objects p).tally s.tally }

variable {m} {p}

/-- Two memories have the same below a place. -/
structure Kept (base : ℕ) (m m' : SnapshotMemory) : Prop where
  objects : ∀ i < base, m'.objects i = m.objects i
  signers : ∀ i < base, m'.signers i = m.signers i
  recents : ∀ i < base, m'.recents i = m.recents i
  votes : ∀ i < base, m'.votes i = m.votes i
  tally : ∀ i < base, m'.tally i = m.tally i

/-- A snapshot and all it refers to are below a place. -/
structure Below (base : ℕ) (m : SnapshotMemory) (p : ℕ) : Prop where
  object : p < base
  signers : (m.objects p).signers < base
  recents : (m.objects p).recents < base
  votes : (m.objects p).votes < base
  tally : (m.objects p).tally < base

/-- A snapshot and all it refers to are at a place or above it. -/
structure Above (base : ℕ) (m : SnapshotMemory) (p : ℕ) : Prop where
  object : base ≤ p
  signers : base ≤ (m.objects p).signers
  recents : base ≤ (m.objects p).recents
  votes : base ≤ (m.objects p).votes
  tally : base ≤ (m.objects p).tally

theorem Kept.refl (base : ℕ) (m : SnapshotMemory) : Kept base m m :=
  ⟨fun _ _ => rfl, fun _ _ => rfl, fun _ _ => rfl, fun _ _ => rfl, fun _ _ => rfl⟩

theorem Kept.trans (h : Kept base m m') (h' : Kept base m' m'') : Kept base m m'' :=
  ⟨fun i hi => (h'.objects i hi).trans (h.objects i hi),
    fun i hi => (h'.signers i hi).trans (h.signers i hi),
    fun i hi => (h'.recents i hi).trans (h.recents i hi),
    fun i hi => (h'.votes i hi).trans (h.votes i hi),
    fun i hi => (h'.tally i hi).trans (h.tally i hi)⟩

theorem Kept.read (h : Kept base m m') (hp : Below base m p) : m'.read p = m.read p := by
  rw [SnapshotMemory.read, SnapshotMemory.read, h.objects p hp.object, h.signers _ hp.signers,
    h.recents _ hp.recents, h.votes _ hp.votes, h.tally _ hp.tally]

@[simp] theorem read_write (m : SnapshotMemory) (p : ℕ) (s : Historysnap) :
    (m.write p s).read p = s := by
  simp [read, write]

theorem kept_write (h : Above base m p) (s : Historysnap) : Kept base m (m.write p s) :=
  ⟨fun _ hi => update_of_ne (hi.trans_le h.object).ne _ _,
    fun _ hi => update_of_ne (hi.trans_le h.signers).ne _ _,
    fun _ hi => update_of_ne (hi.trans_le h.recents).ne _ _,
    fun _ hi => update_of_ne (hi.trans_le h.votes).ne _ _,
    fun _ hi => update_of_ne (hi.trans_le h.tally).ne _ _⟩

theorem Above.write (h : Above base m p) (s : Historysnap) : Above base (m.write p s) p := by
  refine ⟨h.object, ?_, ?_, ?_, ?_⟩ <;> simp only [SnapshotMemory.write, update_self]
  exacts [h.signers, h.recents, h.votes, h.tally]

variable (m) (p)

theorem read_copy : (m.copy p).read m.next = m.read p := by
  simp [read, copy]

theorem kept_copy : Kept m.next m (m.copy p) :=
  ⟨fun _ hi => update_of_ne hi.ne _ _, fun _ hi => update_of_ne hi.ne _ _,
    fun _ hi => update_of_ne hi.ne _ _, fun _ hi => update_of_ne hi.ne _ _,
    fun _ hi => update_of_ne hi.ne _ _⟩

theorem above_copy : Above m.next (m.copy p) m.next := by
  refine ⟨le_rfl, ?_, ?_, ?_, ?_⟩ <;> simp [copy]

variable {m} {p}

end SnapshotMemory

/-! ### Processing headers in a memory -/

namespace Historysnap

open SnapshotMemory

variable [Crypto] {config : PrometheusConfig} {m : SnapshotMemory} {p q base : ℕ} {c : SigCache}
  {headers h₁ h₂ : List Header}

/-- One round of the loop of `apply`.  What has been written stays if the round fails. -/
def applyHeaderIn (config : PrometheusConfig) (q : ℕ) (header : Header) (m : SnapshotMemory)
    (sigcache : SigCache) : Except Err Unit × SigCache × SnapshotMemory :=
  let s := (m.read q).startHeader config header.number64
  let m := m.write q s
  match ecrecover header sigcache with
  | (.error e, sigcache) => (.error e, sigcache, m)
  | (.ok signer, sigcache) =>
    let signerHash := signerHash signer header.random
    if signerHash ∉ s.signers then (.error .errUnauthorized, sigcache, m)
    else
      let s := { s with recents := s.recents.insert header.number64 signerHash }
      let s := s.discardPrevious signerHash header.coinbaseHash
      let m := m.write q s
      match voteDirection header.nonce with
      | .error e => (.error e, sigcache, m)
      | .ok authorize =>
        (.ok (), sigcache, m.write q ((s.castVote (voteOf header signer authorize)).settle
          header.number64 header.coinbaseHash))

/-- The loop of `apply`. -/
def applyLoopIn (config : PrometheusConfig) (q : ℕ) : List Header → SnapshotMemory → SigCache →
    Except Err Unit × SigCache × SnapshotMemory
  | [], m, sigcache => (.ok (), sigcache, m)
  | header :: headers, m, sigcache =>
    match applyHeaderIn config q header m sigcache with
    | (.error e, sigcache, m) => (.error e, sigcache, m)
    | (.ok _, sigcache, m) => applyLoopIn config q headers m sigcache

/-- `apply` in a memory: the place of the result, which without headers is the place of the
snapshot itself. -/
def applyIn (config : PrometheusConfig) (m : SnapshotMemory) (p : ℕ) (headers : List Header)
    (sigcache : SigCache) : Except Err ℕ × SigCache × SnapshotMemory :=
  match headers with
  | [] => (.ok p, sigcache, m)
  | header :: rest =>
    if ¬ contiguous (header :: rest) then (.error .errInvalidVotingChain, sigcache, m)
    else if header.number64 ≠ (m.read p).number + 1 then
      (.error .errInvalidVotingChain, sigcache, m)
    else match applyLoopIn config m.next (header :: rest) (m.copy p) sigcache with
      | (.error e, sigcache, m') => (.error e, sigcache, m')
      | (.ok _, sigcache, m') =>
        (.ok m.next, sigcache, m'.write m.next { m'.read m.next with
          number := (m'.read m.next).number + .ofNat (header :: rest).length
          hash := ((header :: rest).getLast (cons_ne_nil _ _)).hash })

theorem applyHeaderIn_spec (h : Above base m q) (config : PrometheusConfig) (header : Header)
    (c : SigCache) : ((applyHeaderIn config q header m c).1.map
        fun _ => (applyHeaderIn config q header m c).2.2.read q,
      (applyHeaderIn config q header m c).2.1) = (m.read q).applyHeader config header c ∧
    Kept base m (applyHeaderIn config q header m c).2.2 ∧
      Above base (applyHeaderIn config q header m c).2.2 q := by
  have hone := kept_write h ((m.read q).startHeader config header.number64)
  have habove := h.write ((m.read q).startHeader config header.number64)
  simp only [applyHeaderIn, applyHeader]
  rcases ecrecover header c with ⟨e | signer, d⟩
  · exact ⟨rfl, hone, habove⟩
  simp only [applyVote, startHeader_signers]
  split_ifs with hmem
  · cases voteDirection header.nonce with
    | error e => exact ⟨rfl, hone.trans (kept_write habove _), habove.write _⟩
    | ok authorize =>
      refine ⟨?_, (hone.trans (kept_write habove _)).trans (kept_write (habove.write _) _),
        (habove.write _).write _⟩
      simp only [Except.map, read_write, polled, voteOf, startHeader_signers]
  · exact ⟨rfl, hone, habove⟩

theorem applyLoopIn_spec (h : Above base m q) (config : PrometheusConfig) (headers : List Header)
    (c : SigCache) : ((applyLoopIn config q headers m c).1.map
        fun _ => (applyLoopIn config q headers m c).2.2.read q,
      (applyLoopIn config q headers m c).2.1) = (m.read q).applyLoop config headers c ∧
    Kept base m (applyLoopIn config q headers m c).2.2 ∧
      Above base (applyLoopIn config q headers m c).2.2 q := by
  induction headers generalizing m c with
  | nil => exact ⟨rfl, Kept.refl base m, h⟩
  | cons header headers ih =>
    obtain ⟨hrun, hkept, habove⟩ := applyHeaderIn_spec h config header c
    simp only [applyLoopIn, applyLoop, ← hrun]
    rcases hround : applyHeaderIn config q header m c with ⟨e | u, d, m'⟩
    · rw [hround] at hkept habove
      exact ⟨rfl, hkept, habove⟩
    rw [hround] at hkept habove
    obtain ⟨hrest, hkept', habove'⟩ := ih habove d
    exact ⟨hrest, hkept.trans hkept', habove'⟩

/-- **`apply` in a memory computes `apply`, and keeps what was there.** -/
theorem applyIn_spec (m : SnapshotMemory) (p : ℕ) (headers : List Header) (c : SigCache) :
    ((applyIn config m p headers c).1.map (applyIn config m p headers c).2.2.read,
      (applyIn config m p headers c).2.1) = (m.read p).apply config headers c ∧
    Kept m.next m (applyIn config m p headers c).2.2 := by
  cases headers with
  | nil => exact ⟨rfl, Kept.refl _ m⟩
  | cons header rest =>
    obtain ⟨hrun, hkept, habove⟩ := applyLoopIn_spec (above_copy m p) config (header :: rest) c
    rw [read_copy] at hrun
    have hkept' := (kept_copy m p).trans hkept
    simp only [applyIn, apply, ← hrun]
    split_ifs
    · exact ⟨rfl, Kept.refl _ m⟩
    · rcases hloop : applyLoopIn config m.next (header :: rest) (m.copy p) c with ⟨e | u, d, m'⟩
      · rw [hloop] at hkept'
        exact ⟨rfl, hkept'⟩
      rw [hloop] at hkept' habove
      refine ⟨?_, hkept'.trans (kept_write habove _)⟩
      simp only [Except.map, read_write]
    · exact ⟨rfl, Kept.refl _ m⟩

/-- **A run of headers may be cut anywhere**: applying the whole succeeds with a snapshot exactly if
applying the first part succeeds and applying the second part to its result succeeds with that
snapshot.  **And `apply` never changes a snapshot** that was in the memory, whether it succeeds or
not. -/
theorem applyIn_append (m : SnapshotMemory) (p : ℕ) (h₁ h₂ : List Header) (c : SigCache) :
    (∀ s, (∃ q d m', applyIn config m p (h₁ ++ h₂) c = (.ok q, d, m') ∧ m'.read q = s) ↔
      ∃ p₁ c₁ m₁, applyIn config m p h₁ c = (.ok p₁, c₁, m₁) ∧
        ∃ q d m', applyIn config m₁ p₁ h₂ c₁ = (.ok q, d, m') ∧ m'.read q = s) ∧
    ∀ r, Below m.next m r → (applyIn config m p (h₁ ++ h₂) c).2.2.read r = m.read r := by
  -- success in a memory is success of `apply` on what is read
  have hok : ∀ (m : SnapshotMemory) (p : ℕ) (headers : List Header) (c : SigCache)
      (s : Historysnap) (d : SigCache),
      (∃ q m', applyIn config m p headers c = (.ok q, d, m') ∧ m'.read q = s) ↔
        (m.read p).apply config headers c = (.ok s, d) := by
    intro m p headers c s d
    rw [← (applyIn_spec m p headers c).1]
    rcases applyIn config m p headers c with ⟨e | q, d', m'⟩
    · simp [Except.map]
    simp only [Except.map, Prod.mk.injEq, Except.ok.injEq]
    constructor
    · rintro ⟨_, _, ⟨rfl, rfl, rfl⟩, rfl⟩
      exact ⟨rfl, rfl⟩
    · rintro ⟨rfl, rfl⟩
      exact ⟨q, m', ⟨rfl, rfl, rfl⟩, rfl⟩
  refine ⟨fun s => ?_, fun r hr => (applyIn_spec m p (h₁ ++ h₂) c).2.read hr⟩
  constructor
  · rintro ⟨q, d, m', hrun, hs⟩
    obtain ⟨s₁, c₁, hfirst, hsecond⟩ := apply_append.1 ((hok m p _ c s d).1 ⟨q, m', hrun, hs⟩)
    obtain ⟨p₁, m₁, hrun₁, rfl⟩ := (hok m p h₁ c s₁ c₁).2 hfirst
    obtain ⟨q', m'', hrun₂, hs'⟩ := (hok m₁ p₁ h₂ c₁ s d).2 hsecond
    exact ⟨p₁, c₁, m₁, hrun₁, q', d, m'', hrun₂, hs'⟩
  · rintro ⟨p₁, c₁, m₁, hrun₁, q, d, m', hrun₂, hs⟩
    have hfirst := (hok m p h₁ c (m₁.read p₁) c₁).1 ⟨p₁, m₁, hrun₁, rfl⟩
    have hsecond := (hok m₁ p₁ h₂ c₁ s d).1 ⟨q, m', hrun₂, hs⟩
    obtain ⟨q', m'', hrun, hs'⟩ :=
      (hok m p (h₁ ++ h₂) c s d).2 (apply_append.2 ⟨_, c₁, hfirst, hsecond⟩)
    exact ⟨q', d, m'', hrun, hs'⟩

end Historysnap
