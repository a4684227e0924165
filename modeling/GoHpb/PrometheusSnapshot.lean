/-
**Snapshots do not depend on the caches.**

`Prometheus.snapshot` puts its result together from whatever it finds: a snapshot in memory, one in
the database, headers handed over by the caller, headers of the chain.  The result is nevertheless
determined by the chain: it is what one gets by verifying the genesis block and applying all the
headers after it.

The headers that occur are taken from a set `U` on which the hash is injective.  A *branch* is a
list of headers of `U` that follow each other, starting after the genesis block.  Only one branch
ends in a given hash, and this is why a cache entry under that hash can only be the right one.  The
parent of the first header is left open in the definition: the walk takes the genesis block when it
arrives at number zero, whatever hash has led there, and so the caches may contain snapshots of
branches that are not attached to it.

Time only moves forward.  The genesis block is checked again whenever no snapshot is found, and the
check that it is not from the future must not fail after it has succeeded.

Main results:

* `Prometheus.snapshot_eq_replay` — **the caches are transparent**.
-/

import GoHpb.HistorysnapReplay
import GoHpb.PrometheusBatch

open FailState List Historysnap

/-! ### Branches -/

theorem ofNat_ne_zero {n : ℕ} (hlt : n < 2 ^ 64) (hn : n ≠ 0) : UInt64.ofNat n ≠ 0 := by
  intro heq
  have hnat := congrArg UInt64.toNat heq
  rw [UInt64.toNat_ofNat_of_lt' hlt] at hnat
  exact hn hnat

section Branch

variable [Crypto]

/-- The headers after the genesis block up to a block with a given number and hash. -/
inductive Branch (genesis : Header) (U : Set Header) : ℕ → Hash → List Header → Prop
  | genesis : Branch genesis U 0 genesis.hash []
  | next {n : ℕ} {hash : Hash} {path : List Header} {header : Header} :
      Branch genesis U n hash path → header ∈ U → n + 1 < 2 ^ 64 →
        header.number64 = UInt64.ofNat (n + 1) → (n ≠ 0 → header.parentHash = hash) →
        Branch genesis U (n + 1) header.hash (path ++ [header])

namespace Branch

variable {genesis : Header} {U : Set Header} {n m : ℕ} {hash hash' : Hash}
  {path path' : List Header}

variable (h : Branch genesis U n hash path)
include h

theorem length_eq : path.length = n := by
  induction h with
  | genesis => rfl
  | next _ _ _ _ _ ih => rw [length_append, ih, length_singleton]

theorem lt : n < 2 ^ 64 := by
  cases h with
  | genesis => decide
  | next _ _ hlt _ _ => exact hlt

theorem mem : ∀ header ∈ path, header ∈ U := by
  induction h with
  | genesis => exact fun _ hmem => absurd hmem not_mem_nil
  | next _ hheader _ _ _ ih =>
    intro k hk
    rcases mem_append.1 hk with hk | hk
    · exact ih k hk
    · rwa [mem_singleton.1 hk]

theorem number64_eq {i : ℕ} {header : Header}
    (hi : path[i]? = some header) : header.number64 = UInt64.ofNat (i + 1) := by
  induction h with
  | genesis => simp at hi
  | @next n hash path last hb _ _ hnumber _ ih =>
    rcases Nat.lt_trichotomy i path.length with hlt | heq | hgt
    · rw [getElem?_append_left hlt] at hi
      exact ih hi
    · rw [heq, getElem?_concat_length] at hi
      cases hi
      rw [hnumber, heq, hb.length_eq]
    · rw [getElem?_eq_none (by simpa using hgt)] at hi
      cases hi

omit h

variable {p q : List Header}

theorem contiguous_drop (h : Branch genesis U n hash path)
    (hpath : path = p ++ q) : Historysnap.contiguous q = true := by
  have hnumber : ∀ i header, q[i]? = some header →
      header.number64 = UInt64.ofNat (p.length + i + 1) := by
    intro i header hi
    have hi' : path[p.length + i]? = some header := by
      rw [hpath, getElem?_append_right (Nat.le_add_right _ _), Nat.add_sub_cancel_left]
      exact hi
    exact h.number64_eq hi'
  have hchain : q.IsChain fun h k => k.number64 = h.number64 + 1 := by
    rw [isChain_iff_getElem]
    intro i hi
    rw [hnumber (i + 1) _ (getElem?_eq_getElem hi),
      hnumber i _ (getElem?_eq_getElem (Nat.lt_of_succ_lt hi)), ← UInt64.ofNat_one,
      ← UInt64.ofNat_add]
    rfl
  simpa [contiguous] using hchain

theorem head_drop (h : Branch genesis U n hash path) (hpath : path = p ++ q) :
    ∀ header ∈ q.head?, header.number64 = .ofNat p.length + 1 := by
  intro header hhead
  have hi : path[p.length]? = some header := by
    rw [hpath, getElem?_append_right (Nat.le_refl _), Nat.sub_self, ← head?_eq_getElem?]
    exact hhead
  rw [h.number64_eq hi, UInt64.ofNat_add]
  rfl

theorem take (h : Branch genesis U n hash path) (hpath : path = p ++ q) :
    ∃ hash', Branch genesis U p.length hash' p := by
  induction h generalizing q with
  | genesis =>
    obtain ⟨rfl, -⟩ := nil_eq_append_iff.1 hpath
    exact ⟨_, .genesis⟩
  | @next n hash path header hb hmem hlt hnumber hparent ih =>
    rcases eq_nil_or_concat q with rfl | ⟨q, last, rfl⟩
    · rw [append_nil] at hpath
      have hlength : p.length = n + 1 := by
        rw [← hpath, length_append, hb.length_eq, length_singleton]
      rw [hlength, ← hpath]
      exact ⟨_, .next hb hmem hlt hnumber hparent⟩
    · rw [concat_eq_append, ← append_assoc] at hpath
      exact ih (append_inj' hpath rfl).1

theorem append (h : Branch genesis U n hash path) {q : List Header} (hmem : ∀ k ∈ q, k ∈ U)
    (hne : ∀ k ∈ q, k.number64 ≠ 0) (hcont : Historysnap.contiguous q = true)
    (hlinked : q.IsChain fun h k => k.parentHash = h.hash)
    (hfirst : ∀ k ∈ q.head?, k.number64 = .ofNat n + 1 ∧ (n ≠ 0 → k.parentHash = hash)) :
    ∃ hash', Branch genesis U (n + q.length) hash' (path ++ q) := by
  induction q generalizing n hash path with
  | nil => exact ⟨hash, by simpa using h⟩
  | cons header q ih =>
    obtain ⟨hnumber, hparent⟩ := hfirst header rfl
    obtain ⟨hheader, hq⟩ := forall_mem_cons.1 hmem
    obtain ⟨hheaderne, hqne⟩ := forall_mem_cons.1 hne
    have hsucc : UInt64.ofNat n + 1 = UInt64.ofNat (n + 1) := by
      rw [UInt64.ofNat_add]
      rfl
    have hlt : n + 1 < 2 ^ 64 := by
      refine Nat.lt_of_le_of_ne h.lt fun heq => hheaderne ?_
      rw [hnumber, hsucc, heq]
      rfl
    have hnext := Branch.next h hheader hlt (hnumber.trans hsucc) hparent
    rw [contiguous, decide_eq_true_eq, isChain_cons] at hcont
    rw [isChain_cons] at hlinked
    obtain ⟨hash', hbranch⟩ := ih hnext hq hqne (by simpa [contiguous] using hcont.2)
      hlinked.2 fun k hk => ⟨by rw [hcont.1 k hk, hnumber, hsucc], fun _ => hlinked.1 k hk⟩
    refine ⟨hash', ?_⟩
    rw [append_assoc, Nat.add_right_comm] at hbranch
    exact hbranch

/-- **The hash of a block determines the branch.** -/
theorem unique (hU : Set.InjOn Header.hash U) (hgenesis : genesis ∈ U)
    (hzero : genesis.number64 = 0) (h : Branch genesis U n hash path)
    (h' : Branch genesis U m hash path') : n = m ∧ path = path' := by
  induction h generalizing m path' with
  | genesis =>
    generalize hkey : genesis.hash = key at h'
    cases h' with
    | genesis => exact ⟨rfl, rfl⟩
    | next _ hmem hlt hnumber _ =>
      rw [← hU hgenesis hmem hkey] at hnumber
      exact absurd (hnumber.symm.trans hzero) (ofNat_ne_zero hlt (Nat.succ_ne_zero _))
  | @next n hash path header hb hmem hlt hnumber hparent ih =>
    generalize hkey : header.hash = key at h'
    cases h' with
    | genesis =>
      rw [hU hmem hgenesis hkey] at hnumber
      exact absurd (hnumber.symm.trans hzero) (ofNat_ne_zero hlt (Nat.succ_ne_zero _))
    | @next k _ _ header' hb' hmem' hlt' hnumber' hparent' =>
      obtain rfl : header = header' := hU hmem hmem' hkey
      have hnat : n + 1 = k + 1 := by
        rw [← UInt64.toNat_ofNat_of_lt' hlt, ← UInt64.toNat_ofNat_of_lt' hlt', ← hnumber, hnumber']
      obtain rfl : n = k := Nat.succ.inj hnat
      by_cases hn : n = 0
      · -- nothing comes before the first header
        have hempty := length_eq_zero_iff.1 (hb.length_eq.trans hn)
        have hempty' := length_eq_zero_iff.1 (hb'.length_eq.trans hn)
        rw [hempty, hempty']
        exact ⟨rfl, rfl⟩
      · rw [← hparent' hn, hparent hn] at hb'
        rw [(ih hb').2]
        exact ⟨rfl, rfl⟩

end Branch

end Branch

/-! ### Replaying a branch -/

section Replay

variable [Crypto]

/-- The snapshot of the genesis block. -/
def replayGenesis (config : PrometheusConfig) (now : UnixTime) (genesis : Header) :
    Except Err Historysnap := do
  verifyStandalone config now genesis
  let signers ← genesisSigners genesis
  return newHistorysnap 0 genesis.hash signers

/-- **The snapshot of a branch, without any cache**: all the headers are applied to the snapshot of
the genesis block. -/
def replay (config : PrometheusConfig) (now : UnixTime) (genesis : Header) (path : List Header) :
    Except Err Historysnap := do
  let snap ← replayGenesis config now genesis
  (snap.apply config path (Arc.new inmemorySignatures)).1

variable {config : PrometheusConfig} {now now' : UnixTime} {genesis : Header} {U : Set Header}
  {n : ℕ} {hash : Hash} {path p q : List Header} {snap snap' : Historysnap} {header : Header}

theorem replayGenesis_eq_ok (h : replayGenesis config now genesis = .ok snap) :
    snap.number = 0 ∧ snap.hash = genesis.hash := by
  obtain ⟨_, -, h₁⟩ := except_bind_eq_ok.1 h
  obtain ⟨signers, -, h₂⟩ := except_bind_eq_ok.1 h₁
  cases h₂
  exact ⟨rfl, rfl⟩

theorem replayGenesis_mono (hnow : now ≤ now') (h : replayGenesis config now genesis = .ok snap) :
    replayGenesis config now' genesis = .ok snap := by
  obtain ⟨_, hverify, h₁⟩ := except_bind_eq_ok.1 h
  have hstandalone := verifyStandalone_eq_ok.1 hverify
  refine except_bind_eq_ok.2 ⟨(), verifyStandalone_eq_ok.2 ?_, h₁⟩
  exact { hstandalone with time_le := hstandalone.time_le.trans hnow }

theorem replay_eq_foldlM (hU : Set.InjOn Header.hash U) (h : Branch genesis U n hash path) :
    replay config now genesis path = replayGenesis config now genesis >>= fun snap =>
        path.foldlM (Historysnap.stepHeader config) snap := by
  rw [replay]
  cases hgen : replayGenesis config now genesis with
  | error e => rfl
  | ok snap =>
    refine apply_eq_foldlM hU (Arc.all_new _ _) h.mem (h.contiguous_drop (p := []) rfl) ?_
    intro header hhead
    rw [h.head_drop (p := []) rfl header hhead, (replayGenesis_eq_ok hgen).1]
    rfl

theorem replay_concat (hU : Set.InjOn Header.hash U)
    (h : Branch genesis U n hash (path ++ [header])) :
    replay config now genesis (path ++ [header]) =
      replay config now genesis path >>= fun snap => snap.stepHeader config header := by
  obtain ⟨hash', hpath⟩ := h.take rfl
  rw [replay_eq_foldlM hU h, replay_eq_foldlM hU hpath, bind_assoc]
  refine bind_congr fun snap => ?_
  rw [foldlM_append]
  refine bind_congr fun m => ?_
  exact bind_pure _

theorem replay_number_hash (hU : Set.InjOn Header.hash U) (h : Branch genesis U n hash path)
    (hok : replay config now genesis path = .ok snap) :
    snap.number = .ofNat n ∧ snap.hash = hash := by
  induction h generalizing snap with
  | genesis =>
    obtain ⟨m, hgen, hm⟩ := except_bind_eq_ok.1 hok
    cases hm
    exact replayGenesis_eq_ok hgen
  | next hb hmem hlt hnumber hparent ih =>
    rw [replay_concat hU (.next hb hmem hlt hnumber hparent)] at hok
    obtain ⟨m, hm, hstep⟩ := except_bind_eq_ok.1 hok
    obtain ⟨hnum, hhash⟩ := stepHeader_eq_ok hstep
    rw [hnum, (ih hm).1, UInt64.ofNat_add]
    exact ⟨rfl, hhash⟩

theorem replay_mono (hnow : now ≤ now') (hok : replay config now genesis path = .ok snap) :
    replay config now' genesis path = .ok snap := by
  obtain ⟨m, hgen, hm⟩ := except_bind_eq_ok.1 hok
  exact except_bind_eq_ok.2 ⟨m, replayGenesis_mono hnow hgen, hm⟩

/-- **Continuing from the snapshot of a part of the branch** gives the snapshot of the whole. -/
theorem apply_eq_replay (hU : Set.InjOn Header.hash U) (h : Branch genesis U n hash path)
    (hpath : path = p ++ q) (hok : replay config now genesis p = .ok snap)
    {sigcache : SigCache} (hc : SigCache.Sound U sigcache) :
    (snap.apply config q sigcache).1 = replay config now genesis path := by
  obtain ⟨hash', hp⟩ := h.take hpath
  have hq : ∀ k ∈ q, k ∈ U := fun k hk => h.mem k (hpath ▸ mem_append_right p hk)
  have hfirst : ∀ k ∈ q.head?, k.number64 = snap.number + 1 := by
    rw [(replay_number_hash hU hp hok).1]
    exact h.head_drop hpath
  rw [apply_eq_foldlM hU hc hq (h.contiguous_drop hpath) hfirst, replay_eq_foldlM hU h, hpath]
  rw [replay_eq_foldlM hU hp] at hok
  obtain ⟨m, hgen, hm⟩ := except_bind_eq_ok.1 hok
  rw [hgen]
  change _ = (p ++ q).foldlM (stepHeader config) m
  rw [foldlM_append, hm]
  rfl

end Replay

/-! ### Sound engines -/

/-- The headers that may occur: no two of them have the same hash. -/
structure HeaderPool [Crypto] where
  genesis : Header
  headers : Set Header
  genesis_mem : genesis ∈ headers
  genesis_number : genesis.number64 = 0
  hash_injOn : Set.InjOn Header.hash headers

/-- The chain has the headers. -/
def ChainReader.Serves [Crypto] (chain : ChainReader) (headers : List Header) : Prop :=
  ∀ header ∈ headers, chain.getHeader header.hash header.number64 = some header

/-- The chain starts at the genesis block, and what it has under a hash and a number is a header
with this hash and number. -/
structure ChainReader.Reads [Crypto] (chain : ChainReader) (pool : HeaderPool) : Prop where
  genesis_eq : chain.genesis = pool.genesis
  getHeader_eq : ∀ hash number header, chain.getHeader hash number = some header →
    header ∈ pool.headers ∧ header.hash = hash ∧ header.number64 = number

namespace Prometheus

variable [Crypto]

/-- The snapshot of a branch that ends in the hash. -/
def Genuine (config : PrometheusConfig) (pool : HeaderPool) (now : UnixTime) (hash : Hash)
    (snap : Historysnap) : Prop :=
  ∃ n path, Branch pool.genesis pool.headers n hash path ∧
    replay config now pool.genesis path = .ok snap

/-- The snapshots in memory and in the database are those that `replay` gives, and the signature
cache tells the truth. -/
structure Sound (config : PrometheusConfig) (pool : HeaderPool) (now : UnixTime)
    (c : Prometheus) : Prop where
  config_eq : c.config = config
  recents : c.recents.All (Genuine config pool now)
  db : ∀ hash snap, loadHistorysnap c.db hash = .ok snap → Genuine config pool now hash snap
  signatures : SigCache.Sound pool.headers c.signatures

variable {config : PrometheusConfig} {pool : HeaderPool} {now now' : UnixTime} {c : Prometheus}
  {chain : ChainReader} {n : ℕ} {hash : Hash} {path : List Header} {snap : Historysnap}

theorem Genuine.mono (hnow : now ≤ now') (h : Genuine config pool now hash snap) :
    Genuine config pool now' hash snap := by
  obtain ⟨n, path, hb, hok⟩ := h
  exact ⟨n, path, hb, replay_mono hnow hok⟩

theorem Genuine.hash_eq (h : Genuine config pool now hash snap) : snap.hash = hash := by
  obtain ⟨n, path, hb, hok⟩ := h
  exact (replay_number_hash pool.hash_injOn hb hok).2

theorem Genuine.replay_eq (h : Genuine config pool now hash snap)
    (hb : Branch pool.genesis pool.headers n hash path) :
    replay config now pool.genesis path = .ok snap := by
  obtain ⟨m, path', hb', hok⟩ := h
  obtain ⟨-, rfl⟩ := hb.unique pool.hash_injOn pool.genesis_mem pool.genesis_number hb'
  exact hok

namespace Sound

theorem mono (hnow : now ≤ now') (h : Sound config pool now c) : Sound config pool now' c where
  config_eq := h.config_eq
  recents := h.recents.mono fun _ _ => Genuine.mono hnow
  db hash snap hload := (h.db hash snap hload).mono hnow
  signatures := h.signatures

theorem addRecent (h : Sound config pool now c) (hsnap : Genuine config pool now snap.hash snap) :
    Sound config pool now { c with recents := c.recents.add snap.hash snap } :=
  { h with recents := Arc.all_add h.recents hsnap }

theorem store (h : Sound config pool now c) (hsnap : Genuine config pool now snap.hash snap) :
    Sound config pool now { c with db := snap.store c.db } where
  config_eq := h.config_eq
  recents := h.recents
  signatures := h.signatures
  db hash other hload := by
    by_cases hhash : hash = snap.hash
    · rw [hhash, loadHistorysnap_store_self] at hload
      cases hload
      rwa [hhash]
    · rw [loadHistorysnap_store_of_ne snap c.db hhash] at hload
      exact h.db hash other hload

end Sound

/-! ### What the walk finds -/

theorem findSnapshot_spec (number : ℕ) (hash : Hash) {E : Err → Prometheus → Prop} :
    Spec (Sound config pool now) (findSnapshot number hash)
      (fun r c => Sound config pool now c ∧ ∀ snap ∈ r, Genuine config pool now hash snap) E := by
  intro c hc
  have hrecents : Sound config pool now { c with recents := (c.recents.get hash).2 } :=
    { hc with recents := Arc.all_get hc.recents hash }
  have hnone : ∀ snap ∈ (none : Option Historysnap), Genuine config pool now hash snap :=
    fun _ hsnap => by cases hsnap
  simp only [findSnapshot]
  cases hget : (c.recents.get hash).1 with
  | some snap =>
    refine ⟨hrecents, ?_⟩
    rintro _ ⟨rfl⟩
    exact Arc.get_all hc.recents hget
  | none =>
    split_ifs with hinterval
    · cases hload : loadHistorysnap c.db hash with
      | error e => exact ⟨hrecents, hnone⟩
      | ok snap =>
        refine ⟨hrecents, ?_⟩
        rintro _ ⟨rfl⟩
        exact hc.db hash snap hload
    · exact ⟨hrecents, hnone⟩

theorem genesisSnapshot_spec (hchain : chain.genesis = pool.genesis) :
    Spec (Sound config pool now) (genesisSnapshot now chain)
      (fun snap c => Sound config pool now c ∧ replayGenesis config now pool.genesis = .ok snap)
      (fun e c => Sound config pool now c ∧ replayGenesis config now pool.genesis = .error e) := by
  refine Spec.get_bind fun c₀ hc₀ => ?_
  rw [hc₀.config_eq, hchain]
  refine Spec.bind (Q := fun _ c => c = c₀ ∧
    verifyStandalone config now pool.genesis = .ok ()) ?_ fun _ => ?_
  · refine Spec.fromExcept (fun _ c hverify hc => ⟨hc, hverify⟩) fun e c hverify hc => ?_
    rw [hc, replayGenesis, hverify]
    exact ⟨hc₀, rfl⟩
  refine Spec.bind (Q := fun signers c => c = c₀ ∧ replayGenesis config now pool.genesis =
      .ok (newHistorysnap 0 pool.genesis.hash signers)) ?_ fun signers => ?_
  · refine Spec.fromExcept (fun signers c hsigners hc => ?_) fun e c hsigners hc => ?_
    · rw [replayGenesis, hc.2, hsigners]
      exact ⟨hc.1, rfl⟩
    · rw [hc.1, replayGenesis, hc.2, hsigners]
      exact ⟨hc₀, rfl⟩
  · -- the snapshot of the genesis block is written to the database
    rintro _ ⟨rfl, hok⟩
    refine ⟨hc₀.store ⟨0, [], .genesis, ?_⟩, hok⟩
    rw [replay, hok]
    rfl

variable {pre parents : List Header} {headers : List Header}

/-- On a branch whose end the caller hands over and whose beginning is on the chain, the last
header is found, and the rest is again of this form. -/
theorem nextHeader_branch {header : Header}
    (hpath : path ++ [header] = pre ++ parents) (hserves : chain.Serves pre) :
    ∃ pre' parents', path = pre' ++ parents' ∧ chain.Serves pre' ∧
      nextHeader chain header.number64 header.hash parents = .ok (header, parents') := by
  rcases eq_nil_or_concat' parents with rfl | ⟨parents, last, rfl⟩
  · -- the parents are used up: the header comes from the chain
    rw [append_nil] at hpath
    refine ⟨path, [], (append_nil path).symm, ?_, ?_⟩
    · intro k hk
      exact hserves k (hpath ▸ mem_append_left [header] hk)
    · rw [nextHeader_nil, hserves header (hpath ▸ mem_append_right path
        (mem_singleton_self header))]
  · rw [← append_assoc] at hpath
    obtain ⟨rfl, hlast⟩ := append_inj' hpath rfl
    cases hlast
    exact ⟨pre, parents, rfl, hserves, nextHeader_concat chain parents header⟩

/-- **What the walk finds**: the snapshot of a part of the branch, and the rest of its headers. -/
theorem snapshotWalk_spec (hchain : chain.genesis = pool.genesis)
    (hb : Branch pool.genesis pool.headers n hash path)
    (hroot : ∀ k ∈ path.head?, k.parentHash = pool.genesis.hash)
    (hpath : path = pre ++ parents) (hserves : chain.Serves pre) (headers : List Header) :
    Spec (Sound config pool now) (snapshotWalk now chain n hash parents headers)
      (fun found c => Sound config pool now c ∧ ∃ p q, path = p ++ q ∧
        replay config now pool.genesis p = .ok found.1 ∧ found.2 = q ++ headers)
      (fun e c => Sound config pool now c ∧ replayGenesis config now pool.genesis = .error e) := by
  induction hb generalizing pre parents headers with
  | genesis =>
    refine Spec.bind (findSnapshot_spec 0 pool.genesis.hash) fun found => ?_
    cases found with
    | some snap =>
      refine Spec.pure fun c hc => ⟨hc.1, [], [], rfl, ?_, rfl⟩
      exact (hc.2 snap rfl).replay_eq .genesis
    | none =>
      refine Spec.bind ((genesisSnapshot_spec hchain).mono (fun c hc => hc.1) (fun _ _ h => h)
        fun _ _ h => h) fun snap => ?_
      refine Spec.pure fun c hc => ⟨hc.1, [], [], rfl, ?_, rfl⟩
      rw [replay, hc.2]
      rfl
  | @next n hash path header hb hmem hlt hnumber hparent ih =>
    refine Spec.bind (findSnapshot_spec (n + 1) header.hash) fun found => ?_
    cases found with
    | some snap =>
      refine Spec.pure fun c hc => ⟨hc.1, path ++ [header], [], (append_nil _).symm, ?_, rfl⟩
      exact (hc.2 snap rfl).replay_eq (.next hb hmem hlt hnumber hparent)
    | none =>
      obtain ⟨pre', parents', hpath', hserves', hnext⟩ := nextHeader_branch hpath hserves
      -- the parent of the first header is the genesis block
      have hlink : header.parentHash = hash := by
        by_cases hn : n = 0
        · obtain rfl := hn
          cases hb
          exact hroot header rfl
        · exact hparent hn
      have hroot' : ∀ k ∈ path.head?, k.parentHash = pool.genesis.hash := by
        intro k hk
        refine hroot k ?_
        rw [head?_append, Option.mem_def.1 hk]
        rfl
      rw [← hnumber, hnext]
      change Spec _ (snapshotWalk now chain n header.parentHash parents' (header :: headers)) _ _
      rw [hlink]
      refine (ih hroot' hpath' hserves' (header :: headers)).mono (fun c hc => hc.1) ?_
        fun _ _ h => h
      rintro found c ⟨hc, p, q, hpq, hok, hfound⟩
      refine ⟨hc, p, q ++ [header], ?_, hok, ?_⟩
      · rw [hpq, append_assoc]
      · rw [hfound, append_assoc]
        rfl

theorem keep_spec (store : Prop) [Decidable store] {R : Historysnap → Prop}
    (hsnap : Genuine config pool now snap.hash snap) (hR : R snap) {E : Err → Prometheus → Prop} :
    Spec (Sound config pool now) (do
          addRecent snap
          if store then storeSnapshot snap
          return snap)
      (fun snap c => Sound config pool now c ∧ R snap) E := by
  refine Spec.bind (Q := fun _ => Sound config pool now)
    (Spec.modify fun c hc => hc.addRecent hsnap) fun _ => ?_
  split_ifs with hstore
  · refine Spec.bind (Q := fun _ => Sound config pool now)
      (Spec.modify fun c hc => hc.store hsnap) fun _ => ?_
    exact Spec.pure fun c hc => ⟨hc, hR⟩
  · exact Spec.pure fun c hc => ⟨hc, hR⟩

theorem finishSnapshot_spec {found : Historysnap × List Header} {R : Historysnap → Prop}
    {F : Err → Prop} (hheaders : ∀ k ∈ found.2, k ∈ pool.headers)
    (hok : ∀ sigcache, SigCache.Sound pool.headers sigcache → ∀ snap,
      (found.1.apply config found.2 sigcache).1 = .ok snap →
        Genuine config pool now snap.hash snap ∧ R snap)
    (herror : ∀ sigcache, SigCache.Sound pool.headers sigcache → ∀ e,
      (found.1.apply config found.2 sigcache).1 = .error e → F e) :
    Spec (Sound config pool now) (finishSnapshot found)
      (fun snap c => Sound config pool now c ∧ R snap)
      (fun e c => Sound config pool now c ∧ F e) := by
  refine Spec.get_bind fun c₀ hc₀ => ?_
  have hcache : Sound config pool now
      { c₀ with signatures := (found.1.apply config found.2 c₀.signatures).2 } :=
    { hc₀ with signatures :=
        apply_sound pool.hash_injOn hc₀.signatures hheaders }
  rw [hc₀.config_eq]
  refine Spec.bind (Q := fun snap c => Sound config pool now c ∧
    Genuine config pool now snap.hash snap ∧ R snap) ?_ fun snap => ?_
  · refine Spec.onPart ?_ ?_
    · rintro snap _ rfl happly
      exact ⟨hcache, hok _ hc₀.signatures snap happly⟩
    · rintro e _ rfl happly
      exact ⟨hcache, herror _ hc₀.signatures e happly⟩
  · rintro c ⟨hc, hgenuine, hR⟩
    exact keep_spec _ hgenuine hR c hc

/-- **A sound engine finds the snapshot that `replay` gives**, and stays sound. -/
theorem snapshot_spec (hchain : chain.genesis = pool.genesis)
    (hb : Branch pool.genesis pool.headers n hash path)
    (hroot : ∀ k ∈ path.head?, k.parentHash = pool.genesis.hash)
    (hpath : path = pre ++ parents) (hserves : chain.Serves pre) :
    Spec (Sound config pool now) (snapshot now chain (.ofNat n) hash parents)
      (fun snap c => Sound config pool now c ∧ replay config now pool.genesis path = .ok snap)
      (fun e c => Sound config pool now c ∧ replay config now pool.genesis path = .error e) := by
  rw [snapshot, UInt64.toNat_ofNat_of_lt' hb.lt]
  refine Spec.bind ((snapshotWalk_spec hchain hb hroot hpath hserves []).mono (fun _ h => h)
    (fun _ _ h => h) ?_) fun found => ?_
  · rintro e c ⟨hc, hgen⟩
    rw [replay, hgen]
    exact ⟨hc, rfl⟩
  rintro c ⟨hc, p, q, hpq, hok, hfound⟩
  rw [append_nil] at hfound
  rw [← hfound] at hpq
  refine finishSnapshot_spec ?_ ?_ ?_ c hc
  · exact fun k hk => hb.mem k (hpq ▸ mem_append_right p hk)
  · intro sigcache hsig snap happly
    rw [apply_eq_replay pool.hash_injOn hb hpq hok hsig] at happly
    have hhash := (replay_number_hash pool.hash_injOn hb happly).2
    exact ⟨⟨n, path, hhash ▸ hb, happly⟩, happly⟩
  · intro sigcache hsig e happly
    rwa [apply_eq_replay pool.hash_injOn hb hpq hok hsig] at happly

/-! ### Any call keeps the engine sound -/

theorem nextHeader_eq_ok (hreads : chain.Reads pool) {number : UInt64} {parents : List Header}
    (hparents : ∀ k ∈ parents, k ∈ pool.headers) {next : Header × List Header}
    (h : nextHeader chain number hash parents = .ok next) :
    next.1 ∈ pool.headers ∧ next.1.hash = hash ∧ next.1.number64 = number ∧
      ∀ k ∈ next.2, k ∈ pool.headers := by
  rcases eq_nil_or_concat' parents with rfl | ⟨parents, last, rfl⟩
  · rw [nextHeader_nil] at h
    cases hget : chain.getHeader hash number with
    | none => simp [hget] at h
    | some header =>
      obtain ⟨hmem, hhash, hnumber⟩ := hreads.getHeader_eq hash number header hget
      simp only [hget, Except.ok.injEq] at h
      subst h
      exact ⟨hmem, hhash, hnumber, fun k hk => absurd hk not_mem_nil⟩
  · simp only [nextHeader, getLast?_concat, dropLast_concat] at h
    split_ifs at h with hlink
    simp only [not_or, not_not] at hlink
    cases h
    exact ⟨hparents last (by simp), hlink.1, hlink.2, fun k hk =>
      hparents k (mem_append_left _ hk)⟩

/-- Headers that follow each other, the first of them after the block with a given hash. -/
structure Following (pool : HeaderPool) (hash : Hash) (headers : List Header) : Prop where
  mem : ∀ k ∈ headers, k ∈ pool.headers
  number_ne : ∀ k ∈ headers, k.number64 ≠ 0
  linked : headers.IsChain fun h k => k.parentHash = h.hash
  head : ∀ k ∈ headers.head?, k.parentHash = hash

theorem Following.cons {header : Header}
    (h : Following pool header.hash headers) (hmem : header ∈ pool.headers)
    (hne : header.number64 ≠ 0) : Following pool header.parentHash (header :: headers) where
  mem := forall_mem_cons.2 ⟨hmem, h.mem⟩
  number_ne := forall_mem_cons.2 ⟨hne, h.number_ne⟩
  linked := isChain_cons.2 ⟨h.head, h.linked⟩
  head := by
    rintro k ⟨rfl⟩
    rfl

/-- A genuine snapshot and headers that may come after it; those after the genesis block need not
refer to it. -/
structure Resumable (config : PrometheusConfig) (pool : HeaderPool) (now : UnixTime)
    (snap : Historysnap) (headers : List Header) : Prop where
  genuine : Genuine config pool now snap.hash snap
  following : ∃ hash, Following pool hash headers ∧ (snap.number ≠ 0 → hash = snap.hash)

theorem Genuine.resumable (h : Genuine config pool now hash snap)
    (hfollowing : Following pool hash headers) : Resumable config pool now snap headers where
  genuine := by
    rw [h.hash_eq]
    exact h
  following := ⟨hash, hfollowing, fun _ => h.hash_eq.symm⟩

theorem snapshotWalk_sound (hreads : chain.Reads pool) :
    ∀ (n : ℕ) (hash : Hash) (parents headers : List Header), n < 2 ^ 64 →
      (∀ k ∈ parents, k ∈ pool.headers) → Following pool hash headers →
      Spec (Sound config pool now) (snapshotWalk now chain n hash parents headers)
        (fun found c => Sound config pool now c ∧ Resumable config pool now found.1 found.2)
        (fun _ => Sound config pool now) := by
  intro n
  induction n with
  | zero =>
    intro hash parents headers _ _ hfollowing
    refine Spec.bind (findSnapshot_spec 0 hash) fun found => ?_
    cases found with
    | some snap => exact Spec.pure fun c hc => ⟨hc.1, (hc.2 snap rfl).resumable hfollowing⟩
    | none =>
      refine Spec.bind ((genesisSnapshot_spec hreads.genesis_eq).mono (fun c hc => hc.1)
        (fun _ _ h => h) fun _ _ h => h.1) fun snap => ?_
      refine Spec.pure fun c hc => ?_
      obtain ⟨hnumber, hhash⟩ := replayGenesis_eq_ok hc.2
      refine ⟨hc.1, ⟨0, [], hhash ▸ .genesis, ?_⟩, hash, hfollowing, fun hn =>
        absurd hnumber hn⟩
      rw [replay, hc.2]
      rfl
  | succ n ih =>
    intro hash parents headers hlt hparents hfollowing
    refine Spec.bind (findSnapshot_spec (n + 1) hash) fun found => ?_
    cases found with
    | some snap => exact Spec.pure fun c hc => ⟨hc.1, (hc.2 snap rfl).resumable hfollowing⟩
    | none =>
      cases hnext : nextHeader chain (.ofNat (n + 1)) hash parents with
      | error e => exact Spec.throw fun c hc => hc.1
      | ok next =>
        obtain ⟨hheader, rfl, hnumber, hrest⟩ := nextHeader_eq_ok hreads hparents hnext
        have hne : next.1.number64 ≠ 0 :=
          hnumber ▸ ofNat_ne_zero hlt (Nat.succ_ne_zero n)
        exact (ih next.1.parentHash next.2 (next.1 :: headers) (Nat.lt_of_succ_lt hlt) hrest
          (hfollowing.cons hheader hne)).mono (fun c hc => hc.1) (fun _ _ h => h)
          fun _ _ h => h

theorem Resumable.apply {snap' : Historysnap} (h : Resumable config pool now snap headers)
    {sigcache : SigCache} (hsig : SigCache.Sound pool.headers sigcache)
    (happly : (snap.apply config headers sigcache).1 = .ok snap') :
    Genuine config pool now snap'.hash snap' := by
  cases headers with
  | nil =>
    cases happly
    exact h.genuine
  | cons header rest =>
    obtain ⟨hcont, hfirst, -⟩ := apply_cons_eq_ok happly
    obtain ⟨n, path, hb, hok⟩ := h.genuine
    obtain ⟨hash, hfollowing, hhash⟩ := h.following
    have hnumber := (replay_number_hash pool.hash_injOn hb hok).1
    have hhead : ∀ k ∈ (header :: rest).head?, k.number64 = .ofNat n + 1 ∧
        (n ≠ 0 → k.parentHash = snap.hash) := by
      rintro k ⟨rfl⟩
      refine ⟨hnumber ▸ hfirst, fun hn => ?_⟩
      rw [hfollowing.head header rfl, hhash (hnumber ▸ ofNat_ne_zero hb.lt hn)]
    obtain ⟨hash', hb'⟩ := hb.append hfollowing.mem hfollowing.number_ne hcont hfollowing.linked
      hhead
    rw [apply_eq_replay pool.hash_injOn hb' rfl hok hsig] at happly
    obtain ⟨-, rfl⟩ := replay_number_hash pool.hash_injOn hb' happly
    exact ⟨_, _, hb', happly⟩

/-- **Any call of `snapshot` keeps the engine sound**, whether it succeeds or fails. -/
theorem snapshot_sound (hreads : chain.Reads pool) (number : UInt64) (hash : Hash)
    {parents : List Header} (hparents : ∀ k ∈ parents, k ∈ pool.headers) :
    Spec (Sound config pool now) (snapshot now chain number hash parents)
      (fun _ => Sound config pool now) (fun _ => Sound config pool now) := by
  have hnone : Following pool hash [] :=
    ⟨fun _ h => absurd h not_mem_nil, fun _ h => absurd h not_mem_nil, List.IsChain.nil,
      fun _ h => by cases h⟩
  refine Spec.bind (snapshotWalk_sound hreads number.toNat hash parents [] number.toNat_lt hparents
    hnone) fun found => ?_
  rintro c ⟨hc, hfound⟩
  obtain ⟨_, hfollowing, -⟩ := hfound.following
  refine (finishSnapshot_spec (R := fun _ => True) (F := fun _ => True) hfollowing.mem
    (fun sigcache hsig snap happly => ⟨hfound.apply hsig happly, trivial⟩)
    fun _ _ _ _ => trivial).mono (fun _ h => h) (fun _ _ h => h.1) (fun _ _ h => h.1) c hc

/-! ### Reachable engines -/

omit [Crypto] in
theorem engineAfter_of_spec {α : Type} {x : EngineM α} {P : Prometheus → Prop}
    (h : Spec P x (fun _ => P) (fun _ => P)) (hc : P c) : P (engineAfter (x c)) := by
  have hspec := h c hc
  cases hrun : x c with
  | ok a c' | error e c' =>
    rw [hrun] at hspec
    exact hspec

omit [Crypto] in
theorem outcome_of_spec {α : Type} {x : EngineM α} {P Q : Prometheus → Prop} {r : Except Err α}
    (h : Spec P x (fun a c => Q c ∧ r = .ok a) (fun e c => Q c ∧ r = .error e))
    (hc : P c) : outcome (x c) = r := by
  have hspec := h c hc
  cases hrun : x c with
  | ok a c' | error e c' =>
    rw [hrun] at hspec
    exact hspec.2.symm

/-- The engines that arise: a new one has empty caches and a database without snapshots; after that
come calls of `snapshot`, on any chain, whether they succeed or fail, the recovery of sealers,
changes of the proposals and of the local signer, and restarts, which keep only the database. -/
inductive Reachable (config : PrometheusConfig) (pool : HeaderPool) :
    UnixTime → Prometheus → Prop
  | new {now : UnixTime} {c : Prometheus} :
      c.config = config → c.recents = Arc.new inmemoryHistorysnaps →
        c.signatures = Arc.new inmemorySignatures →
        (∀ hash, c.db.lookup (snapshotKey hash) = none) → Reachable config pool now c
  | wait {now now' : UnixTime} {c : Prometheus} :
      Reachable config pool now c → now ≤ now' → Reachable config pool now' c
  | snapshot {now : UnixTime} {c : Prometheus} {chain : ChainReader} {number : UInt64}
      {hash : Hash} {parents : List Header} :
      Reachable config pool now c → chain.Reads pool → (∀ k ∈ parents, k ∈ pool.headers) →
        Reachable config pool now (engineAfter (snapshot now chain number hash parents c))
  | recover {now : UnixTime} {c : Prometheus} {header : Header} :
      Reachable config pool now c → header ∈ pool.headers →
        Reachable config pool now { c with signatures := (ecrecover header c.signatures).2 }
  | settings {now : UnixTime} {c : Prometheus} {proposals : Finmap fun _ : AddressHash => Bool}
      {signer : Address} {signFn : Address → Bytes → Except Err Bytes} :
      Reachable config pool now c →
        Reachable config pool now
          { c with proposals := proposals, signer := signer, signFn := signFn }
  | restart {now : UnixTime} {c : Prometheus} :
      Reachable config pool now c →
        Reachable config pool now
          { c with
            recents := Arc.new inmemoryHistorysnaps
            signatures := Arc.new inmemorySignatures }

theorem Reachable.sound (h : Reachable config pool now c) : Sound config pool now c := by
  induction h with
  | new hconfig hrecents hsignatures hdb =>
    refine ⟨hconfig, hrecents ▸ Arc.all_new _ _, ?_, hsignatures ▸ Arc.all_new _ _⟩
    intro hash snap hload
    rw [loadHistorysnap, hdb hash] at hload
    cases hload
  | wait _ hnow ih => exact ih.mono hnow
  | snapshot _ hreads hparents ih =>
    exact engineAfter_of_spec (snapshot_sound hreads _ _ hparents) ih
  | recover _ hmem ih =>
    exact { ih with signatures := (ecrecover_sound pool.hash_injOn ih.signatures hmem).2 }
  | settings _ ih => exact { ih with }
  | restart _ ih => exact ⟨ih.config_eq, Arc.all_new _ _, ih.db, Arc.all_new _ _⟩

/-- **The caches are transparent**: on every chain, a reachable engine returns for every block and
every choice of parents the snapshot, or the error, that replaying all headers gives. -/
theorem snapshot_eq_replay {pre parents : List Header} (hc : Reachable config pool now c)
    (hchain : chain.genesis = pool.genesis) (hb : Branch pool.genesis pool.headers n hash path)
    (hroot : ∀ k ∈ path.head?, k.parentHash = pool.genesis.hash) (hpath : path = pre ++ parents)
    (hserves : chain.Serves pre) : outcome (snapshot now chain (.ofNat n) hash parents c) =
      replay config now pool.genesis path :=
  outcome_of_spec (snapshot_spec hchain hb hroot hpath hserves) hc.sound

end Prometheus

/-! ### A node that has seen one block -/

namespace Sample

/-- The genesis block and the block after it. -/
def pool : HeaderPool where
  genesis := genesis
  headers := {genesis, addOutsider}
  genesis_mem := Or.inl rfl
  genesis_number := chain.genesis_number
  hash_injOn := by
    have hne : genesis.hash ≠ addOutsider.hash := by decide +kernel
    rintro h (rfl | rfl) k (rfl | rfl) hhash
    · rfl
    · exact absurd hhash hne
    · exact absurd hhash.symm hne
    · rfl

/-- The chain with the block after the genesis block. -/
def chainOne : ChainReader := chain.extend [addOutsider]

theorem chainOne_reads : chainOne.Reads pool where
  genesis_eq := rfl
  getHeader_eq hash number header hget := by
    by_cases hfound : addOutsider.hash = hash ∧ addOutsider.number64 = number
    · have hsome : chainOne.getHeader hash number = some addOutsider := by
        simp [chainOne, ChainReader.extend, hfound]
      rw [hsome] at hget
      cases hget
      exact ⟨.inr rfl, hfound⟩
    · have hchain : chainOne.getHeader hash number =
          if hash = genesisHash ∧ number = 0 then some genesis else none := by
        simp [chainOne, ChainReader.extend, hfound, chain]
      rw [hchain] at hget
      split_ifs at hget with hgenesis
      cases hget
      exact ⟨.inl rfl, genesis_hash.trans hgenesis.1.symm, hgenesis.2.symm⟩

/-- The engine after the snapshot of the block was asked for once. -/
def engineOne : Prometheus :=
  engineAfter (Prometheus.snapshot 2000 chainOne 1 addOutsider.hash [] engine)

theorem branchOne : Branch pool.genesis pool.headers 1 addOutsider.hash [addOutsider] :=
  .next .genesis (.inr rfl) (by decide) (by decide) fun h => absurd rfl h

end Sample

open scoped Sample in
/-- The engine has the snapshot in memory, and it is the one that replaying the block gives. -/
theorem Prometheus.snapshot_eq_replay_addOutsider :
    (Sample.engineOne.recents.get Sample.addOutsider.hash).1.isSome = true ∧
      outcome (Prometheus.snapshot 2000 Sample.chainOne 1 Sample.addOutsider.hash
        [Sample.addOutsider] Sample.engineOne) =
        replay Sample.config 2000 Sample.genesis [Sample.addOutsider] := by
  refine ⟨by decide +kernel, ?_⟩
  have hengine : Prometheus.Reachable Sample.config Sample.pool 2000 Sample.engineOne :=
    .snapshot (.new rfl rfl rfl fun _ => rfl) Sample.chainOne_reads fun _ h => absurd h not_mem_nil
  have hgenesis : Sample.chainOne.genesis = Sample.pool.genesis := rfl
  have hroot : ∀ k ∈ [Sample.addOutsider].head?, k.parentHash = Sample.pool.genesis.hash := by
    rintro k ⟨rfl⟩
    exact Sample.genesis_hash.symm
  have hparents : [Sample.addOutsider] = [] ++ [Sample.addOutsider] := rfl
  have hserves : Sample.chainOne.Serves [] := fun _ h => absurd h not_mem_nil
  have hreplay := Prometheus.snapshot_eq_replay hengine hgenesis Sample.branchOne hroot hparents
    hserves
  exact hreplay
