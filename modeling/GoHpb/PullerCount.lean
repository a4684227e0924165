/-
**The counters of the block puller.**

The counter of a peer goes up when an announcement is accepted, and down when it is forgotten.  At
the fetch timer all announcements of a block are forgotten, and the one that was picked is put into
`fetching` after that, without being counted again; it is taken off the counter a second time when
the block is forgotten.  So the counters are exact as long as no announcement is picked, and they
are wrong from the first one on.

Main results:

* `Puller.announces_exact_iff` — **the counters are exact in all states of a run exactly if no fetch
  timer picks an announcement**.
-/

import GoHpb.Puller
import GoHpb.CryptoTable

namespace Synctrl

namespace Puller

open FinmapTotal List Puller Finmap Function

section Counters

variable {Tx : Type} {s : Puller Tx} {hash : Hash}

/-- The announcements that are in the tables. -/
def refs (s : Puller Tx) : Finset ℕ :=
  members List.toFinset s.announced ∪ members singleton s.fetching ∪
    (members List.toFinset s.fetched ∪ members singleton s.completing)

/-- The number of announcements of a peer that are in the tables, each counted once. -/
def held (s : Puller Tx) (peer : String) : ℕ := (s.refs.filter fun r => s.origin r = peer).card

/-- The counters have the number of outstanding announcements, and keep the limit. -/
structure Exact (s : Puller Tx) : Prop where
  counts : ∀ peer, s.announces peer = s.held peer
  nonneg : ∀ peer, 0 ≤ s.announces peer
  bounded : ∀ peer, s.held peer ≤ hashLimit

/-- The number of announcements of a peer in a list. -/
def tally (s : Puller Tx) (peer : String) (l : List ℕ) : ℕ :=
  (l.filter fun r => s.origin r = peer).length

/-- The counters count what is in `announced`, where each announcement is once; nothing has a header
yet, and what is being fetched was announced no more. -/
structure Settled (s : Puller Tx) : Prop where
  nodup : ∀ k l, s.announced.lookup k = some l → l.Nodup
  apart : ∀ k k' l l' r, s.announced.lookup k = some l → s.announced.lookup k' = some l' → r ∈ l →
    r ∈ l' → k = k'
  alloc : ∀ k l r, s.announced.lookup k = some l → r ∈ l → r < s.heap.length
  counts : ∀ peer, s.announces peer = total (s.tally peer) s.announced
  limit : ∀ peer, s.announces peer ≤ hashLimit
  picked : ∀ k r, s.fetching.lookup k = some r → s.announced.lookup k = none ∧
    ∀ k' l, s.announced.lookup k' = some l → r ∉ l
  noFetched : ∀ k, s.fetched.lookup k = none
  noCompleting : ∀ k, s.completing.lookup k = none

/-- The counters are exact, and nothing is being fetched. -/
structure Quiet (s : Puller Tx) : Prop extends Settled s where
  noFetching : ∀ k, s.fetching.lookup k = none

/-! ### Counting -/

theorem quiet_new : Quiet (new : Puller Tx) where
  nodup := fun k _ hk => nomatch hk.symm.trans (lookup_empty k)
  apart := fun k _ _ _ _ hk => nomatch hk.symm.trans (lookup_empty k)
  alloc := fun k _ _ hk => nomatch hk.symm.trans (lookup_empty k)
  counts := fun _ => rfl
  limit := fun _ => Int.natCast_nonneg hashLimit
  picked := fun k _ hk => nomatch hk.symm.trans (lookup_empty k)
  noFetched := lookup_empty
  noCompleting := lookup_empty
  noFetching := lookup_empty

theorem discount_apply (s : Puller Tx) (l : List ℕ) (counts : String → ℤ) (peer : String) :
    s.discount l counts peer = counts peer - s.tally peer l := by
  induction l generalizing counts with
  | nil => simp [discount, tally]
  | cons r l ih =>
    rw [discount, foldl_cons, ← discount, ih, tally, tally]
    by_cases h : s.origin r = peer
    · rw [filter_cons_of_pos (by simpa using h), h, update_self, length_cons]
      push_cast
      ring
    · rw [filter_cons_of_neg (by simpa using h), update_of_ne (Ne.symm h)]

theorem Settled.card_announced (h : Settled s) (peer : String) :
    (((members List.toFinset s.announced).filter fun r => s.origin r = peer).card : ℤ) =
      s.announces peer := by
  rw [filter_members, card_members, h.counts]
  · congr 1
    refine Finset.sum_congr rfl fun k _ => ?_
    cases hk : s.announced.lookup k with
    | none => rfl
    | some l =>
      change ((l.toFinset.filter fun r => s.origin r = peer).card) = s.tally peer l
      have hnodup := (h.nodup k l hk).filter fun r => decide (s.origin r = peer)
      rw [tally, ← toFinset_card_of_nodup hnodup, toFinset_filter]
      simp only [decide_eq_true_eq]
  · intro k k' l l' hk hk' hne
    refine Finset.disjoint_left.2 fun r hr hr' => hne ?_
    exact h.apart k k' l l' r hk hk' (mem_toFinset.1 (Finset.mem_filter.1 hr).1)
      (mem_toFinset.1 (Finset.mem_filter.1 hr').1)

theorem members_eq_empty {β : Type} {g : β → Finset ℕ} {m : Finmap fun _ : Hash => β}
    (h : ∀ k, m.lookup k = none) : members g m = ∅ := by
  refine Finset.eq_empty_of_forall_notMem fun r hr => ?_
  obtain ⟨k, b, hk, -⟩ := mem_members.1 hr
  rw [h k] at hk
  exact nomatch hk

theorem Quiet.exact (h : Quiet s) : Exact s := by
  have hrefs : s.refs = members List.toFinset s.announced := by
    rw [refs, members_eq_empty h.noFetching, members_eq_empty h.noFetched,
      members_eq_empty h.noCompleting, Finset.union_empty, Finset.union_empty, Finset.union_empty]
  have hcount : ∀ peer, (s.held peer : ℤ) = s.announces peer := fun peer => by
    rw [held, hrefs]
    exact h.card_announced peer
  refine ⟨fun peer => (hcount peer).symm, fun peer => ?_, fun peer => ?_⟩
  · rw [← hcount]
    exact Int.natCast_nonneg _
  have hlimit := h.limit peer
  rw [← hcount] at hlimit
  exact_mod_cast hlimit

theorem Settled.not_exact (h : Settled s) {r : ℕ} (hr : s.fetching.lookup hash = some r) :
    ¬ Exact s := by
  intro hexact
  have hnew : r ∉ (members List.toFinset s.announced).filter
      fun r' => s.origin r' = s.origin r := by
    intro hmem
    obtain ⟨k, l, hk, hl⟩ := mem_members.1 (Finset.mem_filter.1 hmem).1
    exact (h.picked hash r hr).2 k l hk (mem_toFinset.1 hl)
  have hsub : insert r ((members List.toFinset s.announced).filter
      fun r' => s.origin r' = s.origin r) ⊆ s.refs.filter fun r' => s.origin r' = s.origin r := by
    intro r' hr'
    rcases Finset.mem_insert.1 hr' with rfl | hr'
    · refine Finset.mem_filter.2 ⟨?_, rfl⟩
      exact Finset.mem_union_left _ (Finset.mem_union_right _
        (mem_members.2 ⟨hash, r', hr, Finset.mem_singleton_self r'⟩))
    · obtain ⟨hmem, horigin⟩ := Finset.mem_filter.1 hr'
      exact Finset.mem_filter.2 ⟨Finset.mem_union_left _ (Finset.mem_union_left _ hmem), horigin⟩
  have hle := Finset.card_le_card hsub
  rw [Finset.card_insert_of_notMem hnew] at hle
  have hcard := h.card_announced (s.origin r)
  have hcount := hexact.counts (s.origin r)
  rw [held] at hcount
  omega

/-! ### Forgetting a block -/

/-- **Forgetting a block that is not being fetched.** -/
theorem Settled.forgetHash (h : Settled s) (hnone : s.fetching.lookup hash = none) :
    Settled (s.forgetHash hash) ∧
      ∀ k, (s.forgetHash hash).fetching.lookup k = s.fetching.lookup k := by
  have hannounced : ∀ k l, (s.announced.erase hash).lookup k = some l →
      s.announced.lookup k = some l := by
    intro k l hl
    by_cases hk : k = hash
    · subst hk
      rw [lookup_erase] at hl
      exact nomatch hl
    · rwa [lookup_erase_ne hk] at hl
  have hfetching : ∀ k, (s.fetching.erase hash).lookup k = s.fetching.lookup k := by
    intro k
    by_cases hk : k = hash
    · subst hk
      rw [lookup_erase, hnone]
    · exact lookup_erase_ne hk
  have hnone' : ∀ {β : Type} {m : Finmap fun _ : Hash => β}, (∀ k, m.lookup k = none) →
      ∀ k, (m.erase hash).lookup k = none := by
    intro β m hm k
    by_cases hk : k = hash
    · subst hk
      exact lookup_erase _ _
    · rw [lookup_erase_ne hk, hm]
  have hcount : ∀ peer, (s.forgetHash hash).announces peer =
      s.announces peer - s.tally peer ((s.announced.lookup hash).getD []) := by
    intro peer
    simp only [Puller.forgetHash, discount_apply, hnone, h.noFetched hash, h.noCompleting hash]
    simp [tally]
  have htotal : ∀ peer, (total (s.tally peer) (s.announced.erase hash) : ℤ) =
      s.announces peer - s.tally peer ((s.announced.lookup hash).getD []) := by
    intro peer
    rw [h.counts]
    cases hl : s.announced.lookup hash with
    | none =>
      rw [total_erase_none hl]
      simp [tally]
    | some l =>
      have herase := total_erase (f := s.tally peer) hl
      rw [Option.getD_some]
      omega
  refine ⟨⟨fun k l hk => h.nodup k l (hannounced k l hk), fun k k' l l' r hk hk' =>
    h.apart k k' l l' r (hannounced k l hk) (hannounced k' l' hk'), fun k l r hk =>
    h.alloc k l r (hannounced k l hk), fun peer => (hcount peer).trans (htotal peer).symm,
    fun peer => ?_, fun k r hr => ?_, hnone' h.noFetched, hnone' h.noCompleting⟩, hfetching⟩
  · have hlimit := h.limit peer
    rw [hcount]
    omega
  obtain ⟨hk, hlists⟩ := h.picked k r ((hfetching k).symm.trans hr)
  refine ⟨?_, fun k' l hk' => hlists k' l (hannounced k' l hk')⟩
  cases hl : (s.announced.erase hash).lookup k with
  | none => exact hl
  | some l =>
    rw [hannounced k l hl] at hk
    exact nomatch hk

theorem Quiet.forgetHash (h : Quiet s) (hash : Hash) : Quiet (s.forgetHash hash) := by
  obtain ⟨hsettled, hsame⟩ := h.toSettled.forgetHash (h.noFetching hash)
  exact ⟨hsettled, fun k => (hsame k).trans (h.noFetching k)⟩

theorem Quiet.congr {s' : Puller Tx} (h : Quiet s) (hheap : s'.heap = s.heap)
    (hannounces : s'.announces = s.announces) (hannounced : s'.announced = s.announced)
    (hfetching : s'.fetching = s.fetching) (hfetched : s'.fetched = s.fetched)
    (hcompleting : s'.completing = s.completing) : Quiet s' := by
  cases s
  subst hheap hannounces hannounced hfetching hfetched hcompleting
  exact ⟨{ h with }, h.noFetching⟩

theorem Quiet.forgetBlock (h : Quiet s) (hash : Hash) : Quiet (s.forgetBlock hash) := by
  unfold Puller.forgetBlock
  split
  · exact h.congr rfl rfl rfl rfl rfl rfl
  · exact h

/-! ### The fetch timer -/

theorem due_eq_some {now first : ℕ} {rest : List ℕ} (h : s.due now hash = some (first, rest)) :
    s.announced.lookup hash = some (first :: rest) := by
  unfold due at h
  split at h
  · next first' rest' hl =>
      split at h
      · obtain ⟨rfl, rfl⟩ := Prod.mk.inj (Option.some.inj h)
        exact hl
      · exact nomatch h
  · exact nomatch h

theorem due_forgetHash {k : Hash} (hne : k ≠ hash) (now : ℕ) :
    (s.forgetHash hash).due now k = s.due now k := by
  have hannounced : (s.forgetHash hash).announced = s.announced.erase hash := rfl
  rw [due, due, hannounced, lookup_erase_ne hne]
  rfl

theorem pick_mem (rand : Hash → ℕ) (hash : Hash) (first : ℕ) (rest : List ℕ) :
    pick rand hash first rest ∈ first :: rest := by
  have hlt : rand hash % (rest.length + 1) < (first :: rest).length :=
    Nat.mod_lt _ (Nat.succ_pos _)
  rw [pick, getD_eq_getElem _ _ hlt]
  exact getElem_mem hlt

theorem Settled.not_fetching (h : Settled s) {now : ℕ} {d : ℕ × List ℕ}
    (hdue : s.due now hash = some d) : s.fetching.lookup hash = none := by
  cases hr : s.fetching.lookup hash with
  | none => rfl
  | some r =>
    have hnone := (h.picked hash r hr).1
    rw [due_eq_some hdue] at hnone
    exact nomatch hnone

theorem Settled.fetchOne (h : Settled s) (chain : LocalChain) (now : ℕ) (rand : Hash → ℕ)
    (hash : Hash) : Settled (fetchOne chain now rand s hash) := by
  unfold Puller.fetchOne
  cases hdue : s.due now hash with
  | none => exact h
  | some d =>
    obtain ⟨first, rest⟩ := d
    have hlookup := due_eq_some hdue
    obtain ⟨hsettled, hsame⟩ := h.forgetHash (h.not_fetching hdue)
    split_ifs
    · exact hsettled
    refine ⟨hsettled.nodup, hsettled.apart, hsettled.alloc, hsettled.counts, hsettled.limit,
      fun k r hr => ?_, hsettled.noFetched, hsettled.noCompleting⟩
    obtain ⟨rfl, rfl⟩ | ⟨-, hr⟩ := FinmapTotal.of_lookup_insert hr
    · refine ⟨lookup_erase _ _, fun k' l hk' hmem => ?_⟩
      by_cases hne : k' = k
      · subst hne
        exact nomatch hk'.symm.trans (lookup_erase k' s.announced)
      · exact hne (h.apart k' k l _ _ ((lookup_erase_ne hne).symm.trans hk') hlookup hmem
          (pick_mem rand k first rest))
    · exact hsettled.picked k r hr

theorem Settled.fetchTimer (h : Settled s) (chain : LocalChain) (now : ℕ) (order : List Hash)
    (rand : Hash → ℕ) : Settled (s.fetchTimer chain now order rand) := by
  induction order generalizing s with
  | nil => exact h
  | cons hash order ih => exact ih (h.fetchOne chain now rand hash)

/-- A block that is due and that the chain does not have. -/
def Missing (s : Puller Tx) (chain : LocalChain) (now : ℕ) (hash : Hash) : Prop :=
  (s.due now hash).isSome ∧ ¬ chain.getBlock hash

/-- **What a fetch timer picks**: something is being fetched after it if and only if there was
something before, or a block that is due is missing. -/
theorem exists_fetching_fetchTimer (h : Settled s) (chain : LocalChain) (now : ℕ)
    (order : List Hash) (rand : Hash → ℕ) :
    (∃ k r, (s.fetchTimer chain now order rand).fetching.lookup k = some r) ↔
      (∃ k r, s.fetching.lookup k = some r) ∨ ∃ hash ∈ order, s.Missing chain now hash := by
  unfold fetchTimer
  -- by induction on the blocks that are visited
  induction order generalizing s with
  | nil => simp
  | cons hash order ih =>
    rw [foldl_cons, ih (h.fetchOne chain now rand hash)]
    cases hdue : s.due now hash with
    | none =>
      have hsame : fetchOne chain now rand s hash = s := by
        unfold fetchOne
        rw [hdue]
      have hnot : ¬ s.Missing chain now hash := fun hmissing => by
        have hsome := hmissing.1
        rw [hdue] at hsome
        exact nomatch hsome
      simp only [hsame, exists_mem_cons_iff, hnot, false_or]
    | some d =>
      obtain ⟨hsettled, hfetching⟩ := h.forgetHash (h.not_fetching hdue)
      by_cases hknown : chain.getBlock hash = true
      · -- the block came by itself, and is forgotten
        have hsame : fetchOne chain now rand s hash = s.forgetHash hash := by
          unfold fetchOne
          rw [hdue]
          exact if_pos hknown
        have hmissing : ∀ k, (s.forgetHash hash).Missing chain now k ↔ s.Missing chain now k := by
          intro k
          by_cases hk : k = hash
          · subst hk
            exact iff_of_false (fun hm => hm.2 hknown) fun hm => hm.2 hknown
          · rw [Missing, Missing, due_forgetHash hk]
        have hnot : ¬ s.Missing chain now hash := fun hm => hm.2 hknown
        simp only [hsame, hfetching, hmissing, exists_mem_cons_iff, hnot, false_or]
      · have hpicked : ∃ r, (fetchOne chain now rand s hash).fetching.lookup hash = some r := by
          unfold fetchOne
          rw [hdue]
          dsimp only
          rw [if_neg hknown]
          exact ⟨_, lookup_insert _⟩
        refine iff_of_true (.inl ⟨hash, hpicked⟩) (.inr ⟨hash, mem_cons_self, ?_, hknown⟩)
        rw [hdue]
        rfl

/-! ### Announcements -/

theorem Quiet.accept (h : Quiet s) (a : Announce) (hcount : s.announces a.origin + 1 ≤ hashLimit) :
    Quiet { s with
      heap := s.heap ++ [a]
      announces := update s.announces a.origin (s.announces a.origin + 1)
      announced := s.announced.insert a.hash
        ((s.announced.lookup a.hash).getD [] ++ [s.heap.length]) } := by
  set l := (s.announced.lookup a.hash).getD [] with hl
  set s' : Puller Tx := { s with
    heap := s.heap ++ [a]
    announces := update s.announces a.origin (s.announces a.origin + 1)
    announced := s.announced.insert a.hash (l ++ [s.heap.length]) } with hs'
  -- the announcements that were there before
  have hlook : (s.announced.lookup a.hash = none ∧ l = []) ∨
      s.announced.lookup a.hash = some l := by
    cases hlook : s.announced.lookup a.hash <;> simp [hl, hlook]
  have hold : ∀ r ∈ l, s.announced.lookup a.hash = some l ∧ r < s.heap.length := by
    intro r hr
    rcases hlook with ⟨-, hnil⟩ | hlook
    · rw [hnil] at hr
      cases hr
    · exact ⟨hlook, h.alloc _ _ r hlook hr⟩
  have hmem : ∀ k l' r, s'.announced.lookup k = some l' → r ∈ l' →
      (k = a.hash ∧ r = s.heap.length) ∨ ∃ l₀, s.announced.lookup k = some l₀ ∧ r ∈ l₀ := by
    intro k l' r hk hr
    rcases of_lookup_insert hk with ⟨rfl, rfl⟩ | ⟨-, hk⟩
    · rcases mem_append.1 hr with hr | hr
      · exact .inr ⟨l, (hold r hr).1, hr⟩
      · exact .inl ⟨rfl, mem_singleton.1 hr⟩
    · exact .inr ⟨l', hk, hr⟩
  have horigin : ∀ r < s.heap.length, s'.origin r = s.origin r := by
    intro r hr
    rw [origin, origin, hs']
    rw [getElem?_append_left hr]
  have htally : ∀ peer (l' : List ℕ), (∀ r ∈ l', r < s.heap.length) →
      s'.tally peer l' = s.tally peer l' := by
    intro peer l' hlt
    rw [tally, tally]
    congr 1
    exact filter_congr fun r hr => by rw [horigin r (hlt r hr)]
  have hnew : ∀ peer, s'.tally peer (l ++ [s.heap.length]) =
      s.tally peer l + if a.origin = peer then 1 else 0 := by
    intro peer
    have hself : s'.origin s.heap.length = a.origin := by
      rw [origin, hs']
      simp
    rw [tally, filter_append, length_append, ← tally, htally peer l fun r hr => (hold r hr).2]
    split_ifs with hp
    · rw [filter_cons_of_pos (by simpa [hself] using hp)]
      rfl
    · rw [filter_cons_of_neg (by simpa [hself] using hp)]
      rfl
  have htotal : ∀ peer, total (s'.tally peer) s'.announced =
      total (s.tally peer) s.announced + if a.origin = peer then 1 else 0 := by
    intro peer
    have hcongr : total (s'.tally peer) s.announced = total (s.tally peer) s.announced :=
      total_congr fun k l' hk => htally peer l' fun r hr => h.alloc k l' r hk hr
    rcases hlook with ⟨hlook, hnil⟩ | hlook
    · have hins := total_insert_new (f := s'.tally peer) (b := l ++ [s.heap.length]) hlook
      have htl : s.tally peer l = 0 := by rw [hnil]; rfl
      rw [hnew, hcongr, htl, Nat.zero_add] at hins
      exact hins
    · have hins := total_insert (f := s'.tally peer) (b := l ++ [s.heap.length]) hlook
      rw [hnew, hcongr, htally peer l fun r hr => (hold r hr).2] at hins
      change total (s'.tally peer) (s.announced.insert a.hash _) = _
      omega
  refine ⟨⟨fun k l' hk => ?_, fun k k' l₁ l₂ r hk hk' hr hr' => ?_, fun k l' r hk hr => ?_,
    fun peer => ?_, fun peer => ?_, fun k r hr => ?_, h.noFetched, h.noCompleting⟩, h.noFetching⟩
  · rcases of_lookup_insert hk with ⟨rfl, rfl⟩ | ⟨-, hk⟩
    · have hnodup : l.Nodup := by
        rcases hlook with ⟨-, hnil⟩ | hlook
        · rw [hnil]
          exact nodup_nil
        · exact h.nodup _ _ hlook
      refine nodup_append.2 ⟨hnodup, nodup_singleton _, ?_⟩
      rintro r hr r' hr' rfl
      have hlt := (hold r hr).2
      rw [mem_singleton.1 hr'] at hlt
      exact absurd hlt (lt_irrefl _)
    · exact h.nodup k l' hk
  · rcases hmem k l₁ r hk hr with ⟨rfl, rfl⟩ | ⟨l₀, hk, hr⟩
    · rcases hmem k' l₂ _ hk' hr' with ⟨rfl, -⟩ | ⟨l₀, hk', hr'⟩
      · rfl
      · exact absurd (h.alloc _ _ _ hk' hr') (lt_irrefl _)
    · rcases hmem k' l₂ r hk' hr' with ⟨-, rfl⟩ | ⟨l₀', hk', hr'⟩
      · exact absurd (h.alloc _ _ _ hk hr) (lt_irrefl _)
      · exact h.apart k k' l₀ l₀' r hk hk' hr hr'
  · change r < (s.heap ++ [a]).length
    rw [length_append, length_singleton]
    rcases hmem k l' r hk hr with ⟨-, rfl⟩ | ⟨l₀, hk, hr⟩
    · exact Nat.lt_succ_self _
    · exact Nat.lt_succ_of_lt (h.alloc k l₀ r hk hr)
  · rw [htotal]
    change update s.announces a.origin _ peer = _
    by_cases hp : a.origin = peer
    · subst hp
      rw [update_self, if_pos rfl, h.counts]
      rfl
    · rw [update_of_ne (Ne.symm hp), if_neg hp, h.counts]
      rfl
  · change update s.announces a.origin _ peer ≤ _
    by_cases hp : peer = a.origin
    · subst hp
      rw [update_self]
      exact hcount
    · rw [update_of_ne hp]
      exact h.limit peer
  · rw [h.noFetching k] at hr
    exact nomatch hr

theorem Quiet.notify (h : Quiet s) (chain : LocalChain) (a : Announce) :
    Quiet (s.notify chain a) := by
  unfold Puller.notify
  dsimp only
  split_ifs with hlimit
  · exact h
  · exact h
  · exact h
  · exact h
  · exact h.accept a (not_lt.1 hlimit)

/-! ### The other events -/

theorem foldl_eq_self {σ : Type} {f : σ → Hash → σ} {x : σ} (h : ∀ hash, f x hash = x)
    (order : List Hash) : order.foldl f x = x := by
  induction order with
  | nil => rfl
  | cons hash order ih => rw [foldl_cons, h, ih]

theorem Quiet.expire_eq (h : Quiet s) (now : ℕ) (order : List Hash) : s.expire now order = s :=
  foldl_eq_self (fun hash => by rw [h.noFetching hash]) order

theorem Quiet.completeTimer_eq (h : Quiet s) (chain : LocalChain) (order : List Hash)
    (rand : Hash → ℕ) : s.completeTimer chain order rand = s :=
  foldl_eq_self (fun hash => by rw [h.noFetched hash]) order

end Counters

/-! ### Events -/

section Events

variable {Tx : Type} [Crypto] {s : Puller Tx}

theorem Quiet.enqueue (h : Quiet s) (chain : LocalChain) (peer : String) (block : PulledBlock Tx) :
    Quiet (s.enqueue chain peer block) := by
  unfold Puller.enqueue
  dsimp only
  split_ifs
  · exact h.forgetHash _
  · exact h.forgetHash _
  · exact h
  · exact h.congr rfl rfl rfl rfl rfl rfl

theorem Quiet.headerFilter_eq (h : Quiet s) (chain : LocalChain) (peer : String)
    (headers : List Header) (time : ℕ) : s.headerFilter chain peer headers time = (headers, s) := by
  have hunknown : ∀ (headers unknown : List Header),
      headers.foldl (sortHeader chain peer time) (s, ⟨unknown, [], []⟩) =
        (s, ⟨unknown ++ headers, [], []⟩) := by
    intro headers
    induction headers with
    | nil => exact fun unknown => by rw [append_nil]; rfl
    | cons header headers ih =>
      intro unknown
      have hnone : s.requested peer header.hash = none := by
        unfold requested
        rw [h.noFetching]
      rw [foldl_cons, sortHeader]
      rw [hnone]
      rw [ih, append_assoc, singleton_append]
  unfold headerFilter
  rw [hunknown headers []]
  rfl

variable [GetRlp Tx]

theorem Quiet.matchBodies_eq (h : Quiet s) (chain : LocalChain) (peer : String) (order : List Hash)
    (bodies : List (List Tx × List Header)) :
    matchBodies chain peer order bodies s = (bodies, [], s) := by
  induction bodies with
  | nil => rfl
  | cons body bodies ih =>
    obtain ⟨txs, uncles⟩ := body
    have hnone : matchBody chain peer order s txs uncles = (s, false, []) :=
      foldl_eq_self (fun hash => by dsimp only; rw [h.noCompleting hash]) order
    rw [matchBodies, hnone]
    dsimp only
    rw [ih]
    rfl

variable [DecidableEq Tx]

omit [GetRlp Tx] in
theorem Quiet.importRounds (h : Quiet s) (chain : LocalChain) (rounds : ℕ) :
    Quiet (importRounds chain rounds s) := by
  induction rounds generalizing s with
  | zero => exact h
  | succ rounds ih =>
    unfold importRounds
    split
    · exact h
    next op queue _ =>
      have hqueue : Quiet { s with queue := queue } := h.congr rfl rfl rfl rfl rfl rfl
      dsimp only
      split_ifs
      · exact h.congr rfl rfl rfl rfl rfl rfl
      · exact ih (hqueue.forgetBlock _)
      · exact ih hqueue

/-- A fetch timer that picks an announcement: a block is due that the chain does not have. -/
def Event.Overdue (s : Puller Tx) : Event Tx → Prop
  | Event.fetchTimer chain now order _ => ∃ hash ∈ order, s.Missing chain now hash
  | _ => False

/-- **A step that picks nothing keeps the counters exact.** -/
theorem Quiet.step (h : Quiet s) (e : Event Tx) (hnot : ¬ e.Overdue s) : Quiet (s.step e) := by
  cases e with
  | expire now order =>
    rw [Puller.step, h.expire_eq]
    exact h
  | importQueued chain => exact h.importRounds chain _
  | notify chain peer hash number time => exact h.notify chain _
  | inject chain peer block => exact h.enqueue chain peer block
  | done hash => exact (h.forgetHash hash).forgetBlock hash
  | fetchTimer chain now order rand =>
    refine ⟨h.toSettled.fetchTimer chain now order rand, fun k => ?_⟩
    by_contra hsome
    obtain ⟨r, hr⟩ := Option.ne_none_iff_exists'.1 hsome
    rcases (exists_fetching_fetchTimer h.toSettled chain now order rand).1 ⟨k, r, hr⟩ with
      ⟨k', r', hr'⟩ | hmissing
    · rw [h.noFetching k'] at hr'
      exact nomatch hr'
    · exact hnot hmissing
  | completeTimer chain order rand =>
    rw [Puller.step, h.completeTimer_eq]
    exact h
  | headerFilter chain peer headers time =>
    rw [Puller.step, h.headerFilter_eq]
    exact h
  | bodyFilter chain peer transactions uncles order =>
    have heq : (s.bodyFilter chain peer transactions uncles order).2 = s := by
      unfold bodyFilter
      rw [h.matchBodies_eq]
      rfl
    rw [Puller.step, heq]
    exact h

/-- **A step that picks an announcement leaves a wrong counter.** -/
theorem Quiet.not_exact_step (h : Quiet s) {e : Event Tx} (hover : e.Overdue s) :
    ¬ Exact (s.step e) := by
  cases e with
  | fetchTimer chain now order rand =>
    obtain ⟨k, r, hr⟩ :=
      (exists_fetching_fetchTimer h.toSettled chain now order rand).2 (.inr hover)
    exact (h.toSettled.fetchTimer chain now order rand).not_exact hr
  | _ => exact absurd hover id

/-- The counters are exact in all states of a run. -/
def ExactRun (s : Puller Tx) : List (Event Tx) → Prop
  | [] => Exact s
  | e :: events => Exact s ∧ ExactRun (s.step e) events

/-- No fetch timer of a run picks an announcement. -/
def QuietRun (s : Puller Tx) : List (Event Tx) → Prop
  | [] => True
  | e :: events => ¬ e.Overdue s ∧ QuietRun (s.step e) events

theorem Quiet.exactRun_iff (h : Quiet s) (events : List (Event Tx)) :
    ExactRun s events ↔ QuietRun s events := by
  induction events generalizing s with
  | nil => exact iff_of_true h.exact trivial
  | cons e events ih =>
    rw [ExactRun, QuietRun]
    by_cases hover : e.Overdue s
    · refine iff_of_false (fun hrun => h.not_exact_step hover ?_) fun hrun => hrun.1 hover
      cases events with
      | nil => exact hrun.2
      | cons e' events => exact hrun.2.1
    · rw [ih (h.step e hover)]
      exact ⟨fun hrun => ⟨hover, hrun.2⟩, fun hrun => ⟨h.exact, hrun.2⟩⟩

/-- **The counters are exact in all states of a run exactly if no fetch timer picks an
announcement.** -/
theorem announces_exact_iff (events : List (Event Tx)) :
    ExactRun (new : Puller Tx) events ↔ QuietRun (new : Puller Tx) events :=
  quiet_new.exactRun_iff events

end Events

/-! ### One announcement -/

namespace OneAnnouncement

scoped instance crypto : Crypto := tableCrypto [] []

scoped instance : GetRlp Bytes := ⟨id⟩

/-- A chain without blocks. -/
def chain : LocalChain := ⟨0, fun _ => false⟩

def hash : Hash := FixedBytes.zero 32

/-- A peer announces a block, which is due at the fetch timer; its import ends. -/
def events : List (Event Bytes) :=
  [Event.notify chain "peer" hash 1 0, Event.fetchTimer chain 1000 [hash] fun _ => 0,
    Event.done hash]

/-- The state after some of the events. -/
def state (n : ℕ) : Puller Bytes := (events.take n).foldl step new

end OneAnnouncement

open OneAnnouncement in
/-- The announcement that is being fetched is not counted, and is taken off the counter again. -/
theorem announces_oneAnnouncement : ¬ ExactRun new events ∧
      (state 2).announces "peer" = 0 ∧ (state 2).held "peer" = 1 ∧
      (state 3).announces "peer" = -1 := by
  have hcount : (state 2).announces "peer" = 0 ∧
      (state 2).held "peer" = 1 ∧
      (state 3).announces "peer" = -1 := by decide +kernel
  refine ⟨fun hrun => ?_, hcount⟩
  have hexact : (state 2).announces "peer" =
      (state 2).held "peer" := hrun.2.2.1.counts "peer"
  exact absurd hexact (by decide)

end Puller

end Synctrl
