/-
**The import queue of the block puller.**

A block that is delivered or put together is entered in `queued` and in a priority queue.  The loop
takes the blocks that fit the chain out of the queue again, and hands each one to an import that
runs on its own and tells when it is done.  Until then the block stays in `queued`, so that it is
not taken a second time.  The imports that run are no part of the state of the puller; they are
added to it here.

Main results:

* `Puller.Tracks.importRounds` — **the blocks that leave the queue are imported or forgotten**;
* `ImportLoop.imports_tracked` — **no run of the loop loses a block, imports one twice at a time, or
  exceeds a limit**.
-/

import GoHpb.Puller

namespace Synctrl

open FinmapTotal Finmap Multiset

variable {Tx : Type} [Crypto]

def Inject.hash (op : Inject Tx) : Hash := op.block.header.hash

namespace Puller

/-- The blocks that the loop hands to `insert` while it goes through the queue. -/
def started [DecidableEq Tx] (chain : LocalChain) : ℕ → Puller Tx → List (Inject Tx)
  | 0, _ => []
  | rounds + 1, s =>
    match WorkLedger.popMin (fun op : Inject Tx => priority op.block.header) s.queue with
    | none => []
    | some (op, queue) =>
      let n := number op.block.header
      if (chain.chainHeight + 1) % 2 ^ 64 < n then []
      else if (n + maxUncleDist) % 2 ^ 64 < chain.chainHeight ∨
          chain.getBlock op.block.header.hash then
        started chain rounds ({ s with queue := queue }.forgetBlock op.block.header.hash)
      else op :: started chain rounds { s with queue := queue }

/-- The number of queued blocks of a peer. -/
def queuedOf (s : Puller Tx) (peer : String) : ℕ :=
  total (fun op => if op.origin = peer then 1 else 0) s.queued

/-- The blocks in the queue and those that are being imported have different hashes; they are the
queued ones, and the counters count them within the limit. -/
structure Tracks (running : Multiset (Inject Tx)) (s : Puller Tx) : Prop where
  queued : ∀ hash op, s.queued.lookup hash = some op ↔ op.hash = hash ∧ op ∈ s.queue + running
  nodup : ((s.queue + running).map Inject.hash).Nodup
  counts : ∀ peer, s.queues peer = s.queuedOf peer
  limit : ∀ peer, s.queues peer ≤ blockLimit

namespace Tracks

variable {running running' : Multiset (Inject Tx)} {s s' : Puller Tx} {op : Inject Tx}

theorem congr (h : Tracks running s)
    (hqueue : s'.queue + running' = (s.queue : Multiset (Inject Tx)) + running)
    (hqueues : s'.queues = s.queues) (hqueued : s'.queued = s.queued) : Tracks running' s' := by
  refine ⟨?_, ?_, ?_, ?_⟩
  · rw [hqueued, hqueue]
    exact h.queued
  · rw [hqueue]
    exact h.nodup
  · unfold queuedOf
    rw [hqueues, hqueued]
    exact h.counts
  · rw [hqueues]
    exact h.limit

theorem enqueue (h : Tracks running s) (chain : LocalChain) (peer : String)
    (block : PulledBlock Tx) : Tracks running (s.enqueue chain peer block) := by
  unfold Puller.enqueue
  dsimp only
  split_ifs with hlimit _ hqueued
  · exact h.congr rfl rfl rfl
  · exact h.congr rfl rfl rfl
  · exact h
  have hnone := Option.not_isSome_iff_eq_none.1 hqueued
  have hqueue : ((s.queue ++ [⟨peer, block⟩] : List (Inject Tx)) : Multiset (Inject Tx)) +
      running = ⟨peer, block⟩ ::ₘ ((s.queue : Multiset (Inject Tx)) + running) := by
    rw [← coe_add, coe_singleton, ← singleton_add]
    abel
  have hfresh : ∀ op ∈ (s.queue : Multiset (Inject Tx)) + running,
      op.hash ≠ block.header.hash := by
    intro op hop heq
    have hsome := (h.queued _ op).2 ⟨heq, hop⟩
    rw [hnone] at hsome
    cases hsome
  refine ⟨fun hash op => ?_, ?_, fun p => ?_, fun p => ?_⟩
  · rw [hqueue, mem_cons, lookup_insert_eq]
    split_ifs with hk
    · rw [hk, Option.some.injEq]
      refine ⟨fun heq => ⟨heq ▸ rfl, .inl heq.symm⟩, fun hop => ?_⟩
      exact (hop.2.resolve_right fun hmem => hfresh op hmem hop.1).symm
    · rw [h.queued]
      refine and_congr_right fun heq => (or_iff_right fun hop => hk ?_).symm
      rw [← heq, hop]
      rfl
  · rw [hqueue, map_cons, nodup_cons]
    refine ⟨fun hmem => ?_, h.nodup⟩
    obtain ⟨op, hop, heq⟩ := mem_map.1 hmem
    exact hfresh op hop heq
  · rw [queuedOf, total_insert_new hnone, Nat.cast_add, ← queuedOf, ← h.counts]
    simp only [Function.update_apply]
    split_ifs with hp hp' hp'
    · rw [hp]
      rfl
    · exact absurd hp.symm hp'
    · exact absurd hp'.symm hp
    · exact (add_zero _).symm
  · simp only [Function.update_apply]
    split_ifs
    · exact not_lt.1 hlimit
    · exact h.limit p

theorem forget (h : Tracks (op ::ₘ running) s) : Tracks running (s.forgetBlock op.hash) := by
  have hlook : s.queued.lookup op.hash = some op := (h.queued _ op).2 ⟨rfl, by simp⟩
  have hnodup := h.nodup
  rw [add_cons, map_cons, nodup_cons] at hnodup
  unfold Puller.forgetBlock
  rw [hlook]
  dsimp only
  refine ⟨fun hash op' => ?_, hnodup.2, fun p => ?_, fun p => ?_⟩
  · have hiff := h.queued hash op'
    rw [add_cons, mem_cons] at hiff
    by_cases hk : hash = op.hash
    · subst hk
      rw [lookup_erase]
      refine iff_of_false nofun fun hop => hnodup.1 ?_
      exact mem_map.2 ⟨op', hop.2, hop.1⟩
    · rw [lookup_erase_ne hk, hiff]
      refine and_congr_right fun heq => or_iff_right fun hop => hk ?_
      rw [← heq, hop]
  · have htotal := total_erase (f := fun op => if op.origin = p then 1 else 0) hlook
    have hcount := h.counts p
    rw [queuedOf, ← htotal] at hcount
    rcases eq_or_ne p op.origin with rfl | hp
    · rw [if_pos rfl] at hcount
      simp only [queuedOf, Function.update_self]
      omega
    · rw [if_neg hp.symm] at hcount
      simp only [queuedOf, Function.update_of_ne hp]
      omega
  · have hlimit := h.limit p
    simp only [Function.update_apply]
    split_ifs with hp
    · rw [← hp]
      omega
    · exact hlimit

/-- **The blocks that leave the queue are imported or forgotten.** -/
theorem importRounds [DecidableEq Tx] (h : Tracks running s) (chain : LocalChain) (rounds : ℕ) :
    Tracks (running + (started chain rounds s : Multiset (Inject Tx)))
      (importRounds chain rounds s) := by
  induction rounds generalizing s running with
  | zero => exact h.congr (by simp [started, Puller.importRounds]) rfl rfl
  | succ rounds ih =>
    unfold Puller.importRounds started
    cases hpop : WorkLedger.popMin (fun op : Inject Tx => priority op.block.header) s.queue with
    | none => exact h.congr (by simp) rfl rfl
    | some popped =>
      obtain ⟨op, queue⟩ := popped
      have hqueue := (WorkLedger.popMin_eq_some hpop).1
      have hheld : Tracks (op ::ₘ running) { s with queue := queue } :=
        h.congr (by rw [hqueue, cons_add, add_cons]) rfl rfl
      dsimp only
      split_ifs
      · refine h.congr ?_ rfl rfl
        rw [hqueue, ← coe_add, coe_singleton, ← singleton_add]
        simp [add_comm]
      · exact ih hheld.forget
      · refine (ih hheld).congr ?_ rfl rfl
        rw [← cons_coe, add_cons, cons_add]

/-! ### The other events -/

theorem enqueueAll (h : Tracks running s) (chain : LocalChain) (blocks : List (PulledBlock Tx)) :
    Tracks running (s.enqueueAll chain blocks) := by
  refine blocks.foldlRecOn _ h fun s h block _ => ?_
  split
  · exact h.enqueue chain _ block
  · exact h

theorem headerFilter (h : Tracks running s) (chain : LocalChain) (peer : String)
    (headers : List Header) (time : ℕ) :
    Tracks running (s.headerFilter chain peer headers time).2 := by
  have hsorted :
      Tracks running (headers.foldl (sortHeader chain peer time) (s, ⟨[], [], []⟩)).1 := by
    refine headers.foldlRecOn (motive := fun acc : Puller Tx × Sorted Tx => Tracks running acc.1)
      _ h fun ⟨s, sorted⟩ h header _ => ?_
    unfold sortHeader
    dsimp only
    split
    · exact h
    · split_ifs <;> exact h.congr rfl rfl rfl
  refine enqueueAll ?_ chain _
  refine List.foldlRecOn _ _ hsorted fun s h r _ => ?_
  split
  · split_ifs <;> exact h.congr rfl rfl rfl
  · exact h

theorem bodyFilter [GetRlp Tx] (h : Tracks running s) (chain : LocalChain) (peer : String)
    (transactions : List (List Tx)) (uncles : List (List Header)) (order : List Hash) :
    Tracks running (s.bodyFilter chain peer transactions uncles order).2 := by
  have hbody : ∀ (s : Puller Tx) txs uncles, Tracks running s →
      Tracks running (matchBody chain peer order s txs uncles).1 := by
    intro s txs uncles h
    refine order.foldlRecOn (motive := fun acc : Puller Tx × Bool × List (PulledBlock Tx) =>
      Tracks running acc.1) _ h fun ⟨s, isMatched, blocks⟩ h hash _ => ?_
    dsimp only
    split
    · split_ifs
      · exact h.congr rfl rfl rfl
      · split <;> exact h
      · exact h
    · exact h
  have hbodies : ∀ (bodies : List (List Tx × List Header)) (s : Puller Tx), Tracks running s →
      Tracks running (matchBodies chain peer order bodies s).2.2 := by
    intro bodies
    induction bodies with
    | nil => exact fun s h => h
    | cons body bodies ih => exact fun s h => ih _ (hbody s body.1 body.2 h)
  exact (hbodies _ s h).enqueueAll chain _

end Tracks

end Puller

/-! ### Runs -/

/-- The puller with the imports that run. -/
structure ImportLoop (Tx : Type) where
  puller : Puller Tx
  running : List (Inject Tx)

namespace ImportLoop

variable [DecidableEq Tx] [GetRlp Tx]

/-- One event.  Only an import that runs can be done. -/
def step (l : ImportLoop Tx) : Puller.Event Tx → ImportLoop Tx
  | .importQueued chain => ⟨l.puller.step (.importQueued chain),
      l.running ++ l.puller.started chain l.puller.queue.length⟩
  | .done hash =>
    if l.running.any (·.hash = hash) then
      ⟨l.puller.step (.done hash), l.running.eraseP (·.hash = hash)⟩
    else l
  | e => ⟨l.puller.step e, l.running⟩

variable {l : ImportLoop Tx}

/-- **A step keeps track of the imports.** -/
theorem tracks_step (h : l.puller.Tracks l.running) (e : Puller.Event Tx) :
    (l.step e).puller.Tracks (l.step e).running := by
  cases e with
  | expire now order =>
    refine order.foldlRecOn _ h fun s h hash _ => ?_
    split
    · split_ifs <;> exact h.congr rfl rfl rfl
    · exact h
  | importQueued chain =>
    have himported := h.importRounds chain l.puller.queue.length
    rw [coe_add] at himported
    exact himported
  | notify chain peer hash number time =>
    change Puller.Tracks _ (l.puller.notify chain _)
    unfold Puller.notify
    dsimp only
    split_ifs <;> exact h.congr rfl rfl rfl
  | inject chain peer block => exact h.enqueue chain peer block
  | done hash =>
    rw [step]
    split_ifs with hany
    · obtain ⟨op, hop, heq⟩ := List.any_eq_true.1 hany
      obtain ⟨op, before, after, -, hop, hrunning, herase⟩ :=
        List.exists_of_eraseP (p := (·.hash = hash)) hop heq
      obtain rfl := of_decide_eq_true hop
      have hperm : (l.running : Multiset (Inject Tx)) = op ::ₘ (before ++ after : List _) := by
        rw [hrunning]
        exact coe_eq_coe.2 List.perm_middle
      rw [hperm] at h
      rw [herase]
      exact Puller.Tracks.forget (h.congr rfl rfl rfl)
    · exact h
  | fetchTimer chain now order rand =>
    refine order.foldlRecOn _ h fun s h hash _ => ?_
    unfold Puller.fetchOne
    split
    · dsimp only
      split_ifs <;> exact h.congr rfl rfl rfl
    · exact h
  | completeTimer chain order rand =>
    refine order.foldlRecOn _ h fun s h hash _ => ?_
    split
    · dsimp only
      split_ifs <;> exact h.congr rfl rfl rfl
    · exact h
  | headerFilter chain peer headers time => exact h.headerFilter chain peer headers time
  | bodyFilter chain peer transactions uncles order =>
    exact h.bodyFilter chain peer transactions uncles order

variable (events : List (Puller.Event Tx))

/-- The state after some events. -/
def run : ImportLoop Tx := events.foldl step ⟨Puller.new, []⟩

theorem tracks_run :
    (run events).puller.Tracks (run events).running := by
  refine events.foldlRecOn (motive := fun l : ImportLoop Tx => l.puller.Tracks l.running) _ ?_
    fun l h e _ => tracks_step h e
  refine ⟨fun hash op => ?_, by simp [Puller.new], fun peer => ?_, fun peer => ?_⟩
  · simp [Puller.new]
  · rfl
  · exact Int.natCast_nonneg _

/-- **The import queue**: in every run the queued blocks are those in the queue and those being
imported, each in one of the two only and with a hash of its own, so that no block is imported
twice at the same time; and the counter of a peer is the number of its queued blocks, within the
limit. -/
theorem imports_tracked :
    (∀ hash op, (run events).puller.queued.lookup hash = some op ↔
      op.hash = hash ∧ (op ∈ (run events).puller.queue ∨ op ∈ (run events).running)) ∧
    (((run events).puller.queue ++ (run events).running).map Inject.hash).Nodup ∧
    ∀ peer, (run events).puller.queues peer = (run events).puller.queuedOf peer ∧
      (run events).puller.queuedOf peer ≤ blockLimit := by
  have h := tracks_run events
  refine ⟨fun hash op => ?_, ?_, fun peer => ⟨h.counts peer, ?_⟩⟩
  · rw [h.queued, mem_add, mem_coe, mem_coe]
  · have hnodup := h.nodup
    rw [coe_add, map_coe, coe_nodup] at hnodup
    exact hnodup
  · have hlimit := h.limit peer
    rw [h.counts] at hlimit
    exact Int.ofNat_le.1 hlimit

end ImportLoop

end Synctrl
