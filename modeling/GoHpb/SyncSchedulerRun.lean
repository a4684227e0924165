/-
**Runs of the download scheduler.**

Every operation of the scheduler keeps its invariant: headers that continue the chain are added at
its end, a reservation takes the least tasks out of the queue, a delivery with whatever contents
settles those that fit and puts the others back, and complete results leave at the front.  The
number of a task that leaves the queue is bounded by the tasks that are done or in flight, and the
room that a reservation computes leaves just that many places of the cache: the reservation never
falls out of it.

Main results:

* `Synctrl.inv_reserveHeaders` — **a reservation keeps the invariant and does not fail**;
* `Synctrl.inv_deliver` — **a delivery keeps the invariant, whatever it brings**;
* `Synctrl.inv_waitResults` — **complete results leave in order**;
* `Synctrl.scheduler_accounts` — **each task is in exactly one place, no reservation fails, and the
  results come in order with contents that fit**.
-/

import GoHpb.SyncSchedulerInv
import GoHpb.CryptoTable

namespace Synctrl

open WorkLedger List Scheduler Scheduler List

section Runs

variable {Tx Rcpt : Type} [Crypto] [GetRlp Tx] [GetRlp Rcpt]
  {c : SyncMode × ℕ × ℕ} {s : Scheduler Tx Rcpt} {live : List Header} {part : Part}

/-! ### New headers -/

theorem inv_prepared (blockCacheLimit offset : ℕ) (mode : SyncMode) (pivot : ℕ) :
    Inv (mode, pivot, offset)
      (prepared blockCacheLimit offset mode pivot : Scheduler Tx Rcpt) [] fun _ => 0 where
  frame_eq := rfl
  numbers := trivial
  small := nofun
  hashes := nodup_nil
  lanes := fun q => by
    have hlane : (prepared blockCacheLimit offset mode pivot : Scheduler Tx Rcpt).lane q =
        Lane.empty := by
      cases q <;> rfl
    rw [hlane]
    exact ⟨Ledger.empty, fun k hk => absurd hk (Finset.notMem_empty k),
      fun header hmem => hmem.elim nofun nofun, nofun⟩
  cached := fun i r hr => by
    have hmem := mem_of_getElem? hr
    exact nomatch eq_of_mem_replicate hmem

variable {header : Header} {mode : SyncMode} {i : ℕ}

theorem inv_enqueue (h : Inv c s live fun _ => 0)
    (hnum : header.number = s.resultOffset + live.length) (hsmall : header.number < 2 ^ 24)
    (hfresh : ∀ other ∈ live, other.hash ≠ header.hash) :
    Inv c (s.enqueue header) (live ++ [header]) fun _ => 0 := by
  have hneeds : (s.enqueue header).needs = s.needs := needs_congr rfl
  have hmono : ∀ other, s.Reserved live other →
      (s.enqueue header).Reserved (live ++ [header]) other := by
    rintro other ⟨i, r, hi, hr⟩
    exact ⟨i, r, List.getElem?_append_left (List.getElem?_eq_some_iff.1 hi).1 ▸ hi, hr⟩
  have hadd : ∀ q, LaneOk ((live ++ [header]).filter (s.needs q)) ((s.enqueue header).lane q) 0
      (s.Reserved live) := by
    intro q
    have hother : ∀ other ∈ live.filter (s.needs q), other.hash ≠ header.hash := fun other hmem =>
      hfresh other (mem_of_mem_filter hmem)
    rw [filter_append]
    cases q with
    | block => exact (h.lanes .block).add hother
    | receipt =>
      change LaneOk _ (if s.fastPhase header then s.receipt.add header else s.receipt) _ _
      by_cases hfast : s.fastPhase header = true
      · rw [if_pos hfast, filter_cons_of_pos (by exact hfast)]
        exact (h.lanes .receipt).add hother
      · rw [if_neg hfast, filter_cons_of_neg (by exact hfast), filter_nil, append_nil]
        exact h.lanes .receipt
  have hdone : ∀ q, ((s.enqueue header).lane q).donePool = (s.lane q).donePool := by
    intro q
    cases q with
    | block => rfl
    | receipt =>
      change (if s.fastPhase header then s.receipt.add header else s.receipt).donePool = _
      split_ifs <;> rfl
  refine ⟨h.frame_eq, Consecutive.append_iff.2 ⟨h.numbers, hnum, trivial⟩, ?_, ?_, ?_, ?_⟩
  · intro other hmem
    rcases mem_append.1 hmem with hmem | hmem
    · exact h.small other hmem
    · rw [mem_singleton.1 hmem]
      exact hsmall
  · rw [map_append, nodup_append]
    refine ⟨h.hashes, nodup_singleton _, ?_⟩
    rintro _ hk _ hk' rfl
    obtain ⟨other, hmem, heq⟩ := mem_map.1 hk
    rw [map_singleton, mem_singleton] at hk'
    exact hfresh other hmem (heq.trans hk')
  · intro q
    rw [hneeds]
    exact (hadd q).mono hmono
  · intro i r hr
    obtain ⟨other, hi, hok⟩ := h.cached i r hr
    exact ⟨other, List.getElem?_append_left (List.getElem?_eq_some_iff.1 hi).1 ▸ hi,
      hok.congr hneeds fun q => by rw [hdone]⟩

/-- **Scheduling adds headers at the end.** -/
theorem inv_schedule {pool : Set Header} (hinj : Set.InjOn Header.hash pool)
    (headers : List Header) (hpool : ∀ header ∈ headers, header ∈ pool)
    (hsmall : ∀ header ∈ headers, header.number < 2 ^ 24)
    (h : Inv c s live fun _ => 0) (hlive : ∀ header ∈ live, header ∈ pool) :
    Inv c (s.schedule headers (s.resultOffset + live.length)).2
        (live ++ (s.schedule headers (s.resultOffset + live.length)).1) (fun _ => 0) ∧
      ∀ header ∈ (s.schedule headers (s.resultOffset + live.length)).1, header ∈ headers := by
  -- by induction on the headers; the ones before have been added
  induction headers generalizing s live with
  | nil => exact ⟨by rw [schedule, append_nil]; exact h, nofun⟩
  | cons header headers ih =>
    have hstop : Inv c s (live ++ []) (fun _ => 0) ∧
        ∀ x ∈ ([] : List Header), x ∈ header :: headers :=
      ⟨by rw [append_nil]; exact h, nofun⟩
    rw [schedule]
    by_cases hnumber : number header ≠ s.resultOffset + live.length
    · rw [if_pos hnumber]
      exact hstop
    rw [if_neg hnumber]
    by_cases hhead : s.headerHead ≠ FixedBytes.zero 32 ∧ s.headerHead ≠ header.parentHash
    · rw [if_pos hhead]
      exact hstop
    rw [if_neg hhead]
    have hlt := hsmall header mem_cons_self
    have hnum : header.number = s.resultOffset + live.length :=
      (number_of_lt hlt).symm.trans (not_not.1 hnumber)
    have hfresh : ∀ other ∈ live, other.hash ≠ header.hash := by
      intro other hmem heq
      obtain rfl := hinj (hlive other hmem) (hpool header mem_cons_self) heq
      obtain ⟨i, hi, hother⟩ := h.numbers.getElem?_of_mem hmem
      have := (List.getElem?_eq_some_iff.1 hi).1
      omega
    have hnew : ∀ q, header.hash ∉ (s.lane q).taskPool := by
      intro q hmem
      obtain ⟨other, hheld, heq⟩ := (h.lanes q).pooled _ hmem
      exact hfresh other (mem_of_mem_filter (h.mem_tasks hheld).1) heq
    have hnot : ¬ (header.hash ∈ s.block.taskPool ∨ header.hash ∈ s.receipt.taskPool) :=
      not_or.2 ⟨hnew .block, hnew .receipt⟩
    rw [if_neg hnot]
    have hstep := inv_enqueue h hnum hlt hfresh
    have hnext : s.resultOffset + live.length + 1 =
        (s.enqueue header).resultOffset + (live ++ [header]).length := by
      rw [length_append, length_singleton]
      rfl
    dsimp only
    rw [hnext]
    obtain ⟨hinv, hsub⟩ := ih (fun x hx => hpool x (mem_cons_of_mem _ hx))
      (fun x hx => hsmall x (mem_cons_of_mem _ hx)) hstep fun x hx => by
        rcases mem_append.1 hx with hx | hx
        · exact hlive x hx
        · rw [mem_singleton.1 hx]
          exact hpool header mem_cons_self
    refine ⟨?_, fun x hx => ?_⟩
    · rw [append_assoc, singleton_append] at hinv
      exact hinv
    rcases mem_cons.1 hx with rfl | hx
    · exact mem_cons_self
    · exact mem_cons_of_mem _ (hsub x hx)

/-! ### Reservations -/

theorem place_of_popMin {hands : Multiset Header} {queue : List Header}
    (h : Inv c s live (only part hands))
    (hpop : popMin priority (s.lane part).taskQueue = some (header, queue))
    (hroom : (Multiset.card hands : ℤ) < s.space part) :
    ∃ i, live[i]? = some header ∧ i < s.resultCache.length := by
  obtain ⟨hqueue, hmin⟩ := popMin_eq_some hpop
  have hlane := h.lane_only
  have hledger := hlane.ledger
  have hheld : (s.lane part).held + hands =
      header ::ₘ ((queue : Multiset Header) + ((s.lane part).inFlight + hands)) := by
    rw [Lane.held, hqueue, Multiset.cons_add, Multiset.cons_add, add_assoc]
  rw [hheld] at hledger
  have htask : ∀ other, other ∈ header ::ₘ (queue : Multiset Header) → other ∈ live := by
    intro other hmem
    refine mem_of_mem_filter (hledger.mem_held.1 ?_).1
    rw [← Multiset.cons_add]
    exact Multiset.mem_add.2 (.inl hmem)
  have hlive := htask header (Multiset.mem_cons_self _ _)
  obtain ⟨i, hi, hnum⟩ := h.numbers.getElem?_of_mem hlive
  refine ⟨i, hi, ?_⟩
  have hle := hledger.num_le (h.nodup_tasks part) (h.consecutive_tasks part) fun other hmem => by
    have hother := htask other (Multiset.mem_cons_of_mem hmem)
    rw [← priority_of_lt (h.small header hlive), ← priority_of_lt (h.small other hother)]
    exact hmin other hmem
  rw [Multiset.card_add, Multiset.coe_card] at hle
  rw [space] at hroom
  omega

theorem inv_pop {hands : Multiset Header} {queue : List Header} (h : Inv c s live (only part hands))
    (hpop : popMin priority (s.lane part).taskQueue = some (header, queue))
    (hi : live[i]? = some header) (hlen : i < s.resultCache.length) :
    Inv c ((s.setLane part { s.lane part with taskQueue := queue }).touch i header) live
      (only part (hands + {header})) := by
  -- the result is created first, so that the task may leave the queue
  obtain ⟨htouch, hreserved⟩ := h.touch hi hlen
  have hcomm : (s.setLane part { s.lane part with taskQueue := queue }).touch i header =
      (s.touch i header).setLane part { s.lane part with taskQueue := queue } := by
    unfold touch
    rw [resultCache_setLane]
    cases part <;> split <;> rfl
  rw [hcomm]
  have hlane := htouch.lane_only
  have hqueue := (popMin_eq_some hpop).1
  rw [touch_lane] at hlane
  refine htouch.setLane (hlane.rearrange rfl rfl ?_ fun other hmem => ?_) (by rw [touch_lane])
  · rw [Lane.held, Lane.held, hqueue]
    change (queue : Multiset Header) + (s.lane part).inFlight + _ = _
    rw [← Multiset.singleton_add]
    abel
  rcases hmem with hmem | hmem
  · exact hlane.reserved_hands other (.inl hmem)
  rcases Multiset.mem_add.1 hmem with hmem | hmem
  · exact hlane.reserved_hands other (.inr hmem)
  · rw [Multiset.mem_singleton.1 hmem]
    exact hreserved

theorem entry_of_hands {hands : Multiset Header}
    (h : Inv c s live (only part hands)) (hi : live[i]? = some header) (hmem : header ∈ hands) :
    ∃ r, s.resultCache[i]? = some (some r) ∧ ResultOk s header r ∧ Blank part r := by
  obtain ⟨j, r, hj, hr⟩ := h.lane_only.reserved_hands header (.inr hmem)
  obtain rfl := h.place_unique hi hj rfl
  obtain ⟨other, hlive, hok⟩ := h.cached i r hr
  obtain rfl : header = other := Option.some.inj (hi.symm.trans hlive)
  refine ⟨r, hr, hok, hok.blank part (h.mem_tasks ?_).2⟩
  rw [only_self]
  exact Multiset.mem_add.2 (.inr hmem)

/-- The tasks that a reservation has in its hands. -/
def Scheduler.Batch.hands (b : Scheduler.Batch) : Multiset Header :=
  (b.send : Multiset Header) + (b.skip : Multiset Header)

theorem inv_reserveLoop {isNoop : Header → Bool}
    (hnoop : ∀ header (r : FetchResult Tx Rcpt), isNoop header → Blank part r → Fits part header r)
    (p : PeerConnection) (count : ℕ) : ∀ (rounds : ℕ) (b : Scheduler.Batch) (s : Scheduler Tx Rcpt),
      Inv c s live (only part b.hands) → b.proc = Multiset.card b.hands → b.space = s.space part →
      ∃ b' s', reserveLoop part p count isNoop rounds b s = (.ok b', s') ∧
        Inv c s' live (only part b'.hands) ∧ (s'.lane part).pendPool = (s.lane part).pendPool := by
  intro rounds
  induction rounds with
  | zero => exact fun b s h _ _ => ⟨b, s, rfl, h, rfl⟩
  | succ rounds ih =>
    intro b s h hproc hspace
    rw [reserveLoop]
    by_cases hcond : b.proc < b.space ∧ b.send.length < count
    · rw [if_pos hcond]
      cases hpop : popMin priority (s.lane part).taskQueue with
      | none => exact ⟨b, s, rfl, h, rfl⟩
      | some popped =>
        obtain ⟨header, queue⟩ := popped
        dsimp only
        obtain ⟨i, hi, hlen⟩ := place_of_popMin h hpop (hproc ▸ hspace ▸ hcond.1)
        have hindex :
            (s.setLane part { s.lane part with taskQueue := queue }).index header = i := by
          rw [index, resultOffset_setLane]
          exact h.index_eq hi
        rw [hindex, resultCache_setLane, if_neg (by omega), Int.toNat_natCast]
        have hpopped := inv_pop h hpop hi hlen
        set s₁ := (s.setLane part { s.lane part with taskQueue := queue }).touch i header
        have hlane : s₁.lane part = { s.lane part with taskQueue := queue } := by
          rw [touch_lane, lane_setLane]
        have hlength : s₁.resultCache.length = s.resultCache.length := by
          rw [length_touch, resultCache_setLane]
        have hpend : (s₁.lane part).pendPool = (s.lane part).pendPool := by rw [hlane]
        have hspace₁ : s₁.space part = s.space part := by
          rw [space, hlane, hlength]
          rfl
        by_cases hskip : isNoop header = true
        · -- the task is done at once
          rw [if_pos hskip]
          obtain ⟨r, hr, hok, hblank⟩ := entry_of_hands hpopped hi
            (Multiset.mem_add.2 (.inr (Multiset.mem_singleton_self header)))
          have hsame : ∀ q, SameContents q r r.settle := by
            intro q
            cases q with
            | block => exact ⟨rfl, rfl⟩
            | receipt => rfl
          rw [add_comm, Multiset.singleton_add] at hpopped
          have hfresh : header.hash ∉ (s₁.lane part).donePool := by
            refine (hpopped.mem_tasks ?_).2
            rw [only_self]
            exact Multiset.mem_add.2 (.inr (Multiset.mem_cons_self _ _))
          obtain ⟨b', s', hrun, hinv, hpend'⟩ := ih
            { b with space := b.space - 1, progress := true } _
            (hpopped.finish hi hr rfl rfl ((hnoop header r hskip hblank).congr (hsame part))
              fun q _ => hsame q) hproc (by
                rw [space, modifyResult_lane, lane_setLane]
                change b.space - 1 = ((s₁.setLane part _).resultCache.modify i _).length -
                  ((insert header.hash (s₁.lane part).donePool).card : ℤ) -
                    (s₁.lane part).inFlight.length
                rw [length_modify, resultCache_setLane,
                  Finset.card_insert_of_notMem hfresh, hspace, ← hspace₁, space]
                push_cast
                ring)
          refine ⟨b', s', hrun, hinv, ?_⟩
          rw [hpend', modifyResult_lane, lane_setLane]
          exact hpend
        · -- the task stays in the hands, among the skipped ones or those to be sent
          rw [if_neg hskip]
          have hnext : ∀ b₁ : Scheduler.Batch, b₁.hands = b.hands + {header} →
              b₁.proc = b.proc + 1 → b₁.space = b.space →
              ∃ b' s', reserveLoop part p count isNoop rounds b₁ s₁ =
                  (.ok b', s') ∧ Inv c s' live (only part b'.hands) ∧
                (s'.lane part).pendPool = (s.lane part).pendPool := by
            intro b₁ hhands hproc₁ hb₁
            obtain ⟨b', s', hrun, hinv, hpend'⟩ := ih b₁ s₁ (hhands ▸ hpopped)
              (by rw [hproc₁, hhands, Multiset.card_add, Multiset.card_singleton, hproc]; rfl)
              (hb₁.trans (hspace.trans hspace₁.symm))
            exact ⟨b', s', hrun, hinv, hpend'.trans hpend⟩
          by_cases hlacks : p.lacks header.hash = true
          · rw [if_pos hlacks]
            refine hnext _ ?_ rfl rfl
            rw [Scheduler.Batch.hands, Scheduler.Batch.hands, ← Multiset.coe_add, add_assoc,
              Multiset.coe_singleton]
          · rw [if_neg hlacks]
            refine hnext _ ?_ rfl rfl
            rw [Scheduler.Batch.hands, Scheduler.Batch.hands, ← Multiset.coe_add,
              Multiset.coe_singleton]
            abel
    · rw [if_neg hcond]
      exact ⟨b, s, rfl, h, rfl⟩

/-- **A reservation keeps the invariant and does not fail.** -/
theorem inv_reserveHeaders {isNoop : Header → Bool}
    (hnoop : ∀ header (r : FetchResult Tx Rcpt), isNoop header → Blank part r → Fits part header r)
    (h : Inv c s live fun _ => 0) (p : PeerConnection) (count now : ℕ) :
    ∃ out, (s.reserveHeaders part p count now isNoop).1 = .ok out ∧
      Inv c (s.reserveHeaders part p count now isNoop).2 live fun _ => 0 := by
  unfold reserveHeaders
  by_cases hempty : (s.lane part).taskQueue = []
  · rw [if_pos hempty]
    exact ⟨_, rfl, h⟩
  rw [if_neg hempty]
  by_cases hpend : ((s.lane part).pendPool.lookup p.id).isSome
  · rw [if_pos hpend]
    exact ⟨_, rfl, h⟩
  rw [if_neg hpend]
  obtain ⟨b, s', hrun, hinv, hpool⟩ := inv_reserveLoop hnoop p count
    (s.lane part).taskQueue.length ⟨s.space part, 0, [], [], false⟩ s (Inv.zero_iff.2 h) rfl rfl
  rw [hrun]
  dsimp only
  have hpush := hinv.lane_only.push b.skip
  by_cases hsend : b.send = []
  · rw [if_pos hsend]
    rw [hsend] at hpush
    exact ⟨_, rfl, Inv.zero_iff.1 (hinv.setLane hpush rfl)⟩
  rw [if_neg hsend]
  have hnone : ((s'.lane part).push b.skip).pendPool.lookup p.id = none := by
    change (s'.lane part).pendPool.lookup p.id = none
    rw [hpool]
    exact Option.not_isSome_iff_eq_none.1 hpend
  have hrequest : LaneOk (live.filter (s'.needs part)) ((s'.lane part).push b.skip)
      (0 + (b.send : Multiset Header)) (s'.Reserved live) := by
    exact hpush
  exact ⟨_, rfl, Inv.zero_iff.1 (hinv.setLane (hrequest.insert hnone) rfl)⟩

theorem fits_of_isNoopBody (header : Header) (r : FetchResult Tx Rcpt)
    (hnoop : isNoopBody header) (hblank : Blank .block r) : Fits .block header r := by
  obtain ⟨htx, huncle⟩ := of_decide_eq_true hnoop
  refine decide_eq_true ?_
  rw [hblank.1, hblank.2, htx, huncle]
  exact ⟨rfl, rfl⟩

theorem fits_of_isNoopReceipt (header : Header) (r : FetchResult Tx Rcpt)
    (hnoop : isNoopReceipt header) (hblank : Blank .receipt r) :
    Fits .receipt header r := by
  refine decide_eq_true ?_
  rw [show r.receipts = [] from hblank, of_decide_eq_true hnoop]
  rfl

/-! ### Deliveries -/

theorem Inv.push {headers : List Header} (h : Inv c s live (only part headers)) :
    Inv c (s.setLane part ((s.lane part).push headers)) live fun _ => 0 := by
  have hlane := h.lane_only
  exact Inv.zero_iff.1 (h.setLane (hlane.push headers) rfl)

/-- A callback of a delivery fills in one part of a result with contents that fit. -/
structure Rebuilds (part : Part) (header : Header) (r r' : FetchResult Tx Rcpt) : Prop where
  header_eq : r'.header = r.header
  pending_eq : r'.pending = r.pending
  fits : Fits part header r'
  same : ∀ q, q ≠ part → SameContents q r r'

theorem rebuilds_reconstructBody (txLists : List (List Tx)) (uncleLists : List (List Header))
    {r r' : FetchResult Tx Rcpt}
    (h : reconstructBody txLists uncleLists header i r = .ok r') :
    Rebuilds .block header r r' := by
  unfold reconstructBody at h
  split at h
  · split at h
    · next hfits =>
        obtain rfl := Except.ok.inj h
        refine ⟨rfl, rfl, hfits, fun q hq => ?_⟩
        cases q with
        | block => exact absurd rfl hq
        | receipt => rfl
    · exact nomatch h
  · exact nomatch h

theorem rebuilds_reconstructReceipts (receiptList : List (List Rcpt)) {r r' : FetchResult Tx Rcpt}
    (h : reconstructReceipts receiptList header i r = .ok r') :
    Rebuilds .receipt header r r' := by
  unfold reconstructReceipts at h
  split at h
  · split at h
    · next hfits =>
        obtain rfl := Except.ok.inj h
        refine ⟨rfl, rfl, hfits, fun q hq => ?_⟩
        cases q with
        | block => exact ⟨rfl, rfl⟩
        | receipt => exact absurd rfl hq
    · exact nomatch h
  · exact nomatch h

variable {reconstruct : Header → ℕ → FetchResult Tx Rcpt → Except SyncErr (FetchResult Tx Rcpt)}

theorem inv_deliverLoop
    (hrec : ∀ header i r r', reconstruct header i r = .ok r' → Rebuilds part header r r')
    (results : ℕ) (headers : List Header) (i : ℕ) (h : Inv c s live (only part headers)) :
    Inv c (deliverLoop part results reconstruct i headers s).2.2.2 live
      (only part (deliverLoop part results reconstruct i headers s).2.2.1) := by
  induction headers generalizing i s with
  | nil => exact h
  | cons header headers ih =>
    rw [deliverLoop]
    split_ifs
    · exact h
    · exact h
    have hmem : header ∈ (header :: headers : Multiset Header) :=
      Multiset.mem_coe.2 mem_cons_self
    obtain ⟨k, -, hk, -⟩ := h.lane_only.reserved_hands header (.inr hmem)
    obtain ⟨r, hr, -, -⟩ := entry_of_hands h hk hmem
    rw [h.index_eq hk, Int.toNat_natCast, hr]
    dsimp only
    cases hout : reconstruct header i r with
    | error e => exact h
    | ok r' =>
      have hre := hrec header i r r' hout
      refine ih (i + 1) (h.finish hk hr hre.header_eq (congrArg (· - 1) hre.pending_eq) ?_ ?_)
      · exact hre.fits.congr (by cases part <;> first | rfl | exact ⟨rfl, rfl⟩)
      intro q hq
      have hsame := hre.same q hq
      cases q with
      | block | receipt => exact hsame

/-- **A delivery keeps the invariant, whatever it brings.** -/
theorem inv_deliver
    (hrec : ∀ header i r r', reconstruct header i r = .ok r' → Rebuilds part header r r')
    (h : Inv c s live fun _ => 0) (id : String) (results : ℕ) :
    Inv c (s.deliver part id results reconstruct).2 live fun _ => 0 := by
  unfold deliver
  cases hlookup : (s.lane part).pendPool.lookup id with
  | none => exact h
  | some request =>
    have hzero : Inv c s live (only part 0) := Inv.zero_iff.2 h
    have htaken := hzero.setLane (hzero.lane_only.forget hlookup) rfl
    exact (inv_deliverLoop hrec results request.headers 0 htaken).push

/-! ### Complete results -/

omit [Crypto] [GetRlp Tx] [GetRlp Rcpt] in
theorem complete_of_lt_countFrom {pivot : ℕ} :
    ∀ {cache : List (Option (FetchResult Tx Rcpt))} {i : ℕ},
      i < countFrom mode pivot cache →
      ∃ r, cache[i]? = some (some r) ∧ r.pending ≤ 0 := by
  intro cache
  induction cache with
  | nil => exact fun h => absurd h (Nat.not_lt_zero _)
  | cons entry cache ih =>
    intro i h
    cases entry with
    | none => exact absurd h (Nat.not_lt_zero _)
    | some r =>
      rw [countFrom] at h
      split_ifs at h with hpending hpivot
      · exact absurd h (Nat.not_lt_zero _)
      · exact absurd h (Nat.not_lt_zero _)
      cases i with
      | zero => exact ⟨r, rfl, not_lt.1 hpending⟩
      | succ i => exact ih (Nat.lt_of_succ_lt_succ h)

theorem ResultOk.done_of_pending {r : FetchResult Tx Rcpt}
    (h : ResultOk s header r) (hpending : r.pending ≤ 0) (q : Part) (hneed : s.needs q header) :
    header.hash ∈ (s.lane q).donePool := by
  have hnonneg : ∀ q, 0 ≤ s.lacking header q := fun q => by
    unfold lacking
    split_ifs <;> omega
  have hzero : s.lacking header q ≤ 0 := by
    have hb := hnonneg .block
    have hr := hnonneg .receipt
    have hsum := h.pending_eq
    cases q with
    | block | receipt => omega
  by_contra hnot
  rw [lacking, if_pos ⟨hneed, hnot⟩] at hzero
  omega

theorem results_eq (h : Inv c s live fun _ => 0) {n : ℕ}
    (hcomplete : ∀ i < n, ∃ r, s.resultCache[i]? = some (some r) ∧ r.pending ≤ 0) :
    (s.resultCache.take n).reduceOption.map FetchResult.header = live.take n ∧
      n ≤ live.length ∧ ∀ r ∈ (s.resultCache.take n).reduceOption, ∀ q, s.needs q r.header →
        Fits q r.header r := by
  -- by induction on the number of results
  induction n with
  | zero => exact ⟨rfl, Nat.zero_le _, nofun⟩
  | succ n ih =>
    obtain ⟨hmap, hlen, hfits⟩ := ih fun i hi => hcomplete i (Nat.lt_succ_of_lt hi)
    obtain ⟨r, hr, hpending⟩ := hcomplete n (Nat.lt_succ_self n)
    obtain ⟨header, hi, hok⟩ := h.cached n r hr
    have htake : (s.resultCache.take (n + 1)).reduceOption =
        (s.resultCache.take n).reduceOption ++ [r] := by
      rw [take_add_one, hr, reduceOption_append]
      rfl
    refine ⟨?_, (List.getElem?_eq_some_iff.1 hi).1, fun r' hr' q hneed => ?_⟩
    · rw [htake, List.map_append, hmap, List.take_add_one, hi, List.map_singleton, hok.header_eq]
      rfl
    rw [htake, mem_append, mem_singleton] at hr'
    rcases hr' with hr' | rfl
    · exact hfits r' hr' q hneed
    · rw [hok.header_eq] at hneed ⊢
      exact hok.fits q (hok.done_of_pending hpending q hneed)

/-- **Complete results leave in order.** -/
theorem inv_waitResults {pivot offset : ℕ} (h : Inv (mode, pivot, offset) s live fun _ => 0) :
    s.waitResults.1.map FetchResult.header = live.take s.waitResults.1.length ∧
      (∀ r ∈ s.waitResults.1, ∀ q, s.needs q r.header → Fits q r.header r) ∧
      Inv (mode, pivot, offset + s.waitResults.1.length) s.waitResults.2
        (live.drop s.waitResults.1.length) fun _ => 0 := by
  set n := s.countProcessableItems with hn
  have hcomplete : ∀ i < n, ∃ r, s.resultCache[i]? = some (some r) ∧ r.pending ≤ 0 := fun i hi =>
    complete_of_lt_countFrom hi
  obtain ⟨hmap, hlen, hfits⟩ := results_eq h hcomplete
  have hlength : s.waitResults.1.length = n := by
    have := congrArg length hmap
    rw [length_map, length_take_of_le hlen] at this
    exact this
  rw [hlength]
  refine ⟨hmap, hfits, ?_⟩
  have hhashes : ((s.resultCache.take n).reduceOption.map fun r => r.header.hash).toFinset =
      ((live.take n).map Header.hash).toFinset := by
    rw [← hmap, map_map]
    rfl
  have hsplit : live.take n ++ live.drop n = live := take_append_drop n live
  have hneeds : s.waitResults.2.needs = s.needs := by
    funext q header
    cases q <;> rfl
  have hlane : ∀ q, s.waitResults.2.lane q =
      (s.lane q).drop ((live.take n).map Header.hash).toFinset := by
    intro q
    rw [← hhashes]
    cases q <;> rfl
  have hapart : ∀ header ∈ live.drop n, header.hash ∉ ((live.take n).map Header.hash).toFinset := by
    intro header hmem hhash
    have hnd := h.hashes
    rw [← hsplit, map_append, nodup_append] at hnd
    exact hnd.2.2 _ (mem_toFinset.1 hhash) _ (mem_map_of_mem hmem) rfl
  have hget : ∀ (i : ℕ) (r : FetchResult Tx Rcpt), s.waitResults.2.resultCache[i]? = some (some r) ↔
      s.resultCache[n + i]? = some (some r) := by
    intro i r
    change (s.resultCache.drop n ++ replicate n none)[i]? = _ ↔ _
    rw [getElem?_append, ← getElem?_drop]
    split_ifs with hi
    · rfl
    · rw [getElem?_eq_none (not_lt.1 hi), getElem?_replicate]
      split_ifs <;> simp
  have hreserved : ∀ header ∈ live.drop n, s.Reserved live header →
      s.waitResults.2.Reserved (live.drop n) header := by
    rintro header hmem ⟨j, r, hj, hr⟩
    obtain ⟨i, hi⟩ := mem_iff_getElem?.1 hmem
    have hi' := hi
    rw [getElem?_drop] at hi'
    obtain rfl := h.place_unique hi' hj rfl
    exact ⟨i, r, hi, (hget i r).2 hr⟩
  refine ⟨?_, ?_, ?_, ?_, ?_, ?_⟩
  · obtain ⟨h1, h2, h3⟩ : s.mode = mode ∧ s.fastSyncPivot = pivot ∧ s.resultOffset = offset := by
      simpa [frame] using h.frame_eq
    change (s.mode, s.fastSyncPivot, s.resultOffset + n) = _
    rw [h1, h2, h3]
  · have hnum := h.numbers
    rw [← hsplit, Consecutive.append_iff, length_take_of_le hlen] at hnum
    exact hnum.2
  · exact fun header hmem => h.small header (mem_of_mem_drop hmem)
  · exact h.hashes.sublist ((drop_sublist n live).map _)
  · intro q
    rw [hneeds, hlane]
    have hok := h.lanes q
    have hdone : ∀ header ∈ (live.take n).filter (s.needs q),
        header.hash ∈ (s.lane q).donePool := by
      intro header hmem
      obtain ⟨hmem, hneed⟩ := mem_filter.1 hmem
      obtain ⟨i, hi⟩ := List.mem_iff_getElem?.1 hmem
      have hin : i < n := (List.length_take_of_le hlen) ▸ (List.getElem?_eq_some_iff.1 hi).1
      rw [List.getElem?_take_of_lt hin] at hi
      obtain ⟨r, hr, hpending⟩ := hcomplete i hin
      obtain ⟨other, hother, hres⟩ := h.cached i r hr
      obtain rfl : header = other := Option.some.inj (hi.symm.trans hother)
      exact hres.done_of_pending hpending q hneed
    -- the hashes of the results that do not need the part are not among the done ones
    have hsame : (s.lane q).donePool \ ((live.take n).map Header.hash).toFinset =
        (s.lane q).donePool \ (((live.take n).filter (s.needs q)).map Header.hash).toFinset := by
      ext k
      simp only [Finset.mem_sdiff, mem_toFinset]
      refine and_congr_right fun hk => not_congr ⟨fun hmem => ?_, fun hmem => ?_⟩
      · obtain ⟨task, htask, rfl⟩ := hok.ledger.known k hk
        obtain ⟨header, hheader, heq⟩ := mem_map.1 hmem
        obtain ⟨htask, hneed⟩ := mem_filter.1 htask
        obtain rfl := inj_on_of_nodup_map h.hashes (mem_of_mem_take hheader) htask heq
        exact mem_map_of_mem (mem_filter.2 ⟨hheader, hneed⟩)
      · obtain ⟨header, hheader, rfl⟩ := mem_map.1 hmem
        exact mem_map_of_mem (mem_of_mem_filter hheader)
    have hledger := hok.ledger
    have hnodup := h.nodup_tasks q
    rw [← hsplit, filter_append] at hledger hnodup
    have hretired := hledger.retire hnodup hdone
    refine ⟨?_, hok.pooled, fun header hmem => ?_, fun header hmem hdone' => ?_⟩
    · change Ledger Header.hash _ _ ((s.lane q).donePool \ _)
      rw [hsame]
      exact hretired
    · refine hreserved header ?_ (hok.reserved_hands header hmem)
      refine mem_of_mem_filter (hretired.mem_held.1 ?_).1
      rcases hmem with hmem | hmem
      · exact Multiset.mem_add.2 (.inl (Multiset.mem_add.2 (.inr (Multiset.mem_coe.2 hmem))))
      · exact Multiset.mem_add.2 (.inr hmem)
    · obtain ⟨hmem, hneed⟩ := mem_filter.1 hmem
      exact hreserved header hmem (hok.reserved_done header
        (mem_filter.2 ⟨mem_of_mem_drop hmem, hneed⟩) (Finset.mem_sdiff.1 hdone').1)
  · intro i r hr
    obtain ⟨header, hi, hok⟩ := h.cached (n + i) r ((hget i r).1 hr)
    rw [← getElem?_drop] at hi
    refine ⟨header, hi, hok.congr hneeds fun q => ?_⟩
    rw [hlane]
    exact Finset.mem_sdiff.trans (and_iff_left (hapart header (mem_of_getElem? hi)))

/-! ### Runs -/

/-- The runs of a scheduler from its preparation on, with the headers that were scheduled and the
results that were returned.  Every call of `Schedule` continues where the last one stopped; its
headers are taken from a pool, and their numbers are exact as priorities. -/
inductive Run (pool : Set Header) (blockCacheLimit offset : ℕ) (mode : SyncMode) (pivot : ℕ) :
    Scheduler Tx Rcpt → List Header → List (FetchResult Tx Rcpt) → Prop
  | prepared :
      Run pool blockCacheLimit offset mode pivot
        (prepared blockCacheLimit offset mode pivot) [] []
  | schedule {s scheduled returned} (headers : List Header)
      (hpool : ∀ header ∈ headers, header ∈ pool)
      (hsmall : ∀ header ∈ headers, header.number < 2 ^ 24) :
      Run pool blockCacheLimit offset mode pivot s scheduled returned →
      Run pool blockCacheLimit offset mode pivot
        (s.schedule headers (offset + scheduled.length)).2
        (scheduled ++ (s.schedule headers (offset + scheduled.length)).1) returned
  | reserveBodies {s scheduled returned} (p : PeerConnection) (count now : ℕ) :
      Run pool blockCacheLimit offset mode pivot s scheduled returned →
      Run pool blockCacheLimit offset mode pivot (s.reserveBodies p count now).2 scheduled returned
  | reserveReceipts {s scheduled returned} (p : PeerConnection) (count now : ℕ) :
      Run pool blockCacheLimit offset mode pivot s scheduled returned →
      Run pool blockCacheLimit offset mode pivot (s.reserveReceipts p count now).2 scheduled
        returned
  | deliverBodies {s scheduled returned} (id : String) (txLists : List (List Tx))
      (uncleLists : List (List Header)) (hlen : uncleLists.length = txLists.length) :
      Run pool blockCacheLimit offset mode pivot s scheduled returned →
      Run pool blockCacheLimit offset mode pivot (s.deliverBodies id txLists uncleLists).2 scheduled
        returned
  | deliverReceipts {s scheduled returned} (id : String) (receiptList : List (List Rcpt)) :
      Run pool blockCacheLimit offset mode pivot s scheduled returned →
      Run pool blockCacheLimit offset mode pivot (s.deliverReceipts id receiptList).2 scheduled
        returned
  | cancel {s scheduled returned} (part : Part) (id : String) (request : FetchRequest)
      (hflight : (s.lane part).pendPool.lookup id = some request) :
      Run pool blockCacheLimit offset mode pivot s scheduled returned →
      Run pool blockCacheLimit offset mode pivot (s.cancel part id request) scheduled returned
  | revoke {s scheduled returned} (peerId : String) :
      Run pool blockCacheLimit offset mode pivot s scheduled returned →
      Run pool blockCacheLimit offset mode pivot (s.revoke peerId) scheduled returned
  | expire {s scheduled returned} (part : Part) (now timeout : ℕ) :
      Run pool blockCacheLimit offset mode pivot s scheduled returned →
      Run pool blockCacheLimit offset mode pivot (s.expire part now timeout).2 scheduled returned
  | waitResults {s scheduled returned} :
      Run pool blockCacheLimit offset mode pivot s scheduled returned →
      Run pool blockCacheLimit offset mode pivot s.waitResults.2 scheduled
        (returned ++ s.waitResults.1)

/-- What a run keeps: the headers that were scheduled and not returned are the live ones. -/
structure RunOk (pool : Set Header) (offset : ℕ) (mode : SyncMode) (pivot : ℕ)
    (s : Scheduler Tx Rcpt) (scheduled : List Header) (returned : List (FetchResult Tx Rcpt)) :
    Prop where
  inv : Inv (mode, pivot, offset + returned.length) s (scheduled.drop returned.length) fun _ => 0
  pooled : ∀ header ∈ scheduled, header ∈ pool
  numbers : Consecutive Header.number offset scheduled
  small : ∀ header ∈ scheduled, header.number < 2 ^ 24
  headers : returned.map FetchResult.header = scheduled.take returned.length
  fits : ∀ r ∈ returned, ∀ q, s.needs q r.header → Fits q r.header r

namespace RunOk

variable {pool : Set Header} {offset : ℕ} {mode : SyncMode} {pivot : ℕ} {s' : Scheduler Tx Rcpt}
  {scheduled : List Header} {returned : List (FetchResult Tx Rcpt)}

variable (h : RunOk pool offset mode pivot s scheduled returned)
include h

theorem length_le :
    returned.length ≤ scheduled.length := by
  have hlen := congrArg length h.headers
  rw [length_map, length_take] at hlen
  omega

theorem step
    (hinv : Inv (mode, pivot, offset + returned.length) s' (scheduled.drop returned.length)
      fun _ => 0) : RunOk pool offset mode pivot s' scheduled returned := by
  refine ⟨hinv, h.pooled, h.numbers, h.small, h.headers, fun r hr q => ?_⟩
  rw [needs_congr (hinv.frame_eq.trans h.inv.frame_eq.symm)]
  exact h.fits r hr q

theorem offset_eq :
    s.resultOffset = offset + returned.length :=
  congrArg (fun f => f.2.2) h.inv.frame_eq

omit h

end RunOk

/-- **Every run keeps the invariant.** -/
theorem Run.ok {pool : Set Header} (hinj : Set.InjOn Header.hash pool) {blockCacheLimit offset : ℕ}
    {pivot : ℕ} {scheduled : List Header} {returned : List (FetchResult Tx Rcpt)}
    (h : Run pool blockCacheLimit offset mode pivot s scheduled returned) :
    RunOk pool offset mode pivot s scheduled returned := by
  induction h with
  | prepared => exact ⟨inv_prepared _ _ _ _, nofun, trivial, nofun, rfl, nofun⟩
  | @schedule s scheduled returned headers hpool hsmall _ ih =>
    have hnext : offset + scheduled.length =
        s.resultOffset + (scheduled.drop returned.length).length := by
      have hle := ih.length_le
      rw [ih.offset_eq, length_drop]
      omega
    rw [hnext]
    obtain ⟨hinv, hsub⟩ := inv_schedule hinj headers hpool hsmall ih.inv fun header hmem =>
      ih.pooled header (mem_of_mem_drop hmem)
    rw [← drop_append_of_le_length ih.length_le] at hinv
    set new := (s.schedule headers (s.resultOffset + (scheduled.drop returned.length).length)).1
    refine ⟨hinv, fun header hmem => ?_, ?_, fun header hmem => ?_, ?_, fun r hr q => ?_⟩
    · exact (mem_append.1 hmem).elim (ih.pooled header) fun hmem =>
        hpool header (hsub header hmem)
    · -- the new headers count on where the old ones stopped
      have hcount := hinv.numbers
      rw [drop_append_of_le_length ih.length_le, Consecutive.append_iff] at hcount
      refine Consecutive.append_iff.2 ⟨ih.numbers, ?_⟩
      have hoffset : _ = offset + returned.length := congrArg (fun f => f.2.2) hinv.frame_eq
      rw [hnext, ih.offset_eq, ← hoffset]
      exact hcount.2
    · exact (mem_append.1 hmem).elim (ih.small header) fun hmem =>
        hsmall header (hsub header hmem)
    · rw [take_append_of_le_length ih.length_le]
      exact ih.headers
    · rw [needs_congr (hinv.frame_eq.trans ih.inv.frame_eq.symm)]
      exact ih.fits r hr q
  | reserveBodies p count now _ ih =>
    exact ih.step (inv_reserveHeaders fits_of_isNoopBody ih.inv p count now).choose_spec.2
  | reserveReceipts p count now _ ih =>
    exact ih.step (inv_reserveHeaders fits_of_isNoopReceipt ih.inv p count now).choose_spec.2
  | deliverBodies id txLists uncleLists _ _ ih =>
    exact ih.step (inv_deliver (fun _ _ _ _ => rebuilds_reconstructBody txLists uncleLists) ih.inv
      id txLists.length)
  | deliverReceipts id receiptList _ ih =>
    exact ih.step (inv_deliver (fun _ _ _ _ => rebuilds_reconstructReceipts receiptList) ih.inv id
      receiptList.length)
  | cancel part id request hflight _ ih =>
    exact ih.step (ih.inv.move part (fun hlane => hlane.giveBack hflight) rfl)
  | revoke peerId _ ih =>
    have hrevoke : ∀ (l : Lane), (l.revoke peerId).donePool = l.donePool := fun l => by
      unfold Lane.revoke
      split <;> rfl
    -- the two parts one after the other
    have hblock := ih.inv.move .block (fun hlane => hlane.revoke peerId) (hrevoke _)
    exact ih.step (hblock.move .receipt (fun hlane => hlane.revoke peerId) (hrevoke _))
  | expire part now timeout _ ih =>
    exact ih.step (ih.inv.move part (fun hlane => hlane.expire now timeout) rfl)
  | @waitResults s scheduled returned _ ih =>
    obtain ⟨hheaders, hfits, hinv⟩ := inv_waitResults ih.inv
    rw [Nat.add_assoc, drop_drop, ← length_append] at hinv
    have hneeds : s.waitResults.2.needs = s.needs := by
      funext q header
      cases q <;> rfl
    refine ⟨hinv, ih.pooled, ih.numbers, ih.small, ?_, fun r hr q => ?_⟩
    · rw [map_append, ih.headers, hheaders, length_append, take_add]
    · rw [hneeds]
      exact (mem_append.1 hr).elim (fun hr => ih.fits r hr q) fun hr => hfits r hr q

/-- A task waits, is in flight or is done, and is in one place only. -/
def Lane.InOnePlace (l : Lane) (header : Header) : Prop :=
  l.taskQueue.count header + l.inFlight.count header +
    (if header.hash ∈ l.donePool then 1 else 0) = 1

theorem Inv.inOnePlace (h : Inv c s live fun _ => 0) (hmem : header ∈ live)
    (q : Part) (hneed : s.needs q header) : (s.lane q).InOnePlace header := by
  have hcount := (h.lanes q).ledger.count_add_done (h.nodup_tasks q) (mem_filter.2 ⟨hmem, hneed⟩)
  rw [add_zero, Lane.held, Multiset.count_add, Multiset.coe_count, Multiset.coe_count] at hcount
  exact hcount

/-- **The scheduler loses and repeats nothing.**  In every run over headers whose hashes do not
collide, the body of each header that was scheduled and not returned is in exactly one place, and so
are its receipts in the fast phase; no reservation falls out of the cache; and the results are those
of the scheduled headers in order, each once, with contents that fit. -/
theorem scheduler_accounts {pool : Set Header} (hinj : Set.InjOn Header.hash pool)
    {blockCacheLimit offset : ℕ} {mode : SyncMode} {pivot : ℕ} {scheduled : List Header}
    {returned : List (FetchResult Tx Rcpt)}
    (h : Run pool blockCacheLimit offset mode pivot s scheduled returned) :
    (∀ header ∈ scheduled.drop returned.length, s.block.InOnePlace header ∧
        (mode = SyncMode.fastSync → header.number ≤ pivot → s.receipt.InOnePlace header)) ∧
      (∀ p count now, (s.reserveBodies p count now).1 ≠ Except.error SyncErr.errInvalidChain ∧
        (s.reserveReceipts p count now).1 ≠ Except.error SyncErr.errInvalidChain) ∧
      returned.map FetchResult.header = scheduled.take returned.length ∧
      Consecutive Header.number offset (returned.map FetchResult.header) ∧
      ∀ r ∈ returned, bodyFits r.header r.transactions r.uncles ∧
        (mode = SyncMode.fastSync → r.header.number ≤ pivot →
          receiptsFit r.header r.receipts) := by
  have hok := h.ok hinj
  obtain ⟨hmode, hpivot, -⟩ : s.mode = mode ∧ s.fastSyncPivot = pivot ∧
      s.resultOffset = offset + returned.length := by
    simpa [frame] using hok.inv.frame_eq
  have hreceipt : ∀ header, header ∈ scheduled → mode = .fastSync → header.number ≤ pivot →
      s.needs .receipt header := by
    intro header hmem hfast hle
    refine decide_eq_true ⟨hmode.trans hfast, ?_⟩
    rw [number_of_lt (hok.small header hmem), hpivot]
    exact hle
  have hreturned : ∀ r ∈ returned, r.header ∈ scheduled := fun r hr =>
    mem_of_mem_take (hok.headers ▸ mem_map_of_mem hr)
  refine ⟨fun header hmem => ⟨hok.inv.inOnePlace hmem .block rfl, fun hfast hle =>
    hok.inv.inOnePlace hmem .receipt (hreceipt header (mem_of_mem_drop hmem) hfast hle)⟩,
    fun p count now => ⟨?_, ?_⟩, hok.headers, ?_, fun r hr => ⟨hok.fits r hr .block rfl,
      fun hfast hle => hok.fits r hr .receipt (hreceipt _ (hreturned r hr) hfast hle)⟩⟩
  · obtain ⟨out, hout, -⟩ := inv_reserveHeaders fits_of_isNoopBody hok.inv p count now
    rw [reserveBodies, hout]
    rintro ⟨⟩
  · obtain ⟨out, hout, -⟩ := inv_reserveHeaders fits_of_isNoopReceipt hok.inv p count now
    rw [reserveReceipts, hout]
    rintro ⟨⟩
  · have hnum := hok.numbers
    rw [← take_append_drop returned.length scheduled, Consecutive.append_iff] at hnum
    rw [hok.headers]
    exact hnum.1

end Runs

/-! ### Two blocks -/

namespace TwoBlocks

/-- Contents that are their own encodings. -/
scoped instance : GetRlp Bytes := ⟨id⟩

/-- The digests of a list with the item `0x11` and of one with the item `0x22`. -/
def txHash : Hash :=
  Sample.array 32 0x1dff892b13bc3487563ec402dd0d5884b34608a6c6a09acaf089be4644bf9aba

def receiptHash : Hash :=
  Sample.array 32 0xabb8fafba0ae3f054b1ac741463dd4b28aaea5a87d465557cd5aeed393169b4f

/-- A block with a receipt, and one with a transaction. -/
def first : Header := { Sample.blank with number := 1, receiptHash := receiptHash }

def firstHash : Hash :=
  Sample.array 32 0xa7baf931e4633cd782e704014a576f15a562e9f3551068ea9522afd50e52afd5

def second : Header :=
  { Sample.blank with parentHash := firstHash, number := 2, txHash := txHash }

def secondHash : Hash :=
  Sample.array 32 0x4cdc6751ffc977ff0cdbd71a1604ab408ffa32eb64d41aa84595fd18a4bc394c

scoped instance crypto : Crypto := tableCrypto
  [(Rlp.encode first.rlpItem, firstHash), (Rlp.encode second.rlpItem, secondHash),
    ([0xc4, 0x82, 0x20, 0x80, 0x11], txHash), ([0xc4, 0x82, 0x20, 0x80, 0x22], receiptHash),
    ([0xc0], Sample.blank.uncleHash)] []

def peer : PeerConnection := ⟨"peer", fun _ => false⟩

def start : Scheduler Bytes Bytes := prepared 4 1 SyncMode.fastSync 5

def queued : List Header × Scheduler Bytes Bytes := start.schedule [first, second] 1

def scheduled : List Header := [] ++ queued.1

def requested : Scheduler Bytes Bytes :=
  ((queued.2.reserveBodies peer 8 0).2.reserveReceipts peer 8 0).2

def delivered : Scheduler Bytes Bytes :=
  ((requested.deliverBodies "peer" [[[0x11]]] [[]]).2.deliverReceipts "peer" [[[0x22]]]).2

def returned : List (FetchResult Bytes Bytes) := [] ++ delivered.waitResults.1

theorem hash_injOn : Set.InjOn Header.hash {header | header ∈ [first, second]} := by
  have hinj : ∀ a ∈ [first, second], ∀ b ∈ [first, second], a.hash = b.hash → a = b := by
    decide +kernel
  exact fun a ha b hb => hinj a ha b hb

theorem run : Run {header | header ∈ [first, second]} 4 1 .fastSync 5
    delivered.waitResults.2 scheduled returned := by
  have hstart : Run {header | header ∈ [first, second]} 4 1 .fastSync 5 start [] [] :=
    .prepared
  have hqueued := hstart.schedule [first, second] (fun _ h => h) (by decide)
  have hrequested := (hqueued.reserveBodies peer 8 0).reserveReceipts peer 8 0
  have hdelivered := (hrequested.deliverBodies "peer" [[[0x11]]] [[]] rfl).deliverReceipts "peer"
    [[[0x22]]]
  exact hdelivered.waitResults

end TwoBlocks

open TwoBlocks in
theorem scheduler_accounts_twoBlocks : TwoBlocks.returned.length = 2 ∧
      Consecutive Header.number 1 (TwoBlocks.returned.map FetchResult.header) ∧
      ∀ r ∈ TwoBlocks.returned, bodyFits r.header r.transactions r.uncles ∧
        (SyncMode.fastSync = SyncMode.fastSync → r.header.number ≤ 5 →
          receiptsFit r.header r.receipts) :=
  ⟨by decide +kernel, (scheduler_accounts hash_injOn run).2.2.2⟩

end Synctrl
