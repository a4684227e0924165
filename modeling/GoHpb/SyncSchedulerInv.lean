/-
**The invariant of the download scheduler.**

The headers that were scheduled and not returned yet count up from the offset of the result cache.
Each part of such a block that has to be retrieved is a task of its lane: it waits, is in flight, or
is done.  While an operation runs, it also holds some tasks in its hands.  The entry of the cache at
the place of a header belongs to that header; it counts the parts that are not done, the parts that
are done fit the header, and the others are blank.

Main results:

* `Inv.setLane`, `Inv.touch`, `Inv.finish` — **what a single change of the state does to the
  invariant**.
-/

import GoHpb.SyncScheduler

namespace Synctrl

open WorkLedger Scheduler Multiset List

variable {Tx Rcpt : Type}

/-! ### Lanes and requests -/

namespace Lane

/-- The tasks that wait or are in flight. -/
def held (l : Lane) : Multiset Header :=
  (l.taskQueue : Multiset Header) + (l.inFlight : List Header)

variable {id : String}

theorem entries_perm {pend : AList fun _ : String => FetchRequest}
    {request : FetchRequest} (h : pend.lookup id = some request) :
    pend.entries.Perm (⟨id, request⟩ :: (pend.erase id).entries) := by
  have hmem : id ∈ pend.entries.keys :=
    AList.mem_keys.2 (AList.lookup_isSome.1 (Option.isSome_iff_exists.2 ⟨request, h⟩))
  obtain ⟨r, l₁, l₂, hnot, heq, herase⟩ := exists_of_kerase hmem
  have hr : r = request := by
    have hlookup : pend.entries.dlookup id = some request := h
    have hin : (⟨id, r⟩ : Σ _ : String, FetchRequest) ∈ pend.entries := heq ▸ by simp
    exact Option.some.inj ((mem_dlookup pend.nodupKeys hin).symm.trans hlookup)
  subst hr
  change pend.entries.Perm (⟨id, r⟩ :: pend.entries.kerase id)
  rw [herase, heq]
  exact perm_middle

theorem inFlight_insert {l : Lane} (request : FetchRequest) (h : l.pendPool.lookup id = none) :
    Lane.inFlight { l with pendPool := l.pendPool.insert id request } =
      request.headers ++ l.inFlight := by
  have hentries := AList.insert_of_notMem (b := request) (AList.lookup_eq_none.1 h)
  simp only [inFlight, hentries, flatMap_cons]

theorem inFlight_expire (l : Lane) (now timeout : ℕ) : (l.inFlight : Multiset Header) =
      ((l.expired now timeout).flatMap fun e => e.2.headers : List Header) +
        ((l.expire now timeout).2.inFlight : List Header) := by
  refine coe_eq_coe.2 ?_
  change (l.pendPool.entries.flatMap _).Perm _
  rw [expired, inFlight, expire, ← flatMap_append]
  refine List.Perm.flatMap_right _ ?_
  simp only [decide_not]
  exact (filter_append_perm _ _).symm

end Lane

/-! ### The parts of the state -/

namespace Scheduler

variable {s : Scheduler Tx Rcpt} {part q : Part} {l : Lane}

@[simp] theorem lane_setLane : (s.setLane part l).lane part = l := by
  cases part <;> rfl

theorem lane_setLane_of_ne (h : q ≠ part) : (s.setLane part l).lane q = s.lane q := by
  cases part <;> cases q <;> first | rfl | exact absurd rfl h

@[simp] theorem resultCache_setLane : (s.setLane part l).resultCache = s.resultCache := by
  cases part <;> rfl

@[simp] theorem resultOffset_setLane : (s.setLane part l).resultOffset = s.resultOffset := by
  cases part <;> rfl

/-- What stays as it is between two retrievals of results. -/
def frame (s : Scheduler Tx Rcpt) : SyncMode × ℕ × ℕ := (s.mode, s.fastSyncPivot, s.resultOffset)

@[simp] theorem frame_setLane : (s.setLane part l).frame = s.frame := by
  cases part <;> rfl

/-- The parts of a block that have to be retrieved. -/
def needs (s : Scheduler Tx Rcpt) : Part → Header → Bool
  | Part.block, _ => true
  | Part.receipt, header => s.fastPhase header

theorem needs_congr {s' : Scheduler Tx Rcpt} (h : s'.frame = s.frame) : s'.needs = s.needs := by
  obtain ⟨hmode, hpivot, -⟩ : s'.mode = s.mode ∧ s'.fastSyncPivot = s.fastSyncPivot ∧
      s'.resultOffset = s.resultOffset := by
    simpa [frame] using h
  funext q header
  cases q with
  | block => rfl
  | receipt => simp only [needs, fastPhase, hmode, hpivot]

variable (i : ℕ) (header : Header)

@[simp] theorem touch_lane : (s.touch i header).lane q = s.lane q := by
  unfold touch
  split <;> cases q <;> rfl

@[simp] theorem touch_frame : (s.touch i header).frame = s.frame := by
  unfold touch
  split <;> rfl

@[simp] theorem length_touch :
    (s.touch i header).resultCache.length = s.resultCache.length := by
  unfold touch
  split
  · exact length_set
  · rfl

@[simp] theorem modifyResult_lane (i : ℕ) (f : FetchResult Tx Rcpt → FetchResult Tx Rcpt) :
    (s.modifyResult i f).lane q = s.lane q := by
  cases q <;> rfl

variable [Crypto]

/-- A part that is needed and not done counts one. -/
def lacking (s : Scheduler Tx Rcpt) (header : Header) (part : Part) : ℤ :=
  if s.needs part header ∧ header.hash ∉ (s.lane part).donePool then 1 else 0

/-- The header has an entry of the cache. -/
def Reserved (s : Scheduler Tx Rcpt) (live : List Header) (header : Header) : Prop :=
  ∃ (i : ℕ) (r : FetchResult Tx Rcpt), live[i]? = some header ∧ s.resultCache[i]? = some (some r)

end Scheduler

/-- An operation has tasks of one part in its hands. -/
def only (part : Part) (hands : Multiset Header) : Part → Multiset Header := fun q =>
  if q = part then hands else 0

theorem only_self (part : Part) (hands : Multiset Header) : only part hands part = hands :=
  if_pos rfl

theorem only_of_ne {part q : Part} (hands : Multiset Header) (h : q ≠ part) :
    only part hands q = 0 :=
  if_neg h

variable [Crypto]

/-- The tasks of a lane, with those that an operation has in its hands, are the given ones; those
that left the queue have an entry of the cache. -/
structure LaneOk (tasks : List Header) (l : Lane) (hands : Multiset Header)
    (reserved : Header → Prop) : Prop where
  ledger : Ledger Header.hash tasks (l.held + hands) l.donePool
  pooled : ∀ k ∈ l.taskPool, ∃ header ∈ l.held + hands, header.hash = k
  reserved_hands : ∀ header, header ∈ l.inFlight ∨ header ∈ hands → reserved header
  reserved_done : ∀ header ∈ tasks, header.hash ∈ l.donePool → reserved header

namespace LaneOk

variable {tasks : List Header} {l l' : Lane} {hands hands' : Multiset Header}
  {reserved reserved' : Header → Prop}

theorem rearrange (h : LaneOk tasks l hands reserved) (hpool : l'.taskPool = l.taskPool)
    (hdone : l'.donePool = l.donePool) (hheld : l'.held + hands' = l.held + hands)
    (hres : ∀ header, header ∈ l'.inFlight ∨ header ∈ hands' → reserved header) :
    LaneOk tasks l' hands' reserved where
  ledger := by
    rw [hheld, hdone]
    exact h.ledger
  pooled := by
    rw [hheld, hpool]
    exact h.pooled
  reserved_hands := hres
  reserved_done := by
    rw [hdone]
    exact h.reserved_done

theorem mono (h : LaneOk tasks l hands reserved)
    (himp : ∀ header, reserved header → reserved' header) : LaneOk tasks l hands reserved' :=
  ⟨h.ledger, h.pooled, fun header hmem => himp _ (h.reserved_hands header hmem),
    fun header hmem hdone => himp _ (h.reserved_done header hmem hdone)⟩

theorem push (headers : List Header) (h : LaneOk tasks l (hands + headers) reserved) :
    LaneOk tasks (l.push headers) hands reserved := by
  refine h.rearrange rfl rfl ?_ fun header hmem => h.reserved_hands header ?_
  · simp only [Lane.held, Lane.push, ← coe_add]
    change _ + (l.inFlight : Multiset Header) + hands = _
    abel
  · exact hmem.imp_right fun hmem => mem_add.2 (.inl hmem)

variable {request : FetchRequest} {id : String}

theorem forget (h : LaneOk tasks l hands reserved) (hlookup : l.pendPool.lookup id = some request) :
    LaneOk tasks (l.forget id) (hands + request.headers) reserved := by
  have hflight : (l.inFlight : Multiset Header) = request.headers + (l.forget id).inFlight :=
    coe_eq_coe.2 ((Lane.entries_perm hlookup).flatMap_right _)
  refine h.rearrange rfl rfl ?_ fun header hmem => ?_
  · simp only [Lane.held, hflight]
    change (l.taskQueue : Multiset Header) + _ + _ = _
    abel
  have hin : ∀ header, header ∈ (request.headers : Multiset Header) + (l.forget id).inFlight →
      reserved header := fun header hmem =>
    h.reserved_hands header (.inl (mem_coe.1 (hflight ▸ hmem)))
  rcases hmem with hmem | hmem
  · exact hin header (mem_add.2 (.inr (mem_coe.2 hmem)))
  rcases mem_add.1 hmem with hmem | hmem
  · exact h.reserved_hands header (.inr hmem)
  · exact hin header (mem_add.2 (.inl hmem))

theorem insert (h : LaneOk tasks l (hands + request.headers) reserved)
    (hlookup : l.pendPool.lookup id = none) :
    LaneOk tasks { l with pendPool := l.pendPool.insert id request } hands reserved := by
  have hflight := Lane.inFlight_insert request hlookup
  refine h.rearrange rfl rfl ?_ fun header hmem => h.reserved_hands header ?_
  · simp only [Lane.held, hflight, ← coe_add]
    abel
  rw [hflight, mem_append, or_assoc] at hmem
  rcases hmem with hmem | hmem | hmem
  · exact .inr (mem_add.2 (.inr hmem))
  · exact .inl hmem
  · exact .inr (mem_add.2 (.inl hmem))

variable (h : LaneOk tasks l hands reserved)
include h

theorem giveBack
    (hlookup : l.pendPool.lookup id = some request) :
    LaneOk tasks (l.giveBack id request) hands reserved :=
  (h.forget hlookup).push request.headers

theorem revoke (peerId : String) :
    LaneOk tasks (l.revoke peerId) hands reserved := by
  unfold Lane.revoke
  split
  · next request hlookup => exact h.giveBack hlookup
  · exact h

theorem expire (now timeout : ℕ) :
    LaneOk tasks (l.expire now timeout).2 hands reserved := by
  have hflight := Lane.inFlight_expire l now timeout
  refine h.rearrange rfl rfl ?_ fun header hmem => h.reserved_hands header (hmem.imp_left ?_)
  · simp only [Lane.held, hflight]
    change ((l.taskQueue ++ (l.expired now timeout).flatMap _ : List Header) : Multiset Header) +
      _ + _ = _
    rw [← coe_add]
    abel
  · intro hmem
    exact mem_coe.1 (hflight ▸ mem_add.2 (.inr (mem_coe.2 hmem)))

omit h

theorem finish {header : Header} (h : LaneOk tasks l (header ::ₘ hands) reserved)
    (hnd : (tasks.map Header.hash).Nodup) : LaneOk tasks (l.finish header) hands reserved := by
  have hcons : l.held + header ::ₘ hands = header ::ₘ (l.held + hands) := by
    rw [add_cons]
  have hledger := h.ledger
  rw [hcons] at hledger
  refine ⟨hledger.finish hnd, ?_, ?_, ?_⟩
  · intro k hk
    obtain ⟨hne, hk⟩ := Finset.mem_erase.1 hk
    obtain ⟨other, hmem, rfl⟩ := h.pooled k hk
    rw [hcons] at hmem
    rcases mem_cons.1 hmem with rfl | hmem
    · exact absurd rfl hne
    · exact ⟨other, hmem, rfl⟩
  · intro other hmem
    exact h.reserved_hands other (hmem.imp_right fun hmem => mem_cons_of_mem hmem)
  · intro other hmem hdone
    rcases Finset.mem_insert.1 hdone with heq | hdone
    · have hheader : header ∈ tasks := (hledger.mem_held.1 (mem_cons_self _ _)).1
      obtain rfl := inj_on_of_nodup_map hnd hmem hheader heq
      exact h.reserved_hands other (.inr (mem_cons_self _ _))
    · exact h.reserved_done other hmem hdone

theorem add {header : Header} (h : LaneOk tasks l hands reserved)
    (hfresh : ∀ other ∈ tasks, other.hash ≠ header.hash) :
    LaneOk (tasks ++ [header]) (l.add header) hands reserved := by
  have hnot : header.hash ∉ l.donePool := fun hdone => by
    obtain ⟨other, hmem, heq⟩ := h.ledger.known _ hdone
    exact hfresh other hmem heq
  have hheld : (l.add header).held + hands = l.held + hands + ([header] : List Header) := by
    simp only [Lane.held, Lane.add, ← coe_add]
    change _ + _ + (l.inFlight : Multiset Header) + hands = _
    abel
  constructor
  · rw [hheld]
    refine h.ledger.add fun other hother => ?_
    rw [List.mem_singleton.1 hother]
    exact hnot
  · intro k hk
    rw [hheld]
    rcases Finset.mem_insert.1 hk with rfl | hk
    · exact ⟨header, mem_add.2 (.inr (by simp)), rfl⟩
    · obtain ⟨other, hmem, heq⟩ := h.pooled k hk
      exact ⟨other, mem_add.2 (.inl hmem), heq⟩
  · exact h.reserved_hands
  · intro other hmem hdone
    rcases List.mem_append.1 hmem with hmem | hmem
    · exact h.reserved_done other hmem hdone
    · rw [List.mem_singleton.1 hmem] at hdone
      exact absurd hdone hnot

end LaneOk

/-! ### Results -/

variable [GetRlp Tx] [GetRlp Rcpt]

/-- The contents of a part fit the header. -/
def Fits (part : Part) (header : Header) (r : FetchResult Tx Rcpt) : Prop :=
  match part with
  | Part.block => Scheduler.bodyFits header r.transactions r.uncles
  | Part.receipt => Scheduler.receiptsFit header r.receipts

/-- Nothing of a part is there. -/
def Blank (part : Part) (r : FetchResult Tx Rcpt) : Prop :=
  match part with
  | Part.block => r.transactions = [] ∧ r.uncles = []
  | Part.receipt => r.receipts = []

/-- A part is the same in two results. -/
def SameContents (part : Part) (r r' : FetchResult Tx Rcpt) : Prop :=
  match part with
  | Part.block => r'.transactions = r.transactions ∧ r'.uncles = r.uncles
  | Part.receipt => r'.receipts = r.receipts

variable {header : Header}

theorem Fits.congr {part : Part} {r r' : FetchResult Tx Rcpt}
    (h : Fits part header r) (hsame : SameContents part r r') : Fits part header r' := by
  cases part with
  | block =>
    change bodyFits header r'.transactions r'.uncles
    rw [hsame.1, hsame.2]
    exact h
  | receipt =>
    change receiptsFit header r'.receipts
    rw [show r'.receipts = r.receipts from hsame]
    exact h

omit [Crypto] [GetRlp Tx] [GetRlp Rcpt] in
theorem Blank.congr {part : Part} {r r' : FetchResult Tx Rcpt} (h : Blank part r)
    (hsame : SameContents part r r') : Blank part r' := by
  cases part with
  | block => exact ⟨hsame.1.trans h.1, hsame.2.trans h.2⟩
  | receipt => exact Eq.trans hsame h

/-- What the cache has for a header. -/
structure ResultOk (s : Scheduler Tx Rcpt) (header : Header) (r : FetchResult Tx Rcpt) : Prop where
  header_eq : r.header = header
  pending_eq : r.pending = s.lacking header Part.block + s.lacking header Part.receipt
  fits : ∀ q, header.hash ∈ (s.lane q).donePool → Fits q header r
  blank : ∀ q, header.hash ∉ (s.lane q).donePool → Blank q r

omit [GetRlp Tx] [GetRlp Rcpt] in
theorem lacking_congr {s s' : Scheduler Tx Rcpt} (hneeds : s'.needs = s.needs)
    {q : Part} (hdone : header.hash ∈ (s'.lane q).donePool ↔ header.hash ∈ (s.lane q).donePool) :
    s'.lacking header q = s.lacking header q := by
  unfold lacking
  rw [hneeds]
  exact if_congr (and_congr_right fun _ => not_congr hdone) rfl rfl

theorem ResultOk.congr {s s' : Scheduler Tx Rcpt} {r : FetchResult Tx Rcpt}
    (h : ResultOk s header r) (hneeds : s'.needs = s.needs)
    (hdone : ∀ q, header.hash ∈ (s'.lane q).donePool ↔ header.hash ∈ (s.lane q).donePool) :
    ResultOk s' header r where
  header_eq := h.header_eq
  pending_eq := by
    rw [lacking_congr hneeds (hdone _), lacking_congr hneeds (hdone _)]
    exact h.pending_eq
  fits := fun q hq => h.fits q ((hdone q).1 hq)
  blank := fun q hq => h.blank q fun hmem => hq ((hdone q).2 hmem)

/-! ### The invariant -/

/-- The invariant of a scheduler with the given headers, scheduled and not returned yet, while an
operation has some tasks in its hands. -/
structure Inv (c : SyncMode × ℕ × ℕ) (s : Scheduler Tx Rcpt) (live : List Header)
    (hands : Part → Multiset Header) : Prop where
  frame_eq : s.frame = c
  numbers : Consecutive Header.number s.resultOffset live
  small : ∀ header ∈ live, header.number < 2 ^ 24
  hashes : (live.map Header.hash).Nodup
  lanes : ∀ q, LaneOk (live.filter (s.needs q)) (s.lane q) (hands q) (s.Reserved live)
  cached : ∀ (i : ℕ) (r : FetchResult Tx Rcpt), s.resultCache[i]? = some (some r) →
    ∃ header, live[i]? = some header ∧ ResultOk s header r

namespace Inv

variable {c : SyncMode × ℕ × ℕ} {s : Scheduler Tx Rcpt} {live : List Header}
  {hands : Part → Multiset Header} {part : Part} {e e' : Multiset Header} {header : Header} {i : ℕ}

variable (h : Inv c s live hands)
include h

theorem nodup_tasks (q : Part) :
    ((live.filter (s.needs q)).map Header.hash).Nodup :=
  h.hashes.sublist (filter_sublist.map _)

theorem consecutive_tasks (q : Part) :
    Consecutive Header.number s.resultOffset (live.filter (s.needs q)) := by
  cases q with
  | block =>
    rw [show live.filter (s.needs .block) = live from filter_eq_self.2 fun _ _ => rfl]
    exact h.numbers
  | receipt =>
    by_cases hmode : s.mode = .fastSync
    · have heq : live.filter (s.needs .receipt) =
          live.filter fun header => header.number ≤ s.fastSyncPivot := by
        refine filter_congr fun header hmem => ?_
        simp only [needs, fastPhase, hmode, true_and, number_of_lt (h.small header hmem)]
      rw [heq]
      exact h.numbers.filter_le _
    · have hnil : live.filter (s.needs .receipt) = [] := by
        simp [needs, fastPhase, hmode]
      rw [hnil]
      trivial

theorem mem_tasks {q : Part} (hmem : header ∈ (s.lane q).held + hands q) :
    header ∈ live.filter (s.needs q) ∧ header.hash ∉ (s.lane q).donePool :=
  (h.lanes q).ledger.mem_held.1 hmem

theorem index_eq (hi : live[i]? = some header) : s.index header = i := by
  have hnum := h.numbers.num_of_getElem? hi
  have hlt := h.small header (mem_of_getElem? hi)
  rw [index, BigWord.int64_eq (by omega) (by omega), BigWord.int64_eq (by omega) (by omega)]
  omega

theorem place_unique {j : ℕ} {other : Header} (hi : live[i]? = some header)
    (hj : live[j]? = some other) (heq : other.hash = header.hash) : i = j := by
  have hsame : other = header := inj_on_of_nodup_map h.hashes
    (mem_of_getElem? hj) (mem_of_getElem? hi) heq
  have h1 := h.numbers.num_of_getElem? hi
  have h2 := h.numbers.num_of_getElem? hj
  rw [hsame] at h2
  omega

omit h

theorem setLane {l : Lane} (h : Inv c s live (only part e))
    (hl : LaneOk (live.filter (s.needs part)) l e' (s.Reserved live))
    (hdone : l.donePool = (s.lane part).donePool) :
    Inv c (s.setLane part l) live (only part e') := by
  have hneeds : (s.setLane part l).needs = s.needs := needs_congr frame_setLane
  have hreserved : (s.setLane part l).Reserved live = s.Reserved live := by
    unfold Scheduler.Reserved
    rw [resultCache_setLane]
  have hpools : ∀ q, ((s.setLane part l).lane q).donePool = (s.lane q).donePool := by
    intro q
    by_cases hq : q = part
    · subst hq
      rw [lane_setLane, hdone]
    · rw [lane_setLane_of_ne hq]
  refine ⟨frame_setLane.trans h.frame_eq, ?_, h.small, h.hashes, ?_, ?_⟩
  · rw [resultOffset_setLane]
    exact h.numbers
  · intro q
    rw [hneeds, hreserved]
    by_cases hq : q = part
    · subst hq
      rw [lane_setLane, only_self]
      exact hl
    · have hlane := h.lanes q
      rw [only_of_ne _ hq] at hlane
      rw [lane_setLane_of_ne hq, only_of_ne _ hq]
      exact hlane
  · rw [resultCache_setLane]
    intro i r hr
    obtain ⟨header, hi, hok⟩ := h.cached i r hr
    exact ⟨header, hi, hok.congr hneeds fun q => by rw [hpools]⟩

theorem lane_only (h : Inv c s live (only part e)) :
    LaneOk (live.filter (s.needs part)) (s.lane part) e (s.Reserved live) := by
  have hlane := h.lanes part
  rwa [only_self] at hlane

theorem zero_iff : Inv c s live (only part 0) ↔ Inv c s live fun _ => 0 := by
  rw [show only part 0 = fun _ => 0 from funext fun _ => ite_self 0]

theorem move (part : Part) {l : Lane} (h : Inv c s live fun _ => 0)
    (hl : ∀ {tasks : List Header} {reserved : Header → Prop},
      LaneOk tasks (s.lane part) 0 reserved → LaneOk tasks l 0 reserved)
    (hdone : l.donePool = (s.lane part).donePool) : Inv c (s.setLane part l) live fun _ => 0 := by
  have hzero : Inv c s live (only part 0) := zero_iff.2 h
  exact zero_iff.1 (hzero.setLane (hl hzero.lane_only) hdone)

theorem not_done (h : Inv c s live hands) (hi : live[i]? = some header)
    (hnone : s.resultCache[i]? = some none) (q : Part) : header.hash ∉ (s.lane q).donePool := by
  intro hdone
  have hlane := h.lanes q
  obtain ⟨other, hmem, heq⟩ := hlane.ledger.known _ hdone
  obtain ⟨j, r, hj, hr⟩ := hlane.reserved_done other hmem (heq ▸ hdone)
  obtain rfl := h.place_unique hi hj heq
  rw [hnone] at hr
  exact nomatch hr

theorem resultOk_newResult (hnot : ∀ q, header.hash ∉ (s.lane q).donePool) :
    ResultOk s header (s.newResult header) where
  header_eq := rfl
  pending_eq := by
    have hlack : ∀ q, s.lacking header q = if s.needs q header then 1 else 0 := fun q => by
      exact if_congr (and_iff_left (hnot q)) rfl rfl
    rw [hlack, hlack, newResult]
    by_cases hfast : s.fastPhase header = true
    · simp [needs, hfast]
    · simp [needs, hfast]
  fits := fun q hq => absurd hq (hnot q)
  blank := fun q _ => by
    cases q with
    | block => exact ⟨rfl, rfl⟩
    | receipt => rfl

theorem touch (h : Inv c s live hands) (hi : live[i]? = some header)
    (hlen : i < s.resultCache.length) :
    Inv c (s.touch i header) live hands ∧ (s.touch i header).Reserved live header := by
  have hneeds : (s.touch i header).needs = s.needs :=
    needs_congr (touch_frame i header)
  cases hentry : s.resultCache[i]? with
  | none => exact absurd (getElem?_eq_none_iff.1 hentry) (by omega)
  | some entry =>
    cases entry with
    | some r =>
      have htouch : s.touch i header = s := by
        unfold Scheduler.touch
        rw [hentry]
      rw [htouch]
      exact ⟨h, i, r, hi, hentry⟩
    | none =>
      have hcache : (s.touch i header).resultCache =
          s.resultCache.set i (some (s.newResult header)) := by
        unfold Scheduler.touch
        rw [hentry]
      have hself : (s.touch i header).resultCache[i]? = some (some (s.newResult header)) := by
        rw [hcache, getElem?_set_self hlen]
      have hother : ∀ j, j ≠ i → (s.touch i header).resultCache[j]? = s.resultCache[j]? := by
        intro j hj
        rw [hcache, getElem?_set_ne hj.symm]
      have hmono : ∀ other, s.Reserved live other → (s.touch i header).Reserved live other := by
        rintro other ⟨j, r, hj, hr⟩
        refine ⟨j, r, hj, ?_⟩
        rw [hother j fun heq => ?_]
        · exact hr
        subst heq
        rw [hentry] at hr
        exact nomatch hr
      have hoffset : (s.touch i header).resultOffset = s.resultOffset :=
        congrArg (fun f => f.2.2) (touch_frame i header)
      refine ⟨⟨(touch_frame i header).trans h.frame_eq, hoffset ▸ h.numbers, h.small,
        h.hashes, fun q => ?_, fun j r hr => ?_⟩, i, _, hi, hself⟩
      · rw [hneeds, touch_lane]
        exact (h.lanes q).mono hmono
      by_cases hj : j = i
      · subst hj
        rw [hself] at hr
        obtain rfl := Option.some.inj (Option.some.inj hr)
        exact ⟨header, hi, (resultOk_newResult (h.not_done hi hentry)).congr hneeds
          fun q => by rw [touch_lane]⟩
      · rw [hother j hj] at hr
        obtain ⟨other, hlive, hok⟩ := h.cached j r hr
        exact ⟨other, hlive, hok.congr hneeds fun q => by rw [touch_lane]⟩

theorem finish {r : FetchResult Tx Rcpt} {f : FetchResult Tx Rcpt → FetchResult Tx Rcpt}
    (h : Inv c s live (only part (header ::ₘ e))) (hi : live[i]? = some header)
    (hr : s.resultCache[i]? = some (some r)) (hheader : (f r).header = r.header)
    (hpending : (f r).pending = r.pending - 1) (hfits : Fits part header (f r))
    (hsame : ∀ q, q ≠ part → SameContents q r (f r)) :
    Inv c ((s.setLane part ((s.lane part).finish header)).modifyResult i f) live (only part e) := by
  set s' := (s.setLane part ((s.lane part).finish header)).modifyResult i f with hs'
  have hframe : s'.frame = s.frame := frame_setLane
  have hneeds : s'.needs = s.needs := needs_congr hframe
  have hlane : s'.lane part = (s.lane part).finish header := by
    rw [hs', modifyResult_lane, lane_setLane]
  have hlane_ne : ∀ q, q ≠ part → s'.lane q = s.lane q := fun q hq => by
    rw [hs', modifyResult_lane, lane_setLane_of_ne hq]
  have hget : ∀ j, s'.resultCache[j]? =
      if i = j then s.resultCache[j]?.map (Option.map f) else s.resultCache[j]? := by
    intro j
    change ((s.setLane part _).resultCache.modify i (Option.map f))[j]? = _
    rw [resultCache_setLane, getElem?_modify]
    split_ifs <;> simp
  have hself : s'.resultCache[i]? = some (some (f r)) := by
    rw [hget, if_pos rfl, hr]
    rfl
  have hmono : ∀ other, s.Reserved live other → s'.Reserved live other := by
    rintro other ⟨j, r', hj, hr'⟩
    by_cases hij : i = j
    · exact ⟨j, f r, hj, hij ▸ hself⟩
    · exact ⟨j, r', hj, by rw [hget, if_neg hij, hr']⟩
  have htask : header ∈ live.filter (s.needs part) ∧ header.hash ∉ (s.lane part).donePool := by
    refine h.mem_tasks ?_
    rw [only_self]
    exact mem_add.2 (.inr (mem_cons_self _ _))
  have hneed : s.needs part header = true := (mem_filter.1 htask.1).2
  refine ⟨hframe.trans h.frame_eq, (congrArg (fun f => f.2.2) hframe :
    s'.resultOffset = s.resultOffset) ▸ h.numbers, h.small, h.hashes, fun q => ?_, ?_⟩
  · rw [hneeds]
    by_cases hq : q = part
    · subst hq
      rw [hlane, only_self]
      exact (h.lane_only.finish (h.nodup_tasks q)).mono hmono
    · have hother := h.lanes q
      rw [only_of_ne _ hq] at hother
      rw [hlane_ne q hq, only_of_ne _ hq]
      exact hother.mono hmono
  intro j r' hr'
  by_cases hij : i = j
  · subst hij
    rw [hself] at hr'
    obtain rfl := Option.some.inj (Option.some.inj hr')
    obtain ⟨other, hlive, hok⟩ := h.cached i r hr
    obtain rfl : header = other := Option.some.inj (hi.symm.trans hlive)
    refine ⟨header, hi, hheader.trans hok.header_eq, ?_, fun q hdone => ?_, fun q hdone => ?_⟩
    · -- the part counted one, and counts nothing now
      have hold : s.lacking header part = 1 := if_pos ⟨hneed, htask.2⟩
      have hnew : s'.lacking header part = 0 := by
        refine if_neg fun hlack => hlack.2 ?_
        rw [hlane]
        exact Finset.mem_insert_self _ _
      have hother : ∀ q, q ≠ part → s'.lacking header q = s.lacking header q := fun q hq =>
        lacking_congr hneeds (by rw [hlane_ne q hq])
      rw [hpending, hok.pending_eq]
      cases part with
      | block =>
        rw [hold, hnew, hother .receipt nofun]
        omega
      | receipt =>
        rw [hold, hnew, hother .block nofun]
        omega
    · by_cases hq : q = part
      · subst hq
        exact hfits
      · rw [hlane_ne q hq] at hdone
        exact (hok.fits q hdone).congr (hsame q hq)
    · by_cases hq : q = part
      · subst hq
        rw [hlane] at hdone
        exact absurd (Finset.mem_insert_self _ _) hdone
      · rw [hlane_ne q hq] at hdone
        exact (hok.blank q hdone).congr (hsame q hq)
  · rw [hget, if_neg hij] at hr'
    obtain ⟨other, hlive, hok⟩ := h.cached j r' hr'
    refine ⟨other, hlive, hok.congr hneeds fun q => ?_⟩
    by_cases hq : q = part
    · subst hq
      rw [hlane]
      exact Finset.mem_insert.trans (or_iff_right fun heq => hij (h.place_unique hi hlive heq))
    · rw [hlane_ne q hq]

end Inv

end Synctrl
