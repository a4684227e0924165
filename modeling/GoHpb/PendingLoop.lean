/-
**The pending replies of the discovery protocol.**

`udp.loop` of `p2p/discover/udp.go`, with the list of the replies that are waited for.  Three of its
loops remove elements while they walk the list.  `Remove` of `container/list` clears the links of
the element it removes, so a walk ends with the first element it removes, and what stands behind it
is not served by this event.

Main results:

* `Loop.dispatch_iff` — **an event serves all the entries it is meant for exactly when none of them
  stands behind one that it removes**;
* `NetChecks.getnodes_complete_iff`, `Registration.registration_iff` — **when a node list is
  complete, and when a registration succeeds**.
-/

import GoHpb.Discovery

namespace Discover

open FixedBytes

/-! ### A walk that ends with a removal -/

section Walk

open List

variable {α κ : Type} (f : α → Option α)

/-- The elements a walk visits; where `f` gives `none` the element is removed. -/
def visited : List α → List α
  | [] => []
  | a :: l => a :: if (f a).isSome then visited l else []

/-- The list after the walk. -/
def walked : List α → List α
  | [] => []
  | a :: l =>
    match f a with
    | some b => b :: walked l
    | none => l

/-- The elements behind the one that is removed. -/
def behind : List α → List α
  | [] => []
  | a :: l => if (f a).isSome then behind l else l

/-- The element that is removed. -/
def removed (l : List α) : List α := (l.find? fun a => (f a).isNone).toList

theorem visited_append_behind (l : List α) : visited f l ++ behind f l = l := by
  induction l with
  | nil => rfl
  | cons a l ih =>
    simp only [visited, behind]
    split <;> simp [ih]

theorem walked_append_removed {key : α → κ} (hkey : ∀ a b, f a = some b → key b = key a)
    (l : List α) : ((walked f l).map key ++ (removed f l).map key) ~ l.map key := by
  induction l with
  | nil => rfl
  | cons a l ih =>
    cases ha : f a with
    | none => simp [walked, removed, ha, perm_append_singleton]
    | some b => simpa [walked, removed, ha, hkey a b ha] using ih

end Walk

/-! ### The loop -/

/-- What a routine that waits for a reply receives. -/
inductive Result where
  | nil
  | errTimeout
  | errClockWarp
  | errClosed
  deriving DecidableEq

/-- A reply that is waited for.  The callback tells from what has been received if it is complete;
`id` stands for the pointer. -/
structure Entry (δ : Type) where
  id : ℕ
  sender : NodeID
  ptype : PacketType
  deadline : ℤ
  callback : List δ → Bool
  received : List δ

variable {δ : Type}

/-- The entry after its callback was called. -/
def Entry.receive (p : Entry δ) (data : δ) : Entry δ := { p with received := p.received ++ [data] }

/-- The state of the loop, with the results sent so far. -/
structure Loop (δ : Type) where
  plist : List (Entry δ)
  nextTimeout : Option ℕ
  results : List (Entry δ × Result)
  next : ℕ

namespace Loop

open List

def start : Loop δ := ⟨[], none, [], 0⟩

/-- The deadline is too far in the future. -/
def tooFar (now : ℤ) (p : Entry δ) : Bool := ¬ p.deadline - now < 2 * msgTimeout

def resetTimeout (s : Loop δ) (now : ℤ) : Loop δ :=
  match s.plist with
  | [] => s
  | p :: rest =>
    if s.nextTimeout = some p.id then s
    else if tooFar now p then
      -- the walk ends here, since the links of `p` are cleared
      { s with plist := rest, nextTimeout := none, results := s.results ++ [(p, .errClockWarp)] }
    else { s with nextTimeout := some p.id }

/-- The packet is one that the entry waits for. -/
def awaits (sender : NodeID) (ptype : PacketType) (p : Entry δ) : Bool :=
  p.sender = sender ∧ p.ptype = ptype

/-- A reply at an entry: the callback is called, and the entry is removed if it is complete. -/
def answer (sender : NodeID) (ptype : PacketType) (data : δ) (p : Entry δ) : Option (Entry δ) :=
  if awaits sender ptype p then
    if p.callback (p.receive data).received then none else some (p.receive data)
  else some p

/-- The deadline has passed. -/
def overdue (now : ℤ) (p : Entry δ) : Bool := p.deadline ≤ now

def expire (now : ℤ) (p : Entry δ) : Option (Entry δ) := if overdue now p then none else some p

/-- The events of the loop but for its end. -/
inductive Event (δ : Type) where
  | addpending (sender : NodeID) (ptype : PacketType) (callback : List δ → Bool) (now : ℤ)
  | gotreply (sender : NodeID) (ptype : PacketType) (data : δ)
  | timeout (now : ℤ)

/-- One event. -/
def handle (s : Loop δ) : Event δ → Loop δ
  | .addpending sender ptype callback now =>
    { s with
      plist := s.plist ++ [⟨s.next, sender, ptype, now + msgTimeout, callback, []⟩]
      next := s.next + 1 }
  | .gotreply sender ptype data =>
    { s with
      plist := walked (answer sender ptype data) s.plist
      results := s.results ++
        (removed (answer sender ptype data) s.plist).map fun p => (p.receive data, .nil) }
  | .timeout now =>
    { s with
      plist := walked (expire now) s.plist
      nextTimeout := none
      results := s.results ++ (removed (expire now) s.plist).map fun p => (p, .errTimeout) }

/-- The end of the loop. -/
def close (s : Loop δ) : Loop δ :=
  { s with plist := [], results := s.results ++ s.plist.map fun p => (p, .errClosed) }

/-- The states of the loop: each round resets the timer and takes an event. -/
inductive Reach : Loop δ → Prop where
  | start : Reach start
  | round {s : Loop δ} (now : ℤ) (e : Event δ) : Reach s → Reach ((s.resetTimeout now).handle e)

/-! ### One result for each entry -/

/-- Every entry that was added is in the list or has got a result, once. -/
def Accounts (s : Loop δ) : Prop :=
  (s.plist.map Entry.id ++ s.results.map (·.1.id)) ~ range s.next

variable {s : Loop δ}

theorem Accounts.move {l g : List (Entry δ)} (r : Entry δ → Entry δ × Result)
    (hr : ∀ p, (r p).1.id = p.id) (h : s.Accounts)
    (hl : (l.map Entry.id ++ g.map Entry.id) ~ s.plist.map Entry.id) (t : Option ℕ) :
    Accounts ⟨l, t, s.results ++ g.map r, s.next⟩ := by
  have hids : (g.map r).map (·.1.id) = g.map Entry.id := by simp [Function.comp_def, hr]
  unfold Accounts
  rw [map_append, hids]
  refine Perm.trans ?_ h
  refine (perm_append_comm.append_left _).trans ?_
  rw [← append_assoc]
  exact hl.append_right _

theorem Accounts.resetTimeout (h : s.Accounts) (now : ℤ) : (s.resetTimeout now).Accounts := by
  obtain ⟨plist, t, results, next⟩ := s
  unfold Loop.resetTimeout
  split
  · exact h
  rename_i p rest hplist
  split_ifs
  · exact h
  · refine h.move (g := [p]) (fun p => (p, .errClockWarp)) (fun _ => rfl) ?_ none
    rw [hplist]
    exact perm_append_singleton _ _
  · exact h

theorem Accounts.handle (h : s.Accounts) (e : Event δ) : (s.handle e).Accounts := by
  cases e with
  | addpending sender ptype callback now =>
    have hmid : ((s.plist.map Entry.id ++ [s.next]) ++ s.results.map (·.1.id)) ~
        (s.plist.map Entry.id ++ s.results.map (·.1.id)) ++ [s.next] := by
      rw [append_assoc, append_assoc]
      exact perm_append_comm.append_left _
    simpa [Loop.handle, Accounts, range_succ] using hmid.trans (h.append_right [s.next])
  | gotreply sender ptype data =>
    refine h.move _ (by simp [Entry.receive]) (walked_append_removed _ ?_ _) _
    intro p q hq
    unfold answer at hq
    split_ifs at hq <;> cases hq <;> rfl
  | timeout now =>
    refine h.move _ (by simp) (walked_append_removed _ ?_ _) _
    intro p q hq
    unfold expire at hq
    split_ifs at hq
    cases hq
    rfl

theorem Reach.accounts (h : Reach s) : s.Accounts := by
  induction h with
  | start => exact Perm.refl _
  | round now e _ ih => exact (ih.resetTimeout now).handle e

/-! ### Who is served -/

/-- The callbacks that a reply calls. -/
def calls (s : Loop δ) (sender : NodeID) (ptype : PacketType) (data : δ) : List (Entry δ) :=
  (visited (answer sender ptype data) s.plist).filter (awaits sender ptype)

theorem removed_expire (now : ℤ) (l : List (Entry δ)) :
    removed (expire now) l = (l.filter (overdue now)).take 1 := by
  have hnone : (fun p : Entry δ => (expire now p).isNone) = overdue now := by
    funext p
    unfold expire
    cases overdue now p <;> rfl
  rw [removed, hnone, ← head?_filter]
  cases l.filter (overdue now) <;> rfl

theorem results_resetTimeout (s : Loop δ) (now : ℤ) :
    (s.resetTimeout now).results = s.results ++ ((s.plist.takeWhile (tooFar now)).take
      (if s.nextTimeout = s.plist.head?.map Entry.id then 0 else 1)).map (·, .errClockWarp) := by
  unfold resetTimeout
  split
  · rename_i hnil
    simp [hnil]
  rename_i p rest hplist
  by_cases hnext : s.nextTimeout = some p.id
  · simp [hplist, hnext]
  · cases hfar : tooFar now p <;> simp [hplist, hnext, hfar]

theorem append_map_take_eq_iff {α β : Type} {r : List β} {l : List α} {n : ℕ} {g : α → β} :
    r ++ (l.take n).map g = r ++ l.map g ↔ l.length ≤ n := by
  rw [append_cancel_left_eq]
  constructor
  · intro h
    have hlen := congrArg length h
    simp only [length_map, length_take] at hlen
    omega
  · intro h
    rw [take_of_length_le h]

/-- **The pending replies.**  In every run an entry is in the list until it gets its result, and the
end of the loop leaves none without one.  A reply is passed to every entry that waits for it exactly
when none of them stands behind one that it completes; a timer event fails every overdue entry, and
a clock warp every entry in front of the first acceptable one, exactly when there is one at most;
and a clock warp is not noticed while the first entry is the one the timer was set for. -/
theorem dispatch_iff (h : Reach s) : (s.Accounts ∧ (s.close.results.map (·.1.id)) ~ range s.next) ∧
    (∀ sender ptype data, s.calls sender ptype data = s.plist.filter (awaits sender ptype) ↔
      ∀ p ∈ behind (answer sender ptype data) s.plist, awaits sender ptype p = false) ∧
    (∀ now, (s.handle (.timeout now)).results =
        s.results ++ (s.plist.filter (overdue now)).map (·, .errTimeout) ↔
      (s.plist.filter (overdue now)).length ≤ 1) ∧ ∀ now, (s.resetTimeout now).results =
        s.results ++ (s.plist.takeWhile (tooFar now)).map (·, .errClockWarp) ↔
      (s.plist.takeWhile (tooFar now)).length ≤
        if s.nextTimeout = s.plist.head?.map Entry.id then 0 else 1 := by
  refine ⟨⟨h.accounts, ?_⟩, fun sender ptype data => ?_, fun now => ?_, fun now => ?_⟩
  · have hids : s.close.results.map (·.1.id) = s.results.map (·.1.id) ++ s.plist.map Entry.id := by
      simp [close, Function.comp_def]
    rw [hids]
    exact perm_append_comm.trans h.accounts
  · nth_rewrite 1 [← visited_append_behind (answer sender ptype data) s.plist]
    rw [filter_append, calls, self_eq_append_right, filter_eq_nil_iff]
    simp
  · simp only [handle, removed_expire]
    exact append_map_take_eq_iff
  · rw [results_resetTimeout]
    exact append_map_take_eq_iff

/-- A routine waits for a pong of a node; and another one for the same. -/
def oneWaiting : Loop Unit :=
  (start.resetTimeout 0).handle
    (.addpending (zero 64) .pongPacket (fun _ => true) 0)

def twoWaiting : Loop Unit :=
  oneWaiting.handle (.addpending (zero 64) .pongPacket (fun _ => true) 0)

/-- One entry alone is served by a reply and by the timer. -/
theorem oneWaiting_served : oneWaiting.calls (zero 64) .pongPacket () =
        oneWaiting.plist.filter (awaits (zero 64) .pongPacket) ∧
      (oneWaiting.handle (.timeout msgTimeout)).results = oneWaiting.results ++
        (oneWaiting.plist.filter (overdue msgTimeout)).map (·, .errTimeout) := by
  have hserved := dispatch_iff (s := oneWaiting) (.round _ _ .start)
  exact ⟨(hserved.2.1 _ _ _).2 (by decide), (hserved.2.2.1 _).2 (by decide)⟩

/-- A reply, a timer event and a clock warp serve the first of two entries only. -/
theorem twoWaiting_half_served :
    (twoWaiting.calls (zero 64) .pongPacket ()).map Entry.id = [0] ∧
      ((twoWaiting.handle (.timeout msgTimeout)).results.map fun r => (r.1.id, r.2)) =
        [(0, .errTimeout)] ∧
      ((twoWaiting.resetTimeout (-2 * msgTimeout)).results.map fun r => (r.1.id, r.2)) =
        [(0, .errClockWarp)] ∧ twoWaiting.plist.map Entry.id = [0, 1] := by
  decide

end Loop

/-! ### The exchange of node lists -/

structure RpcNode where
  ip : Bytes
  udp : ℕ
  tcp : ℕ
  id : NodeID
  nodeType : ℕ

def nodeToRPC (n : Node) : RpcNode := ⟨n.ip, n.udp, n.tcp, n.id, n.nodeType⟩

/-- The checks of addresses and keys, and the whitelist of networks. -/
structure NetChecks where
  checkRelayIP : Bytes → Bytes → Bool
  netrestrict : Option (Bytes → Bool)
  isMulticastOrUnspecified : Bytes → Bool
  onCurve : NodeID → Bool

namespace NetChecks

open List

variable (net : NetChecks)

def validateComplete (n : Node) : Bool :=
  n.ip ≠ [] ∧ n.udp ≠ 0 ∧ n.tcp ≠ 0 ∧ ¬ net.isMulticastOrUnspecified n.ip ∧ net.onCurve n.id

def nodeFromRPC (sender : Bytes) (rn : RpcNode) : Option Node :=
  if rn.udp ≤ 1024 then none
  else if ¬ net.checkRelayIP sender rn.ip then none
  else if ¬ (net.netrestrict.getD fun _ => true) rn.ip then none
  else if rn.nodeType < authNode then none
  else
    let n := newNode rn.id rn.nodeType rn.ip rn.udp rn.tcp
    if net.validateComplete n then some n else none

/-- The number of nodes in a packet that `init` computes. -/
def maxNeighbors : ℕ := 12

/-- A node that the answer to a requester has. -/
def listed (ip : Bytes) (fromID : NodeID) (n : Node) : Bool :=
  n.id ≠ fromID ∧ net.checkRelayIP ip n.ip

/-- The packets of `getnodes.handle`, with the nodes of the one that is being filled. -/
def packets (ip : Bytes) (fromID : NodeID) : List RpcNode → List Node → List (List RpcNode)
  | nodes, [] => if nodes.length > 0 then [nodes] else []
  | nodes, n :: ns =>
    if net.listed ip fromID n then
      let nodes := nodes ++ [nodeToRPC n]
      if nodes.length = maxNeighbors then nodes :: packets ip fromID [] ns
      else packets ip fromID nodes ns
    else packets ip fromID nodes ns

/-- `getnodes.handle`: the packets that are sent. -/
def answerGetnodes (s : Udp) (buckets : List (List Node)) (now : ℤ) (ip : Bytes) (fromID : NodeID)
    (expiration : ℕ) : List (List RpcNode) :=
  if Udp.expired now expiration then []
  else
    match s.nodes.lookup fromID with
    | none => []
    | some node => if node.nodeType < authNode then [] else net.packets ip fromID [] buckets.flatten

/-- `getnodes`, when the packets arrive in time: its callback is complete with the first of them. -/
def getnodes (toid : NodeID) (toaddr : Bytes) (replies : List (List RpcNode)) : List Node :=
  let waiting : Loop (List RpcNode) :=
    Loop.start.handle (.addpending toid .nodeslistPacket (fun _ => true) 0)
  let s := replies.foldl (fun s data => s.handle (.gotreply toid .nodeslistPacket data)) waiting
  ((s.results.map Prod.fst ++ s.plist).flatMap Entry.received).flatten.filterMap
    (net.nodeFromRPC toaddr)

variable {net} {ip : Bytes} {fromID : NodeID}

theorem flatten_take_packets (ns : List Node) (nodes : List RpcNode)
    (hlen : nodes.length < maxNeighbors) : ((net.packets ip fromID nodes ns).take 1).flatten =
      (nodes ++ (ns.filter (net.listed ip fromID)).map nodeToRPC).take maxNeighbors := by
  induction ns generalizing nodes with
  | nil =>
    rw [packets, filter_nil, map_nil, append_nil, take_of_length_le hlen.le]
    cases nodes <;> simp
  | cons n ns ih =>
    rw [packets]
    by_cases hlisted : net.listed ip fromID n = true
    · rw [if_pos hlisted, filter_cons_of_pos hlisted, map_cons,
        append_cons nodes _ (map nodeToRPC _)]
      dsimp only
      split_ifs with hfull
      · rw [← hfull, take_left]
        simp
      refine ih _ ?_
      rw [length_append, length_singleton] at hfull ⊢
      omega
    · rw [if_neg hlisted, filter_cons_of_neg hlisted]
      exact ih nodes hlen

theorem getnodes_eq (toid : NodeID) (toaddr : Bytes) (replies : List (List RpcNode)) :
    net.getnodes toid toaddr replies =
      (replies.take 1).flatten.filterMap (net.nodeFromRPC toaddr) := by
  cases replies with
  | nil => rfl
  | cons data replies =>
    -- the entry is gone, and nothing takes the other packets
    rw [getnodes, foldl_cons, foldl_fixed']
    · simp [Loop.handle, Loop.start, Loop.answer, Loop.awaits, walked, removed, Entry.receive]
    · intro data'
      simp [Loop.handle, Loop.start, Loop.answer, Loop.awaits, walked, removed]

/-- **The exchange of node lists** is complete exactly when the nodes behind the first packet are
none that the requester would take. -/
theorem getnodes_complete_iff {s : Udp} {buckets : List (List Node)} {now : ℤ} {node : Node}
    {expiration : ℕ} (hnode : s.nodes.lookup fromID = some node) (hauth : authNode ≤ node.nodeType)
    (hexp : Udp.expired now expiration = false) (toid : NodeID) (toaddr : Bytes) :
    net.getnodes toid toaddr (net.answerGetnodes s buckets now ip fromID expiration) =
        (buckets.flatten.filter (net.listed ip fromID)).filterMap
          (net.nodeFromRPC toaddr ∘ nodeToRPC) ↔
      ∀ n ∈ (buckets.flatten.filter (net.listed ip fromID)).drop maxNeighbors,
        net.nodeFromRPC toaddr (nodeToRPC n) = none := by
  rw [getnodes_eq, answerGetnodes, hnode, hexp]
  dsimp only
  rw [if_neg Bool.false_ne_true, if_neg (by omega), flatten_take_packets _ _ (by decide),
    nil_append, ← map_take, filterMap_map]
  set l := buckets.flatten.filter (net.listed ip fromID)
  nth_rewrite 2 [← take_append_drop maxNeighbors l]
  rw [filterMap_append, self_eq_append_right, filterMap_eq_nil_iff]
  rfl

/-- Checks that let every node of the samples pass. -/
def lenient : NetChecks := ⟨fun _ _ => true, none, fun _ => false, fun _ => true⟩

/-- Nodes with the keys `1, …, k`. -/
def sampleNodes (k : ℕ) : List Node :=
  (range k).map fun i => newNode (setBytes 64 (bigBytes (i + 1))) authNode [10, 0, 0, 1]
    30303 30303

/-- A node that knows an authorised requester. -/
def knowing : Udp :=
  Udp.start (zero 64)
    ((∅ : Finmap fun _ : NodeID => Node).insert (zero 64)
      (newNode (zero 64) authNode [10, 0, 0, 2] 30303 30303)) ∅

/-- Three nodes are all returned. -/
theorem three_nodes_complete :
    (lenient.getnodes (zero 64) [10, 0, 0, 3] (lenient.answerGetnodes knowing
      [sampleNodes 3] 0 [10, 0, 0, 2] (zero 64) 20)).length = 3 := by
  rw [(getnodes_complete_iff (Finmap.lookup_insert _) (le_refl _) rfl _ _).2]
  · decide
  · decide

/-- Of thirteen nodes the last one is lost. -/
theorem thirteen_nodes_lose_one :
    (lenient.getnodes (zero 64) [10, 0, 0, 3] (lenient.answerGetnodes knowing
        [sampleNodes 13] 0 [10, 0, 0, 2] (zero 64) 20)).length = 12 ∧
      ((sampleNodes 13).filterMap (lenient.nodeFromRPC [10, 0, 0, 3] ∘ nodeToRPC)).length = 13 := by
  decide

end NetChecks

/-! ### A registration -/

/-- How far `regto` has come. -/
inductive Regto where
  | begun | waitsPing | sentReg | gotPing | waitsPeng | returned
  deriving DecidableEq

/-- How far the routine of the boot node has come; it waits for the pong before the ping is
sent. -/
inductive BootStage where
  | idle | bonding | waitsPong | sentPing | gotPong | sentPeng
  deriving DecidableEq

/-- A registration that no deadline ends: the two routines, the entries of the list and the results
that were sent, the packets under way, and a pong that the handler has still to send.  `lost` tells
that a packet was handled that nobody waited for. -/
structure Registration where
  regto : Regto
  boot : BootStage
  plist : List PacketType
  results : List PacketType
  flying : List PacketType
  pongDue : Bool
  lost : Bool
  deriving DecidableEq

namespace Registration

def start : Registration := ⟨.begun, .idle, [], [], [], false, false⟩

/-- The steps of `regto`, of the handler with the loop, and of the boot node. -/
inductive Step where
  | waitPing | sendReg | takeReg | waitPong | sendPing | handlePing | sendPong | getPing | waitPeng
  | takePong | sendPeng | handlePeng | ret

def Step.all : List Step :=
  [waitPing, sendReg, takeReg, waitPong, sendPing, handlePing, sendPong, getPing, waitPeng,
    takePong, sendPeng, handlePeng, ret]

/-- The loop passes a packet to the entry that waits for it, if there is one. -/
def handleReply (s : Registration) (ptype : PacketType) : Registration :=
  { s with
    plist := s.plist.erase ptype
    results := if ptype ∈ s.plist then s.results ++ [ptype] else s.results
    flying := s.flying.erase ptype
    lost := s.lost || ptype ∉ s.plist }

/-- The next state, if the step can be taken. -/
def step (s : Registration) : Step → Option Registration
  | .waitPing =>
    if s.regto = .begun then
      some { s with regto := .waitsPing, plist := s.plist ++ [.pingPacket] } else none
  | .sendReg =>
    if s.regto = .waitsPing then
      some { s with regto := .sentReg, flying := s.flying ++ [.regPacket] } else none
  | .takeReg =>
    if .regPacket ∈ s.flying then
      some { s with boot := .bonding, flying := s.flying.erase .regPacket } else none
  | .waitPong => if s.boot = .bonding then some { s with boot := .waitsPong } else none
  | .sendPing =>
    if s.boot = .waitsPong then
      some { s with boot := .sentPing, flying := s.flying ++ [.pingPacket] } else none
  | .handlePing =>
    if .pingPacket ∈ s.flying then
      some { s.handleReply .pingPacket with pongDue := .pingPacket ∈ s.plist } else none
  | .sendPong =>
    if s.pongDue then
      some { s with flying := s.flying ++ [.pongPacket], pongDue := false } else none
  | .getPing =>
    if s.regto = .sentReg ∧ .pingPacket ∈ s.results then some { s with regto := .gotPing } else none
  | .waitPeng =>
    if s.regto = .gotPing then
      some { s with regto := .waitsPeng, plist := s.plist ++ [.pengPacket] } else none
  | .takePong =>
    if .pongPacket ∈ s.flying ∧ s.boot = .sentPing then
      some { s with boot := .gotPong, flying := s.flying.erase .pongPacket } else none
  | .sendPeng =>
    if s.boot = .gotPong then
      some { s with boot := .sentPeng, flying := s.flying ++ [.pengPacket] } else none
  | .handlePeng =>
    -- the packets are handled one after the other
    if .pengPacket ∈ s.flying ∧ ¬ s.pongDue then some (s.handleReply .pengPacket) else none
  | .ret =>
    if s.regto = .waitsPeng ∧ .pengPacket ∈ s.results then some { s with regto := .returned }
    else none

/-- The states of all interleavings. -/
inductive Reach : Registration → Prop where
  | start : Reach start
  | step {s s' : Registration} (e : Step) : Reach s → s.step e = some s' → Reach s'

/-- No step is left. -/
def Final (s : Registration) : Prop := ∀ e, s.step e = none

/-- The states within `n` steps of the given ones. -/
def spread : ℕ → List Registration → List Registration
  | 0, l => l
  | n + 1, l => spread n (l ∪ l.flatMap fun s => Step.all.filterMap s.step)

/-- The states of a registration. -/
def states : List Registration := spread 13 [start]

theorem states_closed :
    start ∈ states ∧ ∀ s ∈ states, ∀ s' ∈ Step.all.filterMap s.step, s' ∈ states := by
  decide +kernel

theorem states_final : ∀ s ∈ states, Step.all.filterMap s.step = [] →
    (s.regto = .returned ↔ s.lost = false) := by
  decide +kernel

theorem Reach.mem_states {s : Registration} (h : Reach s) : s ∈ states := by
  induction h with
  | start => exact states_closed.1
  | step e _ hstep ih =>
    exact states_closed.2 _ ih _ (List.mem_filterMap.2 ⟨e, by cases e <;> simp [Step.all], hstep⟩)

/-- **A registration** whose packets all arrive in time succeeds exactly when the peng is handled
after `regto` has begun to wait for it. -/
theorem registration_iff {s : Registration} (h : Reach s) (hfinal : s.Final) :
    s.regto = .returned ↔ s.lost = false :=
  states_final s h.mem_states (List.filterMap_eq_nil_iff.2 fun e _ => hfinal e)

/-- The steps in turn. -/
def run (es : List Step) (s : Registration) : Option Registration := es.foldlM step s

theorem reach_run (es : List Step) {s s' : Registration} (h : Reach s)
    (hrun : run es s = some s') : Reach s' := by
  induction es generalizing s with
  | nil =>
    cases hrun
    exact h
  | cons e es ih =>
    obtain ⟨t, hstep, hrun⟩ := Option.bind_eq_some_iff.1 hrun
    exact ih (h.step e hstep) hrun

/-- The steps until the peng is under way, without those of `regto` after the ping. -/
def untilPeng : List Step :=
  [.waitPing, .sendReg, .takeReg, .waitPong, .sendPing, .handlePing, .sendPong, .takePong,
    .sendPeng]

/-- A registration succeeds if `regto` is quick enough. -/
theorem quick_registration :
    ∃ s : Registration, s.Final ∧ s.lost = false ∧ s.regto = .returned := by
  have hreach := reach_run (untilPeng ++ [.getPing, .waitPeng, .handlePeng, .ret]) .start rfl
  have hfinal : Final ⟨.returned, .sentPeng, [], [.pingPacket, .pengPacket], [], false, false⟩ :=
    fun e => by cases e <;> rfl
  exact ⟨_, hfinal, rfl, (registration_iff hreach hfinal).2 rfl⟩

/-- A registration fails if the peng is handled before `regto` has got the ping. -/
theorem slow_registration :
    run (untilPeng ++ [.handlePeng, .getPing, .waitPeng]) start =
        some ⟨.waitsPeng, .sentPeng, [.pengPacket], [.pingPacket], [], false, true⟩ ∧
      Final ⟨.waitsPeng, .sentPeng, [.pengPacket], [.pingPacket], [], false, true⟩ :=
  ⟨rfl, fun e => by cases e <;> rfl⟩

end Registration

end Discover
