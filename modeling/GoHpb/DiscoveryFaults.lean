/-
**What hostile packets do to the discovery protocol.**

A node whose first registration failed has no record in the node database, but the time of its
attempt is kept: when it registers again too early, its missing record is used for the log message.
A ping that is waited for is answered with its nonce, whose first byte is overwritten even if there
is none.  And the time of an attempt is kept in whole seconds, so that a registration can come up to
a second too early without being refused.  Nothing else goes wrong.

Main results:

* `Udp.step_ok_iff` — **one event goes well exactly under its condition**;
* `Udp.survives_iff` — **a run goes well exactly if each of its events meets the condition**.
-/

import GoHpb.Discovery
import GoHpb.CryptoTable

namespace Discover

open Udp FixedBytes List
open Sample (array signature)

/-! ### Pending replies -/

theorem takeFirst_eq_some {α : Type} {p : α → Bool} {l rest : List α} {a : α}
    (h : takeFirst p l = some (a, rest)) : a ∈ l ∧ p a := by
  induction l generalizing rest with
  | nil => exact nomatch h
  | cons b l ih =>
    rw [takeFirst] at h
    split_ifs at h with hp
    · obtain ⟨rfl, rfl⟩ := Prod.mk.inj (Option.some.inj h)
      exact ⟨mem_cons_self, hp⟩
    obtain ⟨r, hr, heq⟩ := Option.map_eq_some_iff.1 h
    obtain ⟨rfl, -⟩ := Prod.mk.inj heq
    obtain ⟨hmem, hp⟩ := ih (show takeFirst p l = some (r.1, r.2) from hr)
    exact ⟨mem_cons_of_mem _ hmem, hp⟩

theorem takeFirst_eq_none {α : Type} {p : α → Bool} {l : List α} (h : takeFirst p l = none) :
    ∀ a ∈ l, ¬ p a := by
  induction l with
  | nil => exact nofun
  | cons b l ih =>
    rw [takeFirst] at h
    split_ifs at h with hp
    intro a ha
    rcases mem_cons.1 ha with rfl | ha
    · exact hp
    · exact ih (Option.map_eq_none_iff.1 h) a ha

/-- A routine is about another node than the own one, and not at its end. -/
def Stage.passed : Stage → Bool
  | .started => false
  | .done _ => false
  | _ => true

namespace Udp

variable {s s' : Udp}

/-- A packet is waited for. -/
def Awaited (s : Udp) (sender : NodeID) (ptype : PacketType) : Prop :=
  ∃ p ∈ s.plist, p.sender = sender ∧ p.ptype = ptype

theorem handleReply_fst (s : Udp) (sender : NodeID) (ptype : PacketType) :
    (s.handleReply sender ptype).1 = true ↔ s.Awaited sender ptype := by
  unfold handleReply
  split
  · next p rest h =>
      obtain ⟨hmem, hp⟩ := takeFirst_eq_some h
      exact iff_of_true rfl ⟨p, hmem, of_decide_eq_true hp⟩
  · next h =>
      refine iff_of_false (by simp) ?_
      rintro ⟨p, hmem, hp⟩
      exact takeFirst_eq_none h p hmem (decide_eq_true hp)

/-! ### Runs that go well -/

/-- A registration that comes too early after the last attempt is refused. -/
def RateLimited (s : Udp) (s' : Udp) : Event → Prop
  | .bondCheck i now => ∀ (b : Bond) (t : ℤ), s.bonds[i]? = some b → b.stage = .started →
      s.attempts.lookup b.id = some t → now - t < updateDBNodeMin →
        s'.bonds[i]?.map Bond.stage = some (.done (some .errFrequently))
  | _ => True

/-- A run without panics, in which registrations that come too early are refused. -/
def Survives [Crypto] (s : Udp) : List Event → Prop
  | [] => True
  | e :: events => ∃ s', s.step e = .ok s' ∧ RateLimited s s' e ∧ Survives s' events

/-- The condition on an event.  A ping that is waited for has a nonce.  A node that registers within
the time of the last registration in the database has a record there, and it does not register
between the time after the last attempt and the one after its full second. -/
def Event.Safe [Crypto] (s : Udp) : Event → Prop
  | .packet now _ _ buf _ => ∀ expiration nonce sender,
      decodePacket buf = .ok (.ping expiration nonce, sender) →
      ¬ expired now expiration → s.Awaited sender .pingPacket → nonce ≠ []
  | .bondCheck i now => ∀ b : Bond, s.bonds[i]? = some b → b.stage = .started →
      b.id ≠ s.self → (s.age now b.id < updateDBNodeMin → (s.nodes.lookup b.id).isSome) ∧
        ∀ t, s.attempts.lookup b.id = some t → now - t < updateDBNodeMin →
          now - t / second * second < updateDBNodeMin
  | _ => True

/-- Each event of a run meets the condition. -/
def SafeRun [Crypto] (s : Udp) : List Event → Prop
  | [] => True
  | e :: events => e.Safe s ∧ ∀ s', s.step e = .ok s' → SafeRun s' events

/-! ### The times of the attempts -/

/-- The database has the time of the last attempt of each node, in whole seconds; no routine about
the own node gets past the check. -/
structure Tracked (s : Udp) : Prop where
  attempts : ∀ id t, s.attempts.lookup id = some t →
    s.lastRegister.lookup id = some (t / second) ∧ id ≠ s.self
  passed : ∀ (i : ℕ) (b : Bond), s.bonds[i]? = some b → b.stage.passed → b.id ≠ s.self

namespace Tracked

theorem start (self : NodeID) (nodes : Finmap fun _ : NodeID => Node)
    (lastRegister : Finmap fun _ : NodeID => ℤ) : Tracked (start self nodes lastRegister) :=
  ⟨fun id _ h => (nomatch h.symm.trans (Finmap.lookup_empty id)), fun i _ hb =>
    (nomatch hb.symm.trans (getElem?_nil (i := i)))⟩

variable (h : Tracked s)
include h

theorem congr (hself : s'.self = s.self) (hlast : s'.lastRegister = s.lastRegister)
    (hbonds : s'.bonds = s.bonds) (hattempts : s'.attempts = s.attempts) : Tracked s' := by
  constructor
  · rw [hself, hlast, hattempts]
    exact h.attempts
  · rw [hself, hbonds]
    exact h.passed

theorem setStage {i : ℕ} {stage : Stage}
    (hstage : ∀ b : Bond, s.bonds[i]? = some b → stage.passed → b.id ≠ s.self) :
    Tracked (s.setStage i stage) := by
  refine ⟨h.attempts, fun j b hb hpassed => ?_⟩
  change (s.bonds.modify i fun b => { b with stage := stage })[j]? = some b at hb
  by_cases hij : i = j
  · subst hij
    rw [getElem?_modify_eq] at hb
    obtain ⟨b', hb', rfl⟩ := Option.map_eq_some_iff.1 hb
    exact hstage b' hb' hpassed
  · rw [getElem?_modify_ne _ _ hij] at hb
    exact h.passed j b hb hpassed

theorem answer (waiter : Option ℕ) (err : Option BondErr) :
    Tracked (s.answer waiter err) := by
  unfold Udp.answer
  cases waiter with
  | none => exact h
  | some i =>
    dsimp only
    split
    · next node hstage =>
        obtain ⟨b, hb, hnode⟩ := Option.map_eq_some_iff.1 hstage
        refine h.setStage fun b' hb' _ => h.passed i b' hb' ?_
        obtain rfl : b = b' := Option.some.inj (hb.symm.trans hb')
        rw [hnode]
        rfl
    · exact h

theorem handleReply (sender : NodeID) (ptype : PacketType) :
    Tracked (s.handleReply sender ptype).2 := by
  unfold Udp.handleReply
  split
  · next p rest _ =>
      have hrest : Tracked { s with plist := rest } := h.congr rfl rfl rfl rfl
      exact hrest.answer p.waiter none
  · exact h

theorem handleSolicited (now : ℤ) (sender : NodeID) (ptype : PacketType)
    (expiration : ℕ) : Tracked (s.handleSolicited now sender ptype expiration).2 := by
  have hreply := h.handleReply sender ptype
  unfold Udp.handleSolicited
  split_ifs
  · exact h
  split
  · next heq =>
      rw [heq] at hreply
      exact hreply
  · next heq =>
      rw [heq] at hreply
      exact hreply

theorem handle {now : ℤ} {ip : Bytes} {port : ℕ} {sender : NodeID}
    {rand : FixedBytes 32} {packet : Packet} {out : Option PacketErr × Udp}
    (hout : s.handle now ip port sender rand packet = .ok out) : Tracked out.2 := by
  cases packet with
  | regMsg tcp expiration =>
    rw [Udp.handle] at hout
    split_ifs at hout
    · obtain rfl := Except.ok.inj hout
      exact h
    obtain rfl := Except.ok.inj hout
    refine ⟨h.attempts, fun i b hb hpassed => ?_⟩
    rcases mem_append.1 (mem_of_getElem? hb) with hmem | hmem
    · obtain ⟨j, hj⟩ := mem_iff_getElem?.1 hmem
      exact h.passed j b hj hpassed
    · rw [mem_singleton.1 hmem] at hpassed
      exact nomatch hpassed
  | ping expiration nonce =>
    have hreply := h.handleSolicited now sender .pingPacket expiration
    rw [Udp.handle] at hout
    split at hout
    · next heq =>
        obtain rfl := Except.ok.inj hout
        rw [heq] at hreply
        exact hreply
    · next heq =>
        split_ifs at hout
        obtain rfl := Except.ok.inj hout
        rw [heq] at hreply
        exact hreply
  | pong expiration =>
    obtain rfl := Except.ok.inj hout
    exact h.handleSolicited now sender .pongPacket expiration
  | peng expiration =>
    obtain rfl := Except.ok.inj hout
    exact h.handleSolicited now sender .pengPacket expiration
  | getnodes expiration =>
    rw [Udp.handle] at hout
    split_ifs at hout
    · obtain rfl := Except.ok.inj hout
      exact h
    split at hout
    · obtain rfl := Except.ok.inj hout
      exact h
    split_ifs at hout
    · obtain rfl := Except.ok.inj hout
      exact h
    · obtain rfl := Except.ok.inj hout
      exact h
  | nodeslist expiration =>
    obtain rfl := Except.ok.inj hout
    exact h.handleSolicited now sender .nodeslistPacket expiration

theorem bondCheck {i : ℕ} {now : ℤ} (hout : s.bondCheck i now = .ok s') :
    Tracked s' := by
  unfold Udp.bondCheck at hout
  split at hout
  · next id ip port tcpPort randNonce hb =>
      split_ifs at hout with hself
      · obtain rfl := Except.ok.inj hout
        exact h.setStage fun _ _ hpassed => nomatch hpassed
      · split at hout
        · exact nomatch hout
        · obtain rfl := Except.ok.inj hout
          exact h.setStage fun _ _ hpassed => nomatch hpassed
      · obtain rfl := Except.ok.inj hout
        refine h.setStage fun b hb' _ => ?_
        obtain rfl := Option.some.inj (hb.symm.trans hb')
        exact hself
  · obtain rfl := Except.ok.inj hout
    exact h

theorem bondPing (i : ℕ) (now : ℤ) : Tracked (s.bondPing i now) := by
  unfold Udp.bondPing
  split
  · next node hstage =>
      obtain ⟨b, hb, hnode⟩ := Option.map_eq_some_iff.1 hstage
      have hset : Tracked (s.setStage i (.pinging node)) := by
        refine h.setStage fun b' hb' _ => h.passed i b' hb' ?_
        obtain rfl : b = b' := Option.some.inj (hb.symm.trans hb')
        rw [hnode]
        rfl
      exact hset.congr rfl rfl rfl rfl
  · exact h

theorem updateLastRegister {id : NodeID} (hid : id ≠ s.self) (now : ℤ) :
    Tracked (s.updateLastRegister id now) := by
  refine ⟨fun id' t ht => ?_, h.passed⟩
  change (s.attempts.insert id now).lookup id' = some t at ht
  change (s.lastRegister.insert id (now / second)).lookup id' = some (t / second) ∧ id' ≠ s.self
  by_cases heq : id' = id
  · subst heq
    rw [Finmap.lookup_insert] at ht ⊢
    rw [Option.some.inj ht]
    exact ⟨rfl, hid⟩
  · rw [Finmap.lookup_insert_of_ne _ heq] at ht ⊢
    exact h.attempts id' t ht

theorem bondFinish (i : ℕ) (now : ℤ) : Tracked (s.bondFinish i now) := by
  unfold Udp.bondFinish
  split
  · next id _ _ _ _ node err hb =>
      have hid : id ≠ s.self := h.passed i _ hb rfl
      have hrecord : Tracked (if node.nodeType ≠ initNode then
          s.updateNode { node with nodeType := initNode } else s) := by
        split_ifs
        · exact h.congr rfl rfl rfl rfl
        · exact h
      refine Tracked.setStage (hrecord.updateLastRegister ?_ now) fun _ _ hpassed => nomatch hpassed
      split_ifs
      · exact hid
      · exact hid
  · next id _ _ _ _ node hb =>
      have hid : id ≠ s.self := h.passed i _ hb rfl
      have hrecord : Tracked (s.updateNode { node with nodeType := authNode }) :=
        h.congr rfl rfl rfl rfl
      exact Tracked.setStage (hrecord.updateLastRegister hid now) fun _ _ hpassed => nomatch hpassed
  · exact h

omit h

/-- **The times are tracked in every run.** -/
theorem step [Crypto] (h : Tracked s) {e : Event} (hout : s.step e = .ok s') : Tracked s' := by
  cases e with
  | packet now ip port buf rand =>
    rw [Udp.step, handlePacket] at hout
    split at hout
    · obtain rfl := Except.ok.inj hout
      exact h
    next packet sender _ =>
      cases hhandle : s.handle now ip port sender rand packet with
      | error f =>
        rw [hhandle] at hout
        exact nomatch hout
      | ok out =>
        rw [hhandle] at hout
        obtain rfl := Except.ok.inj hout
        exact h.handle hhandle
  | bondCheck i now => exact h.bondCheck hout
  | bondPing i now =>
    obtain rfl := Except.ok.inj hout
    exact h.bondPing i now
  | bondFinish i now =>
    obtain rfl := Except.ok.inj hout
    exact h.bondFinish i now
  | request now id ptype =>
    obtain rfl := Except.ok.inj hout
    exact h.congr rfl rfl rfl rfl
  | expire now =>
    obtain rfl := Except.ok.inj hout
    unfold expire
    split
    · next p rest _ =>
        have hrest : Tracked { s with plist := rest } := h.congr rfl rfl rfl rfl
        exact hrest.answer p.waiter _
    · exact h

end Tracked

/-! ### The condition on an event -/

/-- A packet panics exactly if it is a ping that is waited for and has no nonce. -/
theorem handlePacket_ok_iff [Crypto] (s : Udp) (now : ℤ) (ip : Bytes) (port : ℕ) (buf : Bytes)
    (rand : FixedBytes 32) : (∃ out, s.handlePacket now ip port buf rand = .ok out) ↔
      Event.Safe s (.packet now ip port buf rand) := by
  change _ ↔ ∀ expiration nonce sender, decodePacket buf = .ok (.ping expiration nonce, sender) →
      ¬ expired now expiration → s.Awaited sender .pingPacket → nonce ≠ []
  unfold handlePacket
  cases hdecode : decodePacket buf with
  | error e => exact iff_of_true ⟨_, rfl⟩ fun _ _ _ h => nomatch h
  | ok decoded =>
    obtain ⟨packet, sender⟩ := decoded
    dsimp only
    cases packet with
    | ping expiration nonce =>
      have hping : ∀ e n id, (.ok (.ping expiration nonce, sender) :
          Except PacketErr (Packet × NodeID)) = .ok (.ping e n, id) →
          expiration = e ∧ nonce = n ∧ sender = id := by
        intro e n id h
        obtain ⟨h1, h2⟩ := Prod.mk.inj (Except.ok.inj h)
        obtain ⟨h3, h4⟩ := Packet.ping.inj h1
        exact ⟨h3, h4, h2⟩
      have hreply := handleReply_fst s sender .pingPacket
      rw [handle, handleSolicited]
      by_cases hexp : expired now expiration = true
      · rw [if_pos hexp]
        refine iff_of_true ⟨_, rfl⟩ fun e n id h hnot => ?_
        obtain ⟨rfl, -, -⟩ := hping e n id h
        exact absurd hexp hnot
      rw [if_neg hexp]
      cases hout : s.handleReply sender .pingPacket with
      | mk matched s₁ =>
        rw [hout] at hreply
        cases matched with
        | false =>
          refine iff_of_true ⟨_, rfl⟩ fun e n id h _ hawaited => ?_
          obtain ⟨-, -, rfl⟩ := hping e n id h
          exact nomatch hreply.2 hawaited
        | true =>
          dsimp only
          by_cases hnonce : nonce = []
          · rw [if_pos hnonce]
            exact iff_of_false (fun h => nomatch h.choose_spec) fun h =>
              h expiration nonce sender rfl hexp (hreply.1 rfl) hnonce
          · rw [if_neg hnonce]
            refine iff_of_true ⟨_, rfl⟩ fun e n id h _ _ => ?_
            obtain ⟨-, rfl, -⟩ := hping e n id h
            exact hnonce
    | regMsg tcp expiration =>
      refine iff_of_true ?_ fun _ _ _ h => nomatch h
      rw [handle]
      split_ifs
      · exact ⟨_, rfl⟩
      · exact ⟨_, rfl⟩
    | pong expiration | peng expiration => exact iff_of_true ⟨_, rfl⟩ fun _ _ _ h => nomatch h
    | getnodes expiration =>
      refine iff_of_true ?_ fun _ _ _ h => nomatch h
      rw [handle]
      split_ifs
      · exact ⟨_, rfl⟩
      split
      · exact ⟨_, rfl⟩
      split_ifs
      · exact ⟨_, rfl⟩
      · exact ⟨_, rfl⟩
    | nodeslist expiration => exact iff_of_true ⟨_, rfl⟩ fun _ _ _ h => nomatch h

theorem stage_setStage {i : ℕ} {b : Bond} (hb : s.bonds[i]? = some b) (stage : Stage) :
    (s.setStage i stage).bonds[i]?.map Bond.stage = some stage := by
  change (s.bonds.modify i fun b => { b with stage := stage })[i]?.map Bond.stage = _
  rw [getElem?_modify_eq, hb]
  rfl

/-- The check of a routine goes well exactly if a node that registers too early has a record, and
the full second makes no difference. -/
theorem bondCheck_ok_iff [Crypto] (h : Tracked s) (i : ℕ) (now : ℤ) :
    (∃ s', s.bondCheck i now = .ok s' ∧ RateLimited s s' (.bondCheck i now)) ↔
      Event.Safe s (.bondCheck i now) := by
  unfold bondCheck
  split
  · next id ip port tcpPort randNonce hb =>
      have hbond : ∀ b : Bond, s.bonds[i]? = some b →
          b = ⟨id, ip, port, tcpPort, randNonce, .started⟩ := fun b hb' =>
        (Option.some.inj (hb.symm.trans hb')).symm
      by_cases hself : id = s.self
      · rw [if_pos hself]
        refine iff_of_true ⟨_, rfl, fun b t hb' _ ht _ => ?_⟩ fun b hb' _ hne => ?_
        · obtain rfl := hbond b hb'
          exact absurd hself (h.attempts id t ht).2
        · obtain rfl := hbond b hb'
          exact absurd hself hne
      rw [if_neg hself]
      have hage : ∀ t, s.attempts.lookup id = some t →
          s.age now id = now - t / second * second := fun t ht => by
        rw [age, (h.attempts id t ht).1, Option.getD_some]
      by_cases hearly : s.age now id < updateDBNodeMin
      · rw [if_pos hearly]
        cases hnode : s.nodes.lookup id with
        | none =>
          refine iff_of_false (fun hout => nomatch hout.choose_spec.1) fun hsafe => ?_
          have hsome := (hsafe _ hb rfl hself).1 hearly
          rw [hnode] at hsome
          exact nomatch hsome
        | some node =>
          refine iff_of_true ⟨_, rfl, fun b t hb' _ _ _ => stage_setStage hb _⟩
            fun b hb' _ _ => ?_
          obtain rfl := hbond b hb'
          refine ⟨fun _ => by rw [hnode]; rfl, fun t ht _ => ?_⟩
          rw [← hage t ht]
          exact hearly
      · rw [if_neg hearly]
        constructor
        · rintro ⟨s', hout, hlimited⟩ b hb' _ _
          obtain rfl := hbond b hb'
          refine ⟨fun hlt => absurd hlt hearly, fun t ht hlt => ?_⟩
          have hstage := hlimited _ t hb rfl ht hlt
          obtain rfl := Except.ok.inj hout
          rw [stage_setStage hb] at hstage
          exact nomatch hstage
        · intro hsafe
          refine ⟨_, rfl, fun b t hb' _ ht hlt => ?_⟩
          obtain rfl := hbond b hb'
          have hfull := (hsafe _ hb rfl hself).2 t ht hlt
          rw [← hage t ht] at hfull
          exact absurd hfull hearly
  · next hother =>
      have hnot : ∀ b : Bond, s.bonds[i]? = some b → b.stage ≠ .started := by
        rintro ⟨id, ip, port, tcpPort, randNonce, stage⟩ hb rfl
        exact hother id ip port tcpPort randNonce hb
      exact iff_of_true ⟨s, rfl, fun b _ hb hstage => absurd hstage (hnot b hb)⟩
        fun b hb hstage => absurd hstage (hnot b hb)

/-- **One event goes well exactly under its condition.** -/
theorem step_ok_iff [Crypto] (h : Tracked s) (e : Event) :
    (∃ s', s.step e = .ok s' ∧ RateLimited s s' e) ↔ e.Safe s := by
  cases e with
  | packet now ip port buf rand =>
    rw [← handlePacket_ok_iff, step]
    constructor
    · rintro ⟨s', hout, -⟩
      cases hpacket : s.handlePacket now ip port buf rand with
      | error f =>
        rw [hpacket] at hout
        exact nomatch hout
      | ok out => exact ⟨out, rfl⟩
    · rintro ⟨out, hout⟩
      exact ⟨out.2, by rw [hout]; rfl, trivial⟩
  | bondCheck i now => exact bondCheck_ok_iff h i now
  | bondPing i now | bondFinish i now | request now id ptype | expire now =>
    exact iff_of_true ⟨_, rfl, trivial⟩ trivial

theorem Tracked.survives_iff_safeRun [Crypto] (h : Tracked s) (events : List Event) :
    Survives s events ↔ SafeRun s events := by
  induction events generalizing s with
  | nil => exact Iff.rfl
  | cons e events ih =>
    constructor
    · rintro ⟨s', hstep, hlimited, hrest⟩
      refine ⟨(step_ok_iff h e).1 ⟨s', hstep, hlimited⟩, fun s'' hstep' => ?_⟩
      obtain rfl := Except.ok.inj (hstep.symm.trans hstep')
      exact (ih (h.step hstep)).1 hrest
    · rintro ⟨hsafe, hrest⟩
      obtain ⟨s', hstep, hlimited⟩ := (step_ok_iff h e).2 hsafe
      exact ⟨s', hstep, hlimited, (ih (h.step hstep)).2 (hrest s' hstep)⟩

/-- **A run goes well exactly if each of its events meets the condition**, from any node
database. -/
theorem survives_iff [Crypto] (self : NodeID) (nodes : Finmap fun _ : NodeID => Node)
    (lastRegister : Finmap fun _ : NodeID => ℤ) (events : List Event) :
    Survives (start self nodes lastRegister) events ↔
      SafeRun (start self nodes lastRegister) events :=
  (Tracked.start self nodes lastRegister).survives_iff_safeRun events

/-! ### Three runs -/

theorem Survives.exists_foldlM [Crypto] {events : List Event} (h : Survives s events) :
    ∃ s', events.foldlM step s = .ok s' := by
  induction events generalizing s with
  | nil => exact ⟨s, rfl⟩
  | cons e events ih =>
    obtain ⟨s', hstep, -, hrest⟩ := h
    obtain ⟨s'', hrun⟩ := ih hrest
    refine ⟨s'', ?_⟩
    rw [foldlM_cons, hstep]
    exact hrun

namespace Hostile

/-- A registration and a ping without a nonce, by the same sender. -/
def regData : Bytes := bigBytes 0x01de01cb840a00000182765f82765fcb840a00000182765f82765f84ffffffff

def pingData : Bytes :=
  bigBytes 0x02df01cb840a00000182765f82765fcb840a00000182765f82765f84ffffffff80

def regHash : Hash :=
  array 32 0xc05862af01c7c9df9f9d68e3e30777f93adf185756b6e8a87671ca2d7d9c1545

def pingHash : Hash :=
  array 32 0x6bd4a4df2e1acb700e04a61990a4f957fad9404e6a242a2b297d504ddd25402c

def regSig : Bytes :=
  (signature 0xcb778bd14f93b23f584f3cfa6c9f04d11f7b45fdbf30a1a832712b183c0983d0
    0x22ed2ffe71b45258c38523549f0ace3db4dd25ab952b897013378f5ca58bfa13 1).bytes

def pingSig : Bytes :=
  (signature 0x175806a9c9ad2b801529a33f4638b35c9c95abfb2abfd3a89fd443e253c833ea
    0x3b4d9348a171f55b3ea4f8ea4258997457905d64462ec13c7ecb4fc3c3003be7 1).bytes

def regMac : Hash :=
  array 32 0x9c4aa22db346c6be29ecc172dde46ebee92b649bc64d8cc68785b2ad26872cf0

def pingMac : Hash :=
  array 32 0x81ad847af1d39a874a878513358f5d31770e2baf6f0aedd91cc74029b582246a

def pubkey : FixedBytes 65 := setBytes 65 ([4] ++
  (array 32 0xd47644539acec3da5e3ecf5fe8863c628a9c97e8b71e9ea9167a6f4f83c03c32).bytes ++
  (array 32 0x133d725f647850113deead6cf8dfa22043d74b81433c445d07092c2ed9751c9e).bytes)

scoped instance crypto : Crypto := tableCrypto
  [(regData, regHash), (pingData, pingHash), (regSig ++ regData, regMac),
    (pingSig ++ pingData, pingMac)]
  [((regHash.bytes, regSig), pubkey), ((pingHash.bytes, pingSig), pubkey)]

def regPacket : Bytes := regMac.bytes ++ regSig ++ regData

def pingPacket : Bytes := pingMac.bytes ++ pingSig ++ pingData

def sender : NodeID := ⟨pubkey.bytes.drop 1, by simp⟩

/-- A registration whose ping is not answered, at a time in milliseconds. -/
def failedAttempt (ms : ℤ) : List Event :=
  [.packet (ms * 10 ^ 6) [10, 0, 0, 1] 30303 regPacket (zero 32),
    .bondCheck 0 (ms * 10 ^ 6), .bondPing 0 (ms * 10 ^ 6),
    .expire ((ms + 5000) * 10 ^ 6), .bondFinish 0 ((ms + 5000) * 10 ^ 6)]

/-- A second registration. -/
def secondAttempt (ms : ℤ) : List Event :=
  [.packet (ms * 10 ^ 6) [10, 0, 0, 1] 30303 regPacket (zero 32),
    .bondCheck 1 (ms * 10 ^ 6)]

/-- A run from an empty database: its panic, or the stages of the routines and the time of the last
attempt of the sender. -/
def outcome (events : List Event) : Except Fault (List Stage × Option ℤ) :=
  (events.foldlM step (start (zero 64) ∅ ∅)).map fun s =>
    (s.bonds.map Bond.stage, s.attempts.lookup sender)

/-- The panic of an outcome. -/
def fault {α : Type} : Except Fault α → Option Fault
  | .error f => some f
  | .ok _ => none

/-- A ping that is waited for. -/
def emptyPing : List Event :=
  [.request 0 sender .pingPacket,
    .packet (10 ^ 12) [10, 0, 0, 1] 30303 pingPacket (zero 32)]

end Hostile

open Hostile in
/-- A node whose first attempt failed registers again a second later; a ping without a nonce comes;
and a registration gets past the check less than ten seconds after the last attempt. -/
theorem not_survives_hostile : ¬ Survives (start (zero 64) ∅ ∅)
        (failedAttempt 1000000 ++ secondAttempt 1006000) ∧
      ¬ Survives (start (zero 64) ∅ ∅) emptyPing ∧
      (outcome (failedAttempt 995900 ++
          secondAttempt 1010500)).toOption.map (fun o => (o.1.map Stage.passed, o.2)) =
        some ([false, true], some (1000900 * 10 ^ 6)) := by
  have hfault : ∀ {events : List Event} {f : Fault},
      fault (outcome events) = some f →
        ¬ Survives (start (zero 64) ∅ ∅) events := by
    intro events f hf hsurvives
    obtain ⟨s', hrun⟩ := hsurvives.exists_foldlM
    rw [Hostile.outcome, hrun] at hf
    exact nomatch hf
  have hnil : fault (outcome
      (failedAttempt 1000000 ++ secondAttempt 1006000)) = some .nilNode := by
    decide +kernel
  have hempty : fault (outcome emptyPing) = some .emptyIndex := by
    decide +kernel
  exact ⟨hfault hnil, hfault hempty, by decide +kernel⟩

end Udp

end Discover
