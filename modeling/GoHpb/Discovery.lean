/-
**The discovery protocol.**

The UDP side of `p2p/discover`: packets are decoded and handled one after the other.  A registration
starts a routine of its own, `bondRegNode`, which looks the sender up in the node database, pings it
and waits for its pong; the list of pending replies tells which packets are waited for.  What runs
at the same time is interleaved: the routines go on by steps of their own.

A panic is an outcome of a step: a node record that is not there is used, or an empty byte field is
indexed.
-/

import GoHpb.BlockHeader
import GoHpb.BigWord
import GoHpb.RlpTyped

namespace Discover

open Rlp (Ty Fields UintSize)

/-! ### Nodes -/

/-- The public key of a node. -/
abbrev NodeID : Type := FixedBytes 64

def initNode : ℕ := 0x10

def authNode : ℕ := 0x30

/-- A node; the hash of its key is computed where it is needed. -/
structure Node where
  ip : Bytes
  udp : ℕ
  tcp : ℕ
  id : NodeID
  nodeType : ℕ
  randNonce : Bytes
  location : ℕ
  deriving DecidableEq

/-- An address as `NewNode` keeps it: the four bytes of an IPv4 address in the long form. -/
def shortIP (ip : Bytes) : Bytes :=
  if ip.length = 16 ∧ ip.take 12 = List.replicate 10 0 ++ [0xFF, 0xFF] then ip.drop 12 else ip

def newNode (id : NodeID) (nodeType : ℕ) (ip : Bytes) (udpPort tcpPort : ℕ) : Node :=
  ⟨shortIP ip, udpPort, tcpPort, id, nodeType, List.replicate 32 0, 0xFF⟩

/-- `copy` of a slice into another one. -/
def copyInto (dst src : Bytes) : Bytes := src.take dst.length ++ dst.drop src.length

/-! ### Packets -/

/-- The types of the packets. -/
inductive PacketType where
  | regPacket
  | pingPacket
  | pongPacket
  | pengPacket
  | getnodesPacket
  | nodeslistPacket
  deriving DecidableEq

/-- The type byte of a packet. -/
def PacketType.ofByte : UInt8 → Option PacketType
  | 1 => some regPacket
  | 2 => some pingPacket
  | 3 => some pongPacket
  | 4 => some pengPacket
  | 5 => some getnodesPacket
  | 6 => some nodeslistPacket
  | _ => none

def bytesTy : Ty := .slice (.uint .u8)

def uint64Ty : Ty := .uint .u64

/-- `rpcEndpoint`. -/
def endpointTy : Ty :=
  .struct (.cons "IP" bytesTy (.cons "UDP" (.uint .u16)
    (.cons "TCP" (.uint .u16) .nil)))

/-- `rpcNode`. -/
def rpcNodeTy : Ty :=
  .struct (.cons "IP" bytesTy (.cons "UDP" (.uint .u16)
    (.cons "TCP" (.uint .u16) (.cons "ID" (.byteArray 64)
      (.cons "TYPE" (.uint .u8) .nil)))))

/-- `regMsg`. -/
def regMsgTy : Ty :=
  .struct (.cons "Version" uint64Ty (.cons "From" endpointTy
    (.cons "To" endpointTy (.cons "Expiration" uint64Ty .nil))))

/-- `ping`. -/
def pingTy : Ty :=
  .struct (.cons "Version" uint64Ty (.cons "From" endpointTy
    (.cons "To" endpointTy (.cons "Expiration" uint64Ty
      (.cons "Nonce" bytesTy .nil)))))

/-- `pong`. -/
def pongTy : Ty :=
  .struct (.cons "From" endpointTy (.cons "To" endpointTy
    (.cons "ReplyTok" bytesTy (.cons "Expiration" uint64Ty
      (.cons "SignNonce" bytesTy .nil)))))

/-- `peng`. -/
def pengTy : Ty :=
  .struct (.cons "Version" uint64Ty (.cons "From" endpointTy
    (.cons "To" endpointTy (.cons "Expiration" uint64Ty
      (.cons "Result" .bool .nil)))))

/-- `getnodes`. -/
def getnodesTy : Ty :=
  .struct (.cons "Version" uint64Ty (.cons "Expiration" uint64Ty .nil))

/-- `nodeslist`. -/
def nodeslistTy : Ty :=
  .struct (.cons "Version" uint64Ty (.cons "Nodes" (.slice rpcNodeTy)
    (.cons "Expiration" uint64Ty .nil)))

/-- The type of the contents of a packet. -/
def PacketType.ty : PacketType → Ty
  | regPacket => regMsgTy
  | pingPacket => pingTy
  | pongPacket => pongTy
  | pengPacket => pengTy
  | getnodesPacket => getnodesTy
  | nodeslistPacket => nodeslistTy

/-- What the handlers read of a packet. -/
inductive Packet where
  | regMsg (tcp expiration : ℕ)
  | ping (expiration : ℕ) (nonce : Bytes)
  | pong (expiration : ℕ)
  | peng (expiration : ℕ)
  | getnodes (expiration : ℕ)
  | nodeslist (expiration : ℕ)

/-- The fields that the handlers read. -/
def Packet.ofValue : (ptype : PacketType) → ptype.ty.Value → Packet
  | .regPacket, ((_, (_, _, tcp, _), _, expiration, _) : regMsgTy.Value) =>
    .regMsg (UInt16.toNat tcp) (UInt64.toNat expiration)
  | .pingPacket, ((_, _, _, expiration, nonce, _) : pingTy.Value) =>
    .ping (UInt64.toNat expiration) nonce
  | .pongPacket, ((_, _, _, expiration, _) : pongTy.Value) =>
    .pong (UInt64.toNat expiration)
  | .pengPacket, ((_, _, _, expiration, _) : pengTy.Value) =>
    .peng (UInt64.toNat expiration)
  | .getnodesPacket, ((_, expiration, _) : getnodesTy.Value) =>
    .getnodes (UInt64.toNat expiration)
  | .nodeslistPacket, ((_, _, expiration, _) : nodeslistTy.Value) =>
    .nodeslist (UInt64.toNat expiration)

/-- The errors of the handlers. -/
inductive PacketErr where
  | errPacketTooSmall
  | errBadHash
  | recover (err : Err)
  | unknownType (ptype : UInt8)
  | decode (err : Rlp.DecodeErr)
  | errExpired
  | errUnsolicitedReply
  | errUnknownNode
  | errUnAutoNode

def macSize : ℕ := 32

def headSize : ℕ := 32 + 65

section Frame

variable [Crypto]

def recoverNodeID (hash sig : Bytes) : Except PacketErr NodeID :=
  match recoverPubkey hash sig with
  | .error e => .error (.recover e)
  | .ok pubkey => .ok ⟨pubkey.bytes.drop 1, by simp⟩

/-- `decodePacket`: the packet and its sender. -/
def decodePacket (buf : Bytes) : Except PacketErr (Packet × NodeID) :=
  if buf.length < headSize + 1 then .error .errPacketTooSmall
  else
    let hash := buf.take macSize
    let sig := (buf.take headSize).drop macSize
    let sigdata := buf.drop headSize
    if hash ≠ (Crypto.keccak256 (buf.drop macSize)).bytes then .error .errBadHash
    else do
      let fromID ← recoverNodeID (Crypto.keccak256 sigdata).bytes sig
      match PacketType.ofByte (sigdata.getD 0 0) with
      | none => .error (.unknownType (sigdata.getD 0 0))
      | some ptype =>
        let payload := sigdata.drop 1
        match ptype.ty.decode (payload.length + 1) (Rlp.Stream.new payload) with
        | .ok req _ => .ok (Packet.ofValue ptype req, fromID)
        | .error err _ => .error (.decode err)

end Frame

/-! ### The state -/

/-- A second, in nanoseconds. -/
def second : ℤ := 10 ^ 9

/-- The time a reply is waited for. -/
def msgTimeout : ℤ := 5 * second

/-- The time between two registrations of a node. -/
def updateDBNodeMin : ℤ := 10 * second

/-- The panics. -/
inductive Fault where
  | nilNode
  | emptyIndex
  deriving DecidableEq

/-- The errors of `bondRegNode`. -/
inductive BondErr where
  | errSelf
  | errFrequently
  | errTimeout
  | errClockWarp
  deriving DecidableEq

/-- How far a routine has come. -/
inductive Stage where
  | started
  | checked (node : Node)
  | pinging (node : Node)
  | answered (node : Node) (err : Option BondErr)
  | done (err : Option BondErr)
  deriving DecidableEq

/-- A routine `bondRegNode` with its arguments. -/
structure Bond where
  id : NodeID
  ip : Bytes
  port : ℕ
  tcpPort : ℕ
  randNonce : Bytes
  stage : Stage

/-- A reply that is waited for, by a routine or by a request of the node itself. -/
structure Pending where
  sender : NodeID
  ptype : PacketType
  deadline : ℤ
  waiter : Option ℕ

/-- The state: the records of the node database and the times of the last registrations in seconds,
the pending replies, and the routines.  The times at which an attempt ended are kept beside. -/
structure Udp where
  self : NodeID
  nodes : Finmap fun _ : NodeID => Node
  lastRegister : Finmap fun _ : NodeID => ℤ
  plist : List Pending
  bonds : List Bond
  attempts : Finmap fun _ : NodeID => ℤ

/-- The first element with a property, and the others. -/
def takeFirst {α : Type} (p : α → Bool) : List α → Option (α × List α)
  | [] => none
  | a :: l => if p a then some (a, l) else (takeFirst p l).map fun r => (r.1, a :: r.2)

namespace Udp

/-- A node database at the start. -/
def start (self : NodeID) (nodes : Finmap fun _ : NodeID => Node)
    (lastRegister : Finmap fun _ : NodeID => ℤ) : Udp :=
  ⟨self, nodes, lastRegister, [], [], ∅⟩

/-- A routine goes on to another stage. -/
def setStage (s : Udp) (i : ℕ) (stage : Stage) : Udp :=
  { s with bonds := s.bonds.modify i fun b => { b with stage := stage } }

/-- A routine that waits for its pong gets the outcome. -/
def answer (s : Udp) (waiter : Option ℕ) (err : Option BondErr) : Udp :=
  match waiter with
  | none => s
  | some i =>
    match s.bonds[i]?.map Bond.stage with
    | some (.pinging node) => s.setStage i (.answered node err)
    | _ => s

/-- `pending`. -/
def addPending (s : Udp) (now : ℤ) (sender : NodeID) (ptype : PacketType) (waiter : Option ℕ) :
    Udp :=
  { s with plist := s.plist ++ [⟨sender, ptype, now + msgTimeout, waiter⟩] }

/-- `handleReply`: the first reply that is waited for is taken off the list, after which the loop
over it ends. -/
def handleReply (s : Udp) (sender : NodeID) (ptype : PacketType) : Bool × Udp :=
  match takeFirst (fun p : Pending => p.sender = sender ∧ p.ptype = ptype) s.plist with
  | some (p, rest) => (true, { s with plist := rest }.answer p.waiter none)
  | none => (false, s)

/-! ### The handlers -/

def expired (now : ℤ) (ts : ℕ) : Bool := BigWord.int64 ts * second < now

/-- A reply: expired, unsolicited, or taken. -/
def handleSolicited (s : Udp) (now : ℤ) (fromID : NodeID) (ptype : PacketType) (expiration : ℕ) :
    Option PacketErr × Udp :=
  if expired now expiration then (some .errExpired, s)
  else
    match s.handleReply fromID ptype with
    | (true, s) => (none, s)
    | (false, s) => (some .errUnsolicitedReply, s)

/-- The handlers of the packets; a registration starts a routine with the random bytes. -/
def handle (s : Udp) (now : ℤ) (ip : Bytes) (port : ℕ) (fromID : NodeID) (rand : FixedBytes 32) :
    Packet → Except Fault (Option PacketErr × Udp)
  | .regMsg tcp expiration =>
    if expired now expiration then .ok (some .errExpired, s)
    else
      .ok (none,
        { s with bonds := s.bonds ++ [⟨fromID, ip, port, tcp, rand.bytes, .started⟩] })
  | .ping expiration nonce =>
    match s.handleSolicited now fromID .pingPacket expiration with
    | (some e, s) => .ok (some e, s)
    | (none, s) => if nonce = [] then .error .emptyIndex else .ok (none, s)
  | .pong expiration =>
    .ok (s.handleSolicited now fromID .pongPacket expiration)
  | .peng expiration =>
    .ok (s.handleSolicited now fromID .pengPacket expiration)
  | .getnodes expiration =>
    if expired now expiration then .ok (some .errExpired, s)
    else
      match s.nodes.lookup fromID with
      | none => .ok (some .errUnknownNode, s)
      | some node =>
        if node.nodeType < authNode then .ok (some .errUnAutoNode, s)
        else .ok (none, s)
  | .nodeslist expiration =>
    .ok (s.handleSolicited now fromID .nodeslistPacket expiration)

def handlePacket [Crypto] (s : Udp) (now : ℤ) (ip : Bytes) (port : ℕ) (buf : Bytes)
    (rand : FixedBytes 32) : Except Fault (Option PacketErr × Udp) :=
  match decodePacket buf with
  | .error e => .ok (some e, s)
  | .ok (packet, fromID) => s.handle now ip port fromID rand packet

/-! ### The routine `bondRegNode` -/

variable (s : Udp)

/-- The age of the last registration of a node. -/
def age (now : ℤ) (id : NodeID) : ℤ :=
  now - (s.lastRegister.lookup id).getD 0 * second

/-- The routine up to the request of a bonding slot.  The error that a node registers too often is
logged with the record of the node. -/
def bondCheck (i : ℕ) (now : ℤ) : Except Fault Udp :=
  match s.bonds[i]? with
  | some ⟨id, ip, port, tcpPort, randNonce, .started⟩ =>
    if id = s.self then .ok (s.setStage i (.done (some .errSelf)))
    else if s.age now id < updateDBNodeMin then
      match s.nodes.lookup id with
      | none => .error .nilNode
      | some _ => .ok (s.setStage i (.done (some .errFrequently)))
    else
      let node := (s.nodes.lookup id).getD (newNode id initNode ip port tcpPort)
      .ok (s.setStage i
        (.checked { node with randNonce := copyInto node.randNonce randNonce }))
  | _ => .ok s

/-- The routine has its slot, and pings the node. -/
def bondPing (i : ℕ) (now : ℤ) : Udp :=
  match s.bonds[i]?.map Bond.stage with
  | some (.checked node) =>
    (s.setStage i (.pinging node)).addPending now node.id .pongPacket (some i)
  | _ => s

def updateNode (node : Node) : Udp := { s with nodes := s.nodes.insert node.id node }

/-- `updateLastRegister`, in whole seconds; the time itself is kept beside. -/
def updateLastRegister (id : NodeID) (now : ℤ) : Udp :=
  { s with
    lastRegister := s.lastRegister.insert id (now / second)
    attempts := s.attempts.insert id now }

/-- The routine after the outcome of its ping. -/
def bondFinish (i : ℕ) (now : ℤ) : Udp :=
  match s.bonds[i]? with
  | some ⟨id, _, _, _, _, .answered node (some err)⟩ =>
    let s :=
      if node.nodeType ≠ initNode then s.updateNode { node with nodeType := initNode } else s
    (s.updateLastRegister id now).setStage i (.done (some err))
  | some ⟨id, _, _, _, _, .answered node none⟩ =>
    ((s.updateNode { node with nodeType := authNode }).updateLastRegister id now).setStage i
      (.done none)
  | _ => s

/-! ### Events -/

/-- The loop over the pending replies at a time: the first one that is overdue fails, or one whose
deadline is too far in the future. -/
def expire (now : ℤ) : Udp :=
  match takeFirst (fun p : Pending => p.deadline ≤ now ∨ now + 2 * msgTimeout ≤ p.deadline)
    s.plist with
  | some (p, rest) =>
    { s with plist := rest }.answer p.waiter
      (some (if p.deadline ≤ now then .errTimeout else .errClockWarp))
  | none => s

/-- The events: a packet, the parts of a routine, a request of the node itself that waits for a
reply, and the timer of the pending replies. -/
inductive Event where
  | packet (now : ℤ) (ip : Bytes) (port : ℕ) (buf : Bytes) (rand : FixedBytes 32)
  | bondCheck (i : ℕ) (now : ℤ)
  | bondPing (i : ℕ) (now : ℤ)
  | bondFinish (i : ℕ) (now : ℤ)
  | request (now : ℤ) (id : NodeID) (ptype : PacketType)
  | expire (now : ℤ)

/-- One event. -/
def step [Crypto] (s : Udp) : Event → Except Fault Udp
  | .packet now ip port buf rand => (s.handlePacket now ip port buf rand).map Prod.snd
  | .bondCheck i now => s.bondCheck i now
  | .bondPing i now => .ok (s.bondPing i now)
  | .bondFinish i now => .ok (s.bondFinish i now)
  | .request now id ptype => .ok (s.addPending now id ptype none)
  | .expire now => .ok (s.expire now)

end Udp

end Discover
