import Mathlib.Logic.Function.Basic
import Thebends.BtunnelCore
import Thebends.LibRun

/-! Two cores that are joined by a channel in each direction. A channel holds messages, in the order in
which they were sent. With each message travels whose bytes it carries, and the system keeps what the
clients have sent and what the connections to the local servers have received; no code reads this. -/

namespace Thebends.Btunnel

open LibExcept LibMap LibRun Ynet

inductive Side
  | left
  | right
  deriving DecidableEq, Repr

def Side.other : Side → Side
  | .left => .right
  | .right => .left

theorem Side.other_ne (side : Side) : side.other ≠ side := by
  cases side with
  | left => exact Side.noConfusion
  | right => exact Side.noConfusion

/-- Whose bytes a message carries, and how many bytes of the client went before. -/
structure Origin where
  client : Nat
  offset : Nat
  deriving DecidableEq

structure Packet where
  request : Request
  origin : Option Origin

/-- A client connection to an exported service. -/
structure Client where
  service : Int32
  session : Int32
  sent : Bytes

/-- A connection to a local server, with the client whose bytes made it. -/
structure Connection where
  service : Int32
  session : Int32
  client : Option Nat
  received : Bytes

/-- The cores, what each has sent and the other has not received, all clients and all connections there
were, and which of them the open descriptors belong to. -/
structure System where
  core : Side → Core
  channel : Side → List Packet
  clients : List Client
  connections : List Connection
  clientOf : Side → Nat → Option Nat
  connectionOf : Side → Nat → Option Nat

/-- What can happen at a side: a client connects and a session id is drawn, bytes come from a client or
from a local server (none when it closes its connection), or a message arrives. -/
inductive Event
  | connect (service : Int32) (sock : Nat) (session : Int32)
  | clientRead (service : Int32) (sock : Nat) (data : Bytes)
  | localRead (service : Int32) (sock : Nat) (data : Bytes)
  | deliver (connects : Bool) (sock : Nat)

namespace System

/-- Two cores, each with local services that it has announced to the other. -/
def start (services : Side → List RegisterRequest) : System where
  core side := Core.new ((services side).map RegisterRequest.serviceId)
  channel side := (services side).map fun request => ⟨.register request, none⟩
  clients := []
  connections := []
  clientOf _ _ := none
  connectionOf _ _ := none

def setCore (s : System) (side : Side) (core : Core) : System := { s with core := Function.update s.core side core }

def send (s : System) (side : Side) (requests : List ForwardRequest) (origin : Option Origin) : System :=
  { s with
    channel := Function.update s.channel side
      (s.channel side ++ requests.map fun request => ⟨.forward request, origin⟩) }

/-- A new client. -/
def addClient (s : System) (side : Side) (service : Int32) (sock : Nat) (session : Int32) : System :=
  { s with
    clients := s.clients ++ [⟨service, session, []⟩]
    clientOf := Function.update s.clientOf side
      (Function.update (s.clientOf side) sock (some s.clients.length)) }

/-- Where the bytes come from that a client sends next. -/
def originOf (s : System) (side : Side) (sock : Nat) : Option Origin := do
  let client ← s.clientOf side sock
  let sender ← s.clients[client]?
  return ⟨client, sender.sent.length⟩

/-- A client has sent some bytes. -/
def extendClient (s : System) (side : Side) (sock : Nat) (data : Bytes) : System :=
  match s.clientOf side sock with
  | none => s
  | some client =>
      { s with clients := s.clients.modify client fun sender => { sender with sent := sender.sent ++ data } }

/-- A message for a local service: its bytes go to the connection of the session, or to a new one. -/
def extendConnection (s : System) (side : Side) (packet : Packet) (connects : Bool) (sock : Nat) : System :=
  match packet.request with
  | .forward request =>
      match (s.core side).localServices.lookup request.serviceId with
      | none => s
      | some service =>
          match service.sessions.socket request.sessionId with
          | some found =>
              match s.connectionOf side found with
              | none => s
              | some index =>
                  { s with
                    connections := s.connections.modify index fun connection =>
                      { connection with received := connection.received ++ request.buffer } }
          | none =>
              if connects then
                { s with
                  connections := s.connections ++ [⟨request.serviceId, request.sessionId, packet.origin.map Origin.client,
                    request.buffer⟩]
                  connectionOf := Function.update s.connectionOf side
                    (Function.update (s.connectionOf side) sock (some s.connections.length)) }
              else s
  | _ => s

def step (s : System) (side : Side) : Event → Except Fault System
  | .connect service sock session => do
      let core ← (s.core side).connect service sock session
      return (s.addClient side service sock session).setCore side core
  | .clientRead service sock data => do
      let (core, requests) ← (s.core side).clientRead service sock data
      return ((s.extendClient side sock data).send side requests (s.originOf side sock)).setCore side core
  | .localRead service sock data => do
      let (core, requests) ← (s.core side).localRead service sock data
      return (s.send side requests none).setCore side core
  | .deliver connects sock =>
      match s.channel side.other with
      | [] => .error .endless
      | packet :: rest => do
          let (_, core) ← (s.core side).receive packet.request connects sock
          let s := s.extendConnection side packet connects sock
          return { s with channel := Function.update s.channel side.other rest }.setCore side core

end System

/-- A descriptor that no service of a core has open. -/
def Core.Fresh (c : Core) (sock : Nat) : Prop :=
  (∀ id info, c.exportedServices.lookup id = some info → info.exported.sessions.session sock = none) ∧
    ∀ id service, c.localServices.lookup id = some service → service.sessions.session sock = none

instance decidableFresh (c : Core) (sock : Nat) : Decidable (c.Fresh sock) :=
  decidable_of_iff
    ((∀ entry ∈ c.exportedServices.entries, entry.2.exported.sessions.session sock = none) ∧
      ∀ entry ∈ c.localServices.entries, entry.2.sessions.session sock = none) (by
    unfold Core.Fresh
    constructor
    · rintro ⟨hexported, hlocal⟩
      exact ⟨fun id info h => hexported ⟨id, info⟩ (AList.mem_lookup_iff.mp h),
        fun id service h => hlocal ⟨id, service⟩ (AList.mem_lookup_iff.mp h)⟩
    · rintro ⟨hexported, hlocal⟩
      exact ⟨fun entry h => hexported entry.1 entry.2 (AList.mem_lookup_iff.mpr h),
        fun entry h => hlocal entry.1 entry.2 (AList.mem_lookup_iff.mpr h)⟩)

instance decidableExistsSome {α : Type} (o : Option α) (p : α → Prop) [DecidablePred p] :
    Decidable (∃ a, o = some a ∧ p a) :=
  match o with
  | none => isFalse fun ⟨a, h, _⟩ => Option.some_ne_none a h.symm
  | some a => decidable_of_iff (p a) ⟨fun h => ⟨a, rfl, h⟩, fun ⟨_, h, hp⟩ => Option.some.inj h ▸ hp⟩

/-- When an event can happen: new descriptors are not open, the id that is drawn is in range and not in use,
and `read` returns at most as many bytes as it was asked for. -/
def System.Enabled (s : System) (side : Side) : Event → Prop
  | .connect service sock session =>
      (s.core side).Fresh sock ∧ 0 ≤ session.toInt ∧ session.toInt < kMaxServiceId ∧
        ∃ info, (s.core side).exportedServices.lookup service = some info ∧
          info.exported.sessions.socket session = none
  | .clientRead service sock data =>
      data.length ≤ kMaxBufLen ∧ ∃ info, (s.core side).exportedServices.lookup service = some info ∧
        (info.exported.sessions.session sock).isSome
  | .localRead service sock data =>
      data.length ≤ kMaxBufLen ∧ ∃ found, (s.core side).localServices.lookup service = some found ∧
        (found.sessions.session sock).isSome
  | .deliver _ sock => (s.core side).Fresh sock ∧ (s.channel side.other).length ≠ 0

instance decidableEnabled (s : System) (side : Side) (event : Event) : Decidable (s.Enabled side event) :=
  match event with
  | .connect _ _ _ => instDecidableAnd
  | .clientRead _ _ _ => instDecidableAnd
  | .localRead _ _ _ => instDecidableAnd
  | .deliver _ _ => instDecidableAnd

/-- Something happens, if it can. -/
def System.attempt (s : System) (label : Side × Event) : Except Fault System :=
  if s.Enabled label.1 label.2 then s.step label.1 label.2 else .error .endless

namespace System

section

variable (s : System) (side : Side)

@[simp] theorem core_setCore (core : Core) : (s.setCore side core).core = Function.update s.core side core := rfl

@[simp] theorem channel_setCore (core : Core) : (s.setCore side core).channel = s.channel := rfl

@[simp] theorem core_send (requests : List ForwardRequest) (origin : Option Origin) :
    (s.send side requests origin).core = s.core := rfl

@[simp] theorem channel_send (requests : List ForwardRequest) (origin : Option Origin) :
    (s.send side requests origin).channel = Function.update s.channel side
      (s.channel side ++ requests.map fun request => ⟨.forward request, origin⟩) := rfl

@[simp] theorem core_addClient (service : Int32) (sock : Nat) (session : Int32) :
    (s.addClient side service sock session).core = s.core := rfl

@[simp] theorem channel_addClient (service : Int32) (sock : Nat) (session : Int32) :
    (s.addClient side service sock session).channel = s.channel := rfl

@[simp] theorem core_extendClient (sock : Nat) (data : Bytes) : (s.extendClient side sock data).core = s.core := by
  unfold extendClient
  split <;> rfl

@[simp] theorem channel_extendClient (sock : Nat) (data : Bytes) :
    (s.extendClient side sock data).channel = s.channel := by
  unfold extendClient
  split <;> rfl

@[simp] theorem core_extendConnection (packet : Packet) (connects : Bool) (sock : Nat) :
    (s.extendConnection side packet connects sock).core = s.core := by
  unfold extendConnection
  repeat' split
  all_goals rfl

@[simp] theorem channel_extendConnection (packet : Packet) (connects : Bool) (sock : Nat) :
    (s.extendConnection side packet connects sock).channel = s.channel := by
  unfold extendConnection
  repeat' split
  all_goals rfl

/-- The oldest message of the other side is taken from its channel. -/
def take (rest : List Packet) : System := { s with channel := Function.update s.channel side.other rest }

@[simp] theorem core_take (rest : List Packet) : (s.take side rest).core = s.core := rfl

@[simp] theorem channel_take (rest : List Packet) :
    (s.take side rest).channel = Function.update s.channel side.other rest := rfl

end

end System

/-! ### What each step does -/

namespace Sessions

/-- `Read` hands on what a client sent. -/
theorem read_data {s : Sessions} {sock : Nat} {session : Int32} (hsession : s.session sock = some session)
    {data : Bytes} (hdata : data ≠ []) (id : Int32) :
    s.read id sock data = .ok (s, [⟨id, session, data⟩]) := by
  simp only [read, hsession]
  rw [if_neg fun hzero => hdata (List.length_eq_zero_iff.mp hzero)]
  rfl

/-- `Read` at the end of a stream closes the connection. -/
theorem read_end {s : Sessions} {sock : Nat} {session : Int32} (hsession : s.session sock = some session) (id : Int32) :
    s.read id sock [] = (s.close sock).map fun s => (s, []) := by
  simp only [read, hsession, List.length_nil, if_true]
  rfl

end Sessions

namespace System

variable {s : System} {side : Side} {id session : Int32} {sock : Nat}

theorem step_connect {info : ExportedServiceInfo} (hinfo : (s.core side).exportedServices.lookup id = some info)
    (hsock : info.exported.sessions.session sock = none) (hsession : info.exported.sessions.socket session = none) :
    s.step side (.connect id sock session) = .ok ((s.addClient side id sock session).setCore side
      { s.core side with
        exportedServices := (s.core side).exportedServices.insert id
          { info with exported := { info.exported with
            sessions := info.exported.sessions.add sock session hsock hsession } } }) := by
  simp only [step, Core.connect, hinfo, ExportedService.connect, hsock, hsession, dif_pos, bind, Except.bind]
  rfl

theorem step_clientRead {info : ExportedServiceInfo} (hinfo : (s.core side).exportedServices.lookup id = some info)
    (hsession : info.exported.sessions.session sock = some session) {data : Bytes} (hdata : data ≠ []) :
    s.step side (.clientRead id sock data) = .ok (((s.extendClient side sock data).send side
        [⟨info.exported.serviceId, session, data⟩] (s.originOf side sock)).setCore side
      { s.core side with exportedServices := (s.core side).exportedServices.insert id info }) := by
  simp only [step, Core.clientRead, hinfo, Sessions.read_data hsession hdata, bind, Except.bind]
  rfl

theorem extendClient_nil (s : System) (side : Side) (sock : Nat) : s.extendClient side sock [] = s := by
  unfold extendClient
  split
  · rfl
  · simp only [List.append_nil]
    exact congrArg (fun clients => { s with clients }) (List.modify_id ..)

theorem send_nil (s : System) (side : Side) (origin : Option Origin) : s.send side [] origin = s := by
  simp only [send, List.map_nil, List.append_nil, Function.update_eq_self]

theorem step_clientEnd {info : ExportedServiceInfo} (hinfo : (s.core side).exportedServices.lookup id = some info)
    (hsession : info.exported.sessions.session sock = some session) :
    s.step side (.clientRead id sock []) = (info.exported.sessions.close sock).map fun sessions =>
      s.setCore side
        { s.core side with
          exportedServices := (s.core side).exportedServices.insert id
            { info with exported := { info.exported with sessions } } } := by
  simp only [step, Core.clientRead, hinfo, Sessions.read_end hsession, extendClient_nil]
  cases info.exported.sessions.close sock with
  | error fault => rfl
  | ok sessions => exact congrArg (fun s : System => Except.ok (s.setCore side _)) (send_nil s side _)

theorem step_localRead {service : LocalService} (hservice : (s.core side).localServices.lookup id = some service)
    (hsession : service.sessions.session sock = some session) {data : Bytes} (hdata : data ≠ []) :
    s.step side (.localRead id sock data) = .ok ((s.send side [⟨service.serviceId, session, data⟩] none).setCore side
      { s.core side with localServices := (s.core side).localServices.insert id service }) := by
  simp only [step, Core.localRead, hservice, Sessions.read_data hsession hdata, bind, Except.bind]
  rfl

theorem step_localEnd {service : LocalService} (hservice : (s.core side).localServices.lookup id = some service)
    (hsession : service.sessions.session sock = some session) :
    s.step side (.localRead id sock []) = (service.sessions.close sock).map fun sessions =>
      s.setCore side
        { s.core side with
          localServices := (s.core side).localServices.insert id { service with sessions } } := by
  simp only [step, Core.localRead, hservice, Sessions.read_end hsession]
  cases service.sessions.close sock with
  | error fault => rfl
  | ok sessions => exact congrArg (fun s : System => Except.ok (s.setCore side _)) (send_nil s side _)

theorem step_deliver {packet : Packet} {rest : List Packet} (hchannel : s.channel side.other = packet :: rest)
    (connects : Bool) :
    s.step side (.deliver connects sock) =
      ((s.core side).receive packet.request connects sock).map fun answer =>
        ((s.extendConnection side packet connects sock).take side rest).setCore side answer.2 := by
  simp only [step, hchannel]
  cases hreceive : (s.core side).receive packet.request connects sock with
  | error fault => rfl
  | ok answer =>
      simp only [bind, Except.bind, Except.map, take]
      rfl

end System

end Thebends.Btunnel
