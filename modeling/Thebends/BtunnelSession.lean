import Thebends.BtunnelIsolation

/-! The bytes of a session, from its client to its connection: part of them has been handed to the connection
and the rest is on its way. -/

namespace Thebends.Btunnel

open LibExcept LibMap LibRun Ynet

theorem Side.other_other (side : Side) : side.other.other = side := by
  cases side with
  | left => rfl
  | right => rfl

theorem Side.eq_other {side other : Side} (h : other ≠ side) : other = side.other := by
  cases side with
  | left =>
      cases other with
      | left => exact absurd rfl h
      | right => rfl
  | right =>
      cases other with
      | left => rfl
      | right => exact absurd rfl h

/-- A connection that is closed leaves those of the other sessions. -/
theorem Sessions.socket_close {sessions sessions' : Sessions} {sock : Nat} (h : sessions.close sock = .ok sessions')
    {session : Int32} {found : Nat} (hfound : sessions'.socket session = some found) :
    sessions.socket session = some found := by
  cases hsession : sessions.session sock with
  | none =>
      unfold Sessions.close at h
      split at h
      · cases h
      case h_2 hsome => cases hsession.symm.trans hsome
  | some closed =>
      by_cases hpos : closed > 0
      · obtain ⟨after, hclose, hsocket, -⟩ := Sessions.close_ok hsession hpos
        cases hclose.symm.trans h
        rw [hsocket] at hfound
        split at hfound
        · cases hfound
        · exact hfound
      · rw [Sessions.close_assertion hsession hpos] at h
        cases h

/-! ### The sockets of a core -/

namespace Core

/-- The client that has a session of an exported service. -/
def clientSocket (c : Core) (id session : Int32) : Option Nat :=
  (c.exportedServices.lookup id).bind fun info => info.exported.sessions.socket session

/-- The connection that a session of a local service has. -/
def serverSocket (c : Core) (id session : Int32) : Option Nat :=
  (c.localServices.lookup id).bind fun service => service.sessions.socket session

def IsLocal (c : Core) (id : Int32) : Prop := (c.localServices.lookup id).isSome

/-- A core that has closed some connections, and is otherwise as before. -/
structure Closes (c c' : Core) : Prop where
  clients : ∀ id session sock, c'.clientSocket id session = some sock → c.clientSocket id session = some sock
  servers : ∀ id session sock, c'.serverSocket id session = some sock → c.serverSocket id session = some sock
  locals : ∀ id, c'.IsLocal id ↔ c.IsLocal id

theorem clientSocket_insert (c : Core) (id other session : Int32) (info : ExportedServiceInfo) :
    clientSocket { c with exportedServices := c.exportedServices.insert id info } other session =
      if other = id then info.exported.sessions.socket session else c.clientSocket other session := by
  rw [clientSocket, Map.lookup_insert_eq]
  split <;> rfl

theorem serverSocket_insert (c : Core) (id other session : Int32) (service : LocalService) :
    serverSocket { c with localServices := c.localServices.insert id service } other session =
      if other = id then service.sessions.socket session else c.serverSocket other session := by
  rw [serverSocket, Map.lookup_insert_eq]
  split <;> rfl

theorem clientSocket_eq {c : Core} {id : Int32} {info : ExportedServiceInfo}
    (h : c.exportedServices.lookup id = some info) (session : Int32) :
    c.clientSocket id session = info.exported.sessions.socket session := by
  rw [clientSocket, h]
  rfl

theorem serverSocket_eq {c : Core} {id : Int32} {service : LocalService}
    (h : c.localServices.lookup id = some service) (session : Int32) :
    c.serverSocket id session = service.sessions.socket session := by
  rw [serverSocket, h]
  rfl

/-- A client more, and the others as they were. -/
theorem clientSocket_add {c : Core} {id session : Int32} {sock : Nat} {info : ExportedServiceInfo}
    (hinfo : c.exportedServices.lookup id = some info) (hsock : info.exported.sessions.session sock = none)
    (hsession : info.exported.sessions.socket session = none) (id' session' : Int32) :
    clientSocket { c with
        exportedServices := c.exportedServices.insert id
          { info with exported := { info.exported with
            sessions := info.exported.sessions.add sock session hsock hsession } } } id' session' =
      if id' = id ∧ session' = session then some sock else c.clientSocket id' session' := by
  rw [clientSocket_insert]
  by_cases hid : id' = id
  · rw [if_pos hid, Sessions.socket_add, hid, clientSocket_eq hinfo]
    simp only [true_and]
  · rw [if_neg hid, if_neg fun hboth => hid hboth.1]

/-- The same of a connection; the writers of the sessions do not matter. -/
theorem serverSocket_add {c : Core} {id session : Int32} {sock : Nat} {service : LocalService}
    (hservice : c.localServices.lookup id = some service) (hsock : service.sessions.session sock = none)
    (hsession : service.sessions.socket session = none) {sessions : Sessions}
    (hsockets : sessions.sockets = (service.sessions.add sock session hsock hsession).sockets) (id' session' : Int32) :
    serverSocket { c with localServices := c.localServices.insert id { service with sessions } } id' session' =
      if id' = id ∧ session' = session then some sock else c.serverSocket id' session' := by
  rw [serverSocket_insert]
  by_cases hid : id' = id
  · rw [if_pos hid, Sessions.socket, hsockets, ← Sessions.socket, Sessions.socket_add, hid, serverSocket_eq hservice]
    simp only [true_and]
  · rw [if_neg hid, if_neg fun hboth => hid hboth.1]

theorem isLocal_new (services : List Int32) (id : Int32) : (new services).IsLocal id ↔ id ∈ services := by
  have hall : ∀ (ids : List Int32) (map : Map Int32 LocalService),
      ((ids.foldl (fun map id => map.insert id ⟨id, Sessions.empty⟩) map).lookup id).isSome ↔
        (map.lookup id).isSome ∨ id ∈ ids := by
    intro ids
    induction ids with
    | nil => simp
    | cons added ids ih =>
        intro map
        rw [List.foldl_cons, ih, Map.lookup_insert_eq, List.mem_cons]
        split
        case isTrue heq => simp [heq]
        case isFalse hne => simp [hne]
  rw [IsLocal, new, hall]
  simp

theorem isLocal_insert {c : Core} {id : Int32} {service : LocalService}
    (h : c.localServices.lookup id = some service) (service' : LocalService) (other : Int32) :
    IsLocal { c with localServices := c.localServices.insert id service' } other ↔ c.IsLocal other := by
  rw [IsLocal, Map.lookup_insert_eq]
  split
  case isTrue hother =>
    rw [hother, IsLocal, h]
    exact Iff.rfl
  case isFalse => exact Iff.rfl

theorem Closes.trans {c c' c'' : Core} (h : Closes c c') (h' : Closes c' c'') : Closes c c'' :=
  ⟨fun _ _ _ hsock => h.clients _ _ _ (h'.clients _ _ _ hsock),
    fun _ _ _ hsock => h.servers _ _ _ (h'.servers _ _ _ hsock), fun id => (h'.locals id).trans (h.locals id)⟩

/-- The sessions of an exported service lose some of their sockets. -/
theorem closes_insert_exported {c : Core} {id : Int32} {info info' : ExportedServiceInfo}
    (hinfo : c.exportedServices.lookup id = some info)
    (hsockets : ∀ session sock, info'.exported.sessions.socket session = some sock →
      info.exported.sessions.socket session = some sock) :
    Closes c { c with exportedServices := c.exportedServices.insert id info' } := by
  refine ⟨fun other session sock hsock => ?_, fun _ _ _ h => h, fun _ => Iff.rfl⟩
  rw [clientSocket_insert] at hsock
  split at hsock
  case isTrue hother =>
    rw [hother, clientSocket_eq hinfo]
    exact hsockets session sock hsock
  case isFalse => exact hsock

theorem closes_insert_local {c : Core} {id : Int32} {service service' : LocalService}
    (hservice : c.localServices.lookup id = some service)
    (hsockets : ∀ session sock, service'.sessions.socket session = some sock →
      service.sessions.socket session = some sock) :
    Closes c { c with localServices := c.localServices.insert id service' } := by
  refine ⟨fun _ _ _ h => h, fun other session sock hsock => ?_, fun other => isLocal_insert hservice service' other⟩
  rw [serverSocket_insert] at hsock
  split at hsock
  case isTrue hother =>
    rw [hother, serverSocket_eq hservice]
    exact hsockets session sock hsock
  case isFalse => exact hsock

/-- A service that is registered has no clients. -/
theorem closes_register (c : Core) (request : RegisterRequest) : Closes c (c.register request) := by
  refine ⟨fun id session sock hsock => ?_, fun _ _ _ h => h, fun _ => Iff.rfl⟩
  rw [clientSocket, register, Map.lookup_insert_eq] at hsock
  split at hsock
  · cases hsock
  · exact hsock

/-- `Shutdown` removes exported services, and does nothing else to the services. -/
theorem lookup_shutdown {c c' : Core} (h : c.shutdown = .ok c') :
    (∀ id info, c'.exportedServices.lookup id = some info → c.exportedServices.lookup id = some info) ∧
      c'.localServices = c.localServices := by
  obtain ⟨released, hall, h⟩ := bind_eq_ok h
  cases h
  have hrun := Run.of_foldlM release c c.exportedServices.keys hall
  refine hrun.invariant (fun _ core =>
    (∀ id info, core.exportedServices.lookup id = some info → c.exportedServices.lookup id = some info) ∧
      core.localServices = c.localServices) ⟨fun _ _ h => h, rfl⟩ ?_
  rintro _ core id core' _ ⟨hexported, hlocals⟩ hstep
  unfold release at hstep
  split at hstep
  · cases hstep
  · obtain ⟨-, -, hstep⟩ := bind_eq_ok hstep
    cases hstep
    exact ⟨fun other found hfound => hexported other found (Map.of_lookup_erase hfound).2, hlocals⟩

theorem closes_shutdown {c c' : Core} (h : c.shutdown = .ok c') : Closes c c' := by
  obtain ⟨hexported, hlocals⟩ := lookup_shutdown h
  refine ⟨fun id session sock hsock => ?_, fun id session sock hsock => ?_, fun id => ?_⟩
  · obtain ⟨info, hinfo, hsocket⟩ := Option.bind_eq_some_iff.mp hsock
    rw [clientSocket_eq (hexported id info hinfo)]
    exact hsocket
  · rwa [serverSocket, hlocals] at hsock
  · rw [IsLocal, hlocals, IsLocal]

theorem Sound.shutdown {c c' : Core} (hsound : c.Sound) (h : c.shutdown = .ok c') : c'.Sound := by
  obtain ⟨hexported, hlocals⟩ := lookup_shutdown h
  refine ⟨fun id info hinfo => hsound.exported id info (hexported id info hinfo), fun id service hservice => ?_⟩
  rw [hlocals] at hservice
  exact hsound.locals id service hservice

/-- A descriptor that is new is not that of a client. -/
theorem Fresh.ne_client {c : Core} {sock : Nat} (h : c.Fresh sock) {id session : Int32} {found : Nat}
    (hfound : c.clientSocket id session = some found) :
    found ≠ sock := by
  rintro rfl
  obtain ⟨info, hinfo, hsocket⟩ := Option.bind_eq_some_iff.mp hfound
  cases (h.1 id info hinfo).symm.trans (Sessions.session_eq_some.mpr hsocket)

theorem Fresh.ne_server {c : Core} {sock : Nat} (h : c.Fresh sock) {id session : Int32} {found : Nat}
    (hfound : c.serverSocket id session = some found) :
    found ≠ sock := by
  rintro rfl
  obtain ⟨service, hservice, hsocket⟩ := Option.bind_eq_some_iff.mp hfound
  cases (h.2 id service hservice).symm.trans (Sessions.session_eq_some.mpr hsocket)

end Core

/-- What a list has stays where it is when the list grows. -/
theorem getElem?_concat {α : Type} {l : List α} {i : Nat} {a : α} (h : l[i]? = some a) (b : α) :
    (l ++ [b])[i]? = some a := by
  obtain ⟨hlt, -⟩ := List.getElem?_eq_some_iff.mp h
  exact (List.getElem?_append_left hlt).trans h

theorem getElem?_concat_cases {α : Type} {l : List α} {i : Nat} {a b : α} (h : (l ++ [b])[i]? = some a) :
    l[i]? = some a ∨ i = l.length ∧ a = b := by
  rw [List.getElem?_append] at h
  split at h
  · exact Or.inl h
  case isFalse hnot =>
    obtain ⟨hzero, hab⟩ := List.getElem?_eq_some_iff.mp h
    rw [List.length_singleton] at hzero
    refine Or.inr ⟨by omega, ?_⟩
    rw [← hab, List.getElem_singleton]

/-! ### What is on its way -/

/-- Whether a message carries bytes of a session. -/
def Packet.isFor (id session : Int32) (packet : Packet) : Bool :=
  match packet.request with
  | .forward request => request.serviceId == id && request.sessionId == session
  | _ => false

theorem Packet.isFor_iff {id session : Int32} {packet : Packet} :
    packet.isFor id session = true ↔
      ∃ request, packet.request = .forward request ∧ request.serviceId = id ∧ request.sessionId = session := by
  unfold isFor
  split
  case h_1 request hrequest => simp [hrequest]
  case h_2 hnot =>
    refine ⟨fun h => Bool.noConfusion h, ?_⟩
    rintro ⟨request, hrequest, -⟩
    exact absurd hrequest (hnot request)

/-- The messages carry the bytes of a client, in order, from some position to the last that it sent. -/
def Carries (client : Nat) (sent : Bytes) : Nat → List Packet → Prop
  | position, [] => position = sent.length
  | position, packet :: rest => ∃ request, packet.request = .forward request ∧
      packet.origin = some ⟨client, position⟩ ∧ request.buffer <+: sent.drop position ∧
      Carries client sent (position + request.buffer.length) rest

theorem Carries.le {client : Nat} {sent : Bytes} {position : Nat} {packets : List Packet}
    (h : Carries client sent position packets) : position ≤ sent.length := by
  induction packets generalizing position with
  | nil => exact Nat.le_of_eq h
  | cons packet rest ih =>
      obtain ⟨request, -, -, -, hrest⟩ := h
      exact (Nat.le_add_right _ _).trans (ih hrest)

/-- The client sends more. -/
theorem Carries.append {client : Nat} {sent : Bytes} {position : Nat} {packets : List Packet}
    (h : Carries client sent position packets) (id session : Int32) (data : Bytes) :
    Carries client (sent ++ data) position
      (packets ++ [⟨.forward ⟨id, session, data⟩, some ⟨client, sent.length⟩⟩]) := by
  induction packets generalizing position with
  | nil =>
      have hposition : position = sent.length := h
      refine ⟨⟨id, session, data⟩, rfl, by rw [hposition], ?_, ?_⟩
      · rw [hposition, List.drop_left]
      · rw [hposition]
        exact List.length_append.symm
  | cons packet rest ih =>
      have hle := h.le
      obtain ⟨request, hrequest, horigin, hbytes, hrest⟩ := h
      refine ⟨request, hrequest, horigin, ?_, ih hrest⟩
      rw [List.drop_append_of_le_length hle]
      exact hbytes.trans (List.prefix_append _ _)

namespace System

/-- The messages with bytes of a session that a side has sent and the other has not received. -/
def flight (s : System) (side : Side) (id session : Int32) : List Packet :=
  (s.channel side).filter (Packet.isFor id session)

/-- Nothing is left of a session, whose clients are at `side`. -/
structure Idle (s : System) (side : Side) (id session : Int32) : Prop where
  flight : s.flight side id session = []
  client : (s.core side).clientSocket id session = none
  server : (s.core side.other).serverSocket id session = none

/-- A session belongs to a client. The connection of the session, if it is open, has what the client sent up
to `position`, and the rest is on its way. -/
structure Owned (s : System) (side : Side) (id session : Int32) (client : Nat) (sender : Client) (position : Nat) :
    Prop where
  found : s.clients[client]? = some sender
  of : sender.service = id ∧ sender.session = session
  carried : Carries client sender.sent position (s.flight side id session)
  clients : ∀ sock, (s.core side).clientSocket id session = some sock → s.clientOf side sock = some client
  servers : ∀ sock, (s.core side.other).serverSocket id session = some sock →
    ∃ index, s.connectionOf side.other sock = some index ∧
      s.connections[index]? = some ⟨id, session, some client, sender.sent.take position⟩
  started : ∀ connection ∈ s.connections, connection.client = some client → 0 < position

def Session (s : System) (side : Side) (id session : Int32) : Prop :=
  s.Idle side id session ∨ ∃ client sender position, s.Owned side id session client sender position

/-- Each connection to a local server has received a prefix of what one client of its session sent, and no
two have received bytes of the same client. -/
structure Faithful (s : System) : Prop where
  streams : ∀ (index : Nat) (connection : Connection), s.connections[index]? = some connection →
    ∃ (client : Nat) (sender : Client), connection.client = some client ∧ s.clients[client]? = some sender ∧
      sender.service = connection.service ∧ sender.session = connection.session ∧
      connection.received <+: sender.sent
  single : ∀ (index other : Nat) (connection connection' : Connection), s.connections[index]? = some connection →
    s.connections[other]? = some connection' → connection.client = connection'.client → index = other

/-- Each service is local at one side, and only the other side exports it. -/
structure Placed (s : System) : Prop where
  sound : s.Sound
  separate : ∀ side id, (s.core side).IsLocal id → ¬(s.core side.other).IsLocal id
  exported : ∀ side id info, (s.core side).exportedServices.lookup id = some info → (s.core side.other).IsLocal id
  announced : ∀ side, ∀ packet ∈ s.channel side, ∀ request, packet.request = .register request →
    (s.core side).IsLocal request.serviceId

structure Tracked (s : System) : Prop where
  placed : s.Placed
  sessions : ∀ side id session, (s.core side.other).IsLocal id → s.Session side id session
  faithful : s.Faithful

/-- What a step leaves of a session: it may close its connections. -/
structure Leaves (s s' : System) (side : Side) (id session : Int32) : Prop where
  flight : s'.flight side id session = s.flight side id session
  clients : ∀ sock, (s'.core side).clientSocket id session = some sock →
    (s.core side).clientSocket id session = some sock ∧ s'.clientOf side sock = s.clientOf side sock
  servers : ∀ sock, (s'.core side.other).serverSocket id session = some sock →
    (s.core side.other).serverSocket id session = some sock ∧
      s'.connectionOf side.other sock = s.connectionOf side.other sock
  senders : ∀ (client : Nat) (sender : Client), s.clients[client]? = some sender →
    sender.service = id ∧ sender.session = session → s'.clients[client]? = some sender
  connections : ∀ (index : Nat) (connection : Connection), s.connections[index]? = some connection →
    connection.service = id ∧ connection.session = session → s'.connections[index]? = some connection
  started : ∀ connection ∈ s'.connections, ∀ (client : Nat) (sender : Client), connection.client = some client →
    s.clients[client]? = some sender → sender.service = id ∧ sender.session = session →
      ∃ before ∈ s.connections, before.client = some client

theorem Leaves.session {s s' : System} {side : Side} {id session : Int32} (h : Leaves s s' side id session)
    (hsession : s.Session side id session) : s'.Session side id session := by
  rcases hsession with hidle | ⟨client, sender, position, howned⟩
  · refine Or.inl ⟨h.flight.trans hidle.flight, ?_, ?_⟩
    · refine Option.eq_none_iff_forall_ne_some.mpr fun sock hsock => ?_
      cases hidle.client.symm.trans (h.clients sock hsock).1
    · refine Option.eq_none_iff_forall_ne_some.mpr fun sock hsock => ?_
      cases hidle.server.symm.trans (h.servers sock hsock).1
  · refine Or.inr ⟨client, sender, position, h.senders client sender howned.found howned.of,
      howned.of, h.flight.symm ▸ howned.carried, fun sock hsock => ?_, fun sock hsock => ?_,
      fun connection hconnection hclient => ?_⟩
    · obtain ⟨hbefore, hsame⟩ := h.clients sock hsock
      exact hsame.trans (howned.clients sock hbefore)
    · obtain ⟨hbefore, hsame⟩ := h.servers sock hsock
      obtain ⟨index, hindex, hconnection⟩ := howned.servers sock hbefore
      exact ⟨index, hsame.trans hindex, h.connections index _ hconnection ⟨rfl, rfl⟩⟩
    · obtain ⟨before, hbefore, hsame⟩ :=
        h.started connection hconnection client sender hclient howned.found howned.of
      exact howned.started before hbefore hsame

section

variable {s s' : System} {side : Side} {core : Core}

/-- The services stay where they are. -/
structure Stays (s s' : System) : Prop where
  placed : s'.Placed
  locals : ∀ side id, (s'.core side).IsLocal id ↔ (s.core side).IsLocal id

/-- A step that changes one core, and appends nothing but forward requests. -/
theorem Placed.setCore (h : s.Placed) (hcores : s'.core = s.core)
    (hpackets : ∀ other, ∀ packet ∈ s'.channel other, packet ∈ s.channel other ∨
      packet.Sound ∧ ∃ request, packet.request = .forward request)
    (hsound : core.Sound) (hlocals : ∀ id, core.IsLocal id ↔ (s.core side).IsLocal id)
    (hexported : ∀ id info, core.exportedServices.lookup id = some info → (s.core side.other).IsLocal id) :
    Stays s (s'.setCore side core) := by
  have hlookup : ∀ other, (s'.setCore side core).core other = if other = side then core else s.core other := by
    intro other
    rw [core_setCore, Function.update_apply, hcores]
  have hlocal : ∀ other id, ((s'.setCore side core).core other).IsLocal id ↔ (s.core other).IsLocal id := by
    intro other id
    rw [hlookup]
    split
    case isTrue hother => rw [hother, hlocals]
    case isFalse => exact Iff.rfl
  refine ⟨⟨⟨fun other => ?_, fun other packet hpacket => ?_⟩, fun other id => ?_, fun other id info hinfo => ?_,
    fun other packet hpacket request hrequest => ?_⟩, hlocal⟩
  · rw [hlookup]
    split
    · exact hsound
    · exact h.sound.cores other
  · exact (hpackets other packet hpacket).elim (h.sound.packets other packet) And.left
  · rw [hlocal, hlocal]
    exact h.separate other id
  · rw [hlocal]
    rw [hlookup] at hinfo
    split at hinfo
    case isTrue hother => exact hother ▸ hexported id info hinfo
    case isFalse => exact h.exported other id info hinfo
  · rw [hlocal]
    rcases hpackets other packet hpacket with hold | ⟨-, request', hforward⟩
    · exact h.announced other packet hold request hrequest
    · cases hforward.symm.trans hrequest

/-- The sockets of a session, when a step of one core closes connections. -/
theorem clientSocket_closes (hcores : s'.core = s.core) (hcloses : (s.core side).Closes core) {other : Side}
    {id session : Int32} {sock : Nat} (h : ((s'.setCore side core).core other).clientSocket id session = some sock) :
    (s.core other).clientSocket id session = some sock := by
  rw [core_setCore, Function.update_apply, hcores] at h
  split at h
  case isTrue hother => exact hother ▸ hcloses.clients _ _ _ h
  case isFalse => exact h

theorem serverSocket_closes (hcores : s'.core = s.core) (hcloses : (s.core side).Closes core) {other : Side}
    {id session : Int32} {sock : Nat} (h : ((s'.setCore side core).core other).serverSocket id session = some sock) :
    (s.core other).serverSocket id session = some sock := by
  rw [core_setCore, Function.update_apply, hcores] at h
  split at h
  case isTrue hother => exact hother ▸ hcloses.servers _ _ _ h
  case isFalse => exact h

/-- A step that closes connections, and does nothing else to a session. -/
theorem leaves_of_closes (hcores : s'.core = s.core) (hcloses : (s.core side).Closes core)
    (hclients : s'.clients = s.clients) (hconnections : s'.connections = s.connections)
    (hclientOf : s'.clientOf = s.clientOf) (hconnectionOf : s'.connectionOf = s.connectionOf)
    {other : Side} {id session : Int32} (hflight : s'.flight other id session = s.flight other id session) :
    Leaves s (s'.setCore side core) other id session := by
  refine ⟨hflight, fun sock hsock => ⟨clientSocket_closes hcores hcloses hsock, congrFun (congrFun hclientOf _) sock⟩,
    fun sock hsock => ⟨serverSocket_closes hcores hcloses hsock, congrFun (congrFun hconnectionOf _) sock⟩,
    fun client sender hsender _ => ?_, fun index connection hconnection _ => ?_,
    fun connection hconnection client sender hclient _ _ => ?_⟩
  · exact (congrArg (fun clients => clients[client]?) hclients).trans hsender
  · exact (congrArg (fun connections => connections[index]?) hconnections).trans hconnection
  · exact ⟨connection, hconnections ▸ hconnection, hclient⟩

theorem Faithful.of_mem (h : s.Faithful) {connection : Connection} (hconnection : connection ∈ s.connections) :
    ∃ (client : Nat) (sender : Client), connection.client = some client ∧ s.clients[client]? = some sender ∧
      sender.service = connection.service ∧ sender.session = connection.session ∧
      connection.received <+: sender.sent := by
  obtain ⟨index, hindex⟩ := List.mem_iff_getElem?.mp hconnection
  exact h.streams index connection hindex

theorem Faithful.of_eq (h : s.Faithful) (hclients : s'.clients = s.clients) (hconnections : s'.connections = s.connections) :
    s'.Faithful := by
  refine ⟨?_, ?_⟩
  · rw [hclients, hconnections]
    exact h.streams
  · rw [hconnections]
    exact h.single

/-- A step that closes connections and sends no bytes of a client. -/
theorem Tracked.quiet (h : s.Tracked) (hcores : s'.core = s.core)
    (hpackets : ∀ other, ∀ packet ∈ s'.channel other, packet ∈ s.channel other ∨
      packet.Sound ∧ ∃ request, packet.request = .forward request)
    (hsound : core.Sound) (hcloses : (s.core side).Closes core)
    (hexported : ∀ id info, core.exportedServices.lookup id = some info → (s.core side.other).IsLocal id)
    (hclients : s'.clients = s.clients) (hconnections : s'.connections = s.connections)
    (hclientOf : s'.clientOf = s.clientOf) (hconnectionOf : s'.connectionOf = s.connectionOf)
    (hflight : ∀ other id session, (s.core other.other).IsLocal id →
      s'.flight other id session = s.flight other id session) : (s'.setCore side core).Tracked := by
  have hstays : Stays s (s'.setCore side core) := h.placed.setCore hcores hpackets hsound hcloses.locals hexported
  refine ⟨hstays.placed, fun other id session hlocal => ?_, h.faithful.of_eq hclients hconnections⟩
  rw [hstays.locals] at hlocal
  have hleaves := leaves_of_closes hcores hcloses hclients hconnections hclientOf hconnectionOf
    (hflight other id session hlocal)
  exact hleaves.session (h.sessions other id session hlocal)

/-- An exported service is kept under its id. -/
theorem Placed.exported_insert (h : s.Placed) {id : Int32} {info info' : ExportedServiceInfo}
    (hinfo : (s.core side).exportedServices.lookup id = some info) (other : Int32) (found : ExportedServiceInfo)
    (hfound : ((s.core side).exportedServices.insert id info').lookup other = some found) :
    (s.core side.other).IsLocal other := by
  exact Map.forall_insert (h.exported side) (h.exported side id info hinfo) other found hfound

end

end System

end Thebends.Btunnel
