import Thebends.BtunnelSession

/-! What a connection to a local server receives. The session id is all that links it to a client: a message
for a session that has no connection makes one, whether or not it is the first of its client, and an id can
be drawn again while bytes of the client that had it are on their way or its connection is open. -/

namespace Thebends.Btunnel

open LibExcept LibMap LibRun Ynet

namespace System

/-! ### The steps -/

section

variable {s : System} {side : Side} {id session : Int32} {sock : Nat}

theorem Tracked.clientEnd (h : s.Tracked) {info : ExportedServiceInfo}
    (hinfo : (s.core side).exportedServices.lookup id = some info) {sessions : Sessions}
    (hclose : info.exported.sessions.close sock = .ok sessions) :
    (s.setCore side { s.core side with
      exportedServices := (s.core side).exportedServices.insert id
        { info with exported := { info.exported with sessions } } }).Tracked := by
  refine h.quiet rfl (fun other packet hpacket => Or.inl hpacket) ?_ ?_ (h.placed.exported_insert hinfo) rfl rfl rfl rfl
    fun other id session hlocal => rfl
  · exact (h.placed.sound.cores side).insert_exported ((h.placed.sound.cores side).exported id info hinfo)
  · exact Core.closes_insert_exported hinfo fun session found => Sessions.socket_close hclose

theorem Tracked.localEnd (h : s.Tracked) {service : LocalService}
    (hservice : (s.core side).localServices.lookup id = some service) {sessions : Sessions}
    (hclose : service.sessions.close sock = .ok sessions) :
    (s.setCore side { s.core side with
      localServices := (s.core side).localServices.insert id { service with sessions } }).Tracked := by
  refine h.quiet rfl (fun other packet hpacket => Or.inl hpacket) ?_ ?_ (h.placed.exported side) rfl rfl rfl rfl
    fun other id session hlocal => rfl
  · exact (h.placed.sound.cores side).insert_local ((h.placed.sound.cores side).locals id service hservice)
  · exact Core.closes_insert_local hservice fun session found => Sessions.socket_close hclose

theorem isFor_forward {id' session' : Int32} {data : Bytes} {origin : Option Origin} :
    Packet.isFor id' session' ⟨.forward ⟨id, session, data⟩, origin⟩ = true ↔ id = id' ∧ session = session' := by
  simp [Packet.isFor]

/-- The messages of the session whose bytes are sent, -/
theorem flight_send {data : Bytes} {origin : Option Origin} :
    (s.send side [⟨id, session, data⟩] origin).flight side id session =
      s.flight side id session ++ [⟨.forward ⟨id, session, data⟩, origin⟩] := by
  have hself : Packet.isFor id session ⟨.forward ⟨id, session, data⟩, origin⟩ = true := isFor_forward.mpr ⟨rfl, rfl⟩
  simp only [flight, channel_send, Function.update_self, List.filter_append, List.map_cons, List.map_nil]
  rw [List.filter_cons_of_pos hself, List.filter_nil]

/-- and of the others. -/
theorem flight_send_of_ne {data : Bytes} {origin : Option Origin} {other : Side} {id' session' : Int32}
    (h : ¬(other = side ∧ id = id' ∧ session = session')) :
    (s.send side [⟨id, session, data⟩] origin).flight other id' session' = s.flight other id' session' := by
  simp only [flight, channel_send, Function.update_apply]
  split
  case isTrue hother =>
    have hnot : ¬Packet.isFor id' session' ⟨.forward ⟨id, session, data⟩, origin⟩ = true :=
      fun hfor => h ⟨hother, isFor_forward.mp hfor⟩
    rw [hother, List.filter_append, List.map_cons, List.map_nil, List.filter_cons_of_neg hnot, List.filter_nil,
      List.append_nil]
  case isFalse => rfl

theorem forward_send {data : Bytes} {origin : Option Origin} (hdata : data ≠ []) {other : Side} {packet : Packet}
    (h : packet ∈ (s.send side [⟨id, session, data⟩] origin).channel other) :
    packet ∈ s.channel other ∨ packet.Sound ∧ ∃ request, packet.request = .forward request := by
  rcases mem_send h with hold | ⟨request, -, hrequest⟩
  · exact Or.inl hold
  · exact (sound_send hdata h).imp_right fun hsound => ⟨hsound, request, hrequest⟩

/-- What a local server sends is for a client. -/
theorem Tracked.localRead (h : s.Tracked) {service : LocalService}
    (hservice : (s.core side).localServices.lookup id = some service) {data : Bytes} (hdata : data ≠ []) :
    ((s.send side [⟨service.serviceId, session, data⟩] none).setCore side
      { s.core side with localServices := (s.core side).localServices.insert id service }).Tracked := by
  have hid := (h.placed.sound.cores side).locals id service hservice
  have hlocal : (s.core side).IsLocal id := Option.isSome_iff_exists.mpr ⟨service, hservice⟩
  refine h.quiet rfl (fun other packet hpacket => forward_send hdata hpacket) ?_ ?_ (h.placed.exported side) rfl rfl rfl
    rfl fun other id' session' hother => flight_send_of_ne ?_
  · exact (h.placed.sound.cores side).insert_local hid
  · exact Core.closes_insert_local hservice fun session found => fun hfound => hfound
  · rintro ⟨rfl, rfl, -⟩
    exact h.placed.separate other id hlocal (hid ▸ hother)

/-- Nothing on the other side is left of a session. -/
def Unused (s : System) (side : Side) (id session : Int32) : Prop :=
  s.flight side id session = [] ∧ (s.core side.other).serverSocket id session = none

/-- Clients may send more. -/
theorem Faithful.grow (h : s.Faithful) {s' : System} (hconnections : s'.connections = s.connections)
    (hclients : ∀ (client : Nat) (sender : Client), s.clients[client]? = some sender →
      ∃ sender', s'.clients[client]? = some sender' ∧ sender'.service = sender.service ∧
        sender'.session = sender.session ∧ sender.sent <+: sender'.sent) : s'.Faithful := by
  refine ⟨fun index connection hconnection => ?_, hconnections ▸ h.single⟩
  rw [hconnections] at hconnection
  obtain ⟨client, sender, hclient, hsender, hservice, hsession, hprefix⟩ := h.streams index connection hconnection
  obtain ⟨sender', hsender', hservice', hsession', hmore⟩ := hclients client sender hsender
  exact ⟨client, sender', hclient, hsender', hservice'.trans hservice, hsession'.trans hsession, hprefix.trans hmore⟩

/-- A client connects and draws an id of which nothing is left. -/
theorem Tracked.connect (h : s.Tracked) {info : ExportedServiceInfo}
    (hinfo : (s.core side).exportedServices.lookup id = some info) (hfresh : (s.core side).Fresh sock)
    (hsock : info.exported.sessions.session sock = none) (hsession : info.exported.sessions.socket session = none)
    (hunused : s.Unused side id session) :
    ((s.addClient side id sock session).setCore side
      { s.core side with
        exportedServices := (s.core side).exportedServices.insert id
          { info with exported := { info.exported with
            sessions := info.exported.sessions.add sock session hsock hsession } } }).Tracked := by
  set core : Core := { s.core side with
    exportedServices := (s.core side).exportedServices.insert id
      { info with exported := { info.exported with
        sessions := info.exported.sessions.add sock session hsock hsession } } }
  have hstays : Stays s ((s.addClient side id sock session).setCore side core) :=
    h.placed.setCore rfl (fun other packet hpacket => Or.inl hpacket)
      ((h.placed.sound.cores side).insert_exported ((h.placed.sound.cores side).exported id info hinfo))
      (fun id => Iff.rfl) (h.placed.exported_insert hinfo)
  have hsocket : ∀ id' session', core.clientSocket id' session' =
      if id' = id ∧ session' = session then some sock else (s.core side).clientSocket id' session' :=
    Core.clientSocket_add hinfo hsock hsession
  have hfaithful : ((s.addClient side id sock session).setCore side core).Faithful := h.faithful.grow rfl
    fun client sender hsender => ⟨sender, getElem?_concat hsender _, rfl, rfl, List.prefix_rfl⟩
  refine ⟨hstays.placed, fun other id' session' hlocal => ?_, hfaithful⟩
  · rw [hstays.locals] at hlocal
    by_cases hsame : other = side ∧ id' = id ∧ session' = session
    · obtain ⟨rfl, rfl, rfl⟩ := hsame
      refine Or.inr ⟨s.clients.length, ⟨id', session', []⟩, 0, List.getElem?_concat_length, ⟨rfl, rfl⟩, ?_, ?_, ?_, ?_⟩
      · have hnone : ((s.addClient other id' sock session').setCore other core).flight other id' session' = [] := hunused.1
        rw [hnone]
        rfl
      · intro found hfound
        rw [core_setCore, Function.update_self, hsocket, if_pos ⟨rfl, rfl⟩, Option.some.injEq] at hfound
        subst hfound
        exact (congrFun (Function.update_self ..) sock).trans (Function.update_self ..)
      · intro found hfound
        rw [core_setCore, Function.update_of_ne other.other_ne] at hfound
        cases hunused.2.symm.trans hfound
      · intro connection hconnection hclient
        obtain ⟨client, sender, hclient', hsender, -⟩ := h.faithful.of_mem hconnection
        obtain ⟨hlt, -⟩ := List.getElem?_eq_some_iff.mp hsender
        rw [hclient, Option.some.injEq] at hclient'
        exact absurd hclient'.symm (Nat.ne_of_lt hlt)
    · suffices hleaves : Leaves s ((s.addClient side id sock session).setCore side core) other id' session' from
        hleaves.session (h.sessions other id' session' hlocal)
      refine ⟨rfl, fun found hfound => ?_, fun found hfound => ⟨?_, rfl⟩,
        fun client sender hsender _ => getElem?_concat hsender _, fun index connection hconnection _ => hconnection,
        fun connection hconnection client sender hclient _ _ => ⟨connection, hconnection, hclient⟩⟩
      · by_cases hother : other = side
        · subst hother
          rw [core_setCore, Function.update_self, hsocket, if_neg fun hboth => hsame ⟨rfl, hboth⟩] at hfound
          refine ⟨hfound, ?_⟩
          exact (congrFun (Function.update_self ..) found).trans (Function.update_of_ne (hfresh.ne_client hfound) ..)
        · rw [core_setCore, Function.update_of_ne hother] at hfound
          exact ⟨hfound, congrFun (Function.update_of_ne hother ..) found⟩
      · rw [core_setCore, Function.update_apply] at hfound
        split at hfound
        case isTrue hother => exact hother ▸ hfound
        case isFalse => exact hfound

/-- A service is exported by one side. -/
theorem Placed.eq_side (h : s.Placed) {other : Side} (hside : (s.core side.other).IsLocal id)
    (hother : (s.core other.other).IsLocal id) : other = side := by
  by_contra hne
  rw [Side.eq_other hne, Side.other_other] at hother
  exact h.separate side id hother hside

/-- An open client has its session. -/
theorem Tracked.owned_of_client (h : s.Tracked) (hlocal : (s.core side.other).IsLocal id)
    (hsock : (s.core side).clientSocket id session = some sock) :
    ∃ client sender position, s.clientOf side sock = some client ∧ s.Owned side id session client sender position := by
  rcases h.sessions side id session hlocal with hidle | ⟨client, sender, position, howned⟩
  · cases hidle.client.symm.trans hsock
  · exact ⟨client, sender, position, howned.clients sock hsock, howned⟩

/-- A client sends some bytes. -/
theorem Tracked.clientRead (h : s.Tracked) {info : ExportedServiceInfo}
    (hinfo : (s.core side).exportedServices.lookup id = some info)
    (hsession : info.exported.sessions.session sock = some session) {data : Bytes} (hdata : data ≠ []) :
    (((s.extendClient side sock data).send side [⟨info.exported.serviceId, session, data⟩]
      (s.originOf side sock)).setCore side
        { s.core side with exportedServices := (s.core side).exportedServices.insert id info }).Tracked := by
  have hid := (h.placed.sound.cores side).exported id info hinfo
  have hlocal := h.placed.exported side id info hinfo
  have hsock : (s.core side).clientSocket id session = some sock :=
    (Core.clientSocket_eq hinfo session).trans (Sessions.session_eq_some.mp hsession)
  have hcloses : (s.core side).Closes { s.core side with
      exportedServices := (s.core side).exportedServices.insert id info } :=
    Core.closes_insert_exported hinfo fun _ _ hsocket => hsocket
  obtain ⟨client, sender, position, hclient, howned⟩ := h.owned_of_client hlocal hsock
  have horigin : s.originOf side sock = some ⟨client, sender.sent.length⟩ := by
    simp only [originOf, hclient, howned.found, bind, Option.bind, pure]
  have hextend : s.extendClient side sock data =
      { s with clients := s.clients.modify client fun sender => { sender with sent := sender.sent ++ data } } := by
    simp only [extendClient, hclient]
  rw [hid, horigin, hextend]
  set s₁ : System :=
    { s with clients := s.clients.modify client fun sender => { sender with sent := sender.sent ++ data } } with hs₁
  have hstays : Stays s ((s₁.send side [⟨id, session, data⟩] (some ⟨client, sender.sent.length⟩)).setCore side
      { s.core side with exportedServices := (s.core side).exportedServices.insert id info }) :=
    h.placed.setCore rfl (fun other packet hpacket => forward_send hdata hpacket)
      ((h.placed.sound.cores side).insert_exported hid) hcloses.locals (h.placed.exported_insert hinfo)
  have hsender : s₁.clients[client]? = some { sender with sent := sender.sent ++ data } := by
    rw [hs₁, List.getElem?_modify_eq, howned.found]
    rfl
  have hothers : ∀ other, other ≠ client → s₁.clients[other]? = s.clients[other]? :=
    fun other hother => List.getElem?_modify_ne _ _ hother.symm
  refine ⟨hstays.placed, fun other id' session' hother => ?_, h.faithful.grow rfl fun client' sender' hsender' => ?_⟩
  · rw [hstays.locals] at hother
    by_cases hsame : other = side ∧ id = id' ∧ session = session'
    · obtain ⟨rfl, rfl, rfl⟩ := hsame
      refine Or.inr ⟨client, _, position, hsender, howned.of, ?_, fun found hfound => ?_, fun found hfound => ?_,
        howned.started⟩
      · have hflight : ((s₁.send other [⟨id, session, data⟩] (some ⟨client, sender.sent.length⟩)).setCore other
            { s.core other with exportedServices := (s.core other).exportedServices.insert id info }).flight other id
            session = s.flight other id session ++ [⟨.forward ⟨id, session, data⟩, some ⟨client, sender.sent.length⟩⟩] :=
          flight_send
        rw [hflight]
        exact howned.carried.append id session data
      · exact howned.clients found (clientSocket_closes rfl hcloses hfound)
      · obtain ⟨index, hindex, hconnection⟩ := howned.servers found (serverSocket_closes rfl hcloses hfound)
        refine ⟨index, hindex, ?_⟩
        rw [List.take_append_of_le_length howned.carried.le]
        exact hconnection
    · suffices hleaves : Leaves s ((s₁.send side [⟨id, session, data⟩] (some ⟨client, sender.sent.length⟩)).setCore side
          { s.core side with exportedServices := (s.core side).exportedServices.insert id info }) other id' session' from
        hleaves.session (h.sessions other id' session' hother)
      refine ⟨flight_send_of_ne hsame, fun found hfound => ⟨clientSocket_closes rfl hcloses hfound, rfl⟩,
        fun found hfound => ⟨serverSocket_closes rfl hcloses hfound, rfl⟩, fun client' sender' hsender' hof => ?_,
        fun index connection hconnection _ => hconnection,
        fun connection hconnection client' sender' hclient' _ _ => ⟨connection, hconnection, hclient'⟩⟩
      have hne : client' ≠ client := by
        rintro rfl
        cases howned.found.symm.trans hsender'
        obtain ⟨rfl, rfl⟩ := hof
        have hid' := howned.of.1
        exact hsame ⟨h.placed.eq_side hlocal (hid' ▸ hother), hid'.symm, howned.of.2.symm⟩
      exact (hothers client' hne).trans hsender'
  · by_cases hsame : client' = client
    · subst hsame
      cases howned.found.symm.trans hsender'
      exact ⟨_, hsender, rfl, rfl, List.prefix_append _ _⟩
    · exact ⟨sender', (hothers client' hsame).trans hsender', rfl, rfl, List.prefix_rfl⟩

/-! What is delivered -/

section

variable {packet : Packet} {rest : List Packet} {connects : Bool}

theorem mem_take (hchannel : s.channel side.other = packet :: rest) {other : Side} {found : Packet}
    (h : found ∈ (s.take side rest).channel other) : found ∈ s.channel other := by
  rw [channel_take, Function.update_apply] at h
  split at h
  case isTrue hother =>
    rw [hother, hchannel]
    exact List.mem_cons_of_mem packet h
  case isFalse => exact h

theorem flight_take (hchannel : s.channel side.other = packet :: rest) (hfor : packet.isFor id session = true) :
    s.flight side.other id session = packet :: (s.take side rest).flight side.other id session := by
  simp only [flight, hchannel, channel_take, Function.update_self]
  rw [List.filter_cons_of_pos hfor]

theorem flight_take_of_not (hchannel : s.channel side.other = packet :: rest) {other : Side}
    (hnot : ¬(other = side.other ∧ packet.isFor id session = true)) :
    (s.take side rest).flight other id session = s.flight other id session := by
  simp only [flight, channel_take, Function.update_apply]
  split
  case isTrue hother => rw [hother, hchannel, List.filter_cons_of_neg fun hfor => hnot ⟨hother, hfor⟩]
  case isFalse => rfl

/-- A message that is not for a local service carries no bytes of a client. -/
theorem Tracked.quiet_delivery (h : s.Tracked) (hchannel : s.channel side.other = packet :: rest)
    (hnot : ∀ request, packet.request = .forward request → ¬(s.core side).IsLocal request.serviceId) {core : Core}
    (hsound : core.Sound) (hcloses : (s.core side).Closes core)
    (hexported : ∀ id info, core.exportedServices.lookup id = some info → (s.core side.other).IsLocal id) :
    (((s.extendConnection side packet connects sock).take side rest).setCore side core).Tracked := by
  have hsame : s.extendConnection side packet connects sock = s := by
    unfold extendConnection
    split
    case h_1 request hrequest =>
      rw [Option.not_isSome_iff_eq_none.mp (hnot request hrequest)]
    case h_2 => rfl
  rw [hsame]
  refine h.quiet rfl (fun other found hfound => Or.inl (mem_take hchannel hfound)) hsound hcloses hexported rfl rfl rfl rfl
    fun other id session hlocal => flight_take_of_not hchannel ?_
  rintro ⟨rfl, hfor⟩
  obtain ⟨request, hrequest, rfl, -⟩ := Packet.isFor_iff.mp hfor
  rw [Side.other_other] at hlocal
  exact hnot request hrequest hlocal

/-- A message for a local service carries the next bytes of its client. -/
theorem Tracked.owned_of_packet (h : s.Tracked) (hchannel : s.channel side.other = packet :: rest)
    {request : ForwardRequest} (hrequest : packet.request = .forward request)
    (hlocal : (s.core side).IsLocal request.serviceId) :
    ∃ client sender position, s.Owned side.other request.serviceId request.sessionId client sender position ∧
      packet.origin = some ⟨client, position⟩ ∧ request.buffer <+: sender.sent.drop position ∧
      Carries client sender.sent (position + request.buffer.length)
        ((s.take side rest).flight side.other request.serviceId request.sessionId) := by
  have hflight := flight_take hchannel (Packet.isFor_iff.mpr ⟨request, hrequest, rfl, rfl⟩)
  rw [← Side.other_other side] at hlocal
  rcases h.sessions side.other _ request.sessionId hlocal with hidle | ⟨client, sender, position, howned⟩
  · cases hidle.flight.symm.trans hflight
  · have hcarried := howned.carried
    rw [hflight] at hcarried
    obtain ⟨request', hrequest', horigin, hprefix, hrest⟩ := hcarried
    cases hrequest.symm.trans hrequest'
    exact ⟨client, sender, position, howned, horigin, hprefix, hrest⟩

/-- What a connection has once it is handed the next bytes. -/
theorem take_append_next {sent next : Bytes} {position : Nat} (h : next <+: sent.drop position) :
    sent.take position ++ next = sent.take (position + next.length) := by
  rw [List.take_add]
  exact congrArg _ (List.prefix_iff_eq_take.mp h)

/-- A message for a local service leaves the other sessions as they are; if its own session has a connection
afterwards, this has received `received` of the client. -/
structure Delivers (s s' : System) (side : Side) (request : ForwardRequest) (core : Core) (client : Nat)
    (received : Bytes) : Prop where
  cores : s'.core = s.core
  channels : s'.channel = s.channel
  senders : s'.clients = s.clients
  clientOf : s'.clientOf = s.clientOf
  sound : core.Sound
  locals : ∀ id, core.IsLocal id ↔ (s.core side).IsLocal id
  exported : ∀ id info, core.exportedServices.lookup id = some info → (s.core side.other).IsLocal id
  clients : ∀ id session sock, core.clientSocket id session = some sock →
    (s.core side).clientSocket id session = some sock
  server : ∀ sock, core.serverSocket request.serviceId request.sessionId = some sock →
    ∃ index, s'.connectionOf side sock = some index ∧
      s'.connections[index]? = some ⟨request.serviceId, request.sessionId, some client, received⟩
  servers : ∀ id session, ¬(id = request.serviceId ∧ session = request.sessionId) → ∀ sock,
    core.serverSocket id session = some sock →
      (s.core side).serverSocket id session = some sock ∧ s'.connectionOf side sock = s.connectionOf side sock
  connectionOf : s'.connectionOf side.other = s.connectionOf side.other
  connections : ∀ (index : Nat) (connection : Connection), s.connections[index]? = some connection →
    ¬(connection.service = request.serviceId ∧ connection.session = request.sessionId) →
      s'.connections[index]? = some connection
  started : ∀ connection ∈ s'.connections, connection.client = some client ∨
    ∃ before ∈ s.connections, before.client = connection.client
  faithful : s'.Faithful

section

variable {s' : System} {request : ForwardRequest} {core : Core} {client : Nat} {received : Bytes}

theorem Delivers.core_eq (hdelivers : Delivers s s' side request core client received) (other : Side) :
    ((s'.take side rest).setCore side core).core other = if other = side then core else s.core other := by
  rw [core_setCore, Function.update_apply, core_take, hdelivers.cores]

theorem Delivers.flight_eq (hdelivers : Delivers s s' side request core client received) (other : Side)
    (id session : Int32) : (s'.take side rest).flight other id session = (s.take side rest).flight other id session := by
  simp only [flight, channel_take, hdelivers.channels]

/-- The other sessions are left as they are. -/
theorem Delivers.leaves (hdelivers : Delivers s s' side request core client received) (hplaced : s.Placed)
    (hchannel : s.channel side.other = packet :: rest) (hrequest : packet.request = .forward request)
    (hlocal : (s.core side).IsLocal request.serviceId) {sender : Client} (hfound : s.clients[client]? = some sender)
    (hof : sender.service = request.serviceId ∧ sender.session = request.sessionId) {other : Side}
    (hother : (s.core other.other).IsLocal id)
    (hsame : ¬(other = side.other ∧ id = request.serviceId ∧ session = request.sessionId)) :
    Leaves s ((s'.take side rest).setCore side core) other id session := by
  have hplace : id = request.serviceId → other = side.other := by
    rintro rfl
    exact hplaced.eq_side ((Side.other_other side).symm ▸ hlocal) hother
  refine ⟨?_, fun sock hsock => ⟨?_, congrFun (congrFun hdelivers.clientOf _) sock⟩, fun sock hsock => ?_,
    fun other' sender' hsender' _ => ?_, fun index connection hconnection hof' => ?_,
    fun connection hconnection other' sender' hclient' hsender' hof' => ?_⟩
  · refine (hdelivers.flight_eq other id session).trans (flight_take_of_not hchannel ?_)
    rintro ⟨rfl, hfor⟩
    obtain ⟨request', hrequest', rfl, rfl⟩ := Packet.isFor_iff.mp hfor
    cases hrequest.symm.trans hrequest'
    exact hsame ⟨rfl, rfl, rfl⟩
  · rw [hdelivers.core_eq] at hsock
    split at hsock
    case isTrue hside => exact hside ▸ hdelivers.clients id session sock hsock
    case isFalse => exact hsock
  · rw [hdelivers.core_eq] at hsock
    split at hsock
    case isTrue hside =>
      have hne : ¬(id = request.serviceId ∧ session = request.sessionId) :=
        fun hboth => hsame ⟨hplace hboth.1, hboth⟩
      rw [hside]
      exact hdelivers.servers id session hne sock hsock
    case isFalse hside =>
      refine ⟨hsock, ?_⟩
      rw [Side.eq_other hside]
      exact congrFun hdelivers.connectionOf sock
  · exact (congrArg (fun clients => clients[other']?) hdelivers.senders).trans hsender'
  · refine hdelivers.connections index connection hconnection fun hboth => ?_
    have hid := hof'.1.symm.trans hboth.1
    exact hsame ⟨hplace hid, hid, hof'.2.symm.trans hboth.2⟩
  · rcases hdelivers.started connection hconnection with hclient | ⟨before, hbefore, hequal⟩
    · cases hclient.symm.trans hclient'
      cases hfound.symm.trans hsender'
      have hid := hof'.1.symm.trans hof.1
      exact absurd ⟨hplace hid, hid, hof'.2.symm.trans hof.2⟩ hsame
    · exact ⟨before, hbefore, hequal.trans hclient'⟩

end

theorem Tracked.delivered (h : s.Tracked) (hchannel : s.channel side.other = packet :: rest)
    {request : ForwardRequest} (hrequest : packet.request = .forward request) (hdata : 0 < request.buffer.length)
    (hlocal : (s.core side).IsLocal request.serviceId) {client : Nat} {sender : Client} {position : Nat}
    (howned : s.Owned side.other request.serviceId request.sessionId client sender position)
    (hcarried : Carries client sender.sent (position + request.buffer.length)
      ((s.take side rest).flight side.other request.serviceId request.sessionId)) {s' : System} {core : Core}
    (hdelivers : Delivers s s' side request core client (sender.sent.take (position + request.buffer.length))) :
    ((s'.take side rest).setCore side core).Tracked := by
  have hchannel' : s'.channel side.other = packet :: rest := (congrFun hdelivers.channels _).trans hchannel
  have hstays : Stays s ((s'.take side rest).setCore side core) := by
    refine h.placed.setCore hdelivers.cores (fun other found hfound => Or.inl ?_) hdelivers.sound hdelivers.locals
      hdelivers.exported
    exact congrFun hdelivers.channels other ▸ mem_take hchannel' hfound
  refine ⟨hstays.placed, fun other id session hother => ?_, hdelivers.faithful.of_eq rfl rfl⟩
  rw [hstays.locals] at hother
  by_cases hsame : other = side.other ∧ id = request.serviceId ∧ session = request.sessionId
  · obtain ⟨rfl, rfl, rfl⟩ := hsame
    refine Or.inr ⟨client, sender, position + request.buffer.length, ?_, howned.of, ?_, fun found hfound => ?_,
      fun found hfound => ?_, fun _ _ _ => Nat.add_pos_right position hdata⟩
    · exact (congrArg (fun clients => clients[client]?) hdelivers.senders).trans howned.found
    · exact (hdelivers.flight_eq ..).symm ▸ hcarried
    · rw [hdelivers.core_eq, if_neg side.other_ne] at hfound
      exact (congrFun (congrFun hdelivers.clientOf _) found).trans (howned.clients found hfound)
    · rw [Side.other_other] at hfound ⊢
      rw [hdelivers.core_eq, if_pos rfl] at hfound
      exact hdelivers.server found hfound
  · have hleaves := hdelivers.leaves h.placed hchannel hrequest hlocal howned.found howned.of hother hsame
    exact hleaves.session (h.sessions other id session hother)

section

variable {request : ForwardRequest} {service : LocalService} {client : Nat} {sender : Client} {position : Nat}

/-- The bytes go to the connection of the session, -/
theorem Tracked.delivers_open (h : s.Tracked)
    (hservice : (s.core side).localServices.lookup request.serviceId = some service) {found index : Nat}
    (hfound : service.sessions.socket request.sessionId = some found)
    (hindex : s.connectionOf side found = some index)
    (hsender : s.clients[client]? = some sender)
    (hof : sender.service = request.serviceId ∧ sender.session = request.sessionId)
    (hconnection : s.connections[index]? =
      some ⟨request.serviceId, request.sessionId, some client, sender.sent.take position⟩)
    (hnext : request.buffer <+: sender.sent.drop position) {sessions : Sessions}
    (hsockets : sessions.sockets = service.sessions.sockets) :
    Delivers s
      { s with
        connections := s.connections.modify index fun connection =>
          { connection with received := connection.received ++ request.buffer } }
      side request
      { s.core side with
        localServices := (s.core side).localServices.insert request.serviceId { service with sessions } }
      client (sender.sent.take (position + request.buffer.length)) := by
  have hid := (h.placed.sound.cores side).locals _ service hservice
  have hcloses : (s.core side).Closes { s.core side with
      localServices := (s.core side).localServices.insert request.serviceId { service with sessions } } :=
    Core.closes_insert_local hservice fun session sock hsock => by rwa [Sessions.socket, hsockets] at hsock
  have hafter : (s.connections.modify index fun connection =>
      { connection with received := connection.received ++ request.buffer })[index]? =
      some ⟨request.serviceId, request.sessionId, some client, sender.sent.take (position + request.buffer.length)⟩ := by
    rw [List.getElem?_modify_eq, hconnection, ← take_append_next hnext]
    rfl
  have hothers : ∀ other, other ≠ index → (s.connections.modify index fun connection =>
      { connection with received := connection.received ++ request.buffer })[other]? = s.connections[other]? :=
    fun other hother => List.getElem?_modify_ne _ _ hother.symm
  have hclient : ∀ (other : Nat) (connection : Connection), (s.connections.modify index fun connection =>
      { connection with received := connection.received ++ request.buffer })[other]? = some connection →
      ∃ before, s.connections[other]? = some before ∧ before.client = connection.client := by
    intro other connection hget
    by_cases hother : other = index
    · subst hother
      cases hafter.symm.trans hget
      exact ⟨_, hconnection, rfl⟩
    · exact ⟨connection, (hothers other hother).symm.trans hget, rfl⟩
  refine ⟨rfl, rfl, rfl, rfl, (h.placed.sound.cores side).insert_local hid, hcloses.locals, h.placed.exported side,
    hcloses.clients, fun sock hsock => ⟨index, ?_, hafter⟩,
    fun id session _ sock hsock => ⟨hcloses.servers id session sock hsock, rfl⟩, rfl,
    fun other connection hget hne => ?_, fun connection hmem => Or.inr ?_, fun other connection hget => ?_,
    fun first second connection connection' hfirst hsecond hequal => ?_⟩
  · have hbefore := hcloses.servers _ _ _ hsock
    rw [Core.serverSocket_eq hservice, hfound, Option.some.injEq] at hbefore
    exact hbefore ▸ hindex
  · refine (hothers other ?_).trans hget
    rintro rfl
    cases hconnection.symm.trans hget
    exact hne ⟨rfl, rfl⟩
  · obtain ⟨other, hget⟩ := List.mem_iff_getElem?.mp hmem
    obtain ⟨before, hbefore, hequal⟩ := hclient other connection hget
    exact ⟨before, List.mem_iff_getElem?.mpr ⟨other, hbefore⟩, hequal⟩
  · by_cases hother : other = index
    · subst hother
      cases hafter.symm.trans hget
      exact ⟨client, sender, rfl, hsender, hof.1, hof.2, List.take_prefix _ _⟩
    · exact h.faithful.streams other connection ((hothers other hother).symm.trans hget)
  · obtain ⟨before, hbefore, hequal₁⟩ := hclient first connection hfirst
    obtain ⟨before', hbefore', hequal₂⟩ := hclient second connection' hsecond
    exact h.faithful.single first second before before' hbefore hbefore' (hequal₁.trans (hequal.trans hequal₂.symm))

/-- to a new one, when they are the first of the client, -/
theorem Tracked.delivers_new (h : s.Tracked)
    (hservice : (s.core side).localServices.lookup request.serviceId = some service)
    (hfresh : (s.core side).Fresh sock) (hnone : service.sessions.socket request.sessionId = none)
    (hsock : service.sessions.session sock = none) (hsender : s.clients[client]? = some sender)
    (hof : sender.service = request.serviceId ∧ sender.session = request.sessionId)
    (hstarted : ∀ connection ∈ s.connections, connection.client ≠ some client)
    (hnext : request.buffer <+: sender.sent) {sessions : Sessions}
    (hsockets : sessions.sockets = (service.sessions.add sock request.sessionId hsock hnone).sockets) :
    Delivers s
      { s with
        connections := s.connections ++ [⟨request.serviceId, request.sessionId, some client, request.buffer⟩]
        connectionOf := Function.update s.connectionOf side
          (Function.update (s.connectionOf side) sock (some s.connections.length)) }
      side request
      { s.core side with
        localServices := (s.core side).localServices.insert request.serviceId { service with sessions } }
      client request.buffer := by
  have hid := (h.placed.sound.cores side).locals _ service hservice
  have hserver : ∀ id session, Core.serverSocket { s.core side with
        localServices := (s.core side).localServices.insert request.serviceId { service with sessions } } id session =
      if id = request.serviceId ∧ session = request.sessionId then some sock
      else (s.core side).serverSocket id session := Core.serverSocket_add hservice hsock hnone hsockets
  refine ⟨rfl, rfl, rfl, rfl, (h.placed.sound.cores side).insert_local hid,
    fun id => Core.isLocal_insert hservice _ id, h.placed.exported side, fun _ _ _ hfound => hfound,
    fun found hfound => ⟨s.connections.length, ?_, List.getElem?_concat_length⟩,
    fun id session hne found hfound => ?_, Function.update_of_ne side.other_ne ..,
    fun index connection hget _ => getElem?_concat hget _, fun connection hmem => ?_, fun index connection hget => ?_,
    fun first second connection connection' hfirst hsecond hequal => ?_⟩
  · rw [hserver, if_pos ⟨rfl, rfl⟩, Option.some.injEq] at hfound
    subst hfound
    exact (congrFun (Function.update_self ..) sock).trans (Function.update_self ..)
  · rw [hserver, if_neg hne] at hfound
    refine ⟨hfound, ?_⟩
    exact (congrFun (Function.update_self ..) found).trans (Function.update_of_ne (hfresh.ne_server hfound) ..)
  · rcases List.mem_append.mp hmem with hold | hnew
    · exact Or.inr ⟨connection, hold, rfl⟩
    · exact Or.inl (congrArg Connection.client (List.mem_singleton.mp hnew))
  · rcases getElem?_concat_cases hget with hold | ⟨-, rfl⟩
    · exact h.faithful.streams index connection hold
    · exact ⟨client, sender, rfl, hsender, hof.1, hof.2, hnext⟩
  · rcases getElem?_concat_cases hfirst with hold | ⟨hlast, rfl⟩
    · rcases getElem?_concat_cases hsecond with hold' | ⟨-, rfl⟩
      · exact h.faithful.single first second connection connection' hold hold' hequal
      · exact absurd hequal (hstarted connection (List.mem_iff_getElem?.mpr ⟨first, hold⟩))
    · rcases getElem?_concat_cases hsecond with hold' | ⟨hlast', rfl⟩
      · exact absurd hequal.symm (hstarted connection' (List.mem_iff_getElem?.mpr ⟨second, hold'⟩))
      · exact hlast.trans hlast'.symm

/-- or to none, when it cannot be made. -/
theorem Tracked.delivers_refused (h : s.Tracked)
    (hservice : (s.core side).localServices.lookup request.serviceId = some service)
    (hnone : service.sessions.socket request.sessionId = none) {core : Core}
    (hshutdown : Core.shutdown { s.core side with
      localServices := (s.core side).localServices.insert request.serviceId service } = .ok core) (received : Bytes) :
    Delivers s s side request core client received := by
  have hid := (h.placed.sound.cores side).locals _ service hservice
  have hinsert : (s.core side).Closes { s.core side with
      localServices := (s.core side).localServices.insert request.serviceId service } :=
    Core.closes_insert_local hservice fun session sock hsock => hsock
  have hcloses : (s.core side).Closes core := hinsert.trans (Core.closes_shutdown hshutdown)
  refine ⟨rfl, rfl, rfl, rfl, ((h.placed.sound.cores side).insert_local hid).shutdown hshutdown, hcloses.locals,
    fun id info hinfo => ?_, hcloses.clients, fun sock hsock => ?_,
    fun id session _ sock hsock => ⟨hcloses.servers id session sock hsock, rfl⟩, rfl,
    fun index connection hget _ => hget, fun connection hmem => Or.inr ⟨connection, hmem, rfl⟩, h.faithful⟩
  · exact h.placed.exported side id info ((Core.lookup_shutdown hshutdown).1 id info hinfo)
  · have hbefore := hcloses.servers _ _ _ hsock
    rw [Core.serverSocket_eq hservice, hnone] at hbefore
    cases hbefore

end

theorem Tracked.deliver_register (h : s.Tracked) (hchannel : s.channel side.other = packet :: rest)
    {request : RegisterRequest} (hrequest : packet.request = .register request) :
    (((s.extendConnection side packet connects sock).take side rest).setCore side
      ((s.core side).register request)).Tracked := by
  refine h.quiet_delivery hchannel (fun forwarded hforwarded => ?_) ((h.placed.sound.cores side).register request)
    ((s.core side).closes_register request) fun id info hinfo => ?_
  · cases hrequest.symm.trans hforwarded
  · rw [Core.register] at hinfo
    rcases Map.of_lookup_insert hinfo with ⟨hid, -⟩ | hold
    · rw [hid]
      exact h.placed.announced side.other packet (hchannel ▸ List.mem_cons_self) request hrequest
    · exact h.placed.exported side id info hold

/-- Bytes for a client, which may have gone. -/
theorem Tracked.deliver_client (h : s.Tracked) (hchannel : s.channel side.other = packet :: rest)
    {request : ForwardRequest} (hrequest : packet.request = .forward request) (hdata : 0 < request.buffer.length)
    (hlocal : (s.core side).localServices.lookup request.serviceId = none) {s' : System}
    (hstep : s.step side (.deliver connects sock) = .ok s') : s'.Tracked := by
  have hnot : ∀ forwarded, packet.request = .forward forwarded → ¬(s.core side).IsLocal forwarded.serviceId := by
    intro forwarded hforwarded
    cases hrequest.symm.trans hforwarded
    exact Option.not_isSome_iff_eq_none.mpr hlocal
  have hsound := h.placed.sound.cores side
  rw [step_deliver hchannel, hrequest, Core.receive] at hstep
  cases hinfo : (s.core side).exportedServices.lookup request.serviceId with
  | none =>
      rw [Core.forward_unknown hlocal hinfo] at hstep
      cases hstep
      exact h.quiet_delivery hchannel hnot hsound ⟨fun _ _ _ => id, fun _ _ _ => id, fun _ => Iff.rfl⟩
        (h.placed.exported side)
  | some info =>
      have hid := hsound.exported _ info hinfo
      cases hsocket : info.exported.sessions.socket request.sessionId with
      | some found =>
          obtain ⟨sessions, hsockets, hforward⟩ := Core.forward_client hlocal hinfo hid hsocket hdata
          rw [hforward] at hstep
          cases hstep
          refine h.quiet_delivery hchannel hnot (hsound.insert_exported hid) ?_ (h.placed.exported_insert hinfo)
          exact Core.closes_insert_exported hinfo fun session sock hsock => by rwa [Sessions.socket, hsockets] at hsock
      | none =>
          rw [Core.forward_gone hlocal hinfo hid hsocket] at hstep
          cases hshutdown : Core.shutdown { s.core side with
              exportedServices := (s.core side).exportedServices.insert request.serviceId info } with
          | error fault =>
              rw [hshutdown] at hstep
              cases hstep
          | ok core =>
              rw [hshutdown] at hstep
              cases hstep
              refine h.quiet_delivery hchannel hnot ((hsound.insert_exported hid).shutdown hshutdown) ?_ ?_
              · have hinsert : (s.core side).Closes { s.core side with
                    exportedServices := (s.core side).exportedServices.insert request.serviceId info } :=
                  Core.closes_insert_exported hinfo fun session sock hsock => hsock
                exact hinsert.trans (Core.closes_shutdown hshutdown)
              · intro id found hfound
                exact h.placed.exported_insert hinfo id found ((Core.lookup_shutdown hshutdown).1 id found hfound)

/-- Bytes for a local server: they make a connection only if they are the first of their client. -/
theorem Tracked.deliver_server (h : s.Tracked) (hchannel : s.channel side.other = packet :: rest)
    {request : ForwardRequest} (hrequest : packet.request = .forward request) (hdata : 0 < request.buffer.length)
    {service : LocalService} (hservice : (s.core side).localServices.lookup request.serviceId = some service)
    (hfresh : (s.core side).Fresh sock)
    (hfirst : service.sessions.socket request.sessionId = none → connects = true →
      ∀ origin, packet.origin = some origin → origin.offset = 0) {s' : System}
    (hstep : s.step side (.deliver connects sock) = .ok s') : s'.Tracked := by
  have hlocal : (s.core side).IsLocal request.serviceId := Option.isSome_iff_exists.mpr ⟨service, hservice⟩
  have hid := (h.placed.sound.cores side).locals _ service hservice
  obtain ⟨client, sender, position, howned, horigin, hnext, hcarried⟩ := h.owned_of_packet hchannel hrequest hlocal
  have hdelivered : ∀ {s' : System} {core : Core},
      Delivers s s' side request core client (sender.sent.take (position + request.buffer.length)) →
        ((s'.take side rest).setCore side core).Tracked :=
    fun hdelivers => h.delivered hchannel hrequest hdata hlocal howned hcarried hdelivers
  rw [step_deliver hchannel, hrequest, Core.receive] at hstep
  cases hsocket : service.sessions.socket request.sessionId with
  | some found =>
      have hopen : (s.core side.other.other).serverSocket request.serviceId request.sessionId = some found := by
        rw [Side.other_other, Core.serverSocket_eq hservice, hsocket]
      obtain ⟨index, hindex, hconnection⟩ := howned.servers found hopen
      rw [Side.other_other] at hindex
      obtain ⟨written, hwritten⟩ := Sessions.exists_writer hsocket
      obtain ⟨sessions, hsockets, -, hforward⟩ := Core.forward_open hservice hid hsocket hwritten hdata
      rw [hforward] at hstep
      cases hstep
      have hextend : s.extendConnection side packet connects sock = { s with
          connections := s.connections.modify index fun connection =>
            { connection with received := connection.received ++ request.buffer } } := by
        simp only [extendConnection, hrequest, hservice, hsocket, hindex]
      rw [hextend]
      exact hdelivered (h.delivers_open hservice hsocket hindex howned.found howned.of hconnection hnext hsockets)
  | none =>
      cases connects with
      | true =>
          have hzero : position = 0 := hfirst hsocket rfl _ horigin
          subst hzero
          have hsock := hfresh.2 _ service hservice
          obtain ⟨sessions, hsockets, -, hforward⟩ := Core.forward_new hservice hid hsocket hsock hdata
          rw [hforward] at hstep
          cases hstep
          have hextend : s.extendConnection side packet true sock = { s with
              connections := s.connections ++ [⟨request.serviceId, request.sessionId, some client, request.buffer⟩]
              connectionOf := Function.update s.connectionOf side
                (Function.update (s.connectionOf side) sock (some s.connections.length)) } := by
            simp only [extendConnection, hrequest, hservice, hsocket, horigin, Option.map, if_true]
          rw [hextend]
          refine hdelivered ?_
          rw [List.drop_zero] at hnext
          rw [Nat.zero_add, ← List.prefix_iff_eq_take.mp hnext]
          refine h.delivers_new hservice hfresh hsocket hsock howned.found howned.of (fun connection hmem hclient => ?_)
            hnext hsockets
          exact Nat.lt_irrefl 0 (howned.started connection hmem hclient)
      | false =>
          rw [Core.forward_refused hservice hid hsocket] at hstep
          cases hshutdown : Core.shutdown { s.core side with
              localServices := (s.core side).localServices.insert request.serviceId service } with
          | error fault =>
              rw [hshutdown] at hstep
              cases hstep
          | ok core =>
              rw [hshutdown] at hstep
              cases hstep
              have hextend : s.extendConnection side packet false sock = s := by
                simp only [extendConnection, hrequest, hservice, hsocket, Bool.false_eq_true, if_false]
              rw [hextend]
              exact hdelivered (h.delivers_refused hservice hsocket hshutdown _)

end

/-- The bytes of a client that a side receives next, with where they come from. -/
def next (s : System) (side : Side) : Option (ForwardRequest × Origin) :=
  match s.channel side.other with
  | ⟨.forward request, some origin⟩ :: _ => some (request, origin)
  | _ => none

/-- What keeps the streams apart: a client draws an id of which nothing is left on the other side, and a
connection is made for the first bytes of a client only. -/
def KeepsApart (s : System) (side : Side) : Event → Prop
  | .connect service _ session => s.Unused side service session
  | .clientRead _ _ _ => True
  | .localRead _ _ _ => True
  | .deliver connects _ =>
      connects = true → ∀ message ∈ s.next side, (s.core side).IsLocal message.1.serviceId →
        (s.core side).serverSocket message.1.serviceId message.1.sessionId = none → message.2.offset = 0

instance decidableUnused (s : System) (side : Side) (id session : Int32) : Decidable (s.Unused side id session) :=
  instDecidableAnd

instance decidableKeepsApart (s : System) (side : Side) (event : Event) : Decidable (s.KeepsApart side event) :=
  match event with
  | .connect _ _ _ => decidableUnused ..
  | .clientRead _ _ _ => instDecidableTrue
  | .localRead _ _ _ => instDecidableTrue
  | .deliver connects _ =>
      haveI (message : ForwardRequest × Origin) : Decidable ((s.core side).IsLocal message.1.serviceId) :=
        inferInstanceAs (Decidable (_ = true))
      inferInstanceAs (Decidable (connects = true → ∀ message ∈ s.next side, _ → _ → _))

theorem Tracked.step (h : s.Tracked) {event : Event} (henabled : s.Enabled side event)
    (hapart : s.KeepsApart side event) {s' : System} (hstep : s.step side event = .ok s') : s'.Tracked := by
  cases event with
  | connect id sock session =>
      obtain ⟨hfresh, -, -, info, hinfo, hsession⟩ := henabled
      rw [step_connect hinfo (hfresh.1 id info hinfo) hsession] at hstep
      cases hstep
      exact h.connect hinfo hfresh (hfresh.1 id info hinfo) hsession hapart
  | clientRead id sock data =>
      obtain ⟨-, info, hinfo, hopen⟩ := henabled
      obtain ⟨session, hsession⟩ := Option.isSome_iff_exists.mp hopen
      by_cases hdata : data = []
      · subst hdata
        rw [step_clientEnd hinfo hsession] at hstep
        cases hclose : info.exported.sessions.close sock with
        | error fault =>
            rw [hclose] at hstep
            cases hstep
        | ok sessions =>
            rw [hclose] at hstep
            cases hstep
            exact h.clientEnd hinfo hclose
      · rw [step_clientRead hinfo hsession hdata] at hstep
        cases hstep
        exact h.clientRead hinfo hsession hdata
  | localRead id sock data =>
      obtain ⟨-, service, hservice, hopen⟩ := henabled
      obtain ⟨session, hsession⟩ := Option.isSome_iff_exists.mp hopen
      by_cases hdata : data = []
      · subst hdata
        rw [step_localEnd hservice hsession] at hstep
        cases hclose : service.sessions.close sock with
        | error fault =>
            rw [hclose] at hstep
            cases hstep
        | ok sessions =>
            rw [hclose] at hstep
            cases hstep
            exact h.localEnd hservice hclose
      · rw [step_localRead hservice hsession hdata] at hstep
        cases hstep
        exact h.localRead hservice hdata
  | deliver connects sock =>
      obtain ⟨hfresh, hne⟩ := henabled
      obtain ⟨packet, rest, hchannel⟩ := List.exists_cons_of_length_pos (Nat.pos_of_ne_zero hne)
      have hpacket := h.placed.sound.packets side.other packet (hchannel ▸ List.mem_cons_self)
      cases hrequest : packet.request with
      | register request =>
          rw [step_deliver hchannel, hrequest, Core.receive] at hstep
          cases hstep
          exact h.deliver_register hchannel hrequest
      | unregister request =>
          simp only [Packet.Sound, hrequest] at hpacket
      | forward request =>
          simp only [Packet.Sound, hrequest] at hpacket
          cases hservice : (s.core side).localServices.lookup request.serviceId with
          | none => exact h.deliver_client hchannel hrequest hpacket hservice hstep
          | some service =>
              refine h.deliver_server hchannel hrequest hpacket hservice hfresh
                (fun hnone hconnects origin horigin => ?_) hstep
              have hnext : s.next side = some (request, origin) := by
                obtain ⟨request', origin'⟩ := packet
                cases hrequest
                cases horigin
                simp only [next, hchannel]
              exact hapart hconnects (request, origin) hnext (Option.isSome_iff_exists.mpr ⟨service, hservice⟩)
                ((Core.serverSocket_eq hservice _).trans hnone)

end

/-! ### Runs -/

/-- The ids of all services are distinct. -/
def Distinct (services : Side → List RegisterRequest) : Prop :=
  ((services .left ++ services .right).map RegisterRequest.serviceId).Nodup

instance decidableDistinct (services : Side → List RegisterRequest) : Decidable (Distinct services) :=
  inferInstanceAs (Decidable (List.Nodup _))

theorem isLocal_start (services : Side → List RegisterRequest) (side : Side) (id : Int32) :
    ((start services).core side).IsLocal id ↔ ∃ request ∈ services side, request.serviceId = id := by
  rw [start, Core.isLocal_new, List.mem_map]

theorem separate_start {services : Side → List RegisterRequest} (h : Distinct services) (side : Side) (id : Int32) :
    ((start services).core side).IsLocal id → ¬((start services).core side.other).IsLocal id := by
  rw [Distinct, List.map_append, List.nodup_append] at h
  rw [isLocal_start, isLocal_start]
  rintro ⟨request, hrequest, hid⟩ ⟨request', hrequest', hid'⟩
  have hequal := hid.trans hid'.symm
  cases side with
  | left => exact h.2.2 _ (List.mem_map_of_mem hrequest) _ (List.mem_map_of_mem hrequest') hequal
  | right => exact h.2.2 _ (List.mem_map_of_mem hrequest') _ (List.mem_map_of_mem hrequest) hequal.symm

theorem idle_start (services : Side → List RegisterRequest) (side : Side) (id session : Int32) :
    (start services).Idle side id session := by
  refine ⟨List.filter_eq_nil_iff.mpr fun packet hpacket hfor => ?_, rfl, ?_⟩
  · obtain ⟨request, -, rfl⟩ := List.mem_map.mp hpacket
    obtain ⟨forwarded, hforwarded, -⟩ := Packet.isFor_iff.mp hfor
    cases hforwarded
  · refine Option.eq_none_iff_forall_ne_some.mpr fun sock hsock => ?_
    obtain ⟨service, hservice, hsocket⟩ := Option.bind_eq_some_iff.mp hsock
    rw [Core.lookup_new hservice] at hsocket
    cases hsocket

theorem tracked_start {services : Side → List RegisterRequest} (h : Distinct services) : (start services).Tracked := by
  refine ⟨⟨sound_start services, separate_start h, fun side id info hinfo => ?_,
    fun side packet hpacket request hrequest => ?_⟩, fun side id session _ => Or.inl (idle_start services side id session),
    fun index connection hget => ?_, fun index other connection connection' hget => ?_⟩
  · cases hinfo
  · obtain ⟨announced, hannounced, rfl⟩ := List.mem_map.mp hpacket
    cases hrequest
    exact (isLocal_start services side _).mpr ⟨request, hannounced, rfl⟩
  · cases hget
  · cases hget

/-- What happens keeps the streams apart. -/
def StaysApart (before : Except Fault System) (label : Side × Event) : Prop :=
  ∀ s, before = .ok s → s.KeepsApart label.1 label.2

/-- **Each connection to a local server receives a prefix of the bytes of one client.** In every run in which
ids are drawn of which nothing is left, and connections are made for first bytes only, every connection
there was has received a prefix of what a client of its session sent, and no two of them bytes of the same
client. -/
theorem run_faithful {services : Side → List RegisterRequest} (hdistinct : Distinct services)
    {labels : List (Side × Event)} {s : System}
    (h : Run (Restrict Happens StaysApart) (.ok (start services)) labels (.ok s)) : s.Faithful := by
  have htracked : ∀ s', Except.ok s = (.ok s' : Except Fault System) → s'.Tracked := by
    refine h.invariant (fun _ outcome => ∀ s', outcome = .ok s' → s'.Tracked) (fun s' hs' => ?_) ?_
    · cases hs'
      exact tracked_start hdistinct
    · rintro _ before label after - hbefore ⟨hapart, s₀, rfl, henabled, rfl⟩ s' hs'
      exact (hbefore s₀ rfl).step henabled (hapart s₀ rfl) hs'
  exact (htracked s rfl).faithful

/-- Something happens, if it can, and keeps the streams apart. -/
def attemptApart (s : System) (label : Side × Event) : Except Fault System :=
  if s.KeepsApart label.1 label.2 then s.attempt label else .error .endless

theorem run_apart {s s' : System} {labels : List (Side × Event)} (h : labels.foldlM attemptApart s = .ok s') :
    Run (Restrict Happens StaysApart) (.ok s) labels (.ok s') := by
  induction labels generalizing s with
  | nil =>
      cases h
      exact Run.nil _
  | cons label labels ih =>
      rw [List.foldlM_cons] at h
      obtain ⟨middle, hfirst, hrest⟩ := bind_eq_ok h
      unfold attemptApart at hfirst
      split at hfirst
      case isTrue hapart =>
        unfold attempt at hfirst
        split at hfirst
        case isTrue henabled =>
          refine (Run.single ⟨fun s₀ hs₀ => ?_, s, rfl, henabled, hfirst.symm⟩).trans (ih hrest)
          cases hs₀
          exact hapart
        case isFalse => cases hfirst
      case isFalse => cases hfirst

/-- A client sends two bytes, one after the other, and the local server closes the connection. -/
theorem run_faithful_two :
    let labels : List (Side × Event) :=
      [(.right, .deliver true 3), (.right, .connect 7 4 9), (.right, .clientRead 7 4 [97]), (.left, .deliver true 5),
        (.right, .clientRead 7 4 [98]), (.left, .deliver true 6), (.left, .localRead 7 5 [])]
    Distinct announced ∧ ∃ s, Run (Restrict Happens StaysApart) (.ok (start announced)) labels (.ok s) ∧
      s.connections.map Connection.received = [[97, 98]] ∧ s.Faithful := by
  intro labels
  have hdistinct : Distinct announced := by decide
  have hreceived : (labels.foldlM attemptApart (start announced)).map
      (fun s => s.connections.map Connection.received) = .ok [[97, 98]] := by rfl
  cases hend : labels.foldlM attemptApart (start announced) with
  | error fault =>
      rw [hend] at hreceived
      cases hreceived
  | ok s =>
      rw [hend] at hreceived
      exact ⟨hdistinct, s, run_apart hend, Except.ok.inj hreceived, run_faithful hdistinct (run_apart hend)⟩

/-- The local server closes its connection after the first byte of a client, and the second goes to another
connection. -/
theorem continued_on_second : ¬∀ services labels s, Distinct services →
    Run Happens (.ok (start services)) labels (.ok s) → s.Faithful := by
  intro h
  have hclients : ([(.right, .deliver true 3), (.right, .connect 7 4 9), (.right, .clientRead 7 4 [97]),
      (.left, .deliver true 5), (.left, .localRead 7 5 []), (.right, .clientRead 7 4 [98]),
      (.left, .deliver true 6)].foldlM attempt (start announced)).map (fun s => s.connections.map Connection.client) =
        .ok [some 0, some 0] := by rfl
  cases hend : [(.right, .deliver true 3), (.right, .connect 7 4 9), (.right, .clientRead 7 4 [97]),
      (.left, .deliver true 5), (.left, .localRead 7 5 []), (.right, .clientRead 7 4 [98]),
      (.left, .deliver true 6)].foldlM attempt (start announced) with
  | error fault =>
      rw [hend] at hclients
      cases hclients
  | ok s =>
      rw [hend] at hclients
      have hfaithful := h announced _ s (by decide) (run_attempts hend)
      have hmap : s.connections.map Connection.client = [some 0, some 0] := Except.ok.inj hclients
      have hget : ∀ index : Nat, s.connections[index]?.map Connection.client = [some 0, some 0][index]? := fun index => by
        rw [← List.getElem?_map, hmap]
      obtain ⟨first, hfirst, hclient⟩ := Option.map_eq_some_iff.mp (hget 0)
      obtain ⟨second, hsecond, hclient'⟩ := Option.map_eq_some_iff.mp (hget 1)
      cases hfaithful.single 0 1 first second hfirst hsecond (hclient.trans hclient'.symm)

end System

end Thebends.Btunnel
