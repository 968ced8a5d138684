import Thebends.BtunnelMessage
import Thebends.LibMap

/-! A core of btunnel with its services (`core.cpp`, `exported_service.cpp`, `local_service.cpp` and
`registration.cpp`). A writer is known by the bytes that were written to it: `Write` takes all of them. What
the system answers is an argument: the descriptor of a new connection, the session id that was drawn, and
whether `connect` succeeded. Registrations with the name service succeed, and so do the system calls after
which the process would end; where they fail nothing is left that the maps could hold. The descriptors that a
service has open are those it watches in the select loop. -/

namespace Thebends.Btunnel

open LibMap Ynet

/-- What both kinds of services keep of their sessions: `session_to_socket_` and `socket_to_session_`, and
`socket_writers_`. -/
structure Sessions where
  sockets : Bimap Int32 Nat
  writers : Map Nat Bytes
  writer : ∀ sock, (writers.lookup sock).isSome ↔ (sockets.back.lookup sock).isSome

namespace Sessions

def empty : Sessions := ⟨Bimap.empty, ∅, fun _ => Iff.rfl⟩

/-- The socket of a session. -/
def socket (s : Sessions) (session : Int32) : Option Nat := s.sockets.forth.lookup session

/-- The session of a socket. -/
def session (s : Sessions) (sock : Nat) : Option Int32 := s.sockets.back.lookup sock

/-- Enters a new connection in the three maps. -/
def add (s : Sessions) (sock : Nat) (session : Int32) (hsock : s.session sock = none)
    (hsession : s.socket session = none) : Sessions where
  sockets := s.sockets.add session sock hsession hsock
  writers := s.writers.insert sock []
  writer := by
    intro other
    simp only [Bimap.add, Map.lookup_insert_eq]
    split
    · exact Iff.rfl
    · exact s.writer other

/-- `Write` on the writer of a session. -/
def write (s : Sessions) (session : Int32) (data : Bytes) : Except Fault Sessions :=
  match s.socket session with
  | none => .error .outOfBounds
  | some sock =>
      match h : s.writers.lookup sock with
      | none => .error .outOfBounds
      | some written => do
          check (data.length > 0)
          return { s with
            writers := s.writers.insert sock (written ++ data)
            writer := by
              intro other
              rw [Map.lookup_insert_eq]
              split
              case isTrue hother =>
                rw [← s.writer, hother, h]
                exact Iff.rfl
              case isFalse => exact s.writer other }

/-- `Close`. -/
def close (s : Sessions) (sock : Nat) : Except Fault Sessions :=
  match h : s.session sock with
  | none => .error .assertion
  | some session => do
      check (session > 0)
      return {
        sockets := s.sockets.remove session sock h
        writers := s.writers.erase sock
        writer := by
          intro other
          simp only [Bimap.remove, Map.lookup_erase_eq]
          split
          · exact Iff.rfl
          · exact s.writer other }

/-- What a destructor does with the open connections. -/
def closeAll (s : Sessions) : Except Fault Sessions := do
  let s ← s.sockets.back.keys.foldlM close s
  check (s.sockets.back.keys.length = 0)
  check (s.writers.keys.length = 0)
  check (s.sockets.forth.keys.length = 0)
  return s

/-- `Read`, after `read` returned some bytes: none at the end of the stream. The peer takes what it is
given. -/
def read (s : Sessions) (serviceId : Int32) (sock : Nat) (data : Bytes) :
    Except Fault (Sessions × List ForwardRequest) :=
  match s.session sock with
  | none => .error .assertion
  | some session =>
      if data.length = 0 then do
        let s ← s.close sock
        return (s, [])
      else return (s, [⟨serviceId, session, data⟩])

/-! What each of these does to the maps -/

theorem session_eq_some {s : Sessions} {sock : Nat} {session : Int32} :
    s.session sock = some session ↔ s.socket session = some sock := (s.sockets.inverse session sock).symm

theorem socket_add (s : Sessions) (sock : Nat) (session : Int32) (hsock : s.session sock = none)
    (hsession : s.socket session = none) (other : Int32) :
    (s.add sock session hsock hsession).socket other = if other = session then some sock else s.socket other :=
  Map.lookup_insert_eq ..

theorem writers_add (s : Sessions) (sock : Nat) (session : Int32) (hsock : s.session sock = none)
    (hsession : s.socket session = none) (other : Nat) :
    (s.add sock session hsock hsession).writers.lookup other =
      if other = sock then some [] else s.writers.lookup other :=
  Map.lookup_insert_eq ..

/-- The writer of an open session. -/
theorem exists_writer {s : Sessions} {sock : Nat} {session : Int32} (h : s.socket session = some sock) :
    ∃ written, s.writers.lookup sock = some written := by
  rw [← Option.isSome_iff_exists, s.writer]
  exact Option.isSome_iff_exists.mpr ⟨session, session_eq_some.mpr h⟩

theorem write_ok {s : Sessions} {session : Int32} {sock : Nat} {data written : Bytes}
    (hsock : s.socket session = some sock) (hwriter : s.writers.lookup sock = some written) (hdata : 0 < data.length) :
    ∃ s', s.write session data = .ok s' ∧ s'.sockets = s.sockets ∧
      ∀ other, s'.writers.lookup other = if other = sock then some (written ++ data) else s.writers.lookup other := by
  have hcheck : check (decide (data.length > 0)) = .ok () := check_ok hdata
  unfold write
  simp only [hsock]
  split
  case h_1 hnone =>
    rw [hnone] at hwriter
    cases hwriter
  case h_2 content hcontent =>
    rw [hwriter, Option.some.injEq] at hcontent
    subst hcontent
    rw [hcheck]
    exact ⟨_, rfl, rfl, fun other => Map.lookup_insert_eq ..⟩

theorem close_ok {s : Sessions} {sock : Nat} {session : Int32} (hsession : s.session sock = some session)
    (hpos : session > 0) :
    ∃ s', s.close sock = .ok s' ∧
      (∀ other, s'.socket other = if other = session then none else s.socket other) ∧
      ∀ other, s'.writers.lookup other = if other = sock then none else s.writers.lookup other := by
  have hcheck : check (decide (session > 0)) = .ok () := check_ok hpos
  unfold close
  split
  case h_1 hnone =>
    rw [hnone] at hsession
    cases hsession
  case h_2 found hfound =>
    rw [hsession, Option.some.injEq] at hfound
    subst hfound
    rw [hcheck]
    exact ⟨_, rfl, fun other => Map.lookup_erase_eq .., fun other => Map.lookup_erase_eq ..⟩

theorem close_assertion {s : Sessions} {sock : Nat} {session : Int32} (hsession : s.session sock = some session)
    (hpos : ¬session > 0) : s.close sock = .error .assertion := by
  have hcheck : check (decide (session > 0)) = .error .assertion := if_neg (by simpa using hpos)
  unfold close
  split
  case h_1 => rfl
  case h_2 found hfound =>
    rw [hsession, Option.some.injEq] at hfound
    subst hfound
    rw [hcheck]
    rfl

end Sessions

structure ExportedService where
  serviceId : Int32
  sessions : Sessions

namespace ExportedService

/-- `ExportedService::Connect`; the loop has drawn an id that no open session has. -/
def connect (s : ExportedService) (sock : Nat) (session : Int32) : Except Fault ExportedService :=
  if hsock : s.sessions.session sock = none then
    if hsession : s.sessions.socket session = none then
      .ok { s with sessions := s.sessions.add sock session hsock hsession }
    else .error .endless
  else .error .assertion

/-- `ExportedService::Forward`. -/
def forward (s : ExportedService) (request : ForwardRequest) : Except Fault (Bool × ExportedService) := do
  check (request.serviceId = s.serviceId)
  if s.sessions.socket request.sessionId = none then return (false, s)
  else
    let sessions ← s.sessions.write request.sessionId request.buffer
    return (true, { s with sessions := sessions })

end ExportedService

structure LocalService where
  serviceId : Int32
  sessions : Sessions

/-- `LocalService::Forward`. -/
def LocalService.forward (s : LocalService) (request : ForwardRequest) (connects : Bool) (sock : Nat) :
    Except Fault (Bool × LocalService) := do
  check (request.serviceId = s.serviceId)
  if hsession : s.sessions.socket request.sessionId = none then
    if !connects then return (false, s)
    else if hsock : s.sessions.session sock = none then
      let sessions ← (s.sessions.add sock request.sessionId hsock hsession).write request.sessionId request.buffer
      return (true, { s with sessions := sessions })
    else .error .assertion
  else
    let sessions ← s.sessions.write request.sessionId request.buffer
    return (true, { s with sessions := sessions })

/-- `ExportedServiceInfo`. The objects made for one registration are known by one number. -/
structure ExportedServiceInfo where
  exported : ExportedService
  object : Nat

/-- `Core`, with `services_` of its service manager, the exported services that listen on their port, and
whether `Shutdown` was called. -/
structure Core where
  localServices : Map Int32 LocalService
  exportedServices : Map Int32 ExportedServiceInfo
  services : List Nat
  listening : List Nat
  created : Nat
  isShutdown : Bool

namespace Core

/-- The constructor, for the ids of the local services. -/
def new (services : List Int32) : Core :=
  { localServices := services.foldl (fun map id => map.insert id ⟨id, Sessions.empty⟩) ∅
    exportedServices := ∅
    services := []
    listening := []
    created := 0
    isShutdown := false }

/-- The local services have their ids, and no sessions at first. -/
theorem lookup_new {services : List Int32} {id : Int32} {service : LocalService}
    (h : (new services).localServices.lookup id = some service) : service = ⟨id, Sessions.empty⟩ := by
  have hall : ∀ (ids : List Int32) (map : Map Int32 LocalService),
      (∀ id service, map.lookup id = some service → service = ⟨id, Sessions.empty⟩) →
      ∀ id service, (ids.foldl (fun map id => map.insert id ⟨id, Sessions.empty⟩) map).lookup id = some service →
        service = ⟨id, Sessions.empty⟩ := by
    intro ids
    induction ids with
    | nil => exact fun map hmap => hmap
    | cons added ids ih =>
        intro map hmap
        exact ih _ (Map.forall_insert hmap rfl)
  refine hall services ∅ (fun id service h => ?_) id service h
  cases h

/-- What `Unregister` and `Shutdown` do with one exported service. -/
def release (c : Core) (id : Int32) : Except Fault Core :=
  match c.exportedServices.lookup id with
  | none => .error .outOfBounds
  | some info => do
      let _ ← info.exported.sessions.closeAll
      return { c with
        services := c.services.erase info.object
        listening := c.listening.erase info.object
        exportedServices := c.exportedServices.erase id }

/-- `Shutdown`. -/
def shutdown (c : Core) : Except Fault Core := do
  let c ← c.exportedServices.keys.foldlM release c
  return { c with isShutdown := true }

/-- `Core::Register`. -/
def register (c : Core) (request : RegisterRequest) : Core :=
  { c with
    exportedServices := c.exportedServices.insert request.serviceId
      ⟨⟨request.serviceId, Sessions.empty⟩, c.created⟩
    services := c.services ++ [c.created]
    listening := c.listening ++ [c.created]
    created := c.created + 1 }

/-- `Core::Unregister`. -/
def unregister (c : Core) (request : UnregisterRequest) : Except Fault (Bool × Core) := do
  if c.exportedServices.lookup request.serviceId |>.isNone then
    let c ← c.shutdown
    return (false, c)
  else
    let c ← c.release request.serviceId
    return (true, c)

/-- `Core::Forward`. -/
def forward (c : Core) (request : ForwardRequest) (connects : Bool) (sock : Nat) : Except Fault (Bool × Core) :=
  match c.localServices.lookup request.serviceId with
  | some service => do
      let (done, service) ← service.forward request connects sock
      let c := { c with localServices := c.localServices.insert request.serviceId service }
      if !done then
        let c ← c.shutdown
        return (false, c)
      else return (true, c)
  | none =>
      match c.exportedServices.lookup request.serviceId with
      | some info => do
          let (done, exported) ← info.exported.forward request
          let c := { c with exportedServices := c.exportedServices.insert request.serviceId { info with exported } }
          if !done then
            let c ← c.shutdown
            return (false, c)
          else return (true, c)
      | none => return (false, c)

/-- A client connects to an exported service. -/
def connect (c : Core) (id : Int32) (sock : Nat) (session : Int32) : Except Fault Core :=
  match c.exportedServices.lookup id with
  | none => .error .outOfBounds
  | some info => do
      let exported ← info.exported.connect sock session
      return { c with exportedServices := c.exportedServices.insert id { info with exported } }

/-- `ExportedService::Read`. -/
def clientRead (c : Core) (id : Int32) (sock : Nat) (data : Bytes) : Except Fault (Core × List ForwardRequest) :=
  match c.exportedServices.lookup id with
  | none => .error .outOfBounds
  | some info => do
      let (sessions, requests) ← info.exported.sessions.read info.exported.serviceId sock data
      let info := { info with exported := { info.exported with sessions } }
      return ({ c with exportedServices := c.exportedServices.insert id info }, requests)

/-- `LocalService::Read`. -/
def localRead (c : Core) (id : Int32) (sock : Nat) (data : Bytes) : Except Fault (Core × List ForwardRequest) :=
  match c.localServices.lookup id with
  | none => .error .outOfBounds
  | some service => do
      let (sessions, requests) ← service.sessions.read service.serviceId sock data
      return ({ c with localServices := c.localServices.insert id { service with sessions } }, requests)

/-- A call of the peer interface. -/
def receive (c : Core) (request : Request) (connects : Bool) (sock : Nat) : Except Fault (Bool × Core) :=
  match request with
  | .register request => .ok (true, c.register request)
  | .unregister request => c.unregister request
  | .forward request => c.forward request connects sock

/-! What a forward request can do -/

section

variable {c : Core} {request : ForwardRequest} {connects : Bool} {sock : Nat}

/-- It goes to the connection of its session, -/
theorem forward_open {service : LocalService} {found : Nat} {written : Bytes}
    (hservice : c.localServices.lookup request.serviceId = some service) (hid : service.serviceId = request.serviceId)
    (hfound : service.sessions.socket request.sessionId = some found)
    (hwritten : service.sessions.writers.lookup found = some written) (hdata : 0 < request.buffer.length) :
    ∃ sessions, sessions.sockets = service.sessions.sockets ∧
      (∀ other, sessions.writers.lookup other =
        if other = found then some (written ++ request.buffer) else service.sessions.writers.lookup other) ∧
      c.forward request connects sock =
        .ok (true, { c with localServices := c.localServices.insert request.serviceId { service with sessions } }) := by
  obtain ⟨sessions, hwrite, hsockets, hwriters⟩ := Sessions.write_ok hfound hwritten hdata
  refine ⟨sessions, hsockets, hwriters, ?_⟩
  have hne : ¬service.sessions.socket request.sessionId = none := by
    rw [hfound]
    exact Option.some_ne_none found
  simp only [forward, hservice, LocalService.forward, check_ok hid.symm, dif_neg hne, hwrite, bind, Except.bind]
  rfl

/-- or to a new connection, -/
theorem forward_new {service : LocalService}
    (hservice : c.localServices.lookup request.serviceId = some service) (hid : service.serviceId = request.serviceId)
    (hnone : service.sessions.socket request.sessionId = none) (hsock : service.sessions.session sock = none)
    (hdata : 0 < request.buffer.length) :
    ∃ sessions, sessions.sockets = (service.sessions.add sock request.sessionId hsock hnone).sockets ∧
      (∀ other, sessions.writers.lookup other =
        if other = sock then some request.buffer else service.sessions.writers.lookup other) ∧
      c.forward request true sock =
        .ok (true, { c with localServices := c.localServices.insert request.serviceId { service with sessions } }) := by
  have hadded : (service.sessions.add sock request.sessionId hsock hnone).socket request.sessionId = some sock :=
    (Sessions.socket_add ..).trans (if_pos rfl)
  have hempty : (service.sessions.add sock request.sessionId hsock hnone).writers.lookup sock = some [] :=
    (Sessions.writers_add ..).trans (if_pos rfl)
  obtain ⟨sessions, hwrite, hsockets, hwriters⟩ := Sessions.write_ok hadded hempty hdata
  refine ⟨sessions, hsockets, fun other => ?_, ?_⟩
  · rw [hwriters, Sessions.writers_add, List.nil_append]
    split <;> rfl
  · simp only [forward, hservice, LocalService.forward, check_ok hid.symm, dif_pos hnone, dif_pos hsock, hwrite,
      Bool.not_true, Bool.false_eq_true, if_false, bind, Except.bind]
    rfl

/-- which must be made; -/
theorem forward_refused {service : LocalService}
    (hservice : c.localServices.lookup request.serviceId = some service) (hid : service.serviceId = request.serviceId)
    (hnone : service.sessions.socket request.sessionId = none) :
    c.forward request false sock =
      (shutdown { c with localServices := c.localServices.insert request.serviceId service }).map (Prod.mk false) := by
  simp only [forward, hservice, LocalService.forward, check_ok hid.symm, dif_pos hnone, Bool.not_false, if_true, bind,
    Except.bind, pure, Except.pure]
  cases shutdown { c with localServices := c.localServices.insert request.serviceId service } <;> rfl

/-- or to the client that has its session; -/
theorem forward_client {info : ExportedServiceInfo} {found : Nat}
    (hlocal : c.localServices.lookup request.serviceId = none)
    (hinfo : c.exportedServices.lookup request.serviceId = some info)
    (hid : info.exported.serviceId = request.serviceId)
    (hfound : info.exported.sessions.socket request.sessionId = some found) (hdata : 0 < request.buffer.length) :
    ∃ sessions, sessions.sockets = info.exported.sessions.sockets ∧
      c.forward request connects sock =
        .ok (true, { c with
          exportedServices := c.exportedServices.insert request.serviceId
            { info with exported := { info.exported with sessions } } }) := by
  obtain ⟨written, hwritten⟩ := Sessions.exists_writer hfound
  obtain ⟨sessions, hwrite, hsockets, -⟩ := Sessions.write_ok hfound hwritten hdata
  refine ⟨sessions, hsockets, ?_⟩
  have hne : ¬info.exported.sessions.socket request.sessionId = none := by
    rw [hfound]
    exact Option.some_ne_none found
  simp only [forward, hlocal, hinfo, ExportedService.forward, check_ok hid.symm, if_neg hne, hwrite, bind, Except.bind]
  rfl

/-- and a client that has gone is the end of the core. -/
theorem forward_gone {info : ExportedServiceInfo} (hlocal : c.localServices.lookup request.serviceId = none)
    (hinfo : c.exportedServices.lookup request.serviceId = some info)
    (hid : info.exported.serviceId = request.serviceId)
    (hnone : info.exported.sessions.socket request.sessionId = none) :
    c.forward request connects sock =
      (shutdown { c with exportedServices := c.exportedServices.insert request.serviceId info }).map
        (Prod.mk false) := by
  simp only [forward, hlocal, hinfo, ExportedService.forward, check_ok hid.symm, if_pos hnone, Bool.not_false, if_true,
    bind, Except.bind, pure, Except.pure]
  cases shutdown { c with exportedServices := c.exportedServices.insert request.serviceId info } <;> rfl

theorem forward_unknown (hlocal : c.localServices.lookup request.serviceId = none)
    (hinfo : c.exportedServices.lookup request.serviceId = none) :
    c.forward request connects sock = .ok (false, c) := by
  simp only [forward, hlocal, hinfo]
  rfl

end

end Core

end Thebends.Btunnel
