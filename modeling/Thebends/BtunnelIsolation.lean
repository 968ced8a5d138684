import Thebends.BtunnelTunnel

/-! How far the end of one session reaches. A client or a local server that closes its connection takes
nothing else with it; but a message that crosses with the end of its session shuts the whole core down, a
session with the id zero cannot be closed, and a system call that fails ends the process with all its sessions. -/

namespace Thebends.Btunnel

open LibExcept LibMap LibRun Ynet

/-! ### Each operation of a core -/

namespace Core

/-- The services have the ids under which they are kept. -/
structure Sound (c : Core) : Prop where
  exported : ∀ id info, c.exportedServices.lookup id = some info → info.exported.serviceId = id
  locals : ∀ id service, c.localServices.lookup id = some service → service.serviceId = id

theorem Sound.insert_exported {c : Core} (h : c.Sound) {id : Int32} {info : ExportedServiceInfo}
    (hid : info.exported.serviceId = id) :
    Sound { c with exportedServices := c.exportedServices.insert id info } :=
  ⟨Map.forall_insert h.exported hid, h.locals⟩

theorem Sound.insert_local {c : Core} (h : c.Sound) {id : Int32} {service : LocalService}
    (hid : service.serviceId = id) : Sound { c with localServices := c.localServices.insert id service } :=
  ⟨h.exported, Map.forall_insert h.locals hid⟩

theorem Sound.register {c : Core} (h : c.Sound) (request : RegisterRequest) : (c.register request).Sound := by
  have hinsert : Sound { c with
      exportedServices := c.exportedServices.insert request.serviceId
        ⟨⟨request.serviceId, Sessions.empty⟩, c.created⟩ } := h.insert_exported rfl
  exact ⟨hinsert.exported, hinsert.locals⟩

theorem isShutdown_shutdown {c c' : Core} (h : c.shutdown = .ok c') : c'.isShutdown = true := by
  obtain ⟨c₁, -, h⟩ := bind_eq_ok h
  cases h
  rfl

end Core

/-- No message unregisters a service, and every forward request has some bytes. -/
def Packet.Sound (packet : Packet) : Prop :=
  match packet.request with
  | .register _ => True
  | .unregister _ => False
  | .forward request => 0 < request.buffer.length

namespace System

structure Sound (s : System) : Prop where
  cores : ∀ side, (s.core side).Sound
  packets : ∀ side, ∀ packet ∈ s.channel side, packet.Sound

/-- Neither core has called `Shutdown`. -/
def Up (s : System) : Prop := ∀ side, (s.core side).isShutdown = false

/-- No assertion has failed, and neither core has called `Shutdown`. -/
def Running : Except Fault System → Prop
  | .ok s => s.Up
  | .error _ => False

/-- What goes well: no session with the id zero ends, no bytes arrive for a client that has gone, and a
connection to a local server can be made when there is none. -/
def Harmless (s : System) (side : Side) : Event → Prop
  | .connect _ _ _ => True
  | .clientRead service sock data =>
      data = [] → ∀ info session, (s.core side).exportedServices.lookup service = some info →
        info.exported.sessions.session sock = some session → session > 0
  | .localRead service sock data =>
      data = [] → ∀ found session, (s.core side).localServices.lookup service = some found →
        found.sessions.session sock = some session → session > 0
  | .deliver connects _ =>
      ∀ packet rest request, s.channel side.other = packet :: rest → packet.request = .forward request →
        match (s.core side).localServices.lookup request.serviceId with
        | some service => service.sessions.socket request.sessionId = none → connects = true
        | none => ∀ info, (s.core side).exportedServices.lookup request.serviceId = some info →
            info.exported.sessions.socket request.sessionId ≠ none

/-- The outcome of a step that goes well. -/
def Fine (outcome : Except Fault System) : Prop := ∃ s, outcome = .ok s ∧ s.Up ∧ s.Sound

theorem Fine.running {outcome : Except Fault System} (h : Fine outcome) : Running outcome := by
  obtain ⟨s, rfl, hup, -⟩ := h
  exact hup

/-- A step that changes one core, and appends nothing but sound messages. -/
theorem fine_setCore {s s' : System} (hsound : s.Sound) (hup : s.Up) {side : Side} {core : Core}
    (hcores : s'.core = s.core)
    (hpackets : ∀ other, ∀ packet ∈ s'.channel other, packet ∈ s.channel other ∨ packet.Sound)
    (hcore : core.Sound) (hshutdown : core.isShutdown = false) : Fine (.ok (s'.setCore side core)) := by
  have hlookup : ∀ other, (s'.setCore side core).core other = if other = side then core else s.core other := by
    intro other
    rw [core_setCore, Function.update_apply, hcores]
  refine ⟨_, rfl, fun other => ?_, fun other => ?_, fun other packet hpacket => ?_⟩
  · rw [hlookup]
    split
    · exact hshutdown
    · exact hup other
  · rw [hlookup]
    split
    · exact hcore
    · exact hsound.cores other
  · exact (hpackets other packet hpacket).elim (hsound.packets other packet) id

section

variable {s : System} {side : Side} {id session : Int32} {sock : Nat}

theorem connect_fine (hsound : s.Sound) (hup : s.Up) (henabled : s.Enabled side (.connect id sock session)) :
    Fine (s.step side (.connect id sock session)) := by
  obtain ⟨⟨hfresh, -⟩, -, -, info, hinfo, hsession⟩ := henabled
  have hid := (hsound.cores side).exported id info hinfo
  rw [step_connect hinfo (hfresh id info hinfo) hsession]
  refine fine_setCore hsound hup rfl (fun other packet hpacket => Or.inl hpacket) ?_ (hup side)
  exact Core.Sound.insert_exported (hsound.cores side) hid

/-- What is appended to a channel. -/
theorem mem_send {requests : List ForwardRequest} {origin : Option Origin} {other : Side} {packet : Packet}
    (h : packet ∈ (s.send side requests origin).channel other) :
    packet ∈ s.channel other ∨ ∃ request ∈ requests, packet.request = .forward request := by
  rw [channel_send, Function.update_apply] at h
  split at h
  case isTrue hother =>
    rcases List.mem_append.mp h with hold | hnew
    · exact Or.inl (hother ▸ hold)
    · obtain ⟨request, hrequest, rfl⟩ := List.mem_map.mp hnew
      exact Or.inr ⟨request, hrequest, rfl⟩
  case isFalse => exact Or.inl h

theorem sound_send {serviceId : Int32} {data : Bytes} {origin : Option Origin} (hdata : data ≠ []) {other : Side}
    {packet : Packet} (h : packet ∈ (s.send side [⟨serviceId, session, data⟩] origin).channel other) :
    packet ∈ s.channel other ∨ packet.Sound := by
  refine (mem_send h).imp_right ?_
  rintro ⟨request, hrequest, hpacket⟩
  rw [List.mem_singleton.mp hrequest] at hpacket
  simp only [Packet.Sound, hpacket]
  exact List.length_pos_iff.mpr hdata

/-- The end of a session, whose id has to be positive. -/
theorem close_fine {sessions : Sessions} (hsession : sessions.session sock = some session) {after : Sessions → System}
    (hafter : ∀ sessions, Fine (.ok (after sessions))) :
    (Running ((sessions.close sock).map after) → session > 0) ∧
      (session > 0 → Fine ((sessions.close sock).map after)) := by
  by_cases hpos : session > 0
  · obtain ⟨sessions', hclose, -⟩ := Sessions.close_ok hsession hpos
    rw [hclose]
    exact ⟨fun _ => hpos, fun _ => hafter sessions'⟩
  · rw [Sessions.close_assertion hsession hpos]
    exact ⟨fun hrunning => hrunning.elim, fun h => absurd h hpos⟩

theorem clientRead_fine (hsound : s.Sound) (hup : s.Up) {data : Bytes}
    (henabled : s.Enabled side (.clientRead id sock data)) :
    (Running (s.step side (.clientRead id sock data)) → s.Harmless side (.clientRead id sock data)) ∧
      (s.Harmless side (.clientRead id sock data) → Fine (s.step side (.clientRead id sock data))) := by
  obtain ⟨-, info, hinfo, hopen⟩ := henabled
  obtain ⟨session, hsession⟩ := Option.isSome_iff_exists.mp hopen
  have hid := (hsound.cores side).exported id info hinfo
  by_cases hdata : data = []
  · subst hdata
    have hharmless : s.Harmless side (.clientRead id sock []) ↔ session > 0 := by
      constructor
      · exact fun h => h rfl info session hinfo hsession
      · intro hpos _ info' session' hinfo' hsession'
        cases hinfo.symm.trans hinfo'
        cases hsession.symm.trans hsession'
        exact hpos
    rw [step_clientEnd hinfo hsession, hharmless]
    refine close_fine hsession fun sessions => ?_
    refine fine_setCore hsound hup rfl (fun other packet hpacket => Or.inl hpacket) ?_ (hup side)
    exact Core.Sound.insert_exported (hsound.cores side) hid
  · rw [step_clientRead hinfo hsession hdata]
    refine ⟨fun _ hnil => absurd hnil hdata, fun _ => fine_setCore hsound hup ?_ ?_ ?_ (hup side)⟩
    · rw [core_send, core_extendClient]
    · intro other packet hpacket
      have hsent := sound_send hdata hpacket
      rwa [channel_extendClient] at hsent
    · exact Core.Sound.insert_exported (hsound.cores side) hid

theorem localRead_fine (hsound : s.Sound) (hup : s.Up) {data : Bytes}
    (henabled : s.Enabled side (.localRead id sock data)) :
    (Running (s.step side (.localRead id sock data)) → s.Harmless side (.localRead id sock data)) ∧
      (s.Harmless side (.localRead id sock data) → Fine (s.step side (.localRead id sock data))) := by
  obtain ⟨-, service, hservice, hopen⟩ := henabled
  obtain ⟨session, hsession⟩ := Option.isSome_iff_exists.mp hopen
  have hid := (hsound.cores side).locals id service hservice
  by_cases hdata : data = []
  · subst hdata
    have hharmless : s.Harmless side (.localRead id sock []) ↔ session > 0 := by
      constructor
      · exact fun h => h rfl service session hservice hsession
      · intro hpos _ found session' hfound hsession'
        cases hservice.symm.trans hfound
        cases hsession.symm.trans hsession'
        exact hpos
    rw [step_localEnd hservice hsession, hharmless]
    refine close_fine hsession fun sessions => ?_
    refine fine_setCore hsound hup rfl (fun other packet hpacket => Or.inl hpacket) ?_ (hup side)
    exact Core.Sound.insert_local (hsound.cores side) hid
  · rw [step_localRead hservice hsession hdata]
    refine ⟨fun _ hnil => absurd hnil hdata,
      fun _ => fine_setCore hsound hup rfl (fun other packet hpacket => sound_send hdata hpacket) ?_ (hup side)⟩
    exact Core.Sound.insert_local (hsound.cores side) hid

theorem not_running_shutdown {s' : System} {c : Core} :
    ¬Running ((c.shutdown.map (Prod.mk false)).map fun answer => s'.setCore side answer.2) := by
  cases hshutdown : c.shutdown with
  | error fault => exact id
  | ok core =>
      intro hrunning
      have hside := hrunning side
      simp only [core_setCore, Function.update_self] at hside
      rw [Core.isShutdown_shutdown hshutdown] at hside
      cases hside

/-- A message that does not shut the core down leaves everything sound. -/
theorem deliver_fine_of_ok (hsound : s.Sound) (hup : s.Up) {packet : Packet} {rest : List Packet}
    (hchannel : s.channel side.other = packet :: rest) {connects answer : Bool} {core : Core}
    (hreceive : (s.core side).receive packet.request connects sock = .ok (answer, core))
    (hcore : core.Sound) (hshutdown : core.isShutdown = false) : Fine (s.step side (.deliver connects sock)) := by
  rw [step_deliver hchannel, hreceive]
  refine fine_setCore hsound hup (by simp) (fun other found hfound => Or.inl ?_) hcore hshutdown
  simp only [channel_take, channel_extendConnection, Function.update_apply] at hfound
  split at hfound
  case isTrue hother =>
    rw [hother, hchannel]
    exact List.mem_cons_of_mem packet hfound
  case isFalse => exact hfound

theorem forward_local_fine (hsound : s.Sound) (hup : s.Up) {packet : Packet} {rest : List Packet}
    (hchannel : s.channel side.other = packet :: rest) {request : ForwardRequest}
    (hrequest : packet.request = .forward request) (hdata : 0 < request.buffer.length) {service : LocalService}
    (hservice : (s.core side).localServices.lookup request.serviceId = some service)
    (hfresh : service.sessions.session sock = none) {connects : Bool} :
    (Running (s.step side (.deliver connects sock)) →
        service.sessions.socket request.sessionId = none → connects = true) ∧
      ((service.sessions.socket request.sessionId = none → connects = true) →
        Fine (s.step side (.deliver connects sock))) := by
  have hid := (hsound.cores side).locals _ service hservice
  have hreceive : ∀ connects : Bool, (s.core side).receive packet.request connects sock =
      (s.core side).forward request connects sock := fun connects => by rw [hrequest, Core.receive]
  cases hsocket : service.sessions.socket request.sessionId with
  | some found =>
      obtain ⟨written, hwritten⟩ := Sessions.exists_writer hsocket
      obtain ⟨sessions, -, -, hforward⟩ := Core.forward_open hservice hid hsocket hwritten hdata
      refine ⟨fun _ hnone => (Option.some_ne_none found hnone).elim, fun _ => ?_⟩
      refine deliver_fine_of_ok hsound hup hchannel ((hreceive connects).trans hforward) ?_ (hup side)
      exact Core.Sound.insert_local (hsound.cores side) hid
  | none =>
      cases connects with
      | true =>
          obtain ⟨sessions, -, -, hforward⟩ := Core.forward_new hservice hid hsocket hfresh hdata
          refine ⟨fun _ _ => rfl, fun _ => ?_⟩
          refine deliver_fine_of_ok hsound hup hchannel ((hreceive true).trans hforward) ?_ (hup side)
          exact Core.Sound.insert_local (hsound.cores side) hid
      | false =>
          refine ⟨fun hrunning => ?_, fun hharmless => Bool.noConfusion (hharmless rfl)⟩
          rw [step_deliver hchannel, hreceive, Core.forward_refused hservice hid hsocket] at hrunning
          exact absurd hrunning not_running_shutdown

theorem forward_exported_fine (hsound : s.Sound) (hup : s.Up) {packet : Packet} {rest : List Packet}
    (hchannel : s.channel side.other = packet :: rest) {request : ForwardRequest}
    (hrequest : packet.request = .forward request) (hdata : 0 < request.buffer.length)
    (hlocal : (s.core side).localServices.lookup request.serviceId = none) {info : ExportedServiceInfo}
    (hinfo : (s.core side).exportedServices.lookup request.serviceId = some info) {connects : Bool} :
    (Running (s.step side (.deliver connects sock)) → info.exported.sessions.socket request.sessionId ≠ none) ∧
      (info.exported.sessions.socket request.sessionId ≠ none → Fine (s.step side (.deliver connects sock))) := by
  have hid := (hsound.cores side).exported _ info hinfo
  have hreceive : (s.core side).receive packet.request connects sock =
      (s.core side).forward request connects sock := by rw [hrequest, Core.receive]
  cases hsocket : info.exported.sessions.socket request.sessionId with
  | some found =>
      obtain ⟨sessions, -, hforward⟩ := Core.forward_client hlocal hinfo hid hsocket hdata
      refine ⟨fun _ => Option.some_ne_none found, fun _ => ?_⟩
      refine deliver_fine_of_ok hsound hup hchannel (hreceive.trans hforward) ?_ (hup side)
      exact Core.Sound.insert_exported (hsound.cores side) hid
  | none =>
      refine ⟨fun hrunning => ?_, fun hsome => absurd rfl hsome⟩
      rw [step_deliver hchannel, hreceive, Core.forward_gone hlocal hinfo hid hsocket] at hrunning
      exact absurd hrunning not_running_shutdown

theorem harmless_forward {packet : Packet} {rest : List Packet} (hchannel : s.channel side.other = packet :: rest)
    {request : ForwardRequest} (hrequest : packet.request = .forward request) {connects : Bool} :
    s.Harmless side (.deliver connects sock) ↔
      match (s.core side).localServices.lookup request.serviceId with
      | some service => service.sessions.socket request.sessionId = none → connects = true
      | none => ∀ info, (s.core side).exportedServices.lookup request.serviceId = some info →
          info.exported.sessions.socket request.sessionId ≠ none := by
  refine ⟨fun h => h packet rest request hchannel hrequest, fun h other rest' request' hother hrequest' => ?_⟩
  cases hchannel.symm.trans hother
  cases hrequest.symm.trans hrequest'
  exact h

theorem deliver_fine (hsound : s.Sound) (hup : s.Up) {connects : Bool}
    (henabled : s.Enabled side (.deliver connects sock)) :
    (Running (s.step side (.deliver connects sock)) → s.Harmless side (.deliver connects sock)) ∧
      (s.Harmless side (.deliver connects sock) → Fine (s.step side (.deliver connects sock))) := by
  obtain ⟨⟨-, hfresh⟩, hne⟩ := henabled
  obtain ⟨packet, rest, hchannel⟩ := List.exists_cons_of_length_pos (Nat.pos_of_ne_zero hne)
  have hpacket := hsound.packets side.other packet (hchannel ▸ List.mem_cons_self)
  cases hrequest : packet.request with
  | register request =>
      constructor
      · intro _ other rest' request' hother hrequest'
        cases hchannel.symm.trans hother
        rw [hrequest] at hrequest'
        cases hrequest'
      · intro _
        have hreceive : (s.core side).receive packet.request connects sock =
            .ok (true, (s.core side).register request) := by
          rw [hrequest, Core.receive]
        exact deliver_fine_of_ok hsound hup hchannel hreceive ((hsound.cores side).register request) (hup side)
  | unregister request =>
      simp only [Packet.Sound, hrequest] at hpacket
  | forward request =>
      simp only [Packet.Sound, hrequest] at hpacket
      rw [harmless_forward hchannel hrequest]
      cases hlocal : (s.core side).localServices.lookup request.serviceId with
      | some service =>
          exact forward_local_fine hsound hup hchannel hrequest hpacket hlocal (hfresh _ service hlocal)
      | none =>
          cases hinfo : (s.core side).exportedServices.lookup request.serviceId with
          | some info =>
              obtain ⟨hfrom, hto⟩ := forward_exported_fine hsound hup hchannel hrequest hpacket hlocal hinfo
              constructor
              · intro hrunning info' hinfo'
                cases hinfo'
                exact hfrom hrunning
              · exact fun hharmless => hto (hharmless info rfl)
          | none =>
              have hreceive : (s.core side).receive packet.request connects sock = .ok (false, s.core side) := by
                rw [hrequest, Core.receive, Core.forward_unknown hlocal hinfo]
              constructor
              · intro _ info' hinfo'
                cases hinfo'
              · exact fun _ => deliver_fine_of_ok hsound hup hchannel hreceive (hsound.cores side) (hup side)

theorem step_fine (hsound : s.Sound) (hup : s.Up) {event : Event} (henabled : s.Enabled side event) :
    (Running (s.step side event) → s.Harmless side event) ∧ (s.Harmless side event → Fine (s.step side event)) := by
  cases event with
  | connect id sock session => exact ⟨fun _ => trivial, fun _ => connect_fine hsound hup henabled⟩
  | clientRead id sock data => exact clientRead_fine hsound hup henabled
  | localRead id sock data => exact localRead_fine hsound hup henabled
  | deliver connects sock => exact deliver_fine hsound hup henabled

end

/-! ### Runs -/

/-- Something happens at one side, as long as no assertion has failed. -/
def Happens (before : Except Fault System) (label : Side × Event) (after : Except Fault System) : Prop :=
  ∃ s, before = .ok s ∧ s.Enabled label.1 label.2 ∧ after = s.step label.1 label.2

theorem sound_start (services : Side → List RegisterRequest) : (start services).Sound := by
  refine ⟨fun side => ⟨fun id info h => ?_, fun id service h => ?_⟩, fun side packet hpacket => ?_⟩
  · cases h
  · rw [Core.lookup_new h]
  · obtain ⟨request, -, rfl⟩ := List.mem_map.mp hpacket
    trivial

/-- A closed connection takes one session of a service with it, and no other. -/
structure LosesOnly (sessions sessions' : Sessions) (sock : Nat) : Prop where
  lost : sessions'.session sock = none
  others : ∀ session, sessions.session sock ≠ some session → sessions'.socket session = sessions.socket session
  writers : ∀ other, other ≠ sock → sessions'.writers.lookup other = sessions.writers.lookup other

theorem losesOnly_close {sessions sessions' : Sessions} {sock : Nat} {session : Int32}
    (hsession : sessions.session sock = some session) (h : sessions.close sock = .ok sessions') :
    LosesOnly sessions sessions' sock := by
  by_cases hpos : session > 0
  swap
  · rw [Sessions.close_assertion hsession hpos] at h
    cases h
  obtain ⟨closed, hclose, hsocket, hwriters⟩ := Sessions.close_ok hsession hpos
  cases hclose.symm.trans h
  refine ⟨?_, fun other hother => ?_, fun other hother => ?_⟩
  · by_contra hne
    obtain ⟨found, hfound⟩ := Option.ne_none_iff_exists'.mp hne
    have hback := Sessions.session_eq_some.mp hfound
    rw [hsocket] at hback
    split at hback
    · cases hback
    case isFalse hother =>
      have hsame := Sessions.session_eq_some.mpr hback
      exact hother (Option.some.inj (hsame.symm.trans hsession))
  · have hne : other ≠ session := fun heq => hother (heq ▸ hsession)
    rw [hsocket, if_neg hne]
  · rw [hwriters, if_neg hother]

/-- A stream has ended, of a client or of a local server. -/
def Ends : Event → Prop
  | .clientRead _ _ data => data = []
  | .localRead _ _ data => data = []
  | _ => False

/-- What the end of a stream may change: the sessions of its service. -/
structure EndsOnly (s s' : System) (side : Side) (event : Event) : Prop where
  other : s'.core side.other = s.core side.other
  channel : s'.channel = s.channel
  client : ∀ id sock data, event = .clientRead id sock data →
    (s'.core side).localServices = (s.core side).localServices ∧
      (∀ other, other ≠ id → (s'.core side).exportedServices.lookup other = (s.core side).exportedServices.lookup other) ∧
      ∃ info info', (s.core side).exportedServices.lookup id = some info ∧
        (s'.core side).exportedServices.lookup id = some info' ∧
        LosesOnly info.exported.sessions info'.exported.sessions sock
  server : ∀ id sock data, event = .localRead id sock data →
    (s'.core side).exportedServices = (s.core side).exportedServices ∧
      (∀ other, other ≠ id → (s'.core side).localServices.lookup other = (s.core side).localServices.lookup other) ∧
      ∃ service service', (s.core side).localServices.lookup id = some service ∧
        (s'.core side).localServices.lookup id = some service' ∧
        LosesOnly service.sessions service'.sessions sock

theorem endsOnly_step {s s' : System} {side : Side} {event : Event} (hends : Ends event)
    (henabled : s.Enabled side event) (h : s.step side event = .ok s') : EndsOnly s s' side event := by
  have hother : ∀ core, (s.setCore side core).core side.other = s.core side.other :=
    fun core => Function.update_of_ne side.other_ne ..
  have hside : ∀ core, (s.setCore side core).core side = core := fun core => Function.update_self ..
  cases event with
  | clientRead id sock data =>
      subst hends
      obtain ⟨-, info, hinfo, hopen⟩ := henabled
      obtain ⟨session, hsession⟩ := Option.isSome_iff_exists.mp hopen
      rw [step_clientEnd hinfo hsession] at h
      cases hclose : info.exported.sessions.close sock with
      | error fault =>
          rw [hclose] at h
          cases h
      | ok sessions =>
          rw [hclose] at h
          cases h
          refine ⟨hother _, rfl, fun id' sock' data' heq => ?_, fun id' sock' data' heq => Event.noConfusion heq⟩
          cases heq
          rw [hside]
          refine ⟨rfl, fun other hne => AList.lookup_insert_ne hne, info, _, hinfo, AList.lookup_insert _, ?_⟩
          exact losesOnly_close hsession hclose
  | localRead id sock data =>
      subst hends
      obtain ⟨-, service, hservice, hopen⟩ := henabled
      obtain ⟨session, hsession⟩ := Option.isSome_iff_exists.mp hopen
      rw [step_localEnd hservice hsession] at h
      cases hclose : service.sessions.close sock with
      | error fault =>
          rw [hclose] at h
          cases h
      | ok sessions =>
          rw [hclose] at h
          cases h
          refine ⟨hother _, rfl, fun id' sock' data' heq => Event.noConfusion heq, fun id' sock' data' heq => ?_⟩
          cases heq
          rw [hside]
          refine ⟨rfl, fun other hne => AList.lookup_insert_ne hne, service, _, hservice, AList.lookup_insert _, ?_⟩
          exact losesOnly_close hsession hclose
  | connect => exact hends.elim
  | deliver => exact hends.elim

end System

/-! ### System calls that fail -/

/-- The system calls on behalf of a session after which the process ends, where they fail: in `Accept` and in
`SetNonBlocking`, in `Read` of both services, and in `LocalService::Forward` and `TryWrite`. -/
inductive SystemCall
  | accept
  | fcntl
  | read (sock : Nat)
  | socket
  | write
  deriving DecidableEq

/-- What `err` says. A `write` to a connection that is closed may also end the process with a signal. -/
def SystemCall.message : SystemCall → String
  | .accept => "accept"
  | .fcntl => "fcntl"
  | .read sock => s!"read() ({sock})"
  | .socket => "socket"
  | .write => "write"

/-- What is done at a side: an event, or the writer of a connection is called back with what it has buffered. -/
inductive Activity
  | event (event : Event)
  | clientDrain (service : Int32) (sock : Nat)
  | localDrain (service : Int32) (sock : Nat)

namespace System

/-- When it can be done. A writer is called back only after something was written to it. -/
def Able (s : System) (side : Side) : Activity → Prop
  | .event event => s.Enabled side event
  | .clientDrain service sock => ∃ info written, (s.core side).exportedServices.lookup service = some info ∧
      info.exported.sessions.writers.lookup sock = some written ∧ written ≠ []
  | .localDrain service sock => ∃ found written, (s.core side).localServices.lookup service = some found ∧
      found.sessions.writers.lookup sock = some written ∧ written ≠ []

/-- The system calls for the next message: `LocalService::Forward` makes a connection where the session has none,
and both services write to the connection of the session, or to what is buffered for it. -/
def deliverCalls (s : System) (side : Side) (connects : Bool) : List SystemCall :=
  match s.channel side.other with
  | ⟨.forward request, _⟩ :: _ =>
      match (s.core side).localServices.lookup request.serviceId with
      | some service =>
          if service.sessions.socket request.sessionId = none then .socket :: if connects then [.write] else []
          else [.write]
      | none =>
          match (s.core side).exportedServices.lookup request.serviceId with
          | some info => if info.exported.sessions.socket request.sessionId = none then [] else [.write]
          | none => []
  | _ => []

/-- The system calls that something makes. -/
def calls (s : System) (side : Side) : Activity → List SystemCall
  | .event (.connect _ _ _) => [.accept, .fcntl]
  | .event (.clientRead _ sock _) => [.read sock]
  | .event (.localRead _ sock _) => [.read sock]
  | .event (.deliver connects _) => s.deliverCalls side connects
  | .clientDrain _ _ => [.write]
  | .localDrain _ _ => [.write]

/-- What it does when they succeed. A writer that is called back changes nothing here, since it is known by
all that was written to it. -/
def perform (s : System) (side : Side) : Activity → Except Fault System
  | .event event => s.step side event
  | .clientDrain _ _ => .ok s
  | .localDrain _ _ => .ok s

end System

/-- What is done at which side, and the system call that fails then, if one does. -/
structure Occurrence where
  side : Side
  activity : Activity
  failing : Option SystemCall

namespace System

/-- A failing system call ends the process, and every session with it. -/
def outcome (s : System) (occurrence : Occurrence) : Except Fault System :=
  match occurrence.failing with
  | none => s.perform occurrence.side occurrence.activity
  | some call => .error (.exit call.message)

/-- Something is done at one side, as long as no assertion has failed and no process has ended. -/
def Occurs (before : Except Fault System) (occurrence : Occurrence) (after : Except Fault System) : Prop :=
  ∃ s, before = .ok s ∧ s.Able occurrence.side occurrence.activity ∧
    (∀ call, occurrence.failing = some call → call ∈ s.calls occurrence.side occurrence.activity) ∧
    after = s.outcome occurrence

/-- What occurs does no harm: no system call fails, and neither does the event. -/
def DoesNoHarm (before : Except Fault System) (occurrence : Occurrence) : Prop :=
  occurrence.failing = none ∧
    ∀ s event, before = .ok s → occurrence.activity = .event event → s.Harmless occurrence.side event

theorem outcome_fine {s : System} (hsound : s.Sound) (hup : s.Up) {occurrence : Occurrence}
    (hable : s.Able occurrence.side occurrence.activity) :
    (Running (s.outcome occurrence) → DoesNoHarm (.ok s) occurrence) ∧
      (DoesNoHarm (.ok s) occurrence → Fine (s.outcome occurrence)) := by
  obtain ⟨side, activity, failing⟩ := occurrence
  cases failing with
  | some call => exact ⟨fun hrunning => hrunning.elim, fun hharmless => absurd hharmless.1 (Option.some_ne_none call)⟩
  | none =>
      -- a writer that is called back leaves the system as it is
      have hdrain : ∀ activity, (∀ event, activity ≠ .event event) → s.perform side activity = .ok s →
          (Running (s.outcome ⟨side, activity, none⟩) → DoesNoHarm (.ok s) ⟨side, activity, none⟩) ∧
            (DoesNoHarm (.ok s) ⟨side, activity, none⟩ → Fine (s.outcome ⟨side, activity, none⟩)) :=
        fun activity hnot hsame => ⟨fun _ => ⟨rfl, fun _ event _ heq => absurd heq (hnot event)⟩,
          fun _ => ⟨s, hsame, hup, hsound⟩⟩
      cases activity with
      | clientDrain service sock => exact hdrain _ (fun _ => Activity.noConfusion) rfl
      | localDrain service sock => exact hdrain _ (fun _ => Activity.noConfusion) rfl
      | event event =>
          obtain ⟨hfrom, hto⟩ := step_fine hsound hup hable
          refine ⟨fun hrunning => ⟨rfl, fun s' event' hs' hevent => ?_⟩,
            fun hharmless => hto (hharmless.2 s event rfl rfl)⟩
          cases hs'
          cases hevent
          exact hfrom hrunning

/-- **No session takes a core down just when none does harm.** Neither core calls `Shutdown`, fails an assertion or
ends in a run if, and only if, all that occurs in it does no harm; and a connection that is closed takes only its
session with it. -/
theorem run_isolated_iff {services : Side → List RegisterRequest} {occurrences : List Occurrence}
    {outcome : Except Fault System} (h : Run Occurs (.ok (start services)) occurrences outcome) :
    ((∀ taken reached, taken <+: occurrences → Run Occurs (.ok (start services)) taken reached → Running reached) ↔
        Run (Restrict Occurs DoesNoHarm) (.ok (start services)) occurrences outcome) ∧
      ∀ s side event s', outcome = .ok s → Ends event → s.Enabled side event → s.step side event = .ok s' →
        EndsOnly s s' side event := by
  have hfun : ∀ before occurrence after other, Occurs before occurrence after → Occurs before occurrence other →
      after = other := by
    rintro before occurrence after other ⟨s, rfl, -, -, rfl⟩ ⟨s', hs', -, -, rfl⟩
    cases hs'
    rfl
  have hstep : ∀ before occurrence after, (∀ s, before = .ok s → s.Sound) → Running before →
      Occurs before occurrence after →
      (Running after ↔ DoesNoHarm before occurrence) ∧ (Running after → ∀ s, after = .ok s → s.Sound) := by
    rintro before occurrence after hsound hrunning ⟨s, rfl, hable, -, rfl⟩
    obtain ⟨hfrom, hto⟩ := outcome_fine (hsound s rfl) hrunning hable
    refine ⟨⟨hfrom, fun hharmless => (hto hharmless).running⟩, fun hafter s' hs' => ?_⟩
    obtain ⟨reached, hreached, -, hsound'⟩ := hto (hfrom hafter)
    cases hs'.symm.trans hreached
    exact hsound'
  refine ⟨Run.forall_iff_restrict hfun hstep (fun s hs => ?_) (fun side => rfl) h,
    fun s side event s' _ => endsOnly_step⟩
  cases hs
  exact sound_start services

end System

/-- An event for which all system calls succeed. -/
def Occurrence.ofEvent (label : Side × Event) : Occurrence := ⟨label.1, .event label.2, none⟩

namespace System

/-- What happens occurs without a failing system call. -/
theorem run_occurs {before after : Except Fault System} {labels : List (Side × Event)}
    (h : Run Happens before labels after) : Run Occurs before (labels.map .ofEvent) after := by
  induction h with
  | nil => exact Run.nil _
  | snoc hrun hlast ih =>
      obtain ⟨s, hs, henabled, hafter⟩ := hlast
      rw [List.map_append]
      exact Run.snoc ih ⟨s, hs, henabled, fun call hnone => absurd hnone.symm (Option.some_ne_none call), hafter⟩

theorem run_attempts {s s' : System} {labels : List (Side × Event)} (h : labels.foldlM attempt s = .ok s') :
    Run Happens (.ok s) labels (.ok s') := by
  induction labels generalizing s with
  | nil =>
      cases h
      exact Run.nil _
  | cons label labels ih =>
      rw [List.foldlM_cons] at h
      obtain ⟨middle, hfirst, hrest⟩ := bind_eq_ok h
      unfold attempt at hfirst
      split at hfirst
      case isTrue henabled => exact (Run.single ⟨s, rfl, henabled, hfirst.symm⟩).trans (ih hrest)
      case isFalse => cases hfirst

def announced : Side → List RegisterRequest
  | .left => [⟨7, [65], [66], [67]⟩]
  | .right => []

/-- A client connects to the service that the other side has announced, sends a byte, is answered, and goes; then
the local server closes its connection. -/
def comesAndGoes : List (Side × Event) :=
  [(.right, .deliver true 3), (.right, .connect 7 4 9), (.right, .clientRead 7 4 [97]), (.left, .deliver true 5),
    (.left, .localRead 7 5 [98]), (.right, .deliver true 6), (.right, .clientRead 7 4 []), (.left, .localRead 7 5 [])]

theorem run_isolated_iff_goes :
    ∃ outcome, Run Occurs (.ok (start announced)) (comesAndGoes.map .ofEvent) outcome ∧
      ((∀ taken reached, taken <+: comesAndGoes.map .ofEvent →
          Run Occurs (.ok (start announced)) taken reached → Running reached) ↔
        Run (Restrict Occurs DoesNoHarm) (.ok (start announced)) (comesAndGoes.map .ofEvent) outcome) ∧
      ∀ s side event s', outcome = .ok s → Ends event → s.Enabled side event → s.step side event = .ok s' →
        EndsOnly s s' side event := by
  have hok : (comesAndGoes.foldlM attempt (start announced)).isOk = true := by rfl
  cases hend : comesAndGoes.foldlM attempt (start announced) with
  | error fault =>
      rw [hend] at hok
      cases hok
  | ok s =>
      have hrun := run_occurs (run_attempts hend)
      exact ⟨.ok s, hrun, run_isolated_iff hrun⟩

/-- The client goes before its answer is delivered. -/
def crosses : List (Side × Event) :=
  [(.right, .deliver true 3), (.right, .connect 7 4 9), (.right, .clientRead 7 4 [97]), (.left, .deliver true 5),
    (.left, .localRead 7 5 [98]), (.right, .clientRead 7 4 []), (.right, .deliver true 6)]

/-- The answer of the local server crosses with the end of the client, and shuts the core down; no system call
fails. -/
theorem crossing_shuts_down : ¬∀ services occurrences outcome, Run Occurs (.ok (start services)) occurrences outcome →
    Running outcome := by
  intro h
  have hdown : (crosses.foldlM attempt (start announced)).map (fun s => (s.core .right).isShutdown) = .ok true := by rfl
  cases hend : crosses.foldlM attempt (start announced) with
  | error fault =>
      rw [hend] at hdown
      cases hdown
  | ok s =>
      rw [hend] at hdown
      have hup := h announced _ _ (run_occurs (run_attempts hend)) .right
      cases hup.symm.trans (Except.ok.inj hdown)

end System

end Thebends.Btunnel
