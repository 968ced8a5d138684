import Thebends.BtunnelCore
import Thebends.LibRun

/-! What a core has registered under the messages of its remote peer. A service object that no entry of
`exported_services_` leads to any more is never unregistered: this is what a second registration of an id
leaves behind. -/

namespace Thebends.Btunnel

open LibExcept LibMap LibRun Ynet

namespace Core

/-- A service object is reachable from `exported_services_`. -/
def Reachable (c : Core) (object : Nat) : Prop :=
  ∃ id info, c.exportedServices.lookup id = some info ∧ info.object = object

/-- What is registered with the manager, and what listens, are just the reachable services; and `Shutdown`
leaves nothing of either, as the destructor of the manager demands. -/
structure Tidy (c : Core) : Prop where
  registered : ∀ object, object ∈ c.services ↔ c.Reachable object
  listening : ∀ object, object ∈ c.listening ↔ c.Reachable object
  shutdown : ∃ c', c.shutdown = .ok c' ∧ c'.services = [] ∧ c'.listening = []

/-- What holds under all messages: no two ids lead to one object, every object they lead to is registered,
and no client has connected. -/
structure Kept (c : Core) : Prop where
  same : c.listening = c.services
  nodup : c.services.Nodup
  created : ∀ object ∈ c.services, object < c.created
  registered : ∀ id info, c.exportedServices.lookup id = some info → info.object ∈ c.services
  injective : ∀ id info other info', c.exportedServices.lookup id = some info →
    c.exportedServices.lookup other = some info' → info.object = info'.object → id = other
  idle : ∀ id info, c.exportedServices.lookup id = some info → info.exported = ⟨id, Sessions.empty⟩
  locals : ∀ id service, c.localServices.lookup id = some service → service.serviceId = id

theorem kept_new (services : List Int32) : (new services).Kept := by
  refine ⟨rfl, List.nodup_nil, fun _ h => absurd h List.not_mem_nil, ?_, ?_, ?_, ?_⟩
  · intro id info h
    cases h
  · intro id info other info' h
    cases h
  · intro id info h
    cases h
  · intro id service h
    rw [lookup_new h]

theorem Kept.register {c : Core} (h : c.Kept) (request : RegisterRequest) : (c.register request).Kept := by
  have hfresh : c.created ∉ c.services := fun hmem => Nat.lt_irrefl _ (h.created _ hmem)
  have hlookup : ∀ id, (c.register request).exportedServices.lookup id =
      if id = request.serviceId then some ⟨⟨request.serviceId, Sessions.empty⟩, c.created⟩
      else c.exportedServices.lookup id := fun id => Map.lookup_insert_eq ..
  refine ⟨congrArg (· ++ [c.created]) h.same, ?_, ?_, ?_, ?_, ?_, h.locals⟩
  · show (c.services ++ [c.created]).Nodup
    rw [← List.concat_eq_append]
    exact h.nodup.concat hfresh
  · intro object hobject
    rcases List.mem_append.mp hobject with hold | hnew
    · exact Nat.lt_succ_of_lt (h.created object hold)
    · rw [List.mem_singleton.mp hnew]
      exact Nat.lt_succ_self _
  · intro id info hinfo
    rw [hlookup] at hinfo
    split at hinfo
    · cases hinfo
      exact List.mem_append_right _ (List.mem_singleton_self _)
    · exact List.mem_append_left _ (h.registered id info hinfo)
  · intro id info other info' hinfo hinfo' heq
    have hlt : ∀ id info, c.exportedServices.lookup id = some info → info.object ≠ c.created :=
      fun id info hold => (h.created _ (h.registered id info hold)).ne
    rw [hlookup] at hinfo hinfo'
    split at hinfo <;> split at hinfo'
    case isTrue.isTrue hid hother => exact hid.trans hother.symm
    case isTrue.isFalse =>
      cases hinfo
      exact absurd heq.symm (hlt other info' hinfo')
    case isFalse.isTrue =>
      cases hinfo'
      exact absurd heq (hlt id info hinfo)
    case isFalse.isFalse => exact h.injective id info other info' hinfo hinfo' heq
  · intro id info hinfo
    rw [hlookup] at hinfo
    split at hinfo
    case isTrue hid =>
      cases hinfo
      rw [hid]
    case isFalse => exact h.idle id info hinfo

/-- Releasing a service unregisters its object. -/
theorem Kept.release {c : Core} (h : c.Kept) {id : Int32} {info : ExportedServiceInfo}
    (hinfo : c.exportedServices.lookup id = some info) :
    ∃ c', c.release id = .ok c' ∧ c'.Kept ∧ c'.services = c.services.erase info.object ∧
      ∀ other, c'.exportedServices.lookup other = if other = id then none else c.exportedServices.lookup other := by
  have hclose : info.exported.sessions.closeAll = .ok Sessions.empty := by
    rw [h.idle id info hinfo]
    rfl
  have hlookup : ∀ other, (c.exportedServices.erase id).lookup other =
      if other = id then none else c.exportedServices.lookup other := fun other => Map.lookup_erase_eq ..
  have hold : ∀ other info', (c.exportedServices.erase id).lookup other = some info' →
      other ≠ id ∧ c.exportedServices.lookup other = some info' := by
    intro other info' hother
    rw [hlookup] at hother
    split at hother
    · cases hother
    case isFalse hne => exact ⟨hne, hother⟩
  refine ⟨_, by rw [Core.release, hinfo]; simp only [hclose, bind, Except.bind]; rfl, ?_, rfl, hlookup⟩
  refine ⟨congrArg (·.erase info.object) h.same, h.nodup.erase _,
    fun object hobject => h.created object (List.mem_of_mem_erase hobject), ?_, ?_, ?_, h.locals⟩
  · intro other info' hother
    obtain ⟨hne, hother⟩ := hold other info' hother
    refine (h.nodup.mem_erase_iff).mpr ⟨fun heq => hne ?_, h.registered other info' hother⟩
    exact h.injective other info' id info hother hinfo heq
  · intro other info' third info'' hother hthird
    exact h.injective other info' third info'' (hold other info' hother).2 (hold third info'' hthird).2
  · intro other info' hother
    exact h.idle other info' (hold other info' hother).2

/-- Releasing services one after another unregisters their objects. -/
theorem Kept.releaseAll {c : Core} (h : c.Kept) {ids : List Int32} (hnodup : ids.Nodup)
    (hids : ∀ id ∈ ids, ∃ info, c.exportedServices.lookup id = some info) :
    ∃ c', ids.foldlM Core.release c = .ok c' ∧ c'.Kept ∧
      (∀ id, c'.exportedServices.lookup id = if id ∈ ids then none else c.exportedServices.lookup id) ∧
      ∀ object, object ∈ c'.services ↔ object ∈ c.services ∧
        ∀ id ∈ ids, ∀ info, c.exportedServices.lookup id = some info → info.object ≠ object := by
  induction ids generalizing c with
  | nil => exact ⟨c, rfl, h, fun id => by simp, fun object => by simp⟩
  | cons id ids ih =>
      obtain ⟨hfresh, hrest⟩ := List.nodup_cons.mp hnodup
      obtain ⟨info, hinfo⟩ := hids id List.mem_cons_self
      obtain ⟨c₁, hrelease, h₁, hservices, hlookup⟩ := h.release hinfo
      have hsame : ∀ other ∈ ids, c₁.exportedServices.lookup other = c.exportedServices.lookup other := by
        intro other hother
        have hne : other ≠ id := fun heq => hfresh (heq ▸ hother)
        rw [hlookup, if_neg hne]
      obtain ⟨c₂, hall, h₂, hlookup₂, hservices₂⟩ := ih h₁ hrest fun other hother => by
        rw [hsame other hother]
        exact hids other (List.mem_cons_of_mem id hother)
      refine ⟨c₂, ?_, h₂, fun other => ?_, fun object => ?_⟩
      · rw [List.foldlM_cons, hrelease]
        exact hall
      · rw [hlookup₂, hlookup]
        by_cases hother : other = id
        · simp [hother]
        · simp [hother]
      · rw [hservices₂, hservices, h.nodup.mem_erase_iff]
        constructor
        · rintro ⟨⟨hne, hmem⟩, hothers⟩
          refine ⟨hmem, fun other hother info' hinfo' => ?_⟩
          rcases List.mem_cons.mp hother with rfl | hother
          · rw [hinfo, Option.some.injEq] at hinfo'
            exact hinfo' ▸ Ne.symm hne
          · exact hothers other hother info' ((hsame other hother).trans hinfo')
        · rintro ⟨hmem, hothers⟩
          refine ⟨⟨Ne.symm (hothers id List.mem_cons_self info hinfo), hmem⟩, fun other hother info' hinfo' => ?_⟩
          exact hothers other (List.mem_cons_of_mem id hother) info' ((hsame other hother).symm.trans hinfo')

/-- `Shutdown` ends, and what it leaves registered is not reachable before or after. -/
theorem Kept.shutdown {c : Core} (h : c.Kept) :
    ∃ c', c.shutdown = .ok c' ∧ c'.Kept ∧ (∀ id, c'.exportedServices.lookup id = none) ∧
      ∀ object, object ∈ c'.services ↔ object ∈ c.services ∧ ¬c.Reachable object := by
  obtain ⟨c₁, hall, h₁, hlookup, hservices⟩ := h.releaseAll c.exportedServices.keys_nodup
    fun id hid => (Map.mem_keys_iff _ id).mp hid
  refine ⟨{ c₁ with isShutdown := true }, ?_, ⟨h₁.same, h₁.nodup, h₁.created, h₁.registered, h₁.injective, h₁.idle,
    h₁.locals⟩, fun id => ?_, fun object => ?_⟩
  · rw [Core.shutdown, hall]
    rfl
  · rw [hlookup]
    split
    · rfl
    case isFalse hid => exact AList.lookup_eq_none.mpr hid
  · rw [hservices]
    refine and_congr_right fun _ => ⟨?_, ?_⟩
    · rintro hnone ⟨id, info, hinfo, rfl⟩
      exact hnone id ((Map.mem_keys_iff _ id).mpr ⟨info, hinfo⟩) info hinfo rfl
    · intro hnot id _ info hinfo heq
      exact hnot ⟨id, info, hinfo, heq⟩

/-- In a core whose registered services are all reachable, everything is tidy. -/
theorem Kept.tidy_iff {c : Core} (h : c.Kept) : c.Tidy ↔ ∀ object ∈ c.services, c.Reachable object := by
  refine ⟨fun htidy object => (htidy.registered object).mp, fun hreachable => ?_⟩
  have hiff : ∀ object, object ∈ c.services ↔ c.Reachable object := by
    refine fun object => ⟨hreachable object, ?_⟩
    rintro ⟨id, info, hinfo, rfl⟩
    exact h.registered id info hinfo
  obtain ⟨c', hshutdown, h', -, hservices⟩ := h.shutdown
  have hnil : c'.services = [] := by
    refine List.eq_nil_iff_forall_not_mem.mpr fun object hmem => ?_
    obtain ⟨hmem, hnot⟩ := (hservices object).mp hmem
    exact hnot (hreachable object hmem)
  exact ⟨hiff, fun object => by rw [h.same, hiff], c', hshutdown, hnil, h'.same.trans hnil⟩

/-! ### Messages -/

/-- A message, with what the system answers if a connection is made for it. -/
structure Delivery where
  request : Request
  connects : Bool
  sock : Nat

/-- One message is handled. -/
def Handles (c : Core) (delivery : Delivery) (c' : Core) : Prop :=
  ∃ answer, c.receive delivery.request delivery.connects delivery.sock = .ok (answer, c')

/-- A registration is of an id that is not registered. -/
def NewId (c : Core) (delivery : Delivery) : Prop :=
  match delivery.request with
  | .register request => c.exportedServices.lookup request.serviceId = none
  | _ => True

/-- The exported services and their registrations are as before. -/
structure SameExports (c c' : Core) : Prop where
  lookup : ∀ id, c'.exportedServices.lookup id = c.exportedServices.lookup id
  services : c'.services = c.services
  listening : c'.listening = c.listening
  created : c'.created = c.created

theorem SameExports.reachable {c c' : Core} (h : SameExports c c') (object : Nat) :
    c'.Reachable object ↔ c.Reachable object := by
  unfold Reachable
  simp only [h.lookup]

theorem SameExports.kept {c c' : Core} (h : SameExports c c') (hkept : c.Kept)
    (hlocals : ∀ id service, c'.localServices.lookup id = some service → service.serviceId = id) : c'.Kept := by
  refine ⟨?_, ?_, ?_, ?_, ?_, ?_, hlocals⟩
  · rw [h.listening, h.services, hkept.same]
  · rw [h.services]
    exact hkept.nodup
  · rw [h.services, h.created]
    exact hkept.created
  · intro id info hinfo
    rw [h.services]
    exact hkept.registered id info ((h.lookup id).symm.trans hinfo)
  · intro id info other info' hinfo hinfo'
    exact hkept.injective id info other info' ((h.lookup id).symm.trans hinfo) ((h.lookup other).symm.trans hinfo')
  · exact fun id info hinfo => hkept.idle id info ((h.lookup id).symm.trans hinfo)

theorem serviceId_forward {s s' : LocalService} {request : ForwardRequest} {connects done : Bool} {sock : Nat}
    (h : s.forward request connects sock = .ok (done, s')) : s'.serviceId = s.serviceId := by
  unfold LocalService.forward at h
  obtain ⟨-, -, h⟩ := bind_eq_ok h
  split at h
  · split at h
    · cases h
      rfl
    · split at h
      · obtain ⟨sessions, -, h⟩ := bind_eq_ok h
        cases h
        rfl
      · cases h
  · obtain ⟨sessions, -, h⟩ := bind_eq_ok h
    cases h
    rfl

theorem Kept.insert_local {c : Core} (h : c.Kept) {id : Int32} {service : LocalService} (hid : service.serviceId = id) :
    Kept { c with localServices := c.localServices.insert id service } := by
  have hsame : SameExports c { c with localServices := c.localServices.insert id service } :=
    ⟨fun _ => rfl, rfl, rfl, rfl⟩
  exact hsame.kept h (Map.forall_insert h.locals hid)

theorem Kept.insert_same {c : Core} (h : c.Kept) {id : Int32} {info : ExportedServiceInfo}
    (hinfo : c.exportedServices.lookup id = some info) :
    SameExports c { c with exportedServices := c.exportedServices.insert id info } ∧
      Kept { c with exportedServices := c.exportedServices.insert id info } := by
  have hsame : SameExports c { c with exportedServices := c.exportedServices.insert id info } := by
    refine ⟨fun other => ?_, rfl, rfl, rfl⟩
    rw [Map.lookup_insert_eq]
    split
    case isTrue hother => rw [hother, hinfo]
    case isFalse => rfl
  exact ⟨hsame, hsame.kept h h.locals⟩

/-- No client has a session, so a forward request for an exported service finds none. -/
theorem Kept.forward_exported {c : Core} (h : c.Kept) {request : ForwardRequest} {info : ExportedServiceInfo}
    (hinfo : c.exportedServices.lookup request.serviceId = some info) :
    info.exported.forward request = .ok (false, info.exported) := by
  rw [h.idle _ _ hinfo]
  have hnone : Sessions.empty.socket request.sessionId = none := rfl
  simp only [ExportedService.forward, decide_true, check, if_true, bind, Except.bind, hnone]
  rfl

/-- What a forward request can do: nothing to the exported services, unless it shuts the core down. -/
theorem Kept.forward {c c' : Core} (h : c.Kept) {request : ForwardRequest} {connects answer : Bool} {sock : Nat}
    (hforward : c.forward request connects sock = .ok (answer, c')) :
    ∃ c₀, SameExports c c₀ ∧ c₀.Kept ∧ (c' = c₀ ∨ c₀.shutdown = .ok c') := by
  unfold Core.forward at hforward
  split at hforward
  case h_1 service hservice =>
    obtain ⟨⟨done, service'⟩, hdone, hrest⟩ := bind_eq_ok hforward
    have hkept := h.insert_local ((serviceId_forward hdone).trans (h.locals _ _ hservice))
    refine ⟨{ c with localServices := c.localServices.insert request.serviceId service' },
      ⟨fun _ => rfl, rfl, rfl, rfl⟩, hkept, ?_⟩
    simp only at hrest
    split at hrest
    · obtain ⟨c₁, hshutdown, hrest⟩ := bind_eq_ok hrest
      cases hrest
      exact Or.inr hshutdown
    · cases hrest
      exact Or.inl rfl
  case h_2 =>
    split at hforward
    case h_1 info hinfo =>
      obtain ⟨⟨done, exported⟩, hdone, hrest⟩ := bind_eq_ok hforward
      rw [h.forward_exported hinfo] at hdone
      cases hdone
      obtain ⟨hsame, hkept⟩ := h.insert_same hinfo
      refine ⟨_, hsame, hkept, ?_⟩
      obtain ⟨c₁, hshutdown, hrest⟩ := bind_eq_ok hrest
      cases hrest
      exact Or.inr hshutdown
    case h_2 =>
      cases hforward
      exact ⟨c, ⟨fun _ => rfl, rfl, rfl, rfl⟩, h, Or.inl rfl⟩

/-- What a message can do. -/
theorem Kept.handles {c c' : Core} (h : c.Kept) {delivery : Delivery} (hstep : c.Handles delivery c') :
    (∃ request, delivery.request = .register request ∧ c' = c.register request) ∨
      (∃ request info, delivery.request = .unregister request ∧
        c.exportedServices.lookup request.serviceId = some info ∧ c.release request.serviceId = .ok c') ∨
      (∀ request, delivery.request ≠ .register request) ∧
        ∃ c₀, SameExports c c₀ ∧ c₀.Kept ∧ (c' = c₀ ∨ c₀.shutdown = .ok c') := by
  obtain ⟨answer, hreceive⟩ := hstep
  unfold receive at hreceive
  split at hreceive
  case h_1 request hrequest =>
    cases hreceive
    exact Or.inl ⟨request, hrequest, rfl⟩
  case h_2 request hrequest =>
    unfold unregister at hreceive
    split at hreceive
    case isTrue hnone =>
      obtain ⟨c₁, hshutdown, hrest⟩ := bind_eq_ok hreceive
      cases hrest
      refine Or.inr (Or.inr ⟨fun _ heq => ?_, c, ⟨fun _ => rfl, rfl, rfl, rfl⟩, h, Or.inr hshutdown⟩)
      rw [hrequest] at heq
      cases heq
    case isFalse hsome =>
      obtain ⟨c₁, hrelease, hrest⟩ := bind_eq_ok hreceive
      cases hrest
      obtain ⟨info, hinfo⟩ := Option.ne_none_iff_exists'.mp fun hnone => hsome (Option.isNone_iff_eq_none.mpr hnone)
      exact Or.inr (Or.inl ⟨request, info, hrequest, hinfo, hrelease⟩)
  case h_3 request hrequest =>
    refine Or.inr (Or.inr ⟨fun _ heq => ?_, h.forward hreceive⟩)
    rw [hrequest] at heq
    cases heq

/-- A forward request has some bytes, and the descriptor of a connection that is made for it is new. -/
def CanArrive (c : Core) (delivery : Delivery) : Prop :=
  match delivery.request with
  | .forward request => 0 < request.buffer.length ∧
      ∀ service, c.localServices.lookup request.serviceId = some service →
        service.sessions.session delivery.sock = none
  | _ => True

theorem Kept.forward_ok {c : Core} (h : c.Kept) {request : ForwardRequest} {connects : Bool} {sock : Nat}
    (hdata : 0 < request.buffer.length) (hsock : ∀ service, c.localServices.lookup request.serviceId = some service →
      service.sessions.session sock = none) :
    ∃ answer c', c.forward request connects sock = .ok (answer, c') := by
  cases hservice : c.localServices.lookup request.serviceId with
  | some service =>
      have hid := h.locals _ _ hservice
      cases hsocket : service.sessions.socket request.sessionId with
      | some found =>
          obtain ⟨written, hwritten⟩ := Sessions.exists_writer hsocket
          obtain ⟨sessions, -, -, hforward⟩ := Core.forward_open hservice hid hsocket hwritten hdata
          exact ⟨_, _, hforward⟩
      | none =>
          cases connects with
          | true =>
              obtain ⟨sessions, -, -, hforward⟩ :=
                Core.forward_new hservice hid hsocket (hsock service hservice) hdata
              exact ⟨_, _, hforward⟩
          | false =>
              obtain ⟨c₁, hshutdown, -⟩ := (h.insert_local hid).shutdown
              refine ⟨false, c₁, ?_⟩
              rw [Core.forward_refused hservice hid hsocket, hshutdown]
              rfl
  | none =>
      cases hinfo : c.exportedServices.lookup request.serviceId with
      | some info =>
          have hid : info.exported.serviceId = request.serviceId := by rw [h.idle _ _ hinfo]
          have hnone : info.exported.sessions.socket request.sessionId = none := by
            rw [h.idle _ _ hinfo]
            rfl
          obtain ⟨c₁, hshutdown, -⟩ := (h.insert_same hinfo).2.shutdown
          refine ⟨false, c₁, ?_⟩
          rw [Core.forward_gone hservice hinfo hid hnone, hshutdown]
          rfl
      | none => exact ⟨false, c, Core.forward_unknown hservice hinfo⟩

/-- Every message is handled without a failed assertion. -/
theorem Kept.handles_ok {c : Core} (h : c.Kept) {delivery : Delivery} (harrive : c.CanArrive delivery) :
    ∃ c', c.Handles delivery c' := by
  unfold CanArrive at harrive
  unfold Handles receive
  split
  case h_1 request hrequest => exact ⟨_, true, rfl⟩
  case h_2 request hrequest =>
    unfold unregister
    split
    · obtain ⟨c₁, hshutdown, -⟩ := h.shutdown
      exact ⟨c₁, false, by rw [hshutdown]; rfl⟩
    case isFalse hsome =>
      obtain ⟨info, hinfo⟩ := Option.ne_none_iff_exists'.mp fun hnone => hsome (Option.isNone_iff_eq_none.mpr hnone)
      obtain ⟨c₁, hrelease, -⟩ := h.release hinfo
      exact ⟨c₁, true, by rw [hrelease]; rfl⟩
  case h_3 request hrequest =>
    rw [hrequest] at harrive
    obtain ⟨answer, c', hforward⟩ := h.forward_ok harrive.1 harrive.2
    exact ⟨c', answer, hforward⟩

theorem Kept.step {c c' : Core} (h : c.Kept) {delivery : Delivery} (hstep : c.Handles delivery c') : c'.Kept := by
  rcases h.handles hstep with ⟨request, -, rfl⟩ | ⟨request, info, -, hinfo, hrelease⟩ | ⟨-, c₀, -, h₀, rfl | hshutdown⟩
  · exact h.register request
  · obtain ⟨c₁, hrelease', h₁, -⟩ := h.release hinfo
    rw [hrelease, Except.ok.injEq] at hrelease'
    exact hrelease' ▸ h₁
  · exact h₀
  · obtain ⟨c₁, hshutdown', h₁, -⟩ := h₀.shutdown
    rw [hshutdown, Except.ok.injEq] at hshutdown'
    exact hshutdown' ▸ h₁

/-- A message leaves a tidy core tidy just when it does not register an id again. -/
theorem Kept.tidy_step {c c' : Core} (h : c.Kept) {delivery : Delivery} (htidy : c.Tidy)
    (hstep : c.Handles delivery c') : c'.Tidy ↔ c.NewId delivery := by
  have h' := h.step hstep
  have hreachable := h.tidy_iff.mp htidy
  rw [h'.tidy_iff]
  rcases h.handles hstep with ⟨request, hrequest, rfl⟩ | ⟨request, info, hrequest, hinfo, hrelease⟩ |
    ⟨hnot, c₀, hsame, h₀, hend⟩
  · have hlookup : ∀ id, (c.register request).exportedServices.lookup id =
        if id = request.serviceId then some ⟨⟨request.serviceId, Sessions.empty⟩, c.created⟩
        else c.exportedServices.lookup id := fun id => Map.lookup_insert_eq ..
    simp only [NewId, hrequest]
    constructor
    · intro hafter
      rw [← Option.not_isSome_iff_eq_none]
      intro hsome
      obtain ⟨info, hinfo⟩ := Option.isSome_iff_exists.mp hsome
      have hmem := h.registered _ info hinfo
      obtain ⟨id, info', hinfo', heq⟩ := hafter info.object (List.mem_append_left _ hmem)
      rw [hlookup] at hinfo'
      split at hinfo'
      · cases hinfo'
        exact (h.created _ hmem).ne heq.symm
      case isFalse hne => exact hne (h.injective id info' _ info hinfo' hinfo heq)
    · intro hnone object hobject
      rcases List.mem_append.mp hobject with hold | hnew
      · obtain ⟨id, info, hinfo, heq⟩ := hreachable object hold
        refine ⟨id, info, ?_, heq⟩
        rw [hlookup, if_neg, hinfo]
        intro hid
        rw [hid, hnone] at hinfo
        cases hinfo
      · refine ⟨request.serviceId, _, (hlookup _).trans (if_pos rfl), (List.mem_singleton.mp hnew).symm⟩
  · obtain ⟨c₁, hrelease', -, hservices, hlookup⟩ := h.release hinfo
    rw [hrelease, Except.ok.injEq] at hrelease'
    subst hrelease'
    refine iff_of_true (fun object hobject => ?_) (by simp only [NewId, hrequest])
    rw [hservices, h.nodup.mem_erase_iff] at hobject
    obtain ⟨id, info', hinfo', heq⟩ := hreachable object hobject.2
    refine ⟨id, info', ?_, heq⟩
    rw [hlookup, if_neg, hinfo']
    intro hid
    rw [hid, hinfo, Option.some.injEq] at hinfo'
    exact hobject.1 (heq.symm.trans (congrArg _ hinfo'.symm))
  · have hnew : c.NewId delivery := by
      unfold NewId
      split
      case h_1 request hrequest => exact absurd hrequest (hnot request)
      case h_2 => trivial
    refine iff_of_true (fun object hobject => ?_) hnew
    rcases hend with rfl | hshutdown
    · rw [hsame.services] at hobject
      exact (hsame.reachable object).mpr (hreachable object hobject)
    · obtain ⟨c₁, hshutdown', -, -, hservices⟩ := h₀.shutdown
      rw [hshutdown, Except.ok.injEq] at hshutdown'
      subst hshutdown'
      obtain ⟨hmem, hnone⟩ := (hservices object).mp hobject
      rw [hsame.services] at hmem
      exact absurd ((hsame.reachable object).mpr (hreachable object hmem)) hnone

theorem tidy_new (services : List Int32) : (new services).Tidy :=
  (kept_new services).tidy_iff.mpr fun _ h => absurd h List.not_mem_nil

/-- **The registered services are the exported ones in all states of a run just when no message registers
an id that is registered.** No message fails an assertion. -/
theorem run_tidy_iff {services : List Int32} {deliveries : List Delivery} {c : Core}
    (h : Run Handles (new services) deliveries c) :
    ((∀ taken state, taken <+: deliveries → Run Handles (new services) taken state → state.Tidy) ↔
        Run (Restrict Handles NewId) (new services) deliveries c) ∧
      ∀ delivery, c.CanArrive delivery → ∃ c', c.Handles delivery c' := by
  have hkept : ∀ {taken state}, Run Handles (new services) taken state → state.Kept := fun hrun =>
    hrun.invariant (fun _ state => state.Kept) (kept_new services) fun _ _ _ _ _ hbefore hstep => hbefore.step hstep
  have hfun : ∀ before delivery after other, Handles before delivery after → Handles before delivery other →
      after = other := by
    rintro before delivery after other ⟨answer, hafter⟩ ⟨answer', hother⟩
    rw [hafter, Except.ok.injEq, Prod.mk.injEq] at hother
    exact hother.2
  have hstep : ∀ before delivery after, before.Kept → before.Tidy → Handles before delivery after →
      (after.Tidy ↔ NewId before delivery) ∧ (after.Tidy → after.Kept) :=
    fun _ _ _ hbefore htidy hhandles => ⟨hbefore.tidy_step htidy hhandles, fun _ => hbefore.step hhandles⟩
  exact ⟨Run.forall_iff_restrict hfun hstep (kept_new services) (tidy_new services) h,
    fun delivery harrive => (hkept h).handles_ok harrive⟩

/-- A service is registered and unregistered. -/
theorem run_tidy_iff_two : ∃ c, Run Handles (new [])
      [⟨.register ⟨5, [65], [66], [67]⟩, true, 0⟩, ⟨.unregister ⟨5⟩, true, 0⟩] c ∧
    ((∀ taken state, taken <+: [⟨.register ⟨5, [65], [66], [67]⟩, true, 0⟩, ⟨.unregister ⟨5⟩, true, 0⟩] →
        Run Handles (new []) taken state → state.Tidy) ↔
      Run (Restrict Handles NewId) (new [])
        [⟨.register ⟨5, [65], [66], [67]⟩, true, 0⟩, ⟨.unregister ⟨5⟩, true, 0⟩] c) ∧
    ∀ delivery, c.CanArrive delivery → ∃ c', c.Handles delivery c' := by
  have hrun : ∃ c, Run Handles (new [])
      [⟨.register ⟨5, [65], [66], [67]⟩, true, 0⟩, ⟨.unregister ⟨5⟩, true, 0⟩] c :=
    ⟨_, (Run.single ⟨true, rfl⟩).trans (Run.single ⟨true, rfl⟩)⟩
  obtain ⟨c, hrun⟩ := hrun
  exact ⟨c, hrun, run_tidy_iff hrun⟩

/-- The first of two services with one id stays registered after `Shutdown`. -/
theorem registered_twice : ¬∀ services deliveries c, Run Handles (new services) deliveries c → c.Tidy := by
  intro h
  have hrun : Run Handles (new []) [⟨.register ⟨5, [65], [66], [67]⟩, true, 0⟩,
      ⟨.register ⟨5, [68], [66], [67]⟩, true, 0⟩]
        (((new []).register ⟨5, [65], [66], [67]⟩).register ⟨5, [68], [66], [67]⟩) :=
    (Run.single ⟨true, rfl⟩).trans (Run.single ⟨true, rfl⟩)
  obtain ⟨c', hshutdown, hservices, -⟩ := (h [] _ _ hrun).shutdown
  have hleft : (((new []).register ⟨5, [65], [66], [67]⟩).register ⟨5, [68], [66], [67]⟩).shutdown.map Core.services =
      .ok [0] := rfl
  rw [hshutdown] at hleft
  cases hservices.symm.trans (Except.ok.inj hleft)

end Core

end Thebends.Btunnel
