import Mathlib.Data.Finset.Card
import Mathlib.Data.Fintype.Card
import Thebends.UtunnelUsage

/-! The tunnel from end to end: the clients (`utunnel-client.c`), the server, and what both capture on their loopback
devices (`utunnel.c`). The network between them loses, repeats and reorders packets. A packet of the server's host
carries the number of the packet that it answers; no handler looks at that. -/

namespace Thebends.Utunnel

open LibRun

/-- The address that stands for the server at a client. -/
def tunnelIp : InAddr := ⟨127, 0, 0, 2⟩

/-- The filter of the loopback device in `loopback_init`, of a server. -/
def serverCaptures (packet : IpPacket) : Bool := packet.src = loopbackIp ∧ packet.dst ≠ loopbackIp

/-- The filter of the loopback device in `loopback_init`, of a client. -/
def clientCaptures (packet : IpPacket) : Bool := packet.src = loopbackIp ∧ packet.dst = tunnelIp

/-- A packet that the server has put on its loopback device for a client. -/
structure Arrival where
  client : Endpoint
  packet : IpPacket

/-- A packet that is sent to a client, and the number of the arrival that it answers. -/
structure Reply where
  client : Endpoint
  packet : IpPacket
  arrival : Nat

/-- The table of the server; the UDP packets that were sent to the server, with their senders, and to the clients; and
what came out on the loopback devices of the server and of the clients. -/
structure Tunnel where
  table : Table
  requests : List (Endpoint × IpPacket)
  arrivals : List Arrival
  replies : List Reply
  delivered : List Reply

/-- The host of a client sends a packet on its loopback device, the server captures one of the packets sent to it, its
host answers an arrival, or a client captures one of the packets sent to it. -/
inductive Happening
  | request (client : Endpoint) (packet : IpPacket)
  | arrive (number : Nat) (now : Int)
  | answer (number : Nat) (rest : List UInt8)
  | deliver (number : Nat)

namespace Tunnel

def start : Tunnel := ⟨Table.init, [], [], [], []⟩

/-- A packet on the loopback device of a client, with the `loopback_packet` of `utunnel-client.c`. -/
def onClient (s : Tunnel) (client : Endpoint) (packet : IpPacket) : Tunnel :=
  if clientCaptures packet then { s with requests := s.requests ++ [(client, packet)] } else s

/-- A packet on the loopback device of the server, with the `loopback_packet` of `utunnel-server.c`. -/
def onServer (s : Tunnel) (arrival : Nat) (packet : IpPacket) : Tunnel :=
  if serverCaptures packet then
    match s.table.loopbackPacket packet with
    | .external dest packet => { s with replies := s.replies ++ [⟨dest, packet, arrival⟩] }
    | _ => s
  else s

/-- What the `external_packet` of `utunnel-client.c` writes. -/
def clientWrites (packet : IpPacket) : IpPacket := { packet with src := tunnelIp, dst := loopbackIp }

/-- What happens, if it can. -/
def perform (s : Tunnel) : Happening → Option Tunnel
  | .request client packet => some (s.onClient client packet)
  | .arrive number now => do
      let (client, packet) ← s.requests[number]?
      let (sent, table) ← s.table.externalPacket client now packet
      match sent with
      | .loopback packet =>
          some (onServer { s with table := table, arrivals := s.arrivals ++ [⟨client, packet⟩] } s.arrivals.length packet)
      | _ => some { s with table := table }
  | .answer number rest => do
      let arrival ← s.arrivals[number]?
      some (s.onServer number ⟨loopbackIp, arrival.packet.src, rest⟩)
  | .deliver number => do
      let reply ← s.replies[number]?
      let packet := clientWrites reply.packet
      some (onClient { s with delivered := s.delivered ++ [⟨reply.client, packet, reply.arrival⟩] } reply.client packet)

def Step (s : Tunnel) (happening : Happening) (s' : Tunnel) : Prop := s.perform happening = some s'

/-- The clients are known, and the time is not zero. -/
def Allowed (clients : Finset Endpoint) (_ : Tunnel) : Happening → Prop
  | .request client _ => client ∈ clients
  | .arrive _ now => now ≠ 0
  | _ => True

/-! ### The addresses -/

theorem internal_ne (i : Slot) : (Table.init i).internal.addr ≠ loopbackIp := by
  revert i
  decide

theorem not_clientCaptures_clientWrites (packet : IpPacket) : clientCaptures (clientWrites packet) = false := by
  have hsrc : tunnelIp ≠ loopbackIp := by decide
  rw [clientCaptures, decide_eq_false_iff_not]
  exact fun hboth => hsrc hboth.1

/-- What `external_packet` of the server does: it writes under the address of a slot that is the client's, and was it
already or is the one that `find_empty_slot` returns. -/
theorem externalPacket_cases {table table' : Table} {client : Endpoint} {now : Int} {payload : IpPacket} {sent : Sent}
    (h : table.externalPacket client now payload = some (sent, table')) :
    ∃ slot, sent = writeLoopback (table' slot).internal payload ∧ (table' slot).external = client ∧
      (table' = table ∨ (∀ i, (table i).external ≠ client) ∧ table.findEmptySlot = some slot ∧
        table' = Function.update table slot { table slot with external := client, lastUsage := now }) := by
  rw [Table.externalPacket] at h
  split at h
  · next slot hlookup =>
    cases h
    exact ⟨slot, rfl, Table.sessionLookup_incoming_some hlookup, Or.inl rfl⟩
  · next hlookup =>
    split at h
    · cases h
    · next slot table'' hcreate =>
      cases h
      obtain ⟨found, hfound, heq⟩ := Option.map_eq_some_iff.mp hcreate
      obtain ⟨rfl, rfl⟩ := Prod.mk.inj heq
      refine ⟨found, rfl, ?_, Or.inr ⟨Table.sessionLookup_incoming_none hlookup, hfound, rfl⟩⟩
      rw [Function.update_self]

/-! ### What the tunnel keeps -/

/-- Every session is one of a known client, every packet on its way or out is the one of a client or answers an arrival,
and the sessions of the arrivals are still there. -/
structure Sound (clients : Finset Endpoint) (happenings : List Happening) (s : Tunnel) : Prop where
  distinct : s.table.Distinct
  internal : ∀ i, (s.table i).internal = (Table.init i).internal
  used : ∀ i, (s.table i).lastUsage ≠ 0 → (s.table i).external ∈ clients
  unused : ∀ i, (s.table i).lastUsage = 0 → (s.table i).external = zeroEndpoint
  requests : ∀ request ∈ s.requests, request.1 ∈ clients ∧ clientCaptures request.2 ∧
    .request request.1 request.2 ∈ happenings
  served : ∀ arrival ∈ s.arrivals, ∃ slot, (s.table slot).lastUsage ≠ 0 ∧
    s.table.Serves slot arrival.client arrival.packet.src
  arrivals : ∀ arrival ∈ s.arrivals, arrival.packet.dst = loopbackIp ∧ ∃ packet,
    .request arrival.client packet ∈ happenings ∧ clientCaptures packet ∧ arrival.packet.rest = packet.rest
  replies : ∀ reply ∈ s.replies, ∃ arrival rest, s.arrivals[reply.arrival]? = some arrival ∧
    arrival.client = reply.client ∧ reply.packet = ⟨loopbackIp, arrival.packet.src, rest⟩ ∧
    .answer reply.arrival rest ∈ happenings
  delivered : ∀ reply ∈ s.delivered, ∃ arrival rest, s.arrivals[reply.arrival]? = some arrival ∧
    arrival.client = reply.client ∧ reply.packet = ⟨tunnelIp, loopbackIp, rest⟩ ∧ .answer reply.arrival rest ∈ happenings

section

variable {clients : Finset Endpoint} {happenings : List Happening} {s s' : Tunnel}

theorem sound_start (clients : Finset Endpoint) : start.Sound clients [] where
  distinct := Table.distinct_init
  internal _ := rfl
  used _ hused := absurd rfl hused
  unused _ _ := rfl
  requests _ h := absurd h List.not_mem_nil
  served _ h := absurd h List.not_mem_nil
  arrivals _ h := absurd h List.not_mem_nil
  replies _ h := absurd h List.not_mem_nil
  delivered _ h := absurd h List.not_mem_nil

/-- More happenings. -/
theorem Sound.mono (h : s.Sound clients happenings) {more : List Happening} (hsub : happenings ⊆ more) :
    s.Sound clients more where
  distinct := h.distinct
  internal := h.internal
  used := h.used
  unused := h.unused
  requests request hrequest := by
    obtain ⟨hclient, hcaptured, hmem⟩ := h.requests request hrequest
    exact ⟨hclient, hcaptured, hsub hmem⟩
  served := h.served
  arrivals arrival harrival := by
    obtain ⟨hdst, packet, hmem, hcaptured, hrest⟩ := h.arrivals arrival harrival
    exact ⟨hdst, packet, hsub hmem, hcaptured, hrest⟩
  replies reply hreply := by
    obtain ⟨arrival, rest, harrival, hclient, hpacket, hmem⟩ := h.replies reply hreply
    exact ⟨arrival, rest, harrival, hclient, hpacket, hsub hmem⟩
  delivered reply hreply := by
    obtain ⟨arrival, rest, harrival, hclient, hpacket, hmem⟩ := h.delivered reply hreply
    exact ⟨arrival, rest, harrival, hclient, hpacket, hsub hmem⟩

/-- While there are no more clients than slots, a newcomer finds the table not full. -/
theorem Sound.not_full (h : s.Sound clients happenings) (hcard : clients.card ≤ maxClients) {client : Endpoint}
    (hclient : client ∈ clients) (hnew : ∀ i, (s.table i).external ≠ client) : ¬s.table.Full := by
  intro hfull
  have hinjective : Function.Injective fun i : Slot => (s.table i).external := by
    intro i j hij
    by_contra hne
    exact h.distinct.external i j hne (hfull i) (hfull j) hij
  have hsub : Finset.univ.image (fun i : Slot => (s.table i).external) ⊆ clients.erase client := by
    intro other hother
    obtain ⟨i, -, rfl⟩ := Finset.mem_image.mp hother
    exact Finset.mem_erase.mpr ⟨hnew i, h.used i (hfull i)⟩
  have hle := Finset.card_le_card hsub
  rw [Finset.card_image_of_injective _ hinjective, Finset.card_univ, Fintype.card_fin] at hle
  have hlt := Finset.card_erase_lt_of_mem hclient
  omega

theorem Sound.onClient (h : s.Sound clients happenings) {client : Endpoint} (hclient : client ∈ clients)
    {packet : IpPacket} (hmem : .request client packet ∈ happenings) : (s.onClient client packet).Sound clients happenings := by
  rw [Tunnel.onClient]
  split
  case isFalse => exact h
  case isTrue hcaptured =>
    refine ⟨h.distinct, h.internal, h.used, h.unused, fun request hrequest => ?_, h.served, h.arrivals, h.replies,
      h.delivered⟩
    rcases List.mem_append.mp hrequest with hold | hnew
    · exact h.requests request hold
    · rw [List.mem_singleton.mp hnew]
      exact ⟨hclient, hcaptured, hmem⟩

/-- The answer to an arrival goes to the client of the arrival. -/
theorem Sound.onServer_answer (h : s.Sound clients happenings) {number : Nat} {arrival : Arrival}
    (harrival : s.arrivals[number]? = some arrival) (rest : List UInt8) :
    s.onServer number ⟨loopbackIp, arrival.packet.src, rest⟩ = { s with
      replies := s.replies ++ [⟨arrival.client, ⟨loopbackIp, arrival.packet.src, rest⟩, number⟩] } := by
  obtain ⟨slot, -, hserves⟩ := h.served arrival (List.mem_of_getElem? harrival)
  have hdst : arrival.packet.src ≠ loopbackIp := by
    rw [← hserves.2, h.internal]
    exact internal_ne slot
  have hcaptured : serverCaptures ⟨loopbackIp, arrival.packet.src, rest⟩ = true := decide_eq_true ⟨rfl, hdst⟩
  have hsent : s.table.loopbackPacket ⟨loopbackIp, arrival.packet.src, rest⟩ =
      .external arrival.client ⟨loopbackIp, arrival.packet.src, rest⟩ := Table.Serves.loopbackPacket hserves h.distinct
  rw [onServer, if_pos hcaptured, hsent]

theorem Sound.answer (h : s.Sound clients happenings) {number : Nat} {arrival : Arrival}
    (harrival : s.arrivals[number]? = some arrival) {rest : List UInt8} (hmem : .answer number rest ∈ happenings) :
    (s.onServer number ⟨loopbackIp, arrival.packet.src, rest⟩).Sound clients happenings := by
  rw [h.onServer_answer harrival]
  refine ⟨h.distinct, h.internal, h.used, h.unused, h.requests, h.served, h.arrivals, fun reply hreply => ?_,
    h.delivered⟩
  rcases List.mem_append.mp hreply with hold | hnew
  · exact h.replies reply hold
  · rw [List.mem_singleton.mp hnew]
    exact ⟨arrival, rest, harrival, rfl, rfl, hmem⟩

/-- The packet of a client comes out at the server, and the tunnel does not capture what it wrote itself. -/
theorem Sound.arrive (h : s.Sound clients happenings) (hcard : clients.card ≤ maxClients) (hzero : zeroEndpoint ∉ clients)
    {request : Endpoint × IpPacket} (hrequest : request ∈ s.requests) {now : Int} (hnow : now ≠ 0) {sent : Sent}
    {table : Table} (hsent : s.table.externalPacket request.1 now request.2 = some (sent, table)) :
    ∃ written, sent = .loopback written ∧ serverCaptures written = false ∧
      Sound clients happenings { s with table := table, arrivals := s.arrivals ++ [⟨request.1, written⟩] } := by
  obtain ⟨hclient, hcaptured, hmem⟩ := h.requests request hrequest
  obtain ⟨slot, rfl, hexternal, htable⟩ := externalPacket_cases hsent
  -- only an empty slot changes
  have hkeep : ∀ i, (s.table i).lastUsage ≠ 0 → table i = s.table i := by
    intro i hused
    rcases htable with rfl | ⟨hnew, hslot, rfl⟩
    · rfl
    · have hempty : (s.table slot).lastUsage = 0 :=
        (Table.findEmptySlot_spec hslot).resolve_right fun hfull => h.not_full hcard hclient hnew hfull.1
      have hne : i ≠ slot := by
        rintro rfl
        exact hused hempty
      exact Function.update_of_ne hne _ _
  have hinternal : ∀ i, (table i).internal = (Table.init i).internal := by
    intro i
    rcases htable with rfl | ⟨-, -, rfl⟩
    · exact h.internal i
    · by_cases hi : i = slot
      · rw [hi, Function.update_self]
        exact h.internal slot
      · rw [Function.update_of_ne hi]
        exact h.internal i
  have hothers : ∀ i, table i = s.table i ∨ (table i).external = request.1 ∧ (table i).lastUsage = now := by
    intro i
    rcases htable with rfl | ⟨-, -, rfl⟩
    · exact Or.inl rfl
    · by_cases hi : i = slot
      · rw [hi, Function.update_self]
        exact Or.inr ⟨rfl, rfl⟩
      · exact Or.inl (Function.update_of_ne hi _ _)
  have hslot : (table slot).lastUsage ≠ 0 := by
    rcases hothers slot with hsame | ⟨-, htime⟩
    · intro hempty
      rw [hsame] at hempty hexternal
      rw [h.unused slot hempty] at hexternal
      exact hzero (hexternal ▸ hclient)
    · rwa [htime]
  refine ⟨_, rfl, ?_, ?_⟩
  · rw [serverCaptures, decide_eq_false_iff_not]
    intro hboth
    refine internal_ne slot ?_
    rw [← hinternal]
    exact hboth.1
  · refine ⟨?_, hinternal, fun i hused => ?_, fun i hunused => ?_, h.requests, fun arrival harrival => ?_,
      fun arrival harrival => ?_, fun reply hreply => ?_, fun reply hreply => ?_⟩
    · have hstep : s.table.Step (.external request.1 now request.2) table := ⟨_, hsent⟩
      exact hstep.distinct h.distinct
    · rcases hothers i with hsame | ⟨hexternal', -⟩
      · dsimp only at hused ⊢
        rw [hsame] at hused ⊢
        exact h.used i hused
      · dsimp only
        rwa [hexternal']
    · rcases hothers i with hsame | ⟨-, htime⟩
      · dsimp only at hunused ⊢
        rw [hsame] at hunused ⊢
        exact h.unused i hunused
      · exact absurd (htime.symm.trans hunused) hnow
    · rcases List.mem_append.mp harrival with hold | hnew
      · obtain ⟨i, hused, hserves⟩ := h.served arrival hold
        refine ⟨i, ?_, ?_⟩
        · dsimp only
          rwa [hkeep i hused]
        · rw [Table.Serves] at hserves ⊢
          dsimp only
          rwa [hkeep i hused]
      · rw [List.mem_singleton.mp hnew]
        exact ⟨slot, hslot, hexternal, rfl⟩
    · rcases List.mem_append.mp harrival with hold | hnew
      · exact h.arrivals arrival hold
      · rw [List.mem_singleton.mp hnew]
        exact ⟨rfl, request.2, hmem, hcaptured, rfl⟩
    · obtain ⟨arrival, rest, harrival, hmore⟩ := h.replies reply hreply
      exact ⟨arrival, rest, List.getElem?_append_left (List.getElem?_eq_some_iff.mp harrival).1 ▸ harrival, hmore⟩
    · obtain ⟨arrival, rest, harrival, hmore⟩ := h.delivered reply hreply
      exact ⟨arrival, rest, List.getElem?_append_left (List.getElem?_eq_some_iff.mp harrival).1 ▸ harrival, hmore⟩

theorem Sound.deliver (h : s.Sound clients happenings) {reply : Reply} (hreply : reply ∈ s.replies) :
    Sound clients happenings
      { s with delivered := s.delivered ++ [⟨reply.client, clientWrites reply.packet, reply.arrival⟩] } := by
  refine ⟨h.distinct, h.internal, h.used, h.unused, h.requests, h.served, h.arrivals, h.replies, fun other hother => ?_⟩
  rcases List.mem_append.mp hother with hold | hnew
  · exact h.delivered other hold
  · obtain ⟨arrival, rest, harrival, hclient, hpacket, hmem⟩ := h.replies reply hreply
    rw [List.mem_singleton.mp hnew]
    exact ⟨arrival, rest, harrival, hclient, by rw [hpacket, clientWrites], hmem⟩

theorem Sound.step (h : s.Sound clients happenings) (hcard : clients.card ≤ maxClients) (hzero : zeroEndpoint ∉ clients)
    {happening : Happening} (hallowed : s.Allowed clients happening) (hstep : s.Step happening s') :
    s'.Sound clients (happenings ++ [happening]) := by
  have hmore : s.Sound clients (happenings ++ [happening]) := h.mono (List.subset_append_left _ _)
  have hlast : happening ∈ happenings ++ [happening] := List.mem_append_right _ (List.mem_singleton_self _)
  rw [Step] at hstep
  cases happening with
  | request client packet =>
      cases hstep
      exact hmore.onClient hallowed hlast
  | arrive number now =>
      obtain ⟨request, hrequest, hstep⟩ := Option.bind_eq_some_iff.mp hstep
      obtain ⟨⟨sent, table⟩, hsent, hstep⟩ := Option.bind_eq_some_iff.mp hstep
      obtain ⟨written, rfl, hnot, hsound⟩ := hmore.arrive hcard hzero (List.mem_of_getElem? hrequest) hallowed hsent
      cases hstep
      rw [onServer, hnot, if_neg Bool.false_ne_true]
      exact hsound
  | answer number rest =>
      obtain ⟨arrival, harrival, hstep⟩ := Option.bind_eq_some_iff.mp hstep
      cases hstep
      exact hmore.answer harrival hlast
  | deliver number =>
      obtain ⟨reply, hreply, hstep⟩ := Option.bind_eq_some_iff.mp hstep
      cases hstep
      rw [Tunnel.onClient, not_clientCaptures_clientWrites, if_neg Bool.false_ne_true]
      exact hmore.deliver (List.mem_of_getElem? hreply)

end

end Tunnel

/-- **Answers come back.** As long as no more than `MAX_CLIENTS` endpoints send to the server, in every run, whatever
the network does to the packets: what comes out at a client answers an arrival of this client, and every answer is
sent there; what comes out at the server is what a client captured, and two arrivals have one address just when they
have one client; and no packet that the tunnel wrote is captured by it again. -/
theorem answers_come_back (clients : Finset Endpoint) (hcard : clients.card ≤ maxClients) (hzero : zeroEndpoint ∉ clients)
    (happenings : List Happening) (s : Tunnel)
    (h : Run (Restrict Tunnel.Step (Tunnel.Allowed clients)) Tunnel.start happenings s) :
    (∀ reply ∈ s.delivered, ∃ arrival rest, s.arrivals[reply.arrival]? = some arrival ∧
      arrival.client = reply.client ∧ reply.packet = ⟨tunnelIp, loopbackIp, rest⟩ ∧
      .answer reply.arrival rest ∈ happenings) ∧
    (∀ number arrival rest, s.arrivals[number]? = some arrival → ∃ s', s.Step (.answer number rest) s' ∧
      s'.replies = s.replies ++ [⟨arrival.client, ⟨loopbackIp, arrival.packet.src, rest⟩, number⟩]) ∧
    (∀ arrival ∈ s.arrivals, arrival.packet.dst = loopbackIp ∧ ∃ packet,
      .request arrival.client packet ∈ happenings ∧ clientCaptures packet ∧ arrival.packet.rest = packet.rest) ∧
    (∀ arrival ∈ s.arrivals, ∀ other ∈ s.arrivals,
      (arrival.packet.src = other.packet.src ↔ arrival.client = other.client)) ∧
    ∀ request ∈ s.requests, .request request.1 request.2 ∈ happenings := by
  have hsound : s.Sound clients happenings :=
    h.invariant (fun happenings s => s.Sound clients happenings) (Tunnel.sound_start clients)
      fun _ _ _ _ _ hsound hstep => hsound.step hcard hzero hstep.1 hstep.2
  refine ⟨hsound.delivered, fun number arrival rest harrival => ?_, hsound.arrivals,
    fun arrival harrival other hother => ?_, fun request hrequest => (hsound.requests request hrequest).2.2⟩
  · refine ⟨s.onServer number ⟨loopbackIp, arrival.packet.src, rest⟩, ?_, by rw [hsound.onServer_answer harrival]⟩
    rw [Tunnel.Step, Tunnel.perform, harrival]
    rfl
  · obtain ⟨i, hused, hclient, haddr⟩ := hsound.served arrival harrival
    obtain ⟨j, hused', hclient', haddr'⟩ := hsound.served other hother
    have hsame : i = j → arrival.packet.src = other.packet.src ∧ arrival.client = other.client := by
      rintro rfl
      exact ⟨haddr.symm.trans haddr', hclient.symm.trans hclient'⟩
    constructor
    · intro hsrc
      refine (hsame ?_).2
      by_contra hne
      exact hsound.distinct.internal i j hne (haddr.trans (hsrc.trans haddr'.symm))
    · intro hclients
      refine (hsame ?_).1
      by_contra hne
      exact hsound.distinct.external i j hne hused hused' (hclient.trans (hclients.trans hclient'.symm))

/-- A packet of a client's host, and the answer to it. -/
def pingPong : List Happening :=
  [.request client ⟨loopbackIp, tunnelIp, [1]⟩, .arrive 0 7, .answer 0 [2], .deliver 0]

theorem answers_come_back_pingPong : ∃ s, Run (Restrict Tunnel.Step (Tunnel.Allowed {client})) Tunnel.start pingPong s ∧
    ∃ reply ∈ s.delivered, reply.client = client ∧ reply.packet = ⟨tunnelIp, loopbackIp, [2]⟩ ∧
      .answer reply.arrival [2] ∈ pingPong := by
  obtain ⟨s₁, h₁, s₂, h₂, s₃, h₃, s₄, h₄, hdelivered⟩ :
      ∃ s₁, Tunnel.start.Step (.request client ⟨loopbackIp, tunnelIp, [1]⟩) s₁ ∧ ∃ s₂, s₁.Step (.arrive 0 7) s₂ ∧
        ∃ s₃, s₂.Step (.answer 0 [2]) s₃ ∧ ∃ s₄, s₃.Step (.deliver 0) s₄ ∧
        s₄.delivered = [⟨client, ⟨tunnelIp, loopbackIp, [2]⟩, 0⟩] :=
    ⟨_, rfl, _, rfl, _, rfl, _, rfl, rfl⟩
  have hrun : Run (Restrict Tunnel.Step (Tunnel.Allowed {client})) Tunnel.start pingPong s₄ :=
    ((((Run.nil _).snoc ⟨Finset.mem_singleton_self _, h₁⟩).snoc ⟨(by decide : (7 : Int) ≠ 0), h₂⟩).snoc
      ⟨trivial, h₃⟩).snoc ⟨trivial, h₄⟩
  obtain ⟨arrival, rest, -, -, hpacket, hmem⟩ :=
    (answers_come_back {client} (by decide) (by decide) pingPong s₄ hrun).1 _ (hdelivered ▸ List.mem_singleton_self _)
  have hrest : [2] = rest := congrArg IpPacket.rest hpacket
  exact ⟨s₄, hrun, _, hdelivered ▸ List.mem_singleton_self _, rfl, rfl, hrest ▸ hmem⟩

end Thebends.Utunnel
