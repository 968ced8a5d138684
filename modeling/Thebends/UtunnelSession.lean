import Mathlib.Data.List.FinRange
import Thebends.LibRun

/-! The session table of the utunnel server (`translate.c`) and the two packet handlers that use it
(`utunnel-server.c`). A client is known by the endpoint its packets come from and appears on the loopback
device under the internal address of its slot; the table has room for `maxClients` of them and gives the
slot that was assigned longest ago to a newcomer. -/

namespace Thebends.Utunnel

open LibRun

/-- `struct in_addr`, in network byte order. -/
structure InAddr where
  bytes : UInt8 × UInt8 × UInt8 × UInt8
  deriving DecidableEq, Repr

/-- `endpoint`. -/
structure Endpoint where
  addr : InAddr
  port : Int
  deriving DecidableEq, Repr

/-- `session`; `lastUsage` is a `time_t`. -/
structure Session where
  external : Endpoint
  internal : Endpoint
  lastUsage : Int
  deriving DecidableEq, Repr

/-- `MAX_CLIENTS`. -/
def maxClients : Nat := 10

/-- The index of a session in the table. -/
abbrev Slot := Fin maxClients

/-- `session_table`. -/
abbrev Table := Slot → Session

/-- `direction`. -/
inductive Direction
  | incoming
  | outgoing
  deriving DecidableEq, Repr

/-- `LOOPBACK_IP`. -/
def loopbackIp : InAddr := ⟨127, 0, 0, 1⟩

/-- An endpoint whose memory is all zero. -/
def zeroEndpoint : Endpoint := ⟨⟨0, 0, 0, 0⟩, 0⟩

/-- An IP packet: the addresses of its header, and the rest of it. -/
structure IpPacket where
  src : InAddr
  dst : InAddr
  rest : List UInt8
  deriving DecidableEq, Repr

namespace Table

/-- The static array before `main` runs. -/
def zero : Table := fun _ => ⟨zeroEndpoint, zeroEndpoint, 0⟩

/-- `session_init_table`; the last byte of the address is `i + 2` as a `u_char`. -/
def sessionInitTable (table : Table) : Table := fun i =>
  { table i with external := zeroEndpoint, internal := ⟨⟨127, 0, 0, UInt8.ofNat (i.val + 2)⟩, 0⟩ }

/-- The loop of `find_empty_slot` over the slots still to look at; `min_slot` has no value at first. -/
def findFrom (table : Table) : List Slot → Int → Option Slot → Option Slot
  | [], _, minSlot => minSlot
  | i :: slots, minTime, minSlot =>
      if (table i).lastUsage = 0 then some i
      else if (table i).lastUsage < minTime ∨ minTime = 0 then findFrom table slots (table i).lastUsage (some i)
      else findFrom table slots minTime minSlot

/-- `find_empty_slot`. -/
def findEmptySlot (table : Table) : Option Slot := findFrom table (List.finRange maxClients) 0 none

/-- `session_create`, at the time `now`. -/
def sessionCreate (table : Table) (external : Endpoint) (now : Int) : Option (Slot × Table) :=
  table.findEmptySlot.map fun slot =>
    (slot, Function.update table slot { table slot with external := external, lastUsage := now })

/-- `session_lookup`. -/
def sessionLookup (table : Table) (endp : Endpoint) : Direction → Option Slot
  | .incoming => (List.finRange maxClients).find? fun i =>
      endp.addr = (table i).external.addr ∧ endp.port = (table i).external.port
  | .outgoing => (List.finRange maxClients).find? fun i => endp.addr = (table i).internal.addr

end Table

/-- What a handler puts on the wire. -/
inductive Sent
  /-- `write_loopback`. -/
  | loopback (packet : IpPacket)
  /-- `write_external`, of a UDP packet with an IP packet inside. -/
  | external (dest : Endpoint) (packet : IpPacket)
  /-- The packet is ignored. -/
  | nothing
  deriving DecidableEq, Repr

/-- The packet `write_loopback` makes of the one it is given. -/
def writeLoopback (source : Endpoint) (packet : IpPacket) : Sent :=
  .loopback { packet with src := source.addr, dst := loopbackIp }

/-- What the server captures: a UDP packet on the external device, from a client at the time `now`, or an
IP packet on the loopback device. -/
inductive Packet
  | external (client : Endpoint) (now : Int) (payload : IpPacket)
  | loopback (packet : IpPacket)
  deriving DecidableEq, Repr

namespace Table

/-- `external_packet`. -/
def externalPacket (table : Table) (client : Endpoint) (now : Int) (payload : IpPacket) : Option (Sent × Table) :=
  match table.sessionLookup client .incoming with
  | some slot => some (writeLoopback (table slot).internal payload, table)
  | none =>
      match table.sessionCreate client now with
      | none => none
      | some (slot, table) => some (writeLoopback (table slot).internal payload, table)

/-- `loopback_packet`; only the address of the endpoint it looks up is set. -/
def loopbackPacket (table : Table) (packet : IpPacket) : Sent :=
  match table.sessionLookup ⟨packet.dst, 0⟩ .outgoing with
  | none => .nothing
  | some slot => .external (table slot).external packet

/-- One packet. -/
def packet (table : Table) : Packet → Option (Sent × Table)
  | .external client now payload => table.externalPacket client now payload
  | .loopback packet => some (table.loopbackPacket packet, table)

def Step (table : Table) (packet : Packet) (table' : Table) : Prop := ∃ sent, table.packet packet = some (sent, table')

/-- The table the server starts with. -/
def init : Table := zero.sessionInitTable

/-! ### What a packet does to the table -/

theorem findFrom_isSome (table : Table) {slots : List Slot} {minTime : Int} {minSlot : Option Slot}
    (h : minSlot.isSome ∨ minTime = 0 ∧ slots ≠ []) : (findFrom table slots minTime minSlot).isSome := by
  induction slots generalizing minTime minSlot with
  | nil => exact h.resolve_right fun hboth => hboth.2 rfl
  | cons i slots ih =>
      rw [findFrom]
      split
      · rfl
      · split
        · exact ih (Or.inl rfl)
        · next hmin => exact ih (Or.inl (h.resolve_right fun hboth => hmin (Or.inr hboth.1)))

/-- There is always a slot for a newcomer. -/
theorem findEmptySlot_isSome (table : Table) : table.findEmptySlot.isSome :=
  findFrom_isSome table (Or.inr ⟨rfl, by decide⟩)

/-- No packet stops the server. -/
theorem packet_isSome (table : Table) (packet : Packet) : (table.packet packet).isSome := by
  cases packet with
  | loopback packet => rfl
  | external client now payload =>
      obtain ⟨slot, hslot⟩ := Option.isSome_iff_exists.mp table.findEmptySlot_isSome
      rw [Table.packet, externalPacket, sessionCreate, hslot]
      split <;> rfl

/-- A packet has `session_create` give the slot with an internal address to its sender. -/
def Reuses (table : Table) (packet : Packet) (addr : InAddr) : Prop :=
  ∃ client now payload slot, packet = .external client now payload ∧
    table.sessionLookup client .incoming = none ∧ table.findEmptySlot = some slot ∧ (table slot).internal.addr = addr

theorem sessionLookup_incoming_none {table : Table} {client : Endpoint}
    (h : table.sessionLookup client .incoming = none) (i : Slot) : (table i).external ≠ client := by
  have hmissing := List.find?_eq_none.mp h i (List.mem_finRange i)
  rintro rfl
  simp at hmissing

theorem sessionLookup_incoming_some {table : Table} {client : Endpoint} {slot : Slot}
    (h : table.sessionLookup client .incoming = some slot) : (table slot).external = client := by
  rw [sessionLookup] at h
  have hfound := List.find?_some h
  rw [decide_eq_true_eq] at hfound
  obtain ⟨haddr, hport⟩ := hfound
  cases client
  exact (congrArg₂ Endpoint.mk haddr hport).symm

/-- Everything a step can do: nothing to the table, or a new session for an endpoint no slot has. -/
theorem Step.cases {table table' : Table} {packet : Packet} (h : table.Step packet table') :
    table' = table ∨ ∃ slot client now, (∀ i, (table i).external ≠ client) ∧
      table.Reuses packet (table slot).internal.addr ∧
      table' = Function.update table slot { table slot with external := client, lastUsage := now } := by
  obtain ⟨sent, h⟩ := h
  cases packet with
  | loopback packet =>
      rw [Table.packet, Option.some.injEq] at h
      exact Or.inl (congrArg Prod.snd h).symm
  | external client now payload =>
      rw [Table.packet, externalPacket] at h
      split at h
      · exact Or.inl (congrArg Prod.snd (Option.some.inj h)).symm
      · next hlookup =>
        split at h
        · cases h
        · next slot table'' hcreate =>
          obtain ⟨found, hfound, heq⟩ := Option.map_eq_some_iff.mp hcreate
          obtain ⟨rfl, rfl⟩ := Prod.mk.inj heq
          refine Or.inr ⟨found, client, now, sessionLookup_incoming_none hlookup,
            ⟨client, now, payload, found, rfl, hlookup, hfound, rfl⟩, ?_⟩
          exact (congrArg Prod.snd (Option.some.inj h)).symm

/-! ### The table over a run -/

/-- All slots have different internal addresses, and the slots in use different external endpoints. -/
structure Distinct (table : Table) : Prop where
  internal : ∀ i j, i ≠ j → (table i).internal.addr ≠ (table j).internal.addr
  external : ∀ i j, i ≠ j → (table i).lastUsage ≠ 0 → (table j).lastUsage ≠ 0 →
    (table i).external ≠ (table j).external

theorem distinct_init : init.Distinct where
  internal i j hij haddr := by
    have hlast : UInt8.ofNat (i.val + 2) = UInt8.ofNat (j.val + 2) := by
      injection haddr with hbytes
      injection hbytes with _ hbytes
      injection hbytes with _ hbytes
      injection hbytes with _ hlast
    have hi : i.val < 10 := i.isLt
    have hj : j.val < 10 := j.isLt
    have hnat := congrArg UInt8.toNat hlast
    rw [UInt8.toNat_ofNat', UInt8.toNat_ofNat'] at hnat
    exact hij (Fin.ext (by omega))
  external _ _ _ hused _ := absurd rfl hused

theorem Step.distinct {table table' : Table} {packet : Packet} (h : table.Step packet table')
    (hdistinct : table.Distinct) : table'.Distinct := by
  rcases h.cases with rfl | ⟨slot, client, now, hnew, -, rfl⟩
  · exact hdistinct
  · have hinternal : ∀ i, (Function.update table slot
        { table slot with external := client, lastUsage := now } i).internal = (table i).internal := by
      intro i
      by_cases hi : i = slot
      · rw [hi, Function.update_self]
      · rw [Function.update_of_ne hi]
    refine ⟨fun i j hij => ?_, fun i j hij hi hj => ?_⟩
    · rw [hinternal, hinternal]
      exact hdistinct.internal i j hij
    · by_cases hslot : i = slot
      · have hother : j ≠ slot := fun hj => hij (hslot.trans hj.symm)
        rw [hslot, Function.update_self, Function.update_of_ne hother]
        exact (hnew j).symm
      · rw [Function.update_of_ne hslot] at hi ⊢
        by_cases hother : j = slot
        · rw [hother, Function.update_self]
          exact hnew i
        · rw [Function.update_of_ne hother] at hj ⊢
          exact hdistinct.external i j hij hi hj

theorem distinct_run {packets : List Packet} {table : Table} (h : Run Step init packets table) : table.Distinct :=
  h.invariant (fun _ table => table.Distinct) distinct_init fun _ _ _ _ _ hdistinct hstep => hstep.distinct hdistinct

/-- The client of a slot: its endpoint, and the address it has on the loopback device. -/
def Serves (table : Table) (slot : Slot) (client : Endpoint) (addr : InAddr) : Prop :=
  (table slot).external = client ∧ (table slot).internal.addr = addr

/-- A slot serves its client until it is reused. -/
theorem Step.serves {table table' : Table} {packet : Packet} (h : table.Step packet table') {slot : Slot}
    {client : Endpoint} {addr : InAddr} (hserves : table.Serves slot client addr)
    (hkeep : ¬table.Reuses packet addr) : table'.Serves slot client addr := by
  rcases h.cases with rfl | ⟨reused, newcomer, now, -, hreuse, rfl⟩
  · exact hserves
  · have hne : slot ≠ reused := by
      rintro rfl
      rw [hserves.2] at hreuse
      exact hkeep hreuse
    rw [Serves, Function.update_of_ne hne]
    exact hserves

/-- The sender of an external packet is served under the address its packet goes out with. -/
theorem packet_serves {table table' : Table} {client : Endpoint} {now : Int} {payload sent : IpPacket}
    (h : table.packet (.external client now payload) = some (.loopback sent, table')) :
    ∃ slot, table'.Serves slot client sent.src := by
  rw [packet, externalPacket] at h
  split at h
  · next slot hlookup =>
    obtain ⟨hsent, rfl⟩ := Prod.mk.inj (Option.some.inj h)
    cases hsent
    exact ⟨slot, sessionLookup_incoming_some hlookup, rfl⟩
  · split at h
    · cases h
    · next slot table'' hcreate =>
      obtain ⟨hsent, rfl⟩ := Prod.mk.inj (Option.some.inj h)
      cases hsent
      obtain ⟨found, hfound, heq⟩ := Option.map_eq_some_iff.mp hcreate
      obtain ⟨rfl, rfl⟩ := Prod.mk.inj heq
      exact ⟨found, by rw [Function.update_self], rfl⟩

/-- A packet for the address of a served client goes to the client. -/
theorem Serves.loopbackPacket {table : Table} {slot : Slot} {client : Endpoint} {packet : IpPacket}
    (h : table.Serves slot client packet.dst) (hdistinct : table.Distinct) :
    table.loopbackPacket packet = .external client packet := by
  have hlookup : table.sessionLookup ⟨packet.dst, 0⟩ .outgoing = some slot := by
    rw [sessionLookup]
    have hsome : ((List.finRange maxClients).find? fun i => packet.dst = (table i).internal.addr).isSome :=
      List.find?_isSome.mpr ⟨slot, List.mem_finRange slot, decide_eq_true h.2.symm⟩
    obtain ⟨found, hfound⟩ := Option.isSome_iff_exists.mp hsome
    have haddr := List.find?_some hfound
    rw [decide_eq_true_eq] at haddr
    have hsame : found = slot := by
      by_contra hne
      exact hdistinct.internal found slot hne (haddr.symm.trans h.2.symm)
    rw [← hsame]
    exact hfound
  rw [Table.loopbackPacket, hlookup]
  exact congrArg (Sent.external · packet) h.1

end Table

/-- **Replies reach the client.** After any packets the internal addresses are different and so are the
endpoints of the sessions in use; and when a client's packet has gone out with some address, packets for
that address go to the client as long as its slot is not given to another one. -/
theorem sessions_kept (packets : List Packet) (table : Table) (h : Run Table.Step Table.init packets table) :
    table.Distinct ∧ ∀ client now payload sent middle later finish reply,
      table.packet (.external client now payload) = some (.loopback sent, middle) →
      Run (Restrict Table.Step fun table packet => ¬table.Reuses packet sent.src) middle later finish →
      reply.dst = sent.src → finish.packet (.loopback reply) = some (.external client reply, finish) := by
  refine ⟨Table.distinct_run h, fun client now payload sent middle later finish reply hsent hlater hreply => ?_⟩
  obtain ⟨slot, hserves⟩ := Table.packet_serves hsent
  have hfinish : finish.Serves slot client sent.src :=
    hlater.invariant (fun _ table => table.Serves slot client sent.src) hserves
      fun _ _ _ _ _ hbefore hstep => hstep.2.serves hbefore hstep.1
  have hrun : Run Table.Step Table.init _ finish := (h.trans (Run.single ⟨_, hsent⟩)).trans hlater.forget
  rw [← hreply] at hfinish
  rw [Table.packet, hfinish.loopbackPacket (Table.distinct_run hrun)]

/-- A client's request, and the packet that goes out for it. -/
def request : IpPacket := ⟨⟨10, 0, 0, 1⟩, ⟨10, 0, 0, 2⟩, [1]⟩

def client : Endpoint := ⟨⟨192, 0, 2, 1⟩, 4000⟩

theorem sessions_kept_reply : ∃ table, Table.init.packet (.external client 1 request) =
      some (.loopback ⟨⟨127, 0, 0, 2⟩, loopbackIp, [1]⟩, table) ∧
    table.packet (.loopback ⟨loopbackIp, ⟨127, 0, 0, 2⟩, [2]⟩) =
      some (.external client ⟨loopbackIp, ⟨127, 0, 0, 2⟩, [2]⟩, table) := by
  obtain ⟨table, hsent⟩ : ∃ table, Table.init.packet (.external client 1 request) =
      some (.loopback ⟨⟨127, 0, 0, 2⟩, loopbackIp, [1]⟩, table) := ⟨_, rfl⟩
  exact ⟨table, hsent, (sessions_kept [] Table.init (.nil _)).2 client 1 request _ table [] table _ hsent (.nil _) rfl⟩

end Thebends.Utunnel
