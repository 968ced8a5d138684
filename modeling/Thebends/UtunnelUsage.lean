import Mathlib.Data.Fintype.EquivFin
import Thebends.UtunnelSession

/-! Which session gives way to a newcomer. The table knows when its sessions were created, and not when they were last
used: it is the one created first that gives way, and that is the one that has gone unused the longest only where the
sessions are used in the order in which they were created. -/

namespace Thebends.Utunnel

open LibRun

/-- What the server captures, without the time. -/
inductive Capture
  | external (client : Endpoint) (payload : IpPacket)
  | loopback (packet : IpPacket)
  deriving DecidableEq, Repr

def Capture.packet (now : Int) : Capture → Packet
  | .external client payload => .external client now payload
  | .loopback packet => .loopback packet

namespace Table

/-- The slot whose session is there for a packet already. -/
def session (table : Table) : Capture → Option Slot
  | .external client _ => table.sessionLookup client .incoming
  | .loopback packet => table.sessionLookup ⟨packet.dst, 0⟩ .outgoing

/-- The slot through which a packet is translated. -/
def through (table : Table) : Capture → Option Slot
  | .external client _ => (table.sessionLookup client .incoming).or table.findEmptySlot
  | .loopback packet => table.sessionLookup ⟨packet.dst, 0⟩ .outgoing

/-- Every slot has a session. -/
def Full (table : Table) : Prop := ∀ i, (table i).lastUsage ≠ 0

instance (table : Table) : Decidable table.Full := inferInstanceAs (Decidable (∀ _, _))

/-- The session of `i` was created before that of `j`, or in the same second and in an earlier slot. -/
def Before (table : Table) (i j : Slot) : Prop :=
  (table i).lastUsage < (table j).lastUsage ∨ (table i).lastUsage = (table j).lastUsage ∧ i < j

instance (table : Table) (i j : Slot) : Decidable (table.Before i j) := inferInstanceAs (Decidable (_ ∨ _))

end Table

/-- The server, the time that the clock has come to, and when each session was last used. -/
@[ext] structure Usage where
  table : Table
  used : Slot → Int
  clock : Int

namespace Usage

/-- A packet, which is captured at some time. -/
structure Step (s : Usage) (label : Int × Capture) (s' : Usage) : Prop where
  later : s.clock ≤ label.1
  time : label.1 ≠ 0
  table : s.table.Step (label.2.packet label.1) s'.table
  used : s'.used = (s.table.through label.2).elim s.used fun slot => Function.update s.used slot label.1
  clock : s'.clock = label.1

/-- The server at its start. -/
def start (clock : Int) : Usage := ⟨Table.init, fun _ => 0, clock⟩

/-- Where the table is full and a packet comes from an endpoint without a session, the slot that is reused is one whose
session has gone unused the longest. -/
def ReusesLeastRecent (s : Usage) : Prop :=
  s.table.Full → ∀ client now slot table', s.table.sessionLookup client .incoming = none →
    s.table.sessionCreate client now = some (slot, table') → ∀ j, s.used slot ≤ s.used j

/-- A packet from an endpoint without a session. -/
def Newcomer (s : Usage) (label : Int × Capture) : Prop :=
  ∃ client payload, label.2 = .external client payload ∧ s.table.sessionLookup client .incoming = none

/-- The right slots are reused, now and however many newcomers there are. -/
def Fair (s : Usage) : Prop :=
  ∀ labels s', Run (Restrict Step Newcomer) s labels s' → s'.ReusesLeastRecent

/-- A packet comes for a session only where each one that was created later was last used at that time already. -/
def InOrder (s : Usage) (label : Int × Capture) : Prop :=
  ∀ i, s.table.session label.2 = some i → (s.table i).lastUsage ≠ 0 →
    ∀ j, (s.table j).lastUsage ≠ 0 → s.table.Before i j → label.1 ≤ s.used j

end Usage

/-! ### The slot of a newcomer -/

namespace Table

theorem Before.irrefl (table : Table) (i : Slot) : ¬table.Before i i := by
  rintro (hlt | ⟨-, hlt⟩)
  · exact Int.lt_irrefl _ hlt
  · exact Nat.lt_irrefl _ hlt

theorem Before.trans {table : Table} {i j k : Slot} (h : table.Before i j) (h' : table.Before j k) :
    table.Before i k := by
  rcases h with hlt | ⟨heq, hlt⟩
  · rcases h' with hlt' | ⟨heq', -⟩
    · exact .inl (hlt.trans hlt')
    · exact .inl (heq' ▸ hlt)
  · rcases h' with hlt' | ⟨heq', hlt'⟩
    · exact .inl (heq ▸ hlt')
    · exact .inr ⟨heq.trans heq', hlt.trans hlt'⟩

/-- Of the slots in a list, which all have sessions, `slot` was created first. -/
def Oldest (table : Table) (slots : List Slot) (slot : Slot) : Prop :=
  ∀ j ∈ slots, (table j).lastUsage ≠ 0 ∧ (j = slot ∨ table.Before slot j)

theorem Oldest.snoc {table : Table} {seen : List Slot} {slot i : Slot} (h : table.Oldest seen slot)
    (hi : (table i).lastUsage ≠ 0) (hslot : i = slot ∨ table.Before slot i) : table.Oldest (seen ++ [i]) slot := by
  intro j hj
  rcases List.mem_append.mp hj with hseen | hlast
  · exact h j hseen
  · rw [List.mem_singleton.mp hlast]
    exact ⟨hi, hslot⟩

theorem Oldest.of_before {table : Table} {seen : List Slot} {slot i : Slot} (h : table.Oldest seen slot)
    (hbefore : table.Before i slot) : table.Oldest seen i := by
  intro j hj
  obtain ⟨hused, rfl | hlater⟩ := h j hj
  · exact ⟨hused, .inr hbefore⟩
  · exact ⟨hused, .inr (hbefore.trans hlater)⟩

/-- The loop, which has seen some slots already and knows the oldest of them. -/
theorem findFrom_spec {table : Table} {seen slots : List Slot} {minTime : Int} {minSlot : Option Slot} {slot : Slot}
    (hsorted : (seen ++ slots).Pairwise (· < ·))
    (hseen : (seen = [] ∧ minTime = 0 ∧ minSlot = none) ∨
      ∃ m ∈ seen, minSlot = some m ∧ minTime = (table m).lastUsage ∧ table.Oldest seen m)
    (h : findFrom table slots minTime minSlot = some slot) :
    (table slot).lastUsage = 0 ∨ table.Oldest (seen ++ slots) slot := by
  induction slots generalizing seen minTime minSlot with
  | nil =>
      rw [findFrom] at h
      obtain ⟨-, -, hnone⟩ | ⟨m, -, hsome, -, hold⟩ := hseen
      · rw [hnone] at h
        cases h
      · obtain rfl := Option.some.inj (hsome.symm.trans h)
        rw [List.append_nil]
        exact .inr hold
  | cons i slots ih =>
      have happend : seen ++ i :: slots = seen ++ [i] ++ slots := List.append_cons seen i slots
      rw [findFrom] at h
      rw [happend] at hsorted ⊢
      split_ifs at h with hempty hmin
      · rw [← Option.some.inj h]
        exact .inl hempty
      · refine ih hsorted (.inr ⟨i, List.mem_append_right _ (List.mem_singleton_self i), rfl, rfl, ?_⟩) h
        obtain ⟨rfl, -, -⟩ | ⟨m, hm, -, rfl, hold⟩ := hseen
        · exact Oldest.snoc (fun j hj => absurd hj List.not_mem_nil) hempty (.inl rfl)
        · have hlt := hmin.resolve_right (hold m hm).1
          exact (hold.of_before (.inl hlt)).snoc hempty (.inl rfl)
      · obtain ⟨-, hzero, -⟩ | ⟨m, hm, hsome, rfl, hold⟩ := hseen
        · exact absurd (.inr hzero) hmin
        · have hsplit := List.pairwise_append.mp (List.pairwise_append.mp hsorted).1
          have hlt : m < i := hsplit.2.2 m hm i (List.mem_singleton_self i)
          have hle : (table m).lastUsage ≤ (table i).lastUsage := Int.not_lt.mp fun hlt => hmin (.inl hlt)
          have hbefore : table.Before m i := (Int.lt_or_eq_of_le hle).imp_right fun heq => ⟨heq, hlt⟩
          exact ih hsorted (.inr ⟨m, List.mem_append_left _ hm, hsome, rfl, hold.snoc hempty (.inr hbefore)⟩) h

theorem findEmptySlot_spec {table : Table} {slot : Slot} (h : table.findEmptySlot = some slot) :
    (table slot).lastUsage = 0 ∨ table.Full ∧ ∀ j, j ≠ slot → table.Before slot j := by
  have hsorted : ([] ++ List.finRange maxClients).Pairwise (· < ·) := List.pairwise_lt_finRange maxClients
  refine (findFrom_spec hsorted (.inl ⟨rfl, rfl, rfl⟩) h).imp_right fun hold => ?_
  exact ⟨fun j => (hold j (List.mem_finRange j)).1, fun j hne => (hold j (List.mem_finRange j)).2.resolve_left hne⟩

end Table

/-! ### What a packet does -/

namespace Usage

variable {s s' : Usage} {label : Int × Capture}

/-- The table when a newcomer has got a slot. -/
def give (s : Usage) (slot : Slot) (client : Endpoint) (now : Int) : Usage where
  table := Function.update s.table slot { s.table slot with external := client, lastUsage := now }
  used := Function.update s.used slot now
  clock := now

/-- A packet goes through the session that is there for it, or finds none, or makes one. -/
theorem Step.cases (h : s.Step label s') :
    (∃ slot, s.table.session label.2 = some slot ∧ s' = ⟨s.table, Function.update s.used slot label.1, label.1⟩) ∨
    (s.table.session label.2 = none ∧ s' = ⟨s.table, s.used, label.1⟩) ∨
    ∃ client payload slot, label.2 = .external client payload ∧ s.table.sessionLookup client .incoming = none ∧
      s.table.findEmptySlot = some slot ∧ s' = s.give slot client label.1 := by
  obtain ⟨now, capture⟩ := label
  obtain ⟨table', used', clock'⟩ := s'
  obtain ⟨-, -, ⟨sent, hpacket⟩, hused, hclock⟩ := h
  dsimp only at hpacket hused hclock ⊢
  subst hclock hused
  cases capture with
  | loopback packet =>
      obtain rfl := congrArg Prod.snd (Option.some.inj hpacket)
      cases hlookup : s.table.sessionLookup ⟨packet.dst, 0⟩ .outgoing with
      | none => exact .inr (.inl ⟨hlookup, by rw [Table.through, hlookup]; rfl⟩)
      | some slot => exact .inl ⟨slot, hlookup, by rw [Table.through, hlookup]; rfl⟩
  | external client payload =>
      rw [Capture.packet, Table.packet, Table.externalPacket] at hpacket
      cases hlookup : s.table.sessionLookup client .incoming with
      | some slot =>
          rw [hlookup] at hpacket
          obtain rfl := congrArg Prod.snd (Option.some.inj hpacket)
          exact .inl ⟨slot, hlookup, by rw [Table.through, hlookup]; rfl⟩
      | none =>
          obtain ⟨slot, hslot⟩ := Option.isSome_iff_exists.mp s.table.findEmptySlot_isSome
          rw [hlookup, Table.sessionCreate, hslot] at hpacket
          obtain rfl := congrArg Prod.snd (Option.some.inj hpacket)
          exact .inr (.inr ⟨client, payload, slot, rfl, hlookup, hslot, by rw [Table.through, hlookup, hslot]; rfl⟩)

theorem sessionCreate_eq {slot : Slot} (hslot : s.table.findEmptySlot = some slot) (client : Endpoint) (now : Int) :
    s.table.sessionCreate client now = some (slot, (s.give slot client now).table) := by
  rw [Table.sessionCreate, hslot]
  rfl

/-- What is sent is translated by the session of the slot that counts as used. -/
theorem packet_through {table table' : Table} {now : Int} {capture : Capture} {sent : Sent}
    (h : table.packet (capture.packet now) = some (sent, table')) :
    match capture, table.through capture with
    | .external _ payload, some slot => sent = writeLoopback (table' slot).internal payload
    | .external _ _, none => False
    | .loopback packet, some slot => sent = .external (table slot).external packet
    | .loopback _, none => sent = .nothing := by
  cases capture with
  | loopback packet =>
      have hsent : table.loopbackPacket packet = sent := congrArg Prod.fst (Option.some.inj h)
      rw [Table.loopbackPacket] at hsent
      rw [Table.through]
      cases hlookup : table.sessionLookup ⟨packet.dst, 0⟩ .outgoing with
      | none =>
          rw [hlookup] at hsent
          exact hsent.symm
      | some slot =>
          rw [hlookup] at hsent
          exact hsent.symm
  | external client payload =>
      rw [Capture.packet, Table.packet, Table.externalPacket] at h
      rw [Table.through]
      cases hlookup : table.sessionLookup client .incoming with
      | some slot =>
          rw [hlookup] at h
          obtain ⟨rfl, rfl⟩ := Prod.mk.inj (Option.some.inj h)
          rfl
      | none =>
          obtain ⟨slot, hslot⟩ := Option.isSome_iff_exists.mp table.findEmptySlot_isSome
          rw [hlookup, Table.sessionCreate, hslot] at h
          obtain ⟨rfl, rfl⟩ := Prod.mk.inj (Option.some.inj h)
          rw [hslot]
          rfl

/-- A newcomer comes. -/
theorem step_give {client : Endpoint} {slot : Slot} {now : Int} (payload : IpPacket)
    (hunknown : s.table.sessionLookup client .incoming = none) (hslot : s.table.findEmptySlot = some slot)
    (hlater : s.clock ≤ now) (htime : now ≠ 0) :
    s.Step (now, .external client payload) (s.give slot client now) where
  later := hlater
  time := htime
  table := by
    refine ⟨writeLoopback ((s.give slot client now).table slot).internal payload, ?_⟩
    rw [Capture.packet, Table.packet, Table.externalPacket, hunknown, sessionCreate_eq hslot]
  used := by
    rw [Table.through, hunknown, hslot]
    rfl
  clock := rfl

theorem Step.unique {other : Usage} (h : s.Step label s') (h' : s.Step label other) : s' = other := by
  obtain ⟨sent, hpacket⟩ := h.table
  obtain ⟨sent', hpacket'⟩ := h'.table
  have htable := congrArg Prod.snd (Option.some.inj (hpacket.symm.trans hpacket'))
  exact Usage.ext htable (h.used.trans h'.used.symm) (h.clock.trans h'.clock.symm)

/-! ### The order of the sessions -/

/-- No session was used before it was created, or after the clock. -/
def Timely (s : Usage) : Prop :=
  ∀ i, (s.table i).lastUsage ≠ 0 → (s.table i).lastUsage ≤ s.used i ∧ s.used i ≤ s.clock

/-- The sessions were last used in the order in which they were created. -/
def Sorted (s : Usage) : Prop :=
  ∀ i j, (s.table i).lastUsage ≠ 0 → (s.table j).lastUsage ≠ 0 → s.table.Before i j → s.used i ≤ s.used j

section Give

variable {slot i j : Slot} {client : Endpoint} {now : Int}

@[simp] theorem lastUsage_give_self : ((s.give slot client now).table slot).lastUsage = now := by
  dsimp only [give]
  rw [Function.update_self]

@[simp] theorem used_give_self : (s.give slot client now).used slot = now := by
  dsimp only [give]
  rw [Function.update_self]

theorem table_give_of_ne (h : i ≠ slot) : (s.give slot client now).table i = s.table i := Function.update_of_ne h _ _

theorem used_give_of_ne (h : i ≠ slot) : (s.give slot client now).used i = s.used i := Function.update_of_ne h _ _

theorem before_give_iff (hi : i ≠ slot) (hj : j ≠ slot) :
    (s.give slot client now).table.Before i j ↔ s.table.Before i j := by
  rw [Table.Before, Table.Before, table_give_of_ne hi, table_give_of_ne hj]

end Give

theorem Timely.step (hs : s.Timely) (h : s.Step label s') : s'.Timely := by
  intro i hused
  have hlater := h.later
  obtain ⟨slot, -, rfl⟩ | ⟨-, rfl⟩ | ⟨client, payload, slot, -, -, -, rfl⟩ := h.cases
  · obtain ⟨hcreated, hclock⟩ := hs i hused
    by_cases hi : i = slot
    · subst hi
      dsimp only
      rw [Function.update_self]
      exact ⟨(hcreated.trans hclock).trans hlater, Int.le_refl _⟩
    · dsimp only
      rw [Function.update_of_ne hi]
      exact ⟨hcreated, hclock.trans hlater⟩
  · obtain ⟨hcreated, hclock⟩ := hs i hused
    exact ⟨hcreated, hclock.trans hlater⟩
  · by_cases hi : i = slot
    · subst hi
      rw [lastUsage_give_self, used_give_self]
      exact ⟨Int.le_refl _, Int.le_refl _⟩
    · rw [table_give_of_ne hi] at hused ⊢
      rw [used_give_of_ne hi]
      obtain ⟨hcreated, hclock⟩ := hs i hused
      exact ⟨hcreated, hclock.trans hlater⟩

/-- A new session is the last in both orders. -/
theorem Sorted.give (hs : s.Sorted) (htimely : s.Timely) {now : Int} (hlater : s.clock ≤ now) (slot : Slot)
    (client : Endpoint) : (s.give slot client now).Sorted := by
  intro i j hi hj hbefore
  by_cases hjslot : j = slot
  · subst hjslot
    rw [used_give_self]
    by_cases hislot : i = j
    · exact absurd (hislot ▸ hbefore) (Table.Before.irrefl _ _)
    · rw [table_give_of_ne hislot] at hi
      rw [used_give_of_ne hislot]
      exact (htimely i hi).2.trans hlater
  · rw [table_give_of_ne hjslot] at hj
    rw [used_give_of_ne hjslot]
    by_cases hislot : i = slot
    · subst hislot
      rw [Table.Before, lastUsage_give_self, table_give_of_ne hjslot] at hbefore
      rw [used_give_self]
      have hle : now ≤ (s.table j).lastUsage := hbefore.elim Int.le_of_lt fun heq => Int.le_of_eq heq.1
      exact hle.trans (htimely j hj).1
    · rw [table_give_of_ne hislot] at hi
      rw [used_give_of_ne hislot]
      exact hs i j hi hj ((before_give_iff hislot hjslot).mp hbefore)

/-- A session is used: the order is kept just where those created later were used no earlier. -/
theorem sorted_use_iff (hs : s.Sorted) (htimely : s.Timely) {now : Int} (hlater : s.clock ≤ now) (slot : Slot) :
    Sorted ⟨s.table, Function.update s.used slot now, now⟩ ↔
      ((s.table slot).lastUsage ≠ 0 → ∀ j, (s.table j).lastUsage ≠ 0 → s.table.Before slot j → now ≤ s.used j) := by
  constructor
  · intro hsorted hslot j hj hbefore
    have hne : j ≠ slot := by
      rintro rfl
      exact Table.Before.irrefl _ _ hbefore
    have hle := hsorted slot j hslot hj hbefore
    dsimp only at hle
    rwa [Function.update_self, Function.update_of_ne hne] at hle
  · intro horder i j hi hj hbefore
    dsimp only at hi hj hbefore ⊢
    by_cases hjslot : j = slot
    · subst hjslot
      have hne : i ≠ j := by
        rintro rfl
        exact Table.Before.irrefl _ _ hbefore
      rw [Function.update_self, Function.update_of_ne hne]
      exact (htimely i hi).2.trans hlater
    · rw [Function.update_of_ne hjslot]
      by_cases hislot : i = slot
      · subst hislot
        rw [Function.update_self]
        exact horder hi j hj hbefore
      · rw [Function.update_of_ne hislot]
        exact hs i j hi hj hbefore

/-- What one packet does to the order. -/
theorem Step.sorted_iff (h : s.Step label s') (hs : s.Sorted) (htimely : s.Timely) :
    s'.Sorted ↔ s.InOrder label := by
  have hlater := h.later
  obtain ⟨slot, hslot, rfl⟩ | ⟨hnone, rfl⟩ | ⟨client, payload, slot, hcapture, hunknown, -, rfl⟩ := h.cases
  · rw [sorted_use_iff hs htimely hlater]
    constructor
    · intro horder i hi
      obtain rfl := Option.some.inj (hslot.symm.trans hi)
      exact horder
    · exact fun horder => horder slot hslot
  · exact iff_of_true hs fun i hi => absurd (hnone.symm.trans hi) nofun
  · refine iff_of_true (hs.give htimely hlater slot client) fun i hi => ?_
    rw [hcapture] at hi
    exact absurd (hunknown.symm.trans hi) nofun

/-! ### The order, and who gives way -/

theorem Sorted.reusesLeastRecent (hs : s.Sorted) : s.ReusesLeastRecent := by
  intro hfull client now slot table' _ hcreate j
  obtain ⟨slot', hslot, heq⟩ := Option.map_eq_some_iff.mp hcreate
  obtain ⟨rfl, -⟩ := Prod.mk.inj heq
  obtain hempty | ⟨-, hold⟩ := Table.findEmptySlot_spec hslot
  · exact absurd hempty (hfull slot')
  · by_cases hj : j = slot'
    · rw [hj]
    · exact hs slot' j (hfull slot') (hfull j) (hold j hj)

/-- A newcomer finds no session. -/
theorem Newcomer.inOrder (h : s.Newcomer label) : s.InOrder label := by
  obtain ⟨client, payload, hlabel, hunknown⟩ := h
  intro i hi
  rw [hlabel] at hi
  exact absurd (hunknown.symm.trans hi) nofun

theorem Sorted.fair (hs : s.Sorted) (htimely : s.Timely) : s.Fair := by
  intro labels s' hrun
  have hboth := hrun.invariant (fun _ s => s.Sorted ∧ s.Timely) ⟨hs, htimely⟩
    fun _ _ _ _ _ hbefore hstep =>
      ⟨(hstep.2.sorted_iff hbefore.1 hbefore.2).mpr hstep.1.inOrder, hbefore.2.step hstep.2⟩
  exact hboth.1.reusesLeastRecent

/-- There is always an endpoint without a session. -/
theorem exists_unknown (table : Table) : ∃ client, table.sessionLookup client .incoming = none := by
  obtain ⟨port, hport⟩ := Infinite.exists_notMem_finset (Finset.univ.image fun i => (table i).external.port)
  refine ⟨⟨loopbackIp, port⟩, List.find?_eq_none.mpr fun i _ hfound => hport ?_⟩
  rw [decide_eq_true_eq] at hfound
  exact Finset.mem_image.mpr ⟨i, Finset.mem_univ i, hfound.2.symm⟩

/-- The slots that are given away before `i` is. -/
def ahead (s : Usage) (i : Slot) : Finset Slot :=
  Finset.univ.filter fun k => (s.table k).lastUsage = 0 ∨ s.table.Before k i

theorem mem_ahead {i k : Slot} : k ∈ s.ahead i ↔ (s.table k).lastUsage = 0 ∨ s.table.Before k i := by
  rw [ahead, Finset.mem_filter, and_iff_right (Finset.mem_univ k)]

/-- A slot that is given away is not given away again before `i` is. -/
theorem card_ahead_give (client : Endpoint) (htimely : s.Timely) {i slot : Slot} {now : Int}
    (hi : (s.table i).lastUsage ≠ 0) (hne : i ≠ slot) (hahead : slot ∈ s.ahead i) (hlater : s.clock < now)
    (htime : now ≠ 0) : ((s.give slot client now).ahead i).card < (s.ahead i).card := by
  have hlast : slot ∉ (s.give slot client now).ahead i := by
    intro hmem
    rw [mem_ahead, Table.Before, lastUsage_give_self, table_give_of_ne hne] at hmem
    obtain ⟨hcreated, hclock⟩ := htimely i hi
    omega
  have hsub : (s.give slot client now).ahead i ⊆ s.ahead i := by
    intro k hk
    by_cases hslot : k = slot
    · exact absurd (hslot ▸ hk) hlast
    · rwa [mem_ahead, table_give_of_ne hslot, before_give_iff hslot hne, ← mem_ahead] at hk
  exact Finset.card_lt_card ((Finset.ssubset_iff_of_subset hsub).mpr ⟨slot, hahead, hlast⟩)

/-- Where a session was used after one that was created later, newcomers come to its slot first. -/
theorem exists_unfair {s : Usage} (htimely : s.Timely) {i j : Slot} (hi : (s.table i).lastUsage ≠ 0)
    (hj : (s.table j).lastUsage ≠ 0) (hbefore : s.table.Before i j) (hused : s.used j < s.used i) :
    ∃ labels s', Run (Restrict Step Newcomer) s labels s' ∧ ¬s'.ReusesLeastRecent := by
  obtain ⟨slot, hslot⟩ := Option.isSome_iff_exists.mp s.table.findEmptySlot_isSome
  obtain ⟨client, hunknown⟩ := exists_unknown s.table
  have hspec := Table.findEmptySlot_spec hslot
  by_cases hsame : slot = i
  · subst hsame
    refine ⟨[], s, .nil s, fun hfair => ?_⟩
    have hfull := (hspec.resolve_left hi).1
    exact absurd (hfair hfull client 0 slot _ hunknown (sessionCreate_eq hslot client 0) j) (Int.not_le.mpr hused)
  · have hahead : slot ∈ s.ahead i := mem_ahead.mpr (hspec.imp_right fun h => h.2 i (Ne.symm hsame))
    have hne : i ≠ slot := Ne.symm hsame
    have hnej : j ≠ slot := by
      rintro rfl
      obtain hempty | hback := mem_ahead.mp hahead
      · exact hj hempty
      · exact Table.Before.irrefl _ _ (hbefore.trans hback)
    obtain ⟨now, hlater, htime⟩ : ∃ now, s.clock < now ∧ now ≠ 0 := ⟨max s.clock 0 + 1, by omega, by omega⟩
    have hstep := step_give ⟨loopbackIp, loopbackIp, []⟩ hunknown hslot (Int.le_of_lt hlater) htime
    -- The slot comes after all others now, and `i` and `j` are as they were.
    have hfewer := card_ahead_give client htimely hi hne hahead hlater htime
    have hi' : ((s.give slot client now).table i).lastUsage ≠ 0 := by rwa [table_give_of_ne hne]
    have hj' : ((s.give slot client now).table j).lastUsage ≠ 0 := by rwa [table_give_of_ne hnej]
    have hused' : (s.give slot client now).used j < (s.give slot client now).used i := by
      rwa [used_give_of_ne hne, used_give_of_ne hnej]
    obtain ⟨labels, s', hrun, hunfair⟩ :=
      exists_unfair (htimely.step hstep) hi' hj' ((before_give_iff hne hnej).mpr hbefore) hused'
    exact ⟨_, s', .cons ⟨⟨client, _, rfl, hunknown⟩, hstep⟩ hrun, hunfair⟩
termination_by (s.ahead i).card

theorem fair_iff_sorted (htimely : s.Timely) : s.Fair ↔ s.Sorted := by
  refine ⟨fun hfair i j hi hj hbefore => ?_, fun hs => hs.fair htimely⟩
  by_contra hnot
  obtain ⟨labels, s', hrun, hunfair⟩ := exists_unfair htimely hi hj hbefore (Int.not_le.mp hnot)
  exact hunfair (hfair labels s' hrun)

theorem timely_start (clock : Int) : (start clock).Timely := fun _ hused => absurd rfl hused

theorem sorted_start (clock : Int) : (start clock).Sorted := fun _ _ hused => absurd rfl hused

end Usage

/-- **When the right session gives way**: just where each packet that is translated through a session finds all those
that were created later used at the same time already. Otherwise some session that is in use is given to a newcomer,
now or when enough of them have come, while another one has gone unused for longer. -/
theorem fair_iff_inOrder (clock : Int) (labels : List (Int × Capture)) (finish : Usage)
    (h : Run Usage.Step (Usage.start clock) labels finish) :
    (∀ taken state, taken <+: labels → Run Usage.Step (Usage.start clock) taken state → state.Fair) ↔
      Run (Restrict Usage.Step Usage.InOrder) (Usage.start clock) labels finish := by
  have hstep : ∀ before label after, before.Timely → before.Fair → Usage.Step before label after →
      (after.Fair ↔ before.InOrder label) ∧ (after.Fair → after.Timely) := by
    intro before label after htimely hfair hstep
    have hsorted := (Usage.fair_iff_sorted htimely).mp hfair
    exact ⟨(Usage.fair_iff_sorted (htimely.step hstep)).trans (hstep.sorted_iff hsorted htimely),
      fun _ => htimely.step hstep⟩
  exact Run.forall_iff_restrict (fun _ _ _ _ h h' => h.unique h') hstep (Usage.timely_start clock)
    ((Usage.sorted_start clock).fair (Usage.timely_start clock)) h

/-! ### A full table -/

/-- The clients that fill the table, in the order in which they come. -/
def guest (n : Nat) : Endpoint := ⟨⟨192, 0, 2, 1⟩, n⟩

/-- One guest a second. -/
def arrivals (n : Nat) : List (Int × Capture) :=
  (List.range n).map fun k : Nat => ((k : Int) + 1, .external (guest k) request)

/-- The server when they have come. -/
def guests (n : Nat) : Usage where
  table := fun i => if i.val < n then ⟨guest i, (Table.init i).internal, i.val + 1⟩ else Table.init i
  used := fun i => if i.val < n then i.val + 1 else 0
  clock := n

theorem sessionLookup_guests : ∀ n : Slot, (guests n).table.sessionLookup (guest n) .incoming = none := by decide

theorem findEmptySlot_guests : ∀ n : Slot, (guests n).table.findEmptySlot = some n := by decide

theorem give_guests (n : Slot) : (guests n).give n (guest n) (n.val + 1) = guests (n.val + 1) := by
  have hself : n.val < n.val + 1 := Nat.lt_succ_self n
  have hlt : ∀ i : Slot, i ≠ n → (i.val < n.val + 1 ↔ i.val < n.val) := by
    intro i hi
    have hval : i.val ≠ n.val := fun heq => hi (Fin.ext heq)
    omega
  have htable : ((guests n).give n (guest n) (n.val + 1)).table = (guests (n.val + 1)).table := by
    funext i
    by_cases hi : i = n
    · subst hi
      dsimp only [Usage.give, guests]
      rw [Function.update_self, if_neg (Nat.lt_irrefl i.val), if_pos hself]
    · rw [Usage.table_give_of_ne hi]
      dsimp only [guests]
      rw [if_congr (hlt i hi) rfl rfl]
  have hused : ((guests n).give n (guest n) (n.val + 1)).used = (guests (n.val + 1)).used := by
    funext i
    by_cases hi : i = n
    · subst hi
      rw [Usage.used_give_self]
      exact (if_pos hself).symm
    · rw [Usage.used_give_of_ne hi]
      exact (if_congr (hlt i hi) rfl rfl).symm
  exact Usage.ext htable hused rfl

theorem run_guests {n : Nat} (h : n ≤ maxClients) :
    Run (Restrict Usage.Step Usage.Newcomer) (Usage.start 0) (arrivals n) (guests n) := by
  induction n with
  | zero => exact .nil _
  | succ n ih =>
      have hunknown := sessionLookup_guests ⟨n, h⟩
      have hstep := Usage.step_give request hunknown (findEmptySlot_guests ⟨n, h⟩) (Int.le_add_one (Int.le_refl n))
        (by omega)
      rw [give_guests] at hstep
      rw [arrivals, List.range_succ, List.map_append]
      exact (ih (Nat.le_of_lt h)).snoc ⟨⟨guest n, request, rfl, hunknown⟩, hstep⟩

theorem fair_iff_inOrder_guests :
    ∃ finish, Run Usage.Step (Usage.start 0) (arrivals 10) finish ∧ finish.table.Full ∧ finish.Fair := by
  have hrun := run_guests (Nat.le_refl maxClients)
  have hinOrder : Run (Restrict Usage.Step Usage.InOrder) (Usage.start 0) (arrivals 10) (guests 10) :=
    hrun.mono fun _ _ _ hstep => ⟨hstep.1.inOrder, hstep.2⟩
  exact ⟨guests 10, hrun.forget, by decide,
    (fair_iff_inOrder 0 _ _ hrun.forget).mpr hinOrder _ _ List.prefix_rfl hrun.forget⟩

/-- Ten guests fill the table, and the first of them goes on. -/
theorem first_guest_gives_way : ∃ finish,
    Run Usage.Step (Usage.start 0) (arrivals 10 ++ [(11, .external (guest 0) request)]) finish ∧
      ¬finish.ReusesLeastRecent := by
  have hrun := (run_guests (Nat.le_refl maxClients)).forget
  let first : Slot := ⟨0, by decide⟩
  let finish : Usage := ⟨(guests 10).table, Function.update (guests 10).used first 11, 11⟩
  have hlookup : (guests 10).table.sessionLookup (guest 0) .incoming = some first := by decide
  have hstep : (guests 10).Step (11, .external (guest 0) request) finish := {
    later := by decide
    time := by decide
    table := by
      refine ⟨writeLoopback ((guests 10).table first).internal request, ?_⟩
      rw [Capture.packet, Table.packet, Table.externalPacket, hlookup]
    used := by
      rw [Table.through, hlookup]
      rfl
    clock := rfl }
  refine ⟨finish, hrun.snoc hstep, fun hfair => ?_⟩
  have hslot : finish.table.findEmptySlot = some first := by decide
  have hle := hfair (by decide) (guest 10) 12 first _ (by decide) (Usage.sessionCreate_eq hslot _ _) ⟨1, by decide⟩
  exact absurd hle (by decide)

end Thebends.Utunnel
