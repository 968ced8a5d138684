import Mathlib.Algebra.BigOperators.Group.List.Basic
import Mathlib.Algebra.Ring.Nat
import Mathlib.Data.List.Count
import Mathlib.Data.List.Nodup
import Thebends.LibRun

/-! The tunnel of multicast packets between networks (`misc/btunnel.c`): any number of tunnels, each on some network and
with the address of some other one. Datagrams are lost and overtake each other. A datagram on its way carries the
number of the packet of a host that it comes from; no handler looks at that. -/

namespace Thebends.MiscBtunnel

open LibRun

abbrev Bytes := List UInt8

/-- `PBUFSIZ`. -/
def pbufsiz : Nat := 1500

/-- `'Z'`. -/
def mark : UInt8 := 90

/-- `mark_packet`, unless it ends the process. -/
def markPacket (buf : Bytes) : Option Bytes := if buf.length > 13 then some (buf.set 13 mark) else none

/-- `is_marked_packet`. -/
def isMarkedPacket (buf : Bytes) : Bool := if buf.length > 13 then buf[13]? = some mark else false

/-- `handle_mcast_packet`: what it sends through the tunnel, unless it ignores the packet. -/
def handleMcastPacket (packet : Bytes) : Option Bytes :=
  let buf := packet.take pbufsiz
  if isMarkedPacket buf then none else some buf

/-- `handle_tunnel_packet`: what it sends to the multicast group, unless it ends the process. -/
def handleTunnelPacket (packet : Bytes) : Option Bytes := markPacket (packet.take pbufsiz)

/-! ### Networks -/

variable {N L : Type*}

/-- The tunnels, the network each one is on, and the one it sends to, if there is one at that address. -/
structure Network (N L : Type*) where
  nodes : List N
  nodup : nodes.Nodup
  lan : N → L
  peer : N → Option N

/-- A datagram on its way to a tunnel. -/
structure Copy (N : Type*) where
  node : N
  number : Nat
  data : Bytes
  deriving DecidableEq

/-- What is on its way to the sockets `s_mcast` and `s_tunnel`, and what happened so far: the packets of the hosts by
number, what each tunnel sent through the tunnel and to its multicast group, and which ones ended. -/
structure State (N L : Type*) where
  multicasts : List (Copy N)
  tunnelled : List (Copy N)
  hosts : List (L × Bytes)
  forwarded : List (N × Nat)
  repeated : List (N × Nat)
  ended : List N

/-- A host sends to the multicast group, a tunnel handles a datagram, or a datagram is lost. -/
inductive Happening (N L : Type*)
  | host (lan : L) (data : Bytes)
  | mcast (copy : Copy N)
  | tunnel (copy : Copy N)
  | loseMcast (copy : Copy N)
  | loseTunnel (copy : Copy N)

/-- What the multicast group of a network delivers, also to the sender. -/
def Network.copies [DecidableEq L] (net : Network N L) (lan : L) (number : Nat) (data : Bytes) : List (Copy N) :=
  (net.nodes.filter fun node => net.lan node = lan).map fun node => ⟨node, number, data⟩

namespace State

def start : State N L := ⟨[], [], [], [], [], []⟩

/-- What happens, if it can. -/
def perform [DecidableEq N] [DecidableEq L] (net : Network N L) (s : State N L) : Happening N L → Option (State N L)
  | .host lan data =>
      some { s with
        hosts := s.hosts ++ [(lan, data)]
        multicasts := s.multicasts ++ net.copies lan s.hosts.length data }
  | .mcast copy =>
      if copy ∈ s.multicasts ∧ copy.node ∉ s.ended then
        match handleMcastPacket copy.data with
        | none => some { s with multicasts := s.multicasts.erase copy }
        | some buf =>
            some { s with
              multicasts := s.multicasts.erase copy
              tunnelled := s.tunnelled ++ (net.peer copy.node).toList.map fun remote => ⟨remote, copy.number, buf⟩
              forwarded := s.forwarded ++ [(copy.node, copy.number)] }
      else none
  | .tunnel copy =>
      if copy ∈ s.tunnelled ∧ copy.node ∉ s.ended then
        match handleTunnelPacket copy.data with
        | none => some { s with tunnelled := s.tunnelled.erase copy, ended := copy.node :: s.ended }
        | some buf =>
            some { s with
              tunnelled := s.tunnelled.erase copy
              multicasts := s.multicasts ++ net.copies (net.lan copy.node) copy.number buf
              repeated := s.repeated ++ [(copy.node, copy.number)] }
      else none
  | .loseMcast copy => if copy ∈ s.multicasts then some { s with multicasts := s.multicasts.erase copy } else none
  | .loseTunnel copy => if copy ∈ s.tunnelled then some { s with tunnelled := s.tunnelled.erase copy } else none

def Step [DecidableEq N] [DecidableEq L] (net : Network N L) (s : State N L) (happening : Happening N L) (s' : State N L) : Prop :=
  s.perform net happening = some s'

end State

/-! ### Marks -/

/-- What another network gets of a packet. -/
def markedCopy (data : Bytes) : Bytes := (data.take pbufsiz).set 13 mark

theorem isMarkedPacket_take (data : Bytes) : isMarkedPacket (data.take pbufsiz) = isMarkedPacket data := by
  have hlength : (data.take pbufsiz).length > 13 ↔ data.length > 13 := by
    rw [List.length_take, pbufsiz]
    omega
  simp only [isMarkedPacket, hlength, List.getElem?_take_of_lt (show 13 < pbufsiz by decide)]

theorem handleMcastPacket_eq (data : Bytes) :
    handleMcastPacket data = if isMarkedPacket data then none else some (data.take pbufsiz) := by
  rw [handleMcastPacket, isMarkedPacket_take]

/-- What a tunnel sends to its multicast group is marked. -/
theorem handleTunnelPacket_inv {data buf : Bytes} (h : handleTunnelPacket data = some buf) :
    buf = markedCopy data ∧ isMarkedPacket buf := by
  rw [handleTunnelPacket, markPacket] at h
  split at h
  case isTrue hlong =>
    cases h
    refine ⟨rfl, ?_⟩
    rw [isMarkedPacket, List.length_set, if_pos hlong, List.getElem?_set_self hlong]
    rfl
  case isFalse => cases h

theorem markedCopy_take (data : Bytes) : markedCopy (data.take pbufsiz) = markedCopy data := by
  rw [markedCopy, List.take_take, Nat.min_self, markedCopy]

/-! ### What is kept -/

namespace State

section

variable {net : Network N L} {s s' : State N L}

theorem known {number : Nat} {host : L × Bytes} (h : s.hosts[number]? = some host) : number < s.hosts.length :=
  (List.getElem?_eq_some_iff.mp h).1

theorem getElem?_hosts_append {number : Nat} {host new : L × Bytes} (h : s.hosts[number]? = some host) :
    (s.hosts ++ [new])[number]? = some host := by
  rw [List.getElem?_append_left (known h), h]

theorem mem_copies [DecidableEq L] {lan : L} {number : Nat} {data : Bytes} {copy : Copy N} (h : copy ∈ net.copies lan number data) :
    net.lan copy.node = lan ∧ copy.number = number ∧ copy.data = data := by
  obtain ⟨node, hnode, rfl⟩ := List.mem_map.mp h
  exact ⟨of_decide_eq_true (List.mem_filter.mp hnode).2, rfl, rfl⟩

variable [DecidableEq N]

/-- The copies of a packet, not marked yet, that a tunnel may still handle. -/
def awaiting (s : State N L) (node : N) (number : Nat) : Nat :=
  s.multicasts.countP fun copy => copy.node = node ∧ copy.number = number ∧ isMarkedPacket copy.data = false

/-- The copies of a packet on their way to a tunnel through the tunnel. -/
def underway (s : State N L) (node : N) (number : Nat) : Nat :=
  s.tunnelled.countP fun copy => copy.node = node ∧ copy.number = number

/-- How often a packet was sent to a tunnel. -/
def sentTo (net : Network N L) (s : State N L) (node : N) (number : Nat) : Nat :=
  s.forwarded.countP fun sending => net.peer sending.1 = some node ∧ sending.2 = number

/-- Every datagram is the packet of a host: one of this network, or one that has come through a tunnel and is marked;
and no packet is sent through the tunnel, or to the group at the other end, more often than it was received. -/
structure Kept (net : Network N L) (s : State N L) : Prop where
  multicasts : ∀ copy ∈ s.multicasts, ∃ lan data, s.hosts[copy.number]? = some (lan, data) ∧
    (copy.data = data ∧ lan = net.lan copy.node ∨ copy.data = markedCopy data ∧ isMarkedPacket copy.data)
  tunnelled : ∀ copy ∈ s.tunnelled, ∃ lan data, s.hosts[copy.number]? = some (lan, data) ∧
    copy.data = data.take pbufsiz
  forwarded : ∀ sending ∈ s.forwarded, ∃ data, s.hosts[sending.2]? = some (net.lan sending.1, data) ∧
    isMarkedPacket data = false
  once : ∀ node number, s.awaiting node number + s.forwarded.count (node, number) ≤ 1
  received : ∀ node number, s.underway node number + s.repeated.count (node, number) ≤ s.sentTo net node number

theorem kept_start : (start : State N L).Kept net where
  multicasts _ h := absurd h List.not_mem_nil
  tunnelled _ h := absurd h List.not_mem_nil
  forwarded _ h := absurd h List.not_mem_nil
  once _ _ := Nat.zero_le _
  received _ _ := Nat.le_refl 0

/-- A datagram is gone. -/
theorem Kept.without (h : s.Kept net) {multicasts tunnelled : List (Copy N)} (hmulticasts : multicasts.Sublist s.multicasts)
    (htunnelled : tunnelled.Sublist s.tunnelled) (ended : List N) :
    Kept net { s with multicasts := multicasts, tunnelled := tunnelled, ended := ended } where
  multicasts copy hcopy := h.multicasts copy (hmulticasts.subset hcopy)
  tunnelled copy hcopy := h.tunnelled copy (htunnelled.subset hcopy)
  forwarded := h.forwarded
  once node number := (Nat.add_le_add_right hmulticasts.countP_le _).trans (h.once node number)
  received node number := (Nat.add_le_add_right htunnelled.countP_le _).trans (h.received node number)

/-- A packet of a host is sent through the tunnel. -/
theorem Kept.mcast (h : s.Kept net) {copy : Copy N} (hcopy : copy ∈ s.multicasts)
    (hunmarked : isMarkedPacket copy.data = false) :
    Kept net { s with
      multicasts := s.multicasts.erase copy
      tunnelled := s.tunnelled ++
        (net.peer copy.node).toList.map fun remote => ⟨remote, copy.number, copy.data.take pbufsiz⟩
      forwarded := s.forwarded ++ [(copy.node, copy.number)] } := by
  obtain ⟨lan, data, hhost, hcases⟩ := h.multicasts copy hcopy
  obtain ⟨hdata, hlan⟩ : copy.data = data ∧ lan = net.lan copy.node := by
    refine hcases.resolve_right ?_
    rintro ⟨-, hmarked⟩
    rw [hunmarked] at hmarked
    cases hmarked
  subst hlan
  constructor
  · exact fun other hother => h.multicasts other (List.mem_of_mem_erase hother)
  · intro other hother
    rcases List.mem_append.mp hother with hold | hnew
    · exact h.tunnelled other hold
    · obtain ⟨remote, -, rfl⟩ := List.mem_map.mp hnew
      exact ⟨_, data, hhost, by rw [hdata]⟩
  · intro sending hsending
    rcases List.mem_append.mp hsending with hold | hnew
    · exact h.forwarded sending hold
    · rw [List.mem_singleton.mp hnew]
      exact ⟨data, hhost, hdata ▸ hunmarked⟩
  · intro node number
    have hold := h.once node number
    rw [awaiting] at hold ⊢
    rw [List.countP_erase, List.count_append, List.count_singleton]
    by_cases hsame : copy.node = node ∧ copy.number = number
    · obtain ⟨rfl, rfl⟩ := hsame
      have hpos : 0 < s.multicasts.countP fun other =>
          other.node = copy.node ∧ other.number = copy.number ∧ isMarkedPacket other.data = false :=
        List.countP_pos_iff.mpr ⟨copy, hcopy, decide_eq_true ⟨rfl, rfl, hunmarked⟩⟩
      rw [if_pos ⟨hcopy, decide_eq_true ⟨rfl, rfl, hunmarked⟩⟩, if_pos (beq_self_eq_true _)]
      omega
    · have hne : ((copy.node, copy.number) == (node, number)) = false := by
        rw [beq_eq_false_iff_ne, Ne, Prod.mk.injEq]
        exact hsame
      rw [hne]
      simp only [Bool.false_eq_true, if_false]
      omega
  · intro node number
    have hold := h.received node number
    rw [underway, sentTo] at hold ⊢
    rw [List.countP_append, List.countP_append, List.countP_singleton]
    have hnew : ((net.peer copy.node).toList.map fun remote => (⟨remote, copy.number, copy.data.take pbufsiz⟩ : Copy N)).countP
        (fun other => other.node = node ∧ other.number = number) =
        if decide (net.peer copy.node = some node ∧ copy.number = number) then 1 else 0 := by
      cases hpeer : net.peer copy.node with
      | none => simp
      | some remote => simp [List.countP_singleton]
    rw [hnew]
    dsimp only
    omega

variable [DecidableEq L]

/-- A multicast makes no copy that is not marked, if it is marked itself; and else one for each tunnel at most. -/
theorem countP_copies (net : Network N L) (lan : L) (sent : Nat) (data : Bytes) (node : N) (number : Nat) :
    (net.copies lan sent data).countP
        (fun copy => copy.node = node ∧ copy.number = number ∧ isMarkedPacket copy.data = false) ≤
      if sent = number ∧ isMarkedPacket data = false then 1 else 0 := by
  rw [Network.copies, List.countP_map]
  by_cases hnew : sent = number ∧ isMarkedPacket data = false
  · rw [if_pos hnew]
    have hcount : ((net.nodes.filter fun node => net.lan node = lan).countP (· == node)) ≤ 1 :=
      List.nodup_iff_count_le_one.mp (net.nodup.filter _) node
    refine le_trans (List.countP_mono_left fun other _ hother => ?_) hcount
    simp only [Function.comp_apply, decide_eq_true_eq] at hother
    exact beq_iff_eq.mpr hother.1
  · rw [if_neg hnew, Nat.le_zero, List.countP_eq_zero]
    intro other _ hother
    simp only [Function.comp_apply, decide_eq_true_eq] at hother
    exact hnew hother.2

theorem Kept.host (h : s.Kept net) (lan : L) (data : Bytes) :
    Kept net { s with
      hosts := s.hosts ++ [(lan, data)]
      multicasts := s.multicasts ++ net.copies lan s.hosts.length data } := by
  constructor
  · intro copy hcopy
    rcases List.mem_append.mp hcopy with hold | hnew
    · obtain ⟨from_, text, hhost, hdata⟩ := h.multicasts copy hold
      exact ⟨from_, text, getElem?_hosts_append hhost, hdata⟩
    · obtain ⟨hlan, hnumber, hdata⟩ := mem_copies hnew
      refine ⟨lan, data, ?_, Or.inl ⟨hdata, hlan.symm⟩⟩
      rw [hnumber]
      exact List.getElem?_concat_length
  · intro copy hcopy
    obtain ⟨from_, text, hhost, hdata⟩ := h.tunnelled copy hcopy
    exact ⟨from_, text, getElem?_hosts_append hhost, hdata⟩
  · intro sending hsending
    obtain ⟨text, hhost, hdata⟩ := h.forwarded sending hsending
    exact ⟨text, getElem?_hosts_append hhost, hdata⟩
  · intro node number
    have hold := h.once node number
    have hcount := countP_copies net lan s.hosts.length data node number
    rw [awaiting] at hold ⊢
    rw [List.countP_append]
    by_cases hnumber : s.hosts.length = number
    · -- nobody has seen the new number
      have hnone : s.multicasts.countP
          (fun copy => copy.node = node ∧ copy.number = number ∧ isMarkedPacket copy.data = false) = 0 := by
        rw [List.countP_eq_zero]
        intro copy hcopy hsame
        obtain ⟨_, _, hhost, -⟩ := h.multicasts copy hcopy
        have hlt := known hhost
        have hsame' := (of_decide_eq_true hsame).2.1
        omega
      have hnever : s.forwarded.count (node, number) = 0 := by
        rw [List.count_eq_zero]
        intro hmem
        obtain ⟨_, hhost, -⟩ := h.forwarded _ hmem
        have hlt := known hhost
        dsimp only at hlt
        omega
      rw [hnone]
      dsimp only
      rw [hnever]
      split at hcount
      · omega
      · omega
    · rw [if_neg fun hnew => hnumber hnew.1] at hcount
      dsimp only
      omega
  · exact h.received

/-- A packet is sent to the group at the other end. -/
theorem Kept.tunnel (h : s.Kept net) {copy : Copy N} (hcopy : copy ∈ s.tunnelled) {buf : Bytes}
    (hbuf : handleTunnelPacket copy.data = some buf) :
    Kept net { s with
      tunnelled := s.tunnelled.erase copy
      multicasts := s.multicasts ++ net.copies (net.lan copy.node) copy.number buf
      repeated := s.repeated ++ [(copy.node, copy.number)] } := by
  obtain ⟨lan, data, hhost, hdata⟩ := h.tunnelled copy hcopy
  obtain ⟨rfl, hmarked⟩ := handleTunnelPacket_inv hbuf
  have hmark : markedCopy copy.data = markedCopy data := by rw [hdata, markedCopy_take]
  constructor
  · intro other hother
    rcases List.mem_append.mp hother with hold | hnew
    · exact h.multicasts other hold
    · obtain ⟨-, hnumber, hother⟩ := mem_copies hnew
      exact ⟨lan, data, by rw [hnumber, hhost], Or.inr ⟨by rw [hother, hmark], by rw [hother, hmarked]⟩⟩
  · exact fun other hother => h.tunnelled other (List.mem_of_mem_erase hother)
  · exact h.forwarded
  · intro node number
    have hold := h.once node number
    have hcount := countP_copies net (net.lan copy.node) copy.number (markedCopy copy.data) node number
    rw [if_neg (by rw [hmarked]; simp)] at hcount
    rw [awaiting] at hold ⊢
    rw [List.countP_append]
    dsimp only
    omega
  · intro node number
    have hold := h.received node number
    rw [underway] at hold ⊢
    rw [List.countP_erase, List.count_append, List.count_singleton]
    by_cases hsame : copy.node = node ∧ copy.number = number
    · obtain ⟨rfl, rfl⟩ := hsame
      have hpos : 0 < s.tunnelled.countP fun other => other.node = copy.node ∧ other.number = copy.number :=
        List.countP_pos_iff.mpr ⟨copy, hcopy, decide_eq_true ⟨rfl, rfl⟩⟩
      rw [if_pos ⟨hcopy, decide_eq_true ⟨rfl, rfl⟩⟩, if_pos (beq_self_eq_true _)]
      have hsent : sentTo net s copy.node copy.number = sentTo net s copy.node copy.number := rfl
      simp only [sentTo] at hold ⊢
      omega
    · have hne : ((copy.node, copy.number) == (node, number)) = false := by
        rw [beq_eq_false_iff_ne, Ne, Prod.mk.injEq]
        exact hsame
      rw [hne]
      simp only [sentTo, Bool.false_eq_true, if_false] at hold ⊢
      omega

theorem Step.kept {happening : Happening N L} (h : s.Step net happening s') (hkept : s.Kept net) : s'.Kept net := by
  rw [Step] at h
  cases happening with
  | host lan data =>
      cases h
      exact hkept.host lan data
  | mcast copy =>
      rw [perform, handleMcastPacket_eq] at h
      split at h
      case isFalse => cases h
      case isTrue hcopy =>
        cases hmarked : isMarkedPacket copy.data with
        | true =>
            rw [hmarked, if_pos rfl] at h
            cases h
            exact hkept.without List.erase_sublist (List.Sublist.refl _) _
        | false =>
            rw [hmarked, if_neg Bool.false_ne_true] at h
            cases h
            exact hkept.mcast hcopy.1 hmarked
  | tunnel copy =>
      rw [perform] at h
      split at h
      case isFalse => cases h
      case isTrue hcopy =>
        cases hbuf : handleTunnelPacket copy.data with
        | none =>
            rw [hbuf] at h
            cases h
            exact hkept.without (List.Sublist.refl _) List.erase_sublist _
        | some buf =>
            rw [hbuf] at h
            cases h
            exact hkept.tunnel hcopy.1 hbuf
  | loseMcast copy =>
      rw [perform] at h
      split at h
      · cases h
        exact hkept.without List.erase_sublist (List.Sublist.refl _) _
      · cases h
  | loseTunnel copy =>
      rw [perform] at h
      split at h
      · cases h
        exact hkept.without (List.Sublist.refl _) List.erase_sublist _
      · cases h

end

end State

/-- **No packet is tunnelled twice.** In every run of any number of tunnels, wherever they are and whatever their
addresses: a tunnel sends a packet through the tunnel once at most, and only a packet that a host of its own network has
sent and that is not marked; it sends a packet to its group at most as often as other tunnels have sent it; and what is
on its way in a network is the packet of a host there as it was, or one of another host, cut and marked. -/
theorem never_tunnelled_twice [DecidableEq N] [DecidableEq L] (net : Network N L) (happenings : List (Happening N L))
    (s : State N L) (h : Run (State.Step net) State.start happenings s) :
    s.forwarded.Nodup ∧
    (∀ node number, (node, number) ∈ s.forwarded →
      ∃ data, s.hosts[number]? = some (net.lan node, data) ∧ isMarkedPacket data = false) ∧
    (∀ node number, s.repeated.count (node, number) ≤
      s.forwarded.countP fun sending => net.peer sending.1 = some node ∧ sending.2 = number) ∧
    ∀ copy ∈ s.multicasts, ∃ lan data, s.hosts[copy.number]? = some (lan, data) ∧
      (copy.data = data ∧ lan = net.lan copy.node ∨ copy.data = markedCopy data ∧ isMarkedPacket copy.data) := by
  have hkept : s.Kept net := h.invariant (fun _ s => s.Kept net) State.kept_start
    fun _ _ _ _ _ hkept hstep => hstep.kept hkept
  refine ⟨List.nodup_iff_count_le_one.mpr fun sending => ?_, fun node number hmem => hkept.forwarded _ hmem,
    fun node number => ?_, hkept.multicasts⟩
  · exact (Nat.le_add_left _ _).trans (hkept.once sending.1 sending.2)
  · exact (Nat.le_add_left _ _).trans (hkept.received node number)

/-- Two tunnels that send to each other. -/
def crossed : Network Bool Bool := ⟨[false, true], by decide, id, fun node => some !node⟩

/-- A packet goes to the other network, and is ignored when the tunnel there hears itself. -/
def thereAndBack : List (Happening Bool Bool) :=
  let data := List.replicate 14 0
  [.host false data, .mcast ⟨false, 0, data⟩, .tunnel ⟨true, 0, data⟩, .mcast ⟨true, 0, markedCopy data⟩]

theorem run_thereAndBack : ∃ s, Run (State.Step crossed) State.start thereAndBack s ∧
    s.forwarded = [(false, 0)] ∧ s.repeated = [(true, 0)] ∧ s.multicasts = [] := by
  have hsteps : ∃ s₁, State.Step crossed State.start (.host false (List.replicate 14 0)) s₁ ∧
      ∃ s₂, State.Step crossed s₁ (.mcast ⟨false, 0, List.replicate 14 0⟩) s₂ ∧
      ∃ s₃, State.Step crossed s₂ (.tunnel ⟨true, 0, List.replicate 14 0⟩) s₃ ∧
      ∃ s₄, State.Step crossed s₃ (.mcast ⟨true, 0, markedCopy (List.replicate 14 0)⟩) s₄ ∧
      s₄.forwarded = [(false, 0)] ∧ s₄.repeated = [(true, 0)] ∧ s₄.multicasts = [] :=
    ⟨_, rfl, _, rfl, _, rfl, _, rfl, rfl, rfl, rfl⟩
  obtain ⟨s₁, h₁, s₂, h₂, s₃, h₃, s₄, h₄, hends⟩ := hsteps
  exact ⟨s₄, ((((Run.nil _).snoc h₁).snoc h₂).snoc h₃).snoc h₄, hends⟩

theorem never_tunnelled_twice_thereAndBack : ∃ s, Run (State.Step crossed) State.start thereAndBack s ∧
    s.forwarded = [(false, 0)] ∧ s.forwarded.Nodup := by
  obtain ⟨s, hrun, hforwarded, -, -⟩ := run_thereAndBack
  exact ⟨s, hrun, hforwarded, (never_tunnelled_twice crossed thereAndBack s hrun).1⟩

/-! ### No storms -/

/-- A host sends something. -/
def Happening.isHost : Happening N L → Bool
  | .host _ _ => true
  | _ => false

/-- How much can happen to a copy in a multicast group: one that is not marked goes through the tunnel. -/
def weightOf (net : Network N L) (copy : Copy N) : Nat := if isMarkedPacket copy.data then 1 else net.nodes.length + 2

namespace State

/-- How much can happen without a host. -/
def weight (net : Network N L) (s : State N L) : Nat :=
  (s.multicasts.map (weightOf net)).sum + s.tunnelled.length * (net.nodes.length + 1)

theorem one_le_weightOf (net : Network N L) (copy : Copy N) : 1 ≤ weightOf net copy := by
  rw [weightOf]
  split
  · exact Nat.le_refl 1
  · omega

section

variable [DecidableEq N] {s : State N L}

theorem weight_erase_mcast (net : Network N L) {copy : Copy N} (h : copy ∈ s.multicasts) (hosts : List (L × Bytes))
    (forwarded repeated : List (N × Nat)) (ended : List N) (more : List (Copy N)) :
    (weight net ⟨s.multicasts.erase copy, s.tunnelled ++ more, hosts, forwarded, repeated, ended⟩) + weightOf net copy =
      s.weight net + more.length * (net.nodes.length + 1) := by
  have hsum := List.sum_map_erase (weightOf net) h
  rw [weight, weight, List.length_append, Nat.add_mul]
  dsimp only
  omega

theorem weight_erase_tunnel (net : Network N L) {copy : Copy N} (h : copy ∈ s.tunnelled) (hosts : List (L × Bytes))
    (forwarded repeated : List (N × Nat)) (ended : List N) (more : List (Copy N)) :
    (weight net ⟨s.multicasts ++ more, s.tunnelled.erase copy, hosts, forwarded, repeated, ended⟩) + (net.nodes.length + 1) =
      s.weight net + (more.map (weightOf net)).sum := by
  have hlength : (s.tunnelled.erase copy).length + 1 = s.tunnelled.length := by
    rw [List.length_erase_of_mem h]
    have := List.length_pos_of_mem h
    omega
  rw [weight, weight, List.map_append, List.sum_append, ← hlength, Nat.add_mul _ 1]
  dsimp only
  omega

end

variable [DecidableEq L]

theorem sum_copies_le (net : Network N L) (lan : L) (number : Nat) {data : Bytes} {bound : Nat}
    (h : ∀ node, weightOf net ⟨node, number, data⟩ ≤ bound) :
    ((net.copies lan number data).map (weightOf net)).sum ≤ net.nodes.length * bound := by
  have hsum : ∀ nodes : List N, ((nodes.map fun node => (⟨node, number, data⟩ : Copy N)).map (weightOf net)).sum ≤
      nodes.length * bound := by
    intro nodes
    induction nodes with
    | nil => exact Nat.zero_le _
    | cons node nodes ih =>
        have hnode := h node
        rw [List.map_cons, List.map_cons, List.sum_cons, List.length_cons, Nat.add_mul, Nat.one_mul]
        omega
  exact (hsum _).trans (Nat.mul_le_mul_right bound (List.length_filter_le _ _))

variable [DecidableEq N] {net : Network N L} {s s' : State N L}

/-- Each step takes something away, unless a host sends something. -/
theorem Step.weight {happening : Happening N L} (h : s.Step net happening s') :
    s'.weight net + 1 ≤ s.weight net +
      if happening.isHost then 1 + net.nodes.length * (net.nodes.length + 2) else 0 := by
  rw [Step] at h
  cases happening with
  | host lan data =>
      cases h
      have hbound : ∀ node, weightOf net ⟨node, s.hosts.length, data⟩ ≤ net.nodes.length + 2 := by
        intro node
        rw [weightOf]
        split
        · omega
        · exact Nat.le_refl _
      have hsum := sum_copies_le net lan s.hosts.length hbound
      have hhost : (Happening.host lan data : Happening N L).isHost = true := rfl
      rw [State.weight, State.weight, List.map_append, List.sum_append, if_pos hhost]
      dsimp only
      omega
  | mcast copy =>
      have hnot : ¬(Happening.mcast copy : Happening N L).isHost = true := Bool.false_ne_true
      rw [if_neg hnot]
      rw [perform, handleMcastPacket_eq] at h
      split at h
      case isFalse => cases h
      case isTrue hcopy =>
        cases hmarked : isMarkedPacket copy.data with
        | true =>
            rw [hmarked, if_pos rfl] at h
            cases h
            have hpos := one_le_weightOf net copy
            have hweight := weight_erase_mcast net hcopy.1 s.hosts s.forwarded s.repeated s.ended []
            rw [List.append_nil, List.length_nil, Nat.zero_mul] at hweight
            omega
        | false =>
            rw [hmarked, if_neg Bool.false_ne_true] at h
            cases h
            have hcopyWeight : weightOf net copy = net.nodes.length + 2 := by rw [weightOf, hmarked]; rfl
            have hweight := weight_erase_mcast net hcopy.1 s.hosts (s.forwarded ++ [(copy.node, copy.number)]) s.repeated
              s.ended ((net.peer copy.node).toList.map fun remote => ⟨remote, copy.number, copy.data.take pbufsiz⟩)
            have hone : ((net.peer copy.node).toList.map fun remote =>
                (⟨remote, copy.number, copy.data.take pbufsiz⟩ : Copy N)).length * (net.nodes.length + 1) ≤
                  net.nodes.length + 1 := by
              cases net.peer copy.node with
              | none => simp
              | some remote => simp
            omega
  | tunnel copy =>
      have hnot : ¬(Happening.tunnel copy : Happening N L).isHost = true := Bool.false_ne_true
      rw [if_neg hnot]
      rw [perform] at h
      split at h
      case isFalse => cases h
      case isTrue hcopy =>
        cases hbuf : handleTunnelPacket copy.data with
        | none =>
            rw [hbuf] at h
            cases h
            have hweight := weight_erase_tunnel net hcopy.1 s.hosts s.forwarded s.repeated (copy.node :: s.ended) []
            rw [List.append_nil, List.map_nil, List.sum_nil] at hweight
            omega
        | some buf =>
            rw [hbuf] at h
            cases h
            have hmarked := (handleTunnelPacket_inv hbuf).2
            have hsum := sum_copies_le net (net.lan copy.node) copy.number (show ∀ node, weightOf net ⟨node, copy.number, buf⟩ ≤ 1 from fun node => by
              rw [weightOf, hmarked]
              exact Nat.le_refl 1)
            have hweight := weight_erase_tunnel net hcopy.1 s.hosts s.forwarded
              (s.repeated ++ [(copy.node, copy.number)]) s.ended (net.copies (net.lan copy.node) copy.number buf)
            omega
  | loseMcast copy =>
      have hnot : ¬(Happening.loseMcast copy : Happening N L).isHost = true := Bool.false_ne_true
      rw [if_neg hnot]
      rw [perform] at h
      split at h
      case isFalse => cases h
      case isTrue hcopy =>
        cases h
        have hpos := one_le_weightOf net copy
        have hweight := weight_erase_mcast net hcopy s.hosts s.forwarded s.repeated s.ended []
        rw [List.append_nil, List.length_nil, Nat.zero_mul] at hweight
        omega
  | loseTunnel copy =>
      have hnot : ¬(Happening.loseTunnel copy : Happening N L).isHost = true := Bool.false_ne_true
      rw [if_neg hnot]
      rw [perform] at h
      split at h
      case isFalse => cases h
      case isTrue hcopy =>
        cases h
        have hweight := weight_erase_tunnel net hcopy s.hosts s.forwarded s.repeated s.ended []
        rw [List.append_nil, List.map_nil, List.sum_nil] at hweight
        omega

end State

/-- **There are no storms.** However the tunnels are connected, and in circles too, what the hosts send causes a bounded
number of datagrams: a run has at most `1 + n (n + 2)` steps for each packet of a host, where there are `n` tunnels. -/
theorem no_storms [DecidableEq N] [DecidableEq L] (net : Network N L) (happenings : List (Happening N L)) (s : State N L)
    (h : Run (State.Step net) State.start happenings s) :
    happenings.length ≤ happenings.countP Happening.isHost * (1 + net.nodes.length * (net.nodes.length + 2)) := by
  have hweight : happenings.length + s.weight net ≤
      happenings.countP Happening.isHost * (1 + net.nodes.length * (net.nodes.length + 2)) := by
    refine h.invariant (fun happenings s => happenings.length + s.weight net ≤
      happenings.countP Happening.isHost * (1 + net.nodes.length * (net.nodes.length + 2))) ?_ ?_
    · exact Nat.le_of_eq (by simp [State.weight, State.start])
    · intro happenings before happening after _ ih hstep
      have hafter := hstep.weight
      rw [List.length_append, List.countP_append, List.countP_singleton, Nat.add_mul, List.length_singleton]
      split
      case isTrue hhost =>
        rw [if_pos hhost] at hafter
        omega
      case isFalse hhost =>
        rw [if_neg hhost] at hafter
        omega
  exact (Nat.le_add_right _ _).trans hweight

theorem no_storms_thereAndBack : ∃ s, Run (State.Step crossed) State.start thereAndBack s ∧ thereAndBack.length ≤ 1 * 9 := by
  obtain ⟨s, hrun, -⟩ := run_thereAndBack
  exact ⟨s, hrun, no_storms crossed thereAndBack s hrun⟩

end Thebends.MiscBtunnel
