import Thebends.AvrNetArp

/-! What the list of ARP entries holds after any packets, and what is answered. The first answer is the last thing
that is known, since the array of the driver is freed after it. -/

namespace Thebends.AvrNet

open LibNetOrder

/-- A packet for Ethernet and IP. -/
structure WellFormed (arp : ArpHeader) : Prop where
  hrd : ofNetwork (bytes16 arp.arHrd) = 1
  pro : ofNetwork (bytes16 arp.arPro) = 0x0800
  hln : arp.arHln = 6
  pln : arp.arPln = 4

theorem wellFormed_iff {arp : ArpHeader} : WellFormed arp ↔ (ofNetwork (bytes16 arp.arHrd) = 1 ∧
    ofNetwork (bytes16 arp.arPro) = 0x0800) ∧ arp.arHln = 6 ∧ arp.arPln = 4 :=
  ⟨fun h => ⟨⟨h.hrd, h.pro⟩, h.hln, h.pln⟩, fun h => ⟨h.1.1, h.1.2, h.2.1, h.2.2⟩⟩

instance (arp : ArpHeader) : Decidable (WellFormed arp) := decidable_of_iff' _ wellFormed_iff

/-- The protocol address of the sender, -/
def sender (arp : ArpHeader) : UInt32 := .ofNat (ofNetwork (bytes32 arp.arSpa))

/-- and that of the target. -/
def target (arp : ArpHeader) : UInt32 := .ofNat (ofNetwork (bytes32 arp.arTpa))

def IsRequest (arp : ArpHeader) : Prop := ofNetwork (bytes16 arp.arOp) = 1

instance (arp : ArpHeader) : Decidable (IsRequest arp) := inferInstanceAs (Decidable (_ = _))

/-- A well-formed packet that is addressed to our address. -/
def ForUs (ip : UInt32) (arp : ArpHeader) : Prop := WellFormed arp ∧ target arp = ip

instance (ip : UInt32) (arp : ArpHeader) : Decidable (ForUs ip arp) := inferInstanceAs (Decidable (_ ∧ _))

/-- The last well-formed packet from an address. -/
def latest (packets : List ArpHeader) (arPa : UInt32) : Option ArpHeader :=
  (packets.filter fun arp => WellFormed arp ∧ sender arp = arPa).getLast?

/-- The answer to a packet: to its sender, from us, all numbers in network order. -/
def reply (ip : UInt32) (arp : ArpHeader) : List UInt8 :=
  arp.arSha.toList ++ macAddress.toList ++ toNetwork 2 0x0806 ++
    (toNetwork 2 1 ++ toNetwork 2 0x0800 ++ [6, 4] ++ toNetwork 2 2 ++ macAddress.toList ++ toNetwork 4 ip.toNat ++
      arp.arSha.toList ++ toNetwork 4 (sender arp).toNat)

/-! ### One packet -/

theorem sender_eq (arp : ArpHeader) : sender arp = ntohl arp.arSpa := by
  rw [sender, ofNetwork_bytes32, UInt32.ofNat_toNat]

theorem target_eq (arp : ArpHeader) : target arp = ntohl arp.arTpa := by
  rw [target, ofNetwork_bytes32, UInt32.ofNat_toNat]

theorem isRequest_iff (arp : ArpHeader) : IsRequest arp ↔ ntohs arp.arOp = arpopRequest := by
  rw [IsRequest, ofNetwork_bytes16, ← UInt16.toNat_inj]
  exact Iff.rfl

/-- The test of `handle_arp`. -/
theorem malformed_iff (arp : ArpHeader) : ((exchange arp).arHrd ≠ arphrdEther ∨ (exchange arp).arPro ≠ ethertypeIp ∨
    (exchange arp).arHln ≠ etherAddrLen ∨ (exchange arp).arPln ≠ ipAddrLen) ↔ ¬WellFormed arp := by
  have hhrd : ofNetwork (bytes16 arp.arHrd) = 1 ↔ ntohs arp.arHrd = arphrdEther := by
    rw [ofNetwork_bytes16, ← UInt16.toNat_inj]
    exact Iff.rfl
  have hpro : ofNetwork (bytes16 arp.arPro) = 0x0800 ↔ ntohs arp.arPro = ethertypeIp := by
    rw [ofNetwork_bytes16, ← UInt16.toNat_inj]
    exact Iff.rfl
  rw [wellFormed_iff, hhrd, hpro, not_and_or, not_and_or, not_and_or, or_assoc]
  exact Iff.rfl

theorem handleArp_malformed {arp : ArpHeader} (h : ¬WellFormed arp) (ip : UInt32) (memory : Memory) :
    handleArp ip memory arp = ⟨exchange arp, [], .ok memory⟩ := if_pos ((malformed_iff arp).mpr h)

/-- The bytes of the answer, although it is written over the fields that it is made of. -/
theorem writePacket_answer {arp : ArpHeader} (h : WellFormed arp) (ip : UInt32) (heap : Heap) :
    writePacket heap (answer ip (exchange arp)).arTha ethertypeArp .packet (answer ip (exchange arp)).bytes =
      (reply ip arp, .error .badFree) := by
  have hhrd : bytes16 (ntohs (ntohs arp.arHrd)) = toNetwork 2 1 := by
    rw [bytes16_ntohs, ← ofNetwork_bytes16, h.hrd]
  have hpro : bytes16 (ntohs (ntohs arp.arPro)) = toNetwork 2 0x0800 := by
    rw [bytes16_ntohs, ← ofNetwork_bytes16, h.pro]
  have hspa : bytes32 (ntohl (ntohl arp.arSpa)) = toNetwork 4 (sender arp).toNat := by
    rw [bytes32_ntohl, sender_eq]
  have hip : bytes32 (ntohl ip) = toNetwork 4 ip.toNat := bytes32_ntohl ip
  have hop : bytes16 (ntohs arpopReply) = toNetwork 2 2 := bytes16_ntohs arpopReply
  have htype : bytes16 (ntohs ethertypeArp) = toNetwork 2 0x0806 := bytes16_ntohs ethertypeArp
  rw [writePacket, htype, reply, ← hhrd, ← hpro, ← hspa, ← hip, ← hop, ← h.hln, ← h.pln]
  rfl

/-- The memory with the entry of a well-formed packet: merged into the list, or new if the packet is for us. -/
def entered (ip : UInt32) (memory : Memory) (arp : ArpHeader) : Memory :=
  let (merge, head) := update memory.head (sender arp) arp.arSha
  if ForUs ip arp ∧ merge = false then insert { memory with head := head } (sender arp) arp.arSha
  else { memory with head := head }

/-- **What a well-formed packet does.** A request for us is answered, and the packet itself freed. -/
theorem handleArp_wellFormed {arp : ArpHeader} (h : WellFormed arp) (ip : UInt32) (memory : Memory) :
    handleArp ip memory arp =
      if ForUs ip arp ∧ IsRequest arp then ⟨answer ip (exchange arp), [reply ip arp], .error .badFree⟩
      else ⟨exchange arp, [], .ok (entered ip memory arp)⟩ := by
  have hus : ForUs ip arp ↔ ip = ntohl arp.arTpa := by rw [ForUs, and_iff_right h, target_eq, eq_comm]
  obtain ⟨merge, head, hmerged⟩ : ∃ merge head, update memory.head (sender arp) arp.arSha = (merge, head) := ⟨_, _, rfl⟩
  have hentered : entered ip memory arp = if ForUs ip arp ∧ merge = false then
      insert { memory with head := head } (sender arp) arp.arSha else { memory with head := head } := by
    rw [entered, hmerged]
  have hbody : handleArp ip memory arp =
      if ip = ntohl arp.arTpa then
        if ntohs arp.arOp = arpopRequest then ⟨answer ip (exchange arp), [reply ip arp], .error .badFree⟩
        else ⟨exchange arp, [],
          .ok (if !merge then insert { memory with head := head } (sender arp) arp.arSha
            else { memory with head := head })⟩
      else ⟨exchange arp, [], .ok { memory with head := head }⟩ := by
    rw [sender_eq] at hmerged ⊢
    have hupdate : update memory.head (exchange arp).arSpa (exchange arp).arSha = (merge, head) := hmerged
    unfold handleArp
    dsimp only
    rw [if_neg fun hmalformed => (malformed_iff arp).mp hmalformed h, hupdate]
    dsimp only
    rw [writePacket_answer h]
    rfl
  rw [hbody, hentered]
  by_cases hip : ip = ntohl arp.arTpa
  · have hforUs := hus.mpr hip
    rw [if_pos hip]
    by_cases hop : ntohs arp.arOp = arpopRequest
    · rw [if_pos hop, if_pos ⟨hforUs, (isRequest_iff arp).mpr hop⟩]
    · have hrequest : ¬(ForUs ip arp ∧ IsRequest arp) := fun hboth => hop ((isRequest_iff arp).mp hboth.2)
      rw [if_neg hop, if_neg hrequest, if_congr (and_iff_right hforUs) rfl rfl]
      cases merge <;> rfl
  · have hforUs : ¬ForUs ip arp := fun hforUs => hip (hus.mp hforUs)
    have hrequest : ¬(ForUs ip arp ∧ IsRequest arp) := fun hboth => hforUs hboth.1
    rw [if_neg hip, if_neg hrequest, if_neg fun hboth => hforUs hboth.1]

/-- What is written when a packet is handled, -/
theorem handleArp_frames (ip : UInt32) (memory : Memory) (arp : ArpHeader) : (handleArp ip memory arp).frames =
    if ForUs ip arp ∧ IsRequest arp then [reply ip arp] else [] := by
  by_cases hformed : WellFormed arp
  · rw [handleArp_wellFormed hformed]
    split <;> rfl
  · rw [handleArp_malformed hformed, if_neg fun hboth => hformed hboth.1.1]

/-- and after what packets nothing is known of the memory. -/
theorem handleArp_request {ip : UInt32} {arp : ArpHeader} (h : ForUs ip arp ∧ IsRequest arp) (memory : Memory) :
    (handleArp ip memory arp).memory = .error .badFree := by
  rw [handleArp_wellFormed h.1.1, if_pos h]

/-! ### The list -/

/-- `update` goes along the list. -/
theorem update_cons (first : Entry) (head : List Entry) (arPa : UInt32) (arHa : Mac) :
    update (first :: head) arPa arHa = if first.arPa = arPa then (true, { first with arHa := arHa } :: head)
      else ((update head arPa arHa).1, first :: (update head arPa arHa).2) := by
  rw [update, find, List.findIdx?_cons]
  by_cases hfirst : first.arPa = arPa
  · rw [if_pos hfirst, if_pos (decide_eq_true hfirst)]
    rfl
  · rw [if_neg hfirst, if_neg (by simpa using hfirst), update, find]
    cases head.findIdx? fun cur => cur.arPa = arPa with
    | none => rfl
    | some entry => rfl

theorem update_found (head : List Entry) (arPa : UInt32) (arHa : Mac) :
    (update head arPa arHa).1 = true ↔ arPa ∈ head.map Entry.arPa := by
  induction head with
  | nil => exact iff_of_false Bool.false_ne_true List.not_mem_nil
  | cons first head ih =>
      rw [update_cons, List.map_cons, List.mem_cons]
      by_cases hfirst : first.arPa = arPa
      · rw [if_pos hfirst]
        exact iff_of_true rfl (.inl hfirst.symm)
      · rw [if_neg hfirst, or_iff_right (Ne.symm hfirst)]
        exact ih

/-- No address is changed, -/
theorem update_addresses (head : List Entry) (arPa : UInt32) (arHa : Mac) :
    (update head arPa arHa).2.map Entry.arPa = head.map Entry.arPa := by
  induction head with
  | nil => rfl
  | cons first head ih =>
      rw [update_cons]
      by_cases hfirst : first.arPa = arPa
      · rw [if_pos hfirst]
        rfl
      · rw [if_neg hfirst, List.map_cons, List.map_cons, ih]

/-- and only the entry of the given address is another. -/
theorem update_entries {head : List Entry} (hnodup : (head.map Entry.arPa).Nodup) {arPa : UInt32} {arHa : Mac}
    {entry : Entry} (h : entry ∈ (update head arPa arHa).2) :
    (entry.arPa = arPa ∧ entry.arHa = arHa) ∨ (entry.arPa ≠ arPa ∧ entry ∈ head) := by
  induction head with
  | nil => exact absurd h List.not_mem_nil
  | cons first head ih =>
      obtain ⟨hnot, hrest⟩ := List.nodup_cons.mp hnodup
      rw [update_cons] at h
      by_cases hfirst : first.arPa = arPa
      · rw [if_pos hfirst] at h
        cases h with
        | head => exact .inl ⟨hfirst, rfl⟩
        | tail _ hmem =>
            refine .inr ⟨fun heq => hnot ?_, List.mem_cons_of_mem first hmem⟩
            exact List.mem_map.mpr ⟨entry, hmem, heq.trans hfirst.symm⟩
      · rw [if_neg hfirst] at h
        cases h with
        | head => exact .inr ⟨hfirst, List.mem_cons_self⟩
        | tail _ hmem =>
            obtain hnew | ⟨hne, hold⟩ := ih hrest hmem
            · exact .inl hnew
            · exact .inr ⟨hne, List.mem_cons_of_mem first hold⟩

/-! ### All packets -/

theorem latest_concat (packets : List ArpHeader) (arp : ArpHeader) (arPa : UInt32) : latest (packets ++ [arp]) arPa =
    if WellFormed arp ∧ sender arp = arPa then some arp else latest packets arPa := by
  rw [latest, List.filter_append]
  by_cases h : WellFormed arp ∧ sender arp = arPa
  · rw [if_pos h, List.filter_cons_of_pos (by simpa using h), List.filter_nil, List.getLast?_concat]
  · rw [if_neg h, List.filter_cons_of_neg (by simpa using h), List.filter_nil, List.append_nil, latest]

/-- What the list holds after some packets. -/
structure Records (ip : UInt32) (packets : List ArpHeader) (head : List Entry) : Prop where
  nodup : (head.map Entry.arPa).Nodup
  mem_iff : ∀ arPa, arPa ∈ head.map Entry.arPa ↔ ∃ arp ∈ packets, ForUs ip arp ∧ sender arp = arPa
  current : ∀ entry ∈ head, (latest packets entry.arPa).map ArpHeader.arSha = some entry.arHa

section

variable {ip : UInt32} {packets : List ArpHeader} {memory : Memory} {head : List Entry} {arp : ArpHeader}

theorem exists_concat (packets : List ArpHeader) (arp : ArpHeader) (P : ArpHeader → Prop) :
    (∃ other ∈ packets ++ [arp], P other) ↔ (∃ other ∈ packets, P other) ∨ P arp := by
  simp only [List.mem_append, List.mem_singleton, or_and_right, exists_or, exists_eq_left]

/-- A packet that is not well formed leaves all as it is. -/
theorem Records.malformed (h : Records ip packets head) (hformed : ¬WellFormed arp) :
    Records ip (packets ++ [arp]) head := by
  refine ⟨h.nodup, fun arPa => ?_, fun entry hentry => ?_⟩
  · rw [exists_concat, h.mem_iff]
    exact (or_iff_left fun hus => hformed hus.1.1).symm
  · rw [latest_concat, if_neg fun hboth => hformed hboth.1]
    exact h.current entry hentry

/-- The entries after a merge are up to date. -/
theorem Records.merged (h : Records ip packets head) (hformed : WellFormed arp) :
    ∀ entry ∈ (update head (sender arp) arp.arSha).2,
      (latest (packets ++ [arp]) entry.arPa).map ArpHeader.arSha = some entry.arHa := by
  intro entry hentry
  rw [latest_concat]
  obtain ⟨hpa, hha⟩ | ⟨hne, hold⟩ := update_entries h.nodup hentry
  · rw [if_pos ⟨hformed, hpa.symm⟩, hha]
    rfl
  · rw [if_neg fun hboth => hne hboth.2.symm]
    exact h.current entry hold

/-- **A packet that is not answered.** -/
theorem Records.step (h : Records ip packets memory.head) (hrequest : ¬(ForUs ip arp ∧ IsRequest arp)) :
    ∃ after, (handleArp ip memory arp).memory = .ok after ∧ Records ip (packets ++ [arp]) after.head := by
  by_cases hformed : WellFormed arp
  · rw [handleArp_wellFormed hformed, if_neg hrequest]
    refine ⟨entered ip memory arp, rfl, ?_⟩
    have haddresses := update_addresses memory.head (sender arp) arp.arSha
    have hfound := update_found memory.head (sender arp) arp.arSha
    unfold entered
    dsimp only
    by_cases hnew : ForUs ip arp ∧ (update memory.head (sender arp) arp.arSha).1 = false
    · obtain ⟨hus, hmissing⟩ := hnew
      have hnot : sender arp ∉ memory.head.map Entry.arPa := fun hmem => by
        rw [hfound.mpr hmem] at hmissing
        cases hmissing
      rw [if_pos ⟨hus, hmissing⟩, insert]
      refine ⟨?_, fun arPa => ?_, fun entry hentry => ?_⟩
      · rw [List.map_cons, haddresses]
        exact List.nodup_cons.mpr ⟨hnot, h.nodup⟩
      · rw [List.map_cons, haddresses, List.mem_cons, exists_concat, h.mem_iff, or_comm, and_iff_right hus,
          eq_comm (a := arPa)]
      · cases hentry with
        | head =>
            rw [latest_concat, if_pos ⟨hformed, rfl⟩]
            rfl
        | tail _ hmem => exact h.merged hformed entry hmem
    · rw [if_neg hnew]
      refine ⟨haddresses ▸ h.nodup, fun arPa => ?_, h.merged hformed⟩
      rw [haddresses, exists_concat, h.mem_iff]
      refine (or_iff_left_of_imp fun hlast => ?_).symm
      obtain ⟨hus, hsender⟩ := hlast
      rw [← h.mem_iff, ← hsender, ← hfound]
      by_contra hmissing
      exact hnew ⟨hus, Bool.eq_false_iff.mpr hmissing⟩
  · rw [handleArp_malformed hformed]
    exact ⟨memory, rfl, h.malformed hformed⟩

theorem memoryAfter_concat (ip : UInt32) (packets : List ArpHeader) (arp : ArpHeader) :
    memoryAfter ip (packets ++ [arp]) = memoryAfter ip packets >>= fun memory => (handleArp ip memory arp).memory := by
  rw [memoryAfter, List.foldlM_append]
  simp only [List.foldlM_cons, List.foldlM_nil, bind_pure]
  rfl

/-- **The memory is known just as long as nothing was answered**, and then the list is right. -/
theorem records_memoryAfter (ip : UInt32) (packets : List ArpHeader) :
    ((∀ arp ∈ packets, ¬(ForUs ip arp ∧ IsRequest arp)) →
        ∃ memory, memoryAfter ip packets = .ok memory ∧ Records ip packets memory.head) ∧
      ∀ memory, memoryAfter ip packets = .ok memory → ∀ arp ∈ packets, ¬(ForUs ip arp ∧ IsRequest arp) := by
  induction packets using List.reverseRecOn with
  | nil =>
      refine ⟨fun _ => ⟨⟨⟨[], 0⟩, []⟩, rfl, List.nodup_nil, fun arPa => ?_, fun entry hentry => ?_⟩,
        fun memory _ arp hmem => ?_⟩
      · exact iff_of_false List.not_mem_nil fun ⟨arp, hmem, _⟩ => absurd hmem List.not_mem_nil
      · exact absurd hentry List.not_mem_nil
      · exact absurd hmem List.not_mem_nil
  | append_singleton packets arp ih =>
      obtain ⟨hfrom, hto⟩ := ih
      rw [List.forall_mem_append, List.forall_mem_singleton, memoryAfter_concat]
      constructor
      · rintro ⟨hbefore, hlast⟩
        obtain ⟨memory, hmemory, hrecords⟩ := hfrom hbefore
        rw [hmemory]
        exact hrecords.step hlast
      · intro after hafter
        cases hmemory : memoryAfter ip packets with
        | error fault =>
            rw [hmemory] at hafter
            cases hafter
        | ok memory =>
            refine ⟨hto memory hmemory, fun hrequest => ?_⟩
            rw [hmemory] at hafter
            have hok : (handleArp ip memory arp).memory = .ok after := hafter
            rw [handleArp_request hrequest] at hok
            cases hok

/-- The last packet from an address is the last since any packet from it. -/
theorem latest_since {before after : List ArpHeader} {arPa : UInt32} (hformed : WellFormed arp)
    (hsender : sender arp = arPa) : latest (before ++ arp :: after) arPa = latest (arp :: after) arPa := by
  have hne : (arp :: after).filter (fun other => WellFormed other ∧ sender other = arPa) ≠ [] := by
    rw [List.filter_cons_of_pos (by simpa using ⟨hformed, hsender⟩)]
    exact List.cons_ne_nil _ _
  rw [latest, latest, List.filter_append, List.getLast?_append_of_ne_nil _ hne]

/-- What is claimed of the list after some packets: it has one entry for an address at most; it has one just when a
well-formed packet from the address was for us, with the hardware address of the last well-formed packet from it since
then. -/
structure ListOf (ip : UInt32) (packets : List ArpHeader) (head : List Entry) : Prop where
  nodup : (head.map Entry.arPa).Nodup
  mem_iff : ∀ arPa, arPa ∈ head.map Entry.arPa ↔ ∃ arp ∈ packets, ForUs ip arp ∧ sender arp = arPa
  current : ∀ entry ∈ head, ∀ before arp after, packets = before ++ arp :: after → ForUs ip arp →
    sender arp = entry.arPa → (latest (arp :: after) entry.arPa).map ArpHeader.arSha = some entry.arHa

theorem Records.listOf (h : Records ip packets head) : ListOf ip packets head := by
  refine ⟨h.nodup, h.mem_iff, ?_⟩
  intro entry hentry before arp after hpackets hus hsender
  have hlatest := h.current entry hentry
  rw [hpackets, latest_since hus.1 hsender] at hlatest
  exact hlatest

/-- **The list and the answers, until the first answer.** When a packet comes, the list is right and the packet is
answered as it should be if, and only if, no packet before it was answered: the answer frees the packet that it was
written over, which `malloc` has not returned. -/
theorem arp_list_and_replies_iff (ip : UInt32) (packets : List ArpHeader) (arp : ArpHeader) :
    (∃ memory, memoryAfter ip packets = .ok memory ∧ ListOf ip packets memory.head ∧
      (handleArp ip memory arp).frames = if ForUs ip arp ∧ IsRequest arp then [reply ip arp] else []) ↔
    ∀ earlier ∈ packets, ¬(ForUs ip earlier ∧ IsRequest earlier) := by
  obtain ⟨hfrom, hto⟩ := records_memoryAfter ip packets
  constructor
  · rintro ⟨memory, hmemory, -⟩
    exact hto memory hmemory
  · intro hnone
    obtain ⟨memory, hmemory, hrecords⟩ := hfrom hnone
    exact ⟨memory, hmemory, hrecords.listOf, handleArp_frames ip memory arp⟩

end

/-- The request of 10.0.1.2 for our address 10.0.1.180. -/
def request : ArpHeader :=
  { arHrd := 0x0100, arPro := 0x0008, arHln := 6, arPln := 4, arOp := 0x0100, arSha := #v[2, 0, 0, 0, 0, 1]
    arSpa := 0x0201000a, arTha := #v[0, 0, 0, 0, 0, 0], arTpa := 0xb401000a }

/-- It is answered, and nothing is known of the list when it is repeated. -/
theorem request_frees_packet : ¬∀ ip packets arp,
    ∃ memory, memoryAfter ip packets = .ok memory ∧ ListOf ip packets memory.head ∧
      (handleArp ip memory arp).frames = if ForUs ip arp ∧ IsRequest arp then [reply ip arp] else [] := by
  intro h
  obtain ⟨memory, hmemory, -⟩ := h 0x0a0001b4 [request] request
  have hrequest : ForUs 0x0a0001b4 request ∧ IsRequest request := by decide
  exact (records_memoryAfter 0x0a0001b4 [request]).2 memory hmemory request List.mem_cons_self hrequest

end Thebends.AvrNet
