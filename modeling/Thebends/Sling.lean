import Mathlib.Algebra.Order.BigOperators.Group.List
import Mathlib.Algebra.Ring.Nat
import Thebends.LibRun
import Thebends.LibSorted

/-! The bandwidth meter (`sling.cpp`): its events in any order. What is outstanding is known by a number of 16 bits,
which comes round; a packet may take the place of an earlier one then, and an answer that is late counts for the later
packet. -/

namespace Thebends.Sling

open LibRun LibSorted

abbrev Bytes := List UInt8

/-! ### The answers -/

/-- `ntohs` of the two bytes at a position. -/
def shortAt (packet : Bytes) (position : Nat) : UInt16 :=
  .ofNat ((packet.getD position 0).toNat * 256 + (packet.getD (position + 1) 0).toNat)

/-- The number of the packet that an ICMP message is about, if it says that a UDP packet was on its way for too long.
The header of that packet is taken to be of 20 bytes, as that of the message is. -/
def answeredSeq (packet : Bytes) : Option UInt16 :=
  if packet.length < 8 then none
  else if packet.length < 8 + 20 * 2 + 8 then none
  else if packet.getD 20 0 ≠ 11 ∨ packet.getD 21 0 ≠ 0 then none
  else if packet.getD 37 0 ≠ 17 then none
  else some (shortAt packet 50)

/-! ### The loop -/

/-- `kDeadlineMs`. -/
def kDeadlineMs : Nat := 5000

/-- What a line of statistics says. -/
structure Status where
  packets : Nat
  bytes : Nat
  out : Nat
  expired : Nat

/-- The variables of `main`, with what has happened so far. -/
structure Meter where
  seq : UInt16
  outstanding : List (Nat × Nat)
  packetsSent : Nat
  bytesSent : Nat
  expired : Nat
  /-- The lines of statistics. -/
  printed : List Status
  /-- How many packets were sent. -/
  sends : Nat
  /-- How many of them took the place of an earlier one. -/
  replaced : Nat

def Meter.start : Meter := ⟨4040, [], 0, 0, 0, [], 0, 0⟩

/-- What `kevent` reports, with the time. -/
inductive Event
  | expireTimer (now : Nat)
  | statsTimer
  | readable (packet : Bytes)
  | writable (now : Nat)

/-- The size of the window, a flag that is compared as a `size_t`. -/
def window (maxOutstanding : Int32) : Nat := (maxOutstanding.toInt % 2 ^ 64).toNat

/-- What one event changes, while the system calls succeed. -/
def Meter.perform (maxOutstanding : Int32) (payloadSize : Nat) (s : Meter) : Event → Meter
  | .expireTimer now =>
      let outstanding := s.outstanding.filter fun entry => ¬entry.2 < now
      { s with outstanding, expired := s.expired + (s.outstanding.length - outstanding.length) }
  | .statsTimer =>
      { s with
        printed := s.printed ++ [⟨s.packetsSent, s.bytesSent, s.outstanding.length, s.expired⟩]
        packetsSent := 0
        bytesSent := 0
        expired := 0 }
  | .readable packet =>
      if s.outstanding.length > 0 then
        match answeredSeq packet with
        | none => s
        | some seq =>
            if s.outstanding.lookup seq.toNat = none then s
            else { s with
              outstanding := remove seq.toNat s.outstanding
              packetsSent := s.packetsSent + 1
              bytesSent := s.bytesSent + payloadSize }
      else s
  | .writable now =>
      if s.outstanding.length < window maxOutstanding then
        let seq := s.seq + 1
        { s with
          seq
          outstanding := set seq.toNat (now + kDeadlineMs) s.outstanding
          sends := s.sends + 1
          replaced := s.replaced + if s.outstanding.lookup seq.toNat = none then 0 else 1 }
      else s

def Step (maxOutstanding : Int32) (payloadSize : Nat) (s : Meter) (event : Event) (s' : Meter) : Prop :=
  s' = s.perform maxOutstanding payloadSize event

/-! ### The books -/

/-- The packets that were answered, those of the lines of statistics and those since. -/
def Meter.answered (s : Meter) : Nat := (s.printed.map Status.packets).sum + s.packetsSent

/-- The packets that were given up. -/
def Meter.givenUp (s : Meter) : Nat := (s.printed.map Status.expired).sum + s.expired

def Meter.bytes (s : Meter) : Nat := (s.printed.map Status.bytes).sum + s.bytesSent

/-- How the books stand. -/
structure Balanced (maxOutstanding : Int32) (payloadSize : Nat) (s : Meter) : Prop where
  sorted : Sorted s.outstanding
  within : s.outstanding.length ≤ window maxOutstanding
  sends : s.sends = s.answered + s.givenUp + s.replaced + s.outstanding.length
  bytes : s.bytes = s.answered * payloadSize
  seq : s.seq.toNat = (4040 + s.sends) % 2 ^ 16
  keys : ∀ entry ∈ s.outstanding, ∃ number, 0 < number ∧ number ≤ s.sends ∧ entry.1 = (4040 + number) % 2 ^ 16
  replaced : s.sends ≤ 2 ^ 16 → s.replaced = 0

section Steps

variable {maxOutstanding : Int32} {payloadSize : Nat} {s : Meter}

theorem Balanced.expireTimer (h : Balanced maxOutstanding payloadSize s) (now : Nat) :
    Balanced maxOutstanding payloadSize (s.perform maxOutstanding payloadSize (.expireTimer now)) := by
  have hle := List.length_filter_le (fun entry : Nat × Nat => decide ¬entry.2 < now) s.outstanding
  have hsends := h.sends
  exact {
    sorted := h.sorted.filter _
    within := hle.trans h.within
    sends := by
      rw [Meter.answered, Meter.givenUp] at hsends
      rw [Meter.answered, Meter.givenUp]
      dsimp only [Meter.perform]
      omega
    bytes := h.bytes
    seq := h.seq
    keys := fun entry hentry => h.keys entry (List.mem_of_mem_filter hentry)
    replaced := h.replaced }

theorem Balanced.statsTimer (h : Balanced maxOutstanding payloadSize s) :
    Balanced maxOutstanding payloadSize (s.perform maxOutstanding payloadSize .statsTimer) := by
  have hanswered : (s.perform maxOutstanding payloadSize .statsTimer).answered = s.answered := by
    simp [Meter.answered, Meter.perform]
  have hgivenUp : (s.perform maxOutstanding payloadSize .statsTimer).givenUp = s.givenUp := by
    simp [Meter.givenUp, Meter.perform]
  have hbytes : (s.perform maxOutstanding payloadSize .statsTimer).bytes = s.bytes := by
    simp [Meter.bytes, Meter.perform]
  exact {
    sorted := h.sorted
    within := h.within
    sends := by
      rw [hanswered, hgivenUp]
      exact h.sends
    bytes := by rw [hbytes, hanswered, h.bytes]
    seq := h.seq
    keys := h.keys
    replaced := h.replaced }

theorem Balanced.answer (h : Balanced maxOutstanding payloadSize s) {key : Nat}
    (hfound : s.outstanding.lookup key ≠ none) :
    Balanced maxOutstanding payloadSize { s with
      outstanding := remove key s.outstanding
      packetsSent := s.packetsSent + 1
      bytesSent := s.bytesSent + payloadSize } := by
  have hlength := length_remove key h.sorted
  rw [if_neg hfound] at hlength
  have hsends := h.sends
  have hbytes := h.bytes
  rw [Meter.answered, Meter.givenUp] at hsends
  rw [Meter.answered, Meter.bytes] at hbytes
  exact {
    sorted := sorted_remove key h.sorted
    within := by
      have hwithin := h.within
      dsimp only
      omega
    sends := by
      rw [Meter.answered, Meter.givenUp]
      dsimp only
      omega
    bytes := by
      rw [Meter.answered, Meter.bytes]
      dsimp only
      rw [← Nat.add_assoc, hbytes, ← Nat.add_assoc, Nat.succ_mul]
    seq := h.seq
    keys := fun entry hentry => h.keys entry (List.mem_of_mem_filter hentry)
    replaced := h.replaced }

/-- The next number is taken only where so many packets were sent that the numbers have come round. -/
theorem Balanced.next_free (h : Balanced maxOutstanding payloadSize s) (hfew : s.sends < 2 ^ 16) :
    s.outstanding.lookup (s.seq + 1).toNat = none := by
  by_contra hfound
  obtain ⟨entry, hentry, hkey⟩ := lookup_ne_none.mp hfound
  obtain ⟨number, hpos, hle, hnumber⟩ := h.keys entry hentry
  have hseq := h.seq
  have hnext : (s.seq + 1).toNat = (s.seq.toNat + 1) % 2 ^ 16 := UInt16.toNat_add s.seq 1
  omega

theorem Balanced.send (h : Balanced maxOutstanding payloadSize s) (hroom : s.outstanding.length < window maxOutstanding)
    (deadline : Nat) :
    Balanced maxOutstanding payloadSize { s with
      seq := s.seq + 1
      outstanding := set (s.seq + 1).toNat deadline s.outstanding
      sends := s.sends + 1
      replaced := s.replaced + if s.outstanding.lookup (s.seq + 1).toNat = none then 0 else 1 } := by
  have hlength := length_set (s.seq + 1).toNat deadline h.sorted
  have hseq := h.seq
  have hnext : (s.seq + 1).toNat = (s.seq.toNat + 1) % 2 ^ 16 := UInt16.toNat_add s.seq 1
  have hsends := h.sends
  rw [Meter.answered, Meter.givenUp] at hsends
  exact {
    sorted := sorted_set _ _ h.sorted
    within := by
      dsimp only
      rw [hlength]
      split
      · omega
      · omega
    sends := by
      rw [Meter.answered, Meter.givenUp]
      dsimp only
      rw [hlength]
      split
      · omega
      · omega
    bytes := h.bytes
    seq := by
      dsimp only
      omega
    keys := by
      intro entry hentry
      rcases mem_set hentry with rfl | hentry
      · refine ⟨s.sends + 1, Nat.succ_pos _, le_rfl, ?_⟩
        dsimp only
        omega
      · obtain ⟨number, hpos, hle, hnumber⟩ := h.keys entry hentry
        exact ⟨number, hpos, Nat.le_succ_of_le hle, hnumber⟩
    replaced := by
      intro hfew
      dsimp only at hfew ⊢
      rw [if_pos (h.next_free (by omega)), h.replaced (by omega)] }

end Steps

/-- There are no more numbers than these, however large the window is. -/
theorem Balanced.length_le {maxOutstanding : Int32} {payloadSize : Nat} {s : Meter}
    (h : Balanced maxOutstanding payloadSize s) : s.outstanding.length ≤ 2 ^ 16 := by
  have hkeys : s.outstanding.map Prod.fst ⊆ List.range (2 ^ 16) := by
    intro key hkey
    obtain ⟨entry, hentry, rfl⟩ := List.mem_map.mp hkey
    obtain ⟨number, -, -, hnumber⟩ := h.keys entry hentry
    rw [List.mem_range, hnumber]
    exact Nat.mod_lt _ (by decide)
  have hcount := (List.subperm_of_subset (nodup_keys h.sorted) hkeys).length_le
  rwa [List.length_map, List.length_range] at hcount

/-- What one event keeps. -/
theorem Balanced.perform {maxOutstanding : Int32} {payloadSize : Nat} {s : Meter}
    (h : Balanced maxOutstanding payloadSize s) (event : Event) :
    Balanced maxOutstanding payloadSize (s.perform maxOutstanding payloadSize event) := by
  cases event with
  | expireTimer now => exact h.expireTimer now
  | statsTimer => exact h.statsTimer
  | readable packet =>
      rw [Meter.perform]
      split
      case isFalse => exact h
      case isTrue =>
          cases answeredSeq packet with
          | none => exact h
          | some seq =>
              dsimp only
              split
              case isTrue => exact h
              case isFalse hfound => exact h.answer hfound
  | writable now =>
      rw [Meter.perform]
      split
      case isFalse => exact h
      case isTrue hroom => exact h.send hroom (now + kDeadlineMs)

theorem balanced_start (maxOutstanding : Int32) (payloadSize : Nat) : Balanced maxOutstanding payloadSize .start where
  sorted := List.Pairwise.nil
  within := Nat.zero_le _
  sends := rfl
  bytes := (Nat.zero_mul _).symm
  seq := rfl
  keys := fun _ hentry => absurd hentry List.not_mem_nil
  replaced := fun _ => rfl

/-- Any events make a run. -/
theorem run_foldl (maxOutstanding : Int32) (payloadSize : Nat) (events : List Event) :
    Run (Step maxOutstanding payloadSize) .start events
      (events.foldl (Meter.perform maxOutstanding payloadSize) .start) := by
  induction events using List.reverseRecOn with
  | nil => exact Run.nil _
  | append_singleton events event ih =>
      rw [List.foldl_append]
      exact ih.snoc rfl

theorem balanced_run {maxOutstanding : Int32} {payloadSize : Nat} {events : List Event} {s : Meter}
    (hrun : Run (Step maxOutstanding payloadSize) .start events s) : Balanced maxOutstanding payloadSize s := by
  apply hrun.invariant fun _ => Balanced maxOutstanding payloadSize
  · exact balanced_start maxOutstanding payloadSize
  · rintro labels before event after - h rfl
    exact h.perform event

/-- **The books of the meter balance.** In every run, with the timers, the answers and the room to send in any order:
each packet that was sent is answered, given up, replaced by one with its number, or still outstanding, and counted
once; no more are outstanding than the window allows; the bytes of the statistics are those of the answered packets;
and nothing is replaced before the numbers have come round. -/
theorem books_balance {maxOutstanding : Int32} {payloadSize : Nat} {events : List Event} {s : Meter}
    (hrun : Run (Step maxOutstanding payloadSize) .start events s) :
    s.sends = s.answered + s.givenUp + s.replaced + s.outstanding.length ∧
      s.outstanding.length ≤ window maxOutstanding ∧ s.bytes = s.answered * payloadSize ∧
      (s.sends ≤ 2 ^ 16 → s.replaced = 0) := by
  have h := balanced_run hrun
  exact ⟨h.sends, h.within, h.bytes, h.replaced⟩

/-- Turns with room to send, as long as the window has room, change nothing in the books but what was sent. -/
theorem foldl_writable {maxOutstanding : Int32} {payloadSize : Nat} (now count : Nat) {s after : Meter}
    (h : Balanced maxOutstanding payloadSize s) (hroom : s.outstanding.length + count ≤ window maxOutstanding)
    (hafter : (List.replicate count (.writable now)).foldl (Meter.perform maxOutstanding payloadSize) s = after) :
    after.sends = s.sends + count ∧ after.answered = s.answered ∧ after.givenUp = s.givenUp := by
  induction count generalizing s with
  | zero =>
      subst hafter
      exact ⟨rfl, rfl, rfl⟩
  | succ count ih =>
      have hlength := length_set (s.seq + 1).toNat (now + kDeadlineMs) h.sorted
      have hnext := h.send (by omega) (now + kDeadlineMs)
      rw [List.replicate_succ, List.foldl_cons, Meter.perform, if_pos (by omega)] at hafter
      have hrest : (set (s.seq + 1).toNat (now + kDeadlineMs) s.outstanding).length + count ≤ window maxOutstanding := by
        rw [hlength]
        split
        · omega
        · omega
      obtain ⟨hsends, hanswered, hgivenUp⟩ := ih hnext hrest hafter
      refine ⟨?_, hanswered, hgivenUp⟩
      rw [hsends]
      exact Nat.add_right_comm s.sends 1 count

/-- The message of a router that gave up the packet with this number. -/
def timeExceeded (seq : UInt16) : Bytes :=
  List.replicate 20 0 ++ [11, 0] ++ List.replicate 15 0 ++ [17] ++ List.replicate 12 0 ++
    [.ofNat (seq.toNat / 256), .ofNat seq.toNat] ++ List.replicate 4 0

/-- Of two packets one is given up and the other answered. -/
def twoPackets : List Event := [.writable 0, .writable 10, .expireTimer 5005, .readable (timeExceeded 4042)]

/-- After these a large window is filled until the numbers come round. -/
theorem books_balance_comesRound : ∃ s : Meter, s.givenUp = 1 ∧ s.answered = 1 ∧ s.sends = 2 ^ 16 + 3 ∧ 0 < s.replaced ∧
    s.sends = s.answered + s.givenUp + s.replaced + s.outstanding.length ∧ s.outstanding.length ≤ 70000 ∧
    s.bytes = 1024 := by
  have hwindow : window 70000 = 70000 := by decide
  have hrun := run_foldl 70000 1024 (twoPackets ++ List.replicate (2 ^ 16 + 1) (.writable 5020))
  obtain ⟨before, hbefore, hsends, hanswered, hgivenUp, hout⟩ : ∃ before,
      twoPackets.foldl (Meter.perform 70000 1024) .start = before ∧ before.sends = 2 ∧ before.answered = 1 ∧
        before.givenUp = 1 ∧ before.outstanding = [] := ⟨_, rfl, by decide, by decide, by decide, by decide⟩
  have hbalanced : Balanced 70000 1024 before := hbefore ▸ balanced_run (run_foldl 70000 1024 twoPackets)
  obtain ⟨hmore, hsame, hsame'⟩ := foldl_writable 5020 (2 ^ 16 + 1) hbalanced
    (by rw [hout, hwindow]; decide) rfl
  have hnumbers := (balanced_run hrun).length_le
  obtain ⟨hsum, hwithin, hbytes, -⟩ := books_balance hrun
  rw [List.foldl_append, hbefore] at hsum hwithin hbytes hnumbers
  rw [hwindow] at hwithin
  rw [hsame, hanswered] at hbytes
  rw [hsends] at hmore
  rw [hanswered] at hsame
  rw [hgivenUp] at hsame'
  exact ⟨_, hsame', hsame, hmore, by omega, hsum, hwithin, hbytes⟩

end Thebends.Sling
