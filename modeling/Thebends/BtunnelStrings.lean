import Thebends.BtunnelMessage
import Thebends.LibExcept

/-! `ReadString` of btunnel on every content of the buffer. The length in front of a string is an unsigned
number of two bytes on the wire and a signed one in the program, and the buffer refuses to go ahead by less
than one byte. -/

namespace Thebends.Btunnel

open LibExcept LibNetOrder Ynet

/-- The length that the first two bytes announce. -/
def announced (queue : Bytes) : Nat := ofNetwork (queue.take 2)

/-- What `ReadString` is for: the return value, and the string that it hands out. -/
def promised (queue : Bytes) (maxLength : Int) : Int × Option Bytes :=
  if queue.length < 2 then (0, none)
  else if (announced queue : Int) > maxLength then (-1, none)
  else if queue.length < 2 + announced queue then (0, none)
  else (announced queue + 2, some ((queue.drop 2).take (announced queue)))

/-- `ReadString` returns what it should, into any string. -/
def KeepsPromise (b : Buffer) (queue : Bytes) (maxLength : Int) : Prop :=
  ∀ input, ∃ b', readString b maxLength input =
    .ok ((promised queue maxLength).1, (promised queue maxLength).2.getD input, b')

theorem announced_lt (queue : Bytes) (h : 2 ≤ queue.length) : announced queue < 2 ^ 16 := by
  have hlt := ofNetwork_lt (queue.take 2)
  rw [List.length_take, Nat.min_eq_left h] at hlt
  exact hlt

/-- The length in a signed variable of 16 bits. -/
theorem toInt_low {value : Nat} (h : value < 2 ^ 15) :
    (Int16.ofBitVec (BitVec.ofNat 16 value)).toInt = value := by
  rw [Int16.toInt_ofBitVec, BitVec.toInt_ofNat']
  exact Int.bmod_eq_of_le (by omega) (by omega)

theorem toInt_high {value : Nat} (h : 2 ^ 15 ≤ value) (hlt : value < 2 ^ 16) :
    (Int16.ofBitVec (BitVec.ofNat 16 value)).toInt < 0 := by
  rw [Int16.toInt_ofBitVec, BitVec.toInt_eq_toNat_cond, BitVec.toNat_ofNat, Nat.mod_eq_of_lt hlt,
    if_neg (by omega)]
  omega

section

variable {b : Buffer} {queue : Bytes} {first : Nat} {maxLength : Int}

/-- The buffer peeks at no bytes, and then fails its assertion. -/
theorem read_nonpos (h : b.Layout queue first) {len : Int} (hlen : len ≤ 0) : b.read len = .error .assertion := by
  have hsize := h.size
  have hstart := h.start
  have hlt := h.start_lt
  have hbuffer := h.bufferSize
  have hpeek : b.peek len = .ok (some []) := by
    rw [Buffer.peek, if_neg (by omega), if_neg (by omega), if_neg (by omega)]
    rfl
  have hcheck : check (decide (len > 0)) = .error .assertion := by
    rw [decide_eq_false (by omega)]
    rfl
  simp only [Buffer.read, hpeek, Buffer.advance, hcheck, bind, Except.bind]

theorem read_header (h : b.Layout queue first) (hlen : 2 ≤ queue.length) :
    b.read 2 = .ok (some (queue.take 2), b.after 2 0) := by
  have hread := Buffer.read_after h (show 0 < 2 by decide) (show 0 + 2 ≤ queue.length by omega)
  rwa [Buffer.after_zero h, List.drop_zero] at hread

theorem readString_short (h : b.Layout queue first) (hpos : 0 < maxLength) (hlen : queue.length < 2)
    (input : Bytes) : readString b maxLength input = .ok (0, input, b) := by
  have hcheck : check (decide (maxLength > 0)) = .ok () := check_ok hpos
  have hread := Buffer.read_after_refused h (Nat.zero_le _) (show queue.length < 0 + 2 by omega)
  rw [Buffer.after_zero h] at hread
  have hread' : b.read 2 = .ok (none, b) := hread
  simp only [readString, hcheck, hread', bind, Except.bind]
  rfl

/-- Where the header has arrived, what becomes of it depends on the length as the program sees it. -/
theorem readString_header (h : b.Layout queue first) (hpos : 0 < maxLength) (hlen : 2 ≤ queue.length)
    (input : Bytes) {length : Int} (hlength : (Int16.ofBitVec (BitVec.ofNat 16 (announced queue))).toInt = length) :
    readString b maxLength input =
      if length > maxLength then .ok (-1, input, b.after 2 2)
      else (do
        let (buf, b) ← (b.after 2 0).read length
        match buf with
        | none =>
            let (_, b) ← b.unadvance 2
            return (0, input, b)
        | some buf => return (2 + length, buf, b)) := by
  have hcheck : check (decide (maxLength > 0)) = .ok () := check_ok hpos
  have hback : (b.after 2 0).unadvance 2 = .ok (true, b.after 2 2) :=
    Buffer.unadvance_after h (show 0 < 2 by decide) hlen (show 0 + 2 ≤ 2 by decide)
  rw [announced] at hlength
  simp only [readString, hcheck, read_header h hlen, hlength, ok_bind]
  split
  · simp only [hback, ok_bind]
    rfl
  · rfl

/-- A length that the program sees as positive is what the header announces, and the promise is kept. -/
theorem keepsPromise_of_announced (h : b.Layout queue first) (hpos : 0 < maxLength) (hlen : 2 ≤ queue.length)
    (hannounced : 1 ≤ announced queue ∧ announced queue ≤ 32767) : KeepsPromise b queue maxLength := by
  have hsigned := toInt_low (show announced queue < 2 ^ 15 by omega)
  intro input
  rw [promised, if_neg (by omega), readString_header h hpos hlen input hsigned]
  by_cases hlimit : (announced queue : Int) > maxLength
  · rw [if_pos hlimit, if_pos hlimit]
    exact ⟨_, rfl⟩
  · rw [if_neg hlimit, if_neg hlimit]
    by_cases harrived : queue.length < 2 + announced queue
    · have hread := Buffer.read_after_refused h hlen harrived
      have hback : (b.after 2 0).unadvance 2 = .ok (true, b.after 2 2) :=
        Buffer.unadvance_after h (show 0 < 2 by decide) hlen (show 0 + 2 ≤ 2 by decide)
      refine ⟨b.after 2 2, ?_⟩
      rw [if_pos harrived, hread, ok_bind]
      simp only [hback, ok_bind]
      rfl
    · have hread := Buffer.read_after h (show 0 < announced queue from hannounced.1)
        (show 2 + announced queue ≤ queue.length by omega)
      refine ⟨b.after (2 + announced queue) 0, ?_⟩
      rw [if_neg harrived, hread, ok_bind, Int.add_comm]
      rfl

/-- Any other length reaches the buffer's assertion. -/
theorem readString_fails (h : b.Layout queue first) (hpos : 0 < maxLength) (hlen : 2 ≤ queue.length)
    (hannounced : announced queue = 0 ∨ 32767 < announced queue) (input : Bytes) :
    readString b maxLength input = .error .assertion := by
  have hsigned : (Int16.ofBitVec (BitVec.ofNat 16 (announced queue))).toInt ≤ 0 := by
    rcases hannounced with hzero | hhigh
    · rw [hzero]
      decide
    · exact Int.le_of_lt (toInt_high (by omega) (announced_lt queue hlen))
  rw [readString_header h hpos hlen input rfl, if_neg (by omega), read_nonpos (h.after hlen) hsigned]
  rfl

end

/-- **A string is read as promised**, for any content of the buffer and any limit, exactly when the
header has not arrived or announces 1 to 32767 bytes. -/
theorem readString_keeps_iff (b : Buffer) (queue : Bytes) (maxLength : Int) (h : b.Holds queue)
    (hpos : 1 ≤ maxLength) :
    KeepsPromise b queue maxLength ↔ (2 ≤ queue.length → 1 ≤ announced queue ∧ announced queue ≤ 32767) := by
  obtain ⟨first, hlayout⟩ := h
  have hlimit : 0 < maxLength := hpos
  by_cases hlen : 2 ≤ queue.length
  · rw [forall_prop_of_true hlen]
    constructor
    · intro hkeeps
      obtain ⟨b', hread⟩ := hkeeps []
      by_contra hannounced
      rw [readString_fails hlayout hlimit hlen (by omega) []] at hread
      cases hread
    · exact keepsPromise_of_announced hlayout hlimit hlen
  · refine iff_of_true (fun input => ⟨b, ?_⟩) fun hhas => absurd hhas hlen
    rw [promised, if_pos (by omega), readString_short hlayout hlimit (by omega) input]
    rfl

/-- A buffer with a header that announces no bytes. -/
theorem emptyString_fails : Buffer.Holds ⟨[0, 0, 0], 3, 0, 2⟩ [0, 0] ∧
    promised [0, 0] 1024 = (2, some []) ∧ readString ⟨[0, 0, 0], 3, 0, 2⟩ 1024 [] = .error .assertion ∧
    ¬KeepsPromise ⟨[0, 0, 0], 3, 0, 2⟩ [0, 0] 1024 := by
  have hlayout : Buffer.Layout ⟨[0, 0, 0], 3, 0, 2⟩ [0, 0] 0 := ⟨rfl, by decide, rfl, by decide, by decide, rfl, rfl⟩
  have hread : readString ⟨[0, 0, 0], 3, 0, 2⟩ 1024 [] = .error .assertion :=
    readString_fails hlayout (by decide) (by decide) (Or.inl rfl) []
  refine ⟨⟨0, hlayout⟩, by simp [promised, announced, ofNetwork], hread, fun hkeeps => ?_⟩
  obtain ⟨b', hkept⟩ := hkeeps []
  rw [hread] at hkept
  cases hkept

theorem readString_keeps_iff_wrapped : Buffer.Holds ⟨[7, 8, 0, 0, 2], 5, 3, 2⟩ [0, 2, 7, 8] ∧
    promised [0, 2, 7, 8] 1024 = (4, some [7, 8]) ∧ KeepsPromise ⟨[7, 8, 0, 0, 2], 5, 3, 2⟩ [0, 2, 7, 8] 1024 := by
  have hholds : Buffer.Holds ⟨[7, 8, 0, 0, 2], 5, 3, 2⟩ [0, 2, 7, 8] :=
    ⟨3, rfl, by decide, rfl, by decide, by decide, rfl, rfl⟩
  exact ⟨hholds, by simp [promised, announced, ofNetwork],
    (readString_keeps_iff _ _ 1024 hholds (by decide)).mpr fun _ => by decide⟩

end Thebends.Btunnel
