import Mathlib.Data.List.Basic
import Thebends.MidiTrack

/-! The meta events of the standard file format, and the tracks made of them that the parser takes apart event
by event. -/

namespace Thebends.Midi

open LibExcept Buffer

/-- A variable-length quantity: at most four bytes, all but the last with the high bit set. -/
structure VarInt where
  continuation : Bytes
  last : UInt8
  length_le : continuation.length ≤ 3
  continues : ∀ c ∈ continuation, 0x80 ≤ c
  stops : last < 0x80

namespace VarInt

def bytes (number : VarInt) : Bytes := number.continuation ++ [number.last]

/-- Seven bits of each byte, the most significant first. -/
def value (number : VarInt) : Nat := number.bytes.foldl (fun value c => value * 128 + c.toNat % 128) 0

/-- A quantity of one byte. -/
def single (last : UInt8) (h : last < 0x80) : VarInt where
  continuation := []
  last := last
  length_le := Nat.zero_le 3
  continues := fun _ hmem => nomatch hmem
  stops := h

theorem bytes_ne_nil (number : VarInt) : number.bytes ≠ [] :=
  List.append_ne_nil_of_right_ne_nil _ (List.cons_ne_nil _ _)

end VarInt

/-- The lengths that the format allows the data of a type. -/
def Allows (type : UInt8) (length : Nat) : Prop :=
  (type = 0x20 ∨ type = 0x21 → length = 1) ∧ (type = 0x2f → length = 0) ∧ (type = 0x51 → length = 3) ∧
    (type = 0x58 → length = 4) ∧ (type = 0x59 → length = 2)

instance (type : UInt8) (length : Nat) : Decidable (Allows type length) := by
  unfold Allows
  infer_instance

/-- A meta event of a track with the delta time before it. -/
structure Event where
  delta : VarInt
  type : UInt8
  length : VarInt
  data : Bytes
  type_lt : type < 0x80
  length_eq : length.value = data.length
  allows : Allows type data.length

namespace Event

/-- The event from its type on. -/
def body (event : Event) : Bytes := event.type :: (event.length.bytes ++ event.data)

/-- Delta time, `FF`, type, length and data. -/
def encode (event : Event) : Bytes := event.delta.bytes ++ 0xff :: event.body

/-- What the event says. -/
def meaning (event : Event) : MetaEvent :=
  if event.type ≤ 0x07 then .metaText event.type.toUInt32 event.data
  else
    match event.type, event.data with
    | 0x20, [channel] => .midiChannel channel.toUInt32
    | 0x21, [port] => .midiPort port.toUInt32
    | 0x2f, _ => .endOfTrack
    | 0x7f, data => .sequencerSpecific data
    | 0x51, tempo => .setTempo tempo
    | 0x58, [nn, dd, cc, bb] => .timeSignature nn.toUInt32 dd.toUInt32 cc.toUInt32 bb.toUInt32
    | 0x59, [sf, mi] => .keySignature sf.toUInt32 mi.toUInt32
    | type, _ => .unknown type.toUInt32

/-- The events that the parser takes in full: its branches for a channel, a port, a time signature and a key
signature read the data as variable-length quantities, and a type without a branch leaves its length and data
unread. -/
def Clean (event : Event) : Prop :=
  event.type ≤ 0x07 ∨ event.type = 0x2f ∨ event.type = 0x51 ∨ event.type = 0x7f ∨
    (event.type = 0x20 ∨ event.type = 0x21 ∨ event.type = 0x58 ∨ event.type = 0x59) ∧ ∀ c ∈ event.data, c < 0x80

end Event

/-- The bytes of a track. -/
def encode (events : List Event) : Bytes := events.flatMap Event.encode

/-- What a parser that takes each event in full has handled. -/
def expected : List Event → List Handled
  | [] => []
  | event :: events => ⟨.ofNat event.delta.value, .metaEvent event.meaning, encode events⟩ :: expected events

/-! ### Variable-length quantities -/

theorem and_high_iff (c : UInt8) : c &&& 0x80 = 0x80 ↔ 0x80 ≤ c := by
  rw [← UInt8.toNat_inj, UInt8.le_iff_toNat_le, UInt8.toNat_and]
  have hall : ∀ n : Fin 256, n.val &&& 128 = 128 ↔ 128 ≤ n.val := by decide +kernel
  exact hall ⟨c.toNat, c.toNat_lt⟩

theorem shift_add_high {v : Nat} {c : UInt8} (h : 0x80 ≤ c) :
    (UInt32.ofNat v <<< 7) + c.toUInt32 - 0x80 = UInt32.ofNat (v * 128 + c.toNat % 128) := by
  have hc : 128 ≤ c.toNat := h
  have hlt := c.toNat_lt
  apply UInt32.toNat_inj.mp
  simp only [UInt32.toNat_sub, UInt32.toNat_add, UInt32.toNat_shiftLeft, UInt32.toNat_ofNat', UInt8.toNat_toUInt32,
    Nat.shiftLeft_eq, UInt32.toNat_ofNat, Nat.reduceMod, Nat.reducePow]
  omega

theorem shift_add_low {v : Nat} {c : UInt8} (h : c < 0x80) :
    (UInt32.ofNat v <<< 7) + c.toUInt32 = UInt32.ofNat (v * 128 + c.toNat % 128) := by
  have hc : c.toNat < 128 := h
  apply UInt32.toNat_inj.mp
  simp only [UInt32.toNat_add, UInt32.toNat_shiftLeft, UInt32.toNat_ofNat', UInt8.toNat_toUInt32,
    Nat.shiftLeft_eq, UInt32.toNat_ofNat, Nat.reduceMod, Nat.reducePow]
  omega

theorem readVarFrom_bytes {last : UInt8} (hlast : last < 0x80) (rest : Buffer) {continuation : Bytes} :
    ∀ {numcount v : Nat}, (∀ c ∈ continuation, 0x80 ≤ c) → continuation.length < numcount →
      readVarFrom numcount (.ofNat v) (continuation ++ last :: rest) =
        .ok (.ofNat ((continuation ++ [last]).foldl (fun value c => value * 128 + c.toNat % 128) v), rest) := by
  induction continuation with
  | nil =>
      intro numcount v _ hcount
      obtain ⟨numcount, rfl⟩ := Nat.exists_eq_succ_of_ne_zero hcount.ne'
      rw [List.nil_append, readVarFrom, if_neg fun hhigh => absurd ((and_high_iff last).mp hhigh) (UInt8.not_le.mpr hlast),
        shift_add_low hlast]
      rfl
  | cons c continuation ih =>
      intro numcount v hhigh hcount
      obtain ⟨numcount, rfl⟩ := Nat.exists_eq_succ_of_ne_zero (Nat.zero_lt_of_lt hcount).ne'
      have hc : 0x80 ≤ c := hhigh c List.mem_cons_self
      rw [List.cons_append, readVarFrom, if_pos ((and_high_iff c).mpr hc), shift_add_high hc]
      exact ih (fun d hmem => hhigh d (List.mem_cons_of_mem c hmem)) (Nat.lt_of_succ_lt_succ hcount)

theorem readVar_bytes (number : VarInt) (rest : Buffer) :
    readVar (number.bytes ++ rest) = .ok (.ofNat number.value, rest) := by
  rw [VarInt.bytes, List.append_assoc]
  exact readVarFrom_bytes number.stops rest number.continues (Nat.lt_succ_of_le (number.length_le.trans (Nat.le_succ 3)))

/-- A byte below `0x80` is a quantity of its own. -/
theorem readVar_low {c : UInt8} (h : c < 0x80) (rest : Buffer) : readVar (c :: rest) = .ok (c.toUInt32, rest) := by
  have hbyte : UInt32.ofNat (VarInt.single c h).value = c.toUInt32 := by
    have hc : c.toNat < 128 := h
    apply UInt32.toNat_inj.mp
    show (0 * 128 + c.toNat % 128) % 2 ^ 32 = c.toNat
    omega
  rw [← hbyte]
  exact readVar_bytes (VarInt.single c h) rest

theorem foldl_lt (bytes : Bytes) (value : Nat) :
    bytes.foldl (fun value c => value * 128 + c.toNat % 128) value < (value + 1) * 128 ^ bytes.length := by
  induction bytes generalizing value with
  | nil => simp
  | cons c bytes ih =>
      refine (ih (value * 128 + c.toNat % 128)).trans_le ?_
      rw [List.length_cons, pow_succ', ← Nat.mul_assoc]
      exact Nat.mul_le_mul_right _ (by omega)

theorem VarInt.value_lt (number : VarInt) : number.value < 2 ^ 28 := by
  have hlength : number.bytes.length ≤ 4 := by
    rw [VarInt.bytes, List.length_append]
    exact Nat.succ_le_succ number.length_le
  refine (foldl_lt number.bytes 0).trans_le ?_
  rw [Nat.zero_add, Nat.one_mul]
  exact Nat.pow_le_pow_right (by decide) hlength

theorem expectVar_bytes {number : VarInt} {expect : Nat} (h : number.value = expect) (rest : Buffer) :
    expectVar (.ofNat expect) (number.bytes ++ rest) = .ok rest := by
  rw [expectVar, readVar_bytes, ok_bind, h]
  exact if_neg fun hne => hne rfl

theorem read_append (data rest : Bytes) : read data.length (data ++ rest) = .ok (data, rest) := by
  rw [Buffer.read, if_neg (not_lt.mpr (List.length_append ▸ Nat.le_add_right _ _)), List.take_left, List.drop_left]

theorem readSized_bytes {length : VarInt} {data : Bytes} (h : length.value = data.length) (rest : Buffer) :
    readSized (length.bytes ++ (data ++ rest)) = .ok (data, rest) := by
  have hsmall : length.value < UInt32.size := length.value_lt.trans (by decide)
  rw [readSized, readVar_bytes, ok_bind]
  show read (UInt32.ofNat length.value).toNat (data ++ rest) = _
  rw [UInt32.toNat_ofNat_of_lt' hsmall, h]
  exact read_append data rest

/-! ### Data read as variable-length quantities -/

/-- Data is taken byte by byte only where no byte has the high bit. -/
theorem low_of_skipVars {data rest : Bytes} (h : skipVars data.length (data ++ rest) = .ok rest) :
    ∀ c ∈ data, c < 0x80 := by
  induction data with
  | nil => exact fun c hmem => nomatch hmem
  | cons c data ih =>
      obtain ⟨⟨value, after⟩, hvalue, hskip⟩ := bind_eq_ok h
      have hlow : c < 0x80 := by
        by_contra hhigh
        have hless : after.length < (data ++ rest).length :=
          (readVar_cons hvalue).2 ((and_high_iff c).mpr (UInt8.not_lt.mp hhigh))
        rw [List.length_append, Nat.add_comm] at hless
        exact absurd hless (not_lt.mpr (skipVars_length hskip))
      rw [List.cons_append, readVar_low hlow] at hvalue
      cases hvalue
      intro d hmem
      rcases List.mem_cons.mp hmem with rfl | hmem
      · exact hlow
      · exact ih hskip d hmem

/-! ### One event -/

namespace Event

theorem parseFrom_body (event : Event) (rest : Buffer) :
    MetaEvent.parseFrom (event.body ++ rest) =
      MetaEvent.parseBody event.type.toUInt32 (event.length.bytes ++ (event.data ++ rest)) := by
  rw [MetaEvent.parseFrom, body, List.cons_append, readVar_low event.type_lt, List.append_assoc]
  rfl

/-- **A clean event is read in full.** -/
theorem parseFrom_clean {event : Event} (h : event.Clean) (rest : Buffer) :
    MetaEvent.parseFrom (event.body ++ rest) = .ok (event.meaning, rest) := by
  rw [parseFrom_body]
  obtain ⟨delta, type, length, data, htype, hlength, hallows⟩ := event
  dsimp only [Clean, meaning] at *
  rcases h with hseven | rfl | rfl | rfl | ⟨rfl | rfl | rfl | rfl, hlow⟩
  · have hseven' : type.toUInt32 ≤ 0x07 := hseven
    rw [MetaEvent.parseBody, if_pos hseven', if_pos hseven, readSized_bytes hlength]
    rfl
  · obtain rfl := List.eq_nil_of_length_eq_zero (hallows.2.1 rfl)
    exact bind_ok (expectVar_bytes hlength rest) rfl
  · have hthree : data.length = 3 := hallows.2.2.1 rfl
    have hread : Buffer.read 3 (data ++ rest) = .ok (data, rest) := hthree ▸ read_append data rest
    exact bind_ok (expectVar_bytes (hlength.trans hthree) _) (bind_ok hread rfl)
  · exact bind_ok (readSized_bytes hlength rest) rfl
  · obtain ⟨channel, rfl⟩ := List.length_eq_one_iff.mp (hallows.1 (Or.inl rfl))
    have hchannel := readVar_low (hlow channel (by simp)) rest
    exact bind_ok (expectVar_bytes hlength _) (bind_ok hchannel rfl)
  · obtain ⟨port, rfl⟩ := List.length_eq_one_iff.mp (hallows.1 (Or.inr rfl))
    have hport := readVar_low (hlow port (by simp)) rest
    exact bind_ok (expectVar_bytes hlength _) (bind_ok hport rfl)
  · obtain ⟨nn, later, rfl⟩ := List.exists_cons_of_length_eq_add_one (hallows.2.2.2.1 rfl)
    obtain ⟨dd, cc, bb, rfl⟩ := List.length_eq_three.mp (Nat.succ.inj (hallows.2.2.2.1 rfl))
    have hnn := readVar_low (hlow nn (by simp)) ([dd, cc, bb] ++ rest)
    have hdd := readVar_low (hlow dd (by simp)) ([cc, bb] ++ rest)
    have hcc := readVar_low (hlow cc (by simp)) ([bb] ++ rest)
    have hbb := readVar_low (hlow bb (by simp)) rest
    exact bind_ok (expectVar_bytes hlength _) (bind_ok hnn (bind_ok hdd (bind_ok hcc (bind_ok hbb rfl))))
  · obtain ⟨sf, mi, rfl⟩ := List.length_eq_two.mp (hallows.2.2.2.2 rfl)
    have hsf := readVar_low (hlow sf (by simp)) ([mi] ++ rest)
    have hmi := readVar_low (hlow mi (by simp)) rest
    exact bind_ok (expectVar_bytes hlength _) (bind_ok hsf (bind_ok hmi rfl))

/-- Data that is read as variable-length quantities is read as many of them as it has bytes. -/
theorem skipVars_of_parseBody {type : UInt8} {length : VarInt} {data rest after : Bytes} {message : MetaEvent}
    (htype : type = 0x20 ∨ type = 0x21 ∨ type = 0x58 ∨ type = 0x59) (hlength : length.value = data.length)
    (hallows : Allows type data.length)
    (h : MetaEvent.parseBody type.toUInt32 (length.bytes ++ (data ++ rest)) = .ok (message, after)) :
    skipVars data.length (data ++ rest) = .ok after := by
  have hcount : (type.toUInt32, data.length) ∈ [((0x20 : UInt32), 1), (0x21, 1), (0x58, 4), (0x59, 2)] := by
    rcases htype with rfl | rfl | rfl | rfl
    · rw [hallows.1 (Or.inl rfl)]
      simp
    · rw [hallows.1 (Or.inr rfl)]
      simp
    · rw [hallows.2.2.2.1 rfl]
      simp
    · rw [hallows.2.2.2.2 rfl]
      simp
  obtain ⟨start, hstart, hskip⟩ := MetaEvent.skipVars_of_parseBody hcount h
  cases (expectVar_bytes hlength _).symm.trans hstart
  exact hskip

/-- A type without a branch is all that is read of its event. -/
theorem parseBody_unknown {type : UInt8} (hseven : ¬type ≤ 0x07)
    (hnone : ∀ number ∈ [0x20, 0x21, 0x2f, 0x7f, 0x51, 0x58, (0x59 : UInt8)], type ≠ number) (buffer : Buffer) :
    MetaEvent.parseBody type.toUInt32 buffer = .ok (.unknown type.toUInt32, buffer) := by
  have hne : ∀ number ∈ [0x20, 0x21, 0x2f, 0x7f, 0x51, 0x58, (0x59 : UInt8)], type.toUInt32 ≠ number.toUInt32 :=
    fun number hmem heq => hnone number hmem (UInt8.toUInt32_inj.mp heq)
  have hseven' : ¬type.toUInt32 ≤ 0x07 := hseven
  exact (if_neg hseven').trans <| (if_neg (hne 0x20 (by simp))).trans <| (if_neg (hne 0x21 (by simp))).trans <|
    (if_neg (hne 0x2f (by simp))).trans <| (if_neg (hne 0x7f (by simp))).trans <|
    (if_neg (hne 0x51 (by simp))).trans <| (if_neg (hne 0x58 (by simp))).trans (if_neg (hne 0x59 (by simp)))

/-- **An event that is read in full is clean.** -/
theorem clean_of_parseFrom {event : Event} {message : MetaEvent} {rest : Buffer}
    (h : MetaEvent.parseFrom (event.body ++ rest) = .ok (message, rest)) : event.Clean := by
  rw [parseFrom_body] at h
  by_contra hunclean
  obtain ⟨hseven, hend, htempo, hsequencer, hvars⟩ :
      ¬event.type ≤ 0x07 ∧ event.type ≠ 0x2f ∧ event.type ≠ 0x51 ∧ event.type ≠ 0x7f ∧
        ((event.type = 0x20 ∨ event.type = 0x21 ∨ event.type = 0x58 ∨ event.type = 0x59) →
          ¬∀ c ∈ event.data, c < 0x80) := by
    simpa only [Clean, not_or, not_and] using hunclean
  by_cases htype : event.type = 0x20 ∨ event.type = 0x21 ∨ event.type = 0x58 ∨ event.type = 0x59
  · exact hvars htype (low_of_skipVars (skipVars_of_parseBody htype event.length_eq event.allows h))
  · simp only [not_or] at htype
    rw [parseBody_unknown hseven (by simp [htype, hend, htempo, hsequencer])] at h
    injection h with h
    have hlength := congrArg (fun pair => List.length pair.2) h
    have hpos := List.length_pos_iff.mpr event.length.bytes_ne_nil
    simp only [List.length_append] at hlength
    omega

theorem parseEvent_encode (event : Event) (rest : Buffer) :
    MTrkChunk.parseEvent (event.encode ++ rest) = (do
      let (message, buffer) ← MetaEvent.parseFrom (event.body ++ rest)
      .ok ⟨.ofNat event.delta.value, .metaEvent message, buffer⟩) := by
  rw [encode, List.append_assoc, MTrkChunk.parseEvent, readVar_bytes]
  rfl

theorem encode_ne_nil (event : Event) : event.encode ≠ [] :=
  List.append_ne_nil_of_right_ne_nil _ (List.cons_ne_nil _ _)

end Event

/-! ### A track -/

open MTrkChunk

/-- The loop handles just the events that were encoded where they are all clean. -/
theorem parseEvents_encode_iff (events : List Event) :
    parseEvents (encode events) = .ok (expected events) ↔ ∀ event ∈ events, event.Clean := by
  induction events with
  | nil => exact iff_of_true parseEvents_nil fun _ hmem => nomatch hmem
  | cons event events ih =>
      rw [List.forall_mem_cons, ← ih]
      show parseEvents (event.encode ++ encode events) = _ ↔ _
      constructor
      · intro h
        obtain ⟨handled, later, hhandled, hlater, heq⟩ :=
          parseEvents_eq_ok h (List.append_ne_nil_of_left_ne_nil event.encode_ne_nil _)
        obtain ⟨rfl, rfl⟩ := List.cons.inj heq
        rw [Event.parseEvent_encode] at hhandled
        obtain ⟨⟨message, buffer⟩, hmessage, hhandled⟩ := bind_eq_ok hhandled
        cases hhandled
        exact ⟨Event.clean_of_parseFrom hmessage, hlater⟩
      · rintro ⟨hclean, hlater⟩
        have hhandled := event.parseEvent_encode (encode events)
        rw [Event.parseFrom_clean hclean] at hhandled
        rw [parseEvents_ok hhandled]
        exact congrArg (Except.map _) hlater

/-- **Tracks of meta events.** The parser returns true and handles each event in full, up to the end of the track
and no further, just for the tracks of one event or more that are all clean. -/
theorem track_handled_iff (events : List Event) (more : Buffer) :
    MTrkChunk.parseFrom (encode events ++ more) (encode events).length = .ok (expected events, more) ↔
      events ≠ [] ∧ ∀ event ∈ events, event.Clean := by
  rw [← parseEvents_encode_iff]
  cases events with
  | nil => exact iff_of_false (fun h => nomatch h) fun h => h.1 rfl
  | cons event events =>
      have hpos : (encode (event :: events)).length ≠ 0 := fun hzero =>
        List.append_ne_nil_of_left_ne_nil event.encode_ne_nil _ (List.eq_nil_of_length_eq_zero hzero)
      rw [MTrkChunk.parseFrom, if_neg hpos, read_append, ok_bind]
      constructor
      · intro h
        obtain ⟨handled, hhandled, h⟩ := bind_eq_ok h
        cases h
        exact ⟨List.cons_ne_nil _ _, hhandled⟩
      · exact fun h => bind_ok h.2 rfl

/-- A key signature of one flat, in major. -/
def oneFlat : Event where
  delta := .single 0 (by decide)
  type := 0x59
  length := .single 2 (by decide)
  data := [0xff, 0x00]
  type_lt := by decide
  length_eq := rfl
  allows := by decide

def endOfTrack : Event where
  delta := .single 0 (by decide)
  type := 0x2f
  length := .single 0 (by decide)
  data := []
  type_lt := by decide
  length_eq := rfl
  allows := by decide

/-- The flat of a key signature is read together with the byte for the mode, and the next delta time as the mode. -/
def oneFlatHandled : List Handled :=
  [⟨0, .metaEvent (.keySignature 0x3f80 0), [0xff, 0x2f, 0x00]⟩, ⟨0x3faf, .midiEvent (.statusOnly 0), []⟩]

theorem oneFlat_misread :
    MTrkChunk.parseFrom (encode [oneFlat, endOfTrack]) (encode [oneFlat, endOfTrack]).length = .ok (oneFlatHandled, []) ∧
      oneFlatHandled ≠ expected [oneFlat, endOfTrack] := by
  constructor
  · have hlast : parseEvent [0xff, 0x2f, 0x00] = .ok ⟨0x3faf, .midiEvent (.statusOnly 0), []⟩ := rfl
    have hfirst : parseEvent (encode [oneFlat, endOfTrack]) =
        .ok ⟨0, .metaEvent (.keySignature 0x3f80 0), [0xff, 0x2f, 0x00]⟩ := rfl
    have hall : parseEvents (encode [oneFlat, endOfTrack]) = .ok oneFlatHandled := by
      rw [parseEvents_ok hfirst, parseEvents_ok hlast, parseEvents_nil]
      rfl
    exact bind_ok (rfl : Buffer.read _ _ = .ok (encode [oneFlat, endOfTrack], [])) (bind_ok hall rfl)
  · decide

end Thebends.Midi
