import Mathlib.Order.Basic
import Mathlib.Algebra.Order.Group.Nat
import Thebends.LibExcept

/-! The tracks of a MIDI file (`buffer.cc`, `event.cc` and `chunk.cc` of midlib). A buffer is what is left to
read of it, and an event that the parser has handled is what its branch read. What the parser prints besides is
left out. -/

namespace Thebends.Midi

open LibExcept

abbrev Bytes := List UInt8

/-- The bytes of a `Buffer` from its position on. -/
abbrev Buffer := Bytes

inductive Failure
  /-- The parser returns `false`. -/
  | rejected
  /-- A byte behind the end of the buffer is looked at. -/
  | pastEnd
  /-- A test of a variable without a value. -/
  | uninitialised
  deriving DecidableEq, Repr

namespace Buffer

/-- `Read(buf, count)`. -/
def read (count : Nat) (buffer : Buffer) : Except Failure (Bytes × Buffer) :=
  if count > buffer.length then .error .rejected else .ok (buffer.take count, buffer.drop count)

/-- The loop of `ReadVar`, with the number of bytes that it may still read. -/
def readVarFrom : Nat → UInt32 → Buffer → Except Failure (UInt32 × Buffer)
  | 0, v, buffer => .ok (v, buffer)
  | _ + 1, _, [] => .error .rejected
  | numcount + 1, v, c :: buffer =>
      if c &&& 0x80 = 0x80 then readVarFrom numcount ((v <<< 7) + c.toUInt32 - 0x80) buffer
      else .ok ((v <<< 7) + c.toUInt32, buffer)

/-- `ReadVar`. -/
def readVar (buffer : Buffer) : Except Failure (UInt32 × Buffer) := readVarFrom 5 0 buffer

/-- `Peek`. -/
def peek : Buffer → Except Failure UInt8
  | [] => .error .pastEnd
  | c :: _ => .ok c

end Buffer

open Buffer

/-- What `MetaEvent::ParseFrom` has read. -/
inductive MetaEvent
  | metaText (eventType : UInt32) (text : Bytes)
  | midiChannel (channel : UInt32)
  | midiPort (port : UInt32)
  | endOfTrack
  | sequencerSpecific (data : Bytes)
  | setTempo (tempo : Bytes)
  | timeSignature (nn dd cc bb : UInt32)
  | keySignature (sf mi : UInt32)
  | unknown (eventType : UInt32)
  deriving DecidableEq, Repr

/-- `!buffer->ReadVar(&value) || value != number`. -/
def expectVar (number : UInt32) (buffer : Buffer) : Except Failure Buffer := do
  let (value, buffer) ← readVar buffer
  if value ≠ number then .error .rejected else .ok buffer

/-- A length, and as many bytes. -/
def readSized (buffer : Buffer) : Except Failure (Bytes × Buffer) := do
  let (length, buffer) ← readVar buffer
  read length.toNat buffer

/-- The branches of `MetaEvent::ParseFrom`. -/
def MetaEvent.parseBody (eventType : UInt32) (buffer : Buffer) : Except Failure (MetaEvent × Buffer) :=
  if eventType ≤ 0x07 then do
    let (text, buffer) ← readSized buffer
    .ok (.metaText eventType text, buffer)
  else if eventType = 0x20 then do
    let buffer ← expectVar 1 buffer
    let (channel, buffer) ← readVar buffer
    .ok (.midiChannel channel, buffer)
  else if eventType = 0x21 then do
    let buffer ← expectVar 1 buffer
    let (port, buffer) ← readVar buffer
    .ok (.midiPort port, buffer)
  else if eventType = 0x2f then do
    let buffer ← expectVar 0 buffer
    .ok (.endOfTrack, buffer)
  else if eventType = 0x7f then do
    let (data, buffer) ← readSized buffer
    .ok (.sequencerSpecific data, buffer)
  else if eventType = 0x51 then do
    let buffer ← expectVar 0x03 buffer
    let (tempo, buffer) ← read 3 buffer
    .ok (.setTempo tempo, buffer)
  else if eventType = 0x58 then do
    let buffer ← expectVar 0x04 buffer
    let (nn, buffer) ← readVar buffer
    let (dd, buffer) ← readVar buffer
    let (cc, buffer) ← readVar buffer
    let (bb, buffer) ← readVar buffer
    .ok (.timeSignature nn dd cc bb, buffer)
  else if eventType = 0x59 then do
    let buffer ← expectVar 0x02 buffer
    let (sf, buffer) ← readVar buffer
    let (mi, buffer) ← readVar buffer
    .ok (.keySignature sf mi, buffer)
  else
    .ok (.unknown eventType, buffer)

/-- `MetaEvent::ParseFrom`. -/
def MetaEvent.parseFrom (buffer : Buffer) : Except Failure (MetaEvent × Buffer) := do
  let (eventType, buffer) ← readVar buffer
  parseBody eventType buffer

/-- What `MidiEvent::ParseFrom` has read; a velocity may be missing behind a note with the high bit set. -/
inductive MidiEvent
  | statusOnly (status : UInt8)
  | note (status note : UInt8) (velocity : Option UInt8)
  | control (status controller value : UInt8)
  | program (status number : UInt8)
  deriving DecidableEq, Repr

/-- `MidiEvent::ParseFrom`. The body of its loop returns, so that it runs once at most, and the first `Read` in
it succeeds, the end of the buffer not being reached. -/
def MidiEvent.parseFrom : Buffer → Except Failure (MidiEvent × Buffer)
  | [] => .error .uninitialised
  | [status] => .ok (.statusOnly status, [])
  | status :: data :: buffer =>
      match (status &&& 0xF0) >>> 4 with
      | 0x8 | 0x9 =>
          match buffer with
          | [] => if data &&& 0x80 = 0 then .error .rejected else .ok (.note status data none, [])
          | velocity :: buffer => .ok (.note status data (some velocity), buffer)
      | 0xB =>
          match buffer with
          | [] => .error .uninitialised
          | value :: buffer => .ok (.control status data value, buffer)
      | 0xC => .ok (.program status data, buffer)
      | _ => .error .rejected

/-- An event of a track. -/
inductive Message
  | metaEvent (event : MetaEvent)
  | midiEvent (event : MidiEvent)
  deriving DecidableEq, Repr

/-- An event that `MTrkChunk::ParseFrom` has handled: its delta time, what was read of it, and the bytes from
which the next delta time is read. -/
structure Handled where
  delta : UInt32
  message : Message
  rest : Buffer
  deriving DecidableEq, Repr

namespace MTrkChunk

/-- The body of the loop. The test of bit 7 compares `c` with `0x80 != 0x80` and is never true. -/
def parseEvent (buffer : Buffer) : Except Failure Handled := do
  let (delta, buffer) ← readVar buffer
  let c ← peek buffer
  if c = 0xff then do
    let (event, buffer) ← MetaEvent.parseFrom (buffer.drop 1)
    .ok ⟨delta, .metaEvent event, buffer⟩
  else if c = 0xf0 then .error .rejected
  else do
    let (event, buffer) ← MidiEvent.parseFrom buffer
    .ok ⟨delta, .midiEvent event, buffer⟩

end MTrkChunk

/-! ### Every event takes a byte at least -/

namespace Buffer

theorem readVarFrom_length {numcount : Nat} {v value : UInt32} {buffer rest : Buffer}
    (h : readVarFrom numcount v buffer = .ok (value, rest)) : rest.length ≤ buffer.length := by
  induction numcount generalizing v buffer with
  | zero =>
      cases h
      exact le_rfl
  | succ numcount ih =>
      cases buffer with
      | nil => cases h
      | cons c buffer =>
          rw [readVarFrom] at h
          split at h
          · exact (ih h).trans (Nat.le_succ _)
          · cases h
            exact Nat.le_succ _

/-- `ReadVar` takes a byte, and more where the first has the high bit set. -/
theorem readVar_cons {c : UInt8} {value : UInt32} {buffer rest : Buffer}
    (h : readVar (c :: buffer) = .ok (value, rest)) :
    rest.length ≤ buffer.length ∧ (c &&& 0x80 = 0x80 → rest.length < buffer.length) := by
  rw [readVar, readVarFrom] at h
  split at h
  case isTrue =>
      cases buffer with
      | nil => cases h
      | cons d buffer =>
          rw [readVarFrom] at h
          split at h
          · have hle := readVarFrom_length h
            exact ⟨hle.trans (Nat.le_succ _), fun _ => Nat.lt_succ_of_le hle⟩
          · cases h
            exact ⟨Nat.le_succ _, fun _ => Nat.lt_succ_self _⟩
  case isFalse hlow =>
      cases h
      exact ⟨le_rfl, fun hhigh => absurd hhigh hlow⟩

theorem readVar_length {value : UInt32} {buffer rest : Buffer} (h : readVar buffer = .ok (value, rest)) :
    rest.length < buffer.length := by
  cases buffer with
  | nil => cases h
  | cons c buffer => exact Nat.lt_succ_of_le (readVar_cons h).1

theorem read_length {count : Nat} {data : Bytes} {buffer rest : Buffer} (h : read count buffer = .ok (data, rest)) :
    rest.length ≤ buffer.length := by
  rw [read] at h
  split at h
  · cases h
  · cases h
    exact (List.length_drop ..).trans_le (Nat.sub_le _ _)

end Buffer

theorem expectVar_length {number : UInt32} {buffer rest : Buffer} (h : expectVar number buffer = .ok rest) :
    rest.length < buffer.length := by
  obtain ⟨⟨value, after⟩, hvalue, h⟩ := bind_eq_ok h
  dsimp only at h
  by_cases hne : value ≠ number
  · rw [if_pos hne] at h
    cases h
  · rw [if_neg hne] at h
    cases h
    exact readVar_length hvalue

theorem readSized_length {data : Bytes} {buffer rest : Buffer} (h : readSized buffer = .ok (data, rest)) :
    rest.length < buffer.length := by
  obtain ⟨⟨length, after⟩, hlength, h⟩ := bind_eq_ok h
  exact (read_length h).trans_lt (readVar_length hlength)

/-- A number of quantities, whatever they are. -/
def skipVars : Nat → Buffer → Except Failure Buffer
  | 0, buffer => .ok buffer
  | count + 1, buffer => do
      let (_, buffer) ← readVar buffer
      skipVars count buffer

theorem skipVars_length {count : Nat} {buffer rest : Buffer} (h : skipVars count buffer = .ok rest) :
    rest.length + count ≤ buffer.length := by
  induction count generalizing buffer with
  | zero =>
      cases h
      exact le_rfl
  | succ count ih =>
      obtain ⟨⟨value, after⟩, hvalue, h⟩ := bind_eq_ok h
      exact (Nat.succ_le_succ (ih h)).trans (readVar_length hvalue)

/-- The branches that read data as variable-length quantities read as many as they expect bytes. -/
theorem MetaEvent.skipVars_of_parseBody {eventType : UInt32} {count : Nat} {event : MetaEvent} {buffer rest : Buffer}
    (htype : (eventType, count) ∈ [((0x20 : UInt32), 1), (0x21, 1), (0x58, 4), (0x59, 2)])
    (h : parseBody eventType buffer = .ok (event, rest)) :
    ∃ start, expectVar (.ofNat count) buffer = .ok start ∧ skipVars count start = .ok rest := by
  simp only [List.mem_cons, Prod.mk.injEq, List.not_mem_nil, or_false] at htype
  rcases htype with ⟨rfl, rfl⟩ | ⟨rfl, rfl⟩ | ⟨rfl, rfl⟩ | ⟨rfl, rfl⟩
  · obtain ⟨start, hstart, h⟩ := bind_eq_ok h
    obtain ⟨⟨channel, last⟩, hchannel, h⟩ := bind_eq_ok h
    cases h
    exact ⟨start, hstart, bind_ok hchannel rfl⟩
  · obtain ⟨start, hstart, h⟩ := bind_eq_ok h
    obtain ⟨⟨port, last⟩, hport, h⟩ := bind_eq_ok h
    cases h
    exact ⟨start, hstart, bind_ok hport rfl⟩
  · obtain ⟨start, hstart, h⟩ := bind_eq_ok h
    obtain ⟨⟨nn, first⟩, hnn, h⟩ := bind_eq_ok h
    obtain ⟨⟨dd, second⟩, hdd, h⟩ := bind_eq_ok h
    obtain ⟨⟨cc, third⟩, hcc, h⟩ := bind_eq_ok h
    obtain ⟨⟨bb, last⟩, hbb, h⟩ := bind_eq_ok h
    cases h
    exact ⟨start, hstart, bind_ok hnn (bind_ok hdd (bind_ok hcc (bind_ok hbb rfl)))⟩
  · obtain ⟨start, hstart, h⟩ := bind_eq_ok h
    obtain ⟨⟨sf, first⟩, hsf, h⟩ := bind_eq_ok h
    obtain ⟨⟨mi, last⟩, hmi, h⟩ := bind_eq_ok h
    cases h
    exact ⟨start, hstart, bind_ok hsf (bind_ok hmi rfl)⟩

theorem MetaEvent.parseBody_length {eventType : UInt32} {event : MetaEvent} {buffer rest : Buffer}
    (h : parseBody eventType buffer = .ok (event, rest)) : rest.length ≤ buffer.length := by
  have hvars : ∀ count, (eventType, count) ∈ [((0x20 : UInt32), 1), (0x21, 1), (0x58, 4), (0x59, 2)] →
      rest.length ≤ buffer.length := by
    intro count htype
    obtain ⟨start, hstart, hskip⟩ := skipVars_of_parseBody htype h
    exact (Nat.le_of_add_right_le (skipVars_length hskip)).trans (expectVar_length hstart).le
  rw [parseBody] at h
  by_cases htext : eventType ≤ 0x07
  · rw [if_pos htext] at h
    obtain ⟨⟨text, after⟩, htext, h⟩ := bind_eq_ok h
    cases h
    exact (readSized_length htext).le
  rw [if_neg htext] at h
  by_cases hchannel : eventType = 0x20
  · exact hvars 1 (by simp [hchannel])
  rw [if_neg hchannel] at h
  by_cases hport : eventType = 0x21
  · exact hvars 1 (by simp [hport])
  rw [if_neg hport] at h
  by_cases hend : eventType = 0x2f
  · rw [if_pos hend] at h
    obtain ⟨after, hzero, h⟩ := bind_eq_ok h
    cases h
    exact (expectVar_length hzero).le
  rw [if_neg hend] at h
  by_cases hspecific : eventType = 0x7f
  · rw [if_pos hspecific] at h
    obtain ⟨⟨data, after⟩, hdata, h⟩ := bind_eq_ok h
    cases h
    exact (readSized_length hdata).le
  rw [if_neg hspecific] at h
  by_cases htempo : eventType = 0x51
  · rw [if_pos htempo] at h
    obtain ⟨after, hthree, h⟩ := bind_eq_ok h
    obtain ⟨⟨tempo, last⟩, hread, h⟩ := bind_eq_ok h
    cases h
    exact (read_length hread).trans (expectVar_length hthree).le
  rw [if_neg htempo] at h
  by_cases htime : eventType = 0x58
  · exact hvars 4 (by simp [htime])
  rw [if_neg htime] at h
  by_cases hkey : eventType = 0x59
  · exact hvars 2 (by simp [hkey])
  rw [if_neg hkey] at h
  cases h
  exact le_rfl

theorem MetaEvent.parseFrom_length {event : MetaEvent} {buffer rest : Buffer}
    (h : parseFrom buffer = .ok (event, rest)) : rest.length < buffer.length := by
  obtain ⟨⟨eventType, after⟩, htype, h⟩ := bind_eq_ok h
  exact (parseBody_length h).trans_lt (readVar_length htype)

theorem MidiEvent.parseFrom_length {event : MidiEvent} {buffer rest : Buffer}
    (h : parseFrom buffer = .ok (event, rest)) : rest.length < buffer.length := by
  unfold parseFrom at h
  split at h
  · cases h
  · cases h
    exact Nat.zero_lt_one
  · split at h
    case h_5 => cases h
    case h_4 =>
        cases h
        exact (Nat.lt_succ_self _).trans (Nat.lt_succ_self _)
    all_goals
      split at h
      all_goals try split at h
      all_goals cases h
      all_goals simp only [List.length_cons, List.length_nil]
      all_goals omega

namespace MTrkChunk

theorem parseEvent_length {buffer : Buffer} {handled : Handled} (h : parseEvent buffer = .ok handled) :
    handled.rest.length < buffer.length := by
  obtain ⟨⟨delta, after⟩, hdelta, h⟩ := bind_eq_ok h
  obtain ⟨c, hpeek, h⟩ := bind_eq_ok h
  split_ifs at h
  · obtain ⟨⟨event, rest⟩, hevent, h⟩ := bind_eq_ok h
    cases h
    have hdrop : (after.drop 1).length ≤ after.length := by
      rw [List.length_drop]
      exact Nat.sub_le _ _
    exact (MetaEvent.parseFrom_length hevent).trans_le (hdrop.trans (readVar_length hdelta).le)
  · obtain ⟨⟨event, rest⟩, hevent, h⟩ := bind_eq_ok h
    cases h
    exact (MidiEvent.parseFrom_length hevent).trans (readVar_length hdelta)

/-- The loop, until the end of the buffer. -/
def parseEvents (buffer : Buffer) : Except Failure (List Handled) :=
  if buffer = [] then .ok []
  else
    match _h : parseEvent buffer with
    | .error failure => .error failure
    | .ok handled => (parseEvents handled.rest).map (handled :: ·)
termination_by buffer.length
decreasing_by exact parseEvent_length _h

/-- `MTrkChunk::ParseFrom`, with the length from the header. -/
def parseFrom (buffer : Buffer) (length : Nat) : Except Failure (List Handled × Buffer) :=
  if length = 0 then .error .rejected
  else do
    let (data, buffer) ← read length buffer
    let handled ← parseEvents data
    .ok (handled, buffer)

theorem parseEvents_nil : parseEvents [] = .ok [] := by
  rw [parseEvents, if_pos rfl]

theorem parseEvents_ok {buffer : Buffer} {handled : Handled} (h : parseEvent buffer = .ok handled) :
    parseEvents buffer = (parseEvents handled.rest).map (handled :: ·) := by
  rw [parseEvents, if_neg]
  · split
    · rename_i failure hfailure
      cases h.symm.trans hfailure
    · rename_i other hother
      cases h.symm.trans hother
      rfl
  · rintro rfl
    cases h

/-- The first event of a buffer that was parsed to its end. -/
theorem parseEvents_eq_ok {buffer : Buffer} {all : List Handled} (h : parseEvents buffer = .ok all)
    (hne : buffer ≠ []) :
    ∃ handled later, parseEvent buffer = .ok handled ∧ parseEvents handled.rest = .ok later ∧
      all = handled :: later := by
  rw [parseEvents, if_neg hne] at h
  split at h
  · cases h
  · rename_i handled hhandled
    obtain ⟨later, hlater, heq⟩ := map_eq_ok h
    exact ⟨handled, later, hhandled, hlater, heq.symm⟩

end MTrkChunk

end Thebends.Midi
