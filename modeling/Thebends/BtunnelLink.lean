import Thebends.BtunnelPrefix
import Thebends.YnetBufferedReader
import Thebends.YnetBufferedWriter

/-! Messages on their way from one `Core` to the other: the message writer of `peer.cpp` on its `BufferedWriter`, the
bytes on the wire, and the `BufferedReader` with the loop of `Core::Read`. Every call of `write` and of `read` may do
less than it is asked for. -/

namespace Thebends.Btunnel

open LibNetOrder LibRun Ynet Request

/-! ### Writing to any buffer -/

/-- `WriteBuffer`: what `Write` does with some data. -/
abbrev Write (W : Type) := W → Bytes → Except Fault (Bool × W)

namespace WriteBuffer

section

variable {W : Type} (write : Write W)

/-- `WriteString`. -/
def writeString (w : W) (maxLength : Int) (output : Bytes) : Except Fault (Int × W) := do
  check (maxLength > 0)
  if output.length > maxLength then return (-1, w)
  else
    let (done, w) ← write w (toNetwork 2 output.length)
    if !done then return (-1, w)
    else
      let (done, w) ← write w output
      if !done then return (-1, w)
      else return (2 + output.length, w)

/-- `htonl`, and `Write` of an `int32_t`. -/
def writeInt (w : W) (value : Int32) : Except Fault (Bool × W) := write w (toNetwork 4 value.toBitVec.toNat)

/-- `WriteRegister`. -/
def writeRegister (w : W) (request : RegisterRequest) : Except Fault (Int × W) := do
  let (done, w) ← writeInt write w request.serviceId
  if !done then return (-1, w)
  else
    let nbytes : Int := 4
    let (ret, w) ← writeString write w kMaxNameLen request.name
    if ret ≤ 0 then return (-1, w)
    else
      let nbytes := nbytes + ret
      let (ret, w) ← writeString write w kMaxTypeLen request.type
      if ret ≤ 0 then return (-1, w)
      else
        let nbytes := nbytes + ret
        let (ret, w) ← writeString write w kMaxTextLen request.txtRecords
        if ret ≤ 0 then return (-1, w)
        else return (nbytes + ret, w)

/-- `WriteUnregister`. -/
def writeUnregister (w : W) (request : UnregisterRequest) : Except Fault (Int × W) := do
  let (done, w) ← writeInt write w request.serviceId
  if !done then return (-1, w)
  else return (4, w)

/-- `WriteForward`. -/
def writeForward (w : W) (request : ForwardRequest) : Except Fault (Int × W) := do
  let (done, w) ← writeInt write w request.serviceId
  if !done then return (-1, w)
  else
    let nbytes : Int := 4
    let (done, w) ← writeInt write w request.sessionId
    if !done then return (-1, w)
    else
      let nbytes := nbytes + 4
      let (ret, w) ← writeString write w kMaxBufLen request.buffer
      if ret ≤ 0 then return (-1, w)
      else return (nbytes + ret, w)

/-- The type byte, and then the body. -/
def send (w : W) (type : MessageType) (body : W → Except Fault (Int × W)) : Except Fault (Bool × W) := do
  let (done, w) ← write w [type.byte]
  if !done then return (false, w)
  else
    let (ret, w) ← body w
    if ret < 0 then return (false, w)
    else return (true, w)

/-- `PeerMessageWriter`. -/
def writeRequest (w : W) : Request → Except Fault (Bool × W)
  | .register request => send write w .register fun w => writeRegister write w request
  | .unregister request => send write w .unregister fun w => writeUnregister write w request
  | .forward request => send write w .forward fun w => writeForward write w request

/-- On a plain `Buffer` this is the writer of the messages. -/
theorem writeRequest_buffer (b : Buffer) (request : Request) :
    writeRequest Buffer.write b request = PeerMessageWriter.write b request := by
  cases request <;> rfl

end

section

variable {W : Type} {write : Write W} {Wrote : W → Bytes → Prop} {halt : Fault}

/-- What is written goes behind what was written before, unless the program halts. -/
def Appends (write : Write W) (Wrote : W → Bytes → Prop) (halt : Fault) : Prop :=
  ∀ w sofar data, Wrote w sofar → data ≠ [] →
    write w data = .error halt ∨ ∃ w', write w data = .ok (true, w') ∧ Wrote w' (sofar ++ data)

variable {w : W} {sofar : Bytes}

theorem writeInt_appends (hwrite : Appends write Wrote halt) (h : Wrote w sofar) (value : Int32) :
    writeInt write w value = .error halt ∨
      ∃ w', writeInt write w value = .ok (true, w') ∧ Wrote w' (sofar ++ encodeInt value) :=
  hwrite w sofar _ h (List.ne_nil_of_length_pos (by rw [length_toNetwork]; decide))

theorem writeString_appends (hwrite : Appends write Wrote halt) (h : Wrote w sofar) {text : Bytes} {limit : Int}
    (hfits : Fits text limit) :
    writeString write w limit text = .error halt ∨
      ∃ w', writeString write w limit text = .ok (2 + text.length, w') ∧ Wrote w' (sofar ++ encodeString text) := by
  obtain ⟨hpos, hlimit⟩ := hfits
  have hcheck : check (decide (limit > 0)) = .ok () := check_ok (by omega)
  have hlong : ¬(text.length : Int) > limit := by omega
  have hlength : toNetwork 2 text.length ≠ [] := List.ne_nil_of_length_pos (by rw [length_toNetwork]; decide)
  rcases hwrite w sofar _ h hlength with hhalt | ⟨w₁, hw₁, h₁⟩
  · left
    simp only [writeString, hcheck, hhalt, if_neg hlong, bind, Except.bind]
  · rcases hwrite w₁ _ text h₁ (List.ne_nil_of_length_pos hpos) with hhalt | ⟨w₂, hw₂, h₂⟩
    · left
      simp only [writeString, hcheck, hw₁, hhalt, if_neg hlong, bind, Except.bind, Bool.not_true, Bool.false_eq_true,
        if_false]
    · right
      refine ⟨w₂, ?_, by rwa [encodeString, ← List.append_assoc]⟩
      simp only [writeString, hcheck, hw₁, hw₂, if_neg hlong, bind, Except.bind, Bool.not_true, Bool.false_eq_true,
        if_false]
      rfl

theorem writeRegister_appends (hwrite : Appends write Wrote halt) (h : Wrote w sofar) {request : RegisterRequest}
    (hvalid : (register request).Valid) :
    writeRegister write w request = .error halt ∨
      ∃ ret w', writeRegister write w request = .ok (ret, w') ∧ 0 < ret ∧
        Wrote w' (sofar ++ (register request).body) := by
  obtain ⟨hname, htype, htxt⟩ := hvalid
  have hne : ∀ count : Nat, ¬(2 + count : Int) ≤ 0 := fun count => by omega
  rcases writeInt_appends hwrite h request.serviceId with hhalt | ⟨w₁, hw₁, h₁⟩
  · exact Or.inl (by simp only [writeRegister, hhalt, bind, Except.bind])
  rcases writeString_appends hwrite h₁ hname with hhalt | ⟨w₂, hw₂, h₂⟩
  · left
    simp only [writeRegister, hw₁, hhalt, bind, Except.bind, Bool.not_true, Bool.false_eq_true, if_false]
  rcases writeString_appends hwrite h₂ htype with hhalt | ⟨w₃, hw₃, h₃⟩
  · left
    simp only [writeRegister, hw₁, hw₂, hhalt, bind, Except.bind, Bool.not_true, Bool.false_eq_true, if_false, hne]
  rcases writeString_appends hwrite h₃ htxt with hhalt | ⟨w₄, hw₄, h₄⟩
  · left
    simp only [writeRegister, hw₁, hw₂, hw₃, hhalt, bind, Except.bind, Bool.not_true, Bool.false_eq_true, if_false, hne]
  right
  refine ⟨4 + (2 + request.name.length) + (2 + request.type.length) + (2 + request.txtRecords.length), w₄, ?_,
    by omega, by simpa [body] using h₄⟩
  simp only [writeRegister, hw₁, hw₂, hw₃, hw₄, bind, Except.bind, Bool.not_true, Bool.false_eq_true, if_false, hne]
  rfl

theorem writeUnregister_appends (hwrite : Appends write Wrote halt) (h : Wrote w sofar) (request : UnregisterRequest) :
    writeUnregister write w request = .error halt ∨
      ∃ ret w', writeUnregister write w request = .ok (ret, w') ∧ 0 < ret ∧
        Wrote w' (sofar ++ (unregister request).body) := by
  rcases writeInt_appends hwrite h request.serviceId with hhalt | ⟨w₁, hw₁, h₁⟩
  · exact Or.inl (by simp only [writeUnregister, hhalt, bind, Except.bind])
  · right
    refine ⟨4, w₁, ?_, by omega, h₁⟩
    simp only [writeUnregister, hw₁, bind, Except.bind]
    rfl

theorem writeForward_appends (hwrite : Appends write Wrote halt) (h : Wrote w sofar) {request : ForwardRequest}
    (hvalid : (forward request).Valid) :
    writeForward write w request = .error halt ∨
      ∃ ret w', writeForward write w request = .ok (ret, w') ∧ 0 < ret ∧
        Wrote w' (sofar ++ (forward request).body) := by
  have hne : ¬(2 + request.buffer.length : Int) ≤ 0 := by omega
  rcases writeInt_appends hwrite h request.serviceId with hhalt | ⟨w₁, hw₁, h₁⟩
  · exact Or.inl (by simp only [writeForward, hhalt, bind, Except.bind])
  rcases writeInt_appends hwrite h₁ request.sessionId with hhalt | ⟨w₂, hw₂, h₂⟩
  · left
    simp only [writeForward, hw₁, hhalt, bind, Except.bind, Bool.not_true, Bool.false_eq_true, if_false]
  rcases writeString_appends hwrite h₂ hvalid with hhalt | ⟨w₃, hw₃, h₃⟩
  · left
    simp only [writeForward, hw₁, hw₂, hhalt, bind, Except.bind, Bool.not_true, Bool.false_eq_true, if_false]
  right
  refine ⟨4 + 4 + (2 + request.buffer.length), w₃, ?_, by omega, by simpa [body] using h₃⟩
  simp only [writeForward, hw₁, hw₂, hw₃, bind, Except.bind, Bool.not_true, Bool.false_eq_true, if_false, hne]
  rfl

theorem send_appends (hwrite : Appends write Wrote halt) (h : Wrote w sofar) (type : MessageType)
    {message : W → Except Fault (Int × W)} {bytes : Bytes}
    (hmessage : ∀ {w : W} {sofar : Bytes}, Wrote w sofar → message w = .error halt ∨
      ∃ ret w', message w = .ok (ret, w') ∧ 0 < ret ∧ Wrote w' (sofar ++ bytes)) :
    send write w type message = .error halt ∨
      ∃ w', send write w type message = .ok (true, w') ∧ Wrote w' (sofar ++ type.byte :: bytes) := by
  rcases hwrite w sofar [type.byte] h (List.cons_ne_nil _ _) with hhalt | ⟨w₁, hw₁, h₁⟩
  · exact Or.inl (by simp only [send, hhalt, bind, Except.bind])
  rcases hmessage h₁ with hhalt | ⟨ret, w₂, hw₂, hpos, h₂⟩
  · left
    simp only [send, hw₁, hhalt, bind, Except.bind, Bool.not_true, Bool.false_eq_true, if_false]
  right
  refine ⟨w₂, ?_, by simpa using h₂⟩
  have hne : ¬ret < 0 := by omega
  simp only [send, hw₁, hw₂, bind, Except.bind, Bool.not_true, Bool.false_eq_true, if_false, hne]
  rfl

/-- The writer appends the bytes of a message, whatever buffer it writes to. -/
theorem writeRequest_appends (hwrite : Appends write Wrote halt) (h : Wrote w sofar) {request : Request}
    (hvalid : request.Valid) :
    writeRequest write w request = .error halt ∨
      ∃ w', writeRequest write w request = .ok (true, w') ∧ Wrote w' (sofar ++ request.encode) := by
  cases request with
  | register request => exact send_appends hwrite h .register fun h => writeRegister_appends hwrite h hvalid
  | unregister request => exact send_appends hwrite h .unregister fun h => writeUnregister_appends hwrite h request
  | forward request => exact send_appends hwrite h .forward fun h => writeForward_appends hwrite h hvalid

end

/-- `BufferedWriter::Write`, with what the next calls of `write` do. -/
def buffered : Write (BufferedWriter × (Nat → Outcome)) := fun (w, outcomes) data => do
  let (done, w) ← w.write (outcomes 0) data
  return (done, w, fun call => outcomes (call + 1))

/-- A writer that has been given so much data, after its descriptor took some first bytes. -/
def Given (first : Bytes) (w : BufferedWriter × (Nat → Outcome)) (sofar : Bytes) : Prop :=
  first <+: w.1.sent ∧ ∃ queued, w.1.Keeps sofar queued

theorem buffered_appends (first : Bytes) : Appends buffered (Given first) (.exit "write") := by
  intro w sofar data h hdata
  obtain ⟨hfirst, queued, hkeeps⟩ := h
  rcases hkeeps.write hdata (w.2 0) with ⟨-, herror⟩ | ⟨w', queued', hok, hkeeps'⟩
  · left
    simp only [buffered, herror, bind, Except.bind]
  · right
    refine ⟨(w', fun call => w.2 (call + 1)), ?_, hfirst.trans (BufferedWriter.write_sent hok), queued', hkeeps'⟩
    simp only [buffered, hok, bind, Except.bind]
    rfl

end WriteBuffer

end Thebends.Btunnel
