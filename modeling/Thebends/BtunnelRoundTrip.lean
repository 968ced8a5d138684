import Thebends.BtunnelStrings

/-! Messages survive the way through a buffer. The bytes of a message are the concatenation of its fields;
reading a message is followed field by field, with the place in the queue that reading has come to. -/

namespace Thebends.Btunnel

open LibNetOrder Ynet

/-! ### The bytes of a message -/

def encodeInt (value : Int32) : Bytes := toNetwork 4 value.toBitVec.toNat

def encodeString (text : Bytes) : Bytes := toNetwork 2 text.length ++ text

@[simp] theorem length_encodeInt (value : Int32) : (encodeInt value).length = 4 := length_toNetwork ..

@[simp] theorem length_encodeString (text : Bytes) : (encodeString text).length = 2 + text.length := by
  rw [encodeString, List.length_append, length_toNetwork]

namespace Request

def type : Request → MessageType
  | .register _ => .register
  | .unregister _ => .unregister
  | .forward _ => .forward

/-- What comes after the type byte. -/
def body : Request → Bytes
  | .register request =>
      encodeInt request.serviceId ++ (encodeString request.name ++ (encodeString request.type ++
        encodeString request.txtRecords))
  | .unregister request => encodeInt request.serviceId
  | .forward request => encodeInt request.serviceId ++ (encodeInt request.sessionId ++ encodeString request.buffer)

def encode (request : Request) : Bytes := request.type.byte :: request.body

/-- A string between one byte and a limit. -/
def Fits (text : Bytes) (limit : Int) : Prop := 0 < text.length ∧ text.length ≤ limit

/-- All strings are between one byte and their limits. -/
def Valid : Request → Prop
  | .register request =>
      Fits request.name kMaxNameLen ∧ Fits request.type kMaxTypeLen ∧ Fits request.txtRecords kMaxTextLen
  | .unregister _ => True
  | .forward request => Fits request.buffer kMaxBufLen

end Request

open Request

/-! ### Writing -/

section

variable {b : Buffer} {queue : Bytes}

theorem writeInt_holds (h : b.Holds queue) (value : Int32) :
    ∃ b', writeInt b value = .ok (true, b') ∧ b'.Holds (queue ++ encodeInt value) := h.write _

theorem writeString_holds (h : b.Holds queue) {text : Bytes} {limit : Int} (hfits : Fits text limit) :
    ∃ b', writeString b limit text = .ok (2 + text.length, b') ∧ b'.Holds (queue ++ encodeString text) := by
  obtain ⟨hpos, hlimit⟩ := hfits
  have hcheck : check (decide (limit > 0)) = .ok () := check_ok (by omega)
  obtain ⟨b₁, hlength, h₁⟩ := h.write (toNetwork 2 text.length)
  obtain ⟨b₂, htext, h₂⟩ := h₁.write text
  refine ⟨b₂, ?_, by rwa [encodeString, ← List.append_assoc]⟩
  simp only [writeString, hcheck, hlength, htext, if_neg (Int.not_lt.mpr hlimit), bind, Except.bind, Bool.not_true,
    Bool.false_eq_true, if_false, gt_iff_lt]
  rfl

theorem writeRegister_holds (h : b.Holds queue) {request : RegisterRequest} (hvalid : (register request).Valid) :
    ∃ ret b', writeRegister b request = .ok (ret, b') ∧ 0 < ret ∧ b'.Holds (queue ++ (register request).body) := by
  obtain ⟨hname, htype, htxt⟩ := hvalid
  obtain ⟨b₁, hw₁, h₁⟩ := writeInt_holds h request.serviceId
  obtain ⟨b₂, hw₂, h₂⟩ := writeString_holds h₁ hname
  obtain ⟨b₃, hw₃, h₃⟩ := writeString_holds h₂ htype
  obtain ⟨b₄, hw₄, h₄⟩ := writeString_holds h₃ htxt
  refine ⟨4 + (2 + request.name.length) + (2 + request.type.length) + (2 + request.txtRecords.length), b₄, ?_,
    by omega, by simpa [body] using h₄⟩
  have hne : ∀ count : Nat, ¬(2 + count : Int) ≤ 0 := fun count => by omega
  simp only [writeRegister, hw₁, hw₂, hw₃, hw₄, bind, Except.bind, Bool.not_true, Bool.false_eq_true, if_false, hne]
  rfl

theorem writeUnregister_holds (h : b.Holds queue) (request : UnregisterRequest) :
    ∃ ret b', writeUnregister b request = .ok (ret, b') ∧ 0 < ret ∧
      b'.Holds (queue ++ (unregister request).body) := by
  obtain ⟨b₁, hw₁, h₁⟩ := writeInt_holds h request.serviceId
  refine ⟨4, b₁, ?_, by omega, h₁⟩
  simp only [writeUnregister, hw₁, bind, Except.bind]
  rfl

theorem writeForward_holds (h : b.Holds queue) {request : ForwardRequest} (hvalid : (forward request).Valid) :
    ∃ ret b', writeForward b request = .ok (ret, b') ∧ 0 < ret ∧ b'.Holds (queue ++ (forward request).body) := by
  obtain ⟨b₁, hw₁, h₁⟩ := writeInt_holds h request.serviceId
  obtain ⟨b₂, hw₂, h₂⟩ := writeInt_holds h₁ request.sessionId
  obtain ⟨b₃, hw₃, h₃⟩ := writeString_holds h₂ hvalid
  refine ⟨4 + 4 + (2 + request.buffer.length), b₃, ?_, by omega, by simpa [body] using h₃⟩
  have hne : ¬(2 + request.buffer.length : Int) ≤ 0 := by omega
  simp only [writeForward, hw₁, hw₂, hw₃, bind, Except.bind, Bool.not_true, Bool.false_eq_true, if_false, hne]
  rfl

theorem send_holds (h : b.Holds queue) (type : MessageType) {message : Buffer → Except Fault (Int × Buffer)}
    {bytes : Bytes} (hmessage : ∀ {b : Buffer} {queue : Bytes}, b.Holds queue →
      ∃ ret b', message b = .ok (ret, b') ∧ 0 < ret ∧ b'.Holds (queue ++ bytes)) :
    ∃ b', PeerMessageWriter.send b type message = .ok (true, b') ∧ b'.Holds (queue ++ type.byte :: bytes) := by
  obtain ⟨b₁, hw₁, h₁⟩ := h.write [type.byte]
  obtain ⟨ret, b₂, hw₂, hpos, h₂⟩ := hmessage h₁
  refine ⟨b₂, ?_, by simpa using h₂⟩
  have hne : ¬ret < 0 := by omega
  simp only [PeerMessageWriter.send, hw₁, hw₂, bind, Except.bind, Bool.not_true, Bool.false_eq_true, if_false, hne]
  rfl

/-- The writer appends the bytes of a message. -/
theorem write_holds (h : b.Holds queue) {request : Request} (hvalid : request.Valid) :
    ∃ b', PeerMessageWriter.write b request = .ok (true, b') ∧ b'.Holds (queue ++ request.encode) := by
  cases request with
  | register request => exact send_holds h .register fun h => writeRegister_holds h hvalid
  | unregister request => exact send_holds h .unregister fun h => writeUnregister_holds h request
  | forward request => exact send_holds h .forward fun h => writeForward_holds h hvalid

theorem writeAll_holds (h : b.Holds queue) {requests : List Request} (hvalid : ∀ request ∈ requests, request.Valid) :
    ∃ b', PeerMessageWriter.writeAll b requests = .ok (requests.map fun _ => true, b') ∧
      b'.Holds (queue ++ requests.flatMap encode) := by
  induction requests generalizing b queue with
  | nil => exact ⟨b, rfl, by rwa [List.flatMap_nil, List.append_nil]⟩
  | cons request requests ih =>
      obtain ⟨b₁, hw₁, h₁⟩ := write_holds h (hvalid request List.mem_cons_self)
      obtain ⟨b₂, hw₂, h₂⟩ := ih h₁ fun later hlater => hvalid later (List.mem_cons_of_mem request hlater)
      refine ⟨b₂, ?_, by rwa [List.flatMap_cons, ← List.append_assoc]⟩
      simp only [PeerMessageWriter.writeAll, hw₁, hw₂, bind, Except.bind]
      rfl

end

/-! ### Reading -/

/-- Reading a buffer that holds a queue has come to where a tail of the queue is left. -/
structure At (b : Buffer) (queue : Bytes) (first taken : Nat) (tail : Bytes) : Prop where
  layout : b.Layout queue first
  taken_le : taken ≤ queue.length
  tail_eq : queue.drop taken = tail

namespace At

variable {b : Buffer} {queue tail field : Bytes} {first taken : Nat}

theorem start (h : b.Layout queue first) : At b queue first 0 queue := ⟨h, Nat.zero_le _, List.drop_zero⟩

theorem length (h : At b queue first taken tail) : queue.length = taken + tail.length := by
  have htaken := h.taken_le
  rw [← h.tail_eq, List.length_drop]
  omega

/-- A field that has arrived is read. -/
theorem read (h : At b queue first taken (field ++ tail)) (hpos : 0 < field.length) :
    (b.after taken 0).read field.length = .ok (some field, b.after (taken + field.length) 0) ∧
      At b queue first (taken + field.length) tail := by
  have hlength := h.length
  rw [List.length_append] at hlength
  refine ⟨?_, h.layout, by omega, ?_⟩
  · rw [Buffer.read_after h.layout hpos (by omega), h.tail_eq, List.take_left]
  · rw [← List.drop_drop, h.tail_eq, List.drop_left]

theorem read_short (h : At b queue first taken tail) {len : Nat} (hlen : tail.length < len) :
    (b.after taken 0).read len = .ok (none, b.after taken 0) := by
  have hlength := h.length
  exact Buffer.read_after_refused h.layout h.taken_le (by omega)

theorem int {value : Int32} (h : At b queue first taken (encodeInt value ++ tail)) :
    readInt (b.after taken 0) = .ok (some value, b.after (taken + 4) 0) ∧ At b queue first (taken + 4) tail := by
  have hpos : 0 < (encodeInt value).length := by
    rw [length_encodeInt]
    omega
  obtain ⟨hread, hnext⟩ := h.read hpos
  rw [length_encodeInt] at hread hnext
  have hread' : (b.after taken 0).read 4 = .ok (some (encodeInt value), b.after (taken + 4) 0) := hread
  refine ⟨?_, hnext⟩
  simp only [Btunnel.readInt, hread', bind, Except.bind, Option.map_some]
  rw [encodeInt, ofNetwork_toNetwork value.toBitVec.isLt, BitVec.ofNat_toNat, BitVec.setWidth_eq, Int32.ofBitVec_toBitVec]
  rfl

theorem int_short (h : At b queue first taken tail) (hlen : tail.length < 4) :
    readInt (b.after taken 0) = .ok (none, b.after taken 0) := by
  have hread : (b.after taken 0).read 4 = .ok (none, b.after taken 0) := h.read_short hlen
  simp only [Btunnel.readInt, hread, bind, Except.bind]
  rfl

end At

/-- The length of a string, as it is read back. -/
theorem length_ofNetwork {count : Nat} (h : count < 2 ^ 15) :
    (Int16.ofBitVec (BitVec.ofNat 16 (ofNetwork (toNetwork 2 count)))).toInt = count := by
  rw [ofNetwork_toNetwork (h.trans (by decide))]
  exact toInt_low h

/-- A field that has arrived stands in front of what else has. -/
theorem split_field {tail rest field more : Bytes} (h : tail ++ rest = field ++ more)
    (hlength : field.length ≤ tail.length) : ∃ arrived, tail = field ++ arrived ∧ arrived ++ rest = more := by
  rcases List.append_eq_append_iff.mp h with ⟨extra, hfield, hrest⟩ | ⟨arrived, htail, hmore⟩
  · have hnil : extra = [] := by
      rw [hfield, List.length_append] at hlength
      exact List.length_eq_zero_iff.mp (by omega)
    subst hnil
    exact ⟨[], by simpa using hfield.symm, by simpa using hrest⟩
  · exact ⟨arrived, htail, hmore.symm⟩

/-- How many bytes of the fields that follow each other have arrived in whole fields. -/
def complete : List Nat → Nat → Nat
  | [], _ => 0
  | field :: fields, available => if field ≤ available then field + complete fields (available - field) else 0

/-- No limit is above that of the text records. -/
theorem Request.Fits.lt {text : Bytes} {limit : Int} (h : Fits text limit) (hlimit : limit ≤ kMaxTextLen) :
    text.length < 2 ^ 15 := by
  have hmax : kMaxTextLen = 8192 := rfl
  have hle := h.2
  omega

namespace At

variable {b : Buffer} {queue tail rest text : Bytes} {first taken : Nat} {limit : Int}

theorem string (h : At b queue first taken (encodeString text ++ tail)) (hfits : Fits text limit)
    (hlimit : limit ≤ kMaxTextLen) (input : Bytes) :
    readString (b.after taken 0) limit input = .ok (2 + text.length, text, b.after (taken + (2 + text.length)) 0) ∧
      At b queue first (taken + (2 + text.length)) tail := by
  have hcheck : check (decide (limit > 0)) = .ok () := check_ok (by have := hfits.1; have := hfits.2; omega)
  rw [encodeString, List.append_assoc] at h
  obtain ⟨hlength, h₁⟩ := h.read (by rw [length_toNetwork]; omega)
  rw [length_toNetwork] at hlength h₁
  have hlength' : (b.after taken 0).read 2 = .ok (some (toNetwork 2 text.length), b.after (taken + 2) 0) := hlength
  obtain ⟨htext, h₂⟩ := h₁.read hfits.1
  refine ⟨?_, by rwa [← Nat.add_assoc]⟩
  simp only [readString, hcheck, hlength', length_ofNetwork (hfits.lt hlimit), htext, bind, Except.bind, gt_iff_lt,
    if_neg (Int.not_lt.mpr hfits.2), Nat.add_assoc]
  rfl

/-- A string that has not arrived is left where it is. -/
theorem string_short (h : At b queue first taken tail) (hfits : Fits text limit) (hlimit : limit ≤ kMaxTextLen)
    (hsplit : tail ++ rest = encodeString text) (hrest : rest ≠ []) (input : Bytes) :
    readString (b.after taken 0) limit input =
      .ok (0, input, b.after (taken + complete [2, text.length] tail.length) (complete [2, text.length] tail.length)) := by
  have hcheck : check (decide (limit > 0)) = .ok () := check_ok (by have := hfits.1; have := hfits.2; omega)
  have hlengths : tail.length + rest.length = 2 + text.length := by
    rw [← List.length_append, hsplit, length_encodeString]
  have hpos : 0 < rest.length := List.length_pos_iff.mpr hrest
  by_cases hprefix : 2 ≤ tail.length
  swap
  · have hread : (b.after taken 0).read 2 = .ok (none, b.after taken 0) := h.read_short (show tail.length < 2 by omega)
    rw [complete, if_neg hprefix, Nat.add_zero]
    simp only [readString, hcheck, hread, bind, Except.bind]
    rfl
  · obtain ⟨arrived, rfl, -⟩ := split_field (show _ = toNetwork 2 text.length ++ text from hsplit) (by rwa [length_toNetwork])
    rw [List.length_append, length_toNetwork] at hlengths
    have hshort : ¬text.length ≤ 2 + arrived.length - 2 := by omega
    obtain ⟨hlength, h₁⟩ := h.read (by rw [length_toNetwork]; omega)
    rw [length_toNetwork] at hlength h₁
    have hlength' : (b.after taken 0).read 2 = .ok (some (toNetwork 2 text.length), b.after (taken + 2) 0) := hlength
    have htext : (b.after (taken + 2) 0).read text.length = .ok (none, b.after (taken + 2) 0) :=
      h₁.read_short (by omega)
    have hback : (b.after (taken + 2) 0).unadvance 2 = .ok (true, b.after (taken + 2) 2) :=
      Buffer.unadvance_after h₁.layout (show 0 < 2 by omega) h₁.taken_le (show 0 + 2 ≤ taken + 2 by omega)
    rw [List.length_append, length_toNetwork, complete, if_pos (by omega), complete, if_neg hshort]
    simp only [readString, hcheck, hlength', length_ofNetwork (hfits.lt hlimit), htext, hback, bind, Except.bind,
      gt_iff_lt, if_neg (Int.not_lt.mpr hfits.2)]
    rfl

theorem register {request : RegisterRequest} (h : At b queue first taken ((Request.register request).body ++ tail))
    (hvalid : (Request.register request).Valid) (given : RegisterRequest) :
    readRegister (b.after taken 0) given =
      .ok ((Request.register request).body.length, request,
        b.after (taken + (Request.register request).body.length) 0) := by
  obtain ⟨hname, htype, htxt⟩ := hvalid
  simp only [body, List.append_assoc] at h
  obtain ⟨hr₁, h₁⟩ := h.int
  obtain ⟨hr₂, h₂⟩ := h₁.string hname (by decide) given.name
  obtain ⟨hr₃, h₃⟩ := h₂.string htype (by decide) given.type
  obtain ⟨hr₄, -⟩ := h₃.string htxt (by decide) given.txtRecords
  have hne : ∀ count : Nat, ¬(2 + count : Int) ≤ 0 := fun count => by omega
  have hne' : ∀ count : Nat, ¬(2 + count : Int) < 0 := fun count => by omega
  simp only [readRegister, hr₁, hr₂, hr₃, hr₄, bind, Except.bind, if_neg, hne, hne', not_false_eq_true, body,
    List.length_append, length_encodeInt, length_encodeString]
  simp only [Nat.add_assoc, Int.add_assoc]
  push_cast
  rfl

theorem unregister {request : UnregisterRequest}
    (h : At b queue first taken ((Request.unregister request).body ++ tail)) (given : UnregisterRequest) :
    readUnregister (b.after taken 0) given =
      .ok ((Request.unregister request).body.length, request,
        b.after (taken + (Request.unregister request).body.length) 0) := by
  obtain ⟨hr₁, -⟩ := h.int
  simp only [readUnregister, hr₁, bind, Except.bind, body, length_encodeInt]
  rfl

theorem forward {request : ForwardRequest} (h : At b queue first taken ((Request.forward request).body ++ tail))
    (hvalid : (Request.forward request).Valid) (given : ForwardRequest) :
    readForward (b.after taken 0) given =
      .ok ((Request.forward request).body.length, request,
        b.after (taken + (Request.forward request).body.length) 0) := by
  simp only [body, List.append_assoc] at h
  obtain ⟨hr₁, h₁⟩ := h.int
  obtain ⟨hr₂, h₂⟩ := h₁.int
  obtain ⟨hr₃, -⟩ := h₂.string hvalid (by decide) given.buffer
  have hne : ¬(2 + request.buffer.length : Int) ≤ 0 := by omega
  simp only [readForward, hr₁, hr₂, hr₃, bind, Except.bind, if_neg, hne, not_false_eq_true, body,
    List.length_append, length_encodeInt, length_encodeString]
  simp only [Nat.add_assoc, Int.add_assoc]
  push_cast
  rfl

end At

/-- What `Read` returns for a whole message. -/
def outcome (peer : Peer) (sock : Int) (calls : List Invocation) (request : Request) : Int :=
  if peer calls (sock, request) then request.body.length else -1

theorem body_pos (request : Request) : 0 < request.body.length := by
  cases request <;> simp only [body, List.length_append, length_encodeInt] <;> omega

theorem outcome_ne (peer : Peer) (sock : Int) (calls : List Invocation) (request : Request) :
    outcome peer sock calls request ≠ 0 := by
  have hpos := body_pos request
  rw [outcome]
  split <;> omega

theorem handle_body (peer : Peer) (sock : Int) (calls : List Invocation) (request : Request) :
    MessageReader.handle peer sock calls request.body.length request =
      (outcome peer sock calls request, calls ++ [(sock, request)]) := by
  have hpos : (request.body.length : Int) > 0 := by
    have := body_pos request
    omega
  rw [MessageReader.handle, if_pos hpos, outcome]
  cases peer calls (sock, request) <;> rfl

/-- The handler of the messages of a kind. -/
def handlerOf : Request → Peer → Int → List Invocation → Buffer → Except Fault (Int × List Invocation × Buffer)
  | .register _ => MessageReader.handleRegister
  | .unregister _ => MessageReader.handleUnregister
  | .forward _ => MessageReader.handleForward

theorem handler_byte (request : Request) :
    MessageReader.handler request.type.byte = some (handlerOf request) := by
  cases request <;> rfl

section

variable {b : Buffer} {queue tail : Bytes} {first taken : Nat} {request : Request}

/-- The type byte in front of a message chooses its handler. -/
theorem read_type (h : b.Layout (request.type.byte :: tail) first) (peer : Peer) (sock : Int)
    (calls : List Invocation) :
    At b (request.type.byte :: tail) first 1 tail ∧
      MessageReader.read peer sock calls b = (do
        let (nbytes, calls, b) ← handlerOf request peer sock calls (b.after 1 0)
        if nbytes = 0 then
          let (_, b) ← b.unadvance 1
          return (0, calls, b)
        else return (nbytes, calls, b)) := by
  obtain ⟨hread, hnext⟩ := (show At b (request.type.byte :: tail) first 0 ([request.type.byte] ++ tail) from
    At.start h).read (show 0 < 1 by omega)
  rw [Buffer.after_zero h] at hread
  have hread' : b.read 1 = .ok (some [request.type.byte], b.after 1 0) := hread
  refine ⟨hnext, ?_⟩
  simp only [MessageReader.read, hread', bind, Except.bind, List.headD_cons, handler_byte]

/-- A handler reads a body that has arrived, and calls the peer. -/
theorem handlerOf_body (h : At b queue first taken (request.body ++ tail)) (hvalid : request.Valid) (peer : Peer)
    (sock : Int) (calls : List Invocation) :
    handlerOf request peer sock calls (b.after taken 0) =
      .ok (outcome peer sock calls request, calls ++ [(sock, request)], b.after (taken + request.body.length) 0) := by
  have hhandle := handle_body peer sock calls request
  cases request with
  | register request =>
      have hread := h.register hvalid ⟨0, [], [], []⟩
      simp only [handlerOf, MessageReader.handleRegister, hread, hhandle, bind, Except.bind]
      rfl
  | unregister request =>
      have hread := h.unregister ⟨0⟩
      simp only [handlerOf, MessageReader.handleUnregister, hread, hhandle, bind, Except.bind]
      rfl
  | forward request =>
      have hread := h.forward hvalid ⟨0, 0, []⟩
      simp only [handlerOf, MessageReader.handleForward, hread, hhandle, bind, Except.bind]
      rfl

/-- `Read` delivers a message that has arrived, and takes it from the buffer. -/
theorem read_message (h : b.Holds (request.encode ++ tail)) (hvalid : request.Valid) (peer : Peer) (sock : Int)
    (calls : List Invocation) :
    ∃ b', MessageReader.read peer sock calls b =
        .ok (outcome peer sock calls request, calls ++ [(sock, request)], b') ∧ b'.Holds tail := by
  obtain ⟨first, h⟩ := h
  obtain ⟨hbody, hread⟩ := read_type h peer sock calls
  have hhandler := handlerOf_body hbody hvalid peer sock calls
  refine ⟨b.after (1 + request.body.length) 0, ?_, ?_⟩
  · simp only [hread, hhandler, bind, Except.bind, if_neg (outcome_ne peer sock calls request)]
    rfl
  · have hlength : request.encode.length = 1 + request.body.length := by
      rw [encode, List.length_cons, Nat.add_comm]
    have hlayout := h.after (show 1 + request.body.length ≤ (request.encode ++ tail).length by
      rw [List.length_append]
      omega)
    rw [List.drop_left' hlength] at hlayout
    exact ⟨_, hlayout⟩

theorem read_empty (h : b.Holds []) (peer : Peer) (sock : Int) (calls : List Invocation) :
    MessageReader.read peer sock calls b = .ok (0, calls, b) := by
  have hread : b.read 1 = .ok (none, b) := h.read_refused (by omega) (by simp)
  simp only [MessageReader.read, hread, bind, Except.bind]
  rfl

end

/-- What `Read` returns for messages that follow each other. -/
def outcomes (peer : Peer) (sock : Int) (calls : List Invocation) : List Request → List Int
  | [] => []
  | request :: requests => outcome peer sock calls request :: outcomes peer sock (calls ++ [(sock, request)]) requests

theorem readAll_holds {b : Buffer} {requests : List Request} (h : b.Holds (requests.flatMap encode))
    (hvalid : ∀ request ∈ requests, request.Valid) (peer : Peer) (sock : Int) (calls : List Invocation) {fuel : Nat}
    (hfuel : requests.length < fuel) :
    ∃ b', MessageReader.readAll peer sock fuel calls b =
        .ok (outcomes peer sock calls requests, calls ++ requests.map (Prod.mk sock), b') ∧ b'.Holds [] := by
  induction requests generalizing b calls fuel with
  | nil =>
      obtain ⟨fuel, rfl⟩ := Nat.exists_eq_add_of_lt hfuel
      refine ⟨b, ?_, h⟩
      simp only [MessageReader.readAll, read_empty h, bind, Except.bind, if_true, outcomes, List.map_nil,
        List.append_nil]
      rfl
  | cons request requests ih =>
      obtain ⟨fuel, rfl⟩ : ∃ count, fuel = count + 1 := ⟨fuel - 1, by omega⟩
      obtain ⟨b₁, hread, h₁⟩ := read_message h (hvalid request List.mem_cons_self) peer sock calls
      obtain ⟨b₂, hrest, h₂⟩ := ih h₁ (fun later hlater => hvalid later (List.mem_cons_of_mem request hlater))
        (calls ++ [(sock, request)]) (Nat.lt_of_succ_lt_succ hfuel)
      refine ⟨b₂, ?_, h₂⟩
      simp only [MessageReader.readAll, hread, hrest, bind, Except.bind, outcomes, List.map_cons,
        if_neg (outcome_ne peer sock calls request), List.append_assoc]
      rfl

/-- **What is sent is received.** Requests that are written to a new buffer are all written, and reading
until nothing is left calls the peer with the same requests in the same order, returns the length of each
body unless the peer refused the request, and leaves the buffer empty. -/
theorem requests_round_trip {capacity : Nat} (hcapacity : 0 < capacity) {requests : List Request}
    (hvalid : ∀ request ∈ requests, request.Valid) (peer : Peer) (sock : Int) :
    ∃ b, PeerMessageWriter.writeAll (Buffer.new capacity) requests = .ok (requests.map fun _ => true, b) ∧
      ∀ fuel, requests.length < fuel →
        ∃ b', MessageReader.readAll peer sock fuel [] b =
            .ok (outcomes peer sock [] requests, requests.map (Prod.mk sock), b') ∧ b'.size = 0 := by
  obtain ⟨b, hwrite, hb⟩ := writeAll_holds (Buffer.holds_new hcapacity) hvalid
  refine ⟨b, hwrite, fun fuel hfuel => ?_⟩
  obtain ⟨b', hread, hb'⟩ := readAll_holds hb hvalid peer sock [] hfuel
  exact ⟨b', hread, hb'.size⟩

/-- One message of each kind, in a buffer of one byte. -/
theorem requests_round_trip_three :
    ∃ b, PeerMessageWriter.writeAll (Buffer.new 1)
        [.register ⟨1, [65], [66], [67, 68]⟩, .forward ⟨1, -2, [0, 255]⟩, .unregister ⟨1⟩] =
          .ok ([true, true, true], b) ∧
      ∀ fuel, 3 < fuel →
        ∃ b', MessageReader.readAll (fun _ _ => true) 9 fuel [] b =
            .ok ([14, 12, 4], [(9, .register ⟨1, [65], [66], [67, 68]⟩), (9, .forward ⟨1, -2, [0, 255]⟩),
              (9, .unregister ⟨1⟩)], b') ∧ b'.size = 0 :=
  requests_round_trip (show 0 < 1 by decide)
    (by simp [Request.Valid, Request.Fits, kMaxNameLen, kMaxTypeLen, kMaxTextLen, kMaxBufLen]) (fun _ _ => true) 9

end Thebends.Btunnel
