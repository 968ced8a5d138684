import Thebends.BtunnelRoundTrip

/-! Messages of which only a part has arrived. `Read` goes back field by field and returns zero, with two
exceptions: a register request is delivered without its text records when only these are missing, and going
back across the end of the array loses the contents of the buffer. -/

namespace Thebends.Btunnel

open LibNetOrder Ynet Request

/-- The lengths of the fields that are read one after another. -/
def Request.fields : Request → List Nat
  | .register request =>
      [1, 4, 2, request.name.length, 2, request.type.length, 2, request.txtRecords.length]
  | .unregister _ => [1, 4]
  | .forward request => [1, 4, 4, 2, request.buffer.length]

/-- So much of a register request has arrived that only text records are missing. -/
def Request.TextMissing (request : Request) (arrived : Nat) : Prop :=
  match request with
  | .register request => 1 + 4 + (2 + request.name.length) + (2 + request.type.length) ≤ arrived
  | _ => False

theorem complete_cons_of_le {field available : Nat} (h : field ≤ available) (fields : List Nat) :
    complete (field :: fields) available = field + complete fields (available - field) := if_pos h

theorem complete_cons_of_lt {field available : Nat} (h : available < field) (fields : List Nat) :
    complete (field :: fields) available = 0 := if_neg (by omega)

theorem complete_le (fields : List Nat) (available : Nat) : complete fields available ≤ available := by
  induction fields generalizing available with
  | nil => exact Nat.zero_le _
  | cons field fields ih =>
      by_cases h : field ≤ available
      · have := ih (available - field)
        rw [complete_cons_of_le h]
        omega
      · rw [complete_cons_of_lt (by omega)]
        exact Nat.zero_le _

/-- Fields none of which is complete after the first that is not. -/
theorem complete_append {fields more : List Nat} {available : Nat} (h : available < fields.sum) :
    complete (fields ++ more) available = complete fields available := by
  induction fields generalizing available with
  | nil => exact absurd h (Nat.not_lt_zero _)
  | cons field fields ih =>
      rw [List.cons_append]
      by_cases hfield : field ≤ available
      · rw [List.sum_cons] at h
        rw [complete_cons_of_le hfield, complete_cons_of_le hfield, ih (by omega)]
      · rw [complete_cons_of_lt (by omega), complete_cons_of_lt (by omega)]

/-- A field that has not arrived in full lacks some bytes. -/
theorem split_short {tail rest field more : Bytes} (h : tail ++ rest = field ++ more)
    (hlength : tail.length < field.length) : ∃ missing, missing ≠ [] ∧ tail ++ missing = field := by
  rcases List.append_eq_append_iff.mp h with ⟨missing, hfield, -⟩ | ⟨arrived, htail, -⟩
  · refine ⟨missing, fun hnil => ?_, hfield.symm⟩
    rw [hfield, hnil, List.append_nil] at hlength
    exact Nat.lt_irrefl _ hlength
  · rw [htail, List.length_append] at hlength
    omega

namespace At

variable {b : Buffer} {queue tail rest : Bytes} {first taken : Nat}

/-- Going back over what was read before some fields that have not arrived in full. -/
theorem back (h : At b queue first taken tail) (fields : List Nat) {amount : Int} {len : Nat}
    (hamount : amount = len) (hpos : 0 < len) (hlen : len ≤ taken) :
    (b.after (taken + complete fields tail.length) (complete fields tail.length)).unadvance amount =
      .ok (true, b.after (taken + complete fields tail.length) (complete fields tail.length + len)) := by
  have hlength := h.length
  have hcomplete := complete_le fields tail.length
  rw [hamount]
  exact Buffer.unadvance_after h.layout hpos (by omega) (by omega)

theorem unregister_short {request : UnregisterRequest} (h : At b queue first taken tail)
    (hsplit : tail ++ rest = (Request.unregister request).body) (hrest : rest ≠ []) (given : UnregisterRequest) :
    ∃ given', readUnregister (b.after taken 0) given =
      .ok (0, given', b.after (taken + complete [4] tail.length) (complete [4] tail.length)) := by
  have hlengths := congrArg List.length hsplit
  have hpos : 0 < rest.length := List.length_pos_iff.mpr hrest
  simp only [List.length_append, body, length_encodeInt] at hlengths
  have hr₁ := h.int_short (by omega)
  refine ⟨given, ?_⟩
  rw [complete_cons_of_lt (by omega)]
  simp only [readUnregister, hr₁, bind, Except.bind]
  rfl

theorem forward_short {request : ForwardRequest} (h : At b queue first taken tail)
    (hvalid : (Request.forward request).Valid)
    (hsplit : tail ++ rest = (Request.forward request).body) (hrest : rest ≠ []) (given : ForwardRequest) :
    ∃ given', readForward (b.after taken 0) given =
      .ok (0, given', b.after (taken + complete [4, 4, 2, request.buffer.length] tail.length)
        (complete [4, 4, 2, request.buffer.length] tail.length)) := by
  rw [body] at hsplit
  by_cases hservice : 4 ≤ tail.length
  swap
  · have hr₁ := h.int_short (by omega)
    rw [complete_cons_of_lt (by omega)]
    refine ⟨given, ?_⟩
    simp only [readForward, hr₁, bind, Except.bind]
    rfl
  obtain ⟨tail₁, rfl, hsplit₁⟩ := split_field hsplit (by rwa [length_encodeInt])
  obtain ⟨hr₁, h₁⟩ := h.int
  rw [List.length_append, length_encodeInt, complete_cons_of_le (by omega), Nat.add_sub_cancel_left]
  by_cases hsession : 4 ≤ tail₁.length
  swap
  · have hr₂ := h₁.int_short (by omega)
    have hback : (b.after (taken + 4) 0).unadvance 4 = .ok (true, b.after (taken + 4) 4) :=
      h₁.back [] (show (4 : Int) = (4 : Nat) from rfl) (by omega) (by omega)
    rw [complete_cons_of_lt (by omega)]
    refine ⟨{ given with serviceId := request.serviceId }, ?_⟩
    simp only [readForward, hr₁, hr₂, hback, bind, Except.bind]
    rfl
  obtain ⟨tail₂, rfl, hsplit₂⟩ := split_field hsplit₁ (by rwa [length_encodeInt])
  obtain ⟨hr₂, h₂⟩ := h₁.int
  rw [List.length_append, length_encodeInt, complete_cons_of_le (by omega), Nat.add_sub_cancel_left]
  have hr₃ := h₂.string_short hvalid (by decide) hsplit₂ hrest given.buffer
  have hback := h₂.back [2, request.buffer.length] (show (4 + 4 : Int) = (4 + 4 : Nat) from rfl) (by omega) (by omega)
  refine ⟨{ given with serviceId := request.serviceId, sessionId := request.sessionId }, ?_⟩
  rw [← Nat.add_assoc 4, ← Nat.add_assoc taken, ← Nat.add_assoc taken, Nat.add_comm (4 + 4)]
  simp only [readForward, hr₁, hr₂, hr₃, bind, Except.bind]
  rw [if_pos (Int.le_refl 0), hback]
  rfl

theorem register_short {request : RegisterRequest} (h : At b queue first taken tail)
    (hvalid : (Request.register request).Valid)
    (hsplit : tail ++ rest = (Request.register request).body)
    (htext : tail.length < 4 + (2 + request.name.length) + (2 + request.type.length)) (given : RegisterRequest) :
    ∃ given', readRegister (b.after taken 0) given =
      .ok (0, given', b.after (taken + complete [4, 2, request.name.length, 2, request.type.length] tail.length)
        (complete [4, 2, request.name.length, 2, request.type.length] tail.length)) := by
  obtain ⟨hname, htype, -⟩ := hvalid
  rw [body] at hsplit
  by_cases hservice : 4 ≤ tail.length
  swap
  · have hr₁ := h.int_short (by omega)
    rw [complete_cons_of_lt (by omega)]
    refine ⟨given, ?_⟩
    simp only [readRegister, hr₁, bind, Except.bind]
    rfl
  obtain ⟨tail₁, rfl, hsplit₁⟩ := split_field hsplit (by rwa [length_encodeInt])
  obtain ⟨hr₁, h₁⟩ := h.int
  rw [List.length_append, length_encodeInt] at htext
  rw [List.length_append, length_encodeInt, complete_cons_of_le (by omega), Nat.add_sub_cancel_left]
  by_cases hname' : 2 + request.name.length ≤ tail₁.length
  swap
  · obtain ⟨missing, hmissing, hsplit'⟩ := split_short hsplit₁ (by rw [length_encodeString]; omega)
    have hr₂ := h₁.string_short hname (by decide) hsplit' hmissing given.name
    have hcomplete : complete [2, request.name.length, 2, request.type.length] tail₁.length =
        complete [2, request.name.length] tail₁.length :=
      complete_append (show tail₁.length < [2, request.name.length].sum by simp; omega)
    have hback := h₁.back [2, request.name.length] (show (4 : Int) = (4 : Nat) from rfl) (by omega) (by omega)
    refine ⟨{ given with serviceId := request.serviceId }, ?_⟩
    rw [hcomplete, ← Nat.add_assoc taken, Nat.add_comm 4]
    simp only [readRegister, hr₁, hr₂, bind, Except.bind]
    rw [if_pos (Int.le_refl 0), hback]
    rfl
  obtain ⟨tail₂, rfl, hsplit₂⟩ := split_field hsplit₁ (by rwa [length_encodeString])
  obtain ⟨hr₂, h₂⟩ := h₁.string hname (by decide) given.name
  rw [List.length_append, length_encodeString] at htext
  obtain ⟨missing, hmissing, hsplit'⟩ := split_short hsplit₂ (by rw [length_encodeString]; omega)
  have hr₃ := h₂.string_short htype (by decide) hsplit' hmissing given.type
  have hamount : (4 + (2 + request.name.length) : Int) = (4 + (2 + request.name.length) : Nat) := by omega
  have hback := h₂.back [2, request.type.length] hamount (by omega) (by omega)
  have hcomplete : complete [2, request.name.length, 2, request.type.length]
      (encodeString request.name ++ tail₂).length =
        2 + request.name.length + complete [2, request.type.length] tail₂.length := by
    rw [List.length_append, length_encodeString, complete_cons_of_le (by omega), complete_cons_of_le (by omega)]
    rw [show 2 + request.name.length + tail₂.length - 2 - request.name.length = tail₂.length by omega, Nat.add_assoc]
  refine ⟨{ given with serviceId := request.serviceId, name := request.name }, ?_⟩
  rw [hcomplete, ← Nat.add_assoc 4, ← Nat.add_assoc taken, ← Nat.add_assoc taken,
    Nat.add_comm (4 + (2 + request.name.length))]
  simp only [readRegister, hr₁, hr₂, hr₃, bind, Except.bind]
  rw [if_neg (by omega), if_pos (Int.le_refl 0), hback]
  rfl

/-- With the text records missing, a register request is read as one without text records. -/
theorem register_textMissing {request : RegisterRequest} (h : At b queue first taken tail)
    (hvalid : (Request.register request).Valid)
    (hsplit : tail ++ rest = (Request.register request).body) (hrest : rest ≠ [])
    (htext : 4 + (2 + request.name.length) + (2 + request.type.length) ≤ tail.length) (given : RegisterRequest) :
    ∃ given' b', readRegister (b.after taken 0) given =
      .ok (4 + (2 + request.name.length) + (2 + request.type.length), given', b') := by
  obtain ⟨hname, htype, htxt⟩ := hvalid
  rw [body] at hsplit
  obtain ⟨tail₁, rfl, hsplit₁⟩ := split_field hsplit (by rw [length_encodeInt]; omega)
  obtain ⟨hr₁, h₁⟩ := h.int
  rw [List.length_append, length_encodeInt] at htext
  obtain ⟨tail₂, rfl, hsplit₂⟩ := split_field hsplit₁ (by rw [length_encodeString]; omega)
  obtain ⟨hr₂, h₂⟩ := h₁.string hname (by decide) given.name
  rw [List.length_append, length_encodeString] at htext
  obtain ⟨tail₃, rfl, hsplit₃⟩ := split_field hsplit₂ (by rw [length_encodeString]; omega)
  obtain ⟨hr₃, h₃⟩ := h₂.string htype (by decide) given.type
  have hr₄ := h₃.string_short htxt (by decide) hsplit₃ hrest given.txtRecords
  generalize b.after _ (complete _ _) = b' at hr₄
  refine ⟨⟨request.serviceId, request.name, request.type, given.txtRecords⟩, b', ?_⟩
  simp only [readRegister, hr₁, hr₂, hr₃, hr₄, bind, Except.bind]
  rw [if_neg (by omega), if_neg (by omega), if_neg (by omega), Int.add_zero]
  rfl

end At

section

variable {b : Buffer} {start rest : Bytes} {first : Nat} {request : Request}

theorem handle_zero (peer : Peer) (sock : Int) (calls : List Invocation) (request : Request) :
    MessageReader.handle peer sock calls 0 request = (0, calls) := if_neg (by omega)

theorem handle_pos {nbytes : Int} (hpos : 0 < nbytes) (peer : Peer) (sock : Int) (calls : List Invocation)
    (request : Request) :
    ∃ ret, ret ≠ 0 ∧ MessageReader.handle peer sock calls nbytes request = (ret, calls ++ [(sock, request)]) := by
  rw [MessageReader.handle, if_pos hpos]
  cases peer calls (sock, request) with
  | true => exact ⟨nbytes, by omega, rfl⟩
  | false => exact ⟨-1, by omega, rfl⟩

/-- A handler that finds too little puts it back. -/
theorem handlerOf_short {queue tail : Bytes} {taken : Nat} (h : At b queue first taken tail) (hvalid : request.Valid)
    (hsplit : tail ++ rest = request.body) (hrest : rest ≠ []) (htext : ¬request.TextMissing (1 + tail.length))
    (peer : Peer) (sock : Int) (calls : List Invocation) :
    handlerOf request peer sock calls (b.after taken 0) =
      .ok (0, calls, b.after (taken + complete request.fields.tail tail.length)
        (complete request.fields.tail tail.length)) := by
  cases request with
  | register request =>
      have hlength : tail.length < 4 + (2 + request.name.length) + (2 + request.type.length) := by
        unfold TextMissing at htext
        omega
      obtain ⟨given, hread⟩ := h.register_short hvalid hsplit hlength ⟨0, [], [], []⟩
      have hcomplete : complete (Request.register request).fields.tail tail.length =
          complete [4, 2, request.name.length, 2, request.type.length] tail.length :=
        complete_append (show tail.length < [4, 2, request.name.length, 2, request.type.length].sum by simp; omega)
      rw [hcomplete]
      simp only [handlerOf, MessageReader.handleRegister, hread, handle_zero, bind, Except.bind]
      rfl
  | unregister request =>
      obtain ⟨given, hread⟩ := h.unregister_short hsplit hrest ⟨0⟩
      simp only [handlerOf, MessageReader.handleUnregister, hread, handle_zero, bind, Except.bind]
      rfl
  | forward request =>
      obtain ⟨given, hread⟩ := h.forward_short hvalid hsplit hrest ⟨0, 0, []⟩
      simp only [handlerOf, MessageReader.handleForward, hread, handle_zero, bind, Except.bind]
      rfl

/-- `Read` of a part of a message returns zero, after it went back over the fields that have arrived. -/
theorem read_short (h : b.Layout start first) (hvalid : request.Valid) (hsplit : start ++ rest = request.encode)
    (hrest : rest ≠ []) (htext : ¬request.TextMissing start.length) (peer : Peer) (sock : Int)
    (calls : List Invocation) :
    MessageReader.read peer sock calls b =
      .ok (0, calls, b.after (complete request.fields start.length) (complete request.fields start.length)) := by
  cases start with
  | nil =>
      have hcomplete : complete request.fields ([] : Bytes).length = 0 := by
        cases request <;> rfl
      rw [hcomplete, Buffer.after_zero h]
      exact read_empty ⟨first, h⟩ peer sock calls
  | cons byte tail =>
      rw [encode, List.cons_append, List.cons.injEq] at hsplit
      obtain ⟨rfl, hbody⟩ := hsplit
      obtain ⟨hat, hread⟩ := read_type h peer sock calls
      have hhandler := handlerOf_short hat hvalid hbody hrest (by rwa [Nat.add_comm]) peer sock calls
      have hback := hat.back request.fields.tail (show (1 : Int) = (1 : Nat) from rfl) (by omega) (by omega)
      have hcomplete : complete request.fields (request.type.byte :: tail).length =
          1 + complete request.fields.tail tail.length := by
        cases request <;> exact complete_cons_of_le (Nat.le_add_left 1 _) _
      rw [hcomplete, Nat.add_comm 1 (complete _ _)]
      rw [Nat.add_comm 1 (complete _ _)] at hhandler hback
      simp only [hread, hhandler, hback, bind, Except.bind]
      rfl

/-- `Read` of a register request without its text records calls the peer. -/
theorem read_textMissing (h : b.Layout start first) (hvalid : request.Valid) (hsplit : start ++ rest = request.encode)
    (hrest : rest ≠ []) (htext : request.TextMissing start.length) (peer : Peer) (sock : Int)
    (calls : List Invocation) :
    ∃ nbytes call b', MessageReader.read peer sock calls b = .ok (nbytes, calls ++ [call], b') := by
  cases request with
  | unregister request => exact htext.elim
  | forward request => exact htext.elim
  | register request =>
      cases start with
      | nil =>
          simp only [TextMissing, List.length_nil] at htext
          omega
      | cons byte tail =>
          rw [encode, List.cons_append, List.cons.injEq] at hsplit
          obtain ⟨rfl, hbody⟩ := hsplit
          obtain ⟨hat, hread⟩ := read_type h peer sock calls
          have hlength : 4 + (2 + request.name.length) + (2 + request.type.length) ≤ tail.length := by
            simp only [TextMissing, List.length_cons] at htext
            omega
          obtain ⟨given, b', hregister⟩ := hat.register_textMissing hvalid hbody hrest hlength ⟨0, [], [], []⟩
          obtain ⟨ret, hret, hhandle⟩ := handle_pos (show (0 : Int) < 4 + (2 + request.name.length) +
            (2 + request.type.length) by omega) peer sock calls (.register given)
          refine ⟨ret, (sock, .register given), b', ?_⟩
          simp only [hread, handlerOf, MessageReader.handleRegister, hregister, hhandle, bind, Except.bind, pure,
            Except.pure, if_neg hret]

end

/-- What should happen to a part of a message: `Read` returns zero and calls no one, the buffer still holds
the part, and with the rest of the message `Read` delivers it, once and intact. -/
def Deferred (peer : Peer) (sock : Int) (calls : List Invocation) (b : Buffer) (request : Request)
    (start rest : Bytes) : Prop :=
  ∃ b', MessageReader.read peer sock calls b = .ok (0, calls, b') ∧
    b'.size = start.length ∧ b'.peek start.length = .ok (some start) ∧
    ∃ b₁ b₂, b'.write rest = .ok (true, b₁) ∧
      MessageReader.read peer sock calls b₁ =
        .ok (outcome peer sock calls request, calls ++ [(sock, request)], b₂) ∧ b₂.size = 0

theorem not_deferred_of_textMissing {b : Buffer} {start rest : Bytes} {first : Nat} {request : Request}
    (hlayout : b.Layout start first) (hvalid : request.Valid) (hsplit : start ++ rest = request.encode)
    (hrest : rest ≠ []) (htext : request.TextMissing start.length) (peer : Peer) (sock : Int)
    (calls : List Invocation) : ¬Deferred peer sock calls b request start rest := by
  rintro ⟨b', hread, -⟩
  obtain ⟨nbytes, call, b₁, hread'⟩ := read_textMissing hlayout hvalid hsplit hrest htext peer sock calls
  rw [hread, Except.ok.injEq, Prod.mk.injEq, Prod.mk.injEq] at hread'
  exact List.cons_ne_nil call [] (List.self_eq_append_right.mp hread'.2.1)

/-- **A part of a message is deferred just when more than text records is missing and the whole fields of it
do not reach the end of the array.** -/
theorem deferred_iff {b : Buffer} {start rest : Bytes} {first : Nat} {request : Request}
    (hlayout : b.Layout start first) (hvalid : request.Valid) (hsplit : start ++ rest = request.encode)
    (hrest : rest ≠ []) (peer : Peer) (sock : Int) (calls : List Invocation) :
    Deferred peer sock calls b request start rest ↔
      ¬request.TextMissing start.length ∧ first + complete request.fields start.length < b.buffer.length := by
  constructor
  · intro hdeferred
    have htext : ¬request.TextMissing start.length := fun hmissing =>
      not_deferred_of_textMissing hlayout hvalid hsplit hrest hmissing peer sock calls hdeferred
    obtain ⟨b', hread, -, hpeek, -⟩ := hdeferred
    refine ⟨htext, ?_⟩
    by_contra hwrap
    rw [read_short hlayout hvalid hsplit hrest htext] at hread
    cases hread
    rw [Buffer.peek_after_undone hlayout (complete_le _ _) (by omega)] at hpeek
    cases hpeek
  · rintro ⟨htext, hwrap⟩
    have hread := read_short hlayout hvalid hsplit hrest htext peer sock calls
    rw [Buffer.after_undone hlayout hwrap] at hread
    obtain ⟨b₁, hwrite, h₁⟩ := Buffer.Holds.write ⟨first, hlayout⟩ rest
    rw [hsplit, ← List.append_nil request.encode] at h₁
    obtain ⟨b₂, hdeliver, h₂⟩ := read_message h₁ hvalid peer sock calls
    refine ⟨b, hread, hlayout.size, ?_, b₁, b₂, hwrite, hdeliver, h₂.size⟩
    rw [hlayout.peek, if_pos le_rfl, List.take_length]

/-- A forward request that stops inside its session id. -/
theorem deferred_iff_forward : ∃ b first, b.Layout [0x20, 0, 0, 0, 7, 0] first ∧
    (Deferred (fun _ _ => true) 3 [] b (.forward ⟨7, 9, [65]⟩) [0x20, 0, 0, 0, 7, 0] [0, 0, 9, 0, 1, 65] ↔
      ¬(Request.forward ⟨7, 9, [65]⟩).TextMissing 6 ∧
        first + complete (Request.forward ⟨7, 9, [65]⟩).fields 6 < b.buffer.length) := by
  obtain ⟨b, -, first, hlayout⟩ := (Buffer.holds_new (show 0 < 8 by decide)).write [0x20, 0, 0, 0, 7, 0]
  have hvalid : (Request.forward ⟨7, 9, [65]⟩).Valid := by
    simp [Request.Valid, Request.Fits, kMaxBufLen]
  exact ⟨b, first, hlayout, deferred_iff hlayout hvalid rfl (List.cons_ne_nil _ _) (fun _ _ => true) 3 []⟩

/-- A register request that stops before its text records is delivered without them. -/
theorem text_records_dropped : ¬∀ (b : Buffer) (start rest : Bytes) (first : Nat) (request : Request),
    b.Layout start first → request.Valid → start ++ rest = request.encode → rest ≠ [] →
      ∀ (peer : Peer) (sock : Int) (calls : List Invocation), Deferred peer sock calls b request start rest := by
  intro h
  obtain ⟨b, -, first, hlayout⟩ :=
    (Buffer.holds_new (show 0 < 16 by decide)).write [0x10, 0, 0, 0, 1, 0, 1, 65, 0, 1, 66]
  have hvalid : (Request.register ⟨1, [65], [66], [67]⟩).Valid := by
    simp [Request.Valid, Request.Fits, kMaxNameLen, kMaxTypeLen, kMaxTextLen]
  have hsplit : [0x10, 0, 0, 0, 1, 0, 1, 65, 0, 1, 66] ++ [0, 1, 67] =
      (Request.register ⟨1, [65], [66], [67]⟩).encode := rfl
  have htext : (Request.register ⟨1, [65], [66], [67]⟩).TextMissing 11 := by
    simp [Request.TextMissing]
  exact not_deferred_of_textMissing hlayout hvalid hsplit (List.cons_ne_nil _ _) htext (fun _ _ => true) 3 []
    (h b _ _ first _ hlayout hvalid hsplit (List.cons_ne_nil _ _) (fun _ _ => true) 3 [])

end Thebends.Btunnel
