import Thebends.BtunnelLink

/-! One direction of the connection between two `Core`s, from the requests that are handed to the writer to the calls
of the peer at the other end, in every order of the events of both ends and of the wire. -/

namespace Thebends.Btunnel

open LibNetOrder LibRun Ynet Request

/-! ### The loop of `Core::Read` -/

/-- The loop of `Core::Read`, run at most `fuel` times. -/
def readMessages (peer : Peer) (sock : Int) : Nat → List Invocation → Buffer →
    Except Fault (Int × List Invocation × Buffer)
  | 0, _, _ => .error .endless
  | fuel + 1, calls, b => do
      let (nbytes, calls, b) ← MessageReader.read peer sock calls b
      if nbytes > 0 then readMessages peer sock fuel calls b
      else return (nbytes, calls, b)

/-- The part of a message at the end of a buffer can wait there: more than its text records is missing, and reading
its whole fields does not pass the end of the array. -/
def Waits (b : Buffer) (request : Request) (arrived : Nat) : Prop :=
  ¬request.TextMissing arrived ∧ (b.end_ - arrived) % b.bufferSize + complete request.fields arrived < b.bufferSize

/-- A peer that refuses nothing. -/
def Accepts (peer : Peer) : Prop := ∀ calls call, peer calls call = true

section

variable {b : Buffer} {part tail : Bytes} {first : Nat} {request : Request}

theorem length_encode (request : Request) : request.encode.length = 1 + request.body.length := by
  rw [encode, List.length_cons, Nat.add_comm]

theorem encode_pos (request : Request) : 0 < request.encode.length := by
  rw [length_encode]
  omega

theorem read_message_after (h : b.Layout (request.encode ++ tail) first) (hvalid : request.Valid) (peer : Peer)
    (sock : Int) (calls : List Invocation) :
    MessageReader.read peer sock calls b =
      .ok (outcome peer sock calls request, calls ++ [(sock, request)], b.after request.encode.length 0) := by
  obtain ⟨hbody, hread⟩ := read_type h peer sock calls
  have hhandler := handlerOf_body hbody hvalid peer sock calls
  rw [length_encode]
  simp only [hread, hhandler, bind, Except.bind, if_neg (outcome_ne peer sock calls request)]
  rfl

/-- Where the last bytes of the contents begin. -/
theorem start_of_end (h : b.Layout part first) : (b.end_ - part.length) % b.bufferSize = first := by
  have hlt := h.start_lt
  have hsize := h.bufferSize
  rcases h.end_cases with ⟨hend, heq⟩ | ⟨hend, heq⟩
  · have hstart : b.end_ - part.length = first := by omega
    rw [hstart, hsize]
    exact Int.emod_eq_of_lt (by omega) (by omega)
  · have hstart : b.end_ - part.length = first - b.bufferSize := by omega
    rw [hstart, Int.sub_emod_right, hsize]
    exact Int.emod_eq_of_lt (by omega) (by omega)

/-- A part that can wait is left as it is. -/
theorem read_part (h : b.Layout part first) {rest : Bytes} (hvalid : request.Valid)
    (hsplit : part ++ rest = request.encode) (hrest : rest ≠ []) (hwaits : Waits b request part.length) (peer : Peer)
    (sock : Int) (calls : List Invocation) : MessageReader.read peer sock calls b = .ok (0, calls, b) := by
  obtain ⟨htext, hplace⟩ := hwaits
  have hsize := h.bufferSize
  rw [start_of_end h] at hplace
  rw [read_short h hvalid hsplit hrest htext, Buffer.after_undone h (by omega)]

/-- What can be at the end of a buffer behind the whole messages. -/
def Rest (b : Buffer) (part : Bytes) : Prop :=
  part = [] ∨ ∃ (request : Request) (rest : Bytes), request.Valid ∧ part ++ rest = request.encode ∧ rest ≠ [] ∧
    Waits b request part.length

theorem read_rest (h : b.Layout part first) (hrest : Rest b part) (peer : Peer) (sock : Int)
    (calls : List Invocation) : MessageReader.read peer sock calls b = .ok (0, calls, b) := by
  rcases hrest with rfl | ⟨request, rest, hvalid, hsplit, hne, hwaits⟩
  · exact read_empty ⟨first, h⟩ peer sock calls
  · exact read_part h hvalid hsplit hne hwaits peer sock calls

/-- **The loop** calls the peer with the messages that have arrived, in order, up to the first one that it refuses, and
leaves the others and what has arrived of the next one in the buffer. -/
theorem readMessages_ok {requests : List Request} (h : b.Layout (requests.flatMap encode ++ part) first)
    (hvalid : ∀ request ∈ requests, request.Valid) (hrest : Rest b part) (peer : Peer) (sock : Int)
    (calls : List Invocation) {fuel : Nat} (hfuel : requests.length < fuel) :
    ∃ nbytes done b', readMessages peer sock fuel calls b = .ok (nbytes, calls ++ done.map (Prod.mk sock), b') ∧
      done <+: requests ∧ b'.Holds ((requests.drop done.length).flatMap encode ++ part) ∧
      (Accepts peer → done = requests) := by
  induction requests generalizing b first calls fuel with
  | nil =>
      obtain ⟨fuel, rfl⟩ := Nat.exists_eq_add_of_lt hfuel
      have hread := read_rest (show b.Layout part first from h) hrest peer sock calls
      refine ⟨0, [], b, ?_, List.nil_prefix, ⟨first, h⟩, fun _ => rfl⟩
      simp only [readMessages, hread, bind, Except.bind, List.map_nil, List.append_nil]
      rfl
  | cons request requests ih =>
      obtain ⟨fuel, rfl⟩ : ∃ count, fuel = count + 1 := ⟨fuel - 1, by omega⟩
      rw [List.flatMap_cons, List.append_assoc] at h
      have hread := read_message_after h (hvalid request List.mem_cons_self) peer sock calls
      have hlayout := h.after (show request.encode.length ≤ _ by rw [List.length_append]; omega)
      rw [List.drop_left] at hlayout
      by_cases haccepted : peer calls (sock, request) = true
      · have hpos : (request.body.length : Int) > 0 := by
          have := body_pos request
          omega
        obtain ⟨nbytes, done, b', hmore, hwhole, hholds, haccepts⟩ := ih hlayout
          (fun later hlater => hvalid later (List.mem_cons_of_mem request hlater)) hrest (calls ++ [(sock, request)])
          (Nat.lt_of_succ_lt_succ hfuel)
        refine ⟨nbytes, request :: done, b', ?_, List.cons_prefix_cons.mpr ⟨rfl, hwhole⟩, hholds,
          fun hall => by rw [haccepts hall]⟩
        simp only [readMessages, hread, outcome, if_pos haccepted, if_pos hpos, hmore, bind, Except.bind, List.map_cons,
          List.append_assoc]
        rfl
      · refine ⟨-1, [request], b.after request.encode.length 0, ?_, ⟨requests, rfl⟩, ⟨_, hlayout⟩,
          fun hall => absurd (hall calls _) haccepted⟩
        have hstops : ¬(-1 : Int) > 0 := by omega
        simp only [readMessages, hread, outcome, if_neg haccepted, if_neg hstops, bind, Except.bind]
        rfl

end

/-! ### What has arrived -/

/-- The requests all of whose bytes are among the first so many. -/
def whole : List Request → Nat → List Request
  | [], _ => []
  | request :: requests, count =>
      if request.encode.length ≤ count then request :: whole requests (count - request.encode.length) else []

/-- The request of which only so many bytes are among the first so many. -/
def unfinished : List Request → Nat → Option (Request × Nat)
  | [], _ => none
  | request :: requests, count =>
      if request.encode.length ≤ count then unfinished requests (count - request.encode.length) else some (request, count)

theorem whole_prefix (requests : List Request) (count : Nat) : whole requests count <+: requests := by
  induction requests generalizing count with
  | nil => exact List.prefix_rfl
  | cons request requests ih =>
      rw [whole]
      split
      · exact List.cons_prefix_cons.mpr ⟨rfl, ih _⟩
      · exact List.nil_prefix

/-- The first bytes are the whole requests and a part of the next one. -/
theorem take_whole (requests : List Request) {count : Nat} (h : count ≤ (requests.flatMap encode).length) :
    ∃ part, (requests.flatMap encode).take count = (whole requests count).flatMap encode ++ part ∧
      (part = [] ∨ ∃ request ∈ requests, ∃ rest, part ++ rest = request.encode ∧ rest ≠ [] ∧
        unfinished requests count = some (request, part.length)) := by
  induction requests generalizing count with
  | nil => exact ⟨[], by simp [whole], Or.inl rfl⟩
  | cons request requests ih =>
      rw [List.flatMap_cons, List.length_append] at h
      rw [List.flatMap_cons, whole, unfinished]
      by_cases hwhole : request.encode.length ≤ count
      · obtain ⟨part, htake, hpart⟩ := ih (show count - request.encode.length ≤ _ by omega)
        refine ⟨part, ?_, hpart.imp id ?_⟩
        · rw [if_pos hwhole, List.take_append, List.take_of_length_le hwhole, htake, List.flatMap_cons,
            List.append_assoc]
        · rintro ⟨other, hother, rest, hsplit, hrest, hunfinished⟩
          exact ⟨other, List.mem_cons_of_mem request hother, rest, hsplit, hrest, by rw [if_pos hwhole, hunfinished]⟩
      · have hlt : count < request.encode.length := Nat.lt_of_not_le hwhole
        refine ⟨request.encode.take count, ?_, Or.inr ⟨request, List.mem_cons_self, request.encode.drop count,
          List.take_append_drop _ _, ?_, ?_⟩⟩
        · rw [if_neg hwhole, List.take_append_of_le_length (by omega), List.flatMap_nil, List.nil_append]
        · rw [Ne, List.drop_eq_nil_iff]
          omega
        · rw [if_neg hwhole, List.length_take, Nat.min_eq_left (by omega)]

theorem whole_append (done rest : List Request) (count : Nat) :
    whole (done ++ rest) ((done.flatMap encode).length + count) = done ++ whole rest count := by
  induction done with
  | nil => rw [List.flatMap_nil, List.length_nil, Nat.zero_add, List.nil_append, List.nil_append]
  | cons request done ih =>
      rw [List.cons_append, List.flatMap_cons, List.length_append, Nat.add_assoc, whole, if_pos (Nat.le_add_right _ _),
        Nat.add_sub_cancel_left, ih, List.cons_append]

theorem unfinished_append (done rest : List Request) (count : Nat) :
    unfinished (done ++ rest) ((done.flatMap encode).length + count) = unfinished rest count := by
  induction done with
  | nil => rw [List.flatMap_nil, List.length_nil, Nat.zero_add, List.nil_append]
  | cons request done ih =>
      rw [List.cons_append, List.flatMap_cons, List.length_append, Nat.add_assoc, unfinished,
        if_pos (Nat.le_add_right _ _), Nat.add_sub_cancel_left, ih]

/-- Whole requests stay whole, and no other ones, when more is to come. -/
theorem whole_concat {requests : List Request} {count : Nat} (h : count ≤ (requests.flatMap encode).length)
    (request : Request) : whole (requests ++ [request]) count = whole requests count := by
  induction requests generalizing count with
  | nil =>
      have hzero : ¬request.encode.length ≤ count := by
        have hpos := encode_pos request
        rw [List.flatMap_nil, List.length_nil] at h
        omega
      exact if_neg hzero
  | cons other requests ih =>
      rw [List.flatMap_cons, List.length_append] at h
      rw [List.cons_append, whole, whole]
      by_cases hwhole : other.encode.length ≤ count
      · rw [if_pos hwhole, if_pos hwhole, ih (by omega)]
      · rw [if_neg hwhole, if_neg hwhole]

theorem whole_all (requests : List Request) : whole requests (requests.flatMap encode).length = requests := by
  have h := whole_append requests [] 0
  rwa [Nat.add_zero, List.append_nil, whole, List.append_nil] at h

/-! ### The link -/

/-- The writer of the one side with what was handed to it, and the reader of the other side with how many bytes it has
got so far and the calls made on its `Core`. -/
structure Link where
  writer : BufferedWriter
  requests : List Request
  reader : BufferedReader
  received : Nat
  calls : List Invocation

namespace Link

/-- A request is handed to the writer, one of the two descriptors is ready, or others change the `Select` of the
writer. -/
inductive Event
  | send (request : Request) (outcomes : Nat → Outcome)
  | writable (outcomes : Nat → Outcome)
  | readable (outcomes : List ReadOutcome)
  | other (change : Change)

/-- The request that is handed to the writer, if any. -/
def Event.request : Event → Option Request
  | .send request _ => some request
  | _ => none

/-- The bytes on their way. -/
def wire (s : Link) : Bytes := s.writer.sent.drop s.received

/-- `Core::Read`, the callback of the reader. -/
def readCore (peer : Peer) (sock : Int) (s : Link) : Except Fault Link :=
  if s.reader.eof then .ok s
  else do
    let (_, calls, buffer) ← readMessages peer sock (s.reader.buffer.size.toNat + 1) s.calls s.reader.buffer
    return { s with calls := calls, reader := { s.reader with buffer := buffer } }

def perform (peer : Peer) (sock : Int) (s : Link) : Event → Except Fault Link
  | .send request outcomes => do
      let (_, writer, _) ← WriteBuffer.writeRequest WriteBuffer.buffered (s.writer, outcomes) request
      return { s with writer := writer, requests := s.requests ++ [request] }
  | .writable outcomes => do
      let writer ← s.writer.writeFromBuffer s.writer.fd outcomes
      return { s with writer := writer }
  | .readable outcomes => do
      let (changed, reader) ← s.reader.ready s.reader.fd outcomes
      let s := ⟨s.writer, s.requests, reader, s.received + (BufferedReader.arrived outcomes).length, s.calls⟩
      if changed then readCore peer sock s else return s
  | .other change => do
      let select ← (s.writer.select.change change).mapError Fault.exit
      return { s with writer := { s.writer with select := select } }

/-- What callers, the select loop and the wire do: requests fit the limits, the writer is called back when it is
registered, what is read is what was written, and others leave the writer's descriptor alone. -/
def Possible (s : Link) : Event → Prop
  | .send request _ => request.Valid
  | .writable _ => s.writer.fd ∈ s.writer.select.write.fds
  | .readable outcomes => BufferedReader.arrived outcomes <+: s.wire
  | .other change => change.Spares s.writer.fd ∧ ∃ select, s.writer.select.change change = .ok select

/-- What is read ends in a part of a message that can wait in the buffer of the reader. -/
def Clean (s : Link) : Event → Prop
  | .readable outcomes => ∀ changed reader, s.reader.ready s.reader.fd outcomes = .ok (changed, reader) →
      ∀ request arrived, unfinished s.requests (s.received + (BufferedReader.arrived outcomes).length) =
        some (request, arrived) → Waits reader.buffer request arrived
  | _ => True

def Step (peer : Peer) (sock : Int) (s : Link) (event : Event) (s' : Link) : Prop :=
  s.Possible event ∧ s.perform peer sock event = .ok s'

/-- The writer of the one `Core` and the reader of the other, as their constructors make them. -/
def new (sender receiver : Select) (writeFd readFd : Fd) (bufferSize writeSize readSize : Nat) (callback : Callback) :
    Except Fault Link := do
  let writer ← BufferedWriter.new sender writeFd bufferSize writeSize callback
  let reader ← BufferedReader.new receiver readFd bufferSize readSize callback
  return ⟨writer, [], reader, 0, []⟩

/-! ### What the link keeps -/

/-- The calls are the first of the requests; behind their bytes comes what the reader holds, then what is on its way,
and then what the writer holds. -/
structure Carries (peer : Peer) (sock : Int) (s : Link) (done : List Request) (held queued : Bytes) : Prop where
  valid : ∀ request ∈ s.requests, request.Valid
  writes : s.writer.Keeps (s.requests.flatMap encode) queued
  received_le : s.received ≤ s.writer.sent.length
  calls : s.calls = done.map (Prod.mk sock)
  done_prefix : done <+: s.requests
  holds : s.reader.buffer.Holds held
  taken : (s.requests.flatMap encode).take s.received = done.flatMap encode ++ held
  prompt : Accepts peer → s.reader.eof = false → done = whole s.requests s.received

section

variable {peer : Peer} {sock : Int} {s s' : Link} {done : List Request} {held queued : Bytes}

theorem carries_new {sender receiver : Select} {writeFd readFd : Fd} {bufferSize writeSize readSize : Nat}
    {callback : Callback} (hfd : writeFd ∉ sender.write.fds)
    (h : new sender receiver writeFd readFd bufferSize writeSize readSize callback = .ok s) (peer : Peer) (sock : Int) :
    s.Carries peer sock [] [] [] ∧ s.requests = [] := by
  rw [new] at h
  obtain ⟨writer, hwriter, h⟩ := LibExcept.bind_eq_ok h
  obtain ⟨reader, hreader, h⟩ := LibExcept.bind_eq_ok h
  rw [BufferedReader.new] at hreader
  obtain ⟨_, hsize, hreader⟩ := LibExcept.bind_eq_ok hreader
  obtain ⟨_, -, hreader⟩ := LibExcept.bind_eq_ok hreader
  obtain ⟨select, -, hreader⟩ := LibExcept.bind_eq_ok hreader
  cases hreader
  cases h
  refine ⟨⟨fun request hrequest => absurd hrequest List.not_mem_nil, BufferedWriter.keeps_new hfd hwriter,
    Nat.zero_le _, rfl, List.nil_prefix, Buffer.holds_new (of_check_ok hsize), rfl, fun _ _ => rfl⟩, rfl⟩

theorem Carries.received_le_all (h : s.Carries peer sock done held queued) :
    s.received ≤ (s.requests.flatMap encode).length := by
  have hle := h.received_le
  rw [← h.writes.stream, List.length_append]
  omega

/-- Handing over a request. -/
theorem Carries.send (h : s.Carries peer sock done held queued) {request : Request} (hvalid : request.Valid)
    {writer : BufferedWriter} {queued' : Bytes} (hkeeps : writer.Keeps (s.requests.flatMap encode ++ request.encode) queued')
    (hsent : s.writer.sent <+: writer.sent) :
    Carries peer sock { s with writer := writer, requests := s.requests ++ [request] } done held queued' where
  valid other hother := by
    rcases List.mem_append.mp hother with hold | hnew
    · exact h.valid other hold
    · rwa [List.mem_singleton.mp hnew]
  writes := by
    rw [List.flatMap_append, List.flatMap_singleton]
    exact hkeeps
  received_le := h.received_le.trans hsent.length_le
  calls := h.calls
  done_prefix := h.done_prefix.trans (List.prefix_append _ _)
  holds := h.holds
  taken := by
    rw [List.flatMap_append, List.take_append_of_le_length h.received_le_all, h.taken]
  prompt haccepts heof := by
    rw [whole_concat h.received_le_all]
    exact h.prompt haccepts heof

/-- What has been read is not more than what was written, and its bytes are where they belong. -/
theorem Carries.arrived (h : s.Carries peer sock done held queued) {data : Bytes} (hdata : data <+: s.wire) :
    s.received + data.length ≤ s.writer.sent.length ∧
      (s.requests.flatMap encode).take (s.received + data.length) = done.flatMap encode ++ (held ++ data) := by
  have hle := h.received_le
  have hlength := hdata.length_le
  rw [wire, List.length_drop] at hlength
  obtain ⟨later, hlater⟩ := hdata
  have hdrop : (s.requests.flatMap encode).drop s.received = data ++ (later ++ queued) := by
    rw [← h.writes.stream, List.drop_append_of_le_length hle, ← List.append_assoc, hlater, wire]
  refine ⟨by omega, ?_⟩
  rw [List.take_add, hdrop, List.take_left, h.taken, List.append_assoc]

/-- The reader gets more bytes, and does not look at them. -/
theorem Carries.fill (h : s.Carries peer sock done held queued) {data : Bytes} (hdata : data <+: s.wire)
    {buffer : Buffer} (hholds : buffer.Holds (held ++ data)) {eof : Bool}
    (hprompt : Accepts peer → eof = false → done = whole s.requests (s.received + data.length)) :
    Carries peer sock
      ⟨s.writer, s.requests, { s.reader with buffer := buffer, eof := eof }, s.received + data.length, s.calls⟩ done
      (held ++ data) queued where
  valid := h.valid
  writes := h.writes
  received_le := (h.arrived hdata).1
  calls := h.calls
  done_prefix := h.done_prefix
  holds := hholds
  taken := (h.arrived hdata).2
  prompt := hprompt

theorem length_le_flatMap (requests : List Request) : requests.length ≤ (requests.flatMap encode).length := by
  induction requests with
  | nil => exact Nat.zero_le _
  | cons request requests ih =>
      have hpos := encode_pos request
      rw [List.flatMap_cons, List.length_cons, List.length_append]
      omega

/-- The loop takes whole messages from what the reader holds. -/
theorem Carries.read (h : s.Carries peer sock done held queued) {data : Bytes} (hdata : data <+: s.wire)
    {buffer : Buffer} (hholds : buffer.Holds (held ++ data))
    (hclean : ∀ request arrived, unfinished s.requests (s.received + data.length) = some (request, arrived) →
      Waits buffer request arrived) (eof : Bool) :
    ∃ nbytes more buffer' held', readMessages peer sock (buffer.size.toNat + 1) s.calls buffer =
        .ok (nbytes, s.calls ++ more.map (Prod.mk sock), buffer') ∧
      Carries peer sock ⟨s.writer, s.requests, { s.reader with buffer := buffer', eof := eof },
        s.received + data.length, s.calls ++ more.map (Prod.mk sock)⟩ (done ++ more) held' queued := by
  obtain ⟨hle, htaken⟩ := h.arrived hdata
  obtain ⟨rest, hrest⟩ := h.done_prefix
  have hreceived : s.received = (done.flatMap encode).length + held.length := by
    rw [← List.length_append, ← h.taken, List.length_take, Nat.min_eq_left h.received_le_all]
  have hcount : s.received + data.length = (done.flatMap encode).length + (held ++ data).length := by
    rw [List.length_append, hreceived, Nat.add_assoc]
  -- what the reader holds begins the bytes of the requests that are not done
  have hheld : (rest.flatMap encode).take (held ++ data).length = held ++ data := by
    rw [← hrest, List.flatMap_append, hcount, List.take_length_add_append] at htaken
    exact List.append_cancel_left htaken
  have hfits : (held ++ data).length ≤ (rest.flatMap encode).length := by
    rw [← hheld, List.length_take]
    exact Nat.min_le_right _ _
  obtain ⟨part, htake, hpart⟩ := take_whole rest hfits
  have hwhole := whole_prefix rest (held ++ data).length
  obtain ⟨all, hall⟩ : ∃ all, whole rest (held ++ data).length = all := ⟨_, rfl⟩
  rw [hheld, hall] at htake
  rw [hall] at hwhole
  have hvalid : ∀ request ∈ rest, request.Valid := fun request hrequest =>
    h.valid request (hrest ▸ List.mem_append_right done hrequest)
  have hrestOf : Rest buffer part := by
    refine hpart.imp id ?_
    rintro ⟨request, hrequest, later, hsplit, hne, hunfinished⟩
    refine ⟨request, later, hvalid request hrequest, hsplit, hne, hclean request part.length ?_⟩
    rw [hcount, ← hrest, unfinished_append, hunfinished]
  obtain ⟨first, hlayout⟩ := hholds
  have hsize := hlayout.size
  rw [htake] at hlayout
  have hfuel : all.length < buffer.size.toNat + 1 := by
    have hcounts := length_le_flatMap all
    have hlength : (all.flatMap encode).length ≤ (held ++ data).length := by
      rw [htake, List.length_append]
      omega
    omega
  obtain ⟨nbytes, more, buffer', hread, hmore, hholds', haccepts⟩ := readMessages_ok hlayout
    (fun request hrequest => hvalid request (hwhole.subset hrequest)) hrestOf peer sock s.calls hfuel
  refine ⟨nbytes, more, buffer', _, hread, h.valid, h.writes, hle, ?_, ?_, hholds', ?_, ?_⟩
  · rw [h.calls, List.map_append]
  · rw [← hrest]
    exact (List.prefix_append_right_inj done).mpr (hmore.trans hwhole)
  · obtain ⟨others, hothers⟩ := hmore
    rw [htaken, htake, ← hothers, List.drop_left, List.flatMap_append, List.flatMap_append, List.append_assoc,
      List.append_assoc]
  · intro hpeer _
    rw [haccepts hpeer, ← hall, ← hrest, hcount, whole_append]

/-- What one event does, if it is possible and clean: the program halts because a system call fails, or the link keeps
what it carries. -/
theorem Carries.perform (h : s.Carries peer sock done held queued) {event : Event} (hpossible : s.Possible event)
    (hclean : s.Clean event) :
    s.perform peer sock event = .error (.exit "write") ∨ s.perform peer sock event = .error (.exit "read") ∨
      ∃ s', s.perform peer sock event = .ok s' ∧ s'.requests = s.requests ++ event.request.toList ∧
        ∃ done' held' queued', s'.Carries peer sock done' held' queued' := by
  cases event with
  | send request outcomes =>
      have hgiven : WriteBuffer.Given s.writer.sent (s.writer, outcomes) (s.requests.flatMap encode) :=
        ⟨List.prefix_rfl, queued, h.writes⟩
      rcases WriteBuffer.writeRequest_appends (WriteBuffer.buffered_appends s.writer.sent) hgiven hpossible with
        hhalt | ⟨⟨writer, left⟩, hwrite, hsent, queued', hkeeps⟩
      · exact Or.inl (by simp only [Link.perform, hhalt, bind, Except.bind])
      · refine Or.inr (Or.inr ⟨{ s with writer := writer, requests := s.requests ++ [request] }, ?_, rfl, done, held,
          queued', h.send hpossible hkeeps hsent⟩)
        simp only [Link.perform, hwrite, bind, Except.bind]
        rfl
  | writable outcomes =>
      rcases h.writes.writeFromBuffer hpossible outcomes with ⟨-, hhalt⟩ | ⟨writer, queued', hwrite, hkeeps⟩
      · exact Or.inl (by simp only [Link.perform, hhalt, bind, Except.bind])
      · refine Or.inr (Or.inr ⟨{ s with writer := writer }, ?_, (List.append_nil _).symm, done, held, queued', h.valid,
          hkeeps, h.received_le.trans (BufferedWriter.writeFromBuffer_sent hwrite).length_le, h.calls, h.done_prefix,
          h.holds, h.taken, h.prompt⟩)
        simp only [Link.perform, hwrite, bind, Except.bind]
        rfl
  | readable outcomes =>
      rcases BufferedReader.ready_ok h.holds outcomes with hhalt | ⟨buffer, hholds, hready⟩
      · exact Or.inr (Or.inl (by simp only [Link.perform, hhalt, bind, Except.bind]))
      right
      right
      cases hempty : outcomes.isEmpty with
      | true =>
          obtain rfl := List.isEmpty_iff.mp hempty
          have hcarries := @Carries.fill _ _ _ _ _ _ h [] hpossible buffer hholds s.reader.eof h.prompt
          refine ⟨_, ?_, ?_, done, _, queued, hcarries⟩
          · simp only [Link.perform, hready, hempty, BufferedReader.ends, Bool.or_false, bind, Except.bind]
            rfl
          · exact (List.append_nil _).symm
      | false =>
          cases heof : s.reader.eof || BufferedReader.ends outcomes with
          | true =>
              have hcarries := @Carries.fill _ _ _ _ _ _ h _ hpossible buffer hholds true (by simp)
              refine ⟨_, ?_, ?_, done, _, queued, hcarries⟩
              · simp only [Link.perform, hready, hempty, heof, readCore, bind, Except.bind]
                rfl
              · exact (List.append_nil _).symm
          | false =>
              obtain ⟨nbytes, more, buffer', held', hread, hcarries⟩ := h.read hpossible hholds
                (hclean _ _ hready) false
              refine ⟨_, ?_, ?_, _, _, queued, hcarries⟩
              · simp only [Link.perform, hready, hempty, heof, readCore, hread, bind, Except.bind]
                rfl
              · exact (List.append_nil _).symm
  | other change =>
      obtain ⟨hspares, select, hchange⟩ := hpossible
      refine Or.inr (Or.inr ⟨{ s with writer := { s.writer with select := select } }, ?_, (List.append_nil _).symm, done,
        held, queued, h.valid, h.writes.other hspares hchange, h.received_le, h.calls, h.done_prefix, h.holds, h.taken,
        h.prompt⟩)
      simp only [Link.perform, hchange, bind, Except.bind]
      rfl

end

/-- **Every message arrives once, in order.** However little the calls of `write` and `read` take and return, in every
run in which what is read ends in parts of messages that can wait: the calls of the peer are the first of the requests
that were handed to the writer; those of a peer that refuses nothing are, until the end of the file, all that have
come whole, and all there are once the writer and the wire are empty; and nothing but a failed system call stops
either end. -/
theorem messages_arrive (sender receiver : Select) (writeFd readFd : Fd) (bufferSize writeSize readSize : Nat)
    (callback : Callback) (peer : Peer) (sock : Int) (start s : Link) (events : List Event)
    (hfd : writeFd ∉ sender.write.fds)
    (hnew : new sender receiver writeFd readFd bufferSize writeSize readSize callback = .ok start)
    (hrun : Run (Restrict (Step peer sock) Clean) start events s) :
    (∃ done, s.calls = done.map (Prod.mk sock) ∧ done <+: events.filterMap Event.request) ∧
    (Accepts peer → s.reader.eof = false →
      s.calls = (whole (events.filterMap Event.request) s.received).map (Prod.mk sock)) ∧
    (Accepts peer → s.reader.eof = false → s.writer.fdBuffered = false → s.wire = [] →
      s.calls = (events.filterMap Event.request).map (Prod.mk sock)) ∧
    ∀ event, s.Possible event → s.Clean event → s.perform peer sock event = .error (.exit "write") ∨
      s.perform peer sock event = .error (.exit "read") ∨ ∃ s', s.perform peer sock event = .ok s' := by
  have hinv : s.requests = events.filterMap Event.request ∧ ∃ done held queued, s.Carries peer sock done held queued := by
    obtain ⟨hcarries, hrequests⟩ := carries_new hfd hnew peer sock
    refine hrun.invariant (fun events s => s.requests = events.filterMap Event.request ∧
      ∃ done held queued, s.Carries peer sock done held queued) ⟨hrequests, [], [], [], hcarries⟩ ?_
    rintro events before event after - ⟨hbefore, done, held, queued, hkept⟩ ⟨hclean, hpossible, hperform⟩
    rcases hkept.perform hpossible hclean with hhalt | hhalt | ⟨s', hok, hafter, hkept'⟩
    · rw [hhalt] at hperform
      cases hperform
    · rw [hhalt] at hperform
      cases hperform
    · rw [hok] at hperform
      cases hperform
      refine ⟨?_, hkept'⟩
      rw [hafter, hbefore, List.filterMap_append]
      cases event <;> rfl
  obtain ⟨hrequests, done, held, queued, hcarries⟩ := hinv
  rw [← hrequests]
  refine ⟨⟨done, hcarries.calls, hcarries.done_prefix⟩, fun haccepts heof => ?_, fun haccepts heof hidle hwire => ?_,
    fun event hpossible hclean => ?_⟩
  · rw [hcarries.calls, hcarries.prompt haccepts heof]
  · have hqueued : queued = [] := by
      by_contra hne
      rw [hcarries.writes.buffered.mpr hne] at hidle
      cases hidle
    have hsent := List.drop_eq_nil_iff.mp hwire
    have hle := hcarries.received_le
    have hall : s.received = (s.requests.flatMap encode).length := by
      rw [← hcarries.writes.stream, hqueued, List.append_nil]
      omega
    rw [hcarries.calls, hcarries.prompt haccepts heof, hall, whole_all]
  · rcases hcarries.perform hpossible hclean with hhalt | hhalt | ⟨s', hok, -⟩
    · exact Or.inl hhalt
    · exact Or.inr (Or.inl hhalt)
    · exact Or.inr (Or.inr ⟨s', hok⟩)

/-- A message that comes in two parts, as the descriptor takes no more of it at first. -/
def twoParts : List Event :=
  [.send (.unregister ⟨7⟩) fun call => if call = 0 then .wrote 1 else .wrote 2, .readable [.read [0x11, 0, 0]],
    .writable fun _ => .wrote 2, .readable [.read [0, 7]]]

theorem messages_arrive_twoParts : ∃ start s, new Select.new Select.new 3 4 8 4 4 0 = .ok start ∧
    Run (Restrict (Step (fun _ _ => true) 4) Clean) start twoParts s ∧ s.calls = [(4, .unregister ⟨7⟩)] := by
  obtain ⟨start, hnew, s₁, h₁, s₂, h₂, s₃, h₃, s₄, h₄, hbuffered, hclean₂, hclean₄, heof, hidle, hwire⟩ :
      ∃ start, new Select.new Select.new 3 4 8 4 4 0 = .ok start ∧
      ∃ s₁, start.perform (fun _ _ => true) 4
        (.send (.unregister ⟨7⟩) fun call => if call = 0 then .wrote 1 else .wrote 2) = .ok s₁ ∧
      ∃ s₂, s₁.perform (fun _ _ => true) 4 (.readable [.read [0x11, 0, 0]]) = .ok s₂ ∧
      ∃ s₃, s₂.perform (fun _ _ => true) 4 (.writable fun _ => .wrote 2) = .ok s₃ ∧
      ∃ s₄, s₃.perform (fun _ _ => true) 4 (.readable [.read [0, 7]]) = .ok s₄ ∧
      s₂.Possible (.writable fun _ => .wrote 2) ∧
      (s₁.Possible (.readable [.read [0x11, 0, 0]]) ∧ s₁.Clean (.readable [.read [0x11, 0, 0]])) ∧
      (s₃.Possible (.readable [.read [0, 7]]) ∧ s₃.Clean (.readable [.read [0, 7]])) ∧
      s₄.reader.eof = false ∧ s₄.writer.fdBuffered = false ∧ s₄.wire = [] := by
    refine ⟨_, rfl, _, rfl, _, rfl, _, rfl, _, rfl, List.mem_cons_self, ⟨List.prefix_rfl, ?_⟩, ⟨List.prefix_rfl, ?_⟩, rfl, rfl, rfl⟩
    · intro changed reader hready request arrived hunfinished
      cases hready
      cases hunfinished
      exact ⟨not_false, by decide⟩
    · intro changed reader hready request arrived hunfinished
      cases hunfinished
  have hrun : Run (Restrict (Step (fun _ _ => true) 4) Clean) start twoParts s₄ :=
    ((((Run.nil _).snoc ⟨trivial, trivial, h₁⟩).snoc ⟨hclean₂.2, hclean₂.1, h₂⟩).snoc ⟨trivial, hbuffered, h₃⟩).snoc
      ⟨hclean₄.2, hclean₄.1, h₄⟩
  refine ⟨start, s₄, hnew, hrun, ?_⟩
  have harrive := messages_arrive Select.new Select.new 3 4 8 4 4 0 _ 4 start s₄ twoParts (by decide) hnew hrun
  exact harrive.2.2.1 (fun _ _ => rfl) heof hidle hwire

end Link

end Thebends.Btunnel
