import Thebends.YhttpServer

/-! Runs of the HTTP server: every connection is answered once, after one read, and is closed; its descriptor may then
be the one of another connection. -/

namespace Thebends.Yhttp

open LibAscii LibMap LibSockets LibRun
open Ynet (Select Fd Callback Fault Outcome)

/-! ### The answer to a read -/

/-- The handlers that are registered. -/
def handlersOf (happenings : List Happening) : HandlerMap :=
  happenings.foldl (fun handlers happening =>
    match happening with
    | .register handler cb => handlers.insert handler cb
    | _ => handlers) ∅

/-- What is called on a request that has brought some bytes. -/
def replyTo (handlers : HandlerMap) (chunk : Bytes) : List Action :=
  let request := (Request.new 0).read chunk
  match request.answer handlers.keys with
  | none => []
  | some answer => actionsFor handlers request answer

theorem replyTo_of_answer {handlers : HandlerMap} {chunk : Bytes} {answer : Answer}
    (h : ((Request.new 0).read chunk).answer handlers.keys = some answer) :
    replyTo handlers chunk = actionsFor handlers ((Request.new 0).read chunk) answer := by
  rw [replyTo]
  rw [h]

theorem answer_of_invalid {r : Request} (h : r.valid = false) (names : List Bytes) : r.answer names = some .error := by
  rw [Request.answer, h]
  rfl

theorem answer_of_ready {r : Request} (h : r.ready = true) (names : List Bytes) : ∃ answer, r.answer names = some answer := by
  rw [Request.answer, h]
  split
  · exact ⟨_, rfl⟩
  · split
    · contradiction
    · split
      · exact ⟨_, rfl⟩
      · exact ⟨_, rfl⟩

/-- A new request after its first read, whatever its memory held: it is invalid, or it is the same in any case. -/
theorem read_new (port : UInt32) (chunk : Bytes) :
    (((Request.new port).read chunk).valid = false ∧ ((Request.new 0).read chunk).valid = false) ∨
      ((Request.new port).read chunk = (Request.new 0).read chunk ∧ ((Request.new 0).read chunk).ready = true) := by
  by_cases hchunk : chunk = []
  · subst hchunk
    exact Or.inl ⟨rfl, rfl⟩
  · rw [read_eq hchunk, read_eq hchunk]
    have hinput : (Request.new port).input = (Request.new 0).input := rfl
    rw [hinput]
    rcases parseLine_cases (requestLine ((Request.new 0).input ++ chunk)) with hline | ⟨url, hline⟩
    · rw [hline, hline]
      exact Or.inl ⟨rfl, rfl⟩
    · rw [hline, hline]
      exact Or.inr ⟨rfl, rfl⟩

/-- A request is answered after its first read, and what its memory held does not matter. -/
theorem answer_new (handlers : HandlerMap) (port : UInt32) (chunk : Bytes) :
    ∃ answer, ((Request.new port).read chunk).answer handlers.keys = some answer ∧
      actionsFor handlers ((Request.new port).read chunk) answer = replyTo handlers chunk := by
  rcases read_new port chunk with ⟨hport, hzero⟩ | ⟨hsame, hready⟩
  · refine ⟨.error, answer_of_invalid hport _, ?_⟩
    rw [replyTo_of_answer (answer_of_invalid hzero _)]
    simp only [actionsFor]
  · obtain ⟨answer, hanswer⟩ := answer_of_ready hready handlers.keys
    exact ⟨answer, by rw [hsame, hanswer], by rw [hsame, replyTo_of_answer hanswer]⟩

/-- All that is written to a connection that has brought some bytes. -/
def page (bufsiz : Nat) (handlers : HandlerMap) (chunk : Bytes) : Bytes :=
  (documentOf 200 (ascii "text/plain") (replyTo handlers chunk)).bytes bufsiz

namespace HTTPServer

/-! ### The invariant -/

/-- The callback that is registered for a socket. -/
def callbackOf : Origin → Callback
  | .accepted => readCallback
  | _ => acceptCallback

/-- A connection was read once, and answered with what the handlers of that time say about all it has ever brought. -/
def Answered (bufsiz : Nat) (happenings : List Happening) (number : Nat) (socket : Socket) : Prop :=
  ∃ earlier s fd answers rest, happenings = earlier ++ .ready fd answers :: rest ∧
    Run (Step bufsiz) new earlier s ∧ s.sockets.table fd = some number ∧ answers.read = some socket.received ∧
      socket.sent = taken (page bufsiz (handlersOf earlier) socket.received) answers.write

theorem Answered.more {bufsiz : Nat} {happenings : List Happening} {number : Nat} {socket : Socket}
    (h : Answered bufsiz happenings number socket) (happening : Happening) :
    Answered bufsiz (happenings ++ [happening]) number socket := by
  obtain ⟨earlier, s, fd, answers, rest, rfl, hmore⟩ := h
  exact ⟨earlier, s, fd, answers, rest ++ [happening], by rw [List.append_assoc, List.cons_append], hmore⟩

/-- The descriptors of the server, its map and the loop say the same; what is open has not been read. -/
structure Serving (bufsiz : Nat) (happenings : List Happening) (s : HTTPServer) : Prop where
  wellFormed : s.sockets.WellFormed
  handlers : s.handlers = handlersOf happenings
  watched : ∀ fd, s.select.read.callbacks.lookup fd =
    (s.sockets.table fd).map fun number => callbackOf (s.sockets.socket number).origin
  pending : ∀ fd, (s.requests fd).isSome ↔ ∃ number, s.sockets.table fd = some number ∧
    (s.sockets.socket number).origin = .accepted
  fresh : ∀ fd request, s.requests fd = some request → ∃ port, request = ⟨.new port, .new⟩
  untouched : ∀ number, s.sockets.IsOpen number →
    (s.sockets.socket number).received = [] ∧ (s.sockets.socket number).sent = []
  answered : ∀ number < s.sockets.next, (s.sockets.socket number).origin = .accepted → ¬s.sockets.IsOpen number →
    Answered bufsiz happenings number (s.sockets.socket number)

theorem serving_new (bufsiz : Nat) : Serving bufsiz [] new where
  wellFormed := Sockets.wellFormed_empty
  handlers := rfl
  watched _ := rfl
  pending fd := by
    refine iff_of_false Bool.false_ne_true ?_
    rintro ⟨number, hnumber, -⟩
    cases hnumber
  fresh _ _ h := by cases h
  untouched number h := by
    obtain ⟨fd, hfd⟩ := h
    cases hfd
  answered number h := absurd h (Nat.not_lt_zero number)

section

variable {bufsiz : Nat} {happenings : List Happening} {s : HTTPServer}

/-- A socket is made and registered. -/
theorem Serving.made (h : s.Serving bufsiz happenings) {fd : Fd} (hfree : s.sockets.table fd = none) {origin : Origin}
    {select : Select} (hlookup : ∀ other, select.read.callbacks.lookup other =
      if other = fd then some (callbackOf origin) else s.select.read.callbacks.lookup other)
    {requests : Fd → Option Pending} (hother : ∀ other, other ≠ fd → requests other = s.requests other)
    (hrequest : (requests fd).isSome ↔ origin = .accepted)
    (hfresh : ∀ request, requests fd = some request → ∃ port, request = ⟨.new port, .new⟩) {happening : Happening}
    (hhandlers : handlersOf (happenings ++ [happening]) = handlersOf happenings) :
    Serving bufsiz (happenings ++ [happening])
      { s with select := select, sockets := s.sockets.make fd origin, requests := requests } := by
  have hmade : ∀ {f number}, s.sockets.table f = some number →
      (s.sockets.make fd origin).socket number = s.sockets.socket number := by
    intro f number hf
    rw [Sockets.socket_make, if_neg (Nat.ne_of_lt (h.wellFormed.made f number hf))]
  constructor
  · exact h.wellFormed.make fd origin
  · exact h.handlers.trans hhandlers.symm
  · intro other
    rw [hlookup, Sockets.table_make, h.watched]
    by_cases heq : other = fd
    · rw [if_pos heq, if_pos heq, Option.map_some, Sockets.socket_make, if_pos rfl]
    · rw [if_neg heq, if_neg heq]
      cases htable : s.sockets.table other with
      | none => rfl
      | some number =>
          rw [Option.map_some, Option.map_some, hmade htable]
  · intro other
    by_cases heq : other = fd
    · subst heq
      simp only [Sockets.table_make, if_pos, Option.some.injEq, exists_eq_left', Sockets.socket_make]
      exact hrequest
    · simp only [hother other heq, Sockets.table_make, if_neg heq, h.pending other]
      constructor
      · rintro ⟨number, hnumber, hnew⟩
        exact ⟨number, hnumber, by rw [hmade hnumber, hnew]⟩
      · rintro ⟨number, hnumber, hnew⟩
        exact ⟨number, hnumber, by rw [← hmade hnumber, hnew]⟩
  · intro other request hreq
    by_cases heq : other = fd
    · subst heq
      exact hfresh request hreq
    · exact h.fresh other request ((hother other heq) ▸ hreq)
  · intro number hopen
    rw [Sockets.isOpen_make hfree] at hopen
    rw [Sockets.socket_make]
    split
    · exact ⟨rfl, rfl⟩
    · exact h.untouched number (hopen.resolve_left ‹_›)
  · intro number hnumber hnew hclosed
    rw [Sockets.isOpen_make hfree, not_or] at hclosed
    rw [Sockets.socket_make, if_neg hclosed.1] at hnew ⊢
    exact (h.answered number (Nat.lt_of_le_of_ne (Nat.le_of_lt_succ hnumber) hclosed.1) hnew hclosed.2).more happening

/-- A free descriptor is not registered and has no request. -/
theorem Serving.free (h : s.Serving bufsiz happenings) {fd : Fd} (hfree : s.sockets.table fd = none) :
    s.select.read.callbacks.lookup fd = none ∧ s.requests fd = none := by
  refine ⟨by rw [h.watched, hfree]; rfl, ?_⟩
  by_contra hsome
  obtain ⟨number, hnumber, -⟩ := (h.pending fd).mp (Option.isSome_iff_ne_none.mpr hsome)
  rw [hfree] at hnumber
  cases hnumber

/-! ### Callbacks -/

/-- The answer of a system call that ends the process. -/
inductive Failed : Happening → Fault → Prop
  | start {failed : Option String} : Failed (.start none failed) (.exit "socket()")
  | listen {fd : Fd} {message : String} : Failed (.start (some fd) (some message)) (.exit message)
  | accept {fd : Fd} {answers : Answers} : answers.accept = none → Failed (.ready fd answers) (.exit "accept")
  | read {fd : Fd} {answers : Answers} : answers.read = none → Failed (.ready fd answers) .outOfBounds

theorem addReadFd_ok {fd : Fd} (h : s.select.read.callbacks.lookup fd = none) (cb : Callback) :
    ∃ select, s.addReadFd fd cb = .ok { s with select := select } ∧
      ∀ other, select.read.callbacks.lookup other = if other = fd then some cb else s.select.read.callbacks.lookup other := by
  obtain ⟨select, hadd, hlookup⟩ := Select.addReadFd_fresh h cb
  refine ⟨select, ?_, hlookup⟩
  rw [addReadFd, hadd]

theorem handlersOf_snoc (happenings : List Happening) {happening : Happening}
    (h : ∀ handler cb, happening ≠ .register handler cb) :
    handlersOf (happenings ++ [happening]) = handlersOf happenings := by
  rw [handlersOf, List.foldl_append]
  cases happening with
  | register handler cb => exact absurd rfl (h handler cb)
  | start socket failed => rfl
  | ready fd answers => rfl

/-- A connection has brought some bytes, was written to, and is closed. -/
theorem Serving.closed (h : s.Serving bufsiz happenings) {fd : Fd} {number : Nat}
    (htable : s.sockets.table fd = some number) (horigin : (s.sockets.socket number).origin = .accepted)
    {chunk output : Bytes} {happening : Happening}
    (hanswered : Answered bufsiz (happenings ++ [happening]) number ⟨.accepted, chunk, output⟩)
    (hhandlers : handlersOf (happenings ++ [happening]) = handlersOf happenings) {select : Select}
    (hselect : ∀ other, select.read.callbacks.lookup other =
      if other = fd then none else s.select.read.callbacks.lookup other)
    {requests : Fd → Option Pending} (hnone : requests fd = none)
    (hrequests : ∀ other, other ≠ fd → requests other = s.requests other) :
    Serving bufsiz (happenings ++ [happening])
      { s with
        select := select, sockets := ((s.sockets.receive fd chunk).send fd output).close fd, requests := requests } := by
  obtain ⟨hreceived, hsent⟩ := h.untouched number ⟨fd, htable⟩
  have hmid : (s.sockets.receive fd chunk).table fd = some number := by
    rw [Sockets.receive, Sockets.table_modify, htable]
  have htables : ((s.sockets.receive fd chunk).send fd output).table = s.sockets.table :=
    (Sockets.table_modify _ _ _).trans (Sockets.table_modify _ _ _)
  have hsocket : ∀ other, ((s.sockets.receive fd chunk).send fd output).socket other =
      if other = number then ⟨.accepted, chunk, output⟩ else s.sockets.socket other := by
    intro other
    rw [Sockets.send, Sockets.socket_modify hmid, Sockets.receive, Sockets.socket_modify htable,
      Sockets.socket_modify htable, if_pos rfl]
    split
    · rw [← horigin, hreceived, hsent]
      rfl
    · rfl
  have horigins : ∀ other, (((s.sockets.receive fd chunk).send fd output).socket other).origin =
      (s.sockets.socket other).origin := by
    intro other
    rw [hsocket]
    split
    case isTrue heq => rw [heq, horigin]
    case isFalse => rfl
  have hwell : ((s.sockets.receive fd chunk).send fd output).WellFormed := (h.wellFormed.modify _ _).modify _ _
  have hopen : ∀ other, (((s.sockets.receive fd chunk).send fd output).close fd).IsOpen other ↔
      other ≠ number ∧ s.sockets.IsOpen other := by
    intro other
    rw [Sockets.isOpen_close hwell (htables.symm ▸ htable), Sockets.IsOpen, htables]
    rfl
  have hclose : ∀ other, (((s.sockets.receive fd chunk).send fd output).close fd).table other =
      if other = fd then none else s.sockets.table other := by
    intro other
    rw [Sockets.table_close, htables]
  constructor
  · exact hwell.close fd
  · exact h.handlers.trans hhandlers.symm
  · intro other
    rw [hselect, h.watched, hclose]
    split
    · rfl
    · simp only [Sockets.close, horigins]
  · intro other
    simp only [hclose]
    by_cases heq : other = fd
    · rw [heq, hnone]
      simp
    · simp only [hrequests other heq, if_neg heq]
      simp only [Sockets.close, horigins]
      exact h.pending other
  · intro other request hrequest
    have heq : other ≠ fd := by
      rintro rfl
      exact Option.some_ne_none request (hrequest.symm.trans hnone)
    exact h.fresh other request ((hrequests other heq).symm.trans hrequest)
  · intro other hother
    obtain ⟨hne, hother⟩ := (hopen other).mp hother
    rw [Sockets.close, hsocket, if_neg hne]
    exact h.untouched other hother
  · intro other hlt hnew hclosed
    rw [Sockets.close, hsocket]
    split
    case isTrue heq => exact heq ▸ hanswered
    case isFalse hne =>
      rw [Sockets.close, hsocket, if_neg hne] at hnew
      have hlt' : other < s.sockets.next := by
        rw [Sockets.close, Sockets.send, Sockets.next_modify, Sockets.receive, Sockets.next_modify] at hlt
        exact hlt
      exact (h.answered other hlt' hnew fun hother => hclosed ((hopen other).mpr ⟨hne, hother⟩)).more _

/-- A connection that is open is answered when it is read, and closed. -/
theorem Serving.read (h : s.Serving bufsiz happenings) (hrun : Run (Step bufsiz) new happenings s) {fd : Fd}
    {pending : Pending} (hpending : s.requests fd = some pending) {answers : Answers} {chunk : Bytes}
    (hread : answers.read = some chunk) :
    ∃ s', s.read bufsiz fd answers = .ok s' ∧ s'.Serving bufsiz (happenings ++ [.ready fd answers]) := by
  obtain ⟨number, htable, horigin⟩ := (h.pending fd).mp (by rw [hpending]; rfl)
  obtain ⟨port, rfl⟩ := h.fresh fd pending hpending
  obtain ⟨answer, hanswer, hactions⟩ := answer_new s.handlers port chunk
  have hlookup : s.select.read.callbacks.lookup fd = some readCallback := by
    rw [h.watched, htable, Option.map_some, horigin]
    rfl
  obtain ⟨select, hremove, hselect⟩ := Select.removeReadFd_registered hlookup
  have hpage : (Response.new.run bufsiz (replyTo s.handlers chunk)).output = page bufsiz (handlersOf happenings) chunk := by
    rw [h.handlers]
    exact run_document bufsiz 200 (ascii "text/plain") _
  have hcall : s.read bufsiz fd answers = .ok
      { s with
        select := select
        sockets := ((s.sockets.receive fd chunk).send fd
          (taken (page bufsiz (handlersOf happenings) chunk) answers.write)).close fd
        requests := Function.update (Function.update s.requests fd
          (some ⟨(Request.new port).read chunk, .new⟩)) fd none } := by
    rw [HTTPServer.read, hpending]
    simp only [hread, hanswer, hactions, reply, close, hremove, hpage]
  refine ⟨_, hcall, h.closed htable horigin ?_ (handlersOf_snoc happenings (by simp)) hselect ?_ fun other hother => ?_⟩
  · exact ⟨happenings, s, fd, answers, [], rfl, hrun, htable, hread, rfl⟩
  · exact Function.update_self _ _ _
  · rw [Function.update_of_ne hother, Function.update_of_ne hother]

/-- A client is accepted. -/
theorem Serving.accept (h : s.Serving bufsiz happenings) {fd : Fd} {answers : Answers}
    (hpossible : s.Possible (.ready fd answers)) :
    (∃ s', s.accept answers = .ok s' ∧ s'.Serving bufsiz (happenings ++ [.ready fd answers])) ∨
      ∃ fault s', s.accept answers = .error (fault, s') ∧ Failed (.ready fd answers) fault := by
  cases haccept : answers.accept with
  | none => exact Or.inr ⟨_, s, by rw [HTTPServer.accept, haccept], .accept haccept⟩
  | some client =>
      have hfree := hpossible client haccept
      obtain ⟨hlookup, hnone⟩ := h.free hfree
      obtain ⟨select, hadd, hselect⟩ := addReadFd_ok (s :=
        { s with
          sockets := s.sockets.make client .accepted
          requests := Function.update s.requests client (some ⟨.new answers.memory, .new⟩) }) hlookup readCallback
      have hlookups : ∀ other, select.read.callbacks.lookup other =
          if other = client then some (callbackOf .accepted) else s.select.read.callbacks.lookup other := hselect
      have hrequests : ∀ other, other ≠ client →
          Function.update s.requests client (some ⟨.new answers.memory, .new⟩) other = s.requests other :=
        fun other hother => Function.update_of_ne hother _ _
      refine Or.inl ⟨_, ?_, h.made hfree hlookups hrequests ?_ ?_ (handlersOf_snoc happenings (by simp))⟩
      · rw [HTTPServer.accept, haccept]
        dsimp only
        rw [hnone]
        exact hadd
      · rw [Function.update_self]
        simp
      · intro request hrequest
        rw [Function.update_self, Option.some.injEq] at hrequest
        exact ⟨answers.memory, hrequest.symm⟩

theorem Serving.idle (h : s.Serving bufsiz happenings) {happening : Happening}
    (hhandlers : handlersOf (happenings ++ [happening]) = handlersOf happenings) :
    s.Serving bufsiz (happenings ++ [happening]) :=
  ⟨h.wellFormed, h.handlers.trans hhandlers.symm, h.watched, h.pending, h.fresh, h.untouched,
    fun number hlt hnew hclosed => (h.answered number hlt hnew hclosed).more _⟩

/-- One happening. -/
theorem Serving.perform (h : s.Serving bufsiz happenings) (hrun : Run (Step bufsiz) new happenings s)
    {happening : Happening} (hpossible : s.Possible happening) :
    (∃ s', s.perform bufsiz happening = .ok s' ∧ s'.Serving bufsiz (happenings ++ [happening])) ∨
      ∃ fault s', s.perform bufsiz happening = .error (fault, s') ∧ Failed happening fault := by
  cases happening with
  | register handler cb =>
      refine Or.inl ⟨s.registerHandler handler cb, rfl, h.wellFormed, ?_, h.watched, h.pending, h.fresh, h.untouched,
        fun number hlt hnew hclosed => (h.answered number hlt hnew hclosed).more _⟩
      rw [handlersOf, List.foldl_append, ← handlersOf, ← h.handlers]
      rfl
  | start socket failed =>
      cases socket with
      | none => exact Or.inr ⟨_, s, rfl, .start⟩
      | some fd =>
          cases failed with
          | some message => exact Or.inr ⟨_, _, rfl, .listen⟩
          | none =>
              have hfree := hpossible fd rfl
              obtain ⟨hlookup, hnone⟩ := h.free hfree
              obtain ⟨select, hadd, hselect⟩ := addReadFd_ok (s :=
                { s with sockets := s.sockets.make fd .listening }) hlookup acceptCallback
              have hlookups : ∀ other, select.read.callbacks.lookup other =
                  if other = fd then some (callbackOf .listening) else s.select.read.callbacks.lookup other := hselect
              refine Or.inl ⟨_, hadd, h.made hfree hlookups (fun _ _ => rfl) ?_ ?_ ?_⟩
              · rw [hnone]
                simp
              · intro request hrequest
                rw [hnone] at hrequest
                cases hrequest
              · exact handlersOf_snoc happenings (by simp)
  | ready fd answers =>
      rw [HTTPServer.perform, h.watched]
      cases htable : s.sockets.table fd with
      | none => exact Or.inl ⟨s, rfl, h.idle (handlersOf_snoc happenings (by simp))⟩
      | some number =>
          dsimp only [Option.map_some]
          cases horigin : (s.sockets.socket number).origin with
          | accepted =>
              rw [if_neg (by decide)]
              obtain ⟨pending, hpending⟩ := Option.isSome_iff_exists.mp ((h.pending fd).mpr ⟨number, htable, horigin⟩)
              cases hread : answers.read with
              | none => exact Or.inr ⟨_, s, by rw [HTTPServer.read, hpending, hread], .read hread⟩
              | some chunk => exact Or.inl (h.read hrun hpending hread)
          | listening => exact h.accept hpossible
          | connected => exact h.accept hpossible

/-! ### Runs -/

theorem serving_run (h : Run (Step bufsiz) new happenings s) : s.Serving bufsiz happenings := by
  refine h.invariant (fun happenings s => s.Serving bufsiz happenings) (serving_new bufsiz) ?_
  rintro happenings before happening after hrun hserving ⟨hpossible, hperform⟩
  rcases hserving.perform hrun hpossible with ⟨s', hok, hserving'⟩ | ⟨fault, s', herror, -⟩
  · rw [hperform] at hok
    cases hok
    exact hserving'
  · rw [hperform] at herror
    cases herror

/-- **Every connection is answered once.** In every run, whatever descriptors are used again: the server keeps a request
for just the descriptors of accepted sockets that are open; such a socket has not been read or written; and one that
was closed was read once, and was sent the one page (one header and the texts) that the handlers registered at that
time give for what the read brought, as far as one `write` took it. The process ends only by the answer of a system
call. -/
theorem connections_answered_once (bufsiz : Nat) (happenings : List Happening) (s : HTTPServer)
    (h : Run (Step bufsiz) new happenings s) :
    (∀ fd, (s.requests fd).isSome ↔ ∃ number, s.sockets.table fd = some number ∧
      (s.sockets.socket number).origin = .accepted) ∧
    (∀ number < s.sockets.next, (s.sockets.socket number).origin = .accepted →
      (s.sockets.IsOpen number → (s.sockets.socket number).received = [] ∧ (s.sockets.socket number).sent = []) ∧
      (¬s.sockets.IsOpen number → Answered bufsiz happenings number (s.sockets.socket number))) ∧
    ∀ happening fault s', s.Possible happening → s.perform bufsiz happening = .error (fault, s') →
      Failed happening fault := by
  have hserving := serving_run h
  refine ⟨hserving.pending, fun number hlt hnew => ⟨hserving.untouched number, hserving.answered number hlt hnew⟩, ?_⟩
  intro happening fault s' hpossible hperform
  rcases hserving.perform h hpossible with ⟨s'', hok, -⟩ | ⟨fault', s'', herror, hfailed⟩
  · rw [hperform] at hok
    cases hok
  · rw [hperform] at herror
    cases herror
    exact hfailed

/-- The handler of `/foo`. -/
def foo : Handler := fun _ => [.setContentType (ascii "text/html"), .writeString (ascii "foo")]

/-- What a client sends. -/
def asking : Answers := ⟨none, 0, some (ascii "GET /foo HTTP/1.0" ++ [newline, newline]), .wrote 100⟩

/-- A client is accepted and asks for `/foo`. -/
def fooRun : List Happening :=
  [.register (ascii "foo") foo, .start (some 3) none, .ready 3 ⟨some 4, 7, none, .eagain⟩, .ready 4 asking]

theorem connections_answered_once_foo : ∃ s, Run (Step 1024) new fooRun s ∧
    (s.sockets.socket 1).sent = header 1024 200 (ascii "text/html") ++ ascii "foo" ∧
    Answered 1024 fooRun 1 (s.sockets.socket 1) := by
  have hsteps : ∃ s₁, Step 1024 new (.register (ascii "foo") foo) s₁ ∧ ∃ s₂, Step 1024 s₁ (.start (some 3) none) s₂ ∧
      ∃ s₃, Step 1024 s₂ (.ready 3 ⟨some 4, 7, none, .eagain⟩) s₃ ∧ ∃ s₄, Step 1024 s₃ (.ready 4 asking) s₄ ∧
        s₄.sockets.table = Function.update (Function.update (Function.update (fun _ => none) 3 (some 0)) 4 (some 1)) 4 none ∧
        s₄.sockets.next = 2 ∧ (s₄.sockets.socket 1).origin = .accepted ∧
        (s₄.sockets.socket 1).sent = header 1024 200 (ascii "text/html") ++ ascii "foo" := by
    refine ⟨_, ⟨trivial, rfl⟩, _, ⟨fun _ _ => rfl, rfl⟩, _, ⟨?_, rfl⟩, _, ⟨?_, rfl⟩, rfl, rfl, rfl, rfl⟩
    · rintro client ⟨⟩
      rfl
    · rintro client ⟨⟩
  obtain ⟨s₁, h₁, s₂, h₂, s₃, h₃, s₄, h₄, htable, hnext, horigin, hsent⟩ := hsteps
  have hrun : Run (Step 1024) new fooRun s₄ := ((((Run.nil _).snoc h₁).snoc h₂).snoc h₃).snoc h₄
  have hclosed : ¬s₄.sockets.IsOpen 1 := by
    rintro ⟨fd, hfd⟩
    simp only [htable, Function.update_apply] at hfd
    split at hfd
    · cases hfd
    · split at hfd
      · cases hfd
      · cases hfd
  exact ⟨s₄, hrun, hsent,
    ((connections_answered_once 1024 fooRun s₄ hrun).2.1 1 (by rw [hnext]; decide) horigin).2 hclosed⟩

end

end HTTPServer

end Thebends.Yhttp
