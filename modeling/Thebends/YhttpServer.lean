import Thebends.LibCString
import Thebends.LibSockets
import Thebends.YhttpRequest
import Thebends.YnetBuffer
import Thebends.YnetBufferedWriter

/-! The HTTP server (`httpserver.cpp`, `writer.cpp`): its callbacks in any order, for handlers that reply before they
return. What the system calls answer is an input. -/

namespace Thebends.Yhttp

open LibAscii LibDecimal LibMap LibSockets LibRun
open Ynet (Select Fd Callback Fault Outcome)

/-! ### Answers -/

/-- What a handler calls on its request, before `Reply`. -/
inductive Action
  | setResponseCode (code : Int)
  | setContentType (type : Bytes)
  | writeString (output : Bytes)

/-- What `Request` keeps of its answer; the output is the buffer of its `Writer`. -/
structure Response where
  wroteHeader : Bool
  responseCode : Int
  contentType : Bytes
  output : Bytes

def Response.new : Response := ⟨false, 200, ascii "text/plain", []⟩

/-- `%d`. -/
def decimal (n : Int) : Bytes := if n < 0 then byte '-' :: numeral n.natAbs else numeral n.natAbs

/-- What `snprintf` leaves of a text in an array of `BUFSIZ` bytes. -/
def formatted (bufsiz : Nat) (text : Bytes) : Bytes := text.take (bufsiz - 1)

/-- What `WriteHeader` writes. -/
def header (bufsiz : Nat) (code : Int) (type : Bytes) : Bytes :=
  formatted bufsiz (ascii "HTTP/1.0 " ++ decimal code ++ ascii " OK\r\n") ++
    formatted bufsiz (ascii "Content-Type: " ++ LibCString.textOf 0 type ++ ascii "\r\n\r\n")

/-- `SetResponseCode`, `SetContentType` and `WriteString`. -/
def Response.act (bufsiz : Nat) (r : Response) : Action → Response
  | .setResponseCode code => { r with responseCode := code }
  | .setContentType type => { r with contentType := type }
  | .writeString output =>
      let r :=
        if !r.wroteHeader then
          { r with output := r.output ++ header bufsiz r.responseCode r.contentType, wroteHeader := true }
        else r
      { r with output := r.output ++ output }

def Response.run (bufsiz : Nat) (r : Response) (actions : List Action) : Response := actions.foldl (act bufsiz) r

/-- `Error`. -/
def error : List Action :=
  [.setResponseCode 500, .setContentType (ascii "text/html"), .writeString (ascii "<html><body>error</body></html>")]

/-- `NotFound`. -/
def notFound : List Action :=
  [.setResponseCode 404, .setContentType (ascii "text/html"), .writeString (ascii "<html><body>not found</body></html>")]

/-- A handler, by what it calls on a request with some URL. -/
abbrev Handler := URL → List Action

abbrev HandlerMap := Map Bytes Handler

/-- What is called on a request that is read: what `Error`, `NotFound` or the handler calls. -/
def actionsFor (handlers : HandlerMap) (request : Request) : Answer → List Action
  | .error => error
  | .notFound => notFound
  | .handler path =>
      match handlers.lookup path with
      | none => notFound
      | some handler => handler request.url

/-! ### The server -/

/-- A `Request`. -/
structure Pending where
  request : Request
  response : Response

/-- `HTTPServer`, with the `Select` it points to and the sockets of the process. -/
structure HTTPServer where
  select : Select
  sockets : Sockets
  handlers : HandlerMap
  requests : Fd → Option Pending

/-- What the system calls of one callback answer: `accept` returns a descriptor, `read` some bytes (none at the end of
the stream); and what the memory of a new request holds. -/
structure Answers where
  accept : Option Fd
  memory : UInt32
  read : Option Bytes
  write : Outcome

/-- What `write` takes of some output. -/
def taken (output : Bytes) : Outcome → Bytes
  | .wrote count => output.take count
  | _ => []

inductive Happening
  | register (handler : Bytes) (cb : Handler)
  | start (socket : Option Fd) (failed : Option String)
  | ready (fd : Fd) (answers : Answers)

namespace HTTPServer

/-- How the process ended, and what it left. -/
abbrev Halt := Fault × HTTPServer

def acceptCallback : Callback := 0

def readCallback : Callback := 1

def new : HTTPServer := ⟨Select.new, Sockets.empty, ∅, fun _ => none⟩

/-- `RegisterHandler`. -/
def registerHandler (s : HTTPServer) (handler : Bytes) (cb : Handler) : HTTPServer :=
  { s with handlers := s.handlers.insert handler cb }

def addReadFd (s : HTTPServer) (fd : Fd) (cb : Callback) : Except Halt HTTPServer :=
  match s.select.addReadFd fd cb with
  | .error message => .error (.exit message, s)
  | .ok select => .ok { s with select := select }

/-- `Start`, where one of the calls after `socket` may fail. -/
def start (s : HTTPServer) (socket : Option Fd) (failed : Option String) : Except Halt HTTPServer :=
  match socket with
  | none => .error (.exit "socket()", s)
  | some fd =>
      let s := { s with sockets := s.sockets.make fd .listening }
      match failed with
      | some message => .error (.exit message, s)
      | none => s.addReadFd fd acceptCallback

/-- `Accept`. -/
def accept (s : HTTPServer) (answers : Answers) : Except Halt HTTPServer :=
  match answers.accept with
  | none => .error (.exit "accept", s)
  | some client =>
      let s := { s with sockets := s.sockets.make client .accepted }
      if (s.requests client).isSome then .error (.exit s!"Accept on duplicate socket: {client}\n", s)
      else
        addReadFd
          { s with requests := Function.update s.requests client (some ⟨.new answers.memory, .new⟩) } client readCallback

/-- `Close`. -/
def close (s : HTTPServer) (sock : Fd) : Except Halt HTTPServer :=
  match s.select.removeReadFd sock with
  | .error message => .error (.exit message, s)
  | .ok select =>
      .ok { s with select := select, sockets := s.sockets.close sock, requests := Function.update s.requests sock none }

/-- `Reply`. Whatever `write` returns, the rest of the output is not written any more. -/
def reply (s : HTTPServer) (sock : Fd) (output : Bytes) (outcome : Outcome) : Except Halt HTTPServer :=
  close { s with sockets := s.sockets.send sock (taken output outcome) } sock

/-- `Read`. A `read` that fails is taken for one of 2^64 - 1 bytes. -/
def read (bufsiz : Nat) (s : HTTPServer) (sock : Fd) (answers : Answers) : Except Halt HTTPServer :=
  match s.requests sock with
  | none => .error (.exit s!"Read on unknown client_sock: {sock}", s)
  | some pending =>
      match answers.read with
      | none => .error (.outOfBounds, s)
      | some chunk =>
          let request := pending.request.read chunk
          let s :=
            { s with
              sockets := s.sockets.receive sock chunk,
              requests := Function.update s.requests sock (some { pending with request := request }) }
          match request.answer s.handlers.keys with
          | none => .ok s
          | some answer =>
              s.reply sock (pending.response.run bufsiz (actionsFor s.handlers request answer)).output answers.write

/-- The loop executes the callback that is registered by now, if there is one. -/
def perform (bufsiz : Nat) (s : HTTPServer) : Happening → Except Halt HTTPServer
  | .register handler cb => .ok (s.registerHandler handler cb)
  | .start socket failed => s.start socket failed
  | .ready fd answers =>
      match s.select.read.callbacks.lookup fd with
      | none => .ok s
      | some cb => if cb = acceptCallback then s.accept answers else s.read bufsiz fd answers

/-- The system returns free descriptors. -/
def Possible (s : HTTPServer) : Happening → Prop
  | .register _ _ => True
  | .start socket _ => ∀ fd, socket = some fd → s.sockets.table fd = none
  | .ready _ answers => ∀ client, answers.accept = some client → s.sockets.table client = none

def Step (bufsiz : Nat) (s : HTTPServer) (happening : Happening) (s' : HTTPServer) : Prop :=
  s.Possible happening ∧ s.perform bufsiz happening = .ok s'

end HTTPServer

/-! ### What an answer looks like -/

/-- The settings before the first text count, then come all texts. -/
structure Document where
  code : Int
  type : Bytes
  texts : List Bytes

/-- What some actions say. -/
def documentOf (code : Int) (type : Bytes) : List Action → Document
  | [] => ⟨code, type, []⟩
  | .setResponseCode code :: actions => documentOf code type actions
  | .setContentType type :: actions => documentOf code type actions
  | .writeString text :: actions =>
      ⟨code, type, text :: actions.filterMap fun
        | .writeString text => some text
        | _ => none⟩

/-- One header and the texts, or nothing. -/
def Document.bytes (bufsiz : Nat) (d : Document) : Bytes :=
  if d.texts = [] then [] else header bufsiz d.code d.type ++ d.texts.flatten

/-- Once the header is written, settings make no difference. -/
theorem run_written (bufsiz : Nat) (r : Response) (h : r.wroteHeader = true) (actions : List Action) :
    (r.run bufsiz actions).output = r.output ++ (actions.filterMap fun
      | .writeString text => some text
      | _ => none).flatten := by
  induction actions generalizing r with
  | nil => exact (List.append_nil _).symm
  | cons action actions ih =>
      rw [Response.run, List.foldl_cons, ← Response.run]
      cases action with
      | setResponseCode code =>
          rw [ih (r.act bufsiz (.setResponseCode code)) h]
          rfl
      | setContentType type =>
          rw [ih (r.act bufsiz (.setContentType type)) h]
          rfl
      | writeString text =>
          obtain ⟨wrote, code, type, output⟩ := r
          dsimp only at h
          subst h
          have hact : Response.act bufsiz ⟨true, code, type, output⟩ (.writeString text) =
              ⟨true, code, type, output ++ text⟩ := rfl
          rw [hact, ih _ rfl, List.append_assoc]
          rfl

/-- A header is written once, for what was set before the first text. -/
theorem run_document (bufsiz : Nat) (code : Int) (type : Bytes) (actions : List Action) :
    (Response.run bufsiz ⟨false, code, type, []⟩ actions).output = (documentOf code type actions).bytes bufsiz := by
  induction actions generalizing code type with
  | nil => rfl
  | cons action actions ih =>
      rw [Response.run, List.foldl_cons, ← Response.run]
      cases action with
      | setResponseCode other => exact ih other type
      | setContentType other => exact ih code other
      | writeString text =>
          have hwritten := run_written bufsiz ⟨true, code, type, header bufsiz code type ++ text⟩ rfl actions
          rw [documentOf, Document.bytes, if_neg (List.cons_ne_nil _ _), List.flatten_cons, ← List.append_assoc]
          exact hwritten

end Thebends.Yhttp
