import Thebends.LibNetOrder
import Thebends.YnetBuffer

/-! The messages of btunnel and how they are written to and read from a buffer (`encoding.cpp`,
`peer_message.h`, `peer_message.cpp`, and the writer of `peer.cpp`). A read that finds too few bytes returns
zero, and puts back what was read before it. -/

namespace Thebends.Btunnel

open LibNetOrder Ynet

/-! ### Strings -/

/-- `ReadString` into a string that is given: the return value, and the string then. -/
def readString (b : Buffer) (maxLength : Int) (input : Bytes) : Except Fault (Int × Bytes × Buffer) := do
  check (maxLength > 0)
  let (data, b) ← b.read 2
  match data with
  | none => return (0, input, b)
  | some data =>
      let length := (Int16.ofBitVec (BitVec.ofNat 16 (ofNetwork data))).toInt
      if length > maxLength then
        let (_, b) ← b.unadvance 2
        return (-1, input, b)
      else
        let (buf, b) ← b.read length
        match buf with
        | none =>
            let (_, b) ← b.unadvance 2
            return (0, input, b)
        | some buf => return (2 + length, buf, b)

/-- `WriteString`. -/
def writeString (b : Buffer) (maxLength : Int) (output : Bytes) : Except Fault (Int × Buffer) := do
  check (maxLength > 0)
  if output.length > maxLength then return (-1, b)
  else
    let (done, b) ← b.write (toNetwork 2 output.length)
    if !done then return (-1, b)
    else
      let (done, b) ← b.write output
      if !done then return (-1, b)
      else return (2 + output.length, b)

/-! ### Requests -/

def kMaxServiceId : Int := 0x7fffffff
def kMaxNameLen : Int := 1024
def kMaxTypeLen : Int := 1024
def kMaxTextLen : Int := 8 * 1024
def kMaxBufLen : Int := 1300

structure RegisterRequest where
  serviceId : Int32
  name : Bytes
  type : Bytes
  txtRecords : Bytes
  deriving DecidableEq

structure UnregisterRequest where
  serviceId : Int32
  deriving DecidableEq

structure ForwardRequest where
  serviceId : Int32
  sessionId : Int32
  buffer : Bytes
  deriving DecidableEq

/-- The one byte in front of a message. -/
inductive MessageType
  | register
  | unregister
  | forward
  deriving DecidableEq

def MessageType.byte : MessageType → UInt8
  | .register => 0x10
  | .unregister => 0x11
  | .forward => 0x20

/-- `Read` of an `int32_t`, and `ntohl`. -/
def readInt (b : Buffer) : Except Fault (Option Int32 × Buffer) := do
  let (data, b) ← b.read 4
  return (data.map fun data => Int32.ofBitVec (BitVec.ofNat 32 (ofNetwork data)), b)

/-- `htonl`, and `Write` of an `int32_t`. -/
def writeInt (b : Buffer) (value : Int32) : Except Fault (Bool × Buffer) := b.write (toNetwork 4 value.toBitVec.toNat)

/-- `ReadRegister`. -/
def readRegister (b : Buffer) (request : RegisterRequest) : Except Fault (Int × RegisterRequest × Buffer) := do
  let (serviceId, b) ← readInt b
  match serviceId with
  | none => return (0, request, b)
  | some serviceId =>
      let request := { request with serviceId := serviceId }
      let nbytes : Int := 4
      let (ret, name, b) ← readString b kMaxNameLen request.name
      let request := { request with name := name }
      if ret ≤ 0 then
        let (_, b) ← b.unadvance nbytes
        return (ret, request, b)
      else
        let nbytes := nbytes + ret
        let (ret, type, b) ← readString b kMaxTypeLen request.type
        let request := { request with type := type }
        if ret ≤ 0 then
          let (_, b) ← b.unadvance nbytes
          return (ret, request, b)
        else
          let nbytes := nbytes + ret
          let (ret, txtRecords, b) ← readString b kMaxTextLen request.txtRecords
          let request := { request with txtRecords := txtRecords }
          -- here a string that has not arrived yet is no reason to go back
          if ret < 0 then
            let (_, b) ← b.unadvance nbytes
            return (ret, request, b)
          else return (nbytes + ret, request, b)

/-- `WriteRegister`. -/
def writeRegister (b : Buffer) (request : RegisterRequest) : Except Fault (Int × Buffer) := do
  let (done, b) ← writeInt b request.serviceId
  if !done then return (-1, b)
  else
    let nbytes : Int := 4
    let (ret, b) ← writeString b kMaxNameLen request.name
    if ret ≤ 0 then return (-1, b)
    else
      let nbytes := nbytes + ret
      let (ret, b) ← writeString b kMaxTypeLen request.type
      if ret ≤ 0 then return (-1, b)
      else
        let nbytes := nbytes + ret
        let (ret, b) ← writeString b kMaxTextLen request.txtRecords
        if ret ≤ 0 then return (-1, b)
        else return (nbytes + ret, b)

/-- `ReadUnregister`. -/
def readUnregister (b : Buffer) (request : UnregisterRequest) : Except Fault (Int × UnregisterRequest × Buffer) := do
  let (serviceId, b) ← readInt b
  match serviceId with
  | none => return (0, request, b)
  | some serviceId => return (4, { request with serviceId := serviceId }, b)

/-- `WriteUnregister`. -/
def writeUnregister (b : Buffer) (request : UnregisterRequest) : Except Fault (Int × Buffer) := do
  let (done, b) ← writeInt b request.serviceId
  if !done then return (-1, b)
  else return (4, b)

/-- `ReadForward`. -/
def readForward (b : Buffer) (request : ForwardRequest) : Except Fault (Int × ForwardRequest × Buffer) := do
  let (serviceId, b) ← readInt b
  match serviceId with
  | none => return (0, request, b)
  | some serviceId =>
      let request := { request with serviceId := serviceId }
      let nbytes : Int := 4
      let (sessionId, b) ← readInt b
      match sessionId with
      | none =>
          let (_, b) ← b.unadvance nbytes
          return (0, request, b)
      | some sessionId =>
          let request := { request with sessionId := sessionId }
          let nbytes := nbytes + 4
          let (ret, buffer, b) ← readString b kMaxBufLen request.buffer
          let request := { request with buffer := buffer }
          if ret ≤ 0 then
            let (_, b) ← b.unadvance nbytes
            return (ret, request, b)
          else return (nbytes + ret, request, b)

/-- `WriteForward`. -/
def writeForward (b : Buffer) (request : ForwardRequest) : Except Fault (Int × Buffer) := do
  let (done, b) ← writeInt b request.serviceId
  if !done then return (-1, b)
  else
    let nbytes : Int := 4
    let (done, b) ← writeInt b request.sessionId
    if !done then return (-1, b)
    else
      let nbytes := nbytes + 4
      let (ret, b) ← writeString b kMaxBufLen request.buffer
      if ret ≤ 0 then return (-1, b)
      else return (nbytes + ret, b)

/-! ### The writer and the reader -/

inductive Request
  | register (request : RegisterRequest)
  | unregister (request : UnregisterRequest)
  | forward (request : ForwardRequest)
  deriving DecidableEq

namespace PeerMessageWriter

/-- The type byte, and then the body. -/
def send (b : Buffer) (type : MessageType) (body : Buffer → Except Fault (Int × Buffer)) :
    Except Fault (Bool × Buffer) := do
  let (done, b) ← b.write [type.byte]
  if !done then return (false, b)
  else
    let (ret, b) ← body b
    if ret < 0 then return (false, b)
    else return (true, b)

/-- `PeerMessageWriter::Register`. -/
def register (b : Buffer) (request : RegisterRequest) : Except Fault (Bool × Buffer) :=
  send b .register fun b => writeRegister b request

/-- `PeerMessageWriter::Unregister`. -/
def unregister (b : Buffer) (request : UnregisterRequest) : Except Fault (Bool × Buffer) :=
  send b .unregister fun b => writeUnregister b request

/-- `PeerMessageWriter::Forward`. -/
def forward (b : Buffer) (request : ForwardRequest) : Except Fault (Bool × Buffer) :=
  send b .forward fun b => writeForward b request

def write (b : Buffer) : Request → Except Fault (Bool × Buffer)
  | .register request => register b request
  | .unregister request => unregister b request
  | .forward request => forward b request

/-- Sends requests one after another, and collects what the writer returned. -/
def writeAll (b : Buffer) : List Request → Except Fault (List Bool × Buffer)
  | [] => .ok ([], b)
  | request :: requests => do
      let (done, b) ← write b request
      let (rest, b) ← writeAll b requests
      return (done :: rest, b)

end PeerMessageWriter

/-- A call of a peer: the socket and the request. -/
abbrev Invocation := Int × Request

/-- What a peer answers to a call, after the calls made before it. -/
abbrev Peer := List Invocation → Invocation → Bool

namespace MessageReader

/-- What the handlers do with a request that was read: the return value and the calls made so far. -/
def handle (peer : Peer) (sock : Int) (calls : List Invocation) (nbytes : Int) (request : Request) :
    Int × List Invocation :=
  if nbytes > 0 then
    if !peer calls (sock, request) then (-1, calls ++ [(sock, request)])
    else (nbytes, calls ++ [(sock, request)])
  else (nbytes, calls)

/-- `HandleRegister`. -/
def handleRegister (peer : Peer) (sock : Int) (calls : List Invocation) (b : Buffer) :
    Except Fault (Int × List Invocation × Buffer) := do
  let (nbytes, request, b) ← readRegister b ⟨0, [], [], []⟩
  let (nbytes, calls) := handle peer sock calls nbytes (.register request)
  return (nbytes, calls, b)

/-- `HandleUnregister`. -/
def handleUnregister (peer : Peer) (sock : Int) (calls : List Invocation) (b : Buffer) :
    Except Fault (Int × List Invocation × Buffer) := do
  let (nbytes, request, b) ← readUnregister b ⟨0⟩
  let (nbytes, calls) := handle peer sock calls nbytes (.unregister request)
  return (nbytes, calls, b)

/-- `HandleForward`. -/
def handleForward (peer : Peer) (sock : Int) (calls : List Invocation) (b : Buffer) :
    Except Fault (Int × List Invocation × Buffer) := do
  let (nbytes, request, b) ← readForward b ⟨0, 0, []⟩
  let (nbytes, calls) := handle peer sock calls nbytes (.forward request)
  return (nbytes, calls, b)

/-- The handler for a type byte. -/
def handler (type : UInt8) :
    Option (Peer → Int → List Invocation → Buffer → Except Fault (Int × List Invocation × Buffer)) :=
  if type = MessageType.register.byte then some handleRegister
  else if type = MessageType.unregister.byte then some handleUnregister
  else if type = MessageType.forward.byte then some handleForward
  else none

/-- `MessageReader::Read`. -/
def read (peer : Peer) (sock : Int) (calls : List Invocation) (b : Buffer) :
    Except Fault (Int × List Invocation × Buffer) := do
  let (type, b) ← b.read 1
  match type with
  | none => return (0, calls, b)
  | some type =>
      match handler (type.headD 0xff) with
      | none => return (-1, calls, b)
      | some handleMessage =>
          let (nbytes, calls, b) ← handleMessage peer sock calls b
          if nbytes = 0 then
            let (_, b) ← b.unadvance 1
            return (0, calls, b)
          else return (nbytes, calls, b)

/-- Calls `Read` until it returns zero, at most `fuel` times, and collects what it returned before. -/
def readAll (peer : Peer) (sock : Int) : Nat → List Invocation → Buffer →
    Except Fault (List Int × List Invocation × Buffer)
  | 0, _, _ => .error .endless
  | fuel + 1, calls, b => do
      let (nbytes, calls, b) ← read peer sock calls b
      if nbytes = 0 then return ([], calls, b)
      else
        let (rest, calls, b) ← readAll peer sock fuel calls b
        return (nbytes :: rest, calls, b)

end MessageReader

end Thebends.Btunnel
