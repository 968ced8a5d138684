import Thebends.LibScan
import Thebends.YpeerBencode

/-! The response of a tracker (`response.cpp`). -/

namespace Thebends.Ypeer

open LibAscii LibDecimal LibScan

/-- `Peer`, whose port is not set by its constructor. -/
structure Peer where
  peerId : Chars
  ip : Chars
  port : Option Int

/-- `ResponseMessage`. -/
structure ResponseMessage where
  failureReason : Chars
  warningMessage : Chars
  interval : Int
  minInterval : Int
  trackerId : Chars
  complete : Int
  incomplete : Int
  peers : List Peer

def ResponseMessage.new : ResponseMessage := ⟨[], [], 0, 0, [], 0, 0, []⟩

/-- `be_type`. -/
inductive BeType
  | str
  | int
  | list
  | dict
  deriving DecidableEq, Repr

def BeNode.type : BeNode → BeType
  | .str _ => .str
  | .int _ => .int
  | .list _ => .list
  | .dict _ => .dict

/-- A `be_str*`. -/
inductive StrPtr
  | null
  | to (s : BeStr)
  | elsewhere

def StrPtr.isNull : StrPtr → Bool
  | .null => true
  | .to _ => false
  | .elsewhere => false

/-- `*s`. -/
def StrPtr.get : StrPtr → Except Fault BeStr
  | .null => .error .nullString
  | .to s => .ok s
  | .elsewhere => .error .notString

/-- `n->val.s`, of whatever type the node is: the members of the union lie over one another, a pointer has as many bits
as a number, and the pointer of a list or a dictionary is never null. -/
def BeNode.s : BeNode → StrPtr
  | .str none => .null
  | .str (some s) => .to s
  | .int i => if i = 0 then .null else .elsewhere
  | .list _ => .elsewhere
  | .dict _ => .elsewhere

/-- The text of the node, if it is a string: none where `n->type != BE_STR || n->val.s == NULL`. -/
def BeNode.text? (n : BeNode) : Except Fault (Option Chars) :=
  if n.type ≠ .str ∨ n.s.isNull then return none
  else do
    let s ← n.s.get
    return some s.text

/-- The number of the node, as an `int`: none where `n->type != BE_INT`. -/
def BeNode.int? : BeNode → Option Int
  | .int i => some i.toInt32.toInt
  | _ => none

/-- A value is stored, or the loop returns false. -/
def store {α σ : Type} (state : σ) (value : Option α) (set : α → σ) : Option Bool × σ :=
  match value with
  | none => (some false, state)
  | some value => (none, set value)

/-! ### Peers -/

/-- A turn of the loop in `ParseDictPeer`; every entry has a key. -/
def peerEntry (entry : BeStr × BeNode) (peer : Peer) : Except Fault (Option Bool × Peer) :=
  let (str, n) := entry
  let key := str.text
  if key = ascii "peer id" then do
    return store peer (← n.text?) fun s => { peer with peerId := s }
  else if key = ascii "ip" then do
    return store peer (← n.text?) fun s => { peer with ip := s }
  else if key = ascii "port" then return store peer n.int? fun i => { peer with port := some i }
  else return (none, peer)

/-- `ParseDictPeer`. -/
def parseDictPeer (dict : List (BeStr × BeNode)) (peer : Peer) : Except Fault (Bool × Peer) :=
  scan peerEntry true dict peer

/-- A turn of the loop in `ParseListPeers`. -/
def listPeer (n : BeNode) (peers : List Peer) : Except Fault (Option Bool × List Peer) :=
  match n with
  | .dict d => do
      let (ok, peer) ← parseDictPeer d ⟨[], [], none⟩
      return if ok then (none, peers ++ [peer]) else (some false, [])
  | _ => return (some false, [])

/-- `ParseListPeers`. -/
def parseListPeers (l : List BeNode) (peers : List Peer) : Except Fault (Bool × List Peer) :=
  scan listPeer true l peers

/-- A `char`. -/
def signed (c : UInt8) : Int := c.toInt8.toInt

/-- `ntohs` on a little-endian host, of an `int`. -/
def ntohs (i : Int) : Nat :=
  let n := (i % 2 ^ 16).toNat
  n % 256 * 256 + n / 256

/-- `inet_ntoa`. -/
def inetNtoa (addr : Chars) : Chars := [byte '.'].intercalate (addr.map fun c => numeral c.toNat)

/-- The peer of a turn of the loop in `ParseBinaryPeers`. -/
def binaryPeer (data : Chars) (i : Nat) : Peer :=
  let ip := (data.drop (i * 6)).take 4
  let port := (data.drop (i * 6 + 4)).take 2
  ⟨[], inetNtoa ip, some (ntohs (signed (port.getD 1 0) * 2 ^ 8 + signed (port.getD 0 0)))⟩

/-- The loop of `ParseBinaryPeers`, in so many turns; its positions are of type `int`. -/
def binaryPeers (data : Chars) (peers : List Peer) : Nat → Except Fault (List Peer)
  | 0 => .ok peers
  | i + 1 => do
      let peers ← binaryPeers data peers i
      if i * 6 + 4 < 2 ^ 31 then return peers ++ [binaryPeer data i]
      else .error .overflow

/-- `ParseBinaryPeers`, of the characters of a string; their number is stored in an `int`. -/
def parseBinaryPeers (data : Chars) (peers : List Peer) : Except Fault (Bool × List Peer) :=
  if data.length % 6 ≠ 0 then return (false, peers)
  else do
    let count := Int.bmod (data.length / 6 : Nat) (2 ^ 32)
    let peers ← binaryPeers data peers count.toNat
    return (true, peers)

/-! ### The message -/

/-- The value of `peers`. -/
def parsePeers (n : BeNode) (peers : List Peer) : Except Fault (Bool × List Peer) :=
  if n.type = .str ∨ n.s.isNull then do
    let s ← n.s.get
    parseBinaryPeers s.s peers
  else
    match n with
    | .list l => parseListPeers l peers
    | _ => return (false, peers)

/-- A turn of the loop in `ParseResponseMessage`. -/
def messageEntry (entry : BeStr × BeNode) (response : ResponseMessage) :
    Except Fault (Option Bool × ResponseMessage) :=
  let (str, n) := entry
  let key := str.text
  if key = ascii "failure reason" then do
    match ← n.text? with
    | none => return (some false, response)
    | some s => return (some true, { response with failureReason := s })
  else if key = ascii "warning message" then do
    return store response (← n.text?) fun s => { response with warningMessage := s }
  else if key = ascii "interval" then return store response n.int? fun i => { response with interval := i }
  else if key = ascii "min interval" then return store response n.int? fun i => { response with minInterval := i }
  else if key = ascii "tracker id" then do
    return store response (← n.text?) fun s => { response with trackerId := s }
  else if key = ascii "complete" then return store response n.int? fun i => { response with complete := i }
  else if key = ascii "incomplete" then return store response n.int? fun i => { response with incomplete := i }
  else if key = ascii "peers" then do
    let (ok, peers) ← parsePeers n response.peers
    return (if ok then none else some false, { response with peers })
  else return (none, response)

/-- `ParseResponseMessage`, of a tree. -/
def parseNode (node : BeNode) (response : ResponseMessage) : Except Fault (Bool × ResponseMessage) := do
  match node with
  | .dict dict =>
      let result ← scan messageEntry true dict response
      beFree node
      return result
  | _ =>
      beFree node
      return (false, response)

/-- `ParseResponseMessage`. -/
def parseResponseMessage (turns : Nat) (message : Chars) (response : ResponseMessage) :
    Except Fault (Bool × ResponseMessage) := do
  let (node, _) ← beDecode turns (message ++ [0])
  match node with
  | none => return (false, response)
  | some node => parseNode node response

end Thebends.Ypeer
