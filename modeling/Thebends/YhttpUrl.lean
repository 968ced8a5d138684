import Thebends.LibAscii
import Thebends.LibMap

/-! The URLs of the web server (`url.cpp`, with `Split` of `util.cpp`). The stages of the parser take what they know
off the front of what is left of the string, and write to the fields even where they fail. -/

namespace Thebends.Yhttp

open LibAscii LibDecimal LibMap

abbrev Bytes := List UInt8

/-! ### Characters -/

def isLowAlpha (c : UInt8) : Bool := isAlpha c && isLower c

def isSafe (c : UInt8) : Bool := (ascii "$-_.+").contains c

def isExtra (c : UInt8) : Bool := (ascii "!*'(),").contains c

def isEscape (c : UInt8) : Bool := c = byte '%'

def isUnreserved (c : UInt8) : Bool := isAlpha c || isDigit c || isSafe c || isExtra c

def isReserved (c : UInt8) : Bool := (ascii ";/?:@&=").contains c

def isScheme (c : UInt8) : Bool := isLowAlpha c || isDigit c || (ascii "+-.").contains c

def isXChar (c : UInt8) : Bool := isUnreserved c || isReserved c || isEscape c

def isUChar (c : UInt8) : Bool := isUnreserved c || isEscape c

def isUser (c : UInt8) : Bool := isUChar c || (ascii ";?&=").contains c

def isHost (c : UInt8) : Bool := isAlpha c || isDigit c || (ascii "-.").contains c

/-! ### Strings -/

/-- A `size_t` that is stored in an `int`. -/
def sizeToInt (size : Nat) : Int := Int.bmod size (2 ^ 32)

/-- A piece that is not empty is pushed. -/
def push (piece : Bytes) : List Bytes := if piece = [] then [] else [piece]

/-- The loop of `Split`, with what has come since the last separator. -/
def splitFrom (c : UInt8) (piece : Bytes) : Bytes → List Bytes
  | [] => push piece
  | d :: rest => if d = c then push piece ++ splitFrom c [] rest else splitFrom c (piece ++ [d]) rest

/-- `Split`. -/
def split (message : Bytes) (c : UInt8) : List Bytes := splitFrom c [] message

/-- `hextodec`, of a digit in lower case. -/
def hexToDec (c : UInt8) : UInt8 := if isDigit c then c - byte '0' else c - byte 'a' + 10

/-- `Unescape`, from `cur` on: an escape needs two more characters in the string. -/
def unescape : Bytes → Bytes
  | [] => []
  | [c] => [c]
  | [c, d] => [c, d]
  | c :: a :: b :: rest =>
      if c = byte '%' ∧ isXDigit (toLower a) ∧ isXDigit (toLower b) then
        (16 * hexToDec (toLower a) + hexToDec (toLower b)) :: unescape rest
      else c :: unescape (a :: b :: rest)

/-- `strtoul` of a string of digits. -/
def strtoul (digits : Bytes) : Nat := min (valueFrom 0 digits) (2 ^ 64 - 1)

/-! ### The stages -/

/-- `ConsumeScheme`: what is left of the string, and the scheme. -/
def consumeScheme (url scheme : Bytes) : Bool × Bytes × Bytes :=
  let start := url.takeWhile isScheme
  if start = [] then (false, url, scheme)
  else
    let rest := url.drop start.length
    if ¬ascii "://" <+: rest then (false, rest, start)
    else (true, rest.drop 3, start)

/-- `ConsumeUserPass`; the last character is not looked at by its loop. -/
def consumeUserPass (url token : Bytes) : Bool × Bytes × Bytes :=
  let start := url.dropLast.takeWhile fun c => isUser c || isHost c || c = byte ':'
  if start = [] then (false, url, token)
  else if url[start.length]? ≠ some (byte '@') then (false, url, token)
  else (true, url.drop (start.length + 1), start)

/-- What `ConsumeLogin` writes to. -/
structure Login where
  user : Bytes
  password : Bytes
  host : Bytes
  port : UInt32

/-- The host and the port, up to the path. -/
def consumeHost (url : Bytes) (login : Login) : Bool × Bytes × Login :=
  if url = [] then (false, url, login)
  else
    let host := url.takeWhile (· ≠ byte '/')
    let rest := url.drop host.length
    let login := { login with host }
    match split host (byte ':') with
    | [_] => if host.all isHost then (true, rest, { login with port := 80 }) else (false, rest, login)
    | [name, port] =>
        let login := { login with host := name }
        if !name.all isHost then (false, rest, login)
        else if port = [] then (false, rest, login)
        else if !port.all isDigit then (false, rest, login)
        else (true, rest, { login with port := .ofNat (strtoul port) })
    | _ => (false, rest, login)

/-- `ConsumeLogin`. -/
def consumeLogin (url : Bytes) (login : Login) : Bool × Bytes × Login :=
  if url = [] then (false, url, login)
  else match consumeUserPass url login.user with
  | (false, url, _) => consumeHost url login
  | (true, url, token) =>
      let login := { login with user := token }
      if url = [] then (false, url, login)
      else match split token (byte ':') with
      | [user] => consumeHost url { login with user }
      | [user, password] => consumeHost url { login with user, password }
      | _ => (false, url, login)

abbrev ParamMap := Map Bytes Bytes

/-- The loop over the pairs of a query. -/
def consumeParams (params : ParamMap) : List Bytes → Bool × ParamMap
  | [] => (true, params)
  | pair :: pairs =>
      match split pair (byte '=') with
      | [key] => if key = [] then (false, params) else consumeParams (params.insert key []) pairs
      | [key, value] => if key = [] then (false, params) else consumeParams (params.insert key (unescape value)) pairs
      | _ => (false, params)

/-- `ConsumePath`: the path, the query and the parameters. -/
def consumePath (url path query : Bytes) (params : ParamMap) : Bool × Bytes × Bytes × ParamMap :=
  let url := url.dropWhile (· = byte '/')
  if !url.all isXChar then (false, path, query, params)
  else
    let path := url.takeWhile (· ≠ byte '?')
    let query := url.drop (path.length + 1)
    let (ok, params) := consumeParams params (split query (byte '&'))
    (ok, path, query, params)

/-! ### URLs -/

/-- `URL`. -/
structure URL where
  valid : Bool
  scheme : Bytes
  user : Bytes
  password : Bytes
  host : Bytes
  port : UInt32
  path : Bytes
  query : Bytes
  params : ParamMap

/-- `Parse`. The map of the parameters is not cleared. -/
def URL.parse (u : URL) (url : Bytes) : URL :=
  let u := { u with
    valid := false, scheme := [], user := [], password := [], host := [], port := 0, path := [], query := [] }
  match consumeScheme url u.scheme with
  | (false, _, scheme) => { u with scheme }
  | (true, tmp, scheme) =>
      match consumeLogin tmp ⟨u.user, u.password, u.host, u.port⟩ with
      | (false, _, login) =>
          { u with scheme, user := login.user, password := login.password, host := login.host, port := login.port }
      | (true, tmp, login) =>
          let (ok, path, query, params) := consumePath tmp u.path u.query u.params
          { valid := ok, scheme, user := login.user, password := login.password, host := login.host, port := login.port,
            path, query, params }

/-- `URL()`, which leaves the port as it is in memory. -/
def URL.blank (port : UInt32) : URL := ⟨false, [], [], [], [], port, [], [], ∅⟩

/-- `URL(url)`. -/
def URL.new (port : UInt32) (url : Bytes) : URL := (URL.blank port).parse url

end Thebends.Yhttp
