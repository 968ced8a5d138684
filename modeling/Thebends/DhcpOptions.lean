import Thebends.LibNetOrder

/-! The DHCP options (`options.h` and `options.c`). The memory from the start of the buffer on is a function, so
that the parser may read past the end of the buffer; the writer gives the bytes that it has written. Warnings
are left out. -/

namespace Thebends.Dhcp

open LibNetOrder

abbrev Bytes := List UInt8

inductive Fault
  | assertion
  | outOfBounds
  deriving DecidableEq, Repr

/-- `assert`. -/
def check (condition : Bool) : Except Fault Unit := if condition then .ok () else .error .assertion

@[match_pattern] def dhcpPad : UInt8 := 0

@[match_pattern] def dhcpSubnetMask : UInt8 := 1

@[match_pattern] def dhcpRouter : UInt8 := 3

@[match_pattern] def dhcpDns : UInt8 := 6

@[match_pattern] def dhcpDomain : UInt8 := 15

@[match_pattern] def dhcpHostName : UInt8 := 12

@[match_pattern] def dhcpRequestedIp : UInt8 := 50

@[match_pattern] def dhcpLeaseTime : UInt8 := 51

@[match_pattern] def dhcpOverload : UInt8 := 52

@[match_pattern] def dhcpMessageType : UInt8 := 53

@[match_pattern] def dhcpServerId : UInt8 := 54

@[match_pattern] def dhcpParameterList : UInt8 := 55

@[match_pattern] def dhcpMaxSize : UInt8 := 57

@[match_pattern] def dhcpClientId : UInt8 := 61

@[match_pattern] def dhcpEnd : UInt8 := 255

/-- `OPTION_FIELD_MAX`. -/
abbrev optionFieldMax : Nat := 64

/-- `struct options`. -/
structure Options where
  messageType : UInt8
  maxSize : UInt16
  hostname : Vector UInt8 optionFieldMax
  requestedIp : UInt32
  leaseTime : UInt32
  serverId : UInt32
  subnet : UInt32
  routerNum : UInt8
  router : Vector UInt32 optionFieldMax
  dnsNum : UInt8
  dns : Vector UInt32 optionFieldMax
  domain : Vector UInt8 optionFieldMax
  clientIdType : UInt8
  clientIdLength : UInt8
  clientId : Vector UInt8 optionFieldMax
  paramSize : UInt8
  paramList : Vector UInt8 optionFieldMax

/-- `memset` to zero. -/
def Options.zeroed : Options where
  messageType := 0
  maxSize := 0
  hostname := .replicate _ 0
  requestedIp := 0
  leaseTime := 0
  serverId := 0
  subnet := 0
  routerNum := 0
  router := .replicate _ 0
  dnsNum := 0
  dns := .replicate _ 0
  domain := .replicate _ 0
  clientIdType := 0
  clientIdLength := 0
  clientId := .replicate _ 0
  paramSize := 0
  paramList := .replicate _ 0

/-! ### Reading -/

/-- Writes the first elements of an array. No caller writes more than it has. -/
def fill {α : Type} (array : Vector α optionFieldMax) (count : Nat) (value : Nat → α) : Vector α optionFieldMax :=
  .ofFn fun index => if index.val < count then value index else array[index]

/-- `strncpy`, which fills up with zeros. -/
def strncpy (array : Vector UInt8 optionFieldMax) (source : Nat → UInt8) (len : Nat) : Vector UInt8 optionFieldMax :=
  fill array len fun index => if ∀ before < index, source before ≠ 0 then source index else 0

/-- The bytes from a place on. -/
def bytes (buf : Nat → UInt8) (pos count : Nat) : Bytes := (List.range' pos count).map buf

/-- `memcpy` of an integer, and `ntohl` or `ntohs`. -/
def load (buf : Nat → UInt8) (pos count : Nat) : Nat := ofNetwork (bytes buf pos count)

def loadUInt32 (buf : Nat → UInt8) (pos : Nat) : UInt32 := .ofNat (load buf pos 4)

/-- The cases of the switch; `none` is `return -1`. -/
def parseOption (buf : Nat → UInt8) (pos : Nat) (code len : UInt8) (opts : Options) : Option Options :=
  match code with
  | dhcpSubnetMask =>
      if len ≠ 4 then none
      else some { opts with subnet := loadUInt32 buf pos }
  | dhcpRouter =>
      if len ≥ 4 ∧ len % 4 ≠ 0 then none
      else if len.toNat > optionFieldMax then none
      else some { opts with
        routerNum := len / 4
        router := fill opts.router (len / 4).toNat fun index => loadUInt32 buf (pos + index * 4) }
  | dhcpDns =>
      if len ≥ 4 ∧ len % 4 ≠ 0 then none
      else if len.toNat > optionFieldMax then none
      else some { opts with
        dnsNum := len / 4
        dns := fill opts.dns (len / 4).toNat fun index => loadUInt32 buf (pos + index * 4) }
  | dhcpDomain =>
      if len < 1 then none
      else if len.toNat > optionFieldMax then none
      else some { opts with domain := strncpy opts.domain (fun index => buf (pos + index)) len.toNat }
  | dhcpMessageType =>
      if len ≠ 1 then none
      else some { opts with messageType := buf pos }
  | dhcpMaxSize =>
      if len ≠ 2 then none
      else some { opts with maxSize := .ofNat (load buf pos 2) }
  | dhcpHostName =>
      if len < 1 then none
      else if len.toNat > optionFieldMax then none
      else some { opts with hostname := strncpy opts.hostname (fun index => buf (pos + index)) len.toNat }
  | dhcpRequestedIp =>
      if len ≠ 4 then none
      else some { opts with requestedIp := loadUInt32 buf pos }
  | dhcpLeaseTime =>
      if len ≠ 4 then none
      else some { opts with leaseTime := loadUInt32 buf pos }
  | dhcpOverload =>
      if len ≠ 1 then none
      else some opts
  | dhcpServerId =>
      if len ≠ 4 then none
      else some { opts with serverId := loadUInt32 buf pos }
  | dhcpClientId =>
      if len < 2 then none
      else if len.toNat > optionFieldMax then none
      -- the type is one of the bytes that are counted, so one byte more than the id is copied
      else some { opts with
        clientIdType := buf pos
        clientIdLength := len - 1
        clientId := fill opts.clientId len.toNat fun index => buf (pos + 1 + index) }
  | dhcpParameterList =>
      if len < 1 then none
      else if len.toNat > optionFieldMax then none
      else some { opts with
        paramList := fill opts.paramList len.toNat fun index => buf (pos + index)
        paramSize := len }
  | _ => some opts

/-- The loop: where it ends and whether it has seen the end, or `none` where it returns -1. -/
def parseLoop (buf : Nat → UInt8) (bufLen pos : Nat) (opts : Options) : Option (Nat × Bool) × Options :=
  if pos < bufLen then
    let code := buf pos
    if code = dhcpEnd then (some (bufLen, true), opts)
    else if code = dhcpPad ∨ pos + 1 + 1 ≥ bufLen then (some (pos + 1, false), opts)
    else
      let len := buf (pos + 1)
      match parseOption buf (pos + 2) code len opts with
      | none => (none, opts)
      | some opts => parseLoop buf bufLen (pos + 2 + len.toNat) opts
  else (some (pos, false), opts)
termination_by bufLen - pos

/-- `parse_options`, and what it leaves in the options. -/
def parseOptions (buf : Nat → UInt8) (bufLen : Nat) (opts : Options) : Int × Options :=
  match parseLoop buf bufLen 0 opts with
  | (none, opts) => (-1, opts)
  | (some (pos, seen), opts) =>
      if !seen then (-1, opts)
      else if pos ≠ bufLen then (-1, opts)
      else (0, opts)

/-! ### Writing -/

/-- A string in an array, up to its `NUL`. -/
def text (array : Vector UInt8 optionFieldMax) : Bytes := array.toList.takeWhile (· ≠ 0)

/-- `strlen`, which reads on where there is no `NUL`. -/
def strlen (array : Vector UInt8 optionFieldMax) : Except Fault Nat :=
  if (text array).length < optionFieldMax then .ok (text array).length else .error .outOfBounds

/-- The first elements of an array. -/
def first {α : Type} (array : Vector α optionFieldMax) (count : Nat) : Except Fault (List α) :=
  if count ≤ optionFieldMax then .ok (array.toList.take count) else .error .outOfBounds

/-- `ntohl`, and `memcpy` of the integer. -/
def storeUInt32 (value : UInt32) : Bytes := toNetwork 4 value.toNat

/-- What `write_options` does for one option: where there is something to write it makes sure that there is
room, and writes. -/
def emit (maxSize : UInt16) (present : Bool) (room : Nat) (field : Except Fault Bytes) (out : Bytes) :
    Except Fault Bytes :=
  if present then do
    check (out.length + room < maxSize.toNat)
    return out ++ (← field)
  else return out

/-- `write_options`. -/
def writeOptions (opts : Options) (maxSize : UInt16) : Except Fault Bytes := do
  let out ← emit maxSize (opts.messageType > 0) 3 (return [dhcpMessageType, 1, opts.messageType]) []
  let out ← emit maxSize (opts.maxSize > 0) 4 (return [dhcpMaxSize, 2] ++ toNetwork 2 opts.maxSize.toNat) out
  let hostnameLen ← strlen opts.hostname
  let out ← emit maxSize (hostnameLen > 0) (hostnameLen + 2)
    (return [dhcpHostName, .ofNat hostnameLen] ++ (← first opts.hostname hostnameLen)) out
  let out ← emit maxSize (opts.requestedIp > 0) 6 (return [dhcpRequestedIp, 4] ++ storeUInt32 opts.requestedIp) out
  let out ← emit maxSize (opts.leaseTime > 0) 6 (return [dhcpLeaseTime, 4] ++ storeUInt32 opts.leaseTime) out
  let out ← emit maxSize (opts.serverId > 0) 6 (return [dhcpServerId, 4] ++ storeUInt32 opts.serverId) out
  let out ← emit maxSize (opts.subnet > 0) 6 (return [dhcpSubnetMask, 4] ++ storeUInt32 opts.subnet) out
  let out ← emit maxSize (opts.routerNum > 0) (2 + opts.routerNum.toNat * 4)
    (return [dhcpRouter, opts.routerNum * 4] ++ (← first opts.router opts.routerNum.toNat).flatMap storeUInt32) out
  let out ← emit maxSize (opts.dnsNum > 0) (2 + opts.dnsNum.toNat * 4)
    (return [dhcpDns, opts.dnsNum * 4] ++ (← first opts.dns opts.dnsNum.toNat).flatMap storeUInt32) out
  let domainLen ← strlen opts.domain
  let out ← emit maxSize (domainLen > 0) (domainLen + 2)
    (return [dhcpDomain, .ofNat domainLen] ++ (← first opts.domain domainLen)) out
  let out ← emit maxSize (opts.clientIdLength > 0) (opts.clientIdLength.toNat + 3)
    (return [dhcpClientId, opts.clientIdLength + 1, opts.clientIdType] ++
      (← first opts.clientId opts.clientIdLength.toNat)) out
  let out ← emit maxSize (opts.paramSize > 0) (opts.paramSize.toNat + 2)
    (return [dhcpParameterList, opts.paramSize] ++ (← first opts.paramList opts.paramSize.toNat)) out
  emit maxSize true 1 (return [dhcpEnd]) out

end Thebends.Dhcp
