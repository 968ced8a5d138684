import Thebends.DhcpRoundTrip

/-! The messages of the client (`messages.c`): a header of a fixed size, and the options behind it. -/

namespace Thebends.Dhcp

open LibCString

abbrev bootRequest : UInt8 := 1

abbrev messageDhcpDiscover : UInt8 := 1

abbrev messageDhcpRequest : UInt8 := 3

/-- `MTU`. -/
def mtu : UInt16 := 1500

/-- `MAX_OPTION_SIZE`. -/
def maxOptionSize : UInt16 := 512

/-- `LEASE_TIME`. -/
def leaseTime : UInt32 := 7776000

/-- Options we'll request from the server. -/
def requestParams : Bytes := [dhcpSubnetMask, dhcpRouter, dhcpDns, dhcpDomain]

/-- `struct dhcp_message`. -/
structure Message where
  op : UInt8
  htype : UInt8
  hlen : UInt8
  hops : UInt8
  xid : UInt32
  secs : UInt16
  flags : UInt16
  ciaddr : UInt32
  yiaddr : UInt32
  siaddr : UInt32
  giaddr : UInt32
  chaddr : Vector UInt8 16
  sname : Vector UInt8 64
  file : Vector UInt8 128
  optionsSignature : Vector UInt8 4

/-- `sizeof(struct dhcp_message)`: its members need no padding. -/
def sizeOfMessage : Nat := 240

/-- `build_msg`. -/
def buildMsg (op : UInt8) (sourceMac : Nat → UInt8) (xid : UInt32) : Message where
  op := op
  htype := 1
  hlen := 6
  hops := 0
  xid := xid
  secs := 0
  flags := 0
  ciaddr := 0
  yiaddr := 0
  siaddr := 0
  giaddr := 0
  chaddr := .ofFn fun index => if index.val < 6 then sourceMac index else 0
  sname := .replicate _ 0
  file := .replicate _ 0
  optionsSignature := #v[99, 130, 83, 99]

/-- What both messages tell of the client. -/
def clientOptions (messageType : UInt8) (sourceMac hostname : Nat → UInt8) : Options :=
  { Options.zeroed with
    messageType := messageType
    maxSize := mtu
    clientIdType := 1
    clientIdLength := 6
    clientId := fill Options.zeroed.clientId 6 sourceMac
    paramSize := .ofNat requestParams.length
    paramList := fill Options.zeroed.paramList requestParams.length fun index => requestParams.getD index 0
    hostname := (strncpy Options.zeroed.hostname hostname (optionFieldMax - 1)).set (optionFieldMax - 1) 0 }

/-- What is in the buffer: the header and the bytes behind it, and the size that is returned. -/
structure Built where
  message : Message
  options : Bytes
  size : UInt16

/-- The buffer is large enough, or -1 is returned (`none`). -/
def build (message : Message) (opts : Options) (size : UInt16) : Except Fault (Option Built) :=
  if size.toNat < sizeOfMessage + maxOptionSize.toNat then return none
  else do
    let options ← writeOptions opts maxOptionSize
    return some { message, options, size := .ofNat (sizeOfMessage + options.length) }

/-- `build_dhcp_discover`, where `random()` gives the transaction. -/
def buildDhcpDiscover (random : UInt32) (sourceMac hostname : Nat → UInt8) (size : UInt16) :
    Except Fault (Option Built) :=
  build (buildMsg bootRequest sourceMac random)
    { clientOptions messageDhcpDiscover sourceMac hostname with leaseTime := leaseTime } size

/-- `build_dhcp_request`. -/
def buildDhcpRequest (xid : UInt32) (sourceMac hostname : Nat → UInt8) (requestedIp serverId : UInt32) (size : UInt16) :
    Except Fault (Option Built) :=
  build (buildMsg bootRequest sourceMac xid)
    { clientOptions messageDhcpRequest sourceMac hostname with requestedIp := requestedIp, serverId := serverId } size

/-! ### The name -/

theorem toList_set_last (array : Vector UInt8 optionFieldMax) :
    (array.set (optionFieldMax - 1) 0).toList = array.toList.take (optionFieldMax - 1) ++ [0] := by
  rw [Vector.toList_set, List.set_eq_take_append_cons_drop, if_pos (by rw [Vector.length_toList]; decide)]
  refine congrArg (_ ++ 0 :: ·) (List.drop_eq_nil_iff.mpr ?_)
  rw [Vector.length_toList]
  decide

/-- A part of a string that is longer, or goes on behind its `NUL`. -/
theorem textOf_take {name : Bytes} (hname : 0 ∉ name) (rest : Bytes) (count : Nat) :
    textOf 0 ((name ++ 0 :: rest).take count) = name.take count := by
  have hstart : (0 : UInt8) ∉ name.take count := fun hmem => hname (List.mem_of_mem_take hmem)
  rw [List.take_append, textOf_append_of_not_mem hstart]
  cases count - name.length with
  | zero => rw [List.take_zero, textOf, List.takeWhile_nil, List.append_nil]
  | succ more =>
      rw [List.take_succ_cons, textOf, List.takeWhile_cons_of_neg (by decide), List.append_nil]

/-- What the options hold of the name. -/
theorem text_hostname {hostname : Nat → UInt8} {name : Bytes} (hname : 0 ∉ name)
    (hmem : bytes hostname 0 (name.length + 1) = name ++ [0]) :
    text ((strncpy zeros hostname (optionFieldMax - 1)).set (optionFieldMax - 1) 0) = name.take (optionFieldMax - 1) := by
  have hsource : hostname = fun index => hostname (0 + index) := funext fun index => by rw [Nat.zero_add]
  have hcopy : (strncpy zeros hostname (optionFieldMax - 1)).toList.take (optionFieldMax - 1) =
      cut 0 (bytes hostname 0 (optionFieldMax - 1)) := by
    rw [hsource, toList_strncpy _ _ _ (by decide), ← hsource, overwrite, List.take_left' (by rw [length_cut, length_bytes])]
  have htext : textOf 0 (cut 0 (bytes hostname 0 (optionFieldMax - 1)) ++ [0]) =
      textOf 0 (bytes hostname 0 (optionFieldMax - 1)) := by
    by_cases hzero : (0 : UInt8) ∈ bytes hostname 0 (optionFieldMax - 1)
    · exact textOf_cut_append hzero _
    · rw [cut_of_not_mem hzero, textOf_append_of_not_mem hzero, textOf_of_not_mem hzero]
      exact List.append_nil _
  have hall : ∃ rest, bytes hostname 0 (name.length + 1 + optionFieldMax) = name ++ 0 :: rest := by
    refine ⟨bytes hostname (0 + (name.length + 1)) optionFieldMax, ?_⟩
    rw [bytes, ← List.range'_append_1, List.map_append, ← bytes, ← bytes, hmem, List.append_assoc]
    rfl
  obtain ⟨rest, hrest⟩ := hall
  calc text ((strncpy zeros hostname (optionFieldMax - 1)).set (optionFieldMax - 1) 0)
      = textOf 0 (cut 0 (bytes hostname 0 (optionFieldMax - 1)) ++ [0]) := by
        rw [text, toList_set_last, hcopy]
        rfl
    _ = textOf 0 ((bytes hostname 0 (name.length + 1 + optionFieldMax)).take (optionFieldMax - 1)) := by
        rw [htext, take_bytes _ _ (by omega)]
    _ = name.take (optionFieldMax - 1) := by rw [hrest, textOf_take hname]

/-! ### The messages -/

/-- What the options of a message tell. -/
structure Tells (opts : Options) (messageType : UInt8) (sourceMac : Nat → UInt8) (name : Bytes)
    (requestedIp serverId leaseTime : UInt32) : Prop where
  messageType : opts.messageType = messageType
  maxSize : opts.maxSize = mtu
  clientIdType : opts.clientIdType = 1
  clientIdLength : opts.clientIdLength = 6
  clientId : opts.clientId.toList.take 6 = bytes sourceMac 0 6
  paramSize : opts.paramSize.toNat = requestParams.length
  paramList : opts.paramList.toList.take requestParams.length = requestParams
  hostname : text opts.hostname = name
  requestedIp : opts.requestedIp = requestedIp
  serverId : opts.serverId = serverId
  leaseTime : opts.leaseTime = leaseTime

/-- What is told is still told after it was written and read. -/
theorem Tells.same {opts parsed : Options} {messageType : UInt8} {sourceMac : Nat → UInt8} {name : Bytes}
    {requestedIp serverId leaseTime : UInt32} (h : Tells opts messageType sourceMac name requestedIp serverId leaseTime)
    (hsame : Same opts parsed) : Tells parsed messageType sourceMac name requestedIp serverId leaseTime := by
  have hlength : opts.clientIdLength ≠ 0 := by
    rw [h.clientIdLength]
    decide
  have hid := hsame.clientId
  have hparam := hsame.paramList
  rw [h.clientIdLength] at hid
  rw [h.paramSize] at hparam
  exact {
    messageType := hsame.messageType.trans h.messageType
    maxSize := hsame.maxSize.trans h.maxSize
    clientIdType := (hsame.clientIdType hlength).trans h.clientIdType
    clientIdLength := hsame.clientIdLength.trans h.clientIdLength
    clientId := hid.trans h.clientId
    paramSize := (congrArg UInt8.toNat hsame.paramSize).trans h.paramSize
    paramList := hparam.trans h.paramList
    hostname := hsame.hostname.trans h.hostname
    requestedIp := hsame.requestedIp.trans h.requestedIp
    serverId := hsame.serverId.trans h.serverId
    leaseTime := hsame.leaseTime.trans h.leaseTime }

section

variable {opts : Options} {messageType : UInt8} {sourceMac : Nat → UInt8} {name : Bytes}
  {requestedIp serverId leaseTime : UInt32}

theorem Tells.withLeaseTime (h : Tells opts messageType sourceMac name requestedIp serverId leaseTime)
    (leaseTime' : UInt32) : Tells { opts with leaseTime := leaseTime' } messageType sourceMac name requestedIp serverId
      leaseTime' := { h with leaseTime := rfl }

theorem Tells.withAddresses (h : Tells opts messageType sourceMac name requestedIp serverId leaseTime)
    (requestedIp' serverId' : UInt32) : Tells { opts with requestedIp := requestedIp', serverId := serverId' } messageType
      sourceMac name requestedIp' serverId' leaseTime := { h with requestedIp := rfl, serverId := rfl }

theorem Options.Fits.withLeaseTime (h : opts.Fits) (leaseTime : UInt32) :
    Options.Fits { opts with leaseTime := leaseTime } := { h with }

theorem Options.Fits.withAddresses (h : opts.Fits) (requestedIp serverId : UInt32) :
    Options.Fits { opts with requestedIp := requestedIp, serverId := serverId } := { h with }

end

theorem length_written_le (items : List (Bool × Nat × Bytes)) (h : ∀ item ∈ items, item.2.2.length = item.2.1) :
    (written items).length ≤ (items.map fun item => item.2.1).sum := by
  induction items with
  | nil => exact Nat.le_refl _
  | cons item items ih =>
      have hitem := h item List.mem_cons_self
      have hblock := length_block_le item.1 item.2.2
      have hitems := ih fun other hother => h other (List.mem_cons_of_mem _ hother)
      rw [written_cons, List.length_append, List.map_cons, List.sum_cons]
      omega

/-- The size of what was built, and what it tells to who reads the bytes behind the header. -/
def Built.Conveys (built : Built) (size : UInt16) (messageType : UInt8) (sourceMac : Nat → UInt8) (name : Bytes)
    (requestedIp serverId leaseTime : UInt32) : Prop :=
  built.size.toNat = sizeOfMessage + built.options.length ∧ built.size ≤ size ∧
    ∀ buf, bytes buf 0 built.options.length = built.options →
      (parseOptions buf built.options.length .zeroed).1 = 0 ∧
        Tells (parseOptions buf built.options.length .zeroed).2 messageType sourceMac name requestedIp serverId leaseTime

theorem build_ok {opts : Options} {size : UInt16} {messageType : UInt8} {sourceMac : Nat → UInt8} {name : Bytes}
    {requestedIp serverId leaseTime : UInt32} (hfits : opts.Fits)
    (htells : Tells opts messageType sourceMac name requestedIp serverId leaseTime)
    (hsize : sizeOfMessage + maxOptionSize.toNat ≤ size.toNat) (message : Message) :
    ∃ built, build message opts size = .ok (some built) ∧ built.message = message ∧
      built.Conveys size messageType sourceMac name requestedIp serverId leaseTime := by
  have hlength := Nat.le_trans (length_written_le opts.items (length_items hfits)) (sum_items hfits)
  have hmessage : sizeOfMessage = 240 := rfl
  have hmax : maxOptionSize.toNat = 512 := rfl
  have hbuilt : (UInt16.ofNat (sizeOfMessage + (written opts.items).length)).toNat =
      sizeOfMessage + (written opts.items).length := UInt16.toNat_ofNat_of_lt' (by
    have hlt : sizeOfMessage + (written opts.items).length < 65536 := by omega
    exact hlt)
  refine ⟨⟨message, written opts.items, .ofNat (sizeOfMessage + (written opts.items).length)⟩, ?_, rfl, hbuilt, ?_,
    fun buf hbuf => ?_⟩
  · rw [build, if_neg (Nat.not_lt.mpr hsize), writeOptions_ok hfits (by decide)]
    rfl
  · rw [UInt16.le_iff_toNat_le, hbuilt]
    omega
  · obtain ⟨hret, hsame⟩ := parseOptions_items hfits hbuf
    exact ⟨hret, htells.same hsame⟩

section

variable {hostname : Nat → UInt8} {name : Bytes} (hname : 0 ∉ name)
  (hmem : bytes hostname 0 (name.length + 1) = name ++ [0]) (messageType : UInt8) (sourceMac : Nat → UInt8)

theorem hostname_clientOptions :
    (clientOptions messageType sourceMac hostname).hostname =
      (strncpy zeros hostname (optionFieldMax - 1)).set (optionFieldMax - 1) 0 := rfl

include hname hmem

theorem tells_clientOptions :
    Tells (clientOptions messageType sourceMac hostname) messageType sourceMac (name.take (optionFieldMax - 1)) 0 0 0 := by
  have hid : (clientOptions messageType sourceMac hostname).clientId.toList.take 6 = bytes sourceMac 0 6 := by
    have hsource : sourceMac = fun index => sourceMac (0 + index) := funext fun index => by rw [Nat.zero_add]
    have hfill := take_fill_bytes Options.zeroed.clientId sourceMac 0 (by decide : 6 ≤ optionFieldMax)
    rwa [← hsource] at hfill
  have hparam : (clientOptions messageType sourceMac hostname).paramList.toList.take requestParams.length =
      requestParams := by
    have hlist : (clientOptions messageType sourceMac hostname).paramList =
        fill Options.zeroed.paramList requestParams.length fun index => requestParams.getD index 0 := rfl
    rw [hlist, take_fill _ (by decide)]
    decide
  have htext := text_hostname hname hmem
  rw [← hostname_clientOptions messageType sourceMac] at htext
  exact ⟨rfl, rfl, rfl, rfl, hid, rfl, hparam, htext, rfl, rfl, rfl⟩

theorem fits_clientOptions : Options.Fits (clientOptions messageType sourceMac hostname) := by
  have htext := text_hostname hname hmem
  rw [← hostname_clientOptions messageType sourceMac] at htext
  have hlength : (text (clientOptions messageType sourceMac hostname).hostname).length ≤ 63 := by
    rw [htext]
    exact List.length_take_le _ _
  have hdomain : (text (clientOptions messageType sourceMac hostname).domain).length ≤ 63 := by
    have hzeros : text (clientOptions messageType sourceMac hostname).domain = [] := text_zeros
    rw [hzeros]
    exact Nat.zero_le _
  exact ⟨hlength, hdomain, Nat.zero_le _, Nat.zero_le _, (by decide : 6 ≤ 63), (by decide : 4 ≤ 64)⟩

end

/-- **Both messages are built in a buffer that is large enough, and tell what they are to tell.** -/
theorem messages_convey (sourceMac hostname : Nat → UInt8) (name : Bytes) (xid requestedIp serverId : UInt32)
    (size : UInt16) (hname : 0 ∉ name) (hmem : bytes hostname 0 (name.length + 1) = name ++ [0])
    (hsize : sizeOfMessage + maxOptionSize.toNat ≤ size.toNat) :
    (∃ built, buildDhcpDiscover xid sourceMac hostname size = .ok (some built) ∧
      built.message = buildMsg bootRequest sourceMac xid ∧
      built.Conveys size messageDhcpDiscover sourceMac (name.take 63) 0 0 leaseTime) ∧
    ∃ built, buildDhcpRequest xid sourceMac hostname requestedIp serverId size = .ok (some built) ∧
      built.message = buildMsg bootRequest sourceMac xid ∧
      built.Conveys size messageDhcpRequest sourceMac (name.take 63) requestedIp serverId 0 := by
  constructor
  · have hfits := fits_clientOptions hname hmem messageDhcpDiscover sourceMac
    have htells := tells_clientOptions hname hmem messageDhcpDiscover sourceMac
    exact build_ok (hfits.withLeaseTime leaseTime) (htells.withLeaseTime leaseTime) hsize _
  · have hfits := fits_clientOptions hname hmem messageDhcpRequest sourceMac
    have htells := tells_clientOptions hname hmem messageDhcpRequest sourceMac
    exact build_ok (hfits.withAddresses requestedIp serverId) (htells.withAddresses requestedIp serverId) hsize _

/-- The host of the test, in a buffer of the size of the test. -/
theorem messages_convey_lozenge :
    let name : Bytes := [108, 111, 122, 101, 110, 103, 101]
    let sourceMac := fun index => ([0x00, 0x0c, 0x15, 0xfe, 0x78, 0xd5] : Bytes).getD index 0
    let hostname := fun index => name.getD index 0
    (∃ built, buildDhcpDiscover 7 sourceMac hostname 1024 = .ok (some built) ∧
      built.message = buildMsg bootRequest sourceMac 7 ∧
      built.Conveys 1024 messageDhcpDiscover sourceMac (name.take 63) 0 0 leaseTime) ∧
    ∃ built, buildDhcpRequest 7 sourceMac hostname 0x0a000105 0x0a000101 1024 = .ok (some built) ∧
      built.message = buildMsg bootRequest sourceMac 7 ∧
      built.Conveys 1024 messageDhcpRequest sourceMac (name.take 63) 0x0a000105 0x0a000101 0 :=
  messages_convey _ _ [108, 111, 122, 101, 110, 103, 101] 7 0x0a000105 0x0a000101 1024 (by decide) (by decide) (by decide)

end Thebends.Dhcp
