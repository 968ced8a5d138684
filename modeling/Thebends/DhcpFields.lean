import Thebends.DhcpArrays

/-! What `parse_options` leaves in the fields. A field is set by the options with its code only, and each of them sets
it anew; but a string is copied over the one before it, and no `NUL` is set behind it. -/

namespace Thebends.Dhcp

open LibCString LibNetOrder

/-! ### The options of a buffer -/

/-- The options, each with its data. -/
def optionsIn : Bytes → List (UInt8 × Bytes)
  | code :: len :: more =>
      if code = dhcpPad ∨ code = dhcpEnd then []
      else (code, more.take len.toNat) :: optionsIn (more.drop len.toNat)
  | _ => []
termination_by buffer => buffer.length

/-- The data of the options with a code, in their order. -/
def payloads (buffer : Bytes) (code : UInt8) : List Bytes :=
  ((optionsIn buffer).filter fun option => option.1 = code).map Prod.snd

/-! ### What a field is to hold -/

/-- Zero where there is no option. -/
def number (last : Option Bytes) : Nat := ofNetwork (last.getD [])

def words (data : Bytes) : List Nat :=
  (List.range (data.length / 4)).map fun index => ofNetwork ((data.drop (index * 4)).take 4)

def HoldsWords (num : UInt8) (array : Vector UInt32 optionFieldMax) : Option Bytes → Prop
  | none => num = 0 ∧ array = .replicate _ 0
  | some data => num.toNat = data.length / 4 ∧ (array.toList.take num.toNat).map UInt32.toNat = words data

def HoldsBytes (size : UInt8) (array : Vector UInt8 optionFieldMax) : Option Bytes → Prop
  | none => size = 0 ∧ array = zeros
  | some data => size.toNat = data.length ∧ array.toList.take size.toNat = data

def HoldsString (array : Vector UInt8 optionFieldMax) : Option Bytes → Prop
  | none => array = zeros
  | some data => IsString 0 array.toList data

/-- Each field holds the last data with its code. The first byte of a client id is its type. -/
structure HoldsLast (opts : Options) (seen : UInt8 → List Bytes) : Prop where
  messageType : opts.messageType.toNat = number (seen dhcpMessageType).getLast?
  maxSize : opts.maxSize.toNat = number (seen dhcpMaxSize).getLast?
  hostname : HoldsString opts.hostname (seen dhcpHostName).getLast?
  requestedIp : opts.requestedIp.toNat = number (seen dhcpRequestedIp).getLast?
  leaseTime : opts.leaseTime.toNat = number (seen dhcpLeaseTime).getLast?
  serverId : opts.serverId.toNat = number (seen dhcpServerId).getLast?
  subnet : opts.subnet.toNat = number (seen dhcpSubnetMask).getLast?
  router : HoldsWords opts.routerNum opts.router (seen dhcpRouter).getLast?
  dns : HoldsWords opts.dnsNum opts.dns (seen dhcpDns).getLast?
  domain : HoldsString opts.domain (seen dhcpDomain).getLast?
  clientIdType : opts.clientIdType.toNat = number ((seen dhcpClientId).getLast?.map fun data => data.take 1)
  clientId : HoldsBytes opts.clientIdLength opts.clientId ((seen dhcpClientId).getLast?.map List.tail)
  param : HoldsBytes opts.paramSize opts.paramList (seen dhcpParameterList).getLast?

/-! ### The invariant of the loop -/

/-- The fields after some options. The strings were copied one over the other. -/
structure Reached (opts : Options) (seen : UInt8 → List Bytes) : Prop where
  messageType : opts.messageType.toNat = number (seen dhcpMessageType).getLast?
  maxSize : opts.maxSize.toNat = number (seen dhcpMaxSize).getLast?
  hostname : opts.hostname.toList = overwriteAll 0 zeros.toList (seen dhcpHostName)
  hostnames : ∀ data ∈ seen dhcpHostName, data.length ≤ optionFieldMax
  requestedIp : opts.requestedIp.toNat = number (seen dhcpRequestedIp).getLast?
  leaseTime : opts.leaseTime.toNat = number (seen dhcpLeaseTime).getLast?
  serverId : opts.serverId.toNat = number (seen dhcpServerId).getLast?
  subnet : opts.subnet.toNat = number (seen dhcpSubnetMask).getLast?
  router : HoldsWords opts.routerNum opts.router (seen dhcpRouter).getLast?
  dns : HoldsWords opts.dnsNum opts.dns (seen dhcpDns).getLast?
  domain : opts.domain.toList = overwriteAll 0 zeros.toList (seen dhcpDomain)
  domains : ∀ data ∈ seen dhcpDomain, data.length ≤ optionFieldMax
  clientIdType : opts.clientIdType.toNat = number ((seen dhcpClientId).getLast?.map fun data => data.take 1)
  clientId : HoldsBytes opts.clientIdLength opts.clientId ((seen dhcpClientId).getLast?.map List.tail)
  param : HoldsBytes opts.paramSize opts.paramList (seen dhcpParameterList).getLast?

/-- One more option. -/
def note (seen : UInt8 → List Bytes) (code : UInt8) (data : Bytes) : UInt8 → List Bytes :=
  fun other => if code = other then seen other ++ [data] else seen other

section

variable (buf : Nat → UInt8) (pos : Nat) {len : UInt8} {seen : List Bytes}

theorem number_concat (seen : List Bytes) (data : Bytes) : number (seen ++ [data]).getLast? = ofNetwork data := by
  rw [List.getLast?_concat]
  rfl

theorem toNat_loadUInt32 :
    (loadUInt32 buf pos).toNat = ofNetwork (bytes buf pos 4) := by
  have hlt := ofNetwork_lt (bytes buf pos 4)
  rw [length_bytes] at hlt
  exact UInt32.toNat_ofNat_of_lt' (Nat.lt_of_lt_of_le hlt (by decide))

theorem number_word (seen : List Bytes) (hlen : len.toNat = 4) :
    (loadUInt32 buf pos).toNat = number (seen ++ [bytes buf pos len.toNat]).getLast? := by
  rw [number_concat, toNat_loadUInt32, hlen]

theorem number_half (seen : List Bytes) (hlen : len.toNat = 2) :
    (UInt16.ofNat (load buf pos 2)).toNat = number (seen ++ [bytes buf pos len.toNat]).getLast? := by
  have hlt := ofNetwork_lt (bytes buf pos 2)
  rw [length_bytes] at hlt
  rw [number_concat, hlen]
  exact UInt16.toNat_ofNat_of_lt' (Nat.lt_of_lt_of_le hlt (by decide))

theorem number_byte (seen : List Bytes) (hlen : len.toNat = 1) :
    (buf pos).toNat = number (seen ++ [bytes buf pos len.toNat]).getLast? := by
  rw [number_concat, hlen, bytes_succ]
  exact (Nat.zero_add _).symm

theorem words_bytes (count : Nat) :
    ((List.range (count / 4)).map fun index => loadUInt32 buf (pos + index * 4)).map UInt32.toNat =
      words (bytes buf pos count) := by
  rw [words, length_bytes, List.map_map]
  refine List.map_congr_left fun index hindex => ?_
  have hlt := List.mem_range.mp hindex
  rw [Function.comp_apply, toNat_loadUInt32, drop_bytes, take_bytes _ _ (by omega)]

theorem holdsWords_concat (seen : List Bytes) (array : Vector UInt32 optionFieldMax) (hfew : len.toNat ≤ optionFieldMax) :
    HoldsWords (len / 4) (fill array (len / 4).toNat fun index => loadUInt32 buf (pos + index * 4))
      (seen ++ [bytes buf pos len.toNat]).getLast? := by
  have hnum : (len / 4).toNat = len.toNat / 4 := UInt8.toNat_div ..
  have hless : (len / 4).toNat ≤ optionFieldMax := by omega
  rw [List.getLast?_concat]
  refine ⟨hnum.trans (by rw [length_bytes]), ?_⟩
  rw [take_fill array hless, hnum, words_bytes]

theorem holdsBytes_concat (seen : List Bytes) (array : Vector UInt8 optionFieldMax) (hfew : len.toNat ≤ optionFieldMax) :
    HoldsBytes len (fill array len.toNat fun index => buf (pos + index))
      (seen ++ [bytes buf pos len.toNat]).getLast? := by
  rw [List.getLast?_concat]
  exact ⟨(length_bytes buf pos len.toNat).symm, take_fill_bytes array buf pos hfew⟩

/-- The id is behind the type; the byte behind the option that is copied too is not counted. -/
theorem holdsBytes_tail (seen : List Bytes) (array : Vector UInt8 optionFieldMax) (hsome : 1 ≤ len.toNat)
    (hfew : len.toNat ≤ optionFieldMax) :
    HoldsBytes (len - 1) (fill array len.toNat fun index => buf (pos + 1 + index))
      ((seen ++ [bytes buf pos len.toNat]).getLast?.map List.tail) := by
  have hless : (len - 1).toNat = len.toNat - 1 := UInt8.toNat_sub_of_le _ _ (UInt8.le_iff_toNat_le.mpr hsome)
  have htail : (bytes buf pos len.toNat).tail = bytes buf (pos + 1) (len.toNat - 1) := by
    rw [← List.drop_one, drop_bytes]
  have htake := congrArg (List.take (len.toNat - 1)) (take_fill_bytes array buf (pos + 1) hfew)
  rw [List.take_take, Nat.min_eq_left (Nat.sub_le _ _), take_bytes _ _ (Nat.sub_le _ _)] at htake
  rw [List.getLast?_concat, Option.map_some, htail]
  refine ⟨hless.trans (length_bytes ..).symm, ?_⟩
  rw [hless]
  exact htake

theorem number_type (seen : List Bytes) (hsome : 1 ≤ len.toNat) :
    (buf pos).toNat = number ((seen ++ [bytes buf pos len.toNat]).getLast?.map fun data => data.take 1) := by
  rw [List.getLast?_concat, Option.map_some, take_bytes _ _ hsome, bytes_succ]
  exact (Nat.zero_add _).symm

theorem string_concat {array : Vector UInt8 optionFieldMax} (h : array.toList = overwriteAll 0 zeros.toList seen)
    (hall : ∀ data ∈ seen, data.length ≤ optionFieldMax) (hfew : len.toNat ≤ optionFieldMax) :
    (strncpy array (fun index => buf (pos + index)) len.toNat).toList =
        overwriteAll 0 zeros.toList (seen ++ [bytes buf pos len.toNat]) ∧
      ∀ data ∈ seen ++ [bytes buf pos len.toNat], data.length ≤ optionFieldMax := by
  refine ⟨?_, fun data hdata => ?_⟩
  · rw [toList_strncpy array buf pos hfew, h, overwriteAll_concat]
  · rw [List.mem_append, List.mem_singleton] at hdata
    rcases hdata with hbefore | rfl
    · exact hall data hbefore
    · rwa [length_bytes]

end

section

variable {buf : Nat → UInt8} {pos : Nat} {len : UInt8} {seen : UInt8 → List Bytes} {opts opts' : Options}

/-- What a case of the switch leaves where it refuses nothing. -/
theorem eq_of_exact {bad : Prop} [Decidable bad] {value : Options}
    (hparse : (if bad then none else some value) = some opts') : value = opts' := by
  obtain ⟨-, heq⟩ := Option.ite_none_left_eq_some.mp hparse
  exact Option.some.inj heq

theorem eq_of_checked {bad long : Prop} [Decidable bad] [Decidable long] {value : Options}
    (hparse : (if bad then none else if long then none else some value) = some opts') : value = opts' := by
  obtain ⟨-, hmost⟩ := Option.ite_none_left_eq_some.mp hparse
  exact eq_of_exact hmost

/-- **An option sets the fields of its code and no others.** -/
theorem Reached.step (h : Reached opts seen) {code : UInt8} (hrule : LengthOk code len)
    (hparse : parseOption buf pos code len opts = some opts') :
    Reached opts' (note seen code (bytes buf pos len.toNat)) := by
  unfold parseOption at hparse
  split at hparse
  · obtain rfl := eq_of_exact hparse
    have hword := number_word buf pos (seen dhcpSubnetMask) hrule
    generalize loadUInt32 buf pos = value at hword ⊢
    exact { h with subnet := hword }
  · obtain rfl := eq_of_checked hparse
    have hwords := holdsWords_concat buf pos (seen dhcpRouter) opts.router (And.right hrule)
    generalize len / 4 = num at hwords ⊢
    generalize fill _ _ _ = array at hwords ⊢
    exact { h with router := hwords }
  · obtain rfl := eq_of_checked hparse
    have hwords := holdsWords_concat buf pos (seen dhcpDns) opts.dns (And.right hrule)
    generalize len / 4 = num at hwords ⊢
    generalize fill _ _ _ = array at hwords ⊢
    exact { h with dns := hwords }
  · obtain rfl := eq_of_checked hparse
    obtain ⟨hcopy, hall⟩ := string_concat buf pos h.domain h.domains (And.right hrule)
    generalize strncpy _ _ _ = array at hcopy ⊢
    exact { h with domain := hcopy, domains := hall }
  · obtain rfl := eq_of_exact hparse
    have hbyte := number_byte buf pos (seen dhcpMessageType) hrule
    generalize buf pos = value at hbyte ⊢
    exact { h with messageType := hbyte }
  · obtain rfl := eq_of_exact hparse
    have hhalf := number_half buf pos (seen dhcpMaxSize) hrule
    generalize UInt16.ofNat (load buf pos 2) = value at hhalf ⊢
    exact { h with maxSize := hhalf }
  · obtain rfl := eq_of_checked hparse
    obtain ⟨hcopy, hall⟩ := string_concat buf pos h.hostname h.hostnames (And.right hrule)
    generalize strncpy _ _ _ = array at hcopy ⊢
    exact { h with hostname := hcopy, hostnames := hall }
  · obtain rfl := eq_of_exact hparse
    have hword := number_word buf pos (seen dhcpRequestedIp) hrule
    generalize loadUInt32 buf pos = value at hword ⊢
    exact { h with requestedIp := hword }
  · obtain rfl := eq_of_exact hparse
    have hword := number_word buf pos (seen dhcpLeaseTime) hrule
    generalize loadUInt32 buf pos = value at hword ⊢
    exact { h with leaseTime := hword }
  · obtain rfl := eq_of_exact hparse
    exact { h with }
  · obtain rfl := eq_of_exact hparse
    have hword := number_word buf pos (seen dhcpServerId) hrule
    generalize loadUInt32 buf pos = value at hword ⊢
    exact { h with serverId := hword }
  · obtain rfl := eq_of_checked hparse
    have hsome : 1 ≤ len.toNat := Nat.le_of_succ_le (And.left hrule)
    have htype := number_type buf pos (seen dhcpClientId) hsome
    have hid := holdsBytes_tail buf pos (seen dhcpClientId) opts.clientId hsome (And.right hrule)
    exact { h with clientIdType := htype, clientId := hid }
  · obtain rfl := eq_of_checked hparse
    have hbytes := holdsBytes_concat buf pos (seen dhcpParameterList) opts.paramList (And.right hrule)
    generalize fill _ _ _ = array at hbytes ⊢
    exact { h with param := hbytes }
  · obtain rfl := Option.some.inj hparse
    have hother : ∀ other, code ≠ other → note seen code (bytes buf pos len.toNat) other = seen other :=
      fun _ hne => if_neg hne
    obtain ⟨⟩ := h
    constructor <;> rw [hother] <;> assumption

end

/-! ### The loop -/

theorem payloads_end (more : Bytes) (other : UInt8) : payloads (dhcpEnd :: more) other = [] := by
  rw [payloads]
  cases more with
  | nil =>
      rw [optionsIn]
      · rfl
      · exact fun _ _ _ heq => List.cons_ne_nil _ _ (List.cons.inj heq).2.symm
  | cons len more => rw [optionsIn, if_pos (.inr rfl)]; rfl

theorem payloads_cons {code len : UInt8} (more : Bytes) (hpad : code ≠ dhcpPad) (hend : code ≠ dhcpEnd) :
    payloads (code :: len :: more) = fun other =>
      (if code = other then [more.take len.toNat] else []) ++ payloads (more.drop len.toNat) other := by
  funext other
  rw [payloads, optionsIn, if_neg (not_or.mpr ⟨hpad, hend⟩), List.filter_cons]
  by_cases heq : code = other
  · rw [if_pos (decide_eq_true heq), if_pos heq]
    rfl
  · rw [if_neg (by simpa using heq), if_neg heq]
    rfl

/-- **After the loop the fields are those of all options.** -/
theorem parseLoop_reached (buf : Nat → UInt8) (bufLen pos : Nat) (opts : Options) :
    Accepted (bytes buf pos (bufLen - pos)) → ∀ seen, Reached opts seen → Reached (parseLoop buf bufLen pos opts).2
      fun code => seen code ++ payloads (bytes buf pos (bufLen - pos)) code := by
  fun_induction parseLoop buf bufLen pos opts with
  | case1 pos opts hpos code hend =>
      intro haccepted seen h
      have hcode : buf pos = dhcpEnd := hend
      have hseen : (fun code => seen code ++ payloads (bytes buf pos (bufLen - pos)) code) = seen := by
        funext other
        rw [bytes_of_lt hpos, hcode, payloads_end, List.append_nil]
      rw [hseen]
      exact h
  | case2 pos opts hpos code hend hstop => exact fun haccepted => absurd haccepted (not_accepted_stop hpos hend hstop)
  | case3 pos opts hpos code hend hmore len hnone =>
      intro haccepted seen h
      obtain ⟨hpad, hlast⟩ := not_or.mp hmore
      have hrule := ((accepted_bytes_iff (Nat.lt_of_succ_lt (Nat.lt_of_not_le hlast)) hpad hend).mp haccepted).1
      exact absurd hrule ((parseOption_eq_none_iff buf (pos + 2) code len opts).mp hnone)
  | case4 pos opts hpos code hend hmore len changed hsome ih =>
      intro haccepted seen h
      obtain ⟨hpad, hlast⟩ := not_or.mp hmore
      have hroom : pos + 1 < bufLen := Nat.lt_of_succ_lt (Nat.lt_of_not_le hlast)
      obtain ⟨hrule, hrest⟩ := (accepted_bytes_iff hroom hpad hend).mp haccepted
      have hbefore : pos + 2 + len.toNat < bufLen := by
        by_contra hge
        rw [Nat.sub_eq_zero_of_le (Nat.le_of_not_lt hge)] at hrest
        exact not_accepted_nil hrest
      have hall := ih hrest _ (h.step hrule hsome)
      have hfits : len.toNat ≤ bufLen - (pos + 1 + 1) := by omega
      have hseen : (fun other => seen other ++ payloads (bytes buf pos (bufLen - pos)) other) = fun other =>
          note seen code (bytes buf (pos + 2) len.toNat) other ++
            payloads (bytes buf (pos + 2 + len.toNat) (bufLen - (pos + 2 + len.toNat))) other := by
        funext other
        rw [bytes_of_lt hpos, bytes_of_lt hroom, payloads_cons _ hpad hend, take_bytes _ _ hfits, drop_bytes,
          Nat.sub_sub, note, ← List.append_assoc]
        split
        case isTrue => rfl
        case isFalse => rw [List.append_nil]
      rw [hseen]
      exact hall
  | case5 pos opts hpos =>
      intro haccepted seen h
      rw [Nat.sub_eq_zero_of_le (Nat.le_of_not_lt hpos)] at haccepted
      exact absurd haccepted not_accepted_nil

theorem parseOptions_snd (buf : Nat → UInt8) (bufLen : Nat) (opts : Options) :
    (parseOptions buf bufLen opts).2 = (parseLoop buf bufLen 0 opts).2 := by
  unfold parseOptions
  split
  case h_1 opts' hloop => rw [hloop]
  case h_2 last seen opts' hloop =>
    rw [hloop]
    split
    case isTrue => rfl
    case isFalse =>
      split
      case isTrue => rfl
      case isFalse => rfl

theorem reached_zeroed : Reached .zeroed fun _ => [] := by
  constructor
  all_goals first | rfl | exact ⟨rfl, rfl⟩ | exact fun _ hnil => absurd hnil List.not_mem_nil

theorem parseOptions_reached {buf : Nat → UInt8} {bufLen : Nat} (h : Accepted (bytes buf 0 bufLen)) :
    Reached (parseOptions buf bufLen .zeroed).2 (payloads (bytes buf 0 bufLen)) := by
  rw [parseOptions_snd]
  exact parseLoop_reached buf bufLen 0 .zeroed h _ reached_zeroed

/-! ### The fields -/

theorem holdsString_iff {array : Vector UInt8 optionFieldMax} {copies : List Bytes}
    (h : array.toList = overwriteAll 0 zeros.toList copies) (hall : ∀ data ∈ copies, data.length ≤ optionFieldMax) :
    HoldsString array copies.getLast? ↔ Ended 0 optionFieldMax copies := by
  rw [Vector.toList_replicate] at h
  rw [← isString_overwriteAll_iff hall, ← h]
  cases hlast : copies.getLast? with
  | none =>
      obtain rfl := List.getLast?_eq_none_iff.mp hlast
      refine iff_of_true (Vector.toList_inj.mp ?_) fun _ hsome => (Option.some_ne_none _ hsome.symm).elim
      rw [h, Vector.toList_replicate]
      rfl
  | some data =>
      constructor
      · intro hstring other hsome
        exact Option.some.inj hsome ▸ hstring
      · exact fun hstring => hstring data rfl

theorem Reached.holdsLast_iff {opts : Options} {seen : UInt8 → List Bytes} (h : Reached opts seen) :
    HoldsLast opts seen ↔
      Ended 0 optionFieldMax (seen dhcpHostName) ∧ Ended 0 optionFieldMax (seen dhcpDomain) := by
  rw [← holdsString_iff h.hostname h.hostnames, ← holdsString_iff h.domain h.domains]
  constructor
  · exact fun hholds => ⟨hholds.hostname, hholds.domain⟩
  · rintro ⟨hhostname, hdomain⟩
    exact { h with hostname := hhostname, domain := hdomain }

/-- **The fields hold the last options just when the names end.** All others always do. -/
theorem parseOptions_holdsLast_iff (buf : Nat → UInt8) (bufLen : Nat) (h : (parseOptions buf bufLen .zeroed).1 = 0) :
    HoldsLast (parseOptions buf bufLen .zeroed).2 (payloads (bytes buf 0 bufLen)) ↔
      Ended 0 optionFieldMax (payloads (bytes buf 0 bufLen) dhcpHostName) ∧
        Ended 0 optionFieldMax (payloads (bytes buf 0 bufLen) dhcpDomain) :=
  (parseOptions_reached ((parseOptions_eq_zero_iff buf bufLen .zeroed).mp h)).holdsLast_iff

/-- A name of one byte, a type, and a name of three bytes, which covers the first. -/
theorem parseOptions_holdsLast_iff_name :
    let buf := fun position =>
      [dhcpHostName, 1, 120, dhcpMessageType, 1, 1, dhcpHostName, 3, 97, 98, 99, dhcpEnd].getD position 0
    (parseOptions buf 12 .zeroed).1 = 0 ∧ payloads (bytes buf 0 12) dhcpHostName = [[120], [97, 98, 99]] ∧
      HoldsLast (parseOptions buf 12 .zeroed).2 (payloads (bytes buf 0 12)) := by
  intro buf
  have haccepted : Accepted (bytes buf 0 12) :=
    (accepted_cons_iff (by decide) (by decide)).mpr ⟨(by decide : 1 ≤ 1 ∧ 1 ≤ optionFieldMax),
      (accepted_cons_iff (by decide) (by decide)).mpr ⟨rfl,
        (accepted_cons_iff (by decide) (by decide)).mpr ⟨(by decide : 1 ≤ 3 ∧ 3 ≤ optionFieldMax), .finish []⟩⟩⟩
  have hpayloads : ∀ other, payloads (bytes buf 0 12) other = (if dhcpHostName = other then [[120]] else []) ++
      ((if dhcpMessageType = other then [[1]] else []) ++
        ((if dhcpHostName = other then [[97, 98, 99]] else []) ++ [])) := by
    intro other
    have hbytes : bytes buf 0 12 =
        [dhcpHostName, 1, 120, dhcpMessageType, 1, 1, dhcpHostName, 3, 97, 98, 99, dhcpEnd] := rfl
    have hlast : payloads [dhcpHostName, 3, 97, 98, 99, dhcpEnd] other =
        (if dhcpHostName = other then [[97, 98, 99]] else []) ++ [] :=
      (congrFun (payloads_cons _ (by decide) (by decide)) other).trans (congrArg (_ ++ ·) (payloads_end [] other))
    have hmiddle : payloads [dhcpMessageType, 1, 1, dhcpHostName, 3, 97, 98, 99, dhcpEnd] other =
        (if dhcpMessageType = other then [[1]] else []) ++
          ((if dhcpHostName = other then [[97, 98, 99]] else []) ++ []) :=
      (congrFun (payloads_cons _ (by decide) (by decide)) other).trans (congrArg (_ ++ ·) hlast)
    rw [hbytes]
    exact (congrFun (payloads_cons _ (by decide) (by decide)) other).trans (congrArg (_ ++ ·) hmiddle)
  have hnames : payloads (bytes buf 0 12) dhcpHostName = [[120], [97, 98, 99]] := hpayloads dhcpHostName
  have hzero := (parseOptions_eq_zero_iff buf 12 .zeroed).mpr haccepted
  refine ⟨hzero, hnames, (parseOptions_holdsLast_iff buf 12 hzero).mpr ⟨?_, ?_⟩⟩
  · rw [hnames]
    intro data hdata
    cases hdata
    refine Or.inr ⟨by decide, fun longer hlonger => ?_⟩
    cases hlonger
  · have hnone : payloads (bytes buf 0 12) dhcpDomain = [] := hpayloads dhcpDomain
    rw [hnone]
    intro data hdata
    cases hdata

/-- A name of three bytes and then one of a single byte: the last two bytes of the first are still there. -/
theorem shorter_name_keeps_tail :
    let buf := fun position => [dhcpHostName, 3, 97, 98, 99, dhcpHostName, 1, 120, dhcpEnd].getD position 0
    (parseOptions buf 9 .zeroed).1 = 0 ∧
      ¬HoldsLast (parseOptions buf 9 .zeroed).2 (payloads (bytes buf 0 9)) := by
  intro buf
  have haccepted : Accepted (bytes buf 0 9) :=
    (accepted_cons_iff (by decide) (by decide)).mpr ⟨(by decide : 1 ≤ 3 ∧ 3 ≤ optionFieldMax),
      (accepted_cons_iff (by decide) (by decide)).mpr ⟨(by decide : 1 ≤ 1 ∧ 1 ≤ optionFieldMax), .finish []⟩⟩
  have hnames : payloads (bytes buf 0 9) dhcpHostName = [[97, 98, 99], [120]] := by
    have hbytes : bytes buf 0 9 = [dhcpHostName, 3, 97, 98, 99, dhcpHostName, 1, 120, dhcpEnd] := rfl
    rw [hbytes, payloads_cons _ (by decide) (by decide)]
    exact congrArg ([97, 98, 99] :: ·)
      ((congrFun (payloads_cons _ (by decide) (by decide)) _).trans (congrArg ([120] :: ·) (payloads_end [] _)))
  refine ⟨(parseOptions_eq_zero_iff buf 9 .zeroed).mpr haccepted, fun hholds => ?_⟩
  have hended := ((parseOptions_reached haccepted).holdsLast_iff.mp hholds).1
  rw [hnames] at hended
  rcases hended [120] rfl with hmem | hlonger
  · exact absurd hmem (by decide)
  · exact absurd (hlonger.2 [97, 98, 99] rfl) (by decide)

end Thebends.Dhcp
