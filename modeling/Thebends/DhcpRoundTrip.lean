import Mathlib.Logic.Relation
import Mathlib.Tactic.Linarith
import Thebends.DhcpArrays
import Thebends.LibExcept

/-! What `write_options` writes is read back. Each field is written as one option or not at all; the parser takes
the options one after the other, and each changes its own fields only. -/

namespace Thebends.Dhcp

open LibNetOrder

/-! ### What is written -/

/-- An option that may be left out. -/
def block (present : Bool) (field : Bytes) : Bytes := if present then field else []

theorem length_block_le (present : Bool) (field : Bytes) : (block present field).length ≤ field.length := by
  cases present with
  | false => exact Nat.zero_le _
  | true => exact Nat.le_refl _

theorem emit_ok {maxSize : UInt16} {present : Bool} {room : Nat} {field : Except Fault Bytes} {out written : Bytes}
    (hfield : field = .ok written) (hroom : written.length = room)
    (h : out.length + (block present written).length < maxSize.toNat) :
    emit maxSize present room field out = .ok (out ++ block present written) := by
  cases present with
  | false => rw [emit, if_neg Bool.false_ne_true, block, if_neg Bool.false_ne_true, List.append_nil]; rfl
  | true =>
      rw [block, if_pos rfl, hroom] at h
      rw [emit, if_pos rfl, check, if_pos (decide_eq_true h), hfield, block, if_pos rfl]
      rfl

/-- What the parser can hold. -/
structure Options.Fits (opts : Options) : Prop where
  hostname : (text opts.hostname).length ≤ 63
  domain : (text opts.domain).length ≤ 63
  router : opts.routerNum.toNat ≤ 16
  dns : opts.dnsNum.toNat ≤ 16
  clientId : opts.clientIdLength.toNat ≤ 63
  param : opts.paramSize.toNat ≤ 64

theorem strlen_ok {array : Vector UInt8 optionFieldMax} (h : (text array).length ≤ 63) :
    strlen array = .ok (text array).length := if_pos (Nat.lt_succ_of_le h)

theorem first_ok {α : Type} (array : Vector α optionFieldMax) {count : Nat} (h : count ≤ optionFieldMax) :
    first array count = .ok (array.toList.take count) := if_pos h

theorem length_storeUInt32 (value : UInt32) : (storeUInt32 value).length = 4 := length_toNetwork _ _

theorem length_flatMap_store (words : List UInt32) : (words.flatMap storeUInt32).length = words.length * 4 := by
  induction words with
  | nil => rfl
  | cons word words ih => rw [List.flatMap_cons, List.length_append, length_storeUInt32, ih, List.length_cons]; omega

/-- What is written, one after the other: whether it is, the room that it needs, and its bytes. -/
def Options.items (opts : Options) : List (Bool × Nat × Bytes) :=
  [(opts.messageType > 0, 3, [dhcpMessageType, 1, opts.messageType]),
    (opts.maxSize > 0, 4, [dhcpMaxSize, 2] ++ toNetwork 2 opts.maxSize.toNat),
    ((text opts.hostname).length > 0, (text opts.hostname).length + 2,
      [dhcpHostName, .ofNat (text opts.hostname).length] ++ text opts.hostname),
    (opts.requestedIp > 0, 6, [dhcpRequestedIp, 4] ++ storeUInt32 opts.requestedIp),
    (opts.leaseTime > 0, 6, [dhcpLeaseTime, 4] ++ storeUInt32 opts.leaseTime),
    (opts.serverId > 0, 6, [dhcpServerId, 4] ++ storeUInt32 opts.serverId),
    (opts.subnet > 0, 6, [dhcpSubnetMask, 4] ++ storeUInt32 opts.subnet),
    (opts.routerNum > 0, 2 + opts.routerNum.toNat * 4,
      [dhcpRouter, opts.routerNum * 4] ++ (opts.router.toList.take opts.routerNum.toNat).flatMap storeUInt32),
    (opts.dnsNum > 0, 2 + opts.dnsNum.toNat * 4,
      [dhcpDns, opts.dnsNum * 4] ++ (opts.dns.toList.take opts.dnsNum.toNat).flatMap storeUInt32),
    ((text opts.domain).length > 0, (text opts.domain).length + 2,
      [dhcpDomain, .ofNat (text opts.domain).length] ++ text opts.domain),
    (opts.clientIdLength > 0, opts.clientIdLength.toNat + 3,
      [dhcpClientId, opts.clientIdLength + 1, opts.clientIdType] ++
        opts.clientId.toList.take opts.clientIdLength.toNat),
    (opts.paramSize > 0, opts.paramSize.toNat + 2,
      [dhcpParameterList, opts.paramSize] ++ opts.paramList.toList.take opts.paramSize.toNat),
    (true, 1, [dhcpEnd])]

def written (items : List (Bool × Nat × Bytes)) : Bytes := (items.map fun item => block item.1 item.2.2).flatten

theorem written_cons (item : Bool × Nat × Bytes) (items : List (Bool × Nat × Bytes)) :
    written (item :: items) = block item.1 item.2.2 ++ written items := by
  rw [written, List.map_cons, List.flatten_cons, written]

/-- Where there is room for all, all is written. -/
theorem foldlM_emit {maxSize : UInt16} (items : List (Bool × Nat × Bytes)) (out : Bytes)
    (hroom : ∀ item ∈ items, item.2.2.length = item.2.1)
    (h : out.length + (items.map fun item => item.2.1).sum < maxSize.toNat) :
    items.foldlM (fun out item => emit maxSize item.1 item.2.1 (.ok item.2.2) out) out = .ok (out ++ written items) := by
  induction items generalizing out with
  | nil =>
      rw [written, List.map_nil, List.flatten_nil, List.append_nil]
      rfl
  | cons item items ih =>
      rw [List.map_cons, List.sum_cons] at h
      have hitem := hroom item List.mem_cons_self
      have hlength := length_block_le item.1 item.2.2
      rw [List.foldlM_cons, emit_ok rfl hitem (by omega), LibExcept.ok_bind, ih _ fun other hother =>
        hroom other (List.mem_cons_of_mem _ hother)]
      · rw [written_cons, List.append_assoc]
      · rw [List.length_append]
        omega

/-- The room is what is needed. -/
theorem length_items {opts : Options} (h : opts.Fits) : ∀ item ∈ opts.items, item.2.2.length = item.2.1 := by
  have hrouter := length_take opts.router (Nat.le_trans h.router (by decide))
  have hdns := length_take opts.dns (Nat.le_trans h.dns (by decide))
  have hclientId := length_take opts.clientId (Nat.le_trans h.clientId (by decide))
  have hparam := length_take opts.paramList h.param
  simp only [Options.items, List.forall_mem_cons, List.length_append, List.length_cons, List.length_nil,
    length_toNetwork, length_storeUInt32, length_flatMap_store, hrouter, hdns, hclientId, hparam]
  refine ⟨trivial, trivial, ?_, trivial, trivial, trivial, trivial, trivial, trivial, ?_, ?_, ?_, trivial,
    List.forall_mem_nil _⟩
  all_goals omega

theorem sum_items {opts : Options} (h : opts.Fits) : (opts.items.map fun item => item.2.1).sum ≤ 426 := by
  have hhostname := h.hostname
  have hdomain := h.domain
  have hrouter := h.router
  have hdns := h.dns
  have hclientId := h.clientId
  have hparam := h.param
  simp only [Options.items, List.map_cons, List.map_nil, List.sum_cons, List.sum_nil]
  linarith

/-- The calls of `write_options`, one after the other. -/
theorem writeOptions_eq {opts : Options} (h : opts.Fits) (maxSize : UInt16) :
    writeOptions opts maxSize =
      opts.items.foldlM (fun out item => emit maxSize item.1 item.2.1 (.ok item.2.2) out) [] := by
  have hhostname := first_ok opts.hostname (Nat.le_trans h.hostname (by decide))
  have hdomain := first_ok opts.domain (Nat.le_trans h.domain (by decide))
  rw [take_text] at hhostname hdomain
  have hrouter := first_ok opts.router (Nat.le_trans h.router (by decide))
  have hdns := first_ok opts.dns (Nat.le_trans h.dns (by decide))
  have hclientId := first_ok opts.clientId (Nat.le_trans h.clientId (by decide))
  have hparam := first_ok opts.paramList h.param
  simp only [writeOptions, Options.items, List.foldlM_cons, List.foldlM_nil, strlen_ok h.hostname, strlen_ok h.domain,
    LibExcept.ok_bind, hhostname, hdomain, hrouter, hdns, hclientId, hparam, bind_pure]
  rfl

/-- The bytes of the fields in their order, and the end. -/
theorem writeOptions_ok {opts : Options} {maxSize : UInt16} (h : opts.Fits) (hsize : 427 ≤ maxSize.toNat) :
    writeOptions opts maxSize = .ok (written opts.items) := by
  have hsum := sum_items h
  rw [writeOptions_eq h, foldlM_emit opts.items [] (length_items h) (by rw [List.length_nil]; omega), List.nil_append]

/-! ### What is read -/

/-- The parser reads some bytes, and goes on after them. -/
def Reads (chunk : Bytes) (change : Options → Options → Prop) : Prop :=
  ∀ buf bufLen pos opts, bytes buf pos chunk.length = chunk → pos + chunk.length < bufLen →
    ∃ opts', change opts opts' ∧ parseLoop buf bufLen pos opts = parseLoop buf bufLen (pos + chunk.length) opts'

theorem bytes_append {buf : Nat → UInt8} {pos : Nat} {left right : Bytes}
    (h : bytes buf pos (left ++ right).length = left ++ right) :
    bytes buf pos left.length = left ∧ bytes buf (pos + left.length) right.length = right := by
  have hsplit : bytes buf pos (left ++ right).length =
      bytes buf pos left.length ++ bytes buf (pos + left.length) right.length := by
    rw [bytes, List.length_append, ← List.range'_append_1, List.map_append, bytes, bytes]
  rw [hsplit] at h
  exact List.append_inj h (length_bytes ..)

theorem Reads.nil : Reads [] Eq := fun _ _ _ opts _ _ => ⟨opts, rfl, rfl⟩

theorem Reads.mono {chunk : Bytes} {change change' : Options → Options → Prop} (h : Reads chunk change)
    (hle : ∀ opts opts', change opts opts' → change' opts opts') : Reads chunk change' := by
  intro buf bufLen pos opts hbytes hroom
  obtain ⟨opts', hchange, hloop⟩ := h buf bufLen pos opts hbytes hroom
  exact ⟨opts', hle opts opts' hchange, hloop⟩

theorem Reads.append {left right : Bytes} {change change' : Options → Options → Prop} (h : Reads left change)
    (h' : Reads right change') : Reads (left ++ right) (Relation.Comp change change') := by
  intro buf bufLen pos opts hbytes hroom
  obtain ⟨hleft, hright⟩ := bytes_append hbytes
  rw [List.length_append] at hroom
  obtain ⟨middle, hchange, hloop⟩ := h buf bufLen pos opts hleft (by omega)
  obtain ⟨last, hchange', hloop'⟩ := h' buf bufLen (pos + left.length) middle hright (by omega)
  refine ⟨last, ⟨middle, hchange, hchange'⟩, hloop.trans ?_⟩
  rw [hloop', List.length_append, Nat.add_assoc]

/-- An option that may be left out. -/
theorem Reads.block {present : Bool} {field : Bytes} {change : Options → Options → Prop}
    (h : present = true → Reads field change) (hnot : present = false → ∀ opts, change opts opts) :
    Reads (block present field) change := by
  cases present with
  | false => exact fun _ _ _ opts _ _ => ⟨opts, hnot rfl opts, rfl⟩
  | true => exact h rfl

/-- One option, whose data the switch takes. -/
theorem reads_option {code len : UInt8} (data : Bytes) {change : Options → Options → Prop} (hpad : code ≠ dhcpPad)
    (hend : code ≠ dhcpEnd) (hlen : data.length = len.toNat)
    (h : ∀ buf pos opts, bytes buf pos data.length = data → ∃ opts', change opts opts' ∧
      parseOption buf pos code len opts = some opts') : Reads ([code, len] ++ data) change := by
  intro buf bufLen pos opts hbytes hroom
  obtain ⟨hhead, hdata⟩ := bytes_append hbytes
  have hcode : buf pos = code ∧ buf (pos + 1) = len := by
    rw [List.length_cons, bytes_succ, List.length_cons, bytes_succ] at hhead
    cases hhead
    exact ⟨rfl, rfl⟩
  obtain ⟨opts', hchange, hparse⟩ := h buf (pos + 2) opts hdata
  refine ⟨opts', hchange, ?_⟩
  rw [List.length_append, List.length_cons, List.length_cons, List.length_nil] at hroom ⊢
  rw [parseLoop, if_pos (by omega), hcode.1, hcode.2, if_neg hend, if_neg (by
    rintro (heq | hle)
    · exact hpad heq
    · omega)]
  simp only [hparse]
  rw [hlen]
  congr 1
  omega

/-! ### The fields -/

theorem load_store {buf : Nat → UInt8} {pos count value : Nat} (hvalue : value < 256 ^ count)
    (h : bytes buf pos count = toNetwork count value) : load buf pos count = value := by
  rw [load, h, ofNetwork_toNetwork hvalue]

theorem loadUInt32_store {buf : Nat → UInt8} {pos : Nat} {value : UInt32} (h : bytes buf pos 4 = storeUInt32 value) :
    loadUInt32 buf pos = value := by
  rw [loadUInt32, load_store value.toNat_lt h, UInt32.ofNat_toNat]

/-- An address or a time. -/
theorem reads_uint32 {code : UInt8} (hpad : code ≠ dhcpPad) (hend : code ≠ dhcpEnd) (value : UInt32)
    (set : Options → UInt32 → Options) (get : Options → UInt32) (hset : ∀ opts, get opts = 0 → opts = set opts 0)
    (h : ∀ buf pos opts, parseOption buf pos code 4 opts = some (set opts (loadUInt32 buf pos))) :
    Reads (block (value > 0) ([code, 4] ++ storeUInt32 value)) fun opts opts' => get opts = 0 → opts' = set opts value := by
  refine .block (fun _ => reads_option _ hpad hend (length_storeUInt32 value) fun buf pos opts hbytes => ?_)
    fun hzero opts => ?_
  · rw [length_storeUInt32] at hbytes
    refine ⟨set opts value, fun _ => rfl, ?_⟩
    rw [h, loadUInt32_store hbytes]
  · have hvalue : value = 0 := by simpa using hzero
    exact hvalue ▸ hset opts

/-- Addresses, one after the other. -/
theorem map_loadUInt32 {buf : Nat → UInt8} {pos : Nat} {words : List UInt32}
    (h : bytes buf pos (words.flatMap storeUInt32).length = words.flatMap storeUInt32) :
    (List.range words.length).map (fun index => loadUInt32 buf (pos + index * 4)) = words := by
  induction words generalizing pos with
  | nil => rfl
  | cons word words ih =>
      rw [List.flatMap_cons] at h
      obtain ⟨hword, hwords⟩ := bytes_append h
      rw [length_storeUInt32] at hword hwords
      rw [List.length_cons, List.range_succ_eq_map, List.map_cons, List.map_map, Nat.zero_mul, Nat.add_zero,
        loadUInt32_store hword]
      congr 1
      refine Eq.trans (List.map_congr_left fun index _ => ?_) (ih hwords)
      simp only [Function.comp_apply]
      congr 1
      omega

theorem reads_messageType (value : UInt8) : Reads (block (value > 0) [dhcpMessageType, 1, value]) fun opts opts' =>
    opts.messageType = 0 → opts' = { opts with messageType := value } := by
  refine .block (fun _ => reads_option [value] (by decide) (by decide) rfl fun buf pos opts hbytes => ?_)
    fun hzero opts hopts => ?_
  · refine ⟨{ opts with messageType := value }, fun _ => rfl, ?_⟩
    have hbuf : buf pos = value := (List.cons.inj hbytes).1
    rw [← hbuf]
    rfl
  · have hvalue : value = 0 := by simpa using hzero
    rw [hvalue, ← hopts]

theorem reads_maxSize (value : UInt16) :
    Reads (block (value > 0) ([dhcpMaxSize, 2] ++ toNetwork 2 value.toNat)) fun opts opts' =>
      opts.maxSize = 0 → opts' = { opts with maxSize := value } := by
  refine .block (fun _ => reads_option _ (by decide) (by decide) (length_toNetwork ..) fun buf pos opts hbytes => ?_)
    fun hzero opts hopts => ?_
  · refine ⟨{ opts with maxSize := value }, fun _ => rfl, ?_⟩
    rw [length_toNetwork] at hbytes
    have hload : parseOption buf pos dhcpMaxSize 2 opts = some { opts with maxSize := .ofNat (load buf pos 2) } := rfl
    rw [hload, load_store value.toNat_lt hbytes, UInt16.ofNat_toNat]
  · have hvalue : value = 0 := by simpa using hzero
    rw [hvalue, ← hopts]

/-! ### Strings -/

/-- A name. -/
theorem reads_string {code : UInt8} (hpad : code ≠ dhcpPad) (hend : code ≠ dhcpEnd) (array : Vector UInt8 optionFieldMax)
    (harray : (text array).length ≤ 63) (set : Options → Vector UInt8 optionFieldMax → Options)
    (get : Options → Vector UInt8 optionFieldMax) (hset : ∀ opts, opts = set opts (get opts))
    (h : ∀ buf pos len opts, ¬len < 1 → len.toNat ≤ optionFieldMax → parseOption buf pos code len opts =
      some (set opts (strncpy (get opts) (fun index => buf (pos + index)) len.toNat))) :
    Reads (block ((text array).length > 0) ([code, .ofNat (text array).length] ++ text array)) fun opts opts' =>
      get opts = zeros → ∃ array', opts' = set opts array' ∧ text array' = text array := by
  have hlen : (UInt8.ofNat (text array).length).toNat = (text array).length :=
    UInt8.toNat_ofNat_of_lt' (Nat.lt_of_le_of_lt harray (by decide))
  refine .block (fun hpos => reads_option _ hpad hend hlen.symm fun buf pos opts hbytes => ?_) fun hzero opts hopts => ?_
  · refine ⟨_, fun hopts => ⟨_, rfl, ?_⟩, h buf pos _ opts ?_ ?_⟩
    · rw [hopts, hlen]
      exact text_strncpy (fun _ => ne_zero_of_mem_text) (Nat.lt_succ_of_le harray) hbytes
    · rw [UInt8.lt_iff_toNat_lt, hlen]
      exact Nat.not_lt.mpr (of_decide_eq_true hpos)
    · rw [hlen]
      exact Nat.le_trans harray (by decide)
  · have hnil : text array = [] := by simpa using hzero
    exact ⟨get opts, hset opts, by rw [hopts, text_zeros, hnil]⟩

/-! ### Lists -/

/-- A list of addresses. -/
theorem reads_addresses {code : UInt8} (hpad : code ≠ dhcpPad) (hend : code ≠ dhcpEnd) (num : UInt8)
    (array : Vector UInt32 optionFieldMax) (hnum : num.toNat ≤ 16)
    (set : Options → UInt8 → Vector UInt32 optionFieldMax → Options) (getNum : Options → UInt8)
    (get : Options → Vector UInt32 optionFieldMax) (hset : ∀ opts, getNum opts = 0 → opts = set opts 0 (get opts))
    (h : ∀ buf pos len opts, ¬(len ≥ 4 ∧ len % 4 ≠ 0) → len.toNat ≤ optionFieldMax → parseOption buf pos code len opts =
      some (set opts (len / 4) (fill (get opts) (len / 4).toNat fun index => loadUInt32 buf (pos + index * 4)))) :
    Reads (block (num > 0) ([code, num * 4] ++ (array.toList.take num.toNat).flatMap storeUInt32)) fun opts opts' =>
      getNum opts = 0 → ∃ array', opts' = set opts num array' ∧
        array'.toList.take num.toNat = array.toList.take num.toNat := by
  have hlen : (num * 4).toNat = num.toNat * 4 := by
    rw [UInt8.toNat_mul, Nat.mod_eq_of_lt]
    · rfl
    · exact Nat.lt_of_le_of_lt (Nat.mul_le_mul_right 4 hnum) (by decide)
  have hquotient : num * 4 / 4 = num := by
    rw [← UInt8.toNat_inj, UInt8.toNat_div, hlen]
    exact Nat.mul_div_cancel _ (by decide)
  have hwords := length_take array (Nat.le_trans hnum (by decide))
  refine .block (fun _ => reads_option _ hpad hend ?_ fun buf pos opts hbytes => ?_) fun hzero opts hopts => ?_
  · rw [length_flatMap_store, hwords, hlen]
  · refine ⟨_, fun _ => ⟨_, rfl, ?_⟩, (h buf pos (num * 4) opts ?_ ?_).trans (by rw [hquotient])⟩
    · have hmap := map_loadUInt32 hbytes
      rw [hwords] at hmap
      exact (take_fill _ (Nat.le_trans hnum (by decide)) _).trans hmap
    · rintro ⟨-, hne⟩
      refine hne (UInt8.toNat_inj.mp ?_)
      rw [UInt8.toNat_mod, hlen]
      exact Nat.mul_mod_left _ _
    · rw [hlen]
      exact Nat.mul_le_mul_right 4 hnum
  · have hnum : num = 0 := by simpa using hzero
    exact ⟨get opts, hnum ▸ hset opts hopts, by rw [hnum]; rfl⟩

theorem reads_clientId (type length : UInt8) (array : Vector UInt8 optionFieldMax) (hlength : length.toNat ≤ 63) :
    Reads (block (length > 0) ([dhcpClientId, length + 1, type] ++ array.toList.take length.toNat)) fun opts opts' =>
      opts.clientIdLength = 0 → ∃ type' array',
        opts' = { opts with clientIdType := type', clientIdLength := length, clientId := array' } ∧
          (length ≠ 0 → type' = type) ∧ array'.toList.take length.toNat = array.toList.take length.toNat := by
  have hlen : (length + 1).toNat = length.toNat + 1 := by
    rw [UInt8.toNat_add, Nat.mod_eq_of_lt]
    · rfl
    · exact Nat.lt_of_le_of_lt (Nat.succ_le_succ hlength) (by decide)
  have hdata := length_take array (Nat.le_trans hlength (by decide))
  refine .block (fun hpos => reads_option (type :: array.toList.take length.toNat) (by decide) (by decide) ?_
    fun buf pos opts hbytes => ?_) fun hzero opts hopts => ?_
  · rw [List.length_cons, hdata, hlen]
  · rw [List.length_cons, bytes_succ] at hbytes
    obtain ⟨htype, hid⟩ := List.cons.inj hbytes
    rw [hdata] at hid
    have hmore : ¬length + 1 < 2 := by
      have hpos' : 0 < length.toNat := UInt8.lt_iff_toNat_lt.mp (of_decide_eq_true hpos)
      rw [UInt8.lt_iff_toNat_lt, hlen]
      exact Nat.not_lt.mpr (Nat.succ_le_succ hpos')
    have hfew : ¬(length + 1).toNat > optionFieldMax := by
      rw [hlen]
      exact Nat.not_lt.mpr (Nat.succ_le_succ hlength)
    have hback : length + 1 - 1 = length := by
      rw [UInt8.add_sub_cancel]
    refine ⟨{ opts with
      clientIdType := type
      clientIdLength := length
      clientId := fill opts.clientId (length + 1).toNat fun index => buf (pos + 1 + index) },
      fun _ => ⟨_, _, rfl, fun _ => rfl, ?_⟩, ?_⟩
    · -- the byte after the id is copied too
      have htake := take_fill_bytes opts.clientId buf (pos + 1) (Nat.le_of_not_gt hfew)
      have hle : length.toNat ≤ (length + 1).toNat := by
        rw [hlen]
        exact Nat.le_succ _
      have hshort := congrArg (List.take length.toNat) htake
      rw [List.take_take, Nat.min_eq_left hle, bytes, ← List.map_take, List.take_range'_of_length_ge hle] at hshort
      exact hshort.trans hid
    · have hparse : parseOption buf pos dhcpClientId (length + 1) opts =
          if length + 1 < 2 then none
          else if (length + 1).toNat > optionFieldMax then none
          else some { opts with
            clientIdType := buf pos
            clientIdLength := length + 1 - 1
            clientId := fill opts.clientId (length + 1).toNat fun index => buf (pos + 1 + index) } := rfl
      rw [hparse, if_neg hmore, if_neg hfew, htype, hback]
  · have hlength : length = 0 := by simpa using hzero
    refine ⟨opts.clientIdType, opts.clientId, ?_, fun hne => absurd hlength hne, by rw [hlength]; rfl⟩
    rw [hlength, ← hopts]

theorem reads_param (size : UInt8) (array : Vector UInt8 optionFieldMax) (hsize : size.toNat ≤ 64) :
    Reads (block (size > 0) ([dhcpParameterList, size] ++ array.toList.take size.toNat)) fun opts opts' =>
      opts.paramSize = 0 → ∃ array', opts' = { opts with paramList := array', paramSize := size } ∧
        array'.toList.take size.toNat = array.toList.take size.toNat := by
  have hdata := length_take array hsize
  refine .block (fun hpos => reads_option _ (by decide) (by decide) hdata fun buf pos opts hbytes => ?_)
    fun hzero opts hopts => ?_
  · rw [hdata] at hbytes
    have hmore : ¬size < 1 := by
      have hpos' : 0 < size.toNat := UInt8.lt_iff_toNat_lt.mp (of_decide_eq_true hpos)
      rw [UInt8.lt_iff_toNat_lt]
      exact Nat.not_lt.mpr hpos'
    refine ⟨{ opts with
      paramList := fill opts.paramList size.toNat fun index => buf (pos + index)
      paramSize := size }, fun _ => ⟨_, rfl, ?_⟩, ?_⟩
    · rw [take_fill_bytes opts.paramList buf pos hsize, hbytes]
    · have hparse : parseOption buf pos dhcpParameterList size opts =
          if size < 1 then none
          else if size.toNat > optionFieldMax then none
          else some { opts with
            paramList := fill opts.paramList size.toNat fun index => buf (pos + index)
            paramSize := size } := rfl
      rw [hparse, if_neg hmore, if_neg (Nat.not_lt.mpr hsize)]
  · have hsize : size = 0 := by simpa using hzero
    refine ⟨opts.paramList, ?_, by rw [hsize]; rfl⟩
    rw [hsize, ← hopts]

/-! ### The round trip -/

/-- What is read is what was written. -/
structure Same (opts parsed : Options) : Prop where
  messageType : parsed.messageType = opts.messageType
  maxSize : parsed.maxSize = opts.maxSize
  hostname : text parsed.hostname = text opts.hostname
  requestedIp : parsed.requestedIp = opts.requestedIp
  leaseTime : parsed.leaseTime = opts.leaseTime
  serverId : parsed.serverId = opts.serverId
  subnet : parsed.subnet = opts.subnet
  routerNum : parsed.routerNum = opts.routerNum
  router : parsed.router.toList.take opts.routerNum.toNat = opts.router.toList.take opts.routerNum.toNat
  dnsNum : parsed.dnsNum = opts.dnsNum
  dns : parsed.dns.toList.take opts.dnsNum.toNat = opts.dns.toList.take opts.dnsNum.toNat
  domain : text parsed.domain = text opts.domain
  clientIdType : opts.clientIdLength ≠ 0 → parsed.clientIdType = opts.clientIdType
  clientIdLength : parsed.clientIdLength = opts.clientIdLength
  clientId : parsed.clientId.toList.take opts.clientIdLength.toNat = opts.clientId.toList.take opts.clientIdLength.toNat
  paramSize : parsed.paramSize = opts.paramSize
  paramList : parsed.paramList.toList.take opts.paramSize.toNat = opts.paramList.toList.take opts.paramSize.toNat

/-- All fields are read, each from its option or from none. -/
theorem reads_written {opts : Options} (h : opts.Fits) :
    ∃ chunk, written opts.items = chunk ++ [dhcpEnd] ∧
      Reads chunk fun start parsed => start = .zeroed → Same opts parsed := by
  have hhostname := reads_string (by decide : dhcpHostName ≠ dhcpPad) (by decide) opts.hostname h.hostname
    (fun opts array => { opts with hostname := array }) Options.hostname (fun _ => rfl)
    fun _ _ _ _ hmore hfew => (if_neg hmore).trans (if_neg (Nat.not_lt.mpr hfew))
  have hdomain := reads_string (by decide : dhcpDomain ≠ dhcpPad) (by decide) opts.domain h.domain
    (fun opts array => { opts with domain := array }) Options.domain (fun _ => rfl)
    fun _ _ _ _ hmore hfew => (if_neg hmore).trans (if_neg (Nat.not_lt.mpr hfew))
  have hrequestedIp := reads_uint32 (by decide : dhcpRequestedIp ≠ dhcpPad) (by decide) opts.requestedIp
    (fun opts value => { opts with requestedIp := value }) Options.requestedIp (fun _ hzero => by rw [← hzero])
    fun _ _ _ => rfl
  have hleaseTime := reads_uint32 (by decide : dhcpLeaseTime ≠ dhcpPad) (by decide) opts.leaseTime
    (fun opts value => { opts with leaseTime := value }) Options.leaseTime (fun _ hzero => by rw [← hzero])
    fun _ _ _ => rfl
  have hserverId := reads_uint32 (by decide : dhcpServerId ≠ dhcpPad) (by decide) opts.serverId
    (fun opts value => { opts with serverId := value }) Options.serverId (fun _ hzero => by rw [← hzero])
    fun _ _ _ => rfl
  have hsubnet := reads_uint32 (by decide : dhcpSubnetMask ≠ dhcpPad) (by decide) opts.subnet
    (fun opts value => { opts with subnet := value }) Options.subnet (fun _ hzero => by rw [← hzero])
    fun _ _ _ => rfl
  have hrouter := reads_addresses (by decide : dhcpRouter ≠ dhcpPad) (by decide) opts.routerNum opts.router h.router
    (fun opts num array => { opts with routerNum := num, router := array }) Options.routerNum Options.router
    (fun _ hzero => by rw [← hzero]) fun _ _ _ _ hwords hfew => (if_neg hwords).trans (if_neg (Nat.not_lt.mpr hfew))
  have hdns := reads_addresses (by decide : dhcpDns ≠ dhcpPad) (by decide) opts.dnsNum opts.dns h.dns
    (fun opts num array => { opts with dnsNum := num, dns := array }) Options.dnsNum Options.dns
    (fun _ hzero => by rw [← hzero]) fun _ _ _ _ hwords hfew => (if_neg hwords).trans (if_neg (Nat.not_lt.mpr hfew))
  have hclientId := reads_clientId opts.clientIdType opts.clientIdLength opts.clientId h.clientId
  have hparam := reads_param opts.paramSize opts.paramList h.param
  have hall := (reads_messageType opts.messageType).append <| (reads_maxSize opts.maxSize).append <|
    hhostname.append <| hrequestedIp.append <| hleaseTime.append <| hserverId.append <| hsubnet.append <|
    hrouter.append <| hdns.append <| hdomain.append <| hclientId.append hparam
  refine ⟨_, ?_, hall.mono fun start parsed hchange hstart => ?_⟩
  · simp only [written, Options.items, List.map_cons, List.map_nil, List.flatten_cons, List.flatten_nil, List.append_assoc]
    rfl
  · -- each change starts from a field that is still zero
    subst hstart
    obtain ⟨opts₁, h₁, opts₂, h₂, opts₃, h₃, opts₄, h₄, opts₅, h₅, opts₆, h₆, opts₇, h₇, opts₈, h₈, opts₉, h₉, opts₁₀, h₁₀,
      opts₁₁, h₁₁, h₁₂⟩ := hchange
    obtain rfl := h₁ rfl
    obtain rfl := h₂ rfl
    obtain ⟨hostname, rfl, hhostname⟩ := h₃ rfl
    obtain rfl := h₄ rfl
    obtain rfl := h₅ rfl
    obtain rfl := h₆ rfl
    obtain rfl := h₇ rfl
    obtain ⟨router, rfl, hrouter⟩ := h₈ rfl
    obtain ⟨dns, rfl, hdns⟩ := h₉ rfl
    obtain ⟨domain, rfl, hdomain⟩ := h₁₀ rfl
    obtain ⟨type, clientId, rfl, htype, hclientId⟩ := h₁₁ rfl
    obtain ⟨paramList, rfl, hparamList⟩ := h₁₂ rfl
    exact ⟨rfl, rfl, hhostname, rfl, rfl, rfl, rfl, rfl, hrouter, rfl, hdns, hdomain, htype, rfl, hclientId, rfl, hparamList⟩

/-- The bytes of the fields, and no more, are read from zeroed options. -/
theorem parseOptions_items {opts : Options} (h : opts.Fits) {buf : Nat → UInt8}
    (hbuf : bytes buf 0 (written opts.items).length = written opts.items) :
    (parseOptions buf (written opts.items).length .zeroed).1 = 0 ∧
      Same opts (parseOptions buf (written opts.items).length .zeroed).2 := by
  obtain ⟨chunk, hwritten, hreads⟩ := reads_written h
  rw [hwritten] at hbuf ⊢
  obtain ⟨hchunk, hlast⟩ := bytes_append hbuf
  have hlength : (chunk ++ [dhcpEnd]).length = chunk.length + 1 := List.length_append
  rw [hlength]
  obtain ⟨parsed, hsame, hloop⟩ := hreads buf (chunk.length + 1) 0 .zeroed hchunk (by omega)
  have hend : buf (0 + chunk.length) = dhcpEnd := (List.cons.inj hlast).1
  have hresult : parseLoop buf (chunk.length + 1) 0 .zeroed = (some (chunk.length + 1, true), parsed) := by
    rw [hloop, parseLoop, if_pos (by omega), if_pos hend]
  have hparse : parseOptions buf (chunk.length + 1) .zeroed = (0, parsed) := by
    rw [parseOptions, hresult]
    simp
  rw [hparse]
  exact ⟨rfl, hsame rfl⟩

/-- **What `write_options` writes is read back by `parse_options`.** -/
theorem parse_written {opts : Options} {maxSize : UInt16} (h : opts.Fits) (hsize : 427 ≤ maxSize.toNat) :
    ∃ out, writeOptions opts maxSize = .ok out ∧ ∀ buf, bytes buf 0 out.length = out →
      (parseOptions buf out.length .zeroed).1 = 0 ∧ Same opts (parseOptions buf out.length .zeroed).2 :=
  ⟨written opts.items, writeOptions_ok h hsize, fun _ hbuf => parseOptions_items h hbuf⟩

/-- An offer with a name, an address of a router, and a client that is known by its hardware address. -/
theorem parse_written_offer :
    let opts := { Options.zeroed with
      messageType := 2
      hostname := zeros.set 0 97
      leaseTime := 14400
      routerNum := 1
      router := Options.zeroed.router.set 0 0x0a000101
      clientIdType := 1
      clientIdLength := 6 }
    ∃ out, writeOptions opts 427 = .ok out ∧ ∀ buf, bytes buf 0 out.length = out →
      (parseOptions buf out.length .zeroed).1 = 0 ∧ Same opts (parseOptions buf out.length .zeroed).2 :=
  parse_written ⟨by decide, by decide, by decide, by decide, by decide, by decide⟩ (by decide)

end Thebends.Dhcp
