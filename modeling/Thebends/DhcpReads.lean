import Thebends.DhcpArrays
import Thebends.LibNoting

/-! Which positions `parse_options` reads. It is the same parser, in any monad with an operation that reads a byte:
one in which each position is noted, and one in which a position behind the buffer is a fault. -/

namespace Thebends.Dhcp

open LibCString LibNetOrder LibNoting

/-! ### The parser -/

section

variable {m : Type → Type} [Monad m] (readAt : Nat → m UInt8)

/-- What `strncpy` reads, filled up with zeros. -/
def readString (pos : Nat) : Nat → m Bytes
  | 0 => pure []
  | count + 1 => do
      let byte ← readAt pos
      if byte = 0 then return List.replicate (count + 1) 0
      else return byte :: (← readString (pos + 1) count)

def readUInt32 (pos : Nat) : m UInt32 := return .ofNat (ofNetwork (← readRange readAt pos 4))

/-- The loop over the addresses. -/
def readAddresses (pos count : Nat) : m (List UInt32) :=
  (List.range count).mapM fun index => readUInt32 readAt (pos + index * 4)

/-- What was read is stored in the first elements of an array. -/
def store {α : Type} [Inhabited α] (array : Vector α optionFieldMax) (data : List α) : Vector α optionFieldMax :=
  fill array data.length fun index => data.getD index default

/-- The cases of the switch. -/
def scanOption (pos : Nat) (code len : UInt8) (opts : Options) : m (Option Options) :=
  match code with
  | dhcpSubnetMask =>
      if len ≠ 4 then pure none
      else do return some { opts with subnet := ← readUInt32 readAt pos }
  | dhcpRouter =>
      if len ≥ 4 ∧ len % 4 ≠ 0 then pure none
      else if len.toNat > optionFieldMax then pure none
      else do return some { opts with
        routerNum := len / 4
        router := store opts.router (← readAddresses readAt pos (len / 4).toNat) }
  | dhcpDns =>
      if len ≥ 4 ∧ len % 4 ≠ 0 then pure none
      else if len.toNat > optionFieldMax then pure none
      else do return some { opts with
        dnsNum := len / 4
        dns := store opts.dns (← readAddresses readAt pos (len / 4).toNat) }
  | dhcpDomain =>
      if len < 1 then pure none
      else if len.toNat > optionFieldMax then pure none
      else do return some { opts with domain := store opts.domain (← readString readAt pos len.toNat) }
  | dhcpMessageType =>
      if len ≠ 1 then pure none
      else do return some { opts with messageType := ← readAt pos }
  | dhcpMaxSize =>
      if len ≠ 2 then pure none
      else do return some { opts with maxSize := .ofNat (ofNetwork (← readRange readAt pos 2)) }
  | dhcpHostName =>
      if len < 1 then pure none
      else if len.toNat > optionFieldMax then pure none
      else do return some { opts with hostname := store opts.hostname (← readString readAt pos len.toNat) }
  | dhcpRequestedIp =>
      if len ≠ 4 then pure none
      else do return some { opts with requestedIp := ← readUInt32 readAt pos }
  | dhcpLeaseTime =>
      if len ≠ 4 then pure none
      else do return some { opts with leaseTime := ← readUInt32 readAt pos }
  | dhcpOverload =>
      if len ≠ 1 then pure none
      else pure (some opts)
  | dhcpServerId =>
      if len ≠ 4 then pure none
      else do return some { opts with serverId := ← readUInt32 readAt pos }
  | dhcpClientId =>
      if len < 2 then pure none
      else if len.toNat > optionFieldMax then pure none
      else do
        let type ← readAt pos
        let id ← readRange readAt (pos + 1) len.toNat
        return some { opts with
          clientIdType := type
          clientIdLength := len - 1
          clientId := store opts.clientId id }
  | dhcpParameterList =>
      if len < 1 then pure none
      else if len.toNat > optionFieldMax then pure none
      else do return some { opts with
        paramList := store opts.paramList (← readRange readAt pos len.toNat)
        paramSize := len }
  | _ => pure (some opts)

/-- The loop. -/
def scanLoop (bufLen pos : Nat) (opts : Options) : m (Option (Nat × Bool) × Options) :=
  if pos < bufLen then do
    let code ← readAt pos
    if code = dhcpEnd then return (some (bufLen, true), opts)
    else if code = dhcpPad ∨ pos + 1 + 1 ≥ bufLen then return (some (pos + 1, false), opts)
    else
      let len ← readAt (pos + 1)
      match ← scanOption readAt (pos + 2) code len opts with
      | none => return (none, opts)
      | some opts => scanLoop bufLen (pos + 2 + len.toNat) opts
  else return (some (pos, false), opts)
termination_by bufLen - pos

/-- `parse_options`. -/
def scanOptions (bufLen : Nat) (opts : Options) : m (Int × Options) := do
  match ← scanLoop readAt bufLen 0 opts with
  | (none, opts) => return (-1, opts)
  | (some (pos, seen), opts) =>
      if !seen then return (-1, opts)
      else if pos ≠ bufLen then return (-1, opts)
      else return (0, opts)

end

/-- The positions that `parse_options` reads. -/
def positionsRead (buf : Nat → UInt8) (bufLen : Nat) (opts : Options) : List Nat :=
  (scanOptions (noteAt buf) bufLen opts []).2

/-- `parse_options` where nothing may be read behind the buffer. -/
def parseBuffer (buffer : Bytes) (opts : Options) : Except Fault (Int × Options) :=
  scanOptions (fetch buffer .outOfBounds) buffer.length opts

/-! ### What it reads -/

/-- Up to where `strncpy` reads. -/
def reach (buf : Nat → UInt8) (pos : Nat) : Nat → Nat
  | 0 => 0
  | count + 1 => if buf pos = 0 then 1 else reach buf (pos + 1) count + 1

/-- What a case of the switch copies. -/
def copied (buf : Nat → UInt8) (pos : Nat) (code len : UInt8) : List Nat :=
  match code with
  | dhcpSubnetMask | dhcpRequestedIp | dhcpLeaseTime | dhcpServerId =>
      if len ≠ 4 then [] else List.range' pos 4
  | dhcpRouter | dhcpDns =>
      if len ≥ 4 ∧ len % 4 ≠ 0 then []
      else if len.toNat > optionFieldMax then []
      else List.range' pos ((len / 4).toNat * 4)
  | dhcpDomain | dhcpHostName =>
      if len < 1 then [] else if len.toNat > optionFieldMax then [] else List.range' pos (reach buf pos len.toNat)
  | dhcpMessageType => if len ≠ 1 then [] else [pos]
  | dhcpMaxSize => if len ≠ 2 then [] else List.range' pos 2
  | dhcpOverload => if len ≠ 1 then [] else []
  | dhcpClientId =>
      if len < 2 then [] else if len.toNat > optionFieldMax then [] else List.range' pos (len.toNat + 1)
  | dhcpParameterList =>
      if len < 1 then [] else if len.toNat > optionFieldMax then [] else List.range' pos len.toNat
  | _ => []

section

variable {m : Type → Type} [Monad m] {readAt : Nat → m UInt8} {buf : Nat → UInt8}
  (R : Reading m readAt buf)

theorem store_map {α : Type} [Inhabited α] (array : Vector α optionFieldMax) (value : Nat → α) (count : Nat) :
    store array ((List.range count).map value) = fill array count value := by
  rw [store, List.length_map, List.length_range]
  refine fill_congr array fun index hindex => ?_
  rw [List.getD_eq_getElem?_getD, List.getElem?_map, List.getElem?_range hindex]
  rfl

theorem visits_readUInt32 [LawfulMonad m] (pos : Nat) :
    R.Visits (readUInt32 readAt pos) (loadUInt32 buf pos) (List.range' pos 4) :=
  (R.visits_readRange pos 4).map fun data => UInt32.ofNat (ofNetwork data)

/-- Words that lie one after the other. -/
theorem flatMap_words (pos count : Nat) :
    (List.range count).flatMap (fun index => List.range' (pos + index * 4) 4) = List.range' pos (count * 4) := by
  induction count with
  | zero => rw [Nat.zero_mul]; rfl
  | succ count ih =>
      rw [List.range_succ, List.flatMap_append, ih, List.flatMap_singleton, List.range'_append_1, Nat.succ_mul]

theorem visits_readAddresses [LawfulMonad m] (pos count : Nat) :
    R.Visits (readAddresses readAt pos count) ((List.range count).map fun index => loadUInt32 buf (pos + index * 4))
      (List.range' pos (count * 4)) := by
  rw [← flatMap_words]
  exact R.visits_mapM (fun index => visits_readUInt32 R (pos + index * 4)) (List.range count)

theorem visits_readString (pos count : Nat) :
    R.Visits (readString readAt pos count) (cut 0 (bytes buf pos count)) (List.range' pos (reach buf pos count)) := by
  induction count generalizing pos with
  | zero => exact R.visits_pure []
  | succ count ih =>
      have hstep : readString readAt pos (count + 1) = readAt pos >>= fun byte =>
          if byte = 0 then pure (List.replicate (count + 1) 0)
          else readString readAt (pos + 1) count >>= fun rest => pure (byte :: rest) := rfl
      have hafter : R.Visits
          (if buf pos = 0 then pure (List.replicate (count + 1) 0)
            else readString readAt (pos + 1) count >>= fun rest => pure (buf pos :: rest))
          (if buf pos = 0 then List.replicate (count + 1) 0 else buf pos :: cut 0 (bytes buf (pos + 1) count))
          (if buf pos = 0 then [] else List.range' (pos + 1) (reach buf (pos + 1) count)) :=
        .ite (fun _ => R.visits_pure _) fun _ => (ih (pos + 1)).map fun rest => buf pos :: rest
      have hpositions : List.range' pos (reach buf pos (count + 1)) =
          [pos] ++ if buf pos = 0 then [] else List.range' (pos + 1) (reach buf (pos + 1) count) := by
        rw [reach]
        split
        case isTrue => rfl
        case isFalse => rfl
      rw [hstep, bytes_succ, cut, length_bytes, hpositions]
      exact (R.visits_readAt pos).bind hafter

theorem store_bytes (array : Vector UInt8 optionFieldMax) (buf : Nat → UInt8) (pos count : Nat) :
    store array ((List.range' pos count).map buf) = fill array count fun index => buf (pos + index) := by
  rw [List.range'_eq_map_range, List.map_map]
  exact store_map array (fun index => buf (pos + index)) count

theorem store_cut (array : Vector UInt8 optionFieldMax) (buf : Nat → UInt8) (pos count : Nat) :
    store array (cut 0 (bytes buf pos count)) = strncpy array (fun index => buf (pos + index)) count := by
  rw [← map_strncpy]
  exact store_map array _ count

/-! ### The switch -/

/-- A length that is checked exactly. -/
theorem visits_exact {len : UInt8} (count : UInt8) {computation : m (Option Options)} {value : Option Options}
    {positions : List Nat} (h : R.Visits computation value positions) :
    R.Visits (if len ≠ count then pure none else computation) (if len ≠ count then none else value)
      (if len ≠ count then [] else positions) := .ite (fun _ => R.visits_pure none) fun _ => h

theorem visits_checked {bad long : Prop} [Decidable bad] [Decidable long] {computation : m (Option Options)}
    {value : Option Options} {positions : List Nat} (h : R.Visits computation value positions) :
    R.Visits (if bad then pure none else if long then pure none else computation)
      (if bad then none else if long then none else value) (if bad then [] else if long then [] else positions) :=
  .ite (fun _ => R.visits_pure none) fun _ => .ite (fun _ => R.visits_pure none) fun _ => h

/-- A word that goes into one field. -/
theorem visits_word [LawfulMonad m] (pos : Nat) (len : UInt8) (set : UInt32 → Options) :
    R.Visits (if len ≠ 4 then pure none else readUInt32 readAt pos >>= fun value => pure (some (set value)))
      (if len ≠ 4 then none else some (set (loadUInt32 buf pos))) (if len ≠ 4 then [] else List.range' pos 4) :=
  visits_exact R 4 ((visits_readUInt32 R pos).map fun value => some (set value))

theorem visits_words [LawfulMonad m] (pos : Nat) (len : UInt8) (array : Vector UInt32 optionFieldMax)
    (set : Vector UInt32 optionFieldMax → Options) :
    R.Visits
      (if len ≥ 4 ∧ len % 4 ≠ 0 then pure none
        else if len.toNat > optionFieldMax then pure none
        else readAddresses readAt pos (len / 4).toNat >>= fun data => pure (some (set (store array data))))
      (if len ≥ 4 ∧ len % 4 ≠ 0 then none
        else if len.toNat > optionFieldMax then none
        else some (set (fill array (len / 4).toNat fun index => loadUInt32 buf (pos + index * 4))))
      (if len ≥ 4 ∧ len % 4 ≠ 0 then []
        else if len.toNat > optionFieldMax then [] else List.range' pos ((len / 4).toNat * 4)) := by
  have hcopy := (visits_readAddresses R pos (len / 4).toNat).map fun data => some (set (store array data))
  rw [store_map] at hcopy
  exact visits_checked R hcopy

theorem visits_string (pos : Nat) (len : UInt8) (array : Vector UInt8 optionFieldMax)
    (set : Vector UInt8 optionFieldMax → Options) :
    R.Visits
      (if len < 1 then pure none
        else if len.toNat > optionFieldMax then pure none
        else readString readAt pos len.toNat >>= fun data => pure (some (set (store array data))))
      (if len < 1 then none
        else if len.toNat > optionFieldMax then none
        else some (set (strncpy array (fun index => buf (pos + index)) len.toNat)))
      (if len < 1 then []
        else if len.toNat > optionFieldMax then [] else List.range' pos (reach buf pos len.toNat)) := by
  have hcopy := (visits_readString R pos len.toNat).map fun data => some (set (store array data))
  rw [store_cut] at hcopy
  exact visits_checked R hcopy

theorem visits_scanOption [LawfulMonad m] (pos : Nat) (code len : UInt8) (opts : Options) :
    R.Visits (scanOption readAt pos code len opts) (parseOption buf pos code len opts) (copied buf pos code len) := by
  unfold scanOption
  split
  · exact visits_word R pos len fun value => { opts with subnet := value }
  · exact visits_words R pos len opts.router fun array => { opts with routerNum := len / 4, router := array }
  · exact visits_words R pos len opts.dns fun array => { opts with dnsNum := len / 4, dns := array }
  · exact visits_string R pos len opts.domain fun array => { opts with domain := array }
  · exact visits_exact R 1 ((R.visits_readAt pos).map fun byte => some { opts with messageType := byte })
  · exact visits_exact R 2 ((R.visits_readRange pos 2).map fun data =>
      some { opts with maxSize := .ofNat (ofNetwork data) })
  · exact visits_string R pos len opts.hostname fun array => { opts with hostname := array }
  · exact visits_word R pos len fun value => { opts with requestedIp := value }
  · exact visits_word R pos len fun value => { opts with leaseTime := value }
  · exact visits_exact R 1 (R.visits_pure (some opts))
  · exact visits_word R pos len fun value => { opts with serverId := value }
  · have hcopy := (R.visits_readRange (pos + 1) len.toNat).map fun id => some { opts with
      clientIdType := buf pos
      clientIdLength := len - 1
      clientId := store opts.clientId id }
    rw [store_bytes] at hcopy
    -- the type is read, and then as many bytes as there are with the type
    exact visits_checked R ((R.visits_readAt pos).bind hcopy)
  · have hcopy := (R.visits_readRange pos len.toNat).map fun data => some { opts with
      paramList := store opts.paramList data
      paramSize := len }
    rw [store_bytes] at hcopy
    exact visits_checked R hcopy
  · have hvalue : parseOption buf pos code len opts = some opts := by
      unfold parseOption
      split <;> first | contradiction | rfl
    have hpositions : copied buf pos code len = [] := by
      unfold copied
      split <;> first | contradiction | rfl
    rw [hvalue, hpositions]
    exact R.visits_pure (some opts)

end

/-! ### How much of the buffer an option needs -/

/-- What is left of the buffer holds what the switch copies. The string copies stop at a `NUL`, and the copy of the
client id begins a byte later than it is long. -/
def Enough (code len : UInt8) (data : Bytes) : Prop :=
  match code with
  | dhcpSubnetMask | dhcpRequestedIp | dhcpLeaseTime | dhcpServerId => 4 ≤ data.length
  | dhcpRouter | dhcpDns => len.toNat / 4 * 4 ≤ data.length
  | dhcpDomain | dhcpHostName => len.toNat ≤ data.length ∨ 0 ∈ data
  | dhcpMaxSize => 2 ≤ data.length
  | dhcpClientId => len.toNat < data.length
  | dhcpParameterList => len.toNat ≤ data.length
  | _ => True

/-- After whole options there is one that needs more than what is left. -/
inductive Overruns : Bytes → Prop
  | here {code len : UInt8} {data : Bytes} (hpad : code ≠ dhcpPad) (hend : code ≠ dhcpEnd) (hdata : data ≠ [])
      (hrule : LengthOk code len) (hshort : ¬Enough code len data) : Overruns (code :: len :: data)
  | later {code len : UInt8} {data rest : Bytes} (hpad : code ≠ dhcpPad) (hend : code ≠ dhcpEnd)
      (hlen : data.length = len.toNat) (hrule : LengthOk code len) (hrest : Overruns rest) :
      Overruns (code :: len :: (data ++ rest))

theorem Overruns.ne_nil {buffer : Bytes} (h : Overruns buffer) : buffer ≠ [] := by
  cases h with
  | here => exact List.cons_ne_nil _ _
  | later => exact List.cons_ne_nil _ _

theorem not_overruns_nil : ¬Overruns [] := fun h => h.ne_nil rfl

/-- Nothing is copied where the loop stops, -/
theorem Overruns.code_ne {code : UInt8} {more : Bytes} (h : Overruns (code :: more)) :
    code ≠ dhcpEnd ∧ code ≠ dhcpPad ∧ 2 ≤ more.length := by
  generalize hbuffer : code :: more = buffer at h
  cases h with
  | @here _ _ data hpad hend hdata =>
      cases hbuffer
      exact ⟨hend, hpad, Nat.succ_le_succ (List.length_pos_iff.mpr hdata)⟩
  | @later _ _ data rest hpad hend _ _ hrest =>
      cases hbuffer
      refine ⟨hend, hpad, Nat.succ_le_succ ?_⟩
      rw [List.length_append]
      exact Nat.le_add_left_of_le (List.length_pos_iff.mpr hrest.ne_nil)

/-- and where it goes on, either this option or a later one needs too much. -/
theorem overruns_cons_iff {code len : UInt8} {more : Bytes} (hpad : code ≠ dhcpPad) (hend : code ≠ dhcpEnd)
    (hmore : more ≠ []) : Overruns (code :: len :: more) ↔
      LengthOk code len ∧ (¬Enough code len more ∨ Overruns (more.drop len.toNat)) := by
  constructor
  · intro h
    generalize hbuffer : code :: len :: more = buffer at h
    cases h with
    | here _ _ _ hrule hshort =>
        cases hbuffer
        exact ⟨hrule, .inl hshort⟩
    | later _ _ hlen hrule hrest =>
        cases hbuffer
        rw [List.drop_left' hlen]
        exact ⟨hrule, .inr hrest⟩
  · intro h
    obtain ⟨hrule, hshort | hrest⟩ := h
    · exact .here hpad hend hmore hrule hshort
    · have hlength : len.toNat ≤ more.length := by
        by_contra hlong
        rw [List.drop_eq_nil_of_le (Nat.le_of_not_le hlong)] at hrest
        exact not_overruns_nil hrest
      rw [← List.take_append_drop len.toNat more]
      exact .later hpad hend (List.length_take_of_le hlength) hrule hrest

/-- In what is accepted each option has room. -/
theorem Accepted.not_overruns {buffer : Bytes} (h : Accepted buffer) : ¬Overruns buffer := by
  induction h with
  | finish rest => exact fun h => h.code_ne.1 rfl
  | @option code len data rest hpad hend hlen hrule hrest ih =>
      have hpos := List.length_pos_iff.mpr hrest.ne_nil
      have hmore : data ++ rest ≠ [] := fun hnil => hrest.ne_nil (List.append_eq_nil_iff.mp hnil).2
      have hlength : (data ++ rest).length = len.toNat + rest.length := by rw [List.length_append, hlen]
      rw [overruns_cons_iff hpad hend hmore, List.drop_left' hlen]
      rintro ⟨-, hshort | hlater⟩
      · refine hshort ?_
        unfold LengthOk at hrule
        unfold Enough
        split
        all_goals first | trivial | (rw [hlength]; simp only at hrule; omega)
      · exact ih hlater

section

variable {buf : Nat → UInt8} {bufLen pos : Nat}

theorem reach_le_iff (buf : Nat → UInt8) (pos count room : Nat) :
    reach buf pos count ≤ room ↔ count ≤ room ∨ 0 ∈ bytes buf pos room := by
  induction count generalizing pos room with
  | zero => exact iff_of_true (Nat.zero_le room) (.inl (Nat.zero_le room))
  | succ count ih =>
      rw [reach]
      cases room with
      | zero =>
          have hnone : ¬(0 : UInt8) ∈ bytes buf pos 0 := List.not_mem_nil
          split
          case isTrue => exact iff_of_false (by decide) (not_or.mpr ⟨Nat.not_succ_le_zero count, hnone⟩)
          case isFalse => exact iff_of_false (Nat.not_succ_le_zero _) (not_or.mpr ⟨Nat.not_succ_le_zero count, hnone⟩)
      | succ room =>
          rw [bytes_succ, List.mem_cons]
          split
          case isTrue hzero => exact iff_of_true (Nat.le_add_left 1 room) (.inr (.inl hzero.symm))
          case isFalse hne =>
              rw [Nat.add_le_add_iff_right, Nat.add_le_add_iff_right, ih (pos + 1) room]
              exact or_congr_right (or_iff_right fun hzero => hne hzero.symm).symm

theorem range_lt_iff (hpos : pos < bufLen) (count : Nat) :
    (∀ position ∈ List.range' pos count, position < bufLen) ↔ count ≤ bufLen - pos := by
  constructor
  · intro hall
    by_contra hlong
    have hlast := hall (pos + (bufLen - pos)) (List.mem_range'_1.mpr (by omega))
    omega
  · intro hle position hposition
    have hrange := List.mem_range'_1.mp hposition
    omega

/-- Nothing is copied where a length is refused, -/
theorem copied_of_not {code len : UInt8} (h : ¬LengthOk code len) : copied buf pos code len = [] := by
  unfold copied
  split
  · exact (exact_ite [] _ 4).trans (if_neg h)
  · exact (exact_ite [] _ 4).trans (if_neg h)
  · exact (exact_ite [] _ 4).trans (if_neg h)
  · exact (exact_ite [] _ 4).trans (if_neg h)
  · exact (words_ite [] _).trans (if_neg h)
  · exact (words_ite [] _).trans (if_neg h)
  · exact (between_ite [] _ 1).trans (if_neg h)
  · exact (between_ite [] _ 1).trans (if_neg h)
  · exact (exact_ite [] _ 1).trans (if_neg h)
  · exact (exact_ite [] _ 2).trans (if_neg h)
  · exact ite_self []
  · exact (between_ite [] _ 2).trans (if_neg h)
  · exact (between_ite [] _ 1).trans (if_neg h)
  · rfl

/-- and elsewhere what is copied lies in the buffer just when there is enough of it. -/
theorem copied_lt_iff {code len : UInt8} (hpos : pos < bufLen) (hrule : LengthOk code len) :
    (∀ position ∈ copied buf pos code len, position < bufLen) ↔ Enough code len (bytes buf pos (bufLen - pos)) := by
  have hword : (∀ position ∈ List.range' pos 4, position < bufLen) ↔ 4 ≤ (bytes buf pos (bufLen - pos)).length := by
    rw [range_lt_iff hpos, length_bytes]
  have hwords : (∀ position ∈ List.range' pos ((len / 4).toNat * 4), position < bufLen) ↔
      len.toNat / 4 * 4 ≤ (bytes buf pos (bufLen - pos)).length := by
    rw [range_lt_iff hpos, length_bytes, UInt8.toNat_div]
    exact Iff.rfl
  have hstring : (∀ position ∈ List.range' pos (reach buf pos len.toNat), position < bufLen) ↔
      len.toNat ≤ (bytes buf pos (bufLen - pos)).length ∨ 0 ∈ bytes buf pos (bufLen - pos) := by
    rw [range_lt_iff hpos, length_bytes, reach_le_iff]
  unfold copied
  split
  · rw [(exact_ite [] _ 4).trans (if_pos hrule)]
    exact hword
  · rw [(exact_ite [] _ 4).trans (if_pos hrule)]
    exact hword
  · rw [(exact_ite [] _ 4).trans (if_pos hrule)]
    exact hword
  · rw [(exact_ite [] _ 4).trans (if_pos hrule)]
    exact hword
  · rw [(words_ite [] _).trans (if_pos hrule)]
    exact hwords
  · rw [(words_ite [] _).trans (if_pos hrule)]
    exact hwords
  · rw [(between_ite [] _ 1).trans (if_pos hrule)]
    exact hstring
  · rw [(between_ite [] _ 1).trans (if_pos hrule)]
    exact hstring
  · rw [(exact_ite [] _ 1).trans (if_pos hrule)]
    refine iff_of_true (fun position hposition => ?_) trivial
    rwa [List.mem_singleton.mp hposition]
  · rw [(exact_ite [] _ 2).trans (if_pos hrule), range_lt_iff hpos]
    exact (congrArg (2 ≤ ·) (length_bytes buf pos _)).symm.to_iff
  · rw [ite_self]
    exact iff_of_true (fun _ hnil => absurd hnil List.not_mem_nil) trivial
  · rw [(between_ite [] _ 2).trans (if_pos hrule), range_lt_iff hpos]
    exact (congrArg (len.toNat < ·) (length_bytes buf pos _)).symm.to_iff
  · rw [(between_ite [] _ 1).trans (if_pos hrule), range_lt_iff hpos]
    exact (congrArg (len.toNat ≤ ·) (length_bytes buf pos _)).symm.to_iff
  · refine iff_of_true (fun _ hnil => absurd hnil List.not_mem_nil) ?_
    unfold Enough
    split <;> first | contradiction | trivial

/-! ### The loop -/

/-- An option that the loop comes to. -/
theorem not_overruns_iff (hroom : pos + 2 < bufLen) (hpad : buf pos ≠ dhcpPad) (hend : buf pos ≠ dhcpEnd) :
    ¬Overruns (bytes buf pos (bufLen - pos)) ↔ (LengthOk (buf pos) (buf (pos + 1)) →
      Enough (buf pos) (buf (pos + 1)) (bytes buf (pos + 2) (bufLen - (pos + 2))) ∧
        ¬Overruns (bytes buf (pos + 2 + (buf (pos + 1)).toNat) (bufLen - (pos + 2 + (buf (pos + 1)).toNat)))) := by
  have hmore : bytes buf (pos + 2) (bufLen - (pos + 2)) ≠ [] := by
    rw [bytes_of_lt hroom]
    exact List.cons_ne_nil _ _
  rw [bytes_of_lt (by omega), bytes_of_lt (by omega), overruns_cons_iff hpad hend hmore, drop_bytes, Nat.sub_sub,
    not_and, not_or, not_not]

/-- The code and the length lie in the buffer. -/
theorem option_lt_iff (hroom : pos + 2 < bufLen) (positions positions' : List Nat) :
    (∀ position ∈ [pos] ++ ([pos + 1] ++ (positions ++ positions')), position < bufLen) ↔
      (∀ position ∈ positions, position < bufLen) ∧ ∀ position ∈ positions', position < bufLen := by
  rw [List.forall_mem_append, List.forall_mem_append, List.forall_mem_append, List.forall_mem_singleton,
    List.forall_mem_singleton, and_iff_right (by omega : pos < bufLen), and_iff_right (by omega : pos + 1 < bufLen)]

/-- Where the loop stops it has read the code only. -/
theorem stop_iff {buffer : Bytes} (hpos : pos < bufLen) (hstop : ¬Overruns buffer) :
    (∀ position ∈ [pos], position < bufLen) ↔ ¬Overruns buffer :=
  iff_of_true (fun _ hposition => List.mem_singleton.mp hposition ▸ hpos) hstop

variable {m : Type → Type} [Monad m] [LawfulMonad m] {readAt : Nat → m UInt8} (R : Reading m readAt buf)

/-- **The loop reads past the buffer just when an option overruns it.** -/
theorem visits_scanLoop (bufLen pos : Nat) (opts : Options) :
    ∃ positions, R.Visits (scanLoop readAt bufLen pos opts) (parseLoop buf bufLen pos opts) positions ∧
      ((∀ position ∈ positions, position < bufLen) ↔ ¬Overruns (bytes buf pos (bufLen - pos))) := by
  fun_induction parseLoop buf bufLen pos opts with
  | case1 pos opts hpos code hend =>
      refine ⟨[pos] ++ [], ?_, ?_⟩
      · rw [scanLoop, if_pos hpos]
        refine (R.visits_readAt pos).bind ?_
        rw [if_pos hend]
        exact R.visits_pure _
      · rw [bytes_of_lt hpos]
        exact stop_iff hpos fun h => h.code_ne.1 hend
  | case2 pos opts hpos code hend hstop =>
      refine ⟨[pos] ++ [], ?_, ?_⟩
      · rw [scanLoop, if_pos hpos]
        refine (R.visits_readAt pos).bind ?_
        rw [if_neg hend, if_pos hstop]
        exact R.visits_pure _
      · rw [bytes_of_lt hpos]
        refine stop_iff hpos fun h => ?_
        obtain ⟨-, hpad, hlength⟩ := h.code_ne
        rw [length_bytes] at hlength
        exact hstop.elim hpad fun hshort => by omega
  | case3 pos opts hpos code hend hmore len hnone =>
      obtain ⟨hpad, hlast⟩ := not_or.mp hmore
      have hroom : pos + 2 < bufLen := Nat.lt_of_not_le hlast
      have hread := visits_scanOption R (pos + 2) code len opts
      rw [hnone] at hread
      refine ⟨[pos] ++ ([pos + 1] ++ (copied buf (pos + 2) code len ++ [])), ?_, ?_⟩
      · rw [scanLoop, if_pos hpos]
        refine (R.visits_readAt pos).bind ?_
        rw [if_neg hend, if_neg hmore]
        exact (R.visits_readAt (pos + 1)).bind (hread.bind (R.visits_pure _))
      · have hrule := (parseOption_eq_none_iff buf (pos + 2) code len opts).mp hnone
        rw [option_lt_iff hroom, copied_of_not hrule, not_overruns_iff hroom hpad hend]
        exact iff_of_true ⟨List.forall_mem_nil _, List.forall_mem_nil _⟩ fun h => absurd h hrule
  | case4 pos opts hpos code hend hmore len changed hsome ih =>
      obtain ⟨hpad, hlast⟩ := not_or.mp hmore
      have hroom : pos + 2 < bufLen := Nat.lt_of_not_le hlast
      have hread := visits_scanOption R (pos + 2) code len opts
      rw [hsome] at hread
      obtain ⟨positions, hrest, hlater⟩ := ih
      refine ⟨[pos] ++ ([pos + 1] ++ (copied buf (pos + 2) code len ++ positions)), ?_, ?_⟩
      · rw [scanLoop, if_pos hpos]
        refine (R.visits_readAt pos).bind ?_
        rw [if_neg hend, if_neg hmore]
        exact (R.visits_readAt (pos + 1)).bind (hread.bind hrest)
      · have hrule := lengthOk_of_parseOption hsome
        rw [option_lt_iff hroom, copied_lt_iff hroom hrule, hlater, not_overruns_iff hroom hpad hend]
        exact ⟨fun hboth _ => hboth, fun hboth => hboth hrule⟩
  | case5 pos opts hpos =>
      refine ⟨[], ?_, iff_of_true (fun _ hnil => absurd hnil List.not_mem_nil) ?_⟩
      · rw [scanLoop, if_neg hpos]
        exact R.visits_pure _
      · rw [Nat.sub_eq_zero_of_le (Nat.le_of_not_lt hpos)]
        exact not_overruns_nil

theorem visits_scanOptions (bufLen : Nat) (opts : Options) :
    ∃ positions, R.Visits (scanOptions readAt bufLen opts) (parseOptions buf bufLen opts) positions ∧
      ((∀ position ∈ positions, position < bufLen) ↔ ¬Overruns (bytes buf 0 bufLen)) := by
  obtain ⟨positions, hloop, hwithin⟩ := visits_scanLoop R bufLen 0 opts
  refine ⟨positions ++ [], hloop.bind ?_, ?_⟩
  · unfold parseOptions
    generalize parseLoop buf bufLen 0 opts = result
    obtain ⟨_ | ⟨pos, seen⟩, opts⟩ := result
    · exact R.visits_pure _
    · have hresult := Reading.Visits.ite (fun _ : (!seen) = true => R.visits_pure ((-1 : Int), opts)) fun _ =>
        .ite (fun _ : pos ≠ bufLen => R.visits_pure ((-1 : Int), opts)) fun _ => R.visits_pure ((0 : Int), opts)
      rw [ite_self, ite_self] at hresult
      exact hresult
  · rw [List.append_nil]
    exact hwithin

end

/-! ### The positions -/

/-- It is the same parser, -/
theorem scanOptions_eq (buf : Nat → UInt8) (bufLen : Nat) (opts : Options) :
    scanOptions (noteAt buf) bufLen opts [] = (parseOptions buf bufLen opts, positionsRead buf bufLen opts) ∧
      ((∀ position ∈ positionsRead buf bufLen opts, position < bufLen) ↔ ¬Overruns (bytes buf 0 bufLen)) := by
  obtain ⟨positions, hvisits, hwithin⟩ := visits_scanOptions (noting buf) bufLen opts
  have hnotes : Notes (scanOptions (noteAt buf) bufLen opts) (parseOptions buf bufLen opts) positions := hvisits
  rw [positionsRead, hnotes []]
  exact ⟨rfl, hwithin⟩

/-- and what is accepted is read within the buffer. -/
theorem positionsRead_lt_of_accepted (buf : Nat → UInt8) (bufLen : Nat) (opts : Options)
    (h : (parseOptions buf bufLen opts).1 = 0) : ∀ position ∈ positionsRead buf bufLen opts, position < bufLen := by
  have haccepted : Accepted (bytes buf 0 bufLen) := (parseOptions_eq_zero_iff buf bufLen opts).mp h
  exact (scanOptions_eq buf bufLen opts).2.mpr haccepted.not_overruns

/-- **`parse_options` reads past the buffer just when an option overruns it.** Nothing compares a length with what is
left of the buffer before the data are copied. -/
theorem parseOptions_within_iff (buf : Nat → UInt8) (bufLen : Nat) (opts : Options) :
    (∀ position ∈ positionsRead buf bufLen opts, position < bufLen) ↔ ¬Overruns (bytes buf 0 bufLen) :=
  (scanOptions_eq buf bufLen opts).2

/-- A host name of which one byte is in the buffer. -/
theorem overruns_cut : Overruns [dhcpHostName, 5, 97] :=
  .here (by decide) (by decide) (by decide) (by decide : 1 ≤ 5 ∧ 5 ≤ optionFieldMax)
    (by decide : ¬(5 ≤ 1 ∨ (0 : UInt8) ∈ [97]))

/-- Its other bytes are read from behind the buffer. -/
theorem cut_hostname_reads_on :
    ¬∀ position ∈ positionsRead (fun position => [dhcpHostName, 5, 97].getD position 120) 3 .zeroed, position < 3 := by
  rw [(scanOptions_eq _ 3 .zeroed).2, not_not]
  exact overruns_cut

/-! ### Where the memory ends with the buffer -/

theorem bytes_getD (buffer : Bytes) (behind : UInt8) :
    bytes (fun position => buffer.getD position behind) 0 buffer.length = buffer := by
  apply List.ext_getElem
  · rw [length_bytes]
  · intro position hposition hlt
    simp only [bytes, List.getElem_map, List.getElem_range', Nat.zero_add, Nat.one_mul, List.getD_eq_getElem?_getD,
      List.getElem?_eq_getElem hlt, Option.getD_some]

/-- **The parser faults just when an option overruns the buffer**, and else it is the parser. -/
theorem parseBuffer_eq (buffer : Bytes) (opts : Options) :
    (¬Overruns buffer →
        parseBuffer buffer opts = .ok (parseOptions (fun position => buffer.getD position 0) buffer.length opts)) ∧
      (Overruns buffer → parseBuffer buffer opts = .error .outOfBounds) := by
  obtain ⟨positions, hvisits, hwithin⟩ := visits_scanOptions (within buffer Fault.outOfBounds 0) buffer.length opts
  rw [bytes_getD] at hwithin
  have hsucceeds : parseBuffer buffer opts = if ∀ position ∈ positions, position < buffer.length then
      .ok (parseOptions (fun position => buffer.getD position 0) buffer.length opts) else .error .outOfBounds := hvisits
  rw [hsucceeds]
  exact ⟨fun h => if_pos (hwithin.mpr h), fun h => if_neg fun hall => hwithin.mp hall h⟩

/-- What is claimed of a buffer: it is accepted if it is whole options up to the end and rejected if it is not, and no
option of what is accepted runs past the buffer. -/
structure Decided (buffer : Bytes) (opts : Options) : Prop where
  accepted : (∃ opts', parseBuffer buffer opts = .ok (0, opts')) ↔ Accepted buffer
  rejected : (∃ opts', parseBuffer buffer opts = .ok (-1, opts')) ↔ ¬Accepted buffer
  within : (∃ opts', parseBuffer buffer opts = .ok (0, opts')) → ∀ pos,
    OptionAt (fun position => buffer.getD position 0) pos → pos + 2 + (buffer.getD (pos + 1) 0).toNat < buffer.length

theorem not_decided {buffer : Bytes} (h : Overruns buffer) (opts : Options) : ¬Decided buffer opts := by
  intro hdecided
  have hnever : ∀ result, ¬∃ opts', parseBuffer buffer opts = .ok (result, opts') := by
    rintro result ⟨opts', hresult⟩
    rw [(parseBuffer_eq buffer opts).2 h] at hresult
    cases hresult
  exact hnever (-1) (hdecided.rejected.mpr fun haccepted => hnever 0 (hdecided.accepted.mpr haccepted))

/-- **A buffer is accepted or rejected as it should be just when no option overruns it.** Where one does, the bytes that
are missing are read from behind the buffer before the buffer could be rejected. -/
theorem parseBuffer_decided_iff (buffer : Bytes) (opts : Options) : Decided buffer opts ↔ ¬Overruns buffer := by
  constructor
  · exact fun h hoverruns => not_decided hoverruns opts h
  · intro hroom
    obtain ⟨hzero, hminus, hwithin⟩ :=
      parseOptions_accepts (fun position => buffer.getD position 0) buffer.length opts
    rw [bytes_getD] at hzero hminus
    have hresult : ∀ result, (∃ opts', parseBuffer buffer opts = .ok (result, opts')) ↔
        (parseOptions (fun position => buffer.getD position 0) buffer.length opts).1 = result := by
      intro result
      rw [(parseBuffer_eq buffer opts).1 hroom]
      constructor
      · rintro ⟨opts', hopts⟩
        rw [Except.ok.inj hopts]
      · rintro rfl
        exact ⟨_, rfl⟩
    exact ⟨(hresult 0).trans hzero, (hresult (-1)).trans hminus, fun haccepted => hwithin ((hresult 0).mp haccepted)⟩

/-- Of the host name that is cut, the buffer has one byte. -/
theorem cut_hostname_faults : ¬∀ buffer opts, Decided buffer opts :=
  fun h => not_decided overruns_cut .zeroed (h [dhcpHostName, 5, 97] .zeroed)

end Thebends.Dhcp
