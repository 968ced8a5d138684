import Mathlib.Tactic.Common
import Thebends.DhcpOptions

/-! What `parse_options` accepts: whole options one after the other, up to the end byte. The loop compares no
length with that of the buffer; an option that runs past the buffer is rejected because the end is not seen. -/

namespace Thebends.Dhcp

/-- What the switch demands of a length. -/
def LengthOk (code len : UInt8) : Prop :=
  match code with
  | dhcpSubnetMask | dhcpRequestedIp | dhcpLeaseTime | dhcpServerId => len.toNat = 4
  | dhcpRouter | dhcpDns => (len.toNat < 4 ∨ len.toNat % 4 = 0) ∧ len.toNat ≤ optionFieldMax
  | dhcpDomain | dhcpHostName | dhcpParameterList => 1 ≤ len.toNat ∧ len.toNat ≤ optionFieldMax
  | dhcpMessageType | dhcpOverload => len.toNat = 1
  | dhcpMaxSize => len.toNat = 2
  | dhcpClientId => 2 ≤ len.toNat ∧ len.toNat ≤ optionFieldMax
  | _ => True

/-- Whole options, the end, and anything. -/
inductive Accepted : Bytes → Prop
  | finish (rest : Bytes) : Accepted (dhcpEnd :: rest)
  | option {code len : UInt8} {data rest : Bytes} (hpad : code ≠ dhcpPad) (hend : code ≠ dhcpEnd)
      (hlen : data.length = len.toNat) (hrule : LengthOk code len) (hrest : Accepted rest) :
      Accepted (code :: len :: (data ++ rest))

theorem Accepted.ne_nil {buffer : Bytes} (h : Accepted buffer) : buffer ≠ [] := by
  cases h with
  | finish rest => exact List.cons_ne_nil _ _
  | option => exact List.cons_ne_nil _ _

theorem not_accepted_nil : ¬Accepted [] := fun h => h.ne_nil rfl

/-- Padding is not skipped, -/
theorem not_accepted_pad (more : Bytes) : ¬Accepted (dhcpPad :: more) := by
  intro h
  generalize hbuffer : dhcpPad :: more = buffer at h
  cases h with
  | finish rest => exact absurd (List.cons.inj hbuffer).1 (by decide)
  | option hpad => exact hpad (List.cons.inj hbuffer).1.symm

/-- and after an option there is room for the end. -/
theorem Accepted.length_ge {code : UInt8} {more : Bytes} (h : Accepted (code :: more)) (hend : code ≠ dhcpEnd) :
    2 ≤ more.length := by
  generalize hbuffer : code :: more = buffer at h
  cases h with
  | finish rest => exact absurd (List.cons.inj hbuffer).1 hend
  | option _ _ hlen hrule hrest =>
      cases hbuffer
      have hpos := List.length_pos_iff.mpr hrest.ne_nil
      rw [List.length_cons, List.length_append]
      omega

/-- The first option is taken off. -/
theorem accepted_cons_iff {code len : UInt8} {more : Bytes} (hpad : code ≠ dhcpPad) (hend : code ≠ dhcpEnd) :
    Accepted (code :: len :: more) ↔ LengthOk code len ∧ Accepted (more.drop len.toNat) := by
  constructor
  · intro h
    generalize hbuffer : code :: len :: more = buffer at h
    cases h with
    | finish rest => exact absurd (List.cons.inj hbuffer).1 hend
    | @option code' len' data rest _ _ hlen hrule hrest =>
        cases hbuffer
        rw [List.drop_left' hlen]
        exact ⟨hrule, hrest⟩
  · rintro ⟨hrule, hrest⟩
    have hshort : len.toNat ≤ more.length := by
      by_contra hlong
      rw [List.drop_eq_nil_of_le (Nat.le_of_not_le hlong)] at hrest
      exact not_accepted_nil hrest
    rw [← List.take_append_drop len.toNat more]
    exact .option hpad hend (List.length_take_of_le hshort) hrule hrest

/-! ### The bytes of the buffer -/

section

variable (buf : Nat → UInt8)

@[simp] theorem length_bytes (pos count : Nat) : (bytes buf pos count).length = count := by
  rw [bytes, List.length_map, List.length_range']

theorem bytes_succ (pos count : Nat) : bytes buf pos (count + 1) = buf pos :: bytes buf (pos + 1) count := by
  rw [bytes, List.range'_succ, List.map_cons, bytes]

theorem drop_bytes (pos count len : Nat) : (bytes buf pos count).drop len = bytes buf (pos + len) (count - len) := by
  rw [bytes, ← List.map_drop, List.drop_range', Nat.mul_one, bytes]

end

/-! ### The switch -/

section

variable {α : Type} {len : UInt8} (refused accepted : α)

/-- The three ways in which a length is checked. -/
theorem exact_ite (count : UInt8) :
    (if len ≠ count then refused else accepted) = if len.toNat = count.toNat then accepted else refused := by
  rw [ite_not]
  exact if_congr UInt8.toNat_inj.symm rfl rfl

theorem between_ite (least : UInt8) :
    (if len < least then refused else if len.toNat > optionFieldMax then refused else accepted) =
      if least.toNat ≤ len.toNat ∧ len.toNat ≤ optionFieldMax then accepted else refused := by
  rw [← ite_or, ← ite_not]
  refine if_congr ?_ rfl rfl
  rw [not_or, gt_iff_lt, Nat.not_lt, UInt8.lt_iff_toNat_lt, Nat.not_lt]

theorem words_ite :
    (if len ≥ 4 ∧ len % 4 ≠ 0 then refused else if len.toNat > optionFieldMax then refused else accepted) =
      if (len.toNat < 4 ∨ len.toNat % 4 = 0) ∧ len.toNat ≤ optionFieldMax then accepted else refused := by
  rw [← ite_or, ← ite_not]
  refine if_congr ?_ rfl rfl
  have hrule : (len ≥ 4 ∧ len % 4 ≠ 0) ↔ ¬(len.toNat < 4 ∨ len.toNat % 4 = 0) := by
    rw [ge_iff_le, UInt8.le_iff_toNat_le, ne_eq, ← UInt8.toNat_inj, UInt8.toNat_mod, not_or, Nat.not_lt]
    exact Iff.rfl
  rw [not_or, hrule, not_not, gt_iff_lt, Nat.not_lt]

end

theorem ite_eq_none_iff {condition : Prop} [Decidable condition] (opts : Options) :
    (if condition then some opts else none) = none ↔ ¬condition := by
  rw [ite_eq_right_iff]
  exact imp_congr_right fun _ => iff_of_false (Option.some_ne_none opts) not_false

theorem parseOption_eq_none_iff (buf : Nat → UInt8) (pos : Nat) (code len : UInt8) (opts : Options) :
    parseOption buf pos code len opts = none ↔ ¬LengthOk code len := by
  unfold parseOption
  split
  · rw [exact_ite]
    exact ite_eq_none_iff _
  · rw [words_ite]
    exact ite_eq_none_iff _
  · rw [words_ite]
    exact ite_eq_none_iff _
  · rw [between_ite]
    exact ite_eq_none_iff _
  · rw [exact_ite]
    exact ite_eq_none_iff _
  · rw [exact_ite]
    exact ite_eq_none_iff _
  · rw [between_ite]
    exact ite_eq_none_iff _
  · rw [exact_ite]
    exact ite_eq_none_iff _
  · rw [exact_ite]
    exact ite_eq_none_iff _
  · rw [exact_ite]
    exact ite_eq_none_iff _
  · rw [exact_ite]
    exact ite_eq_none_iff _
  · rw [between_ite]
    exact ite_eq_none_iff _
  · rw [between_ite]
    exact ite_eq_none_iff _
  · refine iff_of_false (Option.some_ne_none _) (not_not.mpr ?_)
    unfold LengthOk
    split <;> first | contradiction | trivial

/-! ### The loop -/

section

variable {buf : Nat → UInt8} {bufLen pos : Nat}

theorem bytes_of_lt (h : pos < bufLen) : bytes buf pos (bufLen - pos) = buf pos :: bytes buf (pos + 1) (bufLen - (pos + 1)) := by
  rw [← bytes_succ]
  congr 1
  omega

/-- An option in the buffer. -/
theorem accepted_bytes_iff (hpos : pos + 1 < bufLen) (hpad : buf pos ≠ dhcpPad) (hend : buf pos ≠ dhcpEnd) :
    Accepted (bytes buf pos (bufLen - pos)) ↔ LengthOk (buf pos) (buf (pos + 1)) ∧
      Accepted (bytes buf (pos + 2 + (buf (pos + 1)).toNat) (bufLen - (pos + 2 + (buf (pos + 1)).toNat))) := by
  rw [bytes_of_lt (Nat.lt_of_succ_lt hpos), bytes_of_lt hpos, accepted_cons_iff hpad hend, drop_bytes, Nat.sub_sub]

/-- Where the loop stops before the end, no whole options are left. -/
theorem not_accepted_stop (hpos : pos < bufLen) (hend : buf pos ≠ dhcpEnd)
    (hstop : buf pos = dhcpPad ∨ pos + 1 + 1 ≥ bufLen) : ¬Accepted (bytes buf pos (bufLen - pos)) := by
  intro h
  rw [bytes_of_lt hpos] at h
  rcases hstop with hpad | hshort
  · rw [hpad] at h
    exact not_accepted_pad _ h
  · have hlength := h.length_ge hend
    rw [length_bytes] at hlength
    omega

theorem lengthOk_of_parseOption {code len : UInt8} {opts opts' : Options}
    (h : parseOption buf pos code len opts = some opts') : LengthOk code len := by
  by_contra hbad
  rw [(parseOption_eq_none_iff buf pos code len opts).mpr hbad] at h
  cases h

/-- **The loop sees the end just when whole options are left.** -/
theorem parseLoop_eq_iff (buf : Nat → UInt8) (bufLen pos : Nat) (opts : Options) :
    (parseLoop buf bufLen pos opts).1 = some (bufLen, true) ↔ Accepted (bytes buf pos (bufLen - pos)) := by
  fun_induction parseLoop buf bufLen pos opts with
  | case1 pos opts hpos code hend =>
      refine iff_of_true rfl ?_
      have hcode : buf pos = dhcpEnd := hend
      rw [bytes_of_lt hpos, hcode]
      exact .finish _
  | case2 pos opts hpos code hend hstop =>
      refine iff_of_false (fun h => ?_) (not_accepted_stop hpos hend hstop)
      cases h
  | case3 pos opts hpos code hend hmore len hnone =>
      obtain ⟨hpad, hroom⟩ := not_or.mp hmore
      refine iff_of_false (fun h => ?_) fun h => ?_
      · cases h
      · have hrule := ((accepted_bytes_iff (Nat.lt_of_succ_lt (Nat.lt_of_not_le hroom)) hpad hend).mp h).1
        exact (parseOption_eq_none_iff buf (pos + 2) code len opts).mp hnone hrule
  | case4 pos opts hpos code hend hmore len changed hsome ih =>
      obtain ⟨hpad, hroom⟩ := not_or.mp hmore
      have hrule := lengthOk_of_parseOption hsome
      rw [accepted_bytes_iff (Nat.lt_of_succ_lt (Nat.lt_of_not_le hroom)) hpad hend, ih]
      exact (and_iff_right hrule).symm
  | case5 pos opts hpos =>
      refine iff_of_false (fun h => ?_) ?_
      · cases h
      · rw [Nat.sub_eq_zero_of_le (Nat.le_of_not_lt hpos)]
        exact not_accepted_nil

/-- Only at the end of the buffer is the end seen. -/
theorem parseLoop_seen (buf : Nat → UInt8) (bufLen pos : Nat) (opts : Options) {last : Nat}
    (h : (parseLoop buf bufLen pos opts).1 = some (last, true)) : last = bufLen := by
  fun_induction parseLoop buf bufLen pos opts with
  | case1 => exact (Prod.mk.inj (Option.some.inj h)).1.symm
  | case2 => cases h
  | case3 => cases h
  | case4 pos opts hpos code hend hmore len changed hsome ih => exact ih h
  | case5 => cases h

end

theorem parseOptions_eq (buf : Nat → UInt8) (bufLen : Nat) (opts : Options) :
    (parseOptions buf bufLen opts).1 = if (parseLoop buf bufLen 0 opts).1 = some (bufLen, true) then 0 else -1 := by
  unfold parseOptions
  split
  case h_1 opts' hloop =>
    rw [hloop, if_neg (Option.some_ne_none _).symm]
  case h_2 last seen opts' hloop =>
    rw [hloop]
    cases seen with
    | false => simp
    | true =>
        have hlast := parseLoop_seen buf bufLen 0 opts (congrArg Prod.fst hloop)
        simp [hlast]

theorem parseOptions_eq_zero_iff (buf : Nat → UInt8) (bufLen : Nat) (opts : Options) :
    (parseOptions buf bufLen opts).1 = 0 ↔ Accepted (bytes buf 0 bufLen) := by
  have hloop := parseLoop_eq_iff buf bufLen 0 opts
  rw [Nat.sub_zero] at hloop
  rw [← hloop, parseOptions_eq]
  split
  case isTrue hseen => exact iff_of_true rfl hseen
  case isFalse hnot => exact iff_of_false (by decide) hnot

/-- Where the options begin, as far as each leads to the next. -/
inductive OptionAt (buf : Nat → UInt8) : Nat → Prop
  | first (hpad : buf 0 ≠ dhcpPad) (hend : buf 0 ≠ dhcpEnd) : OptionAt buf 0
  | next {pos next : Nat} (h : OptionAt buf pos) (hnext : next = pos + 2 + (buf (pos + 1)).toNat)
      (hpad : buf next ≠ dhcpPad) (hend : buf next ≠ dhcpEnd) : OptionAt buf next

/-- In a buffer that is accepted, whole options are left at each of them. -/
theorem OptionAt.accepted {buf : Nat → UInt8} {bufLen pos : Nat} (h : OptionAt buf pos)
    (haccepted : Accepted (bytes buf 0 bufLen)) : Accepted (bytes buf pos (bufLen - pos)) ∧
      Accepted (bytes buf (pos + 2 + (buf (pos + 1)).toNat) (bufLen - (pos + 2 + (buf (pos + 1)).toNat))) := by
  have hstep : ∀ pos, Accepted (bytes buf pos (bufLen - pos)) → buf pos ≠ dhcpPad → buf pos ≠ dhcpEnd →
      Accepted (bytes buf (pos + 2 + (buf (pos + 1)).toNat) (bufLen - (pos + 2 + (buf (pos + 1)).toNat))) := by
    intro pos hpos hpad hend
    have hlt : pos < bufLen := by
      by_contra hge
      rw [Nat.sub_eq_zero_of_le (Nat.le_of_not_lt hge)] at hpos
      exact not_accepted_nil hpos
    have hlength := hpos
    rw [bytes_of_lt hlt] at hlength
    have hroom := hlength.length_ge hend
    rw [length_bytes] at hroom
    exact ((accepted_bytes_iff (by omega) hpad hend).mp hpos).2
  induction h with
  | first hpad hend => exact ⟨haccepted, hstep 0 haccepted hpad hend⟩
  | next h hnext hpad hend ih => exact ⟨hnext ▸ ih.2, hstep _ (hnext ▸ ih.2) hpad hend⟩

/-- **`parse_options` accepts whole options up to the end, and nothing else.** In what it accepts no option runs
past the buffer. -/
theorem parseOptions_accepts (buf : Nat → UInt8) (bufLen : Nat) (opts : Options) :
    ((parseOptions buf bufLen opts).1 = 0 ↔ Accepted (bytes buf 0 bufLen)) ∧
      ((parseOptions buf bufLen opts).1 = -1 ↔ ¬Accepted (bytes buf 0 bufLen)) ∧
      ((parseOptions buf bufLen opts).1 = 0 →
        ∀ pos, OptionAt buf pos → pos + 2 + (buf (pos + 1)).toNat < bufLen) := by
  have hloop := parseLoop_eq_iff buf bufLen 0 opts
  rw [Nat.sub_zero] at hloop
  have hzero := parseOptions_eq_zero_iff buf bufLen opts
  refine ⟨hzero, ?_, fun haccepted pos hpos => ?_⟩
  · rw [← hloop, parseOptions_eq]
    split
    case isTrue hseen => exact iff_of_false (by decide) (not_not.mpr hseen)
    case isFalse hnot => exact iff_of_true rfl hnot
  · have hnext := (hpos.accepted (hzero.mp haccepted)).2
    by_contra hge
    rw [Nat.sub_eq_zero_of_le (Nat.le_of_not_lt hge)] at hnext
    exact not_accepted_nil hnext

end Thebends.Dhcp
