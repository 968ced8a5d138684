import Thebends.LibAscii
import Thebends.LibCString

/-! What the AVR network program reads addresses with (`inet_aton` in `avr/net/util.c`). A string is the bytes from a
pointer on, and ends at the first `NUL` of them. -/

namespace Thebends.AvrNet

open LibAscii LibCString LibDecimal

abbrev Bytes := List UInt8

/-- `strlen`. -/
def strlen (cp : Bytes) : Nat := (textOf 0 cp).length

/-- `strsep(&left, ".")`: the part up to the next dot and what is left behind the dot; no part where nothing is left. -/
def strsep : Option Bytes → Option (Bytes × Option Bytes)
  | none => none
  | some left =>
      some (left.takeWhile (· ≠ byte '.'), if byte '.' ∈ left then some (left.dropWhile (· ≠ byte '.')).tail else none)

/-- `power`. -/
def power (x y : UInt8) : UInt8 := (List.range y.toNat).foldl (fun sum _ => sum * x) 1

/-- The loop over the characters of a part, of which `value` are left, from the one with index `j` on. -/
def octetFrom (valueLen : Nat) : Nat → UInt32 → Bytes → Option UInt32
  | _, octetValue, [] => some octetValue
  | j, octetValue, c :: value =>
      if c < byte '0' ∨ c > byte '9' then none
      else
        let c := c - byte '0'
        let p : UInt8 := .ofNat (valueLen - j - 1)
        octetFrom valueLen (j + 1) (octetValue + (power 10 p).toUInt32 * c.toUInt32) value

/-- The loop over the parts, with the number of turns that it still makes. -/
def octetsFrom : Nat → UInt32 → UInt32 → Option Bytes → Option UInt32
  | 0, _, ipBuf, _ => some ipBuf
  | turns + 1, shift, ipBuf, left => do
      let (value, left) ← strsep left
      if value = [] then none
      else if value.length > 3 then none
      else
        let octetValue ← octetFrom value.length 0 0 value
        let ipBuf := ipBuf ||| (octetValue <<< shift)
        -- `i < 3`
        if turns > 0 then
          if left = none then none else octetsFrom turns (shift - 8) ipBuf left
        else some ipBuf

/-- `inet_aton`: what it returns, and what it leaves in `*ip`. -/
def inetAton (cp : Bytes) (ip : UInt32) : Int × UInt32 :=
  let len : UInt8 := .ofNat (strlen cp)
  if len > 16 then (-1, ip)
  else match octetsFrom 4 24 0 (some (cp.take len.toNat)) with
    | none => (-1, ip)
    | some ipBuf => (0, ipBuf)

/-! ### What an address is -/

/-- A decimal number of one to three digits. -/
structure IsNumber (field : Bytes) : Prop where
  digits : ∀ c ∈ field, isDigit c
  one : field ≠ []
  three : field.length ≤ 3

/-- The number itself. -/
def value (field : Bytes) : Nat := valueFrom 0 field

/-- The address with the first number in the top byte. -/
def address (numbers : List Bytes) : UInt32 := .ofNat (numbers.foldl (fun all number => all * 256 + value number) 0)

/-- Four numbers of a byte each, with single dots between them. -/
structure IsAddress (text : Bytes) (numbers : List Bytes) : Prop where
  text_eq : text = [byte '.'].intercalate numbers
  four : numbers.length = 4
  isNumber : ∀ number ∈ numbers, IsNumber number
  le : ∀ number ∈ numbers, value number ≤ 255

/-- Addresses are read, and nothing else is. -/
def ReadsAddresses (cp : Bytes) : Prop := ∀ ip,
  (∀ numbers, IsAddress (textOf 0 cp) numbers → inetAton cp ip = (0, address numbers)) ∧
  ((¬∃ numbers, IsAddress (textOf 0 cp) numbers) → inetAton cp ip = (-1, ip))

/-! ### A part -/

/-- What `strsep` finds is the first of the parts between the dots, and leaves the others. -/
theorem strsep_some (text : Bytes) : ∃ field left, strsep (some text) = some (field, left) ∧
    text.splitOn (byte '.') = field :: left.elim [] fun rest => rest.splitOn (byte '.') := by
  by_cases hdot : byte '.' ∈ text
  · obtain ⟨field, rest, rfl, hfield⟩ := List.eq_append_cons_of_mem hdot
    have hall : ∀ c ∈ field, decide (c ≠ byte '.') = true := fun c hc => decide_eq_true fun heq => hfield (heq ▸ hc)
    refine ⟨field, some rest, ?_, List.splitOn_append_cons_self_of_not_mem hfield rest⟩
    rw [strsep, if_pos hdot, List.takeWhile_append_of_pos hall, List.dropWhile_append_of_pos hall,
      List.takeWhile_cons_of_neg (by decide), List.dropWhile_cons_of_neg (by decide), List.append_nil, List.tail_cons]
  · refine ⟨text, none, ?_, List.splitOn_eq_singleton hdot⟩
    have hall : ∀ c ∈ text, decide (c ≠ byte '.') = true := fun c hc => decide_eq_true fun heq => hdot (heq ▸ hc)
    rw [strsep, if_neg hdot, List.takeWhile_eq_self_iff.mpr hall]

theorem isDigit_iff_toNat (c : UInt8) : isDigit c ↔ 48 ≤ c.toNat ∧ c.toNat ≤ 57 := by
  rw [isDigit, Bool.and_eq_true, decide_eq_true_iff, decide_eq_true_iff, UInt8.le_iff_toNat_le, UInt8.le_iff_toNat_le]
  exact Iff.rfl

/-- The test that a character of a part is subjected to. -/
theorem rejected_iff (c : UInt8) : (c < byte '0' ∨ c > byte '9') ↔ ¬isDigit c := by
  rw [isDigit_iff_toNat, UInt8.lt_iff_toNat_lt, gt_iff_lt, UInt8.lt_iff_toNat_lt]
  show c.toNat < 48 ∨ 57 < c.toNat ↔ _
  omega

theorem digit_toUInt32 {c : UInt8} (h : isDigit c) : (c - byte '0').toUInt32 = .ofNat (c.toNat - 48) := by
  obtain ⟨hlow, hhigh⟩ := (isDigit_iff_toNat c).mp h
  have hle : byte '0' ≤ c := UInt8.le_iff_toNat_le.mpr hlow
  apply UInt32.toNat_inj.mp
  rw [UInt8.toNat_toUInt32, UInt8.toNat_sub_of_le _ _ hle, UInt32.toNat_ofNat_of_lt' (by show _ < 2 ^ 32; omega)]
  rfl

/-- The weights fit their eight bits. -/
theorem power_ten {p : Nat} (h : p ≤ 2) : (power 10 (.ofNat p)).toUInt32 = .ofNat (10 ^ p) := by
  interval_cases p <;> decide

theorem octetFrom_cons {c : UInt8} (h : isDigit c) (valueLen j : Nat) (octetValue : UInt32) (rest : Bytes) :
    octetFrom valueLen j octetValue (c :: rest) = octetFrom valueLen (j + 1)
      (octetValue + (power 10 (.ofNat (valueLen - j - 1))).toUInt32 * .ofNat (c.toNat - 48)) rest := by
  rw [octetFrom, if_neg fun hrejected => (rejected_iff c).mp hrejected h, ← digit_toUInt32 h]

/-- One character that is no digit is enough. -/
theorem octetFrom_none {value : Bytes} (h : ¬∀ c ∈ value, isDigit c) (valueLen j : Nat) (octetValue : UInt32) :
    octetFrom valueLen j octetValue value = none := by
  induction value generalizing j octetValue with
  | nil => exact absurd (fun c hc => absurd hc List.not_mem_nil) h
  | cons c rest ih =>
      by_cases hc : isDigit c
      · rw [octetFrom_cons hc]
        exact ih (fun hrest => h (List.forall_mem_cons.mpr ⟨hc, hrest⟩)) _ _
      · rw [octetFrom, if_pos ((rejected_iff c).mpr hc)]

theorem octetFrom_digits {digits : Bytes} (hdigits : ∀ c ∈ digits, isDigit c) (hthree : digits.length ≤ 3) (j n : Nat) :
    octetFrom (j + digits.length) j (.ofNat n) digits = some (.ofNat (n + valueFrom 0 digits)) := by
  induction digits generalizing j n with
  | nil => rfl
  | cons c rest ih =>
      rw [List.length_cons] at hthree
      obtain ⟨hc, hrest⟩ := List.forall_mem_cons.mp hdigits
      have hweight : j + (rest.length + 1) - j - 1 = rest.length := by omega
      have hlen : j + (rest.length + 1) = j + 1 + rest.length := by omega
      rw [List.length_cons, octetFrom_cons hc, hweight, power_ten (Nat.le_of_succ_le_succ hthree), ← UInt32.ofNat_mul,
        ← UInt32.ofNat_add, hlen, ih hrest (Nat.le_of_succ_le hthree), valueFrom_cons, Nat.zero_mul, Nat.zero_add,
        Nat.mul_comm, Nat.add_assoc]

/-- The body of the loop, up to the octet: it rejects what is no number. -/
def octet (field : Bytes) : Option UInt32 :=
  if field = [] then none else if field.length > 3 then none else octetFrom field.length 0 0 field

theorem octet_number {field : Bytes} (h : IsNumber field) : octet field = some (.ofNat (value field)) := by
  have hdigits := octetFrom_digits h.digits h.three 0 0
  rw [Nat.zero_add, Nat.zero_add] at hdigits
  rw [octet, if_neg h.one, if_neg (Nat.not_lt_of_le h.three)]
  exact hdigits

theorem octet_none {field : Bytes} (h : ¬IsNumber field) : octet field = none := by
  rw [octet]
  split
  case isTrue => rfl
  case isFalse hone =>
      split
      case isTrue => rfl
      case isFalse hthree =>
          exact octetFrom_none (fun hdigits => h ⟨hdigits, hone, Nat.le_of_not_lt hthree⟩) _ _ _

/-! ### All parts -/

/-- What the loop puts together from the numbers. -/
def gather : UInt32 → UInt32 → List Bytes → UInt32
  | _, ipBuf, [] => ipBuf
  | shift, ipBuf, number :: numbers => gather (shift - 8) (ipBuf ||| (.ofNat (value number) <<< shift)) numbers

/-- The first parts between the dots are there and are numbers; what follows them is not looked at. -/
def Begins (count : Nat) (text : Bytes) : Prop :=
  count ≤ (text.splitOn (byte '.')).length ∧ ∀ field ∈ (text.splitOn (byte '.')).take count, IsNumber field

theorem octetsFrom_succ (turns : Nat) (shift ipBuf : UInt32) (text : Bytes) : ∃ field left,
    text.splitOn (byte '.') = field :: left.elim [] (fun rest => rest.splitOn (byte '.')) ∧
    octetsFrom (turns + 1) shift ipBuf (some text) = (octet field).bind fun octetValue =>
      if turns > 0 then
        if left = none then none else octetsFrom turns (shift - 8) (ipBuf ||| (octetValue <<< shift)) left
      else some (ipBuf ||| (octetValue <<< shift)) := by
  obtain ⟨field, left, hpart, hsplit⟩ := strsep_some text
  refine ⟨field, left, hsplit, ?_⟩
  rw [octetsFrom, hpart, octet]
  show (if field = [] then none else if field.length > 3 then none else _) = _
  split_ifs <;> rfl

theorem octetsFrom_begins {turns : Nat} {text : Bytes} (h : Begins (turns + 1) text) (shift ipBuf : UInt32) :
    octetsFrom (turns + 1) shift ipBuf (some text) =
      some (gather shift ipBuf ((text.splitOn (byte '.')).take (turns + 1))) := by
  induction turns generalizing shift ipBuf text with
  | zero =>
      obtain ⟨field, left, hsplit, hloop⟩ := octetsFrom_succ 0 shift ipBuf text
      obtain ⟨-, hnumbers⟩ := h
      rw [hsplit, List.take_succ_cons, List.take_zero] at hnumbers
      rw [hloop, hsplit, octet_number (hnumbers field List.mem_cons_self), List.take_succ_cons, List.take_zero]
      rfl
  | succ turns ih =>
      obtain ⟨field, left, hsplit, hloop⟩ := octetsFrom_succ (turns + 1) shift ipBuf text
      obtain ⟨hcount, hnumbers⟩ := h
      rw [hsplit, List.take_succ_cons, List.forall_mem_cons] at hnumbers
      rw [hloop, hsplit, octet_number hnumbers.1, List.take_succ_cons, gather]
      cases left with
      | none =>
          rw [hsplit] at hcount
          simp at hcount
      | some rest =>
          rw [hsplit, List.length_cons] at hcount
          exact ih ⟨Nat.le_of_succ_le_succ hcount, hnumbers.2⟩ (shift - 8) _

theorem octetsFrom_none {turns : Nat} {text : Bytes} (h : ¬Begins (turns + 1) text) (shift ipBuf : UInt32) :
    octetsFrom (turns + 1) shift ipBuf (some text) = none := by
  induction turns generalizing shift ipBuf text with
  | zero =>
      obtain ⟨field, left, hsplit, hloop⟩ := octetsFrom_succ 0 shift ipBuf text
      have hfield : ¬IsNumber field := by
        intro hnumber
        apply h
        rw [Begins, hsplit, List.take_succ_cons, List.take_zero, List.forall_mem_singleton]
        exact ⟨by simp, hnumber⟩
      rw [hloop, octet_none hfield, Option.bind_none]
  | succ turns ih =>
      obtain ⟨field, left, hsplit, hloop⟩ := octetsFrom_succ (turns + 1) shift ipBuf text
      by_cases hfield : IsNumber field
      · rw [hloop, octet_number hfield, Option.bind_some, if_pos (Nat.succ_pos turns)]
        cases left with
        | none => rfl
        | some rest =>
            rw [if_neg (Option.some_ne_none rest)]
            apply ih
            intro hrest
            apply h
            rw [Begins, hsplit, List.take_succ_cons, List.forall_mem_cons, List.length_cons]
            exact ⟨Nat.succ_le_succ hrest.1, hfield, hrest.2⟩
      · rw [hloop, octet_none hfield, Option.bind_none]

/-- A byte is put behind those that are there. -/
theorem or_eq {front number count : Nat} (hnumber : number ≤ 255) (hcount : count ≤ 3)
    (hfront : (front + 1) * 256 ^ (count + 1) ≤ 2 ^ 32) :
    UInt32.ofNat (front * 256 ^ (count + 1)) ||| (.ofNat number <<< .ofNat (8 * count)) =
      .ofNat ((front * 256 + number) * 256 ^ count) := by
  have hpow : 256 ^ count = 2 ^ (8 * count) := by rw [Nat.pow_mul]
  have hpow' : 256 ^ (count + 1) = 2 ^ (8 * (count + 1)) := by rw [Nat.pow_mul]
  have hlt : number * 256 ^ count < 256 ^ (count + 1) := by
    rw [Nat.pow_succ, Nat.mul_comm]
    exact Nat.mul_lt_mul_of_pos_left (by omega) (Nat.pow_pos (by decide))
  have hexpand : (front + 1) * 256 ^ (count + 1) = front * 256 ^ (count + 1) + 256 ^ (count + 1) := Nat.succ_mul ..
  have hsum : (front * 256 + number) * 256 ^ count = front * 256 ^ (count + 1) + number * 256 ^ count := by
    rw [Nat.pow_succ]
    ring
  have hshifted : (UInt32.ofNat number <<< UInt32.ofNat (8 * count)).toNat = number * 256 ^ count := by
    rw [UInt32.toNat_shiftLeft, UInt32.toNat_ofNat_of_lt' (by show _ < 2 ^ 32; omega),
      UInt32.toNat_ofNat_of_lt' (by show _ < 2 ^ 32; omega), Nat.mod_eq_of_lt (by omega : 8 * count < 32),
      Nat.shiftLeft_eq, ← hpow, Nat.mod_eq_of_lt (by omega)]
  apply UInt32.toNat_inj.mp
  rw [UInt32.toNat_or, hshifted, UInt32.toNat_ofNat_of_lt' (by show _ < 2 ^ 32; omega),
    UInt32.toNat_ofNat_of_lt' (by show _ < 2 ^ 32; omega), hsum, hpow', ← Nat.shiftLeft_eq,
    Nat.shiftLeft_add_eq_or_of_lt (hpow' ▸ hlt)]

/-- Numbers of a byte each stand side by side. -/
theorem gather_eq {numbers : List Bytes} (hle : ∀ number ∈ numbers, value number ≤ 255) (hfour : numbers.length ≤ 4)
    {front : Nat} (hfront : (front + 1) * 256 ^ numbers.length ≤ 2 ^ 32) :
    gather (.ofNat (8 * numbers.length) - 8) (.ofNat (front * 256 ^ numbers.length)) numbers =
      .ofNat (numbers.foldl (fun all number => all * 256 + value number) front) := by
  induction numbers generalizing front with
  | nil => rw [List.length_nil, Nat.pow_zero, Nat.mul_one]; rfl
  | cons number rest ih =>
      rw [List.length_cons] at hfour hfront
      obtain ⟨hnumber, hrest⟩ := List.forall_mem_cons.mp hle
      have hshift : UInt32.ofNat (8 * (rest.length + 1)) - 8 = .ofNat (8 * rest.length) := by
        rw [Nat.mul_succ, UInt32.ofNat_add]
        exact UInt32.add_sub_cancel _ _
      have hnext : (front * 256 + value number + 1) * 256 ^ rest.length ≤ 2 ^ 32 := calc
        (front * 256 + value number + 1) * 256 ^ rest.length ≤ ((front + 1) * 256) * 256 ^ rest.length :=
            Nat.mul_le_mul_right _ (by omega)
        _ = (front + 1) * 256 ^ (rest.length + 1) := by rw [Nat.pow_succ]; ring
        _ ≤ 2 ^ 32 := hfront
      rw [List.length_cons, gather, hshift, List.foldl_cons, or_eq hnumber (by omega) hfront]
      exact ih hrest (Nat.le_of_succ_le hfour) hnext

/-! ### The whole of it -/

theorem IsNumber.not_dot {field : Bytes} (h : IsNumber field) : byte '.' ∉ field := by
  intro hdot
  have hdigit := h.digits _ hdot
  cases hdigit

theorem IsAddress.splitOn {text : Bytes} {numbers : List Bytes} (h : IsAddress text numbers) :
    text.splitOn (byte '.') = numbers := by
  rw [h.text_eq]
  refine List.splitOn_intercalate _ (fun number hnumber => (h.isNumber number hnumber).not_dot) ?_
  exact List.ne_nil_of_length_eq_add_one h.four

/-- An address is what begins with four numbers, has nothing behind them and no number above 255. -/
theorem isAddress_iff (text : Bytes) : (∃ numbers, IsAddress text numbers) ↔ Begins 4 text ∧
    (text.splitOn (byte '.')).length = 4 ∧ ∀ field ∈ text.splitOn (byte '.'), value field ≤ 255 := by
  constructor
  · intro ⟨numbers, h⟩
    have hsplit := h.splitOn
    rw [Begins, hsplit, List.take_of_length_le (Nat.le_of_eq h.four)]
    exact ⟨⟨Nat.le_of_eq h.four.symm, h.isNumber⟩, h.four, h.le⟩
  · intro ⟨hbegins, hfour, hle⟩
    have hnumbers := hbegins.2
    rw [List.take_of_length_le (Nat.le_of_eq hfour)] at hnumbers
    exact ⟨_, (List.intercalate_splitOn _).symm, hfour, hnumbers, hle⟩

theorem IsAddress.length_le {text : Bytes} {numbers : List Bytes} (h : IsAddress text numbers) : text.length ≤ 15 := by
  obtain ⟨first, second, third, fourth, rfl⟩ := List.length_eq_four.mp h.four
  have hlen : ∀ number ∈ [first, second, third, fourth], number.length ≤ 3 := fun number hnumber =>
    (h.isNumber number hnumber).three
  simp only [List.forall_mem_cons] at hlen
  rw [h.text_eq]
  simp only [List.intercalate_cons_cons, List.intercalate_singleton, List.length_append, List.length_singleton]
  omega

/-- The bytes that are copied to `buf`, where they are not too many. -/
def seen (cp : Bytes) : Bytes := cp.take (strlen cp % 256)

theorem inetAton_eq (cp : Bytes) (ip : UInt32) : inetAton cp ip =
    if strlen cp % 256 > 16 then (-1, ip)
    else match octetsFrom 4 24 0 (some (seen cp)) with
      | none => (-1, ip)
      | some ipBuf => (0, ipBuf) := by
  have hlen : (UInt8.ofNat (strlen cp)).toNat = strlen cp % 256 := UInt8.toNat_ofNat'
  have hgt : UInt8.ofNat (strlen cp) > 16 ↔ strlen cp % 256 > 16 := by
    rw [gt_iff_lt, UInt8.lt_iff_toNat_lt, hlen]
    exact Iff.rfl
  rw [inetAton, seen, hlen]
  simp only [hgt]

/-- What is accepted: a short beginning that begins with four numbers. -/
def Accepted (cp : Bytes) : Prop := strlen cp % 256 ≤ 16 ∧ Begins 4 (seen cp)

theorem inetAton_accepted {cp : Bytes} (h : Accepted cp) (ip : UInt32) :
    inetAton cp ip = (0, gather 24 0 (((seen cp).splitOn (byte '.')).take 4)) := by
  rw [inetAton_eq, if_neg (Nat.not_lt_of_le h.1), octetsFrom_begins h.2]

theorem inetAton_refused {cp : Bytes} (h : ¬Accepted cp) (ip : UInt32) : inetAton cp ip = (-1, ip) := by
  rw [inetAton_eq]
  split
  case isTrue => rfl
  case isFalse hshort => rw [octetsFrom_none fun hbegins => h ⟨Nat.le_of_not_lt hshort, hbegins⟩]

/-- A string of less than 256 bytes is looked at as a whole. -/
theorem seen_eq {cp : Bytes} (h : strlen cp < 256) : seen cp = textOf 0 cp := by
  rw [seen, Nat.mod_eq_of_lt h, strlen]
  exact (List.prefix_iff_eq_take.mp (List.takeWhile_prefix _)).symm

theorem IsAddress.strlen_lt {cp : Bytes} {numbers : List Bytes} (h : IsAddress (textOf 0 cp) numbers) :
    strlen cp < 256 := Nat.lt_of_le_of_lt h.length_le (by decide)

theorem IsAddress.accepted {cp : Bytes} {numbers : List Bytes} (h : IsAddress (textOf 0 cp) numbers) : Accepted cp := by
  have hlt := h.strlen_lt
  refine ⟨?_, ?_⟩
  · rw [Nat.mod_eq_of_lt hlt]
    exact Nat.le_trans h.length_le (by decide)
  · rw [seen_eq hlt]
    exact ((isAddress_iff _).mp ⟨numbers, h⟩).1

theorem inetAton_address {cp : Bytes} {numbers : List Bytes} (h : IsAddress (textOf 0 cp) numbers) (ip : UInt32) :
    inetAton cp ip = (0, address numbers) := by
  have hroom : (0 + 1) * 256 ^ numbers.length ≤ 2 ^ 32 := by
    rw [h.four]
    decide
  have hgather := gather_eq h.le (Nat.le_of_eq h.four) hroom
  rw [h.four, Nat.zero_mul] at hgather
  rw [inetAton_accepted h.accepted, seen_eq h.strlen_lt, h.splitOn, List.take_of_length_le (Nat.le_of_eq h.four), address,
    ← hgather]
  rfl

/-- **Where only addresses are read.** Four numbers at the beginning are enough for `inet_aton`, and the beginning is as
long as the lowest eight bits of the length say; so the string must be shorter than 256 bytes, must have nothing behind
the fourth number, and no number above 255. -/
theorem readsAddresses_iff (cp : Bytes) : ReadsAddresses cp ↔
    (strlen cp % 256 ≤ 16 ∧ Begins 4 (seen cp) → strlen cp < 256 ∧ ((seen cp).splitOn (byte '.')).length = 4 ∧
      ∀ field ∈ (seen cp).splitOn (byte '.'), value field ≤ 255) := by
  constructor
  · intro hreads haccepted
    have haddress : ∃ numbers, IsAddress (textOf 0 cp) numbers := by
      by_contra hnone
      have hrefused := (hreads 0).2 hnone
      rw [inetAton_accepted haccepted] at hrefused
      cases (Prod.mk.inj hrefused).1
    have hlt : strlen cp < 256 := haddress.elim fun _ h => h.strlen_lt
    rw [seen_eq hlt]
    exact ⟨hlt, ((isAddress_iff _).mp haddress).2⟩
  · intro hcond ip
    refine ⟨fun numbers h => inetAton_address h ip, fun hnone => inetAton_refused (fun haccepted => hnone ?_) ip⟩
    obtain ⟨hlt, hrest⟩ := hcond haccepted
    have hbegins := haccepted.2
    rw [seen_eq hlt] at hbegins hrest
    exact (isAddress_iff _).mpr ⟨hbegins, hrest⟩

/-- `1.2.3.256` is read. -/
theorem too_large_octet_read : ¬∀ cp, ReadsAddresses cp := by
  intro hall
  have hreads := (hall [49, 46, 50, 46, 51, 46, 50, 53, 54] 0).2
  have hnone : ¬∃ numbers, IsAddress (textOf 0 [49, 46, 50, 46, 51, 46, 50, 53, 54]) numbers := by
    rw [isAddress_iff]
    intro h
    have hlast : value [50, 53, 54] ≤ 255 := h.2.2 _ (by decide)
    exact absurd hlast (by decide)
  have hresult := (Prod.mk.inj (hreads hnone)).1
  exact absurd hresult (by decide)

end Thebends.AvrNet
