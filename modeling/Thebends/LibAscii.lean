import Thebends.LibDecimal

/-! ASCII characters as bytes: texts, the classes of characters in the C locale, and hexadecimal digits. -/

namespace Thebends.LibAscii

open LibDecimal

/-- The byte of an ASCII character. -/
abbrev byte (c : Char) : UInt8 := .ofNat c.toNat

/-- The bytes of an ASCII text. -/
def ascii (s : String) : List UInt8 := s.toList.map byte

def isLower (c : UInt8) : Bool := 97 ≤ c && c ≤ 122

def isUpper (c : UInt8) : Bool := 65 ≤ c && c ≤ 90

def isAlpha (c : UInt8) : Bool := isLower c || isUpper c

def isXDigit (c : UInt8) : Bool := isDigit c || (97 ≤ c && c ≤ 102) || (65 ≤ c && c ≤ 70)

def toLower (c : UInt8) : UInt8 := if isUpper c then c + 32 else c

/-- The lower-case digit of a number below sixteen. -/
def hexDigit (d : Nat) : UInt8 := .ofNat (if d < 10 then 48 + d else 87 + d)

/-- The number that a digit of either case stands for. -/
def hexValue (c : UInt8) : Nat := if isDigit c then c.toNat - 48 else if isUpper c then c.toNat - 55 else c.toNat - 87

theorem isXDigit_hexDigit {d : Nat} (h : d < 16) : isXDigit (hexDigit d) := by
  interval_cases d <;> decide

theorem hexValue_hexDigit {d : Nat} (h : d < 16) : hexValue (hexDigit d) = d := by
  interval_cases d <;> decide

theorem isXDigit_iff {c : UInt8} : isXDigit c ↔
    48 ≤ c.toNat ∧ c.toNat ≤ 57 ∨ 97 ≤ c.toNat ∧ c.toNat ≤ 102 ∨ 65 ≤ c.toNat ∧ c.toNat ≤ 70 := by
  simp only [isXDigit, isDigit, Bool.or_eq_true, Bool.and_eq_true, decide_eq_true_eq, UInt8.le_iff_toNat_le, or_assoc]
  rfl

theorem isUpper_iff {c : UInt8} : isUpper c ↔ 65 ≤ c.toNat ∧ c.toNat ≤ 90 := by
  simp only [isUpper, Bool.and_eq_true, decide_eq_true_eq, UInt8.le_iff_toNat_le]
  rfl

end Thebends.LibAscii
