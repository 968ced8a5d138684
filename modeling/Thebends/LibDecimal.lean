import Mathlib.Data.Nat.Digits.Lemmas

/-! Decimal numerals as strings of bytes. -/

namespace Thebends.LibDecimal

def isDigit (c : UInt8) : Bool := 48 ≤ c && c ≤ 57

/-- The digit of a number below ten. -/
def digit (d : Nat) : UInt8 := .ofNat (48 + d)

/-- The numeral of a number, without leading zeros. -/
def numeral (n : Nat) : List UInt8 := if n = 0 then [48] else (Nat.digits 10 n).reverse.map digit

/-- The number that digits stand for, behind digits that stand for `n`. -/
def valueFrom (n : Nat) (digits : List UInt8) : Nat := digits.foldl (fun n c => n * 10 + (c.toNat - 48)) n

theorem valueFrom_cons (n : Nat) (c : UInt8) (digits : List UInt8) :
    valueFrom n (c :: digits) = (n * 10 + (c.toNat - 48)) * 10 ^ digits.length + valueFrom 0 digits := by
  have hall : ∀ n, valueFrom n digits = n * 10 ^ digits.length + valueFrom 0 digits := by
    induction digits with
    | nil => exact fun n => by rw [List.length_nil, Nat.pow_zero, Nat.mul_one]; rfl
    | cons d digits ih =>
        intro n
        show valueFrom (n * 10 + (d.toNat - 48)) digits = _ + valueFrom (0 * 10 + (d.toNat - 48)) digits
        rw [ih, ih (0 * 10 + (d.toNat - 48)), List.length_cons, Nat.pow_succ]
        ring
  exact hall (n * 10 + (c.toNat - 48))

theorem digit_toNat {d : Nat} (h : d < 10) : (digit d).toNat = 48 + d := by
  rw [digit, UInt8.toNat_ofNat']
  exact Nat.mod_eq_of_lt (by omega)

theorem isDigit_digit {d : Nat} (h : d < 10) : isDigit (digit d) := by
  rw [isDigit, Bool.and_eq_true, decide_eq_true_iff, decide_eq_true_iff, UInt8.le_iff_toNat_le, UInt8.le_iff_toNat_le,
    digit_toNat h]
  exact ⟨Nat.le_add_right 48 d, Nat.add_le_add_left (Nat.le_of_lt_succ h) 48⟩

/-- **A numeral stands for its number.** -/
theorem valueFrom_numeral (n : Nat) : valueFrom 0 (numeral n) = n := by
  rw [numeral]
  split
  case isTrue h => exact h.symm
  case isFalse =>
      have hall : ∀ digits : List Nat, (∀ d ∈ digits, d < 10) →
          valueFrom 0 (digits.reverse.map digit) = Nat.ofDigits 10 digits := by
        intro digits hdigits
        induction digits with
        | nil => rfl
        | cons d digits ih =>
            have hd := digit_toNat (hdigits d List.mem_cons_self)
            have hrest := ih fun d' hmem => hdigits d' (List.mem_cons_of_mem d hmem)
            rw [valueFrom] at hrest
            rw [valueFrom, List.reverse_cons, List.map_append, List.foldl_append, hrest, Nat.ofDigits_cons]
            simp only [List.map_cons, List.map_nil, List.foldl_cons, List.foldl_nil, hd]
            omega
      rw [hall _ fun d hmem => Nat.digits_lt_base (by decide) hmem, Nat.ofDigits_digits]

theorem isDigit_of_mem_numeral {n : Nat} {c : UInt8} (h : c ∈ numeral n) : isDigit c := by
  rw [numeral] at h
  split at h
  · rw [List.mem_singleton.mp h]
    rfl
  · obtain ⟨d, hd, rfl⟩ := List.mem_map.mp h
    exact isDigit_digit (Nat.digits_lt_base (by decide) (List.mem_reverse.mp hd))

theorem numeral_ne_nil (n : Nat) : numeral n ≠ [] := by
  rw [numeral]
  split
  case isTrue => exact List.cons_ne_nil _ _
  case isFalse h =>
      rw [ne_eq, List.map_eq_nil_iff, List.reverse_eq_nil_iff]
      exact Nat.digits_ne_nil_iff_ne_zero.mpr h

/-- A numeral begins with a digit. -/
theorem numeral_eq_cons (n : Nat) : ∃ c digits, numeral n = c :: digits ∧ isDigit c := by
  obtain ⟨c, digits, h⟩ := List.exists_cons_of_ne_nil (numeral_ne_nil n)
  exact ⟨c, digits, h, isDigit_of_mem_numeral (h ▸ List.mem_cons_self)⟩

/-- Only the numeral of zero begins with a zero. -/
theorem numeral_of_zero {n : Nat} {rest : List UInt8} (h : numeral n = 48 :: rest) : n = 0 ∧ rest = [] := by
  rw [numeral] at h
  split at h
  case isTrue hzero => exact ⟨hzero, (List.cons.inj h).2.symm⟩
  case isFalse hne =>
      have hdigits : Nat.digits 10 n ≠ [] := Nat.digits_ne_nil_iff_ne_zero.mpr hne
      have hlast := Nat.getLast_digit_ne_zero 10 hne
      rw [← List.dropLast_concat_getLast hdigits, List.reverse_append, List.reverse_singleton, List.singleton_append,
        List.map_cons] at h
      have hlt := Nat.digits_lt_base (by decide : 1 < 10) (List.getLast_mem hdigits)
      have hvalue := congrArg UInt8.toNat (List.cons.inj h).1
      rw [digit_toNat hlt] at hvalue
      exact absurd (Nat.add_left_cancel hvalue : _ = 0) hlast

end Thebends.LibDecimal
