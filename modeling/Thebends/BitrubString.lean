import Thebends.LibDecimal
import Thebends.LibSplit

/-! The operations on Ruby's strings of bytes that `bencode.rb` rests on. A position below zero counts from the
end of the string. -/

namespace Thebends.Bitrub

open LibDecimal

abbrev Bytes := List UInt8

/-- The byte of an ASCII character. -/
abbrev byte (c : Char) : UInt8 := .ofNat c.toNat

/-- A position counted from the start; it is still below zero where the position lies before the string. -/
def place (x : Bytes) (f : Int) : Int := if f < 0 then f + x.length else f

/-- `x[f]`. -/
def byteAt (x : Bytes) (f : Int) : Option UInt8 := if place x f < 0 then none else x[(place x f).toNat]?

/-- `x.index(c, f)`, for a single byte. -/
def index (x : Bytes) (c : UInt8) (f : Int) : Option Int :=
  if place x f < 0 then none else ((x.drop (place x f).toNat).idxOf? c).map fun count => place x f + count

/-- `x[first .. last]`; the empty string stands for the `nil` of a range that starts outside of the string. -/
def slice (x : Bytes) (first last : Int) : Bytes :=
  if place x first < 0 then []
  else (x.drop (place x first).toNat).take (place x last + 1 - place x first).toNat

/-- The rest of a number behind a digit; one underscore may stand between two digits. -/
def digitsFrom : Nat → Bytes → Nat
  | n, [] => n
  | n, c :: text =>
      if isDigit c then digitsFrom (n * 10 + (c.toNat - 48)) text
      else if c = byte '_' ∧ text.head?.any isDigit then digitsFrom n text
      else n

/-- A number without its sign; `0d` may stand before it. -/
def magnitude (text : Bytes) : Nat :=
  let text := if text.take 2 = [byte '0', byte 'd'] ∨ text.take 2 = [byte '0', byte 'D'] then text.drop 2 else text
  if text.head?.any isDigit then digitsFrom 0 text else 0

/-- What `to_i` skips before a number. -/
def isBlank (c : UInt8) : Bool := c = byte ' ' || 9 ≤ c && c ≤ 13 || c = byte '_'

/-- `text.to_i`: the number that the text begins with, or zero. -/
def toI (text : Bytes) : Int :=
  match text.dropWhile isBlank with
  | [] => 0
  | c :: text =>
      if c = byte '-' then -magnitude text
      else if c = byte '+' then magnitude text
      else magnitude (c :: text)

/-- `n.to_s`. -/
def toS (n : Int) : Bytes := if n < 0 then byte '-' :: numeral n.natAbs else numeral n.natAbs

/-! ### What stands behind a prefix -/

theorem place_of_nonneg {f : Int} (h : 0 ≤ f) (x : Bytes) : place x f = f := if_neg (not_lt.mpr h)

theorem place_natCast (x : Bytes) (f : Nat) : place x f = f := place_of_nonneg (Int.natCast_nonneg f) x

theorem byteAt_natCast (x : Bytes) (f : Nat) : byteAt x f = x[f]? := by
  rw [byteAt, place_natCast, if_neg (not_lt.mpr (Int.natCast_nonneg f)), Int.toNat_natCast]

theorem byteAt_append (before after : Bytes) (c : UInt8) : byteAt (before ++ c :: after) before.length = some c := by
  rw [byteAt_natCast, List.getElem?_append_right le_rfl, Nat.sub_self]
  rfl

theorem index_append {c : UInt8} {text : Bytes} (h : c ∉ text) (before after : Bytes) :
    index (before ++ (text ++ c :: after)) c before.length = some ((before.length : Int) + text.length) := by
  rw [index, place_natCast, if_neg (not_lt.mpr (Int.natCast_nonneg _)), Int.toNat_natCast, List.drop_left,
    LibSplit.idxOf?_append h]
  rfl

theorem slice_append (before text after : Bytes) (h : 0 < before.length + text.length) :
    slice (before ++ (text ++ after)) before.length (before.length + text.length - 1) = text := by
  have hlast : 0 ≤ (before.length : Int) + text.length - 1 := by omega
  have hcount : ((before.length : Int) + text.length - 1 + 1 - before.length).toNat = text.length := by omega
  rw [slice, place_natCast, if_neg (not_lt.mpr (Int.natCast_nonneg _)), place_of_nonneg hlast, hcount,
    Int.toNat_natCast, List.drop_left, List.take_left]

theorem byteAt_bounds {x : Bytes} {f : Int} {c : UInt8} (h : byteAt x f = some c) :
    -(x.length : Int) ≤ f ∧ f < x.length := by
  rw [byteAt] at h
  split at h
  · cases h
  · obtain ⟨hlt, -⟩ := List.getElem?_eq_some_iff.mp h
    rw [place] at *
    split at * <;> omega

/-! ### Numbers -/

theorem digitsFrom_append {digits : Bytes} (h : ∀ c ∈ digits, isDigit c) (n : Nat) {after : Bytes}
    (hafter : ∀ c ∈ after.head?, ¬isDigit c ∧ c ≠ byte '_') : digitsFrom n (digits ++ after) = valueFrom n digits := by
  induction digits generalizing n with
  | nil =>
      cases after with
      | nil => rfl
      | cons c after =>
          obtain ⟨hdigit, hunderscore⟩ := hafter c rfl
          rw [List.nil_append, digitsFrom, if_neg hdigit, if_neg fun hboth => hunderscore hboth.1]
          rfl
  | cons c digits ih =>
      rw [List.cons_append, digitsFrom, if_pos (h c List.mem_cons_self)]
      exact ih (fun d hmem => h d (List.mem_cons_of_mem c hmem)) _

theorem isDigit_bounds {c : UInt8} (h : isDigit c) : byte '0' ≤ c ∧ c ≤ byte '9' := by
  rw [isDigit, Bool.and_eq_true, decide_eq_true_iff, decide_eq_true_iff] at h
  exact h

/-- What may stand behind a numeral. -/
def Stops (after : Bytes) : Prop :=
  ∀ c ∈ after.head?, ¬isDigit c ∧ c ≠ byte '_' ∧ c ≠ byte 'd' ∧ c ≠ byte 'D'

theorem stops_nil : Stops [] := fun _ h => nomatch h

/-- A numeral does not begin with `0d`. -/
theorem take_numeral_ne {n : Nat} {after : Bytes} (h : Stops after) {c : UInt8} (hc : c = byte 'd' ∨ c = byte 'D') :
    (numeral n ++ after).take 2 ≠ [byte '0', c] := by
  have hletter : ¬isDigit c := by
    rcases hc with rfl | rfl <;> decide
  intro htake
  have hsecond : (numeral n ++ after)[1]? = some c := by
    rw [← List.getElem?_take_of_lt (by decide : 1 < 2), htake]
    rfl
  have hdigits : ∀ d ∈ numeral n, isDigit d := fun _ => isDigit_of_mem_numeral
  match hn : numeral n with
  | [] => exact numeral_ne_nil n hn
  | [d] =>
      rw [hn] at hsecond
      have hhead : c ∈ after.head? := by
        rw [List.head?_eq_getElem?]
        exact hsecond
      exact hc.elim (h c hhead).2.2.1 (h c hhead).2.2.2
  | d :: d' :: digits =>
      rw [hn] at hsecond hdigits
      rw [← Option.some.inj hsecond] at hletter
      exact hletter (hdigits d' (List.mem_cons_of_mem d List.mem_cons_self))

theorem magnitude_numeral (n : Nat) {after : Bytes} (h : Stops after) : magnitude (numeral n ++ after) = n := by
  have hplain : ¬((numeral n ++ after).take 2 = [byte '0', byte 'd'] ∨
      (numeral n ++ after).take 2 = [byte '0', byte 'D']) :=
    not_or.mpr ⟨take_numeral_ne h (Or.inl rfl), take_numeral_ne h (Or.inr rfl)⟩
  have hhead : (numeral n ++ after).head?.any isDigit := by
    obtain ⟨c, digits, hdigits, hdigit⟩ := numeral_eq_cons n
    rw [hdigits]
    exact hdigit
  rw [magnitude, if_neg hplain, if_pos hhead,
    digitsFrom_append (fun _ => isDigit_of_mem_numeral) 0 fun c hc => ⟨(h c hc).1, (h c hc).2.1⟩, valueFrom_numeral]

theorem digit_plain {c : UInt8} (h : isDigit c) : ¬isBlank c ∧ c ≠ byte '-' ∧ c ≠ byte '+' := by
  obtain ⟨hlow, hhigh⟩ := isDigit_bounds h
  have hlow' : 48 ≤ c.toNat := hlow
  have hhigh' : c.toNat ≤ 57 := hhigh
  have hne : ∀ d : UInt8, d.toNat < 48 → c ≠ d := by
    rintro d hd rfl
    exact absurd hlow' (not_le.mpr hd)
  refine ⟨?_, hne _ (by decide), hne _ (by decide)⟩
  simp only [isBlank, Bool.or_eq_true, Bool.and_eq_true, decide_eq_true_eq, not_or, not_and]
  refine ⟨⟨hne _ (by decide), fun _ hle => ?_⟩, ?_⟩
  · have hle' : c.toNat ≤ 13 := hle
    omega
  · rintro rfl
    exact absurd hhigh' (by decide)

theorem toI_numeral (n : Nat) {after : Bytes} (h : Stops after) : toI (numeral n ++ after) = n := by
  have hvalue := magnitude_numeral n h
  obtain ⟨c, digits, hdigits, hdigit⟩ := numeral_eq_cons n
  obtain ⟨hblank, hminus, hplus⟩ := digit_plain hdigit
  rw [hdigits, List.cons_append] at hvalue
  rw [hdigits, toI, List.cons_append, List.dropWhile_cons_of_neg hblank]
  dsimp only
  rw [if_neg hminus, if_neg hplus, hvalue]

theorem toI_toS (n : Int) : toI (toS n) = n := by
  rw [toS]
  split
  case isTrue h =>
      have hvalue := magnitude_numeral n.natAbs stops_nil
      rw [List.append_nil] at hvalue
      rw [toI, List.dropWhile_cons_of_neg (by decide)]
      dsimp only
      rw [if_pos rfl, hvalue]
      omega
  case isFalse h =>
      have hvalue := toI_numeral n.natAbs stops_nil
      rw [List.append_nil] at hvalue
      rw [hvalue]
      omega

end Thebends.Bitrub
