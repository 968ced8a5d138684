import Thebends.LibPercent
import Thebends.YhttpUrl

/-! `Unescape` changes the complete escapes of a string, and copies everything else. -/

namespace Thebends.Yhttp

open LibAscii LibDecimal LibPercent

theorem isXDigit_toLower (c : UInt8) : isXDigit (toLower c) ↔ isXDigit c := by
  rw [toLower]
  split
  case isTrue hupper =>
      have hbounds := isUpper_iff.mp hupper
      have hsum : (c + 32).toNat = c.toNat + 32 := by
        rw [UInt8.toNat_add]
        exact Nat.mod_eq_of_lt (by have h32 : (32 : UInt8).toNat = 32 := rfl; omega)
      rw [isXDigit_iff, isXDigit_iff, hsum]
      omega
  case isFalse => exact Iff.rfl

theorem hexToDec_toLower {c : UInt8} (h : isXDigit c) : hexToDec (toLower c) = .ofNat (hexValue c) := by
  have hbounds := isXDigit_iff.mp h
  have hc : c = .ofNat c.toNat := c.ofNat_toNat.symm
  generalize c.toNat = n at hbounds hc
  subst hc
  rcases hbounds with ⟨hlow, hhigh⟩ | ⟨hlow, hhigh⟩ | ⟨hlow, hhigh⟩
  all_goals interval_cases n <;> decide

/-- One escape that is complete. -/
theorem unescape_escape {a b : UInt8} (ha : isXDigit a) (hb : isXDigit b) (rest : Bytes) :
    unescape (percent :: a :: b :: rest) = (Piece.escape a b).value :: unescape rest := by
  rw [unescape, if_pos ⟨rfl, (isXDigit_toLower a).mpr ha, (isXDigit_toLower b).mpr hb⟩, hexToDec_toLower ha,
    hexToDec_toLower hb, Piece.value, UInt8.ofNat_add, UInt8.ofNat_mul]
  rfl

/-- Any other byte is copied. -/
theorem unescape_copied {c : UInt8} {rest : Bytes} (h : ¬Complete (c :: rest)) :
    unescape (c :: rest) = c :: unescape rest := by
  match rest with
  | [] => rfl
  | [d] => rfl
  | a :: b :: rest =>
      rw [unescape, if_neg]
      rintro ⟨rfl, ha, hb⟩
      exact h ⟨a, b, rest, rfl, (isXDigit_toLower a).mp ha, (isXDigit_toLower b).mp hb⟩

/-- The pieces are replaced by what they stand for. -/
theorem unescape_textOf {pieces : List Piece} (h : Cut pieces) : unescape (textOf pieces) = pieces.map Piece.value := by
  induction h with
  | nil => rfl
  | copied hnot _ ih =>
      rw [textOf_cons, List.map_cons, ← ih]
      exact unescape_copied hnot
  | escape ha hb _ ih =>
      rw [textOf_cons, List.map_cons, ← ih]
      exact unescape_escape ha hb _

/-- **`Unescape` decodes.** -/
theorem decodes_unescape (text : Bytes) : Decodes text (unescape text) := by
  obtain ⟨pieces, hcut, rfl⟩ := exists_cut text
  exact ⟨pieces, hcut, rfl, (unescape_textOf hcut).symm⟩

end Thebends.Yhttp
