import Thebends.YhttpUnescape

/-! The query of a request to a tracker (`peers.cpp`), as the web server reads it: `EscapeAndAppend` and `Unescape`. -/

namespace Thebends.Ypeer

open LibAscii LibDecimal LibPercent Yhttp

/-- `snprintf` with `%%%02x`. -/
def escapeChar (c : UInt8) : Bytes := [byte '%', hexDigit (c.toNat / 16), hexDigit (c.toNat % 16)]

/-- What is appended for one character. -/
def escapeOne (c : UInt8) : Bytes :=
  if isAlpha c || isDigit c || (ascii "-_.~").contains c then [c] else escapeChar c

/-- `EscapeAndAppend`, whose loop counts up to the size as an `int`. -/
def escapeAndAppend (value message : Bytes) : Bytes :=
  message ++ (value.take (sizeToInt value.length).toNat).flatMap escapeOne

/-! ### There and back -/

theorem unescape_escapeOne (c : UInt8) (rest : Bytes) : unescape (escapeOne c ++ rest) = c :: unescape rest := by
  rw [escapeOne]
  split
  case isTrue hplain =>
      refine unescape_copied ?_
      rintro ⟨a, b, rest', heq, -, -⟩
      rw [(List.cons.inj heq).1] at hplain
      exact absurd hplain (by decide)
  case isFalse =>
      have hhigh : c.toNat / 16 < 16 := by
        have hlt := c.toNat_lt
        omega
      have hlow : c.toNat % 16 < 16 := Nat.mod_lt _ (by decide)
      have hvalue : 16 * (c.toNat / 16) + c.toNat % 16 = c.toNat := Nat.div_add_mod c.toNat 16
      rw [escapeChar]
      refine (unescape_escape (isXDigit_hexDigit hhigh) (isXDigit_hexDigit hlow) rest).trans ?_
      rw [Piece.value, hexValue_hexDigit hhigh, hexValue_hexDigit hlow, hvalue, UInt8.ofNat_toNat]

theorem unescape_flatMap (value : Bytes) : unescape (value.flatMap escapeOne) = value := by
  induction value with
  | nil => rfl
  | cons c value ih => rw [List.flatMap_cons, unescape_escapeOne, ih]

/-- The loop reaches the end of a string just where its size is an `int`. -/
theorem take_sizeToInt_iff (value : Bytes) : value.take (sizeToInt value.length).toNat = value ↔ value.length < 2 ^ 31 := by
  rw [List.take_eq_self_iff]
  constructor
  · intro hle
    have hlt : sizeToInt value.length < 2 ^ 31 := Int.bmod_lt (by decide)
    omega
  · intro hlt
    have heq : sizeToInt value.length = value.length := Int.bmod_eq_of_le (by omega) (by omega)
    rw [heq, Int.toNat_natCast]

theorem unescape_escapeAndAppend_iff (s : Bytes) : unescape (escapeAndAppend s []) = s ↔ s.length < 2 ^ 31 := by
  rw [escapeAndAppend, List.nil_append, unescape_flatMap, take_sizeToInt_iff]

/-- **What `EscapeAndAppend` emits is read back by `Unescape`**, of strings whose size is an `int`; and of any string
`Unescape` changes the complete escapes and nothing else. -/
theorem unescape_escaped (s : Bytes) :
    (unescape (escapeAndAppend s []) = s ↔ s.length < 2 ^ 31) ∧ (∃! pieces, Cut pieces ∧ LibPercent.textOf pieces = s) ∧
      ∀ pieces, Cut pieces → LibPercent.textOf pieces = s → unescape s = pieces.map Piece.value := by
  refine ⟨unescape_escapeAndAppend_iff s, ?_, fun pieces hcut htext => htext ▸ unescape_textOf hcut⟩
  obtain ⟨pieces, hcut, htext⟩ := exists_cut s
  exact ⟨pieces, ⟨hcut, htext⟩, fun pieces' h => h.1.unique hcut (h.2.trans htext.symm)⟩

/-- A string of 2 GiB, of which nothing is emitted. -/
theorem longString_lost : ¬unescape (escapeAndAppend (List.replicate (2 ^ 31) (byte 'a')) []) =
    List.replicate (2 ^ 31) (byte 'a') := by
  rw [unescape_escapeAndAppend_iff, List.length_replicate]
  exact Nat.lt_irrefl _

end Thebends.Ypeer
