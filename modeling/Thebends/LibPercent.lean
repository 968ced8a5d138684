import Thebends.LibAscii

/-! Percent-encoded texts. A text is cut into pieces: an escape, wherever a percent sign has two hexadecimal digits
behind it, or a byte that stands for itself. Every text is cut in one way only. -/

namespace Thebends.LibPercent

open LibAscii

/-- The percent sign. -/
abbrev percent : UInt8 := 37

inductive Piece
  | copied (c : UInt8)
  | escape (a b : UInt8)

/-- What is written for a piece. -/
def Piece.text : Piece → List UInt8
  | .copied c => [c]
  | .escape a b => [percent, a, b]

/-- What a piece stands for. -/
def Piece.value : Piece → UInt8
  | .copied c => c
  | .escape a b => .ofNat (16 * hexValue a + hexValue b)

def textOf (pieces : List Piece) : List UInt8 := pieces.flatMap Piece.text

/-- A text begins with a complete escape. -/
def Complete (text : List UInt8) : Prop :=
  ∃ a b rest, text = percent :: a :: b :: rest ∧ isXDigit a ∧ isXDigit b

/-- The pieces of a text from left to right: the escapes are complete, and none is copied. -/
inductive Cut : List Piece → Prop
  | nil : Cut []
  | copied {c : UInt8} {rest : List Piece} : ¬Complete (c :: textOf rest) → Cut rest → Cut (.copied c :: rest)
  | escape {a b : UInt8} {rest : List Piece} : isXDigit a → isXDigit b → Cut rest → Cut (.escape a b :: rest)

/-- What a text stands for. -/
def Decodes (text out : List UInt8) : Prop := ∃ pieces, Cut pieces ∧ textOf pieces = text ∧ pieces.map Piece.value = out

theorem textOf_cons (piece : Piece) (rest : List Piece) : textOf (piece :: rest) = piece.text ++ textOf rest := by
  rw [textOf, List.flatMap_cons, textOf]

/-- Every text can be cut. -/
theorem exists_cut (text : List UInt8) : ∃ pieces, Cut pieces ∧ textOf pieces = text := by
  induction hlength : text.length using Nat.strong_induction_on generalizing text with
  | h length ih =>
      subst hlength
      by_cases hcomplete : Complete text
      · obtain ⟨a, b, rest, rfl, ha, hb⟩ := hcomplete
        have hshorter : rest.length < (percent :: a :: b :: rest).length := by
          rw [List.length_cons, List.length_cons, List.length_cons]
          omega
        obtain ⟨pieces, hcut, htext⟩ := ih rest.length hshorter rest rfl
        exact ⟨.escape a b :: pieces, .escape ha hb hcut, by rw [textOf_cons, htext]; rfl⟩
      · cases text with
        | nil => exact ⟨[], .nil, rfl⟩
        | cons c rest =>
            obtain ⟨pieces, hcut, htext⟩ := ih rest.length (Nat.lt_succ_self _) rest rfl
            rw [← htext] at hcomplete
            exact ⟨.copied c :: pieces, .copied hcomplete hcut, by rw [textOf_cons, htext]; rfl⟩

/-- A text can be cut in one way only. -/
theorem Cut.unique {pieces pieces' : List Piece} (h : Cut pieces) (h' : Cut pieces') (htext : textOf pieces = textOf pieces') :
    pieces = pieces' := by
  induction h generalizing pieces' with
  | nil =>
      cases h' with
      | nil => rfl
      | copied => cases htext
      | escape => cases htext
  | @copied c rest hnot _ ih =>
      rw [textOf_cons] at htext
      cases h' with
      | nil => cases htext
      | copied _ hcut =>
          rw [textOf_cons] at htext
          obtain ⟨rfl, hrest⟩ := List.cons.inj htext
          rw [ih hcut hrest]
      | @escape a b rest' ha hb _ =>
          rw [textOf_cons] at htext
          exact absurd ⟨a, b, textOf rest', htext, ha, hb⟩ hnot
  | @escape a b rest ha hb _ ih =>
      rw [textOf_cons] at htext
      cases h' with
      | nil => cases htext
      | @copied c rest' hnot _ =>
          rw [textOf_cons] at htext
          exact absurd ⟨a, b, textOf rest, htext.symm, ha, hb⟩ hnot
      | escape _ _ hcut =>
          rw [textOf_cons] at htext
          have hfirst := (List.cons.inj htext).2
          have hsecond := (List.cons.inj hfirst).2
          have hrest := (List.cons.inj hsecond).2
          rw [(List.cons.inj hfirst).1, (List.cons.inj hsecond).1, ih hcut hrest]

end Thebends.LibPercent
