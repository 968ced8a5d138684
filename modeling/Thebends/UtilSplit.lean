import Thebends.LibSplit
import Thebends.YhttpUrl

/-! `Split`, of which the web server and the tunnel have a copy each (`yhttp/util.cpp` and `btunnel/lib/util.cpp`), on
the characters of the string. Its pointers are offsets. -/

namespace Thebends

open LibSplit

namespace Util

abbrev Bytes := List UInt8

/-- The loop over `cur`, with `last` and what was pushed. -/
def splitLoop (message : Bytes) (c : UInt8) (last cur : Nat) (parts : List Bytes) : Nat × Nat × List Bytes :=
  if h : cur < message.length then
    if message[cur] = c then
      let parts := if cur - last ≠ 0 then parts ++ [(message.drop last).take (cur - last)] else parts
      splitLoop message c (cur + 1) (cur + 1) parts
    else splitLoop message c last (cur + 1) parts
  else (last, cur, parts)
termination_by message.length - cur

/-- The final piece is pushed. -/
def splitEnd (message : Bytes) : Nat × Nat × List Bytes → List Bytes
  | (last, cur, parts) => if last ≠ message.length then parts ++ [(message.drop last).take (cur - last)] else parts

/-- The text of both copies, with what `*parts` holds before. -/
def split (message : Bytes) (c : UInt8) (_parts : List Bytes) : List Bytes :=
  splitEnd message (splitLoop message c 0 0 [])

end Util

/-- `yhttpserver::Split`. -/
def Yhttp.splitInto (message : Yhttp.Bytes) (c : UInt8) (parts : List Yhttp.Bytes) : List Yhttp.Bytes :=
  Util.split message c parts

/-- `btunnel::Split`. -/
def Btunnel.splitInto (message : Util.Bytes) (c : UInt8) (parts : List Util.Bytes) : List Util.Bytes :=
  Util.split message c parts

namespace Util

section

variable {message before piece rest : Bytes} {c : UInt8} {parts : List Bytes}

/-- What lies between the two pointers. -/
theorem between_pointers (h : message = before ++ (piece ++ rest)) :
    (message.drop before.length).take (before.length + piece.length - before.length) = piece := by
  rw [h, Nat.add_sub_cancel_left, List.drop_left, List.take_left]

theorem push_eq (h : message = before ++ (piece ++ rest)) :
    (if before.length + piece.length - before.length ≠ 0 then
      parts ++ [(message.drop before.length).take (before.length + piece.length - before.length)] else parts) =
      parts ++ push piece := by
  rw [between_pointers h, Nat.add_sub_cancel_left, push]
  by_cases hpiece : piece = []
  · simp [hpiece]
  · simp [hpiece]

/-- The loop goes on behind a piece that has begun. -/
theorem splitEnd_splitLoop (h : message = before ++ (piece ++ rest)) (hpiece : c ∉ piece) (parts : List Bytes) :
    splitEnd message (splitLoop message c before.length (before.length + piece.length) parts) =
      parts ++ pieces (piece ++ rest) c := by
  induction rest generalizing before piece parts with
  | nil =>
      have hend : before.length + piece.length = message.length := by
        rw [h]
        simp
      rw [splitLoop, dif_neg (by omega), splitEnd, between_pointers h, List.append_nil, pieces_last hpiece, push, ← hend]
      by_cases hempty : piece = []
      · simp [hempty]
      · simp [hempty]
  | cons d rest ih =>
      have hcur : before.length + piece.length < message.length := by
        rw [h]
        simp
      have hd : message[before.length + piece.length] = d := by
        simp [h]
      rw [splitLoop, dif_pos hcur, hd]
      by_cases hsep : d = c
      · subst hsep
        have hnext : message = (before ++ (piece ++ [d])) ++ ([] ++ rest) := by
          simp [h]
        have hlength : before.length + piece.length + 1 = (before ++ (piece ++ [d])).length := by
          simp [Nat.add_assoc]
        have hrest := ih hnext List.not_mem_nil (parts ++ push piece)
        rw [if_pos rfl, push_eq h, pieces_cut hpiece, hlength]
        exact hrest.trans (List.append_assoc _ _ _)
      · have hnext : message = before ++ ((piece ++ [d]) ++ rest) := by
          simp [h]
        have hmore : c ∉ piece ++ [d] := by
          simp [hpiece, Ne.symm hsep]
        have hlength : before.length + piece.length + 1 = before.length + (piece ++ [d]).length := by
          simp [Nat.add_assoc]
        have hrest := ih hnext hmore parts
        rw [if_neg hsep, hlength, hrest]
        simp

/-- The loop finds the pieces that are not empty. -/
theorem split_eq (message : Bytes) (c : UInt8) (parts : List Bytes) : split message c parts = pieces message c :=
  splitEnd_splitLoop (List.nil_append _).symm List.not_mem_nil []

end

end Util

namespace Yhttp

/-- The loop over the list of characters finds the same. -/
theorem splitFrom_eq {piece : Bytes} {c : UInt8} (hpiece : c ∉ piece) (message : Bytes) :
    splitFrom c piece message = pieces (piece ++ message) c := by
  induction message generalizing piece with
  | nil =>
      rw [List.append_nil, pieces_last hpiece]
      rfl
  | cons d rest ih =>
      rw [splitFrom]
      by_cases hsep : d = c
      · rw [if_pos hsep, hsep, pieces_cut hpiece, ih List.not_mem_nil]
        rfl
      · have hmore : c ∉ piece ++ [d] := by
          simp [hpiece, Ne.symm hsep]
        rw [if_neg hsep, ih hmore, List.append_assoc, List.singleton_append]

theorem split_eq_pieces (message : Bytes) (c : UInt8) : split message c = pieces message c :=
  splitFrom_eq List.not_mem_nil message

/-- The parsers of the web server use what `Split` returns. -/
theorem splitInto_eq_split (message : Bytes) (c : UInt8) (parts : List Bytes) :
    splitInto message c parts = split message c :=
  (Util.split_eq message c parts).trans (split_eq_pieces message c).symm

end Yhttp

namespace Util

/-- The two copies. -/
inductive Copy
  | yhttpserver
  | btunnel

/-- `Split(message, c, parts)`. -/
def Copy.split : Copy → Bytes → UInt8 → List Bytes → List Bytes
  | .yhttpserver => Yhttp.splitInto
  | .btunnel => Btunnel.splitInto

theorem Copy.split_eq (copy : Copy) (message : Bytes) (c : UInt8) (parts : List Bytes) :
    copy.split message c parts = pieces message c := by
  cases copy with
  | yhttpserver => exact Util.split_eq message c parts
  | btunnel => exact Util.split_eq message c parts

/-- **`Split` returns the pieces between separators that are not empty**, in their order; separators at the start, at
the end and next to each other make no difference. -/
theorem Copy.split_pieces (copy : Copy) (message : Bytes) (c : UInt8) (parts : List Bytes) :
    copy.split message c parts = (message.splitOn c).filter (· ≠ []) ∧
    (∀ piece ∈ copy.split message c parts, piece ≠ [] ∧ c ∉ piece) ∧
    (copy.split message c parts).flatten = message.filter (· ≠ c) ∧
    copy.split (c :: message) c parts = copy.split message c parts ∧
    copy.split (message ++ [c]) c parts = copy.split message c parts ∧
    ∀ before after, copy.split (before ++ c :: c :: after) c parts = copy.split (before ++ c :: after) c parts := by
  simp only [copy.split_eq]
  refine ⟨rfl, fun piece hpiece => of_mem_pieces hpiece, flatten_pieces c message, ?_, ?_, ?_⟩
  · exact pieces_cut List.not_mem_nil message
  · rw [pieces_append, pieces_last List.not_mem_nil, push, if_pos rfl, List.append_nil]
  · intro before after
    rw [pieces_append, pieces_append]
    exact congrArg _ (pieces_cut List.not_mem_nil after)

end Util

end Thebends
