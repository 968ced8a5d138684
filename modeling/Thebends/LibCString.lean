import Mathlib.Data.List.Basic
import Mathlib.Data.List.Induction
import Mathlib.Data.List.TakeWhile
import Mathlib.Tactic.Common

/-! Strings in arrays of a fixed size that end at a `NUL`. Data are copied over the start of the array, up to their
`NUL` and filled up to their length; behind that the array keeps what it had. So after many copies it ends where an
earlier copy ended, and holds the last of them only where there is a `NUL` right behind it. -/

namespace Thebends.LibCString

variable {α : Type*} [DecidableEq α] (nul : α)

/-- What is before the `NUL`. -/
def textOf (array : List α) : List α := array.takeWhile (· ≠ nul)

/-- Nothing is taken from behind the `NUL`. -/
def cut : List α → List α
  | [] => []
  | byte :: rest => if byte = nul then List.replicate (rest.length + 1) nul else byte :: cut rest

/-- Data are copied over the start of an array. -/
def overwrite (array data : List α) : List α := cut nul data ++ array.drop data.length

/-- Copies, one after the other. -/
def overwriteAll (array : List α) (copies : List (List α)) : List α := copies.foldl (overwrite nul) array

/-- An array that holds some data as a string. -/
def IsString (array data : List α) : Prop := nul ∈ array ∧ textOf nul array = textOf nul data

/-- Right behind the last of the copies, or in it, there is a `NUL`: no copy before it went further, or the last that
did has a `NUL` up to there. -/
def Ended (size : Nat) (copies : List (List α)) : Prop :=
  ∀ data, copies.getLast? = some data → nul ∈ data ∨ (data.length < size ∧
    ∀ longer, (copies.filter fun copy => data.length < copy.length).getLast? = some longer →
      nul ∈ longer.take (data.length + 1))

/-! ### One copy -/

section

variable {nul} {array data : List α}

@[simp] theorem length_cut (data : List α) : (cut nul data).length = data.length := by
  induction data with
  | nil => rfl
  | cons byte rest ih =>
      rw [cut]
      split
      case isTrue => rw [List.length_replicate, List.length_cons]
      case isFalse => rw [List.length_cons, ih, List.length_cons]

theorem cut_of_not_mem (h : nul ∉ data) : cut nul data = data := by
  induction data with
  | nil => rfl
  | cons byte rest ih =>
      obtain ⟨hbyte, hrest⟩ := List.ne_and_not_mem_of_not_mem_cons h
      rw [cut, if_neg (Ne.symm hbyte), ih hrest]

theorem mem_cut_iff : nul ∈ cut nul data ↔ nul ∈ data := by
  induction data with
  | nil => exact Iff.rfl
  | cons byte rest ih =>
      rw [cut, List.mem_cons]
      split
      case isTrue heq => exact iff_of_true List.mem_cons_self (.inl heq.symm)
      case isFalse => rw [List.mem_cons, ih]

theorem textOf_cut_append (h : nul ∈ data) (rest : List α) : textOf nul (cut nul data ++ rest) = textOf nul data := by
  induction data with
  | nil => exact absurd h List.not_mem_nil
  | cons byte more ih =>
      rw [cut, textOf, textOf]
      by_cases heq : byte = nul
      · rw [if_pos heq, List.replicate_succ, List.cons_append, List.takeWhile_cons_of_neg (by simp),
          List.takeWhile_cons_of_neg (by simpa using heq)]
      · have hmore : nul ∈ more := (List.mem_cons.mp h).resolve_left (Ne.symm heq)
        rw [if_neg heq, List.cons_append, List.takeWhile_cons_of_pos (by simpa using heq),
          List.takeWhile_cons_of_pos (by simpa using heq)]
        exact congrArg (byte :: ·) (ih hmore)

/-- A place up to the length of the data. -/
theorem getElem?_cut_iff {index : Nat} (h : index < data.length) :
    (cut nul data)[index]? = some nul ↔ nul ∈ data.take (index + 1) := by
  induction data generalizing index with
  | nil => exact absurd h (Nat.not_lt_zero index)
  | cons byte rest ih =>
      rw [cut, List.take_succ_cons, List.mem_cons]
      split
      case isTrue heq =>
        rw [List.getElem?_replicate, if_pos (List.length_cons ▸ h)]
        exact iff_of_true rfl (.inl heq.symm)
      case isFalse hne =>
        have hhead : ¬nul = byte := Ne.symm hne
        rw [or_iff_right hhead]
        cases index with
        | zero =>
            rw [List.getElem?_cons_zero, Option.some_inj]
            exact iff_of_false hne List.not_mem_nil
        | succ index =>
            rw [List.getElem?_cons_succ]
            exact ih (Nat.lt_of_succ_lt_succ h)

theorem textOf_of_not_mem (h : nul ∉ data) : textOf nul data = data :=
  List.takeWhile_eq_self_iff.mpr fun _ hbyte => decide_eq_true fun heq => h (heq ▸ hbyte)

theorem textOf_append_of_not_mem (h : nul ∉ data) (rest : List α) :
    textOf nul (data ++ rest) = data ++ textOf nul rest :=
  List.takeWhile_append_of_pos fun _ hbyte => decide_eq_true fun heq => h (heq ▸ hbyte)

/-- The array holds the data where they end in themselves, or at a `NUL` that was there before. -/
theorem isString_overwrite_iff (array data : List α) :
    IsString nul (overwrite nul array data) data ↔ nul ∈ data ∨ array[data.length]? = some nul := by
  by_cases hmem : nul ∈ data
  · refine iff_of_true ⟨?_, textOf_cut_append hmem _⟩ (.inl hmem)
    exact List.mem_append_left _ (mem_cut_iff.mpr hmem)
  · rw [IsString, overwrite, cut_of_not_mem hmem, textOf_append_of_not_mem hmem, textOf_of_not_mem hmem,
      List.append_right_eq_self, List.mem_append, or_iff_right hmem, or_iff_right hmem, ← List.head?_drop]
    cases array.drop data.length with
    | nil => exact iff_of_false (fun h => absurd h.1 List.not_mem_nil) (Option.some_ne_none nul).symm
    | cons byte rest =>
        rw [List.head?_cons, Option.some_inj, textOf]
        by_cases heq : byte = nul
        · exact iff_of_true ⟨heq ▸ List.mem_cons_self, List.takeWhile_cons_of_neg (by simpa using heq)⟩ heq
        · refine iff_of_false (fun h => ?_) heq
          rw [List.takeWhile_cons_of_pos (by simpa using heq)] at h
          exact List.cons_ne_nil _ _ h.2

end

/-! ### Many copies -/

section

variable {nul} {size : Nat} {copies : List (List α)}

theorem overwriteAll_concat (array data : List α) (copies : List (List α)) :
    overwriteAll nul array (copies ++ [data]) = overwrite nul (overwriteAll nul array copies) data := by
  rw [overwriteAll, List.foldl_append]
  rfl

/-- What is at a place comes from the last copy that went so far. -/
theorem getElem?_overwriteAll_iff (h : ∀ data ∈ copies, data.length ≤ size) (index : Nat) :
    (overwriteAll nul (List.replicate size nul) copies)[index]? = some nul ↔ index < size ∧
      ∀ longer, (copies.filter fun copy => index < copy.length).getLast? = some longer →
        nul ∈ longer.take (index + 1) := by
  induction copies using List.reverseRecOn with
  | nil =>
      rw [overwriteAll, List.foldl_nil, List.getElem?_replicate]
      split
      case isTrue hlt => exact iff_of_true rfl ⟨hlt, fun _ hnone => absurd hnone (Option.some_ne_none _).symm⟩
      case isFalse hge => exact iff_of_false (Option.some_ne_none nul).symm fun hboth => hge hboth.1
  | append_singleton copies data ih =>
      have hdata : data.length ≤ size := h data (List.mem_append_right _ List.mem_cons_self)
      rw [overwriteAll_concat, overwrite, List.filter_append]
      by_cases hlt : index < data.length
      · rw [List.getElem?_append_left (by rwa [length_cut]), getElem?_cut_iff hlt,
          List.filter_cons_of_pos (by simpa using hlt), List.filter_nil, List.getLast?_concat,
          and_iff_right (Nat.lt_of_lt_of_le hlt hdata)]
        constructor
        · intro hmem longer hlonger
          exact Option.some.inj hlonger ▸ hmem
        · exact fun hall => hall data rfl
      · have hplace : data.length + (index - data.length) = index := by omega
        rw [List.getElem?_append_right (by rw [length_cut]; omega), length_cut, List.getElem?_drop, hplace,
          List.filter_cons_of_neg (by simpa using hlt), List.filter_nil, List.append_nil]
        exact ih fun copy hcopy => h copy (List.mem_append_left _ hcopy)

/-- **After copies to an array of `NUL`s it holds the last of them just when they end.** -/
theorem isString_overwriteAll_iff (h : ∀ data ∈ copies, data.length ≤ size) :
    (∀ data, copies.getLast? = some data → IsString nul (overwriteAll nul (List.replicate size nul) copies) data) ↔
      Ended nul size copies := by
  refine forall_congr' fun data => forall_congr' fun hlast => ?_
  obtain ⟨earlier, rfl⟩ := List.getLast?_eq_some_iff.mp hlast
  rw [overwriteAll_concat, isString_overwrite_iff, getElem?_overwriteAll_iff fun copy hcopy =>
    h copy (List.mem_append_left _ hcopy), List.filter_append, List.filter_cons_of_neg (by simp),
    List.filter_nil, List.append_nil]

end

end Thebends.LibCString
