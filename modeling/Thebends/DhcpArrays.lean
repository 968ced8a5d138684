import Thebends.DhcpGrammar
import Thebends.LibCString

/-! What the copies of the parser leave in the arrays of the options. -/

namespace Thebends.Dhcp

open LibCString

/-! ### Elements -/

theorem length_take {α : Type} (array : Vector α optionFieldMax) {count : Nat} (h : count ≤ optionFieldMax) :
    (array.toList.take count).length = count := by
  rw [List.length_take_of_le]
  rw [Vector.length_toList]
  exact h

theorem getElem_fill {α : Type} (array : Vector α optionFieldMax) (count : Nat) (value : Nat → α) {index : Nat}
    (hindex : index < optionFieldMax) :
    (fill array count value)[index] = if index < count then value index else array[index] := by
  rw [fill, Vector.getElem_ofFn]
  rfl

theorem fill_congr {α : Type} {count : Nat} (array : Vector α optionFieldMax) {value value' : Nat → α}
    (h : ∀ index < count, value index = value' index) : fill array count value = fill array count value' := by
  ext index hindex
  rw [getElem_fill, getElem_fill]
  split
  case isTrue hlt => exact h index hlt
  case isFalse => rfl

/-- The elements that are written. -/
theorem take_fill {α : Type} (array : Vector α optionFieldMax) {count : Nat} (hcount : count ≤ optionFieldMax)
    (value : Nat → α) : (fill array count value).toList.take count = (List.range count).map value := by
  refine List.ext_getElem ?_ fun index hleft hright => ?_
  · rw [length_take _ hcount, List.length_map, List.length_range]
  · rw [List.length_map, List.length_range] at hright
    rw [List.getElem_take, Vector.getElem_toList, getElem_fill, if_pos hright, List.getElem_map, List.getElem_range]

theorem take_fill_bytes (array : Vector UInt8 optionFieldMax) (buf : Nat → UInt8) (pos : Nat) {count : Nat}
    (hcount : count ≤ optionFieldMax) :
    (fill array count fun index => buf (pos + index)).toList.take count = bytes buf pos count := by
  rw [take_fill array hcount, bytes, List.range'_eq_map_range, List.map_map]
  rfl

theorem take_bytes (buf : Nat → UInt8) (pos : Nat) {count more : Nat} (h : count ≤ more) :
    (bytes buf pos more).take count = bytes buf pos count := by
  rw [bytes, ← List.map_take, List.take_range'_of_length_ge h, bytes]

/-- The elements behind them. -/
theorem toList_fill {α : Type} (array : Vector α optionFieldMax) {count : Nat} (hcount : count ≤ optionFieldMax)
    (value : Nat → α) : (fill array count value).toList = (List.range count).map value ++ array.toList.drop count := by
  have hdrop : (fill array count value).toList.drop count = array.toList.drop count := by
    refine List.ext_getElem ?_ fun index hleft hright => ?_
    · rw [List.length_drop, List.length_drop, Vector.length_toList, Vector.length_toList]
    · rw [List.getElem_drop, List.getElem_drop, Vector.getElem_toList, Vector.getElem_toList, getElem_fill,
        if_neg (Nat.not_lt.mpr (Nat.le_add_right count index))]
  rw [← take_fill array hcount value, ← hdrop, List.take_append_drop]

/-! ### Strings -/

theorem take_text (array : Vector UInt8 optionFieldMax) : array.toList.take (text array).length = text array := by
  have hstart : text array <+: array.toList := List.takeWhile_prefix _
  exact (List.prefix_iff_eq_take.mp hstart).symm

/-- Nothing but zeros. -/
abbrev zeros : Vector UInt8 optionFieldMax := .replicate _ 0

theorem text_zeros : text zeros = [] := by
  rw [text, Vector.toList_replicate]
  rfl

theorem ne_zero_of_mem_text {array : Vector UInt8 optionFieldMax} {byte : UInt8} (h : byte ∈ text array) : byte ≠ 0 :=
  of_decide_eq_true (List.all_eq_true.mp List.all_takeWhile byte h)

/-- `strncpy` up to the `NUL`, and zeros. -/
theorem map_strncpy (buf : Nat → UInt8) (pos count : Nat) :
    (List.range count).map (fun index => if ∀ before < index, buf (pos + before) ≠ 0 then buf (pos + index) else 0) =
      cut 0 (bytes buf pos count) := by
  induction count generalizing pos with
  | zero => rfl
  | succ count ih =>
      rw [bytes_succ, cut, List.range_succ_eq_map, List.map_cons, List.map_map, length_bytes, ← ih]
      by_cases hzero : buf pos = 0
      · rw [if_pos hzero, List.replicate_succ]
        refine congrArg₂ List.cons ?_ ?_
        · rw [Nat.add_zero, hzero, ite_self]
        · rw [List.eq_replicate_iff, List.length_map, List.length_range]
          refine ⟨rfl, fun byte hbyte => ?_⟩
          obtain ⟨index, -, rfl⟩ := List.mem_map.mp hbyte
          exact if_neg fun hall => hall 0 (Nat.succ_pos index) hzero
      · rw [if_neg hzero]
        refine congrArg₂ List.cons ?_ (List.map_congr_left fun index _ => ?_)
        · exact if_pos fun before hbefore => absurd hbefore (Nat.not_lt_zero before)
        · have hplace : pos + 1 + index = pos + (index + 1) := by omega
          have hiff : (∀ before < index + 1, buf (pos + before) ≠ 0) ↔ ∀ before < index, buf (pos + 1 + before) ≠ 0 := by
            constructor
            · intro hall before hbefore
              have hlater := hall (before + 1) (Nat.succ_lt_succ hbefore)
              rwa [← Nat.add_assoc, Nat.add_right_comm] at hlater
            · intro hall before hbefore
              cases before with
              | zero => exact hzero
              | succ before =>
                  have hlater := hall before (Nat.lt_of_succ_lt_succ hbefore)
                  rwa [Nat.add_right_comm, Nat.add_assoc] at hlater
          simp only [Function.comp_apply, Nat.succ_eq_add_one, hiff, hplace]

theorem toList_strncpy (array : Vector UInt8 optionFieldMax) (buf : Nat → UInt8) (pos : Nat) {count : Nat}
    (hcount : count ≤ optionFieldMax) : (strncpy array (fun index => buf (pos + index)) count).toList =
      overwrite 0 array.toList (bytes buf pos count) := by
  rw [strncpy, toList_fill _ hcount, map_strncpy, overwrite, length_bytes]

/-- A string that was copied to an array of zeros. -/
theorem text_strncpy {buf : Nat → UInt8} {pos : Nat} {data : Bytes} (hdata : ∀ byte ∈ data, byte ≠ 0)
    (hlength : data.length < optionFieldMax) (h : bytes buf pos data.length = data) :
    text (strncpy zeros (fun index => buf (pos + index)) data.length) = data := by
  have hmem : (0 : UInt8) ∉ data := fun hzero => hdata 0 hzero rfl
  have hnul : zeros.toList[data.length]? = some 0 := by
    rw [Vector.toList_replicate, List.getElem?_replicate, if_pos hlength]
  have hstring := (isString_overwrite_iff zeros.toList data).mpr (.inr hnul)
  rw [text, toList_strncpy _ _ _ (Nat.le_of_lt hlength), h]
  exact hstring.2.trans (textOf_of_not_mem hmem)

end Thebends.Dhcp
