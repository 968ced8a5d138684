import Mathlib.Data.List.Rotate

/-! Circular arrays over arbitrary cells. Seen from an index, an array is its rotation to that index;
what is read in up to two pieces is a prefix of the rotation, and what is written in up to two pieces
replaces a prefix of it. -/

namespace Thebends.LibRing

variable {α : Type*}

/-- The array with `data` written from an index on. -/
def splice (cells : List α) (offset : Nat) (data : List α) : List α :=
  cells.take offset ++ data ++ cells.drop (offset + data.length)

theorem length_splice {cells data : List α} {offset : Nat} (h : offset + data.length ≤ cells.length) :
    (splice cells offset data).length = cells.length := by
  simp only [splice, List.length_append, List.length_take, List.length_drop]
  omega

/-- Reading up to the end of the array. -/
theorem take_rotate_of_le {cells : List α} {start count : Nat} (h : start + count ≤ cells.length) :
    (cells.rotate start).take count = (cells.drop start).take count := by
  rw [List.rotate_eq_drop_append_take (by omega), List.take_append_of_le_length]
  rw [List.length_drop]
  omega

/-- Reading past the end of the array, in two pieces. -/
theorem take_rotate_of_gt {cells : List α} {start count : Nat} (hstart : start ≤ cells.length)
    (h : cells.length < start + count) (hcount : count ≤ cells.length) :
    (cells.rotate start).take count = cells.drop start ++ cells.take (start + count - cells.length) := by
  rw [List.rotate_eq_drop_append_take hstart, List.take_append, List.length_drop,
    List.take_of_length_le (by rw [List.length_drop]; omega), List.take_take]
  congr 2
  omega

/-- Writing up to the end of the array. -/
theorem rotate_splice {cells data : List α} {offset : Nat} (h : offset + data.length ≤ cells.length) :
    (splice cells offset data).rotate offset = data ++ (cells.rotate offset).drop data.length := by
  have htake : (cells.take offset).length = offset := by
    rw [List.length_take]
    omega
  rw [List.rotate_eq_drop_append_take (by rw [length_splice h]; omega), List.rotate_eq_drop_append_take (by omega)]
  rw [splice, List.append_assoc, List.drop_left' htake, List.take_left' htake, List.append_assoc,
    List.drop_append_of_le_length (by rw [List.length_drop]; omega), List.drop_drop]

/-- Writing past the end of the array, in two pieces. -/
theorem rotate_splice_wrap {cells data : List α} {offset : Nat} (hoffset : offset ≤ cells.length)
    (h : cells.length < offset + data.length) (hfit : data.length ≤ cells.length) :
    (splice (splice cells offset (data.take (cells.length - offset))) 0 (data.drop (cells.length - offset))).rotate
      offset = data ++ (cells.rotate offset).drop data.length := by
  have hforward : (data.take (cells.length - offset)).length = cells.length - offset := by
    rw [List.length_take]
    omega
  have hleft : (data.drop (cells.length - offset)).length = offset + data.length - cells.length := by
    rw [List.length_drop]
    omega
  have htake : (cells.take offset).length = offset := by
    rw [List.length_take]
    omega
  -- the new array is the end of the data, what it leaves of the beginning, and the start of the data
  have hcells : splice (splice cells offset (data.take (cells.length - offset))) 0
      (data.drop (cells.length - offset)) = (data.drop (cells.length - offset) ++
        (cells.take offset).drop (offset + data.length - cells.length)) ++ data.take (cells.length - offset) := by
    have hend : cells.drop (offset + (cells.length - offset)) = [] := List.drop_of_length_le (by omega)
    rw [splice, splice, hforward, hleft, hend, List.append_nil, Nat.zero_add, List.take_zero, List.nil_append,
      List.drop_append_of_le_length (by rw [htake]; omega), List.append_assoc]
  have hfirst : (data.drop (cells.length - offset) ++
      (cells.take offset).drop (offset + data.length - cells.length)).length = offset := by
    rw [List.length_append, hleft, List.length_drop, htake]
    omega
  have hpast : (cells.drop offset).drop data.length = [] :=
    List.drop_of_length_le (by rw [List.length_drop]; omega)
  have hrest : (cells.rotate offset).drop data.length =
      (cells.take offset).drop (offset + data.length - cells.length) := by
    rw [List.rotate_eq_drop_append_take hoffset, List.drop_append, hpast, List.nil_append, List.length_drop]
    congr 1
    omega
  calc
    _ = data.take (cells.length - offset) ++ (data.drop (cells.length - offset) ++
        (cells.take offset).drop (offset + data.length - cells.length)) := by
      rw [hcells, List.rotate_eq_drop_append_take (by rw [List.length_append, hfirst]; omega),
        List.drop_left' hfirst, List.take_left' hfirst]
    _ = data ++ (cells.take offset).drop (offset + data.length - cells.length) := by
      rw [← List.append_assoc, List.take_append_drop]
    _ = data ++ (cells.rotate offset).drop data.length := by rw [hrest]

/-- Turning an array on and dropping what was passed. -/
theorem take_rotate_add {cells : List α} {start size count : Nat} (hcount : count ≤ size)
    (hsize : size ≤ cells.length) :
    (cells.rotate (start + count)).take (size - count) = ((cells.rotate start).take size).drop count := by
  rw [← List.rotate_rotate, List.rotate_eq_drop_append_take (by rw [List.length_rotate]; omega),
    List.take_append_of_le_length (by rw [List.length_drop, List.length_rotate]; omega), List.drop_take]

/-- Appending to the window of an array that starts at `start`: a prefix of what is seen from its end is
replaced. -/
theorem take_rotate_append {cells cells' data : List α} {start size : Nat}
    (hfit : size + data.length ≤ cells.length) (hlength : cells'.length = cells.length)
    (h : cells'.rotate (start + size) = data ++ (cells.rotate (start + size)).drop data.length) :
    (cells'.rotate start).take (size + data.length) = (cells.rotate start).take size ++ data := by
  have hlen : (cells.rotate start).length = cells.length := List.length_rotate ..
  have hlen' : (cells'.rotate start).length = cells.length := (List.length_rotate ..).trans hlength
  rw [← List.rotate_rotate, ← List.rotate_rotate] at h
  generalize cells.rotate start = seen at h hlen ⊢
  generalize cells'.rotate start = seen' at h hlen' ⊢
  rw [List.rotate_eq_drop_append_take (by omega), List.rotate_eq_drop_append_take (by omega),
    List.drop_append_of_le_length (by rw [List.length_drop]; omega), ← List.append_assoc] at h
  obtain ⟨hnew, hold⟩ := List.append_inj h (by
    rw [List.length_append, List.length_drop, List.length_drop, List.length_drop]
    omega)
  have hkept : (seen.take size).length = size := by
    rw [List.length_take]
    omega
  calc
    _ = (seen.take size ++ (data ++ (seen.drop size).drop data.length)).take (size + data.length) := by
      rw [← hold, ← hnew, List.take_append_drop]
    _ = seen.take size ++ data := by
      rw [← List.append_assoc, List.take_left' (by rw [List.length_append, hkept])]

/-- One cell more, behind a window that wraps. -/
theorem take_rotate_set {cells : List α} {start size : Nat} (a : α) (h : size < cells.length) :
    ((cells.set ((start + size) % cells.length) a).rotate start).take (size + 1) =
      (cells.rotate start).take size ++ [a] := by
  have hlt : (start + size) % cells.length < cells.length := Nat.mod_lt _ (Nat.zero_lt_of_lt h)
  have hset : cells.set ((start + size) % cells.length) a = splice cells ((start + size) % cells.length) [a] := by
    rw [List.set_eq_take_append_cons_drop, if_pos hlt, splice, List.append_assoc]
    rfl
  have hlength : (splice cells ((start + size) % cells.length) [a]).length = cells.length :=
    length_splice (Nat.succ_le_of_lt hlt)
  have hrotate : (splice cells ((start + size) % cells.length) [a]).rotate (start + size) =
      [a] ++ (cells.rotate (start + size)).drop 1 := by
    rw [← List.rotate_mod, hlength, ← List.rotate_mod cells]
    exact rotate_splice (Nat.succ_le_of_lt hlt)
  rw [hset]
  exact take_rotate_append h hlength hrotate

/-- A window that is not empty, and what is behind its first cell. -/
theorem take_rotate_succ {cells : List α} {start size : Nat} (hstart : start < cells.length) (h : size < cells.length) :
    (cells.rotate start).take (size + 1) = cells.get ⟨start, hstart⟩ :: (cells.rotate (start + 1)).take size := by
  have hrest : (cells.rotate (start + 1)).take size = ((cells.rotate start).take (size + 1)).drop 1 :=
    take_rotate_add (Nat.le_add_left 1 size) (Nat.succ_le_of_lt h)
  have hfirst : ((cells.rotate start).take (size + 1)).head? = some (cells.get ⟨start, hstart⟩) := by
    rw [List.rotate_eq_drop_append_take (Nat.le_of_lt hstart), List.drop_eq_getElem_cons hstart]
    rfl
  obtain ⟨tail, htail⟩ := List.head?_eq_some_iff.mp hfirst
  rw [hrest, htail]
  rfl

end Thebends.LibRing
