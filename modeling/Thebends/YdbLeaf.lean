import Thebends.YdbTree
import Thebends.LibExcept
import Thebends.LibSorted

/-! The leaves of ydb under all their operations. `Get`, `Insert` and `Del` look at the slot of the insert
position without asking whether it is one of the `size_` slots in use, so what they do with a key above
all keys of the leaf depends on what an earlier deletion or split has left in the slot behind them. -/

namespace Thebends.Ydb

attribute [local instance] byteOrder

open LibExcept LibSorted

theorem check_true {condition : Bool} (h : condition = true) : check condition = .ok () := if_pos h

namespace Leaf

/-- The loop that moves the slots from `i` on down by one, with the number of slots still to move. -/
def shiftDown : Nat → Nat → (Nat → Str) → Nat → Str
  | 0, _, slots => slots
  | left + 1, i, slots => shiftDown left (i + 1) (Function.update slots (i - 1) (slots i))

/-- `Del`. -/
def del (leaf : Leaf) (key : Str) : Except Fault (Bool × Leaf) :=
  if leaf.size = 0 then .ok (false, leaf)
  else do
    let pos ← getInsertPosition leaf.getKey leaf.size key
    let entry ← leaf.slot pos
    if entry.1 ≠ key then return (false, leaf)
    else return (true, ⟨leaf.size - 1, shiftDown (leaf.size - (pos + 1)) (pos + 1) leaf.keys,
      shiftDown (leaf.size - (pos + 1)) (pos + 1) leaf.values⟩)

theorem shiftUp_apply (pos i j : Nat) (slots : Nat → Str) :
    shiftUp pos i slots j = if pos < j ∧ j ≤ i then slots (j - 1) else slots j := by
  induction i generalizing slots with
  | zero =>
      rw [shiftUp, if_neg]
      omega
  | succ i ih =>
      rw [shiftUp]
      by_cases hpos : pos < i + 1
      · rw [if_pos hpos, ih]
        by_cases hj : j = i + 1
        · subst hj
          rw [if_neg (by omega), if_pos ⟨hpos, Nat.le_refl _⟩, Function.update_self, Nat.add_sub_cancel]
        · rw [Function.update_of_ne hj]
          by_cases hin : pos < j ∧ j ≤ i
          · rw [if_pos hin, if_pos ⟨hin.1, by omega⟩, Function.update_of_ne (by omega)]
          · rw [if_neg hin, if_neg (by omega)]
      · rw [if_neg hpos, if_neg (by omega)]

theorem shiftDown_apply (left i j : Nat) (slots : Nat → Str) :
    shiftDown left (i + 1) slots j = if i ≤ j ∧ j < i + left then slots (j + 1) else slots j := by
  induction left generalizing i slots with
  | zero =>
      rw [shiftDown, if_neg]
      omega
  | succ left ih =>
      rw [shiftDown, ih, Nat.add_sub_cancel]
      by_cases hj : j = i
      · subst hj
        rw [if_neg (by omega), if_pos ⟨Nat.le_refl _, by omega⟩, Function.update_self]
      · rw [Function.update_of_ne hj]
        by_cases hin : i + 1 ≤ j ∧ j < i + 1 + left
        · rw [if_pos hin, if_pos ⟨by omega, by omega⟩, Function.update_of_ne (by omega)]
        · rw [if_neg hin, if_neg (by omega)]

/-! ### Slots in a row -/

theorem entries_of_pos (leaf : Leaf) (h : 0 < leaf.size) : leaf.entries = (leaf.keys 0, leaf.values 0) ::
    (List.range (leaf.size - 1)).map fun i => (leaf.keys (i + 1), leaf.values (i + 1)) := by
  obtain ⟨count, hcount⟩ : ∃ count, leaf.size = count + 1 := ⟨leaf.size - 1, by omega⟩
  rw [entries, hcount, List.range_succ_eq_map, List.map_cons, List.map_map, Nat.add_sub_cancel]
  rfl

theorem length_entries (leaf : Leaf) : leaf.entries.length = leaf.size := by simp [entries]

/-- The entries in `count` slots from slot `i` on. -/
def segment (leaf : Leaf) (i count : Nat) : List (Str × Str) :=
  (List.range count).map fun j => (leaf.keys (i + j), leaf.values (i + j))

theorem entries_eq_segment (leaf : Leaf) : leaf.entries = leaf.segment 0 leaf.size := by
  simp only [entries, segment, Nat.zero_add]

theorem segment_add (leaf : Leaf) (i first second : Nat) :
    leaf.segment i (first + second) = leaf.segment i first ++ leaf.segment (i + first) second := by
  rw [segment, List.range_add, List.map_append, List.map_map]
  apply congrArg
  apply List.map_congr_left
  intro j _
  rw [Function.comp_apply, Nat.add_assoc]

theorem segment_succ (leaf : Leaf) (i count : Nat) :
    leaf.segment i (count + 1) = (leaf.keys i, leaf.values i) :: leaf.segment (i + 1) count := by
  rw [Nat.add_comm, segment_add]
  rfl

theorem segment_congr {leaf leaf' : Leaf} {i i' count : Nat}
    (hkeys : ∀ j, j < count → leaf'.keys (i' + j) = leaf.keys (i + j))
    (hvalues : ∀ j, j < count → leaf'.values (i' + j) = leaf.values (i + j)) :
    leaf'.segment i' count = leaf.segment i count := by
  apply List.map_congr_left
  intro j hj
  rw [hkeys j (List.mem_range.mp hj), hvalues j (List.mem_range.mp hj)]

theorem mem_segment {leaf : Leaf} {i count : Nat} {entry : Str × Str} (h : entry ∈ leaf.segment i count) :
    ∃ j, j < count ∧ entry.1 = leaf.keys (i + j) := by
  obtain ⟨j, hj, rfl⟩ := List.mem_map.mp h
  exact ⟨j, List.mem_range.mp hj, rfl⟩

/-! ### The position of a key in a leaf -/

/-- `pos` is where `key` is or belongs: behind the slots with smaller keys. -/
structure Position (leaf : Leaf) (key : Str) (pos : Nat) : Prop where
  found : getInsertPosition leaf.getKey leaf.size key = .ok pos
  le : pos ≤ leaf.size
  below : ∀ i, i < pos → leaf.keys i < key
  above : pos < leaf.size → key ≤ leaf.keys pos

theorem positionFrom_leaf (leaf : Leaf) (key : Str) (left i : Nat) (hsize : i + left = leaf.size)
    (hbelow : ∀ j, j < i → leaf.keys j < key) :
    ∃ pos, positionFrom leaf.getKey key left i = .ok pos ∧ pos ≤ leaf.size ∧ (∀ j, j < pos → leaf.keys j < key) ∧
      (pos < leaf.size → key ≤ leaf.keys pos) := by
  induction left generalizing i with
  | zero => exact ⟨i, rfl, by omega, hbelow, by omega⟩
  | succ left ih =>
      have hkey : leaf.getKey i = some (leaf.keys i) := if_pos (by omega)
      rw [positionFrom, hkey]
      by_cases hlt : leaf.keys i < key
      · simp only [if_pos hlt]
        apply ih (i + 1) (by omega)
        intro j hj
        rcases Nat.lt_succ_iff_lt_or_eq.mp hj with hold | rfl
        · exact hbelow j hold
        · exact hlt
      · simp only [if_neg hlt]
        exact ⟨i, rfl, by omega, hbelow, fun _ => not_lt.mp hlt⟩

theorem position_exists (leaf : Leaf) (key : Str) : ∃ pos, leaf.Position key pos := by
  obtain ⟨pos, hfound, hle, hbelow, habove⟩ := positionFrom_leaf leaf key leaf.size 0 (Nat.zero_add _) nofun
  exact ⟨pos, hfound, hle, hbelow, habove⟩

/-- The entries in front of the position, which are below the key, and those from it on. -/
theorem Position.split {leaf : Leaf} {key : Str} {pos : Nat} (h : leaf.Position key pos) :
    leaf.entries = leaf.segment 0 pos ++ leaf.segment pos (leaf.size - pos) ∧
      (∀ entry ∈ leaf.segment 0 pos, entry.1 < key) ∧
      ∀ entry ∈ (leaf.segment pos (leaf.size - pos)).head?, key ≤ entry.1 := by
  refine ⟨?_, ?_, ?_⟩
  · have hsum : pos + (leaf.size - pos) = leaf.size := by have := h.le; omega
    rw [entries_eq_segment, ← hsum, segment_add, Nat.zero_add, hsum]
  · intro entry hentry
    obtain ⟨j, hj, hkey⟩ := mem_segment hentry
    rw [hkey, Nat.zero_add]
    exact h.below j hj
  · intro entry hentry
    cases hcount : leaf.size - pos with
    | zero =>
        rw [hcount] at hentry
        cases hentry
    | succ count =>
        rw [hcount, segment_succ, List.head?_cons, Option.mem_some_iff] at hentry
        rw [← hentry]
        exact h.above (by omega)

/-- What the leaf has for the key: the value at the position, if the key there is the one looked for. -/
theorem Position.lookup {leaf : Leaf} {key : Str} {pos : Nat} (h : leaf.Position key pos)
    (hsorted : Sorted leaf.entries) :
    leaf.entries.lookup key = if pos < leaf.size ∧ leaf.keys pos = key then some (leaf.values pos) else none := by
  obtain ⟨hsplit, hbelow, -⟩ := h.split
  have hfront : (leaf.segment 0 pos).lookup key = none := by
    rw [List.lookup_eq_none_iff]
    intro entry hentry
    simpa using (hbelow entry hentry).ne'
  rw [hsplit] at hsorted ⊢
  rw [List.lookup_append, hfront, Option.none_or]
  cases hcount : leaf.size - pos with
  | zero =>
      rw [if_neg (by omega)]
      rfl
  | succ count =>
      have hback := (List.pairwise_append.mp hsorted).2.1
      rw [hcount, segment_succ] at hback
      rw [segment_succ, lookup_first hback (h.above (by omega))]
      by_cases hkey : leaf.keys pos = key
      · rw [if_pos hkey, if_pos ⟨by omega, hkey⟩]
      · rw [if_neg hkey, if_neg fun hboth => hkey hboth.2]

/-- `key` is above all keys of the leaf, and the slot behind them holds it too or is not there. -/
def Stale (leaf : Leaf) (key : Str) : Prop :=
  (∀ i, i < leaf.size → leaf.keys i < key) ∧ (leaf.size = kMaxLeafNodeEntries ∨ leaf.keys leaf.size = key)

instance (leaf : Leaf) (key : Str) : Decidable (leaf.Stale key) :=
  inferInstanceAs (Decidable ((∀ i, i < leaf.size → leaf.keys i < key) ∧
    (leaf.size = kMaxLeafNodeEntries ∨ leaf.keys leaf.size = key)))

theorem Position.eq_size {leaf : Leaf} {key : Str} {pos : Nat} (h : leaf.Position key pos)
    (hall : ∀ i, i < leaf.size → leaf.keys i < key) : pos = leaf.size := by
  rcases Nat.lt_or_ge pos leaf.size with hlt | hge
  · exact absurd (hall pos hlt) (not_lt.mpr (h.above hlt))
  · exact Nat.le_antisymm h.le hge

/-- Where no stale key is in the way, the slot at the position is there and tells whether the key is. -/
theorem Position.slot {leaf : Leaf} {key : Str} {pos : Nat} (h : leaf.Position key pos)
    (hle : leaf.size ≤ kMaxLeafNodeEntries) (hstale : ¬leaf.Stale key) :
    leaf.slot pos = .ok (leaf.keys pos, leaf.values pos) ∧ (leaf.keys pos = key → pos < leaf.size) := by
  have hbound : pos < leaf.size ∨ pos = leaf.size ∧ leaf.size ≠ kMaxLeafNodeEntries ∧ leaf.keys pos ≠ key := by
    rcases Nat.lt_or_ge pos leaf.size with hlt | hge
    · exact Or.inl hlt
    · have heq : pos = leaf.size := Nat.le_antisymm h.le hge
      subst heq
      exact Or.inr ⟨rfl, fun hfull => hstale ⟨h.below, Or.inl hfull⟩, fun hkey => hstale ⟨h.below, Or.inr hkey⟩⟩
  rcases hbound with hlt | ⟨heq, hfull, hkey⟩
  · exact ⟨if_pos (by omega), fun _ => hlt⟩
  · exact ⟨if_pos (by omega), fun hfound => absurd hfound hkey⟩

/-! ### The three operations -/

/-- What `Get`, `Insert` and `Del` keep: ascending keys, in slots of the leaf. -/
structure Ordered (leaf : Leaf) : Prop where
  le : leaf.size ≤ kMaxLeafNodeEntries
  sorted : Sorted leaf.entries

theorem Ordered.keys_lt {leaf : Leaf} (h : leaf.Ordered) {i j : Nat} (hij : i < j) (hj : j < leaf.size) :
    leaf.keys i < leaf.keys j := by
  have hsorted := List.pairwise_iff_getElem.mp h.sorted i j (by rw [length_entries]; omega)
    (by rw [length_entries]; exact hj) hij
  simpa [entries] using hsorted

theorem get_of_position {leaf : Leaf} {key : Str} {pos : Nat} (h : leaf.Position key pos) (hpos : leaf.size ≠ 0)
    {entry : Str × Str} (hslot : leaf.slot pos = .ok entry) :
    leaf.get key = .ok (if entry.1 ≠ key then none else some entry.2) := by
  rw [get, if_neg hpos, h.found, ok_bind, hslot]
  rfl

/-- `Get` finds what the leaf has for the key, where no stale key is in the way. -/
theorem Ordered.get {leaf : Leaf} (h : leaf.Ordered) {key : Str} (hstale : leaf.size = 0 ∨ ¬leaf.Stale key) :
    leaf.get key = .ok (leaf.entries.lookup key) := by
  obtain ⟨pos, hposition⟩ := leaf.position_exists key
  by_cases hpos : leaf.size = 0
  · rw [Leaf.get, if_pos hpos, entries, hpos]
    rfl
  · obtain ⟨hslot, hlt⟩ := hposition.slot h.le (hstale.resolve_left hpos)
    rw [get_of_position hposition hpos hslot, hposition.lookup h.sorted]
    by_cases hkey : leaf.keys pos = key
    · rw [if_neg (not_not_intro hkey), if_pos ⟨hlt hkey, hkey⟩]
    · rw [if_pos hkey, if_neg fun hboth => hkey hboth.2]

theorem del_of_position {leaf : Leaf} {key : Str} {pos : Nat} (h : leaf.Position key pos) (hpos : leaf.size ≠ 0)
    {entry : Str × Str} (hslot : leaf.slot pos = .ok entry) :
    leaf.del key = .ok (if entry.1 ≠ key then (false, leaf)
      else (true, ⟨leaf.size - 1, shiftDown (leaf.size - (pos + 1)) (pos + 1) leaf.keys,
        shiftDown (leaf.size - (pos + 1)) (pos + 1) leaf.values⟩)) := by
  rw [del, if_neg hpos, h.found, ok_bind, hslot, ok_bind]
  by_cases hkey : entry.1 ≠ key
  · rw [if_pos hkey, if_pos hkey]
    rfl
  · rw [if_neg hkey, if_neg hkey]
    rfl

/-- The entries after the slots behind `pos` have moved down. -/
theorem entries_shiftDown {leaf : Leaf} {pos : Nat} (hpos : pos < leaf.size) :
    Leaf.entries ⟨leaf.size - 1, shiftDown (leaf.size - (pos + 1)) (pos + 1) leaf.keys,
        shiftDown (leaf.size - (pos + 1)) (pos + 1) leaf.values⟩ =
      leaf.segment 0 pos ++ leaf.segment (pos + 1) (leaf.size - (pos + 1)) := by
  have hsum : leaf.size - 1 = pos + (leaf.size - (pos + 1)) := by omega
  rw [entries_eq_segment]
  simp only [hsum]
  rw [segment_add, Nat.zero_add]
  have hfront : ∀ j, j < pos → ∀ slots : Nat → Str,
      shiftDown (leaf.size - (pos + 1)) (pos + 1) slots (0 + j) = slots (0 + j) := by
    intro j hj slots
    rw [shiftDown_apply, if_neg (by omega)]
  have hback : ∀ j, j < leaf.size - (pos + 1) → ∀ slots : Nat → Str,
      shiftDown (leaf.size - (pos + 1)) (pos + 1) slots (pos + j) = slots (pos + 1 + j) := by
    intro j hj slots
    rw [shiftDown_apply, if_pos ⟨by omega, by omega⟩, Nat.add_right_comm]
  exact congrArg₂ (· ++ ·) (segment_congr (fun j hj => hfront j hj _) fun j hj => hfront j hj _)
    (segment_congr (fun j hj => hback j hj _) fun j hj => hback j hj _)

/-- `Del` removes the key and tells whether it was there, where no stale key is in the way. -/
theorem Ordered.del {leaf : Leaf} (h : leaf.Ordered) {key : Str} (hstale : leaf.size = 0 ∨ ¬leaf.Stale key) :
    ∃ leaf', leaf.del key = .ok ((leaf.entries.lookup key).isSome, leaf') ∧ leaf'.Ordered ∧
      leaf'.entries = remove key leaf.entries := by
  obtain ⟨pos, hposition⟩ := leaf.position_exists key
  have hmissing : leaf.entries.lookup key = none → leaf.entries = remove key leaf.entries :=
    fun hnone => (remove_eq_self hnone).symm
  by_cases hpos : leaf.size = 0
  · have hnone : leaf.entries.lookup key = none := by
      rw [entries, hpos]
      rfl
    refine ⟨leaf, ?_, h, hmissing hnone⟩
    rw [Leaf.del, if_pos hpos, hnone]
    rfl
  · obtain ⟨hslot, hlt⟩ := hposition.slot h.le (hstale.resolve_left hpos)
    have hlookup := hposition.lookup h.sorted
    have hdel := del_of_position hposition hpos hslot
    by_cases hkey : leaf.keys pos = key
    · have hin : pos < leaf.size := hlt hkey
      rw [if_pos ⟨hin, hkey⟩] at hlookup
      rw [if_neg (not_not_intro hkey)] at hdel
      have hremove : remove key leaf.entries =
          leaf.segment 0 pos ++ leaf.segment (pos + 1) (leaf.size - (pos + 1)) := by
        have hsplit := hposition.split.1
        rw [show leaf.size - pos = leaf.size - (pos + 1) + 1 by omega, segment_succ, hkey] at hsplit
        have hsorted := h.sorted
        rw [hsplit] at hsorted ⊢
        exact remove_append hsorted
      refine ⟨_, by rw [hdel, hlookup]; rfl, ⟨Nat.le_trans (Nat.sub_le _ _) h.le, ?_⟩, ?_⟩
      · rw [entries_shiftDown hin, ← hremove]
        exact sorted_remove key h.sorted
      · rw [entries_shiftDown hin, hremove]
    · rw [if_neg fun hboth => hkey hboth.2] at hlookup
      rw [if_pos hkey] at hdel
      exact ⟨leaf, by rw [hdel, hlookup]; rfl, h, hmissing hlookup⟩

theorem insertHere_of_position {leaf : Leaf} {key : Str} (value : Str) {pos : Nat} (h : leaf.Position key pos)
    (hroom : leaf.size < kMaxLeafNodeEntries) : leaf.insertHere key value = .ok
      (if leaf.keys pos = key then { leaf with values := Function.update leaf.values pos value }
      else ⟨leaf.size + 1, Function.update (shiftUp pos leaf.size leaf.keys) pos key,
        Function.update (shiftUp pos leaf.size leaf.values) pos value⟩) := by
  have hpos : pos < kMaxLeafNodeEntries := Nat.lt_of_le_of_lt h.le hroom
  have hslot : leaf.slot pos = .ok (leaf.keys pos, leaf.values pos) := if_pos hpos
  rw [insertHere, h.found, ok_bind, check_true (decide_eq_true hroom), ok_bind, check_true (decide_eq_true hpos),
    ok_bind, check_true (decide_eq_true h.le), ok_bind, hslot, ok_bind]
  by_cases hkey : leaf.keys pos = key
  · rw [if_pos hkey, if_pos hkey]
    rfl
  · rw [if_neg hkey, if_neg hkey]
    rfl

/-- The entries after a value has been replaced. -/
theorem entries_update {leaf : Leaf} {pos : Nat} (hpos : pos < leaf.size) (value : Str) :
    Leaf.entries { leaf with values := Function.update leaf.values pos value } =
      leaf.segment 0 pos ++ (leaf.keys pos, value) :: leaf.segment (pos + 1) (leaf.size - (pos + 1)) := by
  have hsum : leaf.size = pos + (leaf.size - (pos + 1) + 1) := by omega
  rw [entries_eq_segment]
  simp only
  conv => lhs; rw [hsum]
  rw [segment_add, Nat.zero_add, segment_succ]
  simp only [Function.update_self]
  apply congrArg₂ (· ++ ·)
  · refine segment_congr (fun _ _ => rfl) fun j hj => ?_
    exact Function.update_of_ne (by omega) ..
  · apply congrArg
    refine segment_congr (fun _ _ => rfl) fun j hj => ?_
    exact Function.update_of_ne (by omega) ..

/-- The entries after the slots from `pos` on have moved up to make room. -/
theorem entries_shiftUp {leaf : Leaf} {pos : Nat} (hpos : pos ≤ leaf.size) (key value : Str) :
    Leaf.entries ⟨leaf.size + 1, Function.update (shiftUp pos leaf.size leaf.keys) pos key,
        Function.update (shiftUp pos leaf.size leaf.values) pos value⟩ =
      leaf.segment 0 pos ++ (key, value) :: leaf.segment pos (leaf.size - pos) := by
  have hsum : leaf.size + 1 = pos + (leaf.size - pos + 1) := by omega
  rw [entries_eq_segment]
  simp only [hsum]
  rw [segment_add, Nat.zero_add, segment_succ]
  simp only [Function.update_self]
  have hfront : ∀ j, j < pos → ∀ (slots : Nat → Str) (item : Str),
      Function.update (shiftUp pos leaf.size slots) pos item (0 + j) = slots (0 + j) := by
    intro j hj slots item
    rw [Function.update_of_ne (by omega), shiftUp_apply, if_neg (by omega)]
  have hback : ∀ j, j < leaf.size - pos → ∀ (slots : Nat → Str) (item : Str),
      Function.update (shiftUp pos leaf.size slots) pos item (pos + 1 + j) = slots (pos + j) := by
    intro j hj slots item
    rw [Function.update_of_ne (by omega), shiftUp_apply, if_pos ⟨by omega, by omega⟩]
    congr 1
    omega
  apply congrArg₂ (· ++ ·)
  · exact segment_congr (fun j hj => hfront j hj _ _) fun j hj => hfront j hj _ _
  · apply congrArg
    exact segment_congr (fun j hj => hback j hj _ _) fun j hj => hback j hj _ _

/-- Binding the key leaves what is in front of its position as it is. -/
theorem Position.set_eq {leaf : Leaf} {key : Str} {pos : Nat} (h : leaf.Position key pos) (value : Str) :
    LibSorted.set key value leaf.entries =
      leaf.segment 0 pos ++ setFirst key value (leaf.segment pos (leaf.size - pos)) := by
  obtain ⟨hsplit, hbelow, habove⟩ := h.split
  rw [hsplit, set_append_right hbelow, set_eq_setFirst habove]

theorem Position.entries_update {leaf : Leaf} {key : Str} {pos : Nat} (h : leaf.Position key pos) (value : Str)
    (hpos : pos < leaf.size) (hkey : leaf.keys pos = key) :
    Leaf.entries { leaf with values := Function.update leaf.values pos value } = LibSorted.set key value leaf.entries := by
  have hcount : leaf.size - pos = leaf.size - (pos + 1) + 1 := by omega
  rw [Leaf.entries_update hpos, h.set_eq, hcount, segment_succ, setFirst, if_pos hkey, hkey]

theorem Position.entries_shiftUp {leaf : Leaf} {key : Str} {pos : Nat} (h : leaf.Position key pos) (value : Str)
    (hnew : pos < leaf.size → leaf.keys pos ≠ key) :
    Leaf.entries ⟨leaf.size + 1, Function.update (shiftUp pos leaf.size leaf.keys) pos key,
      Function.update (shiftUp pos leaf.size leaf.values) pos value⟩ = LibSorted.set key value leaf.entries := by
  rw [Leaf.entries_shiftUp h.le, h.set_eq]
  cases hcount : leaf.size - pos with
  | zero => rfl
  | succ count => rw [segment_succ, setFirst, if_neg (hnew (by omega))]

/-- A new key at its position. -/
theorem Ordered.insertAt {leaf : Leaf} (h : leaf.Ordered) {key value : Str} {pos : Nat} (hposition : leaf.Position key pos)
    (hroom : leaf.size < kMaxLeafNodeEntries) (hnew : pos < leaf.size → leaf.keys pos ≠ key) :
    Ordered ⟨leaf.size + 1, Function.update (shiftUp pos leaf.size leaf.keys) pos key,
      Function.update (shiftUp pos leaf.size leaf.values) pos value⟩ := by
  refine ⟨hroom, ?_⟩
  rw [hposition.entries_shiftUp value hnew]
  exact sorted_set key value h.sorted

/-- `Insert` without a split binds the key, where no stale key is in the way. -/
theorem Ordered.insertHere {leaf : Leaf} (h : leaf.Ordered) {key : Str} (value : Str)
    (hroom : leaf.size < kMaxLeafNodeEntries) (hstale : ¬leaf.Stale key) :
    ∃ leaf', leaf.insertHere key value = .ok leaf' ∧ leaf'.Ordered ∧
      leaf'.entries = LibSorted.set key value leaf.entries := by
  obtain ⟨pos, hposition⟩ := leaf.position_exists key
  obtain ⟨-, hlt⟩ := hposition.slot h.le hstale
  have hinsert := insertHere_of_position value hposition hroom
  by_cases hkey : leaf.keys pos = key
  · rw [if_pos hkey] at hinsert
    have hentries := hposition.entries_update value (hlt hkey) hkey
    exact ⟨_, hinsert, ⟨h.le, hentries ▸ sorted_set key value h.sorted⟩, hentries⟩
  · rw [if_neg hkey] at hinsert
    exact ⟨_, hinsert, h.insertAt hposition hroom fun _ => hkey, hposition.entries_shiftUp value fun _ => hkey⟩

/-! ### Splitting a full leaf -/

/-- The halves of a full leaf. -/
structure Halves (leaf sibling lower : Leaf) : Prop where
  full : leaf.size = 100
  lower_eq : lower = { leaf with size := 50 }
  size : sibling.size = 50
  keys : ∀ i, i < 50 → sibling.keys i = leaf.keys (50 + i)
  values : ∀ i, i < 50 → sibling.values i = leaf.values (50 + i)
  empty : ∀ i, 50 ≤ i → sibling.keys i = []

theorem halves_of_produceSplit {leaf : Leaf} (hfull : leaf.isFull) :
    ∃ sibling lower, leaf.produceSplit = .ok (sibling, lower) ∧ Halves leaf sibling lower := by
  have hsize : leaf.size = 100 := beq_iff_eq.mp hfull
  have hcount : leaf.size - (kMaxLeafNodeEntries + 1) / 2 = 50 := by rw [hsize]; rfl
  rw [produceSplit, check_true hfull, ok_bind]
  refine ⟨_, _, rfl, hsize, rfl, hcount, fun i hi => ?_, fun i hi => ?_, fun i hi => ?_⟩
  · dsimp only
    rw [hcount, if_pos hi]
    rfl
  · dsimp only
    rw [hcount, if_pos hi]
    rfl
  · dsimp only
    rw [hcount, if_neg (Nat.not_lt_of_le hi)]

/-- Together they hold what the leaf held. -/
theorem Halves.entries_append {leaf sibling lower : Leaf} (h : Halves leaf sibling lower) :
    lower.entries ++ sibling.entries = leaf.entries := by
  have hupper : sibling.segment 0 50 = leaf.segment 50 50 := by
    refine segment_congr (fun i hi => ?_) fun i hi => ?_
    · rw [Nat.zero_add, h.keys i hi]
    · rw [Nat.zero_add, h.values i hi]
  calc
    lower.entries ++ sibling.entries = leaf.segment 0 50 ++ sibling.segment 0 50 := by
      rw [h.lower_eq, entries_eq_segment, entries_eq_segment, h.size]
      rfl
    _ = leaf.segment 0 (50 + 50) := by rw [hupper, segment_add, Nat.zero_add]
    _ = leaf.entries := by rw [entries_eq_segment, h.full]

theorem Halves.ordered {leaf sibling lower : Leaf} (h : Halves leaf sibling lower) (hordered : leaf.Ordered) :
    lower.Ordered ∧ sibling.Ordered := by
  have hsorted := hordered.sorted
  rw [← h.entries_append] at hsorted
  obtain ⟨hlower, hsibling, -⟩ := List.pairwise_append.mp hsorted
  refine ⟨⟨?_, hlower⟩, ⟨?_, hsibling⟩⟩
  · rw [h.lower_eq]
    exact (by decide : 50 ≤ kMaxLeafNodeEntries)
  · rw [h.size]
    decide

/-- Inserting into a full leaf, which is split: the key goes to the half it belongs to. -/
theorem Ordered.insert_full {leaf : Leaf} (h : leaf.Ordered) {key : Str} (value : Str)
    (hfull : leaf.size = kMaxLeafNodeEntries) (hkey : leaf.keys 50 ≤ key → key ≠ []) :
    ∃ node sibling, leaf.insert key value = .ok (node, some sibling) ∧ node.Ordered ∧ sibling.Ordered ∧
      0 < node.size ∧ 0 < sibling.size ∧ node.entries ++ sibling.entries = LibSorted.set key value leaf.entries := by
  obtain ⟨sibling, lower, hsplit, hhalves⟩ := halves_of_produceSplit (beq_iff_eq.mpr hfull)
  obtain ⟨hlower, hsibling⟩ := hhalves.ordered h
  obtain rfl := hhalves.lower_eq
  have hsize := hhalves.size
  have hfirst : sibling.keys 0 = leaf.keys 50 := hhalves.keys 0 (by decide)
  have hblank : sibling.keys 50 = [] := hhalves.empty 50 (Nat.le_refl 50)
  have hsorted := h.sorted
  rw [← hhalves.entries_append] at hsorted
  obtain ⟨hsortedLower, hsortedSibling, hcross⟩ := List.pairwise_append.mp hsorted
  have hentries := sibling.entries_of_pos (by omega)
  have hgetKey : sibling.getKey 0 = some (leaf.keys 50) := by
    rw [getKey, if_pos (by omega), hfirst]
  rw [hfirst] at hentries
  rw [insert, if_pos (by rw [isFull, hfull]; rfl), hsplit, ok_bind]
  simp only [hgetKey]
  by_cases hbelow : leaf.keys 50 ≤ key
  · -- the slot behind the sibling's keys is an empty string
    have hstale : ¬sibling.Stale key := by
      rintro ⟨-, hfull' | hsame⟩
      · rw [hsize] at hfull'
        cases hfull'
      · rw [hsize, hblank] at hsame
        exact hkey hbelow hsame.symm
    obtain ⟨sibling', hinsert, hordered, hset⟩ := hsibling.insertHere value (by rw [hsize]; decide) hstale
    rw [if_pos hbelow, check_true (by rw [isFull, hsize]; rfl), ok_bind, hinsert, ok_bind]
    refine ⟨_, sibling', rfl, hlower, hordered, show 0 < 50 by decide, ?_, ?_⟩
    · rw [← length_entries, hset, length_set key value hsortedSibling, length_entries]
      omega
    · rw [hset, ← hhalves.entries_append, set_append_right fun entry hentry => ?_]
      rw [hentries] at hcross
      exact lt_of_lt_of_le (hcross entry hentry _ List.mem_cons_self) hbelow
  · -- the slot behind the lower half still has the sibling's first key
    have hlt : key < leaf.keys 50 := not_le.mp hbelow
    have hstale : ¬({ leaf with size := 50 } : Leaf).Stale key := by
      rintro ⟨-, hfull' | hsame⟩
      · cases hfull'
      · exact hlt.ne' hsame
    obtain ⟨lower', hinsert, hordered, hset⟩ := hlower.insertHere value (show 50 < kMaxLeafNodeEntries by decide) hstale
    rw [if_neg hbelow, hinsert, ok_bind]
    refine ⟨lower', sibling, rfl, hordered, hsibling, ?_, by omega, ?_⟩
    · rw [← length_entries, hset, length_set key value hsortedLower, length_entries]
      exact Nat.lt_of_lt_of_le (show 0 < 50 by decide) (Nat.le_add_right ..)
    · rw [hset, ← hhalves.entries_append, hentries, set_append_left _ hlt]

/-- **Splitting keeps the map.** `Insert` into a full leaf leaves it and its new sibling non-empty and
ascending, with all keys of the leaf below those of the sibling; together they hold the old entries and
the new binding. -/
theorem insert_full_splits (leaf : Leaf) (key value : Str) (hfull : leaf.size = kMaxLeafNodeEntries)
    (hsorted : Sorted leaf.entries) (hkey : key ≠ []) :
    ∃ node sibling, leaf.insert key value = .ok (node, some sibling) ∧ 0 < node.size ∧ 0 < sibling.size ∧
      node.size ≤ kMaxLeafNodeEntries ∧ sibling.size ≤ kMaxLeafNodeEntries ∧
      Sorted node.entries ∧ Sorted sibling.entries ∧
      (∀ entry ∈ node.entries, ∀ entry' ∈ sibling.entries, entry.1 < entry'.1) ∧
      (∀ other, (node.entries ++ sibling.entries).lookup other =
        if other = key then some value else leaf.entries.lookup other) ∧
      node.size + sibling.size = leaf.size + if leaf.entries.lookup key = none then 1 else 0 := by
  have hordered : leaf.Ordered := ⟨hfull.le, hsorted⟩
  obtain ⟨node, sibling, hinsert, hnode, hsibling, hpos, hpos', hset⟩ :=
    hordered.insert_full value hfull fun _ => hkey
  have hall := sorted_set key value hsorted
  rw [← hset] at hall
  refine ⟨node, sibling, hinsert, hpos, hpos', hnode.le, hsibling.le, hnode.sorted, hsibling.sorted,
    (List.pairwise_append.mp hall).2.2, fun other => ?_, ?_⟩
  · rw [hset, lookup_set]
    by_cases hother : other = key
    · rw [if_pos hother, if_pos hother]
    · rw [if_neg hother, if_neg hother]
  · rw [← length_entries, ← length_entries, ← length_entries, ← List.length_append, hset, length_set key value hsorted]

/-- A full leaf with the keys "\x01" to "d". -/
def hundred : Leaf := ⟨kMaxLeafNodeEntries, fun i => [UInt8.ofNat (i + 1)], fun _ => []⟩

theorem sorted_hundred : Sorted hundred.entries := by
  refine List.pairwise_map.mpr (List.pairwise_lt_range.imp_of_mem fun {i j} _ hj hlt => ?_)
  have hj : j < 100 := List.mem_range.mp hj
  refine List.Lex.rel ?_
  rw [UInt8.lt_iff_toNat_lt, UInt8.toNat_ofNat', UInt8.toNat_ofNat']
  omega

theorem insert_full_splits_hundred : ∃ node sibling, hundred.insert [50, 7] [9] = .ok (node, some sibling) ∧
    (node.entries ++ sibling.entries).lookup [50, 7] = some [9] ∧ node.size + sibling.size = 101 := by
  obtain ⟨node, sibling, hinsert, -, -, -, -, -, -, -, hlookup, hsize⟩ :=
    insert_full_splits hundred [50, 7] [9] rfl sorted_hundred (by decide)
  refine ⟨node, sibling, hinsert, ?_, ?_⟩
  · rw [hlookup, if_pos rfl]
  · rw [hsize, if_pos (by decide)]
    rfl

end Leaf

end Thebends.Ydb
