import Thebends.YdbLeafRuns

/-! The order of the slots in the leaves of ydb. `Insert` and `Del` compare the key with the slot at the insert
position, which may be behind those in use, and even behind the array. What they find there is arbitrary in this
module: the order of the slots in use does not depend on it. -/

namespace Thebends.Ydb

attribute [local instance] byteOrder

open LibExcept

namespace Leaf

/-- `keys_[pos]` in a comparison, where the slots at and behind `size_` show anything. -/
def shown (leaf : Leaf) (behind : Nat → Str) (pos : Nat) : Str := if pos < leaf.size then leaf.keys pos else behind pos

/-- `Insert` after the part that splits. -/
def insertHereShown (leaf : Leaf) (behind : Nat → Str) (key value : Str) : Except Fault Leaf := do
  let pos ← getInsertPosition leaf.getKey leaf.size key
  check (leaf.size < kMaxLeafNodeEntries)
  check (pos < kMaxLeafNodeEntries)
  check (pos ≤ leaf.size)
  if leaf.shown behind pos = key then return { leaf with values := Function.update leaf.values pos value }
  else return ⟨leaf.size + 1, Function.update (shiftUp pos leaf.size leaf.keys) pos key,
    Function.update (shiftUp pos leaf.size leaf.values) pos value⟩

/-- `Insert`, the sibling of a split having slots of its own behind those in use. -/
def insertShown (leaf : Leaf) (behind behindSibling : Nat → Str) (key value : Str) :
    Except Fault (Leaf × Option Leaf) :=
  if leaf.isFull then do
    let (sibling, lower) ← leaf.produceSplit
    match sibling.getKey 0 with
    | none => .error .nullKey
    | some first =>
        if first ≤ key then
          check (!sibling.isFull)
          let sibling ← sibling.insertHereShown behindSibling key value
          return (lower, some sibling)
        else
          let lower ← lower.insertHereShown behind key value
          return (lower, some sibling)
  else do
    let leaf ← leaf.insertHereShown behind key value
    return (leaf, none)

/-- `Del`. -/
def delShown (leaf : Leaf) (behind : Nat → Str) (key : Str) : Except Fault (Bool × Leaf) :=
  if leaf.size = 0 then .ok (false, leaf)
  else do
    let pos ← getInsertPosition leaf.getKey leaf.size key
    if leaf.shown behind pos ≠ key then return (false, leaf)
    else return (true, ⟨leaf.size - 1, shiftDown (leaf.size - (pos + 1)) (pos + 1) leaf.keys,
      shiftDown (leaf.size - (pos + 1)) (pos + 1) leaf.values⟩)

/-! ### The leaves as they are -/

theorem shown_keys (leaf : Leaf) (pos : Nat) : leaf.shown leaf.keys pos = leaf.keys pos := ite_self _

/-- `Insert` finds what earlier calls have left, -/
theorem insertHere_eq (leaf : Leaf) (key value : Str) :
    leaf.insertHere key value = leaf.insertHereShown leaf.keys key value := by
  obtain ⟨pos, hposition⟩ := leaf.position_exists key
  rw [insertHere, insertHereShown, hposition.found, ok_bind, ok_bind]
  by_cases hpos : pos < kMaxLeafNodeEntries
  · rw [slot, if_pos hpos, shown_keys]
    rfl
  · have hfails : check (decide (pos < kMaxLeafNodeEntries)) = .error .assertion := by
      rw [check, decide_eq_false hpos]
      rfl
    rw [hfails]
    rfl

theorem insertHereShown_congr {leaf : Leaf} {behind behind' : Nat → Str} (h : leaf.shown behind = leaf.shown behind')
    (key value : Str) : leaf.insertHereShown behind key value = leaf.insertHereShown behind' key value := by
  rw [insertHereShown, insertHereShown, h]

/-- and empty strings in a sibling. -/
theorem insert_eq (leaf : Leaf) (key value : Str) :
    leaf.insert key value = leaf.insertShown leaf.keys (fun _ => []) key value := by
  rw [insert, insertShown]
  by_cases hfull : leaf.isFull
  · obtain ⟨sibling, lower, hsplit, hhalves⟩ := halves_of_produceSplit hfull
    have hsibling : sibling.shown sibling.keys = sibling.shown fun _ => [] := by
      funext pos
      rw [shown_keys, shown]
      split
      case isTrue => rfl
      case isFalse hpos =>
          rw [hhalves.size] at hpos
          exact hhalves.empty pos (Nat.le_of_not_lt hpos)
    have hlower : lower.keys = leaf.keys := by rw [hhalves.lower_eq]
    rw [if_pos hfull, if_pos hfull, hsplit, ok_bind, ok_bind]
    dsimp only
    cases sibling.getKey 0 with
    | none => rfl
    | some first => simp only [insertHere_eq, insertHereShown_congr hsibling, hlower]
  · rw [if_neg hfull, if_neg hfull, insertHere_eq]

/-- `Del` does so too, unless it looks behind the array. -/
theorem del_eq {leaf : Leaf} {key : Str} {result : Bool × Leaf} (h : leaf.del key = .ok result) :
    leaf.delShown leaf.keys key = .ok result := by
  rw [del] at h
  rw [delShown]
  split
  case isTrue hzero => rwa [if_pos hzero] at h
  case isFalse hpos =>
      rw [if_neg hpos] at h
      obtain ⟨pos, hposition, hrest⟩ := bind_eq_ok h
      obtain ⟨entry, hslot, hresult⟩ := bind_eq_ok hrest
      rw [slot] at hslot
      split at hslot
      case isTrue =>
          cases hslot
          rw [hposition, ok_bind, shown_keys]
          exact hresult
      case isFalse => cases hslot

/-! ### What keeps the order -/

theorem ordered_iff (leaf : Leaf) : leaf.Ordered ↔
    leaf.size ≤ kMaxLeafNodeEntries ∧ ∀ i j, i < j → j < leaf.size → leaf.keys i < leaf.keys j := by
  constructor
  · exact fun h => ⟨h.le, fun i j => h.keys_lt⟩
  · intro ⟨hle, hkeys⟩
    refine ⟨hle, List.pairwise_iff_getElem.mpr fun i j hi hj hij => ?_⟩
    rw [length_entries] at hj
    simpa [entries] using hkeys i j hij hj

/-- **`Insert` into a leaf with room.** -/
theorem Ordered.insertHereShown {leaf : Leaf} (h : leaf.Ordered) (behind : Nat → Str) (key value : Str)
    (hroom : leaf.size < kMaxLeafNodeEntries) :
    ∃ leaf', leaf.insertHereShown behind key value = .ok leaf' ∧ leaf'.Ordered := by
  obtain ⟨pos, hposition⟩ := leaf.position_exists key
  have hpos : pos < kMaxLeafNodeEntries := Nat.lt_of_le_of_lt hposition.le hroom
  rw [Leaf.insertHereShown, hposition.found, ok_bind, check_true (decide_eq_true hroom), ok_bind,
    check_true (decide_eq_true hpos), ok_bind, check_true (decide_eq_true hposition.le), ok_bind]
  split
  case isTrue =>
      -- a value is replaced, perhaps one that is not in use
      obtain ⟨hle, hkeys⟩ := (ordered_iff leaf).mp h
      exact ⟨_, rfl, (ordered_iff _).mpr ⟨hle, hkeys⟩⟩
  case isFalse hother =>
      refine ⟨_, rfl, h.insertAt hposition hroom fun hlt heq => hother ?_⟩
      rw [shown, if_pos hlt, heq]

/-- **`Insert` into any leaf.** -/
theorem Ordered.insertShown {leaf : Leaf} (h : leaf.Ordered) (behind behindSibling : Nat → Str) (key value : Str) :
    ∃ leaf' sibling, leaf.insertShown behind behindSibling key value = .ok (leaf', sibling) ∧ leaf'.Ordered ∧
      ∀ node ∈ sibling, node.Ordered := by
  rw [Leaf.insertShown]
  by_cases hfull : leaf.isFull
  · obtain ⟨sibling, lower, hsplit, hhalves⟩ := halves_of_produceSplit hfull
    have hsize := hhalves.size
    obtain ⟨hlower, hsibling⟩ := hhalves.ordered h
    have hfirst : sibling.getKey 0 = some (sibling.keys 0) := if_pos (by rw [hsize]; decide)
    rw [if_pos hfull, hsplit, ok_bind]
    simp only [hfirst]
    by_cases hupper : sibling.keys 0 ≤ key
    · obtain ⟨sibling', hinsert, hordered⟩ :=
        hsibling.insertHereShown behindSibling key value (by rw [hsize]; decide)
      rw [if_pos hupper, check_true (by rw [isFull, hsize]; rfl), ok_bind, hinsert]
      exact ⟨lower, some sibling', rfl, hlower, fun node hnode => Option.some.inj hnode ▸ hordered⟩
    · obtain ⟨lower', hinsert, hordered⟩ :=
        hlower.insertHereShown behind key value (by rw [hhalves.lower_eq]; exact (by decide : 50 < kMaxLeafNodeEntries))
      rw [if_neg hupper, hinsert]
      exact ⟨lower', some sibling, rfl, hordered, fun node hnode => Option.some.inj hnode ▸ hsibling⟩
  · have hroom : leaf.size < kMaxLeafNodeEntries := lt_of_le_of_ne h.le fun heq => hfull (beq_iff_eq.mpr heq)
    obtain ⟨leaf', hinsert, hordered⟩ := h.insertHereShown behind key value hroom
    rw [if_neg hfull, hinsert]
    exact ⟨leaf', none, rfl, hordered, fun node hnode => absurd hnode (Option.not_mem_none node)⟩

/-- **`Del`.** -/
theorem Ordered.delShown {leaf : Leaf} (h : leaf.Ordered) (behind : Nat → Str) (key : Str) :
    ∃ found leaf', leaf.delShown behind key = .ok (found, leaf') ∧ leaf'.Ordered := by
  obtain ⟨hle, hkeys⟩ := (ordered_iff leaf).mp h
  obtain ⟨pos, hposition⟩ := leaf.position_exists key
  rw [Leaf.delShown]
  by_cases hzero : leaf.size = 0
  · rw [if_pos hzero]
    exact ⟨false, leaf, rfl, h⟩
  · rw [if_neg hzero, hposition.found, ok_bind]
    split
    case isTrue => exact ⟨false, leaf, rfl, h⟩
    case isFalse =>
        -- at the size there is no slot to move, and the last one is lost
        refine ⟨true, _, rfl, (ordered_iff _).mpr ⟨Nat.le_trans (Nat.sub_le _ _) hle, fun i j hij hj => ?_⟩⟩
        have hj : j < leaf.size - 1 := hj
        dsimp only
        rw [shiftDown_apply, shiftDown_apply]
        by_cases hi : pos ≤ i
        · rw [if_pos ⟨hi, by omega⟩, if_pos ⟨by omega, by omega⟩]
          exact hkeys _ _ (by omega) (by omega)
        · rw [if_neg fun hboth => hi hboth.1]
          split
          · exact hkeys _ _ (by omega) (by omega)
          · exact hkeys _ _ hij (by omega)

end Leaf

/-- A call, and what it finds in the slots that are not in use. -/
inductive SlotCall
  | insert (key value : Str) (behind behindSibling : Nat → Str)
  | del (key : Str) (behind : Nat → Str)

/-- A call on a leaf, next to the siblings that it has produced. -/
def applyCall (nodes : Leaf × List Leaf) : SlotCall → Except Fault (Leaf × List Leaf)
  | .insert key value behind behindSibling => do
      let (leaf, sibling) ← nodes.1.insertShown behind behindSibling key value
      return (leaf, nodes.2 ++ sibling.toList)
  | .del key behind => do
      let (_, leaf) ← nodes.1.delShown behind key
      return (leaf, nodes.2)

theorem applyCall_ordered {nodes : Leaf × List Leaf} (h : ∀ node ∈ nodes.1 :: nodes.2, node.Ordered) (call : SlotCall) :
    ∃ nodes', applyCall nodes call = .ok nodes' ∧ ∀ node ∈ nodes'.1 :: nodes'.2, node.Ordered := by
  obtain ⟨hleaf, hsiblings⟩ := List.forall_mem_cons.mp h
  cases call with
  | insert key value behind behindSibling =>
      obtain ⟨leaf, sibling, hinsert, hordered, hsibling⟩ := hleaf.insertShown behind behindSibling key value
      refine ⟨(leaf, nodes.2 ++ sibling.toList), by rw [applyCall, hinsert]; rfl, ?_⟩
      refine List.forall_mem_cons.mpr ⟨hordered, List.forall_mem_append.mpr ⟨hsiblings, fun node hnode => ?_⟩⟩
      exact hsibling node (Option.mem_toList.mp hnode)
  | del key behind =>
      obtain ⟨found, leaf, hdel, hordered⟩ := hleaf.delShown behind key
      exact ⟨(leaf, nodes.2), by rw [applyCall, hdel]; rfl, List.forall_mem_cons.mpr ⟨hordered, hsiblings⟩⟩

theorem applyCalls_ordered (calls : List SlotCall) {nodes : Leaf × List Leaf}
    (h : ∀ node ∈ nodes.1 :: nodes.2, node.Ordered) :
    ∃ nodes', calls.foldlM applyCall nodes = .ok nodes' ∧ ∀ node ∈ nodes'.1 :: nodes'.2, node.Ordered := by
  induction calls generalizing nodes with
  | nil => exact ⟨nodes, rfl, h⟩
  | cons call calls ih =>
      obtain ⟨next, hcall, hnext⟩ := applyCall_ordered h call
      rw [List.foldlM_cons, hcall, ok_bind]
      exact ih hnext

/-- **The slots in use ascend**, in a leaf and in all siblings it has produced, whatever the comparisons have found
behind them; and no assertion fails. -/
theorem slots_ascend (calls : List SlotCall) : ∃ leaf siblings,
    calls.foldlM applyCall (Leaf.new, []) = .ok (leaf, siblings) ∧ ∀ node ∈ leaf :: siblings,
      node.size ≤ kMaxLeafNodeEntries ∧ ∀ i j, i < j → j < node.size → node.keys i < node.keys j := by
  have hnew : ∀ node ∈ (Leaf.new, ([] : List Leaf)).1 :: (Leaf.new, ([] : List Leaf)).2, node.Ordered := by
    intro node hnode
    rw [List.mem_singleton.mp hnode]
    exact Leaf.new_refines.ordered
  obtain ⟨nodes, hcalls, hordered⟩ := applyCalls_ordered calls hnew
  exact ⟨nodes.1, nodes.2, hcalls, fun node hnode => (Leaf.ordered_iff node).mp (hordered node hnode)⟩

end Thebends.Ydb
