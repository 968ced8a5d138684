import Thebends.YdbOp
import Mathlib.Data.List.Lex
import Mathlib.Data.List.Pairwise

/-! The B+tree nodes of ydb (`ydb_tree.h`, `ydb_tree.cpp`). A leaf has its two arrays with whatever
stands in the slots behind `size_`. The `Ydb_InsertResult` that an inner node hands to its child is a
local variable without an initial value, so what it holds is a parameter of the model. A failed
assertion, a slot that is not there and a pointer that points nowhere end the computation. -/

namespace Thebends.Ydb

/-- The order of the bytes, by which strings are compared. -/
@[reducible] def byteOrder : LinearOrder UInt8 where
  le_refl := UInt8.le_refl
  le_trans _ _ _ := UInt8.le_trans
  le_antisymm _ _ := UInt8.le_antisymm
  le_total := UInt8.le_total
  lt_iff_le_not_ge left right := by
    rw [UInt8.lt_iff_toNat_lt, UInt8.le_iff_toNat_le, UInt8.le_iff_toNat_le]
    omega
  toDecidableLE := inferInstance
  toDecidableEq := inferInstance
  toDecidableLT := inferInstance

attribute [local instance] byteOrder

/-- What goes wrong where the source would abort or leave its data. -/
inductive Fault
  | assertion
  | badSlot
  | nullKey
  | wildPointer
  deriving DecidableEq, Repr

/-- `assert`. -/
def check (condition : Bool) : Except Fault Unit := if condition then .ok () else .error .assertion

/-- `GetInsertPosition`, with the number of slots still to look at. -/
def positionFrom (getKey : Nat → Option Str) (key : Str) : Nat → Nat → Except Fault Nat
  | 0, i => .ok i
  | left + 1, i =>
      match getKey i with
      | none => .error .nullKey
      | some found => if found < key then positionFrom getKey key left (i + 1) else .ok i

def getInsertPosition (getKey : Nat → Option Str) (size : Nat) (key : Str) : Except Fault Nat :=
  positionFrom getKey key size 0

def kMaxLeafNodeEntries : Nat := 100

def kMaxInnerNodeEntries : Nat := 10

/-- `Ydb_LeafNode`, the slots of its arrays `keys_` and `values_` by index. -/
structure Leaf where
  size : Nat
  keys : Nat → Str
  values : Nat → Str

namespace Leaf

def isFull (leaf : Leaf) : Bool := leaf.size == kMaxLeafNodeEntries

def getKey (leaf : Leaf) (i : Nat) : Option Str := if i < leaf.size then some (leaf.keys i) else none

/-- `keys_[pos]` and `values_[pos]`. -/
def slot (leaf : Leaf) (pos : Nat) : Except Fault (Str × Str) :=
  if pos < kMaxLeafNodeEntries then .ok (leaf.keys pos, leaf.values pos) else .error .badSlot

def get (leaf : Leaf) (key : Str) : Except Fault (Option Str) :=
  if leaf.size = 0 then .ok none
  else do
    let pos ← getInsertPosition leaf.getKey leaf.size key
    let entry ← leaf.slot pos
    return if entry.1 ≠ key then none else some entry.2

/-- The upper half of a full leaf, in a fresh leaf whose other strings are empty, and the lower half. -/
def produceSplit (leaf : Leaf) : Except Fault (Leaf × Leaf) := do
  check leaf.isFull
  let threshold := (kMaxLeafNodeEntries + 1) / 2
  let count := leaf.size - threshold
  return (⟨count, fun i => if i < count then leaf.keys (threshold + i) else [],
      fun i => if i < count then leaf.values (threshold + i) else []⟩,
    { leaf with size := threshold })

/-- The loop that moves the slots from `pos` on up by one, from slot `i` down. -/
def shiftUp (pos : Nat) : Nat → (Nat → Str) → Nat → Str
  | 0, slots => slots
  | i + 1, slots => if pos < i + 1 then shiftUp pos i (Function.update slots (i + 1) (slots i)) else slots

/-- `Insert` after the part that splits. -/
def insertHere (leaf : Leaf) (key value : Str) : Except Fault Leaf := do
  let pos ← getInsertPosition leaf.getKey leaf.size key
  check (leaf.size < kMaxLeafNodeEntries)
  check (pos < kMaxLeafNodeEntries)
  check (pos ≤ leaf.size)
  let entry ← leaf.slot pos
  if entry.1 = key then return { leaf with values := Function.update leaf.values pos value }
  else return ⟨leaf.size + 1, Function.update (shiftUp pos leaf.size leaf.keys) pos key,
    Function.update (shiftUp pos leaf.size leaf.values) pos value⟩

/-- `Insert`. The second component is the sibling of a leaf that was split, which the source reports
through `result`. -/
def insert (leaf : Leaf) (key value : Str) : Except Fault (Leaf × Option Leaf) :=
  if leaf.isFull then do
    let (sibling, lower) ← leaf.produceSplit
    match sibling.getKey 0 with
    | none => .error .nullKey
    | some first =>
        if first ≤ key then
          -- the call with `result == NULL`
          check (!sibling.isFull)
          let sibling ← sibling.insertHere key value
          return (lower, some sibling)
        else
          let lower ← lower.insertHere key value
          return (lower, some sibling)
  else do
    let leaf ← leaf.insertHere key value
    return (leaf, none)

/-- The entries of a leaf. -/
def entries (leaf : Leaf) : List (Str × Str) :=
  (List.range leaf.size).map fun i => (leaf.keys i, leaf.values i)

end Leaf

/-- `Ydb_Node`: a `Ydb_LeafNode`, or a `Ydb_InnerNode` with its `size_` first children. -/
inductive Node
  | leaf (leaf : Leaf)
  | inner (children : List Node)

/-- `Ydb_InsertResult`; the pointer may point nowhere. -/
structure InsertResult where
  split : Bool
  sibling : Option Node

/-- What an insertion leaves behind: the node, `*result`, and the sibling if the node was split. -/
structure Inserted where
  node : Node
  result : InsertResult
  produced : Option Node

namespace Node

mutual

/-- `GetKey`. -/
def getKey : Node → Nat → Option Str
  | .leaf node, i => node.getKey i
  | .inner children, i => firstKeyAt children i

/-- `nodes_[i]->GetKey(0)` for `i` below `size_`. -/
def firstKeyAt : List Node → Nat → Option Str
  | [], _ => none
  | child :: _, 0 => child.getKey 0
  | _ :: children, i + 1 => firstKeyAt children i

end

mutual

/-- `Get`. -/
def get (key : Str) : Node → Except Fault (Option Str)
  | .leaf node => node.get key
  | .inner children =>
      if children.length = 0 then .ok none
      else do
        let pos ← getInsertPosition (firstKeyAt children) children.length key
        getAt key children pos

/-- `nodes_[pos]->Get(key, value)`. -/
def getAt (key : Str) : List Node → Nat → Except Fault (Option Str)
  | [], _ => .error .badSlot
  | child :: _, 0 => child.get key
  | _ :: children, pos + 1 => getAt key children pos

end

/-- `InsertNode` on the children of an inner node; `ProduceSplit` splits a full one first. -/
def insertNode (children : List Node) (node : Node) (result : InsertResult) : Inserted :=
  if children.length = kMaxInnerNodeEntries then
    let threshold := (kMaxInnerNodeEntries + 1) / 2
    let sibling := .inner (children.drop threshold ++ [node])
    ⟨.inner (children.take threshold), ⟨true, some sibling⟩, some sibling⟩
  else ⟨.inner (children ++ [node]), result, none⟩

mutual

/-- `Insert`, in a call at the given depth; `junk` is what the local `child_result` of each depth
holds before it is written. -/
def insert (junk : Nat → InsertResult) (key value : Str) (depth : Nat) (result : InsertResult) :
    Node → Except Fault Inserted
  | .leaf node => do
      let (node, produced) ← node.insert key value
      match produced with
      | none => return ⟨.leaf node, result, none⟩
      | some sibling => return ⟨.leaf node, ⟨true, some (.leaf sibling)⟩, some (.leaf sibling)⟩
  | .inner children => do
      let pos ← getInsertPosition (firstKeyAt children) children.length key
      check (children.length < kMaxInnerNodeEntries)
      check (pos < kMaxInnerNodeEntries)
      check (pos ≤ children.length)
      let (children, childResult) ← insertAt junk key value depth children pos
      if childResult.split then
        match childResult.sibling with
        | none => .error .wildPointer
        | some sibling => return insertNode children sibling result
      else return ⟨.inner children, result, none⟩

/-- `nodes_[pos]->Insert(key, value, &child_result)`, with the children and `child_result` afterwards. -/
def insertAt (junk : Nat → InsertResult) (key value : Str) (depth : Nat) :
    List Node → Nat → Except Fault (List Node × InsertResult)
  | [], _ => .error .badSlot
  | child :: children, 0 => do
      let inserted ← child.insert junk key value (depth + 1) (junk depth)
      return (inserted.node :: children, inserted.result)
  | child :: children, pos + 1 => do
      let (children, childResult) ← insertAt junk key value depth children pos
      return (child :: children, childResult)

end

end Node

end Thebends.Ydb
