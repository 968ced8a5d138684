import Thebends.YdbLeaf

/-! Insertion into an inner node of ydb and lookup in it. `GetInsertPosition` compares the key with the
first keys of the children and stops at the first child whose first key is not smaller, so the key always
goes in front of the first entry of some leaf, or nowhere. -/

namespace Thebends.Ydb

attribute [local instance] byteOrder

open LibExcept LibSorted

/-! ### Leaves -/

namespace Leaf

/-- At least one entry, no more than there are slots, with strictly ascending keys. -/
structure WellFormed (leaf : Leaf) : Prop where
  pos : 0 < leaf.size
  le : leaf.size ≤ kMaxLeafNodeEntries
  sorted : Sorted leaf.entries

theorem WellFormed.ordered {leaf : Leaf} (h : leaf.WellFormed) : leaf.Ordered := ⟨h.le, h.sorted⟩

/-- A key that is not above the first one goes to the front. -/
theorem WellFormed.set_first {leaf : Leaf} (h : leaf.WellFormed) {key : Str} (value : Str) (hle : key ≤ leaf.keys 0) :
    LibSorted.set key value leaf.entries = setFirst key value leaf.entries := by
  refine set_eq_setFirst fun entry hentry => ?_
  rw [entries_of_pos leaf h.pos, List.head?_cons, Option.mem_some_iff] at hentry
  rw [← hentry]
  exact hle

theorem WellFormed.not_stale {leaf : Leaf} (h : leaf.WellFormed) {key : Str} (hle : key ≤ leaf.keys 0) :
    ¬leaf.Stale key :=
  fun hstale => absurd (hstale.1 0 h.pos) (not_lt.mpr hle)

/-- Inserting at the front of a well-formed leaf that has room. -/
theorem insert_first {leaf : Leaf} {key : Str} (h : leaf.WellFormed) (value : Str) (hle : key ≤ leaf.keys 0)
    (hroom : leaf.size ≠ kMaxLeafNodeEntries) :
    ∃ leaf', leaf.insert key value = .ok (leaf', none) ∧ leaf'.WellFormed ∧
      leaf'.entries = setFirst key value leaf.entries := by
  obtain ⟨leaf', hinsert, hordered, hentries⟩ :=
    h.ordered.insertHere value (lt_of_le_of_ne h.le hroom) (h.not_stale hle)
  rw [h.set_first value hle] at hentries
  refine ⟨leaf', ?_, ⟨?_, hordered.le, hordered.sorted⟩, hentries⟩
  · rw [insert, if_neg (by simpa [isFull] using hroom), hinsert]
    rfl
  · obtain ⟨rest, hset, -⟩ := setFirst_eq_cons key value leaf.entries
    rw [← length_entries, hentries, hset]
    exact Nat.succ_pos _

/-- Inserting at the front of a full leaf, which is split. -/
theorem insert_first_full {leaf : Leaf} {key : Str} (h : leaf.WellFormed) (value : Str) (hle : key ≤ leaf.keys 0)
    (hfull : leaf.size = kMaxLeafNodeEntries) :
    ∃ leaf' sibling, leaf.insert key value = .ok (leaf', some sibling) ∧ leaf'.WellFormed ∧ sibling.WellFormed ∧
      leaf'.entries ++ sibling.entries = setFirst key value leaf.entries := by
  have hbelow : ¬leaf.keys 50 ≤ key :=
    not_le.mpr (lt_of_le_of_lt hle (h.ordered.keys_lt (by decide) (by rw [hfull]; decide)))
  obtain ⟨node, sibling, hinsert, hnode, hsibling, hpos, hpos', hentries⟩ :=
    h.ordered.insert_full value hfull fun habove => absurd habove hbelow
  rw [h.set_first value hle] at hentries
  exact ⟨node, sibling, hinsert, ⟨hpos, hnode.le, hnode.sorted⟩, ⟨hpos', hsibling.le, hsibling.sorted⟩, hentries⟩

end Leaf

/-! ### Nodes -/

namespace Node

mutual

/-- The entries in the leaves below a node, from left to right. -/
def entries : Node → List (Str × Str)
  | .leaf node => node.entries
  | .inner children => entriesOf children

def entriesOf : List Node → List (Str × Str)
  | [] => []
  | child :: children => child.entries ++ entriesOf children

end

/-- Every key below a node is smaller than every key below its right neighbour, if it has one. -/
def Precedes (node : Node) : List Node → Prop
  | [] => True
  | next :: _ => ∀ entry ∈ node.entries, ∀ entry' ∈ next.entries, entry.1 < entry'.1

mutual

/-- A well-formed leaf, or an inner node with at least one child, all of them well formed and in order. -/
def WellFormed : Node → Prop
  | .leaf node => node.WellFormed
  | .inner children => children ≠ [] ∧ WellFormedAll children

def WellFormedAll : List Node → Prop
  | [] => True
  | child :: children => child.WellFormed ∧ child.Precedes children ∧ WellFormedAll children

end

theorem entriesOf_append (left right : List Node) : entriesOf (left ++ right) = entriesOf left ++ entriesOf right := by
  induction left with
  | nil => rfl
  | cons child children ih => rw [List.cons_append, entriesOf, ih, entriesOf, List.append_assoc]

theorem mem_entriesOf {children : List Node} {entry : Str × Str} :
    entry ∈ entriesOf children ↔ ∃ child ∈ children, entry ∈ child.entries := by
  induction children with
  | nil => simp [entriesOf]
  | cons child children ih => simp [entriesOf, ih]

theorem wellFormedAll_mem {children : List Node} (h : WellFormedAll children) :
    ∀ child ∈ children, child.WellFormed := by
  induction children with
  | nil => exact nofun
  | cons child children ih =>
      intro found hfound
      rcases List.mem_cons.mp hfound with rfl | hmem
      · exact h.1
      · exact ih h.2.2 found hmem

/-- The first key of a well-formed node is the key of its first entry. -/
theorem first_entry {node : Node} (h : node.WellFormed) :
    ∃ key value rest, node.getKey 0 = some key ∧ node.entries = (key, value) :: rest := by
  match node, h with
  | .leaf node, h =>
      refine ⟨_, _, _, ?_, node.entries_of_pos (Leaf.WellFormed.pos h)⟩
      exact if_pos (Leaf.WellFormed.pos h)
  | .inner (child :: children), h =>
      obtain ⟨key, value, rest, hkey, hentries⟩ := first_entry h.2.1
      refine ⟨key, value, rest ++ entriesOf children, hkey, ?_⟩
      rw [entries, entriesOf, hentries, List.cons_append]
  | .inner [], h => exact absurd rfl h.1

/-- Neighbours in order are enough for the whole list to be in order, as every node has an entry. -/
theorem sorted_cons {child : Node} {children : List Node} (hchild : Sorted child.entries)
    (hnext : child.Precedes children) (hwf : WellFormedAll children) (hrest : Sorted (entriesOf children)) :
    Sorted (entriesOf (child :: children)) := by
  refine List.pairwise_append.mpr ⟨hchild, hrest, fun entry hentry other hother => ?_⟩
  cases children with
  | nil => cases hother
  | cons next more =>
      obtain ⟨key, value, rest, -, hfirst⟩ := first_entry hwf.1
      have hbelow : entry.1 < key := hnext entry hentry (key, value) (by rw [hfirst]; exact List.mem_cons_self)
      rw [entriesOf, hfirst, List.cons_append] at hother hrest
      rcases List.mem_cons.mp hother with rfl | hmem
      · exact hbelow
      · exact hbelow.trans ((List.pairwise_cons.mp hrest).1 other hmem)

mutual

theorem WellFormed.sorted {node : Node} (h : node.WellFormed) : Sorted node.entries := by
  match node, h with
  | .leaf node, h => exact Leaf.WellFormed.sorted h
  | .inner children, h => exact WellFormedAll.sorted h.2

theorem WellFormedAll.sorted {children : List Node} (h : WellFormedAll children) : Sorted (entriesOf children) := by
  match children, h with
  | [], _ => exact List.Pairwise.nil
  | child :: children, h => exact sorted_cons h.1.sorted h.2.1 h.2.2 (WellFormedAll.sorted h.2.2)

end

/-- Well-formed nodes in a row are in order exactly when all their entries are. -/
theorem wellFormedAll_iff {children : List Node} :
    WellFormedAll children ↔ (∀ child ∈ children, child.WellFormed) ∧ Sorted (entriesOf children) := by
  refine ⟨fun h => ⟨wellFormedAll_mem h, WellFormedAll.sorted h⟩, ?_⟩
  rintro ⟨hall, hsorted⟩
  induction children with
  | nil => trivial
  | cons child children ih =>
      obtain ⟨-, hrest, hcross⟩ := List.pairwise_append.mp hsorted
      refine ⟨hall child List.mem_cons_self, ?_,
        ih (fun other hother => hall other (List.mem_cons_of_mem _ hother)) hrest⟩
      cases children with
      | nil => trivial
      | cons next more =>
          intro entry hentry other hother
          exact hcross entry hentry other (List.mem_append_left _ hother)

theorem wellFormedAll_append {left right : List Node} (h : WellFormedAll (left ++ right)) :
    WellFormedAll left ∧ WellFormedAll right := by
  obtain ⟨hall, hsorted⟩ := wellFormedAll_iff.mp h
  rw [entriesOf_append] at hsorted
  obtain ⟨hleft, hright, -⟩ := List.pairwise_append.mp hsorted
  exact ⟨wellFormedAll_iff.mpr ⟨fun node hnode => hall node (List.mem_append_left _ hnode), hleft⟩,
    wellFormedAll_iff.mpr ⟨fun node hnode => hall node (List.mem_append_right _ hnode), hright⟩⟩

/-! ### The position of a key -/

/-- The first key of a node is below `key`. -/
def StartsBelow (node : Node) (key : Str) : Prop := ∃ first, node.getKey 0 = some first ∧ first < key

/-- The first key of a node is not below `key`. -/
def StartsAbove (node : Node) (key : Str) : Prop := ∃ first, node.getKey 0 = some first ∧ key ≤ first

theorem startsBelow_of_entries {children : List Node} {key : Str} (hwf : ∀ child ∈ children, child.WellFormed)
    (h : ∀ entry ∈ entriesOf children, entry.1 < key) : ∀ child ∈ children, child.StartsBelow key := by
  intro child hchild
  obtain ⟨first, value, rest, hfirst, hentries⟩ := first_entry (hwf child hchild)
  refine ⟨first, hfirst, h (first, value) (mem_entriesOf.mpr ⟨child, hchild, ?_⟩)⟩
  rw [hentries]
  exact List.mem_cons_self

theorem positionFrom_spec {getKey : Nat → Option Str} {key : Str} {children : List Node} {i : Nat}
    (hkey : ∀ j, getKey (i + j) = firstKeyAt children j) (hwf : ∀ child ∈ children, child.WellFormed) :
    ∃ before after, children = before ++ after ∧
      positionFrom getKey key children.length i = .ok (i + before.length) ∧
      (∀ child ∈ before, child.StartsBelow key) ∧ ∀ child ∈ after.head?, child.StartsAbove key := by
  induction children generalizing i with
  | nil => exact ⟨[], [], rfl, rfl, nofun, nofun⟩
  | cons child children ih =>
      obtain ⟨first, value, rest, hfirst, -⟩ := first_entry (hwf child List.mem_cons_self)
      have hhere : getKey i = some first := by rw [← hfirst]; exact hkey 0
      rw [List.length_cons, positionFrom, hhere]
      by_cases hlt : first < key
      · obtain ⟨before, after, hsplit, hpos, hbefore, hafter⟩ := @ih (i + 1)
          (fun j => by rw [Nat.add_assoc, Nat.add_comm 1 j]; exact hkey (j + 1))
          fun other hother => hwf other (List.mem_cons_of_mem _ hother)
        refine ⟨child :: before, after, by rw [hsplit]; rfl, ?_, ?_, hafter⟩
        · simp only [if_pos hlt, hpos, List.length_cons]
          congr 1
          omega
        · intro other hother
          rcases List.mem_cons.mp hother with rfl | hmem
          · exact ⟨first, hfirst, hlt⟩
          · exact hbefore other hmem
      · refine ⟨[], child :: children, rfl, ?_, nofun, ?_⟩
        · simp only [if_neg hlt]
          rfl
        · intro other hother
          rw [List.head?_cons, Option.mem_some_iff] at hother
          exact ⟨first, hother ▸ hfirst, not_lt.mp hlt⟩

/-- `GetInsertPosition` of an inner node: the children before the position start below the key and the
child there, if any, does not. -/
theorem getInsertPosition_spec {children : List Node} (key : Str) (hwf : ∀ child ∈ children, child.WellFormed) :
    ∃ before after, children = before ++ after ∧
      getInsertPosition (firstKeyAt children) children.length key = .ok before.length ∧
      (∀ child ∈ before, child.StartsBelow key) ∧ ∀ child ∈ after.head?, child.StartsAbove key := by
  have hspec := @positionFrom_spec (firstKeyAt children) key children 0 (fun j => by rw [Nat.zero_add]) hwf
  simpa only [Nat.zero_add, getInsertPosition] using hspec

theorem getAt_append (key : Str) (before : List Node) (child : Node) (after : List Node) :
    getAt key (before ++ child :: after) before.length = child.get key := by
  induction before with
  | nil => rfl
  | cons _ before ih => exact ih

theorem getAt_end (key : Str) (children : List Node) : getAt key children children.length = .error .badSlot := by
  induction children with
  | nil => rfl
  | cons _ children ih => exact ih

theorem insertAt_append (junk : Nat → InsertResult) (key value : Str) (depth : Nat) (before : List Node)
    (child : Node) (after : List Node) :
    insertAt junk key value depth (before ++ child :: after) before.length = (do
      let inserted ← child.insert junk key value (depth + 1) (junk depth)
      return (before ++ inserted.node :: after, inserted.result)) := by
  induction before with
  | nil => rfl
  | cons first before ih =>
      rw [List.cons_append, List.length_cons, insertAt, ih]
      cases child.insert junk key value (depth + 1) (junk depth) <;> rfl

theorem insertAt_end (junk : Nat → InsertResult) (key value : Str) (depth : Nat) (children : List Node) :
    insertAt junk key value depth children children.length = .error .badSlot := by
  induction children with
  | nil => rfl
  | cons first children ih =>
      rw [List.length_cons, insertAt, ih]
      rfl

/-! ### What an insertion does to the children of an inner node -/

/-- The children from the one inserted into on, once the caller has looked at `child_result`. -/
def attach (node : Node) (result : InsertResult) (after : List Node) : Except Fault (List Node) :=
  if result.split then
    match result.sibling with
    | none => .error .wildPointer
    | some sibling => .ok (node :: after ++ [sibling])
  else .ok (node :: after)

theorem insert_inner {junk : Nat → InsertResult} {key value : Str} {depth : Nat} {result : InsertResult}
    {before after : List Node} {child : Node}
    (hpos : getInsertPosition (firstKeyAt (before ++ child :: after)) (before ++ child :: after).length key =
      .ok before.length) (hlen : (before ++ child :: after).length < kMaxInnerNodeEntries) :
    insert junk key value depth result (.inner (before ++ child :: after)) = (do
      let inserted ← child.insert junk key value (depth + 1) (junk depth)
      let children ← attach inserted.node inserted.result after
      return ⟨.inner (before ++ children), result, none⟩) := by
  have hbefore : before.length ≤ (before ++ child :: after).length := by simp
  rw [insert, hpos]
  simp only [bind, Except.bind, check_true (decide_eq_true hlen),
    check_true (decide_eq_true (Nat.lt_of_le_of_lt hbefore hlen)), check_true (decide_eq_true hbefore),
    insertAt_append]
  cases child.insert junk key value (depth + 1) (junk depth) with
  | error fault => rfl
  | ok inserted =>
      obtain ⟨node, ⟨split, sibling⟩, produced⟩ := inserted
      have hroom : before.length + (after.length + 1) ≠ kMaxInnerNodeEntries := by
        simp only [List.length_append, List.length_cons] at hlen
        omega
      cases split with
      | false => rfl
      | true =>
          cases sibling with
          | none => rfl
          | some sibling => simp [pure, Except.pure, attach, insertNode, hroom]

/-- A full inner node refuses to insert anything. -/
theorem insert_inner_full {junk : Nat → InsertResult} {key value : Str} {depth : Nat} {result : InsertResult}
    {children : List Node} (hlen : ¬children.length < kMaxInnerNodeEntries) (inserted : Inserted) :
    insert junk key value depth result (.inner children) ≠ .ok inserted := by
  rw [insert]
  cases getInsertPosition (firstKeyAt children) children.length key with
  | error fault => simp [bind, Except.bind]
  | ok pos => simp [bind, Except.bind, check, hlen]

/-- A position behind the last child has no child. -/
theorem insert_inner_end {junk : Nat → InsertResult} {key value : Str} {depth : Nat} {result : InsertResult}
    {children : List Node}
    (hpos : getInsertPosition (firstKeyAt children) children.length key = .ok children.length) (inserted : Inserted) :
    insert junk key value depth result (.inner children) ≠ .ok inserted := by
  by_cases hlen : children.length < kMaxInnerNodeEntries
  · rw [insert, hpos]
    simp [bind, Except.bind, check, hlen, insertAt_end]
  · exact insert_inner_full hlen inserted

/-- When a node can take in a key that is not above its first one, as the left neighbour of `after` and
with `junk` in the uninitialised results from `depth` on: a full leaf must be the last child, as the
sibling it is split into goes to the end, and below a node that is not split the result must happen to
say so. -/
def Takes (junk : Nat → InsertResult) : Nat → Node → List Node → Prop
  | depth, .leaf node, after =>
      if node.size = kMaxLeafNodeEntries then after = [] else (junk depth).split = false
  | depth, .inner (child :: children), _ =>
      (junk depth).split = false ∧ (child :: children).length < kMaxInnerNodeEntries ∧
        Takes junk (depth + 1) child children
  | _, .inner [], _ => False

theorem getInsertPosition_first {child : Node} {children : List Node} {key : Str} (h : child.StartsAbove key) :
    getInsertPosition (firstKeyAt (child :: children)) (child :: children).length key = .ok 0 := by
  obtain ⟨first, hfirst, hle⟩ := h
  have hhere : firstKeyAt (child :: children) 0 = some first := hfirst
  rw [getInsertPosition, List.length_cons, positionFrom, hhere]
  exact if_neg (not_lt.mpr hle)

theorem StartsAbove.leaf {node : Leaf} {key : Str} (hpos : 0 < node.size) (h : (Node.leaf node).StartsAbove key) :
    key ≤ node.keys 0 := by
  obtain ⟨first, hfirst, hle⟩ := h
  have hhere : (Node.leaf node).getKey 0 = some (node.keys 0) := if_pos hpos
  rw [hhere, Option.some.injEq] at hfirst
  rw [hfirst]
  exact hle

/-- An insertion into an inner node in front of its first child goes on in that child. -/
theorem insert_first_child {junk : Nat → InsertResult} {key value : Str} {depth : Nat} {result : InsertResult}
    {child : Node} {children : List Node} (habove : child.StartsAbove key) {inserted : Inserted}
    (h : insert junk key value depth result (.inner (child :: children)) = .ok inserted) :
    (child :: children).length < kMaxInnerNodeEntries ∧
      ∃ inner new, child.insert junk key value (depth + 1) (junk depth) = .ok inner ∧
        attach inner.node inner.result children = .ok new ∧ inserted = ⟨.inner new, result, none⟩ := by
  by_cases hlen : (child :: children).length < kMaxInnerNodeEntries
  · refine ⟨hlen, ?_⟩
    have hgoes := @insert_inner junk key value depth result [] children child (getInsertPosition_first habove) hlen
    obtain ⟨inner, hinner, h⟩ := bind_eq_ok (hgoes.symm.trans h)
    obtain ⟨new, hnew, h⟩ := bind_eq_ok h
    exact ⟨inner, new, hinner, hnew, (Except.ok.inj h).symm⟩
  · exact absurd h (insert_inner_full hlen inserted)

theorem StartsAbove.child {child : Node} {children : List Node} {key : Str}
    (h : (Node.inner (child :: children)).StartsAbove key) : child.StartsAbove key := h

theorem attach_eq_ok {node : Node} {result : InsertResult} {after children : List Node}
    (h : attach node result after = .ok children) :
    (result.split = false ∧ children = node :: after) ∨
      ∃ sibling, result.split = true ∧ result.sibling = some sibling ∧ children = node :: after ++ [sibling] := by
  unfold attach at h
  split at h
  · next hsplit =>
    split at h
    · cases h
    · next sibling hsibling => exact Or.inr ⟨sibling, hsplit, hsibling, (Except.ok.inj h).symm⟩
  · next hsplit => exact Or.inl ⟨by simpa using hsplit, (Except.ok.inj h).symm⟩

theorem attach_entries {node : Node} {result : InsertResult} {after children : List Node}
    (h : attach node result after = .ok children) :
    ∃ more, entriesOf children = node.entries ++ entriesOf after ++ more := by
  rcases attach_eq_ok h with ⟨-, rfl⟩ | ⟨sibling, -, -, rfl⟩
  · exact ⟨[], by rw [entriesOf, List.append_nil]⟩
  · exact ⟨entriesOf [sibling], by rw [entriesOf_append, entriesOf]⟩

/-- What an insertion in front of the first key of a leaf returns. -/
theorem insert_leaf {junk : Nat → InsertResult} {key : Str} (value : Str) (depth : Nat) (result : InsertResult)
    {node : Leaf} (hwf : node.WellFormed) (hle : key ≤ node.keys 0) :
    ∃ node', node'.WellFormed ∧
      ((node.size ≠ kMaxLeafNodeEntries ∧ node'.entries = setFirst key value node.entries ∧
          insert junk key value depth result (.leaf node) = .ok ⟨.leaf node', result, none⟩) ∨
        (node.size = kMaxLeafNodeEntries ∧ ∃ sibling, sibling.WellFormed ∧
          node'.entries ++ sibling.entries = setFirst key value node.entries ∧
          insert junk key value depth result (.leaf node) =
            .ok ⟨.leaf node', ⟨true, some (.leaf sibling)⟩, some (.leaf sibling)⟩)) := by
  by_cases hfull : node.size = kMaxLeafNodeEntries
  · obtain ⟨node', sibling, hinsert, hwf', hsibling, hentries⟩ := Leaf.insert_first_full hwf value hle hfull
    refine ⟨node', hwf', Or.inr ⟨hfull, sibling, hsibling, hentries, ?_⟩⟩
    rw [insert, hinsert]
    rfl
  · obtain ⟨node', hinsert, hwf', hentries⟩ := Leaf.insert_first hwf value hle hfull
    refine ⟨node', hwf', Or.inl ⟨hfull, hentries, ?_⟩⟩
    rw [insert, hinsert]
    rfl

/-- An insertion puts the key in front and loses no entry. -/
theorem insert_keeps {junk : Nat → InsertResult} {key value : Str} {node : Node} (hwf : node.WellFormed)
    (habove : node.StartsAbove key) {depth : Nat} {result : InsertResult} {inserted : Inserted}
    (h : node.insert junk key value depth result = .ok inserted) :
    (∃ rest, inserted.node.entries = (key, value) :: rest) ∧
      ∀ after children, attach inserted.node inserted.result after = .ok children →
        (setFirst key value node.entries).length + (entriesOf after).length ≤ (entriesOf children).length := by
  match node, hwf with
  | .leaf node, hwf =>
      obtain ⟨node', hwf', hcases⟩ := @insert_leaf junk key value depth result node hwf
        (habove.leaf (Leaf.WellFormed.pos hwf))
      obtain ⟨rest, hfirst, -⟩ := setFirst_eq_cons key value node.entries
      rcases hcases with ⟨-, hentries, heq⟩ | ⟨-, sibling, -, hentries, heq⟩
      · rw [heq] at h
        cases h
        refine ⟨⟨rest, hentries.trans hfirst⟩, fun after children hattach => ?_⟩
        obtain ⟨more, hmore⟩ := attach_entries hattach
        rw [hmore, entries, entries, hentries]
        simp
      · rw [heq] at h
        cases h
        refine ⟨?_, fun after children hattach => ?_⟩
        · rw [Leaf.entries_of_pos node' hwf'.pos, hfirst, List.cons_append, List.cons.injEq] at hentries
          exact ⟨_, (Leaf.entries_of_pos node' hwf'.pos).trans (congrArg (· :: _) hentries.1)⟩
        · have hchildren : children = .leaf node' :: after ++ [.leaf sibling] := (Except.ok.inj hattach).symm
          rw [hchildren, entriesOf_append, entries, ← hentries]
          simp only [entriesOf, entries, List.length_append, List.length_nil]
          omega
  | .inner (child :: more), hwf =>
      obtain ⟨hlen, inner, new, hinner, hnew, rfl⟩ := insert_first_child habove.child h
      obtain ⟨⟨rest, hhead⟩, hlength⟩ := insert_keeps hwf.2.1 habove.child hinner
      obtain ⟨extra, hextra⟩ := attach_entries hnew
      obtain ⟨first, old, tail, -, hfirst⟩ := first_entry hwf.2.1
      refine ⟨⟨rest ++ entriesOf more ++ extra, ?_⟩, fun after children hattach => ?_⟩
      · rw [entries, hextra, hhead]
        simp
      · obtain ⟨extra', hextra'⟩ := attach_entries hattach
        have hnewLength := hlength more new hnew
        rw [hextra', entries, entries, entriesOf, ← setFirst_append (by rw [hfirst]; exact List.cons_ne_nil _ _)]
        simp only [List.length_append]
        omega
  | .inner [], hwf => exact absurd rfl hwf.1

theorem WellFormed.entries_ne_nil {node : Node} (h : node.WellFormed) : node.entries ≠ [] := by
  obtain ⟨key, value, rest, -, hentries⟩ := first_entry h
  rw [hentries]
  exact List.cons_ne_nil _ _

theorem StartsAbove.entries {node : Node} {key : Str} (h : node.StartsAbove key) (hwf : node.WellFormed) :
    ∃ first value rest, node.getKey 0 = some first ∧ node.entries = (first, value) :: rest ∧ key ≤ first := by
  obtain ⟨first, value, rest, hfirst, hentries⟩ := first_entry hwf
  obtain ⟨first', hfirst', hle⟩ := h
  rw [hfirst, Option.some.injEq] at hfirst'
  exact ⟨first, value, rest, hfirst, hentries, hfirst' ▸ hle⟩

/-- The entries that an insertion should lead to are in order. -/
theorem sorted_target {node : Node} {after : List Node} (hwf : WellFormedAll (node :: after)) {key : Str}
    (value : Str) (habove : node.StartsAbove key) : Sorted (setFirst key value node.entries ++ entriesOf after) := by
  have hsorted := WellFormedAll.sorted hwf
  obtain ⟨first, old, rest, -, hentries, hle⟩ := habove.entries hwf.1
  rw [entriesOf, hentries, List.cons_append] at hsorted
  rw [setFirst_append hwf.1.entries_ne_nil, hentries, List.cons_append]
  exact sorted_setFirst hsorted hle

/-- The insertion into a child succeeds, and leads to the right entries in well-formed nodes. -/
def Fits (junk : Nat → InsertResult) (key value : Str) (depth : Nat) (node : Node) (after : List Node) : Prop :=
  ∃ inserted children, node.insert junk key value (depth + 1) (junk depth) = .ok inserted ∧
    attach inserted.node inserted.result after = .ok children ∧ WellFormedAll children ∧
    entriesOf children = setFirst key value node.entries ++ entriesOf after

theorem fits_leaf_iff {junk : Nat → InsertResult} {key : Str} (value : Str) {depth : Nat} {node : Leaf}
    {after : List Node} (hwf : WellFormedAll (.leaf node :: after)) (habove : (Node.leaf node).StartsAbove key) :
    Fits junk key value depth (.leaf node) after ↔ Takes junk depth (.leaf node) after := by
  have hnode : node.WellFormed := hwf.1
  have hafter : ∀ child ∈ after, child.WellFormed := wellFormedAll_mem hwf.2.2
  have htarget := sorted_target hwf value habove
  obtain ⟨node', hwf', hcases⟩ := @insert_leaf junk key value (depth + 1) (junk depth) node hnode
    (habove.leaf hnode.pos)
  rcases hcases with ⟨hroom, hentries, heq⟩ | ⟨hfull, sibling, hsibling, hentries, heq⟩
  · rw [Takes, if_neg hroom]
    constructor
    · rintro ⟨inserted, children, hinsert, hattach, hgood, hall⟩
      cases heq.symm.trans hinsert
      rcases attach_eq_ok hattach with ⟨hsplit, -⟩ | ⟨sibling, -, -, rfl⟩
      · exact hsplit
      · -- a stray sibling would bring entries with it
        rw [entriesOf_append, entriesOf, entries, entries, hentries] at hall
        have hnone : sibling.entries = [] := by simpa [entriesOf] using hall
        exact absurd hnone (wellFormedAll_mem hgood sibling (by simp)).entries_ne_nil
    · intro hsplit
      refine ⟨_, .leaf node' :: after, heq, by simp [attach, hsplit], wellFormedAll_iff.mpr ⟨?_, ?_⟩, ?_⟩
      · intro child hchild
        rcases List.mem_cons.mp hchild with rfl | hmem
        · exact hwf'
        · exact hafter child hmem
      · rw [entriesOf, entries, hentries]
        exact htarget
      · rw [entriesOf, entries, entries, hentries]
  · rw [Takes, if_pos hfull]
    constructor
    · rintro ⟨inserted, children, hinsert, hattach, hgood, hall⟩
      cases heq.symm.trans hinsert
      have hchildren : children = .leaf node' :: after ++ [.leaf sibling] := (Except.ok.inj hattach).symm
      subst hchildren
      rw [entriesOf_append, entriesOf, entries, entries, ← hentries, List.append_assoc, List.append_assoc,
        List.append_cancel_left_eq] at hall
      have hall : entriesOf after ++ sibling.entries = sibling.entries ++ entriesOf after := by
        simpa [entriesOf, entries] using hall
      cases after with
      | nil => rfl
      | cons next more =>
          -- the first entry of the sibling would stand before and behind the children that follow
          exfalso
          obtain ⟨key₁, value₁, rest₁, -, hnext⟩ := first_entry (hafter next List.mem_cons_self)
          have hsib := Leaf.entries_of_pos sibling hsibling.pos
          have hsame : (key₁, value₁) = (sibling.keys 0, sibling.values 0) := by
            rw [entriesOf, hnext, hsib] at hall
            exact (List.cons.inj hall).1
          have hsorted := WellFormedAll.sorted hgood
          rw [entriesOf_append] at hsorted
          have hlt := (List.pairwise_append.mp hsorted).2.2 (key₁, value₁)
            (by simp [entriesOf, hnext]) (sibling.keys 0, sibling.values 0) (by simp [entriesOf, entries, hsib])
          rw [hsame] at hlt
          exact lt_irrefl _ hlt
    · rintro rfl
      refine ⟨_, [.leaf node', .leaf sibling], heq, rfl, wellFormedAll_iff.mpr ⟨?_, ?_⟩, ?_⟩
      · intro child hchild
        rcases List.mem_cons.mp hchild with rfl | hmem
        · exact hwf'
        · rw [List.mem_singleton.mp hmem]
          exact hsibling
      · rw [entries, ← hentries] at htarget
        simpa [entriesOf, entries] using htarget
      · rw [entries, ← hentries]
        simp [entriesOf, entries]

/-- **When a child takes in a key** that is not above its first one. -/
theorem fits_iff_takes {junk : Nat → InsertResult} {key : Str} (value : Str) {depth : Nat} {node : Node}
    {after : List Node} (hwf : WellFormedAll (node :: after)) (habove : node.StartsAbove key) :
    Fits junk key value depth node after ↔ Takes junk depth node after := by
  match node, hwf, habove with
  | .leaf node, hwf, habove => exact fits_leaf_iff value hwf habove
  | .inner [], hwf, _ => exact absurd rfl hwf.1.1
  | .inner (child :: more), hwf, habove =>
      have hinner : WellFormedAll (child :: more) := hwf.1.2
      have hbelow := @fits_iff_takes junk key value (depth + 1) child more hinner habove.child
      have htarget : setFirst key value (Node.inner (child :: more)).entries =
          setFirst key value child.entries ++ entriesOf more := by
        rw [entries, entriesOf, setFirst_append hinner.1.entries_ne_nil]
      rw [Takes]
      constructor
      · rintro ⟨inserted, children, hinsert, hattach, hgood, hall⟩
        obtain ⟨hlen, inner, new, hchild, hnew, rfl⟩ := insert_first_child habove.child hinsert
        rcases attach_eq_ok hattach with ⟨hsplit, rfl⟩ | ⟨sibling, -, -, rfl⟩
        · rw [entriesOf, htarget, List.append_cancel_right_eq] at hall
          exact ⟨hsplit, hlen, hbelow.mp ⟨inner, new, hchild, hnew, hgood.1.2, hall⟩⟩
        · -- a stray sibling would bring entries with it, and none is lost below
          exfalso
          have hlength := (insert_keeps hinner.1 habove.child hchild).2 more new hnew
          have hstray := (wellFormedAll_mem hgood sibling (by simp)).entries_ne_nil
          have hcount := congrArg List.length hall
          rw [htarget, entriesOf_append, entriesOf, entries] at hcount
          simp only [entriesOf, List.append_nil, List.length_append] at hcount
          exact hstray (List.length_eq_zero_iff.mp (by omega))
      · rintro ⟨hsplit, hlen, htakes⟩
        obtain ⟨inner, new, hchild, hnew, hgood, hall⟩ := hbelow.mpr htakes
        have hinsert := @insert_inner junk key value (depth + 1) (junk depth) [] more child
          (getInsertPosition_first habove.child) hlen
        rw [hchild] at hinsert
        refine ⟨⟨.inner new, junk depth, none⟩, .inner new :: after, ?_, by simp [attach, hsplit],
          wellFormedAll_iff.mpr ⟨?_, ?_⟩, ?_⟩
        · refine hinsert.trans ?_
          simp only [bind, Except.bind, hnew]
          rfl
        · intro found hfound
          rcases List.mem_cons.mp hfound with rfl | hmem
          · refine ⟨?_, hgood⟩
            rintro rfl
            rcases attach_eq_ok hnew with ⟨-, hnil⟩ | ⟨_, -, -, hnil⟩ <;> cases hnil
          · exact wellFormedAll_mem hwf.2.2 found hmem
        · rw [entriesOf, entries, hall, ← htarget]
          exact sorted_target hwf value habove
        · rw [entriesOf, entries, hall, htarget]

/-! ### Insertion into an inner node -/

theorem StartsAbove.not_below {node : Node} {key : Str} (h : node.StartsAbove key) : ¬node.StartsBelow key := by
  rintro ⟨first, hfirst, hlt⟩
  obtain ⟨first', hfirst', hle⟩ := h
  rw [hfirst, Option.some.injEq] at hfirst'
  subst hfirst'
  exact absurd hlt (not_lt.mpr hle)

/-- Children that start below a key and one that does not mark the position of the key. -/
theorem getInsertPosition_eq {before after : List Node} {child : Node} {key : Str}
    (hwf : ∀ node ∈ before ++ child :: after, node.WellFormed) (hbefore : ∀ node ∈ before, node.StartsBelow key)
    (habove : child.StartsAbove key) :
    getInsertPosition (firstKeyAt (before ++ child :: after)) (before ++ child :: after).length key =
      .ok before.length := by
  obtain ⟨before', after', hsplit, hpos, hbelow', habove'⟩ := getInsertPosition_spec key hwf
  suffices before' = before by rw [hpos, this]
  rcases List.append_eq_append_iff.mp hsplit with ⟨more, hmore, hrest⟩ | ⟨more, hmore, hrest⟩
  · cases more with
    | nil => rw [hmore, List.append_nil]
    | cons first more =>
        rw [List.cons_append, List.cons.injEq] at hrest
        have hfirst := hbelow' first (by rw [hmore]; simp)
        rw [← hrest.1] at hfirst
        exact absurd hfirst habove.not_below
  · cases more with
    | nil => rw [hmore, List.append_nil]
    | cons first more =>
        have hfirst := habove' first (by rw [hrest]; rfl)
        exact absurd (hbefore first (by rw [hmore]; simp)) hfirst.not_below

/-- What `Insert` on an inner node should do, whatever `*result` held before: it returns, `*result`
tells whether the node was split and into what, the node and its sibling are well formed, and their
entries are the old ones updated. -/
def InsertCorrect (junk : Nat → InsertResult) (key value : Str) (result : InsertResult) (children : List Node) : Prop :=
  ∃ inserted, (Node.inner children).insert junk key value 0 result = .ok inserted ∧
    inserted.result.split = inserted.produced.isSome ∧
    (∀ sibling ∈ inserted.produced, inserted.result.sibling = some sibling) ∧
    WellFormedAll (inserted.node :: inserted.produced.toList) ∧
    ∀ other, (entriesOf (inserted.node :: inserted.produced.toList)).lookup other =
      if other = key then some value else (entriesOf children).lookup other

/-- When `Insert` on an inner node does that. -/
def InsertCond (junk : Nat → InsertResult) (key : Str) (result : InsertResult) (children : List Node) : Prop :=
  result.split = false ∧ children.length < kMaxInnerNodeEntries ∧
    ∃ before child after, children = before ++ child :: after ∧ (∀ entry ∈ entriesOf before, entry.1 < key) ∧
      child.StartsAbove key ∧ Takes junk 0 child after

/-- The entries an insertion should lead to, with the children before the one it goes to. -/
theorem sorted_update {before after : List Node} {child : Node} (hwf : WellFormedAll (before ++ child :: after))
    {key : Str} (value : Str) (hbefore : ∀ entry ∈ entriesOf before, entry.1 < key) (habove : child.StartsAbove key) :
    Sorted (entriesOf before ++ (setFirst key value child.entries ++ entriesOf after)) := by
  have hsorted := WellFormedAll.sorted hwf
  rw [entriesOf_append] at hsorted
  obtain ⟨hleft, -, hcross⟩ := List.pairwise_append.mp hsorted
  have htail := (wellFormedAll_append hwf).2
  refine List.pairwise_append.mpr ⟨hleft, sorted_target htail value habove, fun entry hentry other hother => ?_⟩
  rw [setFirst_append htail.1.entries_ne_nil] at hother
  obtain ⟨rest, hset, hold⟩ := setFirst_eq_cons key value (child.entries ++ entriesOf after)
  rw [hset] at hother
  rcases List.mem_cons.mp hother with rfl | hmem
  · exact hbefore entry hentry
  · exact hcross entry hentry other (hold other hmem)

theorem lookup_update {before after : List Node} {child : Node} (hchild : child.entries ≠ []) {key : Str}
    (value : Str) (hbefore : ∀ entry ∈ entriesOf before, entry.1 < key) (other : Str) :
    (entriesOf before ++ (setFirst key value child.entries ++ entriesOf after)).lookup other =
      if other = key then some value else (entriesOf (before ++ child :: after)).lookup other := by
  rw [setFirst_append hchild, List.lookup_append, lookup_setFirst, entriesOf_append, entriesOf]
  split
  · next heq =>
    subst heq
    rw [List.lookup_eq_none_iff.mpr]
    · rfl
    · intro entry hentry
      simpa using (hbefore entry hentry).ne'
  · simp only [List.lookup_append]

/-- **Insertion.** -/
theorem insertCorrect_iff (junk : Nat → InsertResult) (key value : Str) (result : InsertResult)
    (children : List Node) (hwf : (Node.inner children).WellFormed) :
    InsertCorrect junk key value result children ↔ InsertCond junk key result children := by
  have hall := wellFormedAll_mem hwf.2
  constructor
  · rintro ⟨inserted, hinsert, hsplit, -, hgood, hlookup⟩
    obtain ⟨before, tail, rfl, hpos, -, habove⟩ := getInsertPosition_spec key hall
    cases tail with
    | nil =>
        rw [List.append_nil] at hinsert hpos
        exact absurd hinsert (insert_inner_end hpos inserted)
    | cons child after =>
        have habove := habove child rfl
        by_cases hlen : (before ++ child :: after).length < kMaxInnerNodeEntries
        swap
        · exact absurd hinsert (insert_inner_full hlen inserted)
        rw [insert_inner hpos hlen] at hinsert
        obtain ⟨below, hbelow, hinsert⟩ := bind_eq_ok hinsert
        obtain ⟨new, hnew, hinsert⟩ := bind_eq_ok hinsert
        cases hinsert
        have hwfChild := hall child (by simp)
        have hnewAll : WellFormedAll (before ++ new) := hgood.1.2
        have hlookup : ∀ other, (entriesOf (before ++ new)).lookup other =
            if other = key then some value else (entriesOf (before ++ child :: after)).lookup other := by
          intro other
          have hother := hlookup other
          simpa [entriesOf, entries] using hother
        have hsorted := WellFormedAll.sorted hnewAll
        rw [entriesOf_append] at hsorted hlookup
        obtain ⟨-, -, hcross⟩ := List.pairwise_append.mp hsorted
        obtain ⟨⟨rest, hhead⟩, -⟩ := insert_keeps hwfChild habove hbelow
        obtain ⟨more, hmore⟩ := attach_entries hnew
        have hbefore : ∀ entry ∈ entriesOf before, entry.1 < key := fun entry hentry =>
          hcross entry hentry (key, value) (by rw [hmore, hhead]; simp)
        have hentries := eq_of_lookup hsorted (sorted_update hwf.2 value hbefore habove) fun other => by
          rw [hlookup, lookup_update hwfChild.entries_ne_nil value hbefore]
        rw [List.append_cancel_left_eq] at hentries
        have htail := (wellFormedAll_append hwf.2).2
        refine ⟨hsplit, hlen, before, child, after, rfl, hbefore, habove, (fits_iff_takes value htail habove).mp ?_⟩
        exact ⟨below, new, hbelow, hnew, (wellFormedAll_append hnewAll).2, hentries⟩
  · rintro ⟨hsplit, hlen, before, child, after, rfl, hbefore, habove, htakes⟩
    have hwfChild := hall child (by simp)
    obtain ⟨hleft, htail⟩ := wellFormedAll_append hwf.2
    obtain ⟨below, new, hbelow, hnew, hgood, hentries⟩ := (fits_iff_takes value htail habove).mpr htakes
    have hpos := getInsertPosition_eq hall (startsBelow_of_entries (wellFormedAll_mem hleft) hbefore) habove
    refine ⟨⟨.inner (before ++ new), result, none⟩, ?_, hsplit, nofun, ⟨⟨?_, ?_⟩, trivial, trivial⟩, fun other => ?_⟩
    · rw [insert_inner hpos hlen, hbelow]
      simp only [bind, Except.bind, hnew]
      rfl
    · rcases attach_eq_ok hnew with ⟨-, rfl⟩ | ⟨_, -, -, rfl⟩ <;> simp
    · refine wellFormedAll_iff.mpr ⟨fun node hnode => ?_, ?_⟩
      · rcases List.mem_append.mp hnode with hmem | hmem
        · exact wellFormedAll_mem hleft node hmem
        · exact wellFormedAll_mem hgood node hmem
      · rw [entriesOf_append, hentries]
        exact sorted_update hwf.2 value hbefore habove
    · rw [← lookup_update hwfChild.entries_ne_nil value hbefore other, ← hentries, ← entriesOf_append]
      simp [entriesOf, entries]

/-! ### Lookup in an inner node -/

/-- What `Get` on an inner node should do. -/
def GetCorrect (key : Str) (children : List Node) : Prop :=
  (Node.inner children).get key = .ok ((entriesOf children).lookup key)

/-- When it does that: some child does not start below the key, and a key that is there is the first
one of a child. -/
def GetCond (key : Str) (children : List Node) : Prop :=
  (∃ child ∈ children, child.StartsAbove key) ∧
    ∀ entry ∈ entriesOf children, entry.1 = key → ∃ child ∈ children, child.getKey 0 = some key

/-- A key that is not above the first one of a child is not further right. -/
theorem lookup_child {child : Node} {after : List Node} (hwf : WellFormedAll (child :: after)) {key : Str}
    (habove : child.StartsAbove key) : (entriesOf (child :: after)).lookup key = child.entries.lookup key := by
  have hsorted := WellFormedAll.sorted hwf
  have hown := hwf.1.sorted
  obtain ⟨first, value, rest, -, hentries, hle⟩ := habove.entries hwf.1
  rw [entriesOf, hentries, List.cons_append] at hsorted
  rw [hentries] at hown
  rw [entriesOf, hentries, List.cons_append, lookup_first hsorted hle, lookup_first hown hle]

/-- A key that is not above the first one is looked up correctly. -/
theorem get_first {node : Node} (hwf : node.WellFormed) {key : Str} (habove : node.StartsAbove key) :
    node.get key = .ok (node.entries.lookup key) := by
  match node, hwf, habove with
  | .leaf node, hwf, habove =>
      have hnode : node.WellFormed := hwf
      have hle := habove.leaf hnode.pos
      exact hnode.ordered.get (Or.inr (hnode.not_stale hle))
  | .inner [], hwf, _ => exact absurd rfl hwf.1
  | .inner (child :: more), hwf, habove =>
      rw [get, if_neg (by simp), getInsertPosition_first habove.child, entries, lookup_child hwf.2 habove.child]
      exact get_first hwf.2.1 habove.child

/-- The lookup goes to a child that starts above the key; it is right unless the key is under a child before. -/
theorem getAt_correct_iff {key : Str} {before after : List Node} {child : Node}
    (hwf : WellFormedAll (before ++ child :: after)) (habove : child.StartsAbove key) :
    getAt key (before ++ child :: after) before.length =
        .ok ((entriesOf (before ++ child :: after)).lookup key) ↔ (entriesOf before).lookup key = none := by
  have hsorted := WellFormedAll.sorted hwf
  have htail := (wellFormedAll_append hwf).2
  rw [entriesOf_append] at hsorted
  obtain ⟨-, -, hcross⟩ := List.pairwise_append.mp hsorted
  rw [getAt_append, get_first htail.1 habove, entriesOf_append, List.lookup_append, lookup_child htail habove,
    Except.ok.injEq]
  constructor
  · intro heq
    by_contra hfound
    obtain ⟨value, hvalue⟩ := Option.ne_none_iff_exists'.mp hfound
    rw [hvalue, Option.some_or, ← lookup_child htail habove] at heq
    obtain ⟨entry, hentry, hkey⟩ := lookup_ne_none.mp hfound
    obtain ⟨other, hother, hkey'⟩ := lookup_ne_none.mp (by rw [heq]; exact Option.some_ne_none value)
    have hlt := hcross entry hentry other hother
    rw [hkey, hkey'] at hlt
    exact lt_irrefl _ hlt
  · intro hnone
    rw [hnone, Option.none_or]

/-- A key from a child on that starts above it is the first key of that child. -/
theorem first_of_mem_tail {key : Str} {child : Node} {after : List Node} (hwf : WellFormedAll (child :: after))
    (habove : child.StartsAbove key) {entry : Str × Str} (hentry : entry ∈ entriesOf (child :: after))
    (hkey : entry.1 = key) : child.getKey 0 = some key := by
  have hfound := lookup_ne_none.mpr ⟨entry, hentry, hkey⟩
  obtain ⟨first, value, rest, hfirst, hentries, hle⟩ := habove.entries hwf.1
  have hown := hwf.1.sorted
  rw [hentries] at hown
  rw [lookup_child hwf habove, hentries, lookup_first hown hle] at hfound
  have hsame : first = key := by
    by_contra hne
    exact hfound (if_neg hne)
  rw [hfirst, hsame]

/-- **Lookup.** -/
theorem getCorrect_iff (key : Str) (children : List Node) (hwf : (Node.inner children).WellFormed) :
    GetCorrect key children ↔ GetCond key children := by
  have hall := wellFormedAll_mem hwf.2
  have hsorted := WellFormedAll.sorted hwf.2
  obtain ⟨before, tail, rfl, hpos, hbelow, habove⟩ := getInsertPosition_spec key hall
  have hlen : (before ++ tail).length ≠ 0 := fun hzero => hwf.1 (List.length_eq_zero_iff.mp hzero)
  unfold GetCorrect GetCond
  rw [get, if_neg hlen, hpos]
  cases tail with
  | nil =>
      -- every child starts below the key
      rw [List.append_nil] at hall ⊢
      constructor
      · intro h
        have hbad : getAt key before before.length = .ok ((entriesOf before).lookup key) := h
        rw [getAt_end] at hbad
        cases hbad
      · rintro ⟨⟨child, hchild, hstart⟩, -⟩
        exact absurd (hbelow child hchild) hstart.not_below
  | cons child after =>
      -- both sides say that the key is not below a child that starts below it
      have habove := habove child rfl
      have htail := (wellFormedAll_append hwf.2).2
      rw [entriesOf_append] at hsorted
      obtain ⟨-, -, hcross⟩ := List.pairwise_append.mp hsorted
      refine (getAt_correct_iff hwf.2 habove).trans ⟨?_, ?_⟩
      · intro hnone
        refine ⟨⟨child, by simp, habove⟩, fun entry hentry hkey => ?_⟩
        rw [entriesOf_append] at hentry
        rcases List.mem_append.mp hentry with hmem | hmem
        · exact absurd hnone (lookup_ne_none.mpr ⟨entry, hmem, hkey⟩)
        · exact ⟨child, by simp, first_of_mem_tail htail habove hmem hkey⟩
      · rintro ⟨-, hcond⟩
        by_contra hfound
        obtain ⟨entry, hentry, hkey⟩ := lookup_ne_none.mp hfound
        obtain ⟨found, hmem, hfirst⟩ :=
          hcond entry (by rw [entriesOf_append]; exact List.mem_append_left _ hentry) hkey
        rcases List.mem_append.mp hmem with hleft | hright
        · obtain ⟨first, hfirst', hlt⟩ := hbelow found hleft
          rw [hfirst, Option.some.injEq] at hfirst'
          exact lt_irrefl _ (hfirst' ▸ hlt)
        · obtain ⟨first, value, rest, hfirst', hentries⟩ := first_entry (hall found (List.mem_append_right _ hright))
          rw [hfirst, Option.some.injEq] at hfirst'
          have hlt := hcross entry hentry (first, value) (mem_entriesOf.mpr ⟨found, hright, by rw [hentries]; simp⟩)
          rw [hkey, hfirst'] at hlt
          exact lt_irrefl _ hlt

end Node

/-- **Inner nodes.** On a well-formed inner node `Insert` and `Get` do what they should exactly under
these conditions on the node, the key and the uninitialised results. -/
theorem inner_node_correct_iff (junk : Nat → InsertResult) (key value : Str) (result : InsertResult)
    (children : List Node) (hwf : (Node.inner children).WellFormed) :
    (Node.InsertCorrect junk key value result children ↔ Node.InsertCond junk key result children) ∧
      (Node.GetCorrect key children ↔ Node.GetCond key children) :=
  ⟨Node.insertCorrect_iff junk key value result children hwf, Node.getCorrect_iff key children hwf⟩

/-- A leaf with one entry. -/
def leafOf (key value : Str) : Leaf := ⟨1, Function.update (fun _ => []) 0 key, Function.update (fun _ => []) 0 value⟩

theorem leafOf_wellFormed (key value : Str) : (Node.leaf (leafOf key value)).WellFormed :=
  ⟨Nat.one_pos, (by decide : 1 ≤ kMaxLeafNodeEntries), List.pairwise_singleton _ _⟩

/-- A leaf with the one entry `("b", "0")`. -/
def oneEntryLeaf : Leaf := leafOf [98] [48]

/-- Both ask for the child behind the last one when the key is above its first key. -/
theorem inner_node_incorrect : (Node.inner [.leaf oneEntryLeaf]).WellFormed ∧
    ¬Node.InsertCorrect (fun _ => ⟨false, none⟩) [99] [49] ⟨false, none⟩ [.leaf oneEntryLeaf] ∧
    ¬Node.GetCorrect [99] [.leaf oneEntryLeaf] := by
  refine ⟨⟨List.cons_ne_nil _ _, leafOf_wellFormed _ _, trivial, trivial⟩, ?_, ?_⟩
  · rintro ⟨inserted, hinsert, -⟩
    have hfault : (Node.inner [.leaf oneEntryLeaf]).insert (fun _ => ⟨false, none⟩) [99] [49] 0 ⟨false, none⟩ =
        .error .badSlot := rfl
    rw [hfault] at hinsert
    cases hinsert
  · intro hget
    have hfault : (Node.inner [.leaf oneEntryLeaf]).get [99] = .error .badSlot := rfl
    rw [Node.GetCorrect, hfault] at hget
    cases hget

/-- An inner node with two leaves, and a leaf beside it. -/
def twoLevels : List Node :=
  [.inner [.leaf (leafOf [98] [48]), .leaf (leafOf [100] [49])], .leaf (leafOf [102] [50])]

theorem twoLevels_wellFormed : (Node.inner twoLevels).WellFormed := by
  have hleaves : (Node.leaf (leafOf [98] [48])).Precedes [.leaf (leafOf [100] [49])] := by
    intro entry hentry entry' hentry'
    rw [List.mem_singleton.mp hentry, List.mem_singleton.mp hentry']
    decide
  have hbeside : (Node.inner [.leaf (leafOf [98] [48]), .leaf (leafOf [100] [49])]).Precedes
      [.leaf (leafOf [102] [50])] := by
    intro entry hentry entry' hentry'
    rw [List.mem_singleton.mp hentry']
    rcases List.mem_cons.mp hentry with rfl | hentry
    · decide
    · rw [List.mem_singleton.mp hentry]
      decide
  exact ⟨List.cons_ne_nil _ _,
    ⟨List.cons_ne_nil _ _, leafOf_wellFormed _ _, hleaves, leafOf_wellFormed _ _, trivial, trivial⟩,
    hbeside, leafOf_wellFormed _ _, trivial, trivial⟩

/-- `"a"` is inserted into the first leaf below the inner node, and `"f"` is found in the last leaf. -/
theorem inner_node_correct_iff_before :
    Node.InsertCorrect (fun _ => ⟨false, none⟩) [97] [51] ⟨false, none⟩ twoLevels ∧
      Node.GetCorrect [102] twoLevels := by
  have hsound := fun key =>
    inner_node_correct_iff (fun _ => ⟨false, none⟩) key [51] ⟨false, none⟩ twoLevels twoLevels_wellFormed
  constructor
  · refine (hsound [97]).1.mpr ⟨rfl, by decide, [], _, _, rfl, fun entry hnil => absurd hnil List.not_mem_nil,
      ⟨[98], rfl, by decide⟩, ?_⟩
    rw [Node.Takes, Node.Takes, if_neg (by decide)]
    exact ⟨rfl, by decide, rfl⟩
  · refine (hsound [102]).2.mpr ⟨⟨.leaf (leafOf [102] [50]), ?_, [102], rfl, by decide⟩, fun entry _ _ => ?_⟩
    · exact List.mem_cons_of_mem _ List.mem_cons_self
    · exact ⟨.leaf (leafOf [102] [50]), List.mem_cons_of_mem _ List.mem_cons_self, rfl⟩

end Thebends.Ydb
