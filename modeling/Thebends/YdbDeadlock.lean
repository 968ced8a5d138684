import Thebends.YdbLock
import Thebends.LibRun

/-! The dependency tables of the ydb scheduler (`Ydb_DeadlockTree` in `ydb_sched.h` and
`ydb_sched.cpp`). `IsBlockedBy` calls itself with its arguments exchanged, so it may run for ever;
its model has a bound on the depth of the recursion and no result when the bound is too small. -/

namespace Thebends.Ydb

open Relation

/-- `DeadlockTable`, from a transaction to a list of transactions. -/
abbrev DeadlockTable := Trans → Option (List Trans)

namespace DeadlockTable

/-- The list of a transaction, empty when it has none. -/
def list (table : DeadlockTable) (trans : Trans) : List Trans := (table trans).getD []

/-- `push_back` on the list of a transaction, which is created when it is missing. -/
def pushBack (table : DeadlockTable) (trans item : Trans) : DeadlockTable :=
  Function.update table trans (some (table.list trans ++ [item]))

/-- `IsBlockedBy`'s loop over a list, `again` being the recursive call on an element. -/
def scan (again : Trans → Option Bool) (newTrans : Trans) : List Trans → Option Bool
  | [] => some false
  | other :: rest =>
      if other = newTrans then some true
      else match again other with
        | none => none
        | some true => some true
        | some false => scan again newTrans rest

/-- `IsBlockedBy(existing, new_trans)` on the table `blocked_by_`. -/
def isBlockedBy : Nat → DeadlockTable → Trans → Trans → Option Bool
  | 0, _, _, _ => none
  | fuel + 1, blockedBy, existing, newTrans =>
      match blockedBy existing with
      | none => some false
      | some list => scan (fun trans => isBlockedBy fuel blockedBy newTrans trans) newTrans list

/-- The loop of `Remove` over `blocks_[trans]`: one `trans` is erased from the list of each element,
which the assertion wants to exist. -/
def removeFrom (trans : Trans) : DeadlockTable → List Trans → Option DeadlockTable
  | blockedBy, [] => some blockedBy
  | blockedBy, other :: rest =>
      match blockedBy other with
      | none => none
      | some list => removeFrom trans (Function.update blockedBy other (some (list.erase trans))) rest

/-- The edges of a table: `Edge x y` when `y` is in the list of `x`. -/
def Edge (table : DeadlockTable) (source target : Trans) : Prop := target ∈ table.list source

@[simp] theorem list_update_self (table : DeadlockTable) (trans : Trans) (items : List Trans) :
    list (Function.update table trans (some items)) trans = items := by
  simp [list]

theorem list_update_of_ne (table : DeadlockTable) {trans other : Trans} (entry : Option (List Trans))
    (h : other ≠ trans) : list (Function.update table trans entry) other = table.list other := by
  simp [list, h]

theorem list_pushBack_self (table : DeadlockTable) (trans item : Trans) :
    (table.pushBack trans item).list trans = table.list trans ++ [item] := by
  simp [pushBack]

theorem list_pushBack_of_ne (table : DeadlockTable) {trans other : Trans} (item : Trans) (h : other ≠ trans) :
    (table.pushBack trans item).list other = table.list other :=
  list_update_of_ne table _ h

theorem scan_true {again : Trans → Option Bool} {newTrans : Trans} {items : List Trans}
    (h : scan again newTrans items = some true) :
    newTrans ∈ items ∨ ∃ trans ∈ items, again trans = some true := by
  induction items with
  | nil => cases h
  | cons trans rest ih =>
      rw [scan] at h
      split at h
      · next heq => exact Or.inl (heq ▸ List.mem_cons_self)
      · split at h
        · cases h
        · next hagain => exact Or.inr ⟨trans, List.mem_cons_self, hagain⟩
        · rcases ih h with hmem | ⟨other, hmem, hagain⟩
          · exact Or.inl (List.mem_cons_of_mem _ hmem)
          · exact Or.inr ⟨other, List.mem_cons_of_mem _ hmem, hagain⟩

theorem scan_false {again : Trans → Option Bool} {newTrans : Trans} {items : List Trans}
    (h : scan again newTrans items = some false) : newTrans ∉ items := by
  induction items with
  | nil => exact List.not_mem_nil
  | cons trans rest ih =>
      rw [scan] at h
      split at h
      · cases h
      · next hne =>
        split at h
        · cases h
        · cases h
        · exact List.not_mem_cons_of_ne_of_not_mem (Ne.symm hne) (ih h)

/-- **What a positive answer means.** The search walks from both of its arguments in turn, so it only
shows that `existing` is blocked, directly or not, by `newTrans` itself or by a transaction that
blocks `newTrans` too. -/
theorem isBlockedBy_true {blockedBy : DeadlockTable} :
    ∀ {fuel : Nat} {existing newTrans : Trans}, isBlockedBy fuel blockedBy existing newTrans = some true →
      ∃ meeting, TransGen blockedBy.Edge existing meeting ∧ ReflTransGen blockedBy.Edge newTrans meeting := by
  intro fuel
  induction fuel with
  | zero => intro existing newTrans h; cases h
  | succ fuel ih =>
      intro existing newTrans h
      rw [isBlockedBy] at h
      split at h
      · cases h
      · next items hlist =>
        have hedge : ∀ trans ∈ items, blockedBy.Edge existing trans := by
          intro trans htrans
          simpa [Edge, list, hlist] using htrans
        rcases scan_true h with hmem | ⟨trans, hmem, hagain⟩
        · exact ⟨newTrans, .single (hedge _ hmem), .refl⟩
        · obtain ⟨meeting, hnew, htrans⟩ := ih hagain
          exact ⟨meeting, TransGen.head' (hedge _ hmem) htrans, hnew.to_reflTransGen⟩

/-- A negative answer excludes the direct dependency. -/
theorem isBlockedBy_false {blockedBy : DeadlockTable} {fuel : Nat} {existing newTrans : Trans}
    (h : isBlockedBy fuel blockedBy existing newTrans = some false) : ¬blockedBy.Edge existing newTrans := by
  cases fuel with
  | zero => cases h
  | succ fuel =>
      rw [isBlockedBy] at h
      split at h
      · next hnone => simp [Edge, list, hnone]
      · next items hlist => simpa [Edge, list, hlist] using scan_false h

/-- What the loop of `Remove` leaves of the lists. -/
theorem removeFrom_spec (trans : Trans) {items : List Trans} {blockedBy : DeadlockTable}
    (h : ∀ other ∈ items, blockedBy other ≠ none) :
    ∃ blockedBy', removeFrom trans blockedBy items = some blockedBy' ∧
      ∀ source target, (blockedBy'.list source).count target =
        (blockedBy.list source).count target - if target = trans then items.count source else 0 := by
  induction items generalizing blockedBy with
  | nil => exact ⟨blockedBy, rfl, by simp⟩
  | cons other rest ih =>
      obtain ⟨items, hitems⟩ := Option.ne_none_iff_exists'.mp (h other List.mem_cons_self)
      have hrest : ∀ next ∈ rest,
          Function.update blockedBy other (some (items.erase trans)) next ≠ none := by
        intro next hnext
        by_cases heq : next = other
        · subst heq
          simp
        · rw [Function.update_of_ne heq]
          exact h next (List.mem_cons_of_mem _ hnext)
      obtain ⟨blockedBy', hremove, hcount⟩ := ih hrest
      refine ⟨blockedBy', ?_, ?_⟩
      · rw [removeFrom, hitems]
        exact hremove
      · intro source target
        rw [hcount]
        by_cases hs : source = other
        · subst hs
          have hold : blockedBy.list source = items := by simp [list, hitems]
          rw [list_update_self, hold]
          by_cases ht : target = trans
          · subst ht
            simp only [if_true, List.count_erase_self, List.count_cons_self]
            omega
          · simp [ht, List.count_erase_of_ne ht]
        · rw [list_update_of_ne _ _ hs, List.count_cons_of_ne (Ne.symm hs)]

/-! ### When the search ends -/

theorem scan_mono {again again' : Trans → Option Bool} {newTrans : Trans} {items : List Trans} {verdict : Bool}
    (hle : ∀ trans found, again trans = some found → again' trans = some found)
    (h : scan again newTrans items = some verdict) : scan again' newTrans items = some verdict := by
  induction items with
  | nil => exact h
  | cons trans rest ih =>
      rw [scan] at h ⊢
      split at h
      · next heq => rw [if_pos heq, h]
      · next hne =>
        rw [if_neg hne]
        cases hagain : again trans with
        | none => rw [hagain] at h; cases h
        | some found =>
            rw [hle trans found hagain]
            rw [hagain] at h
            cases found with
            | true => exact h
            | false => exact ih h

theorem isBlockedBy_mono {blockedBy : DeadlockTable} {fuel fuel' : Nat} (hle : fuel ≤ fuel') :
    ∀ {existing newTrans : Trans} {verdict : Bool}, isBlockedBy fuel blockedBy existing newTrans = some verdict →
      isBlockedBy fuel' blockedBy existing newTrans = some verdict := by
  induction fuel generalizing fuel' with
  | zero => intro existing newTrans verdict h; cases h
  | succ fuel ih =>
      intro existing newTrans verdict h
      obtain ⟨fuel', rfl⟩ : ∃ more, fuel' = more + 1 := ⟨fuel' - 1, by omega⟩
      rw [isBlockedBy] at h ⊢
      split at h
      · exact h
      · exact scan_mono (fun trans found hfound => ih (by omega) hfound) h

/-- A search that comes to an answer. -/
def Ends (blockedBy : DeadlockTable) (existing newTrans : Trans) : Prop :=
  ∃ fuel verdict, isBlockedBy fuel blockedBy existing newTrans = some verdict

theorem scan_ends {blockedBy : DeadlockTable} {existing newTrans : Trans} {items : List Trans}
    (h : ∀ trans ∈ items, trans ≠ newTrans → blockedBy.Ends existing trans) :
    ∃ fuel verdict, scan (fun trans => isBlockedBy fuel blockedBy existing trans) newTrans items = some verdict := by
  induction items with
  | nil => exact ⟨0, false, rfl⟩
  | cons trans rest ih =>
      obtain ⟨fuel', verdict', hrest⟩ := ih fun other hother => h other (List.mem_cons_of_mem _ hother)
      by_cases heq : trans = newTrans
      · exact ⟨0, true, by rw [scan, if_pos heq]⟩
      · obtain ⟨fuel, verdict, hsearch⟩ := h trans List.mem_cons_self heq
        refine ⟨max fuel fuel', ?_⟩
        rw [scan, if_neg heq, isBlockedBy_mono (Nat.le_max_left fuel fuel') hsearch]
        cases verdict with
        | true => exact ⟨true, rfl⟩
        | false => exact ⟨verdict', scan_mono (fun _ _ => isBlockedBy_mono (Nat.le_max_right fuel fuel')) hrest⟩

/-- A search ends when the searches that its loop may start do. -/
theorem ends_of_edges {blockedBy : DeadlockTable} {existing newTrans : Trans}
    (h : ∀ trans, blockedBy.Edge existing trans → trans ≠ newTrans → blockedBy.Ends newTrans trans) :
    blockedBy.Ends existing newTrans := by
  cases hlist : blockedBy existing with
  | none => exact ⟨1, false, by rw [isBlockedBy, hlist]⟩
  | some items =>
      have hedge : ∀ trans ∈ items, blockedBy.Edge existing trans := by
        intro trans htrans
        simpa [Edge, list, hlist] using htrans
      obtain ⟨fuel, verdict, hscan⟩ := scan_ends fun trans htrans => h trans (hedge trans htrans)
      exact ⟨fuel + 1, verdict, by rw [isBlockedBy, hlist]; exact hscan⟩

end DeadlockTable

/-- `Ydb_DeadlockTree`. -/
structure DeadlockTree where
  blockedBy : DeadlockTable
  blocks : DeadlockTable

namespace DeadlockTree

def empty : DeadlockTree := ⟨fun _ => none, fun _ => none⟩

/-- The two `push_back`s of `AddDependency`. -/
def link (tree : DeadlockTree) (existing newTrans : Trans) : DeadlockTree :=
  ⟨tree.blockedBy.pushBack newTrans existing, tree.blocks.pushBack existing newTrans⟩

/-- `AddDependency(existing, new_trans)`; no result when the search does not end. -/
def addDependency (fuel : Nat) (tree : DeadlockTree) (existing newTrans : Trans) :
    Option (Bool × DeadlockTree) :=
  match tree.blockedBy.isBlockedBy fuel existing newTrans with
  | none => none
  | some true => some (false, tree)
  | some false => some (true, tree.link existing newTrans)

/-- The loop of `AddOp` over the holders of the requested key; it stops at the first dependency that
is refused. -/
def addDependencies (fuel : Nat) (newTrans : Trans) : DeadlockTree → List Trans → Option (Bool × DeadlockTree)
  | tree, [] => some (true, tree)
  | tree, existing :: rest =>
      match tree.addDependency fuel existing newTrans with
      | none => none
      | some (false, tree') => some (false, tree')
      | some (true, tree') => addDependencies fuel newTrans tree' rest

/-- `Remove(trans)`; no result when its assertion fails. -/
def remove (tree : DeadlockTree) (trans : Trans) : Option DeadlockTree :=
  match tree.blocks trans with
  | none => some tree
  | some list =>
      (tree.blockedBy.removeFrom trans list).map fun blockedBy =>
        ⟨blockedBy, Function.update tree.blocks trans none⟩

/-- `newTrans` linked to each of a list of transactions. -/
def linkAll (newTrans : Trans) (tree : DeadlockTree) (items : List Trans) : DeadlockTree :=
  items.foldl (fun current existing => current.link existing newTrans) tree

theorem list_linkAll_self (newTrans : Trans) (tree : DeadlockTree) (items : List Trans) :
    (tree.linkAll newTrans items).blockedBy.list newTrans = tree.blockedBy.list newTrans ++ items := by
  induction items generalizing tree with
  | nil => simp [linkAll]
  | cons existing rest ih =>
      change ((tree.link existing newTrans).linkAll newTrans rest).blockedBy.list newTrans = _
      rw [ih, link, DeadlockTable.list_pushBack_self, List.append_assoc]
      rfl

theorem list_linkAll_of_ne {newTrans other : Trans} (tree : DeadlockTree) (items : List Trans)
    (h : other ≠ newTrans) :
    (tree.linkAll newTrans items).blockedBy.list other = tree.blockedBy.list other := by
  induction items generalizing tree with
  | nil => rfl
  | cons existing rest ih =>
      change ((tree.link existing newTrans).linkAll newTrans rest).blockedBy.list other = _
      rw [ih, link, DeadlockTable.list_pushBack_of_ne _ _ h]

theorem edge_linkAll {tree : DeadlockTree} {newTrans source target : Trans} (items : List Trans)
    (h : tree.blockedBy.Edge source target) : (tree.linkAll newTrans items).blockedBy.Edge source target := by
  unfold DeadlockTable.Edge at h ⊢
  by_cases heq : source = newTrans
  · subst heq
    rw [list_linkAll_self]
    exact List.mem_append_left _ h
  · rw [list_linkAll_of_ne _ _ heq]
    exact h

/-- A turn of the loop of `AddOp`: the search from the holder succeeds and the loop is over, or it does not, and the
holder is linked. -/
theorem addDependencies_cons_iff {fuel : Nat} {newTrans existing : Trans} {rest : List Trans} {tree : DeadlockTree}
    {result : Bool × DeadlockTree} :
    tree.addDependencies fuel newTrans (existing :: rest) = some result ↔
      (tree.blockedBy.isBlockedBy fuel existing newTrans = some true ∧ result = (false, tree)) ∨
      (tree.blockedBy.isBlockedBy fuel existing newTrans = some false ∧
        (tree.link existing newTrans).addDependencies fuel newTrans rest = some result) := by
  rw [addDependencies, addDependency]
  cases tree.blockedBy.isBlockedBy fuel existing newTrans with
  | none => simp
  | some verdict =>
      cases verdict with
      | true => simp [eq_comm]
      | false => simp

/-- The loop of `AddOp`, accepted: every holder is linked, and none of them was directly blocked by
the new transaction. -/
theorem addDependencies_accepted {fuel : Nat} {newTrans : Trans} {items : List Trans}
    {tree tree' : DeadlockTree} (h : tree.addDependencies fuel newTrans items = some (true, tree')) :
    tree' = tree.linkAll newTrans items ∧ ∀ existing ∈ items, ¬tree.blockedBy.Edge existing newTrans := by
  induction items generalizing tree with
  | nil =>
      simp only [addDependencies, Option.some.injEq, Prod.mk.injEq, true_and] at h
      exact ⟨h.symm, nofun⟩
  | cons existing rest ih =>
      obtain ⟨-, hresult⟩ | ⟨hsearch, hrest⟩ := addDependencies_cons_iff.mp h
      · cases hresult
      · obtain ⟨htree, hfree⟩ := ih hrest
        refine ⟨htree, fun other hother => ?_⟩
        rcases List.mem_cons.mp hother with heq | hmem
        · subst heq
          exact DeadlockTable.isBlockedBy_false hsearch
        · exact fun hedge => hfree other hmem (edge_linkAll [existing] hedge)

/-- The loop of `AddOp`, refused: it has accepted the holders before one, and the search from this one
succeeds. -/
theorem addDependencies_stops {fuel : Nat} {newTrans : Trans} {items : List Trans}
    {tree tree' : DeadlockTree} (h : tree.addDependencies fuel newTrans items = some (false, tree')) :
    ∃ before existing after, items = before ++ existing :: after ∧
      tree.addDependencies fuel newTrans before = some (true, tree') ∧
      tree'.blockedBy.isBlockedBy fuel existing newTrans = some true := by
  induction items generalizing tree with
  | nil => cases h
  | cons existing rest ih =>
      obtain ⟨hsearch, hresult⟩ | ⟨hsearch, hrest⟩ := addDependencies_cons_iff.mp h
      · cases hresult
        exact ⟨[], existing, rest, rfl, rfl, hsearch⟩
      · obtain ⟨before, found, after, hitems, hbefore, hfound⟩ := ih hrest
        exact ⟨existing :: before, found, after, by rw [hitems]; rfl,
          addDependencies_cons_iff.mpr (Or.inr ⟨hsearch, hbefore⟩), hfound⟩

theorem addDependencies_refused {fuel : Nat} {newTrans : Trans} {items : List Trans}
    {tree tree' : DeadlockTree} (h : tree.addDependencies fuel newTrans items = some (false, tree')) :
    ∃ before existing after, items = before ++ existing :: after ∧ tree' = tree.linkAll newTrans before ∧
      tree'.blockedBy.isBlockedBy fuel existing newTrans = some true := by
  obtain ⟨before, existing, after, hitems, hbefore, hfound⟩ := addDependencies_stops h
  exact ⟨before, existing, after, hitems, (addDependencies_accepted hbefore).1, hfound⟩

theorem addDependencies_mono {fuel fuel' : Nat} (hle : fuel ≤ fuel') {newTrans : Trans} {items : List Trans}
    {tree : DeadlockTree} {result : Bool × DeadlockTree}
    (h : tree.addDependencies fuel newTrans items = some result) :
    tree.addDependencies fuel' newTrans items = some result := by
  induction items generalizing tree with
  | nil => exact h
  | cons existing rest ih =>
      apply addDependencies_cons_iff.mpr
      obtain ⟨hsearch, hresult⟩ | ⟨hsearch, hrest⟩ := addDependencies_cons_iff.mp h
      · exact Or.inl ⟨DeadlockTable.isBlockedBy_mono hle hsearch, hresult⟩
      · exact Or.inr ⟨DeadlockTable.isBlockedBy_mono hle hsearch, ih hrest⟩

/-- A holder is linked, and the loop goes on, with bounds of their own. -/
theorem addDependencies_cons_max {fuel fuel' : Nat} {newTrans existing : Trans} {rest : List Trans}
    {tree : DeadlockTree} {result : Bool × DeadlockTree}
    (hsearch : tree.blockedBy.isBlockedBy fuel existing newTrans = some false)
    (hrest : (tree.link existing newTrans).addDependencies fuel' newTrans rest = some result) :
    tree.addDependencies (max fuel fuel') newTrans (existing :: rest) = some result :=
  addDependencies_cons_iff.mpr (Or.inr ⟨DeadlockTable.isBlockedBy_mono (Nat.le_max_left fuel fuel') hsearch,
    addDependencies_mono (Nat.le_max_right fuel fuel') hrest⟩)

/-- `y` is in the list of `x` in `blocked_by_` as often as `x` is in the list of `y` in `blocks_`. -/
def Converse (tree : DeadlockTree) : Prop :=
  ∀ source target, (tree.blockedBy.list source).count target = (tree.blocks.list target).count source

theorem converse_empty : empty.Converse := fun _ _ => rfl

theorem Converse.link {tree : DeadlockTree} (h : tree.Converse) (existing newTrans : Trans) :
    (tree.link existing newTrans).Converse := by
  intro source target
  have hold := h source target
  by_cases hs : source = newTrans
  · subst hs
    by_cases ht : target = existing
    · subst ht
      simp [DeadlockTree.link, DeadlockTable.list_pushBack_self, hold]
    · rw [DeadlockTree.link, DeadlockTable.list_pushBack_self, DeadlockTable.list_pushBack_of_ne _ _ ht]
      simp [List.count_append, Ne.symm ht, hold]
  · by_cases ht : target = existing
    · subst ht
      rw [DeadlockTree.link, DeadlockTable.list_pushBack_self, DeadlockTable.list_pushBack_of_ne _ _ hs]
      simp [List.count_append, Ne.symm hs, hold]
    · rw [DeadlockTree.link, DeadlockTable.list_pushBack_of_ne _ _ hs, DeadlockTable.list_pushBack_of_ne _ _ ht]
      exact hold

theorem Converse.linkAll {tree : DeadlockTree} (h : tree.Converse) (newTrans : Trans) (items : List Trans) :
    (tree.linkAll newTrans items).Converse := by
  induction items generalizing tree with
  | nil => exact h
  | cons existing rest ih => exact ih (h.link existing newTrans)

/-- `Remove(trans)` never fails its assertion, erases every `trans` from the lists of `blocked_by_`
and leaves the rest of them alone. -/
theorem Converse.remove {tree : DeadlockTree} (h : tree.Converse) (trans : Trans) :
    ∃ tree', tree.remove trans = some tree' ∧ tree'.Converse ∧
      ∀ source target, (tree'.blockedBy.list source).count target =
        if target = trans then 0 else (tree.blockedBy.list source).count target := by
  unfold DeadlockTree.remove
  split
  · next hnone =>
    have hzero : ∀ source, (tree.blockedBy.list source).count trans = 0 := by
      intro source
      rw [h source trans, DeadlockTable.list, hnone]
      rfl
    refine ⟨tree, rfl, h, fun source target => ?_⟩
    split
    · next heq =>
      subst heq
      exact hzero source
    · rfl
  · next items hitems =>
    have hlist : tree.blocks.list trans = items := by simp [DeadlockTable.list, hitems]
    have hsome : ∀ other ∈ items, tree.blockedBy other ≠ none := by
      intro other hother hnone
      have hcount := h other trans
      rw [hlist, DeadlockTable.list, hnone] at hcount
      have := List.count_pos_iff.mpr hother
      simp at hcount
      omega
    obtain ⟨blockedBy', hremove, hcount⟩ := DeadlockTable.removeFrom_spec trans hsome
    have hafter : ∀ source target, (blockedBy'.list source).count target =
        if target = trans then 0 else (tree.blockedBy.list source).count target := by
      intro source target
      rw [hcount]
      by_cases ht : target = trans
      · subst ht
        rw [h source target, hlist]
        simp
      · simp [ht]
    refine ⟨⟨blockedBy', Function.update tree.blocks trans none⟩, by rw [hremove]; rfl, ?_, hafter⟩
    intro source target
    rw [hafter]
    by_cases ht : target = trans
    · subst ht
      simp [DeadlockTable.list]
    · rw [if_neg ht, DeadlockTable.list_update_of_ne _ _ ht]
      exact h source target

/-! ### Runs of calls -/

/-- A call on the tables. -/
inductive Call
  | addDependency (existing newTrans : Trans)
  | remove (trans : Trans)

/-- A call that ends, on tables that no assertion has taken away yet (`none` when one has). -/
inductive Step : Option DeadlockTree → Call → Option DeadlockTree → Prop
  | addDependency {tree tree' : DeadlockTree} {existing newTrans : Trans} {fuel : Nat} {added : Bool}
      (h : tree.addDependency fuel existing newTrans = some (added, tree')) :
      Step (some tree) (.addDependency existing newTrans) (some tree')
  | remove (tree : DeadlockTree) (trans : Trans) : Step (some tree) (.remove trans) (tree.remove trans)

/-- A dependency is refused and the tables stay, or it is linked. -/
theorem addDependency_cases {fuel : Nat} {tree tree' : DeadlockTree} {existing newTrans : Trans} {added : Bool}
    (h : tree.addDependency fuel existing newTrans = some (added, tree')) :
    tree' = if added then tree.link existing newTrans else tree := by
  unfold addDependency at h
  split at h
  · cases h
  · cases h
    rfl
  · cases h
    rfl

theorem Converse.addDependency {fuel : Nat} {tree tree' : DeadlockTree} {existing newTrans : Trans} {added : Bool}
    (hconverse : tree.Converse) (h : tree.addDependency fuel existing newTrans = some (added, tree')) :
    tree'.Converse := by
  rw [addDependency_cases h]
  cases added with
  | false => exact hconverse
  | true => exact hconverse.link existing newTrans

theorem Converse.step {tree : DeadlockTree} (hconverse : tree.Converse) {call : Call} {after : Option DeadlockTree}
    (h : Step (some tree) call after) : ∃ tree', after = some tree' ∧ tree'.Converse := by
  cases h with
  | addDependency hadd => exact ⟨_, rfl, hconverse.addDependency hadd⟩
  | remove _ trans =>
      obtain ⟨tree', hremove, hconverse', -⟩ := hconverse.remove trans
      exact ⟨tree', hremove, hconverse'⟩

/-- After `Remove(trans)` nobody is recorded as blocked by `trans`, in neither table. -/
theorem Converse.remove_forgets {tree : DeadlockTree} (hconverse : tree.Converse) (trans : Trans) :
    ∃ tree', tree.remove trans = some tree' ∧
      ∀ other, trans ∉ tree'.blockedBy.list other ∧ other ∉ tree'.blocks.list trans := by
  obtain ⟨tree', hremove, hconverse', hcount⟩ := hconverse.remove trans
  refine ⟨tree', hremove, fun other => ?_⟩
  have hzero : (tree'.blockedBy.list other).count trans = 0 := by
    rw [hcount, if_pos rfl]
  have hzero' : (tree'.blocks.list trans).count other = 0 := by
    rw [← hconverse' other trans, hzero]
  exact ⟨List.count_eq_zero.mp hzero, List.count_eq_zero.mp hzero'⟩

/-- **The two tables stay converse to each other**, whatever calls were made, as long as their searches ended: no
assertion has failed, none will in the next `Remove`, and that leaves nobody recorded as blocked by its argument. -/
theorem tables_stay_converse {calls : List Call} {after : Option DeadlockTree}
    (h : LibRun.Run Step (some empty) calls after) :
    ∃ tree, after = some tree ∧
      (∀ x y, (tree.blockedBy.list y).count x = (tree.blocks.list x).count y) ∧
      ∀ x, ∃ tree', tree.remove x = some tree' ∧
        ∀ y, x ∉ tree'.blockedBy.list y ∧ y ∉ tree'.blocks.list x := by
  have hconverse : ∃ tree, after = some tree ∧ tree.Converse := by
    refine h.invariant (fun _ state => ∃ tree, state = some tree ∧ tree.Converse) ⟨empty, rfl, converse_empty⟩ ?_
    rintro _ before call state - ⟨tree, rfl, hbefore⟩ hstep
    exact hbefore.step hstep
  obtain ⟨tree, hafter, htree⟩ := hconverse
  exact ⟨tree, hafter, fun x y => htree y x, fun x => htree.remove_forgets x⟩

/-- The same dependency recorded twice, one that is refused, and a removal. -/
def doubleWakeup : List Call := [.addDependency 1 2, .addDependency 1 2, .addDependency 2 1, .remove 1]

theorem doubleWakeup_converse : ∃ after, LibRun.Run Step (some empty) doubleWakeup after ∧ ∃ tree, after = some tree ∧
    (∀ x y, (tree.blockedBy.list y).count x = (tree.blocks.list x).count y) ∧
    ∀ x, ∃ tree', tree.remove x = some tree' ∧ ∀ y, x ∉ tree'.blockedBy.list y ∧ y ∉ tree'.blocks.list x := by
  have hrun : LibRun.Run Step (some empty) doubleWakeup (((empty.link 1 2).link 1 2).remove 1) := by
    have first : empty.addDependency 1 1 2 = some (true, empty.link 1 2) := rfl
    have again : (empty.link 1 2).addDependency 1 1 2 = some (true, (empty.link 1 2).link 1 2) := rfl
    have refused : ((empty.link 1 2).link 1 2).addDependency 1 2 1 = some (false, (empty.link 1 2).link 1 2) := rfl
    refine .cons (.addDependency first) (.cons (.addDependency again) (.cons (.addDependency refused) ?_))
    exact .single (.remove _ 1)
  exact ⟨_, hrun, tables_stay_converse hrun⟩

end DeadlockTree

end Thebends.Ydb
