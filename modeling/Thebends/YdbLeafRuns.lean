import Thebends.YdbLeaf

/-! A leaf of ydb next to the map it stands for, over any calls that insert nothing into a full leaf. A
deletion does not clear the slot it gives up, and the next call that looks for a key above all others
finds what was left there. -/

namespace Thebends.Ydb

attribute [local instance] byteOrder

open LibExcept LibSorted

/-- A call of a member of `Ydb_LeafNode`. -/
inductive LeafCall
  | get (key : Str)
  | insert (key value : Str)
  | del (key : Str)
  deriving DecidableEq, Repr

/-- What a call returns; `Get` returns the value it found. -/
inductive LeafAnswer
  | got (found : Option Str)
  | inserted
  | deleted (found : Bool)
  deriving DecidableEq, Repr

namespace Map

/-- The calls on a finite map. -/
def call (map : Map) : LeafCall → LeafAnswer × Map
  | .get key => (.got (map.get key), map)
  | .insert key value => (.inserted, map.put key value)
  | .del key => (.deleted (map.get key).isSome, map.del key)

/-- The number of keys that are present. -/
noncomputable def present (map : Map) : Nat := Set.ncard {key | map key ≠ none}

/-- The answers to some calls, each with the number of keys after it. -/
noncomputable def answers : Map → List LeafCall → List (LeafAnswer × Nat)
  | _, [] => []
  | map, call :: calls => ((map.call call).1, (map.call call).2.present) :: answers (map.call call).2 calls

/-- No call inserts when there are as many keys as a leaf has slots. -/
def NeverFull : Map → List LeafCall → Prop
  | _, [] => True
  | map, call :: calls =>
      (∀ key value, call = .insert key value → map.present < kMaxLeafNodeEntries) ∧ NeverFull (map.call call).2 calls

end Map

/-! ### Maps as lists of their entries -/

theorem lookup_put {entries : List (Str × Str)} {map : Map} (h : ∀ key, entries.lookup key = map key)
    (key value other : Str) : (LibSorted.set key value entries).lookup other = map.put key value other := by
  rw [lookup_set, h, Map.put, Function.update_apply]
  by_cases hother : other = key
  · rw [if_pos hother, if_pos hother]
  · rw [if_neg hother, if_neg hother]

theorem lookup_del {entries : List (Str × Str)} {map : Map} (h : ∀ key, entries.lookup key = map key)
    (key other : Str) : (remove key entries).lookup other = map.del key other := by
  rw [lookup_remove, h, Map.del, Function.update_apply]
  by_cases hother : other = key
  · rw [if_pos hother, if_pos hother]
  · rw [if_neg hother, if_neg hother]

theorem present_eq_length {entries : List (Str × Str)} {map : Map} (hsorted : Sorted entries)
    (h : ∀ key, entries.lookup key = map key) : map.present = entries.length := by
  have hset : {key | map key ≠ none} = {key | entries.lookup key ≠ none} := by
    ext key
    rw [Set.mem_ofPred_eq, Set.mem_ofPred_eq, h]
  rw [Map.present, hset, ncard_lookup hsorted]

/-- No more calls than slots never fill a leaf. -/
theorem neverFull_of_length {calls : List LeafCall} {entries : List (Str × Str)} {map : Map}
    (hsorted : Sorted entries) (h : ∀ key, entries.lookup key = map key)
    (hlength : entries.length + calls.length ≤ kMaxLeafNodeEntries) : map.NeverFull calls := by
  induction calls generalizing entries map with
  | nil => trivial
  | cons call calls ih =>
      rw [List.length_cons] at hlength
      refine ⟨fun key value _ => by rw [present_eq_length hsorted h]; omega, ?_⟩
      cases call with
      | get key => exact ih hsorted h (by omega)
      | insert key value =>
          apply ih (sorted_set key value hsorted) (lookup_put h key value)
          rw [length_set key value hsorted]
          split <;> omega
      | del key =>
          apply ih (sorted_remove key hsorted) (lookup_del h key)
          have hle : (remove key entries).length ≤ entries.length := List.length_filter_le ..
          omega

namespace Leaf

/-- `Ydb_LeafNode()`. -/
def new : Leaf := ⟨0, fun _ => [], fun _ => []⟩

def call (leaf : Leaf) : LeafCall → Except Fault (LeafAnswer × Leaf)
  | .get key => do
      let found ← leaf.get key
      return (.got found, leaf)
  | .insert key value => do
      let (leaf, _) ← leaf.insert key value
      return (.inserted, leaf)
  | .del key => do
      let (found, leaf) ← leaf.del key
      return (.deleted found, leaf)

/-- The answers to some calls, each with `Size()` after it. -/
def answers : Leaf → List LeafCall → Except Fault (List (LeafAnswer × Nat))
  | _, [] => .ok []
  | leaf, call :: calls => do
      let (answer, leaf) ← leaf.call call
      let rest ← answers leaf calls
      return (answer, leaf.size) :: rest

/-- No stale key is in the way of a call. `Get` and `Del` do not look at an empty leaf. -/
def Clear (leaf : Leaf) : LeafCall → Prop
  | .get key => leaf.size = 0 ∨ ¬leaf.Stale key
  | .insert key _ => ¬leaf.Stale key
  | .del key => leaf.size = 0 ∨ ¬leaf.Stale key

instance (leaf : Leaf) (call : LeafCall) : Decidable (leaf.Clear call) :=
  match call with
  | .get key => inferInstanceAs (Decidable (leaf.size = 0 ∨ ¬leaf.Stale key))
  | .insert key _ => inferInstanceAs (Decidable (¬leaf.Stale key))
  | .del key => inferInstanceAs (Decidable (leaf.size = 0 ∨ ¬leaf.Stale key))

/-- No stale key is in the way of any of some calls. -/
def ClearRun : Leaf → List LeafCall → Prop
  | _, [] => True
  | leaf, call :: calls => leaf.Clear call ∧ ∀ answer after, leaf.call call = .ok (answer, after) → after.ClearRun calls

/-- The leaf stands for the map. -/
structure Refines (leaf : Leaf) (map : Map) : Prop where
  ordered : leaf.Ordered
  lookup : ∀ key, leaf.entries.lookup key = map key

theorem new_refines : new.Refines fun _ => none := ⟨⟨Nat.zero_le _, List.Pairwise.nil⟩, fun _ => rfl⟩

/-- `Size()` is the number of keys that are present. -/
theorem Refines.present {leaf : Leaf} {map : Map} (h : leaf.Refines map) : map.present = leaf.size := by
  rw [present_eq_length h.ordered.sorted h.lookup, length_entries]

theorem insert_room {leaf : Leaf} (hroom : leaf.size < kMaxLeafNodeEntries) (key value : Str) :
    leaf.call (.insert key value) = (leaf.insertHere key value).map fun after => (.inserted, after) := by
  have hfull : leaf.isFull = false := by
    rw [isFull, beq_eq_false_iff_ne]
    exact hroom.ne
  rw [call, insert, hfull]
  cases leaf.insertHere key value with
  | error fault => rfl
  | ok after => rfl

/-- A call without a stale key in the way answers as the map does. -/
theorem Refines.call {leaf : Leaf} {map : Map} (h : leaf.Refines map) {request : LeafCall}
    (hroom : ∀ key value, request = .insert key value → leaf.size < kMaxLeafNodeEntries)
    (hclear : leaf.Clear request) :
    ∃ after, leaf.call request = .ok ((map.call request).1, after) ∧ after.Refines (map.call request).2 := by
  cases request with
  | get key =>
      refine ⟨leaf, ?_, h⟩
      rw [Leaf.call, h.ordered.get hclear, h.lookup]
      rfl
  | insert key value =>
      have hroom := hroom key value rfl
      obtain ⟨after, hinsert, hordered, hentries⟩ := h.ordered.insertHere value hroom hclear
      refine ⟨after, ?_, hordered, fun other => ?_⟩
      · rw [insert_room hroom, hinsert]
        rfl
      · rw [hentries]
        exact lookup_put h.lookup key value other
  | del key =>
      obtain ⟨after, hdel, hordered, hentries⟩ := h.ordered.del hclear
      refine ⟨after, ?_, hordered, fun other => ?_⟩
      · rw [Leaf.call, hdel, h.lookup]
        rfl
      · rw [hentries]
        exact lookup_del h.lookup key other

/-- A stale key is not in the map. -/
theorem Stale.lookup {leaf : Leaf} {key : Str} (h : leaf.Stale key) : leaf.entries.lookup key = none := by
  apply List.lookup_eq_none_iff.mpr
  intro entry hentry
  obtain ⟨i, hi, rfl⟩ := List.mem_map.mp hentry
  simpa using (h.1 i (List.mem_range.mp hi)).ne'

/-- The slot of a stale key is read as if it were in use, or is not there. -/
theorem Stale.slot {leaf : Leaf} {key : Str} (h : leaf.Stale key) :
    leaf.Position key leaf.size ∧
      (leaf.slot leaf.size = .error .badSlot ∨ leaf.slot leaf.size = .ok (key, leaf.values leaf.size)) := by
  obtain ⟨pos, hposition⟩ := leaf.position_exists key
  have hpos := hposition.eq_size h.1
  subst hpos
  refine ⟨hposition, ?_⟩
  by_cases hfull : leaf.size < kMaxLeafNodeEntries
  · refine Or.inr ?_
    rw [Leaf.slot, if_pos hfull, h.2.resolve_left hfull.ne]
  · exact Or.inl (if_neg hfull)

/-- A call that a stale key is in the way of fails, or answers or counts otherwise than the map. -/
theorem Refines.stale {leaf : Leaf} {map : Map} (h : leaf.Refines map) {request : LeafCall}
    (hroom : ∀ key value, request = .insert key value → leaf.size < kMaxLeafNodeEntries)
    (hstale : ¬leaf.Clear request) {after : Leaf} (hcall : leaf.call request = .ok ((map.call request).1, after)) :
    after.size ≠ (map.call request).2.present := by
  cases request with
  | get key =>
      obtain ⟨hpos, hstale⟩ := not_or.mp hstale
      have hstale := not_not.mp hstale
      have hnone : map.get key = none := (h.lookup key).symm.trans hstale.lookup
      obtain ⟨hposition, hslot | hslot⟩ := hstale.slot
      · rw [Leaf.call, Leaf.get, if_neg hpos, hposition.found, ok_bind, hslot] at hcall
        cases hcall
      · rw [Leaf.call, get_of_position hposition hpos hslot, if_neg (not_not_intro rfl), Map.call, hnone] at hcall
        cases hcall
  | insert key value =>
      have hroom := hroom key value rfl
      have hstale := not_not.mp hstale
      have hslot : leaf.keys leaf.size = key := hstale.2.resolve_left hroom.ne
      rw [insert_room hroom, insertHere_of_position value hstale.slot.1 hroom, if_pos hslot] at hcall
      cases hcall
      have hpresent : (map.put key value).present = leaf.size + 1 := by
        rw [present_eq_length (sorted_set key value h.ordered.sorted) (lookup_put h.lookup key value),
          length_set key value h.ordered.sorted, if_pos hstale.lookup, length_entries]
      intro hsize
      have hsize : leaf.size = (map.put key value).present := hsize
      omega
  | del key =>
      obtain ⟨hpos, hstale⟩ := not_or.mp hstale
      have hstale := not_not.mp hstale
      have hnone : map.get key = none := (h.lookup key).symm.trans hstale.lookup
      obtain ⟨hposition, hslot | hslot⟩ := hstale.slot
      · rw [Leaf.call, Leaf.del, if_neg hpos, hposition.found, ok_bind, hslot] at hcall
        cases hcall
      · rw [Leaf.call, del_of_position hposition hpos hslot, if_neg (not_not_intro rfl), Map.call, hnone] at hcall
        cases hcall

end Leaf

/-- **A leaf is a map until a stale key is looked at.** In any calls that insert nothing into a full leaf,
the answers and the sizes of a new leaf are those of the empty map if and only if no call meets a stale
key. -/
theorem leaf_answers_iff (calls : List LeafCall) (hroom : Map.NeverFull (fun _ => none) calls) :
    Leaf.new.answers calls = .ok (Map.answers (fun _ => none) calls) ↔ Leaf.new.ClearRun calls := by
  suffices hall : ∀ (leaf : Leaf) (map : Map), leaf.Refines map → map.NeverFull calls →
      (leaf.answers calls = .ok (map.answers calls) ↔ leaf.ClearRun calls) from
    hall _ _ Leaf.new_refines hroom
  clear hroom
  induction calls with
  | nil => exact fun _ _ _ _ => iff_of_true rfl trivial
  | cons call calls ih =>
      intro leaf map hrefines hroom
      have hinsert : ∀ key value, call = .insert key value → leaf.size < kMaxLeafNodeEntries :=
        fun key value hcall => hrefines.present ▸ hroom.1 key value hcall
      rw [Leaf.answers, Map.answers, Leaf.ClearRun]
      by_cases hclear : leaf.Clear call
      · obtain ⟨after, hcall, hafter⟩ := hrefines.call hinsert hclear
        have hrest := ih after _ hafter hroom.2
        rw [hcall, ok_bind, and_iff_right hclear, hafter.present]
        constructor
        · intro hanswers answer found hfound
          cases hfound
          obtain ⟨rest, hanswer, hanswers⟩ := bind_eq_ok hanswers
          obtain ⟨-, hsame⟩ := List.cons.inj (Except.ok.inj hanswers)
          rw [hsame] at hanswer
          exact hrest.mp hanswer
        · intro hclears
          simp only [hrest.mpr (hclears _ _ rfl)]
          rfl
      · refine iff_of_false (fun hanswers => ?_) fun hboth => hclear hboth.1
        obtain ⟨⟨answer, after⟩, hcall, hanswers⟩ := bind_eq_ok hanswers
        obtain ⟨rest, hrest, hanswers⟩ := bind_eq_ok hanswers
        obtain ⟨hfirst, -⟩ := List.cons.inj (Except.ok.inj hanswers)
        obtain ⟨hanswer, hsize⟩ := Prod.mk.inj hfirst
        subst hanswer
        exact hrefines.stale hinsert hclear hcall hsize

/-- The key with the largest of two keys is deleted and then looked for. -/
def getDeleted : List LeafCall := [.insert [97] [49], .insert [98] [50], .del [98], .get [98]]

/-- `Get` finds the key that `Del` has just deleted. -/
theorem getDeleted_found : Map.NeverFull (fun _ => none) getDeleted ∧
    ¬Leaf.new.answers getDeleted = .ok (Map.answers (fun _ => none) getDeleted) := by
  constructor
  · exact neverFull_of_length List.Pairwise.nil (fun _ => rfl) (by decide)
  · intro hanswers
    have hleaf : Leaf.new.answers getDeleted =
        .ok [(.inserted, 1), (.inserted, 2), (.deleted true, 1), (.got (some [50]), 1)] := rfl
    have hmap : (Map.answers (fun _ => none) getDeleted).map Prod.fst =
        [.inserted, .inserted, .deleted true, .got none] := rfl
    rw [hleaf, Except.ok.injEq] at hanswers
    rw [← hanswers] at hmap
    cases hmap

/-- The key that is deleted is not the largest one. -/
def getOther : List LeafCall := [.insert [97] [49], .insert [98] [50], .del [97], .get [98]]

theorem Leaf.clearRun_cons {leaf after : Leaf} {answer : LeafAnswer} {call : LeafCall} {calls : List LeafCall}
    (hcall : leaf.call call = .ok (answer, after)) (hclear : leaf.Clear call) (hrest : after.ClearRun calls) :
    leaf.ClearRun (call :: calls) := by
  refine ⟨hclear, fun answer' after' hcall' => ?_⟩
  rw [hcall] at hcall'
  cases hcall'
  exact hrest

theorem leaf_answers_iff_getOther : Map.NeverFull (fun _ => none) getOther ∧
    Leaf.new.answers getOther = .ok (Map.answers (fun _ => none) getOther) := by
  have hroom : Map.NeverFull (fun _ => none) getOther :=
    neverFull_of_length List.Pairwise.nil (fun _ => rfl) (by decide)
  refine ⟨hroom, (leaf_answers_iff getOther hroom).mpr ?_⟩
  refine Leaf.clearRun_cons rfl ?_ (Leaf.clearRun_cons rfl ?_ (Leaf.clearRun_cons rfl ?_
    (Leaf.clearRun_cons rfl ?_ trivial)))
  all_goals decide

end Thebends.Ydb
