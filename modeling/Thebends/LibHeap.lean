import Mathlib.Data.List.Basic
import Mathlib.Order.Lattice

/-! Binary heaps in a list, largest first. `makeHeap` sifts every inner cell down, the last one first;
where no two cells are equal its result is that of `std::make_heap`. -/

namespace Thebends.LibHeap

variable {α : Type*} [LinearOrder α]

/-- The larger child of a cell, if it has children. -/
def largerChild (cells : List α) (hole : Nat) : Option Nat :=
  match cells[2 * hole + 1]?, cells[2 * hole + 2]? with
  | some left, some right => if left < right then some (2 * hole + 2) else some (2 * hole + 1)
  | some _, none => some (2 * hole + 1)
  | none, _ => none

/-- Exchanges a cell with its larger child until it is no smaller. -/
def siftDown : Nat → List α → Nat → List α
  | 0, cells, _ => cells
  | fuel + 1, cells, hole =>
      match largerChild cells hole with
      | none => cells
      | some child =>
          match cells[hole]?, cells[child]? with
          | some value, some larger =>
              if value < larger then siftDown fuel ((cells.set hole larger).set child value) child else cells
          | _, _ => cells

/-- Sifts the cells before an index down, the last of them first. -/
def siftAll : Nat → List α → List α
  | 0, cells => cells
  | hole + 1, cells => siftAll hole (siftDown cells.length cells hole)

/-- `make_heap`. -/
def makeHeap (cells : List α) : List α := siftAll (cells.length / 2) cells

theorem siftDown_perm (fuel : Nat) (cells : List α) (hole : Nat) : (siftDown fuel cells hole).Perm cells := by
  induction fuel generalizing cells hole with
  | zero => exact List.Perm.refl cells
  | succ fuel ih =>
      rw [siftDown]
      split
      · exact List.Perm.refl cells
      case h_2 child hchild =>
        split
        case h_1 value larger hvalue hlarger =>
          split
          · obtain ⟨hhole, rfl⟩ := List.getElem?_eq_some_iff.mp hvalue
            obtain ⟨hbound, rfl⟩ := List.getElem?_eq_some_iff.mp hlarger
            exact (ih _ child).trans (List.set_set_perm hhole hbound)
          · exact List.Perm.refl cells
        · exact List.Perm.refl cells

theorem siftAll_perm (count : Nat) (cells : List α) : (siftAll count cells).Perm cells := by
  induction count generalizing cells with
  | zero => exact List.Perm.refl cells
  | succ hole ih => exact (ih _).trans (siftDown_perm cells.length cells hole)

theorem makeHeap_perm (cells : List α) : (makeHeap cells).Perm cells := siftAll_perm (cells.length / 2) cells

/-! ### The largest cell comes first -/

def IsChild (child parent : Nat) : Prop := child = 2 * parent + 1 ∨ child = 2 * parent + 2

/-- One cell is no smaller than another, if both are there. -/
def Dominates (cells : List α) (upper lower : Nat) : Prop :=
  ∀ x y, cells[upper]? = some x → cells[lower]? = some y → y ≤ x

/-- The cells from an index on are no smaller than their children. -/
def OrderedFrom (low : Nat) (cells : List α) : Prop :=
  ∀ parent child, low ≤ parent → IsChild child parent → Dominates cells parent child

/-- The same but for one cell, whose children are no larger than its parent. -/
structure OrderedBut (low hole : Nat) (cells : List α) : Prop where
  others : ∀ parent child, low ≤ parent → parent ≠ hole → IsChild child parent → Dominates cells parent child
  grand : ∀ parent child, low ≤ parent → IsChild hole parent → IsChild child hole → Dominates cells parent child

theorem dominates_of_length_le {cells : List α} {upper lower : Nat} (h : cells.length ≤ lower) :
    Dominates cells upper lower := by
  intro x y _ hy
  rw [List.getElem?_eq_none h] at hy
  cases hy

theorem Dominates.trans {cells : List α} {first second third : Nat} (hbound : second < cells.length)
    (h : Dominates cells first second) (h' : Dominates cells second third) : Dominates cells first third := by
  intro x z hx hz
  have hy : cells[second]? = some cells[second] := List.getElem?_eq_getElem hbound
  exact le_trans (h' _ z hy hz) (h x _ hx hy)

/-- What `largerChild` finds is a child that is no smaller than both. -/
theorem largerChild_eq_some {cells : List α} {hole child : Nat} (h : largerChild cells hole = some child) :
    child < cells.length ∧ IsChild child hole ∧ ∀ other, IsChild other hole → Dominates cells child other := by
  unfold largerChild at h
  split at h
  case h_1 left right hleft hright =>
    have hboundLeft := (List.getElem?_eq_some_iff.mp hleft).1
    have hboundRight := (List.getElem?_eq_some_iff.mp hright).1
    split at h
    case isTrue hlt =>
      cases h
      refine ⟨hboundRight, Or.inr rfl, ?_⟩
      rintro other (rfl | rfl) x y hx hy
      · rw [hright, Option.some.injEq] at hx
        rw [hleft, Option.some.injEq] at hy
        exact hx ▸ hy ▸ le_of_lt hlt
      · rw [hx, Option.some.injEq] at hy
        exact le_of_eq hy.symm
    case isFalse hlt =>
      cases h
      refine ⟨hboundLeft, Or.inl rfl, ?_⟩
      rintro other (rfl | rfl) x y hx hy
      · rw [hx, Option.some.injEq] at hy
        exact le_of_eq hy.symm
      · rw [hleft, Option.some.injEq] at hx
        rw [hright, Option.some.injEq] at hy
        exact hx ▸ hy ▸ not_lt.mp hlt
  case h_2 left hleft hright =>
    cases h
    refine ⟨(List.getElem?_eq_some_iff.mp hleft).1, Or.inl rfl, ?_⟩
    rintro other (rfl | rfl) x y hx hy
    · rw [hx, Option.some.injEq] at hy
      exact le_of_eq hy.symm
    · rw [hright] at hy
      cases hy
  case h_3 => cases h

theorem largerChild_eq_none {cells : List α} {hole : Nat} (h : largerChild cells hole = none) :
    cells.length ≤ 2 * hole + 1 := by
  unfold largerChild at h
  split at h
  case h_1 => split at h <;> cases h
  case h_2 => cases h
  case h_3 hleft => exact List.getElem?_eq_none_iff.mp hleft

theorem IsChild.lt {child parent : Nat} (h : IsChild child parent) : parent < child := by
  unfold IsChild at h
  omega

theorem IsChild.unique {child parent other : Nat} (h : IsChild child parent) (h' : IsChild child other) :
    parent = other := by
  unfold IsChild at h h'
  omega

/-- Exchanging a cell with its larger child moves the exception down to the child. -/
theorem OrderedBut.swap {low hole child : Nat} {cells : List α} {value larger : α} (h : OrderedBut low hole cells)
    (hvalue : cells[hole]? = some value) (hlarger : cells[child]? = some larger) (hlt : value < larger)
    (hchild : IsChild child hole) (hdominates : ∀ other, IsChild other hole → Dominates cells child other)
    (hlow : low ≤ hole) : OrderedBut low child ((cells.set hole larger).set child value) := by
  have hholeBound := (List.getElem?_eq_some_iff.mp hvalue).1
  have hchildBound := (List.getElem?_eq_some_iff.mp hlarger).1
  have hne : hole ≠ child := hchild.lt.ne
  have hatChild : ((cells.set hole larger).set child value)[child]? = some value :=
    List.getElem?_set_self (by rwa [List.length_set])
  have hatHole : ((cells.set hole larger).set child value)[hole]? = some larger := by
    rw [List.getElem?_set_ne hne.symm, List.getElem?_set_self hholeBound]
  have hoff : ∀ index, index ≠ hole → index ≠ child →
      ((cells.set hole larger).set child value)[index]? = cells[index]? := by
    intro index hhole' hchild'
    rw [List.getElem?_set_ne hchild'.symm, List.getElem?_set_ne hhole'.symm]
  refine ⟨fun parent lower hparent hother hlower x y hx hy => ?_, fun parent lower hparent hup hlower x y hx hy => ?_⟩
  · by_cases hhole : parent = hole
    · subst hhole
      rw [hatHole, Option.some.injEq] at hx
      subst hx
      by_cases hsame : lower = child
      · rw [hsame, hatChild, Option.some.injEq] at hy
        exact hy ▸ le_of_lt hlt
      · rw [hoff lower hlower.lt.ne' hsame] at hy
        exact hdominates lower hlower larger y hlarger hy
    · rw [hoff parent hhole hother] at hx
      have hsame : lower ≠ child := fun heq => hhole ((heq ▸ hlower).unique hchild)
      by_cases hback : lower = hole
      · rw [hback, hatHole, Option.some.injEq] at hy
        exact h.grand parent child hparent (hback ▸ hlower) hchild x y hx (hlarger.trans (congrArg some hy))
      · rw [hoff lower hback hsame] at hy
        exact h.others parent lower hparent hhole hlower x y hx hy
  · have hparentHole : parent = hole := hup.unique hchild
    subst hparentHole
    rw [hatHole, Option.some.injEq] at hx
    rw [hoff lower (hchild.lt.trans hlower.lt).ne' hlower.lt.ne'] at hy
    exact h.others child lower (hlow.trans hchild.lt.le) hne.symm hlower x y (hlarger.trans (congrArg some hx)) hy

theorem OrderedBut.orderedFrom {low hole : Nat} {cells : List α} (h : OrderedBut low hole cells)
    (hhole : ∀ child, IsChild child hole → Dominates cells hole child) : OrderedFrom low cells := by
  intro parent child hlow hchild
  by_cases heq : parent = hole
  · exact heq ▸ hhole child (heq ▸ hchild)
  · exact h.others parent child hlow heq hchild

/-- Sifting the excepted cell down removes the exception. -/
theorem OrderedBut.siftDown {fuel low hole : Nat} {cells : List α} (h : OrderedBut low hole cells) (hlow : low ≤ hole)
    (hfuel : cells.length ≤ hole + fuel) : OrderedFrom low (siftDown fuel cells hole) := by
  induction fuel generalizing cells hole with
  | zero =>
      exact h.orderedFrom fun child hchild => dominates_of_length_le (hfuel.trans hchild.lt.le)
  | succ fuel ih =>
      rw [LibHeap.siftDown]
      split
      case h_1 hnone =>
        refine h.orderedFrom fun child hchild => dominates_of_length_le ((largerChild_eq_none hnone).trans ?_)
        unfold IsChild at hchild
        omega
      case h_2 child hsome =>
        obtain ⟨hbound, hchild, hdominates⟩ := largerChild_eq_some hsome
        have hholeBound := hchild.lt.trans hbound
        split
        case h_1 value larger hvalue hlarger =>
          split
          case isTrue hlt =>
            refine ih (h.swap hvalue hlarger hlt hchild hdominates hlow) (hlow.trans hchild.lt.le) ?_
            have := hchild.lt
            rw [List.length_set, List.length_set]
            omega
          case isFalse hlt =>
            have hupper : Dominates cells hole child := by
              intro x y hx hy
              rw [hvalue, Option.some.injEq] at hx
              rw [hlarger, Option.some.injEq] at hy
              exact hx ▸ hy ▸ not_lt.mp hlt
            exact h.orderedFrom fun other hother => hupper.trans hbound (hdominates other hother)
        case h_2 hnever =>
          exact absurd (List.getElem?_eq_getElem hbound) (hnever _ _ (List.getElem?_eq_getElem hholeBound))

theorem siftAll_ordered {count : Nat} {cells : List α} (h : OrderedFrom count cells) :
    OrderedFrom 0 (siftAll count cells) := by
  induction count generalizing cells with
  | zero => exact h
  | succ hole ih =>
      refine ih (OrderedBut.siftDown ⟨?_, ?_⟩ le_rfl (Nat.le_add_left _ _))
      · exact fun parent child hparent hne hchild => h parent child (by omega) hchild
      · exact fun parent child hparent hup _ => absurd hup.lt (by omega)

/-- Every cell of a heap is no larger than the first. -/
theorem OrderedFrom.first {cells : List α} (h : OrderedFrom 0 cells) (index : Nat) : Dominates cells 0 index := by
  induction index using Nat.strong_induction_on with
  | _ index ih =>
      by_cases hzero : index = 0
      · subst hzero
        intro x y hx hy
        rw [hx, Option.some.injEq] at hy
        exact le_of_eq hy.symm
      · by_cases hbound : index < cells.length
        · have hchild : IsChild index ((index - 1) / 2) := by
            unfold IsChild
            omega
          exact (ih _ hchild.lt).trans (hchild.lt.trans hbound) (h _ index (Nat.zero_le _) hchild)
        · exact dominates_of_length_le (not_lt.mp hbound)

/-- **The first cell of a heap is the largest.** -/
theorem makeHeap_first {cells : List α} {front x : α} (hfront : (makeHeap cells).head? = some front)
    (hx : x ∈ cells) : x ≤ front := by
  have hordered : OrderedFrom 0 (makeHeap cells) := by
    refine siftAll_ordered fun parent child hparent hchild => dominates_of_length_le ?_
    unfold IsChild at hchild
    omega
  obtain ⟨index, hindex⟩ := List.mem_iff_getElem?.mp ((makeHeap_perm cells).mem_iff.mpr hx)
  exact hordered.first index front x (List.head?_eq_getElem?.symm.trans hfront) hindex

end Thebends.LibHeap
