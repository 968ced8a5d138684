import Mathlib.Algebra.Ring.Nat
import Mathlib.Data.List.AList

/-! Finite maps, and pairs of maps that lead back and forth between two kinds of keys. -/

namespace Thebends.LibMap

variable {K V W : Type*} [DecidableEq K]

abbrev Map (K V : Type*) := AList fun _ : K => V

namespace Map

theorem lookup_insert_eq (m : Map K V) (key other : K) (value : V) :
    (m.insert key value).lookup other = if other = key then some value else m.lookup other := by
  split
  case isTrue h => rw [h, AList.lookup_insert]
  case isFalse h => exact AList.lookup_insert_ne h

theorem lookup_erase_eq (m : Map K V) (key other : K) :
    (m.erase key).lookup other = if other = key then none else m.lookup other := by
  split
  case isTrue h => rw [h, AList.lookup_erase]
  case isFalse h => exact AList.lookup_erase_ne h

/-- An entry after an insertion is the new one, or was there. -/
theorem of_lookup_insert {m : Map K V} {key other : K} {value found : V}
    (h : (m.insert key value).lookup other = some found) :
    other = key ∧ found = value ∨ m.lookup other = some found := by
  rw [lookup_insert_eq] at h
  split at h
  case isTrue heq => exact Or.inl ⟨heq, (Option.some.inj h).symm⟩
  case isFalse => exact Or.inr h

/-- An entry after a deletion was there, under another key. -/
theorem of_lookup_erase {m : Map K V} {key other : K} {found : V} (h : (m.erase key).lookup other = some found) :
    other ≠ key ∧ m.lookup other = some found := by
  rw [lookup_erase_eq] at h
  split at h
  case isTrue => cases h
  case isFalse hne => exact ⟨hne, h⟩

/-- What is true of the entries of a map and of a new one is true of all entries after the insertion. -/
theorem forall_insert {m : Map K V} {P : K → V → Prop} (h : ∀ key value, m.lookup key = some value → P key value)
    {key : K} {value : V} (hnew : P key value) (other : K) (found : V)
    (hfound : (m.insert key value).lookup other = some found) : P other found := by
  rcases of_lookup_insert hfound with ⟨rfl, rfl⟩ | hold
  · exact hnew
  · exact h other found hold

/-- Two maps without a common key. -/
def Apart (m : Map K V) (m' : Map K W) : Prop := ∀ key, (m.lookup key).isSome → m'.lookup key = none

theorem Apart.symm {m : Map K V} {m' : Map K W} (h : Apart m m') : Apart m' m := by
  intro key hkey
  by_contra hboth
  rw [h key (Option.isSome_iff_ne_none.mpr hboth)] at hkey
  cases hkey

theorem Apart.insert {m : Map K V} {m' : Map K W} (h : Apart m m') {key : K} (hnone : m'.lookup key = none)
    (value : V) : Apart (m.insert key value) m' := by
  intro other hother
  obtain ⟨found, hfound⟩ := Option.isSome_iff_exists.mp hother
  rcases of_lookup_insert hfound with ⟨rfl, -⟩ | hold
  · exact hnone
  · exact h other (Option.isSome_iff_exists.mpr ⟨found, hold⟩)

theorem Apart.erase {m : Map K V} {m' : Map K W} (h : Apart m m') (key : K) : Apart (m.erase key) m' := by
  intro other hother
  obtain ⟨found, hfound⟩ := Option.isSome_iff_exists.mp hother
  exact h other (Option.isSome_iff_exists.mpr ⟨found, (of_lookup_erase hfound).2⟩)

theorem lookup_foldl_erase (keys : List K) (m : Map K V) (key : K) :
    (keys.foldl (fun m key => m.erase key) m).lookup key = if key ∈ keys then none else m.lookup key := by
  induction keys generalizing m with
  | nil => rfl
  | cons first keys ih =>
      rw [List.foldl_cons, ih, lookup_erase_eq]
      by_cases hfirst : key = first
      · simp [hfirst]
      · simp [hfirst]

theorem mem_keys_iff (m : Map K V) (key : K) : key ∈ m.keys ↔ ∃ value, m.lookup key = some value := by
  rw [← AList.mem_keys, ← AList.lookup_isSome, Option.isSome_iff_exists]

theorem mem_values_iff (m : Map K V) (value : V) :
    value ∈ m.entries.map Sigma.snd ↔ ∃ key, m.lookup key = some value := by
  rw [List.mem_map]
  constructor
  · rintro ⟨entry, hentry, rfl⟩
    exact ⟨entry.1, AList.mem_lookup_iff.mpr hentry⟩
  · rintro ⟨key, hkey⟩
    exact ⟨⟨key, value⟩, AList.mem_lookup_iff.mp hkey, rfl⟩

theorem length_keys_insert {m : Map K V} {key : K} (h : m.lookup key = none) (value : V) :
    (m.insert key value).keys.length = m.keys.length + 1 := by
  rw [AList.keys_insert, List.erase_of_not_mem (AList.lookup_eq_none.mp h), List.length_cons]

theorem length_keys_erase {m : Map K V} {key : K} {value : V} (h : m.lookup key = some value) :
    m.keys.length = (m.erase key).keys.length + 1 := by
  have hkey : key ∈ m.keys := (mem_keys_iff m key).mpr ⟨value, h⟩
  rw [AList.keys_erase, List.length_erase_of_mem hkey]
  exact (Nat.sub_add_cancel (List.length_pos_of_mem hkey)).symm

/-- The sum of what the values of a map count. -/
def total (m : Map K V) (count : V → Nat) : Nat := (m.entries.map fun entry => count entry.2).sum

theorem total_insert {m : Map K V} {key : K} (h : m.lookup key = none) (value : V) (count : V → Nat) :
    Map.total (m.insert key value) count = count value + m.total count := by
  rw [total, AList.entries_insert_of_notMem (AList.lookup_eq_none.mp h), List.map_cons, List.sum_cons, total]

theorem total_erase {m : Map K V} {key : K} {value : V} (h : m.lookup key = some value) (count : V → Nat) :
    m.total count = count value + Map.total (m.erase key) count := by
  have hkey : key ∈ m.keys := (mem_keys_iff m key).mpr ⟨value, h⟩
  obtain ⟨found, first, second, -, hentries, herase⟩ := List.exists_of_kerase hkey
  have hfound : found = value := by
    have hmem : (⟨key, found⟩ : Sigma fun _ : K => V) ∈ m.entries := by
      rw [hentries]
      exact List.mem_append_right _ List.mem_cons_self
    exact Option.some.inj ((AList.mem_lookup_iff.mpr hmem).symm.trans h)
  have hleft : (m.erase key).entries = first ++ second := herase
  rw [total, total, hleft, hentries, hfound]
  simp only [List.map_append, List.map_cons, List.sum_append, List.sum_cons]
  omega

/-- Two ways to count that agree on the values of a map. -/
theorem total_congr {m : Map K V} {count count' : V → Nat}
    (h : ∀ key value, m.lookup key = some value → count value = count' value) : m.total count = m.total count' := by
  refine congrArg List.sum (List.map_congr_left fun entry hentry => ?_)
  exact h entry.1 entry.2 (AList.mem_lookup_iff.mpr hentry)

end Map

/-- Two maps that lead back and forth. -/
structure Bimap (K V : Type*) [DecidableEq K] [DecidableEq V] where
  forth : Map K V
  back : Map V K
  inverse : ∀ key value, forth.lookup key = some value ↔ back.lookup value = some key

namespace Bimap

variable [DecidableEq V]

def empty : Bimap K V := ⟨∅, ∅, fun _ _ => by rw [AList.lookup_empty, AList.lookup_empty]; simp⟩

/-- Adds a pair neither part of which is there. -/
def add (m : Bimap K V) (key : K) (value : V) (hkey : m.forth.lookup key = none) (hvalue : m.back.lookup value = none) :
    Bimap K V where
  forth := m.forth.insert key value
  back := m.back.insert value key
  inverse := by
    intro other target
    rw [Map.lookup_insert_eq, Map.lookup_insert_eq]
    split
    case isTrue hother =>
      subst hother
      split
      case isTrue htarget => simp [htarget]
      case isFalse htarget =>
        rw [← m.inverse, hkey]
        simp [Ne.symm htarget]
    case isFalse hother =>
      split
      case isTrue htarget =>
        subst htarget
        rw [m.inverse, hvalue]
        simp [Ne.symm hother]
      case isFalse htarget => exact m.inverse other target

/-- Removes a pair that is there. -/
def remove (m : Bimap K V) (key : K) (value : V) (h : m.back.lookup value = some key) : Bimap K V where
  forth := m.forth.erase key
  back := m.back.erase value
  inverse := by
    intro other target
    rw [Map.lookup_erase_eq, Map.lookup_erase_eq]
    split
    case isTrue hother =>
      subst hother
      split
      case isTrue htarget => simp
      case isFalse htarget =>
        rw [← m.inverse, (m.inverse other value).mpr h]
        simp [Ne.symm htarget]
    case isFalse hother =>
      split
      case isTrue htarget =>
        subst htarget
        rw [m.inverse, h]
        simp [Ne.symm hother]
      case isFalse htarget => exact m.inverse other target

end Bimap

end Thebends.LibMap
