import Mathlib.Data.List.Pairwise
import Mathlib.Data.Set.Card
import Mathlib.Order.Lattice

/-! Association lists in strictly ascending order of their keys: such a list is determined by what it
answers to lookups, a binding with a key not above its first one is put in at the front, and `set` and
`remove` act on the lookups as on a finite map. -/

namespace Thebends.LibSorted

variable {K V : Type*}

section Lookup

variable [BEq K] [LawfulBEq K]

theorem lookup_cons_of_ne {key first : K} {value : V} {rest : List (K × V)} (h : key ≠ first) :
    ((first, value) :: rest).lookup key = rest.lookup key := by
  rw [List.lookup_cons, beq_eq_false_iff_ne.mpr h]

theorem lookup_ne_none {key : K} {entries : List (K × V)} :
    entries.lookup key ≠ none ↔ ∃ entry ∈ entries, entry.1 = key := by
  rw [Ne, List.lookup_eq_none_iff]
  simp only [not_forall, bne_iff_ne, ne_eq, not_not, exists_prop]
  constructor
  · rintro ⟨entry, hentry, heq⟩
    exact ⟨entry, hentry, heq.symm⟩
  · rintro ⟨entry, hentry, heq⟩
    exact ⟨entry, hentry, heq.symm⟩

/-- Where no key comes twice, the last entry for a key is the one that a lookup finds. -/
theorem getLast?_filter [DecidableEq K] {entries : List (K × V)} (h : (entries.map Prod.fst).Nodup) (key : K) :
    ((entries.filter (·.1 = key)).getLast?).map Prod.snd = entries.lookup key := by
  induction entries with
  | nil => rfl
  | cons entry entries ih =>
      obtain ⟨hfirst, hrest⟩ := List.nodup_cons.mp h
      by_cases hkey : entry.1 = key
      · have hnone : entries.filter (·.1 = key) = [] := by
          apply List.filter_eq_nil_iff.mpr
          intro other hother heq
          apply hfirst
          rw [hkey, ← of_decide_eq_true heq]
          exact List.mem_map_of_mem hother
        rw [List.filter_cons_of_pos (by simpa using hkey), hnone, ← hkey, List.lookup_cons_self]
        rfl
      · rw [List.filter_cons_of_neg (by simpa using hkey), ih hrest, lookup_cons_of_ne (Ne.symm hkey)]

end Lookup

variable [LinearOrder K]

/-- Strictly ascending keys. -/
def Sorted (entries : List (K × V)) : Prop := entries.Pairwise fun first second => first.1 < second.1

/-- Bind a key that is not above the first one: the first binding is replaced or preceded. -/
def setFirst (key : K) (value : V) : List (K × V) → List (K × V)
  | [] => [(key, value)]
  | entry :: rest => if entry.1 = key then (key, value) :: rest else (key, value) :: entry :: rest

/-- Bind a key: its binding is replaced, or a new one is put in where it belongs. -/
def set (key : K) (value : V) : List (K × V) → List (K × V)
  | [] => [(key, value)]
  | entry :: rest => if entry.1 < key then entry :: set key value rest else setFirst key value (entry :: rest)

/-- Drop the binding of a key. -/
def remove (key : K) (entries : List (K × V)) : List (K × V) := entries.filter fun entry => entry.1 ≠ key

theorem setFirst_append {key : K} {value : V} {entries : List (K × V)} (h : entries ≠ []) (more : List (K × V)) :
    setFirst key value entries ++ more = setFirst key value (entries ++ more) := by
  cases entries with
  | nil => exact absurd rfl h
  | cons entry rest =>
      simp only [setFirst, List.cons_append]
      split <;> rfl

/-- The keys of the result: the new one in front, the old ones behind it. -/
theorem setFirst_eq_cons (key : K) (value : V) (entries : List (K × V)) :
    ∃ rest, setFirst key value entries = (key, value) :: rest ∧
      ∀ entry ∈ rest, entry ∈ entries := by
  cases entries with
  | nil => exact ⟨[], rfl, nofun⟩
  | cons entry rest =>
      rw [setFirst]
      split
      · exact ⟨rest, rfl, fun _ => List.mem_cons_of_mem _⟩
      · exact ⟨entry :: rest, rfl, fun _ => id⟩

theorem sorted_setFirst {key first : K} {value old : V} {rest : List (K × V)}
    (h : Sorted ((first, old) :: rest)) (hle : key ≤ first) :
    Sorted (setFirst key value ((first, old) :: rest)) := by
  obtain ⟨hbelow, hrest⟩ := List.pairwise_cons.mp h
  rw [setFirst]
  split
  · next heq =>
    have heq : first = key := heq
    subst heq
    exact List.pairwise_cons.mpr ⟨hbelow, hrest⟩
  · next hne =>
    have hlt : key < first := lt_of_le_of_ne hle (Ne.symm hne)
    refine List.pairwise_cons.mpr ⟨fun entry hentry => ?_, h⟩
    rcases List.mem_cons.mp hentry with rfl | hmem
    · exact hlt
    · exact hlt.trans (hbelow entry hmem)

/-- A key that is not above the first one is bound at the front. -/
theorem set_eq_setFirst {key : K} {value : V} {entries : List (K × V)} (h : ∀ entry ∈ entries.head?, key ≤ entry.1) :
    set key value entries = setFirst key value entries := by
  cases entries with
  | nil => rfl
  | cons entry rest => exact if_neg (not_lt.mpr (h entry rfl))

theorem set_append_right {key : K} {value : V} {before : List (K × V)} (h : ∀ entry ∈ before, entry.1 < key)
    (after : List (K × V)) : set key value (before ++ after) = before ++ set key value after := by
  induction before with
  | nil => rfl
  | cons entry rest ih =>
      rw [List.cons_append, set, if_pos (h entry List.mem_cons_self),
        ih fun other hother => h other (List.mem_cons_of_mem _ hother)]
      rfl

theorem set_append_left {key : K} {value : V} (before : List (K × V)) {next : K × V} (h : key < next.1)
    (after : List (K × V)) : set key value (before ++ next :: after) = set key value before ++ next :: after := by
  induction before with
  | nil =>
      rw [List.nil_append, set_eq_setFirst fun entry hentry => (Option.mem_some_iff.mp hentry) ▸ h.le, setFirst,
        if_neg h.ne']
      rfl
  | cons entry rest ih =>
      rw [List.cons_append, set, set]
      split
      · rw [ih]
        rfl
      · exact (setFirst_append (List.cons_ne_nil _ _) _).symm

theorem mem_set {key : K} {value : V} {entries : List (K × V)} {entry : K × V}
    (h : entry ∈ set key value entries) : entry = (key, value) ∨ entry ∈ entries := by
  induction entries with
  | nil => exact Or.inl (List.mem_singleton.mp h)
  | cons first rest ih =>
      rw [set] at h
      split at h
      · rcases List.mem_cons.mp h with rfl | hrest
        · exact Or.inr List.mem_cons_self
        · exact (ih hrest).imp_right (List.mem_cons_of_mem _)
      · obtain ⟨more, hset, hmore⟩ := setFirst_eq_cons key value (first :: rest)
        rw [hset] at h
        exact (List.mem_cons.mp h).imp_right (hmore entry)

theorem sorted_set (key : K) (value : V) {entries : List (K × V)} (h : Sorted entries) :
    Sorted (set key value entries) := by
  induction entries with
  | nil => exact List.pairwise_singleton _ _
  | cons first rest ih =>
      obtain ⟨hbelow, hrest⟩ := List.pairwise_cons.mp h
      rw [set]
      split
      · next hlt =>
        refine List.pairwise_cons.mpr ⟨fun entry hentry => ?_, ih hrest⟩
        rcases mem_set hentry with rfl | hmem
        · exact hlt
        · exact hbelow entry hmem
      · next hle => exact sorted_setFirst h (not_lt.mp hle)

theorem sorted_remove (key : K) {entries : List (K × V)} (h : Sorted entries) : Sorted (remove key entries) :=
  h.filter _

/-- The binding of a key drops out from between smaller and larger keys. -/
theorem remove_append {key : K} {value : V} {before after : List (K × V)}
    (h : Sorted (before ++ (key, value) :: after)) :
    remove key (before ++ (key, value) :: after) = before ++ after := by
  obtain ⟨-, hafter, hcross⟩ := List.pairwise_append.mp h
  have hbelow : ∀ entry ∈ before, entry.1 ≠ key := fun entry hentry =>
    (hcross entry hentry (key, value) List.mem_cons_self).ne
  have habove : ∀ entry ∈ after, entry.1 ≠ key := fun entry hentry =>
    ((List.pairwise_cons.mp hafter).1 entry hentry).ne'
  rw [remove, List.filter_append, List.filter_cons_of_neg (by simp),
    List.filter_eq_self.mpr fun entry hentry => decide_eq_true (hbelow entry hentry),
    List.filter_eq_self.mpr fun entry hentry => decide_eq_true (habove entry hentry)]

theorem nodup_keys {entries : List (K × V)} (h : Sorted entries) : (entries.map Prod.fst).Nodup :=
  List.pairwise_map.mpr (h.imp fun hlt => hlt.ne)

section Lookup

variable [BEq K] [LawfulBEq K]

theorem lookup_eq_none_of_lt {key : K} {entries : List (K × V)} (h : ∀ entry ∈ entries, key < entry.1) :
    entries.lookup key = none := by
  rw [List.lookup_eq_none_iff]
  intro entry hentry
  simpa using (h entry hentry).ne

theorem lookup_first {key first : K} {value : V} {rest : List (K × V)} (h : Sorted ((first, value) :: rest))
    (hle : key ≤ first) : ((first, value) :: rest).lookup key = if first = key then some value else none := by
  split
  · next heq => rw [heq, List.lookup_cons_self]
  · next hne =>
    have hlt : key < first := lt_of_le_of_ne hle (Ne.symm hne)
    refine lookup_eq_none_of_lt fun entry hentry => ?_
    rcases List.mem_cons.mp hentry with rfl | hmem
    · exact hlt
    · exact hlt.trans ((List.pairwise_cons.mp h).1 entry hmem)

/-- **Lookups determine a sorted list.** -/
theorem eq_of_lookup {left right : List (K × V)} (hl : Sorted left) (hr : Sorted right)
    (h : ∀ key, left.lookup key = right.lookup key) : left = right := by
  induction left generalizing right with
  | nil =>
      cases right with
      | nil => rfl
      | cons entry rest =>
          have hentry := h entry.1
          rw [List.lookup_nil, List.lookup_cons_self] at hentry
          cases hentry
  | cons entry rest ih =>
      obtain ⟨key, value⟩ := entry
      obtain ⟨hbelow, hrest⟩ := List.pairwise_cons.mp hl
      cases right with
      | nil =>
          have hentry := h key
          rw [List.lookup_nil, List.lookup_cons_self] at hentry
          cases hentry
      | cons entry' rest' =>
          obtain ⟨key', value'⟩ := entry'
          obtain ⟨hbelow', hrest'⟩ := List.pairwise_cons.mp hr
          -- the smaller of the two first keys would be missing on the other side
          have hkey : key = key' := by
            rcases lt_trichotomy key key' with hlt | heq | hgt
            · have hentry := h key
              rw [List.lookup_cons_self, lookup_eq_none_of_lt] at hentry
              · cases hentry
              · intro entry hentry
                rcases List.mem_cons.mp hentry with rfl | hmem
                · exact hlt
                · exact hlt.trans (hbelow' entry hmem)
            · exact heq
            · have hentry := h key'
              rw [List.lookup_cons_self, lookup_eq_none_of_lt] at hentry
              · cases hentry
              · intro entry hentry
                rcases List.mem_cons.mp hentry with rfl | hmem
                · exact hgt
                · exact hgt.trans (hbelow entry hmem)
          subst hkey
          have hvalue := h key
          rw [List.lookup_cons_self, List.lookup_cons_self, Option.some.injEq] at hvalue
          subst hvalue
          congr 1
          refine ih hrest hrest' fun other => ?_
          by_cases hother : other = key
          · subst hother
            rw [lookup_eq_none_of_lt hbelow, lookup_eq_none_of_lt hbelow']
          · have hentry := h other
            rwa [lookup_cons_of_ne hother, lookup_cons_of_ne hother] at hentry

theorem lookup_setFirst (key : K) (value : V) (entries : List (K × V)) (other : K) :
    (setFirst key value entries).lookup other = if other = key then some value else entries.lookup other := by
  have hcons : ∀ rest : List (K × V), ((key, value) :: rest).lookup other =
      if other = key then some value else rest.lookup other := by
    intro rest
    split
    · next hother => rw [hother, List.lookup_cons_self]
    · next hother => rw [lookup_cons_of_ne hother]
  cases entries with
  | nil => exact hcons []
  | cons entry rest =>
      obtain ⟨first, old⟩ := entry
      rw [setFirst]
      split
      · next heq =>
        have heq : first = key := heq
        subst heq
        rw [hcons]
        split
        · rfl
        · next hother => rw [lookup_cons_of_ne hother]
      · exact hcons _

theorem lookup_set (key : K) (value : V) (entries : List (K × V)) (other : K) :
    (set key value entries).lookup other = if other = key then some value else entries.lookup other := by
  induction entries with
  | nil => exact lookup_setFirst key value [] other
  | cons first rest ih =>
      rw [set]
      split
      · next hlt =>
        by_cases hother : other = first.1
        · subst hother
          rw [if_neg hlt.ne, List.lookup_cons_self, List.lookup_cons_self]
        · rw [lookup_cons_of_ne hother, lookup_cons_of_ne hother, ih]
      · exact lookup_setFirst key value _ other

theorem lookup_remove (key : K) (entries : List (K × V)) (other : K) :
    (remove key entries).lookup other = if other = key then none else entries.lookup other := by
  split
  · next hother =>
    rw [List.lookup_eq_none_iff]
    intro entry hentry
    rw [hother, bne_iff_ne]
    exact (of_decide_eq_true (List.mem_filter.mp hentry).2).symm
  · next hother =>
    induction entries with
    | nil => rfl
    | cons first rest ih =>
        by_cases hkey : first.1 = key
        · have hdrop : remove key (first :: rest) = remove key rest := List.filter_cons_of_neg (by simp [hkey])
          rw [hdrop, ih, lookup_cons_of_ne (hkey ▸ hother)]
        · have hkeep : remove key (first :: rest) = first :: remove key rest :=
            List.filter_cons_of_pos (decide_eq_true hkey)
          rw [hkeep]
          by_cases hfirst : other = first.1
          · subst hfirst
            rw [List.lookup_cons_self, List.lookup_cons_self]
          · rw [lookup_cons_of_ne hfirst, lookup_cons_of_ne hfirst, ih]

theorem remove_eq_self {key : K} {entries : List (K × V)} (h : entries.lookup key = none) :
    remove key entries = entries := by
  apply List.filter_eq_self.mpr
  intro entry hentry
  apply decide_eq_true
  intro hkey
  exact lookup_ne_none.mpr ⟨entry, hentry, hkey⟩ h

/-- A list with ascending keys binds as many keys as it has entries. -/
theorem ncard_lookup {entries : List (K × V)} (h : Sorted entries) :
    Set.ncard {key | entries.lookup key ≠ none} = entries.length := by
  have hset : {key | entries.lookup key ≠ none} = ↑(entries.map Prod.fst).toFinset := by
    ext key
    rw [Set.mem_ofPred_eq, lookup_ne_none, List.coe_toFinset, Set.mem_ofPred_eq, List.mem_map]
  rw [hset, Set.ncard_coe_finset, List.toFinset_card_of_nodup (nodup_keys h), List.length_map]

theorem length_set (key : K) (value : V) {entries : List (K × V)} (h : Sorted entries) :
    (set key value entries).length = entries.length + if entries.lookup key = none then 1 else 0 := by
  induction entries with
  | nil => rfl
  | cons first rest ih =>
      rw [set]
      split
      · next hlt =>
        rw [List.length_cons, ih (List.pairwise_cons.mp h).2, lookup_cons_of_ne hlt.ne', List.length_cons]
        exact Nat.add_right_comm ..
      · next hle =>
        rw [lookup_first h (not_lt.mp hle), setFirst]
        split
        · rfl
        · simp

theorem length_remove (key : K) {entries : List (K × V)} (h : Sorted entries) :
    (remove key entries).length + (if entries.lookup key = none then 0 else 1) = entries.length := by
  split
  · next hnone => rw [remove_eq_self hnone, Nat.add_zero]
  · next hsome =>
    obtain ⟨⟨first, value⟩, hentry, rfl⟩ := lookup_ne_none.mp hsome
    obtain ⟨before, after, rfl⟩ := List.append_of_mem hentry
    rw [remove_append h, List.length_append, List.length_append, List.length_cons]
    exact Nat.add_assoc ..

end Lookup

end Thebends.LibSorted
