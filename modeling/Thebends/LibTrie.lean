import Mathlib.Logic.Function.Basic
import Mathlib.Data.List.Basic
import Mathlib.Data.List.Induction

/-! Trees of dictionaries: a value may stand at the end of each path, and a walk along a word comes past the values of
its prefixes. -/

namespace Thebends.LibTrie

universe u v

section Filling

variable {E K D V : Type*}

/-- The entry is the last one with its key. -/
def IsLast (key : E → K) (entries : List E) (entry : E) : Prop :=
  ∃ before after, entries = before ++ entry :: after ∧ ∀ other ∈ after, key other ≠ key entry

theorem isLast_snoc {key : E → K} {entries : List E} {last entry : E} :
    IsLast key (entries ++ [last]) entry ↔ entry = last ∨ (key last ≠ key entry ∧ IsLast key entries entry) := by
  constructor
  · rintro ⟨before, after, heq, hafter⟩
    rcases List.eq_nil_or_concat after with rfl | ⟨rest, final, rfl⟩
    · obtain ⟨-, hsame⟩ := List.append_inj' heq rfl
      cases hsame
      exact Or.inl rfl
    · rw [List.concat_eq_append] at heq hafter
      rw [← List.cons_append, ← List.append_assoc] at heq
      obtain ⟨hentries, hsame⟩ := List.append_inj' heq rfl
      cases hsame
      exact Or.inr ⟨hafter last (by simp), before, rest, hentries, fun other hother => hafter other (by simp [hother])⟩
  · rintro (rfl | ⟨hne, before, after, rfl, hafter⟩)
    · exact ⟨entries, [], rfl, fun _ hmem => absurd hmem List.not_mem_nil⟩
    · refine ⟨before, after ++ [last], by simp, fun other hother => ?_⟩
      rcases List.mem_append.mp hother with hmem | hmem
      · exact hafter other hmem
      · rw [List.mem_singleton.mp hmem]
        exact hne

theorem exists_isLast (key : E → K) {entries : List E} {entry : E} (h : entry ∈ entries) :
    ∃ last, IsLast key entries last ∧ key last = key entry := by
  induction entries using List.reverseRecOn with
  | nil => exact absurd h List.not_mem_nil
  | append_singleton entries final ih =>
      simp only [isLast_snoc]
      by_cases hfinal : key final = key entry
      · exact ⟨final, Or.inl rfl, hfinal⟩
      · rcases List.mem_append.mp h with hmem | hmem
        · obtain ⟨last, hlast, hkey⟩ := ih hmem
          exact ⟨last, Or.inr ⟨hkey ▸ hfinal, hlast⟩, hkey⟩
        · exact absurd (List.mem_singleton.mp hmem ▸ rfl) hfinal

/-- **A dictionary that is filled in order** has the last value of each key. -/
theorem get_foldl (get : D → K → Option V) (insert : D → E → D) (key : E → K) (value : E → V) {start : D}
    (hstart : ∀ k, get start k = none)
    (hself : ∀ d entry, get (insert d entry) (key entry) = some (value entry))
    (hother : ∀ d entry k, k ≠ key entry → get (insert d entry) k = get d k) (entries : List E) (k : K) (found : V) :
    get (entries.foldl insert start) k = some found ↔
      ∃ entry, IsLast key entries entry ∧ key entry = k ∧ value entry = found := by
  induction entries using List.reverseRecOn with
  | nil =>
      rw [List.foldl_nil, hstart]
      refine iff_of_false nofun ?_
      rintro ⟨entry, ⟨before, after, heq, -⟩, -⟩
      exact absurd heq.symm (List.append_ne_nil_of_right_ne_nil _ (List.cons_ne_nil _ _))
  | append_singleton entries last ih =>
      rw [List.foldl_append, List.foldl_cons, List.foldl_nil]
      simp only [isLast_snoc]
      by_cases hlast : k = key last
      · subst hlast
        rw [hself, Option.some.injEq]
        constructor
        · exact fun hvalue => ⟨last, Or.inl rfl, rfl, hvalue⟩
        · rintro ⟨entry, rfl | ⟨hne, -⟩, hkey, hvalue⟩
          · exact hvalue
          · exact absurd hkey.symm hne
      · rw [hother _ _ _ hlast, ih]
        constructor
        · rintro ⟨entry, hentry, rfl, hvalue⟩
          exact ⟨entry, Or.inr ⟨Ne.symm hlast, hentry⟩, rfl, hvalue⟩
        · rintro ⟨entry, rfl | ⟨-, hentry⟩, hkey, hvalue⟩
          · exact absurd hkey.symm hlast
          · exact ⟨entry, hentry, hkey, hvalue⟩

end Filling

/-- A node with its value and its dictionary. -/
inductive Trie (α : Type u) (β : Type v)
  | node (value : Option β) (child : α → Option (Trie α β))

namespace Trie

variable {α : Type u} {β : Type v}

def value : Trie α β → Option β
  | .node value _ => value

def child : Trie α β → α → Option (Trie α β)
  | .node _ child => child

def empty : Trie α β := .node none fun _ => none

/-- The value at the end of a path. -/
def get : Trie α β → List α → Option β
  | t, [] => t.value
  | t, a :: path =>
      match t.child a with
      | none => none
      | some next => get next path

/-- The tree with a value at the end of a path, whose nodes are made where they are missing. -/
def insert [DecidableEq α] : Trie α β → List α → β → Trie α β
  | .node _ child, [], new => .node (some new) child
  | .node value child, a :: path, new =>
      .node value (Function.update child a (some (insert ((child a).getD empty) path new)))

/-- The values a walk along a word comes past, each with the number of steps taken, which start at `count`. -/
def along : Trie α β → Nat → List α → List (Nat × β)
  | _, _, [] => []
  | t, count, a :: word =>
      match t.child a with
      | none => []
      | some next => next.value.toList.map (fun value => (count + 1, value)) ++ along next (count + 1) word

theorem get_empty (path : List α) : (empty : Trie α β).get path = none := by
  cases path <;> rfl

theorem get_cons (t : Trie α β) (a : α) (path : List α) : t.get (a :: path) = (t.child a).bind fun next => next.get path := by
  rw [get]
  cases t.child a <;> rfl

theorem get_insert [DecidableEq α] (t : Trie α β) (path other : List α) (new : β) :
    (t.insert path new).get other = if other = path then some new else t.get other := by
  induction path generalizing t other with
  | nil =>
      cases t
      cases other <;> rfl
  | cons a path ih =>
      obtain ⟨value, child⟩ := t
      cases other with
      | nil => rfl
      | cons b other =>
          rw [insert, get_cons, get_cons]
          by_cases hb : b = a
          · subst hb
            have hchild : (child b).bind (fun next => next.get other) = ((child b).getD empty).get other := by
              cases child b with
              | none => exact (get_empty other).symm
              | some next => rfl
            simp only [Trie.child, Function.update_self, Option.bind_some, ih, List.cons.injEq, true_and, hchild]
          · simp only [Trie.child, Function.update_of_ne hb, List.cons.injEq, hb, false_and, if_false]

/-- **A walk comes past the values of the prefixes of its word.** -/
theorem mem_along {t : Trie α β} {count n : Nat} {word : List α} {found : β} :
    (n, found) ∈ t.along count word ↔
      ∃ steps, n = count + steps ∧ 0 < steps ∧ steps ≤ word.length ∧ t.get (word.take steps) = some found := by
  induction word generalizing t count with
  | nil =>
      refine iff_of_false List.not_mem_nil ?_
      rintro ⟨steps, -, hpos, hle, -⟩
      exact absurd hle (Nat.not_le.mpr hpos)
  | cons a word ih =>
      rw [along]
      cases hchild : t.child a with
      | none =>
          refine iff_of_false List.not_mem_nil ?_
          rintro ⟨steps, -, hpos, -, hget⟩
          obtain ⟨rest, rfl⟩ := Nat.exists_eq_add_of_lt hpos
          rw [Nat.zero_add, List.take_succ_cons, get_cons, hchild] at hget
          cases hget
      | some next =>
          simp only [List.mem_append, List.mem_map, Option.mem_toList, Prod.mk.injEq, ih]
          constructor
          · rintro (⟨value, hvalue, rfl, rfl⟩ | ⟨steps, rfl, hpos, hle, hget⟩)
            · refine ⟨1, rfl, Nat.one_pos, Nat.succ_le_succ (Nat.zero_le _), ?_⟩
              rw [List.take_succ_cons, get_cons, hchild, List.take_zero]
              exact hvalue
            · refine ⟨steps + 1, by omega, Nat.succ_pos _, Nat.succ_le_succ hle, ?_⟩
              rw [List.take_succ_cons, get_cons, hchild]
              exact hget
          · rintro ⟨steps, rfl, hpos, hle, hget⟩
            obtain ⟨rest, rfl⟩ := Nat.exists_eq_add_of_lt hpos
            rw [Nat.zero_add] at hle hget ⊢
            rw [List.take_succ_cons, get_cons, hchild, Option.bind_some] at hget
            cases rest with
            | zero => exact Or.inl ⟨found, hget, rfl, rfl⟩
            | succ rest => exact Or.inr ⟨rest + 1, by omega, Nat.succ_pos _, Nat.le_of_succ_le_succ hle, hget⟩

end Trie

end Thebends.LibTrie
