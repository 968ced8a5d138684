import Mathlib.Data.List.Infix

/-! Names that lead through the entries of nodes, from one to the next. Where nothing is entered twice, what is
reached from the root is reached in one way; and a node that is taken from one place and put in another is
found there, with all that is below it. -/

namespace Thebends.LibWalk

variable {α β : Type*}

/-- Where the names lead. -/
def follow (entry : α → β → Option α) : α → List β → Option α
  | node, [] => some node
  | node, name :: names => (entry node name).bind fun next => follow entry next names

section

variable {entry entry' : α → β → Option α}

theorem follow_append (node : α) (names rest : List β) :
    follow entry node (names ++ rest) = (follow entry node names).bind fun next => follow entry next rest := by
  induction names generalizing node with
  | nil => rfl
  | cons name names ih =>
      rw [List.cons_append, follow, follow, Option.bind_assoc]
      exact congrArg _ (funext ih)

theorem follow_concat (node : α) (names : List β) (name : β) :
    follow entry node (names ++ [name]) = (follow entry node names).bind fun next => entry next name := by
  rw [follow_append]
  refine congrArg _ (funext fun next => ?_)
  rw [follow]
  cases entry next name <;> rfl

/-- What is found behind some names is found from where the first of them lead. -/
theorem exists_of_follow_append {node last : α} {names rest : List β} (h : follow entry node (names ++ rest) = some last) :
    ∃ middle, follow entry node names = some middle ∧ follow entry middle rest = some last := by
  rw [follow_append] at h
  exact Option.bind_eq_some_iff.mp h

/-- Names lead nowhere when one of them is not entered in the node to which those before it lead. -/
theorem follow_eq_none_iff {node : α} {names : List β} : follow entry node names = none ↔
    ∃ before name after last, names = before ++ name :: after ∧ follow entry node before = some last ∧
      entry last name = none := by
  constructor
  · intro h
    induction names generalizing node with
    | nil => cases h
    | cons name names ih =>
        cases hentry : entry node name with
        | none => exact ⟨[], name, names, node, rfl, rfl, hentry⟩
        | some next =>
            rw [follow, hentry, Option.bind_some] at h
            obtain ⟨before, missing, after, last, rfl, hlast, hmissing⟩ := ih h
            refine ⟨name :: before, missing, after, last, rfl, ?_, hmissing⟩
            rw [follow, hentry, Option.bind_some, hlast]
  · rintro ⟨before, name, after, last, rfl, hlast, hmissing⟩
    rw [follow_append, hlast, Option.bind_some, follow, hmissing]
    rfl

/-- Names that meet only entries that are the same. -/
theorem follow_congr {node : α} {names : List β}
    (h : ∀ before name after next, names = before ++ name :: after → follow entry node before = some next →
      entry' next name = entry next name) : follow entry' node names = follow entry node names := by
  induction names generalizing node with
  | nil => rfl
  | cons name names ih =>
      rw [follow, follow, h [] name names node rfl rfl]
      cases hnext : entry node name with
      | none => rfl
      | some next =>
          refine ih fun before name' after last hnames hlast => ?_
          refine h (name :: before) name' after last (hnames ▸ rfl) ?_
          rw [follow, hnext]
          exact hlast

/-- Nothing is entered twice, and the root nowhere. -/
structure IsTree (entry : α → β → Option α) (root : α) : Prop where
  once : ∀ x name y name' z, entry x name = some z → entry y name' = some z → x = y ∧ name = name'
  free : ∀ x name, entry x name ≠ some root

/-- **A node is found in one way.** -/
theorem IsTree.unique {root : α} (h : IsTree entry root) {names names' : List β} {node : α}
    (hfirst : follow entry root names = some node) (hsecond : follow entry root names' = some node) :
    names = names' := by
  induction names using List.reverseRecOn generalizing names' node with
  | nil =>
      cases names' using List.reverseRecOn with
      | nil => rfl
      | append_singleton names' name' =>
          cases hfirst
          rw [follow_concat] at hsecond
          obtain ⟨holder, -, hheld⟩ := Option.bind_eq_some_iff.mp hsecond
          exact absurd hheld (h.free holder name')
  | append_singleton names name ih =>
      rw [follow_concat] at hfirst
      obtain ⟨holder, hholder, hheld⟩ := Option.bind_eq_some_iff.mp hfirst
      cases names' using List.reverseRecOn with
      | nil =>
          cases hsecond
          exact absurd hheld (h.free holder name)
      | append_singleton names' name' =>
          rw [follow_concat] at hsecond
          obtain ⟨holder', hholder', hheld'⟩ := Option.bind_eq_some_iff.mp hsecond
          obtain ⟨rfl, rfl⟩ := h.once holder name holder' name' node hheld hheld'
          rw [ih hholder hholder']

/-! ### A node that is moved -/

/-- A node is taken out of one entry and put in another, where it replaces what is there. -/
structure Moved (entry entry' : α → β → Option α) (holder₁ : α) (name₁ : β) (holder₂ : α) (name₂ : β) (node : α) :
    Prop where
  held : entry holder₁ name₁ = some node
  put : entry' holder₂ name₂ = some node
  taken : ¬(holder₁ = holder₂ ∧ name₁ = name₂) → entry' holder₁ name₁ = none
  others : ∀ x name, ¬(x = holder₁ ∧ name = name₁) → ¬(x = holder₂ ∧ name = name₂) → entry' x name = entry x name

namespace Moved

variable {holder₁ holder₂ root node : α} {name₁ name₂ : β} {above₁ above₂ : List β}

/-- Behind other names all is as it was. -/
theorem elsewhere (h : Moved entry entry' holder₁ name₁ holder₂ name₂ node) (htree : IsTree entry root)
    (hsource : follow entry root above₁ = some holder₁) (htarget : follow entry root above₂ = some holder₂)
    {names : List β} (hnot₁ : ¬above₁ ++ [name₁] <+: names) (hnot₂ : ¬above₂ ++ [name₂] <+: names) :
    follow entry' root names = follow entry root names := by
  refine follow_congr fun before name after next hnames hnext => h.others next name ?_ ?_
  · rintro ⟨rfl, rfl⟩
    rw [htree.unique hnext hsource] at hnames
    exact hnot₁ ⟨after, by rw [hnames, List.append_assoc, List.singleton_append]⟩
  · rintro ⟨rfl, rfl⟩
    rw [htree.unique hnext htarget] at hnames
    exact hnot₂ ⟨after, by rw [hnames, List.append_assoc, List.singleton_append]⟩

/-- Nothing has changed where the node is put back in its place. -/
theorem entry_eq (h : Moved entry entry' holder₁ name₁ holder₁ name₁ node) : entry' = entry := by
  funext x name
  by_cases hhere : x = holder₁ ∧ name = name₁
  · obtain ⟨rfl, rfl⟩ := hhere
    exact h.put.trans h.held.symm
  · exact h.others x name hhere hhere

theorem not_prefix_self (names : List β) (name : β) : ¬names ++ [name] <+: names := by
  intro hstart
  have hlength := hstart.length_le
  rw [List.length_append, List.length_singleton] at hlength
  omega

/-- **What is moved is found where it is put, with all that is below it**, if this is not below the node itself. -/
theorem found (h : Moved entry entry' holder₁ name₁ holder₂ name₂ node) (htree : IsTree entry root)
    (hsource : follow entry root above₁ = some holder₁) (htarget : follow entry root above₂ = some holder₂)
    (hbelow : ¬above₁ ++ [name₁] <+: above₂) (rest : List β) :
    follow entry' root (above₂ ++ [name₂] ++ rest) = follow entry root (above₁ ++ [name₁] ++ rest) := by
  have habove : follow entry' root above₂ = some holder₂ :=
    (h.elsewhere htree hsource htarget hbelow (not_prefix_self above₂ name₂)).trans htarget
  have hnode : follow entry root (above₁ ++ [name₁]) = some node := by
    rw [follow_concat, hsource]
    exact h.held
  have hinside : follow entry' node rest = follow entry node rest := by
    refine follow_congr fun before name after next hrest hnext => h.others next name ?_ ?_
    · -- the node is not below itself
      rintro ⟨rfl, rfl⟩
      have hlong : follow entry root (above₁ ++ [name] ++ before) = some next := by
        rw [follow_append, hnode]
        exact hnext
      have hsame := htree.unique hlong hsource
      exact not_prefix_self above₁ name ⟨before, hsame⟩
    · rintro ⟨rfl, rfl⟩
      have hlong : follow entry root (above₁ ++ [name₁] ++ before) = some next := by
        rw [follow_append, hnode]
        exact hnext
      exact hbelow ⟨before, htree.unique hlong htarget⟩
  calc
    follow entry' root (above₂ ++ [name₂] ++ rest) = follow entry' node rest := by
      rw [follow_append, follow_concat, habove, Option.bind_some, h.put, Option.bind_some]
    _ = follow entry root (above₁ ++ [name₁] ++ rest) := by
      rw [follow_append, hnode, Option.bind_some, hinside]

/-- Nothing is found where it was, if no directory above that was replaced. -/
theorem gone (h : Moved entry entry' holder₁ name₁ holder₂ name₂ node) (htree : IsTree entry root)
    (hsource : follow entry root above₁ = some holder₁) (htarget : follow entry root above₂ = some holder₂)
    (hne : ¬(holder₁ = holder₂ ∧ name₁ = name₂)) (habove : ¬above₂ ++ [name₂] <+: above₁) :
    follow entry' root (above₁ ++ [name₁]) = none := by
  have hkept := h.elsewhere htree hsource htarget (not_prefix_self above₁ name₁) habove
  rw [follow_concat, hkept, hsource]
  exact h.taken hne

/-- **What is moved below itself is lost.** -/
theorem lost (h : Moved entry entry' holder₁ name₁ holder₂ name₂ node) (htree : IsTree entry root)
    (hsource : follow entry root above₁ = some holder₁) (htarget : follow entry root above₂ = some holder₂)
    (hbelow : above₁ ++ [name₁] <+: above₂) : follow entry' root (above₂ ++ [name₂]) = none := by
  have hne : ¬(holder₁ = holder₂ ∧ name₁ = name₂) := by
    rintro ⟨rfl, -⟩
    rw [htree.unique htarget hsource] at hbelow
    exact not_prefix_self above₁ name₁ hbelow
  have hshort : ¬above₂ ++ [name₂] <+: above₁ := by
    intro hstart
    have hlong := hstart.trans (List.prefix_append above₁ [name₁])
    exact not_prefix_self above₂ name₂ (hlong.trans hbelow)
  have hgone := h.gone htree hsource htarget hne hshort
  obtain ⟨rest, hrest⟩ := hbelow.trans (List.prefix_append above₂ [name₂])
  rw [← hrest, follow_append, hgone]
  rfl

end Moved

end

end Thebends.LibWalk
