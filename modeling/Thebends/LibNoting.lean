import Mathlib.Tactic.Common

/-! Computations that read a memory, in any monad. What such a computation gives, and which positions it reads, in
their order, follows one rule for each way to make a computation. A monad that notes each position that is read obeys
these rules, and so does one in which a position behind the end of the memory is a fault. -/

namespace Thebends.LibNoting

variable {γ ε α β : Type}

def readRange {m : Type → Type} [Monad m] (readAt : Nat → m γ) (start count : Nat) : m (List γ) :=
  (List.range' start count).mapM readAt

/-- When a computation gives a value and reads some positions of a memory. -/
structure Reading (m : Type → Type) [Monad m] (readAt : Nat → m γ) (memory : Nat → γ) where
  Visits : {α : Type} → m α → α → List Nat → Prop
  visits_pure : ∀ {α : Type} (value : α), Visits (pure value) value []
  visits_readAt : ∀ position, Visits (readAt position) (memory position) [position]
  visits_bind : ∀ {α β : Type} {first : m α} {next : α → m β} {value : α} {result : β} {positions positions' : List Nat},
    Visits first value positions → Visits (next value) result positions' →
      Visits (first >>= next) result (positions ++ positions')

namespace Reading

variable {m : Type → Type} [Monad m] {readAt : Nat → m γ} {memory : Nat → γ} {R : Reading m readAt memory}

theorem Visits.bind {first : m α} {next : α → m β} {value : α} {result : β} {positions positions' : List Nat}
    (h : R.Visits first value positions) (h' : R.Visits (next value) result positions') :
    R.Visits (first >>= next) result (positions ++ positions') := R.visits_bind h h'

/-- Something is done with what was read. -/
theorem Visits.map {first : m α} {value : α} {positions : List Nat} (h : R.Visits first value positions)
    (f : α → β) : R.Visits (first >>= fun value => pure (f value)) (f value) positions := by
  have hboth : R.Visits (first >>= fun value => pure (f value)) (f value) (positions ++ []) :=
    h.bind (R.visits_pure (f value))
  rw [List.append_nil] at hboth
  exact hboth

theorem Visits.ite {condition : Prop} [Decidable condition] {computation computation' : m α} {value value' : α}
    {positions positions' : List Nat} (h : condition → R.Visits computation value positions)
    (h' : ¬condition → R.Visits computation' value' positions') :
    R.Visits (if condition then computation else computation') (if condition then value else value')
      (if condition then positions else positions') := by
  split
  case isTrue hcondition => exact h hcondition
  case isFalse hcondition => exact h' hcondition

variable (R)

theorem visits_mapM [LawfulMonad m] {step : α → m β} {value : α → β} {positions : α → List Nat}
    (h : ∀ x, R.Visits (step x) (value x) (positions x)) (items : List α) :
    R.Visits (items.mapM step) (items.map value) (items.flatMap positions) := by
  induction items with
  | nil => exact R.visits_pure []
  | cons item items ih =>
      rw [List.mapM_cons, List.map_cons, List.flatMap_cons]
      exact (h item).bind (ih.map fun rest => value item :: rest)

theorem visits_readRange [LawfulMonad m] (start count : Nat) :
    R.Visits (readRange readAt start count) ((List.range' start count).map memory) (List.range' start count) := by
  have hall := R.visits_mapM R.visits_readAt (List.range' start count)
  rw [List.flatMap_singleton'] at hall
  exact hall

end Reading

/-! ### Noting the positions -/

abbrev Noting : Type → Type := StateM (List Nat)

def noteAt (memory : Nat → γ) (position : Nat) : Noting γ := do
  modify fun seen => seen ++ [position]
  return memory position

/-- The value, and the positions behind those that were noted before. -/
def Notes (computation : Noting α) (value : α) (positions : List Nat) : Prop :=
  ∀ seen, computation seen = (value, seen ++ positions)

theorem notes_pure (value : α) : Notes (pure value) value [] := by
  intro seen
  rw [List.append_nil]
  rfl

theorem notes_noteAt (memory : Nat → γ) (position : Nat) :
    Notes (noteAt memory position) (memory position) [position] := fun _ => rfl

theorem Notes.bind {first : Noting α} {next : α → Noting β} {value : α} {result : β} {positions positions' : List Nat}
    (h : Notes first value positions) (h' : Notes (next value) result positions') :
    Notes (first >>= next) result (positions ++ positions') := by
  intro seen
  have hboth : (first >>= next) seen = next (first seen).1 (first seen).2 := rfl
  rw [hboth, h seen, h' (seen ++ positions), List.append_assoc]

def noting (memory : Nat → γ) : Reading Noting (noteAt memory) memory :=
  ⟨Notes, notes_pure, notes_noteAt memory, Notes.bind⟩

/-! ### A memory that ends -/

def fetch (memory : List γ) (fault : ε) (position : Nat) : Except ε γ :=
  match memory[position]? with
  | some value => .ok value
  | none => .error fault

/-- The computation succeeds just when all positions lie in the memory. -/
def Succeeds (memory : List γ) (fault : ε) (computation : Except ε α) (value : α) (positions : List Nat) : Prop :=
  computation = if ∀ position ∈ positions, position < memory.length then .ok value else .error fault

section

variable {memory : List γ} {fault : ε}

theorem succeeds_pure (value : α) : Succeeds memory fault (pure value) value [] :=
  (if_pos (List.forall_mem_nil _)).symm

theorem succeeds_fetch (behind : γ) (position : Nat) :
    Succeeds memory fault (fetch memory fault position) (memory.getD position behind) [position] := by
  rw [Succeeds, fetch, List.getD_eq_getElem?_getD, if_congr (List.forall_mem_singleton) rfl rfl]
  by_cases h : position < memory.length
  · rw [List.getElem?_eq_getElem h, if_pos h]
    rfl
  · rw [List.getElem?_eq_none (Nat.le_of_not_lt h), if_neg h]

theorem Succeeds.bind {first : Except ε α} {next : α → Except ε β} {value : α} {result : β}
    {positions positions' : List Nat} (h : Succeeds memory fault first value positions)
    (h' : Succeeds memory fault (next value) result positions') :
    Succeeds memory fault (first >>= next) result (positions ++ positions') := by
  rw [Succeeds, if_congr List.forall_mem_append rfl rfl]
  rw [Succeeds] at h h'
  by_cases hfirst : ∀ position ∈ positions, position < memory.length
  · rw [if_pos hfirst] at h
    rw [h, if_congr (and_iff_right hfirst) rfl rfl, ← h']
    rfl
  · rw [if_neg hfirst] at h
    rw [h, if_neg fun hboth => hfirst hboth.1]
    rfl

end

/-- What would lie behind the memory does not matter. -/
def within (memory : List γ) (fault : ε) (behind : γ) :
    Reading (Except ε) (fetch memory fault) (fun position => memory.getD position behind) :=
  ⟨Succeeds memory fault, succeeds_pure, succeeds_fetch behind, Succeeds.bind⟩

end Thebends.LibNoting
