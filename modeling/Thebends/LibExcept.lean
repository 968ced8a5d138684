/-! Computations that can fail, in the order of their steps: one that succeeds has succeeded at each step. -/

namespace Thebends.LibExcept

universe u v

variable {ε : Type u} {α β : Type v}

theorem ok_bind (value : α) (next : α → Except ε β) : (Except.ok value >>= next) = next value := rfl

theorem bind_ok {first : Except ε α} {next : α → Except ε β} {value : α} {result : β} (h : first = .ok value)
    (h' : next value = .ok result) : (first >>= next) = .ok result := by
  rw [h]
  exact h'

/-- The steps of a computation that succeeded. -/
theorem bind_eq_ok {first : Except ε α} {next : α → Except ε β} {result : β} (h : (first >>= next) = .ok result) :
    ∃ value, first = .ok value ∧ next value = .ok result := by
  cases first with
  | error fault => cases h
  | ok value => exact ⟨value, rfl, h⟩

/-- Two steps that return nothing. -/
theorem unit_bind_iff {first next : Except ε PUnit.{v + 1}} :
    (first >>= fun _ => next) = .ok ⟨⟩ ↔ first = .ok ⟨⟩ ∧ next = .ok ⟨⟩ := by
  cases first with
  | error fault => exact iff_of_false (by rintro ⟨⟩) fun h => nomatch h.1
  | ok value => exact (and_iff_right rfl).symm

theorem map_eq_ok {f : α → β} {first : Except ε α} {result : β} (h : first.map f = .ok result) :
    ∃ value, first = .ok value ∧ f value = result := by
  cases first with
  | error fault => cases h
  | ok value => exact ⟨value, rfl, Except.ok.inj h⟩

theorem exists_map_ok {f : α → β} {first : Except ε α} :
    (∃ result, first.map f = .ok result) ↔ ∃ value, first = .ok value := by
  cases first with
  | error fault => exact iff_of_false (by rintro ⟨_, h⟩; cases h) (by rintro ⟨_, h⟩; cases h)
  | ok value => exact ⟨fun _ => ⟨value, rfl⟩, fun _ => ⟨f value, rfl⟩⟩

theorem exists_ok {x : Except ε α} (h : x.isOk = true) : ∃ value, x = .ok value := by
  cases x with
  | error fault => cases h
  | ok value => exact ⟨value, rfl⟩

end Thebends.LibExcept
