import Mathlib.Data.Fintype.EquivFin
import Mathlib.Data.Set.Finite.Basic
import Mathlib.Logic.Relation
import Mathlib.Order.WellFounded
import Thebends.LibExcept

/-! Computations that are given a bound and fail in a way of their own where they have not come to an end within it,
and the cycles that keep a loop with finitely many places from ending. -/

namespace Thebends.LibLoop

open Relation

section Bound

universe u v

variable {ε : Type u} {α β : Type v} {out : ε}

/-- The computation has come to an end, with a value or with a failure other than `out`. -/
def Finished (out : ε) (result : Except ε α) : Prop := result ≠ .error out

theorem Finished.ok (out : ε) (value : α) : Finished out (.ok value) := fun h => nomatch h

theorem Finished.error {failure : ε} (h : failure ≠ out) : Finished out (.error failure : Except ε α) :=
  fun heq => h (Except.error.inj heq)

theorem Finished.bind {first : Except ε α} {next : α → Except ε β} (h : Finished out first)
    (h' : ∀ value, first = .ok value → Finished out (next value)) : Finished out (first >>= next) := by
  cases hfirst : first with
  | error failure => exact Finished.error fun heq => h (heq ▸ hfirst)
  | ok value => exact h' value hfirst

/-- `next` is what becomes of `result` under a larger bound. -/
def Extends (out : ε) (result next : Except ε α) : Prop := Finished out result → next = result

theorem Extends.refl (out : ε) (result : Except ε α) : Extends out result result := fun _ => rfl

/-- Each step is finished where the whole is. -/
theorem Finished.of_bind {first : Except ε α} {next : α → Except ε β} (h : Finished out (first >>= next)) :
    Finished out first := by
  rintro rfl
  exact h rfl

theorem Extends.bind {first first' : Except ε α} {next next' : α → Except ε β} (h : Extends out first first')
    (h' : ∀ value, first = .ok value → Extends out (next value) (next' value)) :
    Extends out (first >>= next) (first' >>= next') := by
  intro hfinished
  rw [h hfinished.of_bind]
  cases hfirst : first with
  | error failure => rfl
  | ok value =>
      rw [hfirst] at hfinished
      exact h' value hfirst hfinished

end Bound

/-- **A loop that does not come round ends.** Where only finitely many places lead on, and no place that is come to
leads back to itself, the places can be taken in the order in which they are come to. -/
theorem acc_of_no_cycle {α : Type*} {r : α → α → Prop} (hfinite : {a | ∃ b, r a b}.Finite) {a : α}
    (h : ∀ b, ReflTransGen r a b → ¬TransGen r b b) : Acc (fun b a => r a b) a := by
  by_contra hnot
  obtain ⟨chain, rfl, hchain⟩ := not_acc_iff_exists_descending_chain.mp hnot
  have hreach : ∀ i j, i ≤ j → ReflTransGen r (chain i) (chain j) := by
    intro i j hle
    induction j, hle using Nat.le_induction with
    | base => exact .refl
    | succ j _ ih => exact ih.tail (hchain j)
  have hsame : ∃ i j, i < j ∧ chain i = chain j := by
    by_contra hnone
    have hinjective : Function.Injective chain := by
      intro i j heq
      rcases Nat.lt_trichotomy i j with hlt | rfl | hgt
      · exact absurd ⟨i, j, hlt, heq⟩ hnone
      · rfl
      · exact absurd ⟨j, i, hgt, heq.symm⟩ hnone
    refine Set.infinite_range_of_injective hinjective (hfinite.subset ?_)
    rintro _ ⟨i, rfl⟩
    exact ⟨_, hchain i⟩
  obtain ⟨i, j, hlt, heq⟩ := hsame
  have hcycle : TransGen r (chain i) (chain j) := .head' (hchain i) (hreach (i + 1) j hlt)
  rw [← heq] at hcycle
  exact h (chain i) (hreach 0 i (Nat.zero_le i)) hcycle

end Thebends.LibLoop
