import Mathlib.Data.List.Basic
import Mathlib.Data.Nat.Init

/-! Lists that are cut at a separator, into all pieces or into those that are not empty. A list is a last piece, or a
piece and a separator in front of a list; this is the induction that the facts about the pieces go by. -/

namespace Thebends.LibSplit

variable {α : Type*} [DecidableEq α]

theorem idxOf?_append {c : α} {piece : List α} (h : c ∉ piece) (rest : List α) :
    (piece ++ c :: rest).idxOf? c = some piece.length := by
  induction piece with
  | nil => simp [List.idxOf?_cons]
  | cons d piece ih =>
      rw [List.mem_cons, not_or] at h
      rw [List.cons_append, List.idxOf?_cons, if_neg (by simpa using Ne.symm h.1), ih h.2]
      rfl

@[elab_as_elim]
theorem induction_on {motive : List α → Prop} (c : α) (last : ∀ piece, c ∉ piece → motive piece)
    (cut : ∀ piece rest, c ∉ piece → motive rest → motive (piece ++ c :: rest)) (xs : List α) : motive xs := by
  induction hlength : xs.length using Nat.strong_induction_on generalizing xs with
  | _ length ih =>
      by_cases hmem : c ∈ xs
      · obtain ⟨piece, rest, rfl, hpiece⟩ := List.eq_append_cons_of_mem hmem
        have hshorter : rest.length < length := by
          rw [List.length_append, List.length_cons] at hlength
          omega
        exact cut piece rest hpiece (ih rest.length hshorter rest rfl)
      · exact last xs hmem

theorem not_mem_of_mem_splitOn {c : α} {piece xs : List α} (h : piece ∈ xs.splitOn c) : c ∉ piece := by
  induction xs using induction_on c with
  | last xs hxs =>
      rw [List.splitOn_eq_singleton hxs, List.mem_singleton] at h
      rwa [h]
  | cut first rest hfirst ih =>
      rw [List.splitOn_append_cons_self_of_not_mem hfirst] at h
      rcases List.mem_cons.mp h with rfl | hrest
      · exact hfirst
      · exact ih hrest

theorem filter_eq_self_of_not_mem {c : α} {xs : List α} (h : c ∉ xs) : xs.filter (· ≠ c) = xs :=
  List.filter_eq_self.mpr fun _ hx => decide_eq_true fun heq => h (heq ▸ hx)

theorem flatten_splitOn (c : α) (xs : List α) : (xs.splitOn c).flatten = xs.filter (· ≠ c) := by
  induction xs using induction_on c with
  | last xs hxs => rw [List.splitOn_eq_singleton hxs, List.flatten_singleton, filter_eq_self_of_not_mem hxs]
  | cut piece rest hpiece ih =>
      calc
        ((piece ++ c :: rest).splitOn c).flatten = piece ++ (rest.splitOn c).flatten := by
          rw [List.splitOn_append_cons_self_of_not_mem hpiece, List.flatten_cons]
        _ = piece.filter (· ≠ c) ++ rest.filter (· ≠ c) := by rw [ih, filter_eq_self_of_not_mem hpiece]
        _ = (piece ++ c :: rest).filter (· ≠ c) := by simp

/-! ### The pieces that are not empty -/

/-- A piece, if it is not empty. -/
def push (piece : List α) : List (List α) := if piece = [] then [] else [piece]

/-- The pieces that are not empty. -/
def pieces (xs : List α) (c : α) : List (List α) := (xs.splitOn c).filter (· ≠ [])

theorem pieces_last {c : α} {xs : List α} (h : c ∉ xs) : pieces xs c = push xs := by
  rw [pieces, List.splitOn_eq_singleton h, push]
  by_cases hxs : xs = []
  · simp [hxs]
  · simp [hxs]

/-- A separator parts what is before it from what is behind it. -/
theorem pieces_append (c : α) (xs ys : List α) : pieces (xs ++ c :: ys) c = pieces xs c ++ pieces ys c := by
  rw [pieces, List.splitOn_append_cons_self, List.filter_append, pieces, pieces]

theorem pieces_cut {c : α} {piece : List α} (h : c ∉ piece) (rest : List α) :
    pieces (piece ++ c :: rest) c = push piece ++ pieces rest c := by
  rw [pieces_append, pieces_last h]

theorem of_mem_pieces {c : α} {piece xs : List α} (h : piece ∈ pieces xs c) : piece ≠ [] ∧ c ∉ piece := by
  obtain ⟨hmem, hne⟩ := List.mem_filter.mp h
  exact ⟨of_decide_eq_true hne, not_mem_of_mem_splitOn hmem⟩

theorem flatten_pieces (c : α) (xs : List α) : (pieces xs c).flatten = xs.filter (· ≠ c) := by
  rw [← flatten_splitOn, pieces]
  exact List.flatten_filter_ne_nil

theorem pieces_intercalate {c : α} {all : List (List α)} (h : ∀ piece ∈ all, c ∉ piece ∧ piece ≠ []) :
    pieces ([c].intercalate all) c = all := by
  by_cases hall : all = []
  · rw [hall, List.intercalate_nil, pieces_last List.not_mem_nil, push, if_pos rfl]
  · rw [pieces, List.splitOn_intercalate c (fun piece hpiece => (h piece hpiece).1) hall]
    exact List.filter_eq_self.mpr fun piece hpiece => decide_eq_true (h piece hpiece).2

end Thebends.LibSplit
