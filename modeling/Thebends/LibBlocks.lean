import Mathlib.Algebra.Order.Ring.Nat
import Mathlib.Data.List.Basic
import Mathlib.Data.List.Induction

/-! Lists cut into blocks of one size, and what is folded over the blocks of a list: element by element with a buffer
for the block that is not full yet, and two folds that meet although neither list of blocks ends with the other. -/

namespace Thebends.LibBlocks

variable {α B V : Type*}

/-! ### Blocks -/

/-- The full blocks at the front of a list. -/
def blocks (size : Nat) (l : List α) : List (List α) :=
  (List.range (l.length / size)).map fun i => (l.drop (size * i)).take size

/-- What is left behind the full blocks. -/
def rest (size : Nat) (l : List α) : List α := l.drop (size * (l.length / size))

theorem blocks_of_lt {size : Nat} {l : List α} (h : l.length < size) : blocks size l = [] := by
  rw [blocks, Nat.div_eq_of_lt h]
  rfl

theorem rest_of_lt {size : Nat} {l : List α} (h : l.length < size) : rest size l = l := by
  rw [rest, Nat.div_eq_of_lt h, Nat.mul_zero, List.drop_zero]

theorem length_of_mem_blocks {size : Nat} {l block : List α} (h : block ∈ blocks size l) : block.length = size := by
  obtain ⟨i, hi, rfl⟩ := List.mem_map.mp h
  have hfull : size * (i + 1) ≤ l.length :=
    le_trans (Nat.mul_le_mul_left _ (List.mem_range.mp hi)) (Nat.mul_div_le _ _)
  rw [List.length_take, List.length_drop]
  rw [Nat.mul_succ] at hfull
  omega

/-- Behind full blocks the cutting starts again. -/
theorem blocks_append {size : Nat} (hsize : 0 < size) {l m : List α} (h : size ∣ l.length) :
    blocks size (l ++ m) = blocks size l ++ blocks size m := by
  obtain ⟨count, hcount⟩ := h
  have hdiv : l.length / size = count := by rw [hcount, Nat.mul_div_cancel_left _ hsize]
  have hboth : (l ++ m).length / size = count + m.length / size := by
    rw [List.length_append, hcount, Nat.mul_add_div hsize]
  rw [blocks, blocks, blocks, hboth, hdiv, List.range_add, List.map_append, List.map_map]
  congr 1
  · apply List.map_congr_left
    intro i hi
    have hfull : size * (i + 1) ≤ l.length := by
      rw [hcount]
      exact Nat.mul_le_mul_left _ (List.mem_range.mp hi)
    rw [Nat.mul_succ] at hfull
    rw [List.drop_append_of_le_length (by omega), List.take_append_of_le_length (by rw [List.length_drop]; omega)]
  · apply List.map_congr_left
    intro i _
    rw [Function.comp_apply, Nat.mul_add, ← hcount, List.drop_length_add_append]

theorem rest_append {size : Nat} (hsize : 0 < size) {l m : List α} (h : size ∣ l.length) :
    rest size (l ++ m) = rest size m := by
  obtain ⟨count, hcount⟩ := h
  rw [rest, rest, List.length_append, hcount, Nat.mul_add_div hsize, Nat.mul_add, ← hcount,
    List.drop_length_add_append]

theorem blocks_of_length {size : Nat} (hsize : 0 < size) {l : List α} (h : l.length = size) : blocks size l = [l] := by
  rw [blocks, h, Nat.div_self hsize]
  simp [← h]

/-- A list is its full blocks and the rest. -/
theorem flatten_blocks_append_rest {size : Nat} (hsize : 0 < size) (l : List α) :
    (blocks size l).flatten ++ rest size l = l := by
  induction hlength : l.length using Nat.strong_induction_on generalizing l with
  | _ n ih =>
      by_cases hlt : l.length < size
      · rw [blocks_of_lt hlt, rest_of_lt hlt, List.flatten_nil, List.nil_append]
      · have hfirst : (l.take size).length = size := by
          rw [List.length_take]
          omega
        have hshort : (l.drop size).length < n := by
          rw [List.length_drop]
          omega
        have hdvd : size ∣ (l.take size).length := dvd_of_eq hfirst.symm
        have hrest := ih _ hshort (l.drop size) rfl
        conv_lhs => rw [← List.take_append_drop size l]
        rw [blocks_append hsize hdvd, rest_append hsize hdvd, blocks_of_length hsize hfirst, List.singleton_append,
          List.flatten_cons, List.append_assoc, hrest, List.take_append_drop]

theorem length_rest {size : Nat} (l : List α) : (rest size l).length = l.length % size := by
  rw [rest, List.length_drop]
  have := Nat.div_add_mod l.length size
  omega

theorem rest_of_dvd {size : Nat} {l : List α} (h : size ∣ l.length) : rest size l = [] := by
  rw [← List.length_eq_zero_iff, length_rest]
  exact Nat.mod_eq_zero_of_dvd h

theorem dvd_length_flatten_blocks (size : Nat) (l : List α) : size ∣ (blocks size l).flatten.length := by
  have hall : ∀ parts : List (List α), (∀ part ∈ parts, part.length = size) → size ∣ parts.flatten.length := by
    intro parts hparts
    induction parts with
    | nil => exact Nat.dvd_zero size
    | cons part parts ih =>
        rw [List.flatten_cons, List.length_append, hparts part List.mem_cons_self]
        exact Nat.dvd_add dvd_rfl (ih fun other hother => hparts other (List.mem_cons_of_mem _ hother))
  exact hall _ fun _ => length_of_mem_blocks

/-- Only as much of a list matters for the blocks of what follows as is not in a full block yet. -/
theorem blocks_append_rest {size : Nat} (hsize : 0 < size) (l m : List α) :
    blocks size (l ++ m) = blocks size l ++ blocks size (rest size l ++ m) := by
  have hparts := flatten_blocks_append_rest hsize l
  have hdvd := dvd_length_flatten_blocks size l
  have hshort : (rest size l).length < size := by
    rw [length_rest]
    exact Nat.mod_lt _ hsize
  have hfront : blocks size (blocks size l).flatten = blocks size l := by
    have hall := blocks_append hsize (m := rest size l) hdvd
    rw [hparts, blocks_of_lt hshort, List.append_nil] at hall
    exact hall.symm
  conv_lhs => rw [← hparts, List.append_assoc]
  rw [blocks_append hsize hdvd, hfront]

theorem rest_append_rest {size : Nat} (hsize : 0 < size) (l m : List α) :
    rest size (l ++ m) = rest size (rest size l ++ m) := by
  conv_lhs => rw [← flatten_blocks_append_rest hsize l, List.append_assoc]
  rw [rest_append hsize (dvd_length_flatten_blocks size l)]

/-! ### Folding over the blocks -/

/-- What is folded over the full blocks of a list, and the elements behind them. -/
def absorbed (size : Nat) (compress : V → List α → V) (start : V) (l : List α) : V × List α :=
  ((blocks size l).foldl compress start, rest size l)

/-- **One more element** joins the elements behind the full blocks, and with them makes a block if it is the last one
that was missing. -/
theorem absorbed_snoc {size : Nat} (hsize : 0 < size) (compress : V → List α → V) (start : V) (l : List α) (a : α) :
    absorbed size compress start (l ++ [a]) =
      if (rest size l).length + 1 = size then
        (compress (absorbed size compress start l).1 (rest size l ++ [a]), [])
      else ((absorbed size compress start l).1, rest size l ++ [a]) := by
  have hlt : (rest size l).length < size := by
    rw [length_rest]
    exact Nat.mod_lt _ hsize
  have hlength : (rest size l ++ [a]).length = (rest size l).length + 1 := List.length_append
  rw [absorbed, absorbed, blocks_append_rest hsize, rest_append_rest hsize, List.foldl_append]
  split
  · next hfull =>
    have hdvd : size ∣ (rest size l ++ [a]).length := dvd_of_eq (hlength.trans hfull).symm
    rw [blocks_of_length hsize (hlength.trans hfull), rest_of_dvd hdvd]
    rfl
  · next hfull =>
    have hshort : (rest size l ++ [a]).length < size := by omega
    rw [blocks_of_lt hshort, rest_of_lt hshort]
    rfl

/-- The fold comes to `block` with the value `before`. -/
def Visits (compress : V → B → V) (start : V) (all : List B) (before : V) (block : B) : Prop :=
  ∃ front back, all = front ++ block :: back ∧ before = front.foldl compress start

theorem Visits.snoc {compress : V → B → V} {start before : V} {all : List B} {block : B}
    (h : Visits compress start all before block) (last : B) : Visits compress start (all ++ [last]) before block := by
  obtain ⟨front, back, rfl, hbefore⟩ := h
  exact ⟨front, back ++ [last], by rw [List.append_assoc, List.cons_append], hbefore⟩

theorem Visits.last (compress : V → B → V) (start : V) (all : List B) (block : B) :
    Visits compress start (all ++ [block]) (all.foldl compress start) block :=
  ⟨all, [], rfl, rfl⟩

theorem Visits.mem {compress : V → B → V} {start before : V} {all : List B} {block : B}
    (h : Visits compress start all before block) : block ∈ all := by
  obtain ⟨front, back, rfl, -⟩ := h
  exact List.mem_append_right _ List.mem_cons_self

/-- Functions that agree on the blocks of a list come to the same places. -/
theorem Visits.congr {compress compress' : V → B → V} {start before : V} {all : List B} {block : B}
    (h : Visits compress start all before block) (hsame : ∀ value, ∀ other ∈ all, compress value other = compress' value other) :
    Visits compress' start all before block := by
  obtain ⟨front, back, rfl, rfl⟩ := h
  exact ⟨front, back, rfl, List.foldl_ext _ _ _ fun value other hmem => hsame value other (List.mem_append_left _ hmem)⟩

/-- **Where two folds meet.** If neither list ends with the other and the folds over them come to one value, then they
come to one value from different values or by different blocks at some place before. -/
theorem exists_collision {compress : V → B → V} {start start' : V} {all all' : List B}
    (h : all.foldl compress start = all'.foldl compress start') (hsuffix : ¬all <:+ all') (hsuffix' : ¬all' <:+ all) :
    ∃ before block before' block', Visits compress start all before block ∧
      Visits compress start' all' before' block' ∧ (before, block) ≠ (before', block') ∧
      compress before block = compress before' block' := by
  have hkeep : ∀ {front front' : List B} (block : B), front <:+ front' → front ++ [block] <:+ front' ++ [block] := by
    rintro front _ block ⟨more, rfl⟩
    exact ⟨more, (List.append_assoc ..).symm⟩
  induction all using List.reverseRecOn generalizing all' with
  | nil => exact absurd List.nil_suffix hsuffix
  | append_singleton front block ih =>
      rcases List.eq_nil_or_concat all' with rfl | ⟨front', block', rfl⟩
      · exact absurd List.nil_suffix hsuffix'
      · rw [List.concat_eq_append] at h hsuffix hsuffix' ⊢
        rw [List.foldl_append, List.foldl_append] at h
        by_cases hsame : (front.foldl compress start, block) = (front'.foldl compress start', block')
        swap
        · exact ⟨_, block, _, block', .last compress start front block, .last compress start' front' block', hsame, h⟩
        · obtain ⟨hvalue, hblock⟩ := Prod.mk.inj hsame
          subst hblock
          obtain ⟨before, other, before', other', hvisit, hvisit', hne, heq⟩ := ih hvalue
            (fun hend => hsuffix (hkeep block hend)) (fun hend => hsuffix' (hkeep block hend))
          exact ⟨before, other, before', other', hvisit.snoc block, hvisit'.snoc block, hne, heq⟩

end Thebends.LibBlocks
