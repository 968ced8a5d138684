import Mathlib.Data.Fintype.Card
import Mathlib.Data.Set.Finite.Basic
import Mathlib.Logic.Relation

/-! What hangs from a root, where nothing hangs in two places and the root hangs nowhere. There are no cycles,
and what holds of each thing when it holds of all that hang from it holds of everything. -/

namespace Thebends.LibForest

open Relation

variable {α : Type*} {child : α → α → Prop} {root : α}

theorem acyclic (hunique : ∀ x y z, child x z → child y z → x = y) (hroot : ∀ x, ¬child x root) {x : α}
    (h : ReflTransGen child root x) : ¬TransGen child x x := by
  induction h with
  | refl =>
      intro hcycle
      obtain ⟨last, -, hlast⟩ := TransGen.tail'_iff.mp hcycle
      exact hroot last hlast
  | @tail holder x _ hholder ih =>
      intro hcycle
      obtain ⟨last, hchain, hlast⟩ := TransGen.tail'_iff.mp hcycle
      rw [hunique last holder x hlast hholder] at hchain
      exact ih (TransGen.head'_iff.mpr ⟨x, hholder, hchain⟩)

/-- **Induction from below**, where finitely much hangs from the root. -/
theorem induction_below (hunique : ∀ x y z, child x z → child y z → x = y) (hroot : ∀ x, ¬child x root)
    (hfinite : {x | ReflTransGen child root x}.Finite) {P : α → Prop}
    (hstep : ∀ x, ReflTransGen child root x → (∀ y, child x y → P y) → P x) {x : α}
    (h : ReflTransGen child root x) : P x := by
  have : Finite {x // ReflTransGen child root x} := hfinite.to_subtype
  let r (y x : {x // ReflTransGen child root x}) : Prop := TransGen child x.1 y.1
  have : IsTrans _ r := ⟨fun _ _ _ hfirst hsecond => hsecond.trans hfirst⟩
  have : Std.Irrefl r := ⟨fun x => acyclic hunique hroot x.2⟩
  have hall : ∀ x : {x // ReflTransGen child root x}, P x.1 := fun x =>
    (Finite.wellFounded_of_trans_of_irrefl r).induction x fun x ih =>
      hstep x.1 x.2 fun y hy => ih ⟨y, x.2.tail hy⟩ (TransGen.single hy)
  exact hall ⟨x, h⟩

/-! ### Something that is moved -/

section

variable {child' : α → α → Prop} {node target : α}

/-- Nothing else can be reached after it. -/
theorem reachable_of_moved (hmoved : ∀ x y, child' x y → x = target ∧ y = node ∨ child x y ∧ y ≠ node)
    (hnode : ReflTransGen child root node) {x : α} (h : ReflTransGen child' root x) : ReflTransGen child root x := by
  induction h with
  | refl => exact .refl
  | @tail holder x _ hholder ih =>
      rcases hmoved holder x hholder with ⟨-, rfl⟩ | ⟨hold, -⟩
      · exact hnode
      · exact ih.tail hold

/-- **What is moved below itself is lost**, and all that hangs from it. -/
theorem not_reachable_of_moved (hunique : ∀ x y z, child x z → child y z → x = y) (hroot : ∀ x, ¬child x root)
    (hmoved : ∀ x y, child' x y → x = target ∧ y = node ∨ child x y ∧ y ≠ node)
    (hholder : ∃ x, child x node) (hbelow : ReflTransGen child node target) {x : α} (h : ReflTransGen child' root x) :
    ¬ReflTransGen child node x := by
  induction h with
  | refl =>
      intro hchain
      rcases hchain.cases_tail with heq | ⟨holder, -, hlast⟩
      · obtain ⟨holder, hlast⟩ := hholder
        exact hroot holder (heq ▸ hlast)
      · exact hroot holder hlast
  | @tail holder x _ hlast ih =>
      rcases hmoved holder x hlast with ⟨rfl, -⟩ | ⟨hold, hne⟩
      · exact absurd hbelow ih
      · intro hchain
        rcases hchain.cases_tail with heq | ⟨other, hother, hlast'⟩
        · exact hne heq
        · exact ih (hunique holder other x hold hlast' ▸ hother)

end

end Thebends.LibForest
