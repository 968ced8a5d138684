import Mathlib.Logic.Relation
import Mathlib.Order.WellFounded
import Thebends.LibExcept

/-! Runs of a labelled transition relation, the invariant rule they obey, and the facts about
chains that reasoning about who waits for whom needs. Nothing here knows what the states or
the labels are. -/

namespace Thebends.LibRun

variable {S A : Type*}

/-- `Run step start labels finish`: taking the labels in order leads from `start` to `finish`. -/
inductive Run (step : S → A → S → Prop) : S → List A → S → Prop
  | nil (start : S) : Run step start [] start
  | snoc {start middle finish : S} {labels : List A} {label : A} :
      Run step start labels middle → step middle label finish →
        Run step start (labels ++ [label]) finish

/-- The steps of `step` that meet a condition on the state before them. -/
def Restrict (step : S → A → S → Prop) (cond : S → A → Prop) : S → A → S → Prop :=
  fun before label after => cond before label ∧ step before label after

namespace Run

variable {step : S → A → S → Prop}

/-- **The invariant rule.** What holds at the start and is kept by every step holds after every
run; it may speak of the labels taken so far. -/
theorem invariant {start finish : S} {labels : List A} (I : List A → S → Prop)
    (h : Run step start labels finish) (hstart : I [] start)
    (hstep : ∀ labels before label after, Run step start labels before → I labels before →
      step before label after → I (labels ++ [label]) after) : I labels finish := by
  induction h with
  | nil => exact hstart
  | snoc hrun hlast ih => exact hstep _ _ _ _ hrun ih hlast

theorem trans {start middle finish : S} {first second : List A} (h : Run step start first middle)
    (h' : Run step middle second finish) : Run step start (first ++ second) finish := by
  induction h' with
  | nil => simpa using h
  | snoc _ hlast ih =>
      rw [← List.append_assoc]
      exact Run.snoc ih hlast

theorem single {before after : S} {label : A} (h : step before label after) :
    Run step before [label] after := by
  rw [← List.nil_append [label]]
  exact Run.snoc (Run.nil before) h

theorem cons {before middle finish : S} {label : A} {labels : List A} (h : step before label middle)
    (h' : Run step middle labels finish) : Run step before (label :: labels) finish :=
  (single h).trans h'

theorem mono {step' : S → A → S → Prop} (hle : ∀ s a s', step s a s' → step' s a s')
    {start finish : S} {labels : List A} (h : Run step start labels finish) :
    Run step' start labels finish := by
  induction h with
  | nil => exact Run.nil _
  | snoc _ hlast ih => exact Run.snoc ih (hle _ _ _ hlast)

/-- A restricted run is a run. -/
theorem forget {cond : S → A → Prop} {start finish : S} {labels : List A}
    (h : Run (Restrict step cond) start labels finish) : Run step start labels finish :=
  h.mono fun _ _ _ hstep => hstep.2

/-- Each step of a run starts where the run of the labels before it ends. -/
theorem step_at {start finish : S} {labels before after : List A} {label : A} (h : Run step start labels finish)
    (hlabels : labels = before ++ label :: after) : ∃ middle next, Run step start before middle ∧ step middle label next := by
  induction h generalizing after with
  | nil => exact absurd hlabels.symm (List.append_ne_nil_of_right_ne_nil _ (List.cons_ne_nil _ _))
  | @snoc middle finish labels last hrun hlast ih =>
      rcases List.eq_nil_or_concat after with rfl | ⟨rest, final, rfl⟩
      · obtain ⟨rfl, hlabel⟩ := List.append_inj' hlabels rfl
        cases hlabel
        exact ⟨middle, finish, hrun, hlast⟩
      · rw [List.concat_eq_append, ← List.cons_append, ← List.append_assoc] at hlabels
        exact ih (List.append_inj' hlabels rfl).1

/-- What a computation goes through is a run. -/
theorem of_foldlM {ε : Type*} (apply : S → A → Except ε S) (start : S) (labels : List A) {finish : S}
    (h : labels.foldlM apply start = .ok finish) :
    Run (fun before label after => apply before label = .ok after) start labels finish := by
  induction labels generalizing start with
  | nil =>
      cases h
      exact Run.nil _
  | cons label labels ih =>
      rw [List.foldlM_cons] at h
      obtain ⟨middle, hfirst, hrest⟩ := LibExcept.bind_eq_ok h
      exact (Run.single hfirst).trans (ih middle hrest)

/-- Where a state and a label leave one outcome, so do the labels of a run. -/
theorem unique (hfun : ∀ before label after other,
      step before label after → step before label other → after = other)
    {start finish other : S} {labels : List A} (h : Run step start labels finish)
    (h' : Run step start labels other) : finish = other := by
  induction h generalizing other with
  | nil =>
      generalize heq : ([] : List A) = labels at h'
      cases h' with
      | nil => rfl
      | snoc _ _ => exact absurd heq.symm (List.append_ne_nil_of_right_ne_nil _ (List.cons_ne_nil _ _))
  | @snoc middle finish labels label _ hlast ih =>
      generalize heq : labels ++ [label] = all at h'
      cases h' with
      | nil => exact absurd heq (List.append_ne_nil_of_right_ne_nil _ (List.cons_ne_nil _ _))
      | snoc hrun' hlast' =>
          obtain ⟨rfl, hlabel⟩ := List.append_inj' heq rfl
          cases hlabel
          rw [ih hrun'] at hlast
          exact hfun _ _ _ _ hlast hlast'

/-- **Exact conditions.** Where the condition of a step says, in a state with the property, that the step
keeps it, a run goes through states with the property only if, and only if, all its steps meet the
condition. What the states with the property have besides may be used for this. -/
theorem forall_iff_restrict {I P : S → Prop} {cond : S → A → Prop}
    (hfun : ∀ before label after other,
      step before label after → step before label other → after = other)
    (hstep : ∀ before label after, I before → P before → step before label after →
      (P after ↔ cond before label) ∧ (P after → I after))
    {start finish : S} {labels : List A} (hinv : I start) (hstart : P start) (h : Run step start labels finish) :
    (∀ taken state, taken <+: labels → Run step start taken state → P state) ↔
      Run (Restrict step cond) start labels finish := by
  constructor
  · intro hall
    suffices hboth : I finish ∧ Run (Restrict step cond) start labels finish from hboth.2
    induction h with
    | nil => exact ⟨hinv, Run.nil _⟩
    | @snoc middle finish labels label hrun hlast ih =>
        obtain ⟨hmiddle, hrestricted⟩ := ih fun taken state htaken =>
          hall taken state (htaken.trans (List.prefix_append _ _))
        have hbefore : P middle := hall labels middle (List.prefix_append _ _) hrun
        have hafter : P finish := hall _ finish List.prefix_rfl (Run.snoc hrun hlast)
        obtain ⟨hcond, hkeep⟩ := hstep _ _ _ hmiddle hbefore hlast
        exact ⟨hkeep hafter, Run.snoc hrestricted ⟨hcond.mp hafter, hlast⟩⟩
  · intro hrestricted
    have hgood : ∀ {taken state}, Run (Restrict step cond) start taken state → P state := fun hrun =>
      (hrun.invariant (fun _ state => I state ∧ P state) ⟨hinv, hstart⟩ fun _ _ _ _ _ hbefore hboth => by
        obtain ⟨hcond, hkeep⟩ := hstep _ _ _ hbefore.1 hbefore.2 hboth.2
        exact ⟨hkeep (hcond.mpr hboth.1), hcond.mpr hboth.1⟩).2
    clear h
    induction hrestricted with
    | nil =>
        intro taken state htaken hrun
        rw [List.prefix_nil.mp htaken] at hrun
        rwa [← (Run.nil start).unique hfun hrun]
    | @snoc middle finish labels label hrun hboth ih =>
        intro taken state htaken hrun'
        rcases List.prefix_concat_iff.mp htaken with heq | hshort
        · rw [heq] at hrun'
          rw [← (Run.snoc hrun.forget hboth.2).unique hfun hrun']
          exact hgood (Run.snoc hrun hboth)
        · exact ih taken state hshort hrun'

end Run

section Chains

open Relation

variable {α : Type*} {r r' : α → α → Prop} {node : α}

/-- A chain of the new relation either avoids the one node whose edges changed, or its part up to
that node is a chain of the old relation. -/
theorem reflTransGen_until (hagree : ∀ x y, x ≠ node → r' x y → r x y) {a b : α}
    (h : ReflTransGen r' a b) : ReflTransGen r a b ∨ ReflTransGen r a node := by
  induction h using ReflTransGen.head_induction_on with
  | refl => exact Or.inl .refl
  | @head x y hxy _ ih =>
      by_cases hx : x = node
      · subst hx
        exact Or.inr .refl
      · have hedge := hagree x y hx hxy
        rcases ih with hchain | hchain
        · exact Or.inl (.head hedge hchain)
        · exact Or.inr (.head hedge hchain)

theorem transGen_through (hagree : ∀ x y, x ≠ node → r' x y → r x y) {a b : α}
    (h : TransGen r' a b) :
    TransGen r a b ∨ (ReflTransGen r a node ∧ ∃ y, r' node y ∧ ReflTransGen r' y b) := by
  induction h using TransGen.head_induction_on with
  | @single x hxb =>
      by_cases hx : x = node
      · subst hx
        exact Or.inr ⟨.refl, b, hxb, .refl⟩
      · exact Or.inl (.single (hagree x b hx hxb))
  | @head x y hxy hyb ih =>
      by_cases hx : x = node
      · subst hx
        exact Or.inr ⟨.refl, y, hxy, hyb.to_reflTransGen⟩
      · have hedge := hagree x y hx hxy
        rcases ih with hchain | ⟨hchain, hrest⟩
        · exact Or.inl (.head hedge hchain)
        · exact Or.inr ⟨.head hedge hchain, hrest⟩

/-- **New cycles pass through the changed node.** When only the edges out of `node` change and the
old relation has no cycle, a cycle of the new one leaves `node` by a new edge and comes back to it
along old ones. -/
theorem cycle_through (hagree : ∀ x y, x ≠ node → r' x y → r x y)
    (hacyclic : ∀ x, ¬TransGen r x x) {a : α} (h : TransGen r' a a) :
    ∃ y, r' node y ∧ ReflTransGen r y node := by
  rcases transGen_through hagree h with hold | ⟨hto, y, hedge, hback⟩
  · exact absurd hold (hacyclic a)
  · refine ⟨y, hedge, ?_⟩
    rcases reflTransGen_until hagree hback with hchain | hchain
    · exact hchain.trans hto
    · exact hchain

/-- A cycle of the new relation is one of the old relation when the new edges all lead to nodes that
no edge leaves. -/
theorem cycle_of_dead_ends (hagree : ∀ x y, r' x y → (∃ z, r' y z) → r x y) {a : α} (h : TransGen r' a a) :
    TransGen r a a := by
  have hleaves : ∀ {b}, TransGen r' a b → (∃ z, r' b z) → TransGen r a b := by
    intro b hchain
    induction hchain with
    | single hedge => exact fun hout => .single (hagree _ _ hedge hout)
    | @tail y z _ hedge ih => exact fun hout => .tail (ih ⟨z, hedge⟩) (hagree _ _ hedge hout)
  obtain ⟨z, hedge, -⟩ := TransGen.head'_iff.mp h
  exact hleaves h ⟨z, hedge⟩

/-- A relation without infinite chains stays so when one node gets new edges, none of which leads back
to it along the old ones. -/
theorem wellFounded_of_agree (hagree : ∀ x y, x ≠ node → r' x y → r x y)
    (hnew : ∀ y, r' node y → r node y ∨ ¬ReflTransGen r y node) (hwf : WellFounded (Function.swap r)) :
    WellFounded (Function.swap r') := by
  have hback : ∀ y, r' node y → ¬ReflTransGen r y node := by
    intro y hedge hchain
    rcases hnew y hedge with hold | hno
    · have hcycle : TransGen (Function.swap r) node node := transGen_swap.mpr (TransGen.head' hold hchain)
      exact hwf.transGen.irrefl.irrefl node hcycle
    · exact hno hchain
  -- away from the node nothing has changed
  have haway : ∀ x, ¬ReflTransGen r x node → Acc (Function.swap r') x := by
    intro x
    induction x using hwf.induction with
    | _ x ih =>
        intro hno
        refine .intro x fun y hedge => ?_
        have hx : x ≠ node := fun heq => hno (heq ▸ .refl)
        have hold := hagree x y hx hedge
        exact ih y hold fun hchain => hno (.head hold hchain)
  have hnode : Acc (Function.swap r') node := .intro node fun y hedge => haway y (hback y hedge)
  refine ⟨fun x => ?_⟩
  induction x using hwf.induction with
  | _ x ih =>
      by_cases hx : x = node
      · rw [hx]
        exact hnode
      · exact .intro x fun y hedge => ih y (hagree x y hx hedge)

end Chains

end Thebends.LibRun
