import Thebends.LibExcept

/-! Loops over a list that may return before its end, where whether they do is seen from the element alone. -/

namespace Thebends.LibScan

open LibExcept

universe u v w

variable {ε : Type u} {α : Type w} {β σ : Type v}

/-- A loop: each turn returns with a value, or none and the loop goes on; `done` is returned behind the last element. -/
def scan (turn : α → σ → Except ε (Option β × σ)) (done : β) : List α → σ → Except ε (β × σ)
  | [], state => .ok (done, state)
  | a :: l, state => do
      let (ret, state) ← turn a state
      match ret with
      | none => scan turn done l state
      | some value => return (value, state)

/-- What a turn returns does not depend on the state. -/
def Judges (turn : α → σ → Except ε (Option β × σ)) (judge : α → Except ε (Option β)) : Prop :=
  ∀ a state, (turn a state).map Prod.fst = judge a

section Turn

variable {turn : α → σ → Except ε (Option β × σ)} {judge : α → Except ε (Option β)}

theorem Judges.turn_ok (h : Judges turn judge) {a : α} (state : σ) {ret : Option β} (hjudge : judge a = .ok ret) :
    ∃ state', turn a state = .ok (ret, state') := by
  obtain ⟨⟨ret', state'⟩, hturn, hret⟩ := map_eq_ok ((h a state).trans hjudge)
  exact ⟨state', hret ▸ hturn⟩

theorem Judges.turn_error (h : Judges turn judge) {a : α} {state : σ} {fault : ε} (hjudge : judge a = .error fault) :
    turn a state = .error fault := by
  have hmap := (h a state).trans hjudge
  cases hturn : turn a state with
  | error fault' =>
      rw [hturn] at hmap
      exact congrArg Except.error (Except.error.inj hmap)
  | ok result =>
      rw [hturn] at hmap
      cases hmap

variable {done : β}

theorem scan_cons_none {a : α} {l : List α} {state state' : σ} (h : turn a state = .ok (none, state')) :
    scan turn done (a :: l) state = scan turn done l state' := by
  rw [scan, h]
  rfl

theorem scan_cons_some {a : α} {l : List α} {state state' : σ} {value : β}
    (h : turn a state = .ok (some value, state')) : scan turn done (a :: l) state = .ok (value, state') := by
  rw [scan, h]
  rfl

theorem scan_cons_error {a : α} {l : List α} {state : σ} {fault : ε} (h : turn a state = .error fault) :
    scan turn done (a :: l) state = .error fault := by
  rw [scan, h]
  rfl

/-- What every turn keeps, a loop keeps. -/
theorem scan_keeps {P : σ → Prop} (h : ∀ a state ret state', P state → turn a state = .ok (ret, state') → P state')
    {l : List α} {state state' : σ} {result : β} (hstate : P state) (hscan : scan turn done l state = .ok (result, state')) :
    P state' := by
  induction l generalizing state with
  | nil =>
      obtain ⟨-, rfl⟩ := Prod.mk.inj (Except.ok.inj hscan)
      exact hstate
  | cons a l ih =>
      obtain ⟨⟨ret, next⟩, hturn, hrest⟩ := bind_eq_ok hscan
      have hnext := h a state ret next hstate hturn
      cases ret with
      | none => exact ih hnext hrest
      | some value =>
          obtain ⟨-, rfl⟩ := Prod.mk.inj (Except.ok.inj hrest)
          exact hnext

/-- A loop fails at the first element at which it does not go on, if at all. -/
theorem scan_error_iff (h : Judges turn judge) {l : List α} {state : σ} {fault : ε} :
    scan turn done l state = .error fault ↔
      ∃ before a after, l = before ++ a :: after ∧ (∀ x ∈ before, judge x = .ok none) ∧ judge a = .error fault := by
  constructor
  · intro hscan
    induction l generalizing state with
    | nil => cases hscan
    | cons a l ih =>
        cases hjudge : judge a with
        | error fault' =>
            rw [scan_cons_error (h.turn_error hjudge)] at hscan
            exact ⟨[], a, l, rfl, fun x hx => absurd hx List.not_mem_nil, hjudge.trans (congrArg _ (Except.error.inj hscan))⟩
        | ok ret =>
            obtain ⟨state', hturn⟩ := h.turn_ok state hjudge
            cases ret with
            | some value =>
                rw [scan_cons_some hturn] at hscan
                cases hscan
            | none =>
                rw [scan_cons_none hturn] at hscan
                obtain ⟨before, b, after, rfl, hbefore, hb⟩ := ih hscan
                exact ⟨a :: before, b, after, rfl, List.forall_mem_cons.mpr ⟨hjudge, hbefore⟩, hb⟩
  · rintro ⟨before, a, after, rfl, hbefore, ha⟩
    induction before generalizing state with
    | nil => exact scan_cons_error (h.turn_error ha)
    | cons b before ih =>
        obtain ⟨hb, hbefore⟩ := List.forall_mem_cons.mp hbefore
        obtain ⟨state', hturn⟩ := h.turn_ok state hb
        exact (scan_cons_none hturn).trans (ih hbefore)

/-- Where an element can only return `value`, and nothing else is returned before it, nothing else is returned. -/
theorem scan_eq_of_mem (h : Judges turn judge) {before after : List α} {a : α} {state state' : σ} {value result : β}
    (hbefore : ∀ x ∈ before, ∀ other, judge x = .ok (some other) → other = value)
    (ha : ∀ ret, judge a = .ok ret → ret = some value)
    (hscan : scan turn done (before ++ a :: after) state = .ok (result, state')) : result = value := by
  induction before generalizing state with
  | nil =>
      cases hjudge : judge a with
      | error fault =>
          rw [List.nil_append, scan_cons_error (h.turn_error hjudge)] at hscan
          cases hscan
      | ok ret =>
          obtain rfl := ha ret hjudge
          obtain ⟨state₁, hturn⟩ := h.turn_ok state hjudge
          rw [List.nil_append, scan_cons_some hturn] at hscan
          exact (Prod.mk.inj (Except.ok.inj hscan)).1.symm
  | cons b before ih =>
      obtain ⟨hb, hbefore⟩ := List.forall_mem_cons.mp hbefore
      rw [List.cons_append] at hscan
      cases hjudge : judge b with
      | error fault =>
          rw [scan_cons_error (h.turn_error hjudge)] at hscan
          cases hscan
      | ok ret =>
          obtain ⟨state₁, hturn⟩ := h.turn_ok state hjudge
          cases ret with
          | none =>
              rw [scan_cons_none hturn] at hscan
              exact ih hbefore hscan
          | some other =>
              rw [scan_cons_some hturn] at hscan
              exact (Prod.mk.inj (Except.ok.inj hscan)).1.symm.trans (hb other hjudge)

end Turn

/-- A loop that looks for an element that is not right. -/
theorem scan_all {σ : Type} {turn : α → σ → Except ε (Option Bool × σ)} {right : α → Bool}
    (h : Judges turn fun a => .ok (if right a then none else some false)) (l : List α) (state : σ) :
    ∃ state', scan turn true l state = .ok (l.all right, state') := by
  induction l generalizing state with
  | nil => exact ⟨state, rfl⟩
  | cons a l ih =>
      rw [List.all_cons]
      cases hright : right a with
      | true =>
          obtain ⟨state₁, hturn⟩ := h.turn_ok state (congrArg Except.ok (if_pos hright))
          rw [scan_cons_none hturn, Bool.true_and]
          exact ih state₁
      | false =>
          obtain ⟨state₁, hturn⟩ := h.turn_ok state
            (congrArg Except.ok (if_neg (Bool.eq_false_iff.mp hright)))
          exact ⟨state₁, scan_cons_some hturn⟩

end Thebends.LibScan
