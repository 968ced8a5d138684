import Mathlib.Algebra.Order.Field.Rat
import Mathlib.Data.Rat.Cast.Order
import Mathlib.Tactic.NormNum
import Mathlib.Tactic.Linarith
import Mathlib.Tactic.Ring

/-! The envelope of the synthesizer (`envelope.cpp`), with exact numbers for its `float`s and `long`s. A slope over a
length of zero is no number in the source and zero here; it is computed, but no value is computed from it. -/

namespace Thebends.Synth

inductive State
  | attack
  | decay
  | sustain
  | release
  | done
  deriving DecidableEq, Repr

/-- `Envelope`, with what its setters assert. -/
structure Envelope where
  attack : Int
  attackSlope : ℚ
  decay : Int
  decayEnd : Int
  decaySlope : ℚ
  sustain : ℚ
  release : Int
  releaseStart : Int
  releaseEnd : Int
  releaseSlope : ℚ
  current : Int
  lastValue : ℚ
  state : State
  releaseStartValue : ℚ
  attack_nonneg : 0 ≤ attack
  decay_nonneg : 0 ≤ decay
  release_nonneg : 0 ≤ release
  sustain_nonneg : 0 ≤ sustain
  sustain_le_one : sustain ≤ 1

namespace Envelope

/-- The constructor leaves two members without a value. -/
def new (lastValue releaseStartValue : ℚ) : Envelope where
  attack := 0
  attackSlope := 0
  decay := 0
  decayEnd := 0
  decaySlope := 0
  sustain := 1
  release := 0
  releaseStart := 0
  releaseEnd := 0
  releaseSlope := 0
  current := 0
  lastValue := lastValue
  state := .done
  releaseStartValue := releaseStartValue
  attack_nonneg := le_rfl
  decay_nonneg := le_rfl
  release_nonneg := le_rfl
  sustain_nonneg := zero_le_one
  sustain_le_one := le_rfl

def setAttack (env : Envelope) (attack : Int) : Option Envelope :=
  if h : 0 ≤ attack then some { env with attack := attack, attack_nonneg := h } else none

def setDecay (env : Envelope) (decay : Int) : Option Envelope :=
  if h : 0 ≤ decay then some { env with decay := decay, decay_nonneg := h } else none

def setSustain (env : Envelope) (sustain : ℚ) : Option Envelope :=
  if h : sustain ≤ 1 ∧ 0 ≤ sustain then
    some { env with sustain := sustain, sustain_nonneg := h.2, sustain_le_one := h.1 }
  else none

def setRelease (env : Envelope) (release : Int) : Option Envelope :=
  if h : 0 ≤ release then some { env with release := release, release_nonneg := h } else none

/-- `NoteOn`. -/
def noteOn (env : Envelope) : Envelope :=
  { env with
    current := 0
    decayEnd := env.attack + env.decay
    attackSlope := 1 / env.attack
    decaySlope := (1 - env.sustain) / env.decay
    state := .attack }

/-- `NoteOff`. -/
def noteOff (env : Envelope) : Envelope :=
  { env with
    state := .release
    releaseSlope := env.sustain / env.release
    releaseStartValue := min env.sustain env.lastValue
    releaseStart := env.current
    releaseEnd := env.current + env.release }

/-- The state that `GetValue` passes to before it computes a value, the clock being at `current`. -/
def nextState (env : Envelope) (current : Int) : State :=
  let state :=
    if env.state = .attack ∨ env.state = .decay then
      if current > env.decayEnd then .sustain else if current > env.attack then .decay else env.state
    else env.state
  let state := if state = .sustain then if env.sustain ≤ 0 then .done else state else state
  if state = .release then if current > env.releaseEnd then .done else state else state

/-- The value in a state; none where an assertion fails. -/
def valueIn (env : Envelope) (current : Int) : State → Option ℚ
  | .attack => some (current * env.attackSlope)
  | .decay =>
      if current ≥ env.attack then some (max (1 - (current - env.attack : Int) * env.decaySlope) env.sustain) else none
  | .sustain => if env.sustain > 0 then some env.sustain else none
  | .release =>
      if current ≥ env.releaseStart then
        some (env.releaseStartValue - (current - env.releaseStart : Int) * env.releaseSlope)
      else none
  | .done => some 0

/-- `GetValue`. -/
def getValue (env : Envelope) : Option (ℚ × Envelope) := do
  let current := env.current + 1
  let state := env.nextState current
  let value ← env.valueIn current state
  return (value, { env with current := current, state := state, lastValue := value })

/-- Some calls of `GetValue`. -/
def getValues : Nat → Envelope → Option (List ℚ × Envelope)
  | 0, env => some ([], env)
  | count + 1, env => do
      let (value, env) ← env.getValue
      let (values, env) ← getValues count env
      return (value :: values, env)

/-- A note that is held for some calls and then released: the values of each part. -/
def play (env : Envelope) (before after : Nat) : Option (List ℚ × List ℚ) := do
  let (held, env) ← getValues before env.noteOn
  let (released, _) ← getValues after env.noteOff
  return (held, released)

end Envelope

/-- What is expected of a note: all values are from zero to one, and from the last one before the release on they never
go up. -/
structure IsShape (held released : List ℚ) : Prop where
  range : ∀ value ∈ held ++ released, 0 ≤ value ∧ value ≤ 1
  falls : (held.getLast?.toList ++ released).Pairwise (· ≥ ·)

namespace Envelope

variable {env env' : Envelope}

/-! ### The values call by call -/

/-- What every call keeps, and what it answers, say what some calls answer. -/
theorem getValues_eq {I : Nat → Envelope → Prop} {f : Nat → ℚ}
    (hstep : ∀ i env, I i env → ∃ env', env.getValue = some (f (i + 1), env') ∧ I (i + 1) env') (count : Nat) :
    ∀ {i : Nat} {env : Envelope}, I i env → ∃ env',
      getValues count env = some ((List.range count).map fun k => f (i + k + 1), env') ∧ I (i + count) env' := by
  induction count with
  | zero => exact fun hi => ⟨_, rfl, hi⟩
  | succ count ih =>
      intro i env hi
      obtain ⟨next, hvalue, hnext⟩ := hstep i env hi
      obtain ⟨env', hvalues, hlast⟩ := ih hnext
      have hlist : (List.range count).map (fun k => f (i + 1 + k + 1)) =
          (List.range count).map ((fun k => f (i + k + 1)) ∘ Nat.succ) := by
        apply List.map_congr_left
        intro k _
        rw [Function.comp_apply, Nat.succ_eq_add_one, ← Nat.add_assoc, Nat.add_right_comm i 1 k]
      refine ⟨env', ?_, by rwa [Nat.add_right_comm, Nat.add_assoc] at hlast⟩
      rw [getValues, hvalue]
      show (getValues count next).bind _ = _
      rw [hvalues, List.range_succ_eq_map, List.map_cons, List.map_map, hlist]
      rfl

/-- Before the release the state passes on with the clock, -/
theorem nextState_rising (h : env.state = .attack ∨ env.state = .decay) (current : Int) : env.nextState current =
    if current > env.decayEnd then if env.sustain ≤ 0 then .done else .sustain
    else if current > env.attack then .decay else env.state := by
  rw [nextState, if_pos h]
  by_cases hend : current > env.decayEnd
  · rw [if_pos hend, if_pos hend]
    by_cases hzero : env.sustain ≤ 0
    · rw [if_pos rfl, if_pos hzero]
      rfl
    · rw [if_pos rfl, if_neg hzero]
      rfl
  · rw [if_neg hend, if_neg hend]
    by_cases hdecay : current > env.attack
    · rw [if_pos hdecay]
      rfl
    · rw [if_neg hdecay]
      obtain hstate | hstate := h
      · rw [hstate]
        rfl
      · rw [hstate]
        rfl

/-- and after it. -/
theorem nextState_release (h : env.state = .release) (current : Int) :
    env.nextState current = if current > env.releaseEnd then .done else .release := by
  rw [nextState, h]
  rfl

theorem nextState_sustain (h : env.state = .sustain) (hpos : 0 < env.sustain) (current : Int) :
    env.nextState current = .sustain := by
  rw [nextState, h]
  have hstays : (if env.sustain ≤ 0 then State.done else .sustain) = .sustain := if_neg (not_le.mpr hpos)
  calc (if (if env.sustain ≤ 0 then State.done else .sustain) = .release then
          if current > env.releaseEnd then State.done else if env.sustain ≤ 0 then State.done else .sustain
        else if env.sustain ≤ 0 then State.done else .sustain)
      = (if State.sustain = .release then if current > env.releaseEnd then State.done else .sustain else .sustain) := by
          rw [hstays]
    _ = .sustain := rfl

theorem nextState_done (h : env.state = .done) (current : Int) : env.nextState current = .done := by
  rw [nextState, h]
  rfl

/-- A call, by the state it passes to. -/
theorem getValue_eq {current : Int} {state : State} {value : ℚ} (hcurrent : env.current + 1 = current)
    (hstate : env.nextState current = state) (hvalue : env.valueIn current state = some value) :
    env.getValue = some (value, { env with current := current, state := state, lastValue := value }) := by
  rw [getValue, hcurrent, hstate, hvalue]
  rfl

/-! ### While the note is held -/

/-- The state after some calls, -/
def heldState (env : Envelope) (k : Nat) : State :=
  if env.attack + env.decay < k then if env.sustain ≤ 0 then .done else .sustain
  else if env.attack < k then .decay else .attack

/-- and the value of the last of them. -/
def heldValue (env : Envelope) (k : Nat) : ℚ :=
  if env.attack + env.decay < k then env.sustain
  else if env.attack < k then max (1 - (k - env.attack : Int) * ((1 - env.sustain) / env.decay)) env.sustain
  else k * (1 / env.attack)

/-- The envelope after `NoteOn` and some calls. -/
structure Held (env : Envelope) (k : Nat) (env' : Envelope) : Prop where
  attack : env'.attack = env.attack
  attackSlope : env'.attackSlope = 1 / env.attack
  decayEnd : env'.decayEnd = env.attack + env.decay
  decaySlope : env'.decaySlope = (1 - env.sustain) / env.decay
  sustain : env'.sustain = env.sustain
  release : env'.release = env.release
  current : env'.current = k
  state : env'.state = env.heldState k
  lastValue : k ≠ 0 → env'.lastValue = env.heldValue k

theorem held_noteOn (env : Envelope) : Held env 0 env.noteOn where
  attack := rfl
  attackSlope := rfl
  decayEnd := rfl
  decaySlope := rfl
  sustain := rfl
  release := rfl
  current := rfl
  state := by
    have hattack := env.attack_nonneg
    have hdecay := env.decay_nonneg
    rw [heldState, if_neg (by omega), if_neg (by omega)]
    rfl
  lastValue h := absurd rfl h

theorem Held.nextState {k : Nat} (h : Held env k env') : env'.nextState (k + 1 : Nat) = env.heldState (k + 1) := by
  have hdecay := env.decay_nonneg
  have hstate := h.state
  rw [heldState] at hstate ⊢
  by_cases hend : env.attack + env.decay < k
  · have hnext : env.attack + env.decay < (k + 1 : Nat) := by omega
    rw [if_pos hend] at hstate
    rw [if_pos hnext]
    by_cases hzero : env.sustain ≤ 0
    · rw [if_pos hzero] at hstate ⊢
      exact nextState_done hstate _
    · rw [if_neg hzero] at hstate ⊢
      exact nextState_sustain hstate (h.sustain ▸ not_le.mp hzero) _
  · rw [if_neg hend] at hstate
    have hrising : env'.state = .attack ∨ env'.state = .decay := by
      rw [hstate]
      split
      · exact .inr rfl
      · exact .inl rfl
    rw [nextState_rising hrising, h.decayEnd, h.sustain, h.attack]
    by_cases hattack : env.attack < (k + 1 : Nat)
    · rw [if_pos hattack, if_pos hattack]
    · rw [if_neg (by omega : ¬env.attack < k)] at hstate
      rw [if_neg hattack, if_neg hattack, hstate]

/-- The value in the state that a call passes to; its assertions hold. -/
theorem Held.valueIn {k : Nat} (h : Held env k env') :
    env'.valueIn (k + 1 : Nat) (env.heldState (k + 1)) = some (env.heldValue (k + 1)) := by
  rw [heldState, heldValue]
  by_cases hend : env.attack + env.decay < (k + 1 : Nat)
  · rw [if_pos hend, if_pos hend]
    by_cases hzero : env.sustain ≤ 0
    · rw [if_pos hzero, le_antisymm hzero env.sustain_nonneg]
      rfl
    · rw [if_neg hzero, Envelope.valueIn, h.sustain, if_pos (not_le.mp hzero)]
  · rw [if_neg hend, if_neg hend]
    by_cases hattack : env.attack < (k + 1 : Nat)
    · rw [if_pos hattack, if_pos hattack, Envelope.valueIn, h.attack, if_pos hattack.le, h.decaySlope, h.sustain]
    · rw [if_neg hattack, if_neg hattack, Envelope.valueIn, h.attackSlope]
      rfl

/-- **A call while the note is held.** -/
theorem Held.getValue {k : Nat} (h : Held env k env') :
    ∃ next, env'.getValue = some (env.heldValue (k + 1), next) ∧ Held env (k + 1) next := by
  have hcurrent : env'.current + 1 = (k + 1 : Nat) := by
    rw [h.current]
    rfl
  exact ⟨_, getValue_eq hcurrent h.nextState h.valueIn, h.attack, h.attackSlope, h.decayEnd, h.decaySlope, h.sustain,
    h.release, rfl, rfl, fun _ => rfl⟩

/-! ### After the release -/

/-- The value of a call after `NoteOff`. -/
def releasedValue (start sustain : ℚ) (release : Int) (j : Nat) : ℚ :=
  if j ≤ release then start - j * (sustain / release) else 0

/-- The envelope after `NoteOff` and some calls. -/
structure Released (off : Envelope) (j : Nat) (env' : Envelope) : Prop where
  releaseStart : env'.releaseStart = off.releaseStart
  releaseEnd : env'.releaseEnd = off.releaseStart + off.release
  releaseSlope : env'.releaseSlope = off.sustain / off.release
  releaseStartValue : env'.releaseStartValue = off.releaseStartValue
  current : env'.current = off.releaseStart + j
  state : env'.state = if j ≤ off.release then .release else .done

theorem released_noteOff (env : Envelope) : Released env.noteOff 0 env.noteOff where
  releaseStart := rfl
  releaseEnd := rfl
  releaseSlope := rfl
  releaseStartValue := rfl
  current := (Int.add_zero _).symm
  state := (if_pos env.release_nonneg).symm

/-- **A call after the release.** -/
theorem Released.getValue {off : Envelope} {j : Nat} (h : Released off j env') : ∃ next,
    env'.getValue = some (releasedValue off.releaseStartValue off.sustain off.release (j + 1), next) ∧
      Released off (j + 1) next := by
  have hcurrent : env'.current + 1 = off.releaseStart + (j + 1 : Nat) := by
    rw [h.current, Int.add_assoc]
    rfl
  have hstate := h.state
  have hnext : env'.nextState (off.releaseStart + (j + 1 : Nat)) =
      if (j + 1 : Nat) ≤ off.release then .release else .done := by
    by_cases hj : j ≤ off.release
    · rw [if_pos hj] at hstate
      rw [nextState_release hstate, h.releaseEnd]
      by_cases hj' : (j + 1 : Nat) ≤ off.release
      · rw [if_pos hj', if_neg (by omega)]
      · rw [if_neg hj', if_pos (by omega)]
    · rw [if_neg hj] at hstate
      rw [nextState_done hstate, if_neg (by omega)]
  have hvalue : env'.valueIn (off.releaseStart + (j + 1 : Nat)) (if (j + 1 : Nat) ≤ off.release then .release else .done) =
      some (releasedValue off.releaseStartValue off.sustain off.release (j + 1)) := by
    rw [releasedValue]
    by_cases hj : (j + 1 : Nat) ≤ off.release
    · rw [if_pos hj, if_pos hj, Envelope.valueIn, h.releaseStart, h.releaseStartValue, h.releaseSlope,
        add_sub_cancel_left, if_pos (by omega)]
      rfl
    · rw [if_neg hj, if_neg hj]
      rfl
  exact ⟨_, getValue_eq hcurrent hnext hvalue, h.releaseStart, h.releaseEnd, h.releaseSlope, h.releaseStartValue, rfl,
    rfl⟩

/-- **All values of a note.** -/
theorem play_eq (env : Envelope) (before after : Nat) : env.play (before + 1) after =
    some ((List.range (before + 1)).map fun k => env.heldValue (k + 1),
      (List.range after).map fun j =>
        releasedValue (min env.sustain (env.heldValue (before + 1))) env.sustain env.release (j + 1)) := by
  obtain ⟨last, hheld, hlast⟩ := getValues_eq (I := Held env) (fun k env' h => h.getValue) (before + 1) env.held_noteOn
  obtain ⟨_, hreleased, -⟩ := getValues_eq (I := Released last.noteOff) (fun j env' h => h.getValue) after
    (released_noteOff last)
  have hvalue : last.lastValue = env.heldValue (before + 1) := by
    have hcalls := hlast.lastValue
    rw [Nat.zero_add] at hcalls
    exact hcalls (Nat.succ_ne_zero before)
  have hstart : last.noteOff.releaseStartValue = min env.sustain (env.heldValue (before + 1)) :=
    congrArg₂ min hlast.sustain hvalue
  have hsustain : last.noteOff.sustain = env.sustain := hlast.sustain
  have hrelease : last.noteOff.release = env.release := hlast.release
  rw [hstart, hsustain, hrelease] at hreleased
  simp only [Nat.zero_add] at hheld hreleased
  rw [play, hheld, Option.bind_eq_bind, Option.bind_some]
  show (getValues after last.noteOff).bind _ = _
  rw [hreleased]
  rfl

/-! ### The values themselves -/

theorem heldValue_range (env : Envelope) (k : Nat) : 0 ≤ env.heldValue k ∧ env.heldValue k ≤ 1 := by
  have hsustain := env.sustain_nonneg
  have hone := env.sustain_le_one
  rw [heldValue]
  split
  case isTrue => exact ⟨hsustain, hone⟩
  case isFalse =>
      split
      case isTrue hattack =>
          have hdecay : (0 : ℚ) ≤ env.decay := Int.cast_nonneg env.decay_nonneg
          have hclock : (0 : ℚ) ≤ (k - env.attack : Int) := Int.cast_nonneg (by omega)
          have hfall : 0 ≤ (k - env.attack : Int) * ((1 - env.sustain) / env.decay) :=
            mul_nonneg hclock (div_nonneg (sub_nonneg.mpr hone) hdecay)
          exact ⟨hsustain.trans (le_max_right _ _), max_le (sub_le_self 1 hfall) hone⟩
      case isFalse hattack =>
          have hle : (k : ℚ) ≤ env.attack := by exact_mod_cast not_lt.mp hattack
          have hclock : (0 : ℚ) ≤ k := Nat.cast_nonneg k
          rw [mul_one_div]
          exact ⟨div_nonneg hclock (hclock.trans hle), div_le_one_of_le₀ hle (hclock.trans hle)⟩

theorem sustain_le_heldValue {k : Nat} (h : env.attack < k) : env.sustain ≤ env.heldValue k := by
  rw [heldValue, if_pos h]
  split
  case isTrue => exact le_rfl
  case isFalse => exact le_max_right _ _

/-- The release does not fall below zero while the calls go on. -/
def StaysUp (start sustain : ℚ) (release : Int) (after : Nat) : Prop :=
  ∀ j ≤ after, j ≤ release → 0 ≤ start - j * (sustain / release)

section

variable {start sustain : ℚ} {release : Int} {after : Nat}

theorem releasedValue_nonneg (h : StaysUp start sustain release after) {j : Nat} (hj : j ≤ after) :
    0 ≤ releasedValue start sustain release j := by
  rw [releasedValue]
  split
  case isTrue hle => exact h j hj hle
  case isFalse => exact le_rfl

theorem releasedValue_succ_le (hsustain : 0 ≤ sustain) (hrelease : 0 ≤ release)
    (h : StaysUp start sustain release after) {j : Nat} (hj : j ≤ after) :
    releasedValue start sustain release (j + 1) ≤ releasedValue start sustain release j := by
  have hslope : 0 ≤ sustain / release := div_nonneg hsustain (Int.cast_nonneg hrelease)
  by_cases hnext : (j + 1 : Nat) ≤ release
  · rw [releasedValue, if_pos hnext, releasedValue, if_pos (by omega), Nat.cast_succ, add_one_mul]
    linarith
  · rw [releasedValue, if_neg hnext]
    exact releasedValue_nonneg h hj

/-- Later values are not larger. -/
theorem releasedValue_le (hsustain : 0 ≤ sustain) (hrelease : 0 ≤ release) (h : StaysUp start sustain release after)
    {i j : Nat} (hij : i ≤ j) (hj : j ≤ after) :
    releasedValue start sustain release j ≤ releasedValue start sustain release i := by
  induction hij with
  | refl => exact le_rfl
  | step hle ih =>
      have hbefore := ih (Nat.le_of_succ_le hj)
      exact (releasedValue_succ_le hsustain hrelease h (Nat.le_of_succ_le hj)).trans hbefore

theorem releasedValue_zero (hrelease : 0 ≤ release) : releasedValue start sustain release 0 = start := by
  have hzero : ((0 : Nat) : Int) ≤ release := hrelease
  rw [releasedValue, if_pos hzero, Nat.cast_zero, zero_mul, sub_zero]

end

/-- Where the release stays up, the values of the note have the expected shape. -/
theorem StaysUp.isShape {env : Envelope} {before after : Nat} {start : ℚ}
    (h : StaysUp start env.sustain env.release after) (hsustain : start ≤ env.sustain)
    (hlast : start ≤ env.heldValue (before + 1)) :
    IsShape ((List.range (before + 1)).map fun k => env.heldValue (k + 1))
      ((List.range after).map fun j => releasedValue start env.sustain env.release (j + 1)) := by
  have hfirst : ∀ j ≤ after, releasedValue start env.sustain env.release j ≤ start := by
    intro j hj
    have hzero := releasedValue_le env.sustain_nonneg env.release_nonneg h (Nat.zero_le j) hj
    rwa [releasedValue_zero env.release_nonneg] at hzero
  constructor
  · intro value hvalue
    obtain hheld | hreleased := List.mem_append.mp hvalue
    · obtain ⟨k, -, rfl⟩ := List.mem_map.mp hheld
      exact env.heldValue_range (k + 1)
    · obtain ⟨j, hj, rfl⟩ := List.mem_map.mp hreleased
      have hj := List.mem_range.mp hj
      exact ⟨releasedValue_nonneg h hj, (hfirst (j + 1) hj).trans (hsustain.trans env.sustain_le_one)⟩
  · rw [List.range_succ, List.map_append, List.map_singleton, List.getLast?_concat, Option.toList_some,
      List.singleton_append, List.pairwise_cons]
    constructor
    · intro value hvalue
      obtain ⟨j, hj, rfl⟩ := List.mem_map.mp hvalue
      exact (hfirst (j + 1) (List.mem_range.mp hj)).trans hlast
    · rw [List.pairwise_map]
      refine List.pairwise_lt_range.imp_of_mem fun _ hj hlt => ?_
      exact releasedValue_le env.sustain_nonneg env.release_nonneg h (Nat.succ_le_succ hlt.le) (List.mem_range.mp hj)

/-- A note has the expected shape where its release stays up, and there only. -/
theorem isShape_iff (env : Envelope) (before after : Nat) :
    (∃ held released, env.play (before + 1) after = some (held, released) ∧ IsShape held released) ↔
      StaysUp (min env.sustain (env.heldValue (before + 1))) env.sustain env.release after := by
  rw [play_eq]
  constructor
  · intro ⟨held, released, heq, hshape⟩ j hj hle
    cases heq
    cases j with
    | zero =>
        rw [Nat.cast_zero, zero_mul, sub_zero]
        exact le_min env.sustain_nonneg (env.heldValue_range _).1
    | succ j =>
        have hvalue := (hshape.range _ (List.mem_append_right _ (List.mem_map_of_mem (List.mem_range.mpr hj)))).1
        rwa [releasedValue, if_pos hle] at hvalue
  · intro h
    exact ⟨_, _, rfl, h.isShape (min_le_left _ _) (min_le_right _ _)⟩

theorem heldValue_attack {k : Nat} (h : k ≤ env.attack) : env.heldValue k = k / env.attack := by
  have hdecay := env.decay_nonneg
  rw [heldValue, if_neg (by omega), if_neg (by omega), mul_one_div]

/-- The fall of the release does not lead below the sustain level, -/
theorem fall_le_sustain (env : Envelope) {j : Nat} (hsome : 0 < env.release) (hj : j ≤ env.release) :
    j * (env.sustain / env.release) ≤ env.sustain := by
  have hsome : (0 : ℚ) < env.release := Int.cast_pos.mpr hsome
  have hpart : (j : ℚ) ≤ env.release := by exact_mod_cast hj
  rw [mul_div_assoc', div_le_iff₀ hsome, mul_comm]
  exact mul_le_mul_of_nonneg_left hpart env.sustain_nonneg

/-- but it may be more than what the attack has reached. -/
theorem fall_le_heldValue_iff (env : Envelope) {j k : Nat} (hsome : 0 < env.release) (hk : k ≤ env.attack) (hpos : 0 < k) :
    j * (env.sustain / env.release) ≤ env.heldValue k ↔ env.sustain * env.attack * j ≤ k * env.release := by
  have hsome : (0 : ℚ) < env.release := Int.cast_pos.mpr hsome
  have hattack : (0 : ℚ) < env.attack := Int.cast_pos.mpr (by omega)
  have hproduct : j * env.sustain * env.attack = env.sustain * env.attack * j := by ring
  rw [heldValue_attack hk, mul_div_assoc', div_le_div_iff₀ hsome hattack, hproduct]

/-- When the release stays up: the attack is over, or what has been reached of it is enough for the part of the release
that is still heard. -/
theorem staysUp_iff (env : Envelope) (before after : Nat) :
    StaysUp (min env.sustain (env.heldValue (before + 1))) env.sustain env.release after ↔
      env.attack < (before + 1 : Nat) ∨
        env.sustain * env.attack * (min (after : Int) env.release : Int) ≤ (before + 1 : Nat) * env.release := by
  have hstart : 0 ≤ min env.sustain (env.heldValue (before + 1)) :=
    le_min env.sustain_nonneg (env.heldValue_range _).1
  obtain hzero | hsome := env.release_nonneg.eq_or_lt
  · refine iff_of_true (fun j _ hle => ?_) (.inr ?_)
    · have hnone : j = 0 := by omega
      rwa [hnone, Nat.cast_zero, zero_mul, sub_zero]
    · rw [← hzero, min_eq_right (Int.natCast_nonneg after), Int.cast_zero, mul_zero, mul_zero]
  · by_cases hattack : env.attack < (before + 1 : Nat)
    · refine iff_of_true (fun j _ hle => sub_nonneg.mpr ?_) (.inl hattack)
      have hbelow := env.fall_le_sustain hsome hle
      exact le_min hbelow (hbelow.trans (sustain_le_heldValue hattack))
    · have hreached : (before + 1 : Nat) ≤ env.attack := not_lt.mp hattack
      rw [or_iff_right hattack]
      constructor
      · intro h
        -- the last call of the release says it all
        obtain ⟨j, hj⟩ := Int.eq_ofNat_of_zero_le (show 0 ≤ min (after : Int) env.release by omega)
        have hfall := (sub_nonneg.mp (h j (by omega) (by omega))).trans (min_le_right _ _)
        rw [hj, Int.cast_natCast]
        exact (env.fall_le_heldValue_iff hsome hreached (Nat.succ_pos before)).mp hfall
      · intro henough j hj hle
        have hmin : (j : ℚ) ≤ (min (after : Int) env.release : Int) := by
          exact_mod_cast (show (j : Int) ≤ min (after : Int) env.release by omega)
        have hattack_nonneg : (0 : ℚ) ≤ env.attack := Int.cast_nonneg env.attack_nonneg
        have hweight := mul_le_mul_of_nonneg_left hmin (mul_nonneg env.sustain_nonneg hattack_nonneg)
        refine sub_nonneg.mpr (le_min (env.fall_le_sustain hsome hle) ?_)
        exact (env.fall_le_heldValue_iff hsome hreached (Nat.succ_pos before)).mpr (hweight.trans henough)

/-- **Which notes have the expected shape.** The slope of the release leads from the sustain level to zero, although the
release may start below that level. -/
theorem play_isShape_iff (env : Envelope) (before after : Nat) :
    (∃ held released, env.play (before + 1) after = some (held, released) ∧ IsShape held released) ↔
      env.attack < (before + 1 : Nat) ∨
        env.sustain * env.attack * (min (after : Int) env.release : Int) ≤ (before + 1 : Nat) * env.release :=
  (isShape_iff env before after).trans (staysUp_iff env before after)

/-- An attack of four samples and a release of two, at full level. -/
def early : Envelope := { new 0 0 with attack := 4, release := 2, attack_nonneg := by decide, release_nonneg := by decide }

/-- Released after one sample, it falls from a quarter to three quarters below zero. -/
theorem early_release_below_zero : (new 0 0).setAttack 4 >>= (fun env => env.setRelease 2) = some early ∧
    ¬∃ held released, early.play 1 2 = some (held, released) ∧ IsShape held released := by
  refine ⟨rfl, ?_⟩
  rw [isShape_iff early 0 2]
  intro h
  have hlast := h 2 le_rfl le_rfl
  rw [heldValue_attack (by decide)] at hlast
  have hvalue : (0 : ℚ) ≤ min 1 (((0 + 1 : Nat) : ℚ) / (4 : Int)) - (2 : Nat) * (1 / (2 : Int)) := hlast
  norm_num at hvalue

end Envelope

end Thebends.Synth
