import Mathlib.Data.List.Nodup
import Mathlib.Logic.Function.Basic
import Thebends.LibRun

/-! The thread pool of ythread (`threadpool.cpp`) as a transition system, while it is not being destroyed:
`shutdown_` is false throughout. A step is one section under a worker's mutex, or one of the statements of
`Run` outside of it; `TryAdd` holds the pool's mutex, so that there is one submitter at a time, but the
workers take their steps between its own. A callback is known by the number of the call of `TryAdd` that
brought it. `CondVar::Wait` may return at any time, as POSIX allows. A failed assertion has no successor. -/

namespace Thebends.Ythread

open LibRun

/-- `Callback*`. -/
abbrev Callback := Nat

/-- Where the thread of a worker stands in `Run`. -/
inductive Thread
  /-- Before the section that ends in `Wait`. -/
  | unlocked
  /-- Inside `condvar_->Wait()`; `signalled` once a `SignalAll` has woken it up. -/
  | asleep (signalled : Bool)
  /-- Woken up, before `cb_->Execute()`. -/
  | woken
  /-- After `cb_->Execute()`, before `cb_ = NULL`. -/
  | executed
  deriving DecidableEq, Repr

/-- `Worker`. -/
structure Worker where
  waiting : Bool
  cb : Option Callback
  thread : Thread
  deriving DecidableEq, Repr

/-- `Worker(pool)`, started. -/
def Worker.new : Worker := ⟨false, none, .unlocked⟩

/-- Where the thread that has the pool's mutex stands in `TryAdd`, if there is one. -/
inductive Submitter (size : Nat)
  | idle
  /-- Before the call of `pool_[i]->IsWaiting()`, or at the end of the loop. -/
  | scanning (cb : Callback) (i : Nat)
  /-- Before the call of `pool_[i]->StartTask(cb)`. -/
  | chosen (cb : Callback) (i : Fin size)
  deriving DecidableEq, Repr

/-- The pool, the number of calls of `TryAdd`, the callbacks for which it has handed a worker their task,
and those that were executed. -/
structure State (size : Nat) where
  workers : Fin size → Worker
  submitter : Submitter size
  calls : Nat
  accepted : List Callback
  executed : List Callback

/-- The steps. -/
inductive Action (size : Nat)
  | tryAdd
  | isWaiting
  | startTask
  | lock (i : Fin size)
  | wake (i : Fin size)
  | execute (i : Fin size)
  | clear (i : Fin size)
  deriving DecidableEq, Repr

variable {size : Nat}

/-- `SignalAll`, seen from the thread of the worker. -/
def Thread.signal : Thread → Thread
  | .asleep _ => .asleep true
  | thread => thread

namespace State

def init (size : Nat) : State size := ⟨fun _ => .new, .idle, 0, [], []⟩

def setWorker (s : State size) (i : Fin size) (worker : Worker) : State size :=
  { s with workers := Function.update s.workers i worker }

/-- One step. What `IsWaiting` reads under the mutex it does not use: it returns `waiting_` once more. -/
def step (s : State size) : Action size → Option (State size)
  | .tryAdd =>
      match s.submitter with
      | .idle => some { s with submitter := .scanning s.calls 0, calls := s.calls + 1 }
      | _ => none
  | .isWaiting =>
      match s.submitter with
      | .scanning cb i =>
          if h : i < size then
            if (s.workers ⟨i, h⟩).waiting then some { s with submitter := .chosen cb ⟨i, h⟩ }
            else some { s with submitter := .scanning cb (i + 1) }
          else some { s with submitter := .idle }
      | _ => none
  | .startTask =>
      match s.submitter with
      | .chosen cb i =>
          if (s.workers i).waiting then
            some { s.setWorker i { s.workers i with cb := some cb, thread := (s.workers i).thread.signal } with
              submitter := .idle, accepted := s.accepted ++ [cb] }
          else none
      | _ => none
  | .lock i =>
      match (s.workers i).thread with
      | .unlocked => some (s.setWorker i { s.workers i with waiting := true, thread := .asleep false })
      | _ => none
  | .wake i =>
      match (s.workers i).thread with
      | .asleep _ =>
          if (s.workers i).cb = none then none
          else some (s.setWorker i { s.workers i with waiting := false, thread := .woken })
      | _ => none
  | .execute i =>
      match (s.workers i).thread, (s.workers i).cb with
      | .woken, some cb =>
          some { s.setWorker i { s.workers i with thread := .executed } with executed := s.executed ++ [cb] }
      | _, _ => none
  | .clear i =>
      match (s.workers i).thread with
      | .executed => some (s.setWorker i { s.workers i with cb := none, thread := .unlocked })
      | _ => none

def Step (s : State size) (action : Action size) (s' : State size) : Prop := s.step action = some s'

/-- Everything a step can do. -/
inductive Outcome (s : State size) : Action size → State size → Prop
  | called : s.submitter = .idle →
      Outcome s .tryAdd { s with submitter := .scanning s.calls 0, calls := s.calls + 1 }
  | found {cb : Callback} {i : Nat} (h : i < size) : s.submitter = .scanning cb i →
      (s.workers ⟨i, h⟩).waiting = true → Outcome s .isWaiting { s with submitter := .chosen cb ⟨i, h⟩ }
  | passed {cb : Callback} {i : Nat} : s.submitter = .scanning cb i →
      Outcome s .isWaiting { s with submitter := .scanning cb (i + 1) }
  | refused {cb : Callback} {i : Nat} : s.submitter = .scanning cb i →
      Outcome s .isWaiting { s with submitter := .idle }
  | handed {cb : Callback} {i : Fin size} : s.submitter = .chosen cb i → (s.workers i).waiting = true →
      Outcome s .startTask
        { s.setWorker i { s.workers i with cb := some cb, thread := (s.workers i).thread.signal } with
          submitter := .idle, accepted := s.accepted ++ [cb] }
  | slept {i : Fin size} : (s.workers i).thread = .unlocked →
      Outcome s (.lock i) (s.setWorker i { s.workers i with waiting := true, thread := .asleep false })
  | woke {i : Fin size} {signalled : Bool} {cb : Callback} : (s.workers i).thread = .asleep signalled →
      (s.workers i).cb = some cb →
      Outcome s (.wake i) (s.setWorker i { s.workers i with waiting := false, thread := .woken })
  | ran {i : Fin size} {cb : Callback} : (s.workers i).thread = .woken → (s.workers i).cb = some cb →
      Outcome s (.execute i)
        { s.setWorker i { s.workers i with thread := .executed } with executed := s.executed ++ [cb] }
  | cleared {i : Fin size} : (s.workers i).thread = .executed →
      Outcome s (.clear i) (s.setWorker i { s.workers i with cb := none, thread := .unlocked })

theorem Step.outcome {s s' : State size} {action : Action size} (h : s.Step action s') : s.Outcome action s' := by
  cases action with
  | tryAdd =>
      simp only [Step, step] at h
      split at h
      · next hidle =>
        cases h
        exact .called hidle
      · cases h
  | isWaiting =>
      simp only [Step, step] at h
      split at h
      · next cb i hscan =>
        split at h
        · next hi =>
          split at h
          · next hwaiting =>
            cases h
            exact .found hi hscan hwaiting
          · cases h
            exact .passed hscan
        · cases h
          exact .refused hscan
      · cases h
  | startTask =>
      simp only [Step, step] at h
      split at h
      · next cb i hchosen =>
        split at h
        · next hwaiting =>
          cases h
          exact .handed hchosen hwaiting
        · cases h
      · cases h
  | lock i =>
      simp only [Step, step] at h
      split at h
      · next hthread =>
        cases h
        exact .slept hthread
      · cases h
  | wake i =>
      simp only [Step, step] at h
      split at h
      · next signalled hthread =>
        split at h
        · cases h
        · next hcb =>
          cases h
          obtain ⟨cb, hcb⟩ := Option.ne_none_iff_exists'.mp hcb
          exact .woke hthread hcb
      · cases h
  | execute i =>
      simp only [Step, step] at h
      split at h
      · next cb hthread hcb =>
        cases h
        exact .ran hthread hcb
      · cases h
  | clear i =>
      simp only [Step, step] at h
      split at h
      · next hthread =>
        cases h
        exact .cleared hthread
      · cases h

@[simp] theorem setWorker_self (s : State size) (i : Fin size) (worker : Worker) :
    (s.setWorker i worker).workers i = worker :=
  Function.update_self ..

theorem setWorker_of_ne (s : State size) {i j : Fin size} (worker : Worker) (h : j ≠ i) :
    (s.setWorker i worker).workers j = s.workers j :=
  Function.update_of_ne h ..

end State

/-! ### What always holds -/

/-- A worker that says it waits sleeps, one before its critical section has no callback, and a callback it
has was accepted, and executed exactly if the worker has got past `Execute`. -/
structure Worker.Good (accepted executed : List Callback) (worker : Worker) : Prop where
  waiting : worker.waiting = true → ∃ signalled, worker.thread = .asleep signalled
  unlocked : worker.thread = .unlocked → worker.cb = none
  accepted : ∀ cb, worker.cb = some cb → cb ∈ accepted
  executed : ∀ cb, worker.cb = some cb → (cb ∈ executed ↔ worker.thread = .executed)

/-- The callback of the call of `TryAdd` under way. -/
def Submitter.callback : Submitter size → Option Callback
  | .idle => none
  | .scanning cb _ => some cb
  | .chosen cb _ => some cb

namespace State

/-- The invariant of the pool. -/
structure Inv (s : State size) : Prop where
  good : ∀ i, (s.workers i).Good s.accepted s.executed
  apart : ∀ i j cb, i ≠ j → (s.workers i).cb = some cb → (s.workers j).cb ≠ some cb
  counted : ∀ cb ∈ s.accepted, cb < s.calls
  fresh : ∀ cb, s.submitter.callback = some cb → cb < s.calls ∧ cb ∉ s.accepted
  subset : ∀ cb ∈ s.executed, cb ∈ s.accepted
  nodup : s.executed.Nodup

theorem inv_init : (init size).Inv where
  good _ := ⟨nofun, fun _ => rfl, nofun, nofun⟩
  apart _ _ _ _ := nofun
  counted := nofun
  fresh := nofun
  subset := nofun
  nodup := List.nodup_nil

/-- A worker changes and has no callback it did not have. -/
theorem Inv.setWorker {s : State size} (h : s.Inv) {i : Fin size} {worker : Worker}
    (hgood : worker.Good s.accepted s.executed) (hcb : ∀ cb, worker.cb = some cb → (s.workers i).cb = some cb) :
    (s.setWorker i worker).Inv := by
  refine ⟨fun j => ?_, fun j k cb hjk hj hk => ?_, h.counted, h.fresh, h.subset, h.nodup⟩
  · by_cases hj : j = i
    · rw [hj, setWorker_self]
      exact hgood
    · rw [setWorker_of_ne s worker hj]
      exact h.good j
  · have hold : ∀ other, ((s.setWorker i worker).workers other).cb = some cb → (s.workers other).cb = some cb := by
      intro other hother
      by_cases heq : other = i
      · subst heq
        rw [setWorker_self] at hother
        exact hcb cb hother
      · rwa [setWorker_of_ne s worker heq] at hother
    exact h.apart j k cb hjk (hold j hj) (hold k hk)

theorem Inv.handed {s : State size} (h : s.Inv) {cb : Callback} {i : Fin size} (hchosen : s.submitter = .chosen cb i)
    (hwaiting : (s.workers i).waiting = true) :
    Inv { s.setWorker i { s.workers i with cb := some cb, thread := (s.workers i).thread.signal } with
      submitter := .idle, accepted := s.accepted ++ [cb] } := by
  obtain ⟨signalled, hasleep⟩ := (h.good i).waiting hwaiting
  obtain ⟨hcall, hnew⟩ := h.fresh cb (by rw [hchosen]; rfl)
  have hunheld : ∀ j, (s.workers j).cb ≠ some cb := fun j hj => hnew ((h.good j).accepted cb hj)
  refine ⟨fun j => ?_, fun j k other hjk hj hk => ?_, fun other hother => ?_, nofun, fun other hother => ?_, h.nodup⟩
  · by_cases hj : j = i
    · subst hj
      refine ⟨fun _ => ⟨true, ?_⟩, fun hunlocked => ?_, fun other hother => ?_, fun other hother => ?_⟩
      · simp only [setWorker_self, hasleep, Thread.signal]
      · simp [hasleep, Thread.signal] at hunlocked
      · simp only [setWorker_self, Option.some.injEq] at hother
        rw [← hother]
        exact List.mem_append_right _ List.mem_cons_self
      · simp only [setWorker_self, Option.some.injEq] at hother
        subst hother
        simp only [setWorker_self, hasleep, Thread.signal, reduceCtorEq, iff_false]
        exact fun hexecuted => hnew (h.subset cb hexecuted)
    · simp only [setWorker_of_ne s _ hj]
      exact ⟨(h.good j).waiting, (h.good j).unlocked,
        fun other hother => List.mem_append_left _ ((h.good j).accepted other hother), (h.good j).executed⟩
  · simp only at hj hk
    by_cases hji : j = i
    · have hki : k ≠ i := fun hki => hjk (hji.trans hki.symm)
      rw [hji, setWorker_self, Option.some.injEq] at hj
      rw [setWorker_of_ne s _ hki, ← hj] at hk
      exact hunheld k hk
    · rw [setWorker_of_ne s _ hji] at hj
      by_cases hki : k = i
      · rw [hki, setWorker_self, Option.some.injEq] at hk
        rw [← hk] at hj
        exact hunheld j hj
      · rw [setWorker_of_ne s _ hki] at hk
        exact h.apart j k other hjk hj hk
  · rcases List.mem_append.mp hother with hold | hlast
    · exact h.counted other hold
    · rw [List.mem_singleton.mp hlast]
      exact hcall
  · exact List.mem_append_left _ (h.subset other hother)

theorem Inv.ran {s : State size} (h : s.Inv) {i : Fin size} {cb : Callback} (hthread : (s.workers i).thread = .woken)
    (hcb : (s.workers i).cb = some cb) :
    Inv { s.setWorker i { s.workers i with thread := .executed } with executed := s.executed ++ [cb] } := by
  have hpending : cb ∉ s.executed := by
    rw [(h.good i).executed cb hcb, hthread]
    nofun
  have hsame : ∀ j, ((s.setWorker i { s.workers i with thread := .executed }).workers j).cb = (s.workers j).cb := by
    intro j
    by_cases hj : j = i
    · rw [hj, setWorker_self]
    · rw [setWorker_of_ne s _ hj]
  refine ⟨fun j => ?_, fun j k other hjk hj hk => ?_, h.counted, h.fresh, fun other hother => ?_, ?_⟩
  · by_cases hj : j = i
    · subst hj
      refine ⟨fun hwaiting => ?_, fun hunlocked => ?_, fun other hother => ?_, fun other hother => ?_⟩
      · simp only [setWorker_self] at hwaiting
        obtain ⟨signalled, hasleep⟩ := (h.good j).waiting hwaiting
        rw [hthread] at hasleep
        cases hasleep
      · simp at hunlocked
      · simp only [setWorker_self] at hother
        exact (h.good j).accepted other hother
      · simp only [setWorker_self] at hother ⊢
        rw [hcb, Option.some.injEq] at hother
        rw [← hother]
        exact iff_of_true (List.mem_append_right _ List.mem_cons_self) trivial
    · simp only [setWorker_of_ne s _ hj]
      refine ⟨(h.good j).waiting, (h.good j).unlocked, (h.good j).accepted, fun other hother => ?_⟩
      have hne : other ≠ cb := by
        rintro rfl
        exact h.apart j i other hj hother hcb
      rw [← (h.good j).executed other hother, List.mem_append, List.mem_singleton, or_iff_left hne]
  · simp only [hsame] at hj hk
    exact h.apart j k other hjk hj hk
  · rcases List.mem_append.mp hother with hold | hlast
    · exact h.subset other hold
    · rw [List.mem_singleton.mp hlast]
      exact (h.good i).accepted cb hcb
  · refine List.nodup_append.mpr ⟨h.nodup, List.nodup_singleton cb, fun other hother last hlast => ?_⟩
    rw [List.mem_singleton.mp hlast]
    rintro rfl
    exact hpending hother

theorem Step.inv {s s' : State size} {action : Action size} (hstep : s.Step action s') (h : s.Inv) : s'.Inv := by
  cases hstep.outcome with
  | called hidle =>
      refine ⟨h.good, h.apart, fun cb hcb => Nat.lt_succ_of_lt (h.counted cb hcb), ?_, h.subset, h.nodup⟩
      intro cb hcb
      cases hcb
      exact ⟨Nat.lt_succ_self _, fun hmem => Nat.lt_irrefl _ (h.counted _ hmem)⟩
  | found _ hscan _ =>
      refine ⟨h.good, h.apart, h.counted, fun cb hcb => h.fresh cb ?_, h.subset, h.nodup⟩
      rw [hscan]
      exact hcb
  | passed hscan =>
      refine ⟨h.good, h.apart, h.counted, fun cb hcb => h.fresh cb ?_, h.subset, h.nodup⟩
      rw [hscan]
      exact hcb
  | refused hscan => exact ⟨h.good, h.apart, h.counted, nofun, h.subset, h.nodup⟩
  | handed hchosen hwaiting => exact h.handed hchosen hwaiting
  | @slept i hthread =>
      have hnone := (h.good i).unlocked hthread
      refine h.setWorker ⟨fun _ => ⟨false, rfl⟩, nofun, fun cb hcb => ?_, fun cb hcb => ?_⟩ fun cb hcb => hcb
      all_goals
        rw [hnone] at hcb
        cases hcb
  | @woke i signalled cb hthread hcb =>
      refine h.setWorker ⟨nofun, nofun, (h.good i).accepted, fun other hother => ?_⟩ fun other hother => hother
      rw [(h.good i).executed other hother, hthread]
      exact iff_of_false nofun nofun
  | ran hthread hcb => exact h.ran hthread hcb
  | @cleared i hthread =>
      refine h.setWorker ⟨fun hwaiting => ?_, fun _ => rfl, nofun, nofun⟩ nofun
      obtain ⟨signalled, hasleep⟩ := (h.good i).waiting hwaiting
      rw [hthread] at hasleep
      cases hasleep

/-! ### What holds as long as no worker is handed a second task -/

/-- The callback waits for a worker to execute it. -/
def Pending (s : State size) (cb : Callback) : Prop :=
  ∃ i, (s.workers i).cb = some cb ∧ (s.workers i).thread ≠ .executed

/-- Every callback `TryAdd` has accepted was executed or waits for a worker to execute it, and none was
executed twice. -/
structure Kept (s : State size) : Prop where
  pending : ∀ cb ∈ s.accepted, cb ∈ s.executed ∨ s.Pending cb
  once : s.executed.Nodup

/-- `StartTask` is called on a worker that has no callback. -/
def HandsToFree (s : State size) (action : Action size) : Prop :=
  ∀ cb i, action = .startTask → s.submitter = .chosen cb i → (s.workers i).cb = none

theorem kept_init : (init size).Kept := ⟨nofun, List.nodup_nil⟩

/-- A callback keeps waiting while its worker does, or while it is another worker that changes. -/
theorem Pending.setWorker {s : State size} {cb : Callback} (hcb : s.Pending cb) {i : Fin size} {worker : Worker}
    (h : (s.workers i).cb = some cb → (s.workers i).thread ≠ .executed →
      worker.cb = some cb ∧ worker.thread ≠ .executed) : (s.setWorker i worker).Pending cb := by
  obtain ⟨j, hown, hthread⟩ := hcb
  by_cases heq : j = i
  · subst heq
    refine ⟨j, ?_⟩
    rw [setWorker_self]
    exact h hown hthread
  · refine ⟨j, ?_⟩
    rw [setWorker_of_ne s worker heq]
    exact ⟨hown, hthread⟩

theorem Step.kept {s s' : State size} {action : Action size} (hstep : s.Step action s') (h : s.Inv) (hkept : s.Kept)
    (hfree : s.HandsToFree action) : s'.Kept := by
  refine ⟨fun cb hcb => ?_, (hstep.inv h).nodup⟩
  cases hstep.outcome with
  | called _ => exact hkept.pending cb hcb
  | found _ _ _ => exact hkept.pending cb hcb
  | passed _ => exact hkept.pending cb hcb
  | refused _ => exact hkept.pending cb hcb
  | @handed new i hchosen hwaiting =>
      obtain ⟨signalled, hasleep⟩ := (h.good i).waiting hwaiting
      rcases List.mem_append.mp hcb with hold | hlast
      · refine (hkept.pending cb hold).imp_right fun hpending => hpending.setWorker fun hlost _ => ?_
        rw [hfree new i rfl hchosen] at hlost
        cases hlost
      · rw [List.mem_singleton.mp hlast]
        refine Or.inr ⟨i, ?_, ?_⟩
        · simp
        · simp [hasleep, Thread.signal]
  | @slept i hthread =>
      refine (hkept.pending cb hcb).imp_right fun hpending => hpending.setWorker fun hown _ => ?_
      rw [(h.good i).unlocked hthread] at hown
      cases hown
  | woke hthread hown =>
      exact (hkept.pending cb hcb).imp_right fun hpending => hpending.setWorker fun hcb _ => ⟨hcb, nofun⟩
  | @ran i own hthread hown =>
      rcases hkept.pending cb hcb with hdone | hpending
      · exact Or.inl (List.mem_append_left _ hdone)
      · by_cases heq : own = cb
        · exact Or.inl (heq ▸ List.mem_append_right _ List.mem_cons_self)
        · exact Or.inr (hpending.setWorker fun hcb _ => absurd (Option.some.inj (hown.symm.trans hcb)) heq)
  | cleared hthread =>
      exact (hkept.pending cb hcb).imp_right fun hpending => hpending.setWorker fun _ hbefore => absurd hthread hbefore

/-- A worker's callback that is not executed is lost when the worker is handed another one. -/
theorem Step.lost {s s' : State size} {action : Action size} (hstep : s.Step action s') (h : s.Inv)
    (hfree : ¬s.HandsToFree action) : ¬s'.Kept := by
  intro hkept
  apply hfree
  rintro new i rfl hchosen
  cases hown : (s.workers i).cb with
  | none => rfl
  | some old =>
      exfalso
      have hold : old ∈ s.accepted := (h.good i).accepted old hown
      have hne : new ≠ old := by
        rintro rfl
        exact (h.fresh new (by rw [hchosen]; rfl)).2 hold
      cases hstep.outcome with
      | @handed cb other hchosen' hwaiting =>
          rw [hchosen] at hchosen'
          cases hchosen'
          rcases hkept.pending old (List.mem_append_left _ hold) with hdone | ⟨j, hj, -⟩
          · obtain ⟨signalled, hasleep⟩ := (h.good i).waiting hwaiting
            have hexecuted := ((h.good i).executed old hown).mp hdone
            rw [hasleep] at hexecuted
            cases hexecuted
          · by_cases heq : j = i
            · subst heq
              simp only [setWorker_self, Option.some.injEq] at hj
              exact hne hj
            · simp only [setWorker_of_ne s _ heq] at hj
              exact h.apart i j old (Ne.symm heq) hown hj

end State

/-- **Accepted callbacks are executed once.** A run goes only through states in which every accepted
callback was executed, once, or waits for its worker, if and only if `StartTask` is never called on a
worker that has a callback already. -/
theorem kept_iff (actions : List (Action size)) (s : State size) (h : Run State.Step (State.init size) actions s) :
    (∀ taken state, taken <+: actions → Run State.Step (State.init size) taken state → state.Kept) ↔
      Run (Restrict State.Step State.HandsToFree) (State.init size) actions s := by
  apply Run.forall_iff_restrict (I := State.Inv) (P := State.Kept) _ _ State.inv_init State.kept_init h
  · intro before action after other hafter hother
    exact Option.some.inj (hafter.symm.trans hother)
  · intro before action after hinv hkept hstep
    exact ⟨⟨fun hafter => by_contra fun hfree => hstep.lost hinv hfree hafter, hstep.kept hinv hkept⟩,
      fun _ => hstep.inv hinv⟩

/-- `TryAdd` is called twice before the worker that the first call signalled has woken up. -/
def twoCalls : List (Action 1) :=
  [.lock 0, .tryAdd, .isWaiting, .startTask, .tryAdd, .isWaiting, .startTask]

/-- The worker has the second callback only; the first one was accepted and will never be executed. -/
theorem twoCalls_lose : ∃ s, Run State.Step (State.init 1) twoCalls s ∧ s.accepted = [0, 1] ∧ s.executed = [] ∧
    ¬s.Kept := by
  obtain ⟨s, hrun, haccepted, hexecuted, hcb⟩ : ∃ s, Run State.Step (State.init 1) twoCalls s ∧
      s.accepted = [0, 1] ∧ s.executed = [] ∧ (s.workers 0).cb = some 1 :=
    ⟨_, .cons rfl (.cons rfl (.cons rfl (.cons rfl (.cons rfl (.cons rfl (.cons rfl (.nil _))))))), rfl, rfl, rfl⟩
  refine ⟨s, hrun, haccepted, hexecuted, fun hkept => ?_⟩
  rcases hkept.pending 0 (by rw [haccepted]; decide) with hdone | ⟨i, hi, -⟩
  · rw [hexecuted] at hdone
    cases hdone
  · rw [Subsingleton.elim i 0, hcb] at hi
    cases hi

/-- The second call comes after the worker has gone to sleep again. -/
def oneAtATime : List (Action 1) :=
  [.lock 0, .tryAdd, .isWaiting, .startTask, .wake 0, .execute 0, .clear 0, .lock 0, .tryAdd, .isWaiting, .startTask]

theorem kept_iff_oneAtATime : ∃ s, Run State.Step (State.init 1) oneAtATime s ∧ s.accepted = [0, 1] ∧
    s.executed = [0] ∧ s.Kept := by
  obtain ⟨s, hrun, haccepted, hexecuted⟩ : ∃ s,
      Run (Restrict State.Step State.HandsToFree) (State.init 1) oneAtATime s ∧
      s.accepted = [0, 1] ∧ s.executed = [0] := by
    refine ⟨_, .cons ⟨nofun, rfl⟩ (.cons ⟨nofun, rfl⟩ (.cons ⟨nofun, rfl⟩ (.cons ⟨?_, rfl⟩ (.cons ⟨nofun, rfl⟩
      (.cons ⟨nofun, rfl⟩ (.cons ⟨nofun, rfl⟩ (.cons ⟨nofun, rfl⟩ (.cons ⟨nofun, rfl⟩ (.cons ⟨nofun, rfl⟩
      (.cons ⟨?_, rfl⟩ (.nil _))))))))))), rfl, rfl⟩
    all_goals
      rintro cb i - hchosen
      cases hchosen
      rfl
  exact ⟨s, hrun.forget, haccepted, hexecuted,
    (kept_iff oneAtATime s hrun.forget).mpr hrun oneAtATime s List.prefix_rfl hrun.forget⟩

end Thebends.Ythread
