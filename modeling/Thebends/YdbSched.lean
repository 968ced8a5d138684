import Thebends.YdbDeadlock

/-! The transaction scheduler of ydb (`ydb_sched.h`, `ydb_sched.cpp`, `ydb_trans.h`) as a transition
system. A step is one section under the scheduler's mutex or one `Execute` of an operation whose lock
was granted; between its steps a transaction stands at one of the points of its thread that `Phase`
lists. `CondVar::Wait` may return at any time, as POSIX allows, and `SignalAll` marks the
transactions it wakes. A step whose search for a deadlock does not end, or whose assertion fails,
has no successor. -/

namespace Thebends.Ydb

/-- Where the thread of a transaction stands. -/
inductive Phase
  /-- Outside the scheduler. -/
  | idle
  /-- Inside `condvar_->Wait()`; `signalled` once a `SignalAll` has woken it up. -/
  | waiting (op : Op) (signalled : Bool)
  /-- The lock was granted, `Execute` has not run yet. -/
  | granted (op : Op)
  /-- The operation was found to cause a deadlock; `AddOp` has released the mutex and not yet called
  `Rollback`. -/
  | aborting (op : Op)
  deriving DecidableEq

/-- A transaction: its phase, its `ops_`, and the codes `AddOp` has returned to its caller. -/
structure TransState where
  phase : Phase
  ops : List Op
  rets : List RetCode
  deriving DecidableEq

/-- The scheduler, the map it works on and the transactions. -/
structure State where
  map : Map
  lockTable : LockTable
  deadlockTree : DeadlockTree
  trans : Trans → TransState

/-- The steps a transaction can take. -/
inductive Action
  | addOp (trans : Trans) (op : Op)
  | retry (trans : Trans)
  | execute (trans : Trans) (op : Op)
  | commit (trans : Trans)
  | rollback (trans : Trans)
  deriving DecidableEq

/-- The transaction that takes a step. -/
def Action.actor : Action → Trans
  | .addOp who _ => who
  | .retry who => who
  | .execute who _ => who
  | .commit who => who
  | .rollback who => who

/-- `SignalAll`, seen from one transaction. -/
def TransState.signal (state : TransState) : TransState :=
  match state.phase with
  | .waiting op _ => { state with phase := .waiting op true }
  | _ => state

namespace State

/-- A scheduler on a map, with no transaction active. -/
def init (map : Map) : State := ⟨map, fun _ => none, .empty, fun _ => ⟨.idle, [], []⟩⟩

def setPhase (s : State) (trans : Trans) (phase : Phase) : State :=
  { s with trans := Function.update s.trans trans { s.trans trans with phase := phase } }

def signalAll (s : State) : State := { s with trans := fun trans => (s.trans trans).signal }

/-- The transactions that hold a lock on a key. -/
def holders (s : State) (key : Str) : List Trans := s.lockTable.holders key

/-- One pass of the loop of `AddOp`, up to the release of the mutex. -/
def tryLock (fuel : Nat) (s : State) (trans : Trans) (op : Op) : Option State :=
  match s.lockTable.lock trans op with
  | (true, table) => some ({ s with lockTable := table }.setPhase trans (.granted op))
  | (false, table) =>
      match table.getLockHolders op.key with
      | none => none
      | some transList =>
          if transList.length = 0 then none
          else match s.deadlockTree.addDependencies fuel trans transList with
            | none => none
            | some (true, tree) =>
                some ({ s with lockTable := table, deadlockTree := tree }.setPhase trans (.waiting op false))
            | some (false, tree) =>
                some ({ s with lockTable := table, deadlockTree := tree }.setPhase trans (.aborting op))

/-- The end of `AddOp`: the operation joins `ops_` and is executed. -/
def execute (s : State) (trans : Trans) (op : Op) : State :=
  { s with
    map := (op.execute s.map).2
    trans := Function.update s.trans trans
      ⟨.idle, (s.trans trans).ops ++ [(op.execute s.map).1.2], (s.trans trans).rets ++ [(op.execute s.map).1.1]⟩ }

/-- The map after the loop of `Rollback` over the operations of a transaction. -/
def undo (ops : List Op) (map : Map) : Map := ops.foldl (fun current op => op.rollback current) map

/-- The keys `Commit` and `Rollback` unlock. -/
def opKeys (s : State) (trans : Trans) : List Str := (s.trans trans).ops.map Op.key

/-- `Ydb_Scheduler::Commit`. -/
def commit (s : State) (trans : Trans) : Option State :=
  (s.deadlockTree.remove trans).map fun tree =>
    signalAll { s with lockTable := s.lockTable.unlockAll trans (s.opKeys trans), deadlockTree := tree }

/-- `Ydb_Scheduler::Rollback`. Undoing the operations and unlocking their keys do not interfere. -/
def rollback (s : State) (trans : Trans) : Option State :=
  (s.deadlockTree.remove trans).map fun tree =>
    signalAll { s with
      map := undo (s.trans trans).ops s.map
      lockTable := s.lockTable.unlockAll trans (s.opKeys trans)
      deadlockTree := tree }

/-- What `AddOp` does after the `Rollback` of a transaction that would have caused a deadlock. -/
def returnDeadlock (s : State) (trans : Trans) : State :=
  { s with
    trans := Function.update s.trans trans ⟨.idle, (s.trans trans).ops, (s.trans trans).rets ++ [.deadlock]⟩ }

/-- One step, with a bound on the depth of the search for a deadlock. -/
def step (fuel : Nat) (s : State) : Action → Option State
  | .addOp who op => if (s.trans who).phase = .idle then s.tryLock fuel who op else none
  | .retry who =>
      match (s.trans who).phase with
      | .waiting op _ => s.tryLock fuel who op
      | _ => none
  | .execute who op => if (s.trans who).phase = .granted op then some (s.execute who op) else none
  | .commit who => if (s.trans who).phase = .idle then s.commit who else none
  | .rollback who =>
      match (s.trans who).phase with
      | .idle => s.rollback who
      | .aborting _ => (s.rollback who).map fun after => after.returnDeadlock who
      | _ => none

/-- A step whose search ends. -/
def Step (s : State) (action : Action) (s' : State) : Prop := ∃ fuel, s.step fuel action = some s'

/-- An action that asks for the lock of an operation: a call of `AddOp`, or its next pass after a
`Wait`. -/
def Requests (s : State) (action : Action) (trans : Trans) (op : Op) : Prop :=
  (action = .addOp trans op ∧ (s.trans trans).phase = .idle) ∨
    (action = .retry trans ∧ ∃ signalled, (s.trans trans).phase = .waiting op signalled)

/-- Everything a step can do. -/
inductive Outcome (s : State) : Action → State → Prop
  | granted {action : Action} {trans : Trans} {op : Op} {table : LockTable} : s.Requests action trans op →
      s.lockTable.Grant trans op table →
      Outcome s action ({ s with lockTable := table }.setPhase trans (.granted op))
  | waits {action : Action} {trans : Trans} {op : Op} {fuel : Nat} {tree : DeadlockTree} :
      s.Requests action trans op → s.lockTable.Conflict trans op →
      s.deadlockTree.addDependencies fuel trans (s.holders op.key) = some (true, tree) →
      Outcome s action ({ s with deadlockTree := tree }.setPhase trans (.waiting op false))
  | refused {action : Action} {trans : Trans} {op : Op} {fuel : Nat} {tree : DeadlockTree} :
      s.Requests action trans op → s.lockTable.Conflict trans op →
      s.deadlockTree.addDependencies fuel trans (s.holders op.key) = some (false, tree) →
      Outcome s action ({ s with deadlockTree := tree }.setPhase trans (.aborting op))
  | executed {trans : Trans} {op : Op} : (s.trans trans).phase = .granted op →
      Outcome s (.execute trans op) (s.execute trans op)
  | committed {trans : Trans} {s' : State} : (s.trans trans).phase = .idle → s.commit trans = some s' →
      Outcome s (.commit trans) s'
  | aborted {trans : Trans} {s' : State} : (s.trans trans).phase = .idle → s.rollback trans = some s' →
      Outcome s (.rollback trans) s'
  | rolledBack {trans : Trans} {op : Op} {s' : State} : (s.trans trans).phase = .aborting op →
      s.rollback trans = some s' → Outcome s (.rollback trans) (s'.returnDeadlock trans)

theorem tryLock_outcome {fuel : Nat} {s s' : State} {action : Action} {trans : Trans} {op : Op}
    (hreq : s.Requests action trans op) (h : s.tryLock fuel trans op = some s') : Outcome s action s' := by
  unfold tryLock at h
  split at h
  · next table hlock =>
    rw [Option.some.injEq] at h
    subst h
    exact .granted hreq (LockTable.lock_granted hlock)
  · next table hlock =>
    obtain ⟨htable, hconf⟩ := LockTable.lock_refused hlock
    subst htable
    obtain ⟨info, hentry, -⟩ := id hconf
    have hholders : s.lockTable.getLockHolders op.key = some (s.holders op.key) := by
      rw [LockTable.getLockHolders, holders, LockTable.holders_of_some hentry, hentry]
      rfl
    rw [hholders] at h
    simp only at h
    split at h
    · cases h
    · split at h
      · cases h
      · next tree hdep =>
        rw [Option.some.injEq] at h
        subst h
        exact .waits hreq hconf hdep
      · next tree hdep =>
        rw [Option.some.injEq] at h
        subst h
        exact .refused hreq hconf hdep

theorem Step.outcome {s s' : State} {action : Action} (h : s.Step action s') : Outcome s action s' := by
  obtain ⟨fuel, h⟩ := h
  cases action with
  | addOp trans op =>
      rw [step] at h
      split at h
      · next hidle => exact tryLock_outcome (Or.inl ⟨rfl, hidle⟩) h
      · cases h
  | retry trans =>
      rw [step] at h
      split at h
      · next op signalled hphase => exact tryLock_outcome (Or.inr ⟨rfl, signalled, hphase⟩) h
      · cases h
  | execute trans op =>
      rw [step] at h
      split at h
      · next hphase =>
        rw [Option.some.injEq] at h
        subst h
        exact .executed hphase
      · cases h
  | commit trans =>
      rw [step] at h
      split at h
      · next hidle => exact .committed hidle h
      · cases h
  | rollback trans =>
      rw [step] at h
      split at h
      · next hidle => exact .aborted hidle h
      · next op hphase =>
        obtain ⟨middle, hmiddle, heq⟩ := Option.map_eq_some_iff.mp h
        subst heq
        exact .rolledBack hphase hmiddle
      · cases h

/-- A list of steps, each with the same bound on the search. -/
def runAll (fuel : Nat) : State → List Action → Option State
  | s, [] => some s
  | s, action :: actions =>
      match s.step fuel action with
      | none => none
      | some s' => runAll fuel s' actions

theorem run_of_runAll {fuel : Nat} {actions : List Action} {s s' : State}
    (h : s.runAll fuel actions = some s') : LibRun.Run Step s actions s' := by
  induction actions generalizing s with
  | nil =>
      rw [runAll, Option.some.injEq] at h
      subst h
      exact .nil s
  | cons action actions ih =>
      rw [runAll] at h
      split at h
      · cases h
      · next middle hstep => exact (LibRun.Run.single ⟨fuel, hstep⟩).trans (ih h)

end State

end Thebends.Ydb
