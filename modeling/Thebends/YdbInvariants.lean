import Thebends.YdbSched

/-! What every run of the ydb scheduler keeps: a step leaves the other transactions' operations alone,
the lock table is well formed, the two dependency tables are converse to each other, a transaction
never holds more locks than it has operations to unlock, and it keeps its locks until it commits or
rolls back. -/

namespace Thebends.Ydb

open LibRun

/-- The operation whose lock was granted and which has not run yet. -/
def Phase.grantedOps : Phase → List Op
  | .granted op => [op]
  | _ => []

namespace State

/-- The operations for which a transaction was granted a lock. -/
def held (s : State) (trans : Trans) : List Op := (s.trans trans).ops ++ (s.trans trans).phase.grantedOps

@[simp] theorem setPhase_lockTable (s : State) (trans : Trans) (phase : Phase) :
    (s.setPhase trans phase).lockTable = s.lockTable := rfl

@[simp] theorem setPhase_deadlockTree (s : State) (trans : Trans) (phase : Phase) :
    (s.setPhase trans phase).deadlockTree = s.deadlockTree := rfl

@[simp] theorem setPhase_trans_self (s : State) (trans : Trans) (phase : Phase) :
    (s.setPhase trans phase).trans trans = { s.trans trans with phase := phase } :=
  Function.update_self ..

theorem setPhase_trans_of_ne (s : State) {trans other : Trans} (phase : Phase) (h : other ≠ trans) :
    (s.setPhase trans phase).trans other = s.trans other :=
  Function.update_of_ne h ..

@[simp] theorem execute_trans_self (s : State) (trans : Trans) (op : Op) :
    (s.execute trans op).trans trans = ⟨.idle, (s.trans trans).ops ++ [(op.execute s.map).1.2],
      (s.trans trans).rets ++ [(op.execute s.map).1.1]⟩ :=
  Function.update_self ..

theorem execute_trans_of_ne (s : State) {trans other : Trans} (op : Op) (h : other ≠ trans) :
    (s.execute trans op).trans other = s.trans other :=
  Function.update_of_ne h ..

theorem returnDeadlock_trans_of_ne (s : State) {trans other : Trans} (h : other ≠ trans) :
    (s.returnDeadlock trans).trans other = s.trans other :=
  Function.update_of_ne h ..

@[simp] theorem returnDeadlock_trans_self (s : State) (trans : Trans) :
    (s.returnDeadlock trans).trans trans =
      ⟨.idle, (s.trans trans).ops, (s.trans trans).rets ++ [.deadlock]⟩ :=
  Function.update_self ..

end State

@[simp] theorem TransState.signal_ops (state : TransState) : state.signal.ops = state.ops := by
  unfold TransState.signal
  split <;> rfl

@[simp] theorem TransState.signal_rets (state : TransState) : state.signal.rets = state.rets := by
  unfold TransState.signal
  split <;> rfl

@[simp] theorem TransState.signal_grantedOps (state : TransState) :
    state.signal.phase.grantedOps = state.phase.grantedOps := by
  unfold TransState.signal
  split
  · next h => rw [h]; rfl
  · rfl

theorem TransState.signal_phase (state : TransState) : state.signal.phase =
    match state.phase with
    | .waiting op _ => .waiting op true
    | phase => phase := by
  obtain ⟨phase, ops, rets⟩ := state
  cases phase <;> rfl

namespace State

/-- What `Commit` and `Rollback` do to the tables and to the transactions. -/
structure Releases (s : State) (trans : Trans) (s' : State) : Prop where
  lockTable : s'.lockTable = s.lockTable.unlockAll trans (s.opKeys trans)
  deadlockTree : s.deadlockTree.remove trans = some s'.deadlockTree
  trans : ∀ other, s'.trans other = (s.trans other).signal

theorem commit_releases {s s' : State} {trans : Trans} (h : s.commit trans = some s') :
    s.Releases trans s' ∧ s'.map = s.map := by
  obtain ⟨tree, htree, rfl⟩ := Option.map_eq_some_iff.mp h
  exact ⟨⟨rfl, htree, fun _ => rfl⟩, rfl⟩

theorem rollback_releases {s s' : State} {trans : Trans} (h : s.rollback trans = some s') :
    s.Releases trans s' ∧ s'.map = undo (s.trans trans).ops s.map := by
  obtain ⟨tree, htree, rfl⟩ := Option.map_eq_some_iff.mp h
  exact ⟨⟨rfl, htree, fun _ => rfl⟩, rfl⟩

theorem Releases.held {s s' : State} {trans : Trans} (h : s.Releases trans s') (other : Trans) :
    s'.held other = s.held other := by
  simp [State.held, h.trans]

theorem returnDeadlock_held {s : State} {trans : Trans} {op : Op} (h : (s.trans trans).phase = .aborting op)
    (other : Trans) : (s.returnDeadlock trans).held other = s.held other := by
  by_cases ho : other = trans
  · subst ho
    simp [State.held, h, Phase.grantedOps]
  · simp [State.held, returnDeadlock_trans_of_ne s ho]

/-- A `Rollback` of a transaction that is aborting leaves it aborting. -/
theorem Releases.aborting {s s' : State} {trans : Trans} {op : Op} (h : s.Releases trans s')
    (hphase : (s.trans trans).phase = .aborting op) : (s'.trans trans).phase = .aborting op := by
  rw [h.trans, TransState.signal_phase, hphase]

theorem Requests.actor {s : State} {action : Action} {trans : Trans} {op : Op}
    (h : s.Requests action trans op) : action.actor = trans := by
  rcases h with ⟨rfl, -⟩ | ⟨rfl, -⟩ <;> rfl

theorem Requests.held {s : State} {action : Action} {trans : Trans} {op : Op}
    (h : s.Requests action trans op) : s.held trans = (s.trans trans).ops := by
  rcases h with ⟨-, hphase⟩ | ⟨-, signalled, hphase⟩ <;> simp [State.held, hphase, Phase.grantedOps]

/-- A step changes neither the operations nor the codes of the other transactions, and their phase at
most by a signal. -/
theorem Step.frame {s s' : State} {action : Action} (h : s.Step action s') {other : Trans}
    (hne : other ≠ action.actor) :
    s'.trans other = s.trans other ∨ s'.trans other = (s.trans other).signal := by
  cases h.outcome with
  | granted hreq _ => exact Or.inl (setPhase_trans_of_ne _ _ (hreq.actor ▸ hne))
  | waits hreq _ _ => exact Or.inl (setPhase_trans_of_ne _ _ (hreq.actor ▸ hne))
  | refused hreq _ _ => exact Or.inl (setPhase_trans_of_ne _ _ (hreq.actor ▸ hne))
  | executed _ => exact Or.inl (execute_trans_of_ne _ _ hne)
  | committed _ hcommit => exact Or.inr ((commit_releases hcommit).1.trans other)
  | aborted _ hroll => exact Or.inr ((rollback_releases hroll).1.trans other)
  | rolledBack _ hroll =>
      exact Or.inr ((returnDeadlock_trans_of_ne _ hne).trans ((rollback_releases hroll).1.trans other))

theorem Step.ops_of_ne {s s' : State} {action : Action} (h : s.Step action s') {other : Trans}
    (hne : other ≠ action.actor) :
    (s'.trans other).ops = (s.trans other).ops ∧ (s'.trans other).rets = (s.trans other).rets := by
  rcases h.frame hne with heq | heq <;> simp [heq]

theorem Step.held_of_ne {s s' : State} {action : Action} (h : s.Step action s') {other : Trans}
    (hne : other ≠ action.actor) : s'.held other = s.held other := by
  rcases h.frame hne with heq | heq <;> simp [held, heq]

theorem Step.untouched {s s' : State} {action : Action} (h : s.Step action s') {other : Trans}
    (hne : other ≠ action.actor) (hidle : (s.trans other).phase = .idle) : s'.trans other = s.trans other := by
  rcases h.frame hne with heq | heq
  · exact heq
  · rw [heq, TransState.signal, hidle]

/-- An idle transaction that takes no step stays as it is. -/
theorem untouched_run {s s' : State} {actions : List Action} (h : Run Step s actions s') {trans : Trans}
    (hidle : (s.trans trans).phase = .idle) (hactor : ∀ action ∈ actions, action.actor ≠ trans) :
    s'.trans trans = s.trans trans := by
  refine h.invariant (fun actions s' => (∀ action ∈ actions, action.actor ≠ trans) →
    s'.trans trans = s.trans trans) (fun _ => rfl) ?_ hactor
  intro actions before action after _ ih hstep hne
  have hold := ih fun other hother => hne other (List.mem_append_left _ hother)
  rw [hstep.untouched (Ne.symm (hne action (by simp))) (by rw [hold, hidle]), hold]

/-! ### The tables stay in order -/

/-- The invariants of the two tables. -/
structure Tables (s : State) : Prop where
  wellFormed : s.lockTable.WellFormed
  converse : s.deadlockTree.Converse

theorem tables_init (map : Map) : (init map).Tables :=
  ⟨nofun, DeadlockTree.converse_empty⟩

theorem Releases.tables {s s' : State} {trans : Trans} (h : s.Releases trans s') (ht : s.Tables) :
    s'.Tables := by
  refine ⟨by rw [h.lockTable]; exact ht.wellFormed.unlockAll _ _, ?_⟩
  obtain ⟨tree, htree, hconv, -⟩ := ht.converse.remove trans
  rw [h.deadlockTree, Option.some.injEq] at htree
  rw [htree]
  exact hconv

theorem Step.tables {s s' : State} {action : Action} (h : s.Step action s') (ht : s.Tables) : s'.Tables := by
  cases h.outcome with
  | granted _ hgrant => exact ⟨hgrant.wellFormed ht.wellFormed, ht.converse⟩
  | waits _ _ hdep =>
      obtain ⟨rfl, -⟩ := DeadlockTree.addDependencies_accepted hdep
      exact ⟨ht.wellFormed, ht.converse.linkAll _ _⟩
  | refused _ _ hdep =>
      obtain ⟨before, -, -, -, rfl, -⟩ := DeadlockTree.addDependencies_refused hdep
      exact ⟨ht.wellFormed, ht.converse.linkAll _ _⟩
  | executed _ => exact ⟨ht.wellFormed, ht.converse⟩
  | committed _ hcommit => exact (commit_releases hcommit).1.tables ht
  | aborted _ hroll => exact (rollback_releases hroll).1.tables ht
  | rolledBack _ hroll =>
      have := (rollback_releases hroll).1.tables ht
      exact ⟨this.wellFormed, this.converse⟩

/-- The tables are in order in every reachable state. -/
theorem tables_run {map : Map} {actions : List Action} {s : State} (h : Run Step (init map) actions s) :
    s.Tables :=
  h.invariant (fun _ s => s.Tables) (tables_init map) fun _ _ _ _ _ ht hstep => hstep.tables ht

/-- `Rollback` and `Commit` never get stuck in the deadlock tree. -/
theorem Tables.rollback_ends {s : State} (h : s.Tables) (trans : Trans) : ∃ s', s.rollback trans = some s' := by
  obtain ⟨tree, hremove, -⟩ := h.converse.remove trans
  exact ⟨_, by rw [rollback, hremove]; rfl⟩

theorem Tables.commit_ends {s : State} (h : s.Tables) (trans : Trans) : ∃ s', s.commit trans = some s' := by
  obtain ⟨tree, hremove, -⟩ := h.converse.remove trans
  exact ⟨_, by rw [commit, hremove]; rfl⟩

/-! ### Locks are accounted for -/

/-- No transaction is in a holder list more often than it has operations on the key. -/
def Accounted (s : State) : Prop :=
  ∀ trans key, (s.holders key).count trans ≤ ((s.held trans).map Op.key).count key

theorem accounted_init (map : Map) : (init map).Accounted := fun _ _ => Nat.zero_le _

/-- A transaction without a pending grant unlocks everything when it commits or rolls back. -/
theorem Releases.count_eq_zero {s s' : State} {trans : Trans} (h : s.Releases trans s') (ha : s.Accounted)
    (hpending : (s.trans trans).phase.grantedOps = []) (key : Str) : (s'.holders key).count trans = 0 := by
  have hcount := ha trans key
  rw [State.held, hpending, List.append_nil] at hcount
  rw [holders, h.lockTable, LockTable.count_unlockAll, if_pos rfl]
  exact Nat.sub_eq_zero_of_le hcount

theorem Releases.accounted {s s' : State} {trans : Trans} (h : s.Releases trans s') (ha : s.Accounted) :
    s'.Accounted := by
  intro other key
  rw [h.held, holders, h.lockTable, LockTable.count_unlockAll]
  exact Nat.le_trans (Nat.sub_le _ _) (ha other key)

/-- A step gives no lock to a transaction other than the one that takes it. -/
theorem Step.count_le_of_ne {s s' : State} {action : Action} (h : s.Step action s') {other : Trans}
    (hne : other ≠ action.actor) (key : Str) : (s'.holders key).count other ≤ (s.holders key).count other := by
  cases h.outcome with
  | granted hreq hgrant =>
      refine Nat.le_trans (hgrant.count_le other key) ?_
      rw [if_neg fun hand => hne (hreq.actor ▸ hand.2)]
      exact Nat.le_refl _
  | waits _ _ _ => exact Nat.le_refl _
  | refused _ _ _ => exact Nat.le_refl _
  | executed _ => exact Nat.le_refl _
  | committed _ hcommit =>
      rw [holders, (commit_releases hcommit).1.lockTable, LockTable.count_unlockAll]
      exact Nat.sub_le _ _
  | aborted _ hroll =>
      rw [holders, (rollback_releases hroll).1.lockTable, LockTable.count_unlockAll]
      exact Nat.sub_le _ _
  | rolledBack _ hroll =>
      change (LockTable.holders _ key).count other ≤ _
      rw [State.returnDeadlock, (rollback_releases hroll).1.lockTable, LockTable.count_unlockAll]
      exact Nat.sub_le _ _

theorem Step.accounted {s s' : State} {action : Action} (h : s.Step action s') (ha : s.Accounted) :
    s'.Accounted := by
  intro other key
  by_cases hne : other = action.actor
  swap
  · rw [h.held_of_ne hne]
    exact Nat.le_trans (h.count_le_of_ne hne key) (ha other key)
  · subst hne
    have hold := ha action.actor key
    cases h.outcome with
    | @granted _ trans op table hreq hgrant =>
        have hactor := hreq.actor
        subst hactor
        have hcount := hgrant.count_le action.actor key
        rw [hreq.held] at hold
        simp only [State.held, setPhase_trans_self, Phase.grantedOps, List.map_append, List.map_cons,
          List.map_nil, List.count_append]
        refine Nat.le_trans hcount (Nat.add_le_add hold ?_)
        by_cases hkey : key = op.key
        · subst hkey
          simp
        · simp [hkey]
    | waits hreq _ _ =>
        have hactor := hreq.actor
        subst hactor
        rw [hreq.held] at hold
        simpa [State.held, Phase.grantedOps, holders] using hold
    | refused hreq _ _ =>
        have hactor := hreq.actor
        subst hactor
        rw [hreq.held] at hold
        simpa [State.held, Phase.grantedOps, holders] using hold
    | @executed trans op hphase =>
        change _ ≤ ((State.held _ trans).map Op.key).count key
        change _ ≤ ((State.held _ trans).map Op.key).count key at hold
        simp only [State.held, hphase, execute_trans_self, Phase.grantedOps, List.append_nil, List.map_append,
          List.map_cons, List.map_nil, (op.execute_same s.map).1] at hold ⊢
        exact hold
    | committed _ hcommit => exact (commit_releases hcommit).1.accounted ha _ key
    | aborted _ hroll => exact (rollback_releases hroll).1.accounted ha _ key
    | rolledBack hphase hroll =>
        have hrel := (rollback_releases hroll).1
        rw [returnDeadlock_held (hrel.aborting hphase)]
        exact hrel.accounted ha _ key

theorem accounted_run {map : Map} {actions : List Action} {s : State} (h : Run Step (init map) actions s) :
    s.Accounted :=
  h.invariant (fun _ s => s.Accounted) (accounted_init map) fun _ _ _ _ _ ha hstep => hstep.accounted ha

/-! ### Locks are kept -/

/-- A transaction holds a lock strong enough for each of its operations. -/
def Covered (s : State) (trans : Trans) : Prop := ∀ op ∈ s.held trans, s.lockTable.Covers trans op

theorem covers_congr {table : LockTable} {trans : Trans} {op op' : Op} (hkey : op'.key = op.key)
    (htype : op'.lockType = op.lockType) (h : table.Covers trans op) : table.Covers trans op' := by
  simpa [LockTable.Covers, hkey, htype] using h

/-- **Locks are kept.** Only its own commit or rollback takes a lock from a transaction. -/
theorem Step.covered {s s' : State} {action : Action} (h : s.Step action s') {trans : Trans}
    (hcov : s.Covered trans) (hcommit : action ≠ .commit trans) (hroll : action ≠ .rollback trans) :
    s'.Covered trans := by
  by_cases hne : trans = action.actor
  swap
  · intro op hop
    rw [h.held_of_ne hne] at hop
    have hop' := hcov op hop
    cases h.outcome with
    | granted _ hgrant => exact hgrant.covers_of_covers hop'
    | waits _ _ _ => exact hop'
    | refused _ _ _ => exact hop'
    | executed _ => exact hop'
    | committed _ hc =>
        rw [(commit_releases hc).1.lockTable]
        exact LockTable.covers_unlockAll _ hne hop'
    | aborted _ hr =>
        rw [(rollback_releases hr).1.lockTable]
        exact LockTable.covers_unlockAll _ hne hop'
    | rolledBack _ hr =>
        rw [State.returnDeadlock, (rollback_releases hr).1.lockTable]
        exact LockTable.covers_unlockAll _ hne hop'
  · subst hne
    cases h.outcome with
    | @granted _ trans op table hreq hgrant =>
        have hactor := hreq.actor
        subst hactor
        intro op' hop'
        simp only [State.held, setPhase_trans_self, Phase.grantedOps] at hop'
        rcases List.mem_append.mp hop' with hold | hnew
        · exact hgrant.covers_of_covers (hcov op' (List.mem_append_left _ hold))
        · rw [List.mem_singleton] at hnew
          subst hnew
          exact hgrant.covers
    | waits hreq _ _ =>
        have hactor := hreq.actor
        subst hactor
        intro op' hop'
        simp only [State.held, setPhase_trans_self, Phase.grantedOps, List.append_nil] at hop'
        exact hcov op' (List.mem_append_left _ hop')
    | refused hreq _ _ =>
        have hactor := hreq.actor
        subst hactor
        intro op' hop'
        simp only [State.held, setPhase_trans_self, Phase.grantedOps, List.append_nil] at hop'
        exact hcov op' (List.mem_append_left _ hop')
    | @executed trans op hphase =>
        intro op' hop'
        change op' ∈ State.held _ trans at hop'
        have hcov' : ∀ op ∈ s.held trans, s.lockTable.Covers trans op := hcov
        simp only [State.held, execute_trans_self, Phase.grantedOps, List.append_nil] at hop'
        rcases List.mem_append.mp hop' with hold | hnew
        · exact hcov' op' (List.mem_append_left _ hold)
        · rw [List.mem_singleton] at hnew
          subst hnew
          obtain ⟨hkey, htype⟩ := op.execute_same s.map
          refine covers_congr hkey htype (hcov' op (List.mem_append_right _ ?_))
          simp [hphase, Phase.grantedOps]
    | committed _ _ => exact absurd rfl hcommit
    | aborted _ _ => exact absurd rfl hroll
    | rolledBack _ _ => exact absurd rfl hroll

end State

end Thebends.Ydb
