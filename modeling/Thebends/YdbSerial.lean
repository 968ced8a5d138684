import Thebends.YdbInvariants

/-! Serializability of the ydb scheduler. A run in which nobody rolls back and every transaction ends
with its one commit executes its operations in a rigorous schedule, because every operation is
covered by a lock that is kept until the commit. The general theorem on rigorous schedules then gives
the serial execution in commit order; that the scheduler can perform that serial run itself, without
refusing a lock, follows from what each transaction was granted in the concurrent one. -/

namespace Thebends.Ydb

open LibRun LibSchedule

namespace LockTable

/-! ### The locks of one transaction -/

/-- The part of an entry that is one transaction's. -/
def aloneEntry (trans : Trans) : Option LockInfo → Option LockInfo
  | none => none
  | some info =>
      if trans ∈ info.transactions then some ⟨info.type, info.transactions.filter (· = trans)⟩ else none

/-- The part of a lock table that is one transaction's. -/
def alone (table : LockTable) (trans : Trans) : LockTable := fun item => aloneEntry trans (table item)

theorem alone_update (table : LockTable) (trans : Trans) (item : Str) (entry : Option LockInfo) :
    alone (Function.update table item entry) trans =
      Function.update (table.alone trans) item (aloneEntry trans entry) :=
  Function.comp_update (aloneEntry trans) table item entry

/-- All of a list of operations are granted, one after another, when nobody else is there. -/
def grantAll (trans : Trans) : LockTable → List Op → Option LockTable
  | table, [] => some table
  | table, op :: ops =>
      match table.lock trans op with
      | (true, table') => grantAll trans table' ops
      | (false, _) => none

theorem grantAll_snoc {trans : Trans} {op : Op} {ops : List Op} {start table table' : LockTable}
    (h : start.grantAll trans ops = some table) (hlock : table.lock trans op = (true, table')) :
    start.grantAll trans (ops ++ [op]) = some table' := by
  induction ops generalizing start with
  | nil =>
      rw [grantAll, Option.some.injEq] at h
      subst h
      simp [grantAll, hlock]
  | cons first rest ih =>
      rw [List.cons_append, grantAll]
      rw [grantAll] at h
      split at h
      · exact ih h
      · cases h

/-- What was granted among others is granted alone. -/
theorem Grant.lock_alone {table table' : LockTable} {trans : Trans} {op : Op}
    (h : table.Grant trans op table') :
    (table.alone trans).lock trans op = (true, table'.alone trans) := by
  cases h with
  | fresh hnone =>
      have halone : table.alone trans op.key = none := by simp [alone, aloneEntry, hnone]
      rw [alone_update]
      cases hop : op.lockType <;>
        simp [lock, hop, readLock, writeLock, halone, LockInfo.addTransaction, aloneEntry]
  | @shared readers hop hsome =>
      rw [alone_update]
      by_cases hmem : trans ∈ readers
      · have halone : table.alone trans op.key = some ⟨.readlock, readers.filter (· = trans)⟩ := by
          simp [alone, aloneEntry, hsome, hmem]
        simp [lock, hop, readLock, halone, LockInfo.addTransaction, aloneEntry]
      · have halone : table.alone trans op.key = none := by simp [alone, aloneEntry, hsome, hmem]
        have hfilter : readers.filter (· = trans) = [] := by
          rw [List.filter_eq_nil_iff]
          intro other hother
          simpa using fun heq : other = trans => hmem (heq ▸ hother)
        simp [lock, hop, readLock, halone, LockInfo.addTransaction, aloneEntry, hfilter]
  | reread hop hsome =>
      have halone : table.alone trans op.key = some ⟨.writelock, [trans]⟩ := by simp [alone, aloneEntry, hsome]
      simp [lock, hop, readLock, halone, LockInfo.transactionCount, LockInfo.hasTransaction]
  | upgrade hop hsome =>
      have halone : table.alone trans op.key = some ⟨.readlock, [trans]⟩ := by simp [alone, aloneEntry, hsome]
      rw [alone_update]
      simp [lock, hop, writeLock, halone, LockInfo.transactionCount, LockInfo.removeTransaction,
        LockInfo.hasTransaction, LockInfo.addTransaction, aloneEntry]

/-- Another transaction's grant leaves a transaction's own locks alone. -/
theorem Grant.alone_of_ne {table table' : LockTable} {trans other : Trans} {op : Op}
    (h : table.Grant other op table') (hne : trans ≠ other) : table'.alone trans = table.alone trans := by
  cases h with
  | fresh hnone =>
      rw [alone_update, Function.update_eq_self_iff]
      simp [alone, aloneEntry, hnone, hne]
  | shared _ hsome =>
      rw [alone_update, Function.update_eq_self_iff]
      simp [alone, aloneEntry, hsome, hne, Ne.symm hne]
  | reread _ _ => rfl
  | upgrade _ hsome =>
      rw [alone_update, Function.update_eq_self_iff]
      simp [alone, aloneEntry, hsome, hne]

theorem alone_unlock (table : LockTable) {trans other : Trans} (item : Str) (hne : trans ≠ other) :
    ((table.unlock other item).2).alone trans = table.alone trans := by
  rcases table.unlock_cases other item with ⟨-, heq⟩ | ⟨info, hentry, -, heq⟩
  · rw [heq]
  · have hfilter : (info.transactions.erase other).filter (· = trans) =
        info.transactions.filter (· = trans) := by
      rw [← List.erase_filter, List.erase_of_not_mem]
      simpa using fun _ => Ne.symm hne
    rw [heq, alone_update, Function.update_eq_self_iff]
    simp only [alone, hentry]
    split
    · next hnil =>
      have hmem : trans ∉ info.transactions := by
        intro hmem
        have := (List.mem_erase_of_ne hne).mpr hmem
        rw [hnil] at this
        cases this
      simp [aloneEntry, hmem]
    · simp [aloneEntry, List.mem_erase_of_ne hne, hfilter]

theorem alone_unlockAll (table : LockTable) {trans other : Trans} (items : List Str) (hne : trans ≠ other) :
    (table.unlockAll other items).alone trans = table.alone trans := by
  induction items generalizing table with
  | nil => rfl
  | cons item items ih => exact (ih _).trans (alone_unlock table item hne)

end LockTable

/-! ### The schedule of a run -/

/-- The operation a transaction has asked for and not yet executed. -/
def Phase.pendingOps : Phase → List Op
  | .idle => []
  | .waiting op _ => [op]
  | .granted op => [op]
  | .aborting op => [op]

/-- What a step contributes to the schedule. -/
def Action.event : Action → Option (Event Trans Op)
  | .execute who op => some (.exec who op)
  | .commit who => some (.commit who)
  | _ => none

/-- The schedule of a run. -/
def events (actions : List Action) : List (Event Trans Op) := actions.filterMap Action.event

/-- The transactions of a run in the order of their commits. -/
def commitOrder (actions : List Action) : List Trans := commits (events actions)

/-- The operations a transaction passes to `AddOp` in a run. -/
def issued (trans : Trans) (actions : List Action) : List Op :=
  actions.filterMap fun action =>
    match action with
    | .addOp who op => if who = trans then some op else none
    | _ => none

/-- A transaction does nothing after its commit. -/
def CommitsLast (actions : List Action) : Prop :=
  actions.Pairwise fun earlier later => earlier ≠ .commit later.actor

instance commitsLastDecidable (actions : List Action) : Decidable (CommitsLast actions) :=
  inferInstanceAs (Decidable (actions.Pairwise fun earlier later => earlier ≠ .commit later.actor))

/-- The actions of a transaction that runs alone: each operation is added and executed, then the
transaction commits. -/
def soloActions (trans : Trans) (ops : List Op) : List Action :=
  ops.flatMap (fun op => [.addOp trans op, .execute trans op]) ++ [.commit trans]

/-- The transactions of a run, one after another in the order of their commits. -/
def serialActions (actions : List Action) : List Action :=
  (commitOrder actions).flatMap fun trans => soloActions trans (issued trans actions)

theorem events_snoc (actions : List Action) (action : Action) :
    events (actions ++ [action]) = events actions ++ action.event.toList := by
  cases h : action.event <;> simp [events, h]

theorem issued_addOp_self (trans : Trans) (op : Op) (actions : List Action) :
    issued trans (actions ++ [.addOp trans op]) = issued trans actions ++ [op] := by
  simp [issued]

theorem issued_of_ne {trans : Trans} {action : Action} (actions : List Action)
    (h : ∀ op, action ≠ .addOp trans op) : issued trans (actions ++ [action]) = issued trans actions := by
  cases action with
  | addOp who op =>
      have hne : who ≠ trans := by
        rintro rfl
        exact h op rfl
      simp [issued, hne]
  | _ => simp [issued]

theorem commitOrder_append (first second : List Action) :
    commitOrder (first ++ second) = commitOrder first ++ commitOrder second := by
  simp [commitOrder, events, commits_append]

theorem issued_append (trans : Trans) (first second : List Action) :
    issued trans (first ++ second) = issued trans first ++ issued trans second := by
  simp [issued]

theorem mem_commitOrder {trans : Trans} {actions : List Action} :
    trans ∈ commitOrder actions ↔ .commit trans ∈ actions := by
  induction actions with
  | nil => simp [commitOrder, events, commits]
  | cons action actions ih =>
      rw [← List.singleton_append, commitOrder_append, List.mem_append, ih]
      cases action <;> simp [commitOrder, events, List.filterMap, Action.event, commits]

theorem CommitsLast.init {actions : List Action} {action : Action} (h : CommitsLast (actions ++ [action])) :
    CommitsLast actions :=
  (List.pairwise_append.mp h).1

theorem CommitsLast.last {actions : List Action} {action : Action} (h : CommitsLast (actions ++ [action])) :
    action.actor ∉ commitOrder actions := by
  intro hmem
  exact (List.pairwise_append.mp h).2.2 _ (mem_commitOrder.mp hmem) action (by simp) rfl

/-- What an operation asks for. -/
def Op.want (op : Op) : Str × LockType := (op.key, op.lockType)

/-- Each transaction was granted the locks of its operations, and would be granted them alone. -/
def GrantedAlone (actions : List Action) (s : State) : Prop :=
  ∀ trans, ∃ table, LockTable.grantAll trans (fun _ => none)
      (program trans (events actions) ++ (s.trans trans).phase.grantedOps) = some table ∧
    (trans ∉ commitOrder actions → table = s.lockTable.alone trans)

/-- How the state of the scheduler follows the schedule of the run that led to it. -/
structure Follows (map : Map) (actions : List Action) (s : State) : Prop where
  tables : s.Tables
  store : s.map = Op.cells.replay map (events actions)
  ops : ∀ trans, (s.trans trans).ops = (Op.cells.outputs trans map (events actions)).map Prod.snd
  rets : ∀ trans, (s.trans trans).rets = (Op.cells.outputs trans map (events actions)).map Prod.fst
  wants : ∀ trans, (s.trans trans).ops.map Op.want = (program trans (events actions)).map Op.want
  calls : ∀ trans, issued trans actions = program trans (events actions) ++ (s.trans trans).phase.pendingOps
  covered : ∀ trans, trans ∉ commitOrder actions → s.Covered trans
  rigorous : Op.cells.Rigorous (events actions)
  granted : GrantedAlone actions s

theorem follows_init (map : Map) : Follows map [] (State.init map) where
  tables := State.tables_init map
  store := rfl
  ops _ := rfl
  rets _ := rfl
  wants _ := rfl
  calls _ := rfl
  covered _ _ _ hop := by cases hop
  rigorous := .nil
  granted _ := ⟨_, rfl, fun _ => rfl⟩

theorem State.Requests.event {s : State} {action : Action} {trans : Trans} {op : Op}
    (h : s.Requests action trans op) (actions : List Action) :
    events (actions ++ [action]) = events actions := by
  rw [events_snoc]
  rcases h with ⟨rfl, -⟩ | ⟨rfl, -⟩ <;> simp [Action.event]

theorem State.Requests.commitOrder {s : State} {action : Action} {trans : Trans} {op : Op}
    (h : s.Requests action trans op) (actions : List Action) :
    commitOrder (actions ++ [action]) = commitOrder actions := by
  rw [Ydb.commitOrder, h.event, Ydb.commitOrder]

theorem State.Requests.pending {s : State} {action : Action} {trans : Trans} {op : Op}
    (h : s.Requests action trans op) : (s.trans trans).phase.grantedOps = [] := by
  rcases h with ⟨-, hphase⟩ | ⟨-, signalled, hphase⟩ <;> simp [hphase, Phase.grantedOps]

/-- A request adds nothing to the schedule, whatever becomes of it. -/
theorem Follows.request {map : Map} {actions : List Action} {s s' : State} (h : Follows map actions s)
    {action : Action} {trans : Trans} {op : Op} (hstep : s.Step action s') (hreq : s.Requests action trans op)
    (hmap : s'.map = s.map) (hsame : ∀ other, other ≠ trans → s'.trans other = s.trans other)
    (hops : (s'.trans trans).ops = (s.trans trans).ops ∧ (s'.trans trans).rets = (s.trans trans).rets)
    (hpending : (s'.trans trans).phase.pendingOps = [op])
    (hgranted : GrantedAlone (actions ++ [action]) s') : Follows map (actions ++ [action]) s' := by
  have hops' : ∀ other, (s'.trans other).ops = (s.trans other).ops ∧
      (s'.trans other).rets = (s.trans other).rets := by
    intro other
    by_cases ho : other = trans
    · subst ho
      exact hops
    · rw [hsame other ho]
      exact ⟨rfl, rfl⟩
  refine ⟨hstep.tables h.tables, by rw [hreq.event, hmap]; exact h.store, ?_, ?_, ?_, ?_, ?_,
    by rw [hreq.event]; exact h.rigorous, hgranted⟩
  · intro other
    rw [hreq.event, (hops' other).1]
    exact h.ops other
  · intro other
    rw [hreq.event, (hops' other).2]
    exact h.rets other
  · intro other
    rw [hreq.event, (hops' other).1]
    exact h.wants other
  · intro other
    rw [hreq.event]
    by_cases ho : other = trans
    · subst ho
      have hcalls := h.calls other
      rw [hpending]
      rcases hreq with ⟨rfl, hphase⟩ | ⟨rfl, signalled, hphase⟩
      · rw [issued_addOp_self, hcalls, hphase]
        simp [Phase.pendingOps]
      · rw [issued_of_ne _ (by simp), hcalls, hphase]
        rfl
    · rw [hsame other ho, issued_of_ne, h.calls other]
      rintro op' rfl
      exact ho hreq.actor
  · intro other hother
    rw [hreq.commitOrder] at hother
    refine hstep.covered (h.covered other hother) ?_ ?_
    · rcases hreq with ⟨rfl, -⟩ | ⟨rfl, -⟩ <;> exact Action.noConfusion
    · rcases hreq with ⟨rfl, -⟩ | ⟨rfl, -⟩ <;> exact Action.noConfusion

/-- A request that is not granted takes no lock. -/
theorem GrantedAlone.request {actions : List Action} {s s' : State} (h : GrantedAlone actions s)
    {action : Action} {trans : Trans} {op : Op} (hreq : s.Requests action trans op)
    (htable : s'.lockTable = s.lockTable) (hsame : ∀ other, other ≠ trans → s'.trans other = s.trans other)
    (hphase : (s'.trans trans).phase.grantedOps = []) : GrantedAlone (actions ++ [action]) s' := by
  intro other
  rw [hreq.event, hreq.commitOrder, htable]
  obtain ⟨own, hown, halone⟩ := h other
  refine ⟨own, ?_, halone⟩
  by_cases ho : other = trans
  · subst ho
    rw [hphase, ← hreq.pending]
    exact hown
  · rw [hsame other ho]
    exact hown

theorem GrantedAlone.grant {actions : List Action} {s : State} (h : GrantedAlone actions s)
    {action : Action} {trans : Trans} {op : Op} {table : LockTable} (hreq : s.Requests action trans op)
    (hgrant : s.lockTable.Grant trans op table) (hfresh : trans ∉ commitOrder actions) :
    GrantedAlone (actions ++ [action]) ({ s with lockTable := table }.setPhase trans (.granted op)) := by
  intro other
  rw [hreq.event, hreq.commitOrder]
  obtain ⟨own, hown, halone⟩ := h other
  by_cases ho : other = trans
  · subst ho
    rw [hreq.pending, List.append_nil, halone hfresh] at hown
    refine ⟨table.alone other, ?_, fun _ => rfl⟩
    rw [State.setPhase_trans_self]
    exact LockTable.grantAll_snoc hown hgrant.lock_alone
  · refine ⟨own, by rw [State.setPhase_trans_of_ne _ _ ho]; exact hown, fun hother => ?_⟩
    rw [halone hother]
    exact (hgrant.alone_of_ne ho).symm

/-- An executed operation does not conflict with those of the other running transactions. -/
theorem Follows.apart {map : Map} {actions : List Action} {s : State} (h : Follows map actions s)
    {trans : Trans} {op : Op} (hphase : (s.trans trans).phase = .granted op)
    (hfresh : trans ∉ commitOrder actions) (other : Trans) (hne : other ≠ trans)
    (hother : other ∉ commitOrder actions) (op' : Op) (hop' : op' ∈ program other (events actions))
    (hkey : op'.key = op.key) : op.lockType ≠ .writelock ∧ op'.lockType ≠ .writelock := by
  have hmem : op'.want ∈ (s.trans other).ops.map Op.want := by
    rw [h.wants other]
    exact List.mem_map_of_mem hop'
  obtain ⟨found, hfound, hwant⟩ := List.mem_map.mp hmem
  obtain ⟨hkey', htype'⟩ := Prod.mk.inj hwant
  have hown : s.lockTable.Covers trans op :=
    h.covered trans hfresh op (List.mem_append_right _ (by simp [hphase, Phase.grantedOps]))
  have hcov : s.lockTable.Covers other op' :=
    State.covers_congr hkey'.symm htype'.symm (h.covered other hother found (List.mem_append_left _ hfound))
  exact hown.compatible h.tables.wellFormed hcov hkey hne

theorem Follows.exec {map : Map} {actions : List Action} {s : State} (h : Follows map actions s)
    {trans : Trans} {op : Op} (hstep : s.Step (.execute trans op) (s.execute trans op))
    (hphase : (s.trans trans).phase = .granted op) (hfresh : trans ∉ commitOrder actions) :
    Follows map (actions ++ [.execute trans op]) (s.execute trans op) := by
  have hevent : events (actions ++ [.execute trans op]) = events actions ++ [.exec trans op] := events_snoc _ _
  have horder : commitOrder (actions ++ [.execute trans op]) = commitOrder actions := by
    rw [commitOrder, hevent, commits_exec, commitOrder]
  have hexec : op.execute s.map = (Op.cells.result op s.map, Op.cells.exec op s.map) := op.execute_eq s.map
  refine ⟨hstep.tables h.tables, ?_, ?_, ?_, ?_, ?_, ?_, ?_, ?_⟩
  · rw [hevent, CellOps.replay_exec, ← h.store]
    exact congrArg Prod.snd hexec
  · intro other
    by_cases ho : other = trans
    · subst ho
      rw [hevent, CellOps.outputs_exec_self, ← h.store, List.map_append, ← h.ops, State.execute_trans_self, hexec]
      rfl
    · rw [hevent, Op.cells.outputs_exec_of_ne (Ne.symm ho), ← h.ops, State.execute_trans_of_ne s op ho]
  · intro other
    by_cases ho : other = trans
    · subst ho
      rw [hevent, CellOps.outputs_exec_self, ← h.store, List.map_append, ← h.rets, State.execute_trans_self, hexec]
      rfl
    · rw [hevent, Op.cells.outputs_exec_of_ne (Ne.symm ho), ← h.rets, State.execute_trans_of_ne s op ho]
  · intro other
    by_cases ho : other = trans
    · subst ho
      obtain ⟨hkey, htype⟩ := op.execute_same s.map
      rw [hevent, program_exec_self, List.map_append, ← h.wants, State.execute_trans_self, List.map_append]
      simp [Op.want, hkey, htype]
    · rw [hevent, program_exec_of_ne (Ne.symm ho), ← h.wants, State.execute_trans_of_ne s op ho]
  · intro other
    rw [issued_of_ne _ (by simp), h.calls other, hevent]
    by_cases ho : other = trans
    · subst ho
      rw [program_exec_self, State.execute_trans_self, hphase]
      simp [Phase.pendingOps]
    · rw [program_exec_of_ne (Ne.symm ho), State.execute_trans_of_ne s op ho]
  · intro other hother
    rw [horder] at hother
    exact hstep.covered (h.covered other hother) Action.noConfusion Action.noConfusion
  · rw [hevent]
    exact .exec h.rigorous hfresh (h.apart hphase hfresh)
  · intro other
    rw [hevent, horder]
    obtain ⟨own, hown, halone⟩ := h.granted other
    refine ⟨own, ?_, halone⟩
    by_cases ho : other = trans
    · subst ho
      rw [hphase] at hown
      rw [program_exec_self, State.execute_trans_self]
      simpa [Phase.grantedOps] using hown
    · rw [program_exec_of_ne (Ne.symm ho), State.execute_trans_of_ne s op ho]
      exact hown

theorem Phase.signal_pendingOps (state : TransState) : state.signal.phase.pendingOps = state.phase.pendingOps := by
  rw [TransState.signal_phase]
  split
  · next h => rw [h]; rfl
  · rfl

theorem Follows.commit {map : Map} {actions : List Action} {s s' : State} (h : Follows map actions s)
    {trans : Trans} (hstep : s.Step (.commit trans) s') (hcommit : s.commit trans = some s')
    (hfresh : trans ∉ commitOrder actions) : Follows map (actions ++ [.commit trans]) s' := by
  obtain ⟨hrel, hmap⟩ := State.commit_releases hcommit
  have hevent : events (actions ++ [.commit trans]) = events actions ++ [.commit trans] := events_snoc _ _
  have horder : commitOrder (actions ++ [.commit trans]) = commitOrder actions ++ [trans] := by
    rw [commitOrder, hevent, commits_commit, commitOrder]
  refine ⟨hstep.tables h.tables, ?_, ?_, ?_, ?_, ?_, ?_, ?_, ?_⟩
  · rw [hevent, CellOps.replay_commit, hmap]
    exact h.store
  · intro other
    rw [hevent, CellOps.outputs_commit, hrel.trans, TransState.signal_ops]
    exact h.ops other
  · intro other
    rw [hevent, CellOps.outputs_commit, hrel.trans, TransState.signal_rets]
    exact h.rets other
  · intro other
    rw [hevent, program_commit, hrel.trans, TransState.signal_ops]
    exact h.wants other
  · intro other
    rw [issued_of_ne _ (by simp), hevent, program_commit, hrel.trans, Phase.signal_pendingOps]
    exact h.calls other
  · intro other hother
    rw [horder, List.mem_append, List.mem_singleton, not_or] at hother
    refine hstep.covered (h.covered other hother.1) ?_ nofun
    intro heq
    exact hother.2 (Action.commit.inj heq).symm
  · rw [hevent]
    exact .commit h.rigorous hfresh
  · intro other
    rw [hevent, horder, program_commit, hrel.trans, TransState.signal_grantedOps]
    obtain ⟨own, hown, halone⟩ := h.granted other
    refine ⟨own, hown, fun hother => ?_⟩
    rw [List.mem_append, List.mem_singleton, not_or] at hother
    rw [halone hother.1, hrel.lockTable, LockTable.alone_unlockAll _ _ hother.2]

/-- **The state follows the schedule** along every run without rollbacks in which transactions end
with their commit. -/
theorem follows_run {map : Map} {actions : List Action} {s : State}
    (h : Run State.Step (State.init map) actions s) (hroll : ∀ trans, .rollback trans ∉ actions)
    (hlast : CommitsLast actions) : Follows map actions s := by
  refine h.invariant (fun actions s => (∀ trans, .rollback trans ∉ actions) → CommitsLast actions →
    Follows map actions s) (fun _ _ => follows_init map) ?_ hroll hlast
  intro actions s action s' _ ih hstep hroll hlast
  have hf := ih (fun trans hmem => hroll trans (List.mem_append_left _ hmem)) hlast.init
  have hfresh := hlast.last
  cases hstep.outcome with
  | granted hreq hgrant =>
      exact hf.request hstep hreq rfl (fun _ ho => State.setPhase_trans_of_ne _ _ ho) (by simp)
        (by simp [Phase.pendingOps]) (hf.granted.grant hreq hgrant (hreq.actor ▸ hfresh))
  | waits hreq _ _ =>
      exact hf.request hstep hreq rfl (fun _ ho => State.setPhase_trans_of_ne _ _ ho) (by simp)
        (by simp [Phase.pendingOps]) (hf.granted.request hreq rfl
          (fun _ ho => State.setPhase_trans_of_ne _ _ ho) (by simp [Phase.grantedOps]))
  | refused hreq _ _ =>
      exact hf.request hstep hreq rfl (fun _ ho => State.setPhase_trans_of_ne _ _ ho) (by simp)
        (by simp [Phase.pendingOps]) (hf.granted.request hreq rfl
          (fun _ ho => State.setPhase_trans_of_ne _ _ ho) (by simp [Phase.grantedOps]))
  | executed hphase => exact hf.exec hstep hphase hfresh
  | committed _ hcommit => exact hf.commit hstep hcommit hfresh
  | @aborted trans _ _ _ => exact absurd (by simp) (hroll trans)
  | @rolledBack trans _ _ _ _ => exact absurd (by simp) (hroll trans)

/-! ### The serial run -/

/-- A transaction stays outside the scheduler once it has committed. -/
theorem idle_of_committed {map : Map} {actions : List Action} {s : State}
    (h : Run State.Step (State.init map) actions s) (hlast : CommitsLast actions) {trans : Trans}
    (htrans : trans ∈ commitOrder actions) : (s.trans trans).phase = .idle := by
  refine h.invariant (fun actions s => CommitsLast actions → trans ∈ commitOrder actions →
    (s.trans trans).phase = .idle) (fun _ hmem => by cases hmem) ?_ hlast htrans
  intro actions s action s' _ ih hstep hlast hmem
  rw [commitOrder_append, List.mem_append] at hmem
  rcases hmem with hold | hnew
  · have hne : trans ≠ action.actor := by
      rintro rfl
      exact hlast.last hold
    have hidle := ih hlast.init hold
    rcases hstep.frame hne with heq | heq
    · rw [heq, hidle]
    · rw [heq, TransState.signal_phase, hidle]
  · rw [mem_commitOrder, List.mem_singleton] at hnew
    subst hnew
    cases hstep.outcome with
    | granted hreq _ => rcases hreq with ⟨heq, -⟩ | ⟨heq, -⟩ <;> cases heq
    | waits hreq _ _ => rcases hreq with ⟨heq, -⟩ | ⟨heq, -⟩ <;> cases heq
    | refused hreq _ _ => rcases hreq with ⟨heq, -⟩ | ⟨heq, -⟩ <;> cases heq
    | committed hidle hcommit => rw [(State.commit_releases hcommit).1.trans, TransState.signal_phase, hidle]

/-- Nobody holds a lock or waits. -/
structure Quiet (s : State) : Prop where
  lockTable : s.lockTable = fun _ => none
  deadlockTree : s.deadlockTree = .empty
  idle : ∀ trans, (s.trans trans).phase = .idle

theorem Quiet.tables {s : State} (h : Quiet s) : s.Tables := by
  refine ⟨?_, ?_⟩
  · rw [h.lockTable]
    exact nofun
  · rw [h.deadlockTree]
    exact DeadlockTree.converse_empty

theorem Quiet.accounted {s : State} (h : Quiet s) : s.Accounted := by
  intro trans key
  rw [State.holders, h.lockTable]
  exact Nat.zero_le _

theorem LockTable.grantAll_count {trans other : Trans} (hne : other ≠ trans) {ops : List Op}
    {start table : LockTable} (h : start.grantAll trans ops = some table) (key : Str) :
    (table.holders key).count other ≤ (start.holders key).count other := by
  induction ops generalizing start with
  | nil =>
      rw [grantAll, Option.some.injEq] at h
      exact Nat.le_of_eq (by rw [h])
  | cons op ops ih =>
      rw [grantAll] at h
      split at h
      · next middle hlock =>
        refine Nat.le_trans (ih h) ?_
        have hcount := (lock_granted hlock).count_le other key
        rwa [if_neg fun hand => hne hand.2] at hcount
      · cases h

/-- Operations whose locks are granted run one after another. -/
theorem run_solo_ops {trans : Trans} {ops : List Op} {s : State} {table : LockTable}
    (hidle : (s.trans trans).phase = .idle) (h : s.lockTable.grantAll trans ops = some table) :
    ∃ s', Run State.Step s (ops.flatMap fun op => [.addOp trans op, .execute trans op]) s' ∧
      s'.lockTable = table ∧ s'.deadlockTree = s.deadlockTree ∧ (s'.trans trans).phase = .idle ∧
      ∀ other, other ≠ trans → s'.trans other = s.trans other := by
  induction ops generalizing s with
  | nil =>
      rw [LockTable.grantAll, Option.some.injEq] at h
      exact ⟨s, .nil s, h, rfl, hidle, fun _ _ => rfl⟩
  | cons op ops ih =>
      rw [LockTable.grantAll] at h
      split at h
      · next middle hlock =>
        have hadd : s.Step (.addOp trans op) ({ s with lockTable := middle }.setPhase trans (.granted op)) :=
          ⟨0, by simp [State.step, hidle, State.tryLock, hlock]⟩
        have hexec : State.Step ({ s with lockTable := middle }.setPhase trans (.granted op))
            (.execute trans op) (({ s with lockTable := middle }.setPhase trans (.granted op)).execute trans op) :=
          ⟨0, by simp [State.step]⟩
        obtain ⟨s', hrun, htable, htree, hphase, hothers⟩ :=
          ih (s := ({ s with lockTable := middle }.setPhase trans (.granted op)).execute trans op)
            (by rw [State.execute_trans_self]) h
        refine ⟨s', ((Run.single hadd).trans (Run.single hexec)).trans hrun, htable, htree, hphase, ?_⟩
        intro other ho
        rw [hothers other ho, State.execute_trans_of_ne _ _ ho, State.setPhase_trans_of_ne _ _ ho]
      · cases h

/-- A transaction that runs alone on a quiet scheduler leaves it quiet. -/
theorem run_solo {trans : Trans} {ops : List Op} {s : State} {table : LockTable} (hq : Quiet s)
    (h : LockTable.grantAll trans (fun _ => none) ops = some table) :
    ∃ s', Run State.Step s (soloActions trans ops) s' ∧ Quiet s' := by
  obtain ⟨middle, hrun, htable, htree, hidle, hothers⟩ :=
    run_solo_ops (hq.idle trans) (s := s) (by rw [hq.lockTable]; exact h)
  have htables : middle.Tables :=
    hrun.invariant (fun _ s => s.Tables) hq.tables fun _ _ _ _ _ ht hstep => hstep.tables ht
  have hacc : middle.Accounted :=
    hrun.invariant (fun _ s => s.Accounted) hq.accounted fun _ _ _ _ _ ha hstep => hstep.accounted ha
  obtain ⟨s', hcommit⟩ := htables.commit_ends trans
  have hstep : middle.Step (.commit trans) s' := ⟨0, by rw [State.step, if_pos hidle, hcommit]⟩
  obtain ⟨hrel, -⟩ := State.commit_releases hcommit
  refine ⟨s', hrun.trans (Run.single hstep), ?_, ?_, ?_⟩
  · -- nobody is left in any holder list, so no entry is left
    funext key
    cases hentry : s'.lockTable key with
    | none => rfl
    | some info =>
        obtain ⟨other, hmem⟩ := List.exists_mem_of_ne_nil _
          (((hrel.tables htables).wellFormed key info hentry).1)
        have hpos : 0 < (s'.holders key).count other := by
          rw [State.holders, LockTable.holders_of_some hentry]
          exact List.count_pos_iff.mpr hmem
        by_cases ho : other = trans
        · subst ho
          rw [hrel.count_eq_zero hacc (by rw [hidle]; rfl) key] at hpos
          exact absurd hpos (Nat.lt_irrefl 0)
        · have hle : (s'.holders key).count other ≤ 0 := by
            rw [State.holders, hrel.lockTable, LockTable.count_unlockAll, htable]
            exact Nat.le_trans (Nat.sub_le _ _) (LockTable.grantAll_count ho h key)
          exact absurd hpos (Nat.not_lt.mpr hle)
  · have hremove := hrel.deadlockTree
    rw [htree, hq.deadlockTree] at hremove
    exact (Option.some.inj hremove).symm
  · intro other
    have hphase : (middle.trans other).phase = .idle := by
      by_cases ho : other = trans
      · subst ho
        exact hidle
      · rw [hothers other ho]
        exact hq.idle other
    rw [hrel.trans, TransState.signal_phase, hphase]

theorem run_serial {order : List Trans} {prog : Trans → List Op} {s : State} (hq : Quiet s)
    (h : ∀ trans ∈ order, ∃ table, LockTable.grantAll trans (fun _ => none) (prog trans) = some table) :
    ∃ s', Run State.Step s (order.flatMap fun trans => soloActions trans (prog trans)) s' := by
  induction order generalizing s with
  | nil => exact ⟨s, .nil s⟩
  | cons trans order ih =>
      obtain ⟨table, htable⟩ := h trans List.mem_cons_self
      obtain ⟨middle, hrun, hquiet⟩ := run_solo hq htable
      obtain ⟨s', hrest⟩ := ih hquiet fun other hother => h other (List.mem_cons_of_mem _ hother)
      exact ⟨s', hrun.trans hrest⟩

theorem commitOrder_solo (trans : Trans) (ops : List Op) : commitOrder (soloActions trans ops) = [trans] := by
  induction ops with
  | nil => rfl
  | cons op ops ih => exact ih

theorem issued_solo (trans other : Trans) (ops : List Op) :
    issued trans (soloActions other ops) = if other = trans then ops else [] := by
  induction ops with
  | nil => simp [soloActions, issued]
  | cons op ops ih =>
      have hcons : soloActions other (op :: ops) =
          [.addOp other op, .execute other op] ++ soloActions other ops := by
        simp [soloActions]
      rw [hcons, issued_append, ih]
      by_cases ho : other = trans <;> simp [issued, ho]

theorem actor_of_mem_solo {trans : Trans} {ops : List Op} {action : Action}
    (h : action ∈ soloActions trans ops) : action.actor = trans := by
  simp only [soloActions, List.mem_append, List.mem_flatMap, List.mem_cons, List.not_mem_nil, or_false] at h
  rcases h with ⟨op, -, rfl | rfl⟩ | rfl <;> rfl

theorem commitOrder_serial (order : List Trans) (prog : Trans → List Op) :
    commitOrder (order.flatMap fun trans => soloActions trans (prog trans)) = order := by
  induction order with
  | nil => rfl
  | cons trans order ih => rw [List.flatMap_cons, commitOrder_append, commitOrder_solo, ih, List.singleton_append]

theorem issued_serial {order : List Trans} (hnodup : order.Nodup) (prog : Trans → List Op) {trans : Trans}
    (h : trans ∈ order) :
    issued trans (order.flatMap fun other => soloActions other (prog other)) = prog trans := by
  have hnone : ∀ rest : List Trans, trans ∉ rest →
      issued trans (rest.flatMap fun other => soloActions other (prog other)) = [] := by
    intro rest hrest
    induction rest with
    | nil => rfl
    | cons other rest ih =>
        rw [List.mem_cons, not_or] at hrest
        rw [List.flatMap_cons, issued_append, ih hrest.2, issued_solo, if_neg (Ne.symm hrest.1)]
        rfl
  induction order with
  | nil => cases h
  | cons other order ih =>
      rw [List.nodup_cons] at hnodup
      rw [List.flatMap_cons, issued_append, issued_solo]
      rcases List.mem_cons.mp h with heq | hmem
      · subst heq
        rw [if_pos rfl, hnone order hnodup.1, List.append_nil]
      · have hne : other ≠ trans := fun heq => hnodup.1 (heq ▸ hmem)
        rw [if_neg hne, List.nil_append, ih hnodup.2 hmem]

theorem commitsLast_serial {order : List Trans} (hnodup : order.Nodup) (prog : Trans → List Op) :
    CommitsLast (order.flatMap fun trans => soloActions trans (prog trans)) := by
  refine List.pairwise_flatMap.mpr ⟨fun trans _ => ?_, ?_⟩
  · refine List.pairwise_append.mpr ⟨?_, List.pairwise_singleton .., ?_⟩
    · refine List.pairwise_flatMap.mpr ⟨fun op _ => by simp, List.pairwise_of_forall fun first second => ?_⟩
      intro action hmem later _ heq
      subst heq
      simp at hmem
    · intro action hmem later _ heq
      subst heq
      simp at hmem
  · refine hnodup.imp fun hne action hmem later hlater heq => ?_
    have hactor := actor_of_mem_solo hmem
    rw [heq, Action.actor, actor_of_mem_solo hlater] at hactor
    exact hne hactor.symm

/-- A run in which every transaction ends with its commit did what the serial execution of the
operations passed to `AddOp` does. -/
theorem serial_of_run {map : Map} {actions : List Action} {s : State}
    (h : Run State.Step (State.init map) actions s) (hroll : ∀ trans, .rollback trans ∉ actions)
    (hlast : CommitsLast actions) (hall : ∀ action ∈ actions, .commit action.actor ∈ actions) :
    s.map = Op.cells.serial map (fun trans => issued trans actions) (commitOrder actions) ∧
      (∀ before trans after, commitOrder actions = before ++ trans :: after →
        (s.trans trans).ops = (Op.cells.results (Op.cells.serial map (fun other => issued other actions) before)
          (issued trans actions)).map Prod.snd ∧
        (s.trans trans).rets = (Op.cells.results (Op.cells.serial map (fun other => issued other actions) before)
          (issued trans actions)).map Prod.fst) ∧
      ∀ trans, trans ∉ commitOrder actions → (s.trans trans).ops = [] ∧ (s.trans trans).rets = [] := by
  have hf := follows_run h hroll hlast
  have hagrees := CellOps.Rigorous.agrees Op.cells map hf.rigorous
  have habsent : ∀ trans, trans ∉ commitOrder actions → issued trans actions = [] := by
    intro trans htrans
    refine List.filterMap_eq_nil_iff.mpr fun action haction => ?_
    have hactor : action.actor ≠ trans := by
      rintro rfl
      exact htrans (mem_commitOrder.mpr (hall action haction))
    cases action with
    | addOp who op => exact if_neg hactor
    | _ => rfl
  have hprog : ∀ trans, program trans (events actions) = issued trans actions := by
    intro trans
    rw [hf.calls trans]
    by_cases htrans : trans ∈ commitOrder actions
    · rw [idle_of_committed h hlast htrans, Phase.pendingOps, List.append_nil]
    · have hnil := habsent trans htrans
      rw [hf.calls trans] at hnil
      rw [hnil]
      exact (List.append_eq_nil_iff.mp hnil).1
  have hserial : ∀ order, Op.cells.serial map (fun trans => program trans (events actions)) order =
      Op.cells.serial map (fun trans => issued trans actions) order :=
    fun order => Op.cells.serial_congr map order fun trans _ => hprog trans
  refine ⟨?_, ?_, ?_⟩
  · rw [hf.store, CellOps.Rigorous.serializable Op.cells map hf.rigorous, hserial]
    · rfl
    · intro trans hne
      by_contra hmem
      rw [hprog trans, habsent trans hmem] at hne
      exact hne rfl
  · intro before trans after horder
    rw [hf.ops, hf.rets, hagrees.committed before trans after horder, hserial, hprog]
    exact ⟨rfl, rfl⟩
  · intro trans htrans
    rw [hf.ops, hf.rets, hagrees.seen trans htrans, hprog, habsent trans htrans]
    exact ⟨rfl, rfl⟩

/-- **Serializability.** A run in which nobody rolls back and every transaction ends with its one
commit has the same effect on the map, and shows every transaction the same codes and values, as
the scheduler's own run of the transactions one after another in the order of their commits. -/
theorem concurrent_eq_serial (map : Map) (actions : List Action) (s : State)
    (h : Run State.Step (State.init map) actions s) (hroll : ∀ trans, .rollback trans ∉ actions)
    (hlast : CommitsLast actions) (hall : ∀ action ∈ actions, .commit action.actor ∈ actions) :
    ∃ s', Run State.Step (State.init map) (serialActions actions) s' ∧ s'.map = s.map ∧
      ∀ trans, (s'.trans trans).ops = (s.trans trans).ops ∧ (s'.trans trans).rets = (s.trans trans).rets := by
  have hf := follows_run h hroll hlast
  have hnodup : (commitOrder actions).Nodup := CellOps.Rigorous.nodup Op.cells hf.rigorous
  have hquiet : Quiet (State.init map) := ⟨rfl, rfl, fun _ => rfl⟩
  obtain ⟨s', hrun⟩ : ∃ s', Run State.Step (State.init map) (serialActions actions) s' := by
    refine run_serial hquiet fun trans htrans => ?_
    obtain ⟨table, htable, -⟩ := hf.granted trans
    have hidle := idle_of_committed h hlast htrans
    rw [hidle, show Phase.idle.grantedOps = [] from rfl, List.append_nil] at htable
    rw [hf.calls trans, hidle, Phase.pendingOps, List.append_nil]
    exact ⟨table, htable⟩
  have horder : commitOrder (serialActions actions) = commitOrder actions := commitOrder_serial _ _
  have hissued : ∀ trans ∈ commitOrder actions, issued trans (serialActions actions) = issued trans actions :=
    fun trans htrans => issued_serial hnodup _ htrans
  obtain ⟨hmap, hops, hnone⟩ := serial_of_run h hroll hlast hall
  obtain ⟨hmap', hops', hnone'⟩ := serial_of_run hrun
    (by
      intro trans hmem
      obtain ⟨other, -, hmem⟩ := List.mem_flatMap.mp hmem
      simp [soloActions] at hmem)
    (commitsLast_serial hnodup _)
    (by
      intro action hmem
      obtain ⟨other, hother, hmem⟩ := List.mem_flatMap.mp hmem
      rw [actor_of_mem_solo hmem, ← mem_commitOrder, horder]
      exact hother)
  have hserial : ∀ order, (∀ trans ∈ order, trans ∈ commitOrder actions) →
      Op.cells.serial map (fun trans => issued trans (serialActions actions)) order =
        Op.cells.serial map (fun trans => issued trans actions) order :=
    fun order hsub => Op.cells.serial_congr map order fun trans htrans => hissued trans (hsub trans htrans)
  refine ⟨s', hrun, ?_, fun trans => ?_⟩
  · rw [hmap', hmap, horder, hserial _ fun _ htrans => htrans]
  · by_cases htrans : trans ∈ commitOrder actions
    · obtain ⟨before, after, hsplit⟩ := List.append_of_mem htrans
      have hbefore : ∀ other ∈ before, other ∈ commitOrder actions :=
        fun other hother => hsplit ▸ List.mem_append_left _ hother
      obtain ⟨hops₁, hrets₁⟩ := hops before trans after hsplit
      obtain ⟨hops₂, hrets₂⟩ := hops' before trans after (horder.trans hsplit)
      rw [hops₁, hrets₁, hops₂, hrets₂, hserial before hbefore, hissued trans htrans]
      exact ⟨rfl, rfl⟩
    · obtain ⟨hops₁, hrets₁⟩ := hnone trans htrans
      obtain ⟨hops₂, hrets₂⟩ := hnone' trans (horder ▸ htrans)
      rw [hops₁, hrets₁, hops₂, hrets₂]
      exact ⟨rfl, rfl⟩

/-- Transaction 2 reads what transaction 1 has written, so it waits for the commit; it then upgrades
its read lock. -/
def waitingReader : List Action :=
  [.addOp 1 (.write [97] [49] false []), .execute 1 (.write [97] [49] false []), .addOp 2 (.read [97] []),
    .commit 1, .retry 2, .execute 2 (.read [97] []), .addOp 2 (.write [97] [50] false []),
    .execute 2 (.write [97] [50] false []), .commit 2]

theorem concurrent_eq_serial_waitingReader :
    ∃ s s', Run State.Step (State.init fun _ => none) waitingReader s ∧
      Run State.Step (State.init fun _ => none) (serialActions waitingReader) s' ∧ s'.map = s.map ∧
      (s.trans 2).ops = [.read [97] [49], .write [97] [50] true [49]] ∧
      ∀ trans, (s'.trans trans).ops = (s.trans trans).ops ∧ (s'.trans trans).rets = (s.trans trans).rets := by
  obtain ⟨s, hs, hops⟩ : ∃ s, (State.init fun _ => none).runAll 2 waitingReader = some s ∧
      (s.trans 2).ops = [.read [97] [49], .write [97] [50] true [49]] := ⟨_, rfl, by decide⟩
  have hrun := State.run_of_runAll hs
  obtain ⟨s', hserial, hmap, hsame⟩ := concurrent_eq_serial _ _ s hrun (by simp [waitingReader]) (by decide)
    (by decide)
  exact ⟨s, s', hrun, hserial, hmap, hops, hsame⟩

end Thebends.Ydb
