import Thebends.YdbWaits

/-! The alarms of `Ydb_DeadlockTree`: when the edges it records are waits that really happen, and
when the `YDB_DEADLOCK` it leads to is a real deadlock. -/

namespace Thebends.Ydb

open LibRun Relation

/-- `other` holds a lock on the key of `op` that keeps `op` from being granted to anybody else. -/
def LockTable.InTheWay (table : LockTable) (op : Op) (other : Trans) : Prop :=
  ∃ mode, table.heldMode other op.key = some mode ∧ (op.lockType = .writelock ∨ mode = .writelock)

namespace State

/-- `trans` waits inside `AddOp` for a lock that `other` holds. -/
def WaitsFor (s : State) (trans other : Trans) : Prop :=
  ∃ op signalled, (s.trans trans).phase = .waiting op signalled ∧ s.lockTable.InTheWay op other ∧ other ≠ trans

/-- The edges recorded when the loop of `AddOp` has gone past the holders `before`. -/
def EdgesAfter (s : State) (trans : Trans) (before : List Trans) : Trans → Trans → Prop :=
  (s.deadlockTree.linkAll trans before).blockedBy.Edge

/-- What keeps the search from misleading alarms. A new request finds no edge that an earlier, refused
request of the same transaction has left behind. And when the loop of `AddOp` comes to a holder that is
blocked by something the transaction is blocked by too, or by the transaction, then it is another
transaction and there is a chain of edges from it to the transaction, with nobody on it who is about to
roll back. -/
def ClearSearch (s : State) (action : Action) : Prop :=
  ∀ trans op, s.Requests action trans op →
    ((s.trans trans).phase = .idle → ∀ other, s.deadlockTree.blockedBy.Edge trans other → other = trans) ∧
    (s.lockTable.Conflict trans op → ∀ before other after, s.holders op.key = before ++ other :: after →
      ∀ meeting, TransGen (s.EdgesAfter trans before) other meeting →
        ReflTransGen (s.EdgesAfter trans before) trans meeting →
        other ≠ trans ∧ TransGen (s.EdgesAfter trans before) other trans ∧
        ∀ link op', ReflTransGen (s.EdgesAfter trans before) other link →
          TransGen (s.EdgesAfter trans before) link trans → (s.trans link).phase ≠ .aborting op')

/-! ### Recorded edges are waits -/

/-- Every recorded edge between two transactions is a wait, or one that is about to end in a rollback,
or was left behind by a transaction that holds no lock any more. -/
def EdgesSound (s : State) : Prop :=
  ∀ trans other, s.deadlockTree.blockedBy.Edge trans other → other ≠ trans →
    (∃ op, ((∃ signalled, (s.trans trans).phase = .waiting op signalled) ∨ (s.trans trans).phase = .aborting op) ∧
      s.lockTable.InTheWay op other) ∨
    ((s.trans trans).phase = .idle ∧ ∀ key, trans ∉ s.holders key)

end State

namespace LockTable

theorem heldMode_eq_some {table : LockTable} {trans : Trans} {item : Str} {mode : LockType} :
    table.heldMode trans item = some mode ↔ ∃ others, table item = some ⟨mode, others⟩ ∧ trans ∈ others := by
  unfold heldMode
  cases table item with
  | none => simp
  | some info =>
      obtain ⟨type, transactions⟩ := info
      by_cases hmem : trans ∈ transactions
      · simp only [hmem, if_true, Option.some.injEq, LockInfo.mk.injEq]
        constructor
        · rintro rfl
          exact ⟨transactions, ⟨rfl, rfl⟩, hmem⟩
        · rintro ⟨others, ⟨rfl, rfl⟩, -⟩
          rfl
      · simp only [hmem, if_false, Option.some.injEq, LockInfo.mk.injEq, reduceCtorEq, false_iff]
        rintro ⟨others, ⟨-, rfl⟩, hin⟩
        exact hmem hin

theorem InTheWay.mem_holders {table : LockTable} {op : Op} {other : Trans} (h : table.InTheWay op other) :
    other ∈ table.holders op.key := by
  obtain ⟨mode, hheld, -⟩ := h
  obtain ⟨others, hentry, hmem⟩ := heldMode_eq_some.mp hheld
  rw [holders_of_some hentry]
  exact hmem

/-- All holders of the key of a refused request are in its way. -/
theorem Conflict.inTheWay {table : LockTable} {trans other : Trans} {op : Op} (h : table.Conflict trans op)
    (hmem : other ∈ table.holders op.key) : table.InTheWay op other := by
  obtain ⟨⟨type, transactions⟩, hentry, hmode, -⟩ := h
  rw [holders_of_some hentry] at hmem
  exact ⟨type, heldMode_eq_some.mpr ⟨transactions, hentry, hmem⟩, hmode⟩

/-- What was in the way of another request still is after a grant. -/
theorem Grant.inTheWay {table table' : LockTable} {trans other : Trans} {op op' : Op}
    (h : table.Grant trans op table') (hway : table.InTheWay op' other) : table'.InTheWay op' other := by
  obtain ⟨mode, hheld, hmode⟩ := hway
  obtain ⟨others, hentry, hmem⟩ := heldMode_eq_some.mp hheld
  by_cases hkey : op'.key = op.key
  · rw [hkey] at hentry
    cases h with
    | fresh hnone => rw [hnone] at hentry; cases hentry
    | shared hop hsome =>
        rw [hsome] at hentry
        cases hentry
        refine ⟨.readlock, heldMode_eq_some.mpr ⟨others ++ [trans], ?_, List.mem_append_left _ hmem⟩, hmode⟩
        rw [hkey]
        exact Function.update_self ..
    | reread _ _ => exact ⟨mode, hheld, hmode⟩
    | upgrade hop hsome =>
        rw [hsome] at hentry
        cases hentry
        refine ⟨.writelock, heldMode_eq_some.mpr ⟨[trans], ?_, hmem⟩, Or.inr rfl⟩
        rw [hkey]
        exact Function.update_self ..
  · refine ⟨mode, heldMode_eq_some.mpr ⟨others, ?_, hmem⟩, hmode⟩
    rw [h.of_ne hkey]
    exact hentry

/-- A grant finds nobody else in its way. -/
theorem Grant.not_inTheWay {table table' : LockTable} {trans other : Trans} {op : Op}
    (h : table.Grant trans op table') (hne : other ≠ trans) : ¬table.InTheWay op other := by
  rintro ⟨mode, hheld, hmode⟩
  obtain ⟨others, hentry, hmem⟩ := heldMode_eq_some.mp hheld
  cases h with
  | fresh hnone => rw [hnone] at hentry; cases hentry
  | shared hop hsome =>
      rw [hsome] at hentry
      cases hentry
      rw [hop] at hmode
      simp at hmode
  | reread _ hsome =>
      rw [hsome] at hentry
      cases hentry
      exact hne (List.mem_singleton.mp hmem)
  | upgrade _ hsome =>
      rw [hsome] at hentry
      cases hentry
      exact hne (List.mem_singleton.mp hmem)

theorem InTheWay.unlockAll {table : LockTable} {op : Op} {trans other : Trans} (h : table.InTheWay op other)
    (hne : other ≠ trans) (items : List Str) : (table.unlockAll trans items).InTheWay op other := by
  obtain ⟨mode, hheld, hmode⟩ := h
  exact ⟨mode, by rw [heldMode_unlockAll table items _ hne]; exact hheld, hmode⟩

end LockTable

namespace State

/-- A transaction that has released its locks leaves only sound edges. -/
theorem Releases.edgesSound {s s' s'' : State} {trans : Trans} (h : s.Releases trans s') (htables : s.Tables)
    (ha : s.Accounted) (hpending : (s.trans trans).phase.grantedOps = []) (hsound : s.EdgesSound)
    (hlock : s''.lockTable = s'.lockTable) (htree : s''.deadlockTree = s'.deadlockTree)
    (hothers : ∀ other, other ≠ trans → s''.trans other = s'.trans other)
    (hidle : (s''.trans trans).phase = .idle) : s''.EdgesSound := by
  intro source target hedge hne
  obtain ⟨tree, hremove, -, hcount⟩ := htables.converse.remove trans
  rw [h.deadlockTree, Option.some.injEq] at hremove
  subst hremove
  rw [htree, DeadlockTable.Edge, ← List.count_pos_iff, hcount] at hedge
  split at hedge
  · exact absurd hedge (Nat.lt_irrefl 0)
  · next htarget =>
    have hold : s.deadlockTree.blockedBy.Edge source target := List.count_pos_iff.mp hedge
    by_cases hsource : source = trans
    · subst hsource
      refine Or.inr ⟨hidle, fun key hmem => ?_⟩
      rw [holders, hlock] at hmem
      exact List.count_eq_zero.mp (h.count_eq_zero ha hpending key) hmem
    · have htrans : s''.trans source = (s.trans source).signal := (hothers source hsource).trans (h.trans source)
      rw [htrans, TransState.signal_phase]
      rcases hsound source target hold hne with ⟨op, hphase, hway⟩ | ⟨hphase, hnone⟩
      · refine Or.inl ⟨op, ?_, ?_⟩
        · rcases hphase with ⟨signalled, hphase⟩ | hphase
          · exact Or.inl ⟨true, by rw [hphase]⟩
          · exact Or.inr (by rw [hphase])
        · rw [hlock, h.lockTable]
          exact hway.unlockAll htarget _
      · refine Or.inr ⟨by rw [hphase], fun key hmem => hnone key ?_⟩
        rw [holders, hlock, h.lockTable, ← List.count_pos_iff, LockTable.count_unlockAll] at hmem
        exact List.count_pos_iff.mp (Nat.lt_of_lt_of_le hmem (Nat.sub_le _ _))

/-- The edges of a transaction whose request is refused, whether it then waits or not. -/
theorem Requests.edgesSound {s : State} {action : Action} {trans : Trans} {op : Op} {phase : Phase}
    (hreq : s.Requests action trans op) (hclear : s.ClearSearch action) (hconf : s.lockTable.Conflict trans op)
    (hphase : (∃ signalled, phase = .waiting op signalled) ∨ phase = .aborting op) {items : List Trans}
    (hitems : ∀ other ∈ items, other ∈ s.holders op.key) (hsound : s.EdgesSound) :
    ({ s with deadlockTree := s.deadlockTree.linkAll trans items }.setPhase trans phase).EdgesSound := by
  intro source target hedge hne
  by_cases hsource : source = trans
  swap
  · rw [setPhase_deadlockTree, DeadlockTable.Edge, DeadlockTree.list_linkAll_of_ne _ _ hsource] at hedge
    have hold := hsound source target hedge hne
    rw [setPhase_trans_of_ne _ _ hsource]
    exact hold
  · subst hsource
    rw [setPhase_deadlockTree, DeadlockTable.Edge, DeadlockTree.list_linkAll_self] at hedge
    have hway : s.lockTable.InTheWay op target := by
      rcases List.mem_append.mp hedge with hold | hnew
      · rcases id hreq with ⟨-, hidle⟩ | ⟨-, signalled, hwaiting⟩
        · exact absurd ((hclear source op hreq).1 hidle target hold) hne
        · rcases hsound source target hold hne with ⟨op', hphase', hway⟩ | ⟨hidle, -⟩
          · rw [hwaiting] at hphase'
            rcases hphase' with ⟨signalled', heq⟩ | heq
            · cases heq
              exact hway
            · cases heq
          · rw [hwaiting] at hidle
            cases hidle
      · exact hconf.inTheWay (hitems target hnew)
    refine Or.inl ⟨op, ?_, hway⟩
    rw [setPhase_trans_self]
    exact hphase

/-- **Recorded edges stay sound.** -/
theorem Step.edgesSound {s s' : State} {action : Action} (h : s.Step action s') (hclear : s.ClearSearch action)
    (htables : s.Tables) (ha : s.Accounted) (hsound : s.EdgesSound) : s'.EdgesSound := by
  cases h.outcome with
  | @granted _ trans op table hreq hgrant =>
      intro source target hedge hne
      rw [setPhase_deadlockTree] at hedge
      have hold := hsound source target hedge hne
      by_cases hsource : source = trans
      · -- whoever was in the way of the request has gone
        subst hsource
        rcases hreq with ⟨rfl, hidle⟩ | ⟨rfl, signalled, hwaiting⟩
        · exact absurd ((hclear source op (Or.inl ⟨rfl, hidle⟩)).1 hidle target hedge) hne
        · rcases hold with ⟨op', hphase, hway⟩ | ⟨hidle, -⟩
          · rw [hwaiting] at hphase
            rcases hphase with ⟨signalled', heq⟩ | heq
            · cases heq
              exact absurd hway (hgrant.not_inTheWay hne)
            · cases heq
          · rw [hwaiting] at hidle
            cases hidle
      · rw [setPhase_trans_of_ne _ _ hsource]
        rcases hold with ⟨op', hphase, hway⟩ | ⟨hidle, hnone⟩
        · exact Or.inl ⟨op', hphase, hgrant.inTheWay hway⟩
        · refine Or.inr ⟨hidle, fun key hmem => hnone key ?_⟩
          have hcount := hgrant.count_le source key
          rw [if_neg fun hand => hsource hand.2] at hcount
          exact List.count_pos_iff.mp (Nat.lt_of_lt_of_le (List.count_pos_iff.mpr hmem) hcount)
  | @waits _ trans op fuel tree hreq hconf hdep =>
      obtain ⟨rfl, -⟩ := DeadlockTree.addDependencies_accepted hdep
      exact hreq.edgesSound hclear hconf (Or.inl ⟨false, rfl⟩) (fun _ hmem => hmem) hsound
  | @refused _ trans op fuel tree hreq hconf hdep =>
      obtain ⟨before, other, after, hholders, rfl, -⟩ := DeadlockTree.addDependencies_refused hdep
      refine hreq.edgesSound hclear hconf (Or.inr rfl) (fun other hmem => ?_) hsound
      rw [hholders]
      exact List.mem_append_left _ hmem
  | @executed trans op hphase =>
      intro source target hedge hne
      have hold := hsound source target hedge hne
      by_cases hsource : source = trans
      · subst hsource
        rw [hphase] at hold
        simp at hold
      · rw [execute_trans_of_ne _ _ hsource]
        exact hold
  | @committed trans _ hidle hcommit =>
      have hrel := (commit_releases hcommit).1
      refine hrel.edgesSound htables ha (by rw [hidle]; rfl) hsound rfl rfl (fun _ _ => rfl) ?_
      rw [hrel.trans, TransState.signal_phase, hidle]
  | @aborted trans _ hidle hroll =>
      have hrel := (rollback_releases hroll).1
      refine hrel.edgesSound htables ha (by rw [hidle]; rfl) hsound rfl rfl (fun _ _ => rfl) ?_
      rw [hrel.trans, TransState.signal_phase, hidle]
  | @rolledBack trans op middle hphase hroll =>
      have hrel := (rollback_releases hroll).1
      refine hrel.edgesSound htables ha (by rw [hphase]; rfl) hsound rfl rfl
        (fun _ hne => returnDeadlock_trans_of_ne _ hne) ?_
      rw [returnDeadlock_trans_self]

theorem edgesSound_run {map : Map} {actions : List Action} {s : State}
    (h : Run (Restrict Step ClearSearch) (init map) actions s) : s.EdgesSound := by
  refine h.invariant (fun _ s => s.EdgesSound) ?_ ?_
  · intro source target hedge
    cases hedge
  · intro actions before action after hrun hsound hstep
    exact hstep.2.edgesSound hstep.1 (tables_run hrun.forget) (accounted_run hrun.forget) hsound

/-- An edge out of a transaction that holds a lock and is not about to roll back is a wait. -/
theorem EdgesSound.waitsFor {s : State} (hsound : s.EdgesSound) {trans source target : Trans} {before : List Trans}
    (hedge : s.EdgesAfter trans before source target) (hsource : source ≠ trans) (hne : target ≠ source)
    (hholds : ∃ key, source ∈ s.holders key) (habort : ∀ op, (s.trans source).phase ≠ .aborting op) :
    s.WaitsFor source target := by
  rw [EdgesAfter, DeadlockTable.Edge, DeadlockTree.list_linkAll_of_ne _ _ hsource] at hedge
  rcases hsound source target hedge hne with ⟨op, ⟨signalled, hwaiting⟩ | hphase, hway⟩ | ⟨-, hnone⟩
  · exact ⟨op, signalled, hwaiting, hway, hne⟩
  · exact absurd hphase (habort op)
  · obtain ⟨key, hmem⟩ := hholds
    exact absurd hmem (hnone key)

/-- A chain of edges from a holder to the transaction whose request is refused is a chain of waits. -/
theorem EdgesSound.chain {s : State} (hsound : s.EdgesSound) {trans source : Trans} {before : List Trans}
    (h : TransGen (s.EdgesAfter trans before) source trans) (hsource : source ≠ trans)
    (hholds : ∃ key, source ∈ s.holders key)
    (habort : ∀ link op, ReflTransGen (s.EdgesAfter trans before) source link →
      TransGen (s.EdgesAfter trans before) link trans → (s.trans link).phase ≠ .aborting op) :
    TransGen s.WaitsFor source trans := by
  induction h using TransGen.head_induction_on with
  | single hedge =>
      exact .single (hsound.waitsFor hedge hsource (Ne.symm hsource) hholds fun op => habort _ op .refl (.single hedge))
  | @head source middle hedge hchain ih =>
      have hrest : ∀ link op, ReflTransGen (s.EdgesAfter trans before) middle link →
          TransGen (s.EdgesAfter trans before) link trans → (s.trans link).phase ≠ .aborting op :=
        fun link op hto => habort link op (.head hedge hto)
      by_cases hself : middle = source
      · subst hself
        exact ih hsource hholds hrest
      · have hwait := hsound.waitsFor hedge hsource hself hholds fun op => habort _ op .refl (.head hedge hchain)
        by_cases hend : middle = trans
        · rw [hend] at hwait
          exact .single hwait
        · obtain ⟨op, -, -, hway, -⟩ := id hwait
          exact .head hwait (ih hend ⟨op.key, hway.mem_holders⟩ hrest)

end State

/-- **Alarms are real.** In a run whose requests all meet the condition, a transaction whose `AddOp` is
refused was asking for a key held by another one that waits, directly or through others, for a lock of
its own. -/
theorem deadlock_is_real (map : Map) (actions : List Action) (s s' : State) (action : Action) (trans : Trans)
    (op : Op) (h : Run (Restrict State.Step State.ClearSearch) (State.init map) actions s)
    (hclear : s.ClearSearch action) (hreq : s.Requests action trans op) (hstep : s.Step action s')
    (habort : (s'.trans trans).phase = .aborting op) :
    ∃ other ∈ s.holders op.key, other ≠ trans ∧ TransGen s.WaitsFor other trans := by
  have hactor := hreq.actor
  cases hstep.outcome with
  | @granted _ trans' op' table hreq' _ =>
      have htrans : trans' = trans := hreq'.actor.symm.trans hactor
      subst htrans
      simp at habort
  | @waits _ trans' op' fuel tree hreq' _ _ =>
      have htrans : trans' = trans := hreq'.actor.symm.trans hactor
      subst htrans
      simp at habort
  | @refused _ trans' op' fuel tree hreq' hconf hdep =>
      have htrans : trans' = trans := hreq'.actor.symm.trans hactor
      subst htrans
      rw [State.setPhase_trans_self] at habort
      cases habort
      obtain ⟨before, other, after, hholders, rfl, hfound⟩ := DeadlockTree.addDependencies_refused hdep
      obtain ⟨meeting, hother, hself⟩ := DeadlockTable.isBlockedBy_true hfound
      obtain ⟨hne, hchain, hlinks⟩ := (hclear trans' op hreq').2 hconf before other after hholders meeting hother hself
      have hmem : other ∈ s.holders op.key := by
        rw [hholders]
        simp
      exact ⟨other, hmem, hne, (State.edgesSound_run h).chain hchain hne ⟨op.key, hmem⟩ hlinks⟩
  | executed _ => rcases hreq with ⟨hact, -⟩ | ⟨hact, -⟩ <;> cases hact
  | committed _ _ => rcases hreq with ⟨hact, -⟩ | ⟨hact, -⟩ <;> cases hact
  | aborted _ _ => rcases hreq with ⟨hact, -⟩ | ⟨hact, -⟩ <;> cases hact
  | rolledBack _ _ => rcases hreq with ⟨hact, -⟩ | ⟨hact, -⟩ <;> cases hact

/-- A transaction that has read a key twice asks to write it. -/
def readTwice : List Action :=
  [.addOp 1 (.read [97] []), .execute 1 (.read [97] []), .addOp 1 (.read [97] []), .execute 1 (.read [97] [])]

/-- The only transaction there is gets `YDB_DEADLOCK`: it stands twice among the holders it would wait for. -/
theorem readTwice_deadlock : ∃ s s' s'', Run State.Step (State.init fun _ => none) readTwice s ∧
    s.Requests (.addOp 1 (.write [97] [49] false [])) 1 (.write [97] [49] false []) ∧
    s.Step (.addOp 1 (.write [97] [49] false [])) s' ∧ s'.Step (.rollback 1) s'' ∧
    (s''.trans 1).rets = (s.trans 1).rets ++ [.deadlock] ∧
    ¬∃ other ∈ s.holders [97], other ≠ 1 ∧ TransGen s.WaitsFor other 1 := by
  obtain ⟨s, s', s'', hs, hphase, hs', hs'', hrets, hholders⟩ : ∃ s s' s'',
      (State.init fun _ => none).runAll 2 readTwice = some s ∧ (s.trans 1).phase = .idle ∧
      s.step 2 (.addOp 1 (.write [97] [49] false [])) = some s' ∧ s'.step 2 (.rollback 1) = some s'' ∧
      (s''.trans 1).rets = (s.trans 1).rets ++ [.deadlock] ∧ s.holders [97] = [1, 1] :=
    ⟨_, _, _, rfl, by decide, rfl, rfl, by decide, by decide⟩
  refine ⟨s, s', s'', State.run_of_runAll hs, Or.inl ⟨rfl, hphase⟩, ⟨2, hs'⟩, ⟨2, hs''⟩, hrets, ?_⟩
  rintro ⟨other, hmem, hne, -⟩
  rw [hholders, List.mem_cons, List.mem_singleton, or_self] at hmem
  exact hne hmem

theorem State.clearSearch_addOp {s : State} {trans : Trans} {op : Op} (htree : s.deadlockTree = .empty)
    (hmem : trans ∉ s.holders op.key) : s.ClearSearch (.addOp trans op) := by
  rintro trans' op' (⟨hact, -⟩ | ⟨hact, -⟩)
  · cases hact
    have hlist : ∀ other, s.deadlockTree.blockedBy.list other = [] := by
      intro other
      rw [htree]
      rfl
    refine ⟨fun _ other hedge => ?_, fun _ before other after hholders meeting hchain _ => ?_⟩
    · rw [DeadlockTable.Edge, hlist] at hedge
      cases hedge
    · -- no holder is blocked by anybody
      have hne : other ≠ trans := by
        rintro rfl
        exact hmem (by rw [hholders]; simp)
      obtain ⟨next, hedge, -⟩ := TransGen.head'_iff.mp hchain
      rw [EdgesAfter, DeadlockTable.Edge, DeadlockTree.list_linkAll_of_ne _ _ hne, hlist] at hedge
      cases hedge
  · cases hact

theorem State.clearSearch_execute (s : State) (trans : Trans) (op : Op) : s.ClearSearch (.execute trans op) := by
  rintro trans' op' (⟨hact, -⟩ | ⟨hact, -⟩) <;> cases hact

theorem deadlock_is_real_firstSleeps :
    ∃ s s', Run (Restrict State.Step State.ClearSearch) (State.init fun _ => none) firstSleeps s ∧
      s.Step (.addOp 2 (.write [97] [50] false [])) s' ∧
      (s'.trans 2).phase = .aborting (.write [97] [50] false []) ∧
      ∃ other ∈ s.holders [97], other ≠ 2 ∧ TransGen s.WaitsFor other 2 := by
  obtain ⟨s, s', hrun, hs', habort, hphase₁, hphase₂, hholders, htree⟩ :
      ∃ s s', Run (Restrict State.Step State.ClearSearch) (State.init fun _ => none) firstSleeps s ∧
        s.step 2 (.addOp 2 (.write [97] [50] false [])) = some s' ∧
        (s'.trans 2).phase = .aborting (.write [97] [50] false []) ∧
        (s.trans 1).phase = .waiting (.write [98] [49] false []) false ∧ (s.trans 2).phase = .idle ∧
        s.holders [97] = [1] ∧ s.deadlockTree = DeadlockTree.empty.linkAll 1 [2] := by
    refine ⟨_, _, State.restrict_cons 2 ?_ rfl (State.restrict_cons 2 ?_ rfl (State.restrict_cons 2 ?_ rfl
      (State.restrict_cons 2 ?_ rfl (State.restrict_cons 2 ?_ rfl (.nil _))))), rfl, by decide, by decide, by decide,
      by decide, rfl⟩
    · exact State.clearSearch_addOp rfl (by decide)
    · exact State.clearSearch_execute _ _ _
    · exact State.clearSearch_addOp rfl (by decide)
    · exact State.clearSearch_execute _ _ _
    · exact State.clearSearch_addOp rfl (by decide)
  have hlist₁ : s.deadlockTree.blockedBy.list 1 = [2] := by rw [htree]; decide
  have hlist₂ : s.deadlockTree.blockedBy.list 2 = [] := by rw [htree]; decide
  have hclear : s.ClearSearch (.addOp 2 (.write [97] [50] false [])) := by
    rintro trans op (⟨hact, -⟩ | ⟨hact, -⟩)
    · cases hact
      refine ⟨fun _ other hedge => ?_, fun _ before other after hsplit meeting _ _ => ?_⟩
      · rw [DeadlockTable.Edge, hlist₂] at hedge
        cases hedge
      · have hsplit : [1] = before ++ other :: after := hholders.symm.trans hsplit
        obtain ⟨rfl, rfl, rfl⟩ : before = [] ∧ other = 1 ∧ after = [] := by
          cases before with
          | nil => simpa [eq_comm] using hsplit
          | cons first rest => simp at hsplit
        have hsource : ∀ source target, s.EdgesAfter 2 [] source target → source = 1 := by
          intro source target hedge
          by_contra hne
          have hedge : target ∈ s.deadlockTree.blockedBy.list source := hedge
          rw [htree, DeadlockTree.list_linkAll_of_ne _ _ hne] at hedge
          cases hedge
        refine ⟨by decide, .single ?_, ?_⟩
        · change 2 ∈ s.deadlockTree.blockedBy.list 1
          simp [hlist₁]
        · intro link op hto hback
          obtain ⟨next, hedge, -⟩ := TransGen.head'_iff.mp hback
          rw [hsource link next hedge, hphase₁]
          simp
    · cases hact
  exact ⟨s, s', hrun, ⟨2, hs'⟩, habort,
    deadlock_is_real _ _ s s' _ 2 _ hrun hclear (Or.inl ⟨rfl, hphase₂⟩) ⟨2, hs'⟩ habort⟩

end Thebends.Ydb
