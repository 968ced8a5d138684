import Thebends.YdbOrdered

/-! `Ydb::Get`, `Ydb::Put` and `Ydb::Del` without a transaction (`ydb.cpp`): each opens one of its own, adds its one
operation to it and commits. Threads that call nothing else share an atomic map: no call is refused, and each
returns what it would if all calls were made one after another, in an order that keeps the order of calls that do
not overlap. -/

namespace Thebends.Ydb

open LibRun LibSchedule Relation

/-- What the thread of one transaction does in a run. -/
def own (trans : Trans) (actions : List Action) : List Action := actions.filter fun action => action.actor = trans

/-- The thread of a call on `trans`: the loop of `AddOp` makes some more passes, the operation is executed, or the
transaction rolled back where it would cause a deadlock, and the call commits it in both cases. -/
def AutoCommits (trans : Trans) (op : Op) (actions : List Action) : Prop :=
  ∃ passes last, own trans actions =
      .addOp trans op :: List.replicate passes (.retry trans) ++ [last, .commit trans] ∧
    (last = .execute trans op ∨ last = .rollback trans)

/-- A run that consists of such calls. -/
def AllAutoCommit (actions : List Action) : Prop := ∀ action ∈ actions, ∃ op, AutoCommits action.actor op actions

/-- The map after the operations have been executed on it in turn. -/
def Map.afterOps (map : Map) (ops : List Op) : Map := ops.foldl (fun current op => (op.execute current).2) map

theorem runOps_eq_afterOps (map : Map) (ops : List Op) : Op.cells.runOps map ops = map.afterOps ops := by
  induction ops generalizing map with
  | nil => rfl
  | cons op ops ih =>
      rw [CellOps.runOps, ih, Map.afterOps, Map.afterOps, List.foldl_cons, Op.execute_eq]

theorem serial_eq_afterOps (map : Map) (prog : Trans → List Op) (order : List Trans) :
    Op.cells.serial map prog order = map.afterOps (order.flatMap prog) := by
  induction order generalizing map with
  | nil => rfl
  | cons trans order ih =>
      calc Op.cells.serial map prog (trans :: order)
          = Op.cells.serial (Op.cells.runOps map (prog trans)) prog order := rfl
        _ = (map.afterOps (prog trans)).afterOps (order.flatMap prog) := by rw [ih, runOps_eq_afterOps]
        _ = map.afterOps ((trans :: order).flatMap prog) := by
          rw [List.flatMap_cons, Map.afterOps, Map.afterOps, Map.afterOps, List.foldl_append]

/-! ### The actions of one thread -/

theorem own_snoc_of_ne {trans : Trans} {action : Action} (actions : List Action) (h : action.actor ≠ trans) :
    own trans (actions ++ [action]) = own trans actions := by
  simp [own, h]

theorem mem_own {trans : Trans} {action : Action} {actions : List Action} :
    action ∈ own trans actions ↔ action ∈ actions ∧ action.actor = trans := by
  simp [own]

theorem issued_own (trans : Trans) (actions : List Action) : issued trans (own trans actions) = issued trans actions := by
  rw [own, issued, issued, List.filterMap_filter]
  apply List.filterMap_congr
  intro action _
  cases action with
  | addOp who op =>
      by_cases hwho : who = trans
      · simp [Action.actor, hwho]
      · simp [Action.actor, hwho]
  | _ => simp

variable {actions : List Action} {trans : Trans} {op : Op}

namespace AutoCommits

theorem issued (h : AutoCommits trans op actions) : issued trans actions = [op] := by
  obtain ⟨passes, last, hown, hlast⟩ := h
  have hretries : Ydb.issued trans (List.replicate passes (.retry trans)) = [] := by
    refine List.filterMap_eq_nil_iff.mpr fun action haction => ?_
    rw [List.eq_of_mem_replicate haction]
  have hend : Ydb.issued trans [last, .commit trans] = [] := by
    rcases hlast with rfl | rfl <;> rfl
  rw [← issued_own, hown, issued_append, hend, ← List.singleton_append, issued_append, hretries]
  simp [Ydb.issued]

theorem commits (h : AutoCommits trans op actions) : .commit trans ∈ actions := by
  obtain ⟨passes, last, hown, -⟩ := h
  have hmem : .commit trans ∈ own trans actions := by
    rw [hown]
    simp
  exact (mem_own.mp hmem).1

/-- Nothing of the thread comes after its commit. -/
theorem pairwise (h : AutoCommits trans op actions) :
    (own trans actions).Pairwise fun earlier _ => earlier ≠ .commit trans := by
  obtain ⟨passes, last, hown, hlast⟩ := h
  have hbefore : ∀ action ∈ Action.addOp trans op :: List.replicate passes (.retry trans) ++ [last],
      action ≠ .commit trans := by
    intro action haction
    rcases List.mem_append.mp haction with hfirst | hend
    · rcases List.mem_cons.mp hfirst with rfl | hretry
      · simp
      · rw [List.eq_of_mem_replicate hretry]
        simp
    · rw [List.mem_singleton.mp hend]
      rcases hlast with rfl | rfl <;> simp
  have hsplit : own trans actions =
      (Action.addOp trans op :: List.replicate passes (.retry trans) ++ [last]) ++ [.commit trans] := by
    rw [hown]
    simp
  rw [hsplit, List.pairwise_append]
  refine ⟨List.pairwise_of_forall_mem_list fun action haction _ _ => hbefore action haction,
    List.pairwise_singleton .., fun action haction _ _ => hbefore action haction⟩

end AutoCommits

namespace AllAutoCommit

theorem inOrder {lt : Str → Str → Prop} (h : AllAutoCommit actions) : InOrder lt actions := by
  intro trans
  by_cases hactor : ∃ action ∈ actions, action.actor = trans
  · obtain ⟨action, haction, rfl⟩ := hactor
    obtain ⟨op, hcall⟩ := h action haction
    rw [hcall.issued]
    exact List.pairwise_singleton ..
  · have hown : own trans actions = [] := by
      refine List.filter_eq_nil_iff.mpr fun action haction heq => ?_
      exact hactor ⟨action, haction, by simpa using heq⟩
    rw [← issued_own, hown]
    exact List.Pairwise.nil

theorem commitsLast (h : AllAutoCommit actions) : CommitsLast actions := by
  refine List.pairwise_iff_forall_sublist.mpr fun {earlier later} hsub heq => ?_
  subst heq
  obtain ⟨op, hcall⟩ := h later (hsub.subset (by simp))
  have hfilter : (own later.actor [.commit later.actor, later]).Sublist (own later.actor actions) := hsub.filter _
  have hown : own later.actor [.commit later.actor, later] = [.commit later.actor, later] := by
    simp [own, Action.actor]
  rw [hown] at hfilter
  exact List.pairwise_iff_forall_sublist.mp hcall.pairwise hfilter rfl

end AllAutoCommit

/-! ### No call rolls back -/

/-- A pass of the loop of `AddOp` ends inside it, or with the lock. -/
theorem State.Step.not_idle {s s' : State} {action : Action} (h : s.Step action s')
    (haction : action = .addOp trans op ∨ action = .retry trans) : (s'.trans trans).phase ≠ .idle := by
  have hwho : ∀ {who : Trans} {wanted : Op}, s.Requests action who wanted → who = trans := by
    intro who wanted hreq
    rw [← hreq.actor]
    rcases haction with rfl | rfl <;> rfl
  cases h.outcome with
  | granted hreq _ =>
      rw [hwho hreq, setPhase_trans_self]
      simp
  | waits hreq _ _ =>
      rw [hwho hreq, setPhase_trans_self]
      simp
  | refused hreq _ _ =>
      rw [hwho hreq, setPhase_trans_self]
      simp
  | _ => rcases haction with heq | heq <;> cases heq

/-- Between the start of `AddOp` and its end a transaction is not idle. -/
theorem not_idle_of_asking {map : Map} {s : State} (h : Run State.Step (State.init map) actions s) {passes : Nat}
    (hown : own trans actions = .addOp trans op :: List.replicate passes (.retry trans)) :
    (s.trans trans).phase ≠ .idle := by
  refine h.invariant (fun actions s => ∀ passes,
    own trans actions = .addOp trans op :: List.replicate passes (.retry trans) → (s.trans trans).phase ≠ .idle)
    (fun _ hnil => by cases hnil) ?_ passes hown
  intro actions before action after hrun ih hstep passes hown
  by_cases hactor : action.actor = trans
  · have hmem : action ∈ own trans (actions ++ [action]) := mem_own.mpr ⟨by simp, hactor⟩
    rw [hown, List.mem_cons] at hmem
    exact hstep.not_idle (hmem.imp_right List.eq_of_mem_replicate)
  · rw [own_snoc_of_ne _ hactor] at hown
    have hbefore := ih passes hown
    rcases hstep.frame (Ne.symm hactor) with heq | heq
    · rwa [heq]
    · rw [heq, TransState.signal_phase]
      cases hphase : (before.trans trans).phase with
      | idle => exact absurd hphase hbefore
      | _ => simp

/-- No transaction of such a run is rolled back: the only place for it is in `AddOp`, after an alarm. -/
theorem AllAutoCommit.noRollback {map : Map} {s : State} (h : Run State.Step (State.init map) actions s)
    (hcalls : AllAutoCommit actions) (trans : Trans) : .rollback trans ∉ actions := by
  intro hroll
  obtain ⟨op, passes, last, hown, hlast⟩ := hcalls _ hroll
  simp only [Action.actor] at hown hlast
  have hfirst : .rollback trans ∉ Action.addOp trans op :: List.replicate passes (.retry trans) := by
    rw [List.mem_cons, not_or]
    refine ⟨by simp, fun hmem => ?_⟩
    cases List.eq_of_mem_replicate hmem
  have hlast : last = .rollback trans := by
    have hmem : .rollback trans ∈ own trans actions := mem_own.mpr ⟨hroll, rfl⟩
    rw [hown, List.mem_append] at hmem
    rcases hmem with hmem | hmem
    · exact absurd hmem hfirst
    · rcases hlast with rfl | rfl
      · simp at hmem
      · rfl
  subst hlast
  obtain ⟨before, after, hsplit⟩ := List.append_of_mem hroll
  have hparts : own trans actions = own trans before ++ .rollback trans :: own trans after := by
    rw [hsplit]
    simp [own, Action.actor]
  rw [hown, List.append_cons_inj_of_notMem hfirst (by simp)] at hparts
  -- the thread is inside `AddOp` there, and no search has raised an alarm
  obtain ⟨middle, next, hrun, hstep⟩ := h.step_at hsplit
  have hidle := not_idle_of_asking hrun hparts.1.symm
  have hin : InOrder (· < ·) before := (hsplit ▸ hcalls.inOrder).init
  have hcalm := (State.orderly_run hrun hin).calm trans
  cases hstep.outcome with
  | granted hreq _ => rcases hreq with ⟨heq, -⟩ | ⟨heq, -⟩ <;> cases heq
  | waits hreq _ _ => rcases hreq with ⟨heq, -⟩ | ⟨heq, -⟩ <;> cases heq
  | refused hreq _ _ => rcases hreq with ⟨heq, -⟩ | ⟨heq, -⟩ <;> cases heq
  | aborted hphase _ => exact hidle hphase
  | rolledBack hphase _ => exact hcalm _ hphase

/-! ### The order of the commits -/

/-- A call that has returned before another one starts comes before it. -/
theorem AllAutoCommit.realTime {earlier later : Trans} {before after : List Action}
    (hcalls : AllAutoCommit (before ++ .commit earlier :: after)) (hlater : .addOp later op ∈ after) :
    [earlier, later].Sublist (commitOrder (before ++ .commit earlier :: after)) := by
  obtain ⟨op', hcall⟩ := hcalls _ (List.mem_append_right before (List.mem_cons_of_mem _ hlater))
  have hcommit : later ∈ commitOrder after := by
    have hpairs := List.pairwise_append.mp hcalls.commitsLast
    rw [mem_commitOrder]
    rcases List.mem_append.mp hcall.commits with hmem | hmem
    · exact absurd rfl (hpairs.2.2 _ hmem _ (List.mem_cons_of_mem _ hlater))
    · rcases List.mem_cons.mp hmem with heq | hmem
      · exact absurd heq.symm ((List.pairwise_cons.mp hpairs.2.1).1 _ hlater)
      · exact hmem
  have horder : commitOrder (before ++ .commit earlier :: after) = commitOrder before ++ earlier :: commitOrder after := by
    rw [commitOrder_append, ← List.singleton_append, commitOrder_append]
    rfl
  rw [horder]
  exact ((List.singleton_sublist.mpr hcommit).cons_cons earlier).trans (List.sublist_append_right ..)

/-- **Calls without a transaction share an atomic map.** In a run of them none is refused, and there is an order of
the calls, each once and an earlier one before a later one that does not overlap it, such that the map, the code
and the value of each call are those of the calls made one after another in this order. -/
theorem autocommit_linearizable (map : Map) (actions : List Action) (s : State)
    (h : Run State.Step (State.init map) actions s) (hcalls : AllAutoCommit actions) :
    (∀ trans, .deadlock ∉ (s.trans trans).rets) ∧
      ∃ order : List Trans, order.Nodup ∧ (∀ trans op, AutoCommits trans op actions → trans ∈ order) ∧
        (∀ before earlier after later op, actions = before ++ .commit earlier :: after → .addOp later op ∈ after →
          [earlier, later].Sublist order) ∧
        s.map = map.afterOps (order.flatMap fun trans => issued trans actions) ∧
        ∀ before trans after, order = before ++ trans :: after → ∃ op, AutoCommits trans op actions ∧
          (s.trans trans).rets =
            [(op.execute (map.afterOps (before.flatMap fun other => issued other actions))).1.1] ∧
          (s.trans trans).ops =
            [(op.execute (map.afterOps (before.flatMap fun other => issued other actions))).1.2] := by
  have hin : InOrder (· < ·) actions := hcalls.inOrder
  have hlast := hcalls.commitsLast
  have hall : ∀ action ∈ actions, .commit action.actor ∈ actions := by
    intro action haction
    obtain ⟨op, hcall⟩ := hcalls action haction
    exact hcall.commits
  obtain ⟨hmap, hresults, -⟩ := serial_of_run h (hcalls.noRollback h) hlast hall
  have hnodup : (commitOrder actions).Nodup :=
    CellOps.Rigorous.nodup Op.cells (follows_run h (hcalls.noRollback h) hlast).rigorous
  refine ⟨(State.orderly_run h hin).codes, commitOrder actions, hnodup, ?_, ?_, ?_, ?_⟩
  · exact fun trans op hcall => mem_commitOrder.mpr hcall.commits
  · rintro before earlier after later op rfl hlater
    exact hcalls.realTime hlater
  · rw [hmap, serial_eq_afterOps]
  · intro before trans after horder
    have hmem : .commit trans ∈ actions := by
      rw [← mem_commitOrder, horder]
      simp
    obtain ⟨op, hcall⟩ : ∃ op, AutoCommits trans op actions := hcalls _ hmem
    obtain ⟨hops, hrets⟩ := hresults before trans after horder
    refine ⟨op, hcall, ?_, ?_⟩
    · rw [hrets, serial_eq_afterOps, hcall.issued, Op.execute_eq]
      rfl
    · rw [hops, serial_eq_afterOps, hcall.issued, Op.execute_eq]
      rfl

/-- A `Get` that waits for a `Put` and is woken up too early once, and a `Del` after both. -/
def putGetDel : List Action :=
  [.addOp 1 (.write [97] [49] false []), .addOp 2 (.read [97] []), .execute 1 (.write [97] [49] false []),
    .retry 2, .commit 1, .retry 2, .execute 2 (.read [97] []), .commit 2, .addOp 3 (.delete [97] false []),
    .execute 3 (.delete [97] false []), .commit 3]

theorem allAutoCommit_putGetDel : AllAutoCommit putGetDel := by
  have h₁ : AutoCommits 1 (.write [97] [49] false []) putGetDel := ⟨0, _, rfl, Or.inl rfl⟩
  have h₂ : AutoCommits 2 (.read [97] []) putGetDel := ⟨2, _, rfl, Or.inl rfl⟩
  have h₃ : AutoCommits 3 (.delete [97] false []) putGetDel := ⟨0, _, rfl, Or.inl rfl⟩
  have hactors : ∀ action ∈ putGetDel, action.actor = 1 ∨ action.actor = 2 ∨ action.actor = 3 := by decide
  intro action haction
  rcases hactors action haction with heq | heq | heq
  · exact ⟨_, heq ▸ h₁⟩
  · exact ⟨_, heq ▸ h₂⟩
  · exact ⟨_, heq ▸ h₃⟩

theorem autocommit_linearizable_putGetDel : ∃ s order, Run State.Step (State.init fun _ => none) putGetDel s ∧
    (s.trans 2).ops = [.read [97] [49]] ∧ .deadlock ∉ (s.trans 2).rets ∧ [2, 3].Sublist order ∧
    s.map = Map.afterOps (fun _ => none) (order.flatMap fun trans => issued trans putGetDel) := by
  obtain ⟨s, hs, hops⟩ : ∃ s, (State.init fun _ => none).runAll 2 putGetDel = some s ∧
      (s.trans 2).ops = [.read [97] [49]] := ⟨_, rfl, by decide⟩
  have hrun := State.run_of_runAll hs
  obtain ⟨hcodes, order, -, -, htime, hmap, -⟩ :=
    autocommit_linearizable (fun _ => none) putGetDel s hrun allAutoCommit_putGetDel
  exact ⟨s, order, hrun, hops, hcodes 2, htime (putGetDel.take 7) 2 _ 3 _ rfl List.mem_cons_self, hmap⟩

end Thebends.Ydb
