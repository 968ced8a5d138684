import Thebends.YdbInvariants

/-! Cycles of sleeping transactions of the ydb scheduler, and which of them the search of
`Ydb_DeadlockTree` keeps from forming. -/

namespace Thebends.Ydb

open LibRun Relation

namespace State

/-- `trans` sleeps inside `AddOp` and `other` holds a lock on the key it asks for. A transaction that
was woken up does not sleep: it is about to try again. -/
def SleepsFor (s : State) (trans other : Trans) : Prop :=
  ∃ op, (s.trans trans).phase = .waiting op false ∧ other ∈ s.holders op.key ∧ other ≠ trans

/-- Putting `trans` to sleep until it can have the lock of `op` would close a cycle. -/
def ClosesCycle (s : State) (trans : Trans) (op : Op) : Prop :=
  ∃ other ∈ s.holders op.key, TransGen s.SleepsFor other trans

/-- What the search needs in order to find a cycle through `trans`: a holder of the key that the
tables directly record as blocked by `trans`, and no cycle among the edges recorded for `trans` by
the time the loop of `AddOp` comes to it. -/
def Recorded (s : State) (trans : Trans) (op : Op) : Prop :=
  ∃ before other after, s.holders op.key = before ++ other :: after ∧ other ≠ trans ∧
    s.deadlockTree.blockedBy.Edge other trans ∧
    Acc (fun target source => (s.deadlockTree.linkAll trans before).blockedBy.Edge source target) trans

/-- The requests that would close a cycle are those the search can find. -/
def DetectsCycles (s : State) (action : Action) : Prop :=
  ∀ trans op, s.Requests action trans op → s.lockTable.Conflict trans op → s.ClosesCycle trans op →
    s.Recorded trans op

/-! ### No cycle forms -/

/-- After a commit or a rollback nobody sleeps. -/
theorem Releases.not_sleepsFor {s s' : State} {trans : Trans} (h : s.Releases trans s') (x y : Trans) :
    ¬s'.SleepsFor x y := by
  rintro ⟨op, hphase, -, -⟩
  rw [h.trans, TransState.signal_phase] at hphase
  split at hphase
  · cases hphase
  · next hwait => exact hwait op false hphase

theorem not_sleepsFor_of_phase {s : State} {trans other : Trans}
    (h : ∀ op, (s.trans trans).phase ≠ .waiting op false) : ¬s.SleepsFor trans other :=
  fun ⟨op, hphase, _, _⟩ => h op hphase

theorem acyclic_of_not {s : State} (h : ∀ x y, ¬s.SleepsFor x y) (x : Trans) : ¬TransGen s.SleepsFor x x := by
  intro hcycle
  obtain ⟨y, hedge, -⟩ := TransGen.head'_iff.mp hcycle
  exact h x y hedge

/-- An edge out of a transaction that did not move, into one that already held its lock, is old. -/
theorem sleepsFor_of_frame {s s' : State} {trans other : Trans} (hphase : s'.trans trans = s.trans trans)
    (hholders : ∀ key, other ∈ s'.holders key → other ∈ s.holders key) (h : s'.SleepsFor trans other) :
    s.SleepsFor trans other := by
  obtain ⟨op, hasleep, hmem, hne⟩ := h
  exact ⟨op, hphase ▸ hasleep, hholders op.key hmem, hne⟩

/-- A step that meets the condition closes no cycle. -/
theorem Step.acyclic {s s' : State} {action : Action} (h : s.Step action s') (hdetect : s.DetectsCycles action)
    (hacyclic : ∀ x, ¬TransGen s.SleepsFor x x) (x : Trans) : ¬TransGen s'.SleepsFor x x := by
  cases h.outcome with
  | @granted _ trans op table hreq hgrant =>
      -- the transaction that joins the holders leaves no edge behind
      intro hcycle
      have hawake : ∀ y, ¬SleepsFor ({ s with lockTable := table }.setPhase trans (.granted op)) trans y :=
        fun y => not_sleepsFor_of_phase (by simp)
      refine hacyclic x (cycle_of_dead_ends (fun a b hedge hout => ?_) hcycle)
      have ha : a ≠ trans := fun heq => hawake b (heq ▸ hedge)
      have hb : b ≠ trans := fun heq => hout.elim fun c hc => hawake c (heq ▸ hc)
      refine @sleepsFor_of_frame s ({ s with lockTable := table }.setPhase trans (.granted op)) a b
        (setPhase_trans_of_ne _ _ ha) (fun key hmem => ?_) hedge
      have hcount := hgrant.count_le b key
      rw [if_neg fun hand => hb hand.2] at hcount
      exact List.count_pos_iff.mp (Nat.lt_of_lt_of_le (List.count_pos_iff.mpr hmem) hcount)
  | @waits _ trans op fuel tree hreq hconf hdep =>
      -- a new cycle leaves the sleeper by a holder of its key, which sleeps for it in the end
      intro hcycle
      have hagree : ∀ a b, a ≠ trans →
          SleepsFor ({ s with deadlockTree := tree }.setPhase trans (.waiting op false)) a b → s.SleepsFor a b :=
        fun a b ha hedge => sleepsFor_of_frame (setPhase_trans_of_ne _ _ ha) (fun _ hmem => hmem) hedge
      obtain ⟨other, ⟨op', hop', hmem, hne⟩, hback⟩ := cycle_through hagree hacyclic hcycle
      simp only [setPhase_trans_self, Phase.waiting.injEq, and_true] at hop'
      subst hop'
      have hclose : s.ClosesCycle trans op := by
        rcases reflTransGen_iff_eq_or_transGen.mp hback with heq | hchain
        · exact absurd heq.symm hne
        · exact ⟨other, hmem, hchain⟩
      obtain ⟨before, holder, after, hholders, -, hedge, -⟩ := hdetect trans op hreq hconf hclose
      obtain ⟨-, hnone⟩ := DeadlockTree.addDependencies_accepted hdep
      exact hnone holder (by rw [hholders]; simp) hedge
  | @refused _ trans op fuel tree hreq _ _ =>
      intro hcycle
      refine hacyclic x (TransGen.mono (fun a b hedge => ?_) x x hcycle)
      have ha : a ≠ trans := by
        rintro rfl
        exact not_sleepsFor_of_phase (by simp) hedge
      exact sleepsFor_of_frame (setPhase_trans_of_ne _ _ ha) (fun _ hmem => hmem) hedge
  | @executed trans op _ =>
      intro hcycle
      refine hacyclic x (TransGen.mono (fun a b hedge => ?_) x x hcycle)
      have ha : a ≠ trans := by
        rintro rfl
        exact not_sleepsFor_of_phase (by simp) hedge
      exact sleepsFor_of_frame (execute_trans_of_ne _ _ ha) (fun _ hmem => hmem) hedge
  | committed _ hcommit => exact acyclic_of_not (commit_releases hcommit).1.not_sleepsFor x
  | aborted _ hroll => exact acyclic_of_not (rollback_releases hroll).1.not_sleepsFor x
  | @rolledBack trans op middle _ hroll =>
      refine acyclic_of_not (fun a b hedge => ?_) x
      have ha : a ≠ trans := by
        rintro rfl
        exact not_sleepsFor_of_phase (by simp) hedge
      exact (rollback_releases hroll).1.not_sleepsFor a b
        (sleepsFor_of_frame (returnDeadlock_trans_of_ne _ ha) (fun _ hmem => hmem) hedge)

end State

/-- Each of two transactions writes a key of its own, and the first then asks for the other's. -/
def firstSleeps : List Action :=
  [.addOp 1 (.write [97] [49] false []), .execute 1 (.write [97] [49] false []),
    .addOp 2 (.write [98] [50] false []), .execute 2 (.write [98] [50] false []),
    .addOp 1 (.write [98] [49] false [])]

theorem State.restrict_cons {cond : State → Action → Prop} {s middle s' : State} {action : Action}
    {actions : List Action} (fuel : Nat) (hcond : cond s action) (hstep : s.step fuel action = some middle)
    (h : Run (Restrict Step cond) middle actions s') : Run (Restrict Step cond) s (action :: actions) s' :=
  .cons ⟨hcond, fuel, hstep⟩ h

end Thebends.Ydb
