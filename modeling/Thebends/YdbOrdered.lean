import Mathlib.Order.WellFoundedSet
import Thebends.YdbAlarms
import Thebends.YdbLockRuns
import Thebends.YdbSearches
import Thebends.YdbSerial

/-! Callers of ydb that never see `YDB_DEADLOCK`. Transactions that ask for their keys in ascending order, and
whose only read lock is their last lock, cannot block each other in a circle, and the search of
`Ydb_DeadlockTree` raises no alarm among them: a transaction is blocked by one other one, or by several readers
that wait for nobody. -/

namespace Thebends.Ydb

open LibRun Relation

namespace DeadlockTable

/-- Nobody is recorded as blocked by itself or by a transaction it blocks, and whoever is blocked by several
transactions is blocked by such as nothing blocks. -/
structure Chained (table : DeadlockTable) : Prop where
  irreflexive : ∀ x, ¬table.Edge x x
  asymmetric : ∀ x y, table.Edge x y → ¬table.Edge y x
  unbranched : ∀ x y y' z, table.Edge x y → table.Edge x y' → table.Edge y z → y' = y

/-- A positive answer is a direct dependency, or comes from the search that starts at a blocker. -/
theorem isBlockedBy_succ_true {table : DeadlockTable} {fuel : Nat} {existing newTrans : Trans}
    (h : isBlockedBy (fuel + 1) table existing newTrans = some true) :
    table.Edge existing newTrans ∨
      ∃ other, table.Edge existing other ∧ isBlockedBy fuel table newTrans other = some true := by
  rw [isBlockedBy] at h
  split at h
  · cases h
  · next items hlist =>
    have hedge : ∀ trans ∈ items, table.Edge existing trans := by
      intro trans htrans
      simpa [Edge, list, hlist] using htrans
    rcases scan_true h with hmem | ⟨other, hmem, hagain⟩
    · exact Or.inl (hedge newTrans hmem)
    · exact Or.inr ⟨other, hedge other hmem, hagain⟩

/-- **The search finds nothing on a chain**: it walks from a transaction and from the only blocker of this
transaction in turn, and the two never meet. -/
theorem Chained.isBlockedBy_ne_true {table : DeadlockTable} (h : table.Chained) (fuel : Nat)
    {existing newTrans : Trans} (honly : ∀ other, table.Edge newTrans other → other = existing)
    (hback : ¬table.Edge existing newTrans) : isBlockedBy fuel table existing newTrans ≠ some true := by
  induction fuel using Nat.strong_induction_on generalizing existing newTrans with
  | _ fuel ih =>
      intro hsearch
      match fuel with
      | 0 => cases hsearch
      | fuel + 1 =>
          rcases isBlockedBy_succ_true hsearch with hedge | ⟨next, hnext, hsearch⟩
          · exact hback hedge
          · match fuel with
            | 0 => cases hsearch
            | fuel + 1 =>
                -- two calls move both arguments one transaction along the chain
                rcases isBlockedBy_succ_true hsearch with hedge | ⟨other, hother, hsearch⟩
                · rw [honly next hedge] at hnext
                  exact h.irreflexive existing hnext
                · rw [honly other hother] at hsearch
                  by_cases hfree : ∃ beyond, table.Edge next beyond
                  · obtain ⟨beyond, hbeyond⟩ := hfree
                    refine ih fuel (by omega) (fun target htarget => ?_) (h.asymmetric _ _ hnext) hsearch
                    exact h.unbranched existing next target beyond hnext htarget hbeyond
                  · match fuel with
                    | 0 => cases hsearch
                    | fuel + 1 =>
                        rcases isBlockedBy_succ_true hsearch with hedge | ⟨beyond, hbeyond, -⟩
                        · exact hfree ⟨_, hedge⟩
                        · exact hfree ⟨_, hbeyond⟩

end DeadlockTable

namespace LockTable

/-- The holder of a write lock is the only one. -/
theorem WellFormed.only_writer {table : LockTable} (h : table.WellFormed) {trans other : Trans} {key : Str}
    {mode : LockType} (hwrite : table.heldMode trans key = some .writelock)
    (hother : table.heldMode other key = some mode) : other = trans := by
  obtain ⟨others, hentry, hmem⟩ := heldMode_eq_some.mp hwrite
  obtain ⟨others', hentry', hmem'⟩ := heldMode_eq_some.mp hother
  rw [hentry, Option.some.injEq, LockInfo.mk.injEq] at hentry'
  obtain ⟨owner, howner⟩ := (h _ _ hentry).2 rfl
  have howner : others = [owner] := howner
  rw [← hentry'.2, howner, List.mem_singleton] at hmem'
  rw [howner, List.mem_singleton] at hmem
  exact hmem'.trans hmem.symm

/-- What a grant to a transaction without a lock on the key adds. -/
theorem Grant.heldMode_cases {table table' : LockTable} {trans other : Trans} {op : Op} {key : Str}
    {mode : LockType} (h : table.Grant trans op table') (hnone : table.heldMode trans op.key = none)
    (hheld : table'.heldMode other key = some mode) :
    (other = trans ∧ (key, mode) = op.want) ∨ table.heldMode other key = some mode := by
  obtain ⟨others, hentry, hmem⟩ := heldMode_eq_some.mp hheld
  by_cases hkey : key = op.key
  swap
  · rw [h.of_ne hkey] at hentry
    exact Or.inr (heldMode_eq_some.mpr ⟨others, hentry, hmem⟩)
  · subst hkey
    cases h with
    | fresh _ =>
        rw [Function.update_self, Option.some.injEq, LockInfo.mk.injEq] at hentry
        obtain ⟨rfl, rfl⟩ := hentry
        exact Or.inl ⟨List.mem_singleton.mp hmem, rfl⟩
    | @shared readers hop hsome =>
        rw [Function.update_self, Option.some.injEq, LockInfo.mk.injEq] at hentry
        obtain ⟨rfl, rfl⟩ := hentry
        rcases List.mem_append.mp hmem with hold | hnew
        · exact Or.inr (heldMode_eq_some.mpr ⟨readers, hsome, hold⟩)
        · exact Or.inl ⟨List.mem_singleton.mp hnew, by rw [Op.want, hop]⟩
    | reread _ hsome =>
        rw [heldMode_eq_some.mpr ⟨_, hsome, List.mem_singleton.mpr rfl⟩] at hnone
        cases hnone
    | upgrade _ hsome =>
        rw [heldMode_eq_some.mpr ⟨_, hsome, List.mem_singleton.mpr rfl⟩] at hnone
        cases hnone

end LockTable

/-- Each transaction asks for its keys in ascending order, and for write locks before its last operation. -/
def InOrder (lt : Str → Str → Prop) (actions : List Action) : Prop :=
  ∀ trans, (issued trans actions).Pairwise fun first later => first.lockType = .writelock ∧ lt first.key later.key

theorem Op.execute_code (op : Op) (map : Map) : (op.execute map).1.1 ≠ .deadlock := by
  cases op with
  | read key retval => cases h : map key <;> simp [Op.execute, Map.get, h]
  | write key value exists_ origValue => simp [Op.execute]
  | delete key exists_ origValue => cases h : map key <;> simp [Op.execute, Map.get, h]

variable {lt : Str → Str → Prop}

theorem InOrder.init {actions more : List Action} (h : InOrder lt (actions ++ more)) : InOrder lt actions := by
  intro trans
  have hall := h trans
  rw [issued_append] at hall
  exact (List.pairwise_append.mp hall).1

namespace State

/-- What a run of such transactions keeps: the operations of a transaction are among those it has asked for, in
this order; its locks are those of its operations; the recorded edges are waits; and no `AddOp` has ended in a
deadlock. -/
structure Orderly (actions : List Action) (s : State) : Prop where
  lanes : ∀ trans, (((s.trans trans).ops ++ (s.trans trans).phase.pendingOps).map Op.want).Sublist
    ((issued trans actions).map Op.want)
  modes : ∀ trans key mode, s.lockTable.heldMode trans key = some mode → (key, mode) ∈ (s.held trans).map Op.want
  edges : ∀ trans other, s.deadlockTree.blockedBy.Edge trans other → s.WaitsFor trans other
  calm : ∀ trans op, (s.trans trans).phase ≠ .aborting op
  codes : ∀ trans, .deadlock ∉ (s.trans trans).rets

theorem orderly_init (map : Map) : (init map).Orderly [] where
  lanes _ := List.Sublist.refl _
  modes _ _ _ h := by cases h
  edges _ _ h := absurd h List.not_mem_nil
  calm _ _ h := by cases h
  codes _ := List.not_mem_nil

/-- With a request, the operations of the transaction still stand in the order they were asked for. -/
theorem Orderly.lane {actions : List Action} {s : State} (h : s.Orderly actions) {action : Action} {trans : Trans}
    {op : Op} (hreq : s.Requests action trans op) :
    (((s.trans trans).ops ++ [op]).map Op.want).Sublist ((issued trans (actions ++ [action])).map Op.want) := by
  have hlane := h.lanes trans
  rcases hreq with ⟨rfl, hphase⟩ | ⟨rfl, signalled, hphase⟩
  · rw [hphase, Phase.pendingOps, List.append_nil] at hlane
    rw [issued_addOp_self, List.map_append, List.map_append]
    exact hlane.append_right _
  · rw [hphase] at hlane
    rwa [issued_of_ne _ (by simp)]

/-- The locks a transaction has are write locks on keys below the one it asks for. -/
theorem Orderly.below {actions : List Action} {s : State} (h : s.Orderly actions) {action : Action} {trans : Trans}
    {op : Op} (hin : InOrder lt (actions ++ [action])) (hreq : s.Requests action trans op) {key : Str}
    {mode : LockType} (hheld : s.lockTable.heldMode trans key = some mode) : mode = .writelock ∧ lt key op.key := by
  have hmode := h.modes trans key mode hheld
  rw [hreq.held] at hmode
  have hpairs : ((issued trans (actions ++ [action])).map Op.want).Pairwise
      fun first later => first.2 = .writelock ∧ lt first.1 later.1 := List.pairwise_map.mpr (hin trans)
  have hlane := hpairs.sublist (h.lane hreq)
  rw [List.map_append, List.pairwise_append] at hlane
  exact hlane.2.2 _ hmode _ (List.mem_singleton.mpr rfl)

theorem Orderly.below_waiting {actions : List Action} {s : State} (h : s.Orderly actions) {trans : Trans}
    {op : Op} {signalled : Bool} (hin : InOrder lt actions) (hphase : (s.trans trans).phase = .waiting op signalled)
    {key : Str} {mode : LockType} (hheld : s.lockTable.heldMode trans key = some mode) :
    mode = .writelock ∧ lt key op.key := by
  have hretry : s.Requests (.retry trans) trans op := Or.inr ⟨rfl, signalled, hphase⟩
  refine h.below ?_ hretry hheld
  intro other
  rw [issued_of_ne _ (by simp)]
  exact hin other

/-- Along a chain of waits, every link but the last has the only lock on the key in front of it, and the keys
ascend. -/
theorem Orderly.ascends {actions : List Action} {s : State} (h : s.Orderly actions) (hin : InOrder lt actions)
    {trans other : Trans} {op op' : Op} {signalled signalled' : Bool}
    (hphase : (s.trans trans).phase = .waiting op signalled) (hwait : s.WaitsFor trans other)
    (hnext : (s.trans other).phase = .waiting op' signalled') :
    s.lockTable.heldMode other op.key = some .writelock ∧ lt op.key op'.key := by
  obtain ⟨wanted, signalled'', heq, ⟨mode, hheld, -⟩, -⟩ := hwait
  rw [hphase] at heq
  cases heq
  obtain ⟨hmode, hlt⟩ := h.below_waiting hin hnext hheld
  subst hmode
  exact ⟨hheld, hlt⟩

variable [IsStrictOrder Str lt]

theorem Orderly.chained {actions : List Action} {s : State} (h : s.Orderly actions) (hin : InOrder lt actions)
    (htables : s.Tables) : s.deadlockTree.blockedBy.Chained where
  irreflexive x hedge := by
    obtain ⟨op, signalled, -, -, hne⟩ := h.edges x x hedge
    exact hne rfl
  asymmetric x y hedge hback := by
    have hwait := h.edges x y hedge
    have hwait' := h.edges y x hback
    obtain ⟨op, signalled, hphase, -, -⟩ := id hwait
    obtain ⟨op', signalled', hphase', -, -⟩ := id hwait'
    have hup := (h.ascends hin hphase hwait hphase').2
    have hdown := (h.ascends hin hphase' hwait' hphase).2
    exact asymm hup hdown
  unbranched x y y' z hedge hedge' hnext := by
    have hwait := h.edges x y hedge
    obtain ⟨op, signalled, hphase, -, -⟩ := id hwait
    obtain ⟨op', signalled', hphase', -, -⟩ := h.edges y z hnext
    obtain ⟨hwrite, -⟩ := h.ascends hin hphase hwait hphase'
    obtain ⟨wanted, signalled'', heq, ⟨mode, hheld, -⟩, -⟩ := h.edges x y' hedge'
    rw [hphase] at heq
    cases heq
    exact htables.wellFormed.only_writer hwrite hheld

/-- The transaction of a request holds no lock on the key it asks for. -/
theorem Orderly.not_held {actions : List Action} {s : State} (h : s.Orderly actions) {action : Action}
    {trans : Trans} {op : Op} (hin : InOrder lt (actions ++ [action])) (hreq : s.Requests action trans op) :
    s.lockTable.heldMode trans op.key = none := by
  cases hheld : s.lockTable.heldMode trans op.key with
  | none => rfl
  | some mode => exact absurd (h.below hin hreq hheld).2 (irrefl op.key)

/-- A refused request whose transaction then waits for some of the holders. -/
theorem Orderly.waits {actions : List Action} {s : State} (h : s.Orderly actions) {action : Action} {trans : Trans}
    {op : Op} (hin : InOrder lt (actions ++ [action])) (hreq : s.Requests action trans op)
    (hconf : s.lockTable.Conflict trans op) {items : List Trans} (hitems : ∀ other ∈ items, other ∈ s.holders op.key) :
    ({ s with deadlockTree := s.deadlockTree.linkAll trans items }.setPhase trans (.waiting op false)).Orderly
      (actions ++ [action]) where
  lanes other := by
    by_cases hother : other = trans
    · subst hother
      rw [setPhase_trans_self]
      exact h.lane hreq
    · rw [setPhase_trans_of_ne _ _ hother]
      refine (h.lanes other).trans ?_
      rw [issued_append, List.map_append]
      exact List.sublist_append_left ..
  modes other key mode hheld := by
    have hold := h.modes other key mode hheld
    by_cases hother : other = trans
    · subst hother
      rw [hreq.held] at hold
      simpa [State.held, Phase.grantedOps] using hold
    · rwa [State.held, setPhase_trans_of_ne _ _ hother]
  edges source target hedge := by
    by_cases hsource : source = trans
    · subst hsource
      rw [setPhase_deadlockTree, DeadlockTable.Edge, DeadlockTree.list_linkAll_self] at hedge
      have hway : s.lockTable.InTheWay op target := by
        rcases List.mem_append.mp hedge with hold | hnew
        · obtain ⟨op', signalled, hphase, hway, -⟩ := h.edges source target hold
          rcases hreq with ⟨-, hidle⟩ | ⟨-, signalled', hphase'⟩
          · rw [hidle] at hphase
            cases hphase
          · rw [hphase'] at hphase
            cases hphase
            exact hway
        · exact hconf.inTheWay (hitems target hnew)
      refine ⟨op, false, by rw [setPhase_trans_self], hway, ?_⟩
      rintro rfl
      obtain ⟨mode, hheld, -⟩ := hway
      rw [h.not_held hin hreq] at hheld
      cases hheld
    · rw [setPhase_deadlockTree, DeadlockTable.Edge, DeadlockTree.list_linkAll_of_ne _ _ hsource] at hedge
      obtain ⟨op', signalled, hphase, hway, hne⟩ := h.edges source target hedge
      exact ⟨op', signalled, by rw [setPhase_trans_of_ne _ _ hsource, hphase], hway, hne⟩
  calm other op' := by
    by_cases hother : other = trans
    · subst hother
      rw [setPhase_trans_self]
      intro hphase
      cases hphase
    · rw [setPhase_trans_of_ne _ _ hother]
      exact h.calm other op'
  codes other := by
    by_cases hother : other = trans
    · subst hother
      rw [setPhase_trans_self]
      exact h.codes other
    · rw [setPhase_trans_of_ne _ _ hother]
      exact h.codes other

/-- **No alarm.** The loop of `AddOp` refuses no holder. -/
theorem Orderly.not_refused {actions : List Action} {s : State} (h : s.Orderly actions) {action : Action}
    {trans : Trans} {op : Op} (hin : InOrder lt (actions ++ [action])) (hreq : s.Requests action trans op)
    (hconf : s.lockTable.Conflict trans op) (htables : s.Tables) {fuel : Nat} {tree : DeadlockTree} :
    s.deadlockTree.addDependencies fuel trans (s.holders op.key) ≠ some (false, tree) := by
  intro hdep
  obtain ⟨before, existing, after, hholders, rfl, hfound⟩ := DeadlockTree.addDependencies_refused hdep
  have hbefore : ∀ other ∈ before, other ∈ s.holders op.key := by
    intro other hmem
    rw [hholders]
    exact List.mem_append_left _ hmem
  have hthere : existing ∈ s.holders op.key := by
    rw [hholders]
    exact List.mem_append_right _ List.mem_cons_self
  -- the state in which the transaction already waits for the holders before this one
  have hafter := h.waits hin hreq hconf hbefore
  have hchained := hafter.chained hin ⟨htables.wellFormed, htables.converse.linkAll trans before⟩
  obtain ⟨mode, hheld, -⟩ := hconf.inTheWay hthere
  have hne : existing ≠ trans := by
    rintro rfl
    rw [h.not_held hin hreq] at hheld
    cases hheld
  by_cases hfree : ∃ beyond, (s.deadlockTree.linkAll trans before).blockedBy.Edge existing beyond
  · obtain ⟨beyond, hbeyond⟩ := hfree
    obtain ⟨op', signalled, hphase, -, -⟩ := hafter.edges existing beyond hbeyond
    obtain ⟨hmode, -⟩ := hafter.below_waiting hin hphase hheld
    subst hmode
    refine hchained.isBlockedBy_ne_true fuel (fun other hother => ?_) (fun hback => ?_) hfound
    · obtain ⟨op'', signalled', hphase', ⟨mode', hheld', -⟩, -⟩ := hafter.edges trans other hother
      rw [setPhase_trans_self] at hphase'
      cases hphase'
      exact htables.wellFormed.only_writer hheld hheld'
    · -- a holder that waits for the transaction waits for a key below and above the one asked for
      obtain ⟨op'', signalled', hphase', ⟨mode', hheld', -⟩, -⟩ := hafter.edges existing trans hback
      have hup := (hafter.below_waiting hin hphase' hheld).2
      have hdown := (h.below hin hreq hheld').2
      exact asymm hup hdown
  · cases fuel with
    | zero => cases hfound
    | succ fuel =>
        rcases DeadlockTable.isBlockedBy_succ_true hfound with hedge | ⟨beyond, hbeyond, -⟩
        · exact hfree ⟨_, hedge⟩
        · exact hfree ⟨_, hbeyond⟩

/-! ### Runs -/

theorem Releases.orderly {actions : List Action} {s s' : State} {trans : Trans} {action : Action}
    (h : s.Releases trans s') (hord : s.Orderly actions) (hidle : (s.trans trans).phase = .idle)
    (hissued : ∀ other, issued other (actions ++ [action]) = issued other actions) (htables : s.Tables)
    (ha : s.Accounted) : s'.Orderly (actions ++ [action]) where
  lanes other := by
    rw [hissued, h.trans, TransState.signal_ops, Phase.signal_pendingOps]
    exact hord.lanes other
  modes other key mode hheld := by
    rw [h.held]
    by_cases hother : other = trans
    · subst hother
      obtain ⟨others, hentry, hmem⟩ := LockTable.heldMode_eq_some.mp hheld
      have hcount := h.count_eq_zero ha (by rw [hidle]; rfl) key
      rw [holders, LockTable.holders_of_some hentry] at hcount
      exact absurd hmem (List.count_eq_zero.mp hcount)
    · rw [h.lockTable, LockTable.heldMode_unlockAll _ _ _ hother] at hheld
      exact hord.modes other key mode hheld
  edges source target hedge := by
    obtain ⟨tree, hremove, -, hcount⟩ := htables.converse.remove trans
    rw [h.deadlockTree, Option.some.injEq] at hremove
    subst hremove
    rw [DeadlockTable.Edge, ← List.count_pos_iff, hcount] at hedge
    split at hedge
    · exact absurd hedge (Nat.lt_irrefl 0)
    · next htarget =>
      obtain ⟨op, signalled, hphase, hway, hne⟩ := hord.edges source target (List.count_pos_iff.mp hedge)
      refine ⟨op, true, ?_, ?_, hne⟩
      · rw [h.trans, TransState.signal_phase, hphase]
      · rw [h.lockTable]
        exact hway.unlockAll htarget _
  calm other op hphase := by
    rw [h.trans, TransState.signal_phase] at hphase
    cases hold : (s.trans other).phase with
    | aborting op' => exact hord.calm other op' hold
    | _ => simp [hold] at hphase
  codes other := by
    rw [h.trans, TransState.signal_rets]
    exact hord.codes other

/-- A granted request. -/
theorem Orderly.granted {actions : List Action} {s : State} (h : s.Orderly actions) {action : Action}
    {trans : Trans} {op : Op} {table : LockTable} (hin : InOrder lt (actions ++ [action]))
    (hreq : s.Requests action trans op) (hgrant : s.lockTable.Grant trans op table) :
    ({ s with lockTable := table }.setPhase trans (.granted op)).Orderly (actions ++ [action]) where
  lanes other := by
    by_cases hother : other = trans
    · subst hother
      rw [setPhase_trans_self]
      exact h.lane hreq
    · rw [setPhase_trans_of_ne _ _ hother]
      refine (h.lanes other).trans ?_
      rw [issued_append, List.map_append]
      exact List.sublist_append_left ..
  modes other key mode hheld := by
    rcases hgrant.heldMode_cases (h.not_held hin hreq) hheld with ⟨rfl, hwant⟩ | hold
    · simp [State.held, Phase.grantedOps, hwant]
    · have hold := h.modes other key mode hold
      by_cases hother : other = trans
      · subst hother
        rw [hreq.held] at hold
        rw [State.held, setPhase_trans_self, List.map_append]
        exact List.mem_append_left _ hold
      · rwa [State.held, setPhase_trans_of_ne _ _ hother]
  edges source target hedge := by
    obtain ⟨op', signalled, hphase, hway, hne⟩ := h.edges source target hedge
    by_cases hsource : source = trans
    · -- whoever was in the way of the request has gone
      subst hsource
      rcases hreq with ⟨-, hidle⟩ | ⟨-, signalled', hphase'⟩
      · rw [hidle] at hphase
        cases hphase
      · rw [hphase'] at hphase
        cases hphase
        exact absurd hway (hgrant.not_inTheWay hne)
    · exact ⟨op', signalled, by rw [setPhase_trans_of_ne _ _ hsource, hphase], hgrant.inTheWay hway, hne⟩
  calm other op' := by
    by_cases hother : other = trans
    · subst hother
      rw [setPhase_trans_self]
      intro hphase
      cases hphase
    · rw [setPhase_trans_of_ne _ _ hother]
      exact h.calm other op'
  codes other := by
    by_cases hother : other = trans
    · subst hother
      rw [setPhase_trans_self]
      exact h.codes other
    · rw [setPhase_trans_of_ne _ _ hother]
      exact h.codes other

/-- The end of an `AddOp`. -/
theorem Orderly.executed {actions : List Action} {s : State} (h : s.Orderly actions) {trans : Trans} {op : Op}
    (hphase : (s.trans trans).phase = .granted op) :
    (s.execute trans op).Orderly (actions ++ [.execute trans op]) := by
  have hwant : (op.execute s.map).1.2.want = op.want := by
    obtain ⟨hkey, htype⟩ := op.execute_same s.map
    rw [Op.want, Op.want, hkey, htype]
  have hissued : ∀ other, issued other (actions ++ [.execute trans op]) = issued other actions :=
    fun other => issued_of_ne _ (by simp)
  constructor
  case lanes =>
    intro other
    rw [hissued]
    by_cases hother : other = trans
    · subst hother
      have hold := h.lanes other
      rw [hphase] at hold
      simp only [Phase.pendingOps, List.map_append, List.map_cons, List.map_nil, execute_trans_self,
        List.append_nil, hwant] at hold ⊢
      exact hold
    · rw [execute_trans_of_ne _ _ hother]
      exact h.lanes other
  case modes =>
    intro other key mode hheld
    have hold := h.modes other key mode hheld
    by_cases hother : other = trans
    · subst hother
      simp only [State.held, hphase, Phase.grantedOps, List.map_append, List.map_cons, List.map_nil,
        execute_trans_self, List.append_nil, hwant] at hold ⊢
      exact hold
    · rwa [State.held, execute_trans_of_ne _ _ hother]
  case edges =>
    intro source target hedge
    obtain ⟨op', signalled, hwaiting, hway, hne⟩ := h.edges source target hedge
    have hsource : source ≠ trans := by
      rintro rfl
      rw [hphase] at hwaiting
      cases hwaiting
    exact ⟨op', signalled, by rw [execute_trans_of_ne _ _ hsource, hwaiting], hway, hne⟩
  case calm =>
    intro other op'
    by_cases hother : other = trans
    · subst hother
      rw [execute_trans_self]
      intro hphase
      cases hphase
    · rw [execute_trans_of_ne _ _ hother]
      exact h.calm other op'
  case codes =>
    intro other
    by_cases hother : other = trans
    · subst hother
      rw [execute_trans_self, List.mem_append, List.mem_singleton, not_or]
      exact ⟨h.codes other, (Op.execute_code op s.map).symm⟩
    · rw [execute_trans_of_ne _ _ hother]
      exact h.codes other

theorem Step.orderly {actions : List Action} {s s' : State} {action : Action} (h : s.Step action s')
    (hin : InOrder lt (actions ++ [action])) (hord : s.Orderly actions) (htables : s.Tables) (ha : s.Accounted) :
    s'.Orderly (actions ++ [action]) := by
  cases h.outcome with
  | granted hreq hgrant => exact hord.granted hin hreq hgrant
  | waits hreq hconf hdep =>
      obtain ⟨rfl, -⟩ := DeadlockTree.addDependencies_accepted hdep
      exact hord.waits hin hreq hconf fun _ hmem => hmem
  | refused hreq hconf hdep => exact absurd hdep (hord.not_refused hin hreq hconf htables)
  | executed hphase => exact hord.executed hphase
  | committed hidle hcommit =>
      exact (commit_releases hcommit).1.orderly hord hidle (fun _ => issued_of_ne _ (by simp)) htables ha
  | aborted hidle hroll =>
      exact (rollback_releases hroll).1.orderly hord hidle (fun _ => issued_of_ne _ (by simp)) htables ha
  | rolledBack hphase _ => exact absurd hphase (hord.calm _ _)

theorem orderly_run {map : Map} {actions : List Action} {s : State} (h : Run Step (init map) actions s)
    (hin : InOrder lt actions) : s.Orderly actions := by
  refine h.invariant (fun actions s => InOrder lt actions → s.Orderly actions) (fun _ => orderly_init map) ?_ hin
  intro actions before action after hrun hord hstep hin
  exact hstep.orderly hin (hord hin.init) (tables_run hrun) (accounted_run hrun)

/-! ### Every request is answered -/

/-- At the end of a chain of waits somebody has a lock on a key that is not below the first one waited for. -/
theorem Orderly.chain {actions : List Action} {s : State} (h : s.Orderly actions) (hin : InOrder lt actions)
    {trans other : Trans} (hchain : TransGen s.WaitsFor trans other) {op : Op} {signalled : Bool}
    (hphase : (s.trans trans).phase = .waiting op signalled) :
    ∃ key mode, s.lockTable.heldMode other key = some mode ∧ (key = op.key ∨ lt op.key key) := by
  induction hchain using TransGen.head_induction_on generalizing op signalled with
  | single hwait =>
      obtain ⟨op', signalled', heq, ⟨mode, hheld, -⟩, -⟩ := hwait
      rw [hphase] at heq
      cases heq
      exact ⟨op.key, mode, hheld, Or.inl rfl⟩
  | head hwait hrest ih =>
      obtain ⟨next, hnext, -⟩ := TransGen.head'_iff.mp hrest
      obtain ⟨op', signalled', hphase', -, -⟩ := id hnext
      obtain ⟨-, hup⟩ := h.ascends hin hphase hwait hphase'
      obtain ⟨key, mode, hheld, hkey⟩ := ih hphase'
      refine ⟨key, mode, hheld, Or.inr ?_⟩
      rcases hkey with rfl | hlt
      · exact hup
      · exact IsTrans.trans _ _ _ hup hlt

/-- **No circle of waits.** -/
theorem Orderly.acyclic {actions : List Action} {s : State} (h : s.Orderly actions) (hin : InOrder lt actions)
    (trans : Trans) : ¬TransGen s.WaitsFor trans trans := by
  intro hcycle
  obtain ⟨next, hnext, -⟩ := TransGen.head'_iff.mp hcycle
  obtain ⟨op, signalled, hphase, -, -⟩ := hnext
  obtain ⟨key, mode, hheld, hkey⟩ := h.chain hin hcycle hphase
  have hlt := (h.below_waiting hin hphase hheld).2
  rcases hkey with rfl | hup
  · exact irrefl _ hlt
  · exact asymm hlt hup

/-- The dependencies of a request fit into the table. -/
theorem Orderly.keepsUntangled {actions : List Action} {s : State} (h : s.Orderly actions) {action : Action}
    (hin : InOrder lt (actions ++ [action])) : s.KeepsUntangled action := by
  intro trans op hreq hconf
  have hholder : ∀ existing ∈ s.deadlockTree.linkable trans (s.holders op.key),
      ∃ mode, s.lockTable.heldMode existing op.key = some mode := by
    intro existing hmem
    obtain ⟨mode, hheld, -⟩ := hconf.inTheWay ((List.takeWhile_prefix _).subset hmem)
    exact ⟨mode, hheld⟩
  refine ⟨fun existing hmem _ hchain => ?_, fun hmem other _ => ?_⟩
  · obtain ⟨mode, hheld⟩ := hholder existing hmem
    have hwaits := TransGen.mono (fun _ _ hedge => h.edges _ _ hedge) _ _ hchain
    obtain ⟨next, hnext, -⟩ := TransGen.head'_iff.mp hwaits
    obtain ⟨op', signalled, hphase, -, -⟩ := hnext
    obtain ⟨key, mode', hheld', hkey⟩ := h.chain hin.init hwaits hphase
    have hup := (h.below_waiting hin.init hphase hheld).2
    have hdown := (h.below hin hreq hheld').2
    rcases hkey with rfl | hlt
    · exact asymm hup hdown
    · exact asymm hdown (IsTrans.trans _ _ _ hup hlt)
  · obtain ⟨mode, hheld⟩ := hholder trans hmem
    rw [h.not_held hin hreq] at hheld
    cases hheld

theorem ordered_run_untangled {map : Map} {actions : List Action} {s : State} (h : Run Step (init map) actions s)
    (hin : InOrder lt actions) : s.deadlockTree.blockedBy.Untangled := by
  refine h.invariant (fun actions s => InOrder lt actions → s.deadlockTree.blockedBy.Untangled)
    (fun _ => DeadlockTable.untangled_empty) ?_ hin
  intro actions before action after hrun hold hstep hin
  exact hstep.untangled ((orderly_run hrun hin.init).keepsUntangled hin) (tables_run hrun) (hold hin.init)

/-- The loop of `AddOp` over the holders of the key comes to its end. -/
theorem Orderly.dependencies_end {actions : List Action} {s : State} (h : s.Orderly actions) {action : Action}
    {trans : Trans} {op : Op} (hin : InOrder lt (actions ++ [action])) (hreq : s.Requests action trans op)
    (hconf : s.lockTable.Conflict trans op) (hold : s.deadlockTree.blockedBy.Untangled) :
    ∃ fuel result, s.deadlockTree.addDependencies fuel trans (s.holders op.key) = some result := by
  apply DeadlockTree.addDependencies_ends
  intro before existing after fuel tree hholders haccepted
  have hlinkable := DeadlockTree.mem_linkable_of_accepted haccepted (existing :: after)
  rw [← hholders] at hlinkable
  obtain ⟨rfl, -⟩ := DeadlockTree.addDependencies_accepted haccepted
  exact ((h.keepsUntangled hin trans op hreq hconf).untangled hlinkable hold).ends existing trans

/-- A request in order is granted, or its transaction waits. -/
theorem Orderly.answered {actions : List Action} {s : State} (h : s.Orderly actions) {action : Action}
    {trans : Trans} {op : Op} (hin : InOrder lt (actions ++ [action])) (hreq : s.Requests action trans op)
    (htables : s.Tables) (hold : s.deadlockTree.blockedBy.Untangled) :
    ∃ s', s.Step action s' ∧
      ((s'.trans trans).phase = .granted op ∨ (s'.trans trans).phase = .waiting op false) := by
  by_cases hconf : s.lockTable.Conflict trans op
  · obtain ⟨fuel, ⟨verdict, tree⟩, hdep⟩ := h.dependencies_end hin hreq hconf hold
    cases verdict with
    | false => exact absurd hdep (h.not_refused hin hreq hconf htables)
    | true =>
        obtain ⟨info, hentry, -⟩ := id hconf
        have hlookup : s.lockTable.getLockHolders op.key = some (s.holders op.key) := by
          rw [LockTable.getLockHolders, holders, LockTable.holders_of_some hentry, hentry]
          rfl
        have hsome : (s.holders op.key).length ≠ 0 := by
          rw [holders, LockTable.holders_of_some hentry, Ne, List.length_eq_zero_iff]
          exact (htables.wellFormed _ _ hentry).1
        have htry : s.tryLock fuel trans op =
            some ({ s with deadlockTree := tree }.setPhase trans (.waiting op false)) := by
          simp only [tryLock, LockTable.lock_of_conflict hconf, hlookup, if_neg hsome, hdep]
        exact ⟨_, ⟨fuel, (hreq.step_eq fuel).trans htry⟩, Or.inr (by rw [setPhase_trans_self])⟩
  · obtain ⟨⟨s', hstep⟩, hgranted⟩ := hreq.proceeds_iff.mpr ((LockTable.lock_verdict _ trans op).mpr hconf)
    exact ⟨s', hstep, Or.inl (hgranted s' hstep)⟩

/-- A waiting transaction in whose way nobody stands gets its lock in its next pass. -/
theorem Orderly.proceeds {actions : List Action} {s : State} (h : s.Orderly actions) (hin : InOrder lt actions)
    (htables : s.Tables) {trans : Trans} {op : Op} {signalled : Bool}
    (hphase : (s.trans trans).phase = .waiting op signalled) (hfree : ∀ other, ¬s.WaitsFor trans other) :
    s.Proceeds (.retry trans) trans op := by
  have hreq : s.Requests (.retry trans) trans op := Or.inr ⟨rfl, signalled, hphase⟩
  rw [hreq.proceeds_iff, LockTable.lock_verdict]
  intro hconf
  obtain ⟨info, hentry, -⟩ := id hconf
  obtain ⟨other, hmem⟩ := List.exists_mem_of_ne_nil _ (htables.wellFormed _ _ hentry).1
  have hway : s.lockTable.InTheWay op other := by
    apply hconf.inTheWay
    rwa [LockTable.holders_of_some hentry]
  refine hfree other ⟨op, signalled, hphase, hway, ?_⟩
  rintro rfl
  obtain ⟨mode, hheld, -⟩ := hway
  exact irrefl _ (h.below_waiting hin hphase hheld).2

/-- The key a transaction waits for is one of the keys asked for in the run. -/
theorem Orderly.key_mem {actions : List Action} {s : State} (h : s.Orderly actions) {trans : Trans} {op : Op}
    {signalled : Bool} (hphase : (s.trans trans).phase = .waiting op signalled) :
    ∃ op', .addOp trans op' ∈ actions ∧ op'.key = op.key := by
  have hmem : op.want ∈ ((s.trans trans).ops ++ (s.trans trans).phase.pendingOps).map Op.want := by
    rw [hphase, List.map_append]
    exact List.mem_append_right _ (List.mem_singleton.mpr rfl)
  obtain ⟨op', hop', hwant⟩ := List.mem_map.mp ((h.lanes trans).subset hmem)
  refine ⟨op', ?_, congrArg Prod.fst hwant⟩
  obtain ⟨action, haction, heq⟩ := List.mem_filterMap.mp hop'
  cases action with
  | addOp who wanted =>
      simp only [Option.ite_none_right_eq_some, Option.some.injEq] at heq
      rwa [← heq.1, ← heq.2]
  | _ => cases heq

/-- The keys asked for in a run. -/
def keysOf (actions : List Action) : List Str :=
  actions.filterMap fun action =>
    match action with
    | .addOp _ op => some op.key
    | _ => none

theorem mem_keysOf {actions : List Action} {trans : Trans} {op : Op} (h : .addOp trans op ∈ actions) :
    op.key ∈ keysOf actions :=
  List.mem_filterMap.mpr ⟨_, h, rfl⟩

/-- The transactions a waiting one is behind have one in front. -/
theorem Orderly.front {actions : List Action} {s : State} (h : s.Orderly actions) (hin : InOrder lt actions)
    (trans : Trans) : ∃ front, ReflTransGen s.WaitsFor trans front ∧ ∀ other, ¬s.WaitsFor front other := by
  have hwf : {key | key ∈ keysOf actions}.WellFoundedOn (Function.swap lt) :=
    (List.finite_toSet (keysOf actions)).wellFoundedOn
  -- along the keys waited for, which ascend among those asked for
  have hwaiting : ∀ key ∈ keysOf actions, ∀ trans op signalled, (s.trans trans).phase = .waiting op signalled →
      op.key = key → ∃ front, ReflTransGen s.WaitsFor trans front ∧ ∀ other, ¬s.WaitsFor front other := by
    intro key hkey
    refine hwf.induction (P := fun key => ∀ trans op signalled, (s.trans trans).phase = .waiting op signalled →
      op.key = key → ∃ front, ReflTransGen s.WaitsFor trans front ∧ ∀ other, ¬s.WaitsFor front other) hkey ?_
    intro key _ ih trans op signalled hphase heq
    by_cases hnext : ∃ other, s.WaitsFor trans other
    swap
    · exact ⟨trans, .refl, not_exists.mp hnext⟩
    · obtain ⟨other, hwait⟩ := hnext
      by_cases hbeyond : ∃ beyond, s.WaitsFor other beyond
      swap
      · exact ⟨other, .single hwait, not_exists.mp hbeyond⟩
      · obtain ⟨beyond, op', signalled', hphase', -, -⟩ := hbeyond
        obtain ⟨asked, hasked, hkey'⟩ := h.key_mem hphase'
        have hup := (h.ascends hin hphase hwait hphase').2
        rw [heq] at hup
        obtain ⟨front, hchain, hfront⟩ :=
          ih op'.key (hkey' ▸ mem_keysOf hasked) hup other op' signalled' hphase' rfl
        exact ⟨front, .head hwait hchain, hfront⟩
  by_cases hnext : ∃ other, s.WaitsFor trans other
  · obtain ⟨other, op, signalled, hphase, -, -⟩ := hnext
    obtain ⟨asked, hasked, hkey⟩ := h.key_mem hphase
    exact hwaiting op.key (hkey ▸ mem_keysOf hasked) trans op signalled hphase rfl
  · exact ⟨trans, .refl, not_exists.mp hnext⟩

end State

/-- **Ordered transactions are never refused.** No `AddOp` of such a run ends in a deadlock or is about to, and
the next request of each transaction, if it is in order too, is granted or waits: its search ends and raises no
alarm. -/
theorem ordered_never_deadlock {lt : Str → Str → Prop} [IsStrictOrder Str lt] (map : Map) (actions : List Action)
    (s : State) (h : Run State.Step (State.init map) actions s) (hin : InOrder lt actions) :
    (∀ trans, .deadlock ∉ (s.trans trans).rets ∧ ∀ op, (s.trans trans).phase ≠ .aborting op) ∧
      ∀ action trans op, InOrder lt (actions ++ [action]) → s.Requests action trans op →
        ∃ s', s.Step action s' ∧
          ((s'.trans trans).phase = .granted op ∨ (s'.trans trans).phase = .waiting op false) := by
  have hord := State.orderly_run h hin
  refine ⟨fun trans => ⟨hord.codes trans, hord.calm trans⟩, fun action trans op hnext hreq => ?_⟩
  exact hord.answered hnext hreq (State.tables_run h) (State.ordered_run_untangled h hin)

/-- The order of `std::string` is one the callers can agree on. -/
instance strOrder : IsStrictOrder Str (· < ·) where
  irrefl := List.lt_irrefl
  trans _ _ _ := List.lt_trans

/-- Transaction 2 waits for a key of transaction 1, which then gets the next key. -/
def waitsBehind : List Action :=
  [.addOp 1 (.write [97] [49] false []), .execute 1 (.write [97] [49] false []),
    .addOp 2 (.write [97] [50] false []), .addOp 1 (.write [98] [49] false []),
    .execute 1 (.write [98] [49] false [])]

theorem inOrder_waitsBehind : InOrder (· < ·) (waitsBehind ++ [.addOp 3 (.read [98] [])]) := by
  intro trans
  by_cases h₁ : 1 = trans
  · subst h₁
    decide
  · by_cases h₂ : 2 = trans
    · subst h₂
      decide
    · by_cases h₃ : 3 = trans
      · subst h₃
        decide
      · simp [issued, waitsBehind, h₁, h₂, h₃]

theorem ordered_never_deadlock_waitsBehind : ∃ s s', Run State.Step (State.init fun _ => none) waitsBehind s ∧
    (s.trans 2).phase = .waiting (.write [97] [50] false []) false ∧ .deadlock ∉ (s.trans 2).rets ∧
    s.Step (.addOp 3 (.read [98] [])) s' ∧
    ((s'.trans 3).phase = .granted (.read [98] []) ∨ (s'.trans 3).phase = .waiting (.read [98] []) false) := by
  obtain ⟨s, hs, hphase, hidle⟩ : ∃ s, (State.init fun _ => none).runAll 2 waitsBehind = some s ∧
      (s.trans 2).phase = .waiting (.write [97] [50] false []) false ∧ (s.trans 3).phase = .idle :=
    ⟨_, rfl, by decide, by decide⟩
  have hrun := State.run_of_runAll hs
  obtain ⟨hcodes, hnext⟩ := ordered_never_deadlock (fun _ => none) waitsBehind s hrun inOrder_waitsBehind.init
  obtain ⟨s', hstep, hcases⟩ := hnext _ 3 _ inOrder_waitsBehind (Or.inl ⟨rfl, hidle⟩)
  exact ⟨s, s', hrun, hphase, (hcodes 2).1, hstep, hcases⟩

/-- **Somebody can always go on.** The waits of such a run form no circle, and every transaction is, through other
ones that wait, behind one that is outside `AddOp`, has its lock, or gets it in its next pass. -/
theorem ordered_goes_on {lt : Str → Str → Prop} [IsStrictOrder Str lt] (map : Map) (actions : List Action)
    (s : State) (h : Run State.Step (State.init map) actions s) (hin : InOrder lt actions) :
    (∀ trans, ¬TransGen s.WaitsFor trans trans) ∧
      ∀ trans, ∃ front, ReflTransGen s.WaitsFor trans front ∧
        ((s.trans front).phase = .idle ∨ (∃ op, (s.trans front).phase = .granted op) ∨
          ∃ op signalled, (s.trans front).phase = .waiting op signalled ∧ s.Proceeds (.retry front) front op) := by
  have hord := State.orderly_run h hin
  refine ⟨hord.acyclic hin, fun trans => ?_⟩
  obtain ⟨front, hchain, hfree⟩ := hord.front hin trans
  refine ⟨front, hchain, ?_⟩
  cases hphase : (s.trans front).phase with
  | idle => exact Or.inl rfl
  | granted op => exact Or.inr (Or.inl ⟨op, rfl⟩)
  | waiting op signalled =>
      exact Or.inr (Or.inr ⟨op, signalled, rfl, hord.proceeds hin (State.tables_run h) hphase hfree⟩)
  | aborting op => exact absurd hphase (hord.calm front op)

theorem ordered_goes_on_waitsBehind : ∃ s front, Run State.Step (State.init fun _ => none) waitsBehind s ∧
    (s.trans 2).phase = .waiting (.write [97] [50] false []) false ∧ ReflTransGen s.WaitsFor 2 front ∧
    ¬TransGen s.WaitsFor 2 2 := by
  obtain ⟨s, hs, hphase⟩ : ∃ s, (State.init fun _ => none).runAll 2 waitsBehind = some s ∧
      (s.trans 2).phase = .waiting (.write [97] [50] false []) false := ⟨_, rfl, by decide⟩
  have hrun := State.run_of_runAll hs
  obtain ⟨hcircle, hfront⟩ := ordered_goes_on (fun _ => none) waitsBehind s hrun inOrder_waitsBehind.init
  obtain ⟨front, hchain, -⟩ := hfront 2
  exact ⟨s, front, hrun, hphase, hchain, hcircle 2⟩

end Thebends.Ydb
