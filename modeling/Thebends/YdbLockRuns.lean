import Thebends.YdbInvariants

/-! The lock table of ydb under any calls of its three members, the requests of a transaction that has nobody to
compete with, and what `Commit` and `Rollback` leave of the locks. `WriteLock` grants a key that nobody holds and the
upgrade of a single read lock; a transaction that asks for the write lock of a key it has written, or has read twice,
is refused on account of its own lock, and `AddOp` puts it to sleep behind itself. -/

namespace Thebends.Ydb

open LibRun

namespace LockTable

/-- A call of a member of `Ydb_LockTable`. -/
inductive Call
  | readLock (trans : Trans) (item : Str)
  | writeLock (trans : Trans) (item : Str)
  | unlock (trans : Trans) (item : Str)
  deriving DecidableEq, Repr

def call (table : LockTable) : Call → Bool × LockTable
  | .readLock who item => table.readLock who item
  | .writeLock who item => table.writeLock who item
  | .unlock who item => table.unlock who item

/-- The table after some calls on a new one. -/
def after (calls : List Call) : LockTable := calls.foldl (fun table call => (table.call call).2) fun _ => none

/-- The two modes as operations that ask for them. -/
theorem readLock_eq_lock (table : LockTable) (trans : Trans) (item : Str) :
    table.readLock trans item = table.lock trans (.read item []) := rfl

theorem writeLock_eq_lock (table : LockTable) (trans : Trans) (item : Str) :
    table.writeLock trans item = table.lock trans (.delete item false []) := rfl

theorem WellFormed.lock {table : LockTable} (h : table.WellFormed) (trans : Trans) (op : Op) :
    ((table.lock trans op).2).WellFormed := by
  obtain ⟨verdict, table', hlock⟩ : ∃ verdict table', table.lock trans op = (verdict, table') := ⟨_, _, rfl⟩
  rw [hlock]
  cases verdict with
  | true => exact (lock_granted hlock).wellFormed h
  | false =>
      rw [(lock_refused hlock).1]
      exact h

theorem WellFormed.call {table : LockTable} (h : table.WellFormed) (call : Call) :
    ((table.call call).2).WellFormed := by
  cases call with
  | readLock trans item =>
      rw [LockTable.call, readLock_eq_lock]
      exact h.lock trans _
  | writeLock trans item =>
      rw [LockTable.call, writeLock_eq_lock]
      exact h.lock trans _
  | unlock trans item => exact h.unlock trans item

/-- The table is in order after any calls. -/
theorem wellFormed_after (calls : List Call) : (after calls).WellFormed := by
  suffices hfold : ∀ table : LockTable, table.WellFormed →
      (calls.foldl (fun table call => (table.call call).2) table).WellFormed from hfold _ nofun
  intro table htable
  induction calls generalizing table with
  | nil => exact htable
  | cons call calls ih => exact ih _ (htable.call call)

/-- **Locks exclude each other.** After any calls every entry has a holder, a write lock has one element
in its holder list, and where two transactions hold locks on a key neither is a write lock. -/
theorem after_exclusive (calls : List Call) :
    (∀ item info, after calls item = some info → info.transactions ≠ [] ∧
      (info.type = .writelock → info.transactions.length = 1)) ∧
      ∀ item trans other, trans ≠ other → (after calls).heldMode trans item = some .writelock →
        (after calls).heldMode other item = none := by
  have hwf := wellFormed_after calls
  refine ⟨fun item info hinfo => ⟨(hwf item info hinfo).1, fun hwrite => ?_⟩, fun item trans other hne hheld => ?_⟩
  · obtain ⟨owner, howner⟩ := (hwf item info hinfo).2 hwrite
    rw [howner]
    rfl
  · unfold heldMode at hheld ⊢
    cases hentry : after calls item with
    | none => rfl
    | some info =>
        rw [hentry] at hheld
        simp only [Option.ite_none_right_eq_some, Option.some.injEq] at hheld
        obtain ⟨hmem, hwrite⟩ := hheld
        obtain ⟨owner, howner⟩ := (hwf item info hentry).2 hwrite
        rw [howner, List.mem_singleton] at hmem
        simp only [howner, List.mem_singleton, ← hmem, hne.symm, if_false]

/-! ### Who is refused -/

/-- A request is granted unless it conflicts. -/
theorem lock_verdict (table : LockTable) (trans : Trans) (op : Op) :
    (table.lock trans op).1 = true ↔ ¬table.Conflict trans op := by
  obtain ⟨verdict, table', hlock⟩ : ∃ verdict table', table.lock trans op = (verdict, table') := ⟨_, _, rfl⟩
  rw [hlock]
  cases verdict with
  | true => exact iff_of_true rfl (lock_granted hlock).not_conflict
  | false => exact iff_of_false nofun (not_not_intro (lock_refused hlock).2)

/-- Nobody but `trans` holds a lock on the key. -/
def NoOther (table : LockTable) (trans : Trans) (item : Str) : Prop :=
  ∀ other, other ≠ trans → table.heldMode other item = none

/-- Nobody but `trans` holds a write lock on the key. -/
def NoOtherWriter (table : LockTable) (trans : Trans) (item : Str) : Prop :=
  ∀ other, other ≠ trans → table.heldMode other item ≠ some .writelock

/-- `trans` is the only holder of the key, and has it write locked or has read it more than once. -/
def Relocks (table : LockTable) (trans : Trans) (item : Str) : Prop :=
  ∃ info, table item = some info ∧ (∀ other ∈ info.transactions, other = trans) ∧
    (info.type = .writelock ∨ 2 ≤ info.transactionCount)

theorem noOther_of_none {table : LockTable} {trans : Trans} {item : Str} (h : table item = none) :
    table.NoOther trans item := by
  intro other _
  simp only [heldMode, h]

theorem noOther_of_some {table : LockTable} {trans : Trans} {item : Str} {info : LockInfo}
    (h : table item = some info) : table.NoOther trans item ↔ ∀ other ∈ info.transactions, other = trans := by
  simp only [NoOther, heldMode, h, ite_eq_right_iff, reduceCtorEq, imp_false]
  exact ⟨fun hno other hmem => by_contra fun hne => hno other hne hmem, fun hall other hne hmem => hne (hall other hmem)⟩

/-- A holder list whose only member is `trans`. -/
theorem transactions_eq_singleton {info : LockInfo} {trans : Trans} (hne : info.transactions ≠ [])
    (hall : ∀ other ∈ info.transactions, other = trans) :
    info.transactions = [trans] ↔ ¬2 ≤ info.transactionCount := by
  have hreplicate := List.eq_replicate_of_mem hall
  have hpos : 0 < info.transactions.length := List.length_pos_iff.mpr hne
  rw [LockInfo.transactionCount]
  constructor
  · intro hown
    simp [hown]
  · intro hcount
    rw [hreplicate, show info.transactions.length = 1 by omega]
    rfl

/-- `WriteLock` refuses those who compete with others, and those who compete with themselves. -/
theorem writeLock_verdict_iff {table : LockTable} (hwf : table.WellFormed) (trans : Trans) (item : Str) :
    ((table.writeLock trans item).1 = true ↔ table.NoOther trans item) ↔ ¬table.Relocks trans item := by
  rw [writeLock_eq_lock, lock_verdict]
  cases hentry : table item with
  | none =>
      have hgranted : ¬table.Conflict trans (.delete item false []) := by
        rintro ⟨info, hinfo, -⟩
        rw [Op.key, hentry] at hinfo
        cases hinfo
      have hfresh : ¬table.Relocks trans item := by
        rintro ⟨info, hinfo, -⟩
        rw [hentry] at hinfo
        cases hinfo
      exact iff_of_true (iff_of_true hgranted (noOther_of_none hentry)) hfresh
  | some info =>
      have hconflict : table.Conflict trans (.delete item false []) ↔
          (info.type = .readlock → info.transactions ≠ [trans]) := by
        constructor
        · rintro ⟨found, hfound, -, -, hread⟩
          rw [Op.key, hentry, Option.some.injEq] at hfound
          rwa [hfound]
        · intro hread
          refine ⟨info, hentry, Or.inl rfl, ?_, hread⟩
          intro _ hop
          cases hop
      have hrelocks : table.Relocks trans item ↔ (∀ other ∈ info.transactions, other = trans) ∧
          (info.type = .writelock ∨ 2 ≤ info.transactionCount) := by
        constructor
        · rintro ⟨found, hfound, hboth⟩
          rw [hentry, Option.some.injEq] at hfound
          rwa [hfound]
        · exact fun hboth => ⟨info, hentry, hboth⟩
      rw [hconflict, hrelocks, noOther_of_some hentry]
      by_cases hall : ∀ other ∈ info.transactions, other = trans
      · have hsingle := transactions_eq_singleton (hwf item info hentry).1 hall
        have htype : info.type = .readlock ↔ ¬info.type = .writelock := by cases info.type <;> decide
        rw [iff_true_right hall, and_iff_right hall, Classical.not_imp, not_not, hsingle, htype, not_or]
      · refine iff_of_true (iff_of_false (not_not_intro fun _ hown => hall ?_) hall) fun hboth => hall hboth.1
        rw [hown]
        exact fun other hother => List.mem_singleton.mp hother

/-- `ReadLock` refuses those who compete with a writer. -/
theorem readLock_verdict_iff {table : LockTable} (hwf : table.WellFormed) (trans : Trans) (item : Str) :
    (table.readLock trans item).1 = true ↔ table.NoOtherWriter trans item := by
  rw [readLock_eq_lock, lock_verdict]
  constructor
  · intro hgranted other hne hheld
    simp only [heldMode] at hheld
    split at hheld
    · cases hheld
    · next info hentry =>
      rw [Option.ite_none_right_eq_some, Option.some.injEq] at hheld
      obtain ⟨hmem, hwrite⟩ := hheld
      apply hgranted
      refine ⟨info, hentry, Or.inr hwrite, fun _ _ hown => hne ?_, fun hread => ?_⟩
      · rw [hown, List.mem_singleton] at hmem
        exact hmem
      · rw [hwrite] at hread
        cases hread
  · rintro hno ⟨info, hentry, hmode, hown, -⟩
    have hwrite : info.type = .writelock := by
      rcases hmode with hop | hwrite
      · cases hop
      · exact hwrite
    obtain ⟨owner, howner⟩ := (hwf _ info hentry).2 hwrite
    by_cases hne : owner = trans
    · subst hne
      exact hown hwrite rfl howner
    · refine hno owner hne ?_
      simp only [heldMode, show table item = some info from hentry, howner, List.mem_singleton, if_true, hwrite]

/-- A call that returns false leaves the table as it was. -/
theorem call_refused {table : LockTable} {call : Call} (h : (table.call call).1 = false) :
    (table.call call).2 = table := by
  have hlock : ∀ trans op, (table.lock trans op).1 = false → (table.lock trans op).2 = table :=
    fun trans op hverdict => (lock_refused (Prod.ext hverdict rfl)).1
  cases call with
  | readLock trans item => exact hlock trans (.read item []) h
  | writeLock trans item => exact hlock trans (.delete item false []) h
  | unlock trans item =>
      simp only [LockTable.call, LockTable.unlock] at h ⊢
      split at h
      · rfl
      · split at h
        · split at h <;> cases h
        · next hmissing => rw [if_neg hmissing]

end LockTable

/-! ### A transaction that is alone -/

/-- A transaction is open from an operation of its own on, until it commits or is rolled back. -/
def Open (actions : List Action) (trans : Trans) : Prop :=
  ∃ earlier op later, actions = earlier ++ .addOp trans op :: later ∧
    ∀ action ∈ later, action ≠ .commit trans ∧ action ≠ .rollback trans

theorem open_addOp (actions : List Action) (trans : Trans) (op : Op) : Open (actions ++ [.addOp trans op]) trans :=
  ⟨actions, op, [], rfl, nofun⟩

theorem Open.snoc {actions : List Action} {trans : Trans} (h : Open actions trans) {action : Action}
    (hcommit : action ≠ .commit trans) (hroll : action ≠ .rollback trans) : Open (actions ++ [action]) trans := by
  obtain ⟨earlier, op, later, rfl, hlater⟩ := h
  refine ⟨earlier, op, later ++ [action], by simp, fun other hother => ?_⟩
  rcases List.mem_append.mp hother with hold | hnew
  · exact hlater other hold
  · rw [List.mem_singleton.mp hnew]
    exact ⟨hcommit, hroll⟩

namespace State

/-- A transaction outside the scheduler that holds no lock. -/
structure Absent (s : State) (trans : Trans) : Prop where
  idle : (s.trans trans).phase = .idle
  holds : ∀ key, (s.holders key).count trans = 0

theorem Step.absent_of_ne {s s' : State} {action : Action} (h : s.Step action s') {other : Trans}
    (hne : other ≠ action.actor) (habsent : s.Absent other) : s'.Absent other where
  idle := by rw [h.untouched hne habsent.idle, habsent.idle]
  holds key := Nat.le_zero.mp (habsent.holds key ▸ h.count_le_of_ne hne key)

theorem Releases.absent {s s' : State} {trans : Trans} (h : s.Releases trans s') (ha : s.Accounted)
    (hidle : (s.trans trans).phase = .idle) : s'.Absent trans where
  idle := by rw [h.trans, TransState.signal_phase, hidle]
  holds := h.count_eq_zero ha (by rw [hidle]; rfl)

/-- A transaction that is not open has nothing to do with the scheduler. -/
theorem absent_of_not_open {map : Map} {actions : List Action} {s : State} (h : Run Step (init map) actions s)
    {trans : Trans} (hopen : ¬Open actions trans) : s.Absent trans := by
  revert hopen
  refine h.invariant (fun actions s => ¬Open actions trans → s.Absent trans) (fun _ => ⟨rfl, fun _ => rfl⟩) ?_
  intro actions before action after hrun ih hstep hclosed
  have hacc := accounted_run hrun
  by_cases hactor : trans = action.actor
  swap
  · refine hstep.absent_of_ne hactor (ih fun hopen => hclosed (hopen.snoc ?_ ?_))
    · rintro rfl
      exact hactor rfl
    · rintro rfl
      exact hactor rfl
  · subst hactor
    have hrequest : ∀ trans op, ¬before.Requests action trans op := by
      rintro trans op (⟨rfl, -⟩ | ⟨rfl, signalled, hphase⟩)
      · exact hclosed (open_addOp actions trans op)
      · have hidle := (ih fun hopen => hclosed (hopen.snoc nofun nofun)).idle
        rw [Action.actor, hphase] at hidle
        cases hidle
    cases hstep.outcome with
    | granted hreq _ => exact absurd hreq (hrequest _ _)
    | waits hreq _ _ => exact absurd hreq (hrequest _ _)
    | refused hreq _ _ => exact absurd hreq (hrequest _ _)
    | executed hphase =>
        have hidle := (ih fun hopen => hclosed (hopen.snoc nofun nofun)).idle
        rw [Action.actor, hphase] at hidle
        cases hidle
    | committed hidle hcommit => exact (commit_releases hcommit).1.absent hacc hidle
    | aborted hidle hroll => exact (rollback_releases hroll).1.absent hacc hidle
    | rolledBack hphase hroll =>
        exact ⟨by simp [Action.actor], (rollback_releases hroll).1.count_eq_zero hacc (by rw [hphase]; rfl)⟩

/-- `trans` is the only transaction that is open. -/
def OnlyOpen (actions : List Action) (trans : Trans) : Prop := ∀ other, other ≠ trans → ¬Open actions other

/-- The only open transaction has all locks to itself. -/
theorem OnlyOpen.noOther {map : Map} {actions : List Action} {s : State} (h : Run Step (init map) actions s)
    {trans : Trans} (hopen : OnlyOpen actions trans) (item : Str) : s.lockTable.NoOther trans item := by
  intro other hne
  have hcount := (absent_of_not_open h (hopen other hne)).holds item
  rw [State.holders, List.count_eq_zero] at hcount
  unfold LockTable.heldMode
  cases hentry : s.lockTable item with
  | none => rfl
  | some info =>
      rw [LockTable.holders_of_some hentry] at hcount
      simp only [hcount, if_false]

/-- A request is one pass of the loop of `AddOp`. -/
theorem Requests.step_eq {s : State} {action : Action} {trans : Trans} {op : Op}
    (hreq : s.Requests action trans op) (fuel : Nat) : s.step fuel action = s.tryLock fuel trans op := by
  rcases hreq with ⟨rfl, hphase⟩ | ⟨rfl, signalled, hphase⟩
  · rw [step, if_pos hphase]
  · simp only [step, hphase]

/-- `AddOp` gets its lock in this pass: there is a step, and it leads to the execution of the operation. -/
def Proceeds (s : State) (action : Action) (trans : Trans) (op : Op) : Prop :=
  (∃ s', s.Step action s') ∧ ∀ s', s.Step action s' → (s'.trans trans).phase = .granted op

theorem Requests.proceeds_iff {s : State} {action : Action} {trans : Trans} {op : Op}
    (hreq : s.Requests action trans op) :
    s.Proceeds action trans op ↔ (s.lockTable.lock trans op).1 = true := by
  obtain ⟨verdict, table, hlock⟩ : ∃ verdict table, s.lockTable.lock trans op = (verdict, table) := ⟨_, _, rfl⟩
  rw [hlock]
  cases verdict with
  | true =>
      have hstep : ∀ fuel, s.step fuel action =
          some ({ s with lockTable := table }.setPhase trans (.granted op)) := by
        intro fuel
        simp only [hreq.step_eq, tryLock, hlock]
      refine iff_of_true ⟨⟨_, 0, hstep 0⟩, ?_⟩ rfl
      rintro s' ⟨fuel, h⟩
      rw [hstep, Option.some.injEq] at h
      rw [← h, setPhase_trans_self]
  | false =>
      refine iff_of_false ?_ nofun
      rintro ⟨⟨s', fuel, h⟩, hall⟩
      have hphase := hall s' ⟨fuel, h⟩
      simp only [hreq.step_eq, tryLock, hlock] at h
      split at h
      · cases h
      · split at h
        · cases h
        · split at h
          · cases h
          all_goals
            rw [Option.some.injEq] at h
            rw [← h, setPhase_trans_self] at hphase
            cases hphase

end State

namespace LockTable

/-- What the three members promise at a table, to `trans` on `item`. -/
structure Exact (table : LockTable) (trans : Trans) (item : Str) : Prop where
  write : (table.writeLock trans item).1 = true ↔ table.NoOther trans item
  read : (table.readLock trans item).1 = true ↔ table.NoOtherWriter trans item
  refused : ∀ call, (table.call call).1 = false → (table.call call).2 = table

theorem WellFormed.exact_iff {table : LockTable} (h : table.WellFormed) (trans : Trans) (item : Str) :
    table.Exact trans item ↔ ¬table.Relocks trans item := by
  rw [← writeLock_verdict_iff h]
  exact ⟨fun hexact => hexact.write, fun hwrite => ⟨hwrite, readLock_verdict_iff h trans item, fun _ => call_refused⟩⟩

end LockTable

/-- **Who gets a lock.** After any calls the members decide as promised for a transaction and a key
unless it locks the key again; and in any run the only open transaction gets on with its operation
unless it asks to write a key it locks again. -/
theorem locks_granted_iff (calls : List LockTable.Call) (item : Str) (trans : Trans) :
    ((LockTable.after calls).Exact trans item ↔ ¬(LockTable.after calls).Relocks trans item) ∧
      ∀ (map : Map) (actions : List Action) (s : State) (action : Action) (op : Op),
        Run State.Step (State.init map) actions s → State.OnlyOpen actions trans → s.Requests action trans op →
          (s.Proceeds action trans op ↔ ¬(op.lockType = .writelock ∧ s.lockTable.Relocks trans op.key)) := by
  refine ⟨(LockTable.wellFormed_after calls).exact_iff trans item, ?_⟩
  intro map actions s action op h hopen hreq
  have htables := State.tables_run h
  have hno := hopen.noOther h op.key
  rw [hreq.proceeds_iff]
  cases hop : op.lockType with
  | readlock =>
      have hread : s.lockTable.lock trans op = s.lockTable.readLock trans op.key := if_pos hop
      rw [hread, LockTable.readLock_verdict_iff htables.wellFormed]
      refine iff_of_true (fun other hne => ?_) fun hwrite => nomatch hwrite.1
      rw [hno other hne]
      nofun
  | writelock =>
      have hwrite : s.lockTable.lock trans op = s.lockTable.writeLock trans op.key :=
        if_neg (by rw [hop]; nofun)
      rw [hwrite, and_iff_right rfl, ← LockTable.writeLock_verdict_iff htables.wellFormed, iff_true_right hno]

/-- A transaction writes a key, as the only one there is. -/
def writeOnce : List Action := [.addOp 1 (.write [97] [49] false []), .execute 1 (.write [97] [49] false [])]

theorem onlyOpen_of_actor {actions : List Action} {trans : Trans} (h : ∀ action ∈ actions, action.actor = trans) :
    State.OnlyOpen actions trans := by
  rintro other hne ⟨earlier, op, later, rfl, -⟩
  exact hne (h (.addOp other op) (by simp))

/-- It then writes the key again: `WriteLock` refuses it although nobody else holds a lock, and it sleeps. -/
theorem writeOnce_relocks : ¬(LockTable.after [.writeLock 1 [97]]).Exact 1 [97] ∧
    ∃ s s', Run State.Step (State.init fun _ => none) writeOnce s ∧ State.OnlyOpen writeOnce 1 ∧
      s.Step (.addOp 1 (.write [97] [50] false [])) s' ∧
      (s'.trans 1).phase = .waiting (.write [97] [50] false []) false := by
  constructor
  · intro hexact
    rw [(LockTable.wellFormed_after _).exact_iff] at hexact
    exact hexact ⟨⟨.writelock, [1]⟩, by decide, by decide, Or.inl rfl⟩
  · obtain ⟨s, s', hs, hs', hphase⟩ : ∃ s s', (State.init fun _ => none).runAll 2 writeOnce = some s ∧
        s.step 2 (.addOp 1 (.write [97] [50] false [])) = some s' ∧
        (s'.trans 1).phase = .waiting (.write [97] [50] false []) false := ⟨_, _, rfl, rfl, by decide⟩
    exact ⟨s, s', State.run_of_runAll hs, onlyOpen_of_actor (by decide), ⟨2, hs'⟩, hphase⟩

/-- A transaction reads a key, as the only one there is. -/
def readOnce : List Action := [.addOp 1 (.read [97] []), .execute 1 (.read [97] [])]

theorem locks_granted_iff_upgrade : (LockTable.after [.readLock 1 [97]]).Exact 1 [97] ∧
    ∃ s, Run State.Step (State.init fun _ => none) readOnce s ∧
      s.Proceeds (.addOp 1 (.write [97] [50] false [])) 1 (.write [97] [50] false []) := by
  obtain ⟨s, hs, hphase, hentry⟩ : ∃ s, (State.init fun _ => none).runAll 2 readOnce = some s ∧
      (s.trans 1).phase = .idle ∧ s.lockTable [97] = some ⟨.readlock, [1]⟩ := ⟨_, rfl, by decide, by decide⟩
  have hfree : ∀ table : LockTable, table [97] = some ⟨.readlock, [1]⟩ → ¬table.Relocks 1 [97] := by
    rintro table htable ⟨info, hinfo, -, hmode⟩
    rw [htable, Option.some.injEq] at hinfo
    subst hinfo
    rcases hmode with hwrite | hcount
    · cases hwrite
    · exact absurd hcount (by decide)
  obtain ⟨hexact, halone⟩ := locks_granted_iff [.readLock 1 [97]] [97] 1
  have hproceeds := halone _ readOnce s (.addOp 1 (.write [97] [50] false [])) (.write [97] [50] false [])
    (State.run_of_runAll hs) (onlyOpen_of_actor (by decide)) (Or.inl ⟨rfl, hphase⟩)
  exact ⟨hexact.mpr (hfree _ (by decide)), s, State.run_of_runAll hs,
    hproceeds.mpr fun hrelock => hfree _ hentry hrelock.2⟩

/-! ### Locks are given back -/

namespace State

/-- From `s` to `s'` a transaction gives back all its locks and the others keep theirs: the mode in
which they hold a key, and how often they are in its holder list. -/
structure Frees (s : State) (trans : Trans) (s' : State) : Prop where
  own : ∀ key, s'.lockTable.heldMode trans key = none
  mode : ∀ other, other ≠ trans → ∀ key, s'.lockTable.heldMode other key = s.lockTable.heldMode other key
  count : ∀ other, other ≠ trans → ∀ key, (s'.holders key).count other = (s.holders key).count other

theorem heldMode_of_count {table : LockTable} {trans : Trans} {key : Str}
    (h : (table.holders key).count trans = 0) : table.heldMode trans key = none := by
  rw [List.count_eq_zero] at h
  unfold LockTable.heldMode
  cases hentry : table key with
  | none => rfl
  | some info =>
      rw [LockTable.holders_of_some hentry] at h
      simp only [h, if_false]

/-- The unlock calls of a transaction, one for each of its operations, are enough to take its locks away
and do not reach those of the others. -/
theorem Releases.frees {s s' : State} {trans : Trans} (h : s.Releases trans s') (ha : s.Accounted)
    (hpending : (s.trans trans).phase.grantedOps = []) : s.Frees trans s' where
  own key := heldMode_of_count (h.count_eq_zero ha hpending key)
  mode other hne key := by
    rw [h.lockTable]
    exact LockTable.heldMode_unlockAll _ _ _ hne
  count other hne key := by
    rw [holders, h.lockTable, LockTable.count_unlockAll, if_neg hne]
    rfl

/-- A commit and a rollback, the one inside `AddOp` too, give back what the transaction holds. -/
theorem Step.frees {s s' : State} {action : Action} (h : s.Step action s') (ha : s.Accounted) {trans : Trans}
    (haction : action = .commit trans ∨ action = .rollback trans) : s.Frees trans s' := by
  have hactor : action.actor = trans := by
    rcases haction with rfl | rfl <;> rfl
  have hrequest : ∀ who op, ¬s.Requests action who op := by
    rintro who op (⟨heq, -⟩ | ⟨heq, -⟩)
    · rcases haction with rfl | rfl <;> cases heq
    · rcases haction with rfl | rfl <;> cases heq
  cases h.outcome with
  | granted hreq _ => exact absurd hreq (hrequest _ _)
  | waits hreq _ _ => exact absurd hreq (hrequest _ _)
  | refused hreq _ _ => exact absurd hreq (hrequest _ _)
  | executed _ => rcases haction with heq | heq <;> cases heq
  | @committed who _ hidle hcommit =>
      have hwho : who = trans := hactor
      subst hwho
      exact (commit_releases hcommit).1.frees ha (by rw [hidle]; rfl)
  | @aborted who _ hidle hroll =>
      have hwho : who = trans := hactor
      subst hwho
      exact (rollback_releases hroll).1.frees ha (by rw [hidle]; rfl)
  | @rolledBack who op _ hphase hroll =>
      have hwho : who = trans := hactor
      subst hwho
      have hfrees := (rollback_releases hroll).1.frees ha (by rw [hphase]; rfl)
      exact ⟨hfrees.own, hfrees.mode, hfrees.count⟩

end State

/-- **Locks are given back.** In any run, once `Commit` or `Rollback` has returned, its transaction holds
no lock, and the others hold the locks they held, in the modes they held them. An idle transaction's
call does return. -/
theorem locks_given_back (map : Map) (actions : List Action) (s : State) (trans : Trans)
    (h : Run State.Step (State.init map) actions s) :
    (∀ action s', action = .commit trans ∨ action = .rollback trans → s.Step action s' → s.Frees trans s') ∧
      ((s.trans trans).phase = .idle → ∀ action, action = .commit trans ∨ action = .rollback trans →
        ∃ s', s.Step action s') := by
  refine ⟨fun action s' haction hstep => hstep.frees (State.accounted_run h) haction, fun hidle action haction => ?_⟩
  have htables := State.tables_run h
  rcases haction with rfl | rfl
  · obtain ⟨s', hcommit⟩ := htables.commit_ends trans
    refine ⟨s', 0, ?_⟩
    rw [State.step, if_pos hidle, hcommit]
  · obtain ⟨s', hroll⟩ := htables.rollback_ends trans
    refine ⟨s', 0, ?_⟩
    rw [State.step, hidle]
    exact hroll

/-- Two transactions read a key; the first reads it twice and writes another key it has read. -/
def readTogether : List Action :=
  [.addOp 1 (.read [97] []), .execute 1 (.read [97] []), .addOp 2 (.read [97] []), .execute 2 (.read [97] []),
    .addOp 1 (.read [97] []), .execute 1 (.read [97] []), .addOp 1 (.read [98] []), .execute 1 (.read [98] []),
    .addOp 1 (.write [98] [50] false []), .execute 1 (.write [98] [50] false [])]

theorem locks_given_back_readTogether : ∃ s s', Run State.Step (State.init fun _ => none) readTogether s ∧
    s.holders [97] = [1, 2, 1] ∧ s.lockTable.heldMode 1 [98] = some .writelock ∧ s.Step (.commit 1) s' ∧
    s.Frees 1 s' ∧ s'.lockTable.heldMode 2 [97] = some .readlock := by
  obtain ⟨s, hs, hholders, hwrite, hread, hidle⟩ : ∃ s, (State.init fun _ => none).runAll 2 readTogether = some s ∧
      s.holders [97] = [1, 2, 1] ∧ s.lockTable.heldMode 1 [98] = some .writelock ∧
      s.lockTable.heldMode 2 [97] = some .readlock ∧ (s.trans 1).phase = .idle :=
    ⟨_, rfl, by decide, by decide, by decide, by decide⟩
  obtain ⟨hfrees, hreturns⟩ := locks_given_back _ readTogether s 1 (State.run_of_runAll hs)
  obtain ⟨s', hstep⟩ := hreturns hidle _ (Or.inl rfl)
  have hfree := hfrees _ s' (Or.inl rfl) hstep
  exact ⟨s, s', State.run_of_runAll hs, hholders, hwrite, hstep, hfree, (hfree.mode 2 (by decide) [97]).trans hread⟩

end Thebends.Ydb
