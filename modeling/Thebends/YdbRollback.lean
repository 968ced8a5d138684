import Thebends.YdbWaits

/-! Undoing a transaction of ydb: what `Ydb_Scheduler::Rollback` makes of the map, and what a second
rollback or a commit of the same transaction does after `AddOp` has already rolled it back. -/

namespace Thebends.Ydb

open LibRun

/-- The value `Rollback` of an operation puts back under its key, if it puts one back. -/
def Op.restores : Op → Option Str
  | .read _ _ => none
  | .write _ _ exists_ origValue => if exists_ then some origValue else none
  | .delete _ exists_ origValue => if exists_ then some origValue else none

theorem Op.rollback_of_ne (op : Op) (map : Map) {key : Str} (h : key ≠ op.key) : op.rollback map key = map key := by
  cases op with
  | read _ _ => rfl
  | write _ _ exists_ _ =>
      cases exists_ with
      | false => rfl
      | true => exact Function.update_of_ne h ..
  | delete _ exists_ _ =>
      cases exists_ with
      | false => rfl
      | true => exact Function.update_of_ne h ..

theorem Op.rollback_self (op : Op) (map : Map) : op.rollback map op.key = op.restores.or (map op.key) := by
  cases op with
  | read _ _ => rfl
  | write _ _ exists_ _ => cases exists_ <;> simp [rollback, restores, Map.put, key]
  | delete _ exists_ _ => cases exists_ <;> simp [rollback, restores, Map.put, key]

namespace State

/-- Rolling operations back leaves a key alone under which none of them puts a value back. -/
theorem undo_of_none {ops : List Op} {map : Map} {key : Str} (h : ∀ op ∈ ops, op.key = key → op.restores = none) :
    undo ops map key = map key := by
  induction ops generalizing map with
  | nil => rfl
  | cons op ops ih =>
      change undo ops (op.rollback map) key = map key
      rw [ih fun other hother => h other (List.mem_cons_of_mem _ hother)]
      by_cases hkey : key = op.key
      · subst hkey
        rw [op.rollback_self, h op List.mem_cons_self rfl, Option.none_or]
      · exact op.rollback_of_ne map hkey

/-- Where one of the operations puts a value back, the outcome does not depend on the map. -/
theorem undo_congr {ops : List Op} {map map' : Map} {key : Str}
    (h : ∃ op ∈ ops, op.key = key ∧ op.restores ≠ none) : undo ops map key = undo ops map' key := by
  induction ops generalizing map map' with
  | nil => obtain ⟨op, hop, -⟩ := h; cases hop
  | cons op ops ih =>
      change undo ops (op.rollback map) key = undo ops (op.rollback map') key
      by_cases hrest : ∃ other ∈ ops, other.key = key ∧ other.restores ≠ none
      · exact ih hrest
      · have hnone : ∀ other ∈ ops, other.key = key → other.restores = none := by
          intro other hother hkey
          by_contra hne
          exact hrest ⟨other, hother, hkey, hne⟩
        obtain ⟨found, hfound, hkey, hne⟩ := h
        rcases List.mem_cons.mp hfound with heq | hmem
        · subst heq hkey
          obtain ⟨value, hvalue⟩ := Option.ne_none_iff_exists'.mp hne
          rw [undo_of_none hnone, undo_of_none hnone, found.rollback_self, found.rollback_self, hvalue]
          rfl
        · exact absurd (hnone found hmem hkey) hne

/-- When the operations on a key that put a value back agree on it, that value is put back. -/
theorem undo_of_some {ops : List Op} {map : Map} {key value : Str}
    (hall : ∀ op ∈ ops, op.key = key → op.restores = none ∨ op.restores = some value)
    (hsome : ∃ op ∈ ops, op.key = key ∧ op.restores = some value) : undo ops map key = some value := by
  obtain ⟨op, hop, hkey, hvalue⟩ := hsome
  rw [@undo_congr ops map (fun _ => some value) key ⟨op, hop, hkey, by simp [hvalue]⟩]
  clear hop hkey hvalue
  have hconst : ∀ map : Map, map key = some value → undo ops map key = some value := by
    intro map hmap
    induction ops generalizing map with
    | nil => exact hmap
    | cons op ops ih =>
        refine ih (fun other hother => hall other (List.mem_cons_of_mem _ hother)) (op.rollback map) ?_
        by_cases hkey : key = op.key
        · subst hkey
          rw [op.rollback_self, hmap]
          rcases hall op List.mem_cons_self rfl with hnone | hvalue
          · rw [hnone]; rfl
          · rw [hvalue]; rfl
        · rw [op.rollback_of_ne map hkey, hmap]
  exact hconst _ rfl

/-- The keys of the map a step works on. -/
def touched (s : State) : Action → List Str
  | .execute _ op => [op.key]
  | .rollback who => s.opKeys who
  | _ => []

theorem undo_of_not_mem {ops : List Op} {map : Map} {key : Str} (h : key ∉ ops.map Op.key) :
    undo ops map key = map key :=
  undo_of_none fun op hop hkey => absurd (List.mem_map.mpr ⟨op, hop, hkey⟩) h

theorem Step.map_of_not_touched {s s' : State} {action : Action} (h : s.Step action s') {key : Str}
    (hkey : key ∉ s.touched action) : s'.map key = s.map key := by
  cases h.outcome with
  | granted _ _ => rfl
  | waits _ _ _ => rfl
  | refused _ _ _ => rfl
  | @executed trans op _ => exact op.execute_of_ne s.map (by simpa [touched] using hkey)
  | committed _ hcommit => rw [(commit_releases hcommit).2]
  | aborted _ hroll => rw [(rollback_releases hroll).2, undo_of_not_mem hkey]
  | rolledBack _ hroll =>
      rw [returnDeadlock, (rollback_releases hroll).2, undo_of_not_mem hkey]

/-- A transaction that can be rolled back or committed always is. -/
theorem rollback_step {s : State} (htables : s.Tables) {trans : Trans}
    (hphase : (s.trans trans).phase = .idle ∨ ∃ op, (s.trans trans).phase = .aborting op) :
    ∃ s', (∀ fuel, s.step fuel (.rollback trans) = some s') ∧ s'.map = undo (s.trans trans).ops s.map ∧
      s'.lockTable = s.lockTable.unlockAll trans (s.opKeys trans) ∧ (s'.trans trans).ops = (s.trans trans).ops ∧
      (s'.trans trans).phase = .idle := by
  obtain ⟨middle, hroll⟩ := htables.rollback_ends trans
  obtain ⟨hrel, hmap⟩ := rollback_releases hroll
  have hops : (middle.trans trans).ops = (s.trans trans).ops := by rw [hrel.trans, TransState.signal_ops]
  rcases hphase with hidle | ⟨op, habort⟩
  · refine ⟨middle, fun fuel => by rw [step, hidle]; exact hroll, hmap, hrel.lockTable, hops, ?_⟩
    rw [hrel.trans, TransState.signal_phase, hidle]
  · refine ⟨middle.returnDeadlock trans, fun fuel => by rw [step, habort, hroll]; rfl, hmap, hrel.lockTable, ?_, ?_⟩
    · rw [returnDeadlock_trans_self, hops]
    · rw [returnDeadlock_trans_self]

theorem commit_step {s : State} (htables : s.Tables) {trans : Trans} (hidle : (s.trans trans).phase = .idle) :
    ∃ s', (∀ fuel, s.step fuel (.commit trans) = some s') ∧ s'.map = s.map ∧
      s'.lockTable = s.lockTable.unlockAll trans (s.opKeys trans) := by
  obtain ⟨after, hcommit⟩ := htables.commit_ends trans
  obtain ⟨hrel, hmap⟩ := commit_releases hcommit
  exact ⟨after, fun fuel => by rw [step, if_pos hidle, hcommit], hmap, hrel.lockTable⟩

end State

/-! ### A transaction that was already rolled back -/

/-- A step of `trans` that changes neither the map nor a lock of anybody else. -/
def State.Undisturbed (s s' : State) (trans : Trans) : Prop :=
  s'.map = s.map ∧ ∀ other key, other ≠ trans →
    s'.lockTable.heldMode other key = s.lockTable.heldMode other key ∧
      (s'.holders key).count other = (s.holders key).count other

theorem State.locks_of_unlockAll {s s' : State} {trans : Trans}
    (h : s'.lockTable = s.lockTable.unlockAll trans (s.opKeys trans)) (other : Trans) (key : Str)
    (hne : other ≠ trans) : s'.lockTable.heldMode other key = s.lockTable.heldMode other key ∧
      (s'.holders key).count other = (s.holders key).count other := by
  constructor
  · rw [h, LockTable.heldMode_unlockAll _ _ _ hne]
  · rw [State.holders, h, LockTable.count_unlockAll, if_neg hne]
    rfl

/-- **A second rollback.** After `AddOp` has rolled a transaction back and the others went on, its
commit disturbs nobody, and its `Abort` disturbs nobody exactly when every key that the transaction
had found in the map, and then written or deleted, has the value again that the first rollback gave it. -/
theorem second_rollback_undisturbed_iff (map : Map) (before between : List Action) (s₀ s₁ s₂ : State)
    (trans : Trans) (op : Op) (h₀ : Run State.Step (State.init map) before s₀)
    (habort : (s₀.trans trans).phase = .aborting op) (hroll : s₀.Step (.rollback trans) s₁)
    (h₂ : Run State.Step s₁ between s₂) (hothers : ∀ action ∈ between, action.actor ≠ trans) :
    ∃ committed aborted, (∀ fuel, s₂.step fuel (.commit trans) = some committed) ∧
      (∀ fuel, s₂.step fuel (.rollback trans) = some aborted) ∧
      s₂.Undisturbed committed trans ∧
      (s₂.Undisturbed aborted trans ↔
        ∀ done ∈ (s₂.trans trans).ops, done.restores ≠ none → s₂.map done.key = s₁.map done.key) := by
  obtain ⟨after, hafter, hmap₁, -, hops₁, hidle₁⟩ := State.rollback_step (State.tables_run h₀) (Or.inr ⟨op, habort⟩)
  obtain ⟨fuel, hroll'⟩ := id hroll
  obtain rfl : after = s₁ := Option.some.inj ((hafter fuel).symm.trans hroll')
  have htrans := State.untouched_run h₂ hidle₁ hothers
  have htables := State.tables_run ((h₀.trans (.single hroll)).trans h₂)
  have hidle₂ : (s₂.trans trans).phase = .idle := by rw [htrans, hidle₁]
  have hops₂ : (s₂.trans trans).ops = (s₀.trans trans).ops := by rw [htrans, hops₁]
  obtain ⟨committed, hcommit, hmapc, hlockc⟩ := State.commit_step htables hidle₂
  obtain ⟨aborted, habort₂, hmapa, hlocka, -, -⟩ := State.rollback_step htables (Or.inl hidle₂)
  refine ⟨committed, aborted, hcommit, habort₂, ⟨hmapc, State.locks_of_unlockAll hlockc⟩, ?_⟩
  -- both rollbacks put the same values back, whatever the map was
  have hagain : ∀ key, (∃ done ∈ (s₂.trans trans).ops, done.key = key ∧ done.restores ≠ none) →
      aborted.map key = after.map key := by
    intro key hdone
    rw [hmapa, hmap₁, State.undo_congr hdone, hops₂]
  constructor
  · rintro ⟨hmap, -⟩ done hdone hrestores
    rw [← hagain done.key ⟨done, hdone, rfl, hrestores⟩, hmap]
  · intro hsame
    refine ⟨funext fun key => ?_, State.locks_of_unlockAll hlocka⟩
    by_cases hdone : ∃ done ∈ (s₂.trans trans).ops, done.key = key ∧ done.restores ≠ none
    · obtain ⟨done, hmem, rfl, hrestores⟩ := id hdone
      rw [hagain done.key hdone, hsame done hmem hrestores]
    · rw [hmapa]
      refine State.undo_of_none fun done hmem hkey => ?_
      by_contra hrestores
      exact hdone ⟨done, hmem, hkey, hrestores⟩

/-- A map with one entry, under the key that the second transaction of `firstSleeps` overwrites. -/
def oneEntry : Map := fun key => if key = [98] then some [48] else none

/-- The second transaction of `firstSleeps` asks for the key of the first one as well. -/
def secondRefused : List Action := firstSleeps ++ [.addOp 2 (.write [97] [50] false [])]

/-- The first transaction writes what the second one had to give back, and commits; the `Abort` of the
second one then takes the committed value away. -/
theorem second_rollback_overwrites : ∃ s₀ s₁ s₂ s₃, Run State.Step (State.init oneEntry) secondRefused s₀ ∧
    (s₀.trans 2).phase = .aborting (.write [97] [50] false []) ∧ s₀.Step (.rollback 2) s₁ ∧
    (s₁.trans 2).rets = [.ok, .deadlock] ∧
    Run State.Step s₁ [.retry 1, .execute 1 (.write [98] [49] false []), .commit 1] s₂ ∧
    s₂.Step (.rollback 2) s₃ ∧ s₂.map [98] = some [49] ∧ s₃.map [98] = some [48] := by
  refine ⟨_, _, _, _, @State.run_of_runAll 2 _ _ _ rfl, by decide, ⟨2, rfl⟩, by decide,
    @State.run_of_runAll 2 _ _ _ rfl, ⟨2, rfl⟩, by decide, by decide⟩

/-- Here only a third transaction writes and commits in between. -/
theorem second_rollback_undisturbed_iff_third :
    ∃ s₀ s₁ s₂ aborted, Run State.Step (State.init oneEntry) secondRefused s₀ ∧ s₀.Step (.rollback 2) s₁ ∧
      Run State.Step s₁ [.addOp 3 (.write [99] [51] false []), .execute 3 (.write [99] [51] false []), .commit 3] s₂ ∧
      s₂.Step (.rollback 2) aborted ∧ s₂.Undisturbed aborted 2 := by
  obtain ⟨s₀, s₁, s₂, hs₀, habort, hs₁, hs₂, hops, hmap⟩ : ∃ s₀ s₁ s₂,
      (State.init oneEntry).runAll 2 secondRefused = some s₀ ∧
      (s₀.trans 2).phase = .aborting (.write [97] [50] false []) ∧ s₀.step 2 (.rollback 2) = some s₁ ∧
      s₁.runAll 2 [.addOp 3 (.write [99] [51] false []), .execute 3 (.write [99] [51] false []), .commit 3] = some s₂ ∧
      (s₂.trans 2).ops = [.write [98] [50] true [48]] ∧ s₂.map [98] = s₁.map [98] :=
    ⟨_, _, _, rfl, by decide, rfl, rfl, by decide, by decide⟩
  have h₀ := State.run_of_runAll hs₀
  have h₂ := State.run_of_runAll hs₂
  obtain ⟨committed, aborted, -, hstep, -, hiff⟩ := second_rollback_undisturbed_iff _ _ _ s₀ s₁ s₂ 2 _ h₀ habort
    ⟨2, hs₁⟩ h₂ (by simp [Action.actor])
  refine ⟨s₀, s₁, s₂, aborted, h₀, ⟨2, hs₁⟩, h₂, ⟨2, hstep 2⟩, hiff.mpr ?_⟩
  intro done hdone _
  rw [hops, List.mem_singleton] at hdone
  rw [hdone]
  exact hmap

/-! ### A transaction that has its keys to itself -/

/-- A step during which `trans` goes on and nobody else works on the keys of the map that it uses. -/
def State.Alone (trans : Trans) (keys : List Str) (s : State) (action : Action) : Prop :=
  if action.actor = trans then action ≠ .commit trans ∧ action ≠ .rollback trans
  else ∀ key ∈ keys, key ∉ s.touched action

/-- `op` is what an operation becomes when it is executed on a cell with the content `before` and
leaves `after` in it. -/
def Op.Saved (op : Op) (before after : Option Str) : Prop :=
  ∃ origin : Op, (origin.act before).1.2 = op ∧ (origin.act before).2 = after

/-- An executed write or delete puts back exactly what it found. -/
theorem Op.Saved.restores {op : Op} {before after : Option Str} (h : op.Saved before after)
    (hwrite : op.lockType = .writelock) : op.restores = before := by
  obtain ⟨origin, rfl, -⟩ := h
  cases origin with
  | read key retval => cases before <;> cases hwrite
  | write key value exists_ origValue => cases before <;> rfl
  | delete key exists_ origValue => cases before <;> rfl

/-- An executed write leaves its value behind and an executed delete nothing. -/
theorem Op.Saved.after_eq {op : Op} {before after : Option Str} (h : op.Saved before after) :
    match op with
    | .read _ _ => after = before
    | .write _ value _ _ => after = some value
    | .delete _ _ _ => after = none := by
  obtain ⟨origin, rfl, rfl⟩ := h
  cases origin with
  | read key retval => cases before <;> rfl
  | write key value exists_ origValue => rfl
  | delete key exists_ origValue => cases before <;> rfl

/-- What has become of a key of the map since `s₀`, where `trans` had done nothing. -/
structure State.Traced (s₀ s : State) (trans : Trans) (key : Str) : Prop where
  /-- Reading changes nothing. -/
  unwritten : (∀ op ∈ (s.trans trans).ops, op.key = key → op.lockType ≠ .writelock) → s.map key = s₀.map key
  /-- The one write or delete was executed on the content of `s₀`. -/
  written : ∀ op ∈ (s.trans trans).ops, op.key = key → op.lockType = .writelock →
    op.Saved (s₀.map key) (s.map key)
  /-- No second one is granted. -/
  once : ∀ op, (s.trans trans).phase = .granted op → op.key = key → op.lockType = .writelock →
    ∀ done ∈ (s.trans trans).ops, done.key = key → done.lockType ≠ .writelock

/-- A transaction that holds a lock for a write or delete is not granted a second one on that key. -/
theorem LockTable.Grant.not_covers {table table' : LockTable} {trans : Trans} {op done : Op}
    (h : table.Grant trans op table') (hwrite : op.lockType = .writelock) (hkey : done.key = op.key)
    (hdone : done.lockType = .writelock) : ¬table.Covers trans done := by
  rintro ⟨info, hentry, -, hmode⟩
  have htype := hmode hdone
  rw [hkey] at hentry
  cases h with
  | fresh hnone => rw [hnone] at hentry; cases hentry
  | shared hop _ => rw [hop] at hwrite; cases hwrite
  | reread hop _ => rw [hop] at hwrite; cases hwrite
  | upgrade _ hsome =>
      rw [hsome, Option.some.injEq] at hentry
      subst hentry
      cases htype

theorem TransState.granted_of_signal {state : TransState} {op : Op} (h : state.signal.phase = .granted op) :
    state.phase = .granted op := by
  rw [TransState.signal_phase] at h
  split at h
  · cases h
  · exact h

namespace State

theorem Traced.congr {s₀ s s' : State} {trans : Trans} {key : Str} (h : s₀.Traced s trans key)
    (hmap : s'.map key = s.map key) (hops : (s'.trans trans).ops = (s.trans trans).ops)
    (hphase : ∀ op, (s'.trans trans).phase = .granted op → op.key = key → op.lockType = .writelock →
      ∀ done ∈ (s.trans trans).ops, done.key = key → done.lockType ≠ .writelock) : s₀.Traced s' trans key := by
  refine ⟨?_, ?_, ?_⟩
  · rw [hmap, hops]
    exact h.unwritten
  · rw [hmap, hops]
    exact h.written
  · rw [hops]
    exact hphase

/-- Executing the operation that was granted keeps track of the key. -/
theorem Traced.execute {s₀ s : State} {trans : Trans} {key : Str} (h : s₀.Traced s trans key) {op : Op}
    (hphase : (s.trans trans).phase = .granted op) : s₀.Traced (s.execute trans op) trans key := by
  obtain ⟨hsame, htype⟩ := op.execute_same s.map
  have hops : ((s.execute trans op).trans trans).ops = (s.trans trans).ops ++ [(op.execute s.map).1.2] := by simp
  have hidle : ∀ next, ((s.execute trans op).trans trans).phase ≠ .granted next := by simp
  by_cases hnew : op.key = key ∧ op.lockType = .writelock
  · -- the first write or delete of the key finds what was there in `s₀`
    obtain ⟨rfl, hwrite⟩ := hnew
    have hfirst := h.once op hphase rfl hwrite
    have hsaved : (op.execute s.map).1.2.Saved (s₀.map op.key) ((op.execute s.map).2 op.key) := by
      refine ⟨op, ?_, ?_⟩ <;> rw [← h.unwritten hfirst, op.execute_eq]
      · rfl
      · exact (Op.cells.exec_key op s.map).symm
    refine ⟨fun hnone => ?_, fun done hdone hkey hlock => ?_, fun next hnext => absurd hnext (hidle next)⟩
    · rw [hops] at hnone
      exact absurd (htype.trans hwrite) (hnone _ (by simp) hsame)
    · rw [hops] at hdone
      rcases List.mem_append.mp hdone with hold | hlast
      · exact absurd hlock (hfirst done hold hkey)
      · rw [List.mem_singleton.mp hlast]
        exact hsaved
  · have hmap : (s.execute trans op).map key = s.map key := by
      change (op.execute s.map).2 key = s.map key
      by_cases hkey : key = op.key
      · have hread : ¬Op.cells.writes op := fun hwrite => hnew ⟨hkey.symm, hwrite⟩
        rw [op.execute_eq]
        exact congrFun (Op.cells.exec_of_not_writes s.map hread) key
      · exact op.execute_of_ne s.map hkey
    refine ⟨fun hnone => ?_, fun done hdone hkey hlock => ?_, fun next hnext => absurd hnext (hidle next)⟩
    · rw [hmap]
      rw [hops] at hnone
      exact h.unwritten fun done hdone => hnone done (List.mem_append_left _ hdone)
    · rw [hmap]
      rw [hops] at hdone
      rcases List.mem_append.mp hdone with hold | hlast
      · exact h.written done hold hkey hlock
      · rw [List.mem_singleton.mp hlast, hsame] at hkey
        rw [List.mem_singleton.mp hlast, htype] at hlock
        exact absurd ⟨hkey, hlock⟩ hnew

theorem Step.traced {s₀ s s' : State} {action : Action} {trans : Trans} {keys : List Str} {key : Str}
    (h : s.Step action s') (halone : Alone trans keys s action) (hkey : key ∈ keys) (hcov : s.Covered trans)
    (ht : s₀.Traced s trans key) : s₀.Traced s' trans key := by
  unfold Alone at halone
  by_cases hactor : action.actor = trans
  swap
  · rw [if_neg hactor] at halone
    refine ht.congr (h.map_of_not_touched (halone key hkey)) (h.ops_of_ne (Ne.symm hactor)).1 fun op hphase => ?_
    apply ht.once op
    rcases h.frame (Ne.symm hactor) with heq | heq
    · rw [← heq]
      exact hphase
    · rw [heq] at hphase
      exact TransState.granted_of_signal hphase
  · rw [if_pos hactor] at halone
    subst hactor
    cases h.outcome with
    | @granted _ trans op table hreq hgrant =>
        have hactor := hreq.actor
        subst hactor
        refine ht.congr rfl (by rw [setPhase_trans_self]) fun next hphase hnext hwrite done hdone hdkey hlock => ?_
        simp only [setPhase_trans_self, Phase.granted.injEq] at hphase
        subst hphase
        exact hgrant.not_covers hwrite (hdkey.trans hnext.symm) hlock (hcov done (List.mem_append_left _ hdone))
    | waits hreq _ _ =>
        have hactor := hreq.actor
        subst hactor
        exact ht.congr rfl (by rw [setPhase_trans_self]) (by simp)
    | refused hreq _ _ =>
        have hactor := hreq.actor
        subst hactor
        exact ht.congr rfl (by rw [setPhase_trans_self]) (by simp)
    | executed hphase => exact ht.execute hphase
    | committed _ _ => exact absurd rfl halone.1
    | aborted _ _ => exact absurd rfl halone.2
    | rolledBack _ _ => exact absurd rfl halone.2

/-- The map is traced, key by key, while a transaction has its keys to itself. -/
theorem traced_run {s₀ s : State} {trans : Trans} {keys : List Str} {actions : List Action}
    (h : Run (Restrict Step (Alone trans keys)) s₀ actions s) (hidle : (s₀.trans trans).phase = .idle)
    (hops : (s₀.trans trans).ops = []) {key : Str} (hkey : key ∈ keys) : s₀.Traced s trans key := by
  have hinv : s.Covered trans ∧ s₀.Traced s trans key := by
    refine h.invariant (fun _ s => s.Covered trans ∧ s₀.Traced s trans key) ⟨?_, ?_⟩ ?_
    · intro op hop
      rw [State.held, hops, hidle] at hop
      cases hop
    · refine ⟨fun _ => rfl, ?_, ?_⟩
      · rw [hops]
        intro op hop
        cases hop
      · rw [hidle]
        intro op hop
        cases hop
    · rintro actions before action after - ⟨hcov, ht⟩ ⟨halone, hstep⟩
      refine ⟨?_, hstep.traced halone hkey hcov ht⟩
      have hkeep : action ≠ .commit trans ∧ action ≠ .rollback trans := by
        unfold Alone at halone
        split at halone
        · exact halone
        · next hactor => exact ⟨fun heq => hactor (by rw [heq]; rfl), fun heq => hactor (by rw [heq]; rfl)⟩
      exact hstep.covered hcov hkeep.1 hkeep.2
  exact hinv.2

theorem Traced.restores {s₀ s : State} {trans : Trans} {key : Str} (h : s₀.Traced s trans key) {op : Op}
    (hop : op ∈ (s.trans trans).ops) (hkey : op.key = key) : op.restores = none ∨ op.restores = s₀.map key := by
  cases hlock : op.lockType with
  | readlock =>
      cases op with
      | read _ _ => exact Or.inl rfl
      | write _ _ _ _ => cases hlock
      | delete _ _ _ => cases hlock
  | writelock => exact Or.inr ((h.written op hop hkey hlock).restores hlock)

/-- A key gets its old content back unless it was absent and a write has filled it. -/
theorem Traced.undo {s₀ s : State} {trans : Trans} {key : Str} (h : s₀.Traced s trans key) :
    undo (s.trans trans).ops s.map key = s₀.map key ↔
      ∀ value exists_ origValue, .write key value exists_ origValue ∈ (s.trans trans).ops → s₀.map key ≠ none := by
  have hleft : s₀.map key = none → State.undo (s.trans trans).ops s.map key = s.map key := by
    intro hnone
    refine undo_of_none fun op hop hkey => ?_
    rcases h.restores hop hkey with hop' | hop'
    · exact hop'
    · rw [hop', hnone]
  constructor
  · intro hundo value exists_ origValue hmem hnone
    have hafter := (h.written _ hmem rfl rfl).after_eq
    rw [hleft hnone, hnone] at hundo
    simp only [hundo, reduceCtorEq] at hafter
  · intro hcond
    by_cases hwrite : ∃ op ∈ (s.trans trans).ops, op.key = key ∧ op.lockType = .writelock
    · obtain ⟨op, hop, hkey, hlock⟩ := hwrite
      have hsaved := h.written op hop hkey hlock
      cases hcell : s₀.map key with
      | some value =>
          refine undo_of_some (fun done hdone hdkey => ?_) ⟨op, hop, hkey, ?_⟩
          · rw [← hcell]
            exact h.restores hdone hdkey
          · rw [← hcell]
            exact hsaved.restores hlock
      | none =>
          rw [hleft hcell]
          have hafter := hsaved.after_eq
          cases op with
          | read _ _ => cases hlock
          | write opKey value exists_ origValue =>
              have hopKey : opKey = key := hkey
              subst hopKey
              exact absurd hcell (hcond value exists_ origValue hop)
          | delete _ _ _ => exact hafter
    · have hnone : ∀ op ∈ (s.trans trans).ops, op.key = key → op.lockType ≠ .writelock :=
        fun op hop hkey hlock => hwrite ⟨op, hop, hkey, hlock⟩
      rw [undo_of_none, h.unwritten hnone]
      intro op hop hkey
      cases op with
      | read _ _ => rfl
      | write _ _ _ _ => exact absurd rfl (hnone _ hop hkey)
      | delete _ _ _ => exact absurd rfl (hnone _ hop hkey)

end State

/-- **Rollback restores the map** of a transaction that had its keys to itself, key by key, exactly when
every key it has written was there before. What was inserted stays. -/
theorem rollback_restores_iff (map : Map) (before during : List Action) (s₀ s₁ : State) (trans : Trans)
    (h₀ : Run State.Step (State.init map) before s₀) (hidle : (s₀.trans trans).phase = .idle)
    (hops : (s₀.trans trans).ops = [])
    (h₁ : Run (Restrict State.Step (State.Alone trans (s₁.opKeys trans))) s₀ during s₁)
    (hready : (s₁.trans trans).phase = .idle ∨ ∃ op, (s₁.trans trans).phase = .aborting op) :
    ∃ s₂, (∀ fuel, s₁.step fuel (.rollback trans) = some s₂) ∧
      ((∀ key, s₂.map key = if key ∈ s₁.opKeys trans then s₀.map key else s₁.map key) ↔
        ∀ key value exists_ origValue, .write key value exists_ origValue ∈ (s₁.trans trans).ops →
          s₀.map key ≠ none) := by
  obtain ⟨s₂, hroll, hmap, -, -, -⟩ := State.rollback_step (State.tables_run (h₀.trans h₁.forget)) hready
  have htraced : ∀ key ∈ s₁.opKeys trans, s₀.Traced s₁ trans key :=
    fun key hkey => State.traced_run h₁ hidle hops hkey
  refine ⟨s₂, hroll, ?_⟩
  rw [hmap]
  constructor
  · intro hrestored key value exists_ origValue hmem
    have hkey : key ∈ s₁.opKeys trans := List.mem_map.mpr ⟨_, hmem, rfl⟩
    have hundo := hrestored key
    rw [if_pos hkey] at hundo
    exact (htraced key hkey).undo.mp hundo value exists_ origValue hmem
  · intro hcond key
    split
    · next hkey => exact (htraced key hkey).undo.mpr (hcond key)
    · next hkey => exact State.undo_of_not_mem hkey

/-- The only operation of a transaction writes a key that is not in the map. -/
def insertOnly : List Action := [.addOp 1 (.write [97] [49] false []), .execute 1 (.write [97] [49] false [])]

/-- The inserted key survives the rollback. -/
theorem insertOnly_not_restored : ∃ s₁ s₂,
    Run (Restrict State.Step (State.Alone 1 (s₁.opKeys 1))) (State.init fun _ => none) insertOnly s₁ ∧
      s₁.Step (.rollback 1) s₂ ∧ (State.init fun _ => none).map [97] = none ∧ s₂.map [97] = some [49] := by
  refine ⟨_, _, State.restrict_cons 1 ⟨by simp, by simp⟩ rfl (State.restrict_cons 1 ⟨by simp, by simp⟩ rfl (.nil _)),
    ⟨1, rfl⟩, rfl, by decide⟩

/-- The second transaction writes another key; the first one overwrites and reads its own. -/
def overwrite : List Action :=
  [.addOp 1 (.write [98] [49] false []), .addOp 2 (.write [97] [50] false []),
    .execute 2 (.write [97] [50] false []), .execute 1 (.write [98] [49] false []), .addOp 1 (.read [98] []),
    .execute 1 (.read [98] [])]

theorem rollback_restores_iff_overwrite : ∃ s₁ s₂,
    Run (Restrict State.Step (State.Alone 1 (s₁.opKeys 1))) (State.init oneEntry) overwrite s₁ ∧
      s₁.Step (.rollback 1) s₂ ∧ s₁.map [98] = some [49] ∧ s₂.map [98] = some [48] := by
  obtain ⟨s₁, hrun, hidle, hops, hmap⟩ : ∃ s₁,
      Run (Restrict State.Step (State.Alone 1 [[98], [98]])) (State.init oneEntry) overwrite s₁ ∧
      (s₁.trans 1).phase = .idle ∧ (s₁.trans 1).ops = [.write [98] [49] true [48], .read [98] [49]] ∧
      s₁.map [98] = some [49] := by
    refine ⟨_, State.restrict_cons 1 ?_ rfl (State.restrict_cons 1 ?_ rfl (State.restrict_cons 1 ?_ rfl
      (State.restrict_cons 1 ?_ rfl (State.restrict_cons 1 ?_ rfl (State.restrict_cons 1 ?_ rfl (.nil _)))))),
      by decide, by decide, by decide⟩
    all_goals simp [State.Alone, Action.actor, State.touched, Op.key]
  have hkeys : s₁.opKeys 1 = [[98], [98]] := by
    rw [State.opKeys, hops]
    rfl
  rw [← hkeys] at hrun
  obtain ⟨s₂, hroll, hiff⟩ := rollback_restores_iff oneEntry [] overwrite (State.init oneEntry) s₁ 1 (.nil _) rfl rfl
    hrun (Or.inl hidle)
  have hfound : ∀ key value exists_ origValue, .write key value exists_ origValue ∈ (s₁.trans 1).ops →
      (State.init oneEntry).map key ≠ none := by
    intro key value exists_ origValue hmem
    simp only [hops, List.mem_cons, Op.write.injEq, reduceCtorEq, List.not_mem_nil, or_false] at hmem
    rw [hmem.1]
    decide
  have hrestored := hiff.mpr hfound [98]
  exact ⟨s₁, s₂, hrun, ⟨1, hroll 1⟩, hmap, by rw [hrestored, if_pos (by simp [hkeys])]; rfl⟩

end Thebends.Ydb
