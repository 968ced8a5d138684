import Mathlib.Order.GameAdd
import Thebends.YdbWaits

/-! When the search of `Ydb_DeadlockTree` ends. `IsBlockedBy` walks from both of its arguments in turn and
has no memory of where it has been, so it goes on for ever when both walks can: round a cycle of three
transactions or more, or between two transactions that each depend on themselves. A transaction that
waits to upgrade a read lock it shares depends on itself until it commits. -/

namespace Thebends.Ydb

open LibRun Relation

namespace DeadlockTable

/-- Dependencies on another transaction. -/
def Strict (table : DeadlockTable) (source target : Trans) : Prop := table.Edge source target ∧ target ≠ source

/-- No cycle but, at most, one transaction's dependency on itself. -/
structure Untangled (table : DeadlockTable) : Prop where
  strict : WellFounded (Function.swap table.Strict)
  single : ∀ x y, table.Edge x x → table.Edge y y → x = y

/-- **Every search ends** in an untangled table: a call either moves one of its two arguments along a
dependency on another transaction, or exchanges them at the one transaction that depends on itself, and
the next call has to move the other. -/
theorem Untangled.ends {table : DeadlockTable} (h : table.Untangled) (existing newTrans : Trans) :
    table.Ends existing newTrans := by
  induction existing, newTrans using Sym2.GameAdd.recursion h.strict with
  | _ existing newTrans ih =>
      apply ends_of_edges
      intro trans hedge hne
      by_cases hself : trans = existing
      · subst hself
        apply ends_of_edges
        intro other hother hne'
        have hforward : other ≠ newTrans := by
          rintro rfl
          exact hne (h.single trans other hedge hother)
        exact ih trans other (Sym2.GameAdd.snd ⟨hother, hforward⟩)
      · exact ih newTrans trans (Sym2.GameAdd.snd_fst ⟨hedge, hself⟩)

theorem Untangled.mono {table table' : DeadlockTable} (h : table.Untangled)
    (hle : ∀ source target, table'.Edge source target → table.Edge source target) : table'.Untangled where
  strict := Subrelation.wf (fun hedge => ⟨hle _ _ hedge.1, hedge.2⟩) h.strict
  single x y hx hy := h.single x y (hle x x hx) (hle y y hy)

theorem untangled_empty : Untangled fun _ => none where
  strict := ⟨fun _ => .intro _ fun _ hedge => absurd hedge.1 List.not_mem_nil⟩
  single _ _ hx := absurd hx List.not_mem_nil

end DeadlockTable

namespace DeadlockTree

/-- The holders that the loop of `AddOp` may link: those before the first one that is directly recorded
as blocked by the new transaction. -/
def linkable (tree : DeadlockTree) (newTrans : Trans) (items : List Trans) : List Trans :=
  items.takeWhile fun existing => newTrans ∉ tree.blockedBy.list existing

/-- Recording that a transaction waits for some holders closes no cycle, and gives no second transaction
a dependency on itself. -/
structure Fits (tree : DeadlockTree) (newTrans : Trans) (items : List Trans) : Prop where
  acyclic : ∀ existing ∈ tree.linkable newTrans items, existing ≠ newTrans →
    ¬TransGen tree.blockedBy.Edge existing newTrans
  single : newTrans ∈ tree.linkable newTrans items → ∀ other, other ≠ newTrans → ¬tree.blockedBy.Edge other other

/-- What the loop accepts is linkable. -/
theorem mem_linkable_of_accepted {fuel : Nat} {newTrans : Trans} {before : List Trans}
    {tree tree' : DeadlockTree} (h : tree.addDependencies fuel newTrans before = some (true, tree'))
    (after : List Trans) :
    ∀ existing ∈ before, existing ∈ tree.linkable newTrans (before ++ after) := by
  have hfree := (addDependencies_accepted h).2
  intro existing hmem
  rw [linkable, List.takeWhile_append_of_pos]
  · exact List.mem_append_left _ hmem
  · intro other hother
    exact decide_eq_true (hfree other hother)

/-- Linking what fits keeps the table untangled. -/
theorem Fits.untangled {tree : DeadlockTree} {newTrans : Trans} {items linked : List Trans}
    (h : tree.Fits newTrans items) (hlinked : ∀ existing ∈ linked, existing ∈ tree.linkable newTrans items)
    (hold : tree.blockedBy.Untangled) : (tree.linkAll newTrans linked).blockedBy.Untangled := by
  have hself : ∀ target, (tree.linkAll newTrans linked).blockedBy.Edge newTrans target →
      tree.blockedBy.Edge newTrans target ∨ target ∈ linked := by
    intro target hedge
    rw [DeadlockTable.Edge, list_linkAll_self] at hedge
    exact List.mem_append.mp hedge
  have hother : ∀ source target, source ≠ newTrans →
      (tree.linkAll newTrans linked).blockedBy.Edge source target → tree.blockedBy.Edge source target := by
    intro source target hne hedge
    rwa [DeadlockTable.Edge, list_linkAll_of_ne tree linked hne] at hedge
  constructor
  · apply @wellFounded_of_agree _ tree.blockedBy.Strict _ newTrans _ _ hold.strict
    · intro x y hx hedge
      exact ⟨hother x y hx hedge.1, hedge.2⟩
    · intro y hedge
      rcases hself y hedge.1 with hrecorded | hnew
      · exact Or.inl ⟨hrecorded, hedge.2⟩
      · refine Or.inr fun hchain => ?_
        rcases reflTransGen_iff_eq_or_transGen.mp hchain with heq | hcycle
        · exact hedge.2 heq.symm
        · exact h.acyclic y (hlinked y hnew) hedge.2 (TransGen.mono (fun _ _ hstrict => hstrict.1) _ _ hcycle)
  · -- a dependency on itself is an old one, or the new transaction's and then the only one
    have hnew : ∀ x, x ≠ newTrans → tree.blockedBy.Edge x x →
        ¬(tree.linkAll newTrans linked).blockedBy.Edge newTrans newTrans := by
      intro x hx hedge hloop
      rcases hself newTrans hloop with hrecorded | hmem
      · exact hx (hold.single x newTrans hedge hrecorded)
      · exact h.single (hlinked newTrans hmem) x hx hedge
    intro x y hx hy
    by_cases hxn : x = newTrans
    · by_cases hyn : y = newTrans
      · rw [hxn, hyn]
      · subst hxn
        exact absurd hx (hnew y hyn (hother y y hyn hy))
    · by_cases hyn : y = newTrans
      · subst hyn
        exact absurd hy (hnew x hxn (hother x x hxn hx))
      · exact hold.single x y (hother x x hxn hx) (hother y y hyn hy)

theorem Converse.untangled_remove {tree tree' : DeadlockTree} {trans : Trans} (h : tree.Converse)
    (hremove : tree.remove trans = some tree') (hold : tree.blockedBy.Untangled) : tree'.blockedBy.Untangled := by
  obtain ⟨after, hafter, -, hcount⟩ := h.remove trans
  rw [hremove, Option.some.injEq] at hafter
  subst hafter
  apply hold.mono
  intro source target hedge
  have hpos := List.count_pos_iff.mpr hedge
  rw [hcount] at hpos
  split at hpos
  · exact absurd hpos (Nat.lt_irrefl 0)
  · exact List.count_pos_iff.mp hpos

/-- The loop of `AddOp` ends when all the searches it starts do. -/
theorem addDependencies_ends {newTrans : Trans} {items : List Trans} {tree : DeadlockTree}
    (h : ∀ before existing after fuel tree', items = before ++ existing :: after →
      tree.addDependencies fuel newTrans before = some (true, tree') → tree'.blockedBy.Ends existing newTrans) :
    ∃ fuel result, tree.addDependencies fuel newTrans items = some result := by
  induction items generalizing tree with
  | nil => exact ⟨0, (true, tree), rfl⟩
  | cons existing rest ih =>
      obtain ⟨fuel, verdict, hsearch⟩ := h [] existing rest 0 tree rfl rfl
      cases verdict with
      | true => exact ⟨fuel, (false, tree), addDependencies_cons_iff.mpr (Or.inl ⟨hsearch, rfl⟩)⟩
      | false =>
          obtain ⟨fuel', result, hrest⟩ : ∃ fuel result,
              (tree.link existing newTrans).addDependencies fuel newTrans rest = some result := by
            apply ih
            intro before other after fuel' tree' hitems haccepted
            exact h (existing :: before) other after (max fuel fuel') tree' (by rw [hitems, List.cons_append])
              (addDependencies_cons_max hsearch haccepted)
          exact ⟨max fuel fuel', result, addDependencies_cons_max hsearch hrest⟩

end DeadlockTree

namespace State

/-- The requests whose dependencies fit into the table. -/
def KeepsUntangled (s : State) (action : Action) : Prop :=
  ∀ trans op, s.Requests action trans op → s.lockTable.Conflict trans op →
    s.deadlockTree.Fits trans (s.holders op.key)

theorem Step.untangled {s s' : State} {action : Action} (h : s.Step action s') (hkeeps : s.KeepsUntangled action)
    (htables : s.Tables) (hold : s.deadlockTree.blockedBy.Untangled) : s'.deadlockTree.blockedBy.Untangled := by
  cases h.outcome with
  | granted _ _ => exact hold
  | @waits _ trans op fuel tree hreq hconf hdep =>
      have hlinkable := DeadlockTree.mem_linkable_of_accepted hdep []
      rw [List.append_nil] at hlinkable
      obtain ⟨rfl, -⟩ := DeadlockTree.addDependencies_accepted hdep
      exact (hkeeps trans op hreq hconf).untangled hlinkable hold
  | @refused _ trans op fuel tree hreq hconf hdep =>
      obtain ⟨before, existing, after, hholders, haccepted, -⟩ := DeadlockTree.addDependencies_stops hdep
      have hlinkable := DeadlockTree.mem_linkable_of_accepted haccepted (existing :: after)
      rw [← hholders] at hlinkable
      obtain ⟨rfl, -⟩ := DeadlockTree.addDependencies_accepted haccepted
      exact (hkeeps trans op hreq hconf).untangled hlinkable hold
  | executed _ => exact hold
  | committed _ hcommit => exact htables.converse.untangled_remove (commit_releases hcommit).1.deadlockTree hold
  | aborted _ hroll => exact htables.converse.untangled_remove (rollback_releases hroll).1.deadlockTree hold
  | rolledBack _ hroll => exact htables.converse.untangled_remove (rollback_releases hroll).1.deadlockTree hold

theorem untangled_run {map : Map} {actions : List Action} {s : State}
    (h : Run (Restrict Step KeepsUntangled) (init map) actions s) : s.deadlockTree.blockedBy.Untangled :=
  h.invariant (fun _ s => s.deadlockTree.blockedBy.Untangled) DeadlockTable.untangled_empty
    fun _ _ _ _ hrun hold hstep => hstep.2.untangled hstep.1 (tables_run hrun.forget) hold

end State

/-- **The search for a deadlock ends** in a run whose requests all fit into the table: between the steps,
and in the loop of the next request after every holder it has accepted, so that this loop ends too. -/
theorem searches_end (map : Map) (actions : List Action) (s : State)
    (h : Run (Restrict State.Step State.KeepsUntangled) (State.init map) actions s) :
    (∀ existing newTrans, s.deadlockTree.blockedBy.Ends existing newTrans) ∧
      ∀ action trans op, s.KeepsUntangled action → s.Requests action trans op →
        s.lockTable.Conflict trans op →
        (∀ before after fuel tree, s.holders op.key = before ++ after →
          s.deadlockTree.addDependencies fuel trans before = some (true, tree) →
          ∀ existing newTrans, tree.blockedBy.Ends existing newTrans) ∧
        ∃ fuel result, s.deadlockTree.addDependencies fuel trans (s.holders op.key) = some result := by
  have hold := State.untangled_run h
  refine ⟨hold.ends, fun action trans op hkeeps hreq hconf => ?_⟩
  have hbetween : ∀ before after fuel tree, s.holders op.key = before ++ after →
      s.deadlockTree.addDependencies fuel trans before = some (true, tree) →
      ∀ existing newTrans, tree.blockedBy.Ends existing newTrans := by
    intro before after fuel tree hholders haccepted
    have hlinkable := DeadlockTree.mem_linkable_of_accepted haccepted after
    rw [← hholders] at hlinkable
    obtain ⟨rfl, -⟩ := DeadlockTree.addDependencies_accepted haccepted
    exact ((hkeeps trans op hreq hconf).untangled hlinkable hold).ends
  refine ⟨hbetween, DeadlockTree.addDependencies_ends ?_⟩
  intro before existing after fuel tree hholders haccepted
  exact hbetween before (existing :: after) fuel tree hholders haccepted existing trans

/-- Two transactions each read a key that a third one reads after them, and ask to write it; the third commits,
and they both write. -/
def twoUpgrades : List Action :=
  [.addOp 1 (.read [97] []), .execute 1 (.read [97] []), .addOp 2 (.read [98] []), .execute 2 (.read [98] []),
    .addOp 3 (.read [97] []), .execute 3 (.read [97] []), .addOp 3 (.read [98] []), .execute 3 (.read [98] []),
    .addOp 1 (.write [97] [49] false []), .addOp 2 (.write [98] [50] false []), .commit 3,
    .retry 1, .execute 1 (.write [97] [49] false []), .retry 2, .execute 2 (.write [98] [50] false [])]

theorem DeadlockTable.not_ends_of_selves {table : DeadlockTable} (h₁ : table 1 = some [1]) (h₂ : table 2 = some [2]) :
    ∀ fuel, table.isBlockedBy fuel 1 2 = none ∧ table.isBlockedBy fuel 2 1 = none := by
  intro fuel
  induction fuel with
  | zero => exact ⟨rfl, rfl⟩
  | succ fuel ih =>
      rw [isBlockedBy, isBlockedBy, h₁, h₂]
      simp [scan, ih.1, ih.2]

/-- When one of them then asks for the other's key, the search goes on for ever. -/
theorem twoUpgrades_searches : ∃ s, Run State.Step (State.init fun _ => none) twoUpgrades s ∧
    ¬s.deadlockTree.blockedBy.Ends 1 2 ∧ (s.trans 2).phase = .idle ∧
    ∀ s', ¬s.Step (.addOp 2 (.write [97] [50] false [])) s' := by
  obtain ⟨s, hs, h₁, h₂, hidle, hentry⟩ : ∃ s, (State.init fun _ => none).runAll 3 twoUpgrades = some s ∧
      s.deadlockTree.blockedBy 1 = some [1] ∧ s.deadlockTree.blockedBy 2 = some [2] ∧ (s.trans 2).phase = .idle ∧
      s.lockTable [97] = some ⟨.writelock, [1]⟩ := ⟨_, rfl, by decide, by decide, by decide, by decide⟩
  have hnever := fun fuel => (DeadlockTable.not_ends_of_selves h₁ h₂ fuel).1
  refine ⟨s, State.run_of_runAll hs, ?_, hidle, ?_⟩
  · rintro ⟨fuel, verdict, hsearch⟩
    rw [hnever] at hsearch
    cases hsearch
  · rintro s' ⟨fuel, hstep⟩
    have hlock : s.lockTable.lock 2 (.write [97] [50] false []) = (false, s.lockTable) := by
      apply LockTable.lock_of_conflict
      exact ⟨_, hentry, Or.inl rfl, by simp [Op.lockType], by simp⟩
    have hholders : s.lockTable.getLockHolders [97] = some [1] := by rw [LockTable.getLockHolders, hentry]; rfl
    rw [State.step, if_pos hidle, State.tryLock, hlock] at hstep
    simp [Op.key, hholders, DeadlockTree.addDependencies, DeadlockTree.addDependency, hnever] at hstep

/-- One of them waits for the lock it shares, and depends on itself and on the other reader. -/
def oneUpgrade : List Action :=
  [.addOp 1 (.read [97] []), .execute 1 (.read [97] []), .addOp 3 (.read [97] []), .execute 3 (.read [97] []),
    .addOp 1 (.write [97] [49] false [])]

theorem searches_end_oneUpgrade :
    ∃ s, Run (Restrict State.Step State.KeepsUntangled) (State.init fun _ => none) oneUpgrade s ∧
      s.deadlockTree.blockedBy.list 1 = [1, 3] ∧ s.deadlockTree.blockedBy.Ends 1 3 ∧
      ∃ fuel result, s.deadlockTree.addDependencies fuel 3 (s.holders [97]) = some result := by
  have hempty : ∀ s : State, s.deadlockTree = .empty → ∀ action, s.KeepsUntangled action := by
    intro s htree action trans op _ _
    refine ⟨fun existing _ _ hchain => ?_, fun _ other _ hedge => ?_⟩
    · obtain ⟨next, hedge, -⟩ := TransGen.head'_iff.mp hchain
      rw [htree] at hedge
      exact absurd hedge List.not_mem_nil
    · rw [htree] at hedge
      exact absurd hedge List.not_mem_nil
  obtain ⟨s, hrun, hlist, hidle, hentry⟩ :
      ∃ s, Run (Restrict State.Step State.KeepsUntangled) (State.init fun _ => none) oneUpgrade s ∧
        s.deadlockTree.blockedBy.list 1 = [1, 3] ∧ (s.trans 3).phase = .idle ∧
        s.lockTable [97] = some ⟨.readlock, [1, 3]⟩ :=
    ⟨_, State.restrict_cons 2 (hempty _ rfl _) rfl (State.restrict_cons 2 (hempty _ rfl _) rfl
      (State.restrict_cons 2 (hempty _ rfl _) rfl (State.restrict_cons 2 (hempty _ rfl _) rfl
      (State.restrict_cons 2 (hempty _ rfl _) rfl (.nil _))))), by decide, by decide, by decide⟩
  have hholders : s.holders [97] = [1, 3] := LockTable.holders_of_some hentry
  have hlinkable : s.deadlockTree.linkable 3 (s.holders [97]) = [] := by
    simp [DeadlockTree.linkable, hholders, hlist]
  have hkeeps : s.KeepsUntangled (.addOp 3 (.write [97] [51] false [])) := by
    rintro trans op (⟨hact, -⟩ | ⟨hact, -⟩) - <;> cases hact
    refine ⟨fun existing hmem => ?_, fun hmem => ?_⟩
    · rw [Op.key, hlinkable] at hmem
      cases hmem
    · rw [Op.key, hlinkable] at hmem
      cases hmem
  have hconf : s.lockTable.Conflict 3 (.write [97] [51] false []) := ⟨_, hentry, Or.inl rfl, by simp, by simp⟩
  obtain ⟨hends, hloop⟩ := searches_end _ oneUpgrade s hrun
  exact ⟨s, hrun, hlist, hends 1 3, (hloop _ 3 _ hkeeps (Or.inl ⟨rfl, hidle⟩) hconf).2⟩

end Thebends.Ydb
