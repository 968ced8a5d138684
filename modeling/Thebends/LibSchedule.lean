import Mathlib.Data.List.Nodup
import Mathlib.Logic.Function.Basic

/-! Rigorous schedules of transactions over a store of cells, and their serializability in commit
order. An operation reads and rewrites one cell; a schedule is rigorous when an operation is never
executed while another transaction that has not committed yet has executed a conflicting one. The
result is the reordering theorem: at every moment the store differs from the serial execution of the
committed transactions only where a transaction still running has written, and every transaction
sees what it would see if it ran right after the transactions committed before it. -/

namespace Thebends.LibSchedule

variable {T K C O R : Type} [DecidableEq T] [DecidableEq K]

/-- Operations on a store of cells: the cell an operation touches, its effect and its result there,
and which operations may change their cell. -/
structure CellOps (K C O R : Type) where
  key : O → K
  act : O → C → R × C
  writes : O → Prop
  reads_keep : ∀ op cell, ¬writes op → (act op cell).2 = cell

namespace CellOps

variable (D : CellOps K C O R)

/-- The store after one operation. -/
def exec (op : O) (store : K → C) : K → C :=
  Function.update store (D.key op) (D.act op (store (D.key op))).2

/-- What one operation returns. -/
def result (op : O) (store : K → C) : R := (D.act op (store (D.key op))).1

/-- The store after a list of operations. -/
def runOps : (K → C) → List O → K → C
  | store, [] => store
  | store, op :: ops => runOps (D.exec op store) ops

/-- What a list of operations returns. -/
def results : (K → C) → List O → List R
  | _, [] => []
  | store, op :: ops => D.result op store :: results (D.exec op store) ops

@[simp] theorem exec_key (op : O) (store : K → C) :
    D.exec op store (D.key op) = (D.act op (store (D.key op))).2 := by
  simp [exec]

theorem exec_of_ne {op : O} {key : K} (store : K → C) (h : key ≠ D.key op) :
    D.exec op store key = store key := by
  simp [exec, h]

theorem exec_of_not_writes {op : O} (store : K → C) (h : ¬D.writes op) : D.exec op store = store := by
  funext key
  by_cases hkey : key = D.key op
  · subst hkey
    rw [exec_key, D.reads_keep op _ h]
  · exact D.exec_of_ne store hkey

theorem runOps_append (store : K → C) (first second : List O) :
    D.runOps store (first ++ second) = D.runOps (D.runOps store first) second := by
  induction first generalizing store with
  | nil => rfl
  | cons op ops ih => exact ih (D.exec op store)

theorem results_append (store : K → C) (first second : List O) :
    D.results store (first ++ second) =
      D.results store first ++ D.results (D.runOps store first) second := by
  induction first generalizing store with
  | nil => rfl
  | cons op ops ih =>
      simp only [List.cons_append, results, runOps, ih (D.exec op store)]

/-- Operations that leave a cell alone, or only read it, do not change it. -/
theorem runOps_of_not_writes (store : K → C) (ops : List O) (key : K)
    (h : ∀ op ∈ ops, D.key op = key → ¬D.writes op) : D.runOps store ops key = store key := by
  induction ops generalizing store with
  | nil => rfl
  | cons op ops ih =>
      rw [runOps, ih _ fun op' hop' => h op' (List.mem_cons_of_mem _ hop')]
      by_cases hkey : D.key op = key
      · rw [D.exec_of_not_writes store (h op List.mem_cons_self hkey)]
      · exact D.exec_of_ne store (Ne.symm hkey)

/-- A list of operations only depends on the cells it touches. -/
theorem runOps_congr {left right : K → C} (ops : List O)
    (h : ∀ op ∈ ops, left (D.key op) = right (D.key op)) :
    D.results left ops = D.results right ops ∧
      ∀ key, left key = right key → D.runOps left ops key = D.runOps right ops key := by
  induction ops generalizing left right with
  | nil => exact ⟨rfl, fun _ hkey => hkey⟩
  | cons op ops ih =>
      have hcell := h op List.mem_cons_self
      have hexec : ∀ key, left key = right key → D.exec op left key = D.exec op right key := by
        intro key hkey
        by_cases hop : key = D.key op
        · subst hop
          rw [exec_key, exec_key, hcell]
        · rw [D.exec_of_ne left hop, D.exec_of_ne right hop, hkey]
      obtain ⟨hres, hrun⟩ := ih fun op' hop' => hexec _ (h op' (List.mem_cons_of_mem _ hop'))
      refine ⟨?_, fun key hkey => hrun key (hexec key hkey)⟩
      rw [results, results, hres, result, result, hcell]

end CellOps

/-- What a schedule is made of: executed operations and commits. -/
inductive Event (T O : Type)
  | exec (trans : T) (op : O)
  | commit (trans : T)

/-- The operations of one transaction, in the order of the schedule. -/
def program (trans : T) : List (Event T O) → List O
  | [] => []
  | .exec other op :: events => if other = trans then op :: program trans events else program trans events
  | .commit _ :: events => program trans events

/-- The transactions in the order of their commits. -/
def commits : List (Event T O) → List T
  | [] => []
  | .exec _ _ :: events => commits events
  | .commit other :: events => other :: commits events

theorem program_append (trans : T) (first second : List (Event T O)) :
    program trans (first ++ second) = program trans first ++ program trans second := by
  induction first with
  | nil => rfl
  | cons event events ih =>
      cases event with
      | exec other op =>
          simp only [List.cons_append, program, ih]
          split <;> rfl
      | commit other => exact ih

omit [DecidableEq T] in
theorem commits_append (first second : List (Event T O)) :
    commits (first ++ second) = commits first ++ commits second := by
  induction first with
  | nil => rfl
  | cons event events ih =>
      cases event with
      | exec other op => exact ih
      | commit other => simp only [List.cons_append, commits, ih]

@[simp] theorem program_exec_self (trans : T) (op : O) (events : List (Event T O)) :
    program trans (events ++ [.exec trans op]) = program trans events ++ [op] := by
  simp [program_append, program]

theorem program_exec_of_ne {trans other : T} (h : other ≠ trans) (op : O) (events : List (Event T O)) :
    program trans (events ++ [.exec other op]) = program trans events := by
  simp [program_append, program, h]

@[simp] theorem program_commit (trans other : T) (events : List (Event T O)) :
    program trans (events ++ [.commit other]) = program trans events := by
  simp [program_append, program]

omit [DecidableEq T] in
@[simp] theorem commits_exec (trans : T) (op : O) (events : List (Event T O)) :
    commits (events ++ [.exec trans op]) = commits events := by
  simp [commits_append, commits]

omit [DecidableEq T] in
@[simp] theorem commits_commit (trans : T) (events : List (Event T O)) :
    commits (events ++ [.commit trans]) = commits events ++ [trans] := by
  simp [commits_append, commits]

namespace CellOps

variable (D : CellOps K C O R)

/-- The store after a schedule. -/
def replay : (K → C) → List (Event T O) → K → C
  | store, [] => store
  | store, .exec _ op :: events => replay (D.exec op store) events
  | store, .commit _ :: events => replay store events

/-- What one transaction's operations return in a schedule. -/
def outputs (trans : T) : (K → C) → List (Event T O) → List R
  | _, [] => []
  | store, .exec other op :: events =>
      if other = trans then D.result op store :: outputs trans (D.exec op store) events
      else outputs trans (D.exec op store) events
  | store, .commit _ :: events => outputs trans store events

/-- The store after running transactions one after another. -/
def serial (store : K → C) (prog : T → List O) (order : List T) : K → C :=
  order.foldl (fun current trans => D.runOps current (prog trans)) store

omit [DecidableEq T] in
theorem replay_append (store : K → C) (first second : List (Event T O)) :
    D.replay store (first ++ second) = D.replay (D.replay store first) second := by
  induction first generalizing store with
  | nil => rfl
  | cons event events ih =>
      cases event with
      | exec other op => exact ih (D.exec op store)
      | commit other => exact ih store

theorem outputs_append (trans : T) (store : K → C) (first second : List (Event T O)) :
    D.outputs trans store (first ++ second) =
      D.outputs trans store first ++ D.outputs trans (D.replay store first) second := by
  induction first generalizing store with
  | nil => rfl
  | cons event events ih =>
      cases event with
      | exec other op =>
          simp only [List.cons_append, outputs, replay, ih]
          split <;> rfl
      | commit other => exact ih store

omit [DecidableEq T] in
@[simp] theorem replay_exec (store : K → C) (trans : T) (op : O) (events : List (Event T O)) :
    D.replay store (events ++ [.exec trans op]) = D.exec op (D.replay store events) := by
  simp [replay_append, replay]

omit [DecidableEq T] in
@[simp] theorem replay_commit (store : K → C) (trans : T) (events : List (Event T O)) :
    D.replay store (events ++ [.commit trans]) = D.replay store events := by
  simp [replay_append, replay]

@[simp] theorem outputs_exec_self (store : K → C) (trans : T) (op : O) (events : List (Event T O)) :
    D.outputs trans store (events ++ [.exec trans op]) =
      D.outputs trans store events ++ [D.result op (D.replay store events)] := by
  simp [outputs_append, outputs]

theorem outputs_exec_of_ne {trans other : T} (h : other ≠ trans) (store : K → C) (op : O)
    (events : List (Event T O)) :
    D.outputs trans store (events ++ [.exec other op]) = D.outputs trans store events := by
  simp [outputs_append, outputs, h]

@[simp] theorem outputs_commit (store : K → C) (trans other : T) (events : List (Event T O)) :
    D.outputs trans store (events ++ [.commit other]) = D.outputs trans store events := by
  simp [outputs_append, outputs]

omit [DecidableEq T] in
theorem serial_snoc (store : K → C) (prog : T → List O) (order : List T) (trans : T) :
    D.serial store prog (order ++ [trans]) = D.runOps (D.serial store prog order) (prog trans) := by
  simp [serial]

omit [DecidableEq T] in
theorem serial_congr {prog prog' : T → List O} (store : K → C) (order : List T)
    (h : ∀ trans ∈ order, prog trans = prog' trans) :
    D.serial store prog order = D.serial store prog' order := by
  induction order generalizing store with
  | nil => rfl
  | cons trans order ih =>
      change D.serial (D.runOps store (prog trans)) prog order =
        D.serial (D.runOps store (prog' trans)) prog' order
      rw [h trans List.mem_cons_self]
      exact ih _ fun other hother => h other (List.mem_cons_of_mem _ hother)

/-- No operation is executed while another transaction still running has executed a conflicting one
on the same cell, and a transaction does nothing after its commit. -/
inductive Rigorous : List (Event T O) → Prop
  | nil : Rigorous []
  | exec {events : List (Event T O)} {trans : T} {op : O} : Rigorous events →
      trans ∉ commits events →
      (∀ other, other ≠ trans → other ∉ commits events → ∀ op' ∈ program other events,
        D.key op' = D.key op → ¬D.writes op ∧ ¬D.writes op') →
      Rigorous (events ++ [.exec trans op])
  | commit {events : List (Event T O)} {trans : T} : Rigorous events →
      trans ∉ commits events → Rigorous (events ++ [.commit trans])

/-- What a rigorous schedule has in common with the serial execution of its committed
transactions. -/
structure Agrees (store : K → C) (events : List (Event T O)) : Prop where
  /-- Transactions still running do not conflict with each other. -/
  apart : ∀ trans other, trans ∉ commits events → other ∉ commits events → trans ≠ other →
    ∀ op ∈ program trans events, ∀ op' ∈ program other events, D.key op = D.key op' →
      ¬D.writes op ∧ ¬D.writes op'
  /-- A cell that differs from the serial one was written by a transaction still running. -/
  settled : ∀ key, (∃ trans, trans ∉ commits events ∧ ∃ op ∈ program trans events,
      D.key op = key ∧ D.writes op) ∨
    D.replay store events key = D.serial store (fun trans => program trans events) (commits events) key
  /-- A transaction still running left the cells it touched as it would have left them alone. -/
  running : ∀ trans, trans ∉ commits events → ∀ op ∈ program trans events,
    D.replay store events (D.key op) =
      D.runOps (D.serial store (fun other => program other events) (commits events))
        (program trans events) (D.key op)
  /-- It saw what it would have seen running right now. -/
  seen : ∀ trans, trans ∉ commits events → D.outputs trans store events =
    D.results (D.serial store (fun other => program other events) (commits events))
      (program trans events)
  /-- A committed transaction saw what it would have seen right after those committed before. -/
  committed : ∀ before trans after, commits events = before ++ trans :: after →
    D.outputs trans store events =
      D.results (D.serial store (fun other => program other events) before) (program trans events)

theorem agrees_nil (store : K → C) : D.Agrees store ([] : List (Event T O)) where
  apart _ _ _ _ _ _ hop := by cases hop
  settled _ := Or.inr rfl
  running _ _ _ hop := by cases hop
  seen _ _ := rfl
  committed before trans after h := by
    rw [commits] at h
    cases before <;> cases h

/-- The cell an operation is about to touch holds what its transaction would find running alone
after the committed ones. -/
theorem Agrees.next {store : K → C} {events : List (Event T O)} (h : D.Agrees store events) {trans : T}
    {op : O} (htrans : trans ∉ commits events)
    (hrig : ∀ other, other ≠ trans → other ∉ commits events → ∀ op' ∈ program other events,
      D.key op' = D.key op → ¬D.writes op ∧ ¬D.writes op') :
    D.replay store events (D.key op) =
      D.runOps (D.serial store (fun other => program other events) (commits events))
        (program trans events) (D.key op) := by
  by_cases htouched : ∃ op' ∈ program trans events, D.key op' = D.key op
  · obtain ⟨op', hop', hkey⟩ := htouched
    rw [← hkey]
    exact h.running trans htrans op' hop'
  · rw [D.runOps_of_not_writes _ _ _ fun op' hop' hkey => absurd ⟨op', hop', hkey⟩ htouched]
    rcases h.settled (D.key op) with ⟨other, hother, op', hop', hkey, hwrites⟩ | hsettled
    · have hne : other ≠ trans := by
        rintro rfl
        exact htouched ⟨op', hop', hkey⟩
      exact absurd hwrites (hrig other hne hother op' hop' hkey).2
    · exact hsettled

/-- A transaction that has not committed does not show in the serial execution. -/
theorem serial_exec (store : K → C) (events : List (Event T O)) {trans : T} (op : O) {order : List T}
    (horder : trans ∉ order) :
    D.serial store (fun other => program other (events ++ [.exec trans op])) order =
      D.serial store (fun other => program other events) order := by
  apply D.serial_congr
  intro other hother
  refine program_exec_of_ne ?_ op events
  rintro rfl
  exact horder hother

theorem mem_program_exec {trans other : T} {op op' : O} {events : List (Event T O)}
    (h : op' ∈ program other (events ++ [.exec trans op])) :
    op' ∈ program other events ∨ (other = trans ∧ op' = op) := by
  by_cases ho : other = trans
  · subst ho
    rw [program_exec_self] at h
    rcases List.mem_append.mp h with hold | hnew
    · exact Or.inl hold
    · exact Or.inr ⟨rfl, List.mem_singleton.mp hnew⟩
  · rw [program_exec_of_ne (Ne.symm ho)] at h
    exact Or.inl h

/-! One more operation of a transaction that has not committed, which conflicts with nobody. -/

section Exec

variable {store : K → C} {events : List (Event T O)} {trans : T} {op : O}

theorem Agrees.apart_exec (h : D.Agrees store events)
    (hrig : ∀ other, other ≠ trans → other ∉ commits events → ∀ op' ∈ program other events,
      D.key op' = D.key op → ¬D.writes op ∧ ¬D.writes op')
    {first second : T} (hfirst : first ∉ commits events) (hsecond : second ∉ commits events) (hne : first ≠ second)
    {op₁ op₂ : O} (hop₁ : op₁ ∈ program first (events ++ [.exec trans op]))
    (hop₂ : op₂ ∈ program second (events ++ [.exec trans op])) (hkey : D.key op₁ = D.key op₂) :
    ¬D.writes op₁ ∧ ¬D.writes op₂ := by
  rcases mem_program_exec hop₁ with hold₁ | ⟨rfl, rfl⟩
  · rcases mem_program_exec hop₂ with hold₂ | ⟨rfl, rfl⟩
    · exact h.apart first second hfirst hsecond hne op₁ hold₁ op₂ hold₂ hkey
    · exact (hrig first hne hfirst op₁ hold₁ hkey).symm
  · rcases mem_program_exec hop₂ with hold₂ | ⟨heq, -⟩
    · exact hrig second hne.symm hsecond op₂ hold₂ hkey.symm
    · exact absurd heq.symm hne

theorem Agrees.settled_exec (h : D.Agrees store events) (htrans : trans ∉ commits events) (key : K) :
    (∃ other, other ∉ commits events ∧ ∃ op' ∈ program other (events ++ [.exec trans op]),
      D.key op' = key ∧ D.writes op') ∨
    D.exec op (D.replay store events) key =
      D.serial store (fun other => program other events) (commits events) key := by
  by_cases hwritten : D.writes op ∧ D.key op = key
  · exact Or.inl ⟨trans, htrans, op, by simp, hwritten.2, hwritten.1⟩
  · have hsame : D.exec op (D.replay store events) key = D.replay store events key := by
      by_cases hwrites : D.writes op
      · exact D.exec_of_ne _ fun hkey => hwritten ⟨hwrites, hkey.symm⟩
      · rw [D.exec_of_not_writes _ hwrites]
    rw [hsame]
    refine (h.settled key).imp_left ?_
    rintro ⟨other, hother, op', hop', hrest⟩
    exact ⟨other, hother, op', by rw [program_append]; exact List.mem_append_left _ hop', hrest⟩

theorem Agrees.running_exec (h : D.Agrees store events)
    (hrig : ∀ other, other ≠ trans → other ∉ commits events → ∀ op' ∈ program other events,
      D.key op' = D.key op → ¬D.writes op ∧ ¬D.writes op')
    (hnext : D.replay store events (D.key op) =
      D.runOps (D.serial store (fun other => program other events) (commits events)) (program trans events) (D.key op))
    {other : T} (hother : other ∉ commits events) {op' : O}
    (hop' : op' ∈ program other (events ++ [.exec trans op])) :
    D.exec op (D.replay store events) (D.key op') =
      D.runOps (D.serial store (fun other => program other events) (commits events))
        (program other (events ++ [.exec trans op])) (D.key op') := by
  by_cases ho : other = trans
  · subst ho
    rw [program_exec_self, D.runOps_append]
    change D.exec op _ _ = D.exec op _ _
    by_cases hkey : D.key op' = D.key op
    · rw [hkey, exec_key, exec_key, hnext]
    · rw [D.exec_of_ne _ hkey, D.exec_of_ne _ hkey]
      rcases mem_program_exec hop' with hold | ⟨-, hnew⟩
      · exact h.running other hother op' hold
      · exact absurd (congrArg D.key hnew) hkey
  · rw [program_exec_of_ne (Ne.symm ho)] at hop' ⊢
    rw [← h.running other hother op' hop']
    by_cases hkey : D.key op' = D.key op
    · rw [D.exec_of_not_writes _ (hrig other ho hother op' hop' hkey).1]
    · exact D.exec_of_ne _ hkey

theorem Agrees.exec (h : D.Agrees store events) (htrans : trans ∉ commits events)
    (hrig : ∀ other, other ≠ trans → other ∉ commits events → ∀ op' ∈ program other events,
      D.key op' = D.key op → ¬D.writes op ∧ ¬D.writes op') :
    D.Agrees store (events ++ [.exec trans op]) := by
  have hnext := h.next D htrans hrig
  have hserial := D.serial_exec store events op htrans
  refine ⟨?_, ?_, ?_, ?_, ?_⟩
  · intro first second hfirst hsecond hne op₁ hop₁ op₂ hop₂ hkey
    rw [commits_exec] at hfirst hsecond
    exact h.apart_exec D hrig hfirst hsecond hne hop₁ hop₂ hkey
  · intro key
    rw [commits_exec, hserial, replay_exec]
    exact h.settled_exec D htrans key
  · intro other hother op' hop'
    rw [commits_exec] at hother ⊢
    rw [hserial, replay_exec]
    exact h.running_exec D hrig hnext hother hop'
  · intro other hother
    rw [commits_exec] at hother ⊢
    rw [hserial]
    by_cases ho : other = trans
    · subst ho
      rw [program_exec_self, outputs_exec_self, D.results_append, h.seen other hother]
      simp only [results, result, hnext]
    · rw [program_exec_of_ne (Ne.symm ho), D.outputs_exec_of_ne (Ne.symm ho)]
      exact h.seen other hother
  · intro before other after horder
    rw [commits_exec] at horder
    have hbefore : trans ∉ before := fun hmem =>
      htrans (horder ▸ List.mem_append_left _ hmem)
    have ho : trans ≠ other := by
      rintro rfl
      exact htrans (horder ▸ List.mem_append_right _ List.mem_cons_self)
    rw [D.serial_exec store events op hbefore, program_exec_of_ne ho, D.outputs_exec_of_ne ho]
    exact h.committed before other after horder

end Exec

/-- A commit leaves alone every cell that another running transaction has touched. -/
theorem Agrees.commit_keeps {store : K → C} {events : List (Event T O)} (h : D.Agrees store events) {trans other : T}
    (htrans : trans ∉ commits events) (hother : other ∉ commits events ++ [trans]) {op : O}
    (hop : op ∈ program other events) :
    D.runOps (D.serial store (fun u => program u events) (commits events)) (program trans events) (D.key op) =
      D.serial store (fun u => program u events) (commits events) (D.key op) := by
  rw [List.mem_append, List.mem_singleton, not_or] at hother
  exact D.runOps_of_not_writes _ _ _ fun op' hop' hkey =>
    (h.apart trans other htrans hother.1 (Ne.symm hother.2) op' hop' op hop hkey).1

/-- Where the last of some elements is, and where another one is. -/
theorem snoc_eq_split {α : Type*} {all before after : List α} {last x : α} (h : all ++ [last] = before ++ x :: after) :
    (before = all ∧ x = last) ∨ ∃ rest, all = before ++ x :: rest := by
  rcases List.eq_nil_or_concat after with rfl | ⟨rest, final, rfl⟩
  · obtain ⟨hall, hlast⟩ := List.append_inj' h rfl
    exact Or.inl ⟨hall.symm, (List.cons.inj hlast).1.symm⟩
  · rw [List.concat_eq_append, ← List.cons_append, ← List.append_assoc] at h
    exact Or.inr ⟨rest, (List.append_inj' h rfl).1⟩

theorem Agrees.commit {store : K → C} {events : List (Event T O)} (h : D.Agrees store events) {trans : T}
    (htrans : trans ∉ commits events) : D.Agrees store (events ++ [.commit trans]) := by
  have hserial : D.serial store (fun other => program other events) (commits events ++ [trans]) =
      D.runOps (D.serial store (fun other => program other events) (commits events))
        (program trans events) := D.serial_snoc _ _ _ _
  refine ⟨?_, ?_, ?_, ?_, ?_⟩
  · intro first second hfirst hsecond
    simp only [commits_commit, List.mem_append, not_or] at hfirst hsecond
    simp only [program_commit]
    exact h.apart first second hfirst.1 hsecond.1
  · intro key
    simp only [commits_commit, program_commit, replay_commit]
    rw [hserial]
    by_cases hown : ∃ op ∈ program trans events, D.key op = key ∧ D.writes op
    · obtain ⟨op, hop, rfl, _⟩ := hown
      exact Or.inr (h.running trans htrans op hop)
    · have hsame := D.runOps_of_not_writes
        (D.serial store (fun other => program other events) (commits events)) (program trans events) key
        fun op hop hkey hwrites => hown ⟨op, hop, hkey, hwrites⟩
      rcases h.settled key with ⟨other, hother, op, hop, hkey, hwrites⟩ | hsettled
      · refine Or.inl ⟨other, ?_, op, hop, hkey, hwrites⟩
        rw [List.mem_append, List.mem_singleton, not_or]
        refine ⟨hother, ?_⟩
        rintro rfl
        exact hown ⟨op, hop, hkey, hwrites⟩
      · exact Or.inr (hsettled.trans hsame.symm)
  · intro other hother op hop
    rw [commits_commit] at hother
    simp only [commits_commit, program_commit, replay_commit] at hop ⊢
    have hactive : other ∉ commits events := fun hmem => hother (List.mem_append_left _ hmem)
    rw [hserial, h.running other hactive op hop]
    exact (D.runOps_congr (program other events) fun op' hop' => (h.commit_keeps D htrans hother hop').symm).2 _
      (h.commit_keeps D htrans hother hop).symm
  · intro other hother
    rw [commits_commit] at hother
    simp only [commits_commit, program_commit, outputs_commit]
    have hactive : other ∉ commits events := fun hmem => hother (List.mem_append_left _ hmem)
    rw [hserial, h.seen other hactive]
    exact (D.runOps_congr (program other events) fun op' hop' => (h.commit_keeps D htrans hother hop').symm).1
  · intro before other after horder
    simp only [commits_commit] at horder
    simp only [program_commit, outputs_commit]
    rcases snoc_eq_split horder with ⟨rfl, rfl⟩ | ⟨rest, hrest⟩
    · exact h.seen other htrans
    · exact h.committed before other rest hrest

/-- A rigorous schedule agrees, at every moment, with the serial execution in commit order. -/
theorem Rigorous.agrees (store : K → C) {events : List (Event T O)} (h : D.Rigorous events) :
    D.Agrees store events := by
  induction h with
  | nil => exact D.agrees_nil store
  | exec _ htrans hrig ih => exact ih.exec D htrans hrig
  | commit _ htrans ih => exact ih.commit D htrans

omit [DecidableEq K] in
theorem Rigorous.nodup {events : List (Event T O)} (h : D.Rigorous events) : (commits events).Nodup := by
  induction h with
  | nil => exact List.nodup_nil
  | exec _ _ _ ih => simpa using ih
  | commit _ htrans ih =>
      rw [commits_commit]
      exact List.Nodup.append ih (by simp) (by simpa using htrans)

/-- **Serializability in commit order.** When every transaction that executed anything has
committed, the store is that of the serial execution. -/
theorem Rigorous.serializable (store : K → C) {events : List (Event T O)} (h : D.Rigorous events)
    (hall : ∀ trans, program trans events ≠ [] → trans ∈ commits events) :
    D.replay store events = D.serial store (fun trans => program trans events) (commits events) := by
  funext key
  rcases (Rigorous.agrees D store h).settled key with ⟨trans, htrans, op, hop, _⟩ | hsettled
  · exact absurd (hall trans (List.ne_nil_of_mem hop)) htrans
  · exact hsettled

end CellOps

end Thebends.LibSchedule
