import Thebends.YnetSelect

/-! One pass of the select loop of ynet (`Select::Start`). What a callback does to the loop is a list of
changes that may depend on everything that happened in the pass before; a change that ends the process
ends the pass. A descriptor that is registered in both directions stands twice in the copy the pass goes
through, and is served twice. -/

namespace Thebends.Ynet

open LibExcept

/-- What happens in a pass: the loop comes to a descriptor, executes a callback of a descriptor or one of
`callbacks_`, and a callback makes a change. -/
inductive Event
  | visit (fd : Fd)
  | execute (direction : Direction) (fd : Fd) (cb : Callback)
  | run (cb : Callback)
  | change (change : Change)
  deriving DecidableEq, Repr

/-- The changes a callback makes, after what happened in the pass up to its own execution. -/
abbrev Effect := List Event → List Change

/-- A pass under way. -/
structure Pass where
  select : Select
  trace : List Event

namespace Pass

def log (p : Pass) (event : Event) : Pass := { p with trace := p.trace ++ [event] }

def changeAll (p : Pass) : List Change → Except String Pass
  | [] => .ok p
  | change :: changes => do
      let select ← p.select.change change
      changeAll (log { p with select := select } (.change change)) changes

/-- `Execute`. -/
def execute (effect : Effect) (p : Pass) (event : Event) : Except String Pass :=
  (p.log event).changeAll (effect (p.log event).trace)

/-- The body of the loop from its test of the write set on. -/
def serveWrite (effect : Effect) (writefds : List Fd) (p : Pass) (fd : Fd) : Except String Pass :=
  if fd ∈ writefds then
    match p.select.write.callbacks.lookup fd with
    | none => .ok p
    | some cb => p.execute effect (.execute .write fd cb)
  else .ok p

/-- The body of the loop over the descriptors. -/
def serve (effect : Effect) (readfds writefds : List Fd) (p : Pass) (fd : Fd) : Except String Pass :=
  if fd ∈ readfds then
    match p.select.read.callbacks.lookup fd with
    -- `continue`, which leaves out the write set
    | none => .ok p
    | some cb => do
        let p ← p.execute effect (.execute .read fd cb)
        p.serveWrite effect writefds fd
  else p.serveWrite effect writefds fd

def serveAll (effect : Effect) (readfds writefds : List Fd) (p : Pass) : List Fd → Except String Pass
  | [] => .ok p
  | fd :: fds => do
      let p ← (p.log (.visit fd)).serve effect readfds writefds fd
      p.serveAll effect readfds writefds fds

def runAll (effect : Effect) (p : Pass) : List Callback → Except String Pass
  | [] => .ok p
  | cb :: callbacks => do
      let p ← p.execute effect (.run cb)
      p.runAll effect callbacks

end Pass

/-- One pass of the loop in `Start`, after `select` answered. -/
def Select.pass (s : Select) (ready : s.Ready) (effect : Effect) : Except String Pass := do
  let fds := s.write.fds ++ s.read.fds
  let p ← Pass.serveAll effect ready.read ready.write ⟨s, []⟩ fds
  let callbacks := p.select.callbacks
  let p : Pass := { p with select := { p.select with callbacks := [] } }
  p.runAll effect callbacks

/-! ### What a pass does -/

def Event.Executes (direction : Direction) (fd : Fd) : Event → Bool
  | .execute executed served _ => executed = direction && served = fd
  | _ => false

/-- How often the callback of a descriptor was executed. -/
def executions (direction : Direction) (fd : Fd) (trace : List Event) : Nat := trace.countP (·.Executes direction fd)

theorem executions_append (direction : Direction) (fd : Fd) (trace events : List Event) :
    executions direction fd (trace ++ events) = executions direction fd trace + executions direction fd events :=
  List.countP_append

theorem executions_changes (direction : Direction) (fd : Fd) (changes : List Change) :
    executions direction fd (changes.map Event.change) = 0 := by
  rw [executions, List.countP_map, List.countP_eq_zero]
  intro change _
  exact Bool.false_ne_true

theorem executions_cons (direction : Direction) (fd : Fd) (event : Event) (events : List Event) :
    executions direction fd (event :: events) =
      executions direction fd events + if event.Executes direction fd then 1 else 0 :=
  List.countP_cons

namespace Pass

/-- From one point of a pass to another, with what happened between: a registration is kept, or it was
removed. -/
structure Went (p : Pass) (events : List Event) (p' : Pass) : Prop where
  trace : p'.trace = p.trace ++ events
  kept : ∀ direction fd, fd ∈ (p.select.watch direction).fds →
    fd ∈ (p'.select.watch direction).fds ∨ .change (.remove direction fd) ∈ events

theorem Went.refl (p : Pass) : p.Went [] p := ⟨(List.append_nil _).symm, fun _ _ h => Or.inl h⟩

theorem Went.append {p q r : Pass} {events events' : List Event} (h : p.Went events q) (h' : q.Went events' r) :
    p.Went (events ++ events') r := by
  refine ⟨by rw [h'.trace, h.trace, List.append_assoc], fun direction fd hfd => ?_⟩
  rcases h.kept direction fd hfd with hkept | hremoved
  · exact (h'.kept direction fd hkept).imp_right fun hmem => List.mem_append_right events hmem
  · exact Or.inr (List.mem_append_left events' hremoved)

theorem went_log (p : Pass) (event : Event) : p.Went [event] (p.log event) := ⟨rfl, fun _ _ h => Or.inl h⟩

theorem changeAll_went {p p' : Pass} {changes : List Change} (h : p.changeAll changes = .ok p') :
    p.Went (changes.map Event.change) p' := by
  induction changes generalizing p with
  | nil =>
      cases h
      exact Went.refl _
  | cons change changes ih =>
      rw [changeAll] at h
      obtain ⟨select, hchange, hrest⟩ := bind_eq_ok h
      have hstep : p.Went [.change change] (log { p with select := select } (.change change)) := by
        refine ⟨rfl, fun direction fd hfd => ?_⟩
        rw [log, Select.mem_change hchange]
        by_cases heq : change = .remove direction fd
        · exact Or.inr (by rw [heq]; exact List.mem_singleton_self _)
        · exact Or.inl (Or.inr ⟨hfd, heq⟩)
      exact hstep.append (ih hrest)

theorem execute_went {effect : Effect} {p p' : Pass} {event : Event} (h : p.execute effect event = .ok p') :
    ∃ changes : List Change, p.Went (event :: changes.map Event.change) p' :=
  ⟨_, (went_log p event).append (changeAll_went h)⟩

section

variable {effect : Effect} {readfds writefds : List Fd}

theorem not_registered {w : Watch} {fd : Fd} (h : w.callbacks.lookup fd = none) : fd ∉ w.fds := by
  rw [w.registered, h]
  exact Bool.false_ne_true

/-- The write callback is executed when the descriptor is ready and registered. -/
theorem serveWrite_went {p p' : Pass} {fd : Fd} (h : p.serveWrite effect writefds fd = .ok p') :
    (fd ∈ writefds ∧ ∃ cb, ∃ changes : List Change, p.Went (.execute .write fd cb :: changes.map Event.change) p') ∨
      ((fd ∈ writefds → fd ∉ p.select.write.fds) ∧ p' = p) := by
  unfold serveWrite at h
  split at h
  case isTrue hready =>
    split at h
    case h_1 hnone =>
      cases h
      exact Or.inr ⟨fun _ => not_registered hnone, rfl⟩
    case h_2 cb hcb =>
      obtain ⟨changes, hwent⟩ := execute_went h
      exact Or.inl ⟨hready, cb, changes, hwent⟩
  case isFalse hready =>
    cases h
    exact Or.inr ⟨fun hmem => absurd hmem hready, rfl⟩

/-- The read callback is executed when the descriptor is ready and registered; then comes the write set,
unless the descriptor was ready and not registered. -/
theorem serve_went {p p' : Pass} {fd : Fd} (h : p.serve effect readfds writefds fd = .ok p') :
    (fd ∈ readfds ∧ fd ∉ p.select.read.fds ∧ p' = p) ∨
      (fd ∈ readfds ∧ ∃ cb, ∃ changes : List Change, ∃ q,
        p.Went (.execute .read fd cb :: changes.map Event.change) q ∧ q.serveWrite effect writefds fd = .ok p') ∨
      (fd ∉ readfds ∧ p.serveWrite effect writefds fd = .ok p') := by
  unfold serve at h
  split at h
  case isTrue hready =>
    split at h
    case h_1 hnone =>
      cases h
      exact Or.inl ⟨hready, not_registered hnone, rfl⟩
    case h_2 cb hcb =>
      obtain ⟨q, hexecute, hrest⟩ := bind_eq_ok h
      obtain ⟨changes, hwent⟩ := execute_went hexecute
      exact Or.inr (Or.inl ⟨hready, cb, changes, q, hwent, hrest⟩)
  case isFalse hready => exact Or.inr (Or.inr ⟨hready, h⟩)

/-- Serving a descriptor executes no callback of another. -/
theorem serve_other {p p' : Pass} {fd : Fd} (h : p.serve effect readfds writefds fd = .ok p') :
    ∃ events, p.Went events p' ∧ ∀ direction other, other ≠ fd → executions direction other events = 0 := by
  have hnone : ∀ (executed : Direction) (cb : Callback) (changes : List Change) (direction : Direction) (other : Fd),
      other ≠ fd → executions direction other (.execute executed fd cb :: changes.map Event.change) = 0 := by
    intro executed cb changes direction other hother
    rw [executions_cons, executions_changes, if_neg (by simp [Event.Executes, Ne.symm hother])]
  have hwrite : ∀ q : Pass, q.serveWrite effect writefds fd = .ok p' →
      ∃ events, q.Went events p' ∧ ∀ direction other, other ≠ fd → executions direction other events = 0 := by
    intro q hq
    rcases serveWrite_went hq with ⟨-, cb, changes, hwent⟩ | ⟨-, rfl⟩
    · exact ⟨_, hwent, hnone .write cb changes⟩
    · exact ⟨[], Went.refl p', fun _ _ _ => rfl⟩
  rcases serve_went h with ⟨-, -, rfl⟩ | ⟨-, cb, changes, q, hwent, hq⟩ | ⟨-, hq⟩
  · exact ⟨[], Went.refl p', fun _ _ _ => rfl⟩
  · obtain ⟨events, hwent', hevents⟩ := hwrite q hq
    refine ⟨_, hwent.append hwent', fun direction other hother => ?_⟩
    rw [executions_append, hnone .read cb changes direction other hother, hevents direction other hother]
  · exact hwrite p hq

/-- Serving a descriptor that is ready in one direction executes its callback there once, or it is not
registered there any more. -/
theorem serve_self {s : Select} {ready : s.Ready} {p p' : Pass} {fd : Fd} {direction : Direction}
    (hready : fd ∈ ready.fds direction) (hother : fd ∉ ready.fds direction.other)
    (h : p.serve effect ready.read ready.write fd = .ok p') :
    ∃ events, p.Went events p' ∧
      (executions direction fd events = 1 ∨ (fd ∉ (p.select.watch direction).fds ∧ events = [])) := by
  have honce : ∀ (cb : Callback) (changes : List Change),
      executions direction fd (.execute direction fd cb :: changes.map Event.change) = 1 := by
    intro cb changes
    rw [executions_cons, executions_changes, if_pos (by simp [Event.Executes])]
  cases direction with
  | read =>
      rcases serve_went h with ⟨-, hmissing, rfl⟩ | ⟨-, cb, changes, q, hwent, hq⟩ | ⟨hnot, -⟩
      · exact ⟨[], Went.refl p', Or.inr ⟨hmissing, rfl⟩⟩
      · rcases serveWrite_went hq with ⟨hmem, -⟩ | ⟨-, rfl⟩
        · exact absurd hmem hother
        · exact ⟨_, hwent, Or.inl (honce cb changes)⟩
      · exact absurd hready hnot
  | write =>
      rcases serve_went h with ⟨hmem, -⟩ | ⟨hmem, -⟩ | ⟨-, hq⟩
      · exact absurd hmem hother
      · exact absurd hmem hother
      · rcases serveWrite_went hq with ⟨-, cb, changes, hwent⟩ | ⟨hmissing, rfl⟩
        · exact ⟨_, hwent, Or.inl (honce cb changes)⟩
        · exact ⟨[], Went.refl p', Or.inr ⟨hmissing hready, rfl⟩⟩

theorem serveAll_cons {p p' : Pass} {fd : Fd} {fds : List Fd}
    (h : p.serveAll effect readfds writefds (fd :: fds) = .ok p') :
    ∃ q, (p.log (.visit fd)).serve effect readfds writefds fd = .ok q ∧
      q.serveAll effect readfds writefds fds = .ok p' := by
  rw [serveAll] at h
  exact bind_eq_ok h

theorem serveAll_append {p p' : Pass} {fds fds' : List Fd}
    (h : p.serveAll effect readfds writefds (fds ++ fds') = .ok p') :
    ∃ q, p.serveAll effect readfds writefds fds = .ok q ∧ q.serveAll effect readfds writefds fds' = .ok p' := by
  induction fds generalizing p with
  | nil => exact ⟨p, rfl, h⟩
  | cons fd fds ih =>
      obtain ⟨q, hserve, hrest⟩ := serveAll_cons h
      obtain ⟨r, hr, hr'⟩ := ih hrest
      refine ⟨r, ?_, hr'⟩
      rw [serveAll, hserve]
      exact hr

/-- The loop executes no callback of a descriptor that is not in its copy. -/
theorem serveAll_other {p p' : Pass} {fds : List Fd} (h : p.serveAll effect readfds writefds fds = .ok p') :
    ∃ events, p.Went events p' ∧ ∀ direction other, other ∉ fds → executions direction other events = 0 := by
  induction fds generalizing p with
  | nil =>
      cases h
      exact ⟨[], Went.refl _, fun _ _ _ => rfl⟩
  | cons fd fds ih =>
      obtain ⟨q, hserve, hrest⟩ := serveAll_cons h
      obtain ⟨events, hwent, hevents⟩ := serve_other hserve
      obtain ⟨events', hwent', hevents'⟩ := ih hrest
      refine ⟨_, ((went_log p (.visit fd)).append hwent).append hwent', fun direction other hother => ?_⟩
      rw [List.mem_cons, not_or] at hother
      rw [executions_append, executions_append, hevents direction other hother.1,
        hevents' direction other hother.2]
      rfl

theorem runAll_went {p p' : Pass} {callbacks : List Callback} (h : p.runAll effect callbacks = .ok p') :
    ∃ events, p.Went events p' ∧ ∀ direction fd, executions direction fd events = 0 := by
  induction callbacks generalizing p with
  | nil =>
      cases h
      exact ⟨[], Went.refl _, fun _ _ => rfl⟩
  | cons cb callbacks ih =>
      rw [runAll] at h
      obtain ⟨q, hexecute, hrest⟩ := bind_eq_ok h
      obtain ⟨changes, hwent⟩ := execute_went hexecute
      obtain ⟨events, hwent', hevents⟩ := ih hrest
      refine ⟨_, hwent.append hwent', fun direction fd => ?_⟩
      rw [executions_append, executions_cons, executions_changes, hevents]
      rfl

end

/-- Serving one descriptor while no callback changes anything. -/
theorem serve_quiet {s : Select} (ready : s.Ready) (trace : List Event) (fd : Fd) :
    ∃ events, serve (fun _ => []) ready.read ready.write ⟨s, trace⟩ fd = .ok ⟨s, trace ++ events⟩ ∧
      ∀ direction, fd ∈ ready.fds direction → 1 ≤ executions direction fd events := by
  have hwrite : ∀ trace, ∃ events, serveWrite (fun _ => []) ready.write ⟨s, trace⟩ fd = .ok ⟨s, trace ++ events⟩ ∧
      (fd ∈ ready.write → 1 ≤ executions .write fd events) := by
    intro trace
    by_cases hready : fd ∈ ready.write
    · obtain ⟨cb, hcb⟩ := Option.isSome_iff_exists.mp ((s.write.registered fd).mp (ready.write_registered fd hready))
      refine ⟨[.execute .write fd cb], ?_, fun _ => by simp [executions, Event.Executes]⟩
      simp only [serveWrite, if_pos hready, hcb]
      rfl
    · refine ⟨[], ?_, fun hmem => absurd hmem hready⟩
      rw [serveWrite, if_neg hready, List.append_nil]
  by_cases hready : fd ∈ ready.read
  · obtain ⟨cb, hcb⟩ := Option.isSome_iff_exists.mp ((s.read.registered fd).mp (ready.read_registered fd hready))
    obtain ⟨events, hevents, hwritten⟩ := hwrite (trace ++ [.execute .read fd cb])
    refine ⟨.execute .read fd cb :: events, ?_, fun direction hdirection => ?_⟩
    · simp only [serve, if_pos hready, hcb]
      rw [← List.append_cons] at hevents
      exact hevents
    · rw [executions_cons]
      cases direction with
      | read => simp [Event.Executes]
      | write => exact Nat.le_add_right_of_le (hwritten hdirection)
  · obtain ⟨events, hevents, hwritten⟩ := hwrite trace
    refine ⟨events, ?_, fun direction hdirection => ?_⟩
    · rw [serve, if_neg hready, hevents]
    · cases direction with
      | read => exact absurd hdirection hready
      | write => exact hwritten hdirection

/-- The loop while no callback changes anything: a ready descriptor is served as often as it stands in the
copy. -/
theorem serveAll_quiet {s : Select} (ready : s.Ready) (trace : List Event) (fds : List Fd) :
    ∃ events, serveAll (fun _ => []) ready.read ready.write ⟨s, trace⟩ fds = .ok ⟨s, trace ++ events⟩ ∧
      ∀ direction fd, fd ∈ ready.fds direction → fds.count fd ≤ executions direction fd events := by
  induction fds generalizing trace with
  | nil => exact ⟨[], by rw [serveAll, List.append_nil], fun _ _ _ => Nat.le_refl 0⟩
  | cons served fds ih =>
      obtain ⟨events, hserve, hevents⟩ := serve_quiet ready (trace ++ [.visit served]) served
      obtain ⟨events', hrest, hevents'⟩ := ih (trace ++ [.visit served] ++ events)
      refine ⟨.visit served :: events ++ events', ?_, fun direction fd hfd => ?_⟩
      · rw [serveAll]
        simp only [log, hserve, bind, Except.bind]
        rw [hrest]
        simp
      · rw [executions_append, executions_cons, List.count_cons]
        have hrest' := hevents' direction fd hfd
        by_cases heq : served = fd
        · subst heq
          have hserved := hevents direction hfd
          rw [if_pos (beq_self_eq_true served)]
          omega
        · rw [if_neg (by simpa using heq)]
          omega

theorem runAll_quiet (p : Pass) (callbacks : List Callback) : ∃ p', p.runAll (fun _ => []) callbacks = .ok p' := by
  induction callbacks generalizing p with
  | nil => exact ⟨p, rfl⟩
  | cons cb callbacks ih => exact ih (p.log (.run cb))

end Pass

/-! ### Who is served once -/

/-- The callback of a descriptor was executed once, or else not at all, and then an earlier callback had
removed its registration when the loop came to it. -/
structure ServedOnce (direction : Direction) (fd : Fd) (trace : List Event) : Prop where
  atMost : executions direction fd trace ≤ 1
  missed : executions direction fd trace = 0 →
    ∃ before after, trace = before ++ .visit fd :: after ∧ .change (.remove direction fd) ∈ before

/-- A pass is its loop over the copy and then other callbacks, which serve no descriptor. -/
theorem Select.pass_inv {s : Select} {ready : s.Ready} {effect : Effect} {p : Pass}
    (h : s.pass ready effect = .ok p) :
    ∃ q events, Pass.serveAll effect ready.read ready.write ⟨s, []⟩ (s.write.fds ++ s.read.fds) = .ok q ∧
      p.trace = q.trace ++ events ∧ ∀ direction fd, executions direction fd events = 0 := by
  unfold Select.pass at h
  obtain ⟨q, hserve, hrun⟩ := bind_eq_ok h
  obtain ⟨events, hwent, hevents⟩ := Pass.runAll_went hrun
  exact ⟨q, events, hserve, hwent.trace, hevents⟩

/-- Serving a descriptor once, when the loop comes to it once and it is ready in one direction. -/
theorem servedOnce_of_split {s : Select} {ready : s.Ready} {effect : Effect} {p : Pass} {direction : Direction}
    {fd : Fd} {fds fds' : List Fd} (h : s.pass ready effect = .ok p)
    (hsplit : s.write.fds ++ s.read.fds = fds ++ fd :: fds') (hfds : fd ∉ fds) (hfds' : fd ∉ fds')
    (hready : fd ∈ ready.fds direction) (hother : fd ∉ ready.fds direction.other) :
    ServedOnce direction fd p.trace := by
  obtain ⟨q, events, hserve, htrace, hevents⟩ := Select.pass_inv h
  rw [hsplit] at hserve
  obtain ⟨p₁, hbefore, hrest⟩ := Pass.serveAll_append hserve
  obtain ⟨p₂, hself, hafter⟩ := Pass.serveAll_cons hrest
  obtain ⟨before, hwent, hnone⟩ := Pass.serveAll_other hbefore
  obtain ⟨served, hwent', honce⟩ := Pass.serve_self hready hother hself
  obtain ⟨after, hwent'', hnone'⟩ := Pass.serveAll_other hafter
  have htrace' : p.trace = before ++ .visit fd :: (served ++ (after ++ events)) := by
    rw [htrace, hwent''.trace, hwent'.trace, Pass.log, hwent.trace]
    simp
  have hcount : executions direction fd p.trace = executions direction fd served := by
    rw [htrace', executions_append, executions_cons, executions_append, executions_append,
      hnone direction fd hfds, hnone' direction fd hfds', hevents]
    simp [Event.Executes]
  rcases honce with honce | ⟨hmissing, rfl⟩
  · exact ⟨by omega, fun hzero => by omega⟩
  · refine ⟨by rw [hcount]; exact Nat.zero_le 1, fun _ => ⟨before, _, htrace', ?_⟩⟩
    exact (hwent.kept direction fd (ready.registered hready)).resolve_left hmissing

/-- A descriptor that is registered in one direction only stands once in the copy. -/
theorem Select.split_of_single {s : Select} {direction : Direction} {fd : Fd} (h : fd ∈ (s.watch direction).fds)
    (hother : fd ∉ (s.watch direction.other).fds) :
    ∃ fds fds', s.write.fds ++ s.read.fds = fds ++ fd :: fds' ∧ fd ∉ fds ∧ fd ∉ fds' := by
  obtain ⟨fds, fds', hsplit⟩ := List.append_of_mem h
  have hnodup := (s.watch direction).nodup
  rw [hsplit, List.nodup_middle, List.nodup_cons, List.mem_append, not_or] at hnodup
  cases direction with
  | read =>
      refine ⟨s.write.fds ++ fds, fds', ?_, ?_, hnodup.1.2⟩
      · rw [show s.read.fds = fds ++ fd :: fds' from hsplit, List.append_assoc]
      · rw [List.mem_append, not_or]
        exact ⟨hother, hnodup.1.1⟩
  | write =>
      refine ⟨fds, fds' ++ s.read.fds, ?_, hnodup.1.1, ?_⟩
      · rw [show s.write.fds = fds ++ fd :: fds' from hsplit, List.append_assoc, List.cons_append]
      · rw [List.mem_append, not_or]
        exact ⟨hnodup.1.2, hother⟩

/-- A descriptor that is registered in both directions stands twice in the copy. -/
theorem Select.count_of_both {s : Select} {fd : Fd} (hread : fd ∈ s.read.fds) (hwrite : fd ∈ s.write.fds) :
    (s.write.fds ++ s.read.fds).count fd = 2 := by
  rw [List.count_append, List.count_eq_one_of_mem s.write.nodup hwrite, List.count_eq_one_of_mem s.read.nodup hread]

/-- **Who is served once**: whatever the callbacks do, a pass serves every ready descriptor once, in each
direction, if and only if no ready descriptor is registered in both directions. -/
theorem served_once_iff (s : Select) (ready : s.Ready) :
    (∀ (effect : Effect) (p : Pass), s.pass ready effect = .ok p →
        ∀ direction, ∀ fd ∈ ready.fds direction, ServedOnce direction fd p.trace) ↔
      ∀ fd ∈ s.read.fds, fd ∈ s.write.fds → fd ∉ ready.read ∧ fd ∉ ready.write := by
  constructor
  · -- without any change, a descriptor of both directions is served twice
    intro h fd hread hwrite
    obtain ⟨events, hserve, hcount⟩ := Pass.serveAll_quiet ready [] (s.write.fds ++ s.read.fds)
    obtain ⟨p, hrun⟩ := Pass.runAll_quiet ⟨{ s with callbacks := [] }, events⟩ s.callbacks
    have hpass : s.pass ready (fun _ => []) = .ok p := by
      simp only [Select.pass, hserve, bind, Except.bind]
      exact hrun
    obtain ⟨rest, hwent, -⟩ := Pass.runAll_went hrun
    have hnot : ∀ direction, fd ∉ ready.fds direction := by
      intro direction hready
      have honce := (h _ p hpass direction fd hready).atMost
      have htwice := hcount direction fd hready
      rw [hwent.trace, executions_append] at honce
      rw [Select.count_of_both hread hwrite] at htwice
      dsimp only at honce
      omega
    exact ⟨hnot .read, hnot .write⟩
  · intro h effect p hpass direction fd hready
    have hregistered := ready.registered hready
    have hother : fd ∉ (s.watch direction.other).fds := by
      intro hboth
      cases direction with
      | read => exact (h fd hregistered hboth).1 hready
      | write => exact (h fd hboth hregistered).2 hready
    obtain ⟨fds, fds', hsplit, hfds, hfds'⟩ := Select.split_of_single hregistered hother
    exact servedOnce_of_split hpass hsplit hfds hfds' hready fun hmem => hother (ready.registered hmem)

/-- A descriptor that is watched in both directions and ready for reading has its read callback executed
twice in one pass. -/
theorem read_callback_twice :
    ∃ s, (Select.new.addReadFd 5 1).bind (fun s => s.addWriteFd 5 2) = .ok s ∧
      ∃ (ready : s.Ready) (p : Pass), ready.read = [5] ∧ ready.write = [] ∧ s.pass ready (fun _ => []) = .ok p ∧
        p.trace = [.visit 5, .execute .read 5 1, .visit 5, .execute .read 5 1] ∧ ¬ServedOnce .read 5 p.trace :=
  ⟨_, rfl, ⟨[5], [], by decide, by decide⟩, _, rfl, rfl, rfl, rfl, fun h => absurd h.atMost (by decide)⟩

end Thebends.Ynet
