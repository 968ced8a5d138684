import Mathlib.Data.List.Sort
import Mathlib.Order.Nat
import Thebends.LibExcept
import Thebends.LibHeap
import Thebends.LibRun

/-! The registrations of the select loop of ynet (`select.h`, `select.cpp`). Callbacks are known by their
addresses. Where the code ends the process with `errx`, an operation fails with the message. -/

namespace Thebends.Ynet

open LibRun

/-- File descriptors, which are not negative. -/
abbrev Fd := Nat

/-- A `Callback*` or `ReadyCallback*`. -/
abbrev Callback := Nat

inductive Direction
  | read
  | write
  deriving DecidableEq, Repr

def Direction.other : Direction → Direction
  | .read => .write
  | .write => .read

theorem Direction.other_ne (direction : Direction) : direction.other ≠ direction := by
  cases direction with
  | read => exact Direction.noConfusion
  | write => exact Direction.noConfusion

theorem Direction.eq_other {direction covering : Direction} (h : covering ≠ direction) :
    covering = direction.other := by
  cases covering <;> cases direction <;> first | rfl | exact absurd rfl h

/-- The descriptors of one direction with their callbacks: `readfds_` and `read_callbacks_`, or
`writefds_` and `write_callbacks_`. -/
structure Watch where
  fds : List Fd
  callbacks : List (Fd × Callback)
  nodup : fds.Nodup
  registered : ∀ fd, fd ∈ fds ↔ (callbacks.lookup fd).isSome

theorem lookup_cons_eq (entry : Fd × Callback) (callbacks : List (Fd × Callback)) (fd : Fd) :
    (entry :: callbacks).lookup fd = if fd = entry.1 then some entry.2 else callbacks.lookup fd := by
  obtain ⟨key, cb⟩ := entry
  rw [List.lookup_cons]
  by_cases h : fd = key
  · rw [if_pos h, beq_iff_eq.mpr h]
  · rw [if_neg h, beq_eq_false_iff_ne.mpr h]

theorem lookup_filter_ne (callbacks : List (Fd × Callback)) (fd other : Fd) :
    (callbacks.filter fun entry => entry.1 ≠ fd).lookup other =
      if other = fd then none else callbacks.lookup other := by
  induction callbacks with
  | nil => exact (ite_self none).symm
  | cons entry callbacks ih =>
      by_cases hkey : entry.1 = fd
      · rw [List.filter_cons_of_neg (by simpa using hkey), ih, lookup_cons_eq, hkey]
        split
        · rfl
        · rfl
      · rw [List.filter_cons_of_pos (by simpa using hkey), lookup_cons_eq, lookup_cons_eq, ih]
        split
        case isTrue hother => rw [if_neg fun heq => hkey (hother.symm.trans heq)]
        case isFalse hother => rfl

namespace Watch

def empty : Watch := ⟨[], [], List.nodup_nil, by simp⟩

/-- `Add`. -/
def add (w : Watch) (fd : Fd) (cb : Callback) : Except String Watch :=
  if h : (w.callbacks.lookup fd).isSome then .error s!"Got duplicate read request for fd: {fd}"
  else .ok
    { fds := LibHeap.makeHeap (w.fds ++ [fd])
      callbacks := (fd, cb) :: w.callbacks
      nodup := by
        have hfresh : fd ∉ w.fds := fun hmem => h ((w.registered fd).mp hmem)
        rw [(LibHeap.makeHeap_perm _).nodup_iff, ← List.concat_eq_append]
        exact w.nodup.concat hfresh
      registered := by
        intro other
        rw [(LibHeap.makeHeap_perm _).mem_iff, List.mem_append, w.registered, List.mem_singleton, lookup_cons_eq]
        by_cases hother : other = fd
        · rw [if_pos hother]
          exact iff_of_true (Or.inr hother) rfl
        · rw [if_neg hother]
          exact or_iff_left hother }

/-- `Remove`. -/
def remove (w : Watch) (fd : Fd) : Except String Watch :=
  if (w.callbacks.lookup fd).isNone then .error s!"Removed fd that was not being read: {fd}\n"
  else .ok
    { fds := w.fds.erase fd
      callbacks := w.callbacks.filter fun entry => entry.1 ≠ fd
      nodup := w.nodup.erase fd
      registered := by
        intro other
        rw [w.nodup.mem_erase_iff, lookup_filter_ne, w.registered]
        by_cases hother : other = fd
        · rw [if_pos hother]
          exact iff_of_false (fun h => h.1 hother) Bool.false_ne_true
        · rw [if_neg hother]
          exact and_iff_right hother }

theorem mem_add {w w' : Watch} {fd : Fd} {cb : Callback} (h : w.add fd cb = .ok w') (other : Fd) :
    other ∈ w'.fds ↔ other = fd ∨ other ∈ w.fds := by
  unfold add at h
  split at h
  · cases h
  · cases h
    rw [(LibHeap.makeHeap_perm _).mem_iff, List.mem_append, List.mem_singleton]
    exact or_comm

theorem mem_remove {w w' : Watch} {fd : Fd} (h : w.remove fd = .ok w') (other : Fd) :
    other ∈ w'.fds ↔ other ≠ fd ∧ other ∈ w.fds := by
  unfold remove at h
  split at h
  · cases h
  · cases h
    exact w.nodup.mem_erase_iff

theorem lookup_add {w w' : Watch} {fd : Fd} {cb : Callback} (h : w.add fd cb = .ok w') (other : Fd) :
    w'.callbacks.lookup other = if other = fd then some cb else w.callbacks.lookup other := by
  unfold add at h
  split at h
  · cases h
  · cases h
    exact lookup_cons_eq _ _ _

theorem lookup_remove {w w' : Watch} {fd : Fd} (h : w.remove fd = .ok w') (other : Fd) :
    w'.callbacks.lookup other = if other = fd then none else w.callbacks.lookup other := by
  unfold remove at h
  split at h
  · cases h
  · cases h
    exact lookup_filter_ne _ _ _

/-- `Add` leaves the largest descriptor first. -/
theorem le_front {w w' : Watch} {fd front other : Fd} {cb : Callback} (h : w.add fd cb = .ok w')
    (hfront : w'.fds.head? = some front) (hother : other ∈ w'.fds) : other ≤ front := by
  unfold add at h
  split at h
  · cases h
  · cases h
    exact LibHeap.makeHeap_first hfront ((LibHeap.makeHeap_perm _).mem_iff.mp hother)

theorem fds_remove {w w' : Watch} {fd : Fd} (h : w.remove fd = .ok w') : w'.fds = w.fds.erase fd := by
  unfold remove at h
  split at h
  · cases h
  · cases h
    rfl

/-- `Add` succeeds on a descriptor that is not registered. -/
theorem add_ok {w : Watch} {fd : Fd} (h : fd ∉ w.fds) (cb : Callback) : ∃ w', w.add fd cb = .ok w' := by
  rw [add, dif_neg fun hsome => h ((w.registered fd).mpr hsome)]
  exact ⟨_, rfl⟩

/-- `Remove` succeeds on a descriptor that is registered. -/
theorem remove_ok {w : Watch} {fd : Fd} (h : fd ∈ w.fds) : ∃ w', w.remove fd = .ok w' := by
  obtain ⟨cb, hcb⟩ := Option.isSome_iff_exists.mp ((w.registered fd).mp h)
  rw [remove, hcb, if_neg (by simp)]
  exact ⟨_, rfl⟩

end Watch

/-- `Select`. The set `callbacks_` is in the order of the addresses. -/
structure Select where
  read : Watch
  write : Watch
  looping : Bool
  callbacks : List Callback

/-- A call that a callback makes. -/
inductive Change
  | add (direction : Direction) (fd : Fd) (cb : Callback)
  | remove (direction : Direction) (fd : Fd)
  | addCallback (cb : Callback)
  | stop
  deriving DecidableEq, Repr

namespace Select

/-- The constructor. -/
def new : Select := ⟨Watch.empty, Watch.empty, false, []⟩

def watch (s : Select) : Direction → Watch
  | .read => s.read
  | .write => s.write

/-- `AddReadFd`. -/
def addReadFd (s : Select) (fd : Fd) (cb : Callback) : Except String Select := do
  let read ← s.read.add fd cb
  return { s with read := read }

/-- `RemoveReadFd`. -/
def removeReadFd (s : Select) (fd : Fd) : Except String Select := do
  let read ← s.read.remove fd
  return { s with read := read }

/-- `AddWriteFd`. -/
def addWriteFd (s : Select) (fd : Fd) (cb : Callback) : Except String Select := do
  let write ← s.write.add fd cb
  return { s with write := write }

/-- `RemoveWriteFd`. -/
def removeWriteFd (s : Select) (fd : Fd) : Except String Select := do
  let write ← s.write.remove fd
  return { s with write := write }

/-- `AddCallback`. -/
def addCallback (s : Select) (cb : Callback) : Select :=
  { s with callbacks := if cb ∈ s.callbacks then s.callbacks else s.callbacks.orderedInsert (· ≤ ·) cb }

/-- `Stop`. -/
def stop (s : Select) : Select := { s with looping := false }

/-- `nfds`. -/
def nfds (s : Select) : Nat :=
  let n := match s.read.fds with
    | [] => 0
    | front :: _ => max 0 front
  let n := match s.write.fds with
    | [] => n
    | front :: _ => max n front
  n + 1

def change (s : Select) : Change → Except String Select
  | .add .read fd cb => s.addReadFd fd cb
  | .add .write fd cb => s.addWriteFd fd cb
  | .remove .read fd => s.removeReadFd fd
  | .remove .write fd => s.removeWriteFd fd
  | .addCallback cb => .ok (s.addCallback cb)
  | .stop => .ok s.stop

/-- What `select` can answer: some of the descriptors it was given, as `GetFdSet` collected them. -/
structure Ready (s : Select) where
  read : List Fd
  write : List Fd
  read_registered : ∀ fd ∈ read, fd ∈ s.read.fds
  write_registered : ∀ fd ∈ write, fd ∈ s.write.fds

def Ready.fds {s : Select} (ready : s.Ready) : Direction → List Fd
  | .read => ready.read
  | .write => ready.write

theorem Ready.registered {s : Select} (ready : s.Ready) {direction : Direction} {fd : Fd}
    (h : fd ∈ ready.fds direction) : fd ∈ (s.watch direction).fds := by
  cases direction with
  | read => exact ready.read_registered fd h
  | write => exact ready.write_registered fd h

def setWatch (s : Select) : Direction → Watch → Select
  | .read, w => { s with read := w }
  | .write, w => { s with write := w }

@[simp] theorem watch_setWatch (s : Select) (direction : Direction) (w : Watch) :
    (s.setWatch direction w).watch direction = w := by
  cases direction <;> rfl

theorem watch_setWatch_of_ne {direction other : Direction} (h : other ≠ direction) (s : Select) (w : Watch) :
    (s.setWatch direction w).watch other = s.watch other := by
  cases direction <;> cases other <;> first | exact absurd rfl h | rfl

theorem add_inv {s s' : Select} {direction : Direction} {fd : Fd} {cb : Callback}
    (h : s.change (.add direction fd cb) = .ok s') :
    ∃ w, (s.watch direction).add fd cb = .ok w ∧ s' = s.setWatch direction w := by
  have heq : s.change (.add direction fd cb) =
      (s.watch direction).add fd cb >>= fun w => .ok (s.setWatch direction w) := by
    cases direction <;> rfl
  obtain ⟨w, hw, hs⟩ := LibExcept.bind_eq_ok (heq.symm.trans h)
  cases hs
  exact ⟨w, hw, rfl⟩

theorem remove_inv {s s' : Select} {direction : Direction} {fd : Fd} (h : s.change (.remove direction fd) = .ok s') :
    ∃ w, (s.watch direction).remove fd = .ok w ∧ s' = s.setWatch direction w := by
  have heq : s.change (.remove direction fd) =
      (s.watch direction).remove fd >>= fun w => .ok (s.setWatch direction w) := by
    cases direction <;> rfl
  obtain ⟨w, hw, hs⟩ := LibExcept.bind_eq_ok (heq.symm.trans h)
  cases hs
  exact ⟨w, hw, rfl⟩

/-- What a change does to the registrations. -/
theorem mem_change {s s' : Select} {change : Change} (h : s.change change = .ok s') (direction : Direction) (fd : Fd) :
    fd ∈ (s'.watch direction).fds ↔
      (∃ cb, change = .add direction fd cb) ∨ (fd ∈ (s.watch direction).fds ∧ change ≠ .remove direction fd) := by
  cases change with
  | add changed added cb =>
      obtain ⟨w, hw, rfl⟩ := add_inv h
      by_cases hdirection : direction = changed
      · subst hdirection
        rw [watch_setWatch, Watch.mem_add hw]
        simp [eq_comm]
      · rw [watch_setWatch_of_ne hdirection]
        simp [Ne.symm hdirection]
  | remove changed removed =>
      obtain ⟨w, hw, rfl⟩ := remove_inv h
      by_cases hdirection : direction = changed
      · subst hdirection
        rw [watch_setWatch, Watch.mem_remove hw]
        simp [eq_comm, and_comm]
      · rw [watch_setWatch_of_ne hdirection]
        simp [Ne.symm hdirection]
  | addCallback cb =>
      cases h
      cases direction <;> simp [watch, addCallback]
  | stop =>
      cases h
      cases direction <;> simp [watch, stop]

theorem addWriteFd_ok {s : Select} {fd : Fd} (h : fd ∉ s.write.fds) (cb : Callback) :
    ∃ s', s.addWriteFd fd cb = .ok s' ∧ fd ∈ s'.write.fds := by
  obtain ⟨w, hw⟩ := Watch.add_ok h cb
  refine ⟨{ s with write := w }, ?_, (Watch.mem_add hw fd).mpr (Or.inl rfl)⟩
  rw [addWriteFd, hw]
  rfl

theorem removeWriteFd_ok {s : Select} {fd : Fd} (h : fd ∈ s.write.fds) :
    ∃ s', s.removeWriteFd fd = .ok s' ∧ fd ∉ s'.write.fds := by
  obtain ⟨w, hw⟩ := Watch.remove_ok h
  refine ⟨{ s with write := w }, ?_, fun hmem => ((Watch.mem_remove hw fd).mp hmem).1 rfl⟩
  rw [removeWriteFd, hw]
  rfl

theorem addReadFd_fresh {s : Select} {fd : Fd} (h : s.read.callbacks.lookup fd = none) (cb : Callback) :
    ∃ s', s.addReadFd fd cb = .ok s' ∧
      ∀ other, s'.read.callbacks.lookup other = if other = fd then some cb else s.read.callbacks.lookup other := by
  have hnot : fd ∉ s.read.fds := by
    rw [s.read.registered, h]
    exact Bool.false_ne_true
  obtain ⟨read, hadd⟩ := Watch.add_ok hnot cb
  refine ⟨{ s with read := read }, ?_, Watch.lookup_add hadd⟩
  rw [addReadFd, hadd]
  rfl

theorem removeReadFd_registered {s : Select} {fd : Fd} {cb : Callback} (h : s.read.callbacks.lookup fd = some cb) :
    ∃ s', s.removeReadFd fd = .ok s' ∧
      ∀ other, s'.read.callbacks.lookup other = if other = fd then none else s.read.callbacks.lookup other := by
  have hmem : fd ∈ s.read.fds := by
    rw [s.read.registered, h]
    rfl
  obtain ⟨read, hremove⟩ := Watch.remove_ok hmem
  refine ⟨{ s with read := read }, ?_, Watch.lookup_remove hremove⟩
  rw [removeReadFd, hremove]
  rfl

/-! ### What `select` watches

`nfds` takes the first descriptor of each vector for its largest. `Add` rebuilds the heap and `Remove`
does not, so the vectors are in the order of a heap only until a descriptor is removed. -/

/-- `select` watches every registered descriptor. -/
def Covered (s : Select) : Prop := ∀ direction fd, fd ∈ (s.watch direction).fds → fd < s.nfds

/-- What a removal leaves is watched: where the descriptor is the first of its vector, nothing that stays
registered is larger than both the next of the vector and the first of the other vector. -/
def KeepsCovered (s : Select) : Change → Prop
  | .remove direction fd =>
      (s.watch direction).fds.head? = some fd → ∀ side other, other ∈ (s.watch side).fds →
        (side = direction → other ≠ fd) →
          (∃ next, (s.watch direction).fds[1]? = some next ∧ other ≤ next) ∨
            ∃ front, (s.watch direction.other).fds.head? = some front ∧ other ≤ front
  | _ => True

theorem lt_nfds_iff (s : Select) (fd : Fd) :
    fd < s.nfds ↔ fd = 0 ∨ ∃ direction front, (s.watch direction).fds.head? = some front ∧ fd ≤ front := by
  have hdirection : (∃ direction front, (s.watch direction).fds.head? = some front ∧ fd ≤ front) ↔
      (∃ front, s.read.fds.head? = some front ∧ fd ≤ front) ∨ ∃ front, s.write.fds.head? = some front ∧ fd ≤ front := by
    constructor
    · rintro ⟨direction, hfront⟩
      cases direction with
      | read => exact Or.inl hfront
      | write => exact Or.inr hfront
    · rintro (hfront | hfront)
      · exact ⟨.read, hfront⟩
      · exact ⟨.write, hfront⟩
  have hzero : ∀ bound : Nat, fd ≤ bound ↔ fd = 0 ∨ fd ≤ bound := by
    intro bound
    exact (or_iff_right_of_imp fun heq => heq ▸ Nat.zero_le bound).symm
  rw [hdirection, nfds, Nat.lt_add_one_iff, hzero]
  cases s.read.fds <;> cases s.write.fds <;> simp

theorem covered_iff (s : Select) :
    s.Covered ↔ ∀ side fd, fd ∈ (s.watch side).fds →
      ∃ direction front, (s.watch direction).fds.head? = some front ∧ fd ≤ front := by
  refine forall_congr' fun side => forall_congr' fun fd => forall_congr' fun hfd => ?_
  rw [lt_nfds_iff]
  refine ⟨fun h => h.elim (fun hzero => ?_) id, Or.inr⟩
  obtain ⟨front, hfront⟩ := Option.ne_none_iff_exists'.mp (mt List.head?_eq_none_iff.mp (List.ne_nil_of_mem hfd))
  exact ⟨side, front, hfront, hzero ▸ Nat.zero_le front⟩

theorem covered_add {s s' : Select} {direction : Direction} {fd : Fd} {cb : Callback} (hcovered : s.Covered)
    (h : s.change (.add direction fd cb) = .ok s') : s'.Covered := by
  obtain ⟨w, hw, rfl⟩ := add_inv h
  have hfirst : ∀ other ∈ w.fds, ∃ front, w.fds.head? = some front ∧ other ≤ front := by
    intro other hother
    obtain ⟨front, hfront⟩ := Option.ne_none_iff_exists'.mp (mt List.head?_eq_none_iff.mp (List.ne_nil_of_mem hother))
    exact ⟨front, hfront, Watch.le_front hw hfront hother⟩
  rw [covered_iff] at hcovered ⊢
  intro side other hother
  by_cases hside : side = direction
  · subst hside
    rw [watch_setWatch] at hother
    obtain ⟨front, hfront, hle⟩ := hfirst other hother
    exact ⟨side, front, by rw [watch_setWatch, hfront], hle⟩
  · rw [watch_setWatch_of_ne hside] at hother
    obtain ⟨covering, front, hfront, hle⟩ := hcovered side other hother
    by_cases hcovering : covering = direction
    · subst hcovering
      have hmem : front ∈ w.fds := (Watch.mem_add hw front).mpr (Or.inr (List.mem_of_head? hfront))
      obtain ⟨first, hfirst', hle'⟩ := hfirst front hmem
      exact ⟨covering, first, by rw [watch_setWatch, hfirst'], hle.trans hle'⟩
    · exact ⟨covering, front, by rw [watch_setWatch_of_ne hcovering, hfront], hle⟩

theorem covered_remove {s s' : Select} {direction : Direction} {fd : Fd} (hcovered : s.Covered)
    (h : s.change (.remove direction fd) = .ok s') : s'.Covered ↔ s.KeepsCovered (.remove direction fd) := by
  obtain ⟨w, hw, rfl⟩ := remove_inv h
  have hmem := Watch.mem_remove hw
  have hfds := Watch.fds_remove hw
  have hstays : ∀ side other, other ∈ ((s.setWatch direction w).watch side).fds ↔
      other ∈ (s.watch side).fds ∧ (side = direction → other ≠ fd) := by
    intro side other
    by_cases hside : side = direction
    · subst hside
      rw [watch_setWatch, hmem]
      exact ⟨fun hboth => ⟨hboth.2, fun _ => hboth.1⟩, fun hboth => ⟨hboth.2 rfl, hboth.1⟩⟩
    · rw [watch_setWatch_of_ne hside]
      exact ⟨fun hother => ⟨hother, fun heq => absurd heq hside⟩, And.left⟩
  rw [covered_iff]
  by_cases hfirst : (s.watch direction).fds.head? = some fd
  · obtain ⟨rest, hrest⟩ := List.head?_eq_some_iff.mp hfirst
    have hnext : w.fds.head? = (s.watch direction).fds[1]? := by
      rw [hfds, hrest, List.erase_cons_head, List.getElem?_cons_succ, List.head?_eq_getElem?]
    have hfronts : ∀ other, (∃ covering front, ((s.setWatch direction w).watch covering).fds.head? = some front ∧
          other ≤ front) ↔
        (∃ next, (s.watch direction).fds[1]? = some next ∧ other ≤ next) ∨
          ∃ front, (s.watch direction.other).fds.head? = some front ∧ other ≤ front := by
      intro other
      rw [← hnext]
      constructor
      · rintro ⟨covering, front, hfront, hle⟩
        by_cases hcovering : covering = direction
        · subst hcovering
          rw [watch_setWatch] at hfront
          exact Or.inl ⟨front, hfront, hle⟩
        · rw [watch_setWatch_of_ne hcovering, Direction.eq_other hcovering] at hfront
          exact Or.inr ⟨front, hfront, hle⟩
      · rintro (⟨front, hfront, hle⟩ | ⟨front, hfront, hle⟩)
        · exact ⟨direction, front, by rw [watch_setWatch, hfront], hle⟩
        · exact ⟨direction.other, front, by rw [watch_setWatch_of_ne direction.other_ne, hfront], hle⟩
    simp only [KeepsCovered, hfirst, hfronts, hstays, and_imp, forall_const]
  · refine iff_of_true (fun side other hother => ?_) fun heq => absurd heq hfirst
    obtain ⟨covering, front, hfront, hle⟩ := (covered_iff s).mp hcovered side other ((hstays side other).mp hother).1
    refine ⟨covering, front, ?_, hle⟩
    by_cases hcovering : covering = direction
    · subst hcovering
      obtain ⟨rest, hrest⟩ := List.head?_eq_some_iff.mp hfront
      have hne : front ≠ fd := fun heq => hfirst (heq ▸ hfront)
      rw [watch_setWatch, hfds, hrest, List.erase_cons_tail (by simpa using hne), List.head?_cons]
    · rw [watch_setWatch_of_ne hcovering, hfront]

/-- In a state whose descriptors are all watched, a change leaves them all watched just when it keeps them. -/
theorem covered_change {s s' : Select} {change : Change} (hcovered : s.Covered) (h : s.change change = .ok s') :
    s'.Covered ↔ s.KeepsCovered change := by
  cases change with
  | add direction fd cb => exact iff_of_true (covered_add hcovered h) trivial
  | remove direction fd => exact covered_remove hcovered h
  | addCallback cb =>
      cases h
      exact iff_of_true hcovered trivial
  | stop =>
      cases h
      exact iff_of_true hcovered trivial

/-- One call, which does not end the process: what is added is not registered, what is removed is. -/
def Step (s : Select) (change : Change) (s' : Select) : Prop := s.change change = .ok s'

/-- **`nfds` is greater than every registered descriptor in all states of a run just when each removal
keeps it so.** -/
theorem run_covered_iff {changes : List Change} {s : Select} (h : Run Step new changes s) :
    (∀ made before, made <+: changes → Run Step new made before → before.Covered) ↔
      Run (Restrict Step KeepsCovered) new changes s := by
  have hstep : ∀ before change after, True → Covered before → Step before change after →
      (Covered after ↔ KeepsCovered before change) ∧ (Covered after → True) :=
    fun _ _ _ _ hcovered hchange => ⟨covered_change hcovered hchange, fun _ => trivial⟩
  refine Run.forall_iff_restrict ?_ hstep trivial ?_ h
  · intro before change after other hafter hother
    exact Except.ok.inj (hafter.symm.trans hother)
  · intro direction fd hfd
    cases direction <;> cases hfd

theorem run_covered_iff_two : ∃ s, Run Step new [.add .read 4 0, .remove .read 4] s ∧
    ((∀ made before, made <+: [.add .read 4 0, .remove .read 4] → Run Step new made before → before.Covered) ↔
      Run (Restrict Step KeepsCovered) new [.add .read 4 0, .remove .read 4] s) := by
  have hrun := Run.of_foldlM change new [.add .read 4 0, .remove .read 4] rfl
  exact ⟨_, hrun, run_covered_iff hrun⟩

/-- After the largest of three descriptors is removed, the vector starts with the smallest. -/
theorem removed_largest : ¬∀ changes s, Run Step new changes s → s.Covered := by
  intro h
  have hrun := Run.of_foldlM change new
    [.add .read 2 0, .add .read 1 0, .add .read 3 0, .remove .read 3] rfl
  exact absurd (h _ _ hrun .read 2 (by decide)) (by decide)

end Select

end Thebends.Ynet
