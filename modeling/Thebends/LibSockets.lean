import Mathlib.Logic.Function.Basic

/-! The sockets of a process, as its system keeps them: each one has a number of its own for ever, and a descriptor
that is free again when it is closed. -/

namespace Thebends.LibSockets

/-- How a socket came to be. -/
inductive Origin
  | listening
  | accepted
  | connected
  deriving DecidableEq, Repr

/-- A socket, with all the bytes the process read from it and wrote to it. -/
structure Socket where
  origin : Origin
  received : List UInt8
  sent : List UInt8

/-- The sockets made so far, by number, and which of them each descriptor stands for. -/
structure Sockets where
  next : Nat
  socket : Nat → Socket
  table : Nat → Option Nat

namespace Sockets

def empty : Sockets := ⟨0, fun _ => ⟨.listening, [], []⟩, fun _ => none⟩

/-- `socket` or `accept`, which returns a descriptor. -/
def make (s : Sockets) (fd : Nat) (origin : Origin) : Sockets :=
  ⟨s.next + 1, Function.update s.socket s.next ⟨origin, [], []⟩, Function.update s.table fd (some s.next)⟩

/-- `close`. -/
def close (s : Sockets) (fd : Nat) : Sockets := { s with table := Function.update s.table fd none }

/-- A change of the socket that a descriptor stands for. -/
def modify (s : Sockets) (fd : Nat) (change : Socket → Socket) : Sockets :=
  match s.table fd with
  | none => s
  | some number => { s with socket := Function.update s.socket number (change (s.socket number)) }

/-- `read` that returned some bytes. -/
def receive (s : Sockets) (fd : Nat) (data : List UInt8) : Sockets :=
  s.modify fd fun socket => { socket with received := socket.received ++ data }

/-- `write` that took some bytes. -/
def send (s : Sockets) (fd : Nat) (data : List UInt8) : Sockets :=
  s.modify fd fun socket => { socket with sent := socket.sent ++ data }

theorem next_make (s : Sockets) (fd : Nat) (origin : Origin) : (s.make fd origin).next = s.next + 1 := rfl

theorem table_make (s : Sockets) (fd : Nat) (origin : Origin) (other : Nat) :
    (s.make fd origin).table other = if other = fd then some s.next else s.table other :=
  Function.update_apply _ _ _ _

theorem socket_make (s : Sockets) (fd : Nat) (origin : Origin) (number : Nat) :
    (s.make fd origin).socket number = if number = s.next then ⟨origin, [], []⟩ else s.socket number :=
  Function.update_apply _ _ _ _

theorem table_close (s : Sockets) (fd other : Nat) :
    (s.close fd).table other = if other = fd then none else s.table other :=
  Function.update_apply _ _ _ _

def IsOpen (s : Sockets) (number : Nat) : Prop := ∃ fd, s.table fd = some number

/-- A descriptor stands for a socket that was made, and no other descriptor does. -/
structure WellFormed (s : Sockets) : Prop where
  made : ∀ fd number, s.table fd = some number → number < s.next
  unique : ∀ fd other number, s.table fd = some number → s.table other = some number → fd = other

theorem wellFormed_empty : empty.WellFormed where
  made := by
    intro fd number h
    cases h
  unique := by
    intro fd other number h
    cases h

section

variable {s : Sockets}

theorem WellFormed.make (h : s.WellFormed) (fd : Nat) (origin : Origin) : (s.make fd origin).WellFormed where
  made := by
    intro other number hother
    rw [table_make] at hother
    split at hother
    · cases hother
      exact Nat.lt_succ_self s.next
    · exact Nat.lt_succ_of_lt (h.made other number hother)
  unique := by
    have hnext : ∀ other, s.table other ≠ some s.next := fun other hother => absurd (h.made other _ hother) (Nat.lt_irrefl _)
    intro first second number hfirst hsecond
    rw [table_make] at hfirst hsecond
    split at hfirst
    · cases hfirst
      split at hsecond
      · exact Eq.trans ‹first = fd› (Eq.symm ‹second = fd›)
      · exact absurd hsecond (hnext second)
    · split at hsecond
      · cases hsecond
        exact absurd hfirst (hnext first)
      · exact h.unique first second number hfirst hsecond

theorem WellFormed.close (h : s.WellFormed) (fd : Nat) : (s.close fd).WellFormed where
  made := by
    intro other number hother
    rw [table_close] at hother
    split at hother
    · cases hother
    · exact h.made other number hother
  unique := by
    intro first second number hfirst hsecond
    rw [table_close] at hfirst hsecond
    split at hfirst
    · cases hfirst
    · split at hsecond
      · cases hsecond
      · exact h.unique first second number hfirst hsecond

@[simp] theorem table_modify (s : Sockets) (fd : Nat) (change : Socket → Socket) :
    (s.modify fd change).table = s.table := by
  unfold modify
  split
  · rfl
  · rfl

@[simp] theorem next_modify (s : Sockets) (fd : Nat) (change : Socket → Socket) : (s.modify fd change).next = s.next := by
  unfold modify
  split
  · rfl
  · rfl

theorem socket_modify {fd number : Nat} (h : s.table fd = some number) (change : Socket → Socket) (other : Nat) :
    ((s.modify fd change).socket other) = if other = number then change (s.socket number) else s.socket other := by
  rw [modify, h]
  exact Function.update_apply _ _ _ _

theorem WellFormed.modify (h : s.WellFormed) (fd : Nat) (change : Socket → Socket) : (s.modify fd change).WellFormed where
  made := by
    rw [table_modify, next_modify]
    exact h.made
  unique := by
    rw [table_modify]
    exact h.unique

theorem isOpen_make (hfree : s.table fd = none) (origin : Origin) (number : Nat) :
    (s.make fd origin).IsOpen number ↔ number = s.next ∨ s.IsOpen number := by
  simp only [IsOpen, table_make]
  constructor
  · rintro ⟨other, hother⟩
    split at hother
    · exact Or.inl (Option.some.inj hother).symm
    · exact Or.inr ⟨other, hother⟩
  · rintro (rfl | ⟨other, hother⟩)
    · exact ⟨fd, if_pos rfl⟩
    · refine ⟨other, ?_⟩
      rw [if_neg, hother]
      rintro rfl
      rw [hfree] at hother
      cases hother

theorem isOpen_close (h : s.WellFormed) {fd closed : Nat} (hclosed : s.table fd = some closed) (number : Nat) :
    (s.close fd).IsOpen number ↔ number ≠ closed ∧ s.IsOpen number := by
  simp only [IsOpen, table_close]
  constructor
  · rintro ⟨other, hother⟩
    split at hother
    · cases hother
    · refine ⟨?_, other, hother⟩
      rintro rfl
      exact ‹¬other = fd› (h.unique other fd number hother hclosed)
  · rintro ⟨hne, other, hother⟩
    refine ⟨other, ?_⟩
    rw [if_neg, hother]
    rintro rfl
    rw [hclosed] at hother
    exact hne (Option.some.inj hother).symm

end

end Sockets

end Thebends.LibSockets
