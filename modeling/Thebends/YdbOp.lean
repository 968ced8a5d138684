import Thebends.LibSchedule

/-! The scheduled operations of ydb (`ydb_op.h`, `ydb_op.cpp`) on the map they act on. The map is an
atomic finite map from keys to values. An operation object keeps what `Execute` saved in it for
`Rollback`; before `Execute` those fields hold whatever the constructor left there. -/

namespace Thebends.Ydb

/-- `std::string`. -/
abbrev Str := List UInt8

/-- `Ydb_RetCode`. -/
inductive RetCode
  | ok
  | notFound
  | deadlock
  deriving DecidableEq, Repr

/-- `YLockType`. -/
inductive LockType
  | readlock
  | writelock
  deriving DecidableEq, Repr

/-- `Ydb_Map`. -/
abbrev Map := Str → Option Str

namespace Map

def get (map : Map) (key : Str) : Option Str := map key

def put (map : Map) (key value : Str) : Map := Function.update map key (some value)

def del (map : Map) (key : Str) : Map := Function.update map key none

end Map

/-- `Ydb_ReadOp`, `Ydb_WriteOp` and `Ydb_DeleteOp` with their members. `retval` is the string the
read's `retval_` points to. -/
inductive Op
  | read (key retval : Str)
  | write (key value : Str) (exists_ : Bool) (origValue : Str)
  | delete (key : Str) (exists_ : Bool) (origValue : Str)
  deriving DecidableEq, Repr

namespace Op

def key : Op → Str
  | .read key _ => key
  | .write key _ _ _ => key
  | .delete key _ _ => key

def lockType : Op → LockType
  | .read _ _ => .readlock
  | .write _ _ _ _ => .writelock
  | .delete _ _ _ => .writelock

/-- `Execute`: the return code, the object with the members it saved, and the map afterwards. -/
def execute : Op → Map → (RetCode × Op) × Map
  | .read key retval, map =>
      match map.get key with
      | some value => ((.ok, .read key value), map)
      | none => ((.notFound, .read key retval), map)
  | .write key value _ origValue, map =>
      ((.ok, .write key value (map.get key).isSome ((map.get key).getD origValue)), map.put key value)
  | .delete key _ origValue, map =>
      match map.get key with
      | some value => ((.ok, .delete key true value), map.del key)
      | none => ((.notFound, .delete key false origValue), map)

/-- `Rollback`: only a write or delete that found its key puts the old value back. -/
def rollback : Op → Map → Map
  | .read _ _, map => map
  | .write key _ exists_ origValue, map => if exists_ then map.put key origValue else map
  | .delete key exists_ origValue, map => if exists_ then map.put key origValue else map

/-- What `Execute` does to the one cell of the map it looks at. -/
def act : Op → Option Str → (RetCode × Op) × Option Str
  | .read key retval, none => ((.notFound, .read key retval), none)
  | .read key _, some value => ((.ok, .read key value), some value)
  | .write key value _ origValue, cell => ((.ok, .write key value cell.isSome (cell.getD origValue)), some value)
  | .delete key _ origValue, none => ((.notFound, .delete key false origValue), none)
  | .delete key _ _, some value => ((.ok, .delete key true value), none)

/-- The operations as operations on cells; the writing ones are those that ask for a write lock. -/
def cells : LibSchedule.CellOps Str (Option Str) Op (RetCode × Op) where
  key := key
  act := act
  writes op := op.lockType = .writelock
  reads_keep op cell h := by
    cases op with
    | read key retval => cases cell <;> rfl
    | write key value exists_ origValue => exact absurd rfl h
    | delete key exists_ origValue => exact absurd rfl h

theorem execute_eq (op : Op) (map : Map) :
    op.execute map = (cells.result op map, cells.exec op map) := by
  cases op with
  | read key retval =>
      cases h : map key <;>
        simp [execute, Map.get, LibSchedule.CellOps.result, LibSchedule.CellOps.exec, cells, act, Op.key, h]
  | write key value exists_ origValue =>
      simp [execute, Map.get, Map.put, LibSchedule.CellOps.result, LibSchedule.CellOps.exec, cells, act, Op.key]
  | delete key exists_ origValue =>
      cases h : map key <;>
        simp [execute, Map.get, Map.del, LibSchedule.CellOps.result, LibSchedule.CellOps.exec, cells, act, Op.key, h]

/-- `Execute` changes neither the key nor the lock type of the object. -/
theorem execute_same (op : Op) (map : Map) :
    (op.execute map).1.2.key = op.key ∧ (op.execute map).1.2.lockType = op.lockType := by
  cases op with
  | read key retval => cases h : map key <;> simp [execute, Map.get, h, Op.key, lockType]
  | write key value exists_ origValue => exact ⟨rfl, rfl⟩
  | delete key exists_ origValue => cases h : map key <;> simp [execute, Map.get, h, Op.key, lockType]

theorem execute_of_ne (op : Op) (map : Map) {key : Str} (h : key ≠ op.key) :
    (op.execute map).2 key = map key := by
  rw [execute_eq]
  exact cells.exec_of_ne map h

end Op

end Thebends.Ydb
