import Thebends.YdbOp

/-! The lock table of ydb (`ydb_lock.h`, `ydb_lock.cpp`). An entry keeps the type of the lock and the
list of its holders, with one element for each read lock a transaction was granted. -/

namespace Thebends.Ydb

/-- `Ydb_Trans*`: transactions are told apart by their address. -/
abbrev Trans := Nat

/-- `Ydb_LockInfo`. -/
structure LockInfo where
  type : LockType
  transactions : List Trans
  deriving DecidableEq, Repr

namespace LockInfo

def addTransaction (info : LockInfo) (trans : Trans) : LockInfo :=
  { info with transactions := info.transactions ++ [trans] }

def hasTransaction (info : LockInfo) (trans : Trans) : Bool := info.transactions.contains trans

/-- `remove_transaction`: erases the first element that is `trans`, if there is one. -/
def removeTransaction (info : LockInfo) (trans : Trans) : Bool × LockInfo :=
  if info.hasTransaction trans then (true, { info with transactions := info.transactions.erase trans })
  else (false, info)

def transactionCount (info : LockInfo) : Nat := info.transactions.length

end LockInfo

/-- `Ydb_LockTable`, its `lock_map_`. -/
abbrev LockTable := Str → Option LockInfo

namespace LockTable

def readLock (table : LockTable) (trans : Trans) (item : Str) : Bool × LockTable :=
  match table item with
  | none => (true, Function.update table item (some (LockInfo.addTransaction ⟨.readlock, []⟩ trans)))
  | some info =>
      if info.type = .readlock then (true, Function.update table item (some (info.addTransaction trans)))
      else if info.transactionCount = 1 ∧ info.hasTransaction trans then (true, table)
      else (false, table)

def writeLock (table : LockTable) (trans : Trans) (item : Str) : Bool × LockTable :=
  match table item with
  | none => (true, Function.update table item (some (LockInfo.addTransaction ⟨.writelock, []⟩ trans)))
  | some info =>
      if info.type = .readlock ∧ info.transactionCount = 1 ∧ (info.removeTransaction trans).1 then
        (true, Function.update table item
          (some (LockInfo.addTransaction { (info.removeTransaction trans).2 with type := .writelock } trans)))
      else (false, table)

def lock (table : LockTable) (trans : Trans) (op : Op) : Bool × LockTable :=
  if op.lockType = .readlock then table.readLock trans op.key else table.writeLock trans op.key

def getLockHolders (table : LockTable) (item : Str) : Option (List Trans) :=
  (table item).map LockInfo.transactions

def unlock (table : LockTable) (trans : Trans) (item : Str) : Bool × LockTable :=
  match table item with
  | none => (false, table)
  | some info =>
      if (info.removeTransaction trans).1 then
        if (info.removeTransaction trans).2.transactionCount = 0 then (true, Function.update table item none)
        else (true, Function.update table item (some (info.removeTransaction trans).2))
      else (false, table)

/-- The loop of `Commit` and `Rollback` over the keys of a transaction. -/
def unlockAll (table : LockTable) (trans : Trans) (items : List Str) : LockTable :=
  items.foldl (fun current item => (current.unlock trans item).2) table

/-- The holder list of a key, empty when the key has no entry. -/
def holders (table : LockTable) (item : Str) : List Trans := ((table item).map LockInfo.transactions).getD []

/-- The mode in which a transaction holds a lock on a key, if it holds one. -/
def heldMode (table : LockTable) (trans : Trans) (item : Str) : Option LockType :=
  match table item with
  | none => none
  | some info => if trans ∈ info.transactions then some info.type else none

/-- Every entry has a holder, and a write lock has exactly one element in its holder list. -/
def WellFormed (table : LockTable) : Prop :=
  ∀ item info, table item = some info → info.transactions ≠ [] ∧
    (info.type = .writelock → ∃ trans, info.transactions = [trans])

theorem holders_of_some {table : LockTable} {item : Str} {info : LockInfo} (h : table item = some info) :
    table.holders item = info.transactions := by
  simp [holders, h]

theorem holders_of_none {table : LockTable} {item : Str} (h : table item = none) : table.holders item = [] := by
  simp [holders, h]

theorem holders_update_self (table : LockTable) (item : Str) (info : LockInfo) :
    holders (Function.update table item (some info)) item = info.transactions := by
  simp [holders]

theorem count_one_and_has {info : LockInfo} {trans : Trans} :
    (info.transactionCount = 1 ∧ info.hasTransaction trans) ↔ info.transactions = [trans] := by
  simp only [LockInfo.transactionCount, LockInfo.hasTransaction, List.contains_iff_mem]
  constructor
  · rintro ⟨hcount, hmem⟩
    obtain ⟨other, hother⟩ := List.length_eq_one_iff.mp hcount
    rw [hother, List.mem_singleton] at hmem
    rw [hother, hmem]
  · intro h
    simp [h]

/-- What a granted request does to the entry of its key. -/
inductive Grant (table : LockTable) (trans : Trans) (op : Op) : LockTable → Prop
  | fresh : table op.key = none →
      Grant table trans op (Function.update table op.key (some ⟨op.lockType, [trans]⟩))
  | shared {others : List Trans} : op.lockType = .readlock → table op.key = some ⟨.readlock, others⟩ →
      Grant table trans op (Function.update table op.key (some ⟨.readlock, others ++ [trans]⟩))
  | reread : op.lockType = .readlock → table op.key = some ⟨.writelock, [trans]⟩ → Grant table trans op table
  | upgrade : op.lockType = .writelock → table op.key = some ⟨.readlock, [trans]⟩ →
      Grant table trans op (Function.update table op.key (some ⟨.writelock, [trans]⟩))

/-- What a refused request found. -/
def Conflict (table : LockTable) (trans : Trans) (op : Op) : Prop :=
  ∃ info, table op.key = some info ∧ (op.lockType = .writelock ∨ info.type = .writelock) ∧
    (info.type = .writelock → op.lockType = .readlock → info.transactions ≠ [trans]) ∧
    (info.type = .readlock → info.transactions ≠ [trans])

theorem lock_none {table : LockTable} {trans : Trans} {op : Op} (h : table op.key = none) :
    table.lock trans op = (true, Function.update table op.key (some ⟨op.lockType, [trans]⟩)) := by
  unfold lock
  cases hop : op.lockType with
  | readlock => rw [if_pos rfl, readLock, h, LockInfo.addTransaction, List.nil_append]
  | writelock => rw [if_neg nofun, writeLock, h, LockInfo.addTransaction, List.nil_append]

theorem readLock_some {table : LockTable} {item : Str} {info : LockInfo} (h : table item = some info) (trans : Trans) :
    table.readLock trans item =
      if info.type = .readlock then (true, Function.update table item (some ⟨.readlock, info.transactions ++ [trans]⟩))
      else if info.transactions = [trans] then (true, table) else (false, table) := by
  rw [readLock, h]
  by_cases htype : info.type = .readlock
  · simp only [htype, if_true, LockInfo.addTransaction]
  · simp only [htype, if_false, count_one_and_has]

/-- The only holder of a read lock. -/
theorem count_one_and_remove {info : LockInfo} {trans : Trans} :
    (info.transactionCount = 1 ∧ (info.removeTransaction trans).1) ↔ info.transactions = [trans] := by
  rw [← count_one_and_has, LockInfo.removeTransaction]
  by_cases hhas : info.hasTransaction trans
  · simp [hhas]
  · simp [hhas]

theorem writeLock_some {table : LockTable} {item : Str} {info : LockInfo} (h : table item = some info) (trans : Trans) :
    table.writeLock trans item =
      if info.type = .readlock ∧ info.transactions = [trans] then
        (true, Function.update table item (some ⟨.writelock, [trans]⟩))
      else (false, table) := by
  rw [writeLock, h]
  simp only [count_one_and_remove]
  by_cases hup : info.type = .readlock ∧ info.transactions = [trans]
  · obtain ⟨type, transactions⟩ := info
    obtain ⟨rfl, rfl⟩ := hup
    simp [LockInfo.removeTransaction, LockInfo.hasTransaction, LockInfo.addTransaction]
  · rw [if_neg hup, if_neg hup]

/-- A request is granted, or it is refused and the table stays. -/
theorem lock_cases (table : LockTable) (trans : Trans) (op : Op) :
    (∃ table', table.lock trans op = (true, table') ∧ table.Grant trans op table') ∨
      (table.lock trans op = (false, table) ∧ table.Conflict trans op) := by
  cases hentry : table op.key with
  | none => exact Or.inl ⟨_, lock_none hentry, .fresh hentry⟩
  | some info =>
      obtain ⟨type, transactions⟩ := info
      cases hop : op.lockType with
      | readlock =>
          rw [lock, if_pos hop, readLock_some hentry]
          cases type with
          | readlock => exact Or.inl ⟨_, rfl, .shared hop hentry⟩
          | writelock =>
              rw [if_neg nofun]
              by_cases hown : transactions = [trans]
              · rw [if_pos hown]
                exact Or.inl ⟨table, rfl, .reread hop (by rw [hentry, hown])⟩
              · rw [if_neg hown]
                exact Or.inr ⟨rfl, _, hentry, Or.inr rfl, fun _ _ => hown, nofun⟩
      | writelock =>
          have hwrite : ¬op.lockType = .readlock := by
            rw [hop]
            nofun
          rw [lock, if_neg hwrite, writeLock_some hentry]
          by_cases hup : type = .readlock ∧ transactions = [trans]
          · obtain ⟨rfl, rfl⟩ := hup
            rw [if_pos ⟨rfl, rfl⟩]
            exact Or.inl ⟨_, rfl, .upgrade hop hentry⟩
          · rw [if_neg hup]
            refine Or.inr ⟨rfl, _, hentry, Or.inl hop, fun _ hread => absurd hread hwrite, ?_⟩
            exact fun htype hown => hup ⟨htype, hown⟩

theorem lock_granted {table table' : LockTable} {trans : Trans} {op : Op}
    (h : table.lock trans op = (true, table')) : table.Grant trans op table' := by
  rcases table.lock_cases trans op with ⟨found, hlock, hgrant⟩ | ⟨hlock, -⟩
  · rw [hlock, Prod.mk.injEq] at h
    exact h.2 ▸ hgrant
  · rw [hlock] at h
    cases h

theorem lock_refused {table table' : LockTable} {trans : Trans} {op : Op}
    (h : table.lock trans op = (false, table')) : table' = table ∧ table.Conflict trans op := by
  rcases table.lock_cases trans op with ⟨found, hlock, -⟩ | ⟨hlock, hconflict⟩
  · rw [hlock] at h
    cases h
  · rw [hlock, Prod.mk.injEq] at h
    exact ⟨h.2.symm, hconflict⟩

theorem Grant.not_conflict {table table' : LockTable} {trans : Trans} {op : Op}
    (h : table.Grant trans op table') : ¬table.Conflict trans op := by
  rintro ⟨info, hentry, hmode, hwrite, hread⟩
  cases h with
  | fresh hnone => rw [hnone] at hentry; cases hentry
  | shared hop hsome =>
      rw [hsome, Option.some.injEq] at hentry
      subst hentry
      rcases hmode with hop' | htype
      · rw [hop] at hop'; cases hop'
      · cases htype
  | reread hop hsome =>
      rw [hsome, Option.some.injEq] at hentry
      subst hentry
      exact hwrite rfl hop rfl
  | upgrade _ hsome =>
      rw [hsome, Option.some.injEq] at hentry
      subst hentry
      exact hread rfl rfl

theorem lock_of_conflict {table : LockTable} {trans : Trans} {op : Op} (h : table.Conflict trans op) :
    table.lock trans op = (false, table) := by
  rcases table.lock_cases trans op with ⟨found, -, hgrant⟩ | ⟨hlock, -⟩
  · exact absurd h hgrant.not_conflict
  · exact hlock

/-- One entry is changed, to one of the same kind. -/
theorem WellFormed.update {table : LockTable} (h : table.WellFormed) (item : Str) {info : LockInfo}
    (hholders : info.transactions ≠ [])
    (hwriter : info.type = .writelock → ∃ trans, info.transactions = [trans]) :
    LockTable.WellFormed (Function.update table item (some info)) := by
  intro key found hfound
  by_cases hkey : key = item
  · subst hkey
    rw [Function.update_self, Option.some.injEq] at hfound
    subst hfound
    exact ⟨hholders, hwriter⟩
  · rw [Function.update_of_ne hkey] at hfound
    exact h key found hfound

theorem Grant.wellFormed {table table' : LockTable} {trans : Trans} {op : Op}
    (h : table.Grant trans op table') (hwf : table.WellFormed) : table'.WellFormed := by
  cases h with
  | fresh _ => exact hwf.update op.key (List.cons_ne_nil trans []) fun _ => ⟨trans, rfl⟩
  | shared _ _ => exact hwf.update op.key (List.concat_ne_nil trans _) nofun
  | reread _ _ => exact hwf
  | upgrade _ _ => exact hwf.update op.key (List.cons_ne_nil trans []) fun _ => ⟨trans, rfl⟩

/-! ### A granted lock covers the operation it was asked for -/

/-- `trans` holds a lock strong enough for `op`. -/
def Covers (table : LockTable) (trans : Trans) (op : Op) : Prop :=
  ∃ info, table op.key = some info ∧ trans ∈ info.transactions ∧
    (op.lockType = .writelock → info.type = .writelock)

theorem Grant.covers {table table' : LockTable} {trans : Trans} {op : Op} (h : table.Grant trans op table') :
    table'.Covers trans op := by
  cases h with
  | fresh _ => exact ⟨_, Function.update_self .., by simp, id⟩
  | shared hop _ => exact ⟨_, Function.update_self .., by simp, fun hw => by rw [hop] at hw; cases hw⟩
  | reread hop hentry => exact ⟨_, hentry, by simp, fun _ => rfl⟩
  | upgrade _ _ => exact ⟨_, Function.update_self .., by simp, fun _ => rfl⟩

theorem Grant.of_ne {table table' : LockTable} {trans : Trans} {op : Op} (h : table.Grant trans op table')
    {item : Str} (hitem : item ≠ op.key) : table' item = table item := by
  cases h with
  | fresh _ => exact Function.update_of_ne hitem ..
  | shared _ _ => exact Function.update_of_ne hitem ..
  | reread _ _ => rfl
  | upgrade _ _ => exact Function.update_of_ne hitem ..

/-- A grant takes no lock away. -/
theorem Grant.covers_of_covers {table table' : LockTable} {trans other : Trans} {op op' : Op}
    (h : table.Grant trans op table') (hcov : table.Covers other op') : table'.Covers other op' := by
  obtain ⟨info, hentry, hmem, hmode⟩ := hcov
  by_cases hkey : op'.key = op.key
  · rw [hkey] at hentry
    cases h with
    | fresh hnone => rw [hnone] at hentry; cases hentry
    | @shared readers _ hsome =>
        rw [hsome, Option.some.injEq] at hentry
        subst hentry
        refine ⟨⟨.readlock, readers ++ [trans]⟩, ?_, List.mem_append_left _ hmem, hmode⟩
        rw [hkey]
        exact Function.update_self ..
    | reread _ _ => exact ⟨info, by rw [hkey]; exact hentry, hmem, hmode⟩
    | upgrade _ hsome =>
        rw [hsome, Option.some.injEq] at hentry
        subst hentry
        refine ⟨⟨.writelock, [trans]⟩, ?_, hmem, fun _ => rfl⟩
        rw [hkey]
        exact Function.update_self ..
  · exact ⟨info, by rw [h.of_ne hkey]; exact hentry, hmem, hmode⟩

/-- Two transactions that hold locks on one key both only read it. -/
theorem Covers.compatible {table : LockTable} (hwf : table.WellFormed) {trans other : Trans} {op op' : Op}
    (h : table.Covers trans op) (h' : table.Covers other op') (hkey : op'.key = op.key) (hne : other ≠ trans) :
    op.lockType ≠ .writelock ∧ op'.lockType ≠ .writelock := by
  obtain ⟨info, hentry, hmem, hmode⟩ := h
  obtain ⟨info', hentry', hmem', hmode'⟩ := h'
  rw [hkey, hentry, Option.some.injEq] at hentry'
  subst hentry'
  have hread : info.type ≠ .writelock := by
    intro hwrite
    obtain ⟨owner, howner⟩ := (hwf _ _ hentry).2 hwrite
    rw [howner, List.mem_singleton] at hmem hmem'
    exact hne (hmem'.trans hmem.symm)
  exact ⟨fun hw => hread (hmode hw), fun hw => hread (hmode' hw)⟩

/-- A grant adds at most one element to a holder list, the transaction's own. -/
theorem Grant.count_le {table table' : LockTable} {trans : Trans} {op : Op} (h : table.Grant trans op table')
    (other : Trans) (item : Str) :
    (table'.holders item).count other ≤
      (table.holders item).count other + if item = op.key ∧ other = trans then 1 else 0 := by
  by_cases hitem : item = op.key
  · subst hitem
    cases h with
    | fresh hnone =>
        rw [holders_update_self, holders_of_none hnone]
        by_cases ho : other = trans <;> simp [ho, Ne.symm]
    | shared _ hsome =>
        rw [holders_update_self, holders_of_some hsome, List.count_append]
        by_cases ho : other = trans <;> simp [ho, Ne.symm]
    | reread _ _ => exact Nat.le_add_right ..
    | upgrade _ hsome =>
        rw [holders_update_self, holders_of_some hsome]
        exact Nat.le_add_right ..
  · have heq : table'.holders item = table.holders item := by rw [holders, h.of_ne hitem]; rfl
    rw [heq]
    exact Nat.le_add_right ..

/-! ### Unlocking -/

theorem unlock_cases (table : LockTable) (trans : Trans) (item : Str) :
    (trans ∉ table.holders item ∧ (table.unlock trans item).2 = table) ∨
      ∃ info, table item = some info ∧ trans ∈ info.transactions ∧
        (table.unlock trans item).2 = Function.update table item
          (if info.transactions.erase trans = [] then none
            else some { info with transactions := info.transactions.erase trans }) := by
  cases hentry : table item with
  | none =>
      refine Or.inl ⟨?_, ?_⟩
      · simp [holders, hentry]
      · simp [unlock, hentry]
  | some info =>
      by_cases hmem : trans ∈ info.transactions
      · refine Or.inr ⟨info, rfl, hmem, ?_⟩
        simp only [unlock, hentry, LockInfo.removeTransaction, LockInfo.hasTransaction,
          LockInfo.transactionCount, List.contains_iff_mem, hmem, if_true, List.length_eq_zero_iff]
        split <;> rfl
      · refine Or.inl ⟨?_, ?_⟩
        · rw [holders_of_some hentry]
          exact hmem
        · simp [unlock, hentry, LockInfo.removeTransaction, LockInfo.hasTransaction, hmem]

theorem unlock_of_ne (table : LockTable) (trans : Trans) {item other : Str} (h : other ≠ item) :
    (table.unlock trans item).2 other = table other := by
  rcases table.unlock_cases trans item with ⟨-, heq⟩ | ⟨info, -, -, heq⟩
  · rw [heq]
  · rw [heq, Function.update_of_ne h]

theorem holders_unlock (table : LockTable) (trans : Trans) (item : Str) :
    ((table.unlock trans item).2).holders item = (table.holders item).erase trans := by
  rcases table.unlock_cases trans item with ⟨hmem, heq⟩ | ⟨info, hentry, -, heq⟩
  · rw [heq, List.erase_of_not_mem hmem]
  · rw [heq, holders_of_some hentry, holders, Function.update_self]
    split
    · next hnil => simp [hnil]
    · simp

/-- `Unlock` takes away nothing but one element of the transaction's own. -/
theorem count_unlock (table : LockTable) (trans other : Trans) (item key : Str) :
    (((table.unlock trans item).2).holders key).count other =
      (table.holders key).count other - if key = item ∧ other = trans then 1 else 0 := by
  by_cases hkey : key = item
  · subst hkey
    rw [holders_unlock]
    by_cases ho : other = trans
    · subst ho
      simp [List.count_erase_self]
    · simp [List.count_erase_of_ne ho, ho]
  · rw [holders, unlock_of_ne table trans hkey]
    simp [hkey, holders]

theorem covers_unlock {table : LockTable} {trans other : Trans} {op : Op} (item : Str) (hne : other ≠ trans)
    (h : table.Covers other op) : ((table.unlock trans item).2).Covers other op := by
  obtain ⟨info, hentry, hmem, hmode⟩ := h
  by_cases hkey : op.key = item
  · subst hkey
    rcases table.unlock_cases trans op.key with ⟨-, heq⟩ | ⟨info', hentry', -, heq⟩
    · exact ⟨info, by rw [heq]; exact hentry, hmem, hmode⟩
    · rw [hentry, Option.some.injEq] at hentry'
      subst hentry'
      have hmem' : other ∈ info.transactions.erase trans := (List.mem_erase_of_ne hne).mpr hmem
      refine ⟨{ info with transactions := info.transactions.erase trans }, ?_, hmem', hmode⟩
      rw [heq, Function.update_self, if_neg (List.ne_nil_of_mem hmem')]
  · exact ⟨info, by rw [unlock_of_ne _ _ hkey]; exact hentry, hmem, hmode⟩

theorem heldMode_unlock (table : LockTable) {trans other : Trans} (item key : Str) (hne : other ≠ trans) :
    ((table.unlock trans item).2).heldMode other key = table.heldMode other key := by
  by_cases hkey : key = item
  · subst hkey
    rcases table.unlock_cases trans key with ⟨-, heq⟩ | ⟨info, hentry, -, heq⟩
    · rw [heq]
    · rw [heq]
      simp only [heldMode, Function.update_self, hentry]
      split
      · next hsplit =>
        split at hsplit
        · next hnil =>
          have hmem : other ∉ info.transactions := by
            intro hmem
            have := (List.mem_erase_of_ne hne).mpr hmem
            rw [hnil] at this
            cases this
          rw [if_neg hmem]
        · cases hsplit
      · next info' hsplit =>
        split at hsplit
        · cases hsplit
        · rw [Option.some.injEq] at hsplit
          subst hsplit
          simp only [List.mem_erase_of_ne hne]
  · simp only [heldMode, unlock_of_ne table trans hkey]

theorem WellFormed.unlock {table : LockTable} (h : table.WellFormed) (trans : Trans) (item : Str) :
    ((table.unlock trans item).2).WellFormed := by
  rcases table.unlock_cases trans item with ⟨-, heq⟩ | ⟨info, hentry, hmem, heq⟩
  · rw [heq]
    exact h
  · rw [heq]
    intro key found hfound
    by_cases hkey : key = item
    · subst hkey
      rw [Function.update_self] at hfound
      split at hfound
      · cases hfound
      · next hne =>
        rw [Option.some.injEq] at hfound
        subst hfound
        refine ⟨hne, fun hwrite => ?_⟩
        obtain ⟨owner, howner⟩ := (h _ _ hentry).2 hwrite
        rw [howner, List.mem_singleton] at hmem
        exact absurd (by simp [howner, hmem]) hne
    · rw [Function.update_of_ne hkey] at hfound
      exact h key found hfound

theorem WellFormed.unlockAll {table : LockTable} (h : table.WellFormed) (trans : Trans) (items : List Str) :
    (table.unlockAll trans items).WellFormed := by
  induction items generalizing table with
  | nil => exact h
  | cons item items ih => exact ih (h.unlock trans item)

theorem covers_unlockAll {table : LockTable} {trans other : Trans} {op : Op} (items : List Str)
    (hne : other ≠ trans) (h : table.Covers other op) : (table.unlockAll trans items).Covers other op := by
  induction items generalizing table with
  | nil => exact h
  | cons item items ih => exact ih (covers_unlock item hne h)

theorem heldMode_unlockAll (table : LockTable) {trans other : Trans} (items : List Str) (key : Str)
    (hne : other ≠ trans) : (table.unlockAll trans items).heldMode other key = table.heldMode other key := by
  induction items generalizing table with
  | nil => rfl
  | cons item items ih => exact (ih _).trans (heldMode_unlock table item key hne)

theorem count_unlockAll (table : LockTable) (trans other : Trans) (items : List Str) (key : Str) :
    ((table.unlockAll trans items).holders key).count other =
      (table.holders key).count other - if other = trans then items.count key else 0 := by
  induction items generalizing table with
  | nil => simp [unlockAll]
  | cons item items ih =>
      change (((table.unlock trans item).2.unlockAll trans items).holders key).count other = _
      rw [ih, count_unlock]
      by_cases ho : other = trans
      · by_cases hkey : key = item
        · subst hkey
          simp only [ho, and_self, if_true, List.count_cons_self]
          omega
        · simp [ho, hkey, List.count_cons_of_ne (Ne.symm hkey)]
      · simp [ho]

end LockTable

end Thebends.Ydb
