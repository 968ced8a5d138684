import Thebends.RamdiskLookup

/-! `GetNodeParent` on the characters of the path, below any directory. It cuts the path after each slash and calls
itself with what is left; the last name is what follows the last slash, and may be empty. -/

namespace Thebends.Ramdisk

open LibExcept LibSplit LibWalk

/-- `find` of a `std::string`, for one character. -/
def find (text : Bytes) (c : UInt8) (pos : Nat) : Option Nat := ((text.drop pos).idxOf? c).map (pos + ·)

theorem find_lt {text : Bytes} {c : UInt8} {pos found : Nat} (h : find text c pos = some found) :
    pos ≤ found ∧ found < text.length := by
  obtain ⟨count, hcount, rfl⟩ := Option.map_eq_some_iff.mp h
  obtain ⟨hlt, -⟩ := List.findIdx?_eq_some_iff_getElem.mp hcount
  rw [List.length_drop] at hlt
  omega

namespace Disk

/-- `GetNodeParent`, with what it leaves in `*rest`. -/
def getNodeParentFrom (d : Disk) (root : Nat) (path : Bytes) : Except Fault (Option Nat × Bytes) := do
  check (path.length > 0 ∧ path.head? = some slash)
  match _hpos : find path slash 1 with
  | some pos =>
      match ← d.getDirIn root ((path.drop 1).take (pos - 1)) with
      | none => return (none, [])
      | some next => getNodeParentFrom d next (path.drop pos)
  | none => return (some root, path.drop 1)
termination_by path.length
decreasing_by
  have := find_lt _hpos
  rw [List.length_drop]
  omega

section

variable {d : Disk} {path name rest : Bytes} {root : Nat}

theorem find_cut (h : slash ∉ name) (rest : Bytes) :
    find (slash :: (name ++ slash :: rest)) slash 1 = some (1 + name.length) := by
  rw [find, List.drop_one, List.tail_cons, idxOf?_append h]
  rfl

theorem find_last (h : slash ∉ name) : find (slash :: name) slash 1 = none := by
  rw [find, List.drop_one, List.tail_cons, List.idxOf?_eq_none_iff.mpr h]
  rfl

theorem absolute (path : Bytes) :
    check (decide ((slash :: path).length > 0 ∧ (slash :: path).head? = some slash)) = .ok () :=
  if_pos (decide_eq_true ⟨Nat.succ_pos _, rfl⟩)

theorem getNodeParentFrom_last (h : slash ∉ name) : d.getNodeParentFrom root (slash :: name) = .ok (some root, name) := by
  rw [getNodeParentFrom, absolute, ok_bind]
  split
  case h_1 pos hpos =>
    rw [find_last h] at hpos
    cases hpos
  case h_2 => rfl

theorem getNodeParentFrom_cut (h : slash ∉ name) (rest : Bytes) :
    d.getNodeParentFrom root (slash :: (name ++ slash :: rest)) = (do
      match ← d.getDirIn root name with
      | none => return (none, [])
      | some next => d.getNodeParentFrom next (slash :: rest)) := by
  rw [getNodeParentFrom, absolute, ok_bind]
  split
  case h_1 pos hpos =>
    rw [find_cut h, Option.some.injEq] at hpos
    subst hpos
    have hname : ((slash :: (name ++ slash :: rest)).drop 1).take (1 + name.length - 1) = name := by
      rw [List.drop_one, List.tail_cons, Nat.add_sub_cancel_left, List.take_left]
    have hrest : (slash :: (name ++ slash :: rest)).drop (1 + name.length) = slash :: rest := by
      rw [Nat.add_comm, List.drop_succ_cons, List.drop_left]
    rw [hname, hrest]
  case h_2 hpos =>
    rw [find_cut h] at hpos
    cases hpos

/-- From the root of the ramdisk, it is what the operations call. -/
theorem getNodeParentFrom_eq_walk (d : Disk) (root : Nat) (tail : Bytes) :
    d.getNodeParentFrom root (slash :: tail) = d.walk root (tail.splitOn slash) := by
  induction tail using induction_on slash generalizing root with
  | last name hname =>
      rw [getNodeParentFrom_last hname, List.splitOn_eq_singleton hname]
      rfl
  | cut name rest hname ih =>
      rw [getNodeParentFrom_cut hname, List.splitOn_append_cons_self_of_not_mem hname]
      cases hparts : rest.splitOn slash with
      | nil => exact absurd hparts (List.splitOn_ne_nil slash rest)
      | cons next more =>
          rw [getDirIn, walk, assertNoSubdirs_eq hname, ok_bind, ok_bind, bind_assoc]
          refine bind_congr fun dir => ?_
          rw [pure_bind]
          cases dir.dirs.lookup name with
          | none => rfl
          | some child => exact (ih child).trans (congrArg (d.walk child) hparts)

theorem getNodeParentFrom_root (hslash : path.head? = some slash) :
    d.getNodeParentFrom Ramdisk.root path = d.getNodeParent path := by
  rw [← List.cons_head?_tail hslash, getNodeParentFrom_eq_walk, getNodeParent, List.cons_head?_tail hslash, check,
    if_pos (decide_eq_true hslash), ok_bind]

end

end Disk

/-- A directory in memory, and what is below it. -/
structure Tree where
  disk : Disk
  root : Nat
  rooted : (disk.dirs.lookup root).isSome
  live : ∀ id name child, disk.subdir id name = some child → (disk.dirs.lookup child).isSome

namespace Tree

/-- The root of a ramdisk. -/
def ofSound {d : Disk} (h : d.Sound) : Tree where
  disk := d
  root := Ramdisk.root
  rooted := by
    obtain ⟨dir, hdir, -⟩ := h.root
    exact Option.isSome_iff_exists.mpr ⟨dir, hdir⟩
  live := h.live

/-- Where `GetDir` leads (`Disk.getDirIn_eq`), from one directory to the next. -/
def directory (tree : Tree) (names : List Bytes) : Option Nat := follow tree.disk.subdir tree.root names

/-- `GetNodeParent(root, path, rest)`. -/
def getNodeParent (tree : Tree) (path : Bytes) : Except Fault (Option Nat × Bytes) :=
  tree.disk.getNodeParentFrom tree.root path

/-- **`GetNodeParent` follows all names of a path but the last**, through the directories, and leaves the last one;
where one of them is not that of a directory there is no parent, and nothing is left. -/
theorem getNodeParent_iff (tree : Tree) {path last : Bytes} {above : List Bytes} (hslash : path.head? = some slash)
    (hnames : names path = above ++ [last]) :
    (∀ parent, tree.getNodeParent path = .ok (some parent, last) ↔ tree.directory above = some parent) ∧
    (tree.getNodeParent path = .ok (none, []) ↔ ∃ before name after dir, above = before ++ name :: after ∧
      tree.directory before = some dir ∧ tree.disk.subdir dir name = none) := by
  have hparts : ∀ name ∈ above, slash ∉ name := fun name hname =>
    not_mem_of_mem_splitOn (hnames ▸ List.mem_append_left [last] hname)
  have hwalk : tree.getNodeParent path = tree.disk.walk tree.root (above ++ [last]) := by
    rw [getNodeParent, ← List.cons_head?_tail hslash, Disk.getNodeParentFrom_eq_walk]
    exact congrArg (tree.disk.walk tree.root) hnames
  simp only [directory, ← follow_eq_none_iff]
  rw [hwalk, Disk.walk_eq tree.live hparts tree.rooted last]
  cases follow tree.disk.subdir tree.root above <;> simp

/-- With the directory `a` only, there is a parent for `/a/b`, and none for `/c/b`. -/
theorem getNodeParent_iff_made : ∃ d, ∃ hsound : d.Sound, Disk.new.step (.mkdir [47, 97] 0) = .ok d ∧
    (ofSound hsound).getNodeParent [47, 97, 47, 98] = .ok (some 1, [98]) ∧
    (ofSound hsound).getNodeParent [47, 99, 47, 98] = .ok (none, []) := by
  have hdirs : (Disk.new.step (.mkdir [47, 97] 0)).map (fun d => (d.subdir 0 [97], d.subdir 0 [99])) =
      .ok (some 1, none) := by rfl
  cases hmade : Disk.new.step (.mkdir [47, 97] 0) with
  | error fault =>
      rw [hmade] at hdirs
      cases hdirs
  | ok d =>
      rw [hmade] at hdirs
      obtain ⟨hfound, hmissing⟩ := Prod.mk.inj (Except.ok.inj hdirs)
      have hsound : d.Sound := Disk.sound_new.step hmade
      refine ⟨d, hsound, rfl, ?_, ?_⟩
      · have hnames : names [47, 97, 47, 98] = [[97]] ++ [[98]] := by decide
        refine ((getNodeParent_iff (ofSound hsound) rfl hnames).1 1).mpr ?_
        exact congrArg (fun found => found.bind fun next => some next) hfound
      · refine (getNodeParent_iff (ofSound hsound) rfl (by decide : names [47, 99, 47, 98] = [[99]] ++ [[98]])).2.mpr ?_
        exact ⟨[], [99], [], 0, rfl, rfl, hmissing⟩

end Tree

end Thebends.Ramdisk
