import Thebends.RamdiskPaths

/-! Looking up a path (`GetDir`, `GetFile` and `GetNode`), and the operations that do so. Where the last name is
all that is missing, they say that nothing is there. Where a directory before it is missing, `GetNodeParent`
clears the name and gives no parent, and an assertion on the name fails before the parent is asked for. -/

namespace Thebends.Ramdisk

open LibExcept LibMap LibRun LibWalk

/-- What `Chmod` and `Chown` change of `stat_`. -/
structure Stat where
  mode : UInt32
  uid : UInt32
  gid : UInt32

/-- What `GetAttr` copies. -/
structure Attributes where
  stat : Stat
  nlink : Nat
  size : Int

def dot : Bytes := [46]

def dotDot : Bytes := [46, 46]

namespace Disk

/-- `Dir::GetFile`. -/
def getFileIn (d : Disk) (id : Nat) (path : Bytes) : Except Fault (Option Nat) := do
  assertNoSubdirs path
  let dir ← d.dir id
  return dir.files.lookup path

/-- `Dir::GetDir`. -/
def getDirIn (d : Disk) (id : Nat) (path : Bytes) : Except Fault (Option Nat) := do
  assertNoSubdirs path
  let dir ← d.dir id
  return dir.dirs.lookup path

/-- `Dir::GetNode`. -/
def getNodeIn (d : Disk) (id : Nat) (path : Bytes) : Except Fault (Option Node) := do
  match ← d.getFileIn id path with
  | some file => return some (.file file)
  | none => return (← d.getDirIn id path).map .dir

/-- `GetNodeParent`, and what is asked of the parent. -/
def inParent {α : Type} (d : Disk) (path : Bytes) (find : Nat → Bytes → Except Fault α) : Except Fault α := do
  let (parent, rest) ← d.getNodeParent path
  check (rest.length > 0)
  match parent with
  | none => .error .nullPointer
  | some parent => find parent rest

/-- `GetDir`, from the root. -/
def getDir (d : Disk) (path : Bytes) : Except Fault (Option Nat) :=
  if path = [slash] then .ok (some root) else d.inParent path d.getDirIn

/-- `GetNode`, from the root. -/
def getNode (d : Disk) (path : Bytes) : Except Fault (Option Node) :=
  if path = [slash] then .ok (some (.dir root)) else d.inParent path d.getNodeIn

/-- `GetAttr`. -/
def getAttr (d : Disk) (stats : Node → Stat) : Node → Except Fault Attributes
  | .file id => do
      let file ← d.file id
      return ⟨stats (.file id), 1, file.size⟩
  | .dir id => do
      let dir ← d.dir id
      return ⟨stats (.dir id), 2, dir.size⟩

/-- `Chmod`. -/
def chmod (stats : Node → Stat) (node : Node) (mode : UInt32) : Except Fault (Node → Stat) := do
  check (mode &&& sIfmt = 0)
  return Function.update stats node { stats node with mode := (stats node).mode &&& sIfmt ||| mode }

/-- `Chown`. -/
def chown (stats : Node → Stat) (node : Node) (uid gid : UInt32) : Node → Stat :=
  Function.update stats node { stats node with uid, gid }

/-- `Readdir`. -/
def readdir (d : Disk) (id : Nat) : Except Fault (List Bytes) := do
  let dir ← d.dir id
  return dot :: dotDot :: (dir.dirs.keys ++ dir.files.keys)

/-- `ramfs_getattr`. -/
def ramfsGetattr (d : Disk) (stats : Node → Stat) (path : Bytes) : Except Fault (Int × Option Attributes) := do
  match ← d.getNode path with
  | none => return (-enoent, none)
  | some node => return (0, some (← d.getAttr stats node))

/-- `ramfs_readdir`, with the names that it hands to the filler. -/
def ramfsReaddir (d : Disk) (path : Bytes) : Except Fault (Int × List Bytes) := do
  match ← d.getDir path with
  | none => return (-enoent, [])
  | some id => do
      let files ← d.readdir id
      files.forM fun file => do
        if file ≠ dot ∧ file ≠ dotDot then check (← d.getNodeIn id file).isSome
      return (0, files)

/-- `ramfs_chmod`. -/
def ramfsChmod (d : Disk) (stats : Node → Stat) (path : Bytes) (mode : UInt32) : Except Fault (Int × (Node → Stat)) := do
  match ← d.getNode path with
  | none => return (-enoent, stats)
  | some node => return (0, ← chmod stats node mode)

/-- `ramfs_chown`. -/
def ramfsChown (d : Disk) (stats : Node → Stat) (path : Bytes) (uid gid : UInt32) :
    Except Fault (Int × (Node → Stat)) := do
  match ← d.getNode path with
  | none => return (-enoent, stats)
  | some node => return (0, chown stats node uid gid)

/-! ### What is found -/

/-- The operations on a path at which there is nothing say so, and change nothing. -/
structure SaysMissing (d : Disk) (path : Bytes) : Prop where
  getattr : ∀ stats, d.ramfsGetattr stats path = .ok (-enoent, none)
  readdir : d.ramfsReaddir path = .ok (-enoent, [])
  truncate : ∀ offset, d.ramfsTruncate path offset = .ok (-enoent, d)
  chmod : ∀ stats mode, d.ramfsChmod stats path mode = .ok (-enoent, stats)
  chown : ∀ stats uid gid, d.ramfsChown stats path uid gid = .ok (-enoent, stats)
  unlink : d.ramfsUnlink path = .ok (-enoent, d)

/-- What is looked up is what the names of the path lead to. -/
structure Answers (d : Disk) (path : Bytes) : Prop where
  node : d.getNode path = .ok (d.resolve (components path))
  dir : d.getDir path = .ok (Node.asDir (d.resolve (components path)))
  file : path ≠ [slash] → d.getFile path = .ok (Node.asFile (d.resolve (components path)))
  missing : d.resolve (components path) = none → d.SaysMissing path

section

variable {d : Disk} {path : Bytes} {id : Nat}

theorem getFileIn_eq (hlive : (d.dirs.lookup id).isSome) (hslash : slash ∉ path) :
    d.getFileIn id path = .ok (d.fileAt id path) := by
  obtain ⟨dir, hdir⟩ := Option.isSome_iff_exists.mp hlive
  rw [getFileIn, assertNoSubdirs_eq hslash, ok_bind, dir_of_lookup hdir, ok_bind, fileAt_eq hdir]
  rfl

theorem getDirIn_eq (hlive : (d.dirs.lookup id).isSome) (hslash : slash ∉ path) :
    d.getDirIn id path = .ok (d.subdir id path) := by
  obtain ⟨dir, hdir⟩ := Option.isSome_iff_exists.mp hlive
  rw [getDirIn, assertNoSubdirs_eq hslash, ok_bind, dir_of_lookup hdir, ok_bind, subdir_eq hdir]
  rfl

theorem getNodeIn_eq (hlive : (d.dirs.lookup id).isSome) (hslash : slash ∉ path) :
    d.getNodeIn id path = .ok (d.nodeAt id path) := by
  rw [getNodeIn, getFileIn_eq hlive hslash, ok_bind]
  cases hfile : d.fileAt id path with
  | some file =>
      rw [nodeAt_of_fileAt hfile]
      rfl
  | none =>
      rw [nodeAt_of_none hfile, getDirIn_eq hlive hslash]
      rfl

theorem getFile_eq (hroot : path ≠ [slash]) : d.getFile path = d.inParent path d.getFileIn := by
  rw [getFile, check, if_pos (decide_eq_true hroot), ok_bind]
  rfl

end

section

variable {d : Disk} {path rest : Bytes} {parent : Nat} {α : Type} {find : Nat → Bytes → Except Fault α}

/-- Where there is a parent, it is asked. -/
theorem inParent_found (hparent : d.getNodeParent path = .ok (some parent, rest)) (hrest : rest ≠ []) :
    d.inParent path find = find parent rest := by
  have hcheck : check (decide (rest.length > 0)) = .ok () := if_pos (decide_eq_true (List.length_pos_iff.mpr hrest))
  rw [inParent, hparent, ok_bind]
  simp only [hcheck]
  rfl

/-- Where there is none, the assertion on the name fails. -/
theorem inParent_missing (hparent : d.getNodeParent path = .ok (none, [])) :
    d.inParent path find = .error .assertion := by
  rw [inParent, hparent]
  rfl

/-- The last of the names is one in the directory that is found. -/
theorem answers_of_parent (hapart : d.NamesApart) (hroot : path ≠ [slash])
    (hparent : d.getNodeParent path = .ok (some parent, rest)) (hrest : rest ≠ []) (hslash : slash ∉ rest)
    (hlive : (d.dirs.lookup parent).isSome) (hresolve : d.resolve (components path) = d.nodeAt parent rest) :
    d.Answers path := by
  have hnode : d.getNode path = .ok (d.nodeAt parent rest) := by
    rw [getNode, if_neg hroot, inParent_found hparent hrest, getNodeIn_eq hlive hslash]
  have hdir : d.getDir path = .ok (d.subdir parent rest) := by
    rw [getDir, if_neg hroot, inParent_found hparent hrest, getDirIn_eq hlive hslash]
  have hfile : d.getFile path = .ok (d.fileAt parent rest) := by
    rw [getFile_eq hroot, inParent_found hparent hrest, getFileIn_eq hlive hslash]
  rw [← hresolve] at hnode
  refine ⟨hnode, ?_, fun _ => ?_, fun hnone => ?_⟩
  · rw [hdir, hresolve, hapart.asDir_nodeAt]
  · rw [hfile, hresolve, asFile_nodeAt]
  · rw [hnone] at hnode
    obtain ⟨hnofile, hnodir⟩ := nodeAt_eq_none.mp (hresolve.symm.trans hnone)
    rw [hnofile] at hfile
    rw [hnodir] at hdir
    obtain ⟨dir, hlookup⟩ := Option.isSome_iff_exists.mp hlive
    refine ⟨fun stats => ?_, ?_, fun offset => ?_, fun stats mode => ?_, fun stats uid gid => ?_, ?_⟩
    · rw [ramfsGetattr, hnode]
      rfl
    · rw [ramfsReaddir, hdir]
      rfl
    · rw [ramfsTruncate, hfile]
      rfl
    · rw [ramfsChmod, hnode]
      rfl
    · rw [ramfsChown, hnode]
      rfl
    · have hentry : dir.files.lookup rest = none := (fileAt_eq hlookup rest).symm.trans hnofile
      have hunlink : d.unlink parent rest = .ok (false, d) := by
        rw [unlink, assertNoSubdirs_eq hslash, ok_bind, dir_of_lookup hlookup, ok_bind]
        simp only [hentry]
        rfl
      rw [ramfsUnlink, hparent, ok_bind]
      simp only [hunlink]
      rfl

theorem answers_root (d : Disk) : d.Answers [slash] := by
  refine ⟨rfl, rfl, fun hne => absurd rfl hne, fun hnone => ?_⟩
  cases hnone

end

/-- **All look-ups of a path, and the operations that rest on them, answer as they should just when the path is
that of the root or all its names but the last lead to a directory.** -/
theorem answers_iff {ops : List Op} {d : Disk} (hrun : Run Returns new ops d) {path : Bytes}
    (hslash : path.head? = some slash) (hnames : ∀ name ∈ components path, name ≠ []) :
    d.Answers path ↔ path = [slash] ∨ ∃ parent, d.resolve (components path).dropLast = some (.dir parent) := by
  have hsound := sound_of_run hrun
  have hapart := namesApart_of_run hrun
  by_cases hroot : path = [slash]
  · rw [hroot]
    exact iff_of_true (answers_root d) (Or.inl rfl)
  · have hcomponents : components path = names path := if_neg hroot
    obtain ⟨above, last, hsplit, hlast⟩ := exists_names path
    have hparent := getNodeParent_eq hsound hapart hslash hsplit
    rw [hcomponents, hsplit] at hnames
    rw [or_iff_right hroot, hcomponents, hsplit, List.dropLast_concat]
    cases hfound : Node.asDir (d.resolve above) with
    | some parent =>
        rw [hfound] at hparent
        have hdir := Node.asDir_eq_some.mp hfound
        have hne : last ≠ [] := hnames last (List.mem_append_right above List.mem_cons_self)
        refine iff_of_true ?_ ⟨parent, hdir⟩
        refine answers_of_parent hapart hroot hparent hne hlast (hsound.live_of_resolve hdir) ?_
        rw [hcomponents, hsplit, resolve_concat, hfound]
        rfl
    | none =>
        rw [hfound] at hparent
        refine iff_of_false (fun hanswers => ?_) ?_
        · have hnode := hanswers.node
          rw [getNode, if_neg hroot, inParent_missing hparent] at hnode
          cases hnode
        · rintro ⟨parent, hdir⟩
          rw [Node.asDir_eq_some.mpr hdir] at hfound
          cases hfound

/-- A file in a directory is found, and there is no answer for a file in a directory that is missing. -/
theorem answers_iff_nested : ∃ d, Run Returns new [.mkdir [47, 97] 0, .create [47, 97, 47, 98] 0] d ∧
    d.Answers [47, 97, 47, 98] ∧ ¬d.Answers [47, 99, 47, 98] := by
  have hfound : ([.mkdir [47, 97] 0, .create [47, 97, 47, 98] 0].foldlM step new).map
      (fun d => (d.resolve (components [47, 97, 47, 98]).dropLast, d.resolve (components [47, 99, 47, 98]).dropLast)) =
        .ok (some (.dir 1), none) := by rfl
  cases hend : [.mkdir [47, 97] 0, .create [47, 97, 47, 98] 0].foldlM step new with
  | error fault =>
      rw [hend] at hfound
      cases hfound
  | ok d =>
      rw [hend] at hfound
      obtain ⟨hhere, hmissing⟩ := Prod.mk.inj (Except.ok.inj hfound)
      have hrun := Run.of_foldlM step new _ hend
      refine ⟨d, hrun, (answers_iff hrun rfl (by decide)).mpr (Or.inr ⟨1, hhere⟩), fun hanswers => ?_⟩
      obtain hroot | ⟨parent, hparent⟩ := (answers_iff hrun rfl (by decide)).mp hanswers
      · exact absurd hroot (by decide)
      · cases hmissing.symm.trans hparent

/-- A directory on the way is missing, and an assertion fails. -/
theorem missing_parent_fails : ¬∀ ops d path, Run Returns new ops d → path.head? = some slash →
    (∀ name ∈ components path, name ≠ []) → d.Answers path := by
  intro h
  have hnode := (h [] new [47, 97, 47, 98] (Run.nil new) rfl (by decide)).node
  have hfails : new.getNode [47, 97, 47, 98] = .error .assertion := rfl
  cases hfails.symm.trans hnode

end Disk

end Thebends.Ramdisk
