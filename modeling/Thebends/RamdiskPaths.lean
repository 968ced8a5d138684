import Thebends.LibSplit
import Thebends.LibWalk
import Thebends.RamdiskStep

/-! Paths. Through all calls each name stands once in a directory, for a file or for a directory; so the nodes of
a ramdisk are a tree, and `GetNodeParent` finds the directory to which all names of a path but the last lead. -/

namespace Thebends.Ramdisk

open LibExcept LibMap LibRun LibSplit LibWalk

/-- A pointer to a `Node`. -/
inductive Node
  | file (id : Nat)
  | dir (id : Nat)
  deriving DecidableEq, Repr

/-- The directory that was found, if it is one. -/
def Node.asDir : Option Node → Option Nat
  | some (.dir id) => some id
  | _ => none

/-- The file that was found, if it is one. -/
def Node.asFile : Option Node → Option Nat
  | some (.file id) => some id
  | _ => none

theorem Node.asDir_eq_some {node : Option Node} {id : Nat} : asDir node = some id ↔ node = some (.dir id) := by
  cases node with
  | none =>
      constructor
      · intro h
        cases h
      · intro h
        cases h
  | some node =>
      cases node with
      | file file =>
          constructor
          · intro h
            cases h
          · intro h
            cases h
      | dir child => rw [asDir, Option.some.injEq, Option.some.injEq, Node.dir.injEq]

/-- The parts of a path between the slashes. -/
def names (path : Bytes) : List Bytes := path.tail.splitOn slash

/-- The names that lead to what the path means: none for that of the root. -/
def components (path : Bytes) : List Bytes := if path = [slash] then [] else names path

theorem names_injective {path path' : Bytes} (hslash : path.head? = some slash) (hslash' : path'.head? = some slash)
    (h : names path = names path') : path = path' := by
  have htail : path.tail = path'.tail := calc
    path.tail = [slash].intercalate (names path) := (List.intercalate_splitOn slash).symm
    _ = [slash].intercalate (names path') := by rw [h]
    _ = path'.tail := List.intercalate_splitOn slash
  rw [← List.cons_head?_tail hslash, ← List.cons_head?_tail hslash', htail]

/-- The last of the parts, and those above it. -/
theorem exists_names (path : Bytes) : ∃ above last, names path = above ++ [last] ∧ slash ∉ last := by
  have hne : names path ≠ [] := List.splitOn_ne_nil slash path.tail
  have hsplit := List.dropLast_append_getLast hne
  refine ⟨_, _, hsplit.symm, not_mem_of_mem_splitOn (List.getLast_mem hne)⟩

namespace Disk

/-! ### One node for a name -/

/-- No directory has a file and a directory of one name. -/
def NamesApart (d : Disk) : Prop := ∀ id dir, d.dirs.lookup id = some dir → Map.Apart dir.files dir.dirs

section

variable {d d' : Disk} {id : Nat} {dir dir' : Dir} {path : Bytes} {node : Nat}

theorem NamesApart.setDir (h : d.NamesApart) (hdir' : Map.Apart dir'.files dir'.dirs) : (d.setDir id dir').NamesApart := by
  intro other found hfound
  rw [lookup_setDir] at hfound
  split at hfound
  · cases hfound
    exact hdir'
  · exact h other found hfound

theorem Recounted.namesApart (h : Recounted d d') (hapart : d.NamesApart) : d'.NamesApart := by
  intro other found hfound
  obtain ⟨before, hbefore, hsame⟩ := h.symm.lookup hfound
  obtain ⟨-, -, hdirs, hfiles⟩ := Dir.of_uncounted hsame
  rw [← hdirs, ← hfiles]
  exact hapart other before hbefore

theorem NamesApart.makeDir (h : d.NamesApart) (parent : Nat) : (d.makeDir parent).NamesApart := by
  intro other found hfound
  rw [lookup_makeDir] at hfound
  split at hfound
  · cases hfound
    exact fun _ hsome => Bool.noConfusion hsome
  · exact h other found hfound

theorem NamesApart.delete (h : d.NamesApart) (child : Nat) : (d.delete child).NamesApart := by
  intro other found hfound
  rw [Disk.delete, Map.lookup_foldl_erase] at hfound
  split at hfound
  · cases hfound
  · exact h other found hfound

theorem NamesApart.move_file (h : d.NamesApart) {parent₂ : Nat} {name₁ name₂ : Bytes} {released : Disk}
    (hrelease : d.releaseFileNode id name₁ = .ok (some node, released))
    (hinsert : released.insertFileNode parent₂ name₂ node = .ok d') : d'.NamesApart := by
  obtain ⟨dir, hdir, hentry, hupdate⟩ := releaseFileNode_some hrelease
  have hreleased : released.NamesApart :=
    (recounted_updateDiskUsed hupdate).namesApart (h.setDir ((h id dir hdir).erase name₁))
  obtain ⟨dir₂, hdir₂⟩ : ∃ dir₂, released.dirs.lookup parent₂ = some dir₂ := by
    obtain ⟨⟨exist, left⟩, hleft, -⟩ := bind_eq_ok hinsert
    obtain ⟨dir₂, hdir₂, -⟩ := bind_eq_ok hleft
    exact ⟨dir₂, dir_ok hdir₂⟩
  have happart := hreleased parent₂ dir₂ hdir₂
  obtain ⟨hchild, ⟨-, hcounted⟩ | ⟨exist, -, hcounted⟩⟩ := insertFileNode_recounted hinsert hdir₂
  · exact hcounted.namesApart (hreleased.setDir (happart.insert hchild node))
  · have hfreed : NamesApart { released with files := released.files.erase exist } := hreleased
    exact hcounted.namesApart (hfreed.setDir ((happart.erase name₂).insert hchild node))

theorem NamesApart.move_dir (h : d.NamesApart) {parent₂ : Nat} {name₁ name₂ : Bytes} {released : Disk}
    (hrelease : d.releaseDirNode id name₁ = .ok (some node, released))
    (hinsert : released.insertDirNode parent₂ name₂ node = .ok d') : d'.NamesApart := by
  obtain ⟨dir, hdir, hentry, hupdate⟩ := releaseDirNode_some hrelease
  have hreleased : released.NamesApart :=
    (recounted_updateDiskUsed hupdate).namesApart (h.setDir ((h id dir hdir).symm.erase name₁).symm)
  obtain ⟨dir₂, hdir₂, hnew, hupdate₂⟩ := insertDirNode_ok hinsert
  have happart := hreleased parent₂ dir₂ hdir₂
  obtain ⟨hfile, -⟩ := hasNode_eq_false.mp hnew
  exact (recounted_updateDiskUsed hupdate₂).namesApart (hreleased.setDir (happart.symm.insert hfile node).symm)

theorem NamesApart.step (h : d.NamesApart) {op : Op} (hstep : d.step op = .ok d') : d'.NamesApart := by
  cases outcome_of_step hstep with
  | nothing => exact h
  | @create path name mode id dir hparent hdir hnew =>
      have hmade : NamesApart { d with files := d.files.insert d.next ⟨id, [], 0⟩, next := d.next + 1 } := h
      exact hmade.setDir ((h id dir hdir).insert (hasNode_eq_false.mp hnew).2 d.next)
  | @mkdir path name mode id dir hparent hdir hnew =>
      exact (h.makeDir id).setDir ((h id dir hdir).symm.insert (hasNode_eq_false.mp hnew).1 d.next).symm
  | write hfile hdata hupdate => exact (recounted_updateDiskUsed hupdate).namesApart h
  | truncate hget hfile hupdate => exact (recounted_updateDiskUsed hupdate).namesApart h
  | @unlink path name id file dir hparent hdir hentry =>
      have hfreed : NamesApart { d with files := d.files.erase file } := h
      exact hfreed.setDir ((h id dir hdir).erase name)
  | @rmdir path name id child dir hparent hdir hentry =>
      exact (h.delete child).setDir ((h id dir hdir).symm.erase name).symm
  | renameFile hsource htarget hrelease hinsert => exact h.move_file hrelease hinsert
  | renameDir hsource htarget hrelease hinsert => exact h.move_dir hrelease hinsert

theorem namesApart_new : new.NamesApart := by
  intro id dir hdir
  rw [lookup_new] at hdir
  split at hdir
  · cases hdir
    exact fun _ hsome => Bool.noConfusion hsome
  · cases hdir

theorem namesApart_of_run {ops : List Op} (h : Run Returns new ops d) : d.NamesApart :=
  h.invariant (fun _ state => state.NamesApart) namesApart_new fun _ _ _ _ _ hbefore hstep => hbefore.step hstep

end

/-! ### The tree -/

/-- The node that a directory has under a name. -/
def nodeAt (d : Disk) (id : Nat) (path : Bytes) : Option Node :=
  match d.fileAt id path with
  | some file => some (.file file)
  | none => (d.subdir id path).map .dir

/-- Files lead nowhere. -/
def entry (d : Disk) : Node → Bytes → Option Node
  | .file _, _ => none
  | .dir id, path => d.nodeAt id path

/-- The node that is reached from the root. -/
def resolve (d : Disk) (names : List Bytes) : Option Node := follow d.entry (.dir root) names

section

variable {d : Disk} {id : Nat} {path : Bytes} {names : List Bytes}

theorem fileAt_of_nodeAt {file : Nat} (h : d.nodeAt id path = some (.file file)) : d.fileAt id path = some file := by
  rw [nodeAt] at h
  split at h
  case h_1 found hfound =>
    cases h
    exact hfound
  case h_2 =>
    obtain ⟨child, -, hchild⟩ := Option.map_eq_some_iff.mp h
    cases hchild

theorem subdir_of_nodeAt {child : Nat} (h : d.nodeAt id path = some (.dir child)) :
    d.fileAt id path = none ∧ d.subdir id path = some child := by
  rw [nodeAt] at h
  split at h
  · cases h
  case h_2 hnone =>
    obtain ⟨found, hfound, hchild⟩ := Option.map_eq_some_iff.mp h
    cases hchild
    exact ⟨hnone, hfound⟩

theorem nodeAt_of_fileAt {file : Nat} (h : d.fileAt id path = some file) : d.nodeAt id path = some (.file file) := by
  rw [nodeAt, h]

theorem nodeAt_of_none (h : d.fileAt id path = none) : d.nodeAt id path = (d.subdir id path).map .dir := by
  rw [nodeAt, h]

theorem nodeAt_eq_none : d.nodeAt id path = none ↔ d.fileAt id path = none ∧ d.subdir id path = none := by
  constructor
  · intro h
    cases hfile : d.fileAt id path with
    | some file =>
        rw [nodeAt_of_fileAt hfile] at h
        cases h
    | none => exact ⟨rfl, Option.map_eq_none_iff.mp ((nodeAt_of_none hfile).symm.trans h)⟩
  · rintro ⟨hfile, hchild⟩
    rw [nodeAt_of_none hfile, hchild, Option.map_none]

theorem NamesApart.fileAt (h : d.NamesApart) {child : Nat} (hchild : d.subdir id path = some child) :
    d.fileAt id path = none := by
  rw [Disk.subdir] at hchild
  obtain ⟨dir, hdir, hlookup⟩ := Option.bind_eq_some_iff.mp hchild
  rw [fileAt_eq hdir]
  exact (h id dir hdir).symm path (Option.isSome_iff_exists.mpr ⟨child, hlookup⟩)

theorem NamesApart.nodeAt (h : d.NamesApart) {child : Nat} (hchild : d.subdir id path = some child) :
    d.nodeAt id path = some (.dir child) := by
  rw [nodeAt_of_none (h.fileAt hchild), hchild, Option.map_some]

theorem asFile_nodeAt (d : Disk) (id : Nat) (path : Bytes) : Node.asFile (d.nodeAt id path) = d.fileAt id path := by
  cases hfile : d.fileAt id path with
  | some file =>
      rw [nodeAt_of_fileAt hfile]
      rfl
  | none =>
      rw [nodeAt_of_none hfile]
      cases d.subdir id path <;> rfl

theorem NamesApart.asDir_nodeAt (h : d.NamesApart) (id : Nat) (path : Bytes) :
    Node.asDir (d.nodeAt id path) = d.subdir id path := by
  cases hchild : d.subdir id path with
  | some child =>
      rw [h.nodeAt hchild]
      rfl
  | none =>
      rw [Disk.nodeAt, hchild]
      cases d.fileAt id path <;> rfl

theorem Sound.isTree (h : d.Sound) : IsTree d.entry (.dir Ramdisk.root) := by
  refine ⟨fun x name y name' z hx hy => ?_, fun x name hroot => ?_⟩
  · cases x with
    | file file => cases hx
    | dir id =>
        cases y with
        | file file => cases hy
        | dir id' =>
            cases z with
            | file file =>
                obtain ⟨rfl, rfl⟩ := h.onceFile id name id' name' file (fileAt_of_nodeAt hx) (fileAt_of_nodeAt hy)
                exact ⟨rfl, rfl⟩
            | dir child =>
                obtain ⟨-, hx⟩ := subdir_of_nodeAt hx
                obtain ⟨-, hy⟩ := subdir_of_nodeAt hy
                obtain ⟨rfl, rfl⟩ := h.once id name id' name' child hx hy
                exact ⟨rfl, rfl⟩
  · cases x with
    | file file => cases hroot
    | dir id => exact h.free id name (subdir_of_nodeAt hroot).2

/-- Behind a file there is nothing. -/
theorem follow_file (file child : Nat) (names : List Bytes) : follow d.entry (.file file) names ≠ some (.dir child) := by
  cases names with
  | nil =>
      intro h
      cases h
  | cons name names =>
      intro h
      cases h

/-- The last name is one in the directory to which the others lead. -/
theorem resolve_concat (d : Disk) (names : List Bytes) (name : Bytes) :
    d.resolve (names ++ [name]) = (Node.asDir (d.resolve names)).bind fun parent => d.nodeAt parent name := by
  rw [resolve, follow_concat, resolve]
  cases follow d.entry (.dir root) names with
  | none => rfl
  | some node => cases node <;> rfl

theorem Sound.live_of_resolve (h : d.Sound) {names : List Bytes} {id : Nat} (hdir : d.resolve names = some (.dir id)) :
    (d.dirs.lookup id).isSome := by
  cases names using List.reverseRecOn with
  | nil =>
      cases hdir
      obtain ⟨dir, hroot, -⟩ := h.root
      exact Option.isSome_iff_exists.mpr ⟨dir, hroot⟩
  | append_singleton names name =>
      rw [resolve_concat] at hdir
      obtain ⟨parent, -, hnode⟩ := Option.bind_eq_some_iff.mp hdir
      exact h.live parent name id (subdir_of_nodeAt hnode).2

/-! ### `GetNodeParent` -/

theorem assertNoSubdirs_eq (h : slash ∉ path) : assertNoSubdirs path = .ok () := by
  rw [assertNoSubdirs, check, if_pos (decide_eq_true h)]

/-- It follows the directories. -/
theorem walk_eq (hclosed : ∀ id name child, d.subdir id name = some child → (d.dirs.lookup child).isSome)
    {above : List Bytes} (hparts : ∀ name ∈ above, slash ∉ name) (hlive : (d.dirs.lookup id).isSome) (last : Bytes) :
    d.walk id (above ++ [last]) = .ok (match follow d.subdir id above with
      | some parent => (some parent, last)
      | none => (none, [])) := by
  induction above generalizing id with
  | nil => rfl
  | cons name above ih =>
      obtain ⟨hname, habove⟩ := List.forall_mem_cons.mp hparts
      obtain ⟨dir, hdir⟩ := Option.isSome_iff_exists.mp hlive
      obtain ⟨next, more, hmore⟩ := List.exists_cons_of_ne_nil (List.concat_ne_nil last above)
      rw [List.cons_append, hmore, walk, assertNoSubdirs_eq hname, ok_bind, dir_of_lookup hdir, ok_bind, ← hmore, follow]
      cases hchild : d.subdir id name with
      | none =>
          rw [subdir_eq hdir] at hchild
          rw [hchild]
          rfl
      | some child =>
          have hnext := ih habove (hclosed id name child hchild)
          rw [subdir_eq hdir] at hchild
          rw [hchild]
          exact hnext

/-- Where names are apart, directories are what the names lead through. -/
theorem NamesApart.asDir_follow (hapart : d.NamesApart) (id : Nat) (names : List Bytes) :
    Node.asDir (follow d.entry (.dir id) names) = follow d.subdir id names := by
  induction names generalizing id with
  | nil => rfl
  | cons name names ih =>
      rw [follow, follow, entry]
      cases hchild : d.subdir id name with
      | some child =>
          rw [hapart.nodeAt hchild]
          exact ih child
      | none =>
          rw [Disk.nodeAt, hchild]
          cases d.fileAt id name with
          | none => rfl
          | some file =>
              have hstops : Node.asDir (follow d.entry (.file file) names) = none :=
                Option.eq_none_iff_forall_ne_some.mpr fun child hfound =>
                  follow_file file child names (Node.asDir_eq_some.mp hfound)
              exact hstops

theorem getNodeParent_eq (hsound : d.Sound) (hapart : d.NamesApart) (hslash : path.head? = some slash)
    {above : List Bytes} {last : Bytes} (hnames : Ramdisk.names path = above ++ [last]) :
    d.getNodeParent path = .ok (match Node.asDir (d.resolve above) with
      | some parent => (some parent, last)
      | none => (none, [])) := by
  obtain ⟨dir, hdir, -⟩ := hsound.root
  have hparts : ∀ name ∈ above, slash ∉ name := fun name hname =>
    not_mem_of_mem_splitOn (hnames ▸ List.mem_append_left [last] hname)
  rw [resolve, hapart.asDir_follow]
  rw [Ramdisk.names] at hnames
  rw [getNodeParent, check, if_pos (decide_eq_true hslash), ok_bind, hnames]
  exact walk_eq hsound.live hparts (Option.isSome_iff_exists.mpr ⟨dir, hdir⟩) last

end

end Disk

end Thebends.Ramdisk
