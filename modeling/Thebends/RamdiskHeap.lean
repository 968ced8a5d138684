import Thebends.LibExcept
import Thebends.LibForest
import Thebends.RamdiskDisk

/-! What always holds of the objects of a ramdisk: no directory or file is in two places, and what a directory
lists is in memory. This needs nothing of the cached totals, which `UpdateDiskUsed` may set as it likes. -/

namespace Thebends.Ramdisk

open LibExcept LibMap Relation

theorem check_ok {condition : Prop} [Decidable condition] {done : Unit}
    (h : check (decide condition) = .ok done) : condition := by
  unfold check at h
  split at h
  case isTrue hcondition => exact of_decide_eq_true hcondition
  case isFalse => cases h

/-- A directory without its cached total. -/
def Dir.uncounted (dir : Dir) : Dir := { dir with diskUsed := 0 }

theorem Dir.of_uncounted {dir dir' : Dir} (h : dir'.uncounted = dir.uncounted) :
    dir'.parent = dir.parent ∧ dir'.size = dir.size ∧ dir'.dirs = dir.dirs ∧ dir'.files = dir.files := by
  simpa only [Dir.uncounted, Dir.mk.injEq, true_and] using h

namespace Disk

/-- The directory that a directory has under a name. -/
def subdir (d : Disk) (id : Nat) (path : Bytes) : Option Nat := (d.dirs.lookup id).bind fun dir => dir.dirs.lookup path

/-- The file that a directory has under a name. -/
def fileAt (d : Disk) (id : Nat) (path : Bytes) : Option Nat := (d.dirs.lookup id).bind fun dir => dir.files.lookup path

def Holds (d : Disk) (id child : Nat) : Prop := ∃ path, d.subdir id path = some child

/-- A directory to which a path leads from the root. -/
def Reachable (d : Disk) (id : Nat) : Prop := ReflTransGen d.Holds root id

/-- Nothing is entered twice. -/
def Once (entry : Nat → Bytes → Option Nat) : Prop :=
  ∀ id path id' path' node, entry id path = some node → entry id' path' = some node → id = id' ∧ path = path'

structure Sound (d : Disk) : Prop where
  dirs_lt : ∀ id, (d.dirs.lookup id).isSome → id < d.next
  files_lt : ∀ id, (d.files.lookup id).isSome → id < d.next
  root : ∃ dir, d.dirs.lookup root = some dir ∧ dir.parent = none
  older : ∀ id dir parent, d.dirs.lookup id = some dir → dir.parent = some parent → parent < id
  live : ∀ id path child, d.subdir id path = some child → (d.dirs.lookup child).isSome
  liveFile : ∀ id path file, d.fileAt id path = some file → (d.files.lookup file).isSome
  once : Once d.subdir
  onceFile : Once d.fileAt
  free : ∀ id path, d.subdir id path ≠ some Ramdisk.root

theorem dir_ok {d : Disk} {id : Nat} {dir : Dir} (h : d.dir id = .ok dir) : d.dirs.lookup id = some dir := by
  unfold Disk.dir at h
  split at h
  case h_1 found hfound =>
    cases h
    exact hfound
  case h_2 => cases h

theorem file_ok {d : Disk} {id : Nat} {file : File} (h : d.file id = .ok file) : d.files.lookup id = some file := by
  unfold Disk.file at h
  split at h
  case h_1 found hfound =>
    cases h
    exact hfound
  case h_2 => cases h

theorem dir_of_lookup {d : Disk} {id : Nat} {dir : Dir} (h : d.dirs.lookup id = some dir) : d.dir id = .ok dir := by
  rw [Disk.dir, h]

theorem file_of_lookup {d : Disk} {id : Nat} {file : File} (h : d.files.lookup id = some file) :
    d.file id = .ok file := by
  rw [Disk.file, h]

section

variable {d : Disk} {id : Nat} {dir : Dir}

theorem subdir_eq (h : d.dirs.lookup id = some dir) (path : Bytes) : d.subdir id path = dir.dirs.lookup path := by
  rw [subdir, h]
  rfl

theorem fileAt_eq (h : d.dirs.lookup id = some dir) (path : Bytes) : d.fileAt id path = dir.files.lookup path := by
  rw [fileAt, h]
  rfl

theorem lookup_setDir (d : Disk) (id : Nat) (dir : Dir) (other : Nat) :
    (d.setDir id dir).dirs.lookup other = if other = id then some dir else d.dirs.lookup other := Map.lookup_insert_eq ..

theorem subdir_setDir (d : Disk) (id : Nat) (dir : Dir) (other : Nat) (path : Bytes) :
    (d.setDir id dir).subdir other path = if other = id then dir.dirs.lookup path else d.subdir other path := by
  rw [subdir, lookup_setDir]
  split <;> rfl

theorem fileAt_setDir (d : Disk) (id : Nat) (dir : Dir) (other : Nat) (path : Bytes) :
    (d.setDir id dir).fileAt other path = if other = id then dir.files.lookup path else d.fileAt other path := by
  rw [fileAt, lookup_setDir]
  split <;> rfl

end

/-- Files lead nowhere. -/
theorem holds_setDir {d : Disk} {id : Nat} {dir : Dir} (hdir : d.dirs.lookup id = some dir) (dir' : Dir)
    (hdirs : dir'.dirs = dir.dirs) : (d.setDir id dir').Holds = d.Holds := by
  funext holder child
  refine propext (exists_congr fun path => ?_)
  rw [subdir_setDir]
  split
  case isTrue heq => rw [heq, subdir_eq hdir, hdirs]
  case isFalse => exact Iff.rfl

theorem reachable_setDir {d : Disk} {id : Nat} {dir : Dir} (hdir : d.dirs.lookup id = some dir) (dir' : Dir)
    (hdirs : dir'.dirs = dir.dirs) (other : Nat) : (d.setDir id dir').Reachable other ↔ d.Reachable other := by
  rw [Reachable, holds_setDir hdir dir' hdirs, Reachable]

/-- A directory to which nothing leads any more. -/
def Loose (d : Disk) (node : Nat) : Prop :=
  node ≠ root ∧ (d.dirs.lookup node).isSome ∧ ∀ id path, d.subdir id path ≠ some node

def LooseFile (d : Disk) (node : Nat) : Prop := (d.files.lookup node).isSome ∧ ∀ id path, d.fileAt id path ≠ some node

/-- The entries of one directory change: it may lose some, and what it gets was nowhere else. -/
theorem Once.change {entry entry' : Nat → Bytes → Option Nat} (h : Once entry) (id : Nat)
    (hsame : ∀ other, other ≠ id → entry' other = entry other)
    (hnew : ∀ path node, entry' id path = some node → entry id path = some node ∨
      (∀ other path', entry other path' ≠ some node) ∧ ∀ path', entry' id path' = some node → path' = path) :
    Once entry' := by
  have hcases : ∀ other path node, entry' other path = some node → entry other path = some node ∨
      other = id ∧ (∀ other path', entry other path' ≠ some node) ∧
        ∀ path', entry' id path' = some node → path' = path := by
    intro other path node hnode
    by_cases hother : other = id
    · subst hother
      exact (hnew path node hnode).imp_right fun hboth => ⟨rfl, hboth⟩
    · rw [hsame other hother] at hnode
      exact Or.inl hnode
  intro first path second path' node hfirst hsecond
  rcases hcases first path node hfirst with hold | ⟨rfl, hloose, hpath⟩
  · rcases hcases second path' node hsecond with hold' | ⟨-, hloose', -⟩
    · exact h first path second path' node hold hold'
    · exact absurd hold (hloose' first path)
  · rcases hcases second path' node hsecond with hold' | ⟨rfl, -, -⟩
    · exact absurd hold' (hloose second path')
    · exact ⟨rfl, (hpath path' hsecond).symm⟩

/-- A directory is changed: it may lose entries, and what it gets was loose. -/
theorem Sound.setDir {d : Disk} (h : d.Sound) {id : Nat} {dir dir' : Dir} (hdir : d.dirs.lookup id = some dir)
    (hparent : dir'.parent = dir.parent)
    (hdirs : ∀ path child, dir'.dirs.lookup path = some child → dir.dirs.lookup path = some child ∨
      d.Loose child ∧ ∀ path', dir'.dirs.lookup path' = some child → path' = path)
    (hfiles : ∀ path file, dir'.files.lookup path = some file → dir.files.lookup path = some file ∨
      d.LooseFile file ∧ ∀ path', dir'.files.lookup path' = some file → path' = path) : (d.setDir id dir').Sound := by
  have hlive : ∀ other, ((d.setDir id dir').dirs.lookup other).isSome ↔ (d.dirs.lookup other).isSome := by
    intro other
    rw [lookup_setDir]
    split
    case isTrue hother =>
      rw [hother, hdir]
      exact Iff.rfl
    case isFalse => exact Iff.rfl
  have hsubdir : ∀ path, (d.setDir id dir').subdir id path = dir'.dirs.lookup path := fun path => by
    rw [subdir_setDir, if_pos rfl]
  have hfileAt : ∀ path, (d.setDir id dir').fileAt id path = dir'.files.lookup path := fun path => by
    rw [fileAt_setDir, if_pos rfl]
  refine ⟨fun other hother => h.dirs_lt other ((hlive other).mp hother), h.files_lt, ?_, fun other found parent hfound => ?_,
    fun other path child hchild => (hlive child).mpr ?_, fun other path file hfile => ?_, ?_, ?_,
    fun other path hroot => ?_⟩
  · obtain ⟨top, htop, hnone⟩ := h.root
    rw [lookup_setDir]
    split
    case isTrue hother =>
      rw [hother, hdir, Option.some.injEq] at htop
      exact ⟨dir', rfl, hparent.trans (htop ▸ hnone)⟩
    case isFalse => exact ⟨top, htop, hnone⟩
  · rw [lookup_setDir] at hfound
    split at hfound
    case isTrue hother =>
      cases hfound
      rw [hother, hparent]
      exact h.older id dir parent hdir
    case isFalse => exact h.older other found parent hfound
  · rw [subdir_setDir] at hchild
    split at hchild
    · rcases hdirs path child hchild with hold | ⟨⟨-, hsome, -⟩, -⟩
      · exact h.live id path child ((subdir_eq hdir path).trans hold)
      · exact hsome
    · exact h.live other path child hchild
  · rw [fileAt_setDir] at hfile
    split at hfile
    · rcases hfiles path file hfile with hold | ⟨⟨hsome, -⟩, -⟩
      · exact h.liveFile id path file ((fileAt_eq hdir path).trans hold)
      · exact hsome
    · exact h.liveFile other path file hfile
  · refine h.once.change id (fun other hother => funext fun path => ?_) fun path child hchild => ?_
    · rw [subdir_setDir, if_neg hother]
    · simp only [hsubdir] at hchild ⊢
      rw [subdir_eq hdir]
      exact (hdirs path child hchild).imp_right fun hloose => ⟨hloose.1.2.2, hloose.2⟩
  · refine h.onceFile.change id (fun other hother => funext fun path => ?_) fun path file hfile => ?_
    · rw [fileAt_setDir, if_neg hother]
    · simp only [hfileAt] at hfile ⊢
      rw [fileAt_eq hdir]
      exact (hfiles path file hfile).imp_right fun hloose => ⟨hloose.1.2, hloose.2⟩
  · rw [subdir_setDir] at hroot
    split at hroot
    · rcases hdirs path _ hroot with hold | ⟨⟨hne, -⟩, -⟩
      · exact h.free id path ((subdir_eq hdir path).trans hold)
      · exact hne rfl
    · exact h.free other path hroot

/-- Objects come and go in memory, and no directory changes. -/
theorem Sound.setFiles {d : Disk} (h : d.Sound) {files : Map Nat File} {next : Nat} (hnext : d.next ≤ next)
    (hlt : ∀ id, (files.lookup id).isSome → id < next)
    (hlive : ∀ id path file, d.fileAt id path = some file → (files.lookup file).isSome) :
    Sound { d with files, next } :=
  ⟨fun id hid => (h.dirs_lt id hid).trans_le hnext, hlt, h.root, h.older, h.live, hlive, h.once, h.onceFile, h.free⟩

/-- A new file, -/
theorem Sound.makeFile {d : Disk} (h : d.Sound) (file : File) :
    Sound { d with files := d.files.insert d.next file, next := d.next + 1 } ∧
      LooseFile { d with files := d.files.insert d.next file, next := d.next + 1 } d.next := by
  refine ⟨h.setFiles (Nat.le_succ _) (fun id hid => ?_) fun id path other hother => ?_, ?_, fun id path hheld => ?_⟩
  · rw [Map.lookup_insert_eq] at hid
    split at hid
    case isTrue heq => exact heq ▸ Nat.lt_succ_self _
    case isFalse => exact (h.files_lt id hid).trans (Nat.lt_succ_self _)
  · rw [Map.lookup_insert_eq]
    split
    · rfl
    · exact h.liveFile id path other hother
  · rw [Map.lookup_insert_eq, if_pos rfl]
    rfl
  · exact Nat.lt_irrefl _ (h.files_lt _ (h.liveFile id path _ hheld))

/-- a new directory, -/
def makeDir (d : Disk) (parent : Nat) : Disk :=
  { d with dirs := d.dirs.insert d.next ⟨some parent, 0, 2, ∅, ∅⟩, next := d.next + 1 }

theorem lookup_makeDir (d : Disk) (parent id : Nat) : (d.makeDir parent).dirs.lookup id =
    if id = d.next then some ⟨some parent, 0, 2, ∅, ∅⟩ else d.dirs.lookup id := Map.lookup_insert_eq ..

theorem Sound.lookup_next {d : Disk} (h : d.Sound) : d.dirs.lookup d.next = none :=
  Option.not_isSome_iff_eq_none.mp fun hsome => Nat.lt_irrefl _ (h.dirs_lt _ hsome)

theorem Sound.subdir_makeDir {d : Disk} (h : d.Sound) (parent id : Nat) (path : Bytes) :
    (d.makeDir parent).subdir id path = d.subdir id path := by
  rw [subdir, lookup_makeDir, subdir]
  split
  case isTrue heq =>
    rw [heq, h.lookup_next]
    rfl
  case isFalse => rfl

theorem Sound.fileAt_makeDir {d : Disk} (h : d.Sound) (parent id : Nat) (path : Bytes) :
    (d.makeDir parent).fileAt id path = d.fileAt id path := by
  rw [fileAt, lookup_makeDir, fileAt]
  split
  case isTrue heq =>
    rw [heq, h.lookup_next]
    rfl
  case isFalse => rfl

theorem Sound.makeDir {d : Disk} (h : d.Sound) {parent : Nat} (hparent : (d.dirs.lookup parent).isSome) :
    (d.makeDir parent).Sound ∧ (d.makeDir parent).Loose d.next := by
  have hlt : ∀ {id dir}, d.dirs.lookup id = some dir → id ≠ d.next := fun hdir =>
    (h.dirs_lt _ (Option.isSome_iff_exists.mpr ⟨_, hdir⟩)).ne
  have hlive : ∀ id, (d.dirs.lookup id).isSome →
      ((d.makeDir parent).dirs.lookup id).isSome := by
    intro id hid
    rw [lookup_makeDir]
    split
    · rfl
    · exact hid
  obtain ⟨top, htop, hnone⟩ := h.root
  constructor
  · refine ⟨fun id hid => ?_, fun id hid => (h.files_lt id hid).trans (Nat.lt_succ_self _), ⟨top, ?_, hnone⟩,
      fun id dir parent' hdir hparent' => ?_, fun id path child hchild => ?_, fun id path file hfile => ?_,
      fun id path id' path' child => ?_, fun id path id' path' file => ?_, fun id path => ?_⟩
    · rw [lookup_makeDir] at hid
      split at hid
      case isTrue heq => exact heq ▸ Nat.lt_succ_self _
      case isFalse => exact (h.dirs_lt id hid).trans (Nat.lt_succ_self _)
    · rw [lookup_makeDir, if_neg (hlt htop), htop]
    · rw [lookup_makeDir] at hdir
      split at hdir
      case isTrue heq =>
        cases hdir
        cases hparent'
        exact heq ▸ h.dirs_lt parent hparent
      case isFalse => exact h.older id dir parent' hdir hparent'
    · rw [h.subdir_makeDir] at hchild
      exact hlive child (h.live id path child hchild)
    · rw [h.fileAt_makeDir] at hfile
      exact h.liveFile id path file hfile
    · rw [h.subdir_makeDir, h.subdir_makeDir]
      exact h.once id path id' path' child
    · rw [h.fileAt_makeDir, h.fileAt_makeDir]
      exact h.onceFile id path id' path' file
    · rw [h.subdir_makeDir]
      exact h.free id path
  · refine ⟨fun heq => hlt htop heq.symm, ?_, fun id path hheld => ?_⟩
    · rw [lookup_makeDir, if_pos rfl]
      rfl
    · rw [h.subdir_makeDir] at hheld
      exact Nat.lt_irrefl _ (h.dirs_lt _ (h.live id path _ hheld))

/-- a file that is changed, -/
theorem Sound.changeFile {d : Disk} (h : d.Sound) {id : Nat} {file : File} (hfile : d.files.lookup id = some file)
    (changed : File) : Sound { d with files := d.files.insert id changed } := by
  refine h.setFiles (Nat.le_refl _) (fun other hother => ?_) fun other path found hfound => ?_
  · rw [Map.lookup_insert_eq] at hother
    split at hother
    case isTrue heq => exact heq ▸ h.files_lt id (Option.isSome_iff_exists.mpr ⟨file, hfile⟩)
    case isFalse => exact h.files_lt other hother
  · rw [Map.lookup_insert_eq]
    split
    · rfl
    · exact h.liveFile other path found hfound

/-- and a file that is freed. -/
theorem Sound.freeFile {d : Disk} (h : d.Sound) {file : Nat} (hloose : ∀ id path, d.fileAt id path ≠ some file) :
    Sound { d with files := d.files.erase file } := by
  refine h.setFiles (Nat.le_refl _) (fun id hid => ?_) fun id path other hother => ?_
  · rw [Map.lookup_erase_eq] at hid
    split at hid
    · cases hid
    · exact h.files_lt id hid
  · have hne : other ≠ file := fun heq => hloose id path (heq ▸ hother)
    rw [Map.lookup_erase_eq, if_neg hne]
    exact h.liveFile id path other hother

/-! ### The cached totals -/

/-- What a directory has does not depend on its cached total. -/
theorem subdir_congr {d d' : Disk} {id : Nat}
    (h : (d'.dirs.lookup id).map Dir.uncounted = (d.dirs.lookup id).map Dir.uncounted) (path : Bytes) :
    d'.subdir id path = d.subdir id path := by
  have hboth : ∀ d : Disk, d.subdir id path = ((d.dirs.lookup id).map Dir.uncounted).bind fun dir => dir.dirs.lookup path := by
    intro d
    rw [subdir]
    cases d.dirs.lookup id <;> rfl
  rw [hboth, hboth, h]

theorem fileAt_congr {d d' : Disk} {id : Nat}
    (h : (d'.dirs.lookup id).map Dir.uncounted = (d.dirs.lookup id).map Dir.uncounted) (path : Bytes) :
    d'.fileAt id path = d.fileAt id path := by
  have hboth : ∀ d : Disk, d.fileAt id path =
      ((d.dirs.lookup id).map Dir.uncounted).bind fun dir => dir.files.lookup path := by
    intro d
    rw [fileAt]
    cases d.dirs.lookup id <;> rfl
  rw [hboth, hboth, h]

/-- Two disks that differ in cached totals only. -/
structure Recounted (d d' : Disk) : Prop where
  dirs : ∀ id, (d'.dirs.lookup id).map Dir.uncounted = (d.dirs.lookup id).map Dir.uncounted
  files : d'.files = d.files
  next : d'.next = d.next

namespace Recounted

variable {d d' d'' : Disk}

theorem refl (d : Disk) : Recounted d d := ⟨fun _ => rfl, rfl, rfl⟩

theorem trans (h : Recounted d d') (h' : Recounted d' d'') : Recounted d d'' :=
  ⟨fun id => (h'.dirs id).trans (h.dirs id), h'.files.trans h.files, h'.next.trans h.next⟩

theorem symm (h : Recounted d d') : Recounted d' d := ⟨fun id => (h.dirs id).symm, h.files.symm, h.next.symm⟩

/-- A directory is there in both. -/
theorem lookup (h : Recounted d d') {id : Nat} {dir : Dir} (hdir : d.dirs.lookup id = some dir) :
    ∃ dir', d'.dirs.lookup id = some dir' ∧ dir'.uncounted = dir.uncounted := by
  have hsame := h.dirs id
  rw [hdir, Option.map_some] at hsame
  exact Option.map_eq_some_iff.mp hsame

theorem isSome (h : Recounted d d') (id : Nat) : (d'.dirs.lookup id).isSome = (d.dirs.lookup id).isSome := by
  rw [← Option.isSome_map (f := Dir.uncounted), h.dirs id, Option.isSome_map]

theorem subdir (h : Recounted d d') (id : Nat) (path : Bytes) : d'.subdir id path = d.subdir id path :=
  subdir_congr (h.dirs id) path

theorem fileAt (h : Recounted d d') (id : Nat) (path : Bytes) : d'.fileAt id path = d.fileAt id path :=
  fileAt_congr (h.dirs id) path

theorem holds (h : Recounted d d') : d'.Holds = d.Holds := by
  funext id child
  exact propext (exists_congr fun path => by rw [h.subdir])

theorem reachable (h : Recounted d d') (id : Nat) : d'.Reachable id ↔ d.Reachable id := by
  rw [Reachable, h.holds, Reachable]

theorem sound (h : Recounted d d') (hsound : d.Sound) : d'.Sound := by
  refine ⟨fun id hid => ?_, fun id hid => ?_, ?_, fun id dir parent hdir hparent => ?_, fun id path child hchild => ?_,
    fun id path file hfile => ?_, fun id path id' path' child => ?_, fun id path id' path' file => ?_, fun id path => ?_⟩
  · rw [h.isSome] at hid
    exact h.next ▸ hsound.dirs_lt id hid
  · rw [h.files] at hid
    exact h.next ▸ hsound.files_lt id hid
  · obtain ⟨top, htop, hnone⟩ := hsound.root
    obtain ⟨top', htop', hsame⟩ := h.lookup htop
    exact ⟨top', htop', (Dir.of_uncounted hsame).1.trans hnone⟩
  · obtain ⟨dir', hdir', hsame⟩ := h.symm.lookup hdir
    exact hsound.older id dir' parent hdir' ((Dir.of_uncounted hsame).1.trans hparent)
  · rw [h.subdir] at hchild
    rw [h.isSome]
    exact hsound.live id path child hchild
  · rw [h.fileAt] at hfile
    rw [h.files]
    exact hsound.liveFile id path file hfile
  · rw [h.subdir, h.subdir]
    exact hsound.once id path id' path' child
  · rw [h.fileAt, h.fileAt]
    exact hsound.onceFile id path id' path' file
  · rw [h.subdir]
    exact hsound.free id path

/-- A directory that was changed is changed again. -/
theorem overwrite {id : Nat} {before dir dir' : Dir} (h : Recounted (d.setDir id before) d')
    (hdir : dir'.uncounted = dir.uncounted) : Recounted (d.setDir id dir) (d'.setDir id dir') := by
  refine ⟨fun other => ?_, h.files, h.next⟩
  rw [lookup_setDir, lookup_setDir]
  split
  · rw [Option.map_some, Option.map_some, hdir]
  case isFalse hne =>
    refine (h.dirs other).trans ?_
    rw [lookup_setDir, if_neg hne]

theorem freeFile (h : Recounted d d') (file : Nat) :
    Recounted { d with files := d.files.erase file } { d' with files := d'.files.erase file } :=
  ⟨h.dirs, congrArg (fun files : Map Nat File => files.erase file) h.files, h.next⟩

end Recounted

theorem recounted_setUsed {d : Disk} {id : Nat} {dir : Dir} (hdir : d.dirs.lookup id = some dir) (used : Nat) :
    Recounted d (d.setDir id { dir with diskUsed := used }) := by
  refine ⟨fun other => ?_, rfl, rfl⟩
  rw [lookup_setDir]
  split
  case isTrue hother =>
    rw [hother, hdir]
    rfl
  case isFalse => rfl

theorem recounted_updateFrom {fuel : Nat} {d d' : Disk} {id : Nat} (h : updateFrom fuel d id = .ok d') :
    Recounted d d' := by
  induction fuel generalizing d id with
  | zero => cases h
  | succ fuel ih =>
      obtain ⟨dir, hdir, h⟩ := bind_eq_ok h
      have hfirst := recounted_setUsed (dir_ok hdir) ((d.setDir id { dir with diskUsed := 0 }).usage dir)
      simp only at h
      split at h
      · cases h
        exact hfirst
      · exact hfirst.trans (ih h)

theorem recounted_updateDiskUsed {d d' : Disk} {id : Nat} (h : d.updateDiskUsed id = .ok d') : Recounted d d' :=
  recounted_updateFrom h

/-! ### A directory that is removed -/

theorem mem_subdirs {d : Disk} {id child : Nat} : child ∈ d.subdirs id ↔ d.Holds id child := by
  unfold subdirs Holds subdir
  cases d.dirs.lookup id with
  | none => simp
  | some dir => exact Map.mem_values_iff dir.dirs child

theorem mem_filesIn {d : Disk} {id file : Nat} : file ∈ d.filesIn id ↔ ∃ path, d.fileAt id path = some file := by
  unfold filesIn fileAt
  cases d.dirs.lookup id with
  | none => simp
  | some dir => exact Map.mem_values_iff dir.files file

/-- What is below a directory is held by something below it. -/
theorem below_cases {d : Disk} {depth top id : Nat} (h : id ∈ d.below depth top) :
    id = top ∨ ∃ holder ∈ d.below depth top, d.Holds holder id := by
  induction depth generalizing top with
  | zero => exact Or.inl (List.mem_singleton.mp h)
  | succ depth ih =>
      rcases List.mem_cons.mp h with htop | hbelow
      · exact Or.inl htop
      · obtain ⟨child, hchild, hid⟩ := List.mem_flatMap.mp hbelow
        rcases ih hid with heq | ⟨holder, hholder, hholds⟩
        · exact Or.inr ⟨top, List.mem_cons_self, heq ▸ mem_subdirs.mp hchild⟩
        · exact Or.inr ⟨holder, List.mem_cons_of_mem _ (List.mem_flatMap.mpr ⟨child, hchild, hholder⟩), hholds⟩

theorem reflTransGen_of_mem_below {d : Disk} {depth top id : Nat} (h : id ∈ d.below depth top) :
    ReflTransGen d.Holds top id := by
  induction depth generalizing top with
  | zero => exact List.mem_singleton.mp h ▸ .refl
  | succ depth ih =>
      rcases List.mem_cons.mp h with rfl | hbelow
      · exact .refl
      · obtain ⟨child, hchild, hid⟩ := List.mem_flatMap.mp hbelow
        exact .head (mem_subdirs.mp hchild) (ih hid)

theorem Sound.holder_unique {d : Disk} (h : d.Sound) (x y z : Nat) (hx : d.Holds x z) (hy : d.Holds y z) : x = y := by
  obtain ⟨path, hpath⟩ := hx
  obtain ⟨path', hpath'⟩ := hy
  exact (h.once x path y path' z hpath hpath').1

theorem Sound.not_holds_root {d : Disk} (h : d.Sound) (x : Nat) : ¬d.Holds x Ramdisk.root := by
  rintro ⟨path, hpath⟩
  exact h.free x path hpath

theorem Sound.acyclic {d : Disk} (h : d.Sound) {id : Nat} (hreachable : d.Reachable id) : ¬TransGen d.Holds id id :=
  LibForest.acyclic h.holder_unique h.not_holds_root hreachable

/-- What `Rmdir` leaves: the directory without one entry, and nothing that was below this. -/
structure Pruned (d d' : Disk) (id : Nat) (path : Bytes) (dir : Dir) (child : Nat) : Prop where
  holder : d.dirs.lookup id = some dir
  entry : dir.dirs.lookup path = some child
  outside : id ∉ d.below d.next child
  dirs : ∀ other, d'.dirs.lookup other =
    if other = id then some { dir with dirs := dir.dirs.erase path, size := dir.size - 1 }
    else if other ∈ d.below d.next child then none else d.dirs.lookup other
  files : ∀ file, d'.files.lookup file =
    if file ∈ (d.below d.next child).flatMap d.filesIn then none else d.files.lookup file
  next : d'.next = d.next

theorem Sound.pruned {d : Disk} (h : d.Sound) {id : Nat} {path : Bytes} {dir : Dir} {child : Nat}
    (hdir : d.dirs.lookup id = some dir) (hchild : dir.dirs.lookup path = some child) (hreachable : d.Reachable id) :
    Pruned d ((d.delete child).setDir id { dir with dirs := dir.dirs.erase path, size := dir.size - 1 }) id path dir
      child := by
  refine ⟨hdir, hchild, fun hbelow => ?_, fun other => ?_, fun file => Map.lookup_foldl_erase .., rfl⟩
  · have hholds : d.Holds id child := ⟨path, (subdir_eq hdir path).trans hchild⟩
    exact h.acyclic hreachable (TransGen.head'_iff.mpr ⟨child, hholds, reflTransGen_of_mem_below hbelow⟩)
  · rw [lookup_setDir]
    split
    · rfl
    · exact Map.lookup_foldl_erase ..

namespace Pruned

variable {d d' : Disk} {id : Nat} {path : Bytes} {dir : Dir} {child : Nat}

/-- An entry that is left is one of those that were there, -/
theorem subdir (h : Pruned d d' id path dir child) {other : Nat} {path' : Bytes} {node : Nat}
    (hnode : d'.subdir other path' = some node) :
    d.subdir other path' = some node ∧ other ∉ d.below d.next child ∧ ¬(other = id ∧ path' = path) := by
  rw [Disk.subdir, h.dirs] at hnode
  split at hnode
  case isTrue hother =>
    have hlookup : (dir.dirs.erase path).lookup path' = some node := hnode
    obtain ⟨hpath, hold⟩ := Map.of_lookup_erase hlookup
    rw [hother, subdir_eq h.holder]
    exact ⟨hold, h.outside, fun hboth => hpath hboth.2⟩
  case isFalse hother =>
    split at hnode
    · cases hnode
    case isFalse hbelow => exact ⟨hnode, hbelow, fun hboth => hother hboth.1⟩

theorem fileAt (h : Pruned d d' id path dir child) {other : Nat} {path' : Bytes} {file : Nat}
    (hfile : d'.fileAt other path' = some file) :
    d.fileAt other path' = some file ∧ other ∉ d.below d.next child := by
  rw [Disk.fileAt, h.dirs] at hfile
  split at hfile
  case isTrue hother =>
    rw [hother, fileAt_eq h.holder]
    exact ⟨hfile, h.outside⟩
  case isFalse hother =>
    split at hfile
    · cases hfile
    case isFalse hbelow => exact ⟨hfile, hbelow⟩

/-- and does not lead to what was deleted. -/
theorem not_below (h : Pruned d d' id path dir child) (hsound : d.Sound) {other : Nat} {path' : Bytes} {node : Nat}
    (hnode : d'.subdir other path' = some node) : node ∉ d.below d.next child := by
  obtain ⟨hbefore, houtside, hother⟩ := h.subdir hnode
  intro hbelow
  rcases below_cases hbelow with rfl | ⟨holder, hholder, path'', hholds⟩
  · exact hother (hsound.once other path' id path node hbefore ((subdir_eq h.holder path).trans h.entry))
  · have hsame := hsound.once other path' holder path'' node hbefore hholds
    exact houtside (hsame.1 ▸ hholder)

theorem not_deleted (h : Pruned d d' id path dir child) (hsound : d.Sound) {other : Nat} {path' : Bytes} {file : Nat}
    (hfile : d'.fileAt other path' = some file) : file ∉ (d.below d.next child).flatMap d.filesIn := by
  obtain ⟨hbefore, houtside⟩ := h.fileAt hfile
  intro hdeleted
  obtain ⟨holder, hholder, hin⟩ := List.mem_flatMap.mp hdeleted
  obtain ⟨path'', hholds⟩ := mem_filesIn.mp hin
  have hsame := hsound.onceFile other path' holder path'' file hbefore hholds
  exact houtside (hsame.1 ▸ hholder)

theorem isSome (h : Pruned d d' id path dir child) {other : Nat} (hother : (d'.dirs.lookup other).isSome) :
    (d.dirs.lookup other).isSome := by
  rw [h.dirs] at hother
  split at hother
  case isTrue heq =>
    rw [heq, h.holder]
    rfl
  case isFalse =>
    split at hother
    · cases hother
    · exact hother

theorem root_outside (h : Pruned d d' id path dir child) (hsound : d.Sound) : root ∉ d.below d.next child := by
  intro hbelow
  rcases below_cases hbelow with heq | ⟨holder, -, path', hholds⟩
  · exact hsound.free id path ((subdir_eq h.holder path).trans (heq ▸ h.entry))
  · exact hsound.free holder path' hholds

theorem sound (h : Pruned d d' id path dir child) (hsound : d.Sound) : d'.Sound := by
  refine ⟨fun other hother => ?_, fun file hfile => ?_, ?_, fun other found parent hfound hparent => ?_,
    fun other path' node hnode => ?_, fun other path' file hfile => ?_, fun first path₁ second path₂ node h₁ h₂ => ?_,
    fun first path₁ second path₂ file h₁ h₂ => ?_, fun other path' hroot => ?_⟩
  · exact h.next ▸ hsound.dirs_lt other (h.isSome hother)
  · rw [h.files] at hfile
    split at hfile
    · cases hfile
    · exact h.next ▸ hsound.files_lt file hfile
  · obtain ⟨top, htop, hnone⟩ := hsound.root
    rw [h.dirs]
    split
    case isTrue heq =>
      rw [heq, h.holder, Option.some.injEq] at htop
      exact ⟨_, rfl, htop ▸ hnone⟩
    case isFalse => exact ⟨top, (if_neg (h.root_outside hsound)).trans htop, hnone⟩
  · rw [h.dirs] at hfound
    split at hfound
    case isTrue heq =>
      cases hfound
      exact heq ▸ hsound.older id dir parent h.holder hparent
    case isFalse =>
      split at hfound
      · cases hfound
      · exact hsound.older other found parent hfound hparent
  · have hlive := hsound.live other path' node (h.subdir hnode).1
    rw [h.dirs]
    split
    · rfl
    · rw [if_neg (h.not_below hsound hnode)]
      exact hlive
  · rw [h.files, if_neg (h.not_deleted hsound hfile)]
    exact hsound.liveFile other path' file (h.fileAt hfile).1
  · exact hsound.once first path₁ second path₂ node (h.subdir h₁).1 (h.subdir h₂).1
  · exact hsound.onceFile first path₁ second path₂ file (h.fileAt h₁).1 (h.fileAt h₂).1
  · exact hsound.free other path' (h.subdir hroot).1

/-- What can still be reached. -/
theorem reachable (h : Pruned d d' id path dir child) (hsound : d.Sound) {other : Nat} (hother : d'.Reachable other) :
    d.Reachable other ∧ other ∉ d.below d.next child := by
  induction hother with
  | refl => exact ⟨.refl, h.root_outside hsound⟩
  | tail _ hholds ih =>
      obtain ⟨path', hpath'⟩ := hholds
      exact ⟨ih.1.tail ⟨path', (h.subdir hpath').1⟩, h.not_below hsound hpath'⟩

end Pruned

end Disk

end Thebends.Ramdisk
