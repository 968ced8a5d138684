import Thebends.LibRun
import Thebends.RamdiskUsage

/-! When the cached totals are right. Removing a file or a directory brings no total up to date, and a file or
directory that was moved keeps the pointer to its first parent; so the totals stay right only where nothing
that counts is removed, and where no directory above what changes was moved. -/

namespace Thebends.Ramdisk

open LibExcept LibMap LibRun Relation

namespace Disk

section

variable {d d' : Disk} {id : Nat} {dir : Dir} {name : Bytes}

/-- A new file has no bytes. -/
theorem Counted.create (h : d.Counted) (hsound : d.Sound) (hdir : d.dirs.lookup id = some dir)
    (hreachable : d.Reachable id) (hnew : dir.hasNode name = false) :
    (Disk.setDir { d with files := d.files.insert d.next ⟨id, [], 0⟩, next := d.next + 1 } id
      { dir with files := dir.files.insert name d.next, size := dir.size + 1 }).Counted := by
  have hmade : Balanced { d with files := d.files.insert d.next ⟨id, [], 0⟩, next := d.next + 1 } d.Reachable := by
    refine h.balanced.setFiles _ _ fun other path node _ hheld => ?_
    have hne : node ≠ d.next := (hsound.files_lt node (hsound.liveFile other path node hheld)).ne
    rw [sizeOf_insert, if_neg hne]
    rfl
  have hafter := hmade.setDir { dir with files := dir.files.insert name d.next, size := dir.size + 1 } hdir rfl fun _ => by
    have husage := hmade id dir hreachable hdir
    rw [usage] at husage ⊢
    simp only [Map.total_insert (hasNode_eq_false.mp hnew).1]
    rw [sizeOf_insert, if_pos rfl, Nat.zero_add]
    exact husage
  refine ⟨fun other found hother hfound => hafter other found ?_ hfound, fun other file hfile => ?_⟩
  · exact (reachable_setDir (d := { d with files := d.files.insert d.next ⟨id, [], 0⟩, next := d.next + 1 }) hdir
      { dir with files := dir.files.insert name d.next, size := dir.size + 1 } rfl other).mp hother
  · have hlookup : (d.files.insert d.next ⟨id, [], 0⟩).lookup other = some file := hfile
    exact Map.forall_insert h.sized rfl other file hlookup

/-- A new directory uses nothing, and the others what they did. -/
theorem Sound.usedBy_makeDir (hsound : d.Sound) (id other : Nat) : (d.makeDir id).usedBy other = d.usedBy other := by
  rw [usedBy, lookup_makeDir]
  split
  case isTrue heq =>
    rw [heq, usedBy, hsound.lookup_next]
    rfl
  case isFalse => rfl

theorem Sound.usage_makeDir (hsound : d.Sound) (id : Nat) (found : Dir) : (d.makeDir id).usage found = d.usage found :=
  usage_congr (fun _ child _ => hsound.usedBy_makeDir id child) fun _ _ _ => rfl

/-- It is the only one that can be reached besides. -/
theorem Sound.reachable_mkdir (hsound : d.Sound) (hdir : d.dirs.lookup id = some dir) (hreachable : d.Reachable id)
    {other : Nat} (h : ((d.makeDir id).setDir id
      { dir with dirs := dir.dirs.insert name d.next, size := dir.size + 1 }).Reachable other) :
    d.Reachable other ∨ other = d.next := by
  induction h with
  | refl => exact Or.inl .refl
  | @tail holder child _ hholds ih =>
      obtain ⟨path, hpath⟩ := hholds
      rw [subdir_setDir] at hpath
      split at hpath
      · rcases Map.of_lookup_insert hpath with ⟨-, rfl⟩ | hold
        · exact Or.inr rfl
        · exact Or.inl (hreachable.tail ⟨path, (subdir_eq hdir path).trans hold⟩)
      · rw [hsound.subdir_makeDir] at hpath
        rcases ih with hholder | rfl
        · exact Or.inl (hholder.tail ⟨path, hpath⟩)
        · rw [subdir, hsound.lookup_next] at hpath
          cases hpath

/-- A new directory has nothing in it. -/
theorem Counted.mkdir (h : d.Counted) (hsound : d.Sound) (hdir : d.dirs.lookup id = some dir)
    (hreachable : d.Reachable id) (hnew : dir.hasNode name = false) :
    ((d.makeDir id).setDir id { dir with dirs := dir.dirs.insert name d.next, size := dir.size + 1 }).Counted := by
  have hne : id ≠ d.next := (hsound.dirs_lt id (Option.isSome_iff_exists.mpr ⟨dir, hdir⟩)).ne
  have hmade : (d.makeDir id).Balanced fun other => d.Reachable other ∨ other = d.next := by
    intro other found hother hfound
    rw [hsound.usage_makeDir]
    rw [lookup_makeDir] at hfound
    split at hfound
    · cases hfound
      rfl
    case isFalse hnot => exact h.balanced other found (hother.resolve_right hnot) hfound
  have hdir' : (d.makeDir id).dirs.lookup id = some dir := by
    rw [lookup_makeDir, if_neg hne, hdir]
  refine ⟨?_, h.sized⟩
  have hafter := hmade.setDir { dir with dirs := dir.dirs.insert name d.next, size := dir.size + 1 } hdir'
    rfl fun _ => ?_
  · exact fun other found hother hfound => hafter other found (hsound.reachable_mkdir hdir hreachable hother) hfound
  · have hbefore := h.balanced id dir hreachable hdir
    rw [hsound.usage_makeDir]
    rw [usage] at hbefore ⊢
    simp only [Map.total_insert (hasNode_eq_false.mp hnew).2]
    have hzero : d.usedBy d.next = 0 := by
      rw [usedBy, hsound.lookup_next]
      rfl
    rw [hzero, Nat.zero_add]
    exact hbefore

/-- A file that is removed was empty. -/
theorem Counted.unlink (h : d.Counted) (hsound : d.Sound) (hdir : d.dirs.lookup id = some dir) {node : Nat}
    (hentry : dir.files.lookup name = some node) (hempty : d.sizeOf node = 0) :
    (Disk.setDir { d with files := d.files.erase node } id
      { dir with files := dir.files.erase name, size := dir.size - 1 }).Counted := by
  obtain ⟨-, hloose⟩ := hsound.takeFile hdir hentry { dir with files := dir.files.erase name, size := dir.size - 1 }
    rfl rfl rfl
  have htaken := h.balanced.setDir { dir with files := dir.files.erase name, size := dir.size - 1 } hdir rfl fun hid => by
    have husage := usage_erase_file (d := d)
      { dir with files := dir.files.erase name, size := dir.size - 1 } hentry rfl rfl
    rw [hempty, Nat.zero_add] at husage
    exact (h.balanced id dir hid hdir).trans husage
  have hafter := htaken.freeFile hloose.2
  refine ⟨fun other found hother hfound => hafter other found ?_ hfound, fun other file hfile => ?_⟩
  · exact (reachable_setDir hdir { dir with files := dir.files.erase name, size := dir.size - 1 } rfl other).mp hother
  · have hlookup : (d.files.erase node).lookup other = some file := hfile
    exact h.sized other file (Map.of_lookup_erase hlookup).2

/-- A directory that is removed counted nothing. -/
theorem Counted.pruned (h : d.Counted) (hsound : d.Sound) {child : Nat} (hpruned : Pruned d d' id name dir child)
    (hempty : d.usedBy child = 0) : d'.Counted := by
  have husage : ∀ other found, d'.dirs.lookup other = some found → d'.usage found = d.usage found := by
    intro other found hfound
    refine usage_congr (fun path sub hsub => ?_) fun path node hnode => ?_
    · have hkept := hpruned.not_below hsound ((subdir_eq hfound path).trans hsub)
      rw [usedBy, hpruned.dirs, if_neg hkept, usedBy]
      split
      case isTrue heq => rw [heq, hpruned.holder, Option.map_some, Option.map_some]
      case isFalse => rfl
    · rw [sizeOf, hpruned.files, if_neg (hpruned.not_deleted hsound ((fileAt_eq hfound path).trans hnode)), sizeOf]
  refine ⟨fun other found hother hfound => ?_, fun node file hfile => ?_⟩
  · rw [husage other found hfound]
    obtain ⟨hreachable, houtside⟩ := hpruned.reachable hsound hother
    rw [hpruned.dirs, if_neg houtside] at hfound
    split at hfound
    case isTrue heq =>
      cases hfound
      have herase := usage_erase_dir (d := d)
        { dir with dirs := dir.dirs.erase name, size := dir.size - 1 } hpruned.entry rfl rfl
      rw [hempty, Nat.zero_add] at herase
      exact (h.balanced other dir hreachable (heq ▸ hpruned.holder)).trans herase
    case isFalse => exact h.balanced other found hreachable hfound
  · rw [hpruned.files] at hfile
    split at hfile
    · cases hfile
    · exact h.sized node file hfile

/-- The totals are brought up to date last. -/
theorem Recounted.counted (h : Recounted d d') (hbalanced : d'.Balanced d.Reachable)
    (hsized : ∀ node file, d.files.lookup node = some file → file.size = file.data.length) : d'.Counted := by
  refine ⟨hbalanced.weaken fun other => (h.reachable other).mp, ?_⟩
  rw [h.files]
  exact hsized

/-- A file is written. Unless it stays as long as it was, the pointers lead up past all directories above it. -/
theorem Counted.changeFile (h : d.Counted) (hsound : d.Sound) {node : Nat} {file file' : File}
    (hfile : d.files.lookup node = some file) (hsize : file'.size = file'.data.length)
    (hcond : file'.size = file.size ∨
      ∀ holder path, d.Reachable holder → d.fileAt holder path = some node → Passes d d.Reachable file.parent holder)
    (hupdate : updateDiskUsed { d with files := d.files.insert node file' } file.parent = .ok d') : d'.Counted := by
  have hsame : SameTree d { d with files := d.files.insert node file' } :=
    ⟨rfl, fun _ dir hdir => ⟨dir, hdir, rfl⟩⟩
  have hsizes : ∀ other, other ≠ node ∨ file'.size = file.size →
      sizeOf { d with files := d.files.insert node file' } other = d.sizeOf other := by
    intro other hother
    rw [sizeOf_insert]
    split
    case isTrue heq =>
      rw [heq, sizeOf, hfile]
      exact hother.resolve_left fun hne => hne heq
    case isFalse => rfl
  refine (recounted_updateDiskUsed hupdate).counted ?_ fun other found hfound => ?_
  · rcases hcond with hkept | hpasses
    · have hafter := h.balanced.setFiles (d.files.insert node file') d.next
        fun other path found _ _ => hsizes found (Or.inr hkept)
      exact balanced_updateFrom (hsame.closed hsound.closed) hafter hupdate
    · by_cases hheld : ∃ holder path, d.Reachable holder ∧ d.fileAt holder path = some node
      · obtain ⟨holder, path, hreachable, hpath⟩ := hheld
        have hafter := h.balanced.setFiles_but (d.files.insert node file') d.next holder
          fun other path' found _ hne hfound => hsizes found <| Or.inl fun heq =>
            hne (hsound.onceFile other path' holder path node (heq ▸ hfound) hpath).1
        exact passes_updateFrom (hsame.closed hsound.closed) hafter
          (hsame.passes hsound.closed (hpasses holder path hreachable hpath)) hupdate
      · have hafter := h.balanced.setFiles (d.files.insert node file') d.next
          fun other path found hother hfound => hsizes found <| Or.inl fun heq =>
            hheld ⟨other, path, hother, heq ▸ hfound⟩
        exact balanced_updateFrom (hsame.closed hsound.closed) hafter hupdate
  · have hlookup : (d.files.insert node file').lookup other = some found := hfound
    exact Map.forall_insert h.sized hsize other found hlookup

/-! ### Moves -/

/-- A file is taken out of a directory, -/
theorem Balanced.released_file {R : Nat → Prop} {node : Nat} (h : d.Balanced R) (hclosed : d.Closed R)
    (hrelease : d.releaseFileNode id name = .ok (some node, d')) (hcond : d.sizeOf node = 0 ∨ Passes d R id id) :
    d'.Balanced R ∧ SameTree d d' ∧ d'.files = d.files := by
  obtain ⟨dir, hdir, hentry, hupdate⟩ := releaseFileNode_some hrelease
  have hsame := sameTree_setDir hdir { dir with files := dir.files.erase name } rfl rfl
  have hcounted := recounted_updateDiskUsed hupdate
  refine ⟨h.change { dir with files := dir.files.erase name } hdir rfl (hsame.closed hclosed) ?_ hupdate,
    hsame.trans hcounted.sameTree, hcounted.files⟩
  refine hcond.imp (fun hempty _ => ?_) (hsame.passes hclosed)
  rw [usage_erase_file { dir with files := dir.files.erase name } hentry rfl rfl, hempty, Nat.zero_add]

/-- what has the name is freed, -/
theorem Balanced.replaced {R : Nat → Prop} {exist : Option Nat} (h : d.Balanced R) (hsound : d.Sound) (hclosed : d.Closed R)
    (hrelease : d.releaseFileNode id name = .ok (exist, d'))
    (hcond : ∀ node, d.fileAt id name = some node → d.sizeOf node = 0 ∨ Passes d R id id) :
    (d'.deleteFile exist).Balanced R ∧ SameTree d (d'.deleteFile exist) := by
  cases exist with
  | none =>
      rw [(releaseFileNode_none hrelease).1]
      exact ⟨h, rfl, fun _ dir hdir => ⟨dir, hdir, rfl⟩⟩
  | some node =>
      obtain ⟨dir, hdir, hentry, -⟩ := releaseFileNode_some hrelease
      obtain ⟨hbalanced, hsame, -⟩ := h.released_file hclosed hrelease (hcond node ((fileAt_eq hdir name).trans hentry))
      exact ⟨hbalanced.freeFile (hsound.released_file hrelease).2.2, hsame.trans ⟨rfl, fun _ dir hdir => ⟨dir, hdir, rfl⟩⟩⟩

/-- and a file is put in. -/
theorem Balanced.put_file {R : Nat → Prop} {node : Nat} (h : d.Balanced R) (hclosed : d.Closed R)
    (hdir : d.dirs.lookup id = some dir) (hnew : dir.hasNode name = false) (hcond : d.sizeOf node = 0 ∨ Passes d R id id)
    (hupdate : (d.setDir id { dir with files := dir.files.insert name node }).updateDiskUsed id = .ok d') :
    d'.Balanced R ∧ SameTree d d' := by
  have hsame := sameTree_setDir hdir { dir with files := dir.files.insert name node } rfl rfl
  have hcounted := recounted_updateDiskUsed hupdate
  refine ⟨h.change { dir with files := dir.files.insert name node } hdir rfl (hsame.closed hclosed) ?_ hupdate,
    hsame.trans hcounted.sameTree⟩
  refine hcond.imp (fun hempty _ => ?_) (hsame.passes hclosed)
  rw [usage_insert_file { dir with files := dir.files.insert name node } (hasNode_eq_false.mp hnew).1 rfl rfl,
    hempty, Nat.zero_add]

theorem fileAt_of_released {exist : Option Nat} (hrelease : d.releaseFileNode id name = .ok (exist, d')) {other : Nat}
    {path : Bytes} {node : Nat} (hnode : d'.fileAt other path = some node) : d.fileAt other path = some node := by
  cases exist with
  | none => exact (releaseFileNode_none hrelease).1 ▸ hnode
  | some exist =>
      obtain ⟨dir, hdir, -, hupdate⟩ := releaseFileNode_some hrelease
      rw [(recounted_updateDiskUsed hupdate).fileAt, fileAt_setDir] at hnode
      split at hnode
      case isTrue heq =>
        rw [heq, fileAt_eq hdir]
        exact (Map.of_lookup_erase hnode).2
      case isFalse => exact hnode

/-- No file changes. -/
theorem lookup_of_deleted {exist : Option Nat} (hrelease : d.releaseFileNode id name = .ok (exist, d')) {node : Nat}
    {file : File} (hfile : (d'.deleteFile exist).files.lookup node = some file) : d.files.lookup node = some file := by
  cases exist with
  | none => exact (releaseFileNode_none hrelease).1 ▸ hfile
  | some exist =>
      obtain ⟨dir, -, -, hupdate⟩ := releaseFileNode_some hrelease
      have hold := (Map.of_lookup_erase hfile).2
      rw [(recounted_updateDiskUsed hupdate).files] at hold
      exact hold

/-- A file is moved. Unless it is empty, the pointers lead up from both directories past those above; and where
a file is replaced, it too is empty or counted out. -/
theorem Counted.move_file (h : d.Counted) (hsound : d.Sound) {parent₁ parent₂ node : Nat} {name₁ name₂ : Bytes}
    {released : Disk} (hrelease : d.releaseFileNode parent₁ name₁ = .ok (some node, released))
    (hinsert : released.insertFileNode parent₂ name₂ node = .ok d')
    (hmoved : d.sizeOf node = 0 ∨ Passes d d.Reachable parent₁ parent₁ ∧ Passes d d.Reachable parent₂ parent₂)
    (hreplaced : ∀ exist, d.fileAt parent₂ name₂ = some exist →
      d.sizeOf exist = 0 ∨ Passes d d.Reachable parent₂ parent₂) : d'.Counted := by
  obtain ⟨hreleased, hsame, hfiles⟩ := h.balanced.released_file hsound.closed hrelease (hmoved.imp_right And.left)
  obtain ⟨hsound', hloose⟩ := hsound.released_file hrelease
  have hclosed := hsame.closed hsound.closed
  obtain ⟨exist, left, dir, hrelease', hdir, hnew, hupdate⟩ := insertFileNode_ok hinsert
  obtain ⟨-, hloose'⟩ := hsound'.replaced hloose hrelease'
  have hsizes : released.sizeOf = d.sizeOf := by
    funext other
    rw [sizeOf, hfiles, sizeOf]
  have hfree : ∀ other file, (left.deleteFile exist).files.lookup other = some file → d.files.lookup other = some file :=
    fun other file hfile => hfiles ▸ lookup_of_deleted hrelease' hfile
  have hsize : (left.deleteFile exist).sizeOf node = d.sizeOf node := by
    obtain ⟨file, hfile⟩ := Option.isSome_iff_exists.mp hloose'.1
    rw [sizeOf, hfile, sizeOf, hfree node file hfile]
  obtain ⟨hbalanced, hsame'⟩ := hreleased.replaced hsound' hclosed hrelease' fun other hother => by
    rw [hsizes]
    exact (hreplaced other (fileAt_of_released hrelease hother)).imp_right (hsame.passes hsound.closed)
  obtain ⟨hafter, hsame''⟩ := hbalanced.put_file (hsame'.closed hclosed) hdir hnew
    (hsize ▸ hmoved.imp_right fun hboth => hsame'.passes hclosed (hsame.passes hsound.closed hboth.2)) hupdate
  refine ⟨?_, fun other file hfile => h.sized other file (hfree other file ?_)⟩
  · rw [((hsame.trans hsame').trans hsame'').reachable]
    exact hafter
  · rw [(recounted_updateDiskUsed hupdate).files] at hfile
    exact hfile

/-- The entries that lead on once a directory was taken out, -/
theorem holds_of_taken (hdir : d.dirs.lookup id = some dir) {holder child : Nat}
    (hholds : (d.setDir id { dir with dirs := dir.dirs.erase name }).Holds holder child) : d.Holds holder child := by
  obtain ⟨path, hpath⟩ := hholds
  rw [subdir_setDir] at hpath
  split at hpath
  case isTrue heq => exact ⟨path, heq ▸ (subdir_eq hdir path).trans (Map.of_lookup_erase hpath).2⟩
  case isFalse => exact ⟨path, hpath⟩

/-- and once it was put in elsewhere. -/
theorem holds_of_moved {node parent₂ : Nat} (name₂ : Bytes) {dir₂ : Dir} (hsound : d.Sound)
    (hrelease : d.releaseDirNode id name = .ok (some node, d')) (hdir₂ : d'.dirs.lookup parent₂ = some dir₂)
    (holder child : Nat)
    (hholds : (d'.setDir parent₂ { dir₂ with dirs := dir₂.dirs.insert name₂ node }).Holds holder child) :
    holder = parent₂ ∧ child = node ∨ d.Holds holder child ∧ child ≠ node := by
  obtain ⟨-, -, -, hloose⟩ := hsound.released_dir hrelease
  obtain ⟨dir, hdir, hentry, hupdate⟩ := releaseDirNode_some hrelease
  have hold : ∀ path, d'.subdir holder path = some child → d.Holds holder child ∧ child ≠ node := by
    intro path hpath
    have hheld : d'.Holds holder child := ⟨path, hpath⟩
    rw [(recounted_updateDiskUsed hupdate).holds] at hheld
    refine ⟨holds_of_taken hdir hheld, ?_⟩
    rintro rfl
    exact hloose holder path hpath
  obtain ⟨path, hpath⟩ := hholds
  rw [subdir_setDir] at hpath
  split at hpath
  case isTrue heq =>
    rcases Map.of_lookup_insert hpath with ⟨-, hmoved⟩ | hpath
    · exact Or.inl ⟨heq, hmoved⟩
    · exact Or.inr (hold path (heq ▸ (subdir_eq hdir₂ path).trans hpath))
  case isFalse => exact Or.inr (hold path hpath)

/-- A directory is taken out; one that counts nothing still does so afterwards. -/
theorem Balanced.released_dir {R : Nat → Prop} {node : Nat} (h : d.Balanced R) (hclosed : d.Closed R)
    (hrelease : d.releaseDirNode id name = .ok (some node, d')) (hcond : d.usedBy node = 0 ∨ Passes d R id id) :
    d'.Balanced R ∧ (d.usedBy node = 0 → R node → d'.usedBy node = 0) := by
  obtain ⟨dir, hdir, hentry, hupdate⟩ := releaseDirNode_some hrelease
  have hclosed' : (d.setDir id { dir with dirs := dir.dirs.erase name }).Closed R :=
    hclosed.mono fun _ _ => holds_of_taken hdir
  have husage : d.usedBy node = 0 → d.usage { dir with dirs := dir.dirs.erase name } = d.usage dir := by
    intro hempty
    rw [usage_erase_dir { dir with dirs := dir.dirs.erase name } hentry rfl rfl, hempty, Nat.zero_add]
  constructor
  · refine h.change { dir with dirs := dir.dirs.erase name } hdir rfl hclosed' ?_ hupdate
    refine hcond.imp (fun hempty _ => husage hempty) fun hpasses => ?_
    exact hpasses.mono (P := fun _ => True) hclosed (fun _ hother => hother) (fun _ _ _ _ => holds_of_taken hdir)
      (sameParents_setDir hdir { dir with dirs := dir.dirs.erase name } rfl) (fun _ _ _ _ => trivial) trivial
  · intro hempty hnode
    have hbefore := h.setDir { dir with dirs := dir.dirs.erase name } hdir rfl fun hid =>
      (h id dir hid hdir).trans (husage hempty).symm
    rw [usedBy_updateFrom hclosed' hbefore hupdate node hnode, usedBy_setDir]
    split
    case isTrue heq =>
      rw [heq, usedBy, hdir] at hempty
      exact hempty
    case isFalse => exact hempty

/-- A directory is moved. Unless it counts nothing, the pointers lead up from both directories past those
above. -/
theorem Counted.move_dir (h : d.Counted) (hsound : d.Sound) {parent₁ parent₂ node : Nat} {name₁ name₂ : Bytes}
    {released : Disk} (hreach₁ : d.Reachable parent₁) (hrelease : d.releaseDirNode parent₁ name₁ = .ok (some node, released))
    (hinsert : released.insertDirNode parent₂ name₂ node = .ok d')
    (hmoved : d.usedBy node = 0 ∨ Passes d d.Reachable parent₁ parent₁ ∧ Passes d d.Reachable parent₂ parent₂) :
    d'.Counted := by
  obtain ⟨dir₁, hdir₁, hentry, hupdate₁⟩ := releaseDirNode_some hrelease
  obtain ⟨dir₂, hdir₂, hnew, hupdate₂⟩ := insertDirNode_ok hinsert
  obtain ⟨hsound₁, hloose⟩ := hsound.released_dir hrelease
  have hsound₂ : (released.setDir parent₂ { dir₂ with dirs := dir₂.dirs.insert name₂ node }).Sound :=
    hsound₁.putDir hdir₂ hloose rfl rfl rfl
  have hheld : d.Holds parent₁ node := ⟨name₁, (subdir_eq hdir₁ name₁).trans hentry⟩
  have hnode : d.Reachable node := hreach₁.tail hheld
  have hedges := holds_of_moved name₂ hsound hrelease hdir₂
  obtain ⟨hbalanced, hempty⟩ := h.balanced.released_dir hsound.closed hrelease (hmoved.imp_right And.left)
  have hless : ∀ other, Disk.Reachable (released.setDir parent₂ { dir₂ with dirs := dir₂.dirs.insert name₂ node }) other →
      d.Reachable other := fun other => LibForest.reachable_of_moved hedges hnode
  have hcounted := recounted_updateDiskUsed hupdate₂
  refine hcounted.counted ?_ ?_
  · refine (hbalanced.weaken hless).change { dir₂ with dirs := dir₂.dirs.insert name₂ node } hdir₂ rfl hsound₂.closed ?_
      hupdate₂
    by_cases hbelow : ReflTransGen d.Holds node parent₂
    · refine Or.inl fun hother => absurd hbelow ?_
      exact LibForest.not_reachable_of_moved hsound.holder_unique hsound.not_holds_root hedges ⟨parent₁, hheld⟩ hbelow hother
    · refine hmoved.imp (fun hzero _ => ?_) fun hboth => ?_
      · rw [usage_insert_dir { dir₂ with dirs := dir₂.dirs.insert name₂ node } (hasNode_eq_false.mp hnew).2 rfl
          rfl, hempty hzero hnode, Nat.zero_add]
      · -- what is above the second directory is not what was moved
        refine hboth.2.mono (P := fun other => ReflTransGen d.Holds other parent₂) hsound.closed hless
          (fun holder other _ hother hholds => ?_) (fun other found hfound => ?_)
          (fun holder other hholds hother => .head hholds hother) .refl
        · rcases hedges holder other hholds with ⟨-, rfl⟩ | ⟨hold, -⟩
          · exact absurd hother hbelow
          · exact hold
        · obtain ⟨found', hfound', hsame⟩ := sameParents_setDir hdir₁ { dir₁ with dirs := dir₁.dirs.erase name₁ } rfl other
            found hfound
          obtain ⟨found'', hfound'', hsame'⟩ := (recounted_updateDiskUsed hupdate₁).sameTree.parents other found' hfound'
          obtain ⟨last, hlast, hsame''⟩ := sameParents_setDir hdir₂ { dir₂ with dirs := dir₂.dirs.insert name₂ node } rfl
            other found'' hfound''
          exact ⟨last, hlast, hsame''.trans (hsame'.trans hsame)⟩
  · intro other file hfile
    have hlookup : released.files.lookup other = some file := hfile
    rw [(recounted_updateDiskUsed hupdate₁).files] at hlookup
    exact h.sized other file hlookup

end

/-! ### Runs -/

/-- The pointers lead up from a directory past all above it. -/
def Follows (d : Disk) (id : Nat) : Prop := Passes d d.Reachable id id

/-- What is removed counts nothing, a file keeps its length when it is truncated, and where something changes
that counts, the pointers to the parents lead up past all directories above it. -/
def KeepsCount (d : Disk) : Op → Prop
  | .create _ _ => True
  | .mkdir _ _ => True
  | .write handle buf offset =>
      ∀ file, d.files.lookup handle = some file → offset + buf.length ≤ file.data.length ∨
        ∀ holder path, d.Reachable holder → d.fileAt holder path = some handle → Passes d d.Reachable file.parent holder
  | .truncate path offset =>
      ∀ id file, d.getFile path = .ok (some id) → d.files.lookup id = some file → offset = file.data.length
  | .unlink path =>
      ∀ id name node, d.getNodeParent path = .ok (some id, name) → d.fileAt id name = some node → d.sizeOf node = 0
  | .rmdir path =>
      ∀ id name child, d.getNodeParent path = .ok (some id, name) → d.subdir id name = some child → d.usedBy child = 0
  | .rename source target =>
      ∀ parent₁ name₁ parent₂ name₂, d.getNodeParent source = .ok (some parent₁, name₁) →
        d.getNodeParent target = .ok (some parent₂, name₂) →
        (∀ node, d.fileAt parent₁ name₁ = some node →
          (d.sizeOf node = 0 ∨ d.Follows parent₁ ∧ d.Follows parent₂) ∧
            ∀ exist, d.fileAt parent₂ name₂ = some exist → d.sizeOf exist = 0 ∨ d.Follows parent₂) ∧
        ∀ node, d.subdir parent₁ name₁ = some node → d.usedBy node = 0 ∨ d.Follows parent₁ ∧ d.Follows parent₂

theorem counted_new : new.Counted := by
  refine ⟨fun id dir hid hdir => ?_, fun id file hfile => ?_⟩
  · rw [lookup_new, if_pos (eq_root_of_reachable_new hid)] at hdir
    cases hdir
    rfl
  · cases hfile

theorem length_written {data buf : Bytes} {offset : Nat} (h : offset + buf.length ≤ data.length) :
    (data.take offset ++ buf ++ data.drop (offset + buf.length)).length = data.length := by
  simp only [List.length_append, List.length_take, List.length_drop]
  omega

/-- The totals stay right under a call that keeps to the condition. -/
theorem Counted.step {d d' : Disk} (h : d.Counted) (hsound : d.Sound) {op : Op} (hkeeps : d.KeepsCount op)
    (hstep : d.step op = .ok d') : d'.Counted := by
  cases outcome_of_step hstep with
  | nothing => exact h
  | create hparent hdir hnew => exact h.create hsound hdir (reachable_of_getNodeParent hparent) hnew
  | mkdir hparent hdir hnew => exact h.mkdir hsound hdir (reachable_of_getNodeParent hparent) hnew
  | @write handle offset buf data file _ hfile hdata hupdate =>
      refine h.changeFile hsound hfile rfl ((hkeeps file hfile).imp_left fun hinside => ?_) hupdate
      rw [h.sized handle file hfile, hdata]
      exact length_written hinside
  | @truncate path id offset file _ hget hfile hupdate =>
      have hlength := hkeeps id file hget hfile
      exact h.changeFile hsound hfile hlength (Or.inl (hlength.trans (h.sized id file hfile).symm)) hupdate
  | @unlink path name id node dir hparent hdir hentry =>
      exact h.unlink hsound hdir hentry (hkeeps id name node hparent ((fileAt_eq hdir name).trans hentry))
  | @rmdir path name id child dir hparent hdir hentry =>
      have hpruned := hsound.pruned hdir hentry (reachable_of_getNodeParent hparent)
      exact h.pruned hsound hpruned (hkeeps id name child hparent ((subdir_eq hdir name).trans hentry))
  | @renameFile source target name₁ name₂ parent₁ parent₂ node released _ hsource htarget hrelease hinsert =>
      obtain ⟨dir, hdir, hentry, -⟩ := releaseFileNode_some hrelease
      obtain ⟨hmoved, hreplaced⟩ := (hkeeps parent₁ name₁ parent₂ name₂ hsource htarget).1 node
        ((fileAt_eq hdir name₁).trans hentry)
      exact h.move_file hsound hrelease hinsert hmoved hreplaced
  | @renameDir source target name₁ name₂ parent₁ parent₂ node released _ hsource htarget hrelease hinsert =>
      obtain ⟨dir, hdir, hentry, -⟩ := releaseDirNode_some hrelease
      have hmoved := (hkeeps parent₁ name₁ parent₂ name₂ hsource htarget).2 node ((subdir_eq hdir name₁).trans hentry)
      exact h.move_dir hsound (reachable_of_getNodeParent hsource) hrelease hinsert hmoved

/-- **The cached totals are right in every run that keeps to the condition**, and so is the free space that is
reported. -/
theorem run_accounted {ops : List Op} {d : Disk} (h : Run (Restrict Returns KeepsCount) new ops d) :
    d.Accounted ∧ ∀ diskSize, ∃ bytes, Total d (fun file => file.data.length) Ramdisk.root bytes ∧
      d.bfree diskSize = .ok (((diskSize - bytes) % 2 ^ 64).toNat / kBlockSize) := by
  obtain ⟨hsound, hcounted⟩ := h.invariant (fun _ state => state.Sound ∧ state.Counted) ⟨sound_new, counted_new⟩
    fun _ _ _ _ _ hbefore hboth =>
      ⟨hbefore.1.step hboth.2, hbefore.2.step hbefore.1 hboth.1 hboth.2⟩
  have haccounted := hcounted.accounted hsound
  refine ⟨haccounted, fun diskSize => ?_⟩
  obtain ⟨dir, hdir, -, hbytes⟩ := haccounted Ramdisk.root .refl
  refine ⟨dir.diskUsed, hbytes, ?_⟩
  have hfound : d.dir Ramdisk.root = .ok dir := by
    rw [Disk.dir, hdir]
  rw [bfree, hfound]
  rfl

/-- A file in a directory is written. -/
theorem run_accounted_written :
    ∃ d, Run (Restrict Returns KeepsCount) new
        [.mkdir [47, 97] 0, .create [47, 97, 47, 98] 0, .write 2 [1, 2, 3] 0] d ∧
      d.Accounted ∧ ∀ diskSize, ∃ bytes, Total d (fun file => file.data.length) Ramdisk.root bytes ∧
        d.bfree diskSize = .ok (((diskSize - bytes) % 2 ^ 64).toNat / kBlockSize) := by
  obtain ⟨d₁, h₁⟩ := exists_ok (x := new.step (.mkdir [47, 97] 0)) rfl
  have hok₂ : ((new.step (.mkdir [47, 97] 0)).bind fun d => d.step (.create [47, 97, 47, 98] 0)).isOk = true := rfl
  have hok₃ : ((new.step (.mkdir [47, 97] 0)).bind fun d => (d.step (.create [47, 97, 47, 98] 0)).bind fun d =>
      d.step (.write 2 [1, 2, 3] 0)).isOk = true := rfl
  have hfacts : ((new.step (.mkdir [47, 97] 0)).bind fun d => d.step (.create [47, 97, 47, 98] 0)).map (fun d =>
      ((d.files.lookup 2).map File.parent, d.fileAt 1 [98], (d.dirs.lookup 1).map Dir.parent, d.subdir 0 [97])) =
      .ok (some 1, some 2, some (some 0), some 1) := rfl
  rw [h₁, Except.bind] at hok₂ hok₃ hfacts
  obtain ⟨d₂, h₂⟩ : ∃ d, d₁.step (.create [47, 97, 47, 98] 0) = .ok d := exists_ok hok₂
  rw [h₂] at hok₃ hfacts
  obtain ⟨d₃, h₃⟩ : ∃ d, d₂.step (.write 2 [1, 2, 3] 0) = .ok d := exists_ok hok₃
  simp only [Except.map, Except.ok.injEq, Prod.mk.injEq] at hfacts
  obtain ⟨hfile, hentry, hdir, hsubdir⟩ := hfacts
  have hsound : d₂.Sound := (sound_new.step h₁).step h₂
  have hkeeps : d₂.KeepsCount (.write 2 [1, 2, 3] 0) := by
    refine fun file hfile' => Or.inr fun holder path _ hpath => ?_
    obtain ⟨rfl, -⟩ := hsound.onceFile holder path 1 [98] 2 hpath hentry
    rw [hfile', Option.map_some, Option.some.injEq] at hfile
    obtain ⟨dir, hdir, hparent⟩ := Option.map_eq_some_iff.mp hdir
    rw [hfile]
    exact .up hdir hparent .refl ⟨[97], hsubdir⟩ (.last fun other _ => hsound.not_holds_root other)
  have hmade : Restrict Returns KeepsCount new (.mkdir [47, 97] 0) d₁ := ⟨trivial, h₁⟩
  have hcreated : Restrict Returns KeepsCount d₁ (.create [47, 97, 47, 98] 0) d₂ := ⟨trivial, h₂⟩
  have hwritten : Restrict Returns KeepsCount d₂ (.write 2 [1, 2, 3] 0) d₃ := ⟨hkeeps, h₃⟩
  have hrun := (Run.single hmade).trans ((Run.single hcreated).trans (Run.single hwritten))
  exact ⟨d₃, hrun, run_accounted hrun⟩

/-- The root still counts a file that was removed. -/
theorem removed_is_counted : ¬∀ ops d, Run Returns new ops d → d.Accounted := by
  intro h
  have hcounts : ([.create [47, 97] 0, .write 1 [1] 0, .unlink [47, 97]].foldlM step new).map
      (fun d => (d.dirs.lookup Ramdisk.root).map fun dir => (dir.diskUsed, dir.dirs.entries, dir.files.entries)) =
        .ok (some (1, [], [])) := by rfl
  cases hend : [.create [47, 97] 0, .write 1 [1] 0, .unlink [47, 97]].foldlM step new with
  | error fault =>
      rw [hend] at hcounts
      cases hcounts
  | ok d =>
      rw [hend] at hcounts
      obtain ⟨dir, hdir, htotal, -⟩ := h _ d (Run.of_foldlM step new _ hend) Ramdisk.root .refl
      have hcount : (d.dirs.lookup Ramdisk.root).map (fun dir => (dir.diskUsed, dir.dirs.entries, dir.files.entries)) =
          some (1, [], []) := Except.ok.inj hcounts
      rw [hdir, Option.map_some, Option.some.injEq, Prod.mk.injEq, Prod.mk.injEq] at hcount
      obtain ⟨hused, hdirs, hfiles⟩ := hcount
      rw [hused] at htotal
      generalize hone : 1 = used at htotal
      cases htotal with
      | dir below hdir' hbelow =>
          cases hdir.symm.trans hdir'
          rw [Map.total, Map.total, hdirs, hfiles] at hone
          cases hone

end Disk

end Thebends.Ramdisk
