import Thebends.LibRun
import Thebends.RamdiskStep

/-! What a directory says of itself and its entries of it: each name is there once, `st_size` counts the
entries, and `parent_` leads back. A rename keeps to this only within one directory. -/

namespace Thebends.Ramdisk

open LibExcept LibMap LibRun Relation

namespace Disk

/-- What a directory says is so. -/
structure TidyDir (d : Disk) (id : Nat) (dir : Dir) : Prop where
  names : ∀ path, (dir.files.lookup path).isSome → dir.dirs.lookup path = none
  size : dir.size = 2 + dir.dirs.keys.length + dir.files.keys.length
  dirs : ∀ path child, dir.dirs.lookup path = some child →
    ∃ sub, d.dirs.lookup child = some sub ∧ sub.parent = some id
  files : ∀ path node, dir.files.lookup path = some node → ∃ file, d.files.lookup node = some file ∧ file.parent = id

def Tidy (d : Disk) : Prop := ∀ id, d.Reachable id → ∃ dir, d.dirs.lookup id = some dir ∧ d.TidyDir id dir

section

variable {d d' : Disk} {id : Nat} {dir dir' : Dir}

theorem TidyDir.apart (h : d.TidyDir id dir) : Map.Apart dir.files dir.dirs := h.names

/-- The parents of what a directory has stay as they are. -/
theorem TidyDir.mono (h : d.TidyDir id dir)
    (hdirs : ∀ path child sub, dir.dirs.lookup path = some child → d.dirs.lookup child = some sub →
      ∃ sub', d'.dirs.lookup child = some sub' ∧ sub'.parent = sub.parent)
    (hfiles : ∀ path node file, dir.files.lookup path = some node → d.files.lookup node = some file →
      ∃ file', d'.files.lookup node = some file' ∧ file'.parent = file.parent) : d'.TidyDir id dir := by
  refine ⟨h.names, h.size, fun path child hchild => ?_, fun path node hnode => ?_⟩
  · obtain ⟨sub, hsub, hparent⟩ := h.dirs path child hchild
    obtain ⟨sub', hsub', hsame⟩ := hdirs path child sub hchild hsub
    exact ⟨sub', hsub', hsame.trans hparent⟩
  · obtain ⟨file, hfile, hparent⟩ := h.files path node hnode
    obtain ⟨file', hfile', hsame⟩ := hfiles path node file hnode hfile
    exact ⟨file', hfile', hsame.trans hparent⟩

theorem Recounted.tidy (h : Recounted d d') (htidy : d.Tidy) : d'.Tidy := by
  intro id hid
  rw [h.reachable] at hid
  obtain ⟨dir, hdir, htidy⟩ := htidy id hid
  obtain ⟨dir', hdir', hsame⟩ := h.lookup hdir
  obtain ⟨-, hsize, hdirs, hfiles⟩ := Dir.of_uncounted hsame
  refine ⟨dir', hdir', ?_, ?_, fun path child hchild => ?_, fun path node hnode => ?_⟩
  · rw [hdirs, hfiles]
    exact htidy.names
  · rw [hdirs, hfiles, hsize]
    exact htidy.size
  · rw [hdirs] at hchild
    obtain ⟨sub, hsub, hparent⟩ := htidy.dirs path child hchild
    obtain ⟨sub', hsub', hsame'⟩ := h.lookup hsub
    exact ⟨sub', hsub', (Dir.of_uncounted hsame').1.trans hparent⟩
  · rw [hfiles] at hnode
    rw [h.files]
    exact htidy.files path node hnode

/-- A directory that has nothing in it and is in none yet. -/
def Fresh (d : Disk) (parent node : Nat) : Prop :=
  node ≠ parent ∧ ∃ sub, d.dirs.lookup node = some sub ∧ sub.parent = some parent ∧ d.TidyDir node sub ∧
    ∀ path, sub.dirs.lookup path = none

/-- One directory is changed, to what it must be. -/
theorem Tidy.setDir (h : d.Tidy) (hdir : d.dirs.lookup id = some dir) (hparent : dir'.parent = dir.parent)
    (hdirs : ∀ path child, dir'.dirs.lookup path = some child →
      (∃ path', dir.dirs.lookup path' = some child) ∨ d.Fresh id child)
    (hreachable : d.Reachable id)
    (hfiles : ∀ path node, dir'.files.lookup path = some node → ∃ file, d.files.lookup node = some file ∧ file.parent = id)
    (hnames : ∀ path, (dir'.files.lookup path).isSome → dir'.dirs.lookup path = none)
    (hsize : dir'.size = 2 + dir'.dirs.keys.length + dir'.files.keys.length) : (d.setDir id dir').Tidy := by
  have hreach : ∀ other, (d.setDir id dir').Reachable other → d.Reachable other ∨ d.Fresh id other := by
    intro other hother
    induction hother with
    | refl => exact Or.inl .refl
    | @tail holder other _ hholds ih =>
        obtain ⟨path, hpath⟩ := hholds
        rw [subdir_setDir] at hpath
        split at hpath
        · refine (hdirs path other hpath).imp_left ?_
          rintro ⟨path', hpath'⟩
          exact hreachable.tail ⟨path', (subdir_eq hdir path').trans hpath'⟩
        · rcases ih with hholder | ⟨-, sub, hsub, -, -, hempty⟩
          · exact Or.inl (hholder.tail ⟨path, hpath⟩)
          · rw [subdir_eq hsub, hempty] at hpath
            cases hpath
  have hparents : ∀ child sub, d.dirs.lookup child = some sub →
      ∃ sub', (d.setDir id dir').dirs.lookup child = some sub' ∧ sub'.parent = sub.parent := by
    intro child sub hsub
    rw [lookup_setDir]
    split
    case isTrue heq =>
      rw [heq, hdir, Option.some.injEq] at hsub
      exact ⟨dir', rfl, hsub ▸ hparent⟩
    case isFalse => exact ⟨sub, hsub, rfl⟩
  intro other hother
  by_cases heq : other = id
  · subst heq
    refine ⟨dir', by rw [lookup_setDir, if_pos rfl], hnames, hsize, fun path child hchild => ?_, hfiles⟩
    rcases hdirs path child hchild with ⟨path', hpath'⟩ | ⟨-, sub, hsub, hparent', -⟩
    · obtain ⟨dir₀, hdir₀, htidy⟩ := h other hreachable
      cases hdir₀.symm.trans hdir
      obtain ⟨sub, hsub, hparent'⟩ := htidy.dirs path' child hpath'
      obtain ⟨sub', hsub', hsame⟩ := hparents child sub hsub
      exact ⟨sub', hsub', hsame.trans hparent'⟩
    · obtain ⟨sub', hsub', hsame⟩ := hparents child sub hsub
      exact ⟨sub', hsub', hsame.trans hparent'⟩
  · have hbefore : ∃ found, d.dirs.lookup other = some found ∧ d.TidyDir other found := by
      rcases hreach other hother with hold | ⟨-, sub, hsub, -, htidy, -⟩
      · exact h other hold
      · exact ⟨sub, hsub, htidy⟩
    obtain ⟨found, hfound, htidy⟩ := hbefore
    refine ⟨found, by rw [lookup_setDir, if_neg heq, hfound], htidy.mono (fun _ child sub _ => hparents child sub) ?_⟩
    exact fun _ node file _ hfile => ⟨file, hfile, rfl⟩

/-- Files are changed, and keep their parents. -/
theorem Tidy.setFiles (h : d.Tidy) {files : Map Nat File} {next : Nat}
    (hfiles : ∀ id path node file, d.fileAt id path = some node → d.files.lookup node = some file →
      ∃ file', files.lookup node = some file' ∧ file'.parent = file.parent) : Tidy { d with files, next } := by
  intro other hother
  obtain ⟨found, hfound, htidy⟩ := h other hother
  refine ⟨found, hfound, htidy.mono (fun _ _ sub _ hsub => ⟨sub, hsub, rfl⟩) fun path node file hnode => ?_⟩
  exact hfiles other path node file ((fileAt_eq hfound path).trans hnode)

theorem exists_insert_parent {files : Map Nat File} {handle node : Nat} {file changed found : File}
    (hfile : files.lookup handle = some file) (hparent : changed.parent = file.parent)
    (hfound : files.lookup node = some found) :
    ∃ file', (files.insert handle changed).lookup node = some file' ∧ file'.parent = found.parent := by
  rw [Map.lookup_insert_eq]
  split
  case isTrue heq =>
    rw [heq, hfile, Option.some.injEq] at hfound
    exact ⟨changed, rfl, hfound ▸ hparent⟩
  case isFalse => exact ⟨found, hfound, rfl⟩

/-- The directory of a tidy disk. -/
theorem Tidy.tidyDir (h : d.Tidy) (hreachable : d.Reachable id) (hdir : d.dirs.lookup id = some dir) :
    d.TidyDir id dir := by
  obtain ⟨found, hfound, htidy⟩ := h id hreachable
  cases hfound.symm.trans hdir
  exact htidy

theorem Tidy.create (h : d.Tidy) (hsound : d.Sound) (hreachable : d.Reachable id) (hdir : d.dirs.lookup id = some dir)
    {name : Bytes} (hnew : dir.hasNode name = false) :
    (Disk.setDir { d with files := d.files.insert d.next ⟨id, [], 0⟩, next := d.next + 1 } id
      { dir with files := dir.files.insert name d.next, size := dir.size + 1 }).Tidy := by
  obtain ⟨hfile, hchild⟩ := hasNode_eq_false.mp hnew
  have htidy := h.tidyDir hreachable hdir
  have hmade : Tidy { d with files := d.files.insert d.next ⟨id, [], 0⟩, next := d.next + 1 } := by
    refine h.setFiles fun other path node file hheld hnode => ?_
    have hne : node ≠ d.next := (hsound.files_lt node (Option.isSome_iff_exists.mpr ⟨file, hnode⟩)).ne
    exact ⟨file, (Map.lookup_insert_eq ..).trans ((if_neg hne).trans hnode), rfl⟩
  refine hmade.setDir hdir rfl (fun path child hpath => Or.inl ⟨path, hpath⟩) hreachable
    (Map.forall_insert (fun path node hnode => ?_) ⟨⟨id, [], 0⟩, AList.lookup_insert _, rfl⟩)
    (htidy.apart.insert hchild d.next) ?_
  · obtain ⟨file, hlookup, hparent⟩ := htidy.files path node hnode
    have hne : node ≠ d.next := (hsound.files_lt node (Option.isSome_iff_exists.mpr ⟨file, hlookup⟩)).ne
    exact ⟨file, (AList.lookup_insert_ne hne).trans hlookup, hparent⟩
  · have hsize := htidy.size
    simp only [Map.length_keys_insert hfile]
    omega

theorem Tidy.mkdir (h : d.Tidy) (hsound : d.Sound) (hreachable : d.Reachable id) (hdir : d.dirs.lookup id = some dir)
    {name : Bytes} (hnew : dir.hasNode name = false) :
    ((d.makeDir id).setDir id { dir with dirs := dir.dirs.insert name d.next, size := dir.size + 1 }).Tidy := by
  obtain ⟨hfile, hchild⟩ := hasNode_eq_false.mp hnew
  have htidy := h.tidyDir hreachable hdir
  have hlookup : ∀ {child sub}, d.dirs.lookup child = some sub → (d.makeDir id).dirs.lookup child = some sub := by
    intro child sub hsub
    have hne : child ≠ d.next := (hsound.dirs_lt child (Option.isSome_iff_exists.mpr ⟨sub, hsub⟩)).ne
    rw [lookup_makeDir, if_neg hne, hsub]
  have hholds : (d.makeDir id).Holds = d.Holds := by
    funext holder child
    exact propext (exists_congr fun path => by rw [hsound.subdir_makeDir])
  have hreach : ∀ other, (d.makeDir id).Reachable other ↔ d.Reachable other := fun other => by
    rw [Reachable, hholds, Reachable]
  have hmade : (d.makeDir id).Tidy := by
    intro other hother
    obtain ⟨found, hfound, hother⟩ := h other ((hreach other).mp hother)
    exact ⟨found, hlookup hfound, hother.mono (fun _ _ sub _ hsub => ⟨sub, hlookup hsub, rfl⟩)
      fun _ _ file _ hnode => ⟨file, hnode, rfl⟩⟩
  have hfresh : (d.makeDir id).Fresh id d.next := by
    have hne : d.next ≠ id := (hsound.dirs_lt id (Option.isSome_iff_exists.mpr ⟨dir, hdir⟩)).ne'
    refine ⟨hne, ⟨some id, 0, 2, ∅, ∅⟩, (lookup_makeDir ..).trans (if_pos rfl), rfl, ⟨?_, rfl, ?_, ?_⟩, fun _ => rfl⟩
    · exact fun _ hpath => Bool.noConfusion hpath
    · intro path child hpath
      cases hpath
    · intro path node hpath
      cases hpath
  refine hmade.setDir (hlookup hdir) rfl
    (Map.forall_insert (fun path child hpath => Or.inl ⟨path, hpath⟩) (Or.inr hfresh)) ((hreach id).mpr hreachable)
    htidy.files (htidy.apart.symm.insert hfile d.next).symm ?_
  · have hsize := htidy.size
    simp only [Map.length_keys_insert hchild]
    omega

theorem Tidy.unlink (h : d.Tidy) (hsound : d.Sound) (hreachable : d.Reachable id) (hdir : d.dirs.lookup id = some dir)
    {name : Bytes} {node : Nat} (hentry : dir.files.lookup name = some node) :
    (Disk.setDir { d with files := d.files.erase node } id
      { dir with files := dir.files.erase name, size := dir.size - 1 }).Tidy := by
  have htidy := h.tidyDir hreachable hdir
  have htaken : (d.setDir id { dir with files := dir.files.erase name, size := dir.size - 1 }).Tidy := by
    refine h.setDir hdir rfl (fun path child hpath => Or.inl ⟨path, hpath⟩) hreachable
      (fun path file hfile => htidy.files path file (Map.of_lookup_erase hfile).2) (htidy.apart.erase name) ?_
    · have hsize := htidy.size
      have hlength := Map.length_keys_erase hentry
      simp only
      omega
  obtain ⟨-, -, hloose⟩ := hsound.takeFile hdir hentry
    { dir with files := dir.files.erase name, size := dir.size - 1 } rfl rfl rfl
  refine htaken.setFiles fun other path file found hheld hfound => ⟨found, ?_, rfl⟩
  have hne : file ≠ node := fun heq => hloose other path (heq ▸ hheld)
  exact (Map.lookup_erase_eq ..).trans ((if_neg hne).trans hfound)

theorem Tidy.pruned (h : d.Tidy) (hsound : d.Sound) (hreachable : d.Reachable id) {name : Bytes} {child : Nat}
    (hpruned : Pruned d d' id name dir child) : d'.Tidy := by
  have htidy := h.tidyDir hreachable hpruned.holder
  have hparents : ∀ {other path node sub}, d'.subdir other path = some node → d.dirs.lookup node = some sub →
      ∃ sub', d'.dirs.lookup node = some sub' ∧ sub'.parent = sub.parent := by
    intro other path node sub hnode hsub
    rw [hpruned.dirs]
    split
    case isTrue heq =>
      rw [heq, hpruned.holder, Option.some.injEq] at hsub
      exact ⟨_, rfl, hsub ▸ rfl⟩
    case isFalse => exact ⟨sub, (if_neg (hpruned.not_below hsound hnode)).trans hsub, rfl⟩
  have hfiles : ∀ {other path node file}, d'.fileAt other path = some node → d.files.lookup node = some file →
      ∃ file', d'.files.lookup node = some file' ∧ file'.parent = file.parent := by
    intro other path node file hnode hfile
    exact ⟨file, (hpruned.files node).trans ((if_neg (hpruned.not_deleted hsound hnode)).trans hfile), rfl⟩
  intro other hother
  obtain ⟨hbefore, houtside⟩ := hpruned.reachable hsound hother
  by_cases heq : other = id
  · subst heq
    have hself : d'.dirs.lookup other = some { dir with dirs := dir.dirs.erase name, size := dir.size - 1 } := by
      rw [hpruned.dirs, if_pos rfl]
    refine ⟨_, hself, (htidy.apart.symm.erase name).symm, ?_, fun path node hnode => ?_, fun path node hnode => ?_⟩
    · have hsize := htidy.size
      have hlength := Map.length_keys_erase hpruned.entry
      simp only
      omega
    · have hheld := (subdir_eq hself path).trans hnode
      obtain ⟨hold, -, -⟩ := hpruned.subdir hheld
      rw [subdir_eq hpruned.holder] at hold
      obtain ⟨sub, hsub, hparent⟩ := htidy.dirs path node hold
      obtain ⟨sub', hsub', hsame⟩ := hparents hheld hsub
      exact ⟨sub', hsub', hsame.trans hparent⟩
    · obtain ⟨file, hfile, hparent⟩ := htidy.files path node hnode
      obtain ⟨file', hfile', hsame⟩ := hfiles ((fileAt_eq hself path).trans hnode) hfile
      exact ⟨file', hfile', hsame.trans hparent⟩
  · obtain ⟨found, hfound, htidy'⟩ := h other hbefore
    have hself : d'.dirs.lookup other = some found := by
      rw [hpruned.dirs, if_neg heq, if_neg houtside, hfound]
    refine ⟨found, hself, htidy'.mono (fun path node sub hnode hsub => ?_) fun path node file hnode hfile => ?_⟩
    · exact hparents ((subdir_eq hself path).trans hnode) hsub
    · exact hfiles ((fileAt_eq hself path).trans hnode) hfile

/-! ### Renames -/

section

variable {name₁ name₂ : Bytes} {parent₂ node : Nat} {released : Disk}

/-- A file is renamed in its directory: another file of the new name is replaced. -/
theorem move_file_within (hrelease : d.releaseFileNode id name₁ = .ok (some node, released))
    (hinsert : released.insertFileNode id name₂ node = .ok d') :
    ∃ dir, d.dirs.lookup id = some dir ∧ dir.files.lookup name₁ = some node ∧ dir.dirs.lookup name₂ = none ∧
      ((dir.files.erase name₁).lookup name₂ = none ∧
          Recounted (d.setDir id { dir with files := (dir.files.erase name₁).insert name₂ node }) d' ∨
        ∃ exist, (dir.files.erase name₁).lookup name₂ = some exist ∧
          Recounted (Disk.setDir { d with files := d.files.erase exist } id
            { dir with files := ((dir.files.erase name₁).erase name₂).insert name₂ node }) d') := by
  obtain ⟨dir, hdir, hentry, hupdate⟩ := releaseFileNode_some hrelease
  have hreleased := recounted_updateDiskUsed hupdate
  obtain ⟨dir₁, hdir₁, hsame⟩ := hreleased.lookup ((lookup_setDir ..).trans (if_pos rfl))
  obtain ⟨hparent, hsize, hdirs, hfiles⟩ := Dir.of_uncounted hsame
  obtain ⟨hchild, hcases⟩ := insertFileNode_recounted hinsert hdir₁
  simp only [hdirs, hfiles] at hchild hcases
  refine ⟨dir, hdir, hentry, hchild, hcases.imp ?_ ?_⟩
  · rintro ⟨hnone, hinserted⟩
    refine ⟨hnone, (hreleased.overwrite ?_).trans hinserted⟩
    simp only [Dir.uncounted, hparent, hsize]
  · rintro ⟨exist, hexist, hinserted⟩
    refine ⟨exist, hexist, ((hreleased.freeFile exist).overwrite ?_).trans hinserted⟩
    simp only [Dir.uncounted, hparent, hsize]

theorem move_dir_within (hrelease : d.releaseDirNode id name₁ = .ok (some node, released))
    (hinsert : released.insertDirNode id name₂ node = .ok d') :
    ∃ dir, d.dirs.lookup id = some dir ∧ dir.dirs.lookup name₁ = some node ∧ dir.files.lookup name₂ = none ∧
      (dir.dirs.erase name₁).lookup name₂ = none ∧
      Recounted (d.setDir id { dir with dirs := (dir.dirs.erase name₁).insert name₂ node }) d' := by
  obtain ⟨dir, hdir, hentry, hupdate⟩ := releaseDirNode_some hrelease
  have hreleased := recounted_updateDiskUsed hupdate
  obtain ⟨dir₁, hdir₁, hsame⟩ := hreleased.lookup ((lookup_setDir ..).trans (if_pos rfl))
  obtain ⟨hparent, hsize, hdirs, hfiles⟩ := Dir.of_uncounted hsame
  obtain ⟨hfile, hchild, hinserted⟩ := insertDirNode_recounted hinsert hdir₁
  simp only [hdirs, hfiles] at hfile hchild hinserted
  refine ⟨dir, hdir, hentry, hfile, hchild, (hreleased.overwrite ?_).trans hinserted⟩
  simp only [Dir.uncounted, hparent, hsize]

/-- A directory that has as many entries as before has an `st_size` as before, and only then. -/
theorem TidyDir.count_eq (h : d.TidyDir id dir) (h' : d'.TidyDir id dir') (hsize : dir'.size = dir.size) :
    dir'.dirs.keys.length + dir'.files.keys.length = dir.dirs.keys.length + dir.files.keys.length := by
  have hbefore := h.size
  have hafter := h'.size
  omega

/-- What is put in a directory leaves the others as they are. -/
theorem insertFileNode_other (h : d.insertFileNode id name₂ node = .ok d') {other : Nat} (hne : other ≠ id) :
    (d'.dirs.lookup other).map Dir.uncounted = (d.dirs.lookup other).map Dir.uncounted := by
  obtain ⟨exist, released, dir, hrelease, -, -, hupdate⟩ := insertFileNode_ok h
  refine ((recounted_updateDiskUsed hupdate).dirs other).trans ?_
  rw [lookup_setDir, if_neg hne]
  cases exist with
  | none => rw [(releaseFileNode_none hrelease).1, deleteFile]
  | some exist =>
      obtain ⟨dir₀, -, -, hreleased⟩ := releaseFileNode_some hrelease
      refine ((recounted_updateDiskUsed hreleased).dirs other).trans ?_
      rw [lookup_setDir, if_neg hne]

theorem insertDirNode_other (h : d.insertDirNode id name₂ node = .ok d') {other : Nat} (hne : other ≠ id) :
    (d'.dirs.lookup other).map Dir.uncounted = (d.dirs.lookup other).map Dir.uncounted := by
  obtain ⟨dir, -, -, hupdate⟩ := insertDirNode_ok h
  refine ((recounted_updateDiskUsed hupdate).dirs other).trans ?_
  rw [lookup_setDir, if_neg hne]

/-- Files that are moved lead nowhere. -/
theorem subdir_releaseFileNode {exist : Option Nat} (h : d.releaseFileNode id name₁ = .ok (exist, released)) (other : Nat)
    (path : Bytes) : released.subdir other path = d.subdir other path := by
  cases exist with
  | none => rw [(releaseFileNode_none h).1]
  | some exist =>
      obtain ⟨dir, hdir, -, hupdate⟩ := releaseFileNode_some h
      rw [(recounted_updateDiskUsed hupdate).subdir, subdir_setDir]
      split
      case isTrue heq => rw [heq, subdir_eq hdir]
      case isFalse => rfl

theorem subdir_insertFileNode (h : d.insertFileNode id name₂ node = .ok d') (other : Nat) (path : Bytes) :
    d'.subdir other path = d.subdir other path := by
  obtain ⟨exist, released, dir, hrelease, hdir, -, hupdate⟩ := insertFileNode_ok h
  have hsame : (released.deleteFile exist).subdir other path = released.subdir other path := by
    cases exist <;> rfl
  rw [← subdir_releaseFileNode hrelease, ← hsame, (recounted_updateDiskUsed hupdate).subdir, subdir_setDir]
  split
  case isTrue heq => rw [heq, subdir_eq hdir]
  case isFalse => rfl

/-- Entries other than the one that is moved stay. -/
theorem subdir_move_dir (hrelease : d.releaseDirNode id name₁ = .ok (some node, released))
    (hinsert : released.insertDirNode parent₂ name₂ node = .ok d') {other child : Nat} {path : Bytes}
    (hchild : d.subdir other path = some child) (hnot : ¬(other = id ∧ path = name₁)) :
    d'.subdir other path = some child := by
  obtain ⟨dir, hdir, -, hreleased⟩ := releaseDirNode_some hrelease
  obtain ⟨dir₂, hdir₂, hnew, hinserted⟩ := insertDirNode_ok hinsert
  have hkept : released.subdir other path = some child := by
    rw [(recounted_updateDiskUsed hreleased).subdir, subdir_setDir]
    split
    case isTrue heq =>
      rw [heq, subdir_eq hdir] at hchild
      exact (Map.lookup_erase_eq ..).trans ((if_neg fun hpath => hnot ⟨heq, hpath⟩).trans hchild)
    case isFalse => exact hchild
  rw [(recounted_updateDiskUsed hinserted).subdir, subdir_setDir]
  split
  case isTrue heq =>
    rw [heq, subdir_eq hdir₂] at hkept
    have hne : path ≠ name₂ := by
      rintro rfl
      cases hkept.symm.trans (hasNode_eq_false.mp hnew).2
    exact (AList.lookup_insert_ne hne).trans hkept
  case isFalse => exact hkept

/-- The directory from which another is moved can still be reached. -/
theorem Sound.reachable_move_dir (h : d.Sound) (hreachable : d.Reachable id)
    (hrelease : d.releaseDirNode id name₁ = .ok (some node, released))
    (hinsert : released.insertDirNode parent₂ name₂ node = .ok d') : d'.Reachable id := by
  obtain ⟨dir, hdir, hentry, -⟩ := releaseDirNode_some hrelease
  have hheld : d.subdir id name₁ = some node := (subdir_eq hdir name₁).trans hentry
  have hboth : ∀ other, d.Reachable other → d'.Reachable other ∨ ReflTransGen d.Holds node other := by
    intro other hother
    induction hother with
    | refl => exact Or.inl .refl
    | @tail holder child _ hholds ih =>
        rcases ih with hholder | hbelow
        · obtain ⟨path, hpath⟩ := hholds
          by_cases hmoved : holder = id ∧ path = name₁
          · obtain ⟨rfl, rfl⟩ := hmoved
            cases hheld.symm.trans hpath
            exact Or.inr .refl
          · exact Or.inl (hholder.tail ⟨path, subdir_move_dir hrelease hinsert hpath hmoved⟩)
        · exact Or.inr (hbelow.tail hholds)
  rcases hboth id hreachable with hafter | hbelow
  · exact hafter
  · exact absurd (TransGen.head'_iff.mpr ⟨node, ⟨name₁, hheld⟩, hbelow⟩) (h.acyclic hreachable)

/-- A file is renamed within its directory just when this stays tidy. -/
theorem Tidy.move_file (h : d.Tidy) (hreachable : d.Reachable id)
    (hrelease : d.releaseFileNode id name₁ = .ok (some node, released))
    (hinsert : released.insertFileNode parent₂ name₂ node = .ok d') :
    d'.Tidy ↔ id = parent₂ ∧ (name₁ = name₂ ∨ d.fileAt parent₂ name₂ = none) := by
  have hreach : ∀ other, d'.Reachable other ↔ d.Reachable other := by
    have hholds : d'.Holds = d.Holds := by
      funext holder child
      exact propext (exists_congr fun path => by rw [subdir_insertFileNode hinsert, subdir_releaseFileNode hrelease])
    intro other
    rw [Reachable, hholds, Reachable]
  by_cases hsame : id = parent₂
  · subst hsame
    obtain ⟨dir, hdir, hentry, hchild, ⟨hnone, hcounted⟩ | ⟨exist, hexist, hcounted⟩⟩ :=
      move_file_within hrelease hinsert
    · have htidy := h.tidyDir hreachable hdir
      have hcond : name₁ = name₂ ∨ d.fileAt id name₂ = none := by
        rw [fileAt_eq hdir]
        rw [Map.lookup_erase_eq] at hnone
        split at hnone
        case isTrue heq => exact Or.inl heq.symm
        case isFalse => exact Or.inr hnone
      refine iff_of_true (hcounted.tidy ?_) ⟨rfl, hcond⟩
      have hfiles : ∀ path file, (dir.files.erase name₁).lookup path = some file →
          ∃ found, d.files.lookup file = some found ∧ found.parent = id :=
        fun path file hfile => htidy.files path file (Map.of_lookup_erase hfile).2
      refine h.setDir hdir rfl (fun path child hpath => Or.inl ⟨path, hpath⟩) hreachable
        (Map.forall_insert hfiles (htidy.files name₁ node hentry)) ((htidy.apart.erase name₁).insert hchild node) ?_
      · have hsize := htidy.size
        have herase := Map.length_keys_erase hentry
        simp only [Map.length_keys_insert hnone]
        omega
    · have htidy := h.tidyDir hreachable hdir
      obtain ⟨dir', hdir', huncounted⟩ := hcounted.lookup ((lookup_setDir ..).trans (if_pos rfl))
      obtain ⟨-, hsize, hdirs, hfiles⟩ := Dir.of_uncounted huncounted
      refine iff_of_false (fun hafter => ?_) ?_
      · have hcount := htidy.count_eq (hafter.tidyDir ((hreach id).mpr hreachable) hdir') hsize
        have hfirst := Map.length_keys_erase hentry
        have hsecond := Map.length_keys_erase hexist
        rw [hdirs, hfiles] at hcount
        simp only [Map.length_keys_insert (AList.lookup_erase _ _)] at hcount
        omega
      · obtain ⟨hne, hexist⟩ := Map.of_lookup_erase hexist
        rintro ⟨-, heq | hnone⟩
        · exact hne heq.symm
        · rw [fileAt_eq hdir, hexist] at hnone
          cases hnone
  · refine iff_of_false (fun hafter => ?_) fun hcond => hsame hcond.1
    obtain ⟨dir, hdir, hentry, hupdate⟩ := releaseFileNode_some hrelease
    have hlookup := insertFileNode_other hinsert hsame
    rw [(recounted_updateDiskUsed hupdate).dirs, lookup_setDir, if_pos rfl, Option.map_some] at hlookup
    obtain ⟨dir', hdir', huncounted⟩ := Option.map_eq_some_iff.mp hlookup
    obtain ⟨-, hsize, hdirs, hfiles⟩ := Dir.of_uncounted huncounted
    have hcount := (h.tidyDir hreachable hdir).count_eq (hafter.tidyDir ((hreach id).mpr hreachable) hdir') hsize
    have herase := Map.length_keys_erase hentry
    rw [hdirs, hfiles] at hcount
    simp only at hcount
    omega

theorem Tidy.move_dir (h : d.Tidy) (hsound : d.Sound) (hreachable : d.Reachable id)
    (hrelease : d.releaseDirNode id name₁ = .ok (some node, released))
    (hinsert : released.insertDirNode parent₂ name₂ node = .ok d') :
    d'.Tidy ↔ id = parent₂ ∧ (name₁ = name₂ ∨ d.fileAt parent₂ name₂ = none) := by
  by_cases hsame : id = parent₂
  · subst hsame
    obtain ⟨dir, hdir, hentry, hfile, hnone, hcounted⟩ := move_dir_within hrelease hinsert
    have htidy := h.tidyDir hreachable hdir
    refine iff_of_true (hcounted.tidy ?_) ⟨rfl, Or.inr ((fileAt_eq hdir name₂).trans hfile)⟩
    have hdirs : ∀ path child, (dir.dirs.erase name₁).lookup path = some child →
        (∃ path', dir.dirs.lookup path' = some child) ∨ d.Fresh id child :=
      fun path child hchild => Or.inl ⟨path, (Map.of_lookup_erase hchild).2⟩
    refine h.setDir hdir rfl (Map.forall_insert hdirs (Or.inl ⟨name₁, hentry⟩)) hreachable htidy.files
      ((htidy.apart.symm.erase name₁).insert hfile node).symm ?_
    · have hsize := htidy.size
      have herase := Map.length_keys_erase hentry
      simp only [Map.length_keys_insert hnone]
      omega
  · refine iff_of_false (fun hafter => ?_) fun hcond => hsame hcond.1
    obtain ⟨dir, hdir, hentry, hupdate⟩ := releaseDirNode_some hrelease
    have hlookup := insertDirNode_other hinsert hsame
    rw [(recounted_updateDiskUsed hupdate).dirs, lookup_setDir, if_pos rfl, Option.map_some] at hlookup
    obtain ⟨dir', hdir', huncounted⟩ := Option.map_eq_some_iff.mp hlookup
    obtain ⟨-, hsize, hdirs, hfiles⟩ := Dir.of_uncounted huncounted
    have hafter' := hafter.tidyDir (hsound.reachable_move_dir hreachable hrelease hinsert) hdir'
    have hcount := (h.tidyDir hreachable hdir).count_eq hafter' hsize
    have herase := Map.length_keys_erase hentry
    rw [hdirs, hfiles] at hcount
    simp only at hcount
    omega

end

end

/-! ### Runs -/

/-- A rename that finds its source stays in one directory, and replaces no other file. -/
def StaysPut (d : Disk) : Op → Prop
  | .rename source target =>
      ∀ parent₁ name₁ parent₂ name₂, d.getNodeParent source = .ok (some parent₁, name₁) →
        d.getNodeParent target = .ok (some parent₂, name₂) →
        (d.fileAt parent₁ name₁).isSome ∨ (d.subdir parent₁ name₁).isSome →
        parent₁ = parent₂ ∧ (name₁ = name₂ ∨ d.fileAt parent₂ name₂ = none)
  | _ => True

theorem staysPut_rename {d : Disk} {source target name₁ name₂ : Bytes} {parent₁ parent₂ : Nat}
    (hsource : d.getNodeParent source = .ok (some parent₁, name₁))
    (htarget : d.getNodeParent target = .ok (some parent₂, name₂))
    (hfound : (d.fileAt parent₁ name₁).isSome ∨ (d.subdir parent₁ name₁).isSome) :
    d.StaysPut (.rename source target) ↔ parent₁ = parent₂ ∧ (name₁ = name₂ ∨ d.fileAt parent₂ name₂ = none) := by
  refine ⟨fun h => h parent₁ name₁ parent₂ name₂ hsource htarget hfound, ?_⟩
  rintro h parent₁' name₁' parent₂' name₂' hsource' htarget' -
  cases hsource.symm.trans hsource'
  cases htarget.symm.trans htarget'
  exact h

theorem tidy_new : new.Tidy := by
  intro id hid
  refine ⟨⟨none, 0, 2, ∅, ∅⟩, (lookup_new id).trans (if_pos (eq_root_of_reachable_new hid)),
    fun path hpath => Bool.noConfusion hpath, rfl, fun path child hchild => ?_, fun path node hnode => ?_⟩
  · cases hchild
  · cases hnode

/-- A call leaves a tidy disk tidy just when it stays put. -/
theorem Tidy.step {d d' : Disk} (h : d.Tidy) (hsound : d.Sound) {op : Op} (hstep : d.step op = .ok d') :
    d'.Tidy ↔ d.StaysPut op := by
  cases outcome_of_step hstep with
  | nothing hmissing =>
      refine iff_of_true h ?_
      cases op with
      | rename source target =>
          intro parent₁ name₁ parent₂ name₂ hsource htarget hfound
          obtain ⟨hfile, hchild⟩ := hmissing source target parent₁ name₁ parent₂ name₂ rfl hsource htarget
          rw [hfile, hchild] at hfound
          rcases hfound with hsome | hsome
          · cases hsome
          · cases hsome
      | _ => trivial
  | create hparent hdir hnew =>
      exact iff_of_true (h.create hsound (reachable_of_getNodeParent hparent) hdir hnew) trivial
  | mkdir hparent hdir hnew =>
      exact iff_of_true (h.mkdir hsound (reachable_of_getNodeParent hparent) hdir hnew) trivial
  | @write handle offset buf data file _ hfile hdata hupdate =>
      refine iff_of_true ((recounted_updateDiskUsed hupdate).tidy (h.setFiles fun id path node found _ hfound => ?_)) trivial
      exact exists_insert_parent hfile rfl hfound
  | @truncate path handle offset file _ hget hfile hupdate =>
      refine iff_of_true ((recounted_updateDiskUsed hupdate).tidy (h.setFiles fun id path node found _ hfound => ?_)) trivial
      exact exists_insert_parent hfile rfl hfound
  | unlink hparent hdir hentry =>
      exact iff_of_true (h.unlink hsound (reachable_of_getNodeParent hparent) hdir hentry) trivial
  | rmdir hparent hdir hentry =>
      have hreachable := reachable_of_getNodeParent hparent
      exact iff_of_true (h.pruned hsound hreachable (hsound.pruned hdir hentry hreachable)) trivial
  | renameFile hsource htarget hrelease hinsert =>
      obtain ⟨dir, hdir, hentry, -⟩ := releaseFileNode_some hrelease
      have hfound := Option.isSome_iff_exists.mpr ⟨_, (fileAt_eq hdir _).trans hentry⟩
      rw [staysPut_rename hsource htarget (Or.inl hfound)]
      exact h.move_file (reachable_of_getNodeParent hsource) hrelease hinsert
  | renameDir hsource htarget hrelease hinsert =>
      obtain ⟨dir, hdir, hentry, -⟩ := releaseDirNode_some hrelease
      have hfound := Option.isSome_iff_exists.mpr ⟨_, (subdir_eq hdir _).trans hentry⟩
      rw [staysPut_rename hsource htarget (Or.inr hfound)]
      exact h.move_dir hsound (reachable_of_getNodeParent hsource) hrelease hinsert

/-- **What all directories say of themselves is so in all states of a run just when the renames stay put.** -/
theorem run_tidy_iff_staysPut {ops : List Op} {d : Disk} (h : Run Returns new ops d) :
    (∀ taken state, taken <+: ops → Run Returns new taken state → state.Tidy) ↔
      Run (Restrict Returns StaysPut) new ops d := by
  have hfun : ∀ before op after other, Returns before op after → Returns before op other → after = other :=
    fun before op after other hafter hother => Except.ok.inj (hafter.symm.trans hother)
  have hstep : ∀ before op after, before.Sound → before.Tidy → Returns before op after →
      (after.Tidy ↔ before.StaysPut op) ∧ (after.Tidy → after.Sound) :=
    fun before op after hsound htidy hreturns => ⟨htidy.step hsound hreturns, fun _ => hsound.step hreturns⟩
  exact Run.forall_iff_restrict hfun hstep sound_new tidy_new h

/-- A file is made in a directory and renamed there. -/
theorem run_tidy_iff_staysPut_within :
    let ops : List Op := [.mkdir [47, 97] 0, .create [47, 97, 47, 98] 0, .rename [47, 97, 47, 98] [47, 97, 47, 99]]
    ∃ d, Run Returns new ops d ∧
      ((∀ taken state, taken <+: ops → Run Returns new taken state → state.Tidy) ↔
        Run (Restrict Returns StaysPut) new ops d) := by
  intro ops
  have hok : (ops.foldlM step new).isOk = true := by rfl
  cases hend : ops.foldlM step new with
  | error fault =>
      rw [hend] at hok
      cases hok
  | ok d =>
      have hrun := Run.of_foldlM step new ops hend
      exact ⟨d, hrun, run_tidy_iff_staysPut hrun⟩

/-- The root counts a file that was moved to a directory below it. -/
theorem moved_is_counted : ¬∀ ops d, Run Returns new ops d → d.Tidy := by
  intro h
  have hcounts : ([.mkdir [47, 97] 0, .create [47, 98] 0, .rename [47, 98] [47, 97, 47, 98]].foldlM step new).map
      (fun d => (d.dirs.lookup Ramdisk.root).map fun dir => (dir.size, dir.dirs.keys.length + dir.files.keys.length)) =
        .ok (some (4, 1)) := by rfl
  cases hend : [.mkdir [47, 97] 0, .create [47, 98] 0, .rename [47, 98] [47, 97, 47, 98]].foldlM step new with
  | error fault =>
      rw [hend] at hcounts
      cases hcounts
  | ok d =>
      rw [hend] at hcounts
      obtain ⟨dir, hdir, htidy⟩ := h _ d (Run.of_foldlM step new _ hend) Ramdisk.root .refl
      have hcount : (d.dirs.lookup Ramdisk.root).map
          (fun dir => (dir.size, dir.dirs.keys.length + dir.files.keys.length)) = some (4, 1) := Except.ok.inj hcounts
      rw [hdir, Option.map_some, Option.some.injEq, Prod.mk.injEq] at hcount
      have hsize := htidy.size
      omega

end Disk

end Thebends.Ramdisk
