import Thebends.LibRun
import Thebends.RamdiskHeap

/-! What a call of the file system can do, and that it keeps the objects sound. -/

namespace Thebends.Ramdisk

open LibExcept LibMap Relation

namespace Disk

/-- The path leads to the directory that is found. -/
theorem reflTransGen_of_walk {d : Disk} {id parent : Nat} {parts : List Bytes} {rest : Bytes}
    (h : d.walk id parts = .ok (some parent, rest)) : ReflTransGen d.Holds id parent := by
  induction id, parts using walk.induct with
  | case1 id =>
      cases h
      exact .refl
  | case2 id rest' =>
      cases h
      exact .refl
  | case3 id name next more ih =>
      rw [walk] at h
      obtain ⟨-, -, h⟩ := bind_eq_ok h
      obtain ⟨dir, hdir, h⟩ := bind_eq_ok h
      split at h
      · cases h
      case h_2 child hchild => exact .head ⟨name, (subdir_eq (dir_ok hdir) name).trans hchild⟩ (ih child h)

theorem reachable_of_getNodeParent {d : Disk} {path : Bytes} {parent : Nat} {rest : Bytes}
    (h : d.getNodeParent path = .ok (some parent, rest)) : d.Reachable parent := by
  obtain ⟨-, -, h⟩ := bind_eq_ok h
  exact reflTransGen_of_walk h

/-- All that a call can do. -/
inductive Outcome (d : Disk) : Op → Disk → Prop
  | nothing {op : Op}
      (hmissing : ∀ source target parent₁ name₁ parent₂ name₂, op = .rename source target →
        d.getNodeParent source = .ok (some parent₁, name₁) → d.getNodeParent target = .ok (some parent₂, name₂) →
          d.fileAt parent₁ name₁ = none ∧ d.subdir parent₁ name₁ = none) : Outcome d op d
  | create {path name : Bytes} {mode : UInt32} {id : Nat} {dir : Dir}
      (hparent : d.getNodeParent path = .ok (some id, name)) (hdir : d.dirs.lookup id = some dir)
      (hnew : dir.hasNode name = false) :
      Outcome d (.create path mode)
        (setDir { d with files := d.files.insert d.next ⟨id, [], 0⟩, next := d.next + 1 } id
          { dir with files := dir.files.insert name d.next, size := dir.size + 1 })
  | mkdir {path name : Bytes} {mode : UInt32} {id : Nat} {dir : Dir}
      (hparent : d.getNodeParent path = .ok (some id, name)) (hdir : d.dirs.lookup id = some dir)
      (hnew : dir.hasNode name = false) :
      Outcome d (.mkdir path mode)
        ((d.makeDir id).setDir id { dir with dirs := dir.dirs.insert name d.next, size := dir.size + 1 })
  | write {handle offset : Nat} {buf data : Bytes} {file : File} {d' : Disk} (hfile : d.files.lookup handle = some file)
      (hdata : data = file.data.take offset ++ buf ++ file.data.drop (offset + buf.length))
      (hupdate : updateDiskUsed { d with
        files := d.files.insert handle { file with data := data, size := data.length } } file.parent = .ok d') :
      Outcome d (.write handle buf offset) d'
  | truncate {path : Bytes} {id offset : Nat} {file : File} {d' : Disk} (hget : d.getFile path = .ok (some id))
      (hfile : d.files.lookup id = some file)
      (hupdate : updateDiskUsed { d with files := d.files.insert id { file with size := offset } } file.parent = .ok d') :
      Outcome d (.truncate path offset) d'
  | unlink {path name : Bytes} {id file : Nat} {dir : Dir} (hparent : d.getNodeParent path = .ok (some id, name))
      (hdir : d.dirs.lookup id = some dir) (hentry : dir.files.lookup name = some file) :
      Outcome d (.unlink path)
        (setDir { d with files := d.files.erase file } id
          { dir with files := dir.files.erase name, size := dir.size - 1 })
  | rmdir {path name : Bytes} {id child : Nat} {dir : Dir} (hparent : d.getNodeParent path = .ok (some id, name))
      (hdir : d.dirs.lookup id = some dir) (hentry : dir.dirs.lookup name = some child) :
      Outcome d (.rmdir path)
        ((d.delete child).setDir id { dir with dirs := dir.dirs.erase name, size := dir.size - 1 })
  | renameFile {source target name₁ name₂ : Bytes} {parent₁ parent₂ file : Nat} {released d' : Disk}
      (hsource : d.getNodeParent source = .ok (some parent₁, name₁))
      (htarget : d.getNodeParent target = .ok (some parent₂, name₂))
      (hrelease : d.releaseFileNode parent₁ name₁ = .ok (some file, released))
      (hinsert : released.insertFileNode parent₂ name₂ file = .ok d') : Outcome d (.rename source target) d'
  | renameDir {source target name₁ name₂ : Bytes} {parent₁ parent₂ child : Nat} {released d' : Disk}
      (hsource : d.getNodeParent source = .ok (some parent₁, name₁))
      (htarget : d.getNodeParent target = .ok (some parent₂, name₂))
      (hrelease : d.releaseDirNode parent₁ name₁ = .ok (some child, released))
      (hinsert : released.insertDirNode parent₂ name₂ child = .ok d') : Outcome d (.rename source target) d'

theorem outcome_create {d d' : Disk} {path : Bytes} {mode : UInt32} (h : d.step (.create path mode) = .ok d') :
    Outcome d (.create path mode) d' := by
  obtain ⟨⟨code, handle, last⟩, hcreate, rfl⟩ := map_eq_ok h
  obtain ⟨⟨parent, name⟩, hparent, hcreate⟩ := bind_eq_ok hcreate
  cases parent with
  | none =>
      cases hcreate
      exact .nothing fun _ _ _ _ _ _ hop => Op.noConfusion hop
  | some id =>
      obtain ⟨⟨file, made⟩, hmade, hcreate⟩ := bind_eq_ok hcreate
      cases hcreate
      obtain ⟨-, -, hmade⟩ := bind_eq_ok hmade
      obtain ⟨dir, hdir, hmade⟩ := bind_eq_ok hmade
      simp only at hmade
      split at hmade
      · cases hmade
        exact .nothing fun _ _ _ _ _ _ hop => Op.noConfusion hop
      case isFalse hnew =>
        obtain ⟨-, -, hmade⟩ := bind_eq_ok hmade
        cases hmade
        exact .create hparent (dir_ok hdir) (Bool.eq_false_iff.mpr hnew)

theorem outcome_mkdir {d d' : Disk} {path : Bytes} {mode : UInt32} (h : d.step (.mkdir path mode) = .ok d') :
    Outcome d (.mkdir path mode) d' := by
  obtain ⟨⟨code, last⟩, hmkdir, rfl⟩ := map_eq_ok h
  obtain ⟨⟨parent, name⟩, hparent, hmkdir⟩ := bind_eq_ok hmkdir
  cases parent with
  | none =>
      cases hmkdir
      exact .nothing fun _ _ _ _ _ _ hop => Op.noConfusion hop
  | some id =>
      obtain ⟨⟨child, made⟩, hmade, hmkdir⟩ := bind_eq_ok hmkdir
      cases hmkdir
      obtain ⟨-, -, hmade⟩ := bind_eq_ok hmade
      obtain ⟨dir, hdir, hmade⟩ := bind_eq_ok hmade
      simp only at hmade
      split at hmade
      · cases hmade
        exact .nothing fun _ _ _ _ _ _ hop => Op.noConfusion hop
      case isFalse hnew =>
        obtain ⟨-, -, hmade⟩ := bind_eq_ok hmade
        cases hmade
        exact .mkdir hparent (dir_ok hdir) (Bool.eq_false_iff.mpr hnew)

theorem outcome_write {d d' : Disk} {handle offset : Nat} {buf : Bytes}
    (h : d.step (.write handle buf offset) = .ok d') : Outcome d (.write handle buf offset) d' := by
  obtain ⟨⟨size, last⟩, hwrite, rfl⟩ := map_eq_ok h
  obtain ⟨file, hfile, hwrite⟩ := bind_eq_ok hwrite
  simp only at hwrite
  split at hwrite
  · cases hwrite
  · obtain ⟨updated, hupdate, hwrite⟩ := bind_eq_ok hwrite
    cases hwrite
    exact .write (file_ok hfile) rfl hupdate

theorem outcome_truncate {d d' : Disk} {path : Bytes} {offset : Nat} (h : d.step (.truncate path offset) = .ok d') :
    Outcome d (.truncate path offset) d' := by
  obtain ⟨⟨code, last⟩, htruncate, rfl⟩ := map_eq_ok h
  obtain ⟨found, hget, htruncate⟩ := bind_eq_ok htruncate
  cases found with
  | none =>
      cases htruncate
      exact .nothing fun _ _ _ _ _ _ hop => Op.noConfusion hop
  | some id =>
      obtain ⟨truncated, hupdate, htruncate⟩ := bind_eq_ok htruncate
      cases htruncate
      obtain ⟨file, hfile, hupdate⟩ := bind_eq_ok hupdate
      exact .truncate hget (file_ok hfile) hupdate

theorem outcome_unlink {d d' : Disk} {path : Bytes} (h : d.step (.unlink path) = .ok d') :
    Outcome d (.unlink path) d' := by
  obtain ⟨⟨code, last⟩, hunlink, rfl⟩ := map_eq_ok h
  obtain ⟨⟨parent, name⟩, hparent, hunlink⟩ := bind_eq_ok hunlink
  cases parent with
  | none => cases hunlink
  | some id =>
      obtain ⟨⟨done, left⟩, hdone, hunlink⟩ := bind_eq_ok hunlink
      cases hunlink
      obtain ⟨-, -, hdone⟩ := bind_eq_ok hdone
      obtain ⟨dir, hdir, hdone⟩ := bind_eq_ok hdone
      simp only at hdone
      split at hdone
      · cases hdone
        exact .nothing fun _ _ _ _ _ _ hop => Op.noConfusion hop
      case h_2 file hentry =>
        cases hdone
        exact .unlink hparent (dir_ok hdir) hentry

theorem outcome_rmdir {d d' : Disk} {path : Bytes} (h : d.step (.rmdir path) = .ok d') :
    Outcome d (.rmdir path) d' := by
  obtain ⟨⟨code, last⟩, hrmdir, rfl⟩ := map_eq_ok h
  obtain ⟨⟨parent, name⟩, hparent, hrmdir⟩ := bind_eq_ok hrmdir
  cases parent with
  | none =>
      cases hrmdir
      exact .nothing fun _ _ _ _ _ _ hop => Op.noConfusion hop
  | some id =>
      obtain ⟨⟨done, left⟩, hdone, hrmdir⟩ := bind_eq_ok hrmdir
      cases hrmdir
      obtain ⟨-, -, hdone⟩ := bind_eq_ok hdone
      obtain ⟨dir, hdir, hdone⟩ := bind_eq_ok hdone
      split at hdone
      · cases hdone
        exact .nothing fun _ _ _ _ _ _ hop => Op.noConfusion hop
      case h_2 child hentry =>
        cases hdone
        exact .rmdir hparent (dir_ok hdir) hentry

/-- What is not there is not released. -/
theorem releaseFileNode_none {d d' : Disk} {id : Nat} {path : Bytes} (h : d.releaseFileNode id path = .ok (none, d')) :
    d' = d ∧ d.fileAt id path = none := by
  obtain ⟨dir, hdir, h⟩ := bind_eq_ok h
  split at h
  case h_1 hnone =>
    cases h
    exact ⟨rfl, (fileAt_eq (dir_ok hdir) path).trans hnone⟩
  case h_2 =>
    obtain ⟨updated, -, h⟩ := bind_eq_ok h
    cases h

theorem releaseDirNode_none {d d' : Disk} {id : Nat} {path : Bytes} (h : d.releaseDirNode id path = .ok (none, d')) :
    d' = d ∧ d.subdir id path = none := by
  obtain ⟨dir, hdir, h⟩ := bind_eq_ok h
  split at h
  case h_1 hnone =>
    cases h
    exact ⟨rfl, (subdir_eq (dir_ok hdir) path).trans hnone⟩
  case h_2 =>
    obtain ⟨updated, -, h⟩ := bind_eq_ok h
    cases h

theorem outcome_rename {d d' : Disk} {source target : Bytes} (h : d.step (.rename source target) = .ok d') :
    Outcome d (.rename source target) d' := by
  obtain ⟨⟨code, last⟩, hrename, rfl⟩ := map_eq_ok h
  obtain ⟨⟨parent₁, name₁⟩, hsource, hrename⟩ := bind_eq_ok hrename
  obtain ⟨⟨parent₂, name₂⟩, htarget, hrename⟩ := bind_eq_ok hrename
  simp only at hrename
  split at hrename
  case h_2 hnot =>
    cases hrename
    refine .nothing fun source' target' parent₁' name₁' parent₂' name₂' hop hsource' htarget' => ?_
    cases hop
    cases hsource.symm.trans hsource'
    cases htarget.symm.trans htarget'
    exact (hnot parent₁' parent₂' rfl rfl).elim
  case h_1 parent₁ parent₂ =>
    obtain ⟨⟨file, released⟩, hrelease, hrename⟩ := bind_eq_ok hrename
    cases file with
    | some file =>
        obtain ⟨inserted, hinsert, hrename⟩ := bind_eq_ok hrename
        cases hrename
        exact .renameFile hsource htarget hrelease hinsert
    | none =>
        obtain ⟨hsame, hfile⟩ := releaseFileNode_none hrelease
        rw [hsame] at hrename
        obtain ⟨⟨child, released'⟩, hrelease', hrename⟩ := bind_eq_ok hrename
        cases child with
        | some child =>
            obtain ⟨inserted, hinsert, hrename⟩ := bind_eq_ok hrename
            cases hrename
            exact .renameDir hsource htarget hrelease' hinsert
        | none =>
            obtain ⟨hsame', hchild⟩ := releaseDirNode_none hrelease'
            cases hrename
            rw [hsame']
            refine .nothing fun source' target' parent₁' name₁' parent₂' name₂' hop hsource' htarget' => ?_
            cases hop
            cases hsource.symm.trans hsource'
            exact ⟨hfile, hchild⟩

theorem outcome_of_step {d d' : Disk} {op : Op} (h : d.step op = .ok d') : Outcome d op d' := by
  cases op with
  | create path mode => exact outcome_create h
  | mkdir path mode => exact outcome_mkdir h
  | write handle buf offset => exact outcome_write h
  | truncate path offset => exact outcome_truncate h
  | unlink path => exact outcome_unlink h
  | rmdir path => exact outcome_rmdir h
  | rename source target => exact outcome_rename h

/-! ### Entries that are taken out and put in -/

section

variable {d d' : Disk} {id : Nat} {dir : Dir} {path : Bytes} {node : Nat}

theorem releaseFileNode_some (h : d.releaseFileNode id path = .ok (some node, d')) :
    ∃ dir, d.dirs.lookup id = some dir ∧ dir.files.lookup path = some node ∧
      (d.setDir id { dir with files := dir.files.erase path }).updateDiskUsed id = .ok d' := by
  obtain ⟨dir, hdir, h⟩ := bind_eq_ok h
  split at h
  · cases h
  case h_2 file hfile =>
    obtain ⟨updated, hupdate, h⟩ := bind_eq_ok h
    cases h
    exact ⟨dir, dir_ok hdir, hfile, hupdate⟩

theorem releaseDirNode_some (h : d.releaseDirNode id path = .ok (some node, d')) :
    ∃ dir, d.dirs.lookup id = some dir ∧ dir.dirs.lookup path = some node ∧
      (d.setDir id { dir with dirs := dir.dirs.erase path }).updateDiskUsed id = .ok d' := by
  obtain ⟨dir, hdir, h⟩ := bind_eq_ok h
  split at h
  · cases h
  case h_2 child hchild =>
    obtain ⟨updated, hupdate, h⟩ := bind_eq_ok h
    cases h
    exact ⟨dir, dir_ok hdir, hchild, hupdate⟩

theorem insertDirNode_ok (h : d.insertDirNode id path node = .ok d') :
    ∃ dir, d.dirs.lookup id = some dir ∧ dir.hasNode path = false ∧
      (d.setDir id { dir with dirs := dir.dirs.insert path node }).updateDiskUsed id = .ok d' := by
  obtain ⟨-, -, h⟩ := bind_eq_ok h
  obtain ⟨dir, hdir, h⟩ := bind_eq_ok h
  obtain ⟨_, hnew, h⟩ := bind_eq_ok h
  refine ⟨dir, dir_ok hdir, ?_, h⟩
  cases hhas : dir.hasNode path with
  | false => rfl
  | true =>
      rw [hhas] at hnew
      cases hnew

/-- A file that has the name is replaced. -/
theorem insertFileNode_ok (h : d.insertFileNode id path node = .ok d') :
    ∃ exist released dir, d.releaseFileNode id path = .ok (exist, released) ∧
      (released.deleteFile exist).dirs.lookup id = some dir ∧ dir.hasNode path = false ∧
      ((released.deleteFile exist).setDir id { dir with files := dir.files.insert path node }).updateDiskUsed id =
        .ok d' := by
  obtain ⟨⟨exist, released⟩, hrelease, h⟩ := bind_eq_ok h
  obtain ⟨-, -, h⟩ := bind_eq_ok h
  obtain ⟨dir, hdir, h⟩ := bind_eq_ok h
  obtain ⟨_, hnew, h⟩ := bind_eq_ok h
  refine ⟨exist, released, dir, hrelease, dir_ok hdir, ?_, h⟩
  cases hhas : dir.hasNode path with
  | false => rfl
  | true =>
      rw [hhas] at hnew
      cases hnew

theorem hasNode_eq_false : dir.hasNode path = false ↔ dir.files.lookup path = none ∧ dir.dirs.lookup path = none := by
  simp only [Dir.hasNode, Bool.or_eq_false_iff, Option.isSome_eq_false_iff, Option.isNone_iff_eq_none]

/-- What is put in, up to the cached totals. -/
theorem insertDirNode_recounted (h : d.insertDirNode id path node = .ok d') (hdir : d.dirs.lookup id = some dir) :
    dir.files.lookup path = none ∧ dir.dirs.lookup path = none ∧
      Recounted (d.setDir id { dir with dirs := dir.dirs.insert path node }) d' := by
  obtain ⟨found, hfound, hnew, hupdate⟩ := insertDirNode_ok h
  cases hdir.symm.trans hfound
  exact ⟨(hasNode_eq_false.mp hnew).1, (hasNode_eq_false.mp hnew).2, recounted_updateDiskUsed hupdate⟩

theorem insertFileNode_recounted (h : d.insertFileNode id path node = .ok d') (hdir : d.dirs.lookup id = some dir) :
    dir.dirs.lookup path = none ∧
      (dir.files.lookup path = none ∧ Recounted (d.setDir id { dir with files := dir.files.insert path node }) d' ∨
        ∃ exist, dir.files.lookup path = some exist ∧
          Recounted (setDir { d with files := d.files.erase exist } id
            { dir with files := (dir.files.erase path).insert path node }) d') := by
  obtain ⟨exist, released, found, hrelease, hfound, hnew, hupdate⟩ := insertFileNode_ok h
  obtain ⟨hfile, hchild⟩ := hasNode_eq_false.mp hnew
  cases exist with
  | none =>
      rw [(releaseFileNode_none hrelease).1] at hfound hupdate
      cases hdir.symm.trans hfound
      exact ⟨hchild, Or.inl ⟨hfile, recounted_updateDiskUsed hupdate⟩⟩
  | some exist =>
      obtain ⟨dir₀, hdir₀, hentry, hreleased⟩ := releaseFileNode_some hrelease
      cases hdir.symm.trans hdir₀
      have hcounted := recounted_updateDiskUsed hreleased
      have hself : (d.setDir id { dir with files := dir.files.erase path }).dirs.lookup id =
          some { dir with files := dir.files.erase path } := by
        rw [lookup_setDir, if_pos rfl]
      obtain ⟨dir₁, hdir₁, hsame⟩ := hcounted.lookup hself
      cases hdir₁.symm.trans hfound
      obtain ⟨hparent, hsize, hdirs, hfiles⟩ := Dir.of_uncounted hsame
      refine ⟨hdirs ▸ hchild, Or.inr ⟨exist, hentry, ?_⟩⟩
      refine Recounted.trans ((hcounted.freeFile exist).overwrite ?_) (recounted_updateDiskUsed hupdate)
      simp only [Dir.uncounted, hparent, hsize, hdirs, hfiles]

/-- An entry is taken out, and nothing else leads to its file. -/
theorem Sound.takeFile (h : d.Sound) (hdir : d.dirs.lookup id = some dir) (hentry : dir.files.lookup path = some node)
    (dir' : Dir) (hparent : dir'.parent = dir.parent) (hdirs : dir'.dirs = dir.dirs)
    (hfiles : dir'.files = dir.files.erase path) : (d.setDir id dir').Sound ∧ LooseFile (d.setDir id dir') node := by
  have hheld : d.fileAt id path = some node := (fileAt_eq hdir path).trans hentry
  refine ⟨h.setDir hdir hparent (fun path' child hchild => Or.inl (hdirs ▸ hchild)) fun path' file hfile => Or.inl ?_,
    h.liveFile id path node hheld, fun other path' hother => ?_⟩
  · rw [hfiles] at hfile
    exact (Map.of_lookup_erase hfile).2
  · rw [fileAt_setDir] at hother
    split at hother
    · rw [hfiles] at hother
      obtain ⟨hpath, hold⟩ := Map.of_lookup_erase hother
      exact hpath (h.onceFile id path' id path node ((fileAt_eq hdir path').trans hold) hheld).2
    case isFalse hne => exact hne (h.onceFile other path' id path node hother hheld).1

theorem Sound.takeDir (h : d.Sound) (hdir : d.dirs.lookup id = some dir) (hentry : dir.dirs.lookup path = some node)
    (dir' : Dir) (hparent : dir'.parent = dir.parent) (hdirs : dir'.dirs = dir.dirs.erase path)
    (hfiles : dir'.files = dir.files) : (d.setDir id dir').Sound ∧ Loose (d.setDir id dir') node := by
  have hheld : d.subdir id path = some node := (subdir_eq hdir path).trans hentry
  refine ⟨h.setDir hdir hparent (fun path' child hchild => Or.inl ?_) fun path' file hfile => Or.inl (hfiles ▸ hfile),
    fun heq => h.free id path (heq ▸ hheld), ?_, fun other path' hother => ?_⟩
  · rw [hdirs] at hchild
    exact (Map.of_lookup_erase hchild).2
  · rw [lookup_setDir]
    split
    · rfl
    · exact h.live id path node hheld
  · rw [subdir_setDir] at hother
    split at hother
    · rw [hdirs] at hother
      obtain ⟨hpath, hold⟩ := Map.of_lookup_erase hother
      exact hpath (h.once id path' id path node ((subdir_eq hdir path').trans hold) hheld).2
    case isFalse hne => exact hne (h.once other path' id path node hother hheld).1

/-- What is loose is put in under a new name. -/
theorem Sound.putFile (h : d.Sound) (hdir : d.dirs.lookup id = some dir) (hloose : d.LooseFile node) {dir' : Dir}
    (hparent : dir'.parent = dir.parent) (hdirs : dir'.dirs = dir.dirs)
    (hfiles : dir'.files = dir.files.insert path node) : (d.setDir id dir').Sound := by
  refine h.setDir hdir hparent (fun path' child hchild => Or.inl (hdirs ▸ hchild)) fun path' file hfile => ?_
  rw [hfiles] at hfile
  rcases Map.of_lookup_insert hfile with ⟨heq, rfl⟩ | hold
  · refine Or.inr ⟨hloose, fun path'' hother => ?_⟩
    rw [hfiles] at hother
    rcases Map.of_lookup_insert hother with ⟨heq', -⟩ | hold
    · exact heq'.trans heq.symm
    · exact absurd ((fileAt_eq hdir path'').trans hold) (hloose.2 id path'')
  · exact Or.inl hold

theorem Sound.putDir (h : d.Sound) (hdir : d.dirs.lookup id = some dir) (hloose : d.Loose node) {dir' : Dir}
    (hparent : dir'.parent = dir.parent) (hdirs : dir'.dirs = dir.dirs.insert path node)
    (hfiles : dir'.files = dir.files) : (d.setDir id dir').Sound := by
  refine h.setDir hdir hparent (fun path' child hchild => ?_) fun path' file hfile => Or.inl (hfiles ▸ hfile)
  rw [hdirs] at hchild
  rcases Map.of_lookup_insert hchild with ⟨heq, rfl⟩ | hold
  · refine Or.inr ⟨hloose, fun path'' hother => ?_⟩
    rw [hdirs] at hother
    rcases Map.of_lookup_insert hother with ⟨heq', -⟩ | hold
    · exact heq'.trans heq.symm
    · exact absurd ((subdir_eq hdir path'').trans hold) (hloose.2.2 id path'')
  · exact Or.inl hold

theorem Recounted.looseFile (h : Recounted d d') (hloose : d.LooseFile node) : d'.LooseFile node := by
  refine ⟨?_, fun id path => ?_⟩
  · rw [h.files]
    exact hloose.1
  · rw [h.fileAt]
    exact hloose.2 id path

theorem Recounted.loose (h : Recounted d d') (hloose : d.Loose node) : d'.Loose node := by
  refine ⟨hloose.1, ?_, fun id path => ?_⟩
  · rw [h.isSome]
    exact hloose.2.1
  · rw [h.subdir]
    exact hloose.2.2 id path

theorem Sound.released_file (h : d.Sound) (hrelease : d.releaseFileNode id path = .ok (some node, d')) :
    d'.Sound ∧ d'.LooseFile node := by
  obtain ⟨dir, hdir, hentry, hupdate⟩ := releaseFileNode_some hrelease
  obtain ⟨hsound, hloose⟩ := h.takeFile hdir hentry { dir with files := dir.files.erase path } rfl rfl rfl
  have hrecounted := recounted_updateDiskUsed hupdate
  exact ⟨hrecounted.sound hsound, hrecounted.looseFile hloose⟩

theorem Sound.released_dir (h : d.Sound) (hrelease : d.releaseDirNode id path = .ok (some node, d')) :
    d'.Sound ∧ d'.Loose node := by
  obtain ⟨dir, hdir, hentry, hupdate⟩ := releaseDirNode_some hrelease
  obtain ⟨hsound, hloose⟩ := h.takeDir hdir hentry { dir with dirs := dir.dirs.erase path } rfl rfl rfl
  have hrecounted := recounted_updateDiskUsed hupdate
  exact ⟨hrecounted.sound hsound, hrecounted.loose hloose⟩

/-- What `InsertFileNode` replaces is freed, and not the file that is put in. -/
theorem Sound.replaced (h : d.Sound) (hloose : d.LooseFile node) {exist : Option Nat} {released : Disk}
    (hrelease : d.releaseFileNode id path = .ok (exist, released)) :
    (released.deleteFile exist).Sound ∧ (released.deleteFile exist).LooseFile node := by
  cases exist with
  | none =>
      rw [(releaseFileNode_none hrelease).1]
      exact ⟨h, hloose⟩
  | some file =>
      obtain ⟨hsound, hfile⟩ := h.released_file hrelease
      obtain ⟨dir, hdir, hentry, hupdate⟩ := releaseFileNode_some hrelease
      have hne : node ≠ file := by
        rintro rfl
        exact hloose.2 id path ((fileAt_eq hdir path).trans hentry)
      have hrecounted := recounted_updateDiskUsed hupdate
      refine ⟨hsound.freeFile hfile.2, ?_, fun other path' hother => ?_⟩
      · rw [deleteFile, Map.lookup_erase_eq, if_neg hne, hrecounted.files]
        exact hloose.1
      · have hbefore : released.fileAt other path' = some node := hother
        rw [hrecounted.fileAt, fileAt_setDir] at hbefore
        split at hbefore
        case isTrue heq =>
          exact hloose.2 id path' ((fileAt_eq hdir path').trans (Map.of_lookup_erase hbefore).2)
        case isFalse => exact hloose.2 other path' hbefore

end

/-- **The objects stay sound.** No call enters a directory or a file twice, or leaves an entry of what it
frees. -/
theorem Sound.step {d d' : Disk} (h : d.Sound) {op : Op} (hstep : d.step op = .ok d') : d'.Sound := by
  cases outcome_of_step hstep with
  | nothing => exact h
  | @create path name mode id dir hparent hdir hnew =>
      obtain ⟨hsound, hloose⟩ := h.makeFile ⟨id, [], 0⟩
      exact hsound.putFile hdir hloose rfl rfl rfl
  | @mkdir path name mode id dir hparent hdir hnew =>
      have hlive : (d.dirs.lookup id).isSome := Option.isSome_iff_exists.mpr ⟨dir, hdir⟩
      obtain ⟨hsound, hloose⟩ := h.makeDir hlive
      have hdir' : (d.makeDir id).dirs.lookup id = some dir := by
        rw [lookup_makeDir, if_neg (h.dirs_lt id hlive).ne, hdir]
      exact hsound.putDir hdir' hloose rfl rfl rfl
  | write hfile _ hupdate => exact (recounted_updateDiskUsed hupdate).sound (h.changeFile hfile _)
  | truncate _ hfile hupdate => exact (recounted_updateDiskUsed hupdate).sound (h.changeFile hfile _)
  | @unlink path name id file dir hparent hdir hentry =>
      obtain ⟨hsound, hloose⟩ := h.takeFile hdir hentry
        { dir with files := dir.files.erase name, size := dir.size - 1 } rfl rfl rfl
      exact hsound.freeFile hloose.2
  | rmdir hparent hdir hentry => exact (h.pruned hdir hentry (reachable_of_getNodeParent hparent)).sound h
  | renameFile hsource htarget hrelease hinsert =>
      obtain ⟨hsound, hloose⟩ := h.released_file hrelease
      obtain ⟨exist, released', dir, hrelease', hdir, -, hupdate⟩ := insertFileNode_ok hinsert
      obtain ⟨hsound', hloose'⟩ := hsound.replaced hloose hrelease'
      exact (recounted_updateDiskUsed hupdate).sound (hsound'.putFile hdir hloose' rfl rfl rfl)
  | renameDir hsource htarget hrelease hinsert =>
      obtain ⟨hsound, hloose⟩ := h.released_dir hrelease
      obtain ⟨dir, hdir, -, hupdate⟩ := insertDirNode_ok hinsert
      exact (recounted_updateDiskUsed hupdate).sound (hsound.putDir hdir hloose rfl rfl rfl)

/-! ### The start -/

/-- A call that returns. -/
def Returns (d : Disk) (op : Op) (d' : Disk) : Prop := d.step op = .ok d'

theorem lookup_new (id : Nat) :
    new.dirs.lookup id = if id = Ramdisk.root then some ⟨none, 0, 2, ∅, ∅⟩ else none := Map.lookup_insert_eq ..

theorem subdir_new (id : Nat) (path : Bytes) : new.subdir id path = none := by
  rw [subdir, lookup_new]
  split <;> rfl

theorem fileAt_new (id : Nat) (path : Bytes) : new.fileAt id path = none := by
  rw [fileAt, lookup_new]
  split <;> rfl

theorem sound_new : new.Sound := by
  refine ⟨fun id hid => ?_, fun id hid => Bool.noConfusion hid, ⟨_, (lookup_new _).trans (if_pos rfl), rfl⟩,
    fun id dir parent hdir hparent => ?_, fun id path child hchild => ?_, fun id path file hfile => ?_,
    fun id path id' path' child hchild => ?_, fun id path id' path' file hfile => ?_, fun id path hroot => ?_⟩
  · rw [lookup_new] at hid
    split at hid
    case isTrue heq => exact heq ▸ Nat.zero_lt_one
    case isFalse => cases hid
  · rw [lookup_new] at hdir
    split at hdir
    · cases hdir
      cases hparent
    · cases hdir
  · cases (subdir_new id path).symm.trans hchild
  · cases (fileAt_new id path).symm.trans hfile
  · cases (subdir_new id path).symm.trans hchild
  · cases (fileAt_new id path).symm.trans hfile
  · cases (subdir_new id path).symm.trans hroot

/-- Only the root is there at first. -/
theorem eq_root_of_reachable_new {id : Nat} (h : new.Reachable id) : id = Ramdisk.root := by
  induction h with
  | refl => rfl
  | tail _ hholds _ =>
      obtain ⟨path, hpath⟩ := hholds
      cases (subdir_new _ path).symm.trans hpath

theorem sound_of_run {ops : List Op} {d : Disk} (h : LibRun.Run Returns new ops d) : d.Sound :=
  h.invariant (fun _ state => state.Sound) sound_new fun _ _ _ _ _ hbefore hstep => hbefore.step hstep

end Disk

end Thebends.Ramdisk
