import Thebends.RamdiskCounted
import Thebends.RamdiskPaths
import Thebends.RamdiskTidy

/-! `ramfs_rename`. It takes the node out of its directory before it asks whether the other directory can have it;
so it does its work where the new name is free, or is that of a file for a file, where a directory does not go
below itself, and where the pointers to the parents lead from both directories up to the root. -/

namespace Thebends.Ramdisk

open LibExcept LibMap LibRun LibWalk

namespace Disk

section

variable {d d' : Disk} {id node : Nat} {path : Bytes}

/-! ### What is taken out and put in -/

theorem fileAt_released (h : d.releaseFileNode id path = .ok (some node, d')) (other : Nat) (path' : Bytes) :
    d'.fileAt other path' = if other = id ∧ path' = path then none else d.fileAt other path' := by
  obtain ⟨dir, hdir, -, hupdate⟩ := releaseFileNode_some h
  rw [(recounted_updateDiskUsed hupdate).fileAt, fileAt_setDir]
  by_cases hother : other = id
  · subst hother
    rw [if_pos rfl, fileAt_eq hdir, Map.lookup_erase_eq]
    simp only [true_and]
  · rw [if_neg hother, if_neg fun hboth => hother hboth.1]

theorem subdir_released (h : d.releaseDirNode id path = .ok (some node, d')) (other : Nat) (path' : Bytes) :
    d'.subdir other path' = if other = id ∧ path' = path then none else d.subdir other path' := by
  obtain ⟨dir, hdir, -, hupdate⟩ := releaseDirNode_some h
  rw [(recounted_updateDiskUsed hupdate).subdir, subdir_setDir]
  by_cases hother : other = id
  · subst hother
    rw [if_pos rfl, subdir_eq hdir, Map.lookup_erase_eq]
    simp only [true_and]
  · rw [if_neg hother, if_neg fun hboth => hother hboth.1]

theorem fileAt_inserted (h : d.insertFileNode id path node = .ok d') (other : Nat) (path' : Bytes) :
    d'.fileAt other path' = if other = id ∧ path' = path then some node else d.fileAt other path' := by
  obtain ⟨dir, hdir⟩ : ∃ dir, d.dirs.lookup id = some dir := by
    obtain ⟨⟨exist, left⟩, hleft, -⟩ := bind_eq_ok h
    obtain ⟨dir, hdir, -⟩ := bind_eq_ok hleft
    exact ⟨dir, dir_ok hdir⟩
  by_cases hother : other = id
  · subst hother
    obtain ⟨-, ⟨-, hcounted⟩ | ⟨exist, -, hcounted⟩⟩ := insertFileNode_recounted h hdir
    · rw [hcounted.fileAt, fileAt_setDir, if_pos rfl, Map.lookup_insert_eq, fileAt_eq hdir]
      simp only [true_and]
    · rw [hcounted.fileAt, fileAt_setDir, if_pos rfl, Map.lookup_insert_eq, Map.lookup_erase_eq, fileAt_eq hdir]
      simp only [true_and]
      split <;> rfl
  · rw [if_neg fun hboth => hother hboth.1]
    exact fileAt_congr (insertFileNode_other h hother) path'

theorem subdir_inserted (h : d.insertDirNode id path node = .ok d') (other : Nat) (path' : Bytes) :
    d'.subdir other path' = if other = id ∧ path' = path then some node else d.subdir other path' := by
  obtain ⟨dir, hdir, -, hupdate⟩ := insertDirNode_ok h
  rw [(recounted_updateDiskUsed hupdate).subdir, subdir_setDir]
  by_cases hother : other = id
  · subst hother
    rw [if_pos rfl, subdir_eq hdir, Map.lookup_insert_eq]
    simp only [true_and]
  · rw [if_neg hother, if_neg fun hboth => hother hboth.1]

/-- Directories that are moved keep their files. -/
theorem fileAt_releaseDirNode (h : d.releaseDirNode id path = .ok (some node, d')) (other : Nat) (path' : Bytes) :
    d'.fileAt other path' = d.fileAt other path' := by
  obtain ⟨dir, hdir, -, hupdate⟩ := releaseDirNode_some h
  rw [(recounted_updateDiskUsed hupdate).fileAt, fileAt_setDir]
  split
  case isTrue heq => rw [heq, fileAt_eq hdir]
  case isFalse => rfl

theorem fileAt_insertDirNode (h : d.insertDirNode id path node = .ok d') (other : Nat) (path' : Bytes) :
    d'.fileAt other path' = d.fileAt other path' := by
  obtain ⟨dir, hdir, -, hupdate⟩ := insertDirNode_ok h
  rw [(recounted_updateDiskUsed hupdate).fileAt, fileAt_setDir]
  split
  case isTrue heq => rw [heq, fileAt_eq hdir]
  case isFalse => rfl

/-! ### Where this returns -/

theorem releaseFileNode_parents {exist : Option Nat} (h : d.releaseFileNode id path = .ok (exist, d')) :
    d'.parentOf = d.parentOf := by
  cases exist with
  | none => rw [(releaseFileNode_none h).1]
  | some exist =>
      obtain ⟨dir, hdir, -, hupdate⟩ := releaseFileNode_some h
      exact (recounted_updateDiskUsed hupdate).parentOf.trans (parentOf_setDir hdir _ rfl)

theorem releaseDirNode_parents (h : d.releaseDirNode id path = .ok (some node, d')) : d'.parentOf = d.parentOf := by
  obtain ⟨dir, hdir, -, hupdate⟩ := releaseDirNode_some h
  exact (recounted_updateDiskUsed hupdate).parentOf.trans (parentOf_setDir hdir _ rfl)

theorem exists_update_setDir (hordered : d.Ordered) (hattached : d.Attached id) {dir : Dir}
    (hdir : d.dirs.lookup id = some dir) (dir' : Dir) (hparent : dir'.parent = dir.parent) :
    ∃ d', (d.setDir id dir').updateDiskUsed id = .ok d' := by
  have hsame := parentOf_setDir hdir dir' hparent
  exact exists_updateDiskUsed (hordered.congr hsame) (hattached.congr hsame)

theorem exists_releaseFileNode (hordered : d.Ordered) (hattached : d.Attached id) (path : Bytes) :
    ∃ released, d.releaseFileNode id path = .ok (d.fileAt id path, released) := by
  obtain ⟨dir, hdir⟩ := hattached.lookup
  rw [releaseFileNode, dir_of_lookup hdir, ok_bind, fileAt_eq hdir]
  cases hentry : dir.files.lookup path with
  | none => exact ⟨d, rfl⟩
  | some file =>
      obtain ⟨released, hreleased⟩ :=
        exists_update_setDir hordered hattached hdir { dir with files := dir.files.erase path } rfl
      exact ⟨released, bind_ok hreleased rfl⟩

theorem exists_releaseDirNode (hordered : d.Ordered) (hattached : d.Attached id) {child : Nat}
    (hentry : d.subdir id path = some child) : ∃ released, d.releaseDirNode id path = .ok (some child, released) := by
  obtain ⟨dir, hdir⟩ := hattached.lookup
  rw [subdir_eq hdir] at hentry
  rw [releaseDirNode, dir_of_lookup hdir, ok_bind]
  simp only [hentry]
  obtain ⟨released, hreleased⟩ :=
    exists_update_setDir hordered hattached hdir { dir with dirs := dir.dirs.erase path } rfl
  exact ⟨released, bind_ok hreleased rfl⟩

theorem check_hasNode {dir : Dir} (hdir : d.dirs.lookup id = some dir) (hfile : d.fileAt id path = none)
    (hchild : d.subdir id path = none) : check (!dir.hasNode path) = .ok () := by
  rw [fileAt_eq hdir] at hfile
  rw [subdir_eq hdir] at hchild
  have hfree : dir.hasNode path = false := hasNode_eq_false.mpr ⟨hfile, hchild⟩
  rw [hfree]
  rfl

theorem exists_insertDirNode (hordered : d.Ordered) (hattached : d.Attached id) (hslash : slash ∉ path)
    (hfile : d.fileAt id path = none) (hchild : d.subdir id path = none) (node : Nat) :
    ∃ d', d.insertDirNode id path node = .ok d' := by
  obtain ⟨dir, hdir⟩ := hattached.lookup
  rw [insertDirNode, assertNoSubdirs_eq hslash, ok_bind, dir_of_lookup hdir, ok_bind, check_hasNode hdir hfile hchild,
    ok_bind]
  exact exists_update_setDir hordered hattached hdir { dir with dirs := dir.dirs.insert path node } rfl

theorem exists_insertFileNode (hordered : d.Ordered) (hattached : d.Attached id) (hslash : slash ∉ path)
    (hchild : d.subdir id path = none) (node : Nat) : ∃ d', d.insertFileNode id path node = .ok d' := by
  obtain ⟨left, hleft⟩ := exists_releaseFileNode hordered hattached path
  have hparents := releaseFileNode_parents hleft
  have hsubdir := subdir_releaseFileNode hleft id path
  have hfree : left.fileAt id path = none := by
    cases hfile : d.fileAt id path with
    | none =>
        rw [hfile] at hleft
        rw [(releaseFileNode_none hleft).1]
        exact hfile
    | some exist =>
        rw [hfile] at hleft
        rw [fileAt_released hleft, if_pos ⟨rfl, rfl⟩]
  have hdirs : ∀ exist, (left.deleteFile exist).dirs = left.dirs := by
    intro exist
    cases exist <;> rfl
  obtain ⟨dir, hdir⟩ := (hattached.congr hparents).lookup
  have hfreed : (left.deleteFile (d.fileAt id path)).dirs.lookup id = some dir := by
    rw [hdirs]
    exact hdir
  have hparents' : (left.deleteFile (d.fileAt id path)).parentOf = d.parentOf := by
    rw [← hparents]
    funext other
    rw [parentOf, parentOf, hdirs]
  rw [insertFileNode, hleft, ok_bind]
  simp only [assertNoSubdirs_eq hslash, ok_bind, dir_of_lookup hfreed, check_hasNode hdir hfree (hsubdir.trans hchild)]
  exact exists_update_setDir (hordered.congr hparents') (hattached.congr hparents') hfreed
    { dir with files := dir.files.insert path node } rfl

/-- And only there. -/
theorem attached_of_update_setDir {dir dir' : Dir} (hdir : d.dirs.lookup id = some dir)
    (hupdate : (d.setDir id dir').updateDiskUsed id = .ok d') (hparent : dir'.parent = dir.parent) : d.Attached id :=
  (attached_of_updateFrom hupdate).congr (parentOf_setDir hdir dir' hparent).symm

theorem attached_of_releaseFileNode (h : d.releaseFileNode id path = .ok (some node, d')) : d.Attached id := by
  obtain ⟨dir, hdir, -, hupdate⟩ := releaseFileNode_some h
  exact attached_of_update_setDir hdir hupdate rfl

theorem attached_of_releaseDirNode (h : d.releaseDirNode id path = .ok (some node, d')) : d.Attached id := by
  obtain ⟨dir, hdir, -, hupdate⟩ := releaseDirNode_some h
  exact attached_of_update_setDir hdir hupdate rfl

theorem attached_of_insertDirNode (h : d.insertDirNode id path node = .ok d') : d.Attached id := by
  obtain ⟨dir, hdir, -, hupdate⟩ := insertDirNode_ok h
  exact attached_of_update_setDir hdir hupdate rfl

theorem attached_of_insertFileNode (h : d.insertFileNode id path node = .ok d') : d.Attached id := by
  obtain ⟨exist, left, dir, hleft, hdir, -, hupdate⟩ := insertFileNode_ok h
  have hattached := attached_of_update_setDir hdir hupdate rfl
  refine hattached.congr ?_
  rw [← releaseFileNode_parents hleft]
  cases exist <;> rfl

end

/-! ### Two places in the tree -/

/-- Two paths with the directories to which all their parts but the last lead. -/
structure Places (d : Disk) (source target : Bytes) (above₁ above₂ : List Bytes) (name₁ name₂ : Bytes)
    (parent₁ parent₂ : Nat) : Prop where
  slash₁ : source.head? = some slash
  slash₂ : target.head? = some slash
  names₁ : names source = above₁ ++ [name₁]
  names₂ : names target = above₂ ++ [name₂]
  resolve₁ : d.resolve above₁ = some (.dir parent₁)
  resolve₂ : d.resolve above₂ = some (.dir parent₂)

/-- What the claim of a move is: the node is at the new path with all that is below it, it is no longer at the old
one, everything else is where it was, and no file that is left has changed. -/
structure MovedTo (d d' : Disk) (source target : Bytes) : Prop where
  found : ∃ node, d.resolve (components source) = some node
  moved : ∀ rest, d'.resolve (components target ++ rest) = d.resolve (components source ++ rest)
  gone : source ≠ target → d'.resolve (components source) = none
  others : ∀ names, ¬components source <+: names → ¬components target <+: names → d'.resolve names = d.resolve names
  files : ∀ node file, d'.files.lookup node = some file → d.files.lookup node = some file

theorem components_ne_nil {path : Bytes} (h : path ≠ [slash]) : components path = names path := if_neg h

theorem components_eq_nil {path : Bytes} (h : components path = []) : path = [slash] := by
  by_contra hne
  obtain ⟨above, last, hnames, -⟩ := exists_names path
  rw [components_ne_nil hne, hnames] at h
  exact List.concat_ne_nil last above h

section

variable {d d' : Disk} {source target name₁ name₂ : Bytes} {above₁ above₂ : List Bytes} {parent₁ parent₂ : Nat}
  {node : Node}

theorem Places.same_iff (h : Places d source target above₁ above₂ name₁ name₂ parent₁ parent₂) (hsound : d.Sound) :
    parent₁ = parent₂ ∧ name₁ = name₂ ↔ source = target := by
  constructor
  · rintro ⟨rfl, rfl⟩
    have habove := hsound.isTree.unique h.resolve₁ h.resolve₂
    exact names_injective h.slash₁ h.slash₂ (by rw [h.names₁, h.names₂, habove])
  · rintro rfl
    obtain ⟨rfl, hname⟩ := List.append_inj' (h.names₁.symm.trans h.names₂) rfl
    cases h.resolve₁.symm.trans h.resolve₂
    exact ⟨rfl, List.singleton_inj.mp hname⟩

/-- The entries that a move changes, where it is one. -/
abbrev MovedEntry (d d' : Disk) (parent₁ : Nat) (name₁ : Bytes) (parent₂ : Nat) (name₂ : Bytes) (node : Node) : Prop :=
  Moved d.entry d'.entry (.dir parent₁) name₁ (.dir parent₂) name₂ node

/-- Nothing that can be found is behind a name under which there is no directory. -/
theorem not_prefix_above (hresolve₁ : d.resolve above₁ = some (.dir parent₁))
    (hresolve₂ : d.resolve above₂ = some (.dir parent₂)) (hnodir : ∀ child, d.nodeAt parent₂ name₂ ≠ some (.dir child)) :
    ¬above₂ ++ [name₂] <+: above₁ := by
  rintro ⟨rest, rfl⟩
  obtain ⟨middle, hmiddle, hrest⟩ := exists_of_follow_append hresolve₁
  have hnode : d.nodeAt parent₂ name₂ = some middle := by
    rw [← hmiddle]
    exact ((resolve_concat d above₂ name₂).trans (by rw [hresolve₂]; rfl)).symm
  cases middle with
  | file file => exact follow_file file parent₁ rest hrest
  | dir child => exact hnodir child hnode

theorem Places.resolve_source (h : Places d source target above₁ above₂ name₁ name₂ parent₁ parent₂)
    (hmoved : MovedEntry d d' parent₁ name₁ parent₂ name₂ node) : d.resolve (above₁ ++ [name₁]) = some node := by
  rw [resolve_concat, h.resolve₁]
  exact hmoved.held

/-- Nothing has changed. -/
theorem Places.movedTo_same (h : Places d source target above₁ above₂ name₁ name₂ parent₁ parent₂) (hsound : d.Sound)
    (hmoved : MovedEntry d d' parent₁ name₁ parent₂ name₂ node) (hsame : source = target)
    (hfiles : ∀ node file, d'.files.lookup node = some file → d.files.lookup node = some file) :
    MovedTo d d' source target := by
  have hnode := h.resolve_source hmoved
  obtain ⟨rfl, rfl⟩ := (h.same_iff hsound).mpr hsame
  have hresolve : d'.resolve = d.resolve := by
    funext names
    rw [resolve, hmoved.entry_eq, resolve]
  rw [← hsame]
  refine ⟨?_, fun rest => by rw [hresolve], fun hne => absurd rfl hne, fun names _ _ => by rw [hresolve], hfiles⟩
  by_cases hroot : source = [slash]
  · rw [hroot]
    exact ⟨_, rfl⟩
  · rw [components_ne_nil hroot, h.names₁]
    exact ⟨node, hnode⟩

/-- What a move comes from, -/
theorem Places.of_movedTo (h : Places d source target above₁ above₂ name₁ name₂ parent₁ parent₂) (hsound : d.Sound)
    (hsound' : d'.Sound) (hmoved : MovedEntry d d' parent₁ name₁ parent₂ name₂ node) (hne : source ≠ target)
    (hto : MovedTo d d' source target) :
    source ≠ [slash] ∧ target ≠ [slash] ∧ ¬components source <+: components target := by
  have hroot := hto.moved []
  rw [List.append_nil, List.append_nil] at hroot
  have hsource : source ≠ [slash] := by
    rintro rfl
    have htarget := hsound'.isTree.unique hroot (show d'.resolve [] = some (.dir Ramdisk.root) from rfl)
    exact hne (components_eq_nil htarget).symm
  have htarget : target ≠ [slash] := by
    rintro rfl
    have hsource' := hsound.isTree.unique hroot.symm (show d.resolve [] = some (.dir Ramdisk.root) from rfl)
    exact hsource (components_eq_nil hsource')
  refine ⟨hsource, htarget, fun hbelow => ?_⟩
  rw [components_ne_nil hsource, components_ne_nil htarget, h.names₁, h.names₂] at hbelow hroot
  rcases List.prefix_concat_iff.mp hbelow with heq | hlost
  · exact hne (names_injective h.slash₁ h.slash₂ (by rw [h.names₁, h.names₂, heq]))
  · have hnone := hmoved.lost hsound.isTree h.resolve₁ h.resolve₂ hlost
    rw [resolve, hnone, h.resolve_source hmoved] at hroot
    cases hroot

/-- and what makes one. -/
theorem Places.movedTo (h : Places d source target above₁ above₂ name₁ name₂ parent₁ parent₂) (hsound : d.Sound)
    (hmoved : MovedEntry d d' parent₁ name₁ parent₂ name₂ node) (hne : source ≠ target)
    (hnodir : ∀ child, d.nodeAt parent₂ name₂ ≠ some (.dir child))
    (hfiles : ∀ node file, d'.files.lookup node = some file → d.files.lookup node = some file)
    (hsource : source ≠ [slash]) (htarget : target ≠ [slash]) (hbelow : ¬components source <+: components target) :
    MovedTo d d' source target := by
  have hsource' : components source = above₁ ++ [name₁] := (components_ne_nil hsource).trans h.names₁
  have htarget' : components target = above₂ ++ [name₂] := (components_ne_nil htarget).trans h.names₂
  have hplaces : ¬(Node.dir parent₁ = .dir parent₂ ∧ name₁ = name₂) := by
    rintro ⟨hdir, hname⟩
    cases hdir
    exact hne ((h.same_iff hsound).mp ⟨rfl, hname⟩)
  rw [hsource', htarget'] at hbelow
  have hnot : ¬above₁ ++ [name₁] <+: above₂ := fun hstart => hbelow (hstart.trans (List.prefix_append _ _))
  have habove := not_prefix_above h.resolve₁ h.resolve₂ hnodir
  refine ⟨?_, fun rest => ?_, fun _ => ?_, fun names hnot₁ hnot₂ => ?_, hfiles⟩
  · rw [hsource']
    exact ⟨node, h.resolve_source hmoved⟩
  · rw [hsource', htarget']
    exact hmoved.found hsound.isTree h.resolve₁ h.resolve₂ hnot rest
  · rw [hsource']
    exact hmoved.gone hsound.isTree h.resolve₁ h.resolve₂ hplaces habove
  · rw [hsource'] at hnot₁
    rw [htarget'] at hnot₂
    exact hmoved.elsewhere hsound.isTree h.resolve₁ h.resolve₂ hnot₁ hnot₂

/-- An entry that changes places makes a move, unless it goes below itself or one of the paths is that of the
root. -/
theorem Places.movedTo_iff (h : Places d source target above₁ above₂ name₁ name₂ parent₁ parent₂) (hsound : d.Sound)
    (hsound' : d'.Sound) (hmoved : MovedEntry d d' parent₁ name₁ parent₂ name₂ node)
    (hnodir : source ≠ target → ∀ child, d.nodeAt parent₂ name₂ ≠ some (.dir child))
    (hfiles : ∀ node file, d'.files.lookup node = some file → d.files.lookup node = some file) :
    MovedTo d d' source target ↔
      source = target ∨ source ≠ [slash] ∧ target ≠ [slash] ∧ ¬components source <+: components target := by
  by_cases hsame : source = target
  · exact iff_of_true (h.movedTo_same hsound hmoved hsame hfiles) (.inl hsame)
  · rw [or_iff_right hsame]
    constructor
    · exact h.of_movedTo hsound hsound' hmoved hsame
    · rintro ⟨hsource, htarget, hbelow⟩
      exact h.movedTo hsound hmoved hsame (hnodir hsame) hfiles hsource htarget hbelow

/-! ### The two cases -/

theorem nodeAt_congr {id : Nat} {path : Bytes} (hfile : d'.fileAt id path = d.fileAt id path)
    (hchild : d'.subdir id path = d.subdir id path) : d'.nodeAt id path = d.nodeAt id path := by
  rw [nodeAt, hfile, hchild, nodeAt]

/-- Another entry of another directory. -/
theorem ne_place {id id' : Nat} {name name' : Bytes} (h : ¬(Node.dir id = .dir id' ∧ name = name')) :
    ¬(id = id' ∧ name = name') := fun hboth => h ⟨congrArg Node.dir hboth.1, hboth.2⟩

theorem movedEntry_file {file : Nat} {released : Disk} (hapart : d.NamesApart)
    (hrelease : d.releaseFileNode parent₁ name₁ = .ok (some file, released))
    (hinsert : released.insertFileNode parent₂ name₂ file = .ok d') :
    MovedEntry d d' parent₁ name₁ parent₂ name₂ (.file file) := by
  have hfile : d.fileAt parent₁ name₁ = some file := by
    obtain ⟨dir, hdir, hentry, -⟩ := releaseFileNode_some hrelease
    exact (fileAt_eq hdir name₁).trans hentry
  have hsubdir : ∀ other path, d'.subdir other path = d.subdir other path := fun other path =>
    (subdir_insertFileNode hinsert other path).trans (subdir_releaseFileNode hrelease other path)
  refine ⟨nodeAt_of_fileAt hfile, nodeAt_of_fileAt ?_, fun hne => nodeAt_eq_none.mpr ⟨?_, ?_⟩,
    fun x name hnot₁ hnot₂ => ?_⟩
  · rw [fileAt_inserted hinsert, if_pos ⟨rfl, rfl⟩]
  · rw [fileAt_inserted hinsert, if_neg (ne_place hne), fileAt_released hrelease, if_pos ⟨rfl, rfl⟩]
  · rw [hsubdir]
    by_contra hsome
    obtain ⟨child, hchild⟩ := Option.ne_none_iff_exists'.mp hsome
    cases hfile.symm.trans (hapart.fileAt hchild)
  · cases x with
    | file other => rfl
    | dir other =>
        refine nodeAt_congr ?_ (hsubdir other name)
        rw [fileAt_inserted hinsert, if_neg (ne_place hnot₂), fileAt_released hrelease, if_neg (ne_place hnot₁)]

/-- What `InsertDirNode` has found free. -/
theorem free_of_insertDirNode {id node : Nat} {path : Bytes} (h : d.insertDirNode id path node = .ok d') :
    d.fileAt id path = none ∧ d.subdir id path = none := by
  obtain ⟨dir, hdir, hnew, -⟩ := insertDirNode_ok h
  rw [fileAt_eq hdir, subdir_eq hdir]
  exact hasNode_eq_false.mp hnew

theorem movedEntry_dir {child : Nat} {released : Disk} (hapart : d.NamesApart)
    (hrelease : d.releaseDirNode parent₁ name₁ = .ok (some child, released))
    (hinsert : released.insertDirNode parent₂ name₂ child = .ok d') :
    MovedEntry d d' parent₁ name₁ parent₂ name₂ (.dir child) := by
  have hchild : d.subdir parent₁ name₁ = some child := by
    obtain ⟨dir, hdir, hentry, -⟩ := releaseDirNode_some hrelease
    exact (subdir_eq hdir name₁).trans hentry
  have hfileAt : ∀ other path, d'.fileAt other path = d.fileAt other path := fun other path =>
    (fileAt_insertDirNode hinsert other path).trans (fileAt_releaseDirNode hrelease other path)
  obtain ⟨hfree, -⟩ := free_of_insertDirNode hinsert
  refine ⟨hapart.nodeAt hchild, ?_, fun hne => nodeAt_eq_none.mpr ⟨?_, ?_⟩, fun x name hnot₁ hnot₂ => ?_⟩
  · have hnone : d'.fileAt parent₂ name₂ = none := (fileAt_insertDirNode hinsert parent₂ name₂).trans hfree
    refine (nodeAt_of_none hnone).trans ?_
    rw [subdir_inserted hinsert, if_pos ⟨rfl, rfl⟩, Option.map_some]
  · rw [hfileAt]
    exact hapart.fileAt hchild
  · rw [subdir_inserted hinsert, if_neg (ne_place hne), subdir_released hrelease, if_pos ⟨rfl, rfl⟩]
  · cases x with
    | file other => rfl
    | dir other =>
        refine nodeAt_congr (hfileAt other name) ?_
        rw [subdir_inserted hinsert, if_neg (ne_place hnot₂), subdir_released hrelease, if_neg (ne_place hnot₁)]

/-- No file is changed; one may be freed. -/
theorem files_of_insertFileNode {id node : Nat} {path : Bytes} (h : d.insertFileNode id path node = .ok d') (other : Nat)
    (file : File) (hfile : d'.files.lookup other = some file) : d.files.lookup other = some file := by
  obtain ⟨exist, left, dir, hleft, -, -, hupdate⟩ := insertFileNode_ok h
  rw [(recounted_updateDiskUsed hupdate).files] at hfile
  exact lookup_of_deleted hleft hfile

/-! ### What is moved -/

theorem releaseFileNode_missing {id : Nat} {path : Bytes} {dir : Dir} (hdir : d.dirs.lookup id = some dir)
    (hnone : d.fileAt id path = none) : d.releaseFileNode id path = .ok (none, d) := by
  rw [fileAt_eq hdir] at hnone
  rw [releaseFileNode, dir_of_lookup hdir, ok_bind]
  simp only [hnone]
  rfl

theorem releaseDirNode_missing {id : Nat} {path : Bytes} {dir : Dir} (hdir : d.dirs.lookup id = some dir)
    (hnone : d.subdir id path = none) : d.releaseDirNode id path = .ok (none, d) := by
  rw [subdir_eq hdir] at hnone
  rw [releaseDirNode, dir_of_lookup hdir, ok_bind]
  simp only [hnone]
  rfl

theorem move_file_iff {file : Nat} {code : Int} (hfile : d.fileAt parent₁ name₁ = some file) :
    d.move parent₁ name₁ parent₂ name₂ = .ok (code, d') ↔ code = 0 ∧ ∃ released,
      d.releaseFileNode parent₁ name₁ = .ok (some file, released) ∧
        released.insertFileNode parent₂ name₂ file = .ok d' := by
  constructor
  · intro h
    obtain ⟨⟨taken, released⟩, hrelease, h⟩ := bind_eq_ok h
    cases taken with
    | none => cases hfile.symm.trans (releaseFileNode_none hrelease).2
    | some taken =>
        obtain ⟨dir, hdir, hentry, -⟩ := releaseFileNode_some hrelease
        cases hfile.symm.trans ((fileAt_eq hdir name₁).trans hentry)
        obtain ⟨inserted, hinsert, h⟩ := bind_eq_ok h
        cases h
        exact ⟨rfl, released, hrelease, hinsert⟩
  · rintro ⟨rfl, released, hrelease, hinsert⟩
    rw [move, hrelease, ok_bind]
    exact bind_ok hinsert rfl

theorem move_dir_iff {child : Nat} {code : Int} {dir : Dir} (hlive : d.dirs.lookup parent₁ = some dir)
    (hnofile : d.fileAt parent₁ name₁ = none) (hchild : d.subdir parent₁ name₁ = some child) :
    d.move parent₁ name₁ parent₂ name₂ = .ok (code, d') ↔ code = 0 ∧ ∃ released,
      d.releaseDirNode parent₁ name₁ = .ok (some child, released) ∧
        released.insertDirNode parent₂ name₂ child = .ok d' := by
  rw [move, releaseFileNode_missing hlive hnofile, ok_bind]
  constructor
  · intro h
    obtain ⟨⟨taken, released⟩, hrelease, h⟩ := bind_eq_ok h
    cases taken with
    | none => cases hchild.symm.trans (releaseDirNode_none hrelease).2
    | some taken =>
        obtain ⟨dir, hdir, hentry, -⟩ := releaseDirNode_some hrelease
        cases hchild.symm.trans ((subdir_eq hdir name₁).trans hentry)
        obtain ⟨inserted, hinsert, h⟩ := bind_eq_ok h
        cases h
        exact ⟨rfl, released, hrelease, hinsert⟩
  · rintro ⟨rfl, released, hrelease, hinsert⟩
    exact bind_ok hrelease (bind_ok hinsert rfl)

theorem move_missing {dir : Dir} (hlive : d.dirs.lookup parent₁ = some dir) (hnone : d.nodeAt parent₁ name₁ = none) :
    d.move parent₁ name₁ parent₂ name₂ = .ok (-enoent, d) := by
  obtain ⟨hnofile, hnodir⟩ := nodeAt_eq_none.mp hnone
  rw [move, releaseFileNode_missing hlive hnofile, ok_bind]
  exact bind_ok (releaseDirNode_missing hlive hnodir) rfl

/-- What the new name must be for a file or a directory. -/
def FitsAt (d : Disk) (source target : Bytes) (parent₂ : Nat) (name₂ : Bytes) : Node → Prop
  | .file _ => d.subdir parent₂ name₂ = none
  | .dir _ => d.nodeAt parent₂ name₂ = none ∧ ¬components source <+: components target

/-- Where there is something to move, the pointers to the parents lead from both directories to the root, and the
paths are the same or the new one can be given to the node. -/
def CanRename (d : Disk) (source target : Bytes) : Prop :=
  ∀ parent₁ name₁ parent₂ name₂ node, d.getNodeParent source = .ok (some parent₁, name₁) →
    d.getNodeParent target = .ok (some parent₂, name₂) → d.nodeAt parent₁ name₁ = some node →
    d.Attached parent₁ ∧ d.Attached parent₂ ∧
      (source = target ∨ source ≠ [slash] ∧ target ≠ [slash] ∧ d.FitsAt source target parent₂ name₂ node)

/-- A rename returns; it has moved the node when it says so, and changed nothing when it says that it has not. -/
def RenamesWell (d : Disk) (source target : Bytes) : Prop :=
  ∃ code d', d.ramfsRename source target = .ok (code, d') ∧ (code = 0 → MovedTo d d' source target) ∧
    (code ≠ 0 → d' = d)

theorem Places.getNodeParent₁ (h : Places d source target above₁ above₂ name₁ name₂ parent₁ parent₂) (hsound : d.Sound)
    (hapart : d.NamesApart) : d.getNodeParent source = .ok (some parent₁, name₁) := by
  rw [getNodeParent_eq hsound hapart h.slash₁ h.names₁, h.resolve₁]
  rfl

theorem Places.getNodeParent₂ (h : Places d source target above₁ above₂ name₁ name₂ parent₁ parent₂) (hsound : d.Sound)
    (hapart : d.NamesApart) : d.getNodeParent target = .ok (some parent₂, name₂) := by
  rw [getNodeParent_eq hsound hapart h.slash₂ h.names₂, h.resolve₂]
  rfl

theorem Places.ramfsRename_eq (h : Places d source target above₁ above₂ name₁ name₂ parent₁ parent₂) (hsound : d.Sound)
    (hapart : d.NamesApart) : d.ramfsRename source target = d.move parent₁ name₁ parent₂ name₂ := by
  rw [ramfsRename, h.getNodeParent₁ hsound hapart, ok_bind, h.getNodeParent₂ hsound hapart]
  rfl

theorem sound_of_ramfsRename (hsound : d.Sound) {code : Int} (h : d.ramfsRename source target = .ok (code, d')) :
    d'.Sound := by
  have hstep : d.step (.rename source target) = .ok d' := by
    rw [step, h]
    rfl
  exact hsound.step hstep

/-- One path is below another or is the same. -/
theorem Places.prefix_iff (h : Places d source target above₁ above₂ name₁ name₂ parent₁ parent₂)
    (hsource : source ≠ [slash]) (htarget : target ≠ [slash]) :
    components source <+: components target ↔ source = target ∨ above₁ ++ [name₁] <+: above₂ := by
  rw [components_ne_nil hsource, components_ne_nil htarget, h.names₁, h.names₂, List.prefix_concat_iff]
  refine or_congr_left ⟨fun heq => ?_, ?_⟩
  · exact names_injective h.slash₁ h.slash₂ (by rw [h.names₁, h.names₂, heq])
  · rintro rfl
    exact h.names₁.symm.trans h.names₂

/-- A file that was taken out and put in elsewhere. -/
theorem Places.movedTo_file_iff (h : Places d source target above₁ above₂ name₁ name₂ parent₁ parent₂) (hsound : d.Sound)
    (hapart : d.NamesApart) {file : Nat} {released : Disk} (hrename : d.ramfsRename source target = .ok (0, d'))
    (hrelease : d.releaseFileNode parent₁ name₁ = .ok (some file, released))
    (hinsert : released.insertFileNode parent₂ name₂ file = .ok d') (hnodir : d.subdir parent₂ name₂ = none) :
    MovedTo d d' source target ↔ source = target ∨ source ≠ [slash] ∧ target ≠ [slash] := by
  have hmoved := movedEntry_file hapart hrelease hinsert
  -- a file has nothing below it
  have hbelow : ¬above₁ ++ [name₁] <+: above₂ := by
    refine not_prefix_above h.resolve₂ h.resolve₁ fun child hchild => ?_
    cases hmoved.held.symm.trans hchild
  have hfiles : ∀ node found, d'.files.lookup node = some found → d.files.lookup node = some found := by
    intro node found hfound
    have hold := files_of_insertFileNode hinsert node found hfound
    obtain ⟨dir, -, -, hupdate⟩ := releaseFileNode_some hrelease
    rw [(recounted_updateDiskUsed hupdate).files] at hold
    exact hold
  rw [h.movedTo_iff hsound (sound_of_ramfsRename hsound hrename) hmoved (fun _ child hchild => by
    cases hnodir.symm.trans (subdir_of_nodeAt hchild).2) hfiles]
  refine or_congr_right' fun hne => and_congr_right fun hsource => and_iff_left_of_imp fun htarget => ?_
  rw [h.prefix_iff hsource htarget]
  exact not_or.mpr ⟨hne, hbelow⟩

theorem Places.renames_file_iff (h : Places d source target above₁ above₂ name₁ name₂ parent₁ parent₂) (hsound : d.Sound)
    (hapart : d.NamesApart) (hslash : slash ∉ name₂) {file : Nat} (hfile : d.fileAt parent₁ name₁ = some file) :
    d.RenamesWell source target ↔ d.Attached parent₁ ∧ d.Attached parent₂ ∧
      (source = target ∨ source ≠ [slash] ∧ target ≠ [slash] ∧ d.FitsAt source target parent₂ name₂ (.file file)) := by
  have hmove : ∀ code d', d.ramfsRename source target = .ok (code, d') ↔ code = 0 ∧ ∃ released,
      d.releaseFileNode parent₁ name₁ = .ok (some file, released) ∧
        released.insertFileNode parent₂ name₂ file = .ok d' := fun code d' => by
    rw [h.ramfsRename_eq hsound hapart, move_file_iff hfile]
  have hnode : d.nodeAt parent₁ name₁ = some (.file file) := nodeAt_of_fileAt hfile
  constructor
  · rintro ⟨code, d', hrename, hmoved, -⟩
    obtain ⟨rfl, released, hrelease, hinsert⟩ := (hmove code d').mp hrename
    have hnodir : d.subdir parent₂ name₂ = none := by
      obtain ⟨dir, hdir⟩ := (attached_of_insertFileNode hinsert).lookup
      have hfree := (insertFileNode_recounted hinsert hdir).1
      rw [← subdir_releaseFileNode hrelease, subdir_eq hdir]
      exact hfree
    refine ⟨attached_of_releaseFileNode hrelease, ?_, ?_⟩
    · exact (attached_of_insertFileNode hinsert).congr (releaseFileNode_parents hrelease).symm
    · rcases (h.movedTo_file_iff hsound hapart hrename hrelease hinsert hnodir).mp (hmoved rfl) with
        hsame | ⟨hsource, htarget⟩
      · exact Or.inl hsame
      · exact Or.inr ⟨hsource, htarget, hnodir⟩
  · rintro ⟨hattached₁, hattached₂, hcond⟩
    have hnodir : d.subdir parent₂ name₂ = none := by
      rcases hcond with hsame | ⟨-, -, hnodir⟩
      · obtain ⟨rfl, rfl⟩ := (h.same_iff hsound).mpr hsame
        rw [← hapart.asDir_nodeAt, hnode]
        rfl
      · exact hnodir
    obtain ⟨released, hrelease⟩ := exists_releaseFileNode hsound.ordered hattached₁ name₁
    rw [hfile] at hrelease
    have hparents := releaseFileNode_parents hrelease
    have hfree : released.subdir parent₂ name₂ = none := (subdir_releaseFileNode hrelease _ _).trans hnodir
    obtain ⟨d', hinsert⟩ := exists_insertFileNode (hsound.ordered.congr hparents) (hattached₂.congr hparents) hslash
      hfree file
    have hrename := (hmove 0 d').mpr ⟨rfl, released, hrelease, hinsert⟩
    refine ⟨0, d', hrename, fun _ => ?_, fun hne => absurd rfl hne⟩
    exact (h.movedTo_file_iff hsound hapart hrename hrelease hinsert hnodir).mpr
      (hcond.imp_right fun hall => ⟨hall.1, hall.2.1⟩)

/-- Where the new name is free once the directory was taken out. -/
theorem Places.free_iff (h : Places d source target above₁ above₂ name₁ name₂ parent₁ parent₂) (hsound : d.Sound)
    {child : Nat} {released : Disk} (hnofile : d.fileAt parent₁ name₁ = none)
    (hrelease : d.releaseDirNode parent₁ name₁ = .ok (some child, released)) :
    released.fileAt parent₂ name₂ = none ∧ released.subdir parent₂ name₂ = none ↔
      source = target ∨ d.nodeAt parent₂ name₂ = none := by
  rw [fileAt_releaseDirNode hrelease, subdir_released hrelease, nodeAt_eq_none]
  by_cases hsame : source = target
  · obtain ⟨rfl, rfl⟩ := (h.same_iff hsound).mpr hsame
    rw [if_pos ⟨rfl, rfl⟩]
    exact iff_of_true ⟨hnofile, rfl⟩ (Or.inl hsame)
  · have hother : ¬(parent₂ = parent₁ ∧ name₂ = name₁) := fun hboth =>
      hsame ((h.same_iff hsound).mp ⟨hboth.1.symm, hboth.2.symm⟩)
    rw [if_neg hother, or_iff_right hsame]

/-- A directory that was taken out and put in elsewhere. -/
theorem Places.movedTo_dir_iff (h : Places d source target above₁ above₂ name₁ name₂ parent₁ parent₂) (hsound : d.Sound)
    (hapart : d.NamesApart) {child : Nat} {released : Disk} (hrename : d.ramfsRename source target = .ok (0, d'))
    (hrelease : d.releaseDirNode parent₁ name₁ = .ok (some child, released))
    (hinsert : released.insertDirNode parent₂ name₂ child = .ok d')
    (hfree : source = target ∨ d.nodeAt parent₂ name₂ = none) : MovedTo d d' source target ↔
      source = target ∨ source ≠ [slash] ∧ target ≠ [slash] ∧ ¬components source <+: components target := by
  have hfiles : d'.files = d.files := by
    obtain ⟨dir₁, -, -, hupdate₁⟩ := releaseDirNode_some hrelease
    obtain ⟨dir₂, -, -, hupdate₂⟩ := insertDirNode_ok hinsert
    exact (recounted_updateDiskUsed hupdate₂).files.trans (recounted_updateDiskUsed hupdate₁).files
  refine h.movedTo_iff hsound (sound_of_ramfsRename hsound hrename) (movedEntry_dir hapart hrelease hinsert)
    (fun hne other hother => ?_) fun node file hfile => hfiles ▸ hfile
  cases (hfree.resolve_left hne).symm.trans hother

theorem Places.renames_dir_iff (h : Places d source target above₁ above₂ name₁ name₂ parent₁ parent₂) (hsound : d.Sound)
    (hapart : d.NamesApart) (hslash : slash ∉ name₂) {child : Nat} (hchild : d.subdir parent₁ name₁ = some child) :
    d.RenamesWell source target ↔ d.Attached parent₁ ∧ d.Attached parent₂ ∧
      (source = target ∨ source ≠ [slash] ∧ target ≠ [slash] ∧ d.FitsAt source target parent₂ name₂ (.dir child)) := by
  have hnofile : d.fileAt parent₁ name₁ = none := hapart.fileAt hchild
  obtain ⟨dir, hlive⟩ := Option.isSome_iff_exists.mp (hsound.live_of_resolve h.resolve₁)
  have hmove : ∀ code d', d.ramfsRename source target = .ok (code, d') ↔ code = 0 ∧ ∃ released,
      d.releaseDirNode parent₁ name₁ = .ok (some child, released) ∧
        released.insertDirNode parent₂ name₂ child = .ok d' := fun code d' => by
    rw [h.ramfsRename_eq hsound hapart, move_dir_iff hlive hnofile hchild]
  constructor
  · rintro ⟨code, d', hrename, hmoved, -⟩
    obtain ⟨rfl, released, hrelease, hinsert⟩ := (hmove code d').mp hrename
    have hfree := (h.free_iff hsound hnofile hrelease).mp (free_of_insertDirNode hinsert)
    refine ⟨attached_of_releaseDirNode hrelease, ?_, ?_⟩
    · exact (attached_of_insertDirNode hinsert).congr (releaseDirNode_parents hrelease).symm
    · rcases (h.movedTo_dir_iff hsound hapart hrename hrelease hinsert hfree).mp (hmoved rfl) with
        hsame | ⟨hsource, htarget, hbelow⟩
      · exact Or.inl hsame
      · rcases hfree with hsame | hnone
        · exact Or.inl hsame
        · exact Or.inr ⟨hsource, htarget, hnone, hbelow⟩
  · rintro ⟨hattached₁, hattached₂, hcond⟩
    obtain ⟨released, hrelease⟩ := exists_releaseDirNode hsound.ordered hattached₁ hchild
    have hparents := releaseDirNode_parents hrelease
    have hfree := hcond.imp_right fun hall => hall.2.2.1
    obtain ⟨hfile, hnodir⟩ := (h.free_iff hsound hnofile hrelease).mpr hfree
    obtain ⟨d', hinsert⟩ := exists_insertDirNode (hsound.ordered.congr hparents) (hattached₂.congr hparents) hslash
      hfile hnodir child
    have hrename := (hmove 0 d').mpr ⟨rfl, released, hrelease, hinsert⟩
    refine ⟨0, d', hrename, fun _ => ?_, fun hne => absurd rfl hne⟩
    exact (h.movedTo_dir_iff hsound hapart hrename hrelease hinsert hfree).mpr
      (hcond.imp_right fun hall => ⟨hall.1, hall.2.1, hall.2.2.2⟩)

/-- Where both directories are found. -/
theorem Places.renames_iff (h : Places d source target above₁ above₂ name₁ name₂ parent₁ parent₂) (hsound : d.Sound)
    (hapart : d.NamesApart) (hslash : slash ∉ name₂) : d.RenamesWell source target ↔ d.CanRename source target := by
  have hparent₁ := h.getNodeParent₁ hsound hapart
  have hparent₂ := h.getNodeParent₂ hsound hapart
  have hcan : ∀ node, d.nodeAt parent₁ name₁ = some node → (d.CanRename source target ↔
      d.Attached parent₁ ∧ d.Attached parent₂ ∧
        (source = target ∨ source ≠ [slash] ∧ target ≠ [slash] ∧ d.FitsAt source target parent₂ name₂ node)) := by
    intro node hnode
    constructor
    · exact fun hall => hall parent₁ name₁ parent₂ name₂ node hparent₁ hparent₂ hnode
    · intro hcond parent₁' name₁' parent₂' name₂' node' hparent₁' hparent₂' hnode'
      cases hparent₁.symm.trans hparent₁'
      cases hparent₂.symm.trans hparent₂'
      cases hnode.symm.trans hnode'
      exact hcond
  cases hnode : d.nodeAt parent₁ name₁ with
  | none =>
      obtain ⟨dir, hlive⟩ := Option.isSome_iff_exists.mp (hsound.live_of_resolve h.resolve₁)
      refine iff_of_true ⟨-enoent, d, ?_, fun hcode => ?_, fun _ => rfl⟩ ?_
      · rw [h.ramfsRename_eq hsound hapart]
        exact move_missing hlive hnode
      · cases hcode
      · intro parent₁' name₁' parent₂' name₂' node' hparent₁' _ hnode'
        cases hparent₁.symm.trans hparent₁'
        cases hnode.symm.trans hnode'
  | some node =>
      rw [hcan node hnode]
      cases node with
      | file file => exact h.renames_file_iff hsound hapart hslash (fileAt_of_nodeAt hnode)
      | dir child => exact h.renames_dir_iff hsound hapart hslash (subdir_of_nodeAt hnode).2

end

/-- **A rename does what it should just when it can.** -/
theorem renamesWell_iff {ops : List Op} {d : Disk} (hrun : Run Returns new ops d) {source target : Bytes}
    (hsource : source.head? = some slash) (htarget : target.head? = some slash) :
    d.RenamesWell source target ↔ d.CanRename source target := by
  have hsound := sound_of_run hrun
  have hapart := namesApart_of_run hrun
  obtain ⟨above₁, name₁, hnames₁, -⟩ := exists_names source
  obtain ⟨above₂, name₂, hnames₂, hslash⟩ := exists_names target
  have hparent₁ := getNodeParent_eq hsound hapart hsource hnames₁
  have hparent₂ := getNodeParent_eq hsound hapart htarget hnames₂
  cases hfound₁ : Node.asDir (d.resolve above₁) with
  | none =>
      rw [hfound₁] at hparent₁
      refine iff_of_true ⟨-enoent, d, ?_, fun hcode => ?_, fun _ => rfl⟩ ?_
      · rw [ramfsRename, hparent₁, ok_bind, hparent₂]
        rfl
      · cases hcode
      · intro parent₁ name₁' parent₂ name₂' node hparent₁' _ _
        cases hparent₁.symm.trans hparent₁'
  | some parent₁ =>
      cases hfound₂ : Node.asDir (d.resolve above₂) with
      | none =>
          rw [hfound₁] at hparent₁
          rw [hfound₂] at hparent₂
          refine iff_of_true ⟨-enoent, d, ?_, fun hcode => ?_, fun _ => rfl⟩ ?_
          · rw [ramfsRename, hparent₁, ok_bind, hparent₂]
            rfl
          · cases hcode
          · intro parent₁' name₁' parent₂ name₂' node _ hparent₂' _
            cases hparent₂.symm.trans hparent₂'
      | some parent₂ =>
          have hplaces : Places d source target above₁ above₂ name₁ name₂ parent₁ parent₂ :=
            ⟨hsource, htarget, hnames₁, hnames₂, Node.asDir_eq_some.mp hfound₁, Node.asDir_eq_some.mp hfound₂⟩
          exact hplaces.renames_iff hsound hapart hslash

/-- A directory is moved from one directory to another. -/
theorem renamesWell_iff_directory : ∃ d,
    Run Returns new [.mkdir [47, 97] 0, .mkdir [47, 98] 0, .mkdir [47, 97, 47, 99] 0] d ∧
    d.RenamesWell [47, 97, 47, 99] [47, 98, 47, 100] := by
  have hstate : ([.mkdir [47, 97] 0, .mkdir [47, 98] 0, .mkdir [47, 97, 47, 99] 0].foldlM step new).map (fun d =>
      ((d.parentOf 0, d.parentOf 1, d.parentOf 2), d.getNodeParent [47, 97, 47, 99], d.getNodeParent [47, 98, 47, 100],
        d.nodeAt 1 [99], d.nodeAt 2 [100])) =
      .ok ((some none, some (some 0), some (some 0)), .ok (some 1, [99]), .ok (some 2, [100]), some (.dir 3),
        none) := by rfl
  cases hend : [.mkdir [47, 97] 0, .mkdir [47, 98] 0, .mkdir [47, 97, 47, 99] 0].foldlM step new with
  | error fault =>
      rw [hend] at hstate
      cases hstate
  | ok d =>
      rw [hend] at hstate
      obtain ⟨hparents, hrest⟩ := Prod.mk.inj (Except.ok.inj hstate)
      obtain ⟨hroot, habove⟩ := Prod.mk.inj hparents
      obtain ⟨hfirst, hsecond⟩ := Prod.mk.inj habove
      obtain ⟨hsource, hrest⟩ := Prod.mk.inj hrest
      obtain ⟨htarget, hrest⟩ := Prod.mk.inj hrest
      obtain ⟨hnode, hfree⟩ := Prod.mk.inj hrest
      have hrun := Run.of_foldlM step new _ hend
      refine ⟨d, hrun, (renamesWell_iff hrun rfl rfl).mpr ?_⟩
      intro parent₁ name₁ parent₂ name₂ node hparent₁ hparent₂ hmoved
      cases hsource.symm.trans hparent₁
      cases htarget.symm.trans hparent₂
      cases hnode.symm.trans hmoved
      refine ⟨.inside hfirst (.top hroot), .inside hsecond (.top hroot), Or.inr ⟨by decide, by decide, hfree, ?_⟩⟩
      decide

/-- A directory is renamed to one that is there: an assertion fails when it is already taken out. -/
theorem rename_onto_directory_fails : ¬∀ ops d source target, Run Returns new ops d → source.head? = some slash →
    target.head? = some slash → d.RenamesWell source target := by
  intro h
  have hfails : ([.mkdir [47, 97] 0, .mkdir [47, 98] 0].foldlM step new).bind
      (fun d => (d.ramfsRename [47, 97] [47, 98]).map Prod.fst) = .error .assertion := rfl
  cases hend : [.mkdir [47, 97] 0, .mkdir [47, 98] 0].foldlM step new with
  | error fault =>
      have hok : ([.mkdir [47, 97] 0, .mkdir [47, 98] 0].foldlM step new).isOk = true := rfl
      rw [hend] at hok
      cases hok
  | ok d =>
      obtain ⟨code, d', hrename, -⟩ := h _ d [47, 97] [47, 98] (Run.of_foldlM step new _ hend) rfl rfl
      rw [hend, Except.bind, hrename] at hfails
      cases hfails

end Disk

end Thebends.Ramdisk
