import Mathlib.Data.Set.Finite.Lattice
import Mathlib.Order.Interval.Finset.Nat
import Thebends.LibRun
import Thebends.RamdiskStep

/-! What the cached totals say. A directory that is brought up to date takes the totals of its directories as
they are, and then turns to its parent; so every total is right afterwards if all others were, and if the
pointers to the parents lead up the path on which the directories are. -/

namespace Thebends.Ramdisk

open LibExcept LibMap LibRun Relation

namespace Disk

/-- What all files below a directory count: those in it, and those below its directories. -/
inductive Total (d : Disk) (count : File → Nat) : Nat → Nat → Prop
  | dir {id : Nat} {dir : Dir} (below : Nat → Nat) (hdir : d.dirs.lookup id = some dir)
      (hbelow : ∀ path child, dir.dirs.lookup path = some child → Total d count child (below child)) :
      Total d count id (dir.dirs.total below + dir.files.total fun node => ((d.files.lookup node).map count).getD 0)

/-- The cached total of every directory that can be reached is the size of the files below it, and the bytes
that they store. -/
def Accounted (d : Disk) : Prop :=
  ∀ id, d.Reachable id → ∃ dir, d.dirs.lookup id = some dir ∧ Total d File.size id dir.diskUsed ∧
    Total d (fun file => file.data.length) id dir.diskUsed

/-- The cached totals of some directories agree with those of their directories, but for one. -/
def BalancedBut (d : Disk) (R : Nat → Prop) (hole : Nat) : Prop :=
  ∀ id dir, R id → id ≠ hole → d.dirs.lookup id = some dir → dir.diskUsed = d.usage dir

def Balanced (d : Disk) (R : Nat → Prop) : Prop :=
  ∀ id dir, R id → d.dirs.lookup id = some dir → dir.diskUsed = d.usage dir

section

variable {d d' : Disk} {R : Nat → Prop} {id : Nat} {dir : Dir}

/-- What counts in a directory. -/
theorem usage_congr (hdirs : ∀ path child, dir.dirs.lookup path = some child → d'.usedBy child = d.usedBy child)
    (hfiles : ∀ path node, dir.files.lookup path = some node → d'.sizeOf node = d.sizeOf node) :
    d'.usage dir = d.usage dir := by
  rw [usage, usage, Map.total_congr hdirs, Map.total_congr hfiles]

theorem usedBy_setDir (d : Disk) (id : Nat) (dir : Dir) (other : Nat) :
    (d.setDir id dir).usedBy other = if other = id then dir.diskUsed else d.usedBy other := by
  rw [usedBy, lookup_setDir]
  split <;> rfl

theorem reachable_isSome (hsound : d.Sound) (h : d.Reachable id) : (d.dirs.lookup id).isSome := by
  cases h with
  | refl =>
      obtain ⟨dir, hdir, -⟩ := hsound.root
      exact Option.isSome_iff_exists.mpr ⟨dir, hdir⟩
  | tail _ hholds =>
      obtain ⟨path, hpath⟩ := hholds
      exact hsound.live _ path _ hpath

/-- Totals that agree from directory to directory count the files. -/
theorem Balanced.total (h : d.Balanced d.Reachable) (hsound : d.Sound) (hreachable : d.Reachable id) :
    ∃ dir, d.dirs.lookup id = some dir ∧ Total d File.size id dir.diskUsed := by
  have hfinite : {id | ReflTransGen d.Holds root id}.Finite :=
    (Set.finite_lt_nat d.next).subset fun other hother => hsound.dirs_lt other (reachable_isSome hsound hother)
  refine LibForest.induction_below (P := fun id => ∃ dir, d.dirs.lookup id = some dir ∧ Total d File.size id dir.diskUsed)
    hsound.holder_unique hsound.not_holds_root hfinite (fun x hx ih => ?_) hreachable
  obtain ⟨dir, hdir⟩ := Option.isSome_iff_exists.mp (reachable_isSome hsound hx)
  refine ⟨dir, hdir, ?_⟩
  rw [h x dir hx hdir]
  refine .dir d.usedBy hdir fun path child hchild => ?_
  obtain ⟨sub, hsub, htotal⟩ := ih child ⟨path, (subdir_eq hdir path).trans hchild⟩
  rw [usedBy, hsub]
  exact htotal

theorem Total.congr {count count' : File → Nat} (hcount : ∀ node file, d.files.lookup node = some file → count file = count' file)
    {n : Nat} (h : Total d count id n) : Total d count' id n := by
  induction h with
  | @dir id dir below hdir hbelow ih =>
      have hfiles : dir.files.total (fun node => ((d.files.lookup node).map count).getD 0) =
          dir.files.total fun node => ((d.files.lookup node).map count').getD 0 := by
        refine Map.total_congr fun path node _ => ?_
        cases hfile : d.files.lookup node with
        | none => rfl
        | some file => exact hcount node file hfile
      rw [hfiles]
      exact .dir below hdir ih

/-! ### Bringing totals up to date -/

/-- Directories that have only each other, and none that has itself or is in two places. -/
structure Closed (d : Disk) (R : Nat → Prop) : Prop where
  holds : ∀ holder child, R holder → d.Holds holder child → R child
  self : ∀ id, R id → ¬d.Holds id id
  unique : ∀ holder holder' child, d.Holds holder child → d.Holds holder' child → holder = holder'

theorem Closed.mono (h : d.Closed R) (hholds : ∀ holder child, d'.Holds holder child → d.Holds holder child) :
    d'.Closed R :=
  ⟨fun holder child hholder hheld => h.holds holder child hholder (hholds holder child hheld),
    fun id hid hheld => h.self id hid (hholds id id hheld),
    fun holder holder' child hheld hheld' => h.unique holder holder' child (hholds _ _ hheld) (hholds _ _ hheld')⟩

theorem Sound.closed (h : d.Sound) : d.Closed d.Reachable :=
  ⟨fun _ _ hholder hholds => hholder.tail hholds, fun _ hid hholds => h.acyclic hid (TransGen.single hholds),
    h.holder_unique⟩

/-- The pointers to the parents lead from a directory up past another, then past the one that has this, and so
on, as far as the directories in `R` have it. -/
inductive Passes (d : Disk) (R : Nat → Prop) : Nat → Nat → Prop
  | skip {id next parent : Nat} {dir : Dir} (hdir : d.dirs.lookup id = some dir) (hparent : dir.parent = some parent)
      (hne : id ≠ next) (hpasses : Passes d R parent next) : Passes d R id next
  | last {id : Nat} (htop : ∀ holder, R holder → ¬d.Holds holder id) : Passes d R id id
  | up {id holder parent : Nat} {dir : Dir} (hdir : d.dirs.lookup id = some dir) (hparent : dir.parent = some parent)
      (hholder : R holder) (hholds : d.Holds holder id) (hpasses : Passes d R parent holder) : Passes d R id id

/-- Fewer directories have fewer others; it matters only for what is passed. -/
theorem Passes.mono {R' P : Nat → Prop} {next : Nat} (h : Passes d R id next) (hclosed : d.Closed R)
    (hle : ∀ other, R' other → R other)
    (hholds : ∀ holder child, R' holder → P child → d'.Holds holder child → d.Holds holder child)
    (hparents : ∀ other dir, d.dirs.lookup other = some dir →
      ∃ dir', d'.dirs.lookup other = some dir' ∧ dir'.parent = dir.parent)
    (hup : ∀ holder child, d.Holds holder child → P child → P holder) (hnext : P next) : Passes d' R' id next := by
  induction h with
  | @skip id next parent dir hdir hparent hne hpasses ih =>
      obtain ⟨dir', hdir', hsame⟩ := hparents id dir hdir
      exact .skip hdir' (hsame.trans hparent) hne (ih hnext)
  | last htop => exact .last fun holder hholder hheld => htop holder (hle holder hholder) (hholds holder _ hholder hnext hheld)
  | @up id holder parent dir hdir hparent hholder hheld hpasses ih =>
      by_cases hstill : R' holder ∧ d'.Holds holder id
      · obtain ⟨dir', hdir', hsame⟩ := hparents id dir hdir
        exact .up hdir' (hsame.trans hparent) hstill.1 hstill.2 (ih (hup holder id hheld hnext))
      · refine .last fun other hother hheld' => hstill ?_
        rw [hclosed.unique holder other id hheld (hholds other id hother hnext hheld')]
        exact ⟨hother, hheld'⟩

/-- The directories are where they were. -/
structure SameTree (d d' : Disk) : Prop where
  holds : d'.Holds = d.Holds
  parents : ∀ other dir, d.dirs.lookup other = some dir →
    ∃ dir', d'.dirs.lookup other = some dir' ∧ dir'.parent = dir.parent

namespace SameTree

theorem trans {d'' : Disk} (h : SameTree d d') (h' : SameTree d' d'') : SameTree d d'' := by
  refine ⟨h'.holds.trans h.holds, fun other dir hdir => ?_⟩
  obtain ⟨dir', hdir', hsame⟩ := h.parents other dir hdir
  obtain ⟨dir'', hdir'', hsame'⟩ := h'.parents other dir' hdir'
  exact ⟨dir'', hdir'', hsame'.trans hsame⟩

theorem reachable (h : SameTree d d') : d'.Reachable = d.Reachable := by
  funext id
  rw [Reachable, h.holds, Reachable]

theorem closed (h : SameTree d d') (hclosed : d.Closed R) : d'.Closed R :=
  hclosed.mono fun _ _ hheld => h.holds ▸ hheld

theorem passes (h : SameTree d d') (hclosed : d.Closed R) {next : Nat} (hpasses : Passes d R id next) :
    Passes d' R id next :=
  hpasses.mono (P := fun _ => True) hclosed (fun _ hother => hother) (fun _ _ _ _ hheld => h.holds ▸ hheld)
    h.parents (fun _ _ _ _ => trivial) trivial

end SameTree

theorem Recounted.sameTree (h : Recounted d d') : SameTree d d' := by
  refine ⟨h.holds, fun other dir hdir => ?_⟩
  obtain ⟨dir', hdir', hsame⟩ := h.lookup hdir
  exact ⟨dir', hdir', (Dir.of_uncounted hsame).1⟩

theorem sameParents_setDir (hdir : d.dirs.lookup id = some dir) (dir' : Dir) (hparent : dir'.parent = dir.parent)
    (other : Nat) (found : Dir) (hfound : d.dirs.lookup other = some found) :
    ∃ found', (d.setDir id dir').dirs.lookup other = some found' ∧ found'.parent = found.parent := by
  rw [lookup_setDir]
  split
  case isTrue heq =>
    cases hfound.symm.trans (heq ▸ hdir)
    exact ⟨dir', rfl, hparent⟩
  case isFalse => exact ⟨found, hfound, rfl⟩

/-- Files lead nowhere. -/
theorem sameTree_setDir (hdir : d.dirs.lookup id = some dir) (dir' : Dir) (hparent : dir'.parent = dir.parent)
    (hdirs : dir'.dirs = dir.dirs) : SameTree d (d.setDir id dir') :=
  ⟨holds_setDir hdir dir' hdirs, sameParents_setDir hdir dir' hparent⟩

/-- Where no total in `R` changed, none is needed to. -/
theorem Recounted.usage (h : Recounted d d') (hclosed : d.Closed R)
    (hsame : ∀ other, R other → d'.usedBy other = d.usedBy other) {other : Nat} {found : Dir} (hother : R other)
    (hfound : d'.dirs.lookup other = some found) :
    ∃ before, d.dirs.lookup other = some before ∧ found.diskUsed = before.diskUsed ∧
      d'.usage found = d.usage before := by
  obtain ⟨before, hbefore, huncounted⟩ := h.symm.lookup hfound
  obtain ⟨-, -, hdirs, hfiles⟩ := Dir.of_uncounted huncounted
  have hused := hsame other hother
  rw [usedBy, hfound, usedBy, hbefore] at hused
  refine ⟨before, hbefore, hused, ?_⟩
  have hsizes : d'.sizeOf = d.sizeOf := by
    funext node
    rw [sizeOf, h.files, sizeOf]
  rw [Disk.usage, Disk.usage, hdirs, hfiles, hsizes]
  refine congrArg (fun n => n + _) (Map.total_congr fun path child hchild => hsame child ?_)
  exact hclosed.holds other child hother ⟨path, (subdir_eq hbefore path).trans (hdirs ▸ hchild)⟩

theorem Recounted.balancedBut (h : Recounted d d') (hclosed : d.Closed R)
    (hsame : ∀ other, R other → d'.usedBy other = d.usedBy other) {hole : Nat} (hbalanced : d.BalancedBut R hole) :
    d'.BalancedBut R hole := by
  intro other found hother hne hfound
  obtain ⟨before, hbefore, hused, husage⟩ := h.usage hclosed hsame hother hfound
  rw [hused, husage]
  exact hbalanced other before hother hne hbefore

theorem Recounted.balanced (h : Recounted d d') (hclosed : d.Closed R)
    (hsame : ∀ other, R other → d'.usedBy other = d.usedBy other) (hbalanced : d.Balanced R) : d'.Balanced R := by
  intro other found hother hfound
  obtain ⟨before, hbefore, hused, husage⟩ := h.usage hclosed hsame hother hfound
  rw [hused, husage]
  exact hbalanced other before hother hbefore

/-- What one directory is set to. -/
theorem usage_update (hdir : d.dirs.lookup id = some dir) (hself : ¬d.Holds id id) (used : Nat) :
    (d.setDir id { dir with diskUsed := used }).usage dir = d.usage dir := by
  refine usage_congr (fun path child hchild => ?_) fun path node hnode => rfl
  have hne : child ≠ id := by
    rintro rfl
    exact hself ⟨path, (subdir_eq hdir path).trans hchild⟩
  rw [usedBy_setDir, if_neg hne]

/-- One directory is set to what it must be; what held it must follow. -/
theorem BalancedBut.update (h : d.BalancedBut R id) (hdir : d.dirs.lookup id = some dir)
    (hself : R id → ¬d.Holds id id) {used : Nat} (hused : R id → used = d.usage dir) {other : Nat} {found : Dir}
    (hother : R other) (hnot : other = id ∨ ¬d.Holds other id)
    (hfound : (d.setDir id { dir with diskUsed := used }).dirs.lookup other = some found) :
    found.diskUsed = (d.setDir id { dir with diskUsed := used }).usage found := by
  by_cases heq : other = id
  · subst heq
    rw [lookup_setDir, if_pos rfl, Option.some.injEq] at hfound
    subst hfound
    have husage : (d.setDir other { dir with diskUsed := used }).usage { dir with diskUsed := used } =
        (d.setDir other { dir with diskUsed := used }).usage dir := rfl
    rw [husage, usage_update hdir (hself hother)]
    exact hused hother
  · rw [lookup_setDir, if_neg heq] at hfound
    rw [h other found hother heq hfound]
    symm
    refine usage_congr (fun path child hchild => ?_) fun path node hnode => rfl
    have hne : child ≠ id := by
      rintro rfl
      exact (hnot.resolve_left heq) ⟨path, (subdir_eq hfound path).trans hchild⟩
    rw [usedBy_setDir, if_neg hne]

/-- One round of `UpdateDiskUsed`. -/
def refresh (d : Disk) (id : Nat) (dir : Dir) : Disk :=
  d.setDir id { dir with diskUsed := (d.setDir id { dir with diskUsed := 0 }).usage dir }

theorem updateFrom_succ {fuel : Nat} (h : updateFrom (fuel + 1) d id = .ok d') :
    ∃ dir, d.dirs.lookup id = some dir ∧ (dir.parent = none ∧ d' = d.refresh id dir ∨
      ∃ parent, dir.parent = some parent ∧ updateFrom fuel (d.refresh id dir) parent = .ok d') := by
  obtain ⟨dir, hdir, h⟩ := bind_eq_ok h
  refine ⟨dir, dir_ok hdir, ?_⟩
  simp only at h
  split at h
  case h_1 hparent =>
    cases h
    exact Or.inl ⟨hparent, rfl⟩
  case h_2 parent hparent => exact Or.inr ⟨parent, hparent, h⟩

theorem recounted_refresh (hdir : d.dirs.lookup id = some dir) : Recounted d (d.refresh id dir) :=
  recounted_setUsed hdir _

/-- A directory that is right is set to what it was. -/
theorem usedBy_refresh (hdir : d.dirs.lookup id = some dir) (hclosed : d.Closed R)
    (hid : R id → dir.diskUsed = d.usage dir) (other : Nat) (hother : R other) :
    (d.refresh id dir).usedBy other = d.usedBy other := by
  rw [refresh]
  rw [usedBy_setDir]
  split
  case isTrue heq =>
    subst heq
    rw [usedBy, hdir]
    exact (usage_update hdir (hclosed.self other hother) 0).trans (hid hother).symm
  case isFalse => rfl

/-- Totals that are right stay as they are. -/
theorem usedBy_updateFrom {fuel : Nat} (hclosed : d.Closed R) (hbalanced : d.Balanced R)
    (h : updateFrom fuel d id = .ok d') (other : Nat) (hother : R other) : d'.usedBy other = d.usedBy other := by
  induction fuel generalizing d id with
  | zero => cases h
  | succ fuel ih =>
      obtain ⟨dir, hdir, h⟩ := updateFrom_succ h
      have hcounted := recounted_refresh hdir
      have hsame := usedBy_refresh hdir hclosed fun hid => hbalanced id dir hid hdir
      rcases h with ⟨-, rfl⟩ | ⟨parent, -, h⟩
      · exact hsame other hother
      · have hrest := ih (hcounted.sameTree.closed hclosed) (hcounted.balanced hclosed hsame hbalanced) h
        exact hrest.trans (hsame other hother)

theorem balanced_updateFrom {fuel : Nat} (hclosed : d.Closed R) (hbalanced : d.Balanced R)
    (h : updateFrom fuel d id = .ok d') : d'.Balanced R :=
  (recounted_updateFrom h).balanced hclosed (usedBy_updateFrom hclosed hbalanced h) hbalanced

/-- **All totals are right after `UpdateDiskUsed`**, if all but one were, and the pointers lead up past the
directory of this one and those above it. -/
theorem passes_updateFrom {fuel hole : Nat} (hclosed : d.Closed R) (hbalanced : d.BalancedBut R hole)
    (hpasses : Passes d R id hole) (h : updateFrom fuel d id = .ok d') : d'.Balanced R := by
  induction fuel generalizing d id hole with
  | zero => cases h
  | succ fuel ih =>
      obtain ⟨dir, hdir, h⟩ := updateFrom_succ h
      have hcounted := recounted_refresh hdir
      have hused : R id → (d.setDir id { dir with diskUsed := 0 }).usage dir = d.usage dir := fun hid =>
        usage_update hdir (hclosed.self id hid) 0
      cases hpasses with
      | @skip _ _ parent found hfound hparent hne hpasses =>
          cases hdir.symm.trans hfound
          rcases h with ⟨hnone, -⟩ | ⟨next, hnext, h⟩
          · cases hnone.symm.trans hparent
          · cases hnext.symm.trans hparent
            have hsame := usedBy_refresh hdir hclosed fun hid => hbalanced id dir hid hne hdir
            exact ih (hcounted.sameTree.closed hclosed) (hcounted.balancedBut hclosed hsame hbalanced)
              (hcounted.sameTree.passes hclosed hpasses) h
      | last htop =>
          have hafter : (d.refresh id dir).Balanced R := fun other found hother hfound =>
            hbalanced.update hdir (hclosed.self id) hused hother (Or.inr (htop other hother)) hfound
          rcases h with ⟨-, rfl⟩ | ⟨parent, -, h⟩
          · exact hafter
          · exact balanced_updateFrom (hcounted.sameTree.closed hclosed) hafter h
      | @up _ holder parent found hfound hparent hholder hholds hpasses =>
          cases hdir.symm.trans hfound
          rcases h with ⟨hnone, -⟩ | ⟨next, hnext, h⟩
          · cases hnone.symm.trans hparent
          · cases hnext.symm.trans hparent
            refine ih (hcounted.sameTree.closed hclosed) (fun other found hother hne hfound => ?_)
              (hcounted.sameTree.passes hclosed hpasses) h
            refine hbalanced.update hdir (hclosed.self id) hused hother (Or.inr fun hheld => hne ?_) hfound
            exact hclosed.unique other holder id hheld hholds

/-! ### What the calls do to the totals -/

structure Counted (d : Disk) : Prop where
  balanced : d.Balanced d.Reachable
  sized : ∀ id file, d.files.lookup id = some file → file.size = file.data.length

theorem Counted.accounted (h : d.Counted) (hsound : d.Sound) : d.Accounted := by
  intro id hid
  obtain ⟨dir, hdir, htotal⟩ := h.balanced.total hsound hid
  exact ⟨dir, hdir, htotal, htotal.congr h.sized⟩

/-- A directory that keeps its own total counts as before for the others. -/
theorem usage_setDir {dir' : Dir} (hdir : d.dirs.lookup id = some dir) (hused : dir'.diskUsed = dir.diskUsed)
    (other : Dir) : (d.setDir id dir').usage other = d.usage other := by
  refine usage_congr (fun path child hchild => ?_) fun path node hnode => rfl
  rw [usedBy_setDir]
  split
  case isTrue heq =>
    rw [heq, usedBy, hdir]
    exact hused
  case isFalse => rfl

theorem Balanced.setDir_but (h : d.Balanced R) (dir' : Dir) (hdir : d.dirs.lookup id = some dir)
    (hused : dir'.diskUsed = dir.diskUsed) : (d.setDir id dir').BalancedBut R id := by
  intro other found hother hne hfound
  rw [lookup_setDir, if_neg hne] at hfound
  rw [usage_setDir hdir hused]
  exact h other found hother hfound

theorem Balanced.setDir (h : d.Balanced R) (dir' : Dir) (hdir : d.dirs.lookup id = some dir)
    (hused : dir'.diskUsed = dir.diskUsed) (hid : R id → dir'.diskUsed = d.usage dir') :
    (d.setDir id dir').Balanced R := by
  intro other found hother hfound
  by_cases heq : other = id
  · subst heq
    rw [lookup_setDir, if_pos rfl, Option.some.injEq] at hfound
    subst hfound
    rw [usage_setDir hdir hused]
    exact hid hother
  · exact h.setDir_but dir' hdir hused other found hother heq hfound

theorem BalancedBut.balanced (h : d.BalancedBut R id) (hid : ¬R id) : d.Balanced R :=
  fun other found hother hfound => h other found hother (fun heq => hid (heq ▸ hother)) hfound

theorem Balanced.weaken {R' : Nat → Prop} (h : d.Balanced R) (hle : ∀ other, R' other → R other) : d.Balanced R' :=
  fun other found hother hfound => h other found (hle other hother) hfound

/-- **A directory changes and is brought up to date.** Either it counts as before, or the pointers lead up past
those above it. -/
theorem Balanced.change (h : d.Balanced R) (dir' : Dir) (hdir : d.dirs.lookup id = some dir)
    (hused : dir'.diskUsed = dir.diskUsed) (hclosed : (d.setDir id dir').Closed R)
    (hcond : (R id → d.usage dir' = d.usage dir) ∨ Passes (d.setDir id dir') R id id)
    (hupdate : (d.setDir id dir').updateDiskUsed id = .ok d') : d'.Balanced R := by
  rcases hcond with hsame | hpasses
  · refine balanced_updateFrom hclosed (h.setDir dir' hdir hused fun hid => ?_) hupdate
    rw [hused, hsame hid]
    exact h id dir hid hdir
  · exact passes_updateFrom hclosed (h.setDir_but dir' hdir hused) hpasses hupdate

/-! ### Entries that count -/

theorem usage_erase_file {name : Bytes} {node : Nat} (dir' : Dir) (hentry : dir.files.lookup name = some node)
    (hdirs : dir'.dirs = dir.dirs) (hfiles : dir'.files = dir.files.erase name) :
    d.usage dir = d.sizeOf node + d.usage dir' := by
  rw [usage, usage, hdirs, hfiles, Map.total_erase hentry]
  omega

theorem usage_erase_dir {name : Bytes} {child : Nat} (dir' : Dir) (hentry : dir.dirs.lookup name = some child)
    (hdirs : dir'.dirs = dir.dirs.erase name) (hfiles : dir'.files = dir.files) :
    d.usage dir = d.usedBy child + d.usage dir' := by
  rw [usage, usage, hdirs, hfiles, Map.total_erase hentry]
  omega

theorem usage_insert_file {name : Bytes} {node : Nat} (dir' : Dir) (hnew : dir.files.lookup name = none)
    (hdirs : dir'.dirs = dir.dirs) (hfiles : dir'.files = dir.files.insert name node) :
    d.usage dir' = d.sizeOf node + d.usage dir := by
  rw [usage, usage, hdirs, hfiles, Map.total_insert hnew]
  omega

theorem usage_insert_dir {name : Bytes} {child : Nat} (dir' : Dir) (hnew : dir.dirs.lookup name = none)
    (hdirs : dir'.dirs = dir.dirs.insert name child) (hfiles : dir'.files = dir.files) :
    d.usage dir' = d.usedBy child + d.usage dir := by
  rw [usage, usage, hdirs, hfiles, Map.total_insert hnew]
  omega

/-! ### Files that change -/

/-- The sizes of files change that no directory counts but one. -/
theorem Balanced.setFiles_but (h : d.Balanced R) (files : Map Nat File) (next hole : Nat)
    (hsizes : ∀ other path node, R other → other ≠ hole → d.fileAt other path = some node →
      sizeOf { d with files, next } node = d.sizeOf node) : BalancedBut { d with files, next } R hole := by
  intro other found hother hne hfound
  rw [h other found hother hfound]
  symm
  refine usage_congr (fun path child hchild => rfl) fun path node hnode => ?_
  exact hsizes other path node hother hne ((fileAt_eq hfound path).trans hnode)

theorem Balanced.setFiles (h : d.Balanced R) (files : Map Nat File) (next : Nat)
    (hsizes : ∀ other path node, R other → d.fileAt other path = some node →
      sizeOf { d with files, next } node = d.sizeOf node) : Balanced { d with files, next } R := by
  intro other found hother hfound
  rw [h other found hother hfound]
  symm
  refine usage_congr (fun path child hchild => rfl) fun path node hnode => ?_
  exact hsizes other path node hother ((fileAt_eq hfound path).trans hnode)

theorem Balanced.freeFile (h : d.Balanced R) {node : Nat} (hloose : ∀ other path, d.fileAt other path ≠ some node) :
    Balanced { d with files := d.files.erase node } R := by
  refine h.setFiles _ _ fun other path found _ hheld => ?_
  have hne : found ≠ node := fun heq => hloose other path (heq ▸ hheld)
  rw [sizeOf, Map.lookup_erase_eq, if_neg hne, sizeOf]

/-- A file gets another size. -/
theorem sizeOf_insert (files : Map Nat File) (next node other : Nat) (file : File) :
    sizeOf { d with files := files.insert node file, next } other =
      if other = node then file.size else sizeOf { d with files, next } other := by
  rw [sizeOf, Map.lookup_insert_eq]
  split <;> rfl

/-! ### Where it returns -/

/-- `parent_` of a directory in memory. -/
def parentOf (d : Disk) (id : Nat) : Option (Option Nat) := (d.dirs.lookup id).map Dir.parent

/-- A directory was made after its parent. -/
def Ordered (d : Disk) : Prop := ∀ id parent, d.parentOf id = some (some parent) → parent < id

/-- A directory that is in memory, with all those from which the pointers to parents lead. -/
inductive Attached (d : Disk) : Nat → Prop
  | top {id : Nat} (h : d.parentOf id = some none) : Attached d id
  | inside {id parent : Nat} (h : d.parentOf id = some (some parent)) (habove : Attached d parent) : Attached d id

theorem parentOf_eq (hdir : d.dirs.lookup id = some dir) : d.parentOf id = some dir.parent := by
  rw [parentOf, hdir, Option.map_some]

theorem Sound.ordered (h : d.Sound) : d.Ordered := by
  intro id parent hparent
  obtain ⟨dir, hdir, hsame⟩ := Option.map_eq_some_iff.mp hparent
  exact h.older id dir parent hdir hsame

theorem Ordered.congr (hparents : d'.parentOf = d.parentOf) (h : d.Ordered) : d'.Ordered := by
  rw [Ordered, hparents]
  exact h

theorem Attached.congr (hparents : d'.parentOf = d.parentOf) (h : d.Attached id) : d'.Attached id := by
  induction h with
  | top h => exact .top (hparents ▸ h)
  | inside h _ ih => exact .inside (hparents ▸ h) ih

theorem attached_congr (hparents : d'.parentOf = d.parentOf) : d'.Attached id ↔ d.Attached id :=
  ⟨Attached.congr hparents.symm, Attached.congr hparents⟩

/-- Files do not matter. -/
theorem attached_setFiles (files : Map Nat File) : Attached { d with files } id ↔ d.Attached id := by
  have hparents : parentOf { d with files } = d.parentOf := rfl
  exact attached_congr hparents

theorem Attached.lookup (h : d.Attached id) : ∃ dir, d.dirs.lookup id = some dir := by
  cases h with
  | top h =>
      obtain ⟨dir, hdir, -⟩ := Option.map_eq_some_iff.mp h
      exact ⟨dir, hdir⟩
  | inside h _ =>
      obtain ⟨dir, hdir, -⟩ := Option.map_eq_some_iff.mp h
      exact ⟨dir, hdir⟩

theorem Recounted.parentOf (h : Recounted d d') : d'.parentOf = d.parentOf := by
  have hboth : ∀ d : Disk, ∀ id, d.parentOf id = ((d.dirs.lookup id).map Dir.uncounted).map Dir.parent := by
    intro d id
    rw [Option.map_map]
    rfl
  funext id
  rw [hboth, hboth, h.dirs]

theorem parentOf_setDir (hdir : d.dirs.lookup id = some dir) (dir' : Dir) (hparent : dir'.parent = dir.parent) :
    (d.setDir id dir').parentOf = d.parentOf := by
  funext other
  rw [parentOf, lookup_setDir, parentOf]
  split
  case isTrue heq => rw [heq, hdir, Option.map_some, Option.map_some, hparent]
  case isFalse => rfl

theorem attached_of_updateFrom {fuel : Nat} (h : updateFrom fuel d id = .ok d') : d.Attached id := by
  induction fuel generalizing d id with
  | zero => cases h
  | succ fuel ih =>
      obtain ⟨dir, hdir, h⟩ := updateFrom_succ h
      rcases h with ⟨hparent, -⟩ | ⟨parent, hparent, h⟩
      · exact .top (hparent ▸ parentOf_eq hdir)
      · exact .inside (hparent ▸ parentOf_eq hdir) ((ih h).congr (recounted_refresh hdir).parentOf.symm)

theorem updateFrom_eq {fuel : Nat} (hdir : d.dirs.lookup id = some dir) :
    updateFrom (fuel + 1) d id = match dir.parent with
      | none => .ok (d.refresh id dir)
      | some parent => updateFrom fuel (d.refresh id dir) parent := by
  rw [updateFrom, dir_of_lookup hdir, ok_bind]
  rfl

/-- It returns where all the pointers that it follows lead to directories. -/
theorem exists_updateFrom {fuel : Nat} (hordered : d.Ordered) (h : d.Attached id) (hfuel : id < fuel) :
    ∃ d', updateFrom fuel d id = .ok d' := by
  induction fuel generalizing d id with
  | zero => exact absurd hfuel (Nat.not_lt_zero id)
  | succ fuel ih =>
      obtain ⟨dir, hdir⟩ := h.lookup
      rw [updateFrom_eq hdir]
      cases hparent : dir.parent with
      | none => exact ⟨_, rfl⟩
      | some parent =>
          have hpointer : d.parentOf id = some (some parent) := hparent ▸ parentOf_eq hdir
          have hless := hordered id parent hpointer
          have habove : d.Attached parent := by
            cases h with
            | top h => cases h.symm.trans hpointer
            | inside h habove =>
                cases h.symm.trans hpointer
                exact habove
          have hsame := (recounted_refresh hdir).parentOf
          exact ih (hordered.congr hsame) (habove.congr hsame) (by omega)

theorem exists_updateDiskUsed (hordered : d.Ordered) (h : d.Attached id) : ∃ d', d.updateDiskUsed id = .ok d' :=
  exists_updateFrom hordered h (Nat.lt_succ_self id)

end

end Disk

end Thebends.Ramdisk
