import Mathlib.Algebra.Ring.Int.Defs
import Thebends.LibMap

/-! The ramdisk (`dir.cpp`, `file.cpp` and `ramdisk.cpp`). Directories and files are objects that are known by
numbers, in the order in which they were made. A pointer is such a number; when the object was deleted, what
the program does is not defined, and so is a `NULL` that is followed. The order in which a directory lists its
entries is left out. -/

namespace Thebends.Ramdisk

open LibMap

abbrev Bytes := List UInt8

inductive Fault
  | assertion
  | nullPointer
  | dangling
  | outOfRange
  | endless
  deriving DecidableEq, Repr

/-- `assert`. -/
def check (condition : Bool) : Except Fault Unit := if condition then .ok () else .error .assertion

def slash : UInt8 := 47

def sIfmt : UInt32 := 0o170000

def sIfdir : UInt32 := 0o040000

def sIfreg : UInt32 := 0o100000

def enoent : Int := 2

def kBlockSize : Nat := 1024

/-- `File`, with `st_size` as `size`. -/
structure File where
  parent : Nat
  data : Bytes
  size : Nat

/-- `Dir`, with `st_size` as `size`. -/
structure Dir where
  parent : Option Nat
  diskUsed : Nat
  size : Int
  dirs : Map Bytes Nat
  files : Map Bytes Nat

/-- All objects that are in memory, and how many were made. -/
structure Disk where
  dirs : Map Nat Dir
  files : Map Nat File
  next : Nat

def root : Nat := 0

def assertNoSubdirs (path : Bytes) : Except Fault Unit := check (slash ∉ path)

/-- `GetNode` of a directory, compared with `NULL`. -/
def Dir.hasNode (dir : Dir) (path : Bytes) : Bool := (dir.files.lookup path).isSome || (dir.dirs.lookup path).isSome

namespace Disk

/-- `NewRamdisk`. -/
def new : Disk where
  dirs := (∅ : Map Nat Dir).insert root ⟨none, 0, 2, ∅, ∅⟩
  files := ∅
  next := 1

/-- Follows a pointer to a directory, -/
def dir (d : Disk) (id : Nat) : Except Fault Dir :=
  match d.dirs.lookup id with
  | some dir => .ok dir
  | none => .error .dangling

/-- or to a file. -/
def file (d : Disk) (id : Nat) : Except Fault File :=
  match d.files.lookup id with
  | some file => .ok file
  | none => .error .dangling

def setDir (d : Disk) (id : Nat) (dir : Dir) : Disk := { d with dirs := d.dirs.insert id dir }

/-- `DiskUsed`. -/
def usedBy (d : Disk) (id : Nat) : Nat := ((d.dirs.lookup id).map Dir.diskUsed).getD 0

/-- `Size` of a file. -/
def sizeOf (d : Disk) (id : Nat) : Nat := ((d.files.lookup id).map File.size).getD 0

/-- What the loops of `UpdateDiskUsed` add up. -/
def usage (d : Disk) (dir : Dir) : Nat := dir.dirs.total d.usedBy + dir.files.total d.sizeOf

/-- `UpdateDiskUsed`, up to the given number of directories. -/
def updateFrom : Nat → Disk → Nat → Except Fault Disk
  | 0, _, _ => .error .endless
  | fuel + 1, d, id => do
      let dir ← d.dir id
      let cleared := d.setDir id { dir with diskUsed := 0 }
      let d := d.setDir id { dir with diskUsed := cleared.usage dir }
      match dir.parent with
      | none => return d
      | some parent => updateFrom fuel d parent

/-- `UpdateDiskUsed`. A directory was made after its parent. -/
def updateDiskUsed (d : Disk) (id : Nat) : Except Fault Disk := updateFrom (id + 1) d id

/-- `CreateFile`. -/
def createFile (d : Disk) (id : Nat) (path : Bytes) (mode : UInt32) : Except Fault (Option Nat × Disk) := do
  assertNoSubdirs path
  let dir ← d.dir id
  if dir.hasNode path then return (none, d)
  check (mode &&& sIfmt = sIfreg ∨ mode &&& sIfmt = 0)
  let made := { d with files := d.files.insert d.next ⟨id, [], 0⟩, next := d.next + 1 }
  return (some d.next, made.setDir id { dir with files := dir.files.insert path d.next, size := dir.size + 1 })

/-- `Mkdir`. -/
def mkdir (d : Disk) (id : Nat) (path : Bytes) (mode : UInt32) : Except Fault (Option Nat × Disk) := do
  assertNoSubdirs path
  let dir ← d.dir id
  if dir.hasNode path then return (none, d)
  check (mode &&& sIfmt = sIfdir ∨ mode &&& sIfmt = 0)
  let made := { d with dirs := d.dirs.insert d.next ⟨some id, 0, 2, ∅, ∅⟩, next := d.next + 1 }
  return (some d.next, made.setDir id { dir with dirs := dir.dirs.insert path d.next, size := dir.size + 1 })

/-- `Unlink`. -/
def unlink (d : Disk) (id : Nat) (path : Bytes) : Except Fault (Bool × Disk) := do
  assertNoSubdirs path
  let dir ← d.dir id
  match dir.files.lookup path with
  | none => return (false, d)
  | some file =>
      let freed := { d with files := d.files.erase file }
      return (true, freed.setDir id { dir with files := dir.files.erase path, size := dir.size - 1 })

/-- The directories in a directory. -/
def subdirs (d : Disk) (id : Nat) : List Nat :=
  match d.dirs.lookup id with
  | none => []
  | some dir => dir.dirs.entries.map Sigma.snd

/-- The files in a directory. -/
def filesIn (d : Disk) (id : Nat) : List Nat :=
  match d.dirs.lookup id with
  | none => []
  | some dir => dir.files.entries.map Sigma.snd

/-- A directory and all directories below it, down to the given depth. -/
def below (d : Disk) : Nat → Nat → List Nat
  | 0, id => [id]
  | depth + 1, id => id :: (d.subdirs id).flatMap (below d depth)

/-- `~Dir`. No directory is deeper than there are objects. -/
def delete (d : Disk) (id : Nat) : Disk :=
  let ids := d.below d.next id
  { d with
    dirs := ids.foldl (fun dirs id => dirs.erase id) d.dirs
    files := (ids.flatMap d.filesIn).foldl (fun files id => files.erase id) d.files }

/-- `Rmdir`. -/
def rmdir (d : Disk) (id : Nat) (path : Bytes) : Except Fault (Bool × Disk) := do
  assertNoSubdirs path
  let dir ← d.dir id
  match dir.dirs.lookup path with
  | none => return (false, d)
  | some child =>
      return (true, (d.delete child).setDir id { dir with dirs := dir.dirs.erase path, size := dir.size - 1 })

/-- `ReleaseFileNode`. -/
def releaseFileNode (d : Disk) (id : Nat) (path : Bytes) : Except Fault (Option Nat × Disk) := do
  let dir ← d.dir id
  match dir.files.lookup path with
  | none => return (none, d)
  | some file =>
      let d ← (d.setDir id { dir with files := dir.files.erase path }).updateDiskUsed id
      return (some file, d)

/-- `ReleaseDirNode`. -/
def releaseDirNode (d : Disk) (id : Nat) (path : Bytes) : Except Fault (Option Nat × Disk) := do
  let dir ← d.dir id
  match dir.dirs.lookup path with
  | none => return (none, d)
  | some child =>
      let d ← (d.setDir id { dir with dirs := dir.dirs.erase path }).updateDiskUsed id
      return (some child, d)

/-- `delete` of what `ReleaseFileNode` returned. -/
def deleteFile (d : Disk) : Option Nat → Disk
  | none => d
  | some file => { d with files := d.files.erase file }

/-- `InsertDirNode`. -/
def insertDirNode (d : Disk) (id : Nat) (path : Bytes) (node : Nat) : Except Fault Disk := do
  assertNoSubdirs path
  let dir ← d.dir id
  check (!dir.hasNode path)
  (d.setDir id { dir with dirs := dir.dirs.insert path node }).updateDiskUsed id

/-- `InsertFileNode`. -/
def insertFileNode (d : Disk) (id : Nat) (path : Bytes) (node : Nat) : Except Fault Disk := do
  let (exist, d) ← d.releaseFileNode id path
  let d := d.deleteFile exist
  assertNoSubdirs path
  let dir ← d.dir id
  check (!dir.hasNode path)
  (d.setDir id { dir with files := dir.files.insert path node }).updateDiskUsed id

/-- `GetNodeParent`, on the parts between the slashes of the path. -/
def walk (d : Disk) : Nat → List Bytes → Except Fault (Option Nat × Bytes)
  | id, [] => .ok (some id, [])
  | id, [rest] => .ok (some id, rest)
  | id, name :: next :: more => do
      assertNoSubdirs name
      let dir ← d.dir id
      match dir.dirs.lookup name with
      | none => return (none, [])
      | some child => walk d child (next :: more)

/-- `GetNodeParent`, from the root. -/
def getNodeParent (d : Disk) (path : Bytes) : Except Fault (Option Nat × Bytes) := do
  check (path.head? = some slash)
  d.walk root (path.tail.splitOn slash)

/-- `GetFile`, from the root. -/
def getFile (d : Disk) (path : Bytes) : Except Fault (Option Nat) := do
  check (path ≠ [slash])
  let (parent, rest) ← d.getNodeParent path
  check (rest.length > 0)
  match parent with
  | none => .error .nullPointer
  | some parent => do
      assertNoSubdirs rest
      let dir ← d.dir parent
      return dir.files.lookup rest

/-- `File::Write`. -/
def writeFile (d : Disk) (id : Nat) (buf : Bytes) (offset : Nat) : Except Fault (Nat × Disk) := do
  let file ← d.file id
  if offset > file.data.length then .error .outOfRange
  else
    let data := file.data.take offset ++ buf ++ file.data.drop (offset + buf.length)
    let d := { d with files := d.files.insert id { file with data := data, size := data.length } }
    let d ← d.updateDiskUsed file.parent
    return (buf.length, d)

/-- `File::Truncate`. What `substr` returns is not used. -/
def truncateFile (d : Disk) (id : Nat) (offset : Nat) : Except Fault Disk := do
  let file ← d.file id
  let d := { d with files := d.files.insert id { file with size := offset } }
  d.updateDiskUsed file.parent

/-- `ramfs_create`; a handle is the pointer to the file. -/
def ramfsCreate (d : Disk) (path : Bytes) (mode : UInt32) : Except Fault (Int × Option Nat × Disk) := do
  match ← d.getNodeParent path with
  | (none, _) => return (-enoent, none, d)
  | (some parent, filename) =>
      let (file, d) ← d.createFile parent filename mode
      return (if file.isNone then -enoent else 0, file, d)

/-- `ramfs_mkdir`. -/
def ramfsMkdir (d : Disk) (path : Bytes) (mode : UInt32) : Except Fault (Int × Disk) := do
  match ← d.getNodeParent path with
  | (none, _) => return (-enoent, d)
  | (some parent, filename) =>
      let (dir, d) ← d.mkdir parent filename mode
      return (if dir.isNone then -enoent else 0, d)

/-- `ramfs_unlink`, which does not ask whether there is a parent. -/
def ramfsUnlink (d : Disk) (path : Bytes) : Except Fault (Int × Disk) := do
  match ← d.getNodeParent path with
  | (none, _) => .error .nullPointer
  | (some parent, filename) =>
      let (done, d) ← d.unlink parent filename
      return (if done then 0 else -enoent, d)

/-- `ramfs_rmdir`. -/
def ramfsRmdir (d : Disk) (path : Bytes) : Except Fault (Int × Disk) := do
  match ← d.getNodeParent path with
  | (none, _) => return (-enoent, d)
  | (some parent, filename) =>
      let (done, d) ← d.rmdir parent filename
      return (if done then 0 else -enoent, d)

/-- What `ramfs_rename` does once it has both parents. -/
def move (d : Disk) (parent₁ : Nat) (filename₁ : Bytes) (parent₂ : Nat) (filename₂ : Bytes) :
    Except Fault (Int × Disk) := do
  match ← d.releaseFileNode parent₁ filename₁ with
  | (some file, d) => return (0, ← d.insertFileNode parent₂ filename₂ file)
  | (none, d) =>
      match ← d.releaseDirNode parent₁ filename₁ with
      | (some child, d) => return (0, ← d.insertDirNode parent₂ filename₂ child)
      | (none, d) => return (-enoent, d)

/-- `ramfs_rename`. -/
def ramfsRename (d : Disk) (source target : Bytes) : Except Fault (Int × Disk) := do
  let (parent₁, filename₁) ← d.getNodeParent source
  let (parent₂, filename₂) ← d.getNodeParent target
  match parent₁, parent₂ with
  | some parent₁, some parent₂ => d.move parent₁ filename₁ parent₂ filename₂
  | _, _ => return (-enoent, d)

/-- `ramfs_truncate`. -/
def ramfsTruncate (d : Disk) (path : Bytes) (offset : Nat) : Except Fault (Int × Disk) := do
  match ← d.getFile path with
  | none => return (-enoent, d)
  | some file => return (0, ← d.truncateFile file offset)

/-- `f_bfree` of `ramfs_statfs`; the subtraction is one of `size_t`. -/
def bfree (d : Disk) (diskSize : Int) : Except Fault Nat := do
  let dir ← d.dir root
  return ((diskSize - dir.diskUsed) % 2 ^ 64).toNat / kBlockSize

end Disk

/-- A call of the file system. A handle is one that `ramfs_create` or `ramfs_open` gave for a file. -/
inductive Op
  | create (path : Bytes) (mode : UInt32)
  | mkdir (path : Bytes) (mode : UInt32)
  | write (handle : Nat) (buf : Bytes) (offset : Nat)
  | truncate (path : Bytes) (offset : Nat)
  | unlink (path : Bytes)
  | rmdir (path : Bytes)
  | rename (source target : Bytes)

def Disk.step (d : Disk) : Op → Except Fault Disk
  | .create path mode => (d.ramfsCreate path mode).map fun result => result.2.2
  | .mkdir path mode => (d.ramfsMkdir path mode).map Prod.snd
  | .write handle buf offset => (d.writeFile handle buf offset).map Prod.snd
  | .truncate path offset => (d.ramfsTruncate path offset).map Prod.snd
  | .unlink path => (d.ramfsUnlink path).map Prod.snd
  | .rmdir path => (d.ramfsRmdir path).map Prod.snd
  | .rename source target => (d.ramfsRename source target).map Prod.snd

end Thebends.Ramdisk
