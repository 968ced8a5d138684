import Thebends.LibAscii
import Thebends.LibSplit

/-! The static file server (`static-files-server/serve.py`): which files a request can reach. The path of a request is
normalized behind `ROOT`, and what comes out has to start with `ROOT`, as a string: a file or a directory beside `ROOT`
whose name goes on where that of `ROOT` ends is served as well. -/

namespace Thebends.StaticFiles

open LibAscii

abbrev Bytes := List UInt8

abbrev slash : UInt8 := byte '/'

abbrev dot : Bytes := ascii "."

abbrev dotDot : Bytes := ascii ".."

/-! ### The server -/

/-- A turn of the loop over the components in `os.path.normpath`. -/
def addComp (initialSlashes : Nat) (newComps : List Bytes) (comp : Bytes) : List Bytes :=
  if comp = [] ∨ comp = dot then newComps
  else if comp ≠ dotDot ∨ initialSlashes = 0 ∧ newComps = [] ∨ newComps.getLast? = some dotDot then newComps ++ [comp]
  else newComps.dropLast

/-- The slashes that a normalized path begins with: two of them mean something else than one or three. -/
def initialSlashes (path : Bytes) : Nat :=
  if [slash, slash].isPrefixOf path ∧ ¬[slash, slash, slash].isPrefixOf path then 2
  else if [slash].isPrefixOf path then 1
  else 0

/-- `os.path.normpath`. -/
def normpath (path : Bytes) : Bytes :=
  if path = [] then dot
  else
    let comps := (path.splitOn slash).foldl (addComp (initialSlashes path)) []
    let path := List.replicate (initialSlashes path) slash ++ [slash].intercalate comps
    if path = [] then dot else path

/-- What the server asks the system for. -/
structure FileSystem where
  isDir : Bytes → Bool
  isFile : Bytes → Bool
  data : Bytes → Bytes
  /-- `mimetypes.guess_type`. -/
  guessType : Bytes → Option Bytes

/-- The file that `get` opens, if it comes to that. -/
def FileSystem.target (fs : FileSystem) (root requestPath : Bytes) : Option Bytes :=
  let fullPath := normpath (root ++ slash :: requestPath)
  if ¬root.isPrefixOf fullPath then none
  else
    let fullPath := if fs.isDir fullPath then fullPath ++ ascii "/index.html" else fullPath
    if ¬fs.isFile fullPath then none else some fullPath

/-- The response to a request: its type and its text. -/
def FileSystem.get (fs : FileSystem) (root requestPath : Bytes) : Option Bytes × Bytes :=
  match fs.target root requestPath with
  | none => (some (ascii "text/plain"), ascii "Not found")
  | some fullPath => (fs.guessType fullPath, fs.data fullPath)

/-! ### Paths -/

/-- A name in a directory. -/
structure IsName (comp : Bytes) : Prop where
  ne_nil : comp ≠ []
  no_slash : slash ∉ comp
  ne_dot : comp ≠ dot
  ne_dotDot : comp ≠ dotDot

/-- The names on the way from the top directory. -/
def Proper (comps : List Bytes) : Prop := ∀ comp ∈ comps, IsName comp

/-- Each name behind a slash. -/
def below (comps : List Bytes) : Bytes := comps.flatMap fun comp => slash :: comp

/-- The names that a request leads to. -/
def walk (root : List Bytes) (requestPath : Bytes) : List Bytes :=
  (requestPath.splitOn slash).foldl (addComp 1) root

end Thebends.StaticFiles
