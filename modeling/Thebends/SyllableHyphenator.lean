import Mathlib.Order.Bounds.Basic
import Thebends.LibAscii
import Thebends.LibTrie

/-! Hyphenation with the patterns of Liang (`syllable/hyphenate.py`): the tree of the patterns, the points of a word,
and the pieces between its hyphens. The texts of the patterns and of the exceptions are parameters. A computation
without a result is one that raises an exception. -/

namespace Thebends.Syllable

open LibAscii LibDecimal LibTrie

/-- `str`. -/
abbrev Str := List UInt8

/-- What `split()` cuts at. -/
def isSpace (c : UInt8) : Bool := c = 32 || (9 ≤ c && c ≤ 13)

/-- `text.split()`. -/
def split (text : Str) : List Str := (text.splitOnP isSpace).filter (· ≠ [])

/-- `text.lower()`. -/
def lower (text : Str) : Str := text.map toLower

/-- `int(d or 0)`: a number may have a sign. -/
def int (d : Str) : Option Int :=
  if d = [] then some 0
  else
    let digits := if d.head? = some 45 ∨ d.head? = some 43 then d.tail else d
    if digits ≠ [] ∧ digits.all isDigit then
      some (if d.head? = some 45 then -(valueFrom 0 digits : Int) else valueFrom 0 digits)
    else none

/-- The characters of a pattern. -/
def charsOf (pattern : Str) : Str := pattern.filter fun c => !isDigit c

/-- What stands between the characters of a pattern. -/
def pointsOf (pattern : Str) : Option (List Int) := (pattern.splitOnP fun c => c = 46 || isLower c).mapM int

/-- The points of an exception, with the hyphens where it has them. -/
def exceptionPoints (ex : Str) : List Int := 0 :: (ex.splitOnP isLower).map fun h => if h = [45] then 1 else 0

/-- `Hyphenator`, with its tree and its dictionary. -/
structure Hyphenator where
  tree : Trie UInt8 (List Int)
  exceptions : Str → Option (List Int)

/-- `_insert_pattern`. -/
def insertPattern (tree : Trie UInt8 (List Int)) (pattern : Str) : Option (Trie UInt8 (List Int)) :=
  (pointsOf pattern).map fun points => tree.insert (charsOf pattern) points

/-- `ex.replace('-', '')`. -/
def withoutHyphens (ex : Str) : Str := ex.filter (· ≠ 45)

/-- `__init__`. -/
def Hyphenator.init (patterns exceptions : Str) : Option Hyphenator :=
  ((split patterns).foldlM insertPattern .empty).map fun tree =>
    ⟨tree, (split exceptions).foldl (fun before ex =>
      Function.update before (withoutHyphens ex) (some (exceptionPoints ex))) fun _ => none⟩

/-- The loop over `p`: `points[i+j] = max(points[i+j], p[j])`. -/
def raise : Nat → List Int → List Int → Option (List Int)
  | _, points, [] => some points
  | i, points, value :: p =>
      if h : i < points.length then raise (i + 1) (points.set i (max points[i] value)) p else none

/-- The loop over `work[i:]`. -/
def walk (t : Trie UInt8 (List Int)) (i : Nat) : List Int → Str → Option (List Int)
  | points, [] => some points
  | points, c :: rest =>
      match t.child c with
      | none => some points
      | some next =>
          match next.value with
          | none => walk next i points rest
          | some p =>
              match raise i points p with
              | none => none
              | some raised => walk next i raised rest

/-- `points[index] = value`, where a negative index counts from the end. -/
def assign (points : List Int) (index value : Int) : Option (List Int) :=
  let position := if index < 0 then points.length + index else index
  if 0 ≤ position ∧ position < points.length then some (points.set position.toNat value) else none

/-- `work`. -/
def workOf (word : Str) : Str := 46 :: lower word ++ [46]

/-- The points of a word that is not an exception. -/
def wordPoints (tree : Trie UInt8 (List Int)) (word : Str) : Option (List Int) :=
  let work := workOf word
  ((List.range work.length).foldlM (fun points i => walk tree i points (work.drop i))
    (List.replicate (work.length + 1) 0)).bind fun points =>
  [1, 2, -2, -3].foldlM (fun points index => assign points index 0) points

/-- The loop that builds the pieces. -/
def piecesOf (word : Str) (points : List Int) : List Str :=
  (word.zip points).foldl (fun pieces cp =>
    let grown := pieces.dropLast ++ [pieces.getLastD [] ++ [cp.1]]
    if cp.2 % 2 ≠ 0 then grown ++ [[]] else grown) [[]]

/-- The points of any word: those stored with an exception, or those the patterns give. -/
def Hyphenator.points (h : Hyphenator) (word : Str) : Option (List Int) :=
  match h.exceptions (lower word) with
  | some points => some points
  | none => wordPoints h.tree word

/-- `hyphenate_word`. -/
def Hyphenator.hyphenateWord (h : Hyphenator) (word : Str) : Option (List Str) :=
  if word.length ≤ 4 then some [word] else (h.points word).map fun points => piecesOf word (points.drop 2)

end Thebends.Syllable
