import Thebends.LibAscii
import Thebends.LibExcept

/-! The bencode trees of the tracker's client (`bencode.cpp`). The memory of a message is its characters and a `NUL`;
a pointer into it is what is left of it from there on. -/

namespace Thebends.Ypeer

open LibAscii LibDecimal LibExcept

abbrev Chars := List UInt8

inductive Fault
  /-- A string that is `NULL` is used. -/
  | nullString
  /-- Something else is used as a string. -/
  | notString
  /-- Memory behind the message is read. -/
  | outOfBounds
  /-- An `int` overflows. -/
  | overflow
  /-- Not a fault: the decoder has not come to its end in the turns that it was given. -/
  | unfinished
  deriving DecidableEq, Repr

/-- `kMaxLength`. -/
def kMaxLength : Nat := 100 * 1024

/-- `be_str`, of which the decoder makes none that is longer. -/
structure BeStr where
  s : Chars
  short : s.length ≤ kMaxLength

/-- A string that is taken up to its `NUL`. -/
def BeStr.text (str : BeStr) : Chars := str.s.takeWhile (· ≠ 0)

/-- `be_node`. A string that could not be decoded is `NULL`; a key never is. -/
inductive BeNode
  | str (s : Option BeStr)
  | int (i : Int64)
  | list (l : List BeNode)
  | dict (d : List (BeStr × BeNode))

mutual

/-- `be_free`, which looks into every string. -/
def beFree : BeNode → Except Fault Unit
  | .str none => .error .nullString
  | .str (some _) => .ok ()
  | .int _ => .ok ()
  | .list l => beFreeItems l
  | .dict d => beFreeEntries d

def beFreeItems : List BeNode → Except Fault Unit
  | [] => .ok ()
  | n :: l => do
      beFree n
      beFreeItems l

def beFreeEntries : List (BeStr × BeNode) → Except Fault Unit
  | [] => .ok ()
  | (_, n) :: d => do
      beFree n
      beFreeEntries d

end

/-- `**data`. -/
def peek : Chars → Except Fault UInt8
  | [] => .error .outOfBounds
  | c :: _ => .ok c

def isSpace (c : UInt8) : Bool := c = 32 || 9 ≤ c && c ≤ 13

/-- A sign, and what is behind it. -/
def sign : Chars → Int × Chars
  | [] => (1, [])
  | c :: data => if c = byte '-' then (-1, data) else if c = byte '+' then (1, data) else (1, c :: data)

/-- `strtoll`: the number, as close as a `long long` comes to it, and where it ends. -/
def strtoll (data : Chars) : Int × Chars :=
  let (sign, text) := sign (data.dropWhile isSpace)
  let digits := text.takeWhile isDigit
  if digits = [] then (0, data)
  else (max (-2 ^ 63) (min (2 ^ 63 - 1) (sign * valueFrom 0 digits)), text.drop digits.length)

/-- `_be_decode_int`. -/
def beDecodeInt (data : Chars) : Except Fault (Int × Chars) := do
  let _ ← peek data
  return strtoll data

/-- `_be_decode_str`. -/
def beDecodeStr (data : Chars) : Except Fault (Option BeStr × Chars) := do
  let (len, data) ← beDecodeInt data
  if h : 0 ≤ len ∧ len ≤ kMaxLength ∧ data.head? = some (byte ':') then
    if data.length < 1 + len.toNat then .error .outOfBounds
    else
      let s := (data.drop 1).take len.toNat
      return (some ⟨s, (List.length_take_le _ _).trans (Int.toNat_le.mpr h.2.1)⟩, data.drop (1 + len.toNat))
  else return (none, data)

mutual

/-- `_be_decode`, in so many turns of its loops and levels of its recursion. -/
def beDecode : Nat → Chars → Except Fault (Option BeNode × Chars)
  | 0, _ => .error .unfinished
  | turns + 1, data => do
      let c ← peek data
      if c = byte 'l' then do
        let (l, data) ← beDecodeItems turns [] (data.drop 1)
        return (l.map .list, data)
      else if c = byte 'd' then do
        let (d, data) ← beDecodeEntries turns [] (data.drop 1)
        return (d.map .dict, data)
      else if c = byte 'i' then do
        let (i, data) ← beDecodeInt (data.drop 1)
        let c ← peek data
        if c ≠ byte 'e' then return (none, data)
        else return (some (.int (.ofInt i)), data.drop 1)
      else if isDigit c then do
        let (s, data) ← beDecodeStr data
        return (some (.str s), data)
      else return (none, data)

/-- The loop over the elements of a list. -/
def beDecodeItems : Nat → List BeNode → Chars → Except Fault (Option (List BeNode) × Chars)
  | 0, _, _ => .error .unfinished
  | turns + 1, l, data => do
      let c ← peek data
      if c = byte 'e' then return (some l, data.drop 1)
      else do
        let (n, data) ← beDecode turns data
        match n with
        | none => do
            beFree (.list l)
            return (none, data)
        | some n => beDecodeItems turns (l ++ [n]) data

/-- The loop over the entries of a dictionary. -/
def beDecodeEntries : Nat → List (BeStr × BeNode) → Chars → Except Fault (Option (List (BeStr × BeNode)) × Chars)
  | 0, _, _ => .error .unfinished
  | turns + 1, d, data => do
      let c ← peek data
      if c = byte 'e' then return (some d, data.drop 1)
      else do
        let (key, data) ← beDecodeStr data
        match key with
        | none => do
            beFree (.dict d)
            return (none, data)
        | some key => do
            let (n, data) ← beDecode turns data
            match n with
            | none => do
                beFree (.dict d)
                return (none, data)
            | some n => beDecodeEntries turns (d ++ [(key, n)]) data

end

/-! ### What the decoder takes -/

theorem beDecode_dict {turns : Nat} {data rest : Chars} {d : List (BeStr × BeNode)}
    (h : beDecodeEntries turns [] data = .ok (some d, rest)) :
    beDecode (turns + 1) (byte 'd' :: data) = .ok (some (.dict d), rest) := by
  rw [beDecode, peek, ok_bind, if_neg (by decide), if_pos rfl, List.drop_one, List.tail_cons, h]
  rfl

theorem beDecode_int {turns : Nat} {data rest : Chars} {i : Int} (h : beDecodeInt data = .ok (i, byte 'e' :: rest)) :
    beDecode (turns + 1) (byte 'i' :: data) = .ok (some (.int (.ofInt i)), rest) := by
  rw [beDecode, peek, ok_bind, if_neg (by decide), if_neg (by decide), if_pos rfl, List.drop_one, List.tail_cons, h]
  rfl

theorem beDecodeEntries_end (turns : Nat) (d : List (BeStr × BeNode)) (data : Chars) :
    beDecodeEntries (turns + 1) d (byte 'e' :: data) = .ok (some d, data) := by
  rw [beDecodeEntries, peek, ok_bind, if_pos rfl]
  rfl

theorem beDecodeEntries_entry {turns : Nat} {d : List (BeStr × BeNode)} {c : UInt8} {data behind rest : Chars}
    {key : BeStr} {n : BeNode} (hc : c ≠ byte 'e') (hkey : beDecodeStr (c :: data) = .ok (some key, behind))
    (hn : beDecode turns behind = .ok (some n, rest)) :
    beDecodeEntries (turns + 1) d (c :: data) = beDecodeEntries turns (d ++ [(key, n)]) rest := by
  rw [beDecodeEntries, peek, ok_bind, if_neg hc, hkey, ok_bind]
  dsimp only
  rw [hn, ok_bind]

end Thebends.Ypeer
