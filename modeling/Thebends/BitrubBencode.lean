import Mathlib.Order.Basic
import Thebends.BitrubString
import Thebends.LibLoop

/-! Bencoding (`bencode.rb`): the values, the encoder, and the decoders, each of which is an object with the value
that it has read and the position behind it. A decoder recurses as deep as the interpreter's stack allows and its
loops may come back to where they were; both are bounds of the decoder here. -/

namespace Thebends.Bitrub

open LibDecimal LibExcept LibLoop

/-- The values that can be encoded. The entries of a hash are in no order that matters. -/
inductive Value
  | integer (n : Int)
  | string (s : Bytes)
  | list (items : List Value)
  | hash (entries : List (Bytes × Value))

namespace Value

/-- One rule for lists and hashes: what holds of their elements may be used. -/
theorem induct {motive : Value → Prop} (integer : ∀ n, motive (.integer n)) (string : ∀ s, motive (.string s))
    (list : ∀ items, (∀ item ∈ items, motive item) → motive (.list items))
    (hash : ∀ entries, (∀ entry ∈ entries, motive entry.2) → motive (.hash entries)) (value : Value) : motive value :=
  @Value.rec motive (fun items => ∀ item ∈ items, motive item) (fun entries => ∀ entry ∈ entries, motive entry.2)
    (fun entry => motive entry.2)
    integer string list hash (fun _ h => nomatch h)
    (fun _ _ hitem hitems => List.forall_mem_cons.mpr ⟨hitem, hitems⟩) (fun _ h => nomatch h)
    (fun _ _ hentry hentries => List.forall_mem_cons.mpr ⟨hentry, hentries⟩) (fun _ _ hvalue => hvalue) value

/-- The keys of each hash are distinct. -/
inductive Proper : Value → Prop
  | integer (n : Int) : Proper (.integer n)
  | string (s : Bytes) : Proper (.string s)
  | list {items : List Value} : (∀ item ∈ items, item.Proper) → Proper (.list items)
  | hash {entries : List (Bytes × Value)} : (entries.map Prod.fst).Nodup → (∀ entry ∈ entries, entry.2.Proper) →
      Proper (.hash entries)

mutual

/-- `==`. Two hashes are equal where they have as many entries, and each entry of the one is, under its key, in the
other. -/
def Same : Value → Value → Prop
  | .integer m, .integer n => m = n
  | .string s, .string t => s = t
  | .list items, .list others => SameItems items others
  | .hash entries, .hash others => entries.length = others.length ∧ SameEntries entries others
  | _, _ => False

def SameItems : List Value → List Value → Prop
  | [], [] => True
  | item :: items, other :: others => Same item other ∧ SameItems items others
  | _, _ => False

def SameEntries : List (Bytes × Value) → List (Bytes × Value) → Prop
  | [], _ => True
  | (key, value) :: entries, others => (∃ other, others.lookup key = some other ∧ Same value other) ∧ SameEntries entries others

end

end Value

/-! ### Encoding -/

/-- `EncodeString`. -/
def encodeString (s : Bytes) : Bytes := toS s.length ++ byte ':' :: s

/-- Strings are compared byte by byte. -/
def keyLe (key key' : Bytes) : Bool := key ≤ key'

mutual

/-- `bencode`, with `EncodeInt`, `EncodeList` and `EncodeDict`. -/
def bencode : Value → Bytes
  | .integer n => byte 'i' :: toS n ++ [byte 'e']
  | .string s => encodeString s
  | .list items => byte 'l' :: (bencodeItems items).flatten ++ [byte 'e']
  | .hash entries =>
      let encoded := bencodeEntries entries
      byte 'd' :: ((encoded.map Prod.fst).mergeSort keyLe).flatMap
        (fun key => encodeString key ++ (encoded.lookup key).getD []) ++ [byte 'e']

def bencodeItems : List Value → List Bytes
  | [] => []
  | item :: items => bencode item :: bencodeItems items

/-- The code for `x[key]`, under each key. -/
def bencodeEntries : List (Bytes × Value) → List (Bytes × Bytes)
  | [] => []
  | (key, value) :: entries => (key, bencode value) :: bencodeEntries entries

end

/-! ### Decoding -/

inductive Failure
  | argumentError
  /-- A method of `nil`. -/
  | noMethodError
  | systemStackError
  /-- Not an error: a loop has not come to its end in the turns that it was given. -/
  | unfinished
  deriving DecidableEq, Repr

/-- `x[f].chr`. -/
def chr (x : Bytes) (f : Int) : Except Failure UInt8 :=
  match byteAt x f with
  | none => .error .noMethodError
  | some c => .ok c

/-- `DecodeInt`. -/
def decodeInt (x : Bytes) (f : Int) : Except Failure (Value × Int) :=
  match index x (byte 'e') (f + 1) with
  | none => .error .argumentError
  | some newf =>
      if newf = f + 1 then .error .argumentError
      else do
        let c ← chr x (f + 1)
        if c = byte '-' then
          let c ← chr x (f + 1 + 1)
          if c = byte '0' then .error .argumentError
          else .ok (.integer (toI (slice x (f + 1) (newf - 1))), newf + 1)
        else if c = byte '0' ∧ newf ≠ f + 1 + 1 then .error .argumentError
        else .ok (.integer (toI (slice x (f + 1) (newf - 1))), newf + 1)

/-- `DecodeString`. -/
def decodeString (x : Bytes) (f : Int) : Except Failure (Bytes × Int) :=
  match index x (byte ':') f with
  | none => .error .argumentError
  | some colon => do
      let n := toI (slice x f colon)
      let c ← chr x f
      if c = byte '0' ∧ colon ≠ f + 1 then .error .argumentError
      else .ok (slice x (colon + 1) (colon + 1 + n - 1), colon + 1 + n)

/-- The loops of `DecodeList` and `DecodeDict`: until an `e`, whatever comes before a value, and a value. -/
def readUntilE {κ α : Type} (decode : Int → Except Failure (Value × Int)) (before : Int → Except Failure (κ × Int))
    (add : α → κ → Value → α) (x : Bytes) : Nat → α → Int → Except Failure (α × Int)
  | 0, _, _ => .error .unfinished
  | turns + 1, r, f => do
      let c ← chr x f
      if c = byte 'e' then .ok (r, f)
      else do
        let (key, num) ← before f
        let (value, num) ← decode num
        readUntilE decode before add x turns (add r key value) num

/-- The loop of `DecodeList`: nothing comes before an item. -/
def readItems (decode : Int → Except Failure (Value × Int)) (x : Bytes) :
    Nat → List Value → Int → Except Failure (List Value × Int) :=
  readUntilE decode (fun f => .ok ((), f)) (fun r _ value => r ++ [value]) x

/-- `r[key] = value`. -/
def store (r : List (Bytes × Value)) (key : Bytes) (value : Value) : List (Bytes × Value) :=
  if key ∈ r.map Prod.fst then r.map fun entry => if entry.1 = key then (key, value) else entry
  else r ++ [(key, value)]

/-- The loop of `DecodeDict`: a key comes before a value. -/
def readEntries (decode : Int → Except Failure (Value × Int)) (x : Bytes) :
    Nat → List (Bytes × Value) → Int → Except Failure (List (Bytes × Value) × Int) :=
  readUntilE decode (decodeString x) store x

/-- `$decode[x[f].chr].new(x, f)`, with room for so many decoders on the stack, and so many turns for a loop. -/
def decode (x : Bytes) (turns : Nat) : Nat → Int → Except Failure (Value × Int)
  | 0, _ => .error .systemStackError
  | levels + 1, f => do
      let c ← chr x f
      if c = byte 'l' then do
        let (r, f) ← readItems (decode x turns levels) x turns [] (f + 1)
        .ok (.list r, f + 1)
      else if c = byte 'd' then do
        let (r, f) ← readEntries (decode x turns levels) x turns [] (f + 1)
        .ok (.hash r, f + 1)
      else if c = byte 'i' then decodeInt x f
      else if isDigit c then do
        let (result, num) ← decodeString x f
        .ok (.string result, num)
      else .error .noMethodError

theorem chr_eq_ok_iff {x : Bytes} {f : Int} {c : UInt8} : chr x f = .ok c ↔ byteAt x f = some c := by
  rw [chr]
  cases byteAt x f with
  | none => exact ⟨(fun h => nomatch h), (fun h => nomatch h)⟩
  | some d => exact ⟨fun h => congrArg some (Except.ok.inj h), fun h => congrArg Except.ok (Option.some.inj h)⟩

/-- A list is decoded by its loop. -/
theorem decode_list {x : Bytes} {f : Int} (h : byteAt x f = some (byte 'l')) (turns levels : Nat) :
    decode x turns (levels + 1) f = (do
      let (r, f) ← readItems (decode x turns levels) x turns [] (f + 1)
      .ok (.list r, f + 1)) := by
  rw [decode, chr_eq_ok_iff.mpr h, ok_bind, if_pos rfl]

theorem decode_hash {x : Bytes} {f : Int} (h : byteAt x f = some (byte 'd')) (turns levels : Nat) :
    decode x turns (levels + 1) f = (do
      let (r, f) ← readEntries (decode x turns levels) x turns [] (f + 1)
      .ok (.hash r, f + 1)) := by
  rw [decode, chr_eq_ok_iff.mpr h, ok_bind, if_neg (by decide), if_pos rfl]

/-- `bdecode`; each of the errors is a `StandardError`, so that it is rescued. -/
def bdecode (turns levels : Nat) (x : Bytes) : Except Failure Value :=
  match decode x turns levels 0 with
  | .error .unfinished => .error .unfinished
  | .error _ => .error .argumentError
  | .ok (result, num) => if num ≠ x.length then .error .argumentError else .ok result

/-- What `bdecode` does where the stack is large enough. -/
def Returns (x : Bytes) (result : Except Failure Value) : Prop :=
  Finished .unfinished result ∧ ∃ least, ∀ levels, least ≤ levels → ∃ turns, bdecode turns levels x = result

end Thebends.Bitrub
