import Mathlib.Data.Nat.Digits.Defs
import Mathlib.Data.Nat.Digits.Lemmas
import Thebends.MidiRoundTrip

/-! `Buffer` with all its bytes and its position (`buffer.cc` of midlib), and the quantities that `ReadVar` reads from
it. Positions are indices into memory, so that adding a count to one does not wrap. -/

namespace Thebends.Midi

open Buffer

/-- `Buffer`, with `data_` up to `len_` and `pos_`. -/
structure PositionedBuffer where
  data : Bytes
  pos : Nat
  pos_le : pos ≤ data.length

namespace PositionedBuffer

/-- `Read(buf, count)`; no result is `false`, which leaves the buffer as it is. -/
def read (count : Nat) (b : PositionedBuffer) : Option (Bytes × PositionedBuffer) :=
  if h : b.pos + count > b.data.length then none
  else some ((b.data.drop b.pos).take count, ⟨b.data, b.pos + count, Nat.le_of_not_lt h⟩)

/-- The loop of `ReadVar`, with `v` and `numcount`: what is returned, `*value` and the buffer. -/
def readVarLoop (numcount : Nat) (v : UInt32) (b : PositionedBuffer) : Bool × UInt32 × PositionedBuffer :=
  if numcount ≤ 4 then
    match b.read 1 with
    | none => (false, 0, b)
    | some (bytes, b) =>
        let c := bytes.headD 0
        if c &&& 0x80 = 0x80 then readVarLoop (numcount + 1) ((v <<< 7) + c.toUInt32 - 0x80) b
        else (true, (v <<< 7) + c.toUInt32, b)
  else (true, v, b)
termination_by 5 - numcount

/-- `ReadVar`. -/
def readVar (b : PositionedBuffer) : Bool × UInt32 × PositionedBuffer := readVarLoop 0 0 b

/-- A buffer of which some bytes have been read, and the others not. -/
def between (before rest : Bytes) : PositionedBuffer where
  data := before ++ rest
  pos := before.length
  pos_le := List.length_append ▸ Nat.le_add_right _ _

theorem read_nil (before : Bytes) : (between before []).read 1 = none := by
  rw [read, dif_pos]
  simp [between]

theorem read_cons (before : Bytes) (c : UInt8) (rest : Bytes) :
    (between before (c :: rest)).read 1 = some ([c], between (before ++ [c]) rest) := by
  have hwithin : ¬(between before (c :: rest)).pos + 1 > (between before (c :: rest)).data.length := by
    simp [between]
  rw [read, dif_neg hwithin]
  simp [between]

section

variable {numcount : Nat} (v : UInt32) (before : Bytes)

theorem readVarLoop_nil (h : numcount ≤ 4) : readVarLoop numcount v (between before []) = (false, 0, between before []) := by
  rw [readVarLoop, if_pos h, read_nil]

theorem readVarLoop_cons (h : numcount ≤ 4) (c : UInt8) (rest : Bytes) :
    readVarLoop numcount v (between before (c :: rest)) =
      if c &&& 0x80 = 0x80 then readVarLoop (numcount + 1) ((v <<< 7) + c.toUInt32 - 0x80) (between (before ++ [c]) rest)
      else (true, (v <<< 7) + c.toUInt32, between (before ++ [c]) rest) := by
  rw [readVarLoop, if_pos h, read_cons]
  rfl

theorem readVarLoop_end (rest : Bytes) : readVarLoop 5 v (between before rest) = (true, v, between before rest) := by
  rw [readVarLoop, if_neg (by decide)]

end

/-- The loop reads what the parser of the events does, and moves the position over it. -/
theorem readVarLoop_eq {rest : Bytes} {k numcount : Nat} (hcount : numcount + k = 5) (v : UInt32) (before : Bytes) :
    readVarLoop numcount v (between before rest) = match readVarFrom k v rest with
      | .ok (value, left) => (true, value, between (before ++ rest.take (rest.length - left.length)) left)
      | .error _ => (false, 0, between (before ++ rest) []) := by
  induction rest generalizing k numcount v before with
  | nil =>
      cases k with
      | zero =>
          obtain rfl : numcount = 5 := hcount
          rw [readVarLoop_end, readVarFrom]
          simp
      | succ k =>
          rw [readVarLoop_nil v before (by omega), readVarFrom]
          simp
  | cons c rest ih =>
      cases k with
      | zero =>
          obtain rfl : numcount = 5 := hcount
          rw [readVarLoop_end, readVarFrom]
          simp
      | succ k =>
          have hnext : numcount + 1 + k = 5 := by omega
          rw [readVarLoop_cons v before (by omega), readVarFrom]
          by_cases hhigh : c &&& 0x80 = 0x80
          · rw [if_pos hhigh, if_pos hhigh, ih hnext]
            cases hrest : readVarFrom k ((v <<< 7) + c.toUInt32 - 0x80) rest with
            | error failure => simp
            | ok result =>
                obtain ⟨value, left⟩ := result
                have hleft := readVarFrom_length hrest
                have htaken : (c :: rest).take ((c :: rest).length - left.length) =
                    c :: rest.take (rest.length - left.length) := by
                  rw [List.length_cons, Nat.succ_sub hleft, List.take_succ_cons]
                simp only [htaken, List.append_assoc, List.singleton_append]
          · rw [if_neg hhigh, if_neg hhigh]
            simp

theorem readVar_eq (before rest : Bytes) : (between before rest).readVar = match Buffer.readVar rest with
    | .ok (value, left) => (true, value, between (before ++ rest.take (rest.length - left.length)) left)
    | .error _ => (false, 0, between (before ++ rest) []) :=
  readVarLoop_eq rfl 0 before

end PositionedBuffer

/-! ### The standard encoding -/

/-- The bytes before the last one of a number: seven bits each, and the high bit. -/
def continuation (n : Nat) : Bytes := (Nat.digits 128 n).reverse.map fun digit => .ofNat (0x80 + digit)

/-- The standard encoding of a number: seven bits in a byte, the most significant first, and the high bit in all but
the last. -/
def encodeVar (n : Nat) : Bytes := continuation (n / 128) ++ [.ofNat (n % 128)]

theorem le_of_mem_continuation {n : Nat} {c : UInt8} (h : c ∈ continuation n) : 0x80 ≤ c := by
  obtain ⟨digit, hdigit, rfl⟩ := List.mem_map.mp h
  have hlt : digit < 128 := Nat.digits_lt_base (by decide) (List.mem_reverse.mp hdigit)
  rw [UInt8.le_iff_toNat_le, UInt8.toNat_ofNat']
  show 128 ≤ (128 + digit) % 256
  omega

theorem continuation_length_le {n k : Nat} (h : n < 128 ^ k) : (continuation n).length ≤ k := by
  rw [continuation, List.length_map, List.length_reverse]
  exact (Nat.digits_length_le_iff (by decide) n).mpr h

theorem last_lt (n : Nat) : UInt8.ofNat (n % 128) < 0x80 := by
  rw [UInt8.lt_iff_toNat_lt, UInt8.toNat_ofNat']
  show n % 128 % 256 < 128
  omega

theorem foldl_continuation (n : Nat) : (continuation n).foldl (fun value c => value * 128 + c.toNat % 128) 0 = n := by
  have hdigit : ∀ digit ∈ Nat.digits 128 n, (UInt8.ofNat (0x80 + digit)).toNat % 128 = digit := by
    intro digit hmem
    have hlt : digit < 128 := Nat.digits_lt_base (by decide) hmem
    rw [UInt8.toNat_ofNat']
    omega
  calc
    (continuation n).foldl (fun value c => value * 128 + c.toNat % 128) 0
        = (Nat.digits 128 n).foldr (fun digit value => value * 128 + (UInt8.ofNat (0x80 + digit)).toNat % 128) 0 := by
      rw [continuation, List.foldl_map, List.foldl_reverse]
    _ = (Nat.digits 128 n).foldr (fun digit value => digit + 128 * value) 0 := by
      refine List.foldr_ext _ _ _ fun digit hmem value => ?_
      rw [hdigit digit hmem]
      omega
    _ = Nat.ofDigits 128 (Nat.digits 128 n) := (Nat.ofDigits_eq_foldr 128 _).symm
    _ = n := Nat.ofDigits_digits 128 n

/-- As a quantity of at most four bytes. -/
def VarInt.ofNat (n : Nat) (h : n < 2 ^ 28) : VarInt where
  continuation := Midi.continuation (n / 128)
  last := .ofNat (n % 128)
  length_le := continuation_length_le (by omega)
  continues := fun _ hmem => le_of_mem_continuation hmem
  stops := last_lt n

theorem VarInt.value_ofNat {n : Nat} (h : n < 2 ^ 28) : (VarInt.ofNat n h).value = n := by
  rw [value, VarInt.bytes, VarInt.ofNat, List.foldl_append, foldl_continuation, List.foldl_cons, List.foldl_nil,
    UInt8.toNat_ofNat']
  omega

/-- A buffer that ends behind bytes with the high bit. -/
theorem readVarFrom_continues {start : Bytes} {numcount : Nat} (h : ∀ c ∈ start, 0x80 ≤ c) (hcount : start.length < numcount)
    (v : UInt32) : readVarFrom numcount v start = .error .rejected := by
  induction start generalizing numcount v with
  | nil =>
      obtain ⟨numcount, rfl⟩ := Nat.exists_eq_succ_of_ne_zero hcount.ne'
      rfl
  | cons c start ih =>
      obtain ⟨numcount, rfl⟩ := Nat.exists_eq_succ_of_ne_zero (Nat.zero_lt_of_lt hcount).ne'
      obtain ⟨hc, hstart⟩ := List.forall_mem_cons.mp h
      rw [readVarFrom, if_pos ((and_high_iff c).mpr hc)]
      exact ih hstart (Nat.lt_of_succ_lt_succ hcount) _

/-- What lies in front of the end of an encoding has the high bit everywhere. -/
theorem of_prefix_encodeVar {n : Nat} {start : Bytes} (h : n < 2 ^ 28) (hinside : start <+: encodeVar n)
    (hne : start ≠ encodeVar n) : (∀ c ∈ start, 0x80 ≤ c) ∧ start.length < 5 := by
  have hshort : start <+: continuation (n / 128) := (List.prefix_concat_iff.mp hinside).resolve_left hne
  have hlength : (continuation (n / 128)).length ≤ 3 := continuation_length_le (by omega)
  refine ⟨fun c hmem => le_of_mem_continuation (hshort.subset hmem), ?_⟩
  exact (hshort.length_le.trans hlength).trans_lt (by decide)

open PositionedBuffer in
/-- **`ReadVar` reads the standard encoding** of a number below `2 ^ 28`, wherever it stands in a buffer and whatever
follows, and stops behind it; it fails where the buffer ends inside the encoding. -/
theorem readVar_encodeVar {n : Nat} (h : n < 2 ^ 28) (before : Bytes) :
    (∀ after, (between before (encodeVar n ++ after)).readVar = (true, .ofNat n, between (before ++ encodeVar n) after)) ∧
    ∀ start, start <+: encodeVar n → start ≠ encodeVar n → (between before start).readVar.1 = false := by
  constructor
  · intro after
    have hread : Buffer.readVar (encodeVar n ++ after) = .ok (.ofNat n, after) := by
      have hbytes := readVar_bytes (VarInt.ofNat n h) after
      rwa [VarInt.value_ofNat h] at hbytes
    rw [readVar_eq, hread]
    simp
  · intro start hinside hne
    obtain ⟨hhigh, hlength⟩ := of_prefix_encodeVar h hinside hne
    rw [readVar_eq, Buffer.readVar, readVarFrom_continues hhigh hlength]

open PositionedBuffer in
/-- The greatest number, behind a byte. -/
theorem readVar_encodeVar_greatest : 2 ^ 28 - 1 < 2 ^ 28 ∧ encodeVar (2 ^ 28 - 1) = [0xff, 0xff, 0xff, 0x7f] ∧
    (∀ after, (between [1] (encodeVar (2 ^ 28 - 1) ++ after)).readVar =
      (true, .ofNat (2 ^ 28 - 1), between ([1] ++ encodeVar (2 ^ 28 - 1)) after)) ∧
    ∀ start, start <+: encodeVar (2 ^ 28 - 1) → start ≠ encodeVar (2 ^ 28 - 1) →
      (between [1] start).readVar.1 = false :=
  ⟨by decide, by simp [encodeVar, continuation], readVar_encodeVar (by decide) [1]⟩

end Thebends.Midi
