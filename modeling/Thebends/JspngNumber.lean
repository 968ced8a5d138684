import Mathlib.Algebra.Order.Group.Nat
import Mathlib.Algebra.Ring.Int.Defs
import Thebends.LibNetOrder

/-! Numbers and arrays as the PNG encoder uses them (`uint.js`). A number is an integer here; an operator on its
bits takes it to 32 bits first, and gives a signed number, apart from `>>>`, which gives an unsigned one. -/

namespace Thebends.Jspng

open LibNetOrder

abbrev Number := Int

abbrev Bytes := List UInt8

/-- The 32 bits of a number. -/
def bits (a : Number) : BitVec 32 := .ofInt 32 a

/-- `a & b`. -/
def bitAnd (a b : Number) : Number := (bits a &&& bits b).toInt

/-- `a | b`. -/
def bitOr (a b : Number) : Number := (bits a ||| bits b).toInt

/-- `a ^ b`. -/
def bitXor (a b : Number) : Number := (bits a ^^^ bits b).toInt

/-- `~a`. -/
def bitNot (a : Number) : Number := (~~~bits a).toInt

/-- `a << count`. -/
def shiftLeft (a : Number) (count : Nat) : Number := (bits a <<< count).toInt

/-- `a >> count`. -/
def shiftRight (a : Number) (count : Nat) : Number := ((bits a).sshiftRight count).toInt

/-- `a >>> count`. -/
def shiftRightZero (a : Number) (count : Nat) : Number := (bits a >>> count).toNat

/-- `data.splice(start, deleteCount, ...items)`. -/
def splice (data : List Number) (start deleteCount : Nat) (items : List Number) : List Number :=
  data.take start ++ items ++ data.drop (start + deleteCount)

/-- `data.slice(start, stop)`. -/
def slice (data : List Number) (start stop : Nat) : List Number := (data.take stop).drop start

/-- `data[index] = value`. A zero stands for what is not there before the index; the encoder overwrites it before
it is read. -/
def setAt (data : List Number) (index : Nat) (value : Number) : List Number :=
  if index < data.length then data.set index value
  else data ++ List.replicate (index - data.length) 0 ++ [value]

/-- `new uint32(b).appendToArray(data)`. -/
def uint32 (b : Number) (data : List Number) : Except String (List Number) :=
  if b < 0 ∨ b > 2 ^ 32 then .error ("out of range: " ++ toString b)
  else .ok (splice data data.length 0
    [bitAnd (shiftRight b 24) 0xff, bitAnd (shiftRight b 16) 0xff, bitAnd (shiftRight b 8) 0xff, bitAnd b 0xff])

/-- The numbers of an array of bytes. -/
def numbers (bytes : Bytes) : List Number := bytes.map fun byte => (byte.toNat : Int)

/-! ### Bits -/

theorem bits_toInt (x : BitVec 32) : bits x.toInt = x := BitVec.ofInt_toInt

theorem bits_natCast (n : Nat) : bits n = .ofNat 32 n := BitVec.ofInt_natCast 32 n

theorem bits_bitAnd (a b : Number) : bits (bitAnd a b) = bits a &&& bits b := bits_toInt _

theorem bits_bitXor (a b : Number) : bits (bitXor a b) = bits a ^^^ bits b := bits_toInt _

theorem bits_shiftRightZero (a : Number) (count : Nat) : bits (shiftRightZero a count) = bits a >>> count := by
  rw [shiftRightZero, bits_natCast, BitVec.ofNat_toNat, BitVec.setWidth_eq]

theorem bits_shiftRight (a : Number) (count : Nat) : bits (shiftRight a count) = (bits a).sshiftRight count := bits_toInt _

/-- A number without the sign bit is that of its bits. -/
theorem toInt_of_lt {x : BitVec 32} (h : x.toNat < 2 ^ 31) : x.toInt = x.toNat := BitVec.toInt_eq_toNat_of_lt (by omega)

theorem toNat_and_mask (x : BitVec 32) (count : Nat) (hcount : count ≤ 32) :
    (x &&& .ofNat 32 (2 ^ count - 1)).toNat = x.toNat % 2 ^ count := by
  have hpow : 2 ^ count ≤ 2 ^ 32 := Nat.pow_le_pow_right (by decide) hcount
  have hpos := Nat.two_pow_pos count
  rw [BitVec.toNat_and, BitVec.toNat_ofNat, Nat.mod_eq_of_lt (by omega), Nat.and_two_pow_sub_one_eq_mod]

/-- The lowest byte of what is shifted by at most three bytes, whichever of the shifts is taken. -/
theorem bitAnd_shiftRight (n count : Nat) (hcount : count ≤ 24) (hn : n < 2 ^ 32) :
    bitAnd (shiftRight n count) 0xff = (UInt8.ofNat (n / 2 ^ count)).toNat := by
  have hmask : bits 0xff = .ofNat 32 (2 ^ 8 - 1) := rfl
  have hbits : (bits n).sshiftRight count &&& bits 0xff = (bits n >>> count) &&& bits 0xff := by
    apply BitVec.eq_of_getLsbD_eq
    intro i hi
    rw [BitVec.getLsbD_and, BitVec.getLsbD_and]
    by_cases hlow : i < 8
    · rw [BitVec.getLsbD_sshiftRight, BitVec.getLsbD_ushiftRight, if_pos (by omega : count + i < 32)]
      simp [Nat.not_le.mpr hi]
    · have hzero : (bits 0xff).getLsbD i = false := by
        rw [hmask, BitVec.getLsbD_ofNat, Nat.testBit_two_pow_sub_one, decide_eq_false hlow, Bool.and_false]
      rw [hzero, Bool.and_false, Bool.and_false]
  have hvalue : (bits n >>> count &&& bits 0xff).toNat = n / 2 ^ count % 2 ^ 8 := by
    rw [hmask, toNat_and_mask _ 8 (by decide), BitVec.toNat_ushiftRight, bits_natCast, BitVec.toNat_ofNat,
      Nat.mod_eq_of_lt hn, Nat.shiftRight_eq_div_pow]
  rw [bitAnd, bits_shiftRight, hbits, toInt_of_lt, hvalue, UInt8.toNat_ofNat']
  rw [hvalue]
  omega

theorem bitAnd_byte (n : Nat) (hn : n < 2 ^ 32) : bitAnd n 0xff = (UInt8.ofNat n).toNat := by
  have h := bitAnd_shiftRight n 0 (by decide) hn
  rw [Nat.pow_zero, Nat.div_one] at h
  rw [← h, bitAnd, bitAnd, bits_shiftRight, BitVec.sshiftRight_zero]

/-- A byte of a number, masked before it is shifted. -/
theorem shiftRight_bitAnd {n : Nat} (hn : n < 2 ^ 31) (count : Nat) (hcount : count ≤ 24) :
    shiftRight (bitAnd n ((0xff * 2 ^ count : Nat) : Int)) count = (UInt8.ofNat (n / 2 ^ count)).toNat := by
  have hpow : 2 ^ count ≤ 2 ^ 24 := Nat.pow_le_pow_right (by decide) hcount
  have hmasked : (bits n &&& bits ((0xff * 2 ^ count : Nat) : Int)).toNat = n &&& 0xff * 2 ^ count := by
    rw [bits_natCast, bits_natCast, BitVec.toNat_and, BitVec.toNat_ofNat, BitVec.toNat_ofNat,
      Nat.mod_eq_of_lt (by omega), Nat.mod_eq_of_lt (by omega)]
  have hle : n &&& 0xff * 2 ^ count ≤ n := Nat.and_le_left
  have hsign : (bits n &&& bits ((0xff * 2 ^ count : Nat) : Int)).msb = false := by
    rw [BitVec.msb_eq_decide, hmasked]
    exact decide_eq_false (by omega)
  have hshifted : (0xff * 2 ^ count) >>> count = 2 ^ 8 - 1 := by
    exact (Nat.shiftRight_eq_div_pow _ _).trans (Nat.mul_div_cancel 0xff (Nat.two_pow_pos count))
  have hvalue : ((bits n &&& bits ((0xff * 2 ^ count : Nat) : Int)) >>> count).toNat = n / 2 ^ count % 2 ^ 8 := by
    rw [BitVec.toNat_ushiftRight, hmasked, Nat.shiftRight_and_distrib, hshifted, Nat.and_two_pow_sub_one_eq_mod,
      Nat.shiftRight_eq_div_pow]
  rw [shiftRight, bits_bitAnd, BitVec.sshiftRight_eq_of_msb_false hsign, toInt_of_lt, hvalue, UInt8.toNat_ofNat']
  rw [hvalue]
  omega

/-! ### Four bytes in network order -/

theorem toNetwork_four (n : Nat) : toNetwork 4 n =
    [UInt8.ofNat (n / 2 ^ 24), UInt8.ofNat (n / 2 ^ 16), UInt8.ofNat (n / 2 ^ 8), UInt8.ofNat n] := by
  have hfirst : n / 2 ^ 24 = n / 256 / 256 / 256 := by omega
  have hsecond : n / 2 ^ 16 = n / 256 / 256 := by omega
  rw [hfirst, hsecond]
  rfl

theorem splice_length (data : List Number) (deleteCount : Nat) (items : List Number) :
    splice data data.length deleteCount items = data ++ items := by
  rw [splice, List.take_length, List.drop_eq_nil_of_le (Nat.le_add_right _ _), List.append_nil]

/-- **A `uint32` in range is appended in network order.** -/
theorem uint32_ok {n : Nat} (h : n < 2 ^ 32) (data : List Number) :
    uint32 n data = .ok (data ++ numbers (toNetwork 4 n)) := by
  have hrange : ¬((n : Int) < 0 ∨ (n : Int) > 2 ^ 32) := by omega
  rw [uint32, if_neg hrange, splice_length, bitAnd_shiftRight n 24 (by decide) h, bitAnd_shiftRight n 16 (by decide) h,
    bitAnd_shiftRight n 8 (by decide) h, bitAnd_byte n h, toNetwork_four]
  rfl

theorem numbers_append (left right : Bytes) : numbers (left ++ right) = numbers left ++ numbers right :=
  List.map_append

theorem length_numbers (bytes : Bytes) : (numbers bytes).length = bytes.length := List.length_map ..

end Thebends.Jspng
