/-! Cyclic redundancy checks in their reflected form, for any polynomial: the remainder bit by bit, and several bits
at a time from the remainder of the lowest bits alone. -/

namespace Thebends.LibCrc

variable {w : Nat} (poly : BitVec w)

/-- The remainder after one more bit, which has been added to the lowest bit of `c`. -/
def shiftOne (c : BitVec w) : BitVec w := if c.getLsbD 0 then poly ^^^ (c >>> 1) else c >>> 1

def shiftMany : Nat → BitVec w → BitVec w
  | 0, c => c
  | count + 1, c => shiftMany count (shiftOne poly c)

/-- The remainder after a byte, the lowest bit of it first. -/
def feed (c : BitVec w) (byte : UInt8) : BitVec w := shiftMany poly 8 (c ^^^ byte.toBitVec.setWidth w)

/-- The check of a string of bytes, from the remainder of all ones and complemented. -/
def crc (bytes : List UInt8) : BitVec w := ~~~bytes.foldl (feed poly) (.allOnes w)

/-- The remainder after a single bit. -/
def feedBit (c : BitVec w) (bit : Bool) : BitVec w := shiftOne poly (c ^^^ (BitVec.ofBool bit).setWidth w)

/-- The bits of a byte, the lowest first. -/
def bitsOf (byte : UInt8) : List Bool := (List.range 8).map byte.toBitVec.getLsbD

/-- The check of a string of bits, bit by bit. -/
def crcOfBits (bits : List Bool) : BitVec w := ~~~bits.foldl (feedBit poly) (.allOnes w)

theorem shiftOne_xor (c d : BitVec w) : shiftOne poly (c ^^^ d) = shiftOne poly c ^^^ shiftOne poly d := by
  rw [shiftOne, shiftOne, shiftOne, BitVec.getLsbD_xor, BitVec.ushiftRight_xor_distrib]
  cases c.getLsbD 0 <;> cases d.getLsbD 0
  · rfl
  · show poly ^^^ (c >>> 1 ^^^ d >>> 1) = c >>> 1 ^^^ (poly ^^^ d >>> 1)
    ac_rfl
  · show poly ^^^ (c >>> 1 ^^^ d >>> 1) = (poly ^^^ c >>> 1) ^^^ d >>> 1
    ac_rfl
  · show c >>> 1 ^^^ d >>> 1 = (poly ^^^ c >>> 1) ^^^ (poly ^^^ d >>> 1)
    calc c >>> 1 ^^^ d >>> 1 = (poly ^^^ poly) ^^^ (c >>> 1 ^^^ d >>> 1) := by rw [BitVec.xor_self, BitVec.zero_xor]
      _ = (poly ^^^ c >>> 1) ^^^ (poly ^^^ d >>> 1) := by ac_rfl

theorem shiftMany_xor (count : Nat) (c d : BitVec w) :
    shiftMany poly count (c ^^^ d) = shiftMany poly count c ^^^ shiftMany poly count d := by
  induction count generalizing c d with
  | zero => rfl
  | succ count ih => rw [shiftMany, shiftOne_xor, ih, shiftMany, shiftMany]

/-- Zeros are shifted out without the polynomial. -/
theorem shiftMany_of_zeros {count : Nat} {c : BitVec w} (h : ∀ i < count, c.getLsbD i = false) :
    shiftMany poly count c = c >>> count := by
  induction count generalizing c with
  | zero => rw [shiftMany, BitVec.ushiftRight_zero]
  | succ count ih =>
      have hlow : shiftOne poly c = c >>> 1 := by
        rw [shiftOne, h 0 (Nat.succ_pos count)]
        rfl
      have hrest : ∀ i < count, (c >>> 1).getLsbD i = false := by
        intro i hi
        rw [BitVec.getLsbD_ushiftRight]
        exact h (1 + i) (by omega)
      rw [shiftMany, hlow, ih hrest, ← BitVec.shiftRight_add, Nat.add_comm]

/-- What is added to the lowest bits may as well be added when its bit is the lowest. -/
theorem shiftMany_xor_eq {count : Nat} {x : BitVec w} (hx : ∀ i, count ≤ i → x.getLsbD i = false) (c : BitVec w) :
    shiftMany poly count (c ^^^ x) = ((List.range count).map x.getLsbD).foldl (feedBit poly) c := by
  induction count generalizing x c with
  | zero =>
      have hzero : x = 0#w := BitVec.eq_of_getLsbD_eq fun i _ => by rw [hx i (Nat.zero_le i), BitVec.getLsbD_zero]
      rw [shiftMany, hzero, BitVec.xor_zero]
      rfl
  | succ count ih =>
      have hlow : ∀ i, ((BitVec.ofBool (x.getLsbD 0)).setWidth w).getLsbD i = (decide (i = 0) && x.getLsbD 0) := by
        intro i
        rw [BitVec.getLsbD_setWidth, BitVec.getLsbD_ofBool]
        by_cases hi : i = 0
        · by_cases hw : i < w
          · rw [decide_eq_true hw, Bool.true_and]
          · rw [decide_eq_false hw, BitVec.getLsbD_of_ge x 0 (by omega), Bool.false_and, Bool.and_false]
        · rw [decide_eq_false hi, Bool.false_and, Bool.and_false]
      have hhigh : (x ^^^ (BitVec.ofBool (x.getLsbD 0)).setWidth w).getLsbD 0 = false := by
        rw [BitVec.getLsbD_xor, hlow, decide_eq_true rfl, Bool.true_and, Bool.xor_self]
      have hrest : (x ^^^ (BitVec.ofBool (x.getLsbD 0)).setWidth w) >>> 1 = x >>> 1 := by
        apply BitVec.eq_of_getLsbD_eq
        intro i _
        rw [BitVec.getLsbD_ushiftRight, BitVec.getLsbD_ushiftRight, BitVec.getLsbD_xor, hlow,
          decide_eq_false (by omega), Bool.false_and, Bool.xor_false]
      have hsplit : c ^^^ x = (c ^^^ (BitVec.ofBool (x.getLsbD 0)).setWidth w) ^^^
          (x ^^^ (BitVec.ofBool (x.getLsbD 0)).setWidth w) := by
        rw [BitVec.xor_comm x, BitVec.xor_assoc, ← BitVec.xor_assoc _ _ x, BitVec.xor_self, BitVec.zero_xor]
      have hshift : shiftOne poly (x ^^^ (BitVec.ofBool (x.getLsbD 0)).setWidth w) = x >>> 1 := by
        rw [shiftOne, hhigh, hrest]
        rfl
      have hbits : (x >>> 1).getLsbD = fun i => x.getLsbD (i + 1) := by
        funext i
        rw [BitVec.getLsbD_ushiftRight, Nat.add_comm]
      rw [shiftMany, hsplit, shiftOne_xor, hshift, ih (x := x >>> 1), List.range_succ_eq_map, List.map_cons, List.map_map,
        List.foldl_cons, hbits]
      · rfl
      · intro i hi
        rw [hbits]
        exact hx (i + 1) (Nat.succ_le_succ hi)

/-- **A byte is its bits**, where there is room for them. -/
theorem feed_eq (hw : 8 ≤ w) (c : BitVec w) (byte : UInt8) : feed poly c byte = (bitsOf byte).foldl (feedBit poly) c := by
  have hhigh : ∀ i, 8 ≤ i → (byte.toBitVec.setWidth w).getLsbD i = false := by
    intro i hi
    rw [BitVec.getLsbD_setWidth, BitVec.getLsbD_of_ge byte.toBitVec i hi, Bool.and_false]
  have hlow : (List.range 8).map (byte.toBitVec.setWidth w).getLsbD = bitsOf byte := by
    apply List.map_congr_left
    intro i hi
    have hlt : i < w := Nat.lt_of_lt_of_le (List.mem_range.mp hi) hw
    rw [BitVec.getLsbD_setWidth, decide_eq_true hlt, Bool.true_and]
  rw [feed, shiftMany_xor_eq poly hhigh, hlow]

theorem crc_eq (hw : 8 ≤ w) (bytes : List UInt8) : crc poly bytes = crcOfBits poly (bytes.flatMap bitsOf) := by
  have hall : ∀ c : BitVec w, bytes.foldl (feed poly) c = (bytes.flatMap bitsOf).foldl (feedBit poly) c := by
    induction bytes with
    | nil => exact fun c => rfl
    | cons byte bytes ih =>
        intro c
        rw [List.foldl_cons, List.flatMap_cons, List.foldl_append, feed_eq poly hw, ih]
  rw [crc, crcOfBits, hall]

/-- The lowest bits. -/
def low (count : Nat) (c : BitVec w) : BitVec w := (c.setWidth count).setWidth w

/-- **Several bits at a time.** The lowest bits alone decide by what the rest, moved down, is changed. -/
theorem shiftMany_eq (count : Nat) (c : BitVec w) :
    shiftMany poly count c = shiftMany poly count (low count c) ^^^ (c >>> count) := by
  have hsplit : c = low count c ^^^ (c ^^^ low count c) := by
    rw [BitVec.xor_comm c, ← BitVec.xor_assoc, BitVec.xor_self, BitVec.zero_xor]
  have hbit : ∀ i, (low count c).getLsbD i = (decide (i < count) && c.getLsbD i) := by
    intro i
    rw [low, BitVec.getLsbD_setWidth, BitVec.getLsbD_setWidth]
    by_cases hi : i < w
    · rw [decide_eq_true hi, Bool.true_and]
    · rw [BitVec.getLsbD_of_ge c i (Nat.le_of_not_lt hi), Bool.and_false, Bool.and_false]
  have hzeros : ∀ i < count, (c ^^^ low count c).getLsbD i = false := by
    intro i hi
    rw [BitVec.getLsbD_xor, hbit, decide_eq_true hi, Bool.true_and, Bool.xor_self]
  have hhigh : (c ^^^ low count c) >>> count = c >>> count := by
    apply BitVec.eq_of_getLsbD_eq
    intro i _
    rw [BitVec.getLsbD_ushiftRight, BitVec.getLsbD_ushiftRight, BitVec.getLsbD_xor, hbit,
      decide_eq_false (Nat.not_lt_of_le (Nat.le_add_right count i)), Bool.false_and, Bool.xor_false]
  calc shiftMany poly count c = shiftMany poly count (low count c ^^^ (c ^^^ low count c)) := by rw [← hsplit]
    _ = shiftMany poly count (low count c) ^^^ (c ^^^ low count c) >>> count := by
        rw [shiftMany_xor, shiftMany_of_zeros poly hzeros]
    _ = shiftMany poly count (low count c) ^^^ (c >>> count) := by rw [hhigh]

end Thebends.LibCrc
