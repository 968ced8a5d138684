import Thebends.JspngNumber
import Thebends.LibCrc

/-! The CRC of a chunk (`crc.js`), a byte at a time by a table. -/

namespace Thebends.Jspng

open LibCrc

/-- The entry of the table for `n`, after eight rounds. -/
def tableEntry (n : Number) : Number :=
  (List.range 8).foldl (fun c _ =>
    if bitAnd c 1 ≠ 0 then bitXor 0xedb88320 (shiftRightZero c 1) else shiftRightZero c 1) n

def table : List Number := (List.range 256).map fun n : Nat => tableEntry n

/-- `update_crc`; an index into the table is never outside of it. -/
def updateCrc (buf : List Number) : Number :=
  buf.foldl (fun c b => bitXor (table.getD (bitAnd (bitXor c b) 0xff).toNat 0) (shiftRightZero c 8)) (shiftRight (-1) 0)

/-- `crc.compute`. -/
def compute (buf : List Number) : Number :=
  shiftRightZero (bitXor (shiftRightZero (updateCrc buf) 0) (shiftRightZero (-1) 0)) 0

/-- The polynomial of CRC-32, reflected. -/
def crc32Poly : BitVec 32 := 0xedb88320

/-- The CRC-32 of bytes. -/
def crc32 (bytes : Bytes) : Nat := (crc crc32Poly bytes).toNat

theorem crc32_lt (bytes : Bytes) : crc32 bytes < 2 ^ 32 := BitVec.isLt _

/-- A round is a single bit of the remainder. -/
theorem bits_round (c : Number) :
    bits (if bitAnd c 1 ≠ 0 then bitXor 0xedb88320 (shiftRightZero c 1) else shiftRightZero c 1) =
      shiftOne crc32Poly (bits c) := by
  have hlow : bitAnd c 1 ≠ 0 ↔ (bits c).getLsbD 0 = true := by
    rw [bitAnd, show bits 1 = 1#32 from rfl, BitVec.and_one_eq_setWidth_ofBool_getLsbD]
    cases (bits c).getLsbD 0 <;> decide
  rw [shiftOne]
  by_cases h : (bits c).getLsbD 0 = true
  · rw [if_pos (hlow.mpr h), if_pos h, bits_bitXor, bits_shiftRightZero]
    rfl
  · rw [if_neg (fun hne => h (hlow.mp hne)), if_neg h, bits_shiftRightZero]

theorem bits_tableEntry (n : Number) : bits (tableEntry n) = shiftMany crc32Poly 8 (bits n) := by
  have hrounds : ∀ (rounds : List Nat) (c : Number), bits (rounds.foldl (fun c _ =>
      if bitAnd c 1 ≠ 0 then bitXor 0xedb88320 (shiftRightZero c 1) else shiftRightZero c 1) c) =
        shiftMany crc32Poly rounds.length (bits c) := by
    intro rounds
    induction rounds with
    | nil => exact fun c => rfl
    | cons round rounds ih =>
        intro c
        rw [List.foldl_cons, ih, bits_round]
        rfl
  exact hrounds (List.range 8) n

/-- The entry for the lowest byte of a remainder. -/
theorem bits_table (c : Number) :
    bits (table.getD (bitAnd c 0xff).toNat 0) = shiftMany crc32Poly 8 (low 8 (bits c)) := by
  have hmask : (bits c &&& bits 0xff).toNat = (bits c).toNat % 2 ^ 8 := toNat_and_mask _ 8 (by decide)
  have hindex : (bitAnd c 0xff).toNat = (bits c).toNat % 2 ^ 8 := by
    rw [bitAnd, toInt_of_lt, Int.toNat_natCast, hmask]
    rw [hmask]
    omega
  have hlow : low 8 (bits c) = .ofNat 32 ((bits c).toNat % 2 ^ 8) := by
    apply BitVec.eq_of_toNat_eq
    rw [low, BitVec.toNat_setWidth, BitVec.toNat_setWidth, BitVec.toNat_ofNat]
  have hentry : table.getD ((bits c).toNat % 2 ^ 8) 0 = tableEntry ((bits c).toNat % 2 ^ 8 : Nat) := by
    rw [table, List.getD_eq_getElem?_getD, List.getElem?_map, List.getElem?_range (by omega)]
    rfl
  rw [hindex, hentry, bits_tableEntry, bits_natCast, hlow]

/-- A byte by the table is a byte bit by bit. -/
theorem bits_step (c : Number) (byte : UInt8) :
    bits (bitXor (table.getD (bitAnd (bitXor c byte.toNat) 0xff).toNat 0) (shiftRightZero c 8)) =
      feed crc32Poly (bits c) byte := by
  have hbyte : bits (byte.toNat : Int) = byte.toBitVec.setWidth 32 := by
    rw [bits_natCast]
    apply BitVec.eq_of_toNat_eq
    rw [BitVec.toNat_ofNat, BitVec.toNat_setWidth]
    rfl
  have hhigh : byte.toBitVec.setWidth 32 >>> 8 = 0#32 := by
    apply BitVec.eq_of_toNat_eq
    have hlt := byte.toNat_lt
    rw [BitVec.toNat_ushiftRight, BitVec.toNat_setWidth, Nat.shiftRight_eq_div_pow]
    show byte.toNat % 2 ^ 32 / 2 ^ 8 = 0
    omega
  rw [feed, shiftMany_eq, bits_bitXor, bits_table, bits_shiftRightZero, bits_bitXor, hbyte,
    BitVec.ushiftRight_xor_distrib, hhigh, BitVec.xor_zero]

/-- **The table-driven CRC is CRC-32.** -/
theorem compute_numbers (bytes : Bytes) : compute (numbers bytes) = crc32 bytes := by
  have hall : ∀ c : Number, bits ((numbers bytes).foldl (fun c b =>
      bitXor (table.getD (bitAnd (bitXor c b) 0xff).toNat 0) (shiftRightZero c 8)) c) =
        bytes.foldl (feed crc32Poly) (bits c) := by
    induction bytes with
    | nil => exact fun c => rfl
    | cons byte bytes ih =>
        intro c
        rw [numbers, List.map_cons, List.foldl_cons, List.foldl_cons, ← bits_step]
        exact ih _
  have hremainder : bits (updateCrc (numbers bytes)) = bytes.foldl (feed crc32Poly) (.allOnes 32) := hall _
  rw [compute, shiftRightZero, bits_bitXor, bits_shiftRightZero, bits_shiftRightZero, hremainder,
    BitVec.ushiftRight_zero, BitVec.ushiftRight_zero, BitVec.ushiftRight_zero, crc32, crc,
    show bits (-1) = .allOnes 32 from rfl, BitVec.xor_allOnes]

/-- **`compute` is CRC-32, bit by bit**, as an unsigned number. -/
theorem compute_bit_by_bit (bytes : Bytes) :
    compute (numbers bytes) = (crcOfBits crc32Poly (bytes.flatMap bitsOf)).toNat ∧
      0 ≤ compute (numbers bytes) ∧ compute (numbers bytes) < 2 ^ 32 := by
  have hcrc := compute_numbers bytes
  have hlt := crc32_lt bytes
  have hbits : crc32 bytes = (crcOfBits crc32Poly (bytes.flatMap bitsOf)).toNat := by
    rw [crc32, crc_eq crc32Poly (by decide)]
  rw [hcrc]
  exact ⟨congrArg _ hbits, Int.natCast_nonneg _, by exact_mod_cast hlt⟩

end Thebends.Jspng
