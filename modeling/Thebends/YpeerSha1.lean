import Mathlib.Data.List.GetD
import Thebends.LibBlocks
import Thebends.LibNetOrder

/-! The SHA-1 class of ypeer (`sha1.h`, `sha1.cpp`), with all its members, and the Secure Hashing Standard it
implements: how a message is padded to blocks of 512 bits, and what a block does to the five words of the digest. -/

namespace Thebends.Ypeer

open LibBlocks LibNetOrder

/-- `unsigned`. -/
abbrev Word := BitVec 32

/-- The message digest buffers `H`, or the word buffers of a block. -/
structure Buffers where
  A : Word
  B : Word
  C : Word
  D : Word
  E : Word
  deriving DecidableEq

/-- The members of the class. -/
structure SHA1 where
  h : Buffers
  lengthLow : Word
  lengthHigh : Word
  messageBlock : Vector UInt8 64
  messageBlockIndex : Nat
  computed : Bool
  corrupted : Bool

namespace SHA1

def circularShift (bits : Nat) (word : Word) : Word :=
  ((word <<< bits) &&& 0xFFFFFFFF) ||| ((word &&& 0xFFFFFFFF) >>> (32 - bits))

/-! ### ProcessMessageBlock -/

/-- One of the first 16 words in the array `W`. -/
def word (block : List UInt8) (t : Nat) : Word :=
  (block.getD (t * 4) 0).toBitVec.setWidth 32 <<< 24 ||| (block.getD (t * 4 + 1) 0).toBitVec.setWidth 32 <<< 16 |||
    (block.getD (t * 4 + 2) 0).toBitVec.setWidth 32 <<< 8 ||| (block.getD (t * 4 + 3) 0).toBitVec.setWidth 32

/-- The next word in the array. -/
def nextWord (words : List Word) (t : Nat) : Word :=
  circularShift 1 (words.getD (t - 3) 0 ^^^ words.getD (t - 8) 0 ^^^ words.getD (t - 14) 0 ^^^ words.getD (t - 16) 0)

/-- The array `W`. -/
def words (block : List UInt8) : List Word :=
  (List.range' 16 64).foldl (fun w t => w ++ [nextWord w t]) ((List.range 16).map (word block))

/-- The body of the four loops over the words, with the function and the constant of the loop. -/
def round (f : Word → Word → Word → Word) (k : Word) (w : List Word) (buffers : Buffers) (t : Nat) : Buffers where
  A := (circularShift 5 buffers.A + f buffers.B buffers.C buffers.D + buffers.E + w.getD t 0 + k) &&& 0xFFFFFFFF
  B := buffers.A
  C := circularShift 30 buffers.B
  D := buffers.C
  E := buffers.D

/-- The word buffers after the four loops. -/
def loops (h : Buffers) (w : List Word) : Buffers :=
  let first := (List.range' 0 20).foldl (round (fun B C D => (B &&& C) ||| (~~~B &&& D)) 0x5A827999 w) h
  let second := (List.range' 20 20).foldl (round (fun B C D => B ^^^ C ^^^ D) 0x6ED9EBA1 w) first
  let third := (List.range' 40 20).foldl
    (round (fun B C D => (B &&& C) ||| (B &&& D) ||| (C &&& D)) 0x8F1BBCDC w) second
  (List.range' 60 20).foldl (round (fun B C D => B ^^^ C ^^^ D) 0xCA62C1D6 w) third

/-- What `ProcessMessageBlock` makes of `H`. -/
def processBlock (h : Buffers) (block : List UInt8) : Buffers :=
  let buffers := loops h (words block)
  { A := (h.A + buffers.A) &&& 0xFFFFFFFF
    B := (h.B + buffers.B) &&& 0xFFFFFFFF
    C := (h.C + buffers.C) &&& 0xFFFFFFFF
    D := (h.D + buffers.D) &&& 0xFFFFFFFF
    E := (h.E + buffers.E) &&& 0xFFFFFFFF }

def processMessageBlock (s : SHA1) : SHA1 :=
  { s with h := processBlock s.h s.messageBlock.toList, messageBlockIndex := 0 }

/-! ### The other members -/

/-- `Reset`, which leaves the block as it is. -/
def reset (s : SHA1) : SHA1 where
  h := ⟨0x67452301, 0xEFCDAB89, 0x98BADCFE, 0x10325476, 0xC3D2E1F0⟩
  lengthLow := 0
  lengthHigh := 0
  messageBlock := s.messageBlock
  messageBlockIndex := 0
  computed := false
  corrupted := false

/-- `Message_Block[Message_Block_Index++] = byte`. -/
def put (s : SHA1) (byte : UInt8) : SHA1 :=
  { s with
    messageBlock := s.messageBlock.setIfInBounds s.messageBlockIndex byte
    messageBlockIndex := s.messageBlockIndex + 1 }

/-- The loops that fill the block with zeros. -/
def fill (limit : Nat) (s : SHA1) : SHA1 :=
  (List.range (limit - s.messageBlockIndex)).foldl (fun before _ => before.put 0) s

/-- A byte of a length. -/
def lengthByte (length : Word) (shift : Nat) : UInt8 := .ofBitVec (((length >>> shift) &&& 0xFF).setWidth 8)

/-- The message length as the last 8 octets of the block. -/
def storeLength (s : SHA1) : SHA1 :=
  { s with
    messageBlock :=
      (((((((s.messageBlock.setIfInBounds 56 (lengthByte s.lengthHigh 24)).setIfInBounds 57
        (lengthByte s.lengthHigh 16)).setIfInBounds 58 (lengthByte s.lengthHigh 8)).setIfInBounds 59
        (lengthByte s.lengthHigh 0)).setIfInBounds 60 (lengthByte s.lengthLow 24)).setIfInBounds 61
        (lengthByte s.lengthLow 16)).setIfInBounds 62 (lengthByte s.lengthLow 8)).setIfInBounds 63
        (lengthByte s.lengthLow 0) }

def padMessage (s : SHA1) : SHA1 :=
  let padded := if s.messageBlockIndex > 55 then fill 56 (fill 64 (s.put 0x80)).processMessageBlock
    else fill 56 (s.put 0x80)
  padded.storeLength.processMessageBlock

/-- `Result`: the digest, unless the message is corrupted. -/
def result (s : SHA1) : Option Buffers × SHA1 :=
  if s.corrupted then (none, s)
  else
    let after := if s.computed then s else { s.padMessage with computed := true }
    (some after.h, after)

/-- The count of the bits of one more byte. -/
def countByte (s : SHA1) : SHA1 :=
  { s with
    lengthLow := s.lengthLow + 8
    lengthHigh := if s.lengthLow + 8 = 0 then s.lengthHigh + 1 else s.lengthHigh
    corrupted := s.corrupted || (s.lengthLow + 8 = 0 && s.lengthHigh + 1 = 0) }

/-- The body of the loop of `Input`. -/
def takeByte (s : SHA1) (byte : UInt8) : SHA1 :=
  let after := (s.put byte).countByte
  if after.messageBlockIndex = 64 then after.processMessageBlock else after

/-- The loop of `Input`. -/
def takeBytes : SHA1 → List UInt8 → SHA1
  | s, [] => s
  | s, byte :: bytes => if s.corrupted then s else takeBytes (s.takeByte byte) bytes

/-- `Input` of an array. -/
def input (s : SHA1) (message : List UInt8) : SHA1 :=
  if message = [] then s
  else if s.computed || s.corrupted then { s with corrupted := true }
  else s.takeBytes message

/-- `operator<<` of a C string, which passes on each character before the first `NUL`. -/
def shiftLeft (s : SHA1) (string : List UInt8) : SHA1 :=
  (string.takeWhile (· ≠ 0)).foldl (fun before byte => before.input [byte]) s

end SHA1

/-! ### The standard -/

namespace Standard

/-- The functions of the 80 steps. -/
def f (t : Nat) (B C D : Word) : Word :=
  if t < 20 then (B &&& C) ||| (~~~B &&& D)
  else if t < 40 then B ^^^ C ^^^ D
  else if t < 60 then (B &&& C) ||| (B &&& D) ||| (C &&& D)
  else B ^^^ C ^^^ D

/-- The constants of the 80 steps. -/
def k (t : Nat) : Word :=
  if t < 20 then 0x5A827999 else if t < 40 then 0x6ED9EBA1 else if t < 60 then 0x8F1BBCDC else 0xCA62C1D6

/-- The words of the 80 steps: first those of the block, then each from four of those before it. -/
def w (block : List UInt8) (t : Nat) : Word :=
  if t < 16 then .ofNat 32 (ofNetwork ((block.drop (4 * t)).take 4))
  else (w block (t - 3) ^^^ w block (t - 8) ^^^ w block (t - 14) ^^^ w block (t - 16)).rotateLeft 1
  termination_by t

/-- The word buffers after some of the steps. -/
def steps (h : Buffers) (block : List UInt8) : Nat → Buffers
  | 0 => h
  | t + 1 =>
      let before := steps h block t
      { A := before.A.rotateLeft 5 + f t before.B before.C before.D + before.E + w block t + k t
        B := before.A
        C := before.B.rotateLeft 30
        D := before.C
        E := before.D }

/-- What a block does to the digest. -/
def compress (h : Buffers) (block : List UInt8) : Buffers :=
  let after := steps h block 80
  ⟨h.A + after.A, h.B + after.B, h.C + after.C, h.D + after.D, h.E + after.E⟩

/-- The digest before the first block. -/
def start : Buffers := ⟨0x67452301, 0xEFCDAB89, 0x98BADCFE, 0x10325476, 0xC3D2E1F0⟩

/-- What is put behind a message of so many bytes: one bit, as many zeros as it takes, and its length in bits. -/
def padding (length : Nat) : List UInt8 :=
  0x80 :: List.replicate ((119 - length % 64) % 64) 0 ++ toNetwork 8 (8 * length)

/-- The digest of a message. -/
def digest (message : List UInt8) : Buffers :=
  (blocks 64 (message ++ padding message.length)).foldl compress start

theorem length_padding (length : Nat) : 64 ∣ length + (padding length).length := by
  simp only [padding, List.length_append, List.length_cons, List.length_replicate, length_toNetwork]
  omega

end Standard

/-! ### The class computes the standard's function of a block -/

namespace SHA1

theorem and_mask (word : Word) : word &&& 0xFFFFFFFF = word := BitVec.and_allOnes

theorem circularShift_eq {bits : Nat} (h : bits < 32) (word : Word) : circularShift bits word = word.rotateLeft bits := by
  rw [circularShift, and_mask, and_mask, BitVec.rotateLeft_def, Nat.mod_eq_of_lt h]

/-- Four bytes put together by shifts, as a number. -/
theorem or_shifts (b₀ b₁ b₂ b₃ : UInt8) :
    b₀.toBitVec.setWidth 32 <<< 24 ||| b₁.toBitVec.setWidth 32 <<< 16 ||| b₂.toBitVec.setWidth 32 <<< 8 |||
      b₃.toBitVec.setWidth 32 = BitVec.ofNat 32 (ofNetwork [b₀, b₁, b₂, b₃]) := by
  have hbytes : ofNetwork [b₀, b₁, b₂, b₃] = ((b₀.toNat * 256 + b₁.toNat) * 256 + b₂.toNat) * 256 + b₃.toNat := by
    simp [ofNetwork]
  have hbyte : ∀ b : UInt8, b.toNat % 2 ^ 32 = b.toNat := fun b => Nat.mod_eq_of_lt (b.toNat_lt.trans (by decide))
  have hshift : ∀ (b : UInt8) (count : Nat), count ≤ 24 → b.toNat <<< count % 2 ^ 32 = b.toNat <<< count := by
    intro b count hcount
    apply Nat.mod_eq_of_lt
    have hpow : 2 ^ count ≤ 2 ^ 24 := Nat.pow_le_pow_right (by decide) hcount
    have hmul := Nat.mul_le_mul_left b.toNat hpow
    have hlt := b.toNat_lt
    rw [Nat.shiftLeft_eq]
    omega
  apply BitVec.eq_of_toNat_eq
  simp only [BitVec.toNat_or, BitVec.toNat_shiftLeft, BitVec.toNat_setWidth, UInt8.toNat_toBitVec, hbyte]
  rw [hshift b₀ 24 (by decide), hshift b₁ 16 (by decide), hshift b₂ 8 (by decide),
    or_bytes b₁.toNat_lt b₂.toNat_lt b₃.toNat_lt, hbytes, BitVec.toNat_ofNat, Nat.mod_eq_of_lt]
  have h₀ := b₀.toNat_lt
  have h₁ := b₁.toNat_lt
  have h₂ := b₂.toNat_lt
  have h₃ := b₃.toNat_lt
  omega

theorem word_eq {block : List UInt8} (hblock : block.length = 64) {t : Nat} (ht : t < 16) :
    word block t = Standard.w block t := by
  have hbytes : (block.drop (4 * t)).take 4 =
      [block.getD (t * 4) 0, block.getD (t * 4 + 1) 0, block.getD (t * 4 + 2) 0, block.getD (t * 4 + 3) 0] := by
    have hget : ∀ i (hi : i < block.length), block.getD i 0 = block[i] := fun i hi => List.getD_eq_getElem _ _ hi
    rw [hget (t * 4) (by omega), hget (t * 4 + 1) (by omega), hget (t * 4 + 2) (by omega), hget (t * 4 + 3) (by omega),
      Nat.mul_comm 4 t, List.drop_eq_getElem_cons (by omega), List.drop_eq_getElem_cons (by omega),
      List.drop_eq_getElem_cons (by omega), List.drop_eq_getElem_cons (by omega)]
    rfl
  rw [Standard.w, if_pos ht, hbytes, ← or_shifts, word]

theorem nextWord_eq (block : List UInt8) {t : Nat} (ht : 16 ≤ t) :
    nextWord ((List.range t).map (Standard.w block)) t = Standard.w block t := by
  have hearlier : ∀ back, 0 < back → back ≤ 16 →
      ((List.range t).map (Standard.w block)).getD (t - back) 0 = Standard.w block (t - back) := by
    intro back hpos hback
    rw [List.getD_eq_getElem _ _ (by rw [List.length_map, List.length_range]; omega)]
    simp
  rw [nextWord, hearlier 3, hearlier 8, hearlier 14, hearlier 16, circularShift_eq (by decide)]
  · rw [Standard.w.eq_def block t, if_neg (by omega)]
  all_goals decide

/-- The array `W` holds the words of the standard. -/
theorem words_eq {block : List UInt8} (hblock : block.length = 64) :
    words block = (List.range 80).map (Standard.w block) := by
  have hprefix : ∀ count, (List.range' 16 count).foldl (fun w t => w ++ [nextWord w t]) ((List.range 16).map (word block)) =
      (List.range (16 + count)).map (Standard.w block) := by
    intro count
    induction count with
    | zero => exact List.map_congr_left fun t ht => word_eq hblock (List.mem_range.mp ht)
    | succ count ih =>
        rw [List.range'_concat, List.foldl_append, ih, Nat.one_mul, ← Nat.add_assoc, List.range_succ, List.map_append,
          List.foldl_cons, nextWord_eq block (Nat.le_add_right 16 count)]
        rfl
  exact hprefix 64

/-- The function and the constant of a step are those of its loop. -/
theorem same_loop {first t : Nat} (hfirst : first ∈ [0, 20, 40, 60]) (hle : first ≤ t) (hlt : t < first + 20) :
    Standard.f t = Standard.f first ∧ Standard.k t = Standard.k first := by
  have h₂₀ : t < 20 ↔ first < 20 := by grind
  have h₄₀ : t < 40 ↔ first < 40 := by grind
  have h₆₀ : t < 60 ↔ first < 60 := by grind
  constructor
  · funext B C D
    simp only [Standard.f, h₂₀, h₄₀, h₆₀]
  · simp only [Standard.k, h₂₀, h₄₀, h₆₀]

/-- One of the four loops makes twenty steps of the standard. -/
theorem foldl_round {first : Nat} (hfirst : first ∈ [0, 20, 40, 60]) (block : List UInt8) (h : Buffers) :
    (List.range' first 20).foldl (round (Standard.f first) (Standard.k first) ((List.range 80).map (Standard.w block)))
      (Standard.steps h block first) = Standard.steps h block (first + 20) := by
  have hpart : ∀ count, count ≤ 20 → (List.range' first count).foldl
      (round (Standard.f first) (Standard.k first) ((List.range 80).map (Standard.w block)))
      (Standard.steps h block first) = Standard.steps h block (first + count) := by
    intro count hcount
    induction count with
    | zero => rfl
    | succ count ih =>
        obtain ⟨hf, hk⟩ := same_loop hfirst (Nat.le_add_right first count) (by omega)
        have hw : ((List.range 80).map (Standard.w block)).getD (first + count) 0 = Standard.w block (first + count) := by
          rw [List.getD_eq_getElem _ _ (by rw [List.length_map, List.length_range]; grind)]
          simp
        rw [List.range'_concat, List.foldl_append, ih (by omega), Nat.one_mul, ← Nat.add_assoc, Standard.steps, hf, hk]
        simp only [List.foldl_cons, List.foldl_nil, round, and_mask, hw, circularShift_eq (by decide : 5 < 32),
          circularShift_eq (by decide : 30 < 32)]
  exact hpart 20 le_rfl

theorem loops_eq {block : List UInt8} (hblock : block.length = 64) (h : Buffers) :
    loops h (words block) = Standard.steps h block 80 := by
  rw [← foldl_round (by decide : 60 ∈ [0, 20, 40, 60]), ← foldl_round (by decide : 40 ∈ [0, 20, 40, 60]),
    ← foldl_round (by decide : 20 ∈ [0, 20, 40, 60]), ← foldl_round (by decide : 0 ∈ [0, 20, 40, 60]), words_eq hblock]
  rfl

/-- **The loops of `ProcessMessageBlock` are the function of the standard.** -/
theorem processBlock_eq {block : List UInt8} (hblock : block.length = 64) (h : Buffers) :
    processBlock h block = Standard.compress h block := by
  simp only [processBlock, Standard.compress, loops_eq hblock, and_mask]

end SHA1

end Thebends.Ypeer
