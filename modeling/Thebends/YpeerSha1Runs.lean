import Thebends.YpeerSha1

/-! What a SHA-1 object answers after any calls of its members, and what two messages with the same answer have in
common. Between the calls the object has absorbed the message so far, and `Corrupted` is set by exactly two things:
more input after an answer, and a message of 2^64 bits. -/

namespace Thebends.Ypeer

open LibBlocks LibNetOrder

attribute [local irreducible] Standard.compress

namespace SHA1

/-! ### The message block -/

/-- The octets in the block so far. -/
def pending (s : SHA1) : List UInt8 := s.messageBlock.toList.take s.messageBlockIndex

theorem length_pending {s : SHA1} (h : s.messageBlockIndex ≤ 64) : s.pending.length = s.messageBlockIndex := by
  rw [pending, List.length_take, Vector.length_toList, Nat.min_eq_left h]

theorem take_succ_set {l : List UInt8} {i : Nat} (h : i < l.length) (byte : UInt8) :
    (l.set i byte).take (i + 1) = l.take i ++ [byte] := by
  rw [List.take_succ_eq_append_getElem (by rwa [List.length_set]), List.getElem_set_self, List.take_set_of_le le_rfl]

theorem pending_put {s : SHA1} (h : s.messageBlockIndex < 64) (byte : UInt8) :
    (s.put byte).pending = s.pending ++ [byte] := by
  rw [pending, put, Vector.toList_setIfInBounds]
  exact take_succ_set (by rwa [Vector.length_toList]) byte

/-! ### What the members leave alone -/

@[simp] theorem put_h (s : SHA1) (byte : UInt8) : (s.put byte).h = s.h := by cases s; rfl

@[simp] theorem put_lengthLow (s : SHA1) (byte : UInt8) : (s.put byte).lengthLow = s.lengthLow := by cases s; rfl

@[simp] theorem put_lengthHigh (s : SHA1) (byte : UInt8) : (s.put byte).lengthHigh = s.lengthHigh := by cases s; rfl

@[simp] theorem put_computed (s : SHA1) (byte : UInt8) : (s.put byte).computed = s.computed := by cases s; rfl

@[simp] theorem put_corrupted (s : SHA1) (byte : UInt8) : (s.put byte).corrupted = s.corrupted := by cases s; rfl

@[simp] theorem put_messageBlockIndex (s : SHA1) (byte : UInt8) :
    (s.put byte).messageBlockIndex = s.messageBlockIndex + 1 := by cases s; rfl

@[simp] theorem processMessageBlock_h (s : SHA1) :
    s.processMessageBlock.h = Standard.compress s.h s.messageBlock.toList := by
  rw [← processBlock_eq (Vector.length_toList ..), processMessageBlock]

@[simp] theorem processMessageBlock_lengthLow (s : SHA1) : s.processMessageBlock.lengthLow = s.lengthLow := by
  cases s; rfl

@[simp] theorem processMessageBlock_lengthHigh (s : SHA1) : s.processMessageBlock.lengthHigh = s.lengthHigh := by
  cases s; rfl

@[simp] theorem processMessageBlock_computed (s : SHA1) : s.processMessageBlock.computed = s.computed := by
  cases s; rfl

@[simp] theorem processMessageBlock_corrupted (s : SHA1) : s.processMessageBlock.corrupted = s.corrupted := by
  cases s; rfl

@[simp] theorem processMessageBlock_messageBlockIndex (s : SHA1) : s.processMessageBlock.messageBlockIndex = 0 := by
  cases s; rfl

@[simp] theorem processMessageBlock_pending (s : SHA1) : s.processMessageBlock.pending = [] := by
  rw [pending, processMessageBlock_messageBlockIndex, List.take_zero]

@[simp] theorem storeLength_h (s : SHA1) : s.storeLength.h = s.h := by cases s; rfl

@[simp] theorem storeLength_corrupted (s : SHA1) : s.storeLength.corrupted = s.corrupted := by cases s; rfl

@[simp] theorem countByte_h (s : SHA1) : s.countByte.h = s.h := by cases s; rfl

@[simp] theorem countByte_messageBlock (s : SHA1) : s.countByte.messageBlock = s.messageBlock := by cases s; rfl

@[simp] theorem countByte_messageBlockIndex (s : SHA1) : s.countByte.messageBlockIndex = s.messageBlockIndex := by
  cases s; rfl

@[simp] theorem countByte_computed (s : SHA1) : s.countByte.computed = s.computed := by cases s; rfl

/-! ### Padding -/

/-- What the loops that fill the block leave alone, and what they put into it. -/
structure Filled (limit : Nat) (s after : SHA1) : Prop where
  h : after.h = s.h
  lengthLow : after.lengthLow = s.lengthLow
  lengthHigh : after.lengthHigh = s.lengthHigh
  corrupted : after.corrupted = s.corrupted
  index : after.messageBlockIndex = limit
  pending : after.pending = s.pending ++ List.replicate (limit - s.messageBlockIndex) 0

theorem filled_fill {s : SHA1} {limit : Nat} (hlimit : limit ≤ 64) (h : s.messageBlockIndex ≤ limit) :
    Filled limit s (fill limit s) := by
  have hpart : ∀ count, s.messageBlockIndex + count ≤ limit →
      Filled (s.messageBlockIndex + count) s ((List.range count).foldl (fun before _ => before.put 0) s) := by
    intro count
    induction count with
    | zero =>
        intro _
        exact ⟨rfl, rfl, rfl, rfl, rfl, by simp⟩
    | succ count ih =>
        intro hcount
        have hbefore := ih (by omega)
        rw [List.range_succ, List.foldl_append, List.foldl_cons, List.foldl_nil]
        generalize (List.range count).foldl (fun before _ => before.put 0) s = before at hbefore ⊢
        refine ⟨?_, ?_, ?_, ?_, ?_, ?_⟩
        · rw [put_h, hbefore.h]
        · rw [put_lengthLow, hbefore.lengthLow]
        · rw [put_lengthHigh, hbefore.lengthHigh]
        · rw [put_corrupted, hbefore.corrupted]
        · rw [put_messageBlockIndex, hbefore.index, Nat.add_assoc]
        · rw [pending_put (by rw [hbefore.index]; omega), hbefore.pending, List.append_assoc, ← List.replicate_succ']
          congr 2
          omega
  have hall := hpart (limit - s.messageBlockIndex) (by omega)
  rwa [Nat.add_sub_cancel' h] at hall

theorem lengthByte_eq (length : Word) (shift : Nat) : lengthByte length shift = UInt8.ofNat (length.toNat / 2 ^ shift) := by
  have hand : (length.toNat >>> shift) &&& 255 = length.toNat >>> shift % 256 := Nat.and_two_pow_sub_one_eq_mod _ 8
  apply UInt8.toNat_inj.mp
  rw [UInt8.toNat_ofNat', ← Nat.shiftRight_eq_div_pow, lengthByte, UInt8.toNat_ofBitVec, BitVec.toNat_setWidth,
    BitVec.toNat_and, BitVec.toNat_ushiftRight, show (0xFF : Word).toNat = 255 from rfl, hand, Nat.mod_mod]

/-- The length of the message in network order. -/
theorem lengthBytes_eq (high low : Word) :
    [lengthByte high 24, lengthByte high 16, lengthByte high 8, lengthByte high 0, lengthByte low 24,
      lengthByte low 16, lengthByte low 8, lengthByte low 0] = toNetwork 8 (high.toNat * 2 ^ 32 + low.toNat) := by
  have hlow := low.isLt
  have hbyte : ∀ a b : Nat, a % 256 = b % 256 → UInt8.ofNat a = UInt8.ofNat b := by
    intro a b h
    apply UInt8.toNat_inj.mp
    rwa [UInt8.toNat_ofNat', UInt8.toNat_ofNat']
  simp only [lengthByte_eq, toNetwork, List.nil_append, List.cons_append, List.cons.injEq, and_true]
  refine ⟨?_, ?_, ?_, ?_, ?_, ?_, ?_, ?_⟩ <;> apply hbyte <;> omega

theorem toList_storeLength {s : SHA1} (h : s.messageBlockIndex = 56) :
    s.storeLength.messageBlock.toList = s.pending ++ toNetwork 8 (s.lengthHigh.toNat * 2 ^ 32 + s.lengthLow.toNat) := by
  have hall : ∀ (l : List UInt8) (b₀ b₁ b₂ b₃ b₄ b₅ b₆ b₇ : UInt8), l.length = 64 →
      (((((((l.set 56 b₀).set 57 b₁).set 58 b₂).set 59 b₃).set 60 b₄).set 61 b₅).set 62 b₆).set 63 b₇ =
        l.take 56 ++ [b₀, b₁, b₂, b₃, b₄, b₅, b₆, b₇] := by
    intro l b₀ b₁ b₂ b₃ b₄ b₅ b₆ b₇ hl
    rw [← List.take_length (l := List.set _ 63 _)]
    simp only [List.length_set, hl]
    iterate 8 rw [take_succ_set (by simp [hl])]
    simp
  rw [← lengthBytes_eq, pending, h]
  simp only [storeLength, Vector.toList_setIfInBounds]
  exact hall _ _ _ _ _ _ _ _ _ (Vector.length_toList ..)

/-- The last block: 56 octets and the length. -/
theorem lastBlock_h {s : SHA1} (h : s.messageBlockIndex = 56) : s.storeLength.processMessageBlock.h =
    Standard.compress s.h (s.pending ++ toNetwork 8 (s.lengthHigh.toNat * 2 ^ 32 + s.lengthLow.toNat)) := by
  rw [processMessageBlock_h, toList_storeLength h, storeLength_h]

theorem foldl_block (start : Buffers) {block : List UInt8} (h : block.length = 64) :
    (blocks 64 block).foldl Standard.compress start = Standard.compress start block := by
  rw [blocks_of_length (by decide) h, List.foldl_cons, List.foldl_nil]

theorem toList_of_full {s : SHA1} (h : s.messageBlockIndex = 64) : s.messageBlock.toList = s.pending := by
  rw [pending, h, List.take_of_length_le (by rw [Vector.length_toList])]

/-- `PadMessage` processes the standard's padding of what the block holds. -/
theorem padMessage_h {s : SHA1} (h : s.messageBlockIndex < 64) :
    s.padMessage.h = (blocks 64 (s.pending ++ (0x80 :: List.replicate ((119 - s.messageBlockIndex) % 64) 0 ++
      toNetwork 8 (s.lengthHigh.toNat * 2 ^ 32 + s.lengthLow.toNat)))).foldl Standard.compress s.h := by
  have hpending := length_pending h.le
  have hput := pending_put h 0x80
  have hindex := put_messageBlockIndex s 0x80
  rw [padMessage]
  split
  · next hbig =>
    -- the rest of this block, and the zeros of the next one
    have hzeros : (119 - s.messageBlockIndex) % 64 = 64 - (s.messageBlockIndex + 1) + 56 := by omega
    have hfill := filled_fill (le_refl 64) (show (s.put 0x80).messageBlockIndex ≤ 64 from h)
    have hblock := (toList_of_full hfill.index).trans hfill.pending
    rw [hput, List.append_assoc, List.singleton_append, hindex] at hblock
    have hfull : (s.pending ++ 0x80 :: List.replicate (64 - (s.messageBlockIndex + 1)) 0).length = 64 := by
      rw [← hblock, Vector.length_toList]
    have hstart : (fill 64 (s.put 0x80)).processMessageBlock.messageBlockIndex ≤ 56 := by
      rw [processMessageBlock_messageBlockIndex]
      decide
    have hlast := filled_fill (by decide) hstart
    have hsplit : s.pending ++ (0x80 :: List.replicate ((119 - s.messageBlockIndex) % 64) 0 ++
        toNetwork 8 (s.lengthHigh.toNat * 2 ^ 32 + s.lengthLow.toNat)) =
        (s.pending ++ 0x80 :: List.replicate (64 - (s.messageBlockIndex + 1)) 0) ++
          (List.replicate 56 0 ++ toNetwork 8 (s.lengthHigh.toNat * 2 ^ 32 + s.lengthLow.toNat)) := by
      rw [hzeros, List.replicate_add]
      simp only [List.append_assoc, List.cons_append]
    rw [lastBlock_h hlast.index, hlast.pending, hlast.h, hlast.lengthHigh, hlast.lengthLow, processMessageBlock_pending,
      processMessageBlock_messageBlockIndex, processMessageBlock_h, processMessageBlock_lengthHigh,
      processMessageBlock_lengthLow, hfill.lengthHigh, hfill.lengthLow, hfill.h, put_h, put_lengthHigh, put_lengthLow,
      hblock, List.nil_append, hsplit, blocks_append (by decide) (dvd_of_eq hfull.symm), List.foldl_append,
      foldl_block _ hfull, foldl_block]
    rw [List.length_append, length_toNetwork, List.length_replicate]
  · next hsmall =>
    have hzeros : (119 - s.messageBlockIndex) % 64 = 56 - (s.messageBlockIndex + 1) := by omega
    have hfill := filled_fill (by decide) (show (s.put 0x80).messageBlockIndex ≤ 56 by rw [hindex]; omega)
    rw [lastBlock_h hfill.index, hfill.pending, hfill.h, hfill.lengthHigh, hfill.lengthLow, put_h, put_lengthHigh,
      put_lengthLow, hput, hindex, ← hzeros, List.append_assoc, List.append_assoc, List.singleton_append,
      ← List.cons_append, foldl_block]
    rw [List.length_append, List.length_append, length_toNetwork, hpending, List.length_cons, List.length_replicate]
    omega

theorem padMessage_corrupted {s : SHA1} (h : s.messageBlockIndex < 64) : s.padMessage.corrupted = s.corrupted := by
  have hindex := put_messageBlockIndex s 0x80
  rw [padMessage, processMessageBlock_corrupted, storeLength_corrupted]
  split
  · rw [(filled_fill (by decide) (by rw [processMessageBlock_messageBlockIndex]; decide)).corrupted,
      processMessageBlock_corrupted, (filled_fill le_rfl (by rw [hindex]; omega)).corrupted, put_corrupted]
  · rw [(filled_fill (by decide) (by rw [hindex]; omega)).corrupted, put_corrupted]

/-! ### The message so far -/

/-- The object has absorbed a message and can take more of it. -/
structure Represents (message : List UInt8) (s : SHA1) : Prop where
  h : s.h = (absorbed 64 Standard.compress Standard.start message).1
  pending : s.pending = rest 64 message
  index : s.messageBlockIndex = message.length % 64
  bits : s.lengthHigh.toNat * 2 ^ 32 + s.lengthLow.toNat = 8 * message.length
  computed : s.computed = false
  corrupted : s.corrupted = false

theorem represents_reset (s : SHA1) : Represents [] s.reset := by
  cases s
  constructor
  case h => rfl
  case pending => exact List.take_zero
  case index => rfl
  case bits => simp [reset]
  case computed => rfl
  case corrupted => rfl

/-- The count of the bits, and whether it has come round. -/
theorem countByte_spec {s : SHA1} {count : Nat} (h : s.lengthHigh.toNat * 2 ^ 32 + s.lengthLow.toNat = 8 * count)
    (hcorrupted : s.corrupted = false) :
    (8 * (count + 1) < 2 ^ 64 → s.countByte.corrupted = false ∧
      s.countByte.lengthHigh.toNat * 2 ^ 32 + s.countByte.lengthLow.toNat = 8 * (count + 1)) ∧
    (2 ^ 64 ≤ 8 * (count + 1) → s.countByte.corrupted = true) := by
  obtain ⟨_, low, high, _, _, _, corrupted⟩ := s
  simp only at h hcorrupted
  subst hcorrupted
  have hlow := low.isLt
  have hhigh := high.isLt
  have hlow' : (low + 8).toNat = (low.toNat + 8) % 2 ^ 32 := BitVec.toNat_add ..
  have hhigh' : (high + 1).toNat = (high.toNat + 1) % 2 ^ 32 := BitVec.toNat_add ..
  have hzero : (0 : Word).toNat = 0 := rfl
  have hround : low + 8 = 0 ↔ low.toNat + 8 = 2 ^ 32 := by
    rw [← BitVec.toNat_inj, hlow', hzero]
    omega
  have hround' : high + 1 = 0 ↔ high.toNat + 1 = 2 ^ 32 := by
    rw [← BitVec.toNat_inj, hhigh', hzero]
    omega
  simp only [countByte, Bool.false_or, Bool.and_eq_false_iff, Bool.and_eq_true, decide_eq_false_iff_not,
    decide_eq_true_eq, hround, hround', hlow']
  by_cases hcarry : low.toNat + 8 = 2 ^ 32
  · rw [if_pos hcarry, hhigh']
    omega
  · rw [if_neg hcarry]
    omega

/-- **One more octet**, as long as the count of the bits does not come round. -/
theorem Represents.takeByte {message : List UInt8} {s : SHA1} (h : Represents message s) (byte : UInt8) :
    (message.length + 1 < 2 ^ 61 → Represents (message ++ [byte]) (s.takeByte byte)) ∧
      (2 ^ 61 ≤ message.length + 1 → (s.takeByte byte).corrupted = true) := by
  have hindex : s.messageBlockIndex < 64 := by
    rw [h.index]
    exact Nat.mod_lt _ (by decide)
  have hput := pending_put hindex byte
  have hbits : (s.put byte).lengthHigh.toNat * 2 ^ 32 + (s.put byte).lengthLow.toNat = 8 * message.length := by
    rw [put_lengthHigh, put_lengthLow, h.bits]
  obtain ⟨hopen, hround⟩ := countByte_spec hbits (by rw [put_corrupted, h.corrupted])
  have habsorbed := absorbed_snoc (by decide : 0 < 64) Standard.compress Standard.start message byte
  rw [length_rest, ← h.index, ← h.h, ← h.pending] at habsorbed
  have hpending : (s.put byte).countByte.pending = s.pending ++ [byte] := by
    rw [SHA1.pending, countByte_messageBlock, countByte_messageBlockIndex]
    exact hput
  have hh : (s.put byte).countByte.h = s.h := by rw [countByte_h, put_h]
  have hnext : (s.put byte).countByte.messageBlockIndex = s.messageBlockIndex + 1 := by
    rw [countByte_messageBlockIndex, put_messageBlockIndex]
  have hcomputed : (s.put byte).countByte.computed = false := by rw [countByte_computed, put_computed, h.computed]
  have hmod : (s.messageBlockIndex + 1) % 64 = (message ++ [byte]).length % 64 := by
    rw [h.index, List.length_append, List.length_singleton]
    omega
  rw [SHA1.takeByte]
  generalize (s.put byte).countByte = after at hopen hround hpending hh hnext hcomputed
  constructor
  · intro hlt
    obtain ⟨hcorrupted, hbits⟩ := hopen (by omega)
    rw [← List.length_singleton (a := byte), ← List.length_append] at hbits
    by_cases hfull : s.messageBlockIndex + 1 = 64
    · have hblock := toList_of_full (hnext.trans hfull)
      rw [if_pos (hnext.trans hfull)]
      rw [if_pos hfull] at habsorbed
      constructor
      case h => rw [processMessageBlock_h, hh, hblock, hpending, habsorbed]
      case pending => exact (processMessageBlock_pending after).trans (congrArg Prod.snd habsorbed).symm
      case index => rw [processMessageBlock_messageBlockIndex, ← hmod, hfull]
      case bits => rw [processMessageBlock_lengthHigh, processMessageBlock_lengthLow, hbits]
      case computed => rw [processMessageBlock_computed, hcomputed]
      case corrupted => rw [processMessageBlock_corrupted, hcorrupted]
    · rw [if_neg (by rwa [hnext])]
      rw [if_neg hfull] at habsorbed
      constructor
      case h => rw [hh, habsorbed]
      case pending => exact hpending.trans (congrArg Prod.snd habsorbed).symm
      case index => rw [hnext, ← hmod, Nat.mod_eq_of_lt (by omega)]
      case bits => exact hbits
      case computed => exact hcomputed
      case corrupted => exact hcorrupted
  · intro hle
    have hcorrupted := hround (by omega)
    split
    · rw [processMessageBlock_corrupted, hcorrupted]
    · exact hcorrupted

theorem takeBytes_of_corrupted {s : SHA1} (h : s.corrupted = true) (bytes : List UInt8) : s.takeBytes bytes = s := by
  cases bytes with
  | nil => rfl
  | cons byte bytes => rw [takeBytes, if_pos h]

/-- The loop of `Input`. -/
theorem Represents.takeBytes {message : List UInt8} {s : SHA1} (h : Represents message s) (bytes : List UInt8) :
    (message.length + bytes.length < 2 ^ 61 → Represents (message ++ bytes) (s.takeBytes bytes)) ∧
      (message.length < 2 ^ 61 → 2 ^ 61 ≤ message.length + bytes.length → (s.takeBytes bytes).corrupted = true) := by
  induction bytes generalizing message s with
  | nil =>
      rw [List.append_nil, List.length_nil, Nat.add_zero]
      exact ⟨fun _ => h, fun hlt hle => absurd hlt hle.not_gt⟩
  | cons byte bytes ih =>
      obtain ⟨hopen, hround⟩ := h.takeByte byte
      have hstep : s.takeBytes (byte :: bytes) = (s.takeByte byte).takeBytes bytes := by
        rw [SHA1.takeBytes, if_neg (by rw [h.corrupted]; exact Bool.false_ne_true)]
      rw [hstep, List.length_cons]
      constructor
      · intro hlt
        have hnext := (ih (hopen (by omega))).1
        rw [List.append_assoc, List.singleton_append, List.length_append, List.length_singleton] at hnext
        exact hnext (by omega)
      · intro hlt hle
        by_cases hlast : message.length + 1 < 2 ^ 61
        · have hnext := (ih (hopen hlast)).2
          rw [List.length_append, List.length_singleton] at hnext
          exact hnext hlast (by omega)
        · have hcorrupted := hround (by omega)
          rw [takeBytes_of_corrupted hcorrupted, hcorrupted]

/-- **The digest** of the message so far is the standard's. -/
theorem Represents.padMessage {message : List UInt8} {s : SHA1} (h : Represents message s) :
    s.padMessage.h = Standard.digest message := by
  have hindex : s.messageBlockIndex < 64 := by
    rw [h.index]
    exact Nat.mod_lt _ (by decide)
  rw [padMessage_h hindex, h.h, h.pending, h.bits, h.index, Standard.digest, Standard.padding,
    blocks_append_rest (by decide) message, List.foldl_append, absorbed]

/-! ### Any calls -/

/-- A call of one of the public members. -/
inductive Call
  | input (message : List UInt8)
  | shiftLeft (string : List UInt8)
  | result
  | reset
  deriving DecidableEq

/-- The object after a call. -/
def call (s : SHA1) : Call → SHA1
  | .input message => s.input message
  | .shiftLeft string => s.shiftLeft string
  | .result => s.result.2
  | .reset => s.reset

/-- The object after some calls; `memory` is what was there before its constructor reset it. -/
def run (memory : SHA1) (calls : List Call) : SHA1 := calls.foldl call memory.reset

/-- The calls after the last `Reset`. -/
def sinceReset (calls : List Call) : List Call :=
  calls.foldl (fun before call => if call = .reset then [] else before ++ [call]) []

/-- What a call adds to the message. -/
def Call.octets : Call → List UInt8
  | .input message => message
  | .shiftLeft string => string.takeWhile (· ≠ 0)
  | _ => []

/-- The message that some calls make up. -/
def message (calls : List Call) : List UInt8 := calls.flatMap Call.octets

/-- There is more input after an answer, or the message has 2^64 bits. -/
def Spoiled (calls : List Call) : Prop :=
  (∃ before after, calls = before ++ .result :: after ∧ message after ≠ []) ∨ 2 ^ 61 ≤ (message calls).length

theorem message_append (first second : List Call) : message (first ++ second) = message first ++ message second :=
  List.flatMap_append

theorem spoiled_snoc (calls : List Call) (call : Call) : Spoiled (calls ++ [call]) ↔
    Spoiled calls ∨ (.result ∈ calls ∧ call.octets ≠ []) ∨ 2 ^ 61 ≤ (message calls).length + call.octets.length := by
  have hlast : message [call] = call.octets := List.append_nil _
  constructor
  · rintro (⟨before, after, heq, hmore⟩ | hlong)
    · rcases List.eq_nil_or_concat after with rfl | ⟨rest, last, rfl⟩
      · exact absurd rfl hmore
      · rw [List.concat_eq_append] at heq hmore
        rw [← List.cons_append, ← List.append_assoc] at heq
        obtain ⟨hcalls, hcall⟩ := List.append_inj' heq rfl
        cases hcall
        rw [message_append, hlast] at hmore
        by_cases hrest : message rest = []
        · refine Or.inr (Or.inl ⟨by rw [hcalls]; simp, fun hnone => hmore ?_⟩)
          rw [hrest, hnone, List.append_nil]
        · exact Or.inl (Or.inl ⟨before, rest, hcalls, hrest⟩)
    · rw [message_append, hlast, List.length_append] at hlong
      exact Or.inr (Or.inr hlong)
  · rintro ((⟨before, after, rfl, hmore⟩ | hlong) | ⟨hresult, hmore⟩ | hlong)
    · refine Or.inl ⟨before, after ++ [call], by simp, fun hnone => hmore ?_⟩
      rw [message_append] at hnone
      exact (List.append_eq_nil_iff.mp hnone).1
    · refine Or.inr (hlong.trans ?_)
      rw [message_append, List.length_append]
      exact Nat.le_add_right ..
    · obtain ⟨before, after, rfl⟩ := List.append_of_mem hresult
      refine Or.inl ⟨before, after ++ [call], by simp, fun hnone => hmore ?_⟩
      rw [message_append, hlast] at hnone
      exact (List.append_eq_nil_iff.mp hnone).2
    · refine Or.inr ?_
      rwa [message_append, hlast, List.length_append]

@[simp] theorem takeByte_computed (s : SHA1) (byte : UInt8) : (s.takeByte byte).computed = s.computed := by
  rw [takeByte]
  split
  · rw [processMessageBlock_computed, countByte_computed, put_computed]
  · rw [countByte_computed, put_computed]

theorem takeBytes_computed (s : SHA1) (bytes : List UInt8) : (s.takeBytes bytes).computed = s.computed := by
  induction bytes generalizing s with
  | nil => rfl
  | cons byte bytes ih =>
      rw [takeBytes]
      split
      · rfl
      · rw [ih, takeByte_computed]

theorem takeBytes_append (s : SHA1) (first second : List UInt8) :
    s.takeBytes (first ++ second) = (s.takeBytes first).takeBytes second := by
  induction first generalizing s with
  | nil => rfl
  | cons byte first ih =>
      rw [List.cons_append, takeBytes, takeBytes]
      split
      · next hcorrupted => rw [takeBytes_of_corrupted hcorrupted]
      · exact ih _

theorem setCorrupted_of_corrupted {s : SHA1} (h : s.corrupted = true) : { s with corrupted := true } = s := by
  cases s
  simp only at h
  rw [h]

theorem input_of_closed {s : SHA1} (h : (s.computed || s.corrupted) = true) {octets : List UInt8} (hne : octets ≠ []) :
    s.input octets = { s with corrupted := true } := by
  rw [input, if_neg hne, if_pos h]

theorem input_of_open {s : SHA1} (h : (s.computed || s.corrupted) = false) (octets : List UInt8) :
    s.input octets = s.takeBytes octets := by
  rw [input]
  split
  · next hnil => rw [hnil, takeBytes]
  · rw [if_neg (by rw [h]; exact Bool.false_ne_true)]

/-- The array may come in parts. -/
theorem input_append (s : SHA1) (first second : List UInt8) :
    s.input (first ++ second) = (s.input first).input second := by
  by_cases hfirst : first = []
  · subst hfirst
    rfl
  by_cases hsecond : second = []
  · subst hsecond
    rw [List.append_nil]
    rfl
  cases hclosed : s.computed || s.corrupted with
  | true =>
      have hafter : ({ s with corrupted := true } : SHA1).computed || ({ s with corrupted := true } : SHA1).corrupted :=
        Bool.or_true _
      rw [input_of_closed hclosed hfirst, input_of_closed hafter hsecond,
        input_of_closed hclosed (List.append_ne_nil_of_left_ne_nil hfirst _)]
  | false =>
      rw [input_of_open hclosed, input_of_open hclosed, takeBytes_append]
      obtain ⟨hcomputed, -⟩ := Bool.or_eq_false_iff.mp hclosed
      cases hcorrupted : (s.takeBytes first).corrupted with
      | true =>
          rw [takeBytes_of_corrupted hcorrupted, input_of_closed (by rw [hcorrupted, Bool.or_true]) hsecond,
            setCorrupted_of_corrupted hcorrupted]
      | false => rw [input_of_open (by rw [hcorrupted, takeBytes_computed, hcomputed]; rfl)]

theorem message_snoc (calls : List Call) (call : Call) : message (calls ++ [call]) = message calls ++ call.octets := by
  rw [message_append]
  exact congrArg _ (List.append_nil _)

/-- A call without input spoils nothing. -/
theorem spoiled_snoc_of_silent (calls : List Call) {call : Call} (h : call.octets = []) :
    Spoiled (calls ++ [call]) ↔ Spoiled calls := by
  rw [spoiled_snoc, h, List.length_nil, Nat.add_zero]
  constructor
  · rintro (hold | ⟨-, hne⟩ | hlong)
    · exact hold
    · exact absurd rfl hne
    · exact Or.inr hlong
  · exact Or.inl

/-- `operator<<` passes the characters on one at a time, to the same effect as all at once. -/
theorem shiftLeft_eq (s : SHA1) (string : List UInt8) : s.shiftLeft string = s.input (string.takeWhile (· ≠ 0)) := by
  rw [shiftLeft]
  generalize string.takeWhile (· ≠ 0) = octets
  induction octets generalizing s with
  | nil => rfl
  | cons octet octets ih => rw [List.foldl_cons, ih, ← input_append, List.singleton_append]

/-- What the object is after some calls since the last `Reset`. -/
structure Follows (calls : List Call) (s : SHA1) : Prop where
  spoiled : Spoiled calls → s.corrupted = true
  asking : ¬Spoiled calls → .result ∉ calls → Represents (message calls) s
  answered : ¬Spoiled calls → .result ∈ calls →
    s.computed = true ∧ s.corrupted = false ∧ s.h = Standard.digest (message calls)

theorem not_spoiled_nil : ¬Spoiled [] := by
  rintro (⟨before, after, heq, -⟩ | hlong)
  · exact absurd heq.symm (List.append_ne_nil_of_right_ne_nil _ (List.cons_ne_nil _ _))
  · exact absurd hlong (by decide)

theorem follows_reset (s : SHA1) : Follows [] s.reset where
  spoiled h := absurd h not_spoiled_nil
  asking _ _ := represents_reset s
  answered _ h := absurd h List.not_mem_nil

theorem Follows.input {calls : List Call} {s : SHA1} (h : Follows calls s) {call : Call} (hcall : call ≠ .result) :
    Follows (calls ++ [call]) (s.input call.octets) := by
  have hmessage := message_snoc calls call
  have hresult : .result ∈ calls ++ [call] ↔ .result ∈ calls := by
    rw [List.mem_append, List.mem_singleton, or_iff_left (Ne.symm hcall)]
  by_cases hnone : call.octets = []
  · have hspoiled := spoiled_snoc_of_silent calls hnone
    rw [hnone, List.append_nil] at hmessage
    rw [hnone]
    constructor
    case spoiled => exact fun hs => h.spoiled (hspoiled.mp hs)
    case asking => exact fun hs hr => hmessage ▸ h.asking (fun hold => hs (hspoiled.mpr hold)) (fun hmem => hr (hresult.mpr hmem))
    case answered => exact fun hs hr => hmessage ▸ h.answered (fun hold => hs (hspoiled.mpr hold)) (hresult.mp hr)
  · by_cases hold : Spoiled calls
    · have hclosed : (s.computed || s.corrupted) = true := by rw [h.spoiled hold, Bool.or_true]
      have hspoiled : Spoiled (calls ++ [call]) := (spoiled_snoc calls call).mpr (Or.inl hold)
      rw [input_of_closed hclosed hnone]
      exact ⟨fun _ => rfl, fun hs => absurd hspoiled hs, fun hs => absurd hspoiled hs⟩
    · by_cases hasked : .result ∈ calls
      · have hclosed : (s.computed || s.corrupted) = true := by rw [(h.answered hold hasked).1, Bool.true_or]
        have hspoiled : Spoiled (calls ++ [call]) :=
          (spoiled_snoc calls call).mpr (Or.inr (Or.inl ⟨hasked, hnone⟩))
        rw [input_of_closed hclosed hnone]
        exact ⟨fun _ => rfl, fun hs => absurd hspoiled hs, fun hs => absurd hspoiled hs⟩
      · have hrep := h.asking hold hasked
        obtain ⟨hopen, hround⟩ := hrep.takeBytes call.octets
        have hshort : (message calls).length < 2 ^ 61 := Nat.lt_of_not_le fun hlong => hold (Or.inr hlong)
        rw [input_of_open (by rw [hrep.computed, hrep.corrupted]; rfl)]
        constructor
        case spoiled =>
          intro hs
          rcases (spoiled_snoc calls call).mp hs with hs | ⟨hs, -⟩ | hlong
          · exact absurd hs hold
          · exact absurd hs hasked
          · exact hround hshort hlong
        case asking =>
          intro hs _
          rw [hmessage]
          exact hopen (Nat.lt_of_not_le fun hlong => hs ((spoiled_snoc calls call).mpr (Or.inr (Or.inr hlong))))
        case answered => exact fun _ hr => absurd (hresult.mp hr) hasked

/-- **The answer.** -/
theorem Follows.result {calls : List Call} {s : SHA1} (h : Follows calls s) :
    (Spoiled calls → s.result = (none, s)) ∧
      (¬Spoiled calls → s.result.1 = some (Standard.digest (message calls)) ∧ Follows (calls ++ [.result]) s.result.2) := by
  have hmessage : message (calls ++ [.result]) = message calls := (message_snoc calls .result).trans (List.append_nil _)
  have hspoiled : Spoiled (calls ++ [.result]) ↔ Spoiled calls := spoiled_snoc_of_silent calls rfl
  have hafter : ∀ {after : SHA1}, ¬Spoiled calls → after.computed = true → after.corrupted = false →
      after.h = Standard.digest (message calls) → Follows (calls ++ [.result]) after := by
    intro after hs hcomputed hcorrupted hh
    constructor
    case spoiled => exact fun hnot => absurd (hspoiled.mp hnot) hs
    case asking => exact fun _ hnone => absurd (List.mem_append_right _ (List.mem_singleton.mpr rfl)) hnone
    case answered => exact fun _ _ => ⟨hcomputed, hcorrupted, by rw [hmessage, hh]⟩
  constructor
  · intro hs
    rw [SHA1.result, if_pos (h.spoiled hs)]
  · intro hs
    by_cases hasked : .result ∈ calls
    · obtain ⟨hcomputed, hcorrupted, hh⟩ := h.answered hs hasked
      have hresult : s.result = (some s.h, s) := by
        rw [SHA1.result, if_neg (by rw [hcorrupted]; exact Bool.false_ne_true), if_pos hcomputed]
      rw [hresult]
      exact ⟨by rw [hh], hafter hs hcomputed hcorrupted hh⟩
    · have hrep := h.asking hs hasked
      have hresult : s.result = (some s.padMessage.h, { s.padMessage with computed := true }) := by
        rw [SHA1.result, if_neg (by rw [hrep.corrupted]; exact Bool.false_ne_true),
          if_neg (by rw [hrep.computed]; exact Bool.false_ne_true)]
      have hindex : s.messageBlockIndex < 64 := by
        rw [hrep.index]
        exact Nat.mod_lt _ (by decide)
      have hcorrupted := (padMessage_corrupted hindex).trans hrep.corrupted
      have hh := hrep.padMessage
      rw [hresult]
      generalize s.padMessage = padded at hcorrupted hh ⊢
      exact ⟨by rw [hh], hafter hs rfl hcorrupted hh⟩

theorem sinceReset_snoc (calls : List Call) (call : Call) :
    sinceReset (calls ++ [call]) = if call = .reset then [] else sinceReset calls ++ [call] := by
  rw [sinceReset, List.foldl_append]
  rfl

theorem follows_run (memory : SHA1) (calls : List Call) : Follows (sinceReset calls) (run memory calls) := by
  induction calls using List.reverseRecOn with
  | nil => exact follows_reset memory
  | append_singleton calls call ih =>
      have hrun : run memory (calls ++ [call]) = (run memory calls).call call := by
        rw [run, List.foldl_append]
        rfl
      rw [hrun, sinceReset_snoc]
      generalize run memory calls = s at ih
      cases call with
      | input octets =>
          rw [if_neg (by simp)]
          exact ih.input (by simp)
      | shiftLeft string =>
          rw [if_neg (by simp), SHA1.call, shiftLeft_eq]
          exact ih.input (show Call.shiftLeft string ≠ .result by simp)
      | result =>
          rw [if_neg (by simp)]
          by_cases hs : Spoiled (sinceReset calls)
          · rw [SHA1.call, ih.result.1 hs]
            have hspoiled : Spoiled (sinceReset calls ++ [.result]) := (spoiled_snoc_of_silent _ rfl).mpr hs
            exact ⟨fun _ => ih.spoiled hs, fun hnot => absurd hspoiled hnot, fun hnot => absurd hspoiled hnot⟩
          · exact (ih.result.2 hs).2
      | reset =>
          rw [if_pos rfl]
          exact follows_reset s

end SHA1

/-- **What SHA-1 answers.** After any calls of the members, `Result` gives the digest of the octets that were passed on
since the last `Reset`, however they were split, and as often as it is asked; it fails exactly when there was more
input after an answer or there are 2^64 bits of it. -/
theorem sha1_result (memory : SHA1) (calls : List SHA1.Call) :
    (SHA1.Spoiled (SHA1.sinceReset calls) → (SHA1.run memory calls).result.1 = none) ∧
      (¬SHA1.Spoiled (SHA1.sinceReset calls) → (SHA1.run memory calls).result.1 =
        some (Standard.digest (SHA1.message (SHA1.sinceReset calls)))) := by
  have hfollows := SHA1.follows_run memory calls
  refine ⟨fun hs => ?_, fun hs => (hfollows.result.2 hs).1⟩
  rw [hfollows.result.1 hs]

end Thebends.Ypeer
