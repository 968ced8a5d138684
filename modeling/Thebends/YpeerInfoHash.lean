import Thebends.YpeerSha1Runs

/-! The info hash that `find_peers` makes of the name of a room (`find_peers.cpp`). Two names with one info hash would
show two different calls of `ProcessMessageBlock` with one result, at places that can be named. -/

namespace Thebends.Ypeer

open LibBlocks LibNetOrder

attribute [local irreducible] Standard.compress

/-- `(key >> (j * 8)) & 0xff`. -/
def keyByte (key : Word) (j : Nat) : UInt8 := .ofBitVec (((key >>> (j * 8)) &&& 0xff).setWidth 8)

/-- `Hash`, which appends to `result`. -/
def hash (digest : Buffers) (result : List UInt8) : List UInt8 :=
  [digest.A, digest.B, digest.C, digest.D, digest.E].foldl
    (fun before key => [3, 2, 1, 0].foldl (fun before j => before ++ [keyByte key j]) before) result

/-- The `info_hash` of `main`: `Input` takes the length of the name as an `unsigned`. -/
def infoHash (memory : SHA1) (room : List UInt8) : Option (List UInt8) :=
  (SHA1.run memory [.input (room.take (room.length % 2 ^ 32))]).result.1.map fun digest => hash digest []

theorem keyByte_eq (key : Word) : [keyByte key 3, keyByte key 2, keyByte key 1, keyByte key 0] = toNetwork 4 key.toNat := by
  have hbyte : ∀ j, keyByte key j = UInt8.ofNat (key.toNat / 2 ^ (j * 8)) := fun j => SHA1.lengthByte_eq key (j * 8)
  simp [hbyte, toNetwork, Nat.div_div_eq_div_mul]

theorem hash_eq (digest : Buffers) : hash digest [] =
    [digest.A, digest.B, digest.C, digest.D, digest.E].flatMap fun key => toNetwork 4 key.toNat := by
  have hkey : ∀ (before : List UInt8) (key : Word),
      [3, 2, 1, 0].foldl (fun before j => before ++ [keyByte key j]) before = before ++ toNetwork 4 key.toNat := by
    intro before key
    rw [← keyByte_eq]
    simp
  simp only [hash, hkey, List.foldl_cons, List.foldl_nil, List.flatMap_cons, List.flatMap_nil, List.nil_append,
    List.append_nil, List.append_assoc]

theorem length_hash (digest : Buffers) : (hash digest []).length = 20 := by
  rw [hash_eq]
  simp

theorem hash_injective {digest digest' : Buffers} (h : hash digest [] = hash digest' []) : digest = digest' := by
  have hword : ∀ {key key' : Word}, toNetwork 4 key.toNat = toNetwork 4 key'.toNat → key = key' := by
    intro key key' heq
    have hvalue := congrArg ofNetwork heq
    rw [ofNetwork_toNetwork key.isLt, ofNetwork_toNetwork key'.isLt] at hvalue
    exact BitVec.eq_of_toNat_eq hvalue
  rw [hash_eq, hash_eq] at h
  simp only [List.flatMap_cons, List.flatMap_nil] at h
  obtain ⟨hA, h⟩ := List.append_inj h (by rw [length_toNetwork, length_toNetwork])
  obtain ⟨hB, h⟩ := List.append_inj h (by rw [length_toNetwork, length_toNetwork])
  obtain ⟨hC, h⟩ := List.append_inj h (by rw [length_toNetwork, length_toNetwork])
  obtain ⟨hD, h⟩ := List.append_inj h (by rw [length_toNetwork, length_toNetwork])
  obtain ⟨hE, -⟩ := List.append_inj h (by rw [length_toNetwork, length_toNetwork])
  cases digest
  cases digest'
  rw [Buffers.mk.injEq]
  exact ⟨hword hA, hword hB, hword hC, hword hD, hword hE⟩

namespace Standard

/-- A message with its padding. -/
def padded (message : List UInt8) : List UInt8 := message ++ padding message.length

theorem dvd_length_padded (message : List UInt8) : 64 ∣ (padded message).length := by
  rw [padded, List.length_append]
  exact length_padding message.length

theorem flatten_blocks_padded (message : List UInt8) : (blocks 64 (padded message)).flatten = padded message := by
  have hparts := flatten_blocks_append_rest (by decide : 0 < 64) (padded message)
  rwa [rest_of_dvd (dvd_length_padded message), List.append_nil] at hparts

/-- **No padded message ends with another one**: the length is at the end. -/
theorem eq_of_suffix {message message' : List UInt8} (hlength : message.length < 2 ^ 61)
    (hlength' : message'.length < 2 ^ 61) (h : padded message <:+ padded message') : message = message' := by
  obtain ⟨front, hfront⟩ := h
  have hcount : message.length = message'.length := by
    rw [padded, padded, padding, padding, ← List.append_assoc, ← List.append_assoc, ← List.append_assoc] at hfront
    obtain ⟨-, hbits⟩ := List.append_inj' hfront (by rw [length_toNetwork, length_toNetwork])
    have hvalue := congrArg ofNetwork hbits
    rw [ofNetwork_toNetwork (by omega), ofNetwork_toNetwork (by omega)] at hvalue
    omega
  have hsame : (padded message).length = (padded message').length := by
    rw [padded, padded, List.length_append, List.length_append, hcount]
  have hnone : front = [] := by
    have hall := congrArg List.length hfront
    rw [List.length_append, hsame] at hall
    exact List.length_eq_zero_iff.mp (by omega)
  rw [hnone, List.nil_append, padded, padded] at hfront
  exact (List.append_inj hfront hcount).1

/-- Different messages have different digests, or show a block that collides. -/
theorem digest_collision {message message' : List UInt8} (hlength : message.length < 2 ^ 61)
    (hlength' : message'.length < 2 ^ 61) (hne : message ≠ message') (h : digest message = digest message') :
    ∃ before block before' block', Visits compress start (blocks 64 (padded message)) before block ∧
      Visits compress start (blocks 64 (padded message')) before' block' ∧ (before, block) ≠ (before', block') ∧
      compress before block = compress before' block' := by
  have hsuffix : ∀ {l l' : List UInt8}, blocks 64 (padded l) <:+ blocks 64 (padded l') → padded l <:+ padded l' := by
    rintro l l' ⟨front, hfront⟩
    refine ⟨front.flatten, ?_⟩
    rw [← flatten_blocks_padded l, ← flatten_blocks_padded l', ← hfront, List.flatten_append]
  apply exists_collision h
  · exact fun hend => hne (eq_of_suffix hlength hlength' (hsuffix hend))
  · exact fun hend => hne (eq_of_suffix hlength' hlength (hsuffix hend)).symm

end Standard

theorem infoHash_eq (memory : SHA1) {room : List UInt8} (h : room.length < 2 ^ 32) :
    infoHash memory room = some (hash (Standard.digest room) []) := by
  have hroom : room.take (room.length % 2 ^ 32) = room := by
    rw [Nat.mod_eq_of_lt h, List.take_length]
  have hmessage : SHA1.message (SHA1.sinceReset [.input room]) = room := List.append_nil room
  have hopen : ¬SHA1.Spoiled (SHA1.sinceReset [.input room]) := by
    rintro (⟨before, after, heq, -⟩ | hlong)
    · have hmem : .result ∈ SHA1.sinceReset [.input room] := by
        rw [heq]
        simp
      simp [SHA1.sinceReset] at hmem
    · rw [hmessage] at hlong
      omega
  have hresult := (SHA1.follows_run memory [.input room]).result.2 hopen
  rw [infoHash, hroom, hresult.1, hmessage]
  rfl

/-- **The info hash of a room** has 20 bytes whatever was in memory, and two rooms that share it show two different
calls of `ProcessMessageBlock`, one of either room, with the same result. -/
theorem infoHash_differs (memory memory' : SHA1) (room room' : List UInt8) (hroom : room.length < 2 ^ 32)
    (hroom' : room'.length < 2 ^ 32) (hne : room ≠ room') :
    ∃ infoHash₁ infoHash₂, infoHash memory room = some infoHash₁ ∧ infoHash memory' room' = some infoHash₂ ∧
      infoHash₁.length = 20 ∧ infoHash₂.length = 20 ∧
      (infoHash₁ ≠ infoHash₂ ∨ ∃ before block before' block',
        Visits SHA1.processBlock Standard.start (blocks 64 (Standard.padded room)) before block ∧
        Visits SHA1.processBlock Standard.start (blocks 64 (Standard.padded room')) before' block' ∧
        (before, block) ≠ (before', block') ∧ SHA1.processBlock before block = SHA1.processBlock before' block') := by
  refine ⟨_, _, infoHash_eq memory hroom, infoHash_eq memory' hroom', length_hash _, length_hash _, ?_⟩
  by_cases hsame : hash (Standard.digest room) [] = hash (Standard.digest room') []
  swap
  · exact Or.inl hsame
  · have hprocess : ∀ (message : List UInt8) (value : Buffers), ∀ block ∈ blocks 64 (Standard.padded message),
        Standard.compress value block = SHA1.processBlock value block :=
      fun message value block hblock => (SHA1.processBlock_eq (length_of_mem_blocks hblock) value).symm
    obtain ⟨before, block, before', block', hvisit, hvisit', hdiffer, heq⟩ :=
      Standard.digest_collision (by omega) (by omega) hne (hash_injective hsame)
    refine Or.inr ⟨before, block, before', block', hvisit.congr (hprocess room), hvisit'.congr (hprocess room'),
      hdiffer, ?_⟩
    rw [← hprocess room before block hvisit.mem, ← hprocess room' before' block' hvisit'.mem, heq]

/-- An object whose memory held only zeros. -/
def zeroMemory : SHA1 := ⟨⟨0, 0, 0, 0, 0⟩, 0, 0, Vector.replicate 64 0, 0, false, false⟩

/-- A name of one block and one of two. -/
theorem infoHash_differs_twoBlocks :
    ∃ infoHash₁ infoHash₂, infoHash zeroMemory [97] = some infoHash₁ ∧
      infoHash zeroMemory (List.replicate 70 98) = some infoHash₂ ∧
      infoHash₁.length = 20 ∧ infoHash₂.length = 20 ∧
      (infoHash₁ ≠ infoHash₂ ∨ ∃ before block before' block',
        Visits SHA1.processBlock Standard.start (blocks 64 (Standard.padded [97])) before block ∧
        Visits SHA1.processBlock Standard.start (blocks 64 (Standard.padded (List.replicate 70 98))) before' block' ∧
        (before, block) ≠ (before', block') ∧ SHA1.processBlock before block = SHA1.processBlock before' block') :=
  infoHash_differs zeroMemory zeroMemory [97] (List.replicate 70 98) (by decide) (by decide) (by decide)

end Thebends.Ypeer
