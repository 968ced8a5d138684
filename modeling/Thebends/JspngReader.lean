import Thebends.JspngPng

/-! What the encoder writes, read back. The reader is the format's own: it takes the signature and the three chunks,
checks the CRC of each, and takes the pixels out of a zlib stream of one stored block. -/

namespace Thebends.Jspng

open LibNetOrder LibExcept

/-! ### The reader -/

/-- The first bytes, and the rest. -/
def takeBytes (count : Nat) (bytes : Bytes) : Option (Bytes × Bytes) :=
  if count ≤ bytes.length then some (bytes.take count, bytes.drop count) else none

/-- The data of a chunk of a type. -/
def readChunk (type : Bytes) (bytes : Bytes) : Option (Bytes × Bytes) := do
  let (length, bytes) ← takeBytes 4 bytes
  let (kind, bytes) ← takeBytes 4 bytes
  guard (kind = type)
  let (data, bytes) ← takeBytes (ofNetwork length) bytes
  let (check, bytes) ← takeBytes 4 bytes
  guard (ofNetwork check = crc32 (kind ++ data))
  some (data, bytes)

/-- The sum of the bytes, and the sum of all the sums, with one more byte. -/
def addByte (sums : Nat × Nat) (byte : UInt8) : Nat × Nat :=
  (sums.1 + byte.toNat, sums.2 + (sums.1 + byte.toNat))

/-- Adler-32. -/
def adler (bytes : Bytes) : Nat :=
  let sums := bytes.foldl addByte (1, 0)
  sums.2 % 65521 * 2 ^ 16 + sums.1 % 65521

/-- A stored block that is the last one: its length in two bytes, the lower one first, and the complement of it. -/
def readStored : Bytes → Option (Bytes × Bytes)
  | first :: low :: high :: low' :: high' :: bytes => do
      guard (first = 1)
      let length := low.toNat + 256 * high.toNat
      guard (low'.toNat + 256 * high'.toNat = 65535 - length)
      takeBytes length bytes
  | _ => none

/-- A zlib stream without a dictionary. -/
def inflate : Bytes → Option Bytes
  | cmf :: flg :: bytes => do
      guard (cmf.toNat % 16 = 8 ∧ cmf.toNat / 16 ≤ 7)
      guard ((cmf.toNat * 256 + flg.toNat) % 31 = 0)
      guard (flg.toNat / 32 % 2 = 0)
      let (data, bytes) ← readStored bytes
      let (check, bytes) ← takeBytes 4 bytes
      guard (ofNetwork check = adler data)
      guard (bytes = [])
      some data
  | _ => none

/-- `IHDR`. -/
structure Header where
  width : Nat
  height : Nat
  bitDepth : UInt8
  colorType : UInt8
  compression : UInt8
  filter : UInt8
  interlace : UInt8
  deriving DecidableEq, Repr

def readHeader (data : Bytes) : Option Header := do
  let (width, data) ← takeBytes 4 data
  let (height, data) ← takeBytes 4 data
  match data with
  | [bitDepth, colorType, compression, filter, interlace] =>
      some ⟨ofNetwork width, ofNetwork height, bitDepth, colorType, compression, filter, interlace⟩
  | _ => none

structure Image where
  header : Header
  pixels : Bytes
  deriving DecidableEq, Repr

def signature : Bytes := [137, 80, 78, 71, 13, 10, 26, 10]

def ihdrType : Bytes := [73, 72, 68, 82]

def idatType : Bytes := [73, 68, 65, 84]

def iendType : Bytes := [73, 69, 78, 68]

/-- A PNG of one header, one chunk of data and an end. -/
def readPng (bytes : Bytes) : Option Image := do
  let (start, bytes) ← takeBytes 8 bytes
  guard (start = signature)
  let (header, bytes) ← readChunk ihdrType bytes
  let (data, bytes) ← readChunk idatType bytes
  let (last, bytes) ← readChunk iendType bytes
  guard (last = [] ∧ bytes = [])
  let header ← readHeader header
  let pixels ← inflate data
  some ⟨header, pixels⟩

/-! ### The zlib stream -/

/-- A pair of sums, reduced. -/
def reduced (sums : Nat × Nat) : Number × Number := (((sums.1 % 65521 : Nat) : Int), ((sums.2 % 65521 : Nat) : Int))

theorem adlerRound_reduced (sums : Nat × Nat) (byte : UInt8) :
    adlerRound (reduced sums) byte.toNat = reduced (addByte sums byte) := by
  have hfirst : Int.tmod (((sums.1 % 65521 : Nat) : Int) + (byte.toNat : Int)) 65521 =
      (((sums.1 + byte.toNat) % 65521 : Nat) : Int) := by
    rw [Int.tmod_eq_emod_of_nonneg (by omega)]
    omega
  have hsecond : Int.tmod (((sums.2 % 65521 : Nat) : Int) + (((sums.1 + byte.toNat) % 65521 : Nat) : Int)) 65521 =
      (((sums.2 + (sums.1 + byte.toNat)) % 65521 : Nat) : Int) := by
    rw [Int.tmod_eq_emod_of_nonneg (by omega)]
    omega
  rw [adlerRound, reduced]
  dsimp only
  rw [hfirst, hsecond]
  rfl

theorem foldl_adlerRound (bytes : Bytes) (sums : Nat × Nat) :
    (numbers bytes).foldl adlerRound (reduced sums) = reduced (bytes.foldl addByte sums) := by
  induction bytes generalizing sums with
  | nil => rfl
  | cons byte bytes ih =>
      rw [List.foldl_cons, ← ih, ← adlerRound_reduced]
      rfl

theorem shiftRightZero_natCast {n : Nat} (h : n < 2 ^ 32) : shiftRightZero n 0 = n := by
  rw [shiftRightZero, BitVec.ushiftRight_zero, bits_natCast, BitVec.toNat_ofNat, Nat.mod_eq_of_lt h]

/-- The two sums in one number, whose upper half may have made it negative on the way. -/
theorem shiftLeft_add {low high : Nat} (hlow : low < 2 ^ 16) (hhigh : high < 2 ^ 16) :
    shiftRightZero (shiftLeft high 16 + low) 0 = ((high * 2 ^ 16 + low : Nat) : Int) := by
  have hbits : bits (shiftLeft high 16 + low) = .ofNat 32 (high * 2 ^ 16 + low) := by
    apply BitVec.eq_of_toNat_eq
    rw [bits, BitVec.ofInt_add, shiftLeft, BitVec.ofInt_toInt, BitVec.ofInt_natCast, bits_natCast, BitVec.toNat_add,
      BitVec.toNat_shiftLeft, BitVec.toNat_ofNat, BitVec.toNat_ofNat, BitVec.toNat_ofNat, Nat.shiftLeft_eq]
    omega
  rw [shiftRightZero, hbits, BitVec.ushiftRight_zero, BitVec.toNat_ofNat, Nat.mod_eq_of_lt (by omega)]

/-- **The checksum of the encoder is Adler-32.** -/
theorem adler32_numbers (bytes : Bytes) : adler32 (numbers bytes) = adler bytes := by
  have hstart : (bitAnd 1 0xffff, bitAnd (shiftRight 1 16) 0xffff) = reduced (1, 0) := rfl
  have hlow := Nat.mod_lt (bytes.foldl addByte (1, 0)).1 (by decide : 0 < 65521)
  have hhigh := Nat.mod_lt (bytes.foldl addByte (1, 0)).2 (by decide : 0 < 65521)
  rw [adler32, updateAdler32, hstart, foldl_adlerRound]
  dsimp only [reduced]
  rw [shiftRightZero_natCast (by omega), shiftRightZero_natCast (by omega), shiftLeft_add (by omega) (by omega)]
  rfl

theorem adler_lt (bytes : Bytes) : adler bytes < 2 ^ 32 := by
  have hlow := Nat.mod_lt (bytes.foldl addByte (1, 0)).1 (by decide : 0 < 65521)
  have hhigh := Nat.mod_lt (bytes.foldl addByte (1, 0)).2 (by decide : 0 < 65521)
  rw [adler]
  omega

/-- A number of two bytes, the lower one first. -/
def littleEndian (n : Nat) : Bytes := [UInt8.ofNat n, UInt8.ofNat (n / 2 ^ 8)]

/-- The zlib stream that stores the bytes as they are. -/
def stored (bytes : Bytes) : Bytes :=
  [0x78, 0x01, 1] ++ littleEndian bytes.length ++ littleEndian (65535 - bytes.length) ++ bytes ++
    toNetwork 4 (adler bytes)

theorem length_stored (bytes : Bytes) : (stored bytes).length = bytes.length + 11 := by
  rw [stored]
  simp only [List.length_append, List.length_cons, List.length_nil, length_toNetwork, littleEndian]
  omega

theorem bitAnd_bitNot {n : Nat} (h : n < 2 ^ 16) : bitAnd (bitNot n) 0xffff = ((65535 - n : Nat) : Int) := by
  have hmask : (~~~bits n &&& bits 0xffff).toNat = 65535 - n := by
    rw [show bits 0xffff = .ofNat 32 (2 ^ 16 - 1) from rfl, toNat_and_mask _ 16 (by decide), BitVec.toNat_not,
      bits_natCast, BitVec.toNat_ofNat]
    omega
  rw [bitAnd, bitNot, bits_toInt, toInt_of_lt, hmask]
  rw [hmask]
  omega

/-- The two bytes of a number, as the encoder takes them out of it. -/
theorem numbers_littleEndian {n : Nat} (h : n < 2 ^ 16) :
    [bitAnd n 0xff, shiftRight (bitAnd n 0xff00) 8] = numbers (littleEndian n) := by
  have hhigh : shiftRight (bitAnd n 0xff00) 8 = (UInt8.ofNat (n / 2 ^ 8)).toNat :=
    shiftRight_bitAnd (h.trans (by decide)) 8 (by decide)
  rw [bitAnd_byte n (h.trans (by decide)), hhigh]
  rfl

/-- **The pixels are stored**, with a header whose check is right. -/
theorem deflate_numbers {bytes : Bytes} (h : bytes.length ≤ 2 ^ 15) :
    deflate (numbers bytes) (2 ^ 15) = .ok (numbers (stored bytes)) := by
  have hcminfo : ((Nat.log 2 (2 ^ 15) : Nat) : Int) - 8 = 7 := by
    rw [Nat.log_pow (by decide)]
    rfl
  have hcmf : bitOr (shiftLeft 7 4) 0x8 = 120 := rfl
  have hflg : 31 - Int.tmod (120 * 256 + 0) 31 = 1 := rfl
  have hhead : [120, 1, 1, bitAnd bytes.length 0xff, shiftRight (bitAnd bytes.length 0xff00) 8,
      bitAnd ((65535 - bytes.length : Nat) : Int) 0xff, shiftRight (bitAnd ((65535 - bytes.length : Nat) : Int) 0xff00) 8] =
        numbers [0x78, 0x01, 1] ++ numbers (littleEndian bytes.length) ++
          numbers (littleEndian (65535 - bytes.length)) := by
    rw [← numbers_littleEndian (by omega), ← numbers_littleEndian (by omega)]
    rfl
  rw [deflate, length_numbers]
  dsimp only
  rw [if_neg (by omega), hcminfo, bitAnd_bitNot (by omega), adler32_numbers, uint32_ok (adler_lt bytes), hcmf, hflg,
    hhead, stored, numbers_append, numbers_append, numbers_append, numbers_append]

/-! ### The chunks -/

/-- A chunk: length, type, data and CRC. -/
def chunk (type data : Bytes) : Bytes :=
  toNetwork 4 data.length ++ (type ++ data) ++ toNetwork 4 (crc32 (type ++ data))

/-- The data of `IHDR`. -/
def headerData (header : Header) : Bytes :=
  toNetwork 4 header.width ++ toNetwork 4 header.height ++
    [header.bitDepth, header.colorType, header.compression, header.filter, header.interlace]

theorem length_headerData (header : Header) : (headerData header).length = 13 := by
  simp only [headerData, List.length_append, length_toNetwork, List.length_cons, List.length_nil]

theorem fourBytes_ok {n : Nat} (h : n < 2 ^ 31) : fourBytes n = numbers (toNetwork 4 n) := by
  have hfirst : shiftRight (bitAnd n 0xff000000) 24 = (UInt8.ofNat (n / 2 ^ 24)).toNat :=
    shiftRight_bitAnd h 24 (by decide)
  have hsecond : shiftRight (bitAnd n 0xff0000) 16 = (UInt8.ofNat (n / 2 ^ 16)).toNat :=
    shiftRight_bitAnd h 16 (by decide)
  have hthird : shiftRight (bitAnd n 0xff00) 8 = (UInt8.ofNat (n / 2 ^ 8)).toNat := shiftRight_bitAnd h 8 (by decide)
  rw [fourBytes, hfirst, hsecond, hthird, bitAnd_byte n (h.trans (by decide)), toNetwork_four]
  rfl

/-- The CRC of what stands behind the length of a chunk. -/
theorem addCRC_ok (before content : Bytes) :
    addCRC (numbers (before ++ content)) before.length (before.length + content.length) =
      .ok (numbers (before ++ content ++ toNetwork 4 (crc32 content))) := by
  have hslice : slice (numbers (before ++ content)) before.length (before.length + content.length) =
      numbers content := by
    rw [slice, numbers_append, ← length_numbers before, ← length_numbers content, ← List.length_append,
      List.take_length, List.drop_left]
  rw [addCRC, hslice, compute_numbers, uint32_ok (crc32_lt content), ← numbers_append]

theorem splice_append (before rest : List Number) (start deleteCount : Nat) (items : List Number) :
    splice (before ++ rest) (before.length + start) deleteCount items =
      before ++ splice rest start deleteCount items := by
  rw [splice, splice, Nat.add_assoc, List.take_length_add_append, List.drop_length_add_append, List.append_assoc,
    List.append_assoc, List.append_assoc]

theorem setAt_append (before rest : List Number) (index : Nat) (value : Number) :
    setAt (before ++ rest) (before.length + index) value = before ++ setAt rest index value := by
  rw [setAt, setAt, List.length_append]
  by_cases h : index < rest.length
  · rw [if_pos h, if_pos (by omega), List.set_append_right _ _ (Nat.le_add_right _ _), Nat.add_sub_cancel_left]
  · rw [if_neg h, if_neg (by omega), Nat.add_sub_add_left, List.append_assoc, List.append_assoc, List.append_assoc]

/-- The array that `IHDR` puts together. -/
theorem ihdr_eq (data : List Number) (width height bitDepth colorType : Number) :
    ihdr data width height bitDepth colorType =
      addCRC (data ++ ([0, 0, 0, 13] ++ (numbers ihdrType ++ (fourBytes width ++ (fourBytes height ++
        [bitDepth, colorType, 0, 0, 0]))))) (data.length + 4) (data.length + 21) := by
  have hzeros : setAt data (data.length + 21 - 1) 0 = data ++ List.replicate 21 0 := by
    have h := setAt_append data [] 20 0
    rw [List.append_nil] at h
    exact h
  have hlength : splice (data ++ List.replicate 21 0) data.length 4 [0, 0, 0, 13] =
      data ++ ([0, 0, 0, 13] ++ List.replicate 17 0) := splice_append data _ 0 4 _
  have htype : splice (data ++ ([0, 0, 0, 13] ++ List.replicate 17 0)) (data.length + 4) 4 (charCodes "IHDR") =
      data ++ ([0, 0, 0, 13] ++ (numbers ihdrType ++ List.replicate 13 0)) := splice_append data _ 4 4 _
  have hwidth : splice (data ++ ([0, 0, 0, 13] ++ (numbers ihdrType ++ List.replicate 13 0))) (data.length + 4 + 4) 4
      (fourBytes width) = data ++ ([0, 0, 0, 13] ++ (numbers ihdrType ++ (fourBytes width ++ List.replicate 9 0))) :=
    splice_append data _ 8 4 _
  have hheight : splice (data ++ ([0, 0, 0, 13] ++ (numbers ihdrType ++ (fourBytes width ++ List.replicate 9 0))))
      (data.length + 4 + 4 + 4) 4 (fourBytes height) =
        data ++ ([0, 0, 0, 13] ++ (numbers ihdrType ++ (fourBytes width ++ (fourBytes height ++
          List.replicate 5 0)))) := splice_append data _ 12 4 _
  have hset : ∀ a b c d e, setAt (setAt (setAt (setAt (setAt (data ++ ([0, 0, 0, 13] ++ (numbers ihdrType ++
      (fourBytes width ++ (fourBytes height ++ List.replicate 5 0))))) (data.length + 16) a) (data.length + 17) b)
        (data.length + 18) c) (data.length + 19) d) (data.length + 20) e =
        data ++ ([0, 0, 0, 13] ++ (numbers ihdrType ++ (fourBytes width ++ (fourBytes height ++ [a, b, c, d, e])))) := by
    intro a b c d e
    rw [setAt_append, setAt_append, setAt_append, setAt_append, setAt_append]
    rfl
  have hend : (data ++ ([0, 0, 0, 13] ++ (numbers ihdrType ++ (fourBytes width ++ (fourBytes height ++
      [bitDepth, colorType, 0, 0, 0]))))).length = data.length + 21 := List.length_append
  rw [ihdr, hzeros, hlength, htype, hwidth, hheight]
  simp only [Nat.add_assoc, Nat.reduceAdd, hset, hend, ne_eq, not_true_eq_false, if_false]

/-- **`IHDR` appends the chunk of the header.** -/
theorem ihdr_ok (before : Bytes) {header : Header} (hwidth : header.width < 2 ^ 31) (hheight : header.height < 2 ^ 31)
    (hstandard : header.compression = 0 ∧ header.filter = 0 ∧ header.interlace = 0) :
    ihdr (numbers before) header.width header.height header.bitDepth.toNat header.colorType.toNat =
      .ok (numbers (before ++ chunk ihdrType (headerData header))) := by
  obtain ⟨hcompression, hfilter, hinterlace⟩ := hstandard
  have harray : numbers before ++ ([0, 0, 0, 13] ++ (numbers ihdrType ++ (numbers (toNetwork 4 header.width) ++
      (numbers (toNetwork 4 header.height) ++
        [(header.bitDepth.toNat : Int), (header.colorType.toNat : Int), 0, 0, 0])))) =
      numbers (before ++ toNetwork 4 (headerData header).length ++ (ihdrType ++ headerData header)) := by
    rw [length_headerData, headerData, hcompression, hfilter, hinterlace, List.append_assoc, List.append_assoc, numbers_append,
      numbers_append, numbers_append, numbers_append, numbers_append]
    rfl
  have hcontent : (ihdrType ++ headerData header).length = 17 := by
    rw [List.length_append, length_headerData]
    rfl
  have hcrc := addCRC_ok (before ++ toNetwork 4 (headerData header).length) (ihdrType ++ headerData header)
  rw [hcontent, List.length_append, length_toNetwork] at hcrc
  rw [ihdr_eq, fourBytes_ok hwidth, fourBytes_ok hheight, harray, length_numbers, chunk, hcrc]
  simp only [List.append_assoc]

/-- **`IEND` appends the empty chunk.** -/
theorem iend_ok (before : Bytes) : iend (numbers before) = .ok (numbers (before ++ chunk iendType [])) := by
  have hlength : ((numbers before).length + 4 : Nat) = (before ++ toNetwork 4 0).length := by
    rw [length_numbers, List.length_append, length_toNetwork]
  have hdata : splice (numbers before ++ [0, 0, 0, 0]) ((numbers before).length + 4) 4 (charCodes "IEND") =
      numbers (before ++ toNetwork 4 0 ++ iendType) := by
    rw [splice_append, numbers_append, numbers_append, List.append_assoc]
    rfl
  rw [iend, splice_length, hdata, show (numbers before).length + 8 = (numbers before).length + 4 + iendType.length from rfl,
    hlength, addCRC_ok, chunk, List.append_nil, List.append_assoc, List.append_assoc, List.append_assoc]
  rfl

/-- **`IDAT` is the chunk of the stream.** -/
theorem idat_ok {pixels : Bytes} (h : pixels.length ≤ 2 ^ 15) :
    idat (numbers pixels) (2 ^ 15) = .ok (numbers (chunk idatType (stored pixels))) := by
  have hlength : (stored pixels).length < 2 ^ 31 := by
    rw [length_stored]
    omega
  have hdata : splice (splice (numbers (stored pixels)) 0 0 (fourBytes (stored pixels).length)) 4 0 (charCodes "IDAT") =
      numbers (toNetwork 4 (stored pixels).length ++ (idatType ++ stored pixels)) := by
    rw [fourBytes_ok hlength, numbers_append, numbers_append]
    rfl
  have hcrc := addCRC_ok (toNetwork 4 (stored pixels).length) (idatType ++ stored pixels)
  have hcount : (toNetwork 4 (stored pixels).length ++ (idatType ++ stored pixels)).length =
      4 + (idatType ++ stored pixels).length := by
    rw [List.length_append, length_toNetwork]
  rw [length_toNetwork, ← hcount] at hcrc
  refine bind_ok (deflate_numbers h) ?_
  dsimp only
  rw [length_numbers, hdata, length_numbers, hcrc, chunk]

/-! ### Reading -/

theorem bind_some {α β : Type} {first : Option α} {next : α → Option β} {value : α} {result : β} (h : first = some value)
    (h' : next value = some result) : (first >>= next) = some result := by
  rw [h]
  exact h'

theorem guard_some {α : Type} {p : Prop} [Decidable p] {next : Unit → Option α} {result : α} (h : p)
    (h' : next () = some result) : (guard p >>= next) = some result := by
  rw [guard, if_pos h]
  exact h'

theorem takeBytes_append {count : Nat} {bytes : Bytes} (h : bytes.length = count) (rest : Bytes) :
    takeBytes count (bytes ++ rest) = some (bytes, rest) := by
  rw [← h, takeBytes, if_pos (List.length_append ▸ Nat.le_add_right _ _), List.take_left, List.drop_left]

theorem takeBytes_all {count : Nat} {bytes : Bytes} (h : bytes.length = count) :
    takeBytes count bytes = some (bytes, []) := by
  have hall := takeBytes_append h []
  rwa [List.append_nil] at hall

/-- **A chunk is read back.** -/
theorem readChunk_chunk {type data : Bytes} (htype : type.length = 4) (hdata : data.length < 2 ^ 32) (rest : Bytes) :
    readChunk type (chunk type data ++ rest) = some (data, rest) := by
  have hlength : data.length = ofNetwork (toNetwork 4 data.length) := (ofNetwork_toNetwork (by omega)).symm
  have hcheck : ofNetwork (toNetwork 4 (crc32 (type ++ data))) = crc32 (type ++ data) :=
    ofNetwork_toNetwork (crc32_lt _)
  have hbytes : chunk type data ++ rest =
      toNetwork 4 data.length ++ (type ++ (data ++ (toNetwork 4 (crc32 (type ++ data)) ++ rest))) := by
    rw [chunk]
    simp only [List.append_assoc]
  rw [readChunk, hbytes]
  refine bind_some (takeBytes_append (length_toNetwork _ _) _) ?_
  refine bind_some (takeBytes_append htype _) (guard_some rfl ?_)
  refine bind_some (takeBytes_append hlength _) ?_
  exact bind_some (takeBytes_append (length_toNetwork _ _) _) (guard_some hcheck rfl)

/-- Two bytes are read back. -/
theorem littleEndian_value {n : Nat} (h : n < 2 ^ 16) :
    (UInt8.ofNat n).toNat + 256 * (UInt8.ofNat (n / 2 ^ 8)).toNat = n := by
  rw [UInt8.toNat_ofNat', UInt8.toNat_ofNat']
  omega

theorem readStored_stored {bytes : Bytes} (h : bytes.length < 2 ^ 16) (rest : Bytes) :
    readStored ([1] ++ littleEndian bytes.length ++ littleEndian (65535 - bytes.length) ++ (bytes ++ rest)) =
      some (bytes, rest) := by
  have hlength := littleEndian_value h
  have hcomplement : (UInt8.ofNat (65535 - bytes.length)).toNat +
      256 * (UInt8.ofNat ((65535 - bytes.length) / 2 ^ 8)).toNat = 65535 -
        ((UInt8.ofNat bytes.length).toNat + 256 * (UInt8.ofNat (bytes.length / 2 ^ 8)).toNat) := by
    rw [hlength, littleEndian_value (by omega)]
  exact guard_some rfl (guard_some hcomplement (takeBytes_append hlength.symm rest))

/-- **The stream inflates to what was stored.** -/
theorem inflate_stored {bytes : Bytes} (h : bytes.length < 2 ^ 16) : inflate (stored bytes) = some bytes := by
  have hcheck : ofNetwork (toNetwork 4 (adler bytes)) = adler bytes := ofNetwork_toNetwork (adler_lt bytes)
  have hbytes : stored bytes = 0x78 :: 0x01 :: ([1] ++ littleEndian bytes.length ++
      littleEndian (65535 - bytes.length) ++ (bytes ++ toNetwork 4 (adler bytes))) := by
    rw [stored]
    simp only [List.append_assoc]
    rfl
  rw [hbytes]
  refine guard_some (by decide) (guard_some (by decide) (guard_some (by decide) ?_))
  refine bind_some (readStored_stored h _) ?_
  exact bind_some (takeBytes_all (length_toNetwork _ _)) (guard_some hcheck (guard_some rfl rfl))

theorem readHeader_headerData {header : Header} (hwidth : header.width < 2 ^ 32) (hheight : header.height < 2 ^ 32) :
    readHeader (headerData header) = some header := by
  have hbytes : headerData header = toNetwork 4 header.width ++ (toNetwork 4 header.height ++
      [header.bitDepth, header.colorType, header.compression, header.filter, header.interlace]) := by
    rw [headerData, List.append_assoc]
  rw [hbytes]
  refine bind_some (takeBytes_append (length_toNetwork _ _) _) (bind_some (takeBytes_append (length_toNetwork _ _) _) ?_)
  dsimp only
  rw [ofNetwork_toNetwork (by omega), ofNetwork_toNetwork (by omega)]

/-! ### The whole file -/

/-- The file that the encoder writes. -/
def file (image : Image) : Bytes :=
  signature ++ (chunk ihdrType (headerData image.header) ++ (chunk idatType (stored image.pixels) ++
    (chunk iendType [] ++ [])))

/-- An image without filters and interlacing. -/
def plainImage (width height : Nat) (bitDepth colorType : UInt8) (pixels : Bytes) : Image :=
  ⟨⟨width, height, bitDepth, colorType, 0, 0, 0⟩, pixels⟩

/-- A file of three chunks is read back. -/
theorem readPng_file {image : Image} (hwidth : image.header.width < 2 ^ 32) (hheight : image.header.height < 2 ^ 32)
    (hpixels : image.pixels.length < 2 ^ 16) : readPng (file image) = some image := by
  have hheader : (headerData image.header).length < 2 ^ 32 := by
    rw [length_headerData]
    decide
  have hstored : (stored image.pixels).length < 2 ^ 32 := by
    rw [length_stored]
    omega
  rw [readPng, file]
  refine bind_some (takeBytes_append (rfl : signature.length = 8) _) (guard_some rfl ?_)
  refine bind_some (readChunk_chunk rfl hheader _) (bind_some (readChunk_chunk rfl hstored _) ?_)
  refine bind_some (readChunk_chunk rfl (by decide) _) (guard_some ⟨rfl, rfl⟩ ?_)
  exact bind_some (readHeader_headerData hwidth hheight) (bind_some (inflate_stored hpixels) rfl)

/-- **What the encoder writes is read back**: the signature, a header with the values of the image, one chunk of data
that inflates to the pixels, and an end. -/
theorem getBytes_read {width height : Nat} (bitDepth colorType : UInt8) {pixels : Bytes} (hwidth : width < 2 ^ 31)
    (hheight : height < 2 ^ 31) (hpixels : pixels.length ≤ 32768) :
    ∃ bytes, Png.getBytes ⟨width, height, bitDepth.toNat, colorType.toNat, numbers pixels⟩ = .ok (numbers bytes) ∧
      readPng bytes = some (plainImage width height bitDepth colorType pixels) := by
  refine ⟨file (plainImage width height bitDepth colorType pixels), ?_, readPng_file ?_ ?_ ?_⟩
  · have hone : (Int.tdiv ((pixels.length : Int) - 1) ((2 ^ 15 : Nat) : Int) + 1).toNat = 1 := by
      rcases Nat.eq_zero_or_pos pixels.length with hzero | hpos
      · rw [hzero]
        rfl
      · rw [Int.tdiv_eq_ediv_of_nonneg (by omega)]
        omega
    have hslice : slice (numbers pixels) (0 * 2 ^ 15) (2 ^ 15) = numbers pixels := by
      rw [slice, Nat.zero_mul, List.drop_zero]
      exact List.take_of_length_le ((length_numbers pixels).trans_le hpixels)
    have hheader := @ihdr_ok signature ⟨width, height, bitDepth, colorType, 0, 0, 0⟩ hwidth hheight ⟨rfl, rfl, rfl⟩
    rw [Png.getBytes]
    refine bind_ok hheader ?_
    dsimp only
    rw [length_numbers, hone, List.range_one, List.foldlM_cons, hslice, idat_ok hpixels]
    show iend (numbers (signature ++ chunk ihdrType _) ++ numbers (chunk idatType (stored pixels))) = _
    rw [← numbers_append, iend_ok, file, List.append_nil, List.append_assoc, List.append_assoc]
    rfl
  · exact hwidth.trans (by decide)
  · exact hheight.trans (by decide)
  · exact Nat.lt_of_le_of_lt hpixels (by decide)

/-- A picture of two by two pixels. -/
theorem getBytes_read_four :
    ∃ bytes, Png.getBytes ⟨2, 2, 8, 0, numbers [0, 76, 255, 2, 74, 29]⟩ = .ok (numbers bytes) ∧
      readPng bytes = some (plainImage 2 2 8 0 [0, 76, 255, 2, 74, 29]) :=
  getBytes_read 8 0 (by decide) (by decide) (by decide)

end Thebends.Jspng
