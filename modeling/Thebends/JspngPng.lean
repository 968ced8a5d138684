import Mathlib.Data.Nat.Log
import Thebends.JspngCrc
import Thebends.LibExcept

/-! The PNG encoder (`png.js`) and the zlib stream inside it (`zlib.js`), which stores the pixels without
compression. -/

namespace Thebends.Jspng

/-! ### zlib -/

/-- The loop body of `update_adler32`. -/
def adlerRound (sums : Number × Number) (b : Number) : Number × Number :=
  let base := 65521
  let s1 := Int.tmod (sums.1 + b) base
  let s2 := Int.tmod (sums.2 + s1) base
  (s1, s2)

/-- `update_adler32`. -/
def updateAdler32 (adler : Number) (buf : List Number) : Number :=
  let sums := buf.foldl adlerRound (bitAnd adler 0xffff, bitAnd (shiftRight adler 16) 0xffff)
  shiftRightZero (shiftLeft (shiftRightZero sums.2 0) 16 + shiftRightZero sums.1 0) 0

/-- `adler32`. -/
def adler32 (buf : List Number) : Number := updateAdler32 1 buf

/-- `deflate`. The quotient of the logarithms is exact where the block size is a power of two. -/
def deflate (uncompressed : List Number) (blockSize : Nat) : Except String (List Number) := do
  let cminfo : Number := (Nat.log 2 blockSize : Int) - 8
  if uncompressed.length > blockSize then .error "Data is larger than the block size"
  else
    let cmf := bitOr (shiftLeft cminfo 4) 0x8
    let flg := 31 - Int.tmod (cmf * 256 + 0) 31
    let blockLength : Number := uncompressed.length
    let blockLengthComp := bitAnd (bitNot blockLength) 0xffff
    let data := [cmf, flg, 1,
      bitAnd blockLength 0xff, shiftRight (bitAnd blockLength 0xff00) 8,
      bitAnd blockLengthComp 0xff, shiftRight (bitAnd blockLengthComp 0xff00) 8]
    let data := data ++ uncompressed
    uint32 (adler32 uncompressed) data

/-! ### Chunks -/

/-- The character codes of a string. -/
def charCodes (s : String) : List Number := s.toList.map fun c => (c.toNat : Int)

/-- The four bytes of a width, of a height or of a length. -/
def fourBytes (n : Number) : List Number :=
  [shiftRight (bitAnd n 0xff000000) 24, shiftRight (bitAnd n 0xff0000) 16, shiftRight (bitAnd n 0xff00) 8,
    bitAnd n 0xff]

/-- `addCRC`. -/
def addCRC (data : List Number) (start len : Nat) : Except String (List Number) :=
  uint32 (compute (slice data start len)) data

/-- `IHDR`. -/
def ihdr (data : List Number) (width height bitDepth colorType : Number) : Except String (List Number) :=
  let start := data.length
  let length := 21
  let data := setAt data (start + length - 1) 0
  let data := splice data start 4 [0x00, 0x00, 0x00, 0x0d]
  let start := start + 4
  let crcStart := start
  let data := splice data start 4 (charCodes "IHDR")
  let start := start + 4
  let data := splice data start 4 (fourBytes width)
  let start := start + 4
  let data := splice data start 4 (fourBytes height)
  let start := start + 4
  let data := setAt data start bitDepth
  let start := start + 1
  let data := setAt data start colorType
  let start := start + 1
  let data := setAt data start 0
  let start := start + 1
  let data := setAt data start 0
  let start := start + 1
  let data := setAt data start 0
  let start := start + 1
  if start ≠ data.length then .error "Internal error"
  else addCRC data crcStart data.length

/-- `IEND`. -/
def iend (data : List Number) : Except String (List Number) :=
  let start := data.length
  let data := splice data start 4 [0x00, 0x00, 0x00, 0x00]
  let data := splice data (start + 4) 4 (charCodes "IEND")
  addCRC data (start + 4) (start + 8)

/-- `IDAT`. -/
def idat (pixels : List Number) (blockSize : Nat) : Except String (List Number) := do
  let data ← deflate pixels blockSize
  let length := data.length
  let data := splice data 0 0 (fourBytes length)
  let data := splice data 4 0 (charCodes "IDAT")
  addCRC data 4 data.length

/-! ### The encoder -/

/-- `Png`. -/
structure Png where
  width : Number
  height : Number
  bitDepth : Number
  colorType : Number
  pixels : List Number

/-- `getBytes`. -/
def Png.getBytes (png : Png) : Except String (List Number) := do
  let data := [137, 80, 78, 71, 13, 10, 26, 10]
  let data ← ihdr data png.width png.height png.bitDepth png.colorType
  let left : Int := png.pixels.length
  let blockSize : Nat := 2 ^ 15
  let blockCount := Int.tdiv (left - 1) blockSize + 1
  let data ← (List.range blockCount.toNat).foldlM (fun data i => do
    let start := i * blockSize
    let length := blockSize
    let d := slice png.pixels start length
    .ok (data ++ (← idat d blockSize))) data
  iend data

end Thebends.Jspng
