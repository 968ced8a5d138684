import Thebends.LibNetOrder
import Mathlib.Data.List.Nodup

/-! The ARP handler of the AVR network program (`avr/net/arp.c`, with the byte order of `util.c` and the frames of
`net.c`). A number in memory has its lowest byte first, and a packet is handled where it was received, so its fields
hold the numbers of the packet with their bytes exchanged. A packet lies in the array of the driver, and what is
allocated in the heap, where memory is always found. -/

namespace Thebends.AvrNet

open LibNetOrder

/-- `uint8_t[ETHER_ADDR_LEN]`. -/
abbrev Mac := Vector UInt8 6

/-- `ntohs`. -/
def ntohs (value : UInt16) : UInt16 :=
  let tmpA := (value &&& 0xff00) >>> 8
  let tmpB := (value &&& 0x00ff) <<< 8
  tmpB ||| tmpA

/-- `ntohl`. -/
def ntohl (value : UInt32) : UInt32 :=
  let tmpA := (value &&& 0xff000000) >>> 24
  let tmpB := (value &&& 0x00ff0000) >>> 8
  let tmpC := (value &&& 0x0000ff00) <<< 8
  let tmpD := (value &&& 0x000000ff) <<< 24
  tmpD ||| tmpC ||| tmpB ||| tmpA

/-- The bytes of a number in memory. -/
def bytes16 (value : UInt16) : List UInt8 := [value.toUInt8, (value >>> 8).toUInt8]

def bytes32 (value : UInt32) : List UInt8 :=
  [value.toUInt8, (value >>> 8).toUInt8, (value >>> 16).toUInt8, (value >>> 24).toUInt8]

/-- `arp_header`. -/
structure ArpHeader where
  arHrd : UInt16
  arPro : UInt16
  arHln : UInt8
  arPln : UInt8
  arOp : UInt16
  arSha : Mac
  arSpa : UInt32
  arTha : Mac
  arTpa : UInt32

/-- The header in memory. -/
def ArpHeader.bytes (arp : ArpHeader) : List UInt8 :=
  bytes16 arp.arHrd ++ bytes16 arp.arPro ++ [arp.arHln, arp.arPln] ++ bytes16 arp.arOp ++ arp.arSha.toList ++
    bytes32 arp.arSpa ++ arp.arTha.toList ++ bytes32 arp.arTpa

def arphrdEther : UInt16 := 1

def ethertypeIp : UInt16 := 0x0800

def ethertypeArp : UInt16 := 0x0806

def etherAddrLen : UInt8 := 6

def ipAddrLen : UInt8 := 4

def arpopRequest : UInt16 := 1

def arpopReply : UInt16 := 2

/-- `MAC_ADDRESS`, `allen1`. -/
def macAddress : Mac := #v[97, 108, 108, 101, 110, 49]

/-- An element of the list of ARP entries. -/
structure Entry where
  arPa : UInt32
  arHa : Mac

/-- `find`: where the entry is in the list. -/
def find (head : List Entry) (arPa : UInt32) : Option Nat := head.findIdx? fun cur => cur.arPa = arPa

/-- `update`. -/
def update (head : List Entry) (arPa : UInt32) (arHa : Mac) : Bool × List Entry :=
  match find head arPa with
  | some entry => (true, head.modify entry fun cur => { cur with arHa := arHa })
  | none => (false, head)

/-- Where a pointer leads: to a block that `malloc` has returned, or into the array of the driver with the packet. -/
inductive Pointer
  | block (number : Nat)
  | packet
  deriving DecidableEq, Repr

inductive Fault
  | badFree
  deriving DecidableEq, Repr

/-- The blocks that are in use, and the number of the next one. -/
structure Heap where
  blocks : List Nat
  next : Nat

/-- `malloc`. -/
def Heap.malloc (heap : Heap) : Pointer × Heap := (.block heap.next, ⟨heap.next :: heap.blocks, heap.next + 1⟩)

/-- `free`, which is for blocks that are in use; whatever else it is called with, nothing is known of the heap
afterwards. -/
def Heap.free (heap : Heap) : Pointer → Except Fault Heap
  | .block number =>
      if number ∈ heap.blocks then .ok { heap with blocks := heap.blocks.erase number } else .error .badFree
  | .packet => .error .badFree

/-- The heap, and the list of ARP entries from `head` on. -/
structure Memory where
  heap : Heap
  head : List Entry

/-- `insert`. -/
def insert (memory : Memory) (arPa : UInt32) (arHa : Mac) : Memory :=
  let (_, heap) := memory.heap.malloc
  ⟨heap, ⟨arPa, arHa⟩ :: memory.head⟩

/-- `write_packet`: the frame that is written, and the heap. It is `buf` that is freed in the end, and not the frame. -/
def writePacket (heap : Heap) (etherAddr : Mac) (etherType : UInt16) (buf : Pointer) (data : List UInt8) :
    List UInt8 × Except Fault Heap :=
  let (_, heap) := heap.malloc
  (etherAddr.toList ++ macAddress.toList ++ bytes16 (ntohs etherType) ++ data, heap.free buf)

/-- What `handle_arp` leaves: the packet, the frames that were written, and the memory. -/
structure Handled where
  arp : ArpHeader
  frames : List (List UInt8)
  memory : Except Fault Memory

/-- The calls of `ntohs` and `ntohl` in front of the test, and those behind the answer. -/
def exchange (arp : ArpHeader) : ArpHeader :=
  { arp with
    arHrd := ntohs arp.arHrd
    arPro := ntohs arp.arPro
    arOp := ntohs arp.arOp
    arSpa := ntohl arp.arSpa
    arTpa := ntohl arp.arTpa }

/-- The answer, written over the packet: the target first, and then the sender. -/
def answer (ip : UInt32) (arp : ArpHeader) : ArpHeader :=
  let arp := { arp with arOp := arpopReply, arTha := arp.arSha, arTpa := arp.arSpa }
  exchange { arp with arSha := macAddress, arSpa := ip }

/-- `handle_arp`, with `IP`. -/
def handleArp (ip : UInt32) (memory : Memory) (arp : ArpHeader) : Handled :=
  let arp := exchange arp
  if arp.arHrd ≠ arphrdEther ∨ arp.arPro ≠ ethertypeIp ∨ arp.arHln ≠ etherAddrLen ∨ arp.arPln ≠ ipAddrLen then
    ⟨arp, [], .ok memory⟩
  else
    let (merge, head) := update memory.head arp.arSpa arp.arSha
    let memory := { memory with head := head }
    if ip = arp.arTpa then
      let memory := if !merge then insert memory arp.arSpa arp.arSha else memory
      if arp.arOp = arpopRequest then
        let arp := answer ip arp
        -- the packet lies where the driver has received it
        let (frame, heap) := writePacket memory.heap arp.arTha ethertypeArp .packet arp.bytes
        ⟨arp, [frame], heap.map fun heap => { memory with heap := heap }⟩
      else ⟨arp, [], .ok memory⟩
    else ⟨arp, [], .ok memory⟩

/-- The memory after some packets. -/
def memoryAfter (ip : UInt32) (packets : List ArpHeader) : Except Fault Memory :=
  packets.foldlM (fun memory arp => (handleArp ip memory arp).memory) ⟨⟨[], 0⟩, []⟩

/-! ### The order of the bytes -/

/-- A byte out of the middle of a number. -/
theorem and_byte (value place : Nat) : value &&& (255 <<< place) = (value / 2 ^ place % 256) <<< place := by
  apply Nat.eq_of_testBit_eq
  intro i
  have hmask : (255 : Nat) = 2 ^ 8 - 1 := rfl
  have hmod : value / 2 ^ place % 256 = value / 2 ^ place % 2 ^ 8 := rfl
  rw [Nat.testBit_and, Nat.testBit_shiftLeft, Nat.testBit_shiftLeft, hmask, Nat.testBit_two_pow_sub_one, hmod,
    Nat.testBit_mod_two_pow, ← Nat.shiftRight_eq_div_pow, Nat.testBit_shiftRight]
  by_cases hi : place ≤ i
  · rw [decide_eq_true hi, Nat.add_sub_cancel' hi, Bool.true_and, Bool.true_and, Bool.and_comm]
  · rw [decide_eq_false hi, Bool.false_and, Bool.false_and, Bool.and_false]

theorem ntohs_toNat (value : UInt16) : (ntohs value).toNat = value.toNat % 256 * 256 + value.toNat / 256 := by
  have hlt := value.toNat_lt
  have hlow : value.toNat &&& 255 = value.toNat % 256 := Nat.and_two_pow_sub_one_eq_mod value.toNat 8
  have hhigh : value.toNat &&& 65280 = (value.toNat / 2 ^ 8 % 256) <<< 8 := and_byte value.toNat 8
  have hor := Nat.shiftLeft_add_eq_or_of_lt (show value.toNat / 256 < 2 ^ 8 by omega) (value.toNat % 256)
  rw [ntohs, UInt16.toNat_or, UInt16.toNat_shiftLeft, UInt16.toNat_shiftRight, UInt16.toNat_and, UInt16.toNat_and]
  show (value.toNat &&& 255) <<< 8 % 65536 ||| (value.toNat &&& 65280) >>> 8 = _
  rw [hlow, hhigh, Nat.shiftLeft_shiftRight, Nat.mod_eq_of_lt (by rw [Nat.shiftLeft_eq]; omega)]
  rw [show value.toNat / 2 ^ 8 % 256 = value.toNat / 256 by omega, ← hor, Nat.shiftLeft_eq]

theorem exists_bytes (value : UInt32) : ∃ a b c d, a < 256 ∧ b < 256 ∧ c < 256 ∧ d < 256 ∧
    value.toNat = ((a * 256 + b) * 256 + c) * 256 + d := by
  have hlt := value.toNat_lt
  refine ⟨value.toNat / 2 ^ 24, value.toNat / 2 ^ 16 % 256, value.toNat / 2 ^ 8 % 256, value.toNat % 256, ?_⟩
  omega

theorem ntohl_toNat {value : UInt32} {a b c d : Nat} (ha : a < 256) (hb : b < 256) (hc : c < 256) (hd : d < 256)
    (h : value.toNat = ((a * 256 + b) * 256 + c) * 256 + d) :
    (ntohl value).toNat = ((d * 256 + c) * 256 + b) * 256 + a := by
  have hlow : value.toNat &&& 255 = d := (Nat.and_two_pow_sub_one_eq_mod value.toNat 8).trans (by omega)
  have hthird : value.toNat &&& 65280 = c <<< 8 := (and_byte value.toNat 8).trans (congrArg (· <<< 8) (by omega))
  have hsecond : value.toNat &&& 16711680 = b <<< 16 := (and_byte value.toNat 16).trans (congrArg (· <<< 16) (by omega))
  have hhigh : value.toNat &&& 4278190080 = a <<< 24 := (and_byte value.toNat 24).trans (congrArg (· <<< 24) (by omega))
  have hd' : d <<< 24 % 2 ^ 32 = d <<< 24 := Nat.mod_eq_of_lt (by rw [Nat.shiftLeft_eq]; omega)
  have hc' : c <<< 8 <<< 8 % 2 ^ 32 = c <<< 16 := by
    rw [← Nat.shiftLeft_add]
    exact Nat.mod_eq_of_lt (by rw [Nat.shiftLeft_eq]; omega)
  have hb' : b <<< 16 >>> 8 = b <<< 8 := by
    rw [Nat.shiftLeft_add b 8 8]
    exact Nat.shiftLeft_shiftRight _ _
  have ha' : a <<< 24 >>> 24 = a := Nat.shiftLeft_shiftRight _ _
  have htmpD : ((value &&& 0x000000ff) <<< 24).toNat = d <<< 24 := by
    rw [UInt32.toNat_shiftLeft, UInt32.toNat_and, ← hd', ← hlow]
    rfl
  have htmpC : ((value &&& 0x0000ff00) <<< 8).toNat = c <<< 16 := by
    rw [UInt32.toNat_shiftLeft, UInt32.toNat_and, ← hc', ← hthird]
    rfl
  have htmpB : ((value &&& 0x00ff0000) >>> 8).toNat = b <<< 8 := by
    rw [UInt32.toNat_shiftRight, UInt32.toNat_and, ← hb', ← hsecond]
    rfl
  have htmpA : ((value &&& 0xff000000) >>> 24).toNat = a := by
    rw [UInt32.toNat_shiftRight, UInt32.toNat_and, ← ha', ← hhigh]
    rfl
  rw [ntohl, UInt32.toNat_or, UInt32.toNat_or, UInt32.toNat_or, htmpD, htmpC, htmpB, htmpA]
  exact or_bytes hc hb ha

theorem bytes32_eq {value : UInt32} {a b c d : Nat} (hb : b < 256) (hc : c < 256) (hd : d < 256)
    (h : value.toNat = ((a * 256 + b) * 256 + c) * 256 + d) :
    bytes32 value = [.ofNat d, .ofNat c, .ofNat b, .ofNat a] := by
  have hlow : value.toUInt8 = .ofNat d := by
    apply UInt8.toNat_inj.mp
    rw [UInt32.toNat_toUInt8, UInt8.toNat_ofNat', h]
    omega
  have hthird : (value >>> 8).toUInt8 = .ofNat c := by
    apply UInt8.toNat_inj.mp
    rw [UInt32.toNat_toUInt8, UInt32.toNat_shiftRight, UInt8.toNat_ofNat', h, Nat.shiftRight_eq_div_pow]
    show (((a * 256 + b) * 256 + c) * 256 + d) / 2 ^ 8 % 2 ^ 8 = c % 2 ^ 8
    omega
  have hsecond : (value >>> 16).toUInt8 = .ofNat b := by
    apply UInt8.toNat_inj.mp
    rw [UInt32.toNat_toUInt8, UInt32.toNat_shiftRight, UInt8.toNat_ofNat', h, Nat.shiftRight_eq_div_pow]
    show (((a * 256 + b) * 256 + c) * 256 + d) / 2 ^ 16 % 2 ^ 8 = b % 2 ^ 8
    omega
  have hhigh : (value >>> 24).toUInt8 = .ofNat a := by
    apply UInt8.toNat_inj.mp
    rw [UInt32.toNat_toUInt8, UInt32.toNat_shiftRight, UInt8.toNat_ofNat', h, Nat.shiftRight_eq_div_pow]
    show (((a * 256 + b) * 256 + c) * 256 + d) / 2 ^ 24 % 2 ^ 8 = a % 2 ^ 8
    omega
  rw [bytes32, hlow, hthird, hsecond, hhigh]

theorem bytes16_eq (value : UInt16) : bytes16 value = [.ofNat (value.toNat % 256), .ofNat (value.toNat / 256)] := by
  have hlow : value.toUInt8 = .ofNat (value.toNat % 256) := by
    apply UInt8.toNat_inj.mp
    rw [UInt16.toNat_toUInt8, UInt8.toNat_ofNat']
    omega
  have hhigh : (value >>> 8).toUInt8 = .ofNat (value.toNat / 256) := by
    apply UInt8.toNat_inj.mp
    rw [UInt16.toNat_toUInt8, UInt16.toNat_shiftRight, UInt8.toNat_ofNat', Nat.shiftRight_eq_div_pow]
    rfl
  rw [bytes16, hlow, hhigh]

theorem ntohs_ntohs (value : UInt16) : ntohs (ntohs value) = value := by
  have hlt := value.toNat_lt
  apply UInt16.toNat_inj.mp
  rw [ntohs_toNat, ntohs_toNat]
  omega

theorem ntohl_ntohl (value : UInt32) : ntohl (ntohl value) = value := by
  obtain ⟨a, b, c, d, ha, hb, hc, hd, h⟩ := exists_bytes value
  apply UInt32.toNat_inj.mp
  rw [ntohl_toNat hd hc hb ha (ntohl_toNat ha hb hc hd h), h]

/-- In memory the exchanged number stands in network order, -/
theorem bytes16_ntohs (value : UInt16) : bytes16 (ntohs value) = toNetwork 2 value.toNat := by
  have hlt := value.toNat_lt
  have hsplit : value.toNat = value.toNat / 256 * 256 + value.toNat % 256 := by omega
  have hquotient : (ntohs value).toNat / 256 = value.toNat % 256 := by
    rw [ntohs_toNat]
    omega
  have hremainder : (ntohs value).toNat % 256 = value.toNat / 256 := by
    rw [ntohs_toNat]
    omega
  rw [bytes16_eq, hquotient, hremainder, hsplit, toNetwork_succ (by omega), ← hsplit, toNetwork, toNetwork]
  rfl

theorem bytes32_ntohl (value : UInt32) : bytes32 (ntohl value) = toNetwork 4 value.toNat := by
  obtain ⟨a, b, c, d, ha, hb, hc, hd, h⟩ := exists_bytes value
  rw [bytes32_eq hc hb ha (ntohl_toNat ha hb hc hd h), h, toNetwork_succ hd, toNetwork_succ hc, toNetwork_succ hb,
    toNetwork, toNetwork]
  rfl

/-- and a number that stands there in network order is read by exchanging it. -/
theorem ofNetwork_bytes16 (value : UInt16) : ofNetwork (bytes16 value) = (ntohs value).toNat := by
  have hread := ofNetwork_toNetwork (show (ntohs value).toNat < 256 ^ 2 from (ntohs value).toNat_lt)
  rwa [← bytes16_ntohs, ntohs_ntohs] at hread

theorem ofNetwork_bytes32 (value : UInt32) : ofNetwork (bytes32 value) = (ntohl value).toNat := by
  have hread := ofNetwork_toNetwork (show (ntohl value).toNat < 256 ^ 4 from (ntohl value).toNat_lt)
  rwa [← bytes32_ntohl, ntohl_ntohl] at hread

end Thebends.AvrNet
