import Thebends.LibRing

/-! The ring buffers of the serial echo program (`rs232echo/interrupt.c`): an array of bytes, and two indices of eight
bits each. -/

namespace Thebends.Avr

open LibRing

/-- `BUFSIZ`. -/
def bufsiz : Nat := 255

/-- `ADVANCE`. -/
def advance (name : UInt8) : UInt8 := .ofNat ((name.toNat + 1) % bufsiz)

/-- `receive`, `receive_head` and `receive_tail`, or those of `transmit`. -/
structure Ring where
  cells : List UInt8
  head : UInt8
  tail : UInt8
  length_cells : cells.length = bufsiz
  head_lt : head.toNat < bufsiz
  tail_lt : tail.toNat < bufsiz

theorem advance_toNat (name : UInt8) : (advance name).toNat = (name.toNat + 1) % 255 := by
  rw [advance, bufsiz, UInt8.toNat_ofNat']
  omega

theorem advance_lt (name : UInt8) : (advance name).toNat < bufsiz := by
  rw [advance_toNat]
  exact Nat.mod_lt _ (by decide)

namespace Ring

def new : Ring := ⟨List.replicate bufsiz 0, 0, 0, List.length_replicate, by decide, by decide⟩

/-- The test for a full buffer, in which the remainder is that of the one. -/
def Full (ring : Ring) : Prop := ring.tail.toNat + 1 % bufsiz = ring.head.toNat

instance (ring : Ring) : Decidable ring.Full := inferInstanceAs (Decidable (_ = _))

/-- The cell at the head. -/
def get (ring : Ring) : UInt8 := ring.cells.get ⟨ring.head.toNat, ring.length_cells ▸ ring.head_lt⟩

/-- The cell at the tail is set. -/
def store (ring : Ring) (c : UInt8) : Ring :=
  { ring with
    cells := ring.cells.set ring.tail.toNat c
    length_cells := List.length_set.trans ring.length_cells }

def advanceTail (ring : Ring) : Ring := { ring with tail := advance ring.tail, tail_lt := advance_lt ring.tail }

def advanceHead (ring : Ring) : Ring := { ring with head := advance ring.head, head_lt := advance_lt ring.head }

/-! ### What is in a ring -/

/-- The turns of a loop that advances the head until it is at the tail. -/
def size (ring : Ring) : Nat := (ring.tail.toNat + 255 - ring.head.toNat) % 255

/-- The bytes from the head on to the tail. -/
def contents (ring : Ring) : List UInt8 := (ring.cells.rotate ring.head.toNat).take ring.size

theorem size_lt (ring : Ring) : ring.size < 255 := Nat.mod_lt _ (by decide)

theorem length_contents (ring : Ring) : ring.contents.length = ring.size := by
  rw [contents, List.length_take, List.length_rotate, ring.length_cells]
  exact Nat.min_eq_left (Nat.le_of_lt ring.size_lt)

theorem size_eq_zero_iff (ring : Ring) : ring.size = 0 ↔ ring.head = ring.tail := by
  have hhead : ring.head.toNat < 255 := ring.head_lt
  have htail : ring.tail.toNat < 255 := ring.tail_lt
  rw [size, ← UInt8.toNat_inj]
  omega

/-- What comes to the tail is behind all the rest, as long as there is room. -/
theorem contents_push (ring : Ring) (c : UInt8) (h : ring.size < 254) :
    (ring.store c).advanceTail.contents = ring.contents ++ [c] := by
  have hhead : ring.head.toNat < 255 := ring.head_lt
  have htail : ring.tail.toNat < 255 := ring.tail_lt
  have hcells : ring.cells.length = 255 := ring.length_cells
  have hsize : (ring.store c).advanceTail.size = ring.size + 1 := by
    rw [size] at h ⊢
    dsimp only [advanceTail, store]
    rw [advance_toNat, size]
    omega
  have hat : ring.tail.toNat = (ring.head.toNat + ring.size) % ring.cells.length := by
    rw [hcells, size]
    omega
  rw [contents, hsize]
  dsimp only [advanceTail, store]
  rw [hat]
  exact take_rotate_set c (by omega)

/-- A byte more than there is room for, and nothing is left. -/
theorem contents_push_last (ring : Ring) (c : UInt8) (h : ring.size = 254) :
    (ring.store c).advanceTail.contents = [] := by
  have hhead : ring.head.toNat < 255 := ring.head_lt
  have htail : ring.tail.toNat < 255 := ring.tail_lt
  have hsize : (ring.store c).advanceTail.size = 0 := by
    rw [size] at h ⊢
    dsimp only [advanceTail, store]
    rw [advance_toNat]
    omega
  rw [contents, hsize, List.take_zero]

/-- What is at the head, and what is behind it. -/
theorem contents_eq_cons (ring : Ring) (h : ring.head ≠ ring.tail) :
    ring.contents = ring.get :: ring.advanceHead.contents := by
  have hhead : ring.head.toNat < 255 := ring.head_lt
  have htail : ring.tail.toNat < 255 := ring.tail_lt
  have hcells : ring.cells.length = 255 := ring.length_cells
  have hne : ring.size ≠ 0 := fun hzero => h (ring.size_eq_zero_iff.mp hzero)
  have hsize : ring.size = ring.advanceHead.size + 1 := by
    rw [size] at hne
    rw [size, size]
    dsimp only [advanceHead]
    rw [advance_toNat]
    omega
  have hnext : ring.cells.rotate (ring.head.toNat + 1) = ring.cells.rotate (advance ring.head).toNat := by
    rw [advance_toNat, ← hcells, List.rotate_mod]
  rw [contents, hsize, take_rotate_succ (by omega) (by rw [hcells]; exact size_lt _), hnext]
  rfl

/-- The head and the tail are advanced in any order. -/
theorem advanceHead_push (ring : Ring) (c : UInt8) :
    (ring.store c).advanceTail.advanceHead = (ring.advanceHead.store c).advanceTail := rfl

theorem get_push (ring : Ring) (c : UInt8) (h : ring.head ≠ ring.tail) : (ring.store c).advanceTail.get = ring.get := by
  have hne : ring.tail.toNat ≠ ring.head.toNat := fun heq => h (UInt8.toNat_inj.mp heq).symm
  exact List.getElem_set_ne hne _

/-- The test fails to see that the ring is full where the tail is at the last cell. -/
theorem size_eq_iff (ring : Ring) (h : ¬ring.Full) : ring.size = 254 ↔ ring.tail = 254 ∧ ring.head = 0 := by
  have hhead : ring.head.toNat < 255 := ring.head_lt
  have htail : ring.tail.toNat < 255 := ring.tail_lt
  have hnot : ring.tail.toNat + 1 ≠ ring.head.toNat := h
  rw [size, ← UInt8.toNat_inj, ← UInt8.toNat_inj, show (254 : UInt8).toNat = 254 from rfl,
    show (0 : UInt8).toNat = 0 from rfl]
  omega

theorem size_advanceHead_eq_iff (ring : Ring) : ring.advanceHead.size = 254 ↔ ring.head = ring.tail := by
  have hhead : ring.head.toNat < 255 := ring.head_lt
  have htail : ring.tail.toNat < 255 := ring.tail_lt
  rw [size, ← UInt8.toNat_inj]
  dsimp only [advanceHead]
  rw [advance_toNat]
  omega

end Ring

end Thebends.Avr
