import Thebends.LibRing

/-! The circular buffer of ynet (`buffer.h`, `buffer.cpp`). One slot of the array always stays free. The
integers are unbounded here. The bytes of a new array are zero; none of them is read before it was
written. A `memcpy` that leaves the array, a failed assertion, a loop that does not end and a call of `err`
or `errx` are faults. -/

namespace Thebends.Ynet

abbrev Bytes := List UInt8

inductive Fault
  | assertion
  | outOfBounds
  | endless
  | exit (message : String)
  deriving DecidableEq, Repr

/-- `assert`. -/
def check (condition : Bool) : Except Fault Unit := if condition then .ok () else .error .assertion

theorem check_ok {condition : Prop} [Decidable condition] (h : condition) : check (decide condition) = .ok () :=
  if_pos (decide_eq_true h)

theorem of_check_ok {condition : Prop} [Decidable condition] {done : Unit}
    (h : check (decide condition) = .ok done) : condition := by
  by_contra hnot
  rw [check, decide_eq_false hnot] at h
  cases h

/-- `memcpy` of `count` bytes out of an array, from an index on. -/
def copyOut (cells : Bytes) (offset count : Int) : Except Fault Bytes :=
  if 0 ≤ offset ∧ 0 ≤ count ∧ offset + count ≤ cells.length then
    .ok ((cells.drop offset.toNat).take count.toNat)
  else .error .outOfBounds

/-- `memcpy` of some bytes into an array, from an index on. -/
def copyIn (cells : Bytes) (offset : Int) (data : Bytes) : Except Fault Bytes :=
  if 0 ≤ offset ∧ offset + data.length ≤ cells.length then .ok (LibRing.splice cells offset.toNat data)
  else .error .outOfBounds

/-- `Buffer`. -/
structure Buffer where
  buffer : Bytes
  bufferSize : Int
  start : Int
  end_ : Int
  deriving DecidableEq, Repr

namespace Buffer

/-- The constructor, for a capacity. -/
def new (size : Nat) : Buffer := ⟨List.replicate (size + 1) 0, size + 1, 0, 0⟩

/-- `SizeInternal`, and `Size`. -/
def size (b : Buffer) : Int :=
  if b.start = b.end_ then 0
  else if b.start < b.end_ then b.end_ - b.start
  else b.bufferSize - (b.start - b.end_)

/-- `SizeLeftInternal`, and `SizeLeft`. -/
def sizeLeft (b : Buffer) : Int := b.bufferSize - b.size - 1

/-- `PeekInternal`, and `Peek`: the bytes, unless it returns false. -/
def peek (b : Buffer) (len : Int) : Except Fault (Option Bytes) :=
  if len > b.size then .ok none
  else if b.start + len > b.bufferSize then do
    let forward := b.bufferSize - b.start
    let first ← copyOut b.buffer b.start forward
    if len - forward > 0 then
      let second ← copyOut b.buffer 0 (len - forward)
      return some (first ++ second)
    else return some first
  else if len > 0 then do
    let data ← copyOut b.buffer b.start len
    return some data
  else return some []

/-- `AdvanceInternal`, and `Advance`. -/
def advance (b : Buffer) (len : Int) : Except Fault (Bool × Buffer) := do
  check (len > 0)
  if len > b.size then return (false, b)
  else return (true, { b with start := (b.start + len).tmod b.bufferSize })

/-- `Unadvance`. -/
def unadvance (b : Buffer) (len : Int) : Except Fault (Bool × Buffer) := do
  check (len > 0)
  if len > b.sizeLeft then return (false, b)
  else return (true, { b with start := (b.start - len).tmod b.bufferSize })

/-- `Read`: the bytes, unless it returns false. -/
def read (b : Buffer) (len : Int) : Except Fault (Option Bytes × Buffer) := do
  match ← b.peek len with
  | none => return (none, b)
  | some data =>
      let (done, b) ← b.advance len
      return (if done then some data else none, b)

/-- `Grow`. -/
def grow (b : Buffer) : Except Fault Buffer := do
  let newBufferSize := (b.bufferSize - 1) * 2 + 1
  let newBuffer := List.replicate newBufferSize.toNat 0
  match ← b.peek b.size with
  | none => return ⟨newBuffer, newBufferSize, 0, b.size⟩
  | some data =>
      let newBuffer ← copyIn newBuffer 0 data
      return ⟨newBuffer, newBufferSize, 0, b.size⟩

/-- The loop of `Write`, run at most `fuel` times. -/
def makeRoom (len : Int) : Nat → Buffer → Except Fault Buffer
  | 0, b => if len > b.sizeLeft then .error .endless else .ok b
  | fuel + 1, b =>
      if len > b.sizeLeft then do
        let b ← b.grow
        makeRoom len fuel b
      else .ok b

/-- `Write` after its loop. -/
def append (b : Buffer) (data : Bytes) : Except Fault Buffer :=
  if b.end_ + data.length > b.bufferSize then do
    let forward := b.bufferSize - b.end_
    let buffer ← copyIn b.buffer b.end_ (data.take forward.toNat)
    let left := data.drop forward.toNat
    if left.length > 0 then
      let buffer ← copyIn buffer 0 left
      return { b with buffer := buffer, end_ := (0 + left.length : Int).tmod b.bufferSize }
    else return { b with buffer := buffer, end_ := 0 }
  else if data.length > 0 then do
    let buffer ← copyIn b.buffer b.end_ data
    return { b with buffer := buffer, end_ := (b.end_ + data.length).tmod b.bufferSize }
  else return b

/-- `Write`; its loop needs no more rounds than there are bytes. -/
def write (b : Buffer) (data : Bytes) : Except Fault (Bool × Buffer) := do
  let b ← makeRoom data.length data.length b
  let b ← b.append data
  return (true, b)

/-! ### What the array holds -/

/-- The bytes of the queue stand in the array from `first` on, in a circle, and one slot is free. -/
structure Layout (b : Buffer) (queue : Bytes) (first : Nat) : Prop where
  bufferSize : b.bufferSize = b.buffer.length
  positive : 2 ≤ b.buffer.length
  start : b.start = first
  start_lt : first < b.buffer.length
  fits : queue.length < b.buffer.length
  end_ : b.end_ = ((first + queue.length) % b.buffer.length : Nat)
  window : (b.buffer.rotate first).take queue.length = queue

/-- The buffer holds a queue. -/
def Holds (b : Buffer) (queue : Bytes) : Prop := ∃ first, b.Layout queue first

theorem holds_new {size : Nat} (h : 0 < size) : (new size).Holds [] :=
  ⟨0, by simp [new], by simp [new]; omega, rfl, by simp [new], by simp [new], by simp [new], rfl⟩

/-- Where the end of the contents is: behind the start, or before it when they wrap around. -/
theorem Layout.end_cases {b : Buffer} {queue : Bytes} {first : Nat} (h : b.Layout queue first) :
    (first + queue.length < b.buffer.length ∧ b.end_ = (first + queue.length : Nat)) ∨
      (b.buffer.length ≤ first + queue.length ∧ b.end_ = (first + queue.length - b.buffer.length : Nat)) := by
  have hfits := h.fits
  have hstart := h.start_lt
  rw [h.end_]
  by_cases hlt : first + queue.length < b.buffer.length
  · exact Or.inl ⟨hlt, by rw [Nat.mod_eq_of_lt hlt]⟩
  · refine Or.inr ⟨by omega, ?_⟩
    rw [Nat.mod_eq_sub_mod (by omega), Nat.mod_eq_of_lt (by omega)]

theorem Layout.size {b : Buffer} {queue : Bytes} {first : Nat} (h : b.Layout queue first) :
    b.size = queue.length := by
  have hsize := h.bufferSize
  have hstart := h.start
  have hlt := h.start_lt
  have hfits := h.fits
  rw [Buffer.size]
  rcases h.end_cases with ⟨hend, heq⟩ | ⟨hend, heq⟩
  · split
    · omega
    · split <;> omega
  · split
    · omega
    · split <;> omega

theorem Layout.sizeLeft {b : Buffer} {queue : Bytes} {first : Nat} (h : b.Layout queue first) :
    b.sizeLeft = b.bufferSize - 1 - queue.length := by
  rw [Buffer.sizeLeft, h.size]
  omega

theorem copyOut_ok {cells : Bytes} {offset count : Nat} (h : offset + count ≤ cells.length) :
    copyOut cells offset count = .ok ((cells.drop offset).take count) := by
  rw [copyOut, if_pos (by omega)]
  rfl

theorem copyIn_ok {cells data : Bytes} {offset : Nat} (h : offset + data.length ≤ cells.length) :
    copyIn cells offset data = .ok (LibRing.splice cells offset data) := by
  rw [copyIn, if_pos (by omega)]
  rfl

/-- `Peek` returns the oldest bytes, in one piece or in two. -/
theorem Layout.peek {b : Buffer} {queue : Bytes} {first : Nat} (h : b.Layout queue first) (len : Nat) :
    b.peek len = .ok (if len ≤ queue.length then some (queue.take len) else none) := by
  have hlt := h.start_lt
  have hfits := h.fits
  rw [Buffer.peek, h.size, h.start, h.bufferSize]
  by_cases hlen : len ≤ queue.length
  swap
  · rw [if_pos (by omega), if_neg hlen]
  · rw [if_neg (by omega), if_pos hlen]
    have htake : queue.take len = (b.buffer.rotate first).take len := by
      rw [← h.window, List.take_take, Nat.min_eq_left hlen]
    by_cases hwrap : b.buffer.length < first + len
    · have hforward : (b.buffer.length : Int) - first = (b.buffer.length - first : Nat) := by omega
      have hleft : (len : Int) - (b.buffer.length - first : Nat) = (first + len - b.buffer.length : Nat) := by omega
      have hfirst : copyOut b.buffer first (b.buffer.length - first : Nat) = .ok (b.buffer.drop first) := by
        rw [copyOut_ok (by omega), List.take_of_length_le (by rw [List.length_drop])]
      have hsecond : copyOut b.buffer (0 : Nat) (first + len - b.buffer.length : Nat) =
          .ok (b.buffer.take (first + len - b.buffer.length)) := by
        rw [copyOut_ok (by omega), List.drop_zero]
      rw [if_pos (by omega), htake, LibRing.take_rotate_of_gt (by omega) hwrap (by omega)]
      simp only [hforward, hfirst, hleft, bind, Except.bind]
      rw [if_pos (by omega), show (0 : Int) = (0 : Nat) from rfl, hsecond]
      rfl
    · rw [if_neg (by omega), htake, LibRing.take_rotate_of_le (by omega)]
      by_cases hpos : 0 < len
      · rw [if_pos (by omega), copyOut_ok (by omega)]
        rfl
      · obtain rfl : len = 0 := by omega
        rw [if_neg (by omega)]
        rfl

/-- The buffer after some bytes were taken from it and some of these were put back. -/
def after (b : Buffer) (taken undone : Nat) : Buffer :=
  { b with start := (b.start + taken).tmod b.bufferSize - undone }

/-- Taking the oldest bytes leaves the others. -/
theorem Layout.after {b : Buffer} {queue : Bytes} {first : Nat} (h : b.Layout queue first) {taken : Nat}
    (htaken : taken ≤ queue.length) :
    (b.after taken 0).Layout (queue.drop taken) ((first + taken) % b.buffer.length) := by
  have hfits := h.fits
  have hlength : 0 < b.buffer.length := by omega
  have hdrop : (queue.drop taken).length < b.buffer.length := by
    rw [List.length_drop]
    omega
  refine ⟨h.bufferSize, h.positive, ?_, Nat.mod_lt _ hlength, hdrop, ?_, ?_⟩
  · simp only [Buffer.after, h.start, h.bufferSize]
    rw [Int.tmod_eq_emod_of_nonneg (by omega), Int.natCast_zero, Int.sub_zero]
    rfl
  · simp only [Buffer.after, h.end_, List.length_drop, Nat.mod_add_mod]
    congr 2
    omega
  · simp only [Buffer.after, List.rotate_mod, List.length_drop]
    rw [LibRing.take_rotate_add htaken (by omega), h.window]

theorem Layout.advance_eq {b : Buffer} {queue : Bytes} {first : Nat} (h : b.Layout queue first) {len : Nat}
    (hpos : 0 < len) (hlen : len ≤ queue.length) : b.advance len = .ok (true, b.after len 0) := by
  have hcheck : check (decide ((len : Int) > 0)) = .ok () := check_ok (by omega)
  simp only [Buffer.advance, hcheck, bind, Except.bind, h.size]
  rw [if_neg (by omega), Buffer.after, Int.natCast_zero, Int.sub_zero]
  rfl

/-- `Advance` drops the oldest bytes. -/
theorem Layout.advance {b : Buffer} {queue : Bytes} {first : Nat} (h : b.Layout queue first) {len : Nat}
    (hpos : 0 < len) (hlen : len ≤ queue.length) :
    ∃ b', b.advance len = .ok (true, b') ∧ b'.Layout (queue.drop len) ((first + len) % b.buffer.length) :=
  ⟨b.after len 0, h.advance_eq hpos hlen, h.after hlen⟩

theorem advance_refused {b : Buffer} {len : Int} (hpos : 0 < len) (hlen : b.size < len) :
    b.advance len = .ok (false, b) := by
  simp only [Buffer.advance, check_ok hpos, bind, Except.bind]
  rw [if_pos hlen]
  rfl

/-- `Grow` keeps the queue and doubles the capacity. -/
theorem Layout.grow {b : Buffer} {queue : Bytes} {first : Nat} (h : b.Layout queue first) :
    ∃ b', b.grow = .ok b' ∧ b'.Layout queue 0 ∧ b'.bufferSize = (b.bufferSize - 1) * 2 + 1 := by
  have hfits := h.fits
  have hpositive := h.positive
  have hsize : (b.bufferSize - 1) * 2 + 1 = ((b.buffer.length - 1) * 2 + 1 : Nat) := by
    rw [h.bufferSize]
    omega
  have hroom : 0 + queue.length ≤ (List.replicate ((b.buffer.length - 1) * 2 + 1) (0 : UInt8)).length := by
    rw [List.length_replicate]
    omega
  have hlength : (LibRing.splice (List.replicate ((b.buffer.length - 1) * 2 + 1) 0) 0 queue).length =
      (b.buffer.length - 1) * 2 + 1 := by
    rw [LibRing.length_splice hroom, List.length_replicate]
  refine ⟨⟨LibRing.splice (List.replicate ((b.buffer.length - 1) * 2 + 1) 0) 0 queue,
    ((b.buffer.length - 1) * 2 + 1 : Nat), 0, queue.length⟩, ?_, ?_, hsize.symm⟩
  · simp only [Buffer.grow, h.size, h.peek, hsize, Int.toNat_natCast, Nat.le_refl, if_true, List.take_length, bind,
      Except.bind]
    rw [show (0 : Int) = (0 : Nat) from rfl, copyIn_ok hroom]
    rfl
  · refine ⟨by simp only [hlength], by simp only [hlength]; omega, rfl, by simp only [hlength]; omega,
      by simp only [hlength]; omega, ?_, ?_⟩
    · simp only [hlength, Nat.zero_add]
      rw [Nat.mod_eq_of_lt (by omega)]
    · rw [List.rotate_zero, LibRing.splice, List.take_zero, List.nil_append, List.take_left]

/-- The loop of `Write` ends with enough room and the same queue. -/
theorem makeRoom_ok {len : Nat} {fuel : Nat} {b : Buffer} {queue : Bytes} (h : b.Holds queue)
    (hfuel : (len : Int) ≤ b.sizeLeft + fuel) :
    ∃ b', makeRoom len fuel b = .ok b' ∧ b'.Holds queue ∧ (len : Int) ≤ b'.sizeLeft := by
  induction fuel generalizing b with
  | zero =>
      refine ⟨b, ?_, h, by omega⟩
      rw [makeRoom, if_neg (by omega)]
  | succ fuel ih =>
      by_cases hlen : (len : Int) > b.sizeLeft
      · obtain ⟨first, hlayout⟩ := h
        obtain ⟨grown, hgrow, hgrown, hsize⟩ := hlayout.grow
        have hpositive := hlayout.positive
        have hbuffer := hlayout.bufferSize
        have hleft := hlayout.sizeLeft
        have hleft' := hgrown.sizeLeft
        obtain ⟨b', hroom, hholds, hfits⟩ := @ih grown ⟨0, hgrown⟩ (by omega)
        refine ⟨b', ?_, hholds, hfits⟩
        rw [makeRoom, if_pos hlen, hgrow]
        exact hroom
      · refine ⟨b, ?_, h, by omega⟩
        rw [makeRoom, if_neg hlen]

/-- An array that has the data in the place of what came behind the queue. -/
theorem Layout.extend {b : Buffer} {queue data cells : Bytes} {first : Nat} (h : b.Layout queue first)
    (hfit : queue.length + data.length < b.buffer.length) (hlength : cells.length = b.buffer.length)
    (hcells : cells.rotate ((first + queue.length) % b.buffer.length) =
      data ++ (b.buffer.rotate ((first + queue.length) % b.buffer.length)).drop data.length) {last : Int}
    (hlast : last = ((first + (queue.length + data.length)) % b.buffer.length : Nat)) :
    Layout { b with buffer := cells, end_ := last } (queue ++ data) first := by
  have hseen : cells.rotate (first + queue.length) =
      data ++ (b.buffer.rotate (first + queue.length)).drop data.length := by
    rw [← List.rotate_mod b.buffer, ← hcells, ← hlength, List.rotate_mod]
  refine ⟨by simp only [hlength, h.bufferSize], by simp only [hlength]; exact h.positive, h.start,
    by simp only [hlength]; exact h.start_lt, by simp only [hlength, List.length_append]; exact hfit, ?_, ?_⟩
  · simp only [hlength, List.length_append, hlast]
  · rw [List.length_append, LibRing.take_rotate_append (by omega) hlength hseen, h.window]

/-- `Write` puts its data behind the end, in one piece or in two. -/
theorem append_ok {b : Buffer} {data : Bytes} {last : Nat} (hsize : b.bufferSize = b.buffer.length)
    (hend : b.end_ = last) (hlt : last < b.buffer.length) (hfit : data.length ≤ b.buffer.length) :
    ∃ cells, b.append data = .ok { b with buffer := cells, end_ := ((last + data.length) % b.buffer.length : Nat) } ∧
      cells.length = b.buffer.length ∧ cells.rotate last = data ++ (b.buffer.rotate last).drop data.length := by
  rw [Buffer.append, hend, hsize]
  by_cases hwrap : b.buffer.length < last + data.length
  · have hforward : ((b.buffer.length : Int) - last).toNat = b.buffer.length - last := by omega
    have hleft : (data.drop (b.buffer.length - last)).length = last + data.length - b.buffer.length := by
      rw [List.length_drop]
      omega
    have hfirst : last + (data.take (b.buffer.length - last)).length ≤ b.buffer.length := by
      rw [List.length_take]
      omega
    have hlength := LibRing.length_splice hfirst
    have hsecond : 0 + (data.drop (b.buffer.length - last)).length ≤
        (LibRing.splice b.buffer last (data.take (b.buffer.length - last))).length := by omega
    have hlast : (0 + (last + data.length - b.buffer.length : Nat) : Int).tmod b.buffer.length =
        ((last + data.length) % b.buffer.length : Nat) := by
      rw [Int.tmod_eq_emod_of_nonneg (by omega), Int.zero_add, Nat.mod_eq_sub_mod (by omega)]
      rfl
    refine ⟨_, ?_, (LibRing.length_splice hsecond).trans hlength,
      LibRing.rotate_splice_wrap (by omega) hwrap hfit⟩
    rw [if_pos (by omega)]
    simp only [hforward, copyIn_ok hfirst, bind, Except.bind]
    rw [if_pos (by omega), show (0 : Int) = (0 : Nat) from rfl, copyIn_ok hsecond, hleft]
    simp only [← hlast]
    rfl
  · rw [if_neg (by omega)]
    by_cases hpos : data.length > 0
    · have hroom : last + data.length ≤ b.buffer.length := by omega
      have hlast : (last + data.length : Int).tmod b.buffer.length =
          ((last + data.length) % b.buffer.length : Nat) := by
        rw [Int.tmod_eq_emod_of_nonneg (by omega)]
        rfl
      refine ⟨_, ?_, LibRing.length_splice hroom, LibRing.rotate_splice hroom⟩
      rw [if_pos hpos, copyIn_ok hroom, hlast]
      rfl
    · obtain rfl : data = [] := List.length_eq_zero_iff.mp (by omega)
      refine ⟨b.buffer, ?_, rfl, rfl⟩
      rw [if_neg hpos, List.length_nil, Nat.add_zero, Nat.mod_eq_of_lt hlt, ← hend, ← hsize]
      rfl

/-- `Write` appends its data to the queue. -/
theorem Layout.append {b : Buffer} {queue : Bytes} {first : Nat} (h : b.Layout queue first) {data : Bytes}
    (hroom : (data.length : Int) ≤ b.sizeLeft) :
    ∃ b', b.append data = .ok b' ∧ b'.Layout (queue ++ data) first := by
  have hfits := h.fits
  have hsize := h.bufferSize
  rw [h.sizeLeft, hsize] at hroom
  have hlt : (first + queue.length) % b.buffer.length < b.buffer.length := Nat.mod_lt _ (by omega)
  have hfit : data.length ≤ b.buffer.length := by omega
  obtain ⟨cells, happend, hlength, hcells⟩ := append_ok hsize h.end_ hlt hfit
  refine ⟨_, happend, h.extend (by omega) hlength hcells ?_⟩
  rw [Nat.mod_add_mod, Nat.add_assoc]

/-! ### Each call on a buffer that holds a queue -/

theorem Holds.size {b : Buffer} {queue : Bytes} (h : b.Holds queue) : b.size = queue.length := by
  obtain ⟨first, h⟩ := h
  exact h.size

theorem Holds.write {b : Buffer} {queue : Bytes} (h : b.Holds queue) (data : Bytes) :
    ∃ b', b.write data = .ok (true, b') ∧ b'.Holds (queue ++ data) := by
  have hleft : 0 ≤ b.sizeLeft := by
    obtain ⟨first, h⟩ := h
    have hfits := h.fits
    rw [h.sizeLeft, h.bufferSize]
    omega
  obtain ⟨grown, hgrow, ⟨first, hgrown⟩, hroom⟩ :=
    makeRoom_ok (show b.Holds queue from h) (show (data.length : Int) ≤ b.sizeLeft + data.length by omega)
  obtain ⟨b', happend, hb'⟩ := hgrown.append hroom
  refine ⟨b', ?_, first, hb'⟩
  simp only [Buffer.write, hgrow, happend, bind, Except.bind]
  rfl

theorem Holds.peek {b : Buffer} {queue : Bytes} (h : b.Holds queue) {len : Int} (hpos : 0 < len) :
    b.peek len = .ok (if len ≤ queue.length then some (queue.take len.toNat) else none) := by
  obtain ⟨first, h⟩ := h
  obtain ⟨count, rfl⟩ := Int.eq_ofNat_of_zero_le (Int.le_of_lt hpos)
  rw [h.peek, Int.toNat_natCast]
  simp only [Int.ofNat_le]

theorem Holds.advance {b : Buffer} {queue : Bytes} (h : b.Holds queue) {len : Int} (hpos : 0 < len)
    (hlen : len ≤ queue.length) :
    ∃ b', b.advance len = .ok (true, b') ∧ b'.Holds (queue.drop len.toNat) := by
  obtain ⟨first, h⟩ := h
  obtain ⟨count, rfl⟩ := Int.eq_ofNat_of_zero_le (Int.le_of_lt hpos)
  obtain ⟨b', hadvance, hb'⟩ := h.advance (show 0 < count by omega) (by omega)
  exact ⟨b', hadvance, _, hb'⟩

theorem Holds.read {b : Buffer} {queue : Bytes} (h : b.Holds queue) {len : Int} (hpos : 0 < len)
    (hlen : len ≤ queue.length) :
    ∃ b', b.read len = .ok (some (queue.take len.toNat), b') ∧ b'.Holds (queue.drop len.toNat) := by
  obtain ⟨b', hadvance, hb'⟩ := h.advance hpos hlen
  refine ⟨b', ?_, hb'⟩
  simp only [Buffer.read, h.peek hpos, if_pos hlen, hadvance, bind, Except.bind]
  rfl

theorem Holds.read_refused {b : Buffer} {queue : Bytes} (h : b.Holds queue) {len : Int} (hpos : 0 < len)
    (hlen : queue.length < len) : b.read len = .ok (none, b) := by
  simp only [Buffer.read, h.peek hpos, if_neg (show ¬len ≤ queue.length by omega), bind, Except.bind]
  rfl

/-! ### Reading ahead and going back

`Unadvance` takes the remainder of a negative number when the contents were read across the end of the
array: the start then stays negative, and the next `Peek` leaves the array. -/

section

variable {b : Buffer} {queue : Bytes} {first : Nat}

theorem after_zero (h : b.Layout queue first) : b.after 0 0 = b := by
  have hlt := h.start_lt
  have hstart : (b.start + (0 : Nat)).tmod b.bufferSize - (0 : Nat) = b.start := by
    rw [h.start, h.bufferSize, Int.tmod_eq_emod_of_nonneg (by omega), Int.natCast_zero, Int.sub_zero, Int.add_zero]
    exact Int.emod_eq_of_lt (by omega) (by omega)
  rw [after, hstart]

/-- Where reading has come to: before the end of the array, or behind it. -/
theorem start_after (h : b.Layout queue first) {taken : Nat} (htaken : taken ≤ queue.length) (undone : Nat) :
    (first + taken < b.buffer.length ∧ (b.after taken undone).start = first + taken - undone) ∨
      (b.buffer.length ≤ first + taken ∧ (b.after taken undone).start = first + taken - b.buffer.length - undone) := by
  have hlt := h.start_lt
  have hfits := h.fits
  have hmod : (b.start + taken).tmod b.bufferSize = ((first + taken) % b.buffer.length : Nat) := by
    rw [h.start, h.bufferSize, Int.tmod_eq_emod_of_nonneg (by omega)]
    rfl
  simp only [after, hmod]
  by_cases hwrap : first + taken < b.buffer.length
  · exact Or.inl ⟨hwrap, by rw [Nat.mod_eq_of_lt hwrap]; omega⟩
  · refine Or.inr ⟨by omega, ?_⟩
    rw [Nat.mod_eq_sub_mod (by omega), Nat.mod_eq_of_lt (by omega)]
    omega

theorem size_after (h : b.Layout queue first) {taken undone : Nat} (htaken : taken ≤ queue.length)
    (hundone : undone ≤ taken) : (b.after taken undone).size = queue.length - taken + undone := by
  have hlt := h.start_lt
  have hfits := h.fits
  have hsize := h.bufferSize
  have hsame : (b.after taken undone).end_ = b.end_ ∧ (b.after taken undone).bufferSize = b.bufferSize := ⟨rfl, rfl⟩
  rw [size, hsame.1, hsame.2]
  rcases start_after h htaken undone with ⟨hwrap, hstart⟩ | ⟨hwrap, hstart⟩ <;>
    rcases h.end_cases with ⟨hend, heq⟩ | ⟨hend, heq⟩ <;> split <;> (try split) <;> omega

theorem read_after (h : b.Layout queue first) {taken len : Nat} (hpos : 0 < len) (hlen : taken + len ≤ queue.length) :
    (b.after taken 0).read len = .ok (some ((queue.drop taken).take len), b.after (taken + len) 0) := by
  have hlayout := h.after (show taken ≤ queue.length by omega)
  have hdrop : len ≤ (queue.drop taken).length := by
    rw [List.length_drop]
    omega
  have hstart : ((b.after taken 0).after len 0).start = (b.after (taken + len) 0).start := by
    rw [(hlayout.after hdrop).start, (h.after hlen).start]
    exact congrArg Nat.cast (by rw [← Nat.add_assoc]; exact Nat.mod_add_mod ..)
  have htwice : (b.after taken 0).after len 0 = b.after (taken + len) 0 :=
    congrArg (fun start : Int => { b with start := start }) hstart
  simp only [Buffer.read, hlayout.peek, if_pos hdrop, hlayout.advance_eq hpos hdrop, htwice, bind, Except.bind]
  rfl

theorem read_after_refused (h : b.Layout queue first) {taken len : Nat} (htaken : taken ≤ queue.length)
    (hlen : queue.length < taken + len) : (b.after taken 0).read len = .ok (none, b.after taken 0) := by
  have hdrop : ¬len ≤ (queue.drop taken).length := by
    rw [List.length_drop]
    omega
  simp only [Buffer.read, (h.after htaken).peek, if_neg hdrop, bind, Except.bind]
  rfl

theorem tmod_eq_self {value bound : Int} (hlow : -bound < value) (hhigh : value < bound) :
    value.tmod bound = value := by
  by_cases h : 0 ≤ value
  · exact Int.tmod_eq_of_lt h hhigh
  · rw [← Int.neg_neg value, Int.neg_tmod, Int.tmod_eq_of_lt (by omega) (by omega)]

theorem unadvance_after (h : b.Layout queue first) {taken undone len : Nat} (hpos : 0 < len)
    (htaken : taken ≤ queue.length) (hlen : undone + len ≤ taken) :
    (b.after taken undone).unadvance len = .ok (true, b.after taken (undone + len)) := by
  have hcheck : check (decide ((len : Int) > 0)) = .ok () := check_ok (by omega)
  have hlt := h.start_lt
  have hfits := h.fits
  have hsize := h.bufferSize
  have hleft : ¬(len : Int) > (b.after taken undone).sizeLeft := by
    have hsame : (b.after taken undone).bufferSize = b.bufferSize := rfl
    rw [sizeLeft, size_after h htaken (by omega), hsame]
    omega
  have hback : ((b.after taken undone).start - len).tmod b.bufferSize = (b.after taken (undone + len)).start := by
    rw [tmod_eq_self]
    · simp only [after]
      omega
    all_goals rcases start_after h htaken undone with ⟨_, hstart⟩ | ⟨_, hstart⟩ <;> omega
  simp only [Buffer.unadvance, hcheck, bind, Except.bind]
  rw [if_neg hleft]
  simp only [after] at hback ⊢
  rw [hback]
  rfl

/-- Going all the way back restores the buffer, if the end of the array was not passed. -/
theorem after_undone (h : b.Layout queue first) {taken : Nat} (hfirst : first + taken < b.buffer.length) :
    b.after taken taken = b := by
  have hstart : (b.start + taken).tmod b.bufferSize - taken = b.start := by
    rw [h.start, h.bufferSize, Int.tmod_eq_of_lt (by omega) (by omega)]
    omega
  rw [after, hstart]

/-- Otherwise it leaves a start before the array. -/
theorem peek_after_undone (h : b.Layout queue first) {taken : Nat} (htaken : taken ≤ queue.length)
    (hfirst : b.buffer.length ≤ first + taken) : (b.after taken taken).peek queue.length = .error .outOfBounds := by
  have hlt := h.start_lt
  have hfits := h.fits
  have hsize := h.bufferSize
  have hsame : (b.after taken taken).bufferSize = b.bufferSize := rfl
  have hstart : (b.after taken taken).start = first - b.buffer.length := by
    rcases start_after h htaken taken with ⟨hwrap, hstart⟩ | ⟨hwrap, hstart⟩ <;> omega
  rw [peek, size_after h htaken le_rfl, hsame, hstart, if_neg (by omega), if_neg (by omega), if_pos (by omega), copyOut,
    if_neg (by omega)]
  rfl

end

end Buffer

/-! ### Sequences of calls -/

/-- The calls on a buffer. -/
inductive Call
  | write (data : Bytes)
  | peek (len : Int)
  | read (len : Int)
  | advance (len : Int)
  deriving DecidableEq, Repr

/-- Everything but a write is called with a length greater than zero. -/
def Call.Valid : Call → Prop
  | .write _ => True
  | .peek len => 0 < len
  | .read len => 0 < len
  | .advance len => 0 < len

/-- What a call returns, with the bytes it hands out. -/
inductive Answer
  | done (success : Bool)
  | bytes (data : Option Bytes)
  deriving DecidableEq, Repr

def Buffer.perform (b : Buffer) : Call → Except Fault (Answer × Buffer)
  | .write data => do
      let (success, b) ← b.write data
      return (.done success, b)
  | .peek len => do
      let data ← b.peek len
      return (.bytes data, b)
  | .read len => do
      let (data, b) ← b.read len
      return (.bytes data, b)
  | .advance len => do
      let (success, b) ← b.advance len
      return (.done success, b)

def Buffer.performAll (b : Buffer) : List Call → Except Fault (List Answer × Buffer)
  | [] => .ok ([], b)
  | call :: calls => do
      let (answer, b) ← b.perform call
      let (answers, b) ← b.performAll calls
      return (answer :: answers, b)

namespace Queue

/-- The calls on a plain queue of bytes. -/
def perform (queue : Bytes) : Call → Answer × Bytes
  | .write data => (.done true, queue ++ data)
  | .peek len => if len ≤ queue.length then (.bytes (some (queue.take len.toNat)), queue) else (.bytes none, queue)
  | .read len =>
      if len ≤ queue.length then (.bytes (some (queue.take len.toNat)), queue.drop len.toNat) else (.bytes none, queue)
  | .advance len => if len ≤ queue.length then (.done true, queue.drop len.toNat) else (.done false, queue)

def performAll (queue : Bytes) : List Call → List Answer × Bytes
  | [] => ([], queue)
  | call :: calls =>
      let (answer, queue) := perform queue call
      let (answers, queue) := performAll queue calls
      (answer :: answers, queue)

end Queue

namespace Buffer

/-- A call on a buffer that holds a queue answers as the queue does, and leaves what the queue leaves. -/
theorem Holds.perform {b : Buffer} {queue : Bytes} (h : b.Holds queue) {call : Call} (hvalid : call.Valid) :
    ∃ b', b.perform call = .ok ((Queue.perform queue call).1, b') ∧ b'.Holds (Queue.perform queue call).2 := by
  cases call with
  | write data =>
      obtain ⟨b', hwrite, hb'⟩ := h.write data
      refine ⟨b', ?_, hb'⟩
      simp only [Buffer.perform, hwrite, bind, Except.bind]
      rfl
  | peek len =>
      refine ⟨b, ?_, ?_⟩
      · simp only [Buffer.perform, h.peek hvalid, bind, Except.bind, Queue.perform]
        split <;> rfl
      · rw [Queue.perform]
        split <;> exact h
  | read len =>
      rw [Queue.perform]
      split
      case isTrue hlen =>
        obtain ⟨b', hread, hb'⟩ := h.read hvalid hlen
        refine ⟨b', ?_, hb'⟩
        simp only [Buffer.perform, hread, bind, Except.bind]
        rfl
      case isFalse hlen =>
        refine ⟨b, ?_, h⟩
        simp only [Buffer.perform, h.read_refused hvalid (by omega), bind, Except.bind]
        rfl
  | advance len =>
      rw [Queue.perform]
      split
      case isTrue hlen =>
        obtain ⟨b', hadvance, hb'⟩ := h.advance hvalid hlen
        refine ⟨b', ?_, hb'⟩
        simp only [Buffer.perform, hadvance, bind, Except.bind]
        rfl
      case isFalse hlen =>
        refine ⟨b, ?_, h⟩
        have hsize := h.size
        simp only [Buffer.perform, advance_refused hvalid (show b.size < len by omega), bind, Except.bind]
        rfl

theorem Holds.performAll {b : Buffer} {queue : Bytes} (h : b.Holds queue) {calls : List Call}
    (hvalid : ∀ call ∈ calls, call.Valid) :
    ∃ b', b.performAll calls = .ok ((Queue.performAll queue calls).1, b') ∧
      b'.Holds (Queue.performAll queue calls).2 := by
  induction calls generalizing b queue with
  | nil => exact ⟨b, rfl, h⟩
  | cons call calls ih =>
      obtain ⟨next, hnext, hholds⟩ := h.perform (hvalid call List.mem_cons_self)
      obtain ⟨b', hrest, hb'⟩ := ih hholds fun later hlater => hvalid later (List.mem_cons_of_mem call hlater)
      refine ⟨b', ?_, hb'⟩
      simp only [Buffer.performAll, hnext, hrest, bind, Except.bind]
      rfl

/-- What a user sees of a buffer that behaves as a queue. -/
structure IsQueue (b : Buffer) (queue : Bytes) : Prop where
  array : b.buffer.length = b.bufferSize
  start : 0 ≤ b.start ∧ b.start < b.bufferSize
  end_ : 0 ≤ b.end_ ∧ b.end_ < b.bufferSize
  size : b.size = queue.length
  capacity : b.size + b.sizeLeft = b.bufferSize - 1
  peek : ∀ len, 0 < len → len ≤ b.size → b.peek len = .ok (some (queue.take len.toNat))
  peek_refused : ∀ len, 0 < len → (b.peek len = .ok none ↔ b.size < len)
  read_refused : ∀ len, 0 < len → (b.read len = .ok (none, b) ↔ b.size < len)
  advance_refused : ∀ len, 0 < len → (b.advance len = .ok (false, b) ↔ b.size < len)

theorem Holds.isQueue {b : Buffer} {queue : Bytes} (h : b.Holds queue) : b.IsQueue queue := by
  have hsize := h.size
  have hbounds : b.buffer.length = b.bufferSize ∧ (0 ≤ b.start ∧ b.start < b.bufferSize) ∧
      0 ≤ b.end_ ∧ b.end_ < b.bufferSize := by
    obtain ⟨first, h⟩ := h
    have hlt := h.start_lt
    have hend : (first + queue.length) % b.buffer.length < b.buffer.length := Nat.mod_lt _ (by omega)
    rw [h.bufferSize, h.start, h.end_]
    omega
  refine ⟨hbounds.1, hbounds.2.1, hbounds.2.2, hsize, by rw [sizeLeft]; omega, ?_, ?_, ?_, ?_⟩
  · intro len hpos hlen
    rw [h.peek hpos, if_pos (by omega)]
  · intro len hpos
    rw [h.peek hpos, hsize]
    split
    case isTrue hlen => simpa using hlen
    case isFalse hlen => simpa using hlen
  · intro len hpos
    constructor
    · intro hread
      by_contra hlen
      obtain ⟨b', hread', -⟩ := h.read hpos (by omega)
      rw [hread] at hread'
      cases hread'
    · intro hlen
      exact h.read_refused hpos (by omega)
  · intro len hpos
    constructor
    · intro hadvance
      by_contra hlen
      obtain ⟨b', hadvance', -⟩ := h.advance hpos (by omega)
      rw [hadvance] at hadvance'
      cases hadvance'
    · exact Buffer.advance_refused hpos

/-- **The circular buffer is a queue of bytes**: whatever calls are made on a new buffer, they end, they
answer as on a plain queue, and the buffer then holds what the queue holds. -/
theorem buffer_refines_queue {capacity : Nat} (hcapacity : 0 < capacity) {calls : List Call}
    (hvalid : ∀ call ∈ calls, call.Valid) :
    ∃ b, (new capacity).performAll calls = .ok ((Queue.performAll [] calls).1, b) ∧
      b.IsQueue (Queue.performAll [] calls).2 := by
  obtain ⟨b, hrun, hb⟩ := (holds_new hcapacity).performAll hvalid
  exact ⟨b, hrun, hb.isQueue⟩

/-- A write that grows the array twice while the contents wrap around, after a read refused for its length. -/
theorem buffer_refines_queue_wrapped :
    ∃ b, (new 2).performAll [.write [1, 2], .advance 1, .write [3], .read 3, .write [4, 5, 6, 7], .read 4, .peek 2] =
        .ok ([.done true, .done true, .done true, .bytes none, .done true, .bytes (some [2, 3, 4, 5]),
          .bytes (some [6, 7])], b) ∧
      b.IsQueue [6, 7] :=
  buffer_refines_queue (show 0 < 2 by decide) (by simp [Call.Valid])

end Buffer

end Thebends.Ynet
