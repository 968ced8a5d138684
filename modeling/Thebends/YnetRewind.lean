import Thebends.LibExcept
import Thebends.LibRun
import Thebends.YnetBuffer

/-! Going back in the circular buffer of ynet, from every state that calls can lead to. `Unadvance` may go
back further than was read, and its remainder leaves a negative start where it is: the sizes still come out
right then, the bytes do not. -/

namespace Thebends.Ynet

open LibExcept LibRun

/-- A call on a buffer, `Unadvance` being one. -/
inductive Operation
  | call (call : Call)
  | unadvance (len : Int)
  deriving DecidableEq, Repr

namespace Buffer

def operate (b : Buffer) : Operation → Except Fault (Answer × Buffer)
  | .call call => b.perform call
  | .unadvance len => do
      let (success, b) ← b.unadvance len
      return (.done success, b)

/-- A call that returns. -/
def Operates (b : Buffer) (operation : Operation) (b' : Buffer) : Prop :=
  ∃ answer, b.operate operation = .ok (answer, b')

/-! ### Where the two indices can be -/

/-- The start may have left the array to the left. -/
structure Shaped (b : Buffer) : Prop where
  bufferSize : b.bufferSize = b.buffer.length
  start : -b.bufferSize < b.start ∧ b.start < b.bufferSize
  end_ : 0 ≤ b.end_ ∧ b.end_ < b.bufferSize
  apart : b.end_ - b.start < b.bufferSize

theorem shaped_new (capacity : Nat) : (new capacity).Shaped where
  bufferSize := by simp [new]
  start := by simp only [new]; omega
  end_ := by simp only [new]; omega
  apart := by simp only [new]; omega

variable {b b' : Buffer}

theorem size_cases (b : Buffer) : (b.start ≤ b.end_ ∧ b.size = b.end_ - b.start) ∨
    (b.end_ < b.start ∧ b.size = b.bufferSize - (b.start - b.end_)) := by
  rw [size]
  split
  · exact Or.inl ⟨by omega, by omega⟩
  · split
    · exact Or.inl ⟨by omega, rfl⟩
    · exact Or.inr ⟨by omega, rfl⟩

theorem Shaped.size_bounds (h : b.Shaped) : 0 ≤ b.size ∧ b.size < b.bufferSize := by
  have hstart := h.start
  have hend := h.end_
  have hapart := h.apart
  rcases b.size_cases with ⟨hle, hsize⟩ | ⟨hlt, hsize⟩ <;> omega

/-- Where `Advance` leaves the start. -/
theorem Shaped.start_advance (h : b.Shaped) {len : Int} (hpos : 0 < len) (hlen : len ≤ b.size) :
    (b.start + len < b.bufferSize ∧ (b.start + len).tmod b.bufferSize = b.start + len) ∨
      (b.bufferSize ≤ b.start + len ∧ b.end_ < b.start ∧
        (b.start + len).tmod b.bufferSize = b.start + len - b.bufferSize) := by
  have hstart := h.start
  have hend := h.end_
  have hsize := h.size_bounds
  by_cases hwrap : b.start + len < b.bufferSize
  · exact Or.inl ⟨hwrap, tmod_eq_self (by omega) hwrap⟩
  · refine Or.inr ⟨by omega, ?_, ?_⟩
    · rcases b.size_cases with ⟨hle, heq⟩ | ⟨hlt, heq⟩ <;> omega
    · calc
        _ = (b.start + len - b.bufferSize + b.bufferSize) % b.bufferSize := by
          rw [Int.tmod_eq_emod_of_nonneg (by omega), Int.sub_add_cancel]
        _ = b.start + len - b.bufferSize := by
          rw [Int.add_emod_right, Int.emod_eq_of_lt (by omega) (by omega)]

/-- `Unadvance` just subtracts. -/
theorem Shaped.start_unadvance (h : b.Shaped) {len : Int} (hpos : 0 < len) (hlen : len ≤ b.sizeLeft) :
    (b.start - len).tmod b.bufferSize = b.start - len := by
  have hstart := h.start
  have hend := h.end_
  rw [sizeLeft] at hlen
  apply tmod_eq_self
  · rcases b.size_cases with ⟨hle, heq⟩ | ⟨hlt, heq⟩ <;> omega
  · omega

/-! ### Each call keeps the shape -/

/-- The start is moved where there is room for it. -/
theorem moved_cases {len room start : Int} {done : Bool}
    (h : (do
      check (len > 0)
      if len > room then return (false, b)
      else return (true, { b with start := start }) : Except Fault (Bool × Buffer)) = .ok (done, b')) : 0 < len ∧
    ((room < len ∧ done = false ∧ b' = b) ∨ (len ≤ room ∧ done = true ∧ b' = { b with start := start })) := by
  obtain ⟨_, hcheck, h⟩ := bind_eq_ok h
  refine ⟨of_check_ok hcheck, ?_⟩
  split at h
  · next hlen =>
    cases h
    exact Or.inl ⟨hlen, rfl, rfl⟩
  · next hlen =>
    cases h
    exact Or.inr ⟨by omega, rfl, rfl⟩

theorem advance_cases {len : Int} {done : Bool} (h : b.advance len = .ok (done, b')) : 0 < len ∧
    ((b.size < len ∧ done = false ∧ b' = b) ∨
      (len ≤ b.size ∧ done = true ∧ b' = { b with start := (b.start + len).tmod b.bufferSize })) := moved_cases h

theorem unadvance_cases {len : Int} {done : Bool} (h : b.unadvance len = .ok (done, b')) : 0 < len ∧
    ((b.sizeLeft < len ∧ done = false ∧ b' = b) ∨
      (len ≤ b.sizeLeft ∧ done = true ∧ b' = { b with start := (b.start - len).tmod b.bufferSize })) := moved_cases h

theorem Shaped.advance (h : b.Shaped) {len : Int} {done : Bool} (hrun : b.advance len = .ok (done, b')) :
    b'.Shaped := by
  obtain ⟨hpos, ⟨-, -, rfl⟩ | ⟨hlen, -, rfl⟩⟩ := advance_cases hrun
  · exact h
  · have hstart := h.start
    have hapart := h.apart
    rcases h.start_advance hpos hlen with ⟨hwrap, heq⟩ | ⟨hwrap, hlt, heq⟩
    · exact ⟨h.bufferSize, by simp only [heq]; omega, h.end_, by simp only [heq]; omega⟩
    · have hsize := h.size_bounds
      rcases b.size_cases with ⟨hle, hcount⟩ | ⟨-, hcount⟩
      · omega
      · exact ⟨h.bufferSize, by simp only [heq]; omega, h.end_, by simp only [heq]; omega⟩

theorem Shaped.unadvance (h : b.Shaped) {len : Int} {done : Bool} (hrun : b.unadvance len = .ok (done, b')) :
    b'.Shaped := by
  obtain ⟨hpos, ⟨-, -, rfl⟩ | ⟨hlen, -, rfl⟩⟩ := unadvance_cases hrun
  · exact h
  · have hstart := h.start
    have hend := h.end_
    have hapart := h.apart
    have heq := h.start_unadvance hpos hlen
    rw [sizeLeft] at hlen
    rcases b.size_cases with ⟨hle, hcount⟩ | ⟨hlt, hcount⟩
    · exact ⟨h.bufferSize, by simp only [heq]; omega, h.end_, by simp only [heq]; omega⟩
    · exact ⟨h.bufferSize, by simp only [heq]; omega, h.end_, by simp only [heq]; omega⟩

theorem Shaped.grow (h : b.Shaped) (hrun : b.grow = .ok b') : b'.Shaped := by
  have hsize := h.size_bounds
  have hshape : ∀ cells : Bytes, (cells.length : Int) = (b.bufferSize - 1) * 2 + 1 →
      Shaped ⟨cells, (b.bufferSize - 1) * 2 + 1, 0, b.size⟩ := by
    intro cells hcells
    exact ⟨hcells.symm, by simp only; omega, by simp only; omega, by simp only; omega⟩
  have hfresh : ((List.replicate ((b.bufferSize - 1) * 2 + 1).toNat (0 : UInt8)).length : Int) =
      (b.bufferSize - 1) * 2 + 1 := by
    rw [List.length_replicate]
    omega
  obtain ⟨data, -, hrun⟩ := bind_eq_ok hrun
  split at hrun
  · cases hrun
    exact hshape _ hfresh
  · obtain ⟨cells, hcopy, hrun⟩ := bind_eq_ok hrun
    cases hrun
    rw [copyIn] at hcopy
    split at hcopy
    · next hroom =>
      cases hcopy
      refine hshape _ ?_
      rw [LibRing.length_splice (by omega), hfresh]
    · cases hcopy

theorem Shaped.makeRoom (h : b.Shaped) {len : Int} {fuel : Nat} (hrun : makeRoom len fuel b = .ok b') :
    b'.Shaped ∧ len ≤ b'.sizeLeft := by
  induction fuel generalizing b with
  | zero =>
      rw [Buffer.makeRoom] at hrun
      split at hrun
      · cases hrun
      · next hlen =>
        cases hrun
        exact ⟨h, by omega⟩
  | succ fuel ih =>
      rw [Buffer.makeRoom] at hrun
      split at hrun
      · obtain ⟨grown, hgrow, hrun⟩ := bind_eq_ok hrun
        exact ih (h.grow hgrow) hrun
      · next hlen =>
        cases hrun
        exact ⟨h, by omega⟩

theorem Shaped.append (h : b.Shaped) {data : Bytes} (hroom : (data.length : Int) ≤ b.sizeLeft)
    (hrun : b.append data = .ok b') : b'.Shaped := by
  have hsize := h.bufferSize
  have hstart := h.start
  have hend := h.end_
  have hbounds := h.size_bounds
  rw [sizeLeft] at hroom
  obtain ⟨cells, happend, hlength, -⟩ := append_ok hsize (Int.toNat_of_nonneg hend.1).symm (by omega)
    (show data.length ≤ b.buffer.length by omega)
  rw [happend, Except.ok.injEq] at hrun
  subst hrun
  have hlast : (b.end_.toNat + data.length) % b.buffer.length < b.buffer.length := Nat.mod_lt _ (by omega)
  have hle : (b.end_.toNat + data.length) % b.buffer.length ≤ b.end_.toNat + data.length := Nat.mod_le _ _
  refine ⟨by simp only [hlength, hsize], hstart, by simp only; omega, ?_⟩
  simp only
  rcases b.size_cases with ⟨hfront, hcount⟩ | ⟨hbehind, hcount⟩ <;> omega

theorem Shaped.operate (h : b.Shaped) {operation : Operation} {answer : Answer}
    (hrun : b.operate operation = .ok (answer, b')) : b'.Shaped := by
  cases operation with
  | call call =>
      cases call with
      | write data =>
          obtain ⟨⟨success, b₁⟩, hwrite, hrun⟩ := bind_eq_ok hrun
          cases hrun
          obtain ⟨room, hroom, hwrite⟩ := bind_eq_ok hwrite
          obtain ⟨b₂, happend, hwrite⟩ := bind_eq_ok hwrite
          cases hwrite
          obtain ⟨hshaped, hleft⟩ := h.makeRoom hroom
          exact hshaped.append hleft happend
      | peek len =>
          obtain ⟨data, -, hrun⟩ := bind_eq_ok hrun
          cases hrun
          exact h
      | read len =>
          obtain ⟨⟨data, b₁⟩, hread, hrun⟩ := bind_eq_ok hrun
          cases hrun
          obtain ⟨peeked, -, hread⟩ := bind_eq_ok hread
          cases peeked with
          | none =>
              cases hread
              exact h
          | some bytes =>
              obtain ⟨⟨done, b₂⟩, hadvance, hread⟩ := bind_eq_ok hread
              cases hread
              exact h.advance hadvance
      | advance len =>
          obtain ⟨⟨success, b₁⟩, hadvance, hrun⟩ := bind_eq_ok hrun
          cases hrun
          exact h.advance hadvance
  | unadvance len =>
      obtain ⟨⟨success, b₁⟩, hunadvance, hrun⟩ := bind_eq_ok hrun
      cases hrun
      exact h.unadvance hunadvance

/-- The shape of a buffer after any calls. -/
theorem shaped_run {capacity : Nat} {operations : List Operation} (h : Run Operates (new capacity) operations b) :
    b.Shaped := by
  refine h.invariant (fun _ b => b.Shaped) (shaped_new capacity) ?_
  intro _ before operation after _ hshaped hstep
  obtain ⟨answer, hrun⟩ := hstep
  exact hshaped.operate hrun

/-! ### There and back -/

/-- Going `len` bytes ahead and back again changes nothing that a user can see, and the start is in the
array then. -/
def Restores (b : Buffer) (len : Int) : Prop :=
  ∃ ahead back, b.advance len = .ok (true, ahead) ∧ ahead.unadvance len = .ok (true, back) ∧
    back.size = b.size ∧ (∀ count, back.peek count = b.peek count) ∧ 0 ≤ back.start ∧ back.start < back.bufferSize

/-- In a buffer whose start is in the array the bytes are there, whatever they are. -/
theorem Shaped.layout (h : b.Shaped) (hstart : 0 ≤ b.start) (hsize : 0 < b.size) :
    ∃ queue : Bytes, b.Layout queue b.start.toNat ∧ (queue.length : Int) = b.size := by
  have hbuffer := h.bufferSize
  have hlow := h.start
  have hend := h.end_
  have hbounds := h.size_bounds
  have hlength : ((b.buffer.rotate b.start.toNat).take b.size.toNat).length = b.size.toNat := by
    rw [List.length_take, List.length_rotate]
    omega
  refine ⟨(b.buffer.rotate b.start.toNat).take b.size.toNat, ⟨hbuffer, by omega, by omega, by omega, by omega, ?_, ?_⟩,
    by omega⟩
  · rw [hlength]
    rcases b.size_cases with ⟨hle, heq⟩ | ⟨hlt, heq⟩
    · rw [Nat.mod_eq_of_lt (by omega)]
      omega
    · rw [Nat.mod_eq_sub_mod (by omega), Nat.mod_eq_of_lt (by omega)]
      omega
  · rw [hlength]

/-- What there and back comes to: the start as it was, or one array length before it. -/
theorem Shaped.back (h : b.Shaped) {len : Int} (hlen : len ≤ b.size) {ahead back : Buffer}
    (hahead : b.advance len = .ok (true, ahead)) (hback : ahead.unadvance len = .ok (true, back)) :
    (b.start + len < b.bufferSize ∧ back = b) ∨
      (b.bufferSize ≤ b.start + len ∧ back.start = b.start - b.bufferSize) := by
  have hshaped := h.advance hahead
  obtain ⟨hpos, ⟨-, hdone, -⟩ | ⟨-, -, hahead⟩⟩ := advance_cases hahead
  · cases hdone
  obtain ⟨-, ⟨-, hdone, -⟩ | ⟨hleft, -, hback⟩⟩ := unadvance_cases hback
  · cases hdone
  rw [hshaped.start_unadvance hpos hleft] at hback
  rcases h.start_advance hpos hlen with ⟨hwrap, heq⟩ | ⟨hwrap, -, heq⟩
  · refine Or.inl ⟨hwrap, ?_⟩
    rw [hback, hahead, heq, Int.add_sub_cancel]
  · refine Or.inr ⟨hwrap, ?_⟩
    rw [hback, hahead, heq]
    simp only
    omega

theorem Shaped.restores_iff (h : b.Shaped) {len : Int} (hpos : 0 < len) (hlen : len ≤ b.size) :
    b.Restores len ↔ 0 ≤ b.start ∧ b.start + len < b.bufferSize := by
  constructor
  · rintro ⟨ahead, back, hahead, hback, -, -, hstart, -⟩
    rcases h.back hlen hahead hback with ⟨hwrap, rfl⟩ | ⟨-, heq⟩
    · exact ⟨hstart, hwrap⟩
    · have hlow := h.start
      omega
  · rintro ⟨hstart, hwrap⟩
    obtain ⟨queue, hlayout, hsize⟩ := h.layout hstart (by omega)
    obtain ⟨count, rfl⟩ := Int.eq_ofNat_of_zero_le (Int.le_of_lt hpos)
    have hbuffer := h.bufferSize
    have hcount : 0 < count := by omega
    have hfits : count ≤ queue.length := by omega
    refine ⟨b.after count 0, b.after count count, hlayout.advance_eq hcount hfits, ?_, ?_⟩
    · rw [unadvance_after hlayout hcount hfits (by omega), Nat.zero_add]
    · rw [after_undone hlayout (by omega)]
      exact ⟨rfl, fun _ => rfl, hstart, h.start.2⟩

/-- **Going back** restores a buffer that any calls have led to exactly when its start is in the array and the
bytes passed do not reach the end of it. -/
theorem advance_unadvance_restores_iff (capacity : Nat) (operations : List Operation) (b : Buffer) (len : Int)
    (h : Run Operates (new capacity) operations b) (hpos : 0 < len) (hlen : len ≤ b.size) :
    b.Restores len ↔ 0 ≤ b.start ∧ b.start + len < b.bufferSize :=
  (shaped_run h).restores_iff hpos hlen

/-- In an array of three slots, one of two bytes is taken. -/
theorem advance_unadvance_restores_iff_second :
    Run Operates (new 2) [.call (.write [1, 2]), .call (.advance 1)] ⟨[1, 2, 0], 3, 1, 2⟩ ∧
      Restores ⟨[1, 2, 0], 3, 1, 2⟩ 1 := by
  have hrun : Run Operates (new 2) [.call (.write [1, 2]), .call (.advance 1)] ⟨[1, 2, 0], 3, 1, 2⟩ :=
    .cons ⟨.done true, rfl⟩ (.cons ⟨.done true, rfl⟩ (.nil _))
  exact ⟨hrun, (advance_unadvance_restores_iff 2 _ _ 1 hrun (by decide) (by decide)).mpr (by decide)⟩

/-- Both are taken and a third byte is written into the last slot: going ahead comes to the first slot, and
back to one before it. -/
theorem lastSlot_not_restored :
    Run Operates (new 2) [.call (.write [1, 2]), .call (.advance 2), .call (.write [3])] ⟨[1, 2, 3], 3, 2, 0⟩ ∧
      size ⟨[1, 2, 3], 3, 2, 0⟩ = 1 ∧ ¬Restores ⟨[1, 2, 3], 3, 2, 0⟩ 1 ∧
      advance ⟨[1, 2, 3], 3, 2, 0⟩ 1 = .ok (true, ⟨[1, 2, 3], 3, 0, 0⟩) ∧
      unadvance ⟨[1, 2, 3], 3, 0, 0⟩ 1 = .ok (true, ⟨[1, 2, 3], 3, -1, 0⟩) ∧
      size ⟨[1, 2, 3], 3, -1, 0⟩ = 1 ∧ peek ⟨[1, 2, 3], 3, -1, 0⟩ 1 = .error .outOfBounds := by
  have hrun : Run Operates (new 2) [.call (.write [1, 2]), .call (.advance 2), .call (.write [3])]
      ⟨[1, 2, 3], 3, 2, 0⟩ :=
    .cons ⟨.done true, rfl⟩ (.cons ⟨.done true, rfl⟩ (.cons ⟨.done true, rfl⟩ (.nil _)))
  refine ⟨hrun, rfl, ?_, rfl, rfl, rfl, rfl⟩
  rw [(shaped_run hrun).restores_iff (by decide) (by decide)]
  decide

end Buffer

end Thebends.Ynet
