import Thebends.LibRun
import Thebends.YnetBuffer
import Thebends.YnetSelect

/-! The buffered writer of ynet (`buffered_writer.h`, `buffered_writer.cpp`): it writes to its descriptor as
long as that takes everything, and else buffers and has `Select` call it back. What the system call
`write` does is an input of every call. -/

namespace Thebends.Ynet

/-- What `write` does: it takes a number of bytes, at most those it is given, or it sets `errno`. -/
inductive Outcome
  | wrote (count : Nat)
  | eagain
  | failed
  deriving DecidableEq, Repr

/-- `BufferedWriter`, with the `Select` it points to and the bytes its descriptor took so far. The callback
stands for its `WriteFromBuffer`. -/
structure BufferedWriter where
  select : Select
  fd : Fd
  buffer : Buffer
  fdBuffered : Bool
  writeBufSize : Int
  callback : Callback
  sent : Bytes

namespace BufferedWriter

/-- The constructor. -/
def new (select : Select) (fd : Fd) (bufferSize writeSize : Nat) (callback : Callback) :
    Except Fault BufferedWriter := do
  check (bufferSize > 0)
  check (writeSize > 0)
  return ⟨select, fd, Buffer.new bufferSize, false, writeSize, callback, []⟩

/-- `TryWrite`. -/
def tryWrite (w : BufferedWriter) (outcome : Outcome) (data : Bytes) : Except Fault (Int × BufferedWriter) :=
  match outcome with
  | .wrote count => .ok (min count data.length, { w with sent := w.sent ++ data.take count })
  | .eagain => .ok (0, w)
  | .failed => .error (.exit "write")

/-- `Write` once it has to buffer what is left of its data. -/
def writeToBuffer (w : BufferedWriter) (data : Bytes) : Except Fault (Bool × BufferedWriter) := do
  let (success, buffer) ← w.buffer.write data
  if !success then return (false, { w with buffer := buffer })
  else if !w.fdBuffered then
    let select ← (w.select.addWriteFd w.fd w.callback).mapError Fault.exit
    return (true, { w with buffer := buffer, fdBuffered := true, select := select })
  else return (true, { w with buffer := buffer })

/-- `Write`. -/
def write (w : BufferedWriter) (outcome : Outcome) (data : Bytes) : Except Fault (Bool × BufferedWriter) := do
  check (data.length > 0)
  if w.fdBuffered then w.writeToBuffer data
  else
    let (nbytes, w) ← w.tryWrite outcome data
    if nbytes ≠ data.length then w.writeToBuffer (data.drop nbytes.toNat)
    else return (true, w)

/-- `WriteFromBuffer` takes what was written out of the buffer. -/
def dropWritten (b : Buffer) (wrote : Int) : Except Fault Buffer :=
  if wrote > 0 then do
    let (_, b) ← b.advance wrote
    return b
  else return b

/-- The loop of `WriteFromBuffer`, run at most `fuel` times. -/
def drain : Nat → BufferedWriter → (Nat → Outcome) → Except Fault BufferedWriter
  | 0, w, _ => if w.buffer.size > 0 then .error .endless else .ok w
  | fuel + 1, w, outcomes =>
      if w.buffer.size > 0 then do
        let nbytes := min w.buffer.size w.writeBufSize
        match ← w.buffer.peek nbytes with
        | none => .error (.exit "Unexpected error while reading from buffer")
        | some data =>
            let (wrote, w) ← w.tryWrite (outcomes 0) data
            let buffer ← dropWritten w.buffer wrote
            let w := { w with buffer := buffer }
            if wrote ≠ nbytes then return w
            else drain fuel w fun round => outcomes (round + 1)
      else .ok w

/-- `WriteFromBuffer`; its loop needs no more rounds than there are bytes. -/
def writeFromBuffer (w : BufferedWriter) (fd : Fd) (outcomes : Nat → Outcome) : Except Fault BufferedWriter := do
  check (fd = w.fd)
  check w.fdBuffered
  check (w.buffer.size > 0)
  let w ← drain w.buffer.size.toNat w outcomes
  if w.buffer.size = 0 then
    let select ← (w.select.removeWriteFd fd).mapError Fault.exit
    return { w with select := select, fdBuffered := false }
  else return w

/-! ### What the writer keeps -/

/-- Of everything written, the descriptor took the first part and the buffer holds the rest, and the writer
waits for the descriptor as long as there is a rest. -/
structure Keeps (w : BufferedWriter) (written queued : Bytes) : Prop where
  holds : w.buffer.Holds queued
  stream : w.sent ++ queued = written
  buffered : w.fdBuffered = true ↔ queued ≠ []
  registered : w.fdBuffered = true ↔ w.fd ∈ w.select.write.fds
  writeBufSize : 0 < w.writeBufSize

theorem keeps_new {select : Select} {fd : Fd} {bufferSize writeSize : Nat} {callback : Callback} {w : BufferedWriter}
    (hfd : fd ∉ select.write.fds) (h : new select fd bufferSize writeSize callback = .ok w) : w.Keeps [] [] := by
  rw [new] at h
  obtain ⟨_, hbuffer, h⟩ := LibExcept.bind_eq_ok h
  obtain ⟨_, hwrite, h⟩ := LibExcept.bind_eq_ok h
  cases h
  exact ⟨Buffer.holds_new (of_check_ok hbuffer), rfl, by simp, by simpa using hfd,
    Int.natCast_pos.mpr (of_check_ok hwrite)⟩

theorem tryWrite_ok (w : BufferedWriter) (outcome : Outcome) (data : Bytes) :
    (outcome = .failed ∧ w.tryWrite outcome data = .error (.exit "write")) ∨
      ∃ count : Nat, count ≤ data.length ∧
        w.tryWrite outcome data = .ok (count, { w with sent := w.sent ++ data.take count }) := by
  cases outcome with
  | wrote count =>
      have hmin : min (count : Int) data.length = (min count data.length : Nat) := by omega
      refine Or.inr ⟨min count data.length, Nat.min_le_right _ _, ?_⟩
      rw [tryWrite, List.take_eq_take_min, hmin]
  | eagain =>
      refine Or.inr ⟨0, Nat.zero_le _, ?_⟩
      rw [tryWrite, List.take_zero, List.append_nil]
      rfl
  | failed => exact Or.inl ⟨rfl, rfl⟩

/-- Buffering what is left of the data. -/
theorem Keeps.writeToBuffer {w : BufferedWriter} {written queued : Bytes} (h : w.Keeps written queued) {data : Bytes}
    (hdata : data ≠ []) :
    ∃ w', w.writeToBuffer data = .ok (true, w') ∧ w'.Keeps (written ++ data) (queued ++ data) := by
  obtain ⟨buffer, hwrite, hholds⟩ := h.holds.write data
  have hstream : w.sent ++ (queued ++ data) = written ++ data := by
    calc
      _ = w.sent ++ queued ++ data := (List.append_assoc _ _ _).symm
      _ = written ++ data := by rw [h.stream]
  have hne : queued ++ data ≠ [] := List.append_ne_nil_of_right_ne_nil queued hdata
  cases hbuffered : w.fdBuffered with
  | true =>
      refine ⟨{ w with buffer := buffer }, ?_, hholds, hstream, iff_of_true hbuffered hne, h.registered, h.writeBufSize⟩
      simp only [BufferedWriter.writeToBuffer, hwrite, hbuffered, bind, Except.bind]
      rfl
  | false =>
      have hfresh : w.fd ∉ w.select.write.fds := fun hmem => by
        rw [h.registered.mpr hmem] at hbuffered
        cases hbuffered
      obtain ⟨select, hadd, hmem⟩ := Select.addWriteFd_ok hfresh w.callback
      refine ⟨{ w with buffer := buffer, fdBuffered := true, select := select }, ?_, hholds, hstream,
        iff_of_true rfl hne, iff_of_true rfl hmem, h.writeBufSize⟩
      simp only [BufferedWriter.writeToBuffer, hwrite, hbuffered, hadd, bind, Except.bind]
      rfl

theorem write_of_buffered {w : BufferedWriter} {data : Bytes} (hdata : data ≠ []) (hbuffered : w.fdBuffered = true)
    (outcome : Outcome) : w.write outcome data = w.writeToBuffer data := by
  simp only [write, check_ok (List.length_pos_iff.mpr hdata), bind, Except.bind]
  rw [if_pos hbuffered]

theorem write_of_not_buffered {w : BufferedWriter} {data : Bytes} (hdata : data ≠ []) (hbuffered : w.fdBuffered = false)
    (outcome : Outcome) :
    w.write outcome data = w.tryWrite outcome data >>= fun (nbytes, w) =>
      if nbytes ≠ data.length then w.writeToBuffer (data.drop nbytes.toNat) else .ok (true, w) := by
  simp only [write, check_ok (List.length_pos_iff.mpr hdata), bind, Except.bind]
  rw [if_neg (by rw [hbuffered]; exact Bool.false_ne_true)]
  rfl

/-- `Write` adds its data to the stream, unless `write` fails. -/
theorem Keeps.write {w : BufferedWriter} {written queued : Bytes} (h : w.Keeps written queued) {data : Bytes}
    (hdata : data ≠ []) (outcome : Outcome) :
    (outcome = .failed ∧ w.write outcome data = .error (.exit "write")) ∨
      ∃ w' queued', w.write outcome data = .ok (true, w') ∧ w'.Keeps (written ++ data) queued' := by
  cases hbuffered : w.fdBuffered with
  | true =>
      obtain ⟨w', hwrite, hkeeps⟩ := h.writeToBuffer hdata
      exact Or.inr ⟨w', _, by rw [write_of_buffered hdata hbuffered, hwrite], hkeeps⟩
  | false =>
      -- nothing is buffered, so that the data comes next
      obtain rfl : queued = [] := by
        by_contra hne
        rw [h.buffered.mpr hne] at hbuffered
        cases hbuffered
      rw [write_of_not_buffered hdata hbuffered]
      rcases w.tryWrite_ok outcome data with ⟨rfl, htry⟩ | ⟨count, hcount, htry⟩
      · exact Or.inl ⟨rfl, by rw [htry]; rfl⟩
      · have hkeeps : Keeps { w with sent := w.sent ++ data.take count } (written ++ data.take count) [] := by
          refine ⟨h.holds, ?_, h.buffered, h.registered, h.writeBufSize⟩
          rw [List.append_nil, ← h.stream, List.append_nil]
        rw [htry]
        dsimp only [bind, Except.bind]
        by_cases hall : count = data.length
        · rw [hall, List.take_length] at hkeeps
          exact Or.inr ⟨_, [], by rw [if_neg (by omega), hall, List.take_length], hkeeps⟩
        · have hleft : data.drop count ≠ [] := by
            rw [Ne, List.drop_eq_nil_iff]
            omega
          obtain ⟨w', hwrite, hkeeps'⟩ := hkeeps.writeToBuffer hleft
          rw [List.append_assoc, List.take_append_drop] at hkeeps'
          exact Or.inr ⟨w', _, by rw [if_pos (by omega), Int.toNat_natCast, hwrite], hkeeps'⟩

theorem dropWritten_ok {b : Buffer} {queued : Bytes} (h : b.Holds queued) {count : Nat}
    (hcount : count ≤ queued.length) :
    ∃ b', dropWritten b count = .ok b' ∧ b'.Holds (queued.drop count) := by
  by_cases hpos : (count : Int) > 0
  · obtain ⟨b', hadvance, hholds⟩ := h.advance hpos (by omega)
    refine ⟨b', ?_, hholds⟩
    rw [dropWritten, if_pos hpos, hadvance]
    rfl
  · obtain rfl : count = 0 := by omega
    exact ⟨b, rfl, h⟩

/-- The loop of `WriteFromBuffer` ends, and moves bytes from the buffer to the descriptor, unless `write`
fails. -/
theorem drain_ok {fuel : Nat} {w : BufferedWriter} {written queued : Bytes} (hholds : w.buffer.Holds queued)
    (hstream : w.sent ++ queued = written) (hsize : 0 < w.writeBufSize) (hfuel : queued.length ≤ fuel)
    (outcomes : Nat → Outcome) :
    ((∃ round, outcomes round = .failed) ∧ drain fuel w outcomes = .error (.exit "write")) ∨
      ∃ buffer sent queued', drain fuel w outcomes = .ok { w with buffer := buffer, sent := sent } ∧
        buffer.Holds queued' ∧ sent ++ queued' = written := by
  induction fuel generalizing w queued outcomes with
  | zero =>
      refine Or.inr ⟨w.buffer, w.sent, queued, ?_, hholds, hstream⟩
      rw [drain, hholds.size, if_neg (by omega)]
  | succ fuel ih =>
      by_cases hempty : queued.length = 0
      · refine Or.inr ⟨w.buffer, w.sent, queued, ?_, hholds, hstream⟩
        rw [drain, hholds.size, if_neg (by omega)]
      · obtain ⟨chunk, hchunk⟩ : ∃ chunk : Nat, min (queued.length : Int) w.writeBufSize = chunk :=
          Int.eq_ofNat_of_zero_le (by omega)
        have hpeek : w.buffer.peek chunk = .ok (some (queued.take chunk)) := by
          rw [hholds.peek (by omega), if_pos (by omega), Int.toNat_natCast]
        rw [drain, hholds.size, if_pos (by omega), hchunk]
        simp only [hpeek, bind, Except.bind]
        rcases w.tryWrite_ok (outcomes 0) (queued.take chunk) with ⟨hfailed, htry⟩ | ⟨count, hcount, htry⟩
        · exact Or.inl ⟨⟨0, hfailed⟩, by rw [htry]⟩
        · rw [List.length_take] at hcount
          obtain ⟨buffer, hdropped, hrest⟩ := dropWritten_ok hholds (show count ≤ queued.length by omega)
          have hstream' : w.sent ++ queued.take count ++ queued.drop count = written := by
            calc
              _ = w.sent ++ (queued.take count ++ queued.drop count) := List.append_assoc _ _ _
              _ = w.sent ++ queued := by rw [List.take_append_drop]
              _ = written := hstream
          rw [List.take_take, Nat.min_eq_left (by omega)] at htry
          simp only [htry, hdropped]
          by_cases hall : (count : Int) ≠ chunk
          · rw [if_pos hall]
            exact Or.inr ⟨buffer, _, _, rfl, hrest, hstream'⟩
          · rw [if_neg hall]
            have hfuel' : (queued.drop count).length ≤ fuel := by
              rw [List.length_drop]
              omega
            rcases @ih { w with buffer := buffer, sent := w.sent ++ queued.take count } (queued.drop count) hrest
              hstream' hsize hfuel' fun round => outcomes (round + 1) with ⟨⟨round, hround⟩, hdrain⟩ | hdrain
            · exact Or.inl ⟨⟨round + 1, hround⟩, hdrain⟩
            · exact Or.inr hdrain

/-- `WriteFromBuffer` keeps the stream, unless `write` fails. -/
theorem Keeps.writeFromBuffer {w : BufferedWriter} {written queued : Bytes} (h : w.Keeps written queued)
    (hregistered : w.fd ∈ w.select.write.fds) (outcomes : Nat → Outcome) :
    ((∃ round, outcomes round = .failed) ∧ w.writeFromBuffer w.fd outcomes = .error (.exit "write")) ∨
      ∃ w' queued', w.writeFromBuffer w.fd outcomes = .ok w' ∧ w'.Keeps written queued' := by
  have hbuffered := h.registered.mpr hregistered
  have hqueued : 0 < queued.length := List.length_pos_iff.mpr (h.buffered.mp hbuffered)
  have hsize := h.holds.size
  have hchecks : w.writeFromBuffer w.fd outcomes = drain w.buffer.size.toNat w outcomes >>= fun w' =>
      if w'.buffer.size = 0 then do
        let select ← (w'.select.removeWriteFd w.fd).mapError Fault.exit
        return { w' with select := select, fdBuffered := false }
      else return w' := by
    have hpos : 0 < w.buffer.size := by omega
    simp only [BufferedWriter.writeFromBuffer, hbuffered, check_ok hpos, bind, Except.bind]
    rfl
  rw [hchecks]
  rcases drain_ok h.holds h.stream h.writeBufSize (show queued.length ≤ w.buffer.size.toNat by omega) outcomes with
    ⟨hfailed, hdrain⟩ | ⟨buffer, sent, queued', hdrain, hholds, hstream⟩
  · exact Or.inl ⟨hfailed, by rw [hdrain]; rfl⟩
  · rw [hdrain]
    dsimp only [bind, Except.bind]
    rw [hholds.size]
    by_cases hempty : queued' = []
    · subst hempty
      obtain ⟨select, hremove, hgone⟩ := Select.removeWriteFd_ok hregistered
      refine Or.inr ⟨{ w with buffer := buffer, sent := sent, select := select, fdBuffered := false }, [], ?_, hholds,
        hstream, by simp, by simpa using hgone, h.writeBufSize⟩
      rw [if_pos (by rfl), hremove]
      rfl
    · refine Or.inr ⟨{ w with buffer := buffer, sent := sent }, queued', ?_, hholds, hstream,
        iff_of_true hbuffered hempty, h.registered, h.writeBufSize⟩
      rw [if_neg (by simpa using hempty)]
      rfl

/-! ### What the descriptor took stays taken -/

theorem tryWrite_sent {w w' : BufferedWriter} {outcome : Outcome} {data : Bytes} {nbytes : Int}
    (h : w.tryWrite outcome data = .ok (nbytes, w')) : w.sent <+: w'.sent := by
  cases outcome with
  | wrote count =>
      cases h
      exact List.prefix_append _ _
  | eagain =>
      cases h
      exact List.prefix_rfl
  | failed => cases h

theorem writeToBuffer_sent {w w' : BufferedWriter} {data : Bytes} {success : Bool}
    (h : w.writeToBuffer data = .ok (success, w')) : w'.sent = w.sent := by
  rw [writeToBuffer] at h
  obtain ⟨⟨done, buffer⟩, -, h⟩ := LibExcept.bind_eq_ok h
  dsimp only at h
  split at h
  · cases h
    rfl
  · split at h
    · obtain ⟨select, -, h⟩ := LibExcept.bind_eq_ok h
      cases h
      rfl
    · cases h
      rfl

theorem write_sent {w w' : BufferedWriter} {outcome : Outcome} {data : Bytes} {success : Bool}
    (h : w.write outcome data = .ok (success, w')) : w.sent <+: w'.sent := by
  rw [write] at h
  obtain ⟨_, -, h⟩ := LibExcept.bind_eq_ok h
  split at h
  · rw [writeToBuffer_sent h]
  · obtain ⟨⟨nbytes, tried⟩, htry, h⟩ := LibExcept.bind_eq_ok h
    dsimp only at h
    split at h
    · rw [writeToBuffer_sent h]
      exact tryWrite_sent htry
    · cases h
      exact tryWrite_sent htry

theorem drain_sent {fuel : Nat} {w w' : BufferedWriter} {outcomes : Nat → Outcome}
    (h : drain fuel w outcomes = .ok w') : w.sent <+: w'.sent := by
  induction fuel generalizing w outcomes with
  | zero =>
      rw [drain] at h
      split at h
      · cases h
      · cases h
        exact List.prefix_rfl
  | succ fuel ih =>
      rw [drain] at h
      split at h
      case isFalse =>
        cases h
        exact List.prefix_rfl
      case isTrue =>
        obtain ⟨peeked, -, h⟩ := LibExcept.bind_eq_ok h
        cases peeked with
        | none => cases h
        | some data =>
            obtain ⟨⟨wrote, tried⟩, htry, h⟩ := LibExcept.bind_eq_ok h
            obtain ⟨buffer, -, h⟩ := LibExcept.bind_eq_ok h
            have hsent := tryWrite_sent htry
            dsimp only at h
            split at h
            · cases h
              exact hsent
            · have hmore := ih h
              exact hsent.trans hmore

theorem writeFromBuffer_sent {w w' : BufferedWriter} {fd : Fd} {outcomes : Nat → Outcome}
    (h : w.writeFromBuffer fd outcomes = .ok w') : w.sent <+: w'.sent := by
  rw [writeFromBuffer] at h
  obtain ⟨_, -, h⟩ := LibExcept.bind_eq_ok h
  obtain ⟨_, -, h⟩ := LibExcept.bind_eq_ok h
  obtain ⟨_, -, h⟩ := LibExcept.bind_eq_ok h
  obtain ⟨drained, hdrain, h⟩ := LibExcept.bind_eq_ok h
  have hsent := drain_sent hdrain
  split at h
  · obtain ⟨select, -, h⟩ := LibExcept.bind_eq_ok h
    cases h
    exact hsent
  · cases h
    exact hsent

end BufferedWriter

/-! ### Runs of the writer and its select loop -/

/-- What happens to a writer: it is called, the select loop calls it back, and others change the loop. -/
inductive WriterCall
  | write (data : Bytes) (outcome : Outcome)
  | ready (outcomes : Nat → Outcome)
  | other (change : Change)

/-- All the data of the calls, in order. -/
def written (calls : List WriterCall) : Bytes :=
  calls.flatMap fun
    | .write data _ => data
    | _ => []

/-- A change that leaves the write registration of a descriptor alone. -/
def Change.Spares (change : Change) (fd : Fd) : Prop :=
  (∀ cb, change ≠ .add .write fd cb) ∧ change ≠ .remove .write fd

namespace BufferedWriter

/-- The loop calls back only what is registered, and nobody else registers the writer's descriptor for
writing. -/
inductive Step : BufferedWriter → WriterCall → BufferedWriter → Prop
  | write {w w' : BufferedWriter} {data : Bytes} {outcome : Outcome} {success : Bool} :
      data ≠ [] → w.write outcome data = .ok (success, w') → Step w (.write data outcome) w'
  | ready {w w' : BufferedWriter} {outcomes : Nat → Outcome} :
      w.fd ∈ w.select.write.fds → w.writeFromBuffer w.fd outcomes = .ok w' → Step w (.ready outcomes) w'
  | other {w : BufferedWriter} {change : Change} {select : Select} :
      change.Spares w.fd → w.select.change change = .ok select → Step w (.other change) { w with select := select }

theorem Keeps.other {w : BufferedWriter} {data queued : Bytes} (h : w.Keeps data queued) {change : Change}
    (hspares : change.Spares w.fd) {select : Select} (hchange : w.select.change change = .ok select) :
    Keeps { w with select := select } data queued := by
  refine ⟨h.holds, h.stream, h.buffered, h.registered.trans ?_, h.writeBufSize⟩
  have hmem := Select.mem_change hchange .write w.fd
  simp only [Select.watch] at hmem
  rw [hmem]
  constructor
  · exact fun hregistered => Or.inr ⟨hregistered, hspares.2⟩
  · rintro (⟨cb, hadd⟩ | ⟨hregistered, -⟩)
    · exact absurd hadd (hspares.1 cb)
    · exact hregistered

theorem Keeps.step {w w' : BufferedWriter} {data queued : Bytes} (h : w.Keeps data queued) {call : WriterCall}
    (hstep : Step w call w') : ∃ queued', w'.Keeps (data ++ written [call]) queued' := by
  cases hstep with
  | write hadded hwrite =>
      rcases h.write hadded _ with ⟨-, herror⟩ | ⟨w'', queued', hok, hkeeps⟩
      · rw [herror] at hwrite
        cases hwrite
      · rw [hok] at hwrite
        cases hwrite
        refine ⟨queued', ?_⟩
        rw [written, List.flatMap_singleton]
        exact hkeeps
  | ready hregistered hcall =>
      rcases h.writeFromBuffer hregistered _ with ⟨-, herror⟩ | ⟨w'', queued', hok, hkeeps⟩
      · rw [herror] at hcall
        cases hcall
      · rw [hok] at hcall
        cases hcall
        refine ⟨queued', ?_⟩
        rw [written, List.flatMap_singleton, List.append_nil]
        exact hkeeps
  | other hspares hchange =>
      refine ⟨queued, ?_⟩
      rw [written, List.flatMap_singleton, List.append_nil]
      exact h.other hspares hchange

theorem keeps_run {start w : BufferedWriter} {calls : List WriterCall} (hstart : start.Keeps [] [])
    (hrun : LibRun.Run Step start calls w) : ∃ queued, w.Keeps (written calls) queued := by
  refine hrun.invariant (fun calls w => ∃ queued, w.Keeps (written calls) queued) ⟨[], hstart⟩ ?_
  rintro calls before call after - ⟨queued, hkeeps⟩ hstep
  have hwritten : written (calls ++ [call]) = written calls ++ written [call] := List.flatMap_append
  rw [hwritten]
  exact hkeeps.step hstep

/-- What a user sees of a writer between two calls: the stream is whole, the flag, the buffer and the
registration agree, and both calls end without a fault as long as `write` does not fail. -/
structure Intact (w : BufferedWriter) (data : Bytes) : Prop where
  stream : ∃ queued, w.buffer.IsQueue queued ∧ w.sent ++ queued = data
  buffered : w.fdBuffered = true ↔ 0 < w.buffer.size
  registered : w.fdBuffered = true ↔ w.fd ∈ w.select.write.fds
  write : ∀ added outcome, added ≠ [] → outcome ≠ .failed → ∃ w', w.write outcome added = .ok (true, w')
  writeFromBuffer : w.fd ∈ w.select.write.fds → ∀ outcomes : Nat → Outcome,
    (∀ round, outcomes round ≠ .failed) → ∃ w', w.writeFromBuffer w.fd outcomes = .ok w'

theorem Keeps.intact {w : BufferedWriter} {data queued : Bytes} (h : w.Keeps data queued) : w.Intact data := by
  refine ⟨⟨queued, h.holds.isQueue, h.stream⟩, ?_, h.registered, ?_, ?_⟩
  · rw [h.buffered, h.holds.size, Int.natCast_pos, List.length_pos_iff]
  · intro added outcome hadded houtcome
    rcases h.write hadded outcome with ⟨hfailed, -⟩ | ⟨w', queued', hok, -⟩
    · exact absurd hfailed houtcome
    · exact ⟨w', hok⟩
  · intro hregistered outcomes houtcomes
    rcases h.writeFromBuffer hregistered outcomes with ⟨⟨round, hfailed⟩, -⟩ | ⟨w', queued', hok, -⟩
    · exact absurd hfailed (houtcomes round)
    · exact ⟨w', hok⟩

/-- **Nothing is lost, repeated or reordered**: after any calls of a new writer and of its callback, however
much the descriptor took each time, what it took and what is still buffered are the data of the calls. -/
theorem stream_intact {select : Select} {fd : Fd} {bufferSize writeSize : Nat} {callback : Callback}
    {start w : BufferedWriter} {calls : List WriterCall} (hfd : fd ∉ select.write.fds)
    (hnew : new select fd bufferSize writeSize callback = .ok start) (hrun : LibRun.Run Step start calls w) :
    w.Intact (written calls) := by
  obtain ⟨queued, hkeeps⟩ := keeps_run (keeps_new hfd hnew) hrun
  exact hkeeps.intact

/-- A write of which the descriptor takes one byte, a callback that moves one more, and a write that is
buffered behind the rest. -/
theorem stream_intact_partial :
    ∃ start w, new Select.new 3 2 2 7 = .ok start ∧
      LibRun.Run Step start [.write [1, 2, 3] (.wrote 1), .ready fun _ => .wrote 1, .write [4, 5] .eagain] w ∧
      w.sent = [1, 2] ∧ w.fdBuffered = true ∧ w.Intact [1, 2, 3, 4, 5] := by
  have hnew : new Select.new 3 2 2 7 = .ok ⟨Select.new, 3, Buffer.new 2, false, 2, 7, []⟩ := rfl
  have hsteps : ∃ w₁, Step ⟨Select.new, 3, Buffer.new 2, false, 2, 7, []⟩ (.write [1, 2, 3] (.wrote 1)) w₁ ∧
      ∃ w₂, Step w₁ (.ready fun _ => .wrote 1) w₂ ∧ ∃ w₃, Step w₂ (.write [4, 5] .eagain) w₃ ∧
        w₃.sent = [1, 2] ∧ w₃.fdBuffered = true :=
    ⟨_, .write (by decide) rfl, _, .ready (by decide) rfl, _, .write (by decide) rfl, rfl, rfl⟩
  obtain ⟨w₁, hfirst, w₂, hsecond, w, hthird, hsent, hbuffered⟩ := hsteps
  have hrun := (((LibRun.Run.nil _).snoc hfirst).snoc hsecond).snoc hthird
  exact ⟨_, w, hnew, hrun, hsent, hbuffered, stream_intact (by decide) hnew hrun⟩

end BufferedWriter

end Thebends.Ynet
