import Thebends.YnetBuffer
import Thebends.YnetSelect

/-! The buffered reader of ynet (`buffered_reader.h`, `buffered_reader.cpp`): it reads from its descriptor until that
has nothing left, and then has its owner look at the buffer. -/

namespace Thebends.Ynet

/-- What `read` does before it sets `errno` to `EAGAIN`: it returns some bytes, none at the end of the file, or it
fails. -/
inductive ReadOutcome
  | read (data : Bytes)
  | failed
  deriving DecidableEq, Repr

/-- `BufferedReader`, with the `Select` it points to. -/
structure BufferedReader where
  select : Select
  fd : Fd
  buffer : Buffer
  readBufSize : Int
  eof : Bool

namespace BufferedReader

/-- The constructor. -/
def new (select : Select) (fd : Fd) (bufferSize readSize : Nat) (callback : Callback) :
    Except Fault BufferedReader := do
  check (bufferSize > 0)
  check (readSize > 0)
  let select ← (select.addReadFd fd callback).mapError Fault.exit
  return ⟨select, fd, Buffer.new bufferSize, readSize, false⟩

/-- The loop of `Ready`, and whether anything changed. -/
def fill (r : BufferedReader) (changed : Bool) : List ReadOutcome → Except Fault (Bool × BufferedReader)
  | [] => .ok (changed, r)
  | .failed :: _ => .error (.exit "read")
  | .read data :: outcomes =>
      if data = [] then .ok (true, { r with eof := true })
      else do
        let (_, buffer) ← r.buffer.write data
        fill { r with buffer := buffer } true outcomes

/-- `Ready`, up to its callback, which it calls if anything changed. -/
def ready (r : BufferedReader) (fd : Fd) (outcomes : List ReadOutcome) : Except Fault (Bool × BufferedReader) := do
  check (fd = r.fd)
  fill r false outcomes

/-- The bytes that `Ready` reads. -/
def arrived : List ReadOutcome → Bytes
  | [] => []
  | .failed :: _ => []
  | .read data :: outcomes => if data = [] then [] else data ++ arrived outcomes

/-- `Ready` comes to the end of the file. -/
def ends : List ReadOutcome → Bool
  | [] => false
  | .failed :: _ => false
  | .read data :: outcomes => if data = [] then true else ends outcomes

/-- What `Ready` reads goes behind what is in the buffer. -/
theorem fill_ok {r : BufferedReader} {queued : Bytes} (h : r.buffer.Holds queued) (changed : Bool)
    (outcomes : List ReadOutcome) :
    r.fill changed outcomes = .error (.exit "read") ∨
      ∃ buffer, buffer.Holds (queued ++ arrived outcomes) ∧
        r.fill changed outcomes =
          .ok (changed || !outcomes.isEmpty, { r with buffer := buffer, eof := r.eof || ends outcomes }) := by
  induction outcomes generalizing r queued changed with
  | nil =>
      refine Or.inr ⟨r.buffer, by rwa [arrived, List.append_nil], ?_⟩
      simp only [fill, ends, List.isEmpty_nil, Bool.not_true, Bool.or_false]
  | cons outcome outcomes ih =>
      cases outcome with
      | failed => exact Or.inl rfl
      | read data =>
          by_cases hempty : data = []
          · refine Or.inr ⟨r.buffer, by rwa [arrived, if_pos hempty, List.append_nil], ?_⟩
            simp only [fill, ends, if_pos hempty, List.isEmpty_cons, Bool.not_false, Bool.or_true]
          · obtain ⟨buffer, hwrite, hbuffer⟩ := h.write data
            rw [fill, arrived, ends, if_neg hempty, if_neg hempty, if_neg hempty, hwrite]
            rcases @ih { r with buffer := buffer } (queued ++ data) hbuffer true with herror | ⟨buffer', hholds, hfill⟩
            · exact Or.inl herror
            · refine Or.inr ⟨buffer', by rwa [← List.append_assoc], ?_⟩
              simpa [bind, Except.bind] using hfill

theorem ready_ok {r : BufferedReader} {queued : Bytes} (h : r.buffer.Holds queued) (outcomes : List ReadOutcome) :
    r.ready r.fd outcomes = .error (.exit "read") ∨
      ∃ buffer, buffer.Holds (queued ++ arrived outcomes) ∧
        r.ready r.fd outcomes =
          .ok (!outcomes.isEmpty, { r with buffer := buffer, eof := r.eof || ends outcomes }) := by
  have hcheck : check (decide (r.fd = r.fd)) = .ok () := check_ok rfl
  have hready : r.ready r.fd outcomes = r.fill false outcomes := by
    rw [ready, hcheck]
    rfl
  rw [hready]
  exact fill_ok h false outcomes

end BufferedReader

end Thebends.Ynet
