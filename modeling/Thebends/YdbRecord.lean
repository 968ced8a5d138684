import Mathlib.Data.List.Basic

/-! The record files of ydb (`writer.cpp`, `reader.cpp`): a file of records of one size, each meant to
stand behind a byte with its checksum. `char` is signed, and `write` and `read` transfer all the bytes
that are asked for and there. -/

namespace Thebends.Ydb

/-- `Checksum`, the same loop in both classes: `%` truncates, and the sum goes back into a `char`. -/
def checksum (buf : List Int8) : Int8 :=
  buf.foldl (fun x byte => Int8.ofInt ((x.toInt + byte.toInt).tmod 0xff)) 0

/-- What a `char*` passed to `WriteRecord` points to: the record and the byte that follows it in
memory. -/
structure RecordBuf where
  record : List Int8
  behind : Int8

namespace RecordBuf

/-- The `record_size_ + 1` bytes from the pointer on. -/
def bytes (buf : RecordBuf) : List Int8 := buf.record ++ [buf.behind]

end RecordBuf

/-- `WriterImpl`, with the file it writes. -/
structure Writer where
  file : List Int8
  recordSize : Nat
  error : Bool

/-- `OpenWriter` on a fresh file. -/
def openWriter (recordSize : Nat) : Writer := ⟨[], recordSize, false⟩

/-- `WriteRecord`. The checksum goes into `checksum_buffer`, which is not what is written. -/
def Writer.writeRecord (writer : Writer) (buf : RecordBuf) : Bool × Writer :=
  if writer.error then (false, writer)
  else
    let written := buf.bytes.take (writer.recordSize + 1)
    if written.length ≠ writer.recordSize + 1 then (false, { writer with error := true })
    else (true, { writer with file := writer.file ++ written })

/-- `ReaderImpl`, with the part of the file that was not read yet. -/
structure Reader where
  rest : List Int8
  fileSize : Int
  bytesRead : Int
  recordSize : Nat
  error : Bool
  deriving DecidableEq

/-- `OpenReader`: what it takes for the size of the file is the return value of `fstat`, and nothing
initialises `bytes_read_`. -/
def openReader (file : List Int8) (uninitialised : Int) (recordSize : Nat) : Reader :=
  ⟨file, 0, uninitialised, recordSize, false⟩

namespace Reader

def eof (reader : Reader) : Bool := reader.error || decide (reader.fileSize ≤ reader.bytesRead)

/-- `ReadRecord`, with the record it copies out if it returns true. -/
def readRecord (reader : Reader) : Option (List Int8) × Reader :=
  if reader.eof || reader.error then (none, reader)
  else
    let buf := reader.rest.take (reader.recordSize + 1)
    let rest := reader.rest.drop (reader.recordSize + 1)
    if buf.length ≠ reader.recordSize + 1 then (none, { reader with rest := rest, error := true })
    else if some (checksum buf.tail) ≠ buf.head? then (none, { reader with rest := rest, error := true })
    else (some buf.tail, { reader with rest := rest, bytesRead := reader.bytesRead + (reader.recordSize + 1) })

/-- A number of calls of `ReadRecord`. -/
def readRecords : Nat → Reader → List (Option (List Int8)) × Reader
  | 0, reader => ([], reader)
  | count + 1, reader =>
      let (record, next) := reader.readRecord
      let (records, final) := readRecords count next
      (record :: records, final)

end Reader

/-- The file after writing a list of records. -/
def writeRecords (recordSize : Nat) (bufs : List RecordBuf) : Writer :=
  bufs.foldl (fun writer buf => (writer.writeRecord buf).2) (openWriter recordSize)

/-- Reading as many records as were written gives them back, and the reader then reports `Eof` without
an error. -/
def Reader.GivesBack (reader : Reader) (bufs : List RecordBuf) : Prop :=
  (reader.readRecords bufs.length).1 = bufs.map (fun buf => some buf.record) ∧
    (reader.readRecords bufs.length).2.eof = true ∧ (reader.readRecords bufs.length).2.error = false

/-- The records written to a fresh file are read back from it. -/
def RoundTrips (recordSize : Nat) (uninitialised : Int) (bufs : List RecordBuf) : Prop :=
  (openReader (writeRecords recordSize bufs).file uninitialised recordSize).GivesBack bufs

instance (recordSize : Nat) (uninitialised : Int) (bufs : List RecordBuf) :
    Decidable (RoundTrips recordSize uninitialised bufs) :=
  inferInstanceAs (Decidable (_ ∧ _ ∧ _))

/-- When they do. -/
def RoundTripCond (recordSize : Nat) (uninitialised : Int) (bufs : List RecordBuf) : Prop :=
  (∀ buf ∈ bufs, buf.record = List.replicate recordSize buf.behind ∧ checksum buf.record = buf.behind) ∧
    0 ≤ uninitialised + bufs.length * (recordSize + 1 : Int) ∧
    (bufs = [] ∨ uninitialised + (bufs.length - 1) * (recordSize + 1 : Int) < 0)

/-! ### What is written -/

theorem bytes_length {buf : RecordBuf} {recordSize : Nat} (h : buf.record.length = recordSize) :
    buf.bytes.length = recordSize + 1 := by
  rw [RecordBuf.bytes, List.length_append, h]
  rfl

/-- Every record goes to the file with the byte behind it, and without its checksum. -/
theorem writeRecords_file {recordSize : Nat} {bufs : List RecordBuf}
    (h : ∀ buf ∈ bufs, buf.record.length = recordSize) :
    (writeRecords recordSize bufs).file = bufs.flatMap RecordBuf.bytes := by
  have hfold : ∀ writer : Writer, writer.recordSize = recordSize → writer.error = false →
      (bufs.foldl (fun writer buf => (writer.writeRecord buf).2) writer).file =
        writer.file ++ bufs.flatMap RecordBuf.bytes := by
    induction bufs with
    | nil => intro writer _ _; simp
    | cons buf bufs ih =>
        intro writer hsize herror
        have hbytes : buf.bytes.length = writer.recordSize + 1 := hsize ▸ bytes_length (h buf List.mem_cons_self)
        have hwrite : (writer.writeRecord buf).2 = { writer with file := writer.file ++ buf.bytes } := by
          simp [Writer.writeRecord, herror, List.take_of_length_le (Nat.le_of_eq hbytes), hbytes]
        have hrest := ih (fun other hother => h other (List.mem_cons_of_mem _ hother))
          { writer with file := writer.file ++ buf.bytes } hsize herror
        rw [List.foldl_cons, hwrite, hrest, List.flatMap_cons, List.append_assoc]
  exact hfold (openWriter recordSize) rfl rfl

/-! ### What is read -/

/-- A list that is shifted by the byte behind it without changing has that byte everywhere. -/
theorem eq_replicate_of_shift {byte : Int8} {rest : List Int8} :
    ∀ {first : Int8}, rest ++ [byte] = first :: rest → first = byte ∧ rest = List.replicate rest.length byte := by
  induction rest with
  | nil =>
      intro first h
      exact ⟨(List.cons.inj h).1.symm, rfl⟩
  | cons next rest ih =>
      intro first h
      obtain ⟨hfirst, hrest⟩ := List.cons.inj h
      obtain ⟨hnext, hall⟩ := ih hrest
      refine ⟨hfirst.symm.trans hnext, ?_⟩
      rw [List.length_cons, List.replicate_succ, hnext, ← hall]

theorem shift_eq_iff {buf : RecordBuf} (h : buf.record ≠ []) :
    buf.bytes.tail = buf.record ↔ buf.record = List.replicate buf.record.length buf.behind := by
  obtain ⟨first, rest, hrecord⟩ := List.exists_cons_of_ne_nil h
  rw [RecordBuf.bytes, hrecord, List.cons_append, List.tail_cons, List.length_cons, List.replicate_succ]
  constructor
  · intro hshift
    obtain ⟨hfirst, hrest⟩ := eq_replicate_of_shift hshift
    rw [hfirst, ← hrest]
  · intro hall
    obtain ⟨hfirst, hrest⟩ := List.cons.inj hall
    generalize rest.length = count at hrest
    rw [hfirst, hrest, ← List.replicate_succ', List.replicate_succ]

/-- A record is read back, with a matching checksum, exactly when it is one byte over and over, the byte
behind it included, and that byte is its checksum. -/
theorem read_back_iff {buf : RecordBuf} {recordSize : Nat} (hlength : buf.record.length = recordSize)
    (hsize : 0 < recordSize) :
    (some (checksum buf.bytes.tail) = buf.bytes.head? ∧ buf.bytes.tail = buf.record) ↔
      (buf.record = List.replicate recordSize buf.behind ∧ checksum buf.record = buf.behind) := by
  have hne : buf.record ≠ [] := List.ne_nil_of_length_pos (by omega)
  have hhead : buf.record = List.replicate recordSize buf.behind → buf.bytes.head? = some buf.behind := by
    intro hall
    obtain ⟨count, rfl⟩ : ∃ count, recordSize = count + 1 := ⟨recordSize - 1, by omega⟩
    rw [RecordBuf.bytes, hall, List.replicate_succ]
    rfl
  rw [shift_eq_iff hne, hlength]
  constructor
  · rintro ⟨hsum, hall⟩
    refine ⟨hall, ?_⟩
    rw [hhead hall, (shift_eq_iff hne).mpr (by rw [hlength]; exact hall), Option.some.injEq] at hsum
    exact hsum
  · rintro ⟨hall, hsum⟩
    refine ⟨?_, hall⟩
    rw [hhead hall, (shift_eq_iff hne).mpr (by rw [hlength]; exact hall), hsum]

/-- One call of `ReadRecord` that is not stopped by `Eof`, on what one `WriteRecord` has left. -/
theorem readRecord_bytes {buf : RecordBuf} {recordSize : Nat} (hlength : buf.record.length = recordSize)
    {rest : List Int8} {bytesRead : Int} (hread : bytesRead < 0) :
    (Reader.mk (buf.bytes ++ rest) 0 bytesRead recordSize false).readRecord =
      if some (checksum buf.bytes.tail) = buf.bytes.head? then
        (some buf.bytes.tail, ⟨rest, 0, bytesRead + (recordSize + 1), recordSize, false⟩)
      else (none, ⟨rest, 0, bytesRead, recordSize, true⟩) := by
  have hbytes := bytes_length hlength
  have htake : (buf.bytes ++ rest).take (recordSize + 1) = buf.bytes := by rw [← hbytes, List.take_left]
  have hdrop : (buf.bytes ++ rest).drop (recordSize + 1) = rest := by rw [← hbytes, List.drop_left]
  have heof : ¬(0 : Int) ≤ bytesRead := by omega
  simp only [Reader.readRecord, Reader.eof, htake, hdrop, hbytes, heof, decide_false, Bool.or_false]
  by_cases hsum : some (checksum buf.bytes.tail) = buf.bytes.head? <;> simp [hsum]

/-- The first of several calls, when it is not stopped by `Eof`. -/
theorem givesBack_cons {buf : RecordBuf} {bufs : List RecordBuf} {recordSize : Nat}
    (hlength : buf.record.length = recordSize) {rest : List Int8} {bytesRead : Int} (hread : bytesRead < 0) :
    (Reader.mk (buf.bytes ++ rest) 0 bytesRead recordSize false).GivesBack (buf :: bufs) ↔
      (some (checksum buf.bytes.tail) = buf.bytes.head? ∧ buf.bytes.tail = buf.record) ∧
        (Reader.mk rest 0 (bytesRead + (recordSize + 1)) recordSize false).GivesBack bufs := by
  simp only [Reader.GivesBack, List.length_cons, Reader.readRecords, readRecord_bytes hlength hread, List.map_cons,
    List.cons.injEq]
  by_cases hsum : some (checksum buf.bytes.tail) = buf.bytes.head?
  · simp only [hsum, if_true, Option.some.injEq, true_and]
    exact and_assoc
  · simp [hsum]

/-- A reader at its `Eof` gives nothing back. -/
theorem not_givesBack_of_eof {buf : RecordBuf} {bufs : List RecordBuf} {reader : Reader} (h : reader.eof = true) :
    ¬reader.GivesBack (buf :: bufs) := by
  simp [Reader.GivesBack, Reader.readRecords, Reader.readRecord, h]

theorem roundTripCond_cons {recordSize : Nat} {uninitialised : Int} {buf : RecordBuf} {bufs : List RecordBuf} :
    RoundTripCond recordSize uninitialised (buf :: bufs) ↔
      (buf.record = List.replicate recordSize buf.behind ∧ checksum buf.record = buf.behind) ∧ uninitialised < 0 ∧
        RoundTripCond recordSize (uninitialised + (recordSize + 1)) bufs := by
  have hlength : ((buf :: bufs).length : Int) = bufs.length + 1 := by simp
  have htotal : (0 : Int) ≤ bufs.length * (recordSize + 1 : Int) := Int.mul_nonneg (by omega) (by omega)
  have hnil : bufs = [] → (bufs.length : Int) * (recordSize + 1 : Int) = 0 := by
    rintro rfl
    simp
  simp only [RoundTripCond, List.forall_mem_cons, hlength, reduceCtorEq, false_or, Int.add_sub_cancel, Int.add_mul,
    Int.sub_mul, Int.one_mul]
  constructor
  · rintro ⟨⟨hbuf, hbufs⟩, hend, hlast⟩
    exact ⟨hbuf, by omega, hbufs, by omega, Or.inr (by omega)⟩
  · rintro ⟨hbuf, hread, hbufs, hend, hlast⟩
    refine ⟨⟨hbuf, hbufs⟩, by omega, ?_⟩
    rcases hlast with hempty | hlast
    · have := hnil hempty
      omega
    · omega

/-- Reading the file back, from any value of `bytes_read_`. -/
theorem givesBack_iff {recordSize : Nat} (hsize : 0 < recordSize) {bufs : List RecordBuf}
    (h : ∀ buf ∈ bufs, buf.record.length = recordSize) (bytesRead : Int) :
    (Reader.mk (bufs.flatMap RecordBuf.bytes) 0 bytesRead recordSize false).GivesBack bufs ↔
      RoundTripCond recordSize bytesRead bufs := by
  induction bufs generalizing bytesRead with
  | nil => simp [Reader.GivesBack, Reader.readRecords, Reader.eof, RoundTripCond]
  | cons buf bufs ih =>
      have hbuf := h buf List.mem_cons_self
      rw [List.flatMap_cons, roundTripCond_cons]
      by_cases hread : bytesRead < 0
      · rw [givesBack_cons hbuf hread, read_back_iff hbuf hsize,
          ih (fun other hother => h other (List.mem_cons_of_mem _ hother))]
        simp only [hread, true_and]
      · have heof : (Reader.mk (buf.bytes ++ bufs.flatMap RecordBuf.bytes) 0 bytesRead recordSize false).eof = true := by
          simp [Reader.eof, Int.not_lt.mp hread]
        exact iff_of_false (not_givesBack_of_eof heof) fun hcond => hread hcond.2.1

/-- **Round trip.** Records written to a fresh file are read back exactly when each of them repeats one
byte, which is also the byte behind its buffer and its checksum, and the value that `bytes_read_` starts
with becomes non-negative with the last record and not before. -/
theorem roundTrips_iff (recordSize : Nat) (hsize : 1 ≤ recordSize) (uninitialised : Int) (bufs : List RecordBuf)
    (h : ∀ buf ∈ bufs, buf.record.length = recordSize) :
    RoundTrips recordSize uninitialised bufs ↔ RoundTripCond recordSize uninitialised bufs := by
  rw [RoundTrips, writeRecords_file h]
  exact givesBack_iff hsize h uninitialised

/-- The file begins with the record and not with its checksum, and a reader whose `bytes_read_` happens
to be zero is at its end at once. -/
theorem one_record_not_read_back : ¬RoundTrips 1 0 [⟨[97], 0⟩] := by decide

theorem roundTrips_iff_zeros : RoundTrips 2 (-4) [⟨[0, 0], 0⟩, ⟨[0, 0], 0⟩] :=
  (roundTrips_iff 2 (by decide) (-4) [⟨[0, 0], 0⟩, ⟨[0, 0], 0⟩] (by simp)).mpr ⟨by simp; decide, by decide, by decide⟩

end Thebends.Ydb
