import Thebends.LibContents
import Thebends.RamdiskUsage

/-! A file that is written, truncated and read, next to the array that it stands for. -/

namespace Thebends.Ramdisk

open LibExcept LibMap LibRing LibRun

/-- `File::Read`. The data and the buffer for it are both in memory, so the sum of their sizes does not wrap. -/
def File.read (file : File) (size offset : Nat) : Bytes :=
  let len := file.data.length
  if offset < len then
    let size := if offset + size > len then len - offset else size
    (file.data.drop offset).take size
  else []

theorem File.read_eq (file : File) (size offset : Nat) : file.read size offset = LibContents.read file.data size offset := by
  rw [File.read, LibContents.read]
  split
  case isTrue =>
    split
    case isTrue hpast =>
      rw [List.take_of_length_le (by rw [List.length_drop]), List.take_of_length_le (by rw [List.length_drop]; omega)]
    case isFalse => rfl
  case isFalse hend => rw [List.drop_of_length_le (Nat.le_of_not_lt hend), List.take_nil]

/-- A call on a file. -/
inductive FileCall
  | write (buf : Bytes) (offset : Nat)
  | truncate (length : Nat)

/-- What the call does to the array. -/
def FileCall.apply (contents : Bytes) : FileCall → Bytes
  | .write buf offset => LibContents.write 0 contents buf offset
  | .truncate length => LibContents.resize 0 contents length

/-- Writes that leave no gap, and truncations to the length that there is. -/
def FileCall.Fits (length : Nat) : FileCall → Prop
  | .write _ offset => offset ≤ length
  | .truncate length' => length' = length

/-- The length after such a call. -/
def FileCall.extend (length : Nat) : FileCall → Nat
  | .write buf offset => max length (offset + buf.length)
  | .truncate _ => length

def FileCall.AllFit : Nat → List FileCall → Prop
  | _, [] => True
  | length, call :: calls => call.Fits length ∧ AllFit (call.extend length) calls

namespace Disk

/-- `ramfs_read`. -/
def readFile (d : Disk) (id size offset : Nat) : Except Fault Bytes := do
  let file ← d.file id
  return file.read size offset

def callFile (d : Disk) (id : Nat) : FileCall → Except Fault Disk
  | .write buf offset => (d.writeFile id buf offset).map Prod.snd
  | .truncate length => d.truncateFile id length

/-- `Size` and `Read` give what the array gives. -/
def Shows (d : Disk) (id : Nat) (contents : Bytes) : Prop :=
  d.sizeOf id = contents.length ∧
    ∀ size offset, d.readFile id size offset = .ok (LibContents.read contents size offset)

/-- One call after another returns, and the file always shows what the array holds. -/
def Mirrors (id : Nat) : Disk → Bytes → List FileCall → Prop
  | d, contents, [] => d.Shows id contents
  | d, contents, call :: calls =>
      d.Shows id contents ∧ ∃ d', d.callFile id call = .ok d' ∧ Mirrors id d' (call.apply contents) calls

section

variable {d d' : Disk} {id : Nat}

theorem shows_iff {contents : Bytes} : d.Shows id contents ↔
    ∃ file, d.files.lookup id = some file ∧ file.size = contents.length ∧ file.data = contents := by
  constructor
  · rintro ⟨hsize, hread⟩
    obtain ⟨file, hfile, -⟩ := bind_eq_ok (hread 0 0)
    have hfile := file_ok hfile
    rw [sizeOf, hfile] at hsize
    refine ⟨file, hfile, hsize, LibContents.eq_of_read fun size offset => ?_⟩
    have hboth := hread size offset
    rw [readFile, file_of_lookup hfile] at hboth
    rw [← file.read_eq]
    exact Except.ok.inj hboth
  · rintro ⟨file, hfile, hsize, rfl⟩
    refine ⟨?_, fun size offset => ?_⟩
    · rw [sizeOf, hfile]
      exact hsize
    · rw [readFile, file_of_lookup hfile, ← file.read_eq]
      rfl

/-! ### One call -/

/-- The file after a call that is not refused. -/
def fileAfter (file : File) : FileCall → File
  | .write buf offset =>
      let data := splice file.data offset buf
      { file with data, size := data.length }
  | .truncate length => { file with size := length }

/-- `replace` throws where the offset is behind the end. -/
def Refused (file : File) : FileCall → Prop
  | .write _ offset => file.data.length < offset
  | .truncate _ => False

theorem callFile_refused {file : File} {call : FileCall} (hfile : d.files.lookup id = some file)
    (hrefused : Refused file call) : d.callFile id call = .error .outOfRange := by
  cases call with
  | write buf offset =>
      have hpast : offset > file.data.length := hrefused
      rw [callFile, writeFile, file_of_lookup hfile, ok_bind, if_pos hpast]
      rfl
  | truncate length => exact hrefused.elim

theorem callFile_eq {file : File} {call : FileCall} (hfile : d.files.lookup id = some file)
    (htaken : ¬Refused file call) : d.callFile id call =
      updateDiskUsed { d with files := d.files.insert id (fileAfter file call) } file.parent := by
  cases call with
  | write buf offset =>
      have hwithin : ¬offset > file.data.length := htaken
      rw [callFile, writeFile, file_of_lookup hfile, ok_bind, if_neg hwithin]
      simp only [fileAfter, splice]
      cases updateDiskUsed _ file.parent <;> rfl
  | truncate length =>
      rw [callFile, truncateFile, file_of_lookup hfile, ok_bind]
      rfl

/-- What a call that returns leaves. -/
theorem callFile_ok {file : File} {call : FileCall} (hordered : d.Ordered) (hfile : d.files.lookup id = some file)
    (h : d.callFile id call = .ok d') : ¬Refused file call ∧ d.Attached file.parent ∧ d'.Ordered ∧
      d'.files.lookup id = some (fileAfter file call) ∧ ∀ other, d'.Attached other ↔ d.Attached other := by
  have htaken : ¬Refused file call := by
    intro hrefused
    cases h.symm.trans (callFile_refused hfile hrefused)
  rw [callFile_eq hfile htaken] at h
  have hcounted := recounted_updateDiskUsed h
  refine ⟨htaken, ?_, ?_, ?_, ?_⟩
  · exact (attached_setFiles _).mp (attached_of_updateFrom h)
  · exact Ordered.congr hcounted.parentOf hordered
  · rw [hcounted.files]
    exact AList.lookup_insert _
  · intro other
    exact (attached_congr hcounted.parentOf).trans (attached_setFiles _)

theorem exists_callFile {file : File} {call : FileCall} (hordered : d.Ordered) (hfile : d.files.lookup id = some file)
    (htaken : ¬Refused file call) (hattached : d.Attached file.parent) : ∃ d', d.callFile id call = .ok d' := by
  rw [callFile_eq hfile htaken]
  exact exists_updateDiskUsed hordered ((attached_setFiles _).mpr hattached)

theorem parent_fileAfter (file : File) (call : FileCall) : (fileAfter file call).parent = file.parent := by
  cases call <;> rfl

/-- A call has the file stand for what it must just when it fits. -/
theorem fileAfter_iff {file : File} {call : FileCall} :
    ¬Refused file call ∧ (fileAfter file call).size = (call.apply file.data).length ∧
      (fileAfter file call).data = call.apply file.data ↔ call.Fits file.data.length := by
  cases call with
  | write buf offset =>
      constructor
      · exact fun h => Nat.le_of_not_lt h.1
      · intro hfits
        have hdata : LibContents.write 0 file.data buf offset = splice file.data offset buf := LibContents.write_of_le hfits
        refine ⟨Nat.not_lt_of_le hfits, ?_, hdata.symm⟩
        rw [FileCall.apply, hdata, fileAfter]
  | truncate length =>
      constructor
      · intro h
        have hlength := congrArg List.length h.2.2
        rw [FileCall.apply, LibContents.length_resize] at hlength
        exact hlength.symm
      · rintro rfl
        rw [FileCall.apply, LibContents.resize_length]
        exact ⟨not_false, rfl, rfl⟩

end

/-! ### All calls -/

theorem length_apply {contents : Bytes} {call : FileCall} (h : call.Fits contents.length) :
    (call.apply contents).length = call.extend contents.length := by
  cases call with
  | write buf offset => exact LibContents.length_write_of_le h
  | truncate length => exact (LibContents.length_resize length).trans h

theorem Mirrors.shows {d : Disk} {id : Nat} {contents : Bytes} {calls : List FileCall}
    (h : Mirrors id d contents calls) : d.Shows id contents := by
  cases calls with
  | nil => exact h
  | cons call calls => exact h.1

theorem mirrors_iff {d : Disk} {id : Nat} {file : File} (hordered : d.Ordered) (hfile : d.files.lookup id = some file)
    (hsize : file.size = file.data.length) (calls : List FileCall) :
    Mirrors id d file.data calls ↔
      FileCall.AllFit file.data.length calls ∧ (calls = [] ∨ d.Attached file.parent) := by
  have hshows : d.Shows id file.data := shows_iff.mpr ⟨file, hfile, hsize, rfl⟩
  induction calls generalizing d file with
  | nil => exact iff_of_true hshows ⟨trivial, Or.inl rfl⟩
  | cons call calls ih =>
      -- what the calls after this one need, once it has returned and fits
      have hrest : ∀ d', d.callFile id call = .ok d' → call.Fits file.data.length → d.Attached file.parent →
          (Mirrors id d' (call.apply file.data) calls ↔ FileCall.AllFit (call.extend file.data.length) calls) := by
        intro d' hcall hfits hattached
        obtain ⟨-, -, hordered', hfile', hkept⟩ := callFile_ok hordered hfile hcall
        obtain ⟨-, hsize', hdata⟩ := fileAfter_iff.mpr hfits
        have hafter : (fileAfter file call).size = (fileAfter file call).data.length := by rw [hsize', hdata]
        have hrest := ih hordered' hfile' hafter (shows_iff.mpr ⟨_, hfile', hafter, rfl⟩)
        rw [hdata, length_apply hfits, parent_fileAfter] at hrest
        exact hrest.trans (and_iff_left (Or.inr ((hkept _).mpr hattached)))
      constructor
      · rintro ⟨-, d', hcall, hmirrors⟩
        obtain ⟨htaken, hattached, -, hfile', -⟩ := callFile_ok hordered hfile hcall
        obtain ⟨found, hfound, hsize', hdata⟩ := shows_iff.mp hmirrors.shows
        cases hfile'.symm.trans hfound
        have hfits := fileAfter_iff.mp ⟨htaken, hsize', hdata⟩
        exact ⟨⟨hfits, (hrest d' hcall hfits hattached).mp hmirrors⟩, Or.inr hattached⟩
      · rintro ⟨⟨hfits, hall⟩, hattached⟩
        have hattached := hattached.resolve_left (List.cons_ne_nil call calls)
        obtain ⟨htaken, -, -⟩ := fileAfter_iff.mpr hfits
        obtain ⟨d', hcall⟩ := exists_callFile hordered hfile htaken hattached
        exact ⟨hshows, d', hcall, (hrest d' hcall hfits hattached).mpr hall⟩

/-- **A file is what the array is, through all calls, just when each write begins within it or at its end, each
truncation is to the length that it has**, and its directory and those above are in memory. The directories are
those of a ramdisk in use; the file may also be one that no directory has, or had. -/
theorem file_mirrors_iff {ops : List Op} {made d : Disk} {id : Nat} {file : File} {contents : Bytes}
    (hrun : Run Returns new ops made) (hdirs : d.dirs = made.dirs) (hfile : d.files.lookup id = some file)
    (hshows : d.Shows id contents) (calls : List FileCall) :
    Mirrors id d contents calls ↔
      FileCall.AllFit contents.length calls ∧ (calls = [] ∨ d.Attached file.parent) := by
  obtain ⟨found, hfound, hsize, rfl⟩ := shows_iff.mp hshows
  cases hfile.symm.trans hfound
  have hsame : d.parentOf = made.parentOf := funext fun id => by rw [parentOf, parentOf, hdirs]
  exact mirrors_iff ((sound_of_run hrun).ordered.congr hsame) hfile hsize calls

/-- A new file is written twice. -/
theorem file_mirrors_iff_twice :
    ∃ made file, Run Returns new [.create [47, 97] 0] made ∧ made.files.lookup 1 = some file ∧ made.Shows 1 [] ∧
      (Mirrors 1 made [] [.write [97, 98, 99] 0, .write [100] 3] ↔
        FileCall.AllFit 0 [.write [97, 98, 99] 0, .write [100] 3] ∧
          ([.write [97, 98, 99] 0, .write [100] 3] = ([] : List FileCall) ∨ made.Attached file.parent)) := by
  obtain ⟨made, hmade⟩ := exists_ok (x := new.step (.create [47, 97] 0)) rfl
  have hfacts : (new.step (.create [47, 97] 0)).map (fun d => d.files.lookup 1) = .ok (some ⟨0, [], 0⟩) := rfl
  rw [hmade] at hfacts
  have hfile : made.files.lookup 1 = some ⟨0, [], 0⟩ := Except.ok.inj hfacts
  have hshows : made.Shows 1 [] := shows_iff.mpr ⟨_, hfile, rfl, rfl⟩
  have hrun : Run Returns new [.create [47, 97] 0] made := Run.single hmade
  exact ⟨made, _, hrun, hfile, hshows, file_mirrors_iff hrun rfl hfile hshows _⟩

/-- A file of three bytes that is cut to one still gives all three. -/
theorem cut_file_reads_on : ¬∀ ops d id contents calls, Run Returns new ops d → d.Shows id contents →
    Mirrors id d contents calls := by
  intro h
  obtain ⟨made, hmade⟩ := exists_ok (x := new.step (.create [47, 97] 0)) rfl
  have hfacts : (new.step (.create [47, 97] 0)).map (fun d => d.files.lookup 1) = .ok (some ⟨0, [], 0⟩) := rfl
  have hreads : (new.step (.create [47, 97] 0)).bind (fun d => (d.callFile 1 (.write [97, 98, 99] 0)).bind fun d =>
      (d.callFile 1 (.truncate 1)).bind fun d => d.readFile 1 3 0) = .ok [97, 98, 99] := rfl
  rw [hmade] at hfacts hreads
  have hshows : made.Shows 1 [] := shows_iff.mpr ⟨_, Except.ok.inj hfacts, rfl, rfl⟩
  obtain ⟨-, d₁, hwrite, -, d₂, hcut, -, hread⟩ :=
    h _ made 1 [] [.write [97, 98, 99] 0, .truncate 1] (Run.single hmade) hshows
  rw [Except.bind, hwrite, Except.bind, hcut, Except.bind] at hreads
  cases hreads.symm.trans (hread 3 0)

end Disk

end Thebends.Ramdisk
