import Thebends.LibRing

/-! What a file is for: an array that is written at any offset, cut or extended to a length, and read from any
offset. -/

namespace Thebends.LibContents

open LibRing

variable {α : Type*}

/-- The bytes at an offset are replaced, or added behind the end and what is missing before them. -/
def write (fill : α) (contents data : List α) (offset : Nat) : List α :=
  splice (contents ++ List.replicate (offset - contents.length) fill) offset data

def resize (fill : α) (contents : List α) (length : Nat) : List α :=
  contents.take length ++ List.replicate (length - contents.length) fill

def read (contents : List α) (size offset : Nat) : List α := (contents.drop offset).take size

section

variable {fill : α} {contents contents' data : List α} {offset : Nat}

theorem write_of_le (h : offset ≤ contents.length) : write fill contents data offset = splice contents offset data := by
  rw [write, Nat.sub_eq_zero_of_le h, List.replicate_zero, List.append_nil]

theorem length_write_of_le (h : offset ≤ contents.length) :
    (write fill contents data offset).length = max contents.length (offset + data.length) := by
  rw [write_of_le h, splice]
  simp only [List.length_append, List.length_take, List.length_drop]
  omega

theorem length_resize (length : Nat) : (resize fill contents length).length = length := by
  simp only [resize, List.length_append, List.length_take, List.length_replicate]
  omega

theorem resize_length : resize fill contents contents.length = contents := by
  rw [resize, Nat.sub_self, List.take_length, List.replicate_zero, List.append_nil]

/-- Arrays are told apart by what is read from them. -/
theorem eq_of_read (h : ∀ size offset, read contents size offset = read contents' size offset) :
    contents = contents' := by
  have hall : ∀ size, contents.take size = contents'.take size := fun size => h size 0
  apply List.ext_getElem?
  intro index
  have hboth := congrArg (fun taken : List α => taken[index]?) (hall (index + 1))
  simpa only [List.getElem?_take_of_lt (Nat.lt_succ_self index)] using hboth

end

end Thebends.LibContents
