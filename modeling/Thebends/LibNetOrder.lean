import Mathlib.Algebra.Ring.Nat
import Mathlib.Data.List.Basic
import Mathlib.Data.List.Induction

/-! Unsigned integers in network byte order, in any number of bytes. -/

namespace Thebends.LibNetOrder

/-- The lowest bytes of a number, the highest of them first. -/
def toNetwork : Nat → Nat → List UInt8
  | 0, _ => []
  | count + 1, value => toNetwork count (value / 256) ++ [UInt8.ofNat value]

def ofNetwork (bytes : List UInt8) : Nat := bytes.foldl (fun value byte => value * 256 + byte.toNat) 0

@[simp] theorem length_toNetwork (count value : Nat) : (toNetwork count value).length = count := by
  induction count generalizing value with
  | zero => rfl
  | succ count ih => rw [toNetwork, List.length_append, ih, List.length_singleton]

theorem toNetwork_succ {byte : Nat} (h : byte < 256) (count value : Nat) :
    toNetwork (count + 1) (value * 256 + byte) = toNetwork count value ++ [UInt8.ofNat byte] := by
  have hquotient : (value * 256 + byte) / 256 = value := by omega
  have hbyte : UInt8.ofNat (value * 256 + byte) = .ofNat byte := by
    apply UInt8.toNat_inj.mp
    rw [UInt8.toNat_ofNat', UInt8.toNat_ofNat']
    omega
  rw [toNetwork, hquotient, hbyte]

theorem ofNetwork_concat (bytes : List UInt8) (byte : UInt8) :
    ofNetwork (bytes ++ [byte]) = ofNetwork bytes * 256 + byte.toNat := by
  rw [ofNetwork, List.foldl_append]
  rfl

theorem ofNetwork_lt (bytes : List UInt8) : ofNetwork bytes < 256 ^ bytes.length := by
  induction bytes using List.reverseRecOn with
  | nil => exact Nat.one_pos
  | append_singleton bytes byte ih =>
      have hbyte := byte.toNat_lt
      rw [ofNetwork_concat, List.length_append, List.length_singleton, Nat.pow_succ]
      omega

/-- A number that fits its bytes is read back from them. -/
theorem ofNetwork_toNetwork {count value : Nat} (h : value < 256 ^ count) :
    ofNetwork (toNetwork count value) = value := by
  induction count generalizing value with
  | zero =>
      rw [Nat.pow_zero, Nat.lt_one_iff] at h
      rw [h]
      rfl
  | succ count ih =>
      have hquotient : value / 256 < 256 ^ count := Nat.div_lt_of_lt_mul (by rwa [Nat.mul_comm, ← Nat.pow_succ])
      rw [toNetwork, ofNetwork_concat, ih hquotient, UInt8.toNat_ofNat']
      exact Nat.div_add_mod' value 256

/-- Four bytes side by side. -/
theorem or_bytes {a b c d : Nat} (hb : b < 256) (hc : c < 256) (hd : d < 256) :
    a <<< 24 ||| b <<< 16 ||| c <<< 8 ||| d = ((a * 256 + b) * 256 + c) * 256 + d := by
  have hfirst := Nat.shiftLeft_add_eq_or_of_lt (show b <<< 16 < 2 ^ 24 by rw [Nat.shiftLeft_eq]; omega) a
  have hsecond := Nat.shiftLeft_add_eq_or_of_lt (show c <<< 8 < 2 ^ 16 by rw [Nat.shiftLeft_eq]; omega) (a * 256 + b)
  have hthird := Nat.shiftLeft_add_eq_or_of_lt (show d < 2 ^ 8 from hd) ((a * 256 + b) * 256 + c)
  rw [← hfirst, show a <<< 24 + b <<< 16 = (a * 256 + b) <<< 16 by simp only [Nat.shiftLeft_eq]; omega, ← hsecond,
    show (a * 256 + b) <<< 16 + c <<< 8 = ((a * 256 + b) * 256 + c) <<< 8 by simp only [Nat.shiftLeft_eq]; omega, ← hthird,
    Nat.shiftLeft_eq]

end Thebends.LibNetOrder
