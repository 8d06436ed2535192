import Binius64.WordBytes
import Binius64.WordGates
import Mathlib.Data.List.GetD

/-!
# Byte vectors on wires

A byte vector of fixed capacity: words that pack eight bytes each, lowest first, and a word that
holds how many of them count.
-/

namespace Binius64.ByteVectors

open MachineWord (Word)
open WordBytes WordGates List

/-- A byte vector whose length is a wire. -/
structure ByteVec where
  lenBytes : Word
  data : List Word
  room : data.length < 2 ^ 58

/-- Integer division, rounded up. -/
def divCeil (a b : ℕ) : ℕ := (a + b - 1) / b

variable (data : List Word)

def messageBytes (len : ℕ) : List Byte :=
  (range len).map fun p => byteAt (data.getD (p / 8) 0) (p % 8)

@[simp] theorem length_messageBytes (len : ℕ) : (messageBytes data len).length = len := by
  rw [messageBytes,length_map,length_range]

theorem messageBytes_getD {len p : ℕ} (h : p < len) :
    (messageBytes data len).getD p 0 = byteAt (data.getD (p / 8) 0) (p % 8) := by
  rw [getD_eq_getElem?_getD,messageBytes,getElem?_map,getElem?_range h]
  rfl

/-- The word at a position, of the bytes of a message in the order of their weights. -/
def leWordAt (bytes : List Byte) (j : ℕ) : Word :=
  ofBytes 64 (fun k => bytes.getD (8 * j + k) 0) 8

theorem byteAt_leWordAt (bytes : List Byte) (j : ℕ) {k : ℕ} (h : k < 8) :
    byteAt (leWordAt bytes j) k = bytes.getD (8 * j + k) 0 := by
  rw [leWordAt,byteAt_ofBytes _ (by omega),if_pos h]

theorem getD_snoc (l : List Word) (x : Word) (j : ℕ) :
    (l ++ [x]).getD j 0 = if j < l.length then l.getD j 0 else if j = l.length then x else 0 := by
  by_cases hlt : j < l.length
  · rw [if_pos hlt,getD_append _ _ _ _ hlt]
  · rw [if_neg hlt,getD_append_right _ _ _ _ (by omega)]
    by_cases heq : j = l.length
    · rw [if_pos heq,heq,Nat.sub_self]
      rfl
    · rw [if_neg heq,getD_eq_default _ _ (by rw [length_singleton]; omega)]

theorem getD_resized {α : Type} {z : α} (l : List α) (n j : ℕ) :
    (l ++ replicate n z).getD j z = l.getD j z := by
  by_cases hlt : j < l.length
  · rw [getD_append _ _ _ _ hlt]
  · rw [getD_append_right _ _ _ _ (by omega),getD_eq_default l _ (by omega)]
    by_cases hin : j - l.length < n
    · exact getD_replicate _ hin
    · exact getD_eq_default _ _ (by rw [length_replicate]; omega)

theorem toNat_const {n : ℕ} (h : n < 2 ^ 64) : (BitVec.ofNat 64 n).toNat = n := by
  rw [BitVec.toNat_ofNat,Nat.mod_eq_of_lt h]

theorem toNat_shr (x : Word) (n : ℕ) : (shr x n).toNat = x.toNat / 2 ^ n := by
  have hshr : shr x n = x >>> n := rfl
  rw [hshr,BitVec.toNat_ushiftRight,Nat.shiftRight_eq_div_pow]

end Binius64.ByteVectors
