import Mathlib.Algebra.Ring.Nat
import Mathlib.Data.List.Basic
import SysProg.Lib.CString

/-! # Contents of a file

A write at an offset replaces what is there and fills a gap before it with
zeros.  Files are compared byte by byte.
-/

namespace SysProg.Files

open CString

/-- `pwrite(fd, data, n, off)` that writes all its bytes. -/
def pwrite (file : Bytes) (off : Nat) (data : Bytes) : Bytes :=
  if data = [] then file
  else (file ++ List.replicate (off - file.length) 0).take off ++ data ++
    file.drop (off + data.length)

/-- The byte at an offset, 0 behind the end. -/
def byteAt (file : Bytes) (x : Nat) : UInt8 := file.getD x 0

/-- A count of bytes that a function returns as an `int`. -/
def asInt (count : Nat) : Int := Int.bmod count (2 ^ 32)

variable {file file' data : Bytes} {off x : Nat}

theorem asInt_of_small {count : Nat} (small : count < 2 ^ 31) : asInt count = count :=
  Int.bmod_eq_of_le (by omega) (by omega)

theorem asInt_zero : asInt 0 = 0 := asInt_of_small (by decide)

/-- Only a multiple of the range is taken for zero. -/
theorem asInt_ne_zero {count : Nat} (positive : 0 < count) (small : count < 2 ^ 32) :
    asInt count ≠ 0 := by
  intro zero
  have divides := Int.dvd_of_bmod_eq_zero zero
  omega

-- Unfolded on a count that is not known, the remainder is counted down from the range.
attribute [irreducible] asInt

theorem ext_byteAt (length : file.length = file'.length)
    (bytes : ∀ x, byteAt file x = byteAt file' x) : file = file' := by
  refine List.ext_getElem length fun x inside inside' => ?_
  have same := bytes x
  simpa [byteAt, List.getD_eq_getElem?_getD, inside, inside'] using same

theorem length_pwrite (some_ : data ≠ []) :
    (pwrite file off data).length = max file.length (off + data.length) := by
  simp only [pwrite, some_, if_false, List.length_append, List.length_take, List.length_replicate,
    List.length_drop]
  omega

theorem byteAt_of_le (past : file.length ≤ x) : byteAt file x = 0 := by
  simp [byteAt, List.getD_eq_getElem?_getD, past]

theorem byteAt_append (file data : Bytes) (x : Nat) :
    byteAt (file ++ data) x =
      if x < file.length then byteAt file x else byteAt data (x - file.length) := by
  by_cases inside : x < file.length
  · simp [byteAt, List.getD_eq_getElem?_getD, inside, List.getElem?_append_left]
  · simp [byteAt, List.getD_eq_getElem?_getD, inside,
      List.getElem?_append_right (Nat.not_lt.mp inside)]

theorem byteAt_drop (file : Bytes) (off x : Nat) :
    byteAt (file.drop off) x = byteAt file (off + x) := by
  simp [byteAt, List.getD_eq_getElem?_getD]

theorem byteAt_take (file : Bytes) (n x : Nat) :
    byteAt (file.take n) x = if x < n then byteAt file x else 0 := by
  by_cases inside : x < n
  · simp only [byteAt, List.getD_eq_getElem?_getD, List.getElem?_take_of_lt inside, inside, if_true]
  · rw [if_neg inside, byteAt_of_le]
    exact (List.length_take_le n file).trans (Nat.not_lt.mp inside)

theorem byteAt_zeros (n x : Nat) : byteAt (List.replicate n 0) x = 0 := by
  by_cases inside : x < n <;> simp [byteAt, List.getD_eq_getElem?_getD, inside]

/-- A write changes its own range and nothing else. -/
theorem byteAt_pwrite (file : Bytes) (off : Nat) (data : Bytes) (x : Nat) :
    byteAt (pwrite file off data) x =
      if off ≤ x ∧ x < off + data.length then byteAt data (x - off) else byteAt file x := by
  by_cases none_ : data = []
  · subst none_
    simp only [pwrite, if_true, List.length_nil]
    rw [if_neg (by omega)]
  · have front : ((file ++ List.replicate (off - file.length) 0).take off).length = off := by
      simp only [List.length_take, List.length_append, List.length_replicate]
      omega
    simp only [pwrite, none_, if_false]
    rw [byteAt_append, byteAt_append, byteAt_take, byteAt_append, byteAt_drop, byteAt_zeros,
      List.length_append, front]
    by_cases before : x < off
    · have outside : ¬ (off ≤ x ∧ x < off + data.length) := by omega
      rw [if_pos (by omega), if_pos before, if_pos before, if_neg outside]
      split
      · rfl
      · rename_i past
        rw [byteAt_of_le (by omega)]
    · by_cases inside : x < off + data.length
      · rw [if_pos inside, if_neg before, if_pos ⟨by omega, inside⟩]
      · rw [if_neg inside, if_neg (by omega)]
        congr 1
        omega

@[simp] theorem pwrite_nil (file : Bytes) (off : Nat) : pwrite file off [] = file := if_pos rfl

/-- Writing over the beginning of a file leaves the rest of it. -/
theorem pwrite_zero (file data : Bytes) : pwrite file 0 data = data ++ file.drop data.length := by
  by_cases none_ : data = []
  · simp [pwrite, none_]
  · simp [pwrite, none_]

/-- A write right behind another one. -/
theorem pwrite_pwrite (file : Bytes) (off : Nat) (a b : Bytes) :
    pwrite (pwrite file off a) (off + a.length) b = pwrite file off (a ++ b) := by
  by_cases first : a = []
  · simp [first]
  by_cases second : b = []
  · simp [second]
  · refine ext_byteAt ?_ fun x => ?_
    · rw [length_pwrite second, length_pwrite first, length_pwrite (by simp [first]),
        List.length_append]
      omega
    · rw [byteAt_pwrite, byteAt_pwrite, byteAt_pwrite, byteAt_append, List.length_append]
      by_cases inside : off + a.length ≤ x ∧ x < off + a.length + b.length
      · rw [if_pos inside, if_pos (by omega), if_neg (by omega)]
        congr 1
        omega
      · rw [if_neg inside]
        by_cases before : off ≤ x ∧ x < off + a.length
        · rw [if_pos before, if_pos (by omega), if_pos (by omega)]
        · rw [if_neg before, if_neg (by omega)]

/-- A write behind the end fills the gap with zeros. -/
theorem pwrite_gap (some_ : data ≠ []) (past : file.length ≤ off) :
    pwrite file off data = file ++ List.replicate (off - file.length) 0 ++ data := by
  have front : (file ++ List.replicate (off - file.length) 0).length = off := by
    rw [List.length_append, List.length_replicate]
    omega
  rw [pwrite, if_neg some_, List.take_of_length_le (le_of_eq front),
    List.drop_of_length_le (by omega), List.append_nil]

/-- Writes to ranges apart can change places. -/
theorem pwrite_comm (file : Bytes) {a b : Bytes} {off off' : Nat} (apart : off + a.length ≤ off') :
    pwrite (pwrite file off' b) off a = pwrite (pwrite file off a) off' b := by
  by_cases first : a = []
  · simp [first]
  by_cases second : b = []
  · simp [second]
  refine ext_byteAt ?_ fun x => ?_
  · rw [length_pwrite first, length_pwrite second, length_pwrite second, length_pwrite first]
    omega
  · simp only [byteAt_pwrite]
    by_cases low : off ≤ x ∧ x < off + a.length
    · rw [if_pos low, if_neg (by omega), if_pos low]
    · simp only [if_neg low]

end SysProg.Files
