import Mathlib.Algebra.Group.Int.Defs
import Mathlib.Algebra.Group.Nat.Defs
import SysProg.Lib.CString

/-! # Conversions of `sscanf`

Each conversion takes the rest of the input string and gives what it matched
and what is left, or `none` when it matches nothing.  Spaces are those of the
C locale.  `words` lists what a chain of `%s` conversions reads.
-/

namespace SysProg.Scan

open CString

/-- `isspace` -/
def isspace (b : UInt8) : Bool := b = 32 || (9 ≤ b && b ≤ 13)

def skipSpace (s : Bytes) : Bytes := s.dropWhile isspace

/-- `%s` -/
def scanWord (s : Bytes) : Option (Bytes × Bytes) :=
  match skipSpace s with
  | [] => none
  | b :: rest =>
      some ((b :: rest).takeWhile (!isspace ·), (b :: rest).dropWhile (!isspace ·))

/-- `%<width>[...]` with the bytes the set admits. -/
def scanSet (width : Nat) (admits : UInt8 → Bool) (s : Bytes) : Option (Bytes × Bytes) :=
  match (s.take width).takeWhile admits with
  | [] => none
  | matched => some (matched, s.drop matched.length)

/-- A byte of the format that the input must repeat. -/
def scanLit (c : UInt8) : Bytes → Option Bytes
  | b :: rest => if b = c then some rest else none
  | [] => none

def isdigit (b : UInt8) : Bool := 48 ≤ b && b ≤ 57

/-- The value of decimal digits. -/
def digits (s : Bytes) : Nat := s.foldl (fun n b => 10 * n + (b.toNat - 48)) 0

/-- What `%d` stores: `strtol` clamps to 64 bits, the assignment keeps 32. -/
def storedInt (n : Int) : Int := Int.bmod (max (-2 ^ 63) (min (2 ^ 63 - 1) n)) (2 ^ 32)

/-- `%d` -/
def scanInt (s : Bytes) : Option (Int × Bytes) :=
  let (negative, body) :=
    match skipSpace s with
    | 45 :: rest => (true, rest)
    | 43 :: rest => (false, rest)
    | rest => (false, rest)
  match body.takeWhile isdigit with
  | [] => none
  | ds =>
      let n : Int := digits ds
      some (storedInt (if negative then -n else n), body.drop ds.length)

/-- What up to `k` conversions `%s` read. -/
def words : Nat → Bytes → List Bytes
  | 0, _ => []
  | k + 1, s =>
      match scanWord s with
      | none => []
      | some (w, rest) => w :: words k rest

section

variable {s w rest : Bytes}

theorem skipSpace_suffix (s : Bytes) : skipSpace s <:+ s := List.dropWhile_suffix _

theorem skipSpace_of_head {b : UInt8} (visible : isspace b = false) :
    skipSpace (b :: rest) = b :: rest := by
  simp [skipSpace, visible]

/-- A word and the rest are what the input holds behind its leading spaces. -/
theorem scanWord_eq_some (found : scanWord s = some (w, rest)) :
    skipSpace s = w ++ rest ∧ w ≠ [] ∧ ∀ b ∈ w, isspace b = false := by
  unfold scanWord at found
  split at found
  · cases found
  · rename_i b tail left
    obtain ⟨rfl, rfl⟩ := Prod.mk.inj (Option.some.inj found)
    have visible : isspace b = false := by
      have behind : s.dropWhile isspace = b :: tail := left
      have head := List.head_dropWhile_not isspace (l := s) (by simp [behind])
      simpa only [behind, List.head_cons] using head
    refine ⟨?_, ?_, ?_⟩
    · rw [List.takeWhile_append_dropWhile]
      exact left
    · simp [visible]
    · intro b' member
      simpa using List.mem_takeWhile_imp member

theorem scanWord_mem (found : scanWord s = some (w, rest)) {b : UInt8}
    (member : b ∈ w ∨ b ∈ rest) : b ∈ s := by
  apply (skipSpace_suffix s).subset
  rw [(scanWord_eq_some found).1]
  exact List.mem_append.mpr member

/-- A word that ends at a space or at the end of the input is read whole. -/
theorem scanWord_append (nonempty : w ≠ []) (visible : ∀ b ∈ w, isspace b = false)
    (ends : ∀ b ∈ rest.head?, isspace b = true) : scanWord (w ++ rest) = some (w, rest) := by
  have taken : (w ++ rest).takeWhile (!isspace ·) = w := by
    rw [List.takeWhile_append_of_pos (by simpa using visible)]
    cases rest with
    | nil => simp
    | cons b tail => simp [ends b rfl]
  have dropped : (w ++ rest).dropWhile (!isspace ·) = rest := by
    rw [List.dropWhile_append_of_pos (by simpa using visible)]
    cases rest with
    | nil => simp
    | cons b tail => simp [ends b rfl]
  cases w with
  | nil => exact absurd rfl nonempty
  | cons b w =>
      have first : skipSpace (b :: w ++ rest) = b :: (w ++ rest) :=
        skipSpace_of_head (visible b (by simp))
      unfold scanWord
      rw [first]
      simp only [List.cons_append] at taken dropped
      simp only [taken, dropped]

theorem scanWord_skip {b : UInt8} (space : isspace b = true) :
    scanWord (b :: s) = scanWord s := by
  simp [scanWord, skipSpace, space]

@[simp] theorem words_nil (k : Nat) : words k [] = [] := by
  cases k with
  | zero => rfl
  | succ k => rfl

theorem words_skip {b : UInt8} (space : isspace b = true) (k : Nat) :
    words k (b :: s) = words k s := by
  cases k with
  | zero => rfl
  | succ k => simp [words, scanWord_skip space]

theorem words_append (nonempty : w ≠ []) (visible : ∀ b ∈ w, isspace b = false)
    (ends : ∀ b ∈ rest.head?, isspace b = true) (k : Nat) :
    words (k + 1) (w ++ rest) = w :: words k rest := by
  simp [words, scanWord_append nonempty visible ends]

/-- A last word, which may be cut off altogether. -/
theorem words_last (visible : ∀ b ∈ w, isspace b = false) (k : Nat) :
    words (k + 1) w = if w = [] then [] else [w] := by
  split
  · rename_i none_
    rw [none_, words_nil]
  · rename_i nonempty
    have whole : words (k + 1) (w ++ []) = w :: words k [] :=
      words_append nonempty visible (by simp) k
    rwa [List.append_nil, words_nil] at whole

theorem scanSet_eq_some {width : Nat} {admits : UInt8 → Bool}
    (found : scanSet width admits s = some (w, rest)) : w.length ≤ width ∧ ∀ b ∈ w, b ∈ s := by
  unfold scanSet at found
  split at found
  · cases found
  · obtain ⟨rfl, _⟩ := Prod.mk.inj (Option.some.inj found)
    constructor
    · exact (List.takeWhile_prefix _).length_le.trans (List.length_take_le _ _)
    · intro b member
      exact List.mem_of_mem_take ((List.takeWhile_prefix _).subset member)

/-- A run of admitted bytes is read up to the width. -/
theorem scanSet_append {width : Nat} {admits : UInt8 → Bool} (nonempty : w ≠ [])
    (inside : ∀ b ∈ w, admits b = true) (ends : ∀ b ∈ rest.head?, admits b = false)
    (wide : 0 < width) :
    scanSet width admits (w ++ rest) = some (w.take width, w.drop width ++ rest) := by
  have stops : rest.takeWhile admits = [] := by
    cases rest with
    | nil => rfl
    | cons b rest => simp [ends b rfl]
  have matched : ((w ++ rest).take width).takeWhile admits = w.take width := by
    rw [← List.take_takeWhile, List.takeWhile_append_of_pos inside, stops, List.append_nil]
  have left : (w ++ rest).drop (w.take width).length = w.drop width ++ rest := by
    rw [List.length_take, List.drop_append_of_le_length (Nat.min_le_right _ _)]
    congr 1
    rcases Nat.le_total width w.length with le | ge
    · rw [Nat.min_eq_left le]
    · rw [Nat.min_eq_right ge, List.drop_length, List.drop_of_length_le ge]
  unfold scanSet
  rw [matched]
  cases taken : w.take width with
  | nil =>
      rcases List.take_eq_nil_iff.mp taken with zero | empty
      · omega
      · exact absurd empty nonempty
  | cons b more => rw [← left, taken]

theorem scanSet_eq_none {width : Nat} {admits : UInt8 → Bool}
    (ends : ∀ b ∈ s.head?, admits b = false) : scanSet width admits s = none := by
  unfold scanSet
  rw [← List.take_takeWhile]
  cases s with
  | nil => simp
  | cons b rest => simp [ends b rfl]

end

end SysProg.Scan
