import Mathlib.Data.List.TakeWhile
import SysProg.Lib.Fallible

/-! # Character arrays and C strings

An array of a fixed number of bytes with whatever memory lies behind it.  A
write that leaves the array is an error; a string is read up to the first zero
byte, past the end of the array when there is none inside.  The functions of
`string.h` and `snprintf` are single writes: each stores the bytes the C
function stores.
-/

namespace SysProg.CString

abbrev Bytes := List UInt8

/-- A property of all bytes of a string is decided byte by byte. -/
instance (priority := high) {p : UInt8 → Prop} [DecidablePred p] (s : Bytes) :
    Decidable (∀ b ∈ s, p b) := List.decidableBAll p s

/-- The bytes of a string literal. -/
def ascii (s : String) : Bytes := s.toList.map Char.toUInt8

/-- A byte would be stored outside its array. -/
inductive OutOfBounds where
  | outOfBounds
  deriving DecidableEq, Repr

/-- An array of `n` bytes and the memory behind it. -/
structure CArray (n : Nat) where
  cells : Bytes
  size : n ≤ cells.length

/-- The bytes of a C string: up to the first zero. -/
def untilZero (cells : Bytes) : Bytes := cells.takeWhile (· ≠ 0)

theorem untilZero_ne_zero {cells : Bytes} {b : UInt8} (member : b ∈ untilZero cells) : b ≠ 0 := by
  simpa using List.mem_takeWhile_imp member

theorem untilZero_eq_self {s : Bytes} (nonzero : ∀ b ∈ s, b ≠ 0) : untilZero s = s :=
  List.takeWhile_eq_self_iff.mpr (by simpa using nonzero)

/-- What follows a zero does not matter. -/
theorem untilZero_append_zero (s rest : Bytes) : untilZero (s ++ 0 :: rest) = untilZero s := by
  induction s with
  | nil => simp [untilZero]
  | cons b s ih =>
      by_cases zero : b = 0
      · simp [untilZero, zero]
      · simpa [untilZero, zero] using ih

theorem untilZero_append {s : Bytes} (nonzero : ∀ b ∈ s, b ≠ 0) (rest : Bytes) :
    untilZero (s ++ rest) = s ++ untilZero rest :=
  List.takeWhile_append_of_pos (by simpa using nonzero)

theorem length_untilZero_le (cells : Bytes) : (untilZero cells).length ≤ cells.length :=
  (List.takeWhile_prefix _).length_le

/-- Padding that is not empty starts with a zero. -/
theorem zeros_of_lt {k count : Nat} (short : k < count) :
    List.replicate (count - k) (0 : UInt8) = 0 :: List.replicate (count - k - 1) 0 := by
  rw [← List.replicate_succ]
  congr 1
  omega

namespace CArray

variable {n : Nat}

/-- An array of zeros with nothing known behind it. -/
def blank (n : Nat) : CArray n := ⟨List.replicate n 0, by simp⟩

/-- The string that starts at the array. -/
def str (a : CArray n) : Bytes := untilZero a.cells

/-- The array with `bytes` at `offset`. -/
def overwrite (a : CArray n) (offset : Nat) (bytes : Bytes) (fits : offset + bytes.length ≤ n) :
    CArray n where
  cells := a.cells.take offset ++ bytes ++ a.cells.drop (offset + bytes.length)
  size := by
    have size := a.size
    simp only [List.length_append, List.length_take, List.length_drop]
    omega

/-- Store `bytes` at `offset`. -/
def write (a : CArray n) (offset : Nat) (bytes : Bytes) : Except OutOfBounds (CArray n) :=
  if fits : offset + bytes.length ≤ n then .ok (a.overwrite offset bytes fits)
  else .error .outOfBounds

/-- Store a string with its terminating zero, as `%s` and `strcpy` do. -/
def store (a : CArray n) (s : Bytes) : Except OutOfBounds (CArray n) := a.write 0 (s ++ [0])

/-- `memset(a, 0, count)` -/
def zero (a : CArray n) (count : Nat) : Except OutOfBounds (CArray n) :=
  a.write 0 (List.replicate count 0)

/-- `strncpy(a, src, count)`, which pads with zeros and need not terminate. -/
def strncpy (a : CArray n) (src : Bytes) (count : Nat) : Except OutOfBounds (CArray n) :=
  a.write 0 (src.take count ++ List.replicate (count - src.length) 0)

/-- `snprintf(a, size, ...)` of the rendered text. -/
def snprintf (a : CArray n) (size : Nat) (text : Bytes) : Except OutOfBounds (CArray n) :=
  if size = 0 then .ok a else a.store (text.take (size - 1))

/-- `strncat(a, src, count)` -/
def strncat (a : CArray n) (src : Bytes) (count : Nat) : Except OutOfBounds (CArray n) :=
  a.write a.str.length (src.take count ++ [0])

/-- A blank array holds the empty string. -/
theorem str_blank (n : Nat) : (blank n).str = [] := by
  cases n <;> simp [blank, str, untilZero, List.replicate_succ]

theorem str_ne_zero {a : CArray n} {b : UInt8} (member : b ∈ a.str) : b ≠ 0 :=
  untilZero_ne_zero member

theorem write_ok {a : CArray n} {offset : Nat} {bytes : Bytes}
    (fits : offset + bytes.length ≤ n) :
    a.write offset bytes = .ok (a.overwrite offset bytes fits) := dif_pos fits

/-- A block of nonzero bytes and a zero, stored at the start, reads back. -/
theorem str_overwrite_zero {a : CArray n} {s rest : Bytes} (nonzero : ∀ b ∈ s, b ≠ 0)
    (fits : 0 + (s ++ 0 :: rest).length ≤ n) :
    (a.overwrite 0 (s ++ 0 :: rest) fits).str = s := by
  simp only [str, overwrite, List.take_zero, List.nil_append, List.append_assoc, List.cons_append]
  rw [untilZero_append_zero, untilZero_eq_self nonzero]

theorem store_ok {a : CArray n} {s : Bytes} (nonzero : ∀ b ∈ s, b ≠ 0) (fits : s.length < n) :
    ∃ b, a.store s = .ok b ∧ b.str = s := by
  have room : 0 + (s ++ [0]).length ≤ n := by
    simp only [List.length_append, List.length_singleton]
    omega
  exact ⟨_, write_ok room, str_overwrite_zero nonzero room⟩

/-- Some array holds a string that fits. -/
theorem exists_str {s : Bytes} (nonzero : ∀ b ∈ s, b ≠ 0) (fits : s.length < n) :
    ∃ a : CArray n, a.str = s := by
  obtain ⟨a, _, str⟩ := (blank n).store_ok nonzero fits
  exact ⟨a, str⟩

theorem store_error {a : CArray n} {s : Bytes} (large : n ≤ s.length) :
    a.store s = .error .outOfBounds := by
  unfold store write
  rw [dif_neg]
  simp only [List.length_append, List.length_singleton]
  omega

theorem store_eq_ok {a b : CArray n} {s : Bytes} (done : a.store s = .ok b) : s.length < n := by
  by_cases large : n ≤ s.length
  · rw [store_error large] at done
    cases done
  · exact Nat.lt_of_not_le large

theorem zero_ok {a : CArray n} {count : Nat} (fits : count ≤ n) :
    ∃ b, a.zero count = .ok b ∧ b.cells = List.replicate count 0 ++ a.cells.drop count := by
  have room : 0 + (List.replicate count (0 : UInt8)).length ≤ n := by simpa using fits
  refine ⟨_, write_ok room, ?_⟩
  simp [overwrite]

/-- A copy shorter than its count is padded, and so terminated. -/
theorem strncpy_ok {a : CArray n} {src : Bytes} {count : Nat} (nonzero : ∀ b ∈ src, b ≠ 0)
    (short : src.length < count) (fits : count ≤ n) :
    ∃ b, a.strncpy src count = .ok b ∧ b.str = src := by
  have room : 0 + (src ++ 0 :: List.replicate (count - src.length - 1) (0 : UInt8)).length ≤ n := by
    simp only [List.length_append, List.length_cons, List.length_replicate]
    omega
  refine ⟨a.overwrite 0 _ room, ?_, str_overwrite_zero nonzero room⟩
  unfold strncpy
  rw [List.take_of_length_le (Nat.le_of_lt short), zeros_of_lt short]
  exact write_ok room

theorem strncpy_fits {a : CArray n} {src : Bytes} {count : Nat} (fits : count ≤ n) :
    ∃ b, a.strncpy src count = .ok b := by
  refine ⟨_, write_ok ?_⟩
  simp only [List.length_append, List.length_take, List.length_replicate]
  omega

/-- `snprintf` stays in an array of its size and terminates what it stores. -/
theorem snprintf_ok {a : CArray n} {text : Bytes} (nonzero : ∀ b ∈ text, b ≠ 0) (room : 0 < n) :
    ∃ b, a.snprintf n text = .ok b ∧ b.str = text.take (n - 1) := by
  unfold snprintf
  rw [if_neg (Nat.ne_of_gt room)]
  refine store_ok (fun b member => nonzero b (List.mem_of_mem_take member)) ?_
  rw [List.length_take]
  omega

/-- `strncat` with the room that is left stays in the array. -/
theorem strncat_ok {a : CArray n} {src : Bytes} (nonzero : ∀ b ∈ src, b ≠ 0)
    (terminated : a.str.length < n) :
    ∃ b, a.strncat src (n - a.str.length - 1) = .ok b ∧
      b.str = a.str ++ src.take (n - a.str.length - 1) := by
  have room : a.str.length + (src.take (n - a.str.length - 1) ++ [0]).length ≤ n := by
    simp only [List.length_append, List.length_take, List.length_cons, List.length_nil]
    omega
  refine ⟨_, write_ok room, ?_⟩
  have front : a.cells.take a.str.length = a.str :=
    (List.prefix_iff_eq_take.mp (List.takeWhile_prefix _)).symm
  simp only [str, overwrite] at front ⊢
  rw [front, ← List.append_assoc, List.append_assoc _ [0], List.singleton_append]
  rw [untilZero_append_zero]
  apply untilZero_eq_self
  intro b member
  rcases List.mem_append.mp member with before | after
  · exact untilZero_ne_zero before
  · exact nonzero b (List.mem_of_mem_take after)

/-- A text within the count is appended whole when there is room for it. -/
theorem strncat_fits {a : CArray n} {src : Bytes} {count : Nat} (nonzero : ∀ b ∈ src, b ≠ 0)
    (short : src.length ≤ count) (fits : a.str.length + src.length < n) :
    ∃ b, a.strncat src count = .ok b ∧ b.str = a.str ++ src := by
  obtain ⟨b, done, str⟩ := a.strncat_ok nonzero (by omega)
  refine ⟨b, ?_, ?_⟩
  · rw [← done, strncat, strncat, List.take_of_length_le short, List.take_of_length_le (by omega)]
  · rw [str, List.take_of_length_le (by omega)]

theorem strncat_error {a : CArray n} {src : Bytes} {count : Nat} (short : src.length ≤ count)
    (large : n ≤ a.str.length + src.length) : a.strncat src count = .error .outOfBounds := by
  rw [strncat, List.take_of_length_le short, write, dif_neg]
  simp only [List.length_append, List.length_singleton]
  omega

end CArray

/-! ## Searching -/

/-- `strchr(s, c)` as the rest of the string from the first `c`. -/
def strchr (s : Bytes) (c : UInt8) : Option Bytes :=
  match s.dropWhile (· ≠ c) with
  | [] => none
  | rest => some rest

/-- `strstr(s, needle)` as the rest of the string from the first match. -/
def strstr : Bytes → Bytes → Option Bytes
  | [], needle => if needle = [] then some [] else none
  | b :: s, needle => if needle.isPrefixOf (b :: s) then some (b :: s) else strstr s needle

/-- `strncmp(s, literal, strlen(literal)) == 0` -/
def startsWith (s literal : Bytes) : Bool := literal.isPrefixOf s

theorem startsWith_iff {s literal : Bytes} : startsWith s literal = true ↔ literal <+: s :=
  List.isPrefixOf_iff_prefix

theorem strchr_suffix {s rest : Bytes} {c : UInt8} (found : strchr s c = some rest) :
    rest <:+ s := by
  unfold strchr at found
  split at found
  · cases found
  · cases found
    exact List.dropWhile_suffix _

theorem strstr_mem {s needle rest : Bytes} {b : UInt8} (found : strstr s needle = some rest)
    (member : b ∈ rest) : b ∈ s := by
  induction s with
  | nil =>
      simp only [strstr, Option.ite_none_right_eq_some, Option.some.injEq] at found
      rw [← found.2] at member
      exact member
  | cons first s ih =>
      unfold strstr at found
      split at found
      · cases found
        exact member
      · exact List.mem_cons_of_mem _ (ih found)

/-- A needle that starts with a byte the text before it lacks is found behind
    that text. -/
theorem strstr_append {s : Bytes} {c : UInt8} (lacks : ∀ b ∈ s, b ≠ c) (needle rest : Bytes) :
    strstr (s ++ c :: needle ++ rest) (c :: needle) = some (c :: needle ++ rest) := by
  induction s with
  | nil => simp [strstr]
  | cons first s ih =>
      have differs : first ≠ c := lacks first (by simp)
      have later := ih fun b member => lacks b (List.mem_cons_of_mem _ member)
      simpa [strstr, Ne.symm differs] using later

theorem strstr_eq_none {s needle : Bytes} {c : UInt8} (member : c ∈ needle)
    (lacks : ∀ b ∈ s, b ≠ c) : strstr s needle = none := by
  have missing {s : Bytes} (lacks : ∀ b ∈ s, b ≠ c) : ¬ needle <+: s :=
    fun part => lacks c (part.subset member) rfl
  induction s with
  | nil =>
      have nonempty : needle ≠ [] := List.ne_nil_of_mem member
      simp [strstr, nonempty]
  | cons first s ih =>
      have later := ih fun b inside => lacks b (List.mem_cons_of_mem _ inside)
      simpa [strstr, List.isPrefixOf_iff_prefix, missing lacks] using later

end SysProg.CString
