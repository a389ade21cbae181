import Mathlib.Algebra.Order.Group.Unbundled.Int
import SysProg.Lib.Scan

/-! # Decimal numerals

The text `%d` prints of a natural number, and what `%d` reads of a text: the
number that is written there, of any size, and then what is stored of it.
-/

namespace SysProg.Decimal

open CString Scan

/-- The digits of a number, without sign or leading zeros. -/
def decimal (n : Nat) : Bytes := ascii (toString n)

theorem decimal_eq_map (n : Nat) : decimal n = (Nat.toDigits 10 n).map Char.toUInt8 := by
  simp [decimal, ascii, Nat.toString_eq_repr, Nat.toList_repr]

/-! ## Printing -/

theorem toUInt8_digitChar {d : Nat} (small : d < 10) :
    (Nat.digitChar d).toUInt8.toNat = 48 + d := by
  have value : (Nat.digitChar d).toNat = 48 + d := Nat.toNat_digitChar_of_lt_ten small
  change (Nat.digitChar d).toNat % 256 = 48 + d
  omega

theorem isdigit_of_toNat {b : UInt8} {d : Nat} (small : d < 10) (value : b.toNat = 48 + d) :
    isdigit b = true := by
  simp only [isdigit, Bool.and_eq_true, decide_eq_true_eq, UInt8.le_iff_toNat_le, value]
  exact ⟨Nat.le_add_right 48 d, by change 48 + d ≤ 57; omega⟩

theorem digits_append_singleton (s : Bytes) (b : UInt8) :
    digits (s ++ [b]) = 10 * digits s + (b.toNat - 48) := by
  simp [digits]

/-- The last digit comes off the end. -/
theorem decimal_of_ge {n : Nat} (large : 10 ≤ n) :
    decimal n = decimal (n / 10) ++ [(Nat.digitChar (n % 10)).toUInt8] := by
  rw [decimal_eq_map, decimal_eq_map, Nat.toDigits_of_base_le (by decide) large]
  simp

theorem decimal_of_lt {n : Nat} (small : n < 10) :
    decimal n = [(Nat.digitChar n).toUInt8] := by
  rw [decimal_eq_map, Nat.toDigits_of_lt_base small]
  rfl

/-- Reading undoes printing. -/
theorem digits_decimal (n : Nat) : digits (decimal n) = n := by
  induction n using Nat.strongRecOn with
  | ind n ih =>
      by_cases small : n < 10
      · have value := toUInt8_digitChar small
        rw [decimal_of_lt small]
        simp only [digits, List.foldl_cons, List.foldl_nil, value]
        omega
      · have value := toUInt8_digitChar (Nat.mod_lt n (by decide : 0 < 10))
        rw [decimal_of_ge (Nat.le_of_not_lt small), digits_append_singleton, ih (n / 10) (by omega),
          value]
        omega

theorem decimal_isdigit (n : Nat) : ∀ b ∈ decimal n, isdigit b = true := by
  induction n using Nat.strongRecOn with
  | ind n ih =>
      by_cases small : n < 10
      · rw [decimal_of_lt small]
        intro b member
        obtain rfl := List.mem_singleton.mp member
        exact isdigit_of_toNat small (toUInt8_digitChar small)
      · have last : n % 10 < 10 := Nat.mod_lt n (by decide)
        rw [decimal_of_ge (Nat.le_of_not_lt small)]
        intro b member
        rcases List.mem_append.mp member with before | atEnd
        · exact ih (n / 10) (by omega) b before
        · obtain rfl := List.mem_singleton.mp atEnd
          exact isdigit_of_toNat last (toUInt8_digitChar last)

theorem decimal_ne_nil (n : Nat) : decimal n ≠ [] := by
  rw [decimal_eq_map]
  simp

theorem decimal_injective {m n : Nat} (same : decimal m = decimal n) : m = n := by
  rw [← digits_decimal m, same, digits_decimal]

theorem decimal_length_le {n k : Nat} (positive : 0 < k) (small : n < 10 ^ k) :
    (decimal n).length ≤ k := by
  rw [decimal_eq_map, List.length_map]
  exact (Nat.length_toDigits_le_iff (by decide) positive).mpr small

/-- The first `k` digits of a number, or all it has. -/
def firstDigits (k n : Nat) : Nat := n / 10 ^ ((decimal n).length - k)

theorem decimal_take {k : Nat} (positive : 0 < k) (n : Nat) :
    (decimal n).take k = decimal (firstDigits k n) := by
  induction n using Nat.strongRecOn with
  | ind n ih =>
      by_cases small : n < 10
      · have single : (decimal n).length = 1 := by simp [decimal_of_lt small]
        rw [firstDigits, single, Nat.sub_eq_zero_of_le positive, Nat.pow_zero, Nat.div_one,
          List.take_of_length_le (by omega)]
      · have split := decimal_of_ge (Nat.le_of_not_lt small)
        have longer : (decimal n).length = (decimal (n / 10)).length + 1 := by simp [split]
        by_cases fits : (decimal n).length ≤ k
        · rw [firstDigits, Nat.sub_eq_zero_of_le fits, Nat.pow_zero, Nat.div_one,
            List.take_of_length_le fits]
        · have inside : k ≤ (decimal (n / 10)).length := by omega
          have same : firstDigits k n = firstDigits k (n / 10) := by
            rw [firstDigits, firstDigits, longer, Nat.sub_add_comm inside, Nat.pow_succ',
              Nat.div_div_eq_div_mul]
          rw [same, ← ih (n / 10) (by omega), split, List.take_append_of_le_length inside]

theorem decimal_head_ne_minus (n : Nat) (s : Bytes) : decimal n ≠ 45 :: s := by
  intro same
  have digit := decimal_isdigit n 45 (by simp [same])
  exact absurd digit (by decide)

/-- The digits of an integer, behind a minus when it is negative. -/
def signedDecimal : Int → Bytes
  | .ofNat n => decimal n
  | .negSucc n => 45 :: decimal (n + 1)

theorem signedDecimal_length_le {n : Int} {k : Nat} (positive : 0 < k) (small : n.natAbs < 10 ^ k) :
    (signedDecimal n).length ≤ k + 1 := by
  cases n with
  | ofNat n => exact Nat.le_succ_of_le (decimal_length_le positive small)
  | negSucc n => exact Nat.succ_le_succ (decimal_length_le positive small)

theorem isdigit_ne_zero {b : UInt8} (digit : isdigit b = true) : b ≠ 0 := by
  rintro rfl
  cases digit

theorem signedDecimal_nonzero (n : Int) : ∀ b ∈ signedDecimal n, b ≠ 0 := by
  intro b inside
  cases n with
  | ofNat n => exact isdigit_ne_zero (decimal_isdigit n b inside)
  | negSucc n =>
      rcases List.mem_cons.mp inside with rfl | inside
      · decide
      · exact isdigit_ne_zero (decimal_isdigit _ b inside)

/-! ## Reading -/

/-- Whether a text starts with a minus, and what is behind its sign. -/
def signed : Bytes → Bool × Bytes
  | 45 :: rest => (true, rest)
  | 43 :: rest => (false, rest)
  | rest => (false, rest)

/-- The number that the digits at the start of a text make, if there are any. -/
def unsigned (s : Bytes) : Option Nat :=
  if s.takeWhile isdigit = [] then none else some (digits (s.takeWhile isdigit))

/-- The number written at the start of a text, behind spaces.  It can have any
    size. -/
def numeral (s : Bytes) : Option Int :=
  let (negative, body) := signed (skipSpace s)
  (unsigned body).map fun n : Nat => if negative then -(n : Int) else n

/-- `atoi`, which converts a text without a number to 0. -/
def atoi (s : Bytes) : Int := storedInt ((numeral s).getD 0)

/-- `%d` stores what is left of the written number. -/
theorem scanInt_value (s : Bytes) : (scanInt s).map Prod.fst = (numeral s).map storedInt := by
  unfold scanInt
  split
  rename_i negative body sign
  have parts : signed (skipSpace s) = (negative, body) := sign
  simp only [numeral, unsigned, parts]
  generalize body.takeWhile isdigit = ds
  cases ds with
  | nil => rfl
  | cons d ds => rfl

theorem storedInt_of_small {n : Int} (low : -2 ^ 31 ≤ n) (high : n < 2 ^ 31) : storedInt n = n := by
  have clamped : max (-2 ^ 63) (min (2 ^ 63 - 1) n) = n := by omega
  rw [storedInt, clamped]
  exact Int.bmod_eq_of_le (by omega) (by omega)

/-- A byte that cannot belong to a numeral. -/
def Foreign (b : UInt8) : Prop := isspace b = false ∧ isdigit b = false ∧ b ≠ 45 ∧ b ≠ 43

instance (b : UInt8) : Decidable (Foreign b) := by
  unfold Foreign
  infer_instance

theorem takeWhile_isdigit_append {s rest : Bytes}
    (ends : ∀ b ∈ rest.head?, isdigit b = false) :
    (s ++ rest).takeWhile isdigit = s.takeWhile isdigit := by
  induction s with
  | nil =>
      cases rest with
      | nil => rfl
      | cons b rest => simp [ends b rfl]
  | cons b s ih => simp [List.takeWhile_cons, ih]

theorem signed_of_unsigned {b : UInt8} {s : Bytes} (minus : b ≠ 45) (plus : b ≠ 43) :
    signed (b :: s) = (false, b :: s) := by
  simp [signed, minus, plus]

theorem signed_append {s rest : Bytes} (ends : ∀ b ∈ rest.head?, b ≠ 45 ∧ b ≠ 43) :
    signed (s ++ rest) = ((signed s).1, (signed s).2 ++ rest) := by
  cases s with
  | nil =>
      cases rest with
      | nil => rfl
      | cons b rest =>
          obtain ⟨minus, plus⟩ := ends b rfl
          exact signed_of_unsigned minus plus
  | cons b s =>
      by_cases minus : b = 45
      · subst minus
        rfl
      by_cases plus : b = 43
      · subst plus
        rfl
      · rw [List.cons_append, signed_of_unsigned minus plus, signed_of_unsigned minus plus]
        rfl

theorem skipSpace_append {s rest : Bytes} (ends : ∀ b ∈ rest.head?, isspace b = false) :
    skipSpace (s ++ rest) = skipSpace s ++ rest := by
  induction s with
  | nil =>
      cases rest with
      | nil => rfl
      | cons b rest => exact skipSpace_of_head (ends b rfl)
  | cons b s ih =>
      by_cases space : isspace b = true
      · simpa [skipSpace, space] using ih
      · have visible : isspace b = false := by simpa using space
        rw [List.cons_append, skipSpace_of_head visible, skipSpace_of_head visible]
        rfl

/-- A numeral ends before a byte that cannot belong to it. -/
theorem numeral_append {s rest : Bytes} (ends : ∀ b ∈ rest.head?, Foreign b) :
    numeral (s ++ rest) = numeral s := by
  have digitsEnd : ∀ b ∈ rest.head?, isdigit b = false := fun b first => (ends b first).2.1
  unfold numeral
  rw [skipSpace_append fun b first => (ends b first).1,
    signed_append fun b first => (ends b first).2.2]
  simp only [unsigned, takeWhile_isdigit_append digitsEnd]

theorem forall_head_cons {p : UInt8 → Prop} {b : UInt8} (holds : p b) (rest : Bytes) :
    ∀ c ∈ (b :: rest).head?, p c := by
  rintro c ⟨⟩
  exact holds

theorem unsigned_line (s : Bytes) : unsigned (s ++ [10]) = unsigned s := by
  have same : (s ++ [10]).takeWhile isdigit = s.takeWhile isdigit :=
    takeWhile_isdigit_append (forall_head_cons (by decide) [])
  rw [unsigned, same, unsigned]

/-- A number ends at the end of its line. -/
theorem numeral_line (s : Bytes) : numeral (s ++ [10]) = numeral s := by
  have skip : skipSpace (s ++ [10]) = if skipSpace s = [] then [] else skipSpace s ++ [10] := by
    unfold skipSpace
    rw [List.dropWhile_append]
    cases s.dropWhile isspace <;> simp [show isspace 10 = true by decide]
  unfold numeral
  rw [skip]
  by_cases blank : skipSpace s = []
  · simp [blank]
  · rw [if_neg blank, signed_append (forall_head_cons (by decide) [])]
    simp only [unsigned_line]

/-- A digit is neither white space nor a sign. -/
theorem visible_of_isdigit {d : UInt8} (digit : isdigit d = true) :
    isspace d = false ∧ d ≠ 45 ∧ d ≠ 43 := by
  have range : 48 ≤ d.toNat ∧ d.toNat ≤ 57 := by
    simpa [isdigit, UInt8.le_iff_toNat_le] using digit
  refine ⟨?_, ?_, ?_⟩
  · simp only [isspace, Bool.or_eq_false_iff, Bool.and_eq_false_iff, decide_eq_false_iff_not,
      UInt8.le_iff_toNat_le, ← UInt8.toNat_inj]
    change ¬ d.toNat = 32 ∧ (¬ 9 ≤ d.toNat ∨ ¬ d.toNat ≤ 13)
    omega
  · rintro rfl
    exact absurd range (by decide)
  · rintro rfl
    exact absurd range (by decide)

/-- A text of digits is the number they make. -/
theorem numeral_digits {ds : Bytes} (nonempty : ds ≠ []) (decimals : ∀ b ∈ ds, isdigit b = true) :
    numeral ds = some (digits ds : Int) := by
  have whole : ds.takeWhile isdigit = ds := List.takeWhile_eq_self_iff.mpr decimals
  obtain ⟨d, rest, rfl⟩ := List.exists_cons_of_ne_nil nonempty
  obtain ⟨visible, minus, plus⟩ := visible_of_isdigit (decimals d (by simp))
  unfold numeral
  rw [skipSpace_of_head visible, signed_of_unsigned minus plus]
  simp [unsigned, whole]

theorem skipSpace_spaces {spaces : Bytes} (s : Bytes) (blank : ∀ b ∈ spaces, isspace b = true) :
    skipSpace (spaces ++ s) = skipSpace s := by
  induction spaces with
  | nil => rfl
  | cons b spaces ih =>
      have rest := ih fun b' inside => blank b' (List.mem_cons_of_mem b inside)
      simpa [skipSpace, blank b (by simp)] using rest

/-- Digits between spaces and something else. -/
theorem numeral_spaced {spaces ds rest : Bytes} (blank : ∀ b ∈ spaces, isspace b = true)
    (nonempty : ds ≠ []) (decimals : ∀ b ∈ ds, isdigit b = true)
    (ends : ∀ b ∈ rest.head?, isdigit b = false) :
    numeral (spaces ++ ds ++ rest) = some (digits ds : Int) := by
  have whole : (ds ++ rest).takeWhile isdigit = ds := by
    rw [takeWhile_isdigit_append ends]
    exact List.takeWhile_eq_self_iff.mpr decimals
  obtain ⟨d, more, rfl⟩ := List.exists_cons_of_ne_nil nonempty
  obtain ⟨visible, minus, plus⟩ := visible_of_isdigit (decimals d (by simp))
  unfold numeral
  rw [List.append_assoc, skipSpace_spaces _ blank, List.cons_append, skipSpace_of_head visible,
    signed_of_unsigned minus plus]
  rw [List.cons_append] at whole
  simp [unsigned, whole]

theorem numeral_decimal (n : Nat) : numeral (decimal n) = some (n : Int) := by
  rw [numeral_digits (decimal_ne_nil n) (decimal_isdigit n), digits_decimal]

/-! ## Whole texts -/

/-- A text that is one number: white space, a sign or none, and digits. -/
inductive Denotes : Bytes → Int → Prop where
  | unsigned {spaces ds : Bytes} : (∀ b ∈ spaces, isspace b = true) → ds ≠ [] →
      (∀ b ∈ ds, isdigit b = true) → Denotes (spaces ++ ds) (digits ds)
  | plus {spaces ds : Bytes} : (∀ b ∈ spaces, isspace b = true) → ds ≠ [] →
      (∀ b ∈ ds, isdigit b = true) → Denotes (spaces ++ 43 :: ds) (digits ds)
  | minus {spaces ds : Bytes} : (∀ b ∈ spaces, isspace b = true) → ds ≠ [] →
      (∀ b ∈ ds, isdigit b = true) → Denotes (spaces ++ 45 :: ds) (-(digits ds : Int))

def longMax : Int := 9223372036854775807

def longMin : Int := -9223372036854775808

/-- What a conversion of the `strto` family gives: the value, what `endptr` points
    to, and whether `errno` is set to `ERANGE`. -/
structure Converted (V : Type) where
  value : V
  endptr : Bytes
  erange : Bool
  deriving DecidableEq

/-- `strtol` in base 10.  Of a text without a number nothing is consumed. -/
def strtol (s : Bytes) : Converted Int :=
  let (negative, body) := signed (skipSpace s)
  match unsigned body with
  | none => ⟨0, s, false⟩
  | some magnitude =>
      let n : Int := if negative then -magnitude else magnitude
      ⟨max longMin (min longMax n), body.dropWhile isdigit, n < longMin || longMax < n⟩

/-- Digits behind white space and a sign are consumed to the end. -/
theorem strtol_of_signed {s ds : Bytes} {negative : Bool} (nonempty : ds ≠ [])
    (decimals : ∀ b ∈ ds, isdigit b = true) (read : signed (skipSpace s) = (negative, ds)) :
    strtol s =
      let n : Int := if negative then -(digits ds : Int) else digits ds
      ⟨max longMin (min longMax n), [], n < longMin || longMax < n⟩ := by
  have whole : ds.takeWhile isdigit = ds := List.takeWhile_eq_self_iff.mpr decimals
  have nothing : ds.dropWhile isdigit = [] := List.dropWhile_eq_nil_iff.mpr decimals
  unfold strtol
  simp only [read, unsigned, whole, if_neg nonempty, nothing]

theorem strtol_of_denotes {s : Bytes} {n : Int} (denotes : Denotes s n) :
    strtol s = ⟨max longMin (min longMax n), [], n < longMin || longMax < n⟩ := by
  cases denotes with
  | @unsigned spaces ds blank nonempty decimals =>
      have read : signed (skipSpace (spaces ++ ds)) = (false, ds) := by
        obtain ⟨d, rest, rfl⟩ := List.exists_cons_of_ne_nil nonempty
        obtain ⟨visible, minus, plus⟩ := visible_of_isdigit (decimals d (by simp))
        rw [skipSpace_spaces _ blank, skipSpace_of_head visible, signed_of_unsigned minus plus]
      exact strtol_of_signed nonempty decimals read
  | @plus spaces ds blank nonempty decimals =>
      have read : signed (skipSpace (spaces ++ 43 :: ds)) = (false, ds) := by
        rw [skipSpace_spaces _ blank, skipSpace_of_head (by decide)]
        rfl
      exact strtol_of_signed nonempty decimals read
  | @minus spaces ds blank nonempty decimals =>
      have read : signed (skipSpace (spaces ++ 45 :: ds)) = (true, ds) := by
        rw [skipSpace_spaces _ blank, skipSpace_of_head (by decide)]
        rfl
      exact strtol_of_signed nonempty decimals read

theorem signed_eq {s body : Bytes} {negative : Bool} (read : signed s = (negative, body)) :
    (negative = true ∧ s = 45 :: body) ∨ (negative = false ∧ (s = 43 :: body ∨ s = body)) := by
  unfold signed at read
  split at read <;> cases read <;> simp

/-- Only a number is consumed to its end, or an empty text. -/
theorem denotes_of_strtol {s : Bytes} (whole : (strtol s).endptr = []) :
    s = [] ∨ ∃ n, Denotes s n := by
  cases read : signed (skipSpace s) with
  | mk negative body =>
      simp only [strtol, read, unsigned] at whole
      by_cases none : body.takeWhile isdigit = []
      · left
        simpa [none] using whole
      · right
        rw [if_neg none] at whole
        have decimals : ∀ b ∈ body, isdigit b = true := List.dropWhile_eq_nil_iff.mp whole
        have nonempty : body ≠ [] := fun empty => none (by rw [empty]; rfl)
        have split : s = s.takeWhile isspace ++ skipSpace s := List.takeWhile_append_dropWhile.symm
        have blank : ∀ b ∈ s.takeWhile isspace, isspace b = true :=
          fun b inside => List.mem_takeWhile_imp inside
        rw [split]
        rcases signed_eq read with ⟨_, behind⟩ | ⟨_, behind | behind⟩
        · rw [behind]
          exact ⟨_, .minus blank nonempty decimals⟩
        · rw [behind]
          exact ⟨_, .plus blank nonempty decimals⟩
        · rw [behind]
          exact ⟨_, .unsigned blank nonempty decimals⟩

end SysProg.Decimal
