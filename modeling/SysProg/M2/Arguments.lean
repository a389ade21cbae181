import SysProg.M2.FutureValue
import SysProg.M4.Input

/-! # The arguments of `future_value`

`main` converts three arguments and goes on with what it got.  How a numeral of
doubles is read is a parameter, as is which numerals are out of their range.
-/

namespace SysProg.M2

open CString Fallible Decimal M4

/-- What `FailPrint` prints before it exits. -/
def failPrint (type : Bytes) : Bytes :=
  ascii "Error: Invalid Input for " ++ type ++ ascii " \n" ++
  ascii "Usage: ./future_value <Monthly-Investment> <Annual-Interest-Rate> <Number-of-Years>\n" ++
  ascii "Monthly-Investment: Numeric value in range [1, 1000] " ++
  ascii "representing the amount invested each month.\n" ++
  ascii "Annual-Interest-Rate: Decimal value in range [1, 15] " ++
  ascii "representing the annual interest rate.\n" ++
  ascii "Number-of-Years: Integer value in range [1, 50] " ++
  ascii "representing the duration of the investment in years.\n"

/-- How the program ends. -/
inductive Ended (V : Type) where
  /-- `exit(EXIT_FAILURE)` after the text of `FailPrint`. -/
  | failure (text : Bytes)
  /-- `return EXIT_SUCCESS` after the rows of `printResults`. -/
  | success (rows : List (V × V × V))
  deriving DecidableEq

/-- The value `convert_to_long` returns, or the text it fails with. -/
def convertToLong (type strval : Bytes) : Except Bytes Int :=
  let ival := strtol strval
  if ival.erange = true ∨ ival.endptr ≠ [] then .error (failPrint type) else .ok ival.value

section

variable {V : Type} [IntCast V]

/-- `strtod`.  Of a text without a numeral nothing is consumed, and the value is 0. -/
def strtod (D : Doubles V) (erange : Bytes → Bool) (s : Bytes) : Converted V :=
  match D.lf s with
  | none => ⟨((0 : Int) : V), s, false⟩
  | some (value, length) => ⟨value, s.drop length, erange s⟩

/-- The value `convert_to_doubles` returns, or the text it fails with. -/
def convertToDoubles (D : Doubles V) (erange : Bytes → Bool) (type strval : Bytes) :
    Except Bytes V :=
  let ival := strtod D erange strval
  if ival.erange = true ∨ ival.endptr ≠ [] then .error (failPrint type) else .ok ival.value

variable [Add V] [Sub V] [Mul V] [Div V]

/-- What `main` does with its numbers. -/
def tabulate (month interest : V) (years : Int) : Except Undefined (Ended V) := do
  let arrYears ← Column.declare years
  let intArray ← Column.declare years
  let fv ← Column.declare years
  let tables ← calculation month interest years ⟨arrYears, intArray, fv⟩
  let rows ← printResults years tables
  return .success rows

def main (D : Doubles V) (erange : Bytes → Bool) : List Bytes → Except Undefined (Ended V)
  | _ :: month :: interest :: years :: _ =>
      match convertToDoubles D erange (ascii "Monthly-Investment") month with
      | .error text => .ok (.failure text)
      | .ok month =>
          match convertToDoubles D erange (ascii "Annual Interest Rate") interest with
          | .error text => .ok (.failure text)
          | .ok interest =>
              match convertToLong (ascii "Years") years with
              | .error text => .ok (.failure text)
              | .ok years => tabulate month interest years
  | _ => .ok (.failure (failPrint (ascii "Missing Arguments")))

end

/-! ## Which arguments are meant -/

section

variable {V : Type}

/-- A text that is one numeral of doubles, perhaps behind white space. -/
def Numeral (D : Doubles V) (s : Bytes) (value : V) : Prop := D.lf s = some (value, s.length)

/-- The arguments that the usage text describes. -/
structure Described [IntCast V] [LE V] (D : Doubles V) (month interest years : Bytes) : Prop where
  month : ∃ v, Numeral D month v ∧ ((1 : Int) : V) ≤ v ∧ v ≤ ((1000 : Int) : V)
  interest : ∃ v, Numeral D interest v ∧ ((1 : Int) : V) ≤ v ∧ v ≤ ((15 : Int) : V)
  years : ∃ n, Denotes years n ∧ 1 ≤ n ∧ n ≤ 50

/-- A text that `convert_to_doubles` does not fail on: a numeral in range, or nothing. -/
def Taken (D : Doubles V) (erange : Bytes → Bool) (s : Bytes) : Prop :=
  s = [] ∨ (∃ v, Numeral D s v) ∧ erange s = false

/-- A text that `convert_to_long` does not fail on: a number in range, or nothing. -/
def TakenLong (s : Bytes) : Prop := s = [] ∨ ∃ n, Denotes s n ∧ longMin ≤ n ∧ n ≤ longMax

theorem convertToLong_of_denotes {s type : Bytes} {n : Int} (denotes : Denotes s n)
    (low : longMin ≤ n) (high : n ≤ longMax) : convertToLong type s = .ok n := by
  have inside : (decide (n < longMin) || decide (longMax < n)) = false := by
    simp only [Bool.or_eq_false_iff, decide_eq_false_iff_not]
    omega
  have kept : max longMin (min longMax n) = n := by omega
  rw [convertToLong, strtol_of_denotes denotes, inside, kept]
  rfl

theorem convertToLong_taken {s : Bytes} (type : Bytes) (taken : TakenLong s) :
    ∃ n, convertToLong type s = .ok n := by
  rcases taken with rfl | ⟨n, denotes, low, high⟩
  · exact ⟨0, rfl⟩
  · exact ⟨n, convertToLong_of_denotes denotes low high⟩

theorem convertToLong_refused {s : Bytes} (type : Bytes) (refused : ¬ TakenLong s) :
    convertToLong type s = .error (failPrint type) := by
  apply if_pos
  by_contra accepted
  simp only [not_or, not_not, Bool.not_eq_true] at accepted
  obtain ⟨inside, whole⟩ := accepted
  apply refused
  rcases denotes_of_strtol whole with empty | ⟨n, denotes⟩
  · exact .inl empty
  · rw [strtol_of_denotes denotes] at inside
    simp only [Bool.or_eq_false_iff, decide_eq_false_iff_not] at inside
    exact .inr ⟨n, denotes, by omega, by omega⟩

variable [IntCast V] {D : Doubles V} {erange : Bytes → Bool}

theorem convertToDoubles_of_numeral {s type : Bytes} {v : V} (numeral : Numeral D s v)
    (inRange : erange s = false) : convertToDoubles D erange type s = .ok v := by
  simp [convertToDoubles, strtod, show D.lf s = some (v, s.length) from numeral, inRange]

theorem convertToDoubles_taken {s : Bytes} (type : Bytes) (taken : Taken D erange s) :
    ∃ v, convertToDoubles D erange type s = .ok v := by
  rcases taken with rfl | ⟨⟨v, numeral⟩, inRange⟩
  · cases scanned : D.lf [] with
    | none => exact ⟨((0 : Int) : V), by simp [convertToDoubles, strtod, scanned]⟩
    | some read =>
        obtain ⟨positive, within⟩ := lf_within scanned
        exact absurd (Nat.lt_of_lt_of_le positive within) (Nat.lt_irrefl 0)
  · exact ⟨v, convertToDoubles_of_numeral numeral inRange⟩

theorem convertToDoubles_refused {s : Bytes} (type : Bytes) (refused : ¬ Taken D erange s) :
    convertToDoubles D erange type s = .error (failPrint type) := by
  apply if_pos
  by_contra accepted
  simp only [not_or, not_not, Bool.not_eq_true] at accepted
  obtain ⟨inside, whole⟩ := accepted
  apply refused
  cases scanned : D.lf s with
  | none =>
      simp only [strtod, scanned] at whole
      exact .inl whole
  | some read =>
      obtain ⟨v, n⟩ := read
      simp only [strtod, scanned] at whole inside
      have within := (lf_within scanned).2
      have length : s.length ≤ n := List.drop_eq_nil_iff.mp whole
      have all : n = s.length := Nat.le_antisymm within length
      have numeral : Numeral D s v := by rw [Numeral, scanned, all]
      exact .inr ⟨⟨v, numeral⟩, inside⟩

end

/-! ## What reaches the calculation -/

section

variable {V : Type} [IntCast V] [Add V] [Sub V] [Mul V] [Div V]
variable {D : Doubles V} {erange : Bytes → Bool} {month interest years : Bytes}

/-- An argument that is refused stops `main`. -/
theorem main_refused (prog : Bytes) (more : List Bytes)
    (refused : ¬ (Taken D erange month ∧ Taken D erange interest ∧ TakenLong years)) :
    ∃ text, main D erange (prog :: month :: interest :: years :: more) = .ok (.failure text) := by
  by_cases first : Taken D erange month
  · obtain ⟨m, readMonth⟩ := convertToDoubles_taken (ascii "Monthly-Investment") first
    by_cases second : Taken D erange interest
    · obtain ⟨i, readInterest⟩ := convertToDoubles_taken (ascii "Annual Interest Rate") second
      have third : ¬ TakenLong years := fun taken => refused ⟨first, second, taken⟩
      refine ⟨failPrint (ascii "Years"), ?_⟩
      simp only [main, readMonth, readInterest, convertToLong_refused (ascii "Years") third]
    · refine ⟨failPrint (ascii "Annual Interest Rate"), ?_⟩
      simp only [main, readMonth, convertToDoubles_refused (ascii "Annual Interest Rate") second]
  · refine ⟨failPrint (ascii "Monthly-Investment"), ?_⟩
    simp only [main, convertToDoubles_refused (ascii "Monthly-Investment") first]

/-- Three arguments that are taken reach the calculation. -/
theorem main_taken (prog : Bytes) (more : List Bytes) (first : Taken D erange month)
    (second : Taken D erange interest) {y : Int}
    (third : convertToLong (ascii "Years") years = .ok y) :
    ∃ m i, main D erange (prog :: month :: interest :: years :: more) = tabulate m i y := by
  obtain ⟨m, readMonth⟩ := convertToDoubles_taken (ascii "Monthly-Investment") first
  obtain ⟨i, readInterest⟩ := convertToDoubles_taken (ascii "Annual Interest Rate") second
  exact ⟨m, i, by simp only [main, readMonth, readInterest, third]⟩

/-- Nothing is checked after the conversions. -/
theorem tabulate_not_failure (m i : V) (y : Int) (text : Bytes) :
    tabulate m i y ≠ .ok (.failure text) := by
  intro failed
  simp only [tabulate, bind_eq_ok] at failed
  obtain ⟨_, _, _, _, _, _, _, _, _, _, ended⟩ := failed
  cases ended

/-- Without a positive number of years the arrays are undefined. -/
theorem tabulate_no_years (m i : V) {y : Int} (none : y ≤ 0) :
    tabulate m i y = .error (.arrayLength y) := by
  simp [tabulate, Column.declare, Int.not_lt.mpr none]

/-- A positive number of years that is an `int` gives its rows. -/
theorem tabulate_rows (m i : V) {n : Nat} (positive : 0 < n) (fits : n ≤ intMax) :
    tabulate m i n = .ok (.success (rows m (i / ((12 : Int) : V) / ((100 : Int) : V)) n)) := by
  have declared : Column.declare (n : Int) = .ok (⟨List.replicate n none, []⟩ : Column V) := by
    simp [Column.declare, positive]
  have room : (⟨⟨List.replicate n none, []⟩, ⟨List.replicate n none, []⟩,
      ⟨List.replicate n none, []⟩⟩ : Tables V).Room n := by
    constructor <;> simp
  simp only [tabulate, declared, ok_bind, calculation_filled m i room fits,
    printResults_filled, pure_eq_ok]

variable [LE V]

/-- Arguments in range give their rows. -/
theorem main_described (prog : Bytes) (more : List Bytes) (first : Taken D erange month)
    (second : Taken D erange interest) (described : Described D month interest years) :
    ∃ n rows, Denotes years n ∧ 0 < n ∧ checkedLong (n * 12) = .ok (n * 12) ∧ n ≤ intMax ∧
      main D erange (prog :: month :: interest :: years :: more) = .ok (.success rows) := by
  obtain ⟨n, denotes, low, high⟩ := described.years
  have read : convertToLong (ascii "Years") years = .ok n :=
    convertToLong_of_denotes denotes (by simp only [longMin]; omega) (by simp only [longMax]; omega)
  have noOverflow : checkedLong (n * 12) = .ok (n * 12) :=
    checkedLong_ok (by simp only [longMin]; omega) (by simp only [longMax]; omega)
  have fits : n ≤ intMax := by
    simp only [intMax]
    omega
  obtain ⟨k, rfl⟩ := Int.eq_ofNat_of_zero_le (Int.le_trans (by decide) low)
  obtain ⟨m, i, reached⟩ := main_taken prog more first second read
  rw [reached, tabulate_rows m i (by omega) fits]
  exact ⟨k, _, denotes, low, noOverflow, fits, rfl⟩

/-- `main` stops with `FailPrint`, or its arguments are those the usage text describes,
    the arrays have a positive length, nothing overflows, and the rows are printed. -/
def ChecksArguments (D : Doubles V) (erange : Bytes → Bool)
    (prog month interest years : Bytes) (more : List Bytes) : Prop :=
  (∃ text, main D erange (prog :: month :: interest :: years :: more) = .ok (.failure text)) ∨
  Described D month interest years ∧
    ∃ n rows, Denotes years n ∧ 0 < n ∧ checkedLong (n * 12) = .ok (n * 12) ∧ n ≤ intMax ∧
      main D erange (prog :: month :: interest :: years :: more) = .ok (.success rows)

/-- Only valid arguments reach the calculation when one is refused, being neither
    empty nor a whole numeral of its type, or all are in the ranges of the usage text;
    those are never compared with, and an empty argument counts as 0. -/
theorem checksArguments_iff (D : Doubles V) (erange : Bytes → Bool)
    (prog month interest years : Bytes) (more : List Bytes) :
    ChecksArguments D erange prog month interest years more ↔
      ¬ (Taken D erange month ∧ Taken D erange interest ∧ TakenLong years) ∨
        Described D month interest years := by
  constructor
  · intro checked
    rcases checked with ⟨text, failed⟩ | ⟨described, _⟩
    · left
      intro ⟨first, second, third⟩
      obtain ⟨y, read⟩ := convertToLong_taken (ascii "Years") third
      obtain ⟨m, i, reached⟩ := main_taken prog more first second read
      rw [reached] at failed
      exact tabulate_not_failure m i y text failed
    · exact .inr described
  · intro meets
    by_cases taken : Taken D erange month ∧ Taken D erange interest ∧ TakenLong years
    · right
      have described := meets.resolve_left fun refused => refused taken
      exact ⟨described, main_described prog more taken.1 taken.2.1 described⟩
    · exact .inl (main_refused prog more taken)

end

/-- Doubles that are written with digits only. -/
def wholeNumbers : Doubles ℚ :=
  .ofNumerals (fun s => if s ≠ [] ∧ ∀ b ∈ s, Scan.isdigit b then some (Scan.digits s : ℚ) else none)
    (fun v => ascii (toString v.num))
    (by
      intro s v numeral
      split at numeral
      · rename_i all
        exact ⟨all.1, fun member => absurd (all.2 10 member) (by decide)⟩
      · cases numeral)

/-- An empty amount counts as 0 and gives a table; zero years leave the arrays
    undefined. -/
theorem unchecked_arguments :
    ((∃ rows, main wholeNumbers (fun _ => false)
        [ascii "future_value", [], ascii "5", ascii "10"] = .ok (.success rows)) ∧
      ¬ ChecksArguments wholeNumbers (fun _ => false) (ascii "future_value") [] (ascii "5")
        (ascii "10") []) ∧
    (main wholeNumbers (fun _ => false)
        [ascii "future_value", ascii "100", ascii "5", ascii "0"] = .error (.arrayLength 0) ∧
      ¬ ChecksArguments wholeNumbers (fun _ => false) (ascii "future_value") (ascii "100")
        (ascii "5") (ascii "0") []) := by
  have tenRows : main wholeNumbers (fun _ => false)
      [ascii "future_value", [], ascii "5", ascii "10"] = .ok (.success _) :=
    tabulate_rows (n := 10) 0 5 (by decide) (by decide)
  have noYears : main wholeNumbers (fun _ => false)
      [ascii "future_value", ascii "100", ascii "5", ascii "0"] = .error (.arrayLength 0) :=
    tabulate_no_years 100 5 (by decide)
  refine ⟨⟨⟨_, tenRows⟩, ?_⟩, noYears, ?_⟩
  · intro checked
    rcases checked with ⟨text, failed⟩ | ⟨described, _⟩
    · rw [tenRows] at failed
      cases failed
    · obtain ⟨v, numeral, _⟩ := described.month
      have nothing : wholeNumbers.lf [] = none := by rfl
      rw [Numeral, nothing] at numeral
      cases numeral
  · intro checked
    rcases checked with ⟨text, failed⟩ | ⟨described, _⟩
    · rw [noYears] at failed
      cases failed
    · obtain ⟨n, denotes, low, high⟩ := described.years
      have read := congrArg Converted.value (strtol_of_denotes denotes)
      have zero : (strtol (ascii "0")).value = 0 := by decide
      simp only [zero, longMin, longMax] at read
      omega

end SysProg.M2
