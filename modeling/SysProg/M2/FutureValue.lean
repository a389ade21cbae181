import SysProg.Lib.Annuity
import SysProg.Lib.Decimal
import SysProg.Lib.Fallible

/-! # The future-value table

`calculation` of `future_value.c` fills three arrays in a loop over the months.
The definitions take any reading of double arithmetic; over a field the rows are
those of an annuity due.  An array is what its elements hold, if they have been
stored to, and a history of the stores.
-/

namespace SysProg.M2

open Fallible Annuity Decimal

/-- What the language leaves undefined. -/
inductive Undefined where
  /-- Signed overflow. -/
  | overflow
  /-- An element outside its array. -/
  | outside (index : Int)
  /-- An element that was never stored to. -/
  | indeterminate (index : Int)
  /-- A variable-length array without a positive length. -/
  | arrayLength (length : Int)
  deriving DecidableEq, Repr

def intMax : Int := 2147483647

/-- A result of `long` arithmetic. -/
def checkedLong (n : Int) : Except Undefined Int :=
  if longMin ≤ n ∧ n ≤ longMax then .ok n else .error .overflow

/-- A `long` as an `int`, of which 32 bits are kept. -/
def toInt (n : Int) : Int :=
  let kept := n % 4294967296
  if kept ≤ intMax then kept else kept - 4294967296

/-- An array of doubles and the indexes of the stores to it, in order. -/
structure Column (V : Type) where
  cells : List (Option V)
  stored : List Nat
  deriving DecidableEq

namespace Column

variable {V : Type}

/-- `double a[length]`, on a stack that is large enough. -/
def declare (length : Int) : Except Undefined (Column V) :=
  if 0 < length then .ok ⟨List.replicate length.toNat none, []⟩ else .error (.arrayLength length)

/-- `a[k] = v` -/
def store (a : Column V) (k : Int) (v : V) : Except Undefined (Column V) :=
  if 0 ≤ k ∧ k < a.cells.length then
    .ok ⟨a.cells.set k.toNat (some v), a.stored ++ [k.toNat]⟩
  else .error (.outside k)

/-- `a[k]` -/
def load (a : Column V) (k : Int) : Except Undefined V :=
  if 0 ≤ k then
    match a.cells[k.toNat]? with
    | some (some v) => .ok v
    | some none => .error (.indeterminate k)
    | none => .error (.outside k)
  else .error (.outside k)

end Column

structure Tables (V : Type) where
  arrYears : Column V
  intArray : Column V
  fv : Column V
  deriving DecidableEq

/-- The variables of the loop, without its counter. -/
structure Account (V : Type) where
  futureValue : V
  totalDeposits : V
  tables : Tables V

section

variable {V : Type} [IntCast V] [Add V] [Sub V] [Mul V] [Div V]

/-- The body of the loop for month `i`. -/
def month (moneyMonth monthlyInt : V) (i : Int) (acc : Account V) :
    Except Undefined (Account V) := do
  let futureValue := acc.futureValue + moneyMonth
  let totalDeposits := acc.totalDeposits + moneyMonth
  let monthlyInterestAmount := futureValue * monthlyInt
  let futureValue := futureValue + monthlyInterestAmount
  if i.tmod 12 = 0 then
    let yearIndex := toInt (i.tdiv 12 - 1)
    let arrYears ← acc.tables.arrYears.store yearIndex ((i.tdiv 12 : Int) : V)
    let intArray ← acc.tables.intArray.store yearIndex (futureValue - totalDeposits)
    let fv ← acc.tables.fv.store yearIndex futureValue
    return ⟨futureValue, totalDeposits, ⟨arrYears, intArray, fv⟩⟩
  else
    return ⟨futureValue, totalDeposits, acc.tables⟩

/-- The loop from month `i` on. -/
def monthsFrom (moneyMonth monthlyInt : V) (months i : Int) (acc : Account V) :
    Except Undefined (Account V) :=
  if i ≤ months then
    match month moneyMonth monthlyInt i acc with
    | .error fault => .error fault
    | .ok acc =>
        match checkedLong (i + 1) with
        | .error fault => .error fault
        | .ok _ => monthsFrom moneyMonth monthlyInt months (i + 1) acc
  else .ok acc
termination_by (months + 1 - i).toNat

def calculation (moneyMonth interest : V) (years : Int) (tables : Tables V) :
    Except Undefined (Tables V) := do
  let monthlyInt := interest / ((12 : Int) : V) / ((100 : Int) : V)
  let months ← checkedLong (years * 12)
  let acc ← monthsFrom moneyMonth monthlyInt months 1 ⟨((0 : Int) : V), ((0 : Int) : V), tables⟩
  return acc.tables

end

/-- The rows that `printResults` reads from row `i` on. -/
def rowsFrom {V : Type} (years i : Int) (tables : Tables V) :
    Except Undefined (List (V × V × V)) :=
  if i < years then do
    let year ← tables.arrYears.load i
    let interest ← tables.intArray.load i
    let value ← tables.fv.load i
    let rows ← rowsFrom years (i + 1) tables
    return (year, interest, value) :: rows
  else .ok []
termination_by (years - i).toNat

/-- The rows that `printResults` prints. -/
def printResults {V : Type} (years : Int) (tables : Tables V) :
    Except Undefined (List (V × V × V)) :=
  rowsFrom years 0 tables

/-! ## What the loop computes -/

/-- The first `y` elements of an array, stored to in order. -/
def Column.filled {V : Type} (a : Column V) (f : Nat → V) (y : Nat) : Column V :=
  ⟨(List.range y).map (fun k => some (f k)) ++ a.cells.drop y, a.stored ++ List.range y⟩

namespace Column

variable {V : Type} {a : Column V} {f : Nat → V} {y : Nat}

@[simp] theorem filled_zero : a.filled f 0 = a := by
  simp [filled]

theorem filled_length (room : y ≤ a.cells.length) :
    (a.filled f y).cells.length = a.cells.length := by
  simp [filled]
  omega

/-- The next element in order. -/
theorem store_filled (room : y < a.cells.length) :
    (a.filled f y).store y (f y) = .ok (a.filled f (y + 1)) := by
  have inside : 0 ≤ (y : Int) ∧ (y : Int) < (a.filled f y).cells.length := by
    rw [filled_length (Nat.le_of_lt room)]
    omega
  rw [store, if_pos inside, Int.toNat_natCast]
  have next : a.cells.drop y = a.cells[y] :: a.cells.drop (y + 1) :=
    List.drop_eq_getElem_cons room
  have cells : (a.filled f y).cells.set y (some (f y)) = (a.filled f (y + 1)).cells := by
    simp only [filled, next]
    rw [List.set_append_right _ _ (by simp)]
    simp only [List.length_map, List.length_range, Nat.sub_self, List.set_cons_zero,
      List.range_succ, List.map_append, List.map_cons, List.map_nil, List.append_assoc,
      List.cons_append, List.nil_append]
  have stored : (a.filled f y).stored ++ [y] = (a.filled f (y + 1)).stored := by
    simp [filled, List.range_succ]
  rw [cells, stored]

theorem filled_get {k : Nat} (below : k < y) : (a.filled f y).cells[k]? = some (some (f k)) := by
  rw [filled, List.getElem?_append_left (by simpa using below)]
  simp [below]

theorem filled_get_above {k : Nat} (above : y ≤ k) : (a.filled f y).cells[k]? = a.cells[k]? := by
  rw [filled, List.getElem?_append_right (by simpa using above)]
  simp only [List.length_map, List.length_range, List.getElem?_drop]
  congr 1
  omega

theorem load_filled {k : Nat} (below : k < y) : (a.filled f y).load k = .ok (f k) := by
  rw [load, if_pos (Int.natCast_nonneg k), Int.toNat_natCast, filled_get below]

end Column

theorem checkedLong_ok {n : Int} (low : longMin ≤ n) (high : n ≤ longMax) :
    checkedLong n = .ok n := if_pos ⟨low, high⟩

/-- Twelve months a year, for a number of years that is an `int`, are no `long` too many. -/
theorem checkedLong_small {years : Nat} (n : Nat) (fits : years ≤ intMax)
    (within : n ≤ 12 * years + 1) : checkedLong n = .ok n := by
  simp only [intMax] at fits
  apply checkedLong_ok
  · simp only [longMin]
    omega
  · simp only [longMax]
    omega

theorem toInt_of_fits {n : Int} (low : 0 ≤ n) (high : n ≤ intMax) : toInt n = n := by
  have kept : n % 4294967296 = n := by
    simp only [intMax] at high
    omega
  rw [toInt, kept, if_pos high]

section

variable {V : Type} [IntCast V] [Add V]

/-- `totalDeposits` after `n` months. -/
def deposits (moneyMonth : V) : Nat → V
  | 0 => ((0 : Int) : V)
  | n + 1 => deposits moneyMonth n + moneyMonth

theorem deposits_succ (moneyMonth : V) (n : Nat) :
    deposits moneyMonth (n + 1) = deposits moneyMonth n + moneyMonth := rfl

variable [Mul V]

/-- `Future_value` after `n` months. -/
def balance (moneyMonth monthlyInt : V) : Nat → V
  | 0 => ((0 : Int) : V)
  | n + 1 =>
      let deposited := balance moneyMonth monthlyInt n + moneyMonth
      deposited + deposited * monthlyInt

theorem balance_succ (moneyMonth monthlyInt : V) (n : Nat) :
    balance moneyMonth monthlyInt (n + 1) = balance moneyMonth monthlyInt n + moneyMonth +
      (balance moneyMonth monthlyInt n + moneyMonth) * monthlyInt := rfl

variable [Sub V]

/-- The year of row `k`. -/
def yearAt (k : Nat) : V := ((k + 1 : Int) : V)

/-- The future value of row `k`. -/
def valueAt (moneyMonth monthlyInt : V) (k : Nat) : V :=
  balance moneyMonth monthlyInt (12 * (k + 1))

/-- The accumulated interest of row `k`. -/
def interestAt (moneyMonth monthlyInt : V) (k : Nat) : V :=
  balance moneyMonth monthlyInt (12 * (k + 1)) - deposits moneyMonth (12 * (k + 1))

/-- The arrays with the rows of the first `y` years. -/
def Tables.filled (tables : Tables V) (moneyMonth monthlyInt : V) (y : Nat) : Tables V where
  arrYears := tables.arrYears.filled yearAt y
  intArray := tables.intArray.filled (interestAt moneyMonth monthlyInt) y
  fv := tables.fv.filled (valueAt moneyMonth monthlyInt) y

/-- Every array has at least `length` elements. -/
structure Tables.Room (tables : Tables V) (length : Nat) : Prop where
  arrYears : length ≤ tables.arrYears.cells.length
  intArray : length ≤ tables.intArray.cells.length
  fv : length ≤ tables.fv.cells.length

/-- The variables after `n` months. -/
def accountAfter (moneyMonth monthlyInt : V) (tables : Tables V) (n : Nat) : Account V :=
  ⟨balance moneyMonth monthlyInt n, deposits moneyMonth n,
    tables.filled moneyMonth monthlyInt (n / 12)⟩

variable (moneyMonth monthlyInt : V) {tables : Tables V}

/-- One month: a row is added at the end of a year. -/
theorem month_accountAfter {n years : Nat} (room : tables.Room years) (fits : years ≤ intMax)
    (within : n < 12 * years) :
    month moneyMonth monthlyInt (n + 1 : Int) (accountAfter moneyMonth monthlyInt tables n) =
      .ok (accountAfter moneyMonth monthlyInt tables (n + 1)) := by
  have remainder : (n + 1 : Int).tmod 12 = ((n + 1) % 12 : Nat) := by
    rw [Int.tmod_eq_emod_of_nonneg (by omega)]
    omega
  have quotient : (n + 1 : Int).tdiv 12 = ((n + 1) / 12 : Nat) := by
    rw [Int.tdiv_eq_ediv_of_nonneg (by omega)]
    omega
  unfold month
  simp only [remainder, quotient]
  by_cases yearEnd : (n + 1) % 12 = 0
  · have year : (n + 1) / 12 = n / 12 + 1 := by omega
    have months : n + 1 = 12 * (n / 12 + 1) := by omega
    have index : toInt (((n / 12 + 1 : Nat) : Int) - 1) = (n / 12 : Nat) := by
      rw [toInt_of_fits (by omega) (by omega)]
      omega
    have next : n / 12 < years := by omega
    -- the three elements of the row
    have yearRow : (((n / 12 + 1 : Nat) : Int) : V) = yearAt (n / 12) := rfl
    have interestRow : balance moneyMonth monthlyInt (n + 1) - deposits moneyMonth (n + 1) =
        interestAt moneyMonth monthlyInt (n / 12) := by
      rw [months, interestAt]
    have valueRow : balance moneyMonth monthlyInt (n + 1) =
        valueAt moneyMonth monthlyInt (n / 12) := by
      rw [months, valueAt]
    rw [if_pos (by omega), year, index, yearRow]
    simp only [accountAfter, Tables.filled, year]
    rw [← balance_succ, ← deposits_succ, interestRow, valueRow,
      Column.store_filled (Nat.lt_of_lt_of_le next room.arrYears),
      Column.store_filled (Nat.lt_of_lt_of_le next room.intArray),
      Column.store_filled (Nat.lt_of_lt_of_le next room.fv)]
    rfl
  · have year : (n + 1) / 12 = n / 12 := by omega
    rw [if_neg (by omega)]
    simp only [accountAfter, year]
    rfl

theorem monthsFrom_next {months i : Int} {acc acc' : Account V} (more : i ≤ months)
    (ran : month moneyMonth monthlyInt i acc = .ok acc')
    (counter : checkedLong (i + 1) = .ok (i + 1)) :
    monthsFrom moneyMonth monthlyInt months i acc =
      monthsFrom moneyMonth monthlyInt months (i + 1) acc' := by
  rw [monthsFrom, if_pos more, ran]
  simp only [counter]

/-- The loop from the month after the first `n` on. -/
theorem monthsFrom_accountAfter {years : Nat} (room : tables.Room years)
    (fits : years ≤ intMax) (k n : Nat) (whole : n + k = 12 * years) :
    monthsFrom moneyMonth monthlyInt (12 * years : Nat) (n + 1 : Nat)
        (accountAfter moneyMonth monthlyInt tables n) =
      .ok (accountAfter moneyMonth monthlyInt tables (12 * years)) := by
  induction k generalizing n with
  | zero =>
      rw [monthsFrom, if_neg (by omega)]
      rw [show n = 12 * years by omega]
  | succ k ih =>
      have ran := month_accountAfter moneyMonth monthlyInt room fits (n := n) (by omega)
      have counter := checkedLong_small (n + 1 + 1) fits (by omega)
      have more : ((n + 1 : Nat) : Int) ≤ (12 * years : Nat) := by omega
      rw [monthsFrom_next _ _ more ran counter]
      exact ih (n + 1) (by omega)

variable [Div V]

/-- The arrays after the loop, whatever the arithmetic of doubles is. -/
theorem calculation_filled (interest : V) {years : Nat} (room : tables.Room years)
    (fits : years ≤ intMax) :
    calculation moneyMonth interest years tables = .ok (tables.filled moneyMonth
      (interest / ((12 : Int) : V) / ((100 : Int) : V)) years) := by
  have months : checkedLong ((years : Int) * 12) = .ok ((12 * years : Nat) : Int) := by
    rw [Int.mul_comm, Int.natCast_mul]
    exact checkedLong_small (12 * years) fits (Nat.le_succ _)
  have start : ⟨((0 : Int) : V), ((0 : Int) : V), tables⟩ = accountAfter moneyMonth
      (interest / ((12 : Int) : V) / ((100 : Int) : V)) tables 0 := by
    simp [accountAfter, Tables.filled, balance, deposits]
  have loop := monthsFrom_accountAfter moneyMonth
    (interest / ((12 : Int) : V) / ((100 : Int) : V)) room fits (12 * years) 0 (Nat.zero_add _)
  rw [Nat.zero_add, Int.natCast_one] at loop
  rw [calculation]
  simp only [months, ok_bind, start, loop]
  simp [accountAfter]

end

/-! ## The rows that are printed -/

/-- The rows of the first `years` years. -/
def rows {V : Type} [IntCast V] [Add V] [Sub V] [Mul V] (moneyMonth monthlyInt : V) (years : Nat) :
    List (V × V × V) :=
  (List.range years).map fun k =>
    (yearAt k, interestAt moneyMonth monthlyInt k, valueAt moneyMonth monthlyInt k)

/-- Every element that is printed was stored before. -/
theorem printResults_filled {V : Type} [IntCast V] [Add V] [Sub V] [Mul V]
    (moneyMonth monthlyInt : V) (tables : Tables V) (years : Nat) :
    printResults years (tables.filled moneyMonth monthlyInt years) =
      .ok (rows moneyMonth monthlyInt years) := by
  have from_ : ∀ k i, i + k = years →
      rowsFrom years i (tables.filled moneyMonth monthlyInt years) =
        .ok ((rows moneyMonth monthlyInt years).drop i) := by
    intro k
    induction k with
    | zero =>
        intro i whole
        rw [rowsFrom, if_neg (by omega)]
        simp [rows, ← whole]
    | succ k ih =>
        intro i whole
        have below : i < years := by omega
        have rest := ih (i + 1) (by omega)
        have first : (rows moneyMonth monthlyInt years).drop i =
            (yearAt i, interestAt moneyMonth monthlyInt i, valueAt moneyMonth monthlyInt i) ::
              (rows moneyMonth monthlyInt years).drop (i + 1) := by
          rw [List.drop_eq_getElem_cons (by simpa [rows] using below)]
          simp [rows]
        rw [rowsFrom, if_pos (by omega), ← Int.natCast_succ, rest, first]
        simp only [Tables.filled, Column.load_filled below, ok_bind, pure_eq_ok]
  exact from_ years 0 (Nat.zero_add _)

/-! ## Exact arithmetic -/

section

variable {K : Type} [Field K]

/-- A deposit that earns interest at once is a payment of an annuity due. -/
theorem balance_eq_due (M r : K) (n : Nat) : balance M r n = due M r n := by
  induction n with
  | zero => simp [balance]
  | succ n ih =>
      rw [balance_succ, due_succ, ih]
      ring

theorem deposits_eq (M : K) (n : Nat) : deposits M n = n * M := by
  induction n with
  | zero => simp [deposits]
  | succ n ih =>
      rw [deposits_succ, ih]
      push_cast
      ring

end

/-- Of two states of an array, what the loop did in between: rows `1` to `years`
    stored once and in order, nothing else. -/
structure Column.Written {V : Type} (before after : Column V) (years : Nat) (row : Nat → V) :
    Prop where
  once : after.stored = before.stored ++ List.range years
  rows : ∀ y, 1 ≤ y → y ≤ years → after.cells[y - 1]? = some (some (row y))
  others : ∀ k, years ≤ k → after.cells[k]? = before.cells[k]?

theorem Column.filled_written {V : Type} (a : Column V) {f row : Nat → V} {years : Nat}
    (same : ∀ k < years, f k = row (k + 1)) : Written a (a.filled f years) years row where
  once := rfl
  rows y positive within := by
    rw [filled_get (by omega), same (y - 1) (by omega), Nat.sub_add_cancel positive]
  others k above := filled_get_above above

/-- The future value after `y` years of monthly payments `M` at the monthly rate `r`. -/
def annuityDue (M r : ℚ) (y : Nat) : ℚ :=
  if r = 0 then 12 * y * M else M * (1 + r) * ((1 + r) ^ (12 * y) - 1) / r

theorem due_eq_annuityDue (M r : ℚ) (y : Nat) : due M r (12 * y) = annuityDue M r y := by
  unfold annuityDue
  split
  · rename_i none
    rw [none, due_of_zero]
    push_cast
    rfl
  · rename_i rate
    rw [due_eq M rate]

/-- The table is that of an annuity due.  A number of years that is an `int` has
    no more months than a `long` counts. -/
theorem calculation_annuity (M I : ℚ) (years : Int) (tables : Tables ℚ) (positive : 1 ≤ years)
    (fits : years ≤ intMax) (room : tables.Room years.toNat) :
    ∃ result, calculation M I years tables = .ok result ∧
      Column.Written tables.arrYears result.arrYears years.toNat (fun y => (y : ℚ)) ∧
      Column.Written tables.fv result.fv years.toNat (fun y => annuityDue M (I / 1200) y) ∧
      Column.Written tables.intArray result.intArray years.toNat
        (fun y => annuityDue M (I / 1200) y - 12 * y * M) := by
  obtain ⟨n, rfl⟩ := Int.eq_ofNat_of_zero_le (Int.le_trans (by decide) positive)
  rw [Int.toNat_natCast] at room ⊢
  have rate : I / ((12 : Int) : ℚ) / ((100 : Int) : ℚ) = I / 1200 := by
    push_cast
    ring
  have ran := calculation_filled M I room fits
  rw [rate] at ran
  have value : ∀ k, valueAt M (I / 1200) k = annuityDue M (I / 1200) (k + 1) := by
    intro k
    rw [valueAt, balance_eq_due, due_eq_annuityDue]
  refine ⟨_, ran, ?_, ?_, ?_⟩
  · apply Column.filled_written
    intro k _
    simp [yearAt]
  · apply Column.filled_written
    intro k _
    exact value k
  · apply Column.filled_written
    intro k _
    rw [interestAt, deposits_eq, ← valueAt, value]
    push_cast
    ring

/-- Two years at twelve percent. -/
theorem calculation_annuity_two_years :
    ∃ result : Tables ℚ, calculation 100 12 2
        ⟨⟨[none, none], []⟩, ⟨[none, none], []⟩, ⟨[none, none, none], []⟩⟩ = .ok result ∧
      result.fv.stored = [0, 1] ∧ result.fv.cells[2]? = some none ∧
      result.arrYears.cells[1]? = some (some 2) ∧
      result.fv.cells[0]? = some (some (10100 * ((101 / 100) ^ 12 - 1))) := by
  have room : (⟨⟨[none, none], []⟩, ⟨[none, none], []⟩, ⟨[none, none, none], []⟩⟩ :
      Tables ℚ).Room (2 : Int).toNat := ⟨by decide, by decide, by decide⟩
  obtain ⟨result, ran, arrYears, fv, _⟩ :=
    calculation_annuity 100 12 2 _ (by decide) (by decide) room
  refine ⟨result, ran, fv.once, fv.others 2 (by decide),
    arrYears.rows 2 (by decide) (by decide), ?_⟩
  rw [fv.rows 1 (by decide) (by decide)]
  norm_num [annuityDue]

end SysProg.M2
