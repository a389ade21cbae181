import SysProg.Lib.Fallible
import SysProg.Lib.Heap
import SysProg.Lib.Lines
import SysProg.Lib.Scan

/-! # Asking for a number

`input_double` reads lines from the standard input until `validate_double`
accepts one.  What the C library does with doubles is a parameter: how `%lf`
reads a numeral, how `%.2f` prints a number, and how numbers compare.
-/

namespace SysProg.M4

open CString Fallible Heap Lines Scan

/-- The conversions of doubles. -/
structure Doubles (V : Type) where
  /-- The numeral at the start of a text: its value and its length. -/
  scan : Bytes → Option (V × Nat)
  /-- `%.2f` -/
  fixed : V → Bytes
  inside : ∀ {s v n}, scan s = some (v, n) → 0 < n ∧ n ≤ s.length
  /-- A newline belongs to no numeral. -/
  newline : ∀ s, scan (s ++ [10]) = scan s

/-- The longest prefix that is a numeral, of numerals that contain no newline. -/
def Doubles.ofNumerals {V : Type} (value : Bytes → Option V) (fixed : V → Bytes)
    (visible : ∀ s v, value s = some v → s ≠ [] ∧ 10 ∉ s) : Doubles V where
  scan s := ((List.range (s.length + 1)).filterMap fun n =>
    (value (s.take n)).map fun v => (v, n)).getLast?
  fixed := fixed
  inside := by
    intro s v n found
    obtain ⟨k, member, numeral⟩ := List.mem_filterMap.mp (List.mem_of_getLast? found)
    obtain ⟨_, read, same⟩ := Option.map_eq_some_iff.mp numeral
    cases same
    have some_ := List.length_pos_iff.mpr (visible _ _ read).1
    rw [List.length_take] at some_
    have below : n < s.length + 1 := List.mem_range.mp member
    omega
  newline := by
    intro s
    have whole : (s ++ [10]).take (s.length + 1) = s ++ [10] := List.take_of_length_le (by simp)
    have none_ : value (s ++ [10]) = none := by
      cases read : value (s ++ [10]) with
      | none => rfl
      | some v => exact absurd (by simp) (visible _ _ read).2
    rw [List.length_append, List.length_singleton, List.range_succ, List.filterMap_append]
    simp only [List.filterMap_cons, List.filterMap_nil, whole, none_, Option.map_none,
      List.append_nil]
    congr 1
    apply List.filterMap_congr
    intro n member
    rw [List.take_append_of_le_length (Nat.le_of_lt_succ (List.mem_range.mp member))]

/-- What `validate_double` returns and stores. -/
inductive Entry (V : Type) where
  | accepted (number : V)
  | rejected (errMsg : Bytes)

/-- What `input_double` returns, `*number` after it, what is left of the standard
    input and what was printed. -/
structure Prompted (V : Type) where
  code : Int
  number : V
  stdin : Bytes
  stdout : Bytes

/-- A length as an `int`, of which 32 bits are kept. -/
def toInt (length : Nat) : Int :=
  let kept : Nat := length % 2 ^ 32
  if kept < 2 ^ 31 then kept else kept - (2 ^ 32 : Nat)

/-- `(int)strlen(input) - 1` -/
def lengthButNewline (input : Bytes) : Except Undefined Int :=
  if toInt input.length = -2 ^ 31 then .error .overflow
  else .ok (toInt input.length - 1)

/-- `snprintf(err_msg, 100, ...)` of the rendered text. -/
def errMsg (text : Bytes) : Bytes := text.take (100 - 1)

variable {V : Type}

/-- `%lf%n`: the value, and how many bytes were consumed. -/
def Doubles.lf (D : Doubles V) (input : Bytes) : Option (V × Nat) :=
  match D.scan (skipSpace input) with
  | none => none
  | some (value, length) => some (value, input.length - (skipSpace input).length + length)

section

variable [LE V] [DecidableLE V]

def validateDouble (D : Doubles V) (input : Bytes) (low high : V) :
    Except Undefined (Entry V) :=
  match D.lf input with
  | some (value, scannedChars) => do
      if toInt scannedChars = (← lengthButNewline input) then
        if low ≤ value ∧ value ≤ high then
          return .accepted value
        else
          return .rejected (errMsg (ascii "Entry must be greater than " ++ D.fixed low ++
            ascii " and less than or equal to " ++ D.fixed high ++ ascii ". Please try again."))
      else
        return .rejected (errMsg
          (ascii "Entry must be a single numeric value. Please try again."))
  | none => return .rejected (errMsg (ascii "Entry must be numeric. Please try again."))

def inputDouble (D : Doubles V) (prompt : Bytes) (low high number : V) (stdin stdout : Bytes) :
    Except Undefined (Prompted V) :=
  match _ : getline stdin with
  | none => .ok
      { code := -1
        number := number
        stdin := stdin
        stdout := stdout ++ prompt ++ ascii " Error reading input from stdin.\n" }
  | some (input, rest) =>
      match validateDouble D (untilZero input) low high with
      | .error fault => .error fault
      | .ok (.rejected message) =>
          inputDouble D prompt low high number rest
            (stdout ++ prompt ++ ascii " " ++ message ++ ascii "\n")
      | .ok (.accepted value) => .ok
          { code := 0
            number := value
            stdin := rest
            stdout := stdout ++ prompt ++ ascii " " }
termination_by stdin.length
decreasing_by exact getline_shorter ‹_›

end

/-! ## What a line should mean -/

section

variable [LE V]

/-- Without its newline the line is one numeral, perhaps behind white space, whose
    value is in range. -/
def Qualifies (D : Doubles V) (low high : V) (line : Bytes) (value : V) : Prop :=
  D.lf (content line) = some (value, (content line).length) ∧ low ≤ value ∧ value ≤ high

/-- `line` is in front of `after`, and no line before it qualifies. -/
def Reached (D : Doubles V) (low high : V) (lines : List Bytes) (line : Bytes)
    (after : List Bytes) : Prop :=
  ∃ before, lines = before ++ line :: after ∧ ∀ other ∈ before, ∀ v, ¬ Qualifies D low high other v

/-- The first line that qualifies is returned, and nothing behind it is read; without
    such a line the number stays. -/
def FirstReturned (D : Doubles V) (low high number : V) (stdin : Bytes)
    (result : Except Undefined (Prompted V)) : Prop :=
  ∃ out, result = .ok out ∧
    ((∃ line after, Reached D low high (lines stdin) line after ∧
        Qualifies D low high line out.number ∧ out.code = 0 ∧ out.stdin = after.flatten) ∨
      ((∀ line ∈ lines stdin, ∀ v, ¬ Qualifies D low high line v) ∧
        out.code = -1 ∧ out.number = number))

/-- The comparison of the scanned length with `strlen` misleads.  The subtraction
    overflows; or a number in range is followed by further bytes, as many as a
    multiple of 2^32, and a newline; or there is no newline, and the number fills the
    line or leaves one byte of it, or as many more as a multiple of 2^32. -/
def Slips (D : Doubles V) (low high : V) (line : Bytes) : Prop :=
  ∃ v n, D.lf line = some (v, n) ∧
    (line.length % 2 ^ 32 = 2 ^ 31 ∨
      (low ≤ v ∧ v ≤ high ∧
        if Terminated line then n + 1 ≠ line.length ∧ (n + 1) % 2 ^ 32 = line.length % 2 ^ 32
        else n = line.length ∨ (n + 1) % 2 ^ 32 = line.length % 2 ^ 32))

end

/-! ## Scanning and counting -/

section

variable {D : Doubles V} {input line : Bytes} {v w : V} {n : Nat}

theorem lf_within (scanned : D.lf input = some (v, n)) : 0 < n ∧ n ≤ input.length := by
  unfold Doubles.lf at scanned
  split at scanned
  · cases scanned
  · rename_i value length found
    cases scanned
    have bounds := D.inside found
    have shorter := (skipSpace_suffix input).length_le
    omega

/-- The newline is not part of what is scanned. -/
theorem lf_newline (D : Doubles V) (input : Bytes) : D.lf (input ++ [10]) = D.lf input := by
  have nothing : D.scan [] = none := by
    cases found : D.scan [] with
    | none => rfl
    | some _ =>
        obtain ⟨positive, within⟩ := D.inside found
        exact absurd (Nat.lt_of_lt_of_le positive within) (Nat.lt_irrefl 0)
  by_cases blank : skipSpace input = []
  · have skipped : skipSpace (input ++ [10]) = [] := by
      rw [skipSpace, List.dropWhile_append]
      simp [show input.dropWhile isspace = [] from blank, isspace]
    unfold Doubles.lf
    rw [blank, skipped, nothing]
  · have skipped : skipSpace (input ++ [10]) = skipSpace input ++ [10] := by
      rw [skipSpace, List.dropWhile_append]
      simp [show input.dropWhile isspace ≠ [] from blank, skipSpace]
    unfold Doubles.lf
    rw [skipped, D.newline]
    simp only [List.length_append, List.length_singleton, Nat.add_sub_add_right]

theorem lf_content (D : Doubles V) (line : Bytes) : D.lf (content line) = D.lf line := by
  by_cases ends : Terminated line
  · rw [← lf_newline, content_append ends]
  · rw [content_eq_self ends]

/-- The test of `validate_double`, where the subtraction does not overflow, compares
    modulo 2^32. -/
theorem toInt_eq_iff {length : Nat} (small : length % 2 ^ 32 ≠ 2 ^ 31) :
    toInt n = toInt length - 1 ↔ (n + 1) % 2 ^ 32 = length % 2 ^ 32 := by
  simp only [toInt]
  split <;> split <;> omega

theorem lengthButNewline_ok (small : input.length % 2 ^ 32 ≠ 2 ^ 31) :
    lengthButNewline input = .ok (toInt input.length - 1) := by
  apply if_neg
  simp only [toInt]
  split <;> omega

theorem lengthButNewline_error (large : input.length % 2 ^ 32 = 2 ^ 31) :
    lengthButNewline input = .error .overflow := by
  apply if_pos
  simp only [toInt]
  split <;> omega

end

/-! ## One line -/

section

variable [LE V] {D : Doubles V} {line : Bytes} {low high v : V}

/-- A line that qualifies is scanned to the end of its content. -/
theorem Qualifies.scanned (qualifies : Qualifies D low high line v) :
    D.lf line = some (v, (content line).length) := by
  rw [← lf_content]
  exact qualifies.1

theorem Qualifies.length_pos (qualifies : Qualifies D low high line v) : 0 < line.length :=
  Nat.lt_of_lt_of_le (lf_within qualifies.scanned).1 (lf_within qualifies.scanned).2

/-- In a line below 2^31 bytes only a missing newline misleads. -/
theorem slips_iff_of_short (short : line.length < 2 ^ 31) :
    Slips D low high line ↔ ¬ Terminated line ∧
      ∃ v n, D.lf line = some (v, n) ∧ low ≤ v ∧ v ≤ high ∧ line.length ≤ n + 1 := by
  constructor
  · rintro ⟨v, n, scanned, large | ⟨above, below, misleads⟩⟩
    · omega
    · have within := (lf_within scanned).2
      split at misleads
      · omega
      · rename_i cut
        exact ⟨cut, v, n, scanned, above, below, by omega⟩
  · rintro ⟨cut, v, n, scanned, above, below, all⟩
    have within := (lf_within scanned).2
    refine ⟨v, n, scanned, .inr ⟨above, below, ?_⟩⟩
    rw [if_neg cut]
    omega

end

section

variable [LE V] [DecidableLE V] {D : Doubles V} {input line : Bytes} {low high v w : V} {n : Nat}

theorem validateDouble_unscanned (nothing : D.lf input = none) :
    ∃ message, validateDouble D input low high = .ok (.rejected message) := by
  unfold validateDouble
  rw [nothing]
  exact ⟨_, rfl⟩

theorem validateDouble_overflow (scanned : D.lf input = some (v, n))
    (large : input.length % 2 ^ 32 = 2 ^ 31) :
    validateDouble D input low high = .error .overflow := by
  unfold validateDouble
  rw [scanned, lengthButNewline_error large]
  rfl

/-- What was scanned is accepted, or a message says why it is not. -/
theorem validateDouble_scanned (low high : V) (scanned : D.lf input = some (v, n))
    (small : input.length % 2 ^ 32 ≠ 2 ^ 31) :
    (validateDouble D input low high = .ok (.accepted v) ∧
        (n + 1) % 2 ^ 32 = input.length % 2 ^ 32 ∧ low ≤ v ∧ v ≤ high) ∨
      ((∃ message, validateDouble D input low high = .ok (.rejected message)) ∧
        ¬ ((n + 1) % 2 ^ 32 = input.length % 2 ^ 32 ∧ low ≤ v ∧ v ≤ high)) := by
  unfold validateDouble
  rw [scanned, lengthButNewline_ok small]
  simp only [ok_bind, toInt_eq_iff small]
  split
  · rename_i counted
    split
    · rename_i range
      exact .inl ⟨rfl, counted, range⟩
    · rename_i outside
      exact .inr ⟨⟨_, rfl⟩, fun both => outside both.2⟩
  · rename_i miscounted
    exact .inr ⟨⟨_, rfl⟩, fun both => miscounted both.1⟩

/-- Where the length does not mislead, `validate_double` accepts what qualifies. -/
theorem validateDouble_of_not_slips (steady : ¬ Slips D low high line) :
    (∃ v, validateDouble D line low high = .ok (.accepted v) ∧ Qualifies D low high line v) ∨
      ((∃ message, validateDouble D line low high = .ok (.rejected message)) ∧
        ∀ v, ¬ Qualifies D low high line v) := by
  cases scanned : D.lf line with
  | none =>
      refine .inr ⟨validateDouble_unscanned scanned, fun v qualifies => ?_⟩
      have found := qualifies.scanned
      rw [scanned] at found
      cases found
  | some read =>
      obtain ⟨v, n⟩ := read
      have small : line.length % 2 ^ 32 ≠ 2 ^ 31 := fun large =>
        steady ⟨v, n, scanned, .inl large⟩
      have within : n ≤ (content line).length := by
        rw [← lf_content] at scanned
        exact (lf_within scanned).2
      rcases validateDouble_scanned low high scanned small with
        ⟨accepts, counted, range⟩ | ⟨rejects, differs⟩
      · refine .inl ⟨v, accepts, ?_, range⟩
        have whole : n = (content line).length := by
          by_contra part
          refine steady ⟨v, n, scanned, .inr ⟨range.1, range.2, ?_⟩⟩
          split
          · rename_i ends
            have length := length_content ends
            exact ⟨by omega, counted⟩
          · exact .inr counted
        rw [lf_content, scanned, whole]
      · refine .inr ⟨rejects, fun w qualifies => ?_⟩
        have found := qualifies.scanned
        rw [scanned] at found
        obtain ⟨rfl, rfl⟩ := Prod.mk.inj (Option.some.inj found)
        by_cases ends : Terminated line
        · have length := length_content ends
          exact differs ⟨by rw [length], qualifies.2⟩
        · refine steady ⟨v, _, scanned, .inr ⟨qualifies.2.1, qualifies.2.2, ?_⟩⟩
          rw [if_neg ends, content_eq_self ends]
          exact .inl rfl

/-- Where it misleads, `validate_double` fails or decides the wrong way. -/
theorem validateDouble_of_slips (slips : Slips D low high line) :
    validateDouble D line low high = .error .overflow ∨
      (∃ v, validateDouble D line low high = .ok (.accepted v) ∧
        ∀ w, ¬ Qualifies D low high line w) ∨
      ∃ message v, validateDouble D line low high = .ok (.rejected message) ∧
        Qualifies D low high line v := by
  obtain ⟨v, n, scanned, slips⟩ := slips
  by_cases large : line.length % 2 ^ 32 = 2 ^ 31
  · exact .inl (validateDouble_overflow scanned large)
  · obtain ⟨above, below, misleads⟩ := slips.resolve_left large
    have only : ∀ w, Qualifies D low high line w → n = (content line).length := by
      intro w qualifies
      have found := qualifies.scanned
      rw [scanned] at found
      exact (Prod.mk.inj (Option.some.inj found)).2
    right
    rcases validateDouble_scanned low high scanned large with
      ⟨accepts, counted, _⟩ | ⟨⟨message, rejects⟩, differs⟩
    · refine .inl ⟨v, accepts, fun w qualifies => ?_⟩
      have whole := only w qualifies
      split at misleads
      · rename_i ends
        have length := length_content ends
        exact misleads.1 (by omega)
      · rename_i cut
        rw [content_eq_self cut] at whole
        omega
    · split at misleads
      · exact absurd ⟨misleads.2, above, below⟩ differs
      · rename_i cut
        rcases misleads with whole | counted
        · refine .inr ⟨message, v, rejects, ?_, above, below⟩
          rw [lf_content, scanned, content_eq_self cut, whole]
        · exact absurd ⟨counted, above, below⟩ differs

end

/-! ## The loop -/

section

variable [LE V] {D : Doubles V} {low high number : V} {first line stdin rest : Bytes}
  {others after : List Bytes}

theorem reached_cons :
    Reached D low high (first :: others) line after ↔
      (line = first ∧ after = others) ∨
        ((∀ v, ¬ Qualifies D low high first v) ∧ Reached D low high others line after) := by
  constructor
  · rintro ⟨before, split, none_⟩
    cases before with
    | nil =>
        cases split
        exact .inl ⟨rfl, rfl⟩
    | cons other before =>
        cases split
        exact .inr ⟨none_ _ List.mem_cons_self,
          before, rfl, fun other member => none_ other (List.mem_cons_of_mem _ member)⟩
  · rintro (⟨rfl, rfl⟩ | ⟨skipped, before, rfl, none_⟩)
    · exact ⟨[], rfl, nofun⟩
    · refine ⟨first :: before, rfl, fun other member => ?_⟩
      rcases List.mem_cons.mp member with rfl | later
      · exact skipped
      · exact none_ other later

theorem reached_read (read : getline stdin = some (first, rest)) :
    Reached D low high (lines stdin) line after ↔
      (line = first ∧ after = lines rest) ∨
        ((∀ v, ¬ Qualifies D low high first v) ∧ Reached D low high (lines rest) line after) := by
  rw [lines_read read]
  exact reached_cons

/-- What is behind a line that was reached is shorter than the stream. -/
theorem Reached.length_lt {stream : Bytes} (reached : Reached D low high (lines stream) line after)
    (some_ : 0 < line.length) : after.flatten.length < stream.length := by
  obtain ⟨before, split, _⟩ := reached
  have whole := congrArg List.length (flatten_lines stream)
  rw [split] at whole
  simp only [List.flatten_append, List.flatten_cons, List.length_append] at whole
  omega

/-- Behind a line that qualifies no line is reached. -/
theorem steady_take (read : getline stdin = some (first, rest)) {v : V}
    (qualifies : Qualifies D low high first v) (steady : ¬ Slips D low high first) :
    ∀ line after, Reached D low high (lines stdin) line after → ¬ Slips D low high line := by
  intro line after reached
  rcases (reached_read read).mp reached with ⟨rfl, _⟩ | ⟨skipped, _⟩
  · exact steady
  · exact absurd qualifies (skipped v)

/-- Behind one that does not, the lines are reached that are reached without it. -/
theorem steady_skip (read : getline stdin = some (first, rest))
    (skipped : ∀ v, ¬ Qualifies D low high first v) (steady : ¬ Slips D low high first) :
    (∀ line after, Reached D low high (lines stdin) line after → ¬ Slips D low high line) ↔
      ∀ line after, Reached D low high (lines rest) line after → ¬ Slips D low high line := by
  constructor
  · intro all line after later
    exact all line after ((reached_read read).mpr (.inr ⟨skipped, later⟩))
  · intro all line after reached
    rcases (reached_read read).mp reached with ⟨rfl, _⟩ | ⟨_, later⟩
    · exact steady
    · exact all line after later

/-- A line that does not qualify may as well be missing. -/
theorem firstReturned_skip (read : getline stdin = some (line, rest))
    (skipped : ∀ v, ¬ Qualifies D low high line v) {result : Except Undefined (Prompted V)} :
    FirstReturned D low high number stdin result ↔ FirstReturned D low high number rest result := by
  have split := lines_read read
  constructor
  · rintro ⟨out, rfl, ⟨other, after, here, qualifies, code, left⟩ | ⟨none_, code, same⟩⟩
    · rcases (reached_read read).mp here with ⟨rfl, _⟩ | ⟨_, later⟩
      · exact absurd qualifies (skipped _)
      · exact ⟨out, rfl, .inl ⟨other, after, later, qualifies, code, left⟩⟩
    · rw [split] at none_
      exact ⟨out, rfl, .inr ⟨fun other member => none_ other (List.mem_cons_of_mem _ member),
        code, same⟩⟩
  · rintro ⟨out, rfl, ⟨other, after, later, qualifies, code, left⟩ | ⟨none_, code, same⟩⟩
    · have here := (reached_read read).mpr (.inr ⟨skipped, later⟩)
      exact ⟨out, rfl, .inl ⟨other, after, here, qualifies, code, left⟩⟩
    · refine ⟨out, rfl, .inr ⟨fun other member => ?_, code, same⟩⟩
      rw [split] at member
      rcases List.mem_cons.mp member with rfl | later
      · exact skipped
      · exact none_ other later

end

section

variable [LE V] [DecidableLE V] {D : Doubles V} {prompt stdin stdout line rest : Bytes}
  {low high number v : V} {out : Prompted V}

theorem inputDouble_eof (eof : getline stdin = none) :
    inputDouble D prompt low high number stdin stdout = .ok
      { code := -1
        number := number
        stdin := stdin
        stdout := stdout ++ prompt ++ ascii " Error reading input from stdin.\n" } := by
  unfold inputDouble
  split
  · rfl
  · rename_i read
    rw [eof] at read
    cases read

theorem inputDouble_read (read : getline stdin = some (line, rest)) :
    inputDouble D prompt low high number stdin stdout =
      match validateDouble D (untilZero line) low high with
      | .error fault => .error fault
      | .ok (.rejected message) =>
          inputDouble D prompt low high number rest
            (stdout ++ prompt ++ ascii " " ++ message ++ ascii "\n")
      | .ok (.accepted value) => .ok
          { code := 0
            number := value
            stdin := rest
            stdout := stdout ++ prompt ++ ascii " " } := by
  rw [inputDouble.eq_def]
  split
  · rename_i eof
    rw [read] at eof
    cases eof
  · rename_i read'
    rw [read] at read'
    cases read'
    rfl

/-- A number costs at least one line. -/
theorem inputDouble_shorter (done : inputDouble D prompt low high number stdin stdout = .ok out)
    (found : out.code = 0) : out.stdin.length < stdin.length := by
  induction stdin using lines.induct generalizing stdout with
  | case1 stdin eof =>
      rw [inputDouble_eof eof] at done
      cases done
      cases found
  | case2 stdin line rest read ih =>
      have shorter := getline_shorter read
      rw [inputDouble_read read] at done
      split at done
      · cases done
      · exact Nat.lt_trans (ih done) shorter
      · cases done
        exact shorter

/-- A line whose length misleads spoils the result. -/
theorem not_firstReturned_of_slips (read : getline stdin = some (line, rest))
    (nonzero : untilZero line = line) (slips : Slips D low high line) :
    ¬ FirstReturned D low high number stdin
      (inputDouble D prompt low high number stdin stdout) := by
  rintro ⟨out, done, returned⟩
  have ran := done
  rw [inputDouble_read read, nonzero] at ran
  rcases validateDouble_of_slips slips with fails | ⟨v, accepts, none_⟩ | ⟨m, v, rejects, qualifies⟩
  · rw [fails] at ran
    cases ran
  · -- accepted, but the first line that qualifies is further on or missing
    rw [accepts] at ran
    cases ran
    rcases returned with ⟨other, after, reached, qualifies, _, left⟩ | ⟨_, code, _⟩
    · rcases (reached_read read).mp reached with ⟨rfl, _⟩ | ⟨_, later⟩
      · exact none_ _ qualifies
      · have shorter := later.length_lt qualifies.length_pos
        rw [← left] at shorter
        exact Nat.lt_irrefl _ shorter
    · cases code
  · -- rejected, and what is returned is further on
    rw [rejects] at ran
    rcases returned with ⟨other, after, reached, _, code, left⟩ | ⟨none_, _⟩
    · rcases (reached_read read).mp reached with ⟨rfl, rfl⟩ | ⟨skipped, _⟩
      · have shorter := inputDouble_shorter ran code
        rw [left, flatten_lines] at shorter
        exact Nat.lt_irrefl _ shorter
      · exact skipped v qualifies
    · exact none_ line (by rw [lines_read read]; exact List.mem_cons_self) v qualifies

/-- `input_double` returns the first number in range that stands alone on its line,
    and reads no further, exactly when the length misleads at no line up to it. -/
theorem inputDouble_first_iff (nonzero : ∀ b ∈ stdin, b ≠ 0) :
    FirstReturned D low high number stdin (inputDouble D prompt low high number stdin stdout) ↔
      ∀ line after, Reached D low high (lines stdin) line after → ¬ Slips D low high line := by
  induction stdin using lines.induct generalizing stdout with
  | case1 stdin eof =>
      rw [inputDouble_eof eof, lines_eof eof]
      constructor
      · rintro _ line after ⟨before, split, _⟩
        cases before <;> cases split
      · intro _
        refine ⟨_, rfl, .inr ⟨?_, rfl, rfl⟩⟩
        rw [lines_eof eof]
        intro line member
        exact absurd member List.not_mem_nil
  | case2 stdin line rest read ih =>
      have parts := (getline_eq_some read).1
      have string : untilZero line = line := by
        apply untilZero_eq_self
        intro b member
        exact nonzero b (by rw [parts]; exact List.mem_append_left _ member)
      have later : ∀ b ∈ rest, b ≠ 0 := fun b member =>
        nonzero b (by rw [parts]; exact List.mem_append_right _ member)
      have here : Reached D low high (lines stdin) line (lines rest) :=
        (reached_read read).mpr (.inl ⟨rfl, rfl⟩)
      by_cases slips : Slips D low high line
      · constructor
        · intro returned
          exact absurd returned (not_firstReturned_of_slips read string slips)
        · intro steady
          exact absurd slips (steady line _ here)
      · rcases validateDouble_of_not_slips slips with
          ⟨v, accepts, qualifies⟩ | ⟨⟨message, rejects⟩, skipped⟩
        · constructor
          · intro _
            exact steady_take read qualifies slips
          · intro _
            rw [inputDouble_read read, string, accepts]
            exact ⟨_, rfl, .inl ⟨line, lines rest, here, qualifies, rfl, (flatten_lines rest).symm⟩⟩
        · rw [firstReturned_skip read skipped, steady_skip read skipped slips,
            inputDouble_read read, string, rejects]
          exact ih later

end

/-! ## A line without newline -/

/-- Numerals that are digits only. -/
def digitsOnly : Doubles Nat :=
  .ofNumerals (fun s => if s ≠ [] ∧ ∀ b ∈ s, isdigit b then some (digits s) else none)
    (fun v => ascii (toString v ++ ".00"))
    (by
      intro s v numeral
      split at numeral
      · rename_i all
        exact ⟨all.1, fun member => absurd (all.2 10 member) (by decide)⟩
      · cases numeral)

/-- The call in `main`, where `number` is 0.0 before. -/
def asked (stdin : Bytes) : Except Undefined (Prompted Nat) :=
  inputDouble digitsOnly (ascii "Enter a number:") 0 10 0 stdin []

/-- A word is refused, then the number is returned, and what follows is left. -/
theorem inputDouble_first_iff_retry :
    FirstReturned digitsOnly 0 10 0 (ascii "five\n 7\n8\n") (asked (ascii "five\n 7\n8\n")) := by
  have first : getline (ascii "five\n 7\n8\n") = some (ascii "five\n", ascii " 7\n8\n") := by decide
  have second : getline (ascii " 7\n8\n") = some (ascii " 7\n", ascii "8\n") := by decide
  have seven : Qualifies digitsOnly 0 10 (ascii " 7\n") 7 := ⟨by decide, by decide, by decide⟩
  apply (inputDouble_first_iff (by decide)).mpr
  intro line after reached slips
  rw [reached_read first, reached_read second] at reached
  rcases reached with ⟨rfl, _⟩ | ⟨_, ⟨rfl, _⟩ | ⟨skipped, _⟩⟩
  · exact ((slips_iff_of_short (by decide)).mp slips).1 (by decide)
  · exact ((slips_iff_of_short (by decide)).mp slips).1 (by decide)
  · exact skipped 7 seven

/-- The number on a last line without newline is refused, and a byte behind it makes
    it accepted. -/
theorem unterminated_line_misjudged :
    (∃ out, asked (ascii "5") = .ok out ∧ out.code = -1 ∧
      ¬ FirstReturned digitsOnly 0 10 0 (ascii "5") (asked (ascii "5"))) ∧
    (∃ out, asked (ascii "5x") = .ok out ∧ out.code = 0 ∧ out.number = 5 ∧
      ¬ FirstReturned digitsOnly 0 10 0 (ascii "5x") (asked (ascii "5x"))) := by
  constructor
  · have read : getline (ascii "5") = some (ascii "5", []) := by decide
    have rejects : validateDouble digitsOnly (untilZero (ascii "5")) 0 10 = .ok (.rejected (errMsg
        (ascii "Entry must be a single numeric value. Please try again."))) := by rfl
    have ran : asked (ascii "5") = _ := inputDouble_read read
    rw [rejects] at ran
    refine ⟨_, ran.trans (inputDouble_eof rfl), rfl, not_firstReturned_of_slips read (by decide) ?_⟩
    exact ⟨5, 1, by decide, .inr (by decide)⟩
  · have read : getline (ascii "5x") = some (ascii "5x", []) := by decide
    have accepts : validateDouble digitsOnly (untilZero (ascii "5x")) 0 10 = .ok (.accepted 5) := by
      rfl
    have ran : asked (ascii "5x") = _ := inputDouble_read read
    rw [accepts] at ran
    refine ⟨_, ran, rfl, rfl, not_firstReturned_of_slips read (by decide) ?_⟩
    exact ⟨5, 1, by decide, .inr (by decide)⟩

end SysProg.M4
