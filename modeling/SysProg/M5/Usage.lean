import SysProg.M5.SystemInfo

/-! # Usage

What `system_info.c` makes of the first line of `/proc/stat` with the label `cpu`.
-/

namespace SysProg.M5

open CString Decimal Fgets Scan

/-- `%ld` in a format that goes on. -/
def scanNumber (s : Bytes) : Option (Int × Bytes) :=
  (scanLong s).map fun n => (n, (signed (skipSpace s)).2.dropWhile isdigit)

/-- What up to `k` conversions `%ld` read. -/
def scanNumbers : Nat → Bytes → List Int
  | 0, _ => []
  | k + 1, s =>
      match scanNumber s with
      | none => []
      | some (n, rest) => n :: scanNumbers k rest

inductive Usage where
  /-- No line has the label, and nothing is printed. -/
  | absent
  | unparsed
  | printed (user system idle : Int)
  deriving DecidableEq

/-- `sscanf(line, "%s %ld %ld %ld %ld", ...)` on a line that starts with `cpu` and a
    space, so that the word fits its buffer. -/
def usageLine (line : Bytes) : Usage :=
  match scanWord line with
  | none => .unparsed
  | some (_, rest) =>
      match scanNumbers 4 rest with
      | [user, _, system, idle] => .printed user system idle
      | _ => .unparsed

/-- `get_cpu_usage` on what the file holds. -/
def getCpuUsage (file : Bytes) : Usage :=
  match ((pieces 255 file).map untilZero).find? (startsWith · (ascii "cpu ")) with
  | none => .absent
  | some line => usageLine line

/-- What is printed of it. -/
def Usage.text : Usage → Bytes
  | .absent | .unparsed => []
  | .printed user system idle =>
      column (ascii "Time Spent in User Mode:") ++ ascii " " ++ signedDecimal user ++
          ascii " ms\n" ++
        column (ascii "Time Spent in System Mode:") ++ ascii " " ++ signedDecimal system ++
          ascii " ms\n" ++
        column (ascii "Time Spent in Idle Mode:") ++ ascii " " ++ signedDecimal idle ++
          ascii " ms\n"

theorem scanNumber_spaced {spaces rest : Bytes} {n : Nat} (blank : ∀ b ∈ spaces, isspace b = true)
    (small : (n : Int) ≤ longMax) (ends : ∀ b ∈ rest.head?, isdigit b = false) :
    scanNumber (spaces ++ decimal n ++ rest) = some ((n : Int), rest) := by
  have value := numeral_spaced blank (decimal_ne_nil n) (decimal_isdigit n) ends
  rw [digits_decimal] at value
  have kept : max longMin (min longMax (n : Int)) = n := by
    simp only [longMax, longMin] at *
    omega
  have behind : (signed (skipSpace (spaces ++ decimal n ++ rest))).2.dropWhile isdigit = rest := by
    obtain ⟨d, more, is⟩ := List.exists_cons_of_ne_nil (decimal_ne_nil n)
    have decimals := decimal_isdigit n
    rw [is] at decimals ⊢
    obtain ⟨visible, minus, plus⟩ := visible_of_isdigit (decimals d (by simp))
    rw [List.append_assoc, skipSpace_spaces _ blank, List.cons_append, skipSpace_of_head visible,
      signed_of_unsigned minus plus, ← List.cons_append, List.dropWhile_append_of_pos decimals]
    cases rest with
    | nil => rfl
    | cons b rest => simp [ends b rfl]
  rw [scanNumber, scanLong, value, Option.map_some, Option.map_some, kept, behind]

/-- A line of `/proc/stat` with the times of all processors, as the kernel writes it. -/
structure CpuTimes where
  user : Nat
  nice : Nat
  system : Nat
  idle : Nat
  others : List Nat

namespace CpuTimes

def numbers (times : CpuTimes) : List Nat :=
  times.user :: times.nice :: times.system :: times.idle :: times.others

def content (times : CpuTimes) : Bytes :=
  ascii "cpu " ++ times.numbers.flatMap fun n => 32 :: decimal n

structure Proper (times : CpuTimes) : Prop where
  small : ∀ n ∈ times.numbers, (n : Int) ≤ longMax
  fits : times.content.length < 255

end CpuTimes

/-- What the conversions find in numbers behind spaces. -/
theorem scanNumbers_decimals {ns : List Nat} (small : ∀ n ∈ ns, (n : Int) ≤ longMax) (k : Nat)
    {rest : Bytes} (ends : ∀ b ∈ rest.head?, isdigit b = false) (enough : k ≤ ns.length) :
    scanNumbers k ((ns.flatMap fun n => 32 :: decimal n) ++ rest) =
      (ns.take k).map fun n : Nat => (n : Int) := by
  induction ns generalizing k with
  | nil =>
      obtain rfl : k = 0 := by simpa using enough
      rfl
  | cons n ns ih =>
      cases k with
      | zero => rfl
      | succ k =>
          have behind : ∀ b ∈ ((ns.flatMap fun n => 32 :: decimal n) ++ rest).head?,
              isdigit b = false := by
            cases ns with
            | nil => exact ends
            | cons n ns => exact forall_head_cons (by decide) _
          have read := @scanNumber_spaced [32] _ n (by decide) (small n List.mem_cons_self) behind
          have next := ih (fun n inside => small n (List.mem_cons_of_mem _ inside)) k
            (Nat.le_of_succ_le_succ enough)
          simp only [List.flatMap_cons, List.append_assoc, List.cons_append, List.nil_append]
            at read ⊢
          rw [scanNumbers, read]
          simp [next]

/-- In a piece of another line the label is not found. -/
theorem find_other {lines : List Bytes}
    (other : ∀ line ∈ lines, ∀ piece ∈ pieces 255 (line ++ [10]), ¬ ascii "cpu " <+: piece)
    (plain : ∀ line ∈ lines, ∀ b ∈ line, b ≠ 10) (rest : Bytes) :
    ((pieces 255 ((lines.map (· ++ [10])).flatten ++ rest)).map untilZero).find?
        (startsWith · (ascii "cpu ")) =
      ((pieces 255 rest).map untilZero).find? (startsWith · (ascii "cpu ")) := by
  induction lines with
  | nil => rfl
  | cons line lines ih =>
      have later := ih (fun l inside => other l (List.mem_cons_of_mem _ inside))
        fun l inside => plain l (List.mem_cons_of_mem _ inside)
      have here : ((pieces 255 (line ++ [10])).map untilZero).find? (startsWith · (ascii "cpu ")) =
          none := by
        rw [List.find?_eq_none]
        intro text member starts
        obtain ⟨piece, inside, rfl⟩ := List.mem_map.mp member
        exact other line List.mem_cons_self piece inside
          ((startsWith_iff.mp starts).trans (List.takeWhile_prefix _))
      have file : ((line :: lines).map (· ++ [10])).flatten ++ rest =
          line ++ 10 :: ((lines.map (· ++ [10])).flatten ++ rest) := by simp
      rw [file, pieces_append (by decide) (plain line List.mem_cons_self), List.map_append,
        List.find?_append, here, later]
      rfl

namespace CpuTimes

theorem content_plain (times : CpuTimes) : ∀ b ∈ times.content, b ≠ 10 ∧ b ≠ 0 := by
  intro b member
  rcases List.mem_append.mp member with inside | inside
  · clear member
    revert b
    decide
  · obtain ⟨n, -, inside⟩ := List.mem_flatMap.mp inside
    rcases List.mem_cons.mp inside with rfl | inside
    · decide
    · have digit := decimal_isdigit n b inside
      constructor <;> rintro rfl <;> revert digit <;> decide

/-- The line is parsed right: its first number stands behind two spaces. -/
theorem usageLine_content {times : CpuTimes} (small : ∀ n ∈ times.numbers, (n : Int) ≤ longMax) :
    usageLine (times.content ++ [10]) = .printed times.user times.system times.idle := by
  have word : scanWord (times.content ++ [10]) =
      some (ascii "cpu", 32 :: ((times.numbers.flatMap fun n => 32 :: decimal n) ++ [10])) := rfl
  have spaced (s : Bytes) : scanNumbers 4 (32 :: s) = scanNumbers 4 s := by
    have skip : skipSpace (32 :: s) = skipSpace s := List.dropWhile_cons_of_pos (by decide)
    simp only [scanNumbers, scanNumber, scanLong, numeral, skip]
  have four : 4 ≤ times.numbers.length := by simp [numbers]
  have newline : isdigit 10 = false := by decide
  have read := scanNumbers_decimals small 4 (forall_head_cons newline []) four
  rw [usageLine, word]
  simp only [spaced, read]
  rfl

end CpuTimes

/-- The times of all processors are printed right, wherever their line stands and whatever
    is around it, if no piece of a line before it looks like it. -/
theorem cpu_usage_read {before : List Bytes} {times : CpuTimes} (proper : times.Proper)
    (plain : ∀ line ∈ before, ∀ b ∈ line, b ≠ 10)
    (other : ∀ line ∈ before, ∀ piece ∈ pieces 255 (line ++ [10]), ¬ ascii "cpu " <+: piece)
    (behind : Bytes) :
    (getCpuUsage ((before.map (· ++ [10])).flatten ++ (times.content ++ 10 :: behind))).text =
      column (ascii "Time Spent in User Mode:") ++ ascii " " ++ decimal times.user ++
          ascii " ms\n" ++
        column (ascii "Time Spent in System Mode:") ++ ascii " " ++ decimal times.system ++
          ascii " ms\n" ++
        column (ascii "Time Spent in Idle Mode:") ++ ascii " " ++ decimal times.idle ++
          ascii " ms\n" := by
  have bytes := times.content_plain
  have whole : untilZero (times.content ++ [10]) = times.content ++ [10] := by
    refine untilZero_eq_self fun b member => ?_
    rcases List.mem_append.mp member with inside | inside
    · exact (bytes b inside).2
    · rw [List.mem_singleton.mp inside]
      decide
  have starts : startsWith (times.content ++ [10]) (ascii "cpu ") = true := by
    rw [startsWith_iff, CpuTimes.content, List.append_assoc]
    exact List.prefix_append _ _
  have line := fun b inside => (bytes b inside).1
  have found : ((pieces 255 (times.content ++ 10 :: behind)).map untilZero).find?
      (startsWith · (ascii "cpu ")) = some (times.content ++ [10]) := by
    rw [pieces_append (by decide) line, pieces_line line proper.fits]
    simp [whole, starts]
  rw [getCpuUsage, find_other other plain, found]
  dsimp only
  rw [CpuTimes.usageLine_content proper.small]
  rfl

theorem cpu_usage_read_intr :
    (getCpuUsage (([ascii "intr 7"].map (· ++ [10])).flatten ++
        (CpuTimes.content ⟨42, 0, 17, 1000, [3]⟩ ++ 10 :: ascii "cpu0 1"))).text =
      column (ascii "Time Spent in User Mode:") ++ ascii " " ++ decimal 42 ++ ascii " ms\n" ++
        column (ascii "Time Spent in System Mode:") ++ ascii " " ++ decimal 17 ++
          ascii " ms\n" ++
        column (ascii "Time Spent in Idle Mode:") ++ ascii " " ++ decimal 1000 ++
          ascii " ms\n" := by
  have short : pieces 255 (ascii "intr 7" ++ [10]) = [ascii "intr 7" ++ [10]] :=
    pieces_line (by decide) (by decide)
  refine cpu_usage_read ⟨by decide, by decide⟩ (by decide) ?_ (ascii "cpu0 1")
  simp only [List.forall_mem_singleton, short]
  decide

end SysProg.M5
