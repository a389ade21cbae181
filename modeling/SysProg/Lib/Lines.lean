import Mathlib.Data.List.Basic
import SysProg.Lib.CString

/-! # Lines of a stream

`getline` takes what comes up to the first newline, which it keeps, or up to the
end of the stream, so that only the last line may lack its newline.
-/

namespace SysProg.Lines

open CString

/-- `getline` as the line and the rest of the stream, or nothing at its end. -/
def getline (stream : Bytes) : Option (Bytes × Bytes) :=
  match stream with
  | [] => none
  | first :: others =>
      match (first :: others).dropWhile (· ≠ 10) with
      | [] => some (first :: others, [])
      | newline :: rest => some ((first :: others).takeWhile (· ≠ 10) ++ [newline], rest)

def Terminated (line : Bytes) : Prop := line.getLast? = some 10

instance (line : Bytes) : Decidable (Terminated line) :=
  inferInstanceAs (Decidable (line.getLast? = some 10))

/-- A line without its newline. -/
def content (line : Bytes) : Bytes := if Terminated line then line.dropLast else line

variable {stream line rest : Bytes}

/-- How a line is read: it and the rest are the stream, and it ends with a newline
    or with the stream. -/
theorem getline_eq_some (read : getline stream = some (line, rest)) :
    stream = line ++ rest ∧ line ≠ [] ∧ (Terminated line ∨ rest = []) := by
  unfold getline at read
  split at read
  · cases read
  · rename_i first others
    split at read
    · cases read
      exact ⟨by simp, by simp, .inr rfl⟩
    · rename_i newline left behind
      cases read
      have head := List.head_dropWhile_not (fun b : UInt8 => decide (b ≠ 10))
        (l := first :: others) (by rw [behind]; exact List.cons_ne_nil newline rest)
      have ten : newline = 10 := by simpa only [behind, List.head_cons, decide_eq_false_iff_not,
        not_not] using head
      refine ⟨?_, by simp, .inl ?_⟩
      · rw [List.append_assoc, List.singleton_append, ← behind, List.takeWhile_append_dropWhile]
      · rw [ten]
        simp [Terminated]

theorem getline_shorter (read : getline stream = some (line, rest)) :
    rest.length < stream.length := by
  obtain ⟨rfl, some_, _⟩ := getline_eq_some read
  have positive := List.length_pos_iff.mpr some_
  simp only [List.length_append]
  omega

/-- The lines that `getline` reads one after the other. -/
def lines (stream : Bytes) : List Bytes :=
  match _ : getline stream with
  | none => []
  | some (line, rest) => line :: lines rest
termination_by stream.length
decreasing_by exact getline_shorter ‹_›

theorem lines_eof (eof : getline stream = none) : lines stream = [] := by
  unfold lines
  split
  · rfl
  · rename_i read
    rw [eof] at read
    cases read

theorem lines_read (read : getline stream = some (line, rest)) :
    lines stream = line :: lines rest := by
  rw [lines.eq_def]
  split
  · rename_i eof
    rw [read] at eof
    cases eof
  · rename_i read'
    rw [read] at read'
    cases read'
    rfl

theorem flatten_lines (stream : Bytes) : (lines stream).flatten = stream := by
  induction stream using lines.induct with
  | case1 stream eof =>
      rw [lines_eof eof]
      cases stream with
      | nil => rfl
      | cons b rest =>
          unfold getline at eof
          split at eof
          · contradiction
          · split at eof <;> cases eof
  | case2 stream line rest read ih =>
      rw [lines_read read, List.flatten_cons, ih]
      exact (getline_eq_some read).1.symm

theorem content_append (ends : Terminated line) : content line ++ [10] = line := by
  unfold content
  rw [if_pos ends]
  exact List.dropLast_append_getLast? 10 ends

theorem content_eq_self (cut : ¬ Terminated line) : content line = line := if_neg cut

theorem length_content (ends : Terminated line) : (content line).length + 1 = line.length := by
  have same := congrArg List.length (content_append ends)
  simpa using same

end SysProg.Lines
