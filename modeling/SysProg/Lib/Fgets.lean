import Mathlib.Data.List.Basic
import SysProg.Lib.CString

/-! # Lines read into a buffer

`fgets` takes at most as many bytes as the buffer holds besides its terminator,
and stops after a newline.  A line that is too long is read in pieces.
-/

namespace SysProg.Fgets

open CString

/-- At most `room` bytes, up to the first newline, and the rest of the stream. -/
def upTo : Nat → Bytes → Bytes × Bytes
  | 0, stream => ([], stream)
  | _ + 1, [] => ([], [])
  | room + 1, b :: stream =>
      if b = 10 then ([b], stream)
      else (b :: (upTo room stream).1, (upTo room stream).2)

/-- `fgets(buf, size, stream)` as what it stores before the terminator and the
    rest of the stream, or nothing at its end. -/
def fgets (size : Nat) (stream : Bytes) : Option (Bytes × Bytes) :=
  if stream = [] then none else some (upTo (size - 1) stream)

variable {size room : Nat} {stream piece rest : Bytes}

theorem upTo_conserves (room : Nat) (stream : Bytes) :
    (upTo room stream).1 ++ (upTo room stream).2 = stream := by
  induction room, stream using upTo.induct with
  | case1 stream => rfl
  | case2 room => rfl
  | case3 room stream => simp [upTo]
  | case4 room b stream other ih => simpa [upTo, other] using ih

theorem upTo_length (room : Nat) (stream : Bytes) : (upTo room stream).1.length ≤ room := by
  induction room, stream using upTo.induct with
  | case1 stream => simp [upTo]
  | case2 room => simp [upTo]
  | case3 room stream => simp [upTo]
  | case4 room b stream other ih => simpa [upTo, other] using ih

/-- A line that fits is read whole. -/
theorem upTo_line {room : Nat} {line : Bytes} (plain : ∀ b ∈ line, b ≠ 10)
    (fits : line.length < room) (rest : Bytes) :
    upTo room (line ++ 10 :: rest) = (line ++ [10], rest) := by
  induction line generalizing room with
  | nil =>
      obtain ⟨room, rfl⟩ := Nat.exists_eq_succ_of_ne_zero (Nat.ne_of_gt fits)
      simp [upTo]
  | cons b line ih =>
      simp only [List.length_cons] at fits
      obtain ⟨room, rfl⟩ := Nat.exists_eq_succ_of_ne_zero (show room ≠ 0 by omega)
      have other : b ≠ 10 := plain b List.mem_cons_self
      have read := ih (fun c inside => plain c (List.mem_cons_of_mem _ inside))
        (show line.length < room by omega)
      simp [upTo, other, read]

/-- A line that does not fit fills the buffer. -/
theorem upTo_long {room : Nat} {line : Bytes} (plain : ∀ b ∈ line, b ≠ 10)
    (long : room ≤ line.length) (rest : Bytes) :
    upTo room (line ++ rest) = (line.take room, line.drop room ++ rest) := by
  induction line generalizing room with
  | nil =>
      obtain rfl : room = 0 := by simpa using long
      rfl
  | cons b line ih =>
      cases room with
      | zero => rfl
      | succ room =>
          have other : b ≠ 10 := plain b List.mem_cons_self
          have read := ih (fun c inside => plain c (List.mem_cons_of_mem _ inside))
            (show room ≤ line.length by simpa using long)
          simp [upTo, other, read]

/-- Once the piece is there, what follows is not looked at. -/
theorem upTo_append {room : Nat} {stream : Bytes}
    (full : 10 ∈ stream.take room ∨ room ≤ stream.length)
    (more : Bytes) :
    upTo room (stream ++ more) = ((upTo room stream).1, (upTo room stream).2 ++ more) := by
  induction room, stream using upTo.induct with
  | case1 stream => simp [upTo]
  | case2 room => simp at full
  | case3 room stream => simp [upTo]
  | case4 room b stream other ih =>
      have rest : 10 ∈ stream.take room ∨ room ≤ stream.length := by
        rcases full with newline | long
        · rw [List.take_succ_cons, List.mem_cons] at newline
          exact .inl (newline.resolve_left (Ne.symm other))
        · exact .inr (by simpa using long)
      simp [upTo, other, ih rest]

theorem upTo_nonempty {room : Nat} (positive : 0 < room) (some_ : stream ≠ []) :
    (upTo room stream).1 ≠ [] := by
  obtain ⟨room, rfl⟩ := Nat.exists_eq_succ_of_ne_zero (Nat.ne_of_gt positive)
  cases stream with
  | nil => exact absurd rfl some_
  | cons b stream =>
      by_cases newline : b = 10
      · simp [upTo, newline]
      · simp [upTo, newline]

theorem fgets_eq_some (read : fgets size stream = some (piece, rest)) :
    stream ≠ [] ∧ piece = (upTo (size - 1) stream).1 ∧ rest = (upTo (size - 1) stream).2 := by
  unfold fgets at read
  split at read
  · cases read
  · rename_i some_
    obtain ⟨rfl, rfl⟩ := Prod.mk.inj (Option.some.inj read)
    exact ⟨some_, rfl, rfl⟩

theorem fgets_append (read : fgets size stream = some (piece, rest))
    (full : 10 ∈ stream.take (size - 1) ∨ size - 1 ≤ stream.length) (more : Bytes) :
    fgets size (stream ++ more) = some (piece, rest ++ more) := by
  obtain ⟨some_, rfl, rfl⟩ := fgets_eq_some read
  rw [fgets, if_neg (by simp [some_]), upTo_append full]

theorem fgets_shorter (large : 2 ≤ size) (read : fgets size stream = some (piece, rest)) :
    rest.length < stream.length := by
  obtain ⟨some_, rfl, rfl⟩ := fgets_eq_some read
  have whole := congrArg List.length (upTo_conserves (size - 1) stream)
  have positive := List.length_pos_of_ne_nil
    (upTo_nonempty (show 0 < size - 1 by omega) some_)
  rw [List.length_append] at whole
  omega

/-! ## Reading to the end -/

/-- What a loop `while (fgets(buf, room + 1, stream))` reads, one after the other.  Without
    room it would not end. -/
def pieces (room : Nat) (stream : Bytes) : List Bytes :=
  match fgets (room + 1) stream with
  | none => []
  | some (piece, rest) => if rest.length < stream.length then piece :: pieces room rest else []
termination_by stream.length

@[simp] theorem pieces_nil : pieces room [] = [] := by
  unfold pieces
  rfl

theorem pieces_of_ne_nil (positive : 0 < room) (some_ : stream ≠ []) :
    pieces room stream = (upTo room stream).1 :: pieces room (upTo room stream).2 := by
  have read : fgets (room + 1) stream = some (upTo room stream) := by simp [fgets, some_]
  rw [pieces, read]
  exact if_pos (fgets_shorter (Nat.succ_le_succ positive) read)

theorem pieces_length (positive : 0 < room) (member : piece ∈ pieces room stream) :
    piece.length ≤ room := by
  induction length : stream.length using Nat.strongRecOn generalizing stream with
  | ind n ih =>
      subst length
      by_cases empty : stream = []
      · simp [empty] at member
      · rw [pieces_of_ne_nil positive empty] at member
        rcases List.mem_cons.mp member with rfl | later
        · exact upTo_length room stream
        · have read : fgets (room + 1) stream = some (upTo room stream) := by simp [fgets, empty]
          exact ih _ (fgets_shorter (Nat.succ_le_succ positive) read) later rfl

/-- A line is cut without regard to what is behind it. -/
theorem pieces_append (positive : 0 < room) {line : Bytes} (plain : ∀ b ∈ line, b ≠ 10)
    (rest : Bytes) :
    pieces room (line ++ 10 :: rest) = pieces room (line ++ [10]) ++ pieces room rest := by
  induction length : line.length using Nat.strongRecOn generalizing line with
  | ind n ih =>
      subst length
      rw [pieces_of_ne_nil positive (by simp : line ++ 10 :: rest ≠ []),
        pieces_of_ne_nil positive (by simp : line ++ [10] ≠ [])]
      by_cases fits : line.length < room
      · rw [upTo_line plain fits, upTo_line plain fits]
        simp
      · have long : room ≤ line.length := Nat.le_of_not_lt fits
        rw [upTo_long plain long, upTo_long plain long]
        have shorter := ih (line.drop room).length (by rw [List.length_drop]; omega)
          (fun b inside => plain b (List.mem_of_mem_drop inside)) rfl
        simp [shorter]

/-- A line that fits is read in one piece. -/
theorem pieces_line {line : Bytes} (plain : ∀ b ∈ line, b ≠ 10) (fits : line.length < room) :
    pieces room (line ++ [10]) = [line ++ [10]] := by
  rw [pieces_of_ne_nil (Nat.zero_lt_of_lt fits) (by simp), upTo_line plain fits]
  simp

end SysProg.Fgets
