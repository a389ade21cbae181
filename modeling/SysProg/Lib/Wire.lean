import SysProg.Lib.CString

/-! # Byte streams as a receiver sees them

The bytes still to come on a connection, in the pieces in which they arrive.
No piece is empty: an empty result of `recv` means that the sender has closed.
A piece larger than the room offered is cut, and its rest stays.
-/

namespace SysProg.Arrival

open CString

/-- Bytes that arrive together. -/
abbrev Segment := { bytes : Bytes // bytes ≠ [] }

abbrev Wire := List Segment

/-- Everything that will arrive. -/
def stream (w : Wire) : Bytes := (w.map Subtype.val).flatten

/-- `recv` with room for `room` bytes: its result and what is left. -/
def arrive (room : Nat) : Wire → Bytes × Wire
  | [] => ([], [])
  | segment :: later =>
      if cut : segment.val.drop room = [] then (segment.val, later)
      else (segment.val.take room, ⟨segment.val.drop room, cut⟩ :: later)

@[simp] theorem stream_nil : stream [] = [] := rfl

@[simp] theorem stream_cons (segment : Segment) (later : Wire) :
    stream (segment :: later) = segment.val ++ stream later := rfl

theorem stream_eq_nil {w : Wire} : stream w = [] ↔ w = [] := by
  cases w with
  | nil => simp
  | cons segment later => simp [segment.property]

/-- `recv` loses nothing. -/
theorem arrive_conserves (room : Nat) (w : Wire) :
    (arrive room w).1 ++ stream (arrive room w).2 = stream w := by
  cases w with
  | nil => rfl
  | cons segment later =>
      simp only [arrive]
      split
      · rfl
      · simp only [stream_cons, ← List.append_assoc, List.take_append_drop]

theorem arrive_length (room : Nat) (w : Wire) : (arrive room w).1.length ≤ room := by
  cases w with
  | nil => simp [arrive]
  | cons segment later =>
      simp only [arrive]
      split
      · rename_i whole
        exact List.drop_eq_nil_iff.mp whole
      · exact List.length_take_le _ _

/-- One `recv` gets the whole stream exactly when it comes in at most one piece
    that fits. -/
theorem arrive_whole {room : Nat} {w : Wire} :
    (arrive room w).1 = stream w ↔
      w = [] ∨ ∃ segment, w = [segment] ∧ segment.val.length ≤ room := by
  have conserved := arrive_conserves room w
  constructor
  · intro whole
    rw [whole, List.append_right_eq_self, stream_eq_nil] at conserved
    cases w with
    | nil => exact .inl rfl
    | cons segment later =>
        simp only [arrive] at conserved
        split at conserved
        · rename_i fits
          obtain rfl : later = [] := conserved
          exact .inr ⟨segment, rfl, List.drop_eq_nil_iff.mp fits⟩
        · cases conserved
  · rintro (rfl | ⟨segment, rfl, fits⟩)
    · rfl
    · have uncut : segment.val.drop room = [] := List.drop_eq_nil_iff.mpr fits
      simp [arrive, uncut]

end SysProg.Arrival
