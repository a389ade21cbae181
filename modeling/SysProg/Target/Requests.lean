import SysProg.Lib.CString
import SysProg.Target.WebServer

/-! # How a request reaches `do_GET`

What Python's `http.server`, on which `web_server.py` builds, does with the first
line of a request: the line is decoded, split at white space and checked, and
its second word becomes the path.
-/

namespace SysProg.Target

open CString

/-- `str(raw, 'iso-8859-1')` -/
def decoded (raw : Bytes) : Text := raw.map Char.ofUInt8

/-- `str.isspace` of one character of that encoding. -/
def isspace (c : Char) : Bool :=
  (9 ≤ c.toNat && c.toNat ≤ 13) || (28 ≤ c.toNat && c.toNat ≤ 32) || c.toNat = 133 || c.toNat = 160

/-- `line.split()` -/
def split (line : Text) : List Text := (line.splitOnP isspace).filter (· ≠ [])

/-- The bytes that show in every encoding. -/
def Graphic (w : Bytes) : Prop := ∀ b ∈ w, 33 ≤ b ∧ b ≤ 126

theorem Graphic.visible {w : Bytes} (graphic : Graphic w) : ∀ c ∈ decoded w, isspace c = false := by
  intro c member
  obtain ⟨b, inside, rfl⟩ := List.mem_map.mp member
  obtain ⟨low, high⟩ := graphic b inside
  have low' : 33 ≤ b.toNat := low
  have high' : b.toNat ≤ 126 := high
  have char : (Char.ofUInt8 b).toNat = b.toNat := UInt8.toNat_toUInt32 b
  simp only [isspace, char, Bool.or_eq_false_iff, Bool.and_eq_false_iff, decide_eq_false_iff_not]
  omega

theorem Graphic.lacks {w : Bytes} (graphic : Graphic w) : ∀ b ∈ w, b ≠ 10 := by
  rintro b inside rfl
  exact absurd (graphic 10 inside).1 (by decide)

end SysProg.Target
