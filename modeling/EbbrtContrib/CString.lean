import Mathlib.Data.List.Basic

namespace EbbrtContrib.CString

abbrev Byte := UInt8

def NUL : Byte := 0

/-- A NUL-terminated string, kept without its terminator. -/
structure CStr where
  bytes : List Byte
  nul_free : NUL ∉ bytes

/-- The memory `strdup` returns. -/
def dup (s : List Byte) : List Byte := s ++ [NUL]

/-- The C string that starts at index `i`: the bytes up to the first NUL. -/
def strAt (buf : List Byte) (i : Nat) : List Byte := (buf.drop i).takeWhile (· ≠ NUL)

/-- `t` is stored with its terminator at index `i`. -/
def Stored (buf : List Byte) (i : Nat) (t : List Byte) : Prop :=
  ∃ x y, buf = x ++ (t ++ NUL :: y) ∧ x.length = i ∧ NUL ∉ t

theorem takeWhile_append {t : List Byte} (h : NUL ∉ t) (y : List Byte) :
    (t ++ y).takeWhile (· ≠ NUL) = t ++ y.takeWhile (· ≠ NUL) := by
  apply List.takeWhile_append_of_pos
  intro b hb
  have hne : b ≠ NUL := fun he => h (he ▸ hb)
  simpa using hne

theorem strAt_append {x t y : List Byte} (h : NUL ∉ t) :
    strAt (x ++ (t ++ y)) x.length = t ++ y.takeWhile (· ≠ NUL) := by
  rw [strAt, List.drop_left, takeWhile_append h]

theorem Stored.strAt {buf t : List Byte} {i : Nat} (h : Stored buf i t) : strAt buf i = t := by
  obtain ⟨x, y, rfl, rfl, hn⟩ := h
  simp [strAt_append hn]

theorem Stored.append {buf t : List Byte} {i : Nat} (h : Stored buf i t) (z : List Byte) :
    Stored (buf ++ z) i t := by
  obtain ⟨x, y, rfl, rfl, hn⟩ := h
  exact ⟨x, y ++ z, by simp, rfl, hn⟩

end EbbrtContrib.CString
