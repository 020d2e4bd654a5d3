import Mathlib.Algebra.Order.Floor.Div

namespace EbbrtContrib.Windows

variable {α : Type*} {w n i : Nat} {l : List α}

/-- The elements of `l` from `i * w` on, at most `w` of them. -/
def window (w : Nat) (l : List α) (i : Nat) : List α := (l.drop (i * w)).take w

/-- The first `n` windows of `l`. -/
def windows (w : Nat) (l : List α) (n : Nat) : List (List α) := (List.range n).map (window w l)

@[simp] theorem windows_zero : windows w l 0 = [] := rfl

theorem windows_succ : windows w l (n + 1) = windows w l n ++ [window w l n] := by
  rw [windows, List.range_succ, List.map_append]
  rfl

/-- Consecutive windows overlap nowhere and leave nothing out. -/
theorem flatten_windows : (windows w l n).flatten = l.take (n * w) := by
  induction n with
  | zero => rw [windows_zero, Nat.zero_mul, List.take_zero, List.flatten_nil]
  | succ n ih =>
    rw [windows_succ, List.flatten_append, ih, List.flatten_singleton, window, Nat.succ_mul,
      List.take_add]

theorem length_window_le : (window w l i).length ≤ w := List.length_take_le _ _

theorem lt_ceilDiv_iff (hw : 1 ≤ w) : i < n ⌈/⌉ w ↔ i * w < n := by
  rw [← not_le, ceilDiv_le_iff_le_mul hw, not_le, Nat.mul_comm]

theorem window_ne_nil (hw : 1 ≤ w) (hi : i < l.length ⌈/⌉ w) : window w l i ≠ [] := by
  have hlt := (lt_ceilDiv_iff hw).mp hi
  apply List.ne_nil_of_length_pos
  rw [window, List.length_take, List.length_drop]
  omega

/-- Every window up to the last one has elements. -/
theorem mem_windows (hw : 1 ≤ w) (hn : n ≤ l.length ⌈/⌉ w) {c : List α}
    (hc : c ∈ windows w l n) : c ≠ [] ∧ c.length ≤ w := by
  obtain ⟨i, hi, rfl⟩ := List.mem_map.mp hc
  exact ⟨window_ne_nil hw ((List.mem_range.mp hi).trans_le hn), length_window_le⟩

theorem isPrefix_flatten_windows : (windows w l n).flatten <+: l := by
  rw [flatten_windows]
  exact List.take_prefix _ _

theorem length_le_mul_ceilDiv (hw : 1 ≤ w) : n ≤ n ⌈/⌉ w * w := by
  rw [Nat.mul_comm]
  exact (ceilDiv_le_iff_le_mul hw).mp le_rfl

/-- As many windows as it takes make up the list. -/
theorem flatten_windows_ceilDiv (hw : 1 ≤ w) : (windows w l (l.length ⌈/⌉ w)).flatten = l := by
  rw [flatten_windows]
  exact List.take_of_length_le (length_le_mul_ceilDiv hw)

end EbbrtContrib.Windows
