import EbbrtContrib.BlobRoundTrip

namespace EbbrtContrib.EnvironBounds

open CString Argv ArgBlobs BlobRoundTrip

variable (heap : Nat → Slot) (data : List Byte)

/-- `numvar`, what `environ_` has slots for. -/
def numvar : Nat := countNul data (toInt data.length)

/-- The constructor reads the data and writes `environ_` within their bounds, and there is a NULL
within those of `environ_`. -/
def InBounds : Prop := ∃ e, Environment.construct heap data = .ok e ∧
  (∀ j ∈ e.written, j < e.allocated) ∧ ∃ n < e.allocated, e.slots n = .null

/-- The loop writes one slot after the other. -/
theorem foldl_written (starts : List Nat) (j : Nat) (e : Environment) :
    ((starts.zipIdx j).foldl (fun e p => e.write p.2 (.ptr p.1)) e).written =
        e.written ++ List.range' j starts.length ∧
      ((starts.zipIdx j).foldl (fun e p => e.write p.2 (.ptr p.1)) e).allocated = e.allocated := by
  induction starts generalizing j e with
  | nil => exact ⟨(List.append_nil _).symm, rfl⟩
  | cons a starts ih =>
    obtain ⟨hwritten, hallocated⟩ := ih (j + 1) (e.write j (.ptr a))
    rw [List.zipIdx_cons, List.foldl_cons]
    refine ⟨hwritten.trans ?_, hallocated⟩
    rw [Environment.write, List.length_cons, List.range'_succ, List.append_assoc,
      List.singleton_append]

/-- The slot of the NULL is written first, then the first slot and those up to `numvar`. -/
theorem construct_written {e : Environment} (h : Environment.construct heap data = .ok e) :
    e.allocated = numvar data ∧ e.written = numvar data :: List.range (numvar data - 1 + 1) := by
  have hle : numvar data ≤ data.count NUL + 1 := Nat.le_succ_of_le (countNul_le data _)
  have hscan := h.symm.trans (scan_eq _ _ _ _ _ _ hle)
  obtain rfl := Except.ok.inj hscan
  obtain ⟨hwritten, hallocated⟩ := foldl_written ((starts 0 data).take (numvar data - 1)) 1
    ((Environment.write ⟨heap, numvar data, []⟩ (numvar data) .null).write 0 (.ptr 0))
  have hlen : ((starts 0 data).take (numvar data - 1)).length = numvar data - 1 := by
    rw [List.length_take, length_starts]
    omega
  rw [hlen] at hwritten
  refine ⟨hallocated, hwritten.trans ?_⟩
  rw [List.range_eq_range', List.range'_succ]
  rfl

/-- Every slot of `environ_` points into the data, and the NULL stands behind the last one, unless
the first pointer has overwritten it. -/
theorem construct_slots {e : Environment} (h : Environment.construct heap data = .ok e) :
    (∀ n < numvar data, e.slots n ≠ .null) ∧ (e.slots (numvar data) = .null ↔ 0 < numvar data) := by
  obtain ⟨e', he', hslots⟩ := environment_construct heap data
  obtain rfl := Except.ok.inj (h.symm.trans he')
  have hlen : (entries data).length = numvar data - 1 + 1 := length_entries data
  have hptr : ∀ n < (entries data).length, e.slots n ≠ .null := by
    intro n hn
    rw [hslots, List.getElem?_eq_getElem hn]
    exact Slot.noConfusion
  refine ⟨fun n hn => hptr n (by omega), ?_⟩
  constructor
  · intro hnull
    by_contra hzero
    exact hptr (numvar data) (by omega) hnull
  · intro hpos
    rw [hslots, List.getElem?_eq_none (by omega)]
    exact if_pos rfl

/-- The constructor reads within the data of every blob, but the NULL is written behind the slots
of `environ_`, for every one of them. -/
theorem never_inBounds : ¬ InBounds heap data ∧ ∃ e, Environment.construct heap data = .ok e ∧
    e.allocated = numvar data ∧ e.written = numvar data :: List.range (numvar data - 1 + 1) ∧
    (∀ n < e.allocated, e.slots n ≠ .null) ∧
    (e.slots e.allocated = .null ↔ 0 < e.allocated) := by
  obtain ⟨e, he, -⟩ := environment_construct heap data
  obtain ⟨hallocated, hwritten⟩ := construct_written heap data he
  obtain ⟨hptr, hnull⟩ := construct_slots heap data he
  constructor
  · rintro ⟨e', he', hin, -⟩
    obtain rfl := Except.ok.inj (he.symm.trans he')
    have hlt := hin (numvar data) (hwritten ▸ List.mem_cons_self)
    exact hlt.ne hallocated.symm
  · refine ⟨e, he, hallocated, hwritten, ?_, ?_⟩
    · rw [hallocated]
      exact hptr
    · rw [hallocated]
      exact hnull

/-- A blob of one variable: `environ_` has one slot, and slot 1 is written. -/
theorem oneVariable_outside : ¬ ∀ heap data, InBounds heap data := by
  intro h
  obtain ⟨e, he, hin, -⟩ := h (fun _ => .uninit) [0x41, NUL]
  obtain rfl := Except.ok.inj he
  have hlt := hin 1 (by decide)
  exact absurd hlt (by decide)

end EbbrtContrib.EnvironBounds
