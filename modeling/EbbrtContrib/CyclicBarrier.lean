import Mathlib.Data.Nat.Count
import Mathlib.Logic.Function.Basic

namespace EbbrtContrib.CyclicBarrier

/-- A reusable barrier for `size` parties. Arrivals are grouped into generations of `size`,
and a generation is released when it is complete. -/
structure Barrier where
  size : Nat
  arrivals : Nat
  deriving DecidableEq, Repr

variable {b : Barrier} {base m : Nat}

def Barrier.new (size : Nat) : Barrier := ⟨size, 0⟩

/-- The generation that the next arrival belongs to. -/
def Barrier.generation (b : Barrier) : Nat := b.arrivals / b.size

def Barrier.enter (b : Barrier) : Barrier := { b with arrivals := b.arrivals + 1 }

@[simp] theorem Barrier.enter_size : b.enter.size = b.size := rfl

@[simp] theorem Barrier.enter_arrivals : b.enter.arrivals = b.arrivals + 1 := rfl

/-- Whether the parties that arrived in generation `g` may leave. -/
def Barrier.IsOpen (b : Barrier) (g : Nat) : Prop := (g + 1) * b.size ≤ b.arrivals

instance (b : Barrier) (g : Nat) : Decidable (b.IsOpen g) := inferInstanceAs (Decidable (_ ≤ _))

theorem Barrier.generation_eq (h : b.arrivals = base * b.size + m) (hm : m < b.size) :
    b.generation = base := by
  rw [generation, h, Nat.mul_comm, Nat.mul_add_div (by omega), Nat.div_eq_of_lt hm, Nat.add_zero]

theorem Barrier.isOpen_iff (h : b.arrivals = base * b.size + m) :
    b.IsOpen base ↔ b.size ≤ m := by
  rw [IsOpen, h, Nat.succ_mul]
  omega

/-- How many of the `n` parties have got as far as `r`. -/
def tally (rank : Nat → Nat) (n r : Nat) : Nat := Nat.count (fun i => r ≤ rank i) n

variable {rank rank' : Nat → Nat} {n r i : Nat}

theorem tally_le : tally rank n r ≤ n := Nat.count_le _

theorem tally_eq_iff : tally rank n r = n ↔ ∀ i < n, r ≤ rank i := Nat.count_iff_forall

/-- Parties that have all got as far as `r'` have all got as far as any earlier place. -/
theorem tally_full_of_le {r' : Nat} (hr : r ≤ r') (h : tally rank n r' = n) :
    tally rank n r = n :=
  tally_eq_iff.mpr fun i hi => hr.trans (tally_eq_iff.mp h i hi)

theorem tally_congr (h : ∀ j < n, r ≤ rank' j ↔ r ≤ rank j) :
    tally rank' n r = tally rank n r := by
  refine le_antisymm ?_ ?_
  all_goals
    rw [tally, tally, Nat.count_eq_card_filter_range, Nat.count_eq_card_filter_range]
    refine Finset.card_le_card fun j hj => ?_
    rw [Finset.mem_filter, Finset.mem_range] at hj ⊢
  · exact ⟨hj.1, (h j hj.1).mp hj.2⟩
  · exact ⟨hj.1, (h j hj.1).mpr hj.2⟩

/-- One party moves up by one: only the tally of the place it moves to changes. -/
theorem tally_advance (hi : i < n) (hrank : rank' i = rank i + 1)
    (hother : ∀ j, j ≠ i → rank' j = rank j) :
    tally rank' n r = tally rank n r + if r = rank i + 1 then 1 else 0 := by
  by_cases hr : r = rank i + 1
  · rw [if_pos hr, tally, tally, Nat.count_eq_card_filter_range, Nat.count_eq_card_filter_range]
    have hnot : i ∉ (Finset.range n).filter fun j => r ≤ rank j := by
      rw [Finset.mem_filter]
      omega
    rw [← Finset.card_insert_of_notMem hnot]
    congr 1
    ext j
    rw [Finset.mem_insert, Finset.mem_filter, Finset.mem_filter, Finset.mem_range]
    by_cases hj : j = i
    · subst hj
      simp only [true_or, iff_true]
      omega
    · simp only [hj, false_or, hother j hj]
  · rw [if_neg hr, Nat.add_zero]
    refine tally_congr fun j _ => ?_
    by_cases hj : j = i
    · subst hj
      omega
    · rw [hother j hj]

/-- Nobody is past `r` before all `n` parties have got there. -/
def Gate (rank : Nat → Nat) (n r : Nat) : Prop := ∀ i, r < rank i → tally rank n r = n

theorem tally_of_zero (h : ∀ i, rank i = 0) : tally rank n (r + 1) = 0 := by
  simp [tally, h, Nat.count_false]

theorem gate_of_zero (h : ∀ i, rank i = 0) : Gate rank n r := by
  intro i hi
  rw [h i] at hi
  exact absurd hi (Nat.not_lt_zero r)

theorem tally_lt (hi : i < n) (hr : rank i < r) : tally rank n r < n := by
  apply lt_of_le_of_ne tally_le
  intro hall
  exact absurd (tally_eq_iff.mp hall i hi) (by omega)

theorem tally_full_advance (h : tally rank n r = n) (hi : i < n) (hrank : rank' i = rank i + 1)
    (hother : ∀ j, j ≠ i → rank' j = rank j) : tally rank' n r = n := by
  apply tally_eq_iff.mpr
  intro j hj
  have hle := tally_eq_iff.mp h j hj
  by_cases hji : j = i
  · subst hji
    omega
  · rwa [hother j hji]

/-- Nobody is past `r'` before all `n` parties have got as far as `r`. -/
def Barred (rank : Nat → Nat) (n r r' : Nat) : Prop := ∀ i, r' < rank i → tally rank n r = n

theorem Barred.advance {r' : Nat} (h : Barred rank n r r') (hi : i < n)
    (hrank : rank' i = rank i + 1) (hother : ∀ j, j ≠ i → rank' j = rank j)
    (hopen : rank i = r' → tally rank n r = n) : Barred rank' n r r' := by
  intro j hj
  apply tally_full_advance _ hi hrank hother
  by_cases hji : j = i
  · subst hji
    by_cases hr : rank j = r'
    · exact hopen hr
    · exact h j (by omega)
  · rw [hother j hji] at hj
    exact h j hj

theorem Gate.advance (h : Gate rank n r) (hi : i < n) (hrank : rank' i = rank i + 1)
    (hother : ∀ j, j ≠ i → rank' j = rank j) (hopen : rank i = r → tally rank n r = n) :
    Gate rank' n r :=
  Barred.advance h hi hrank hother hopen

/-- While a gate is closed nobody is anywhere behind it. -/
theorem Gate.tally_eq_zero {r' : Nat} (h : Gate rank n r) (hlt : tally rank n r < n)
    (hr : r < r') : tally rank n r' = 0 := by
  apply Nat.eq_zero_of_not_pos
  intro hpos
  have hne : Nat.count (fun i => r' ≤ rank i) n ≠ 0 := hpos.ne'
  rw [Ne, Nat.count_iff_forall_not] at hne
  push Not at hne
  obtain ⟨j, -, hj⟩ := hne
  exact absurd (h j (by omega)) hlt.ne

/-- All `n` parties cross the barrier twice, at the places `a` and `b` of their course, and
`base` is the generation of the first crossing. -/
structure Crossing (bar : Barrier) (base : Nat) (rank : Nat → Nat) (n a b : Nat) : Prop where
  lt : a < b
  size : bar.size = n
  arrivals : bar.arrivals = base * bar.size + (tally rank n a + tally rank n b)
  first : Gate rank n a
  second : Gate rank n b

namespace Crossing

variable {bar : Barrier} {a b : Nat}

theorem isOpen_first_iff (h : Crossing bar base rank n a b) :
    bar.IsOpen base ↔ tally rank n a = n := by
  rw [Barrier.isOpen_iff h.arrivals, h.size]
  have hle : tally rank n a ≤ n := tally_le
  constructor
  · intro hsum
    by_contra hne
    have hz := h.first.tally_eq_zero (by omega) h.lt
    omega
  · omega

theorem arrivals_second (h : Crossing bar base rank n a b) (ha : tally rank n a = n) :
    bar.arrivals = (base + 1) * bar.size + tally rank n b := by
  rw [h.arrivals, ha, h.size, Nat.succ_mul]
  omega

theorem isOpen_second_iff (h : Crossing bar base rank n a b) (ha : tally rank n a = n) :
    bar.IsOpen (base + 1) ↔ tally rank n b = n := by
  rw [Barrier.isOpen_iff (h.arrivals_second ha), h.size]
  have hle : tally rank n b ≤ n := tally_le
  omega

/-- When all have crossed twice the barrier is at rest again. -/
theorem dvd_arrivals (h : Crossing bar base rank n a b) (hb : tally rank n b = n) :
    n ∣ bar.arrivals := by
  have harr := h.arrivals_second (tally_full_of_le h.lt.le hb)
  rw [hb, h.size] at harr
  exact harr ▸ Nat.dvd_add (Nat.dvd_mul_left n (base + 1)) (Nat.dvd_refl n)

theorem generation_first (h : Crossing bar base rank n a b) (hi : i < n) (hr : rank i < a) :
    bar.generation = base := by
  have hlt := tally_lt hi hr
  have hz := h.first.tally_eq_zero hlt h.lt
  have harr := h.arrivals
  rw [hz, Nat.add_zero] at harr
  exact Barrier.generation_eq harr (by rwa [h.size])

theorem generation_second (h : Crossing bar base rank n a b) (hi : i < n) (ha : a < rank i)
    (hb : rank i < b) : bar.generation = base + 1 := by
  have hlt := tally_lt hi hb
  exact Barrier.generation_eq (h.arrivals_second (h.first i ha)) (by rwa [h.size])

/-- One party moves up: through a gate only when the barrier lets it, and to a gate by
arriving at the barrier. -/
theorem advance (h : Crossing bar base rank n a b) (hi : i < n) (hrank : rank' i = rank i + 1)
    (hother : ∀ j, j ≠ i → rank' j = rank j) (hfirst : rank i = a → bar.IsOpen base)
    (hsecond : rank i = b → bar.IsOpen (base + 1)) :
    Crossing (if rank i + 1 = a ∨ rank i + 1 = b then bar.enter else bar) base rank' n a b := by
  have hlt := h.lt
  have harr := h.arrivals
  have ha := tally_advance (r := a) hi hrank hother
  have hb := tally_advance (r := b) hi hrank hother
  constructor
  · exact hlt
  · split
    · exact h.size
    · exact h.size
  · split
    · rw [ha, hb, Barrier.enter_arrivals, Barrier.enter_size, harr]
      split <;> split <;> omega
    · rw [ha, hb, harr, if_neg (by omega), if_neg (by omega), Nat.add_zero, Nat.add_zero]
  · apply h.first.advance hi hrank hother
    intro hr
    exact h.isOpen_first_iff.mp (hfirst hr)
  · apply h.second.advance hi hrank hother
    intro hr
    exact (h.isOpen_second_iff (h.first i (by omega))).mp (hsecond hr)

end Crossing

end EbbrtContrib.CyclicBarrier
