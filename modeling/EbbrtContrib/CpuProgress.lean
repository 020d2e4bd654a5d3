import EbbrtContrib.CpuBarriers

namespace EbbrtContrib.CpuProgress

open Finset CpuBringUp CpuBarriers CyclicBarrier Runs

variable {n : Nat} {s t : State} {i : Nat} {e : Event}

/-- No thread, and not `EarlyInit`, can get on. -/
def AtRest (n : Nat) (s : State) : Prop := ∀ e, step n s e = none

/-- A thread is held back by a counter, by the lock, or by its event loop only. -/
theorem run_ne_none (hborn : 1 ≤ ranks s i) (hlt : ranks s i < 15)
    (hlock : ranks s i = 1 → s.initLock = none) (hcreated : ranks s i = 7 → n ≤ s.created)
    (hrunning : ranks s i = 10 → n ≤ s.running) (hevent : ranks s i = 11 → s.events i = true)
    (hinited : ranks s i = 13 → n ≤ s.inited) : Cpu.run n s i ≠ none := by
  unfold Cpu.run
  cases hp : s.pc i
  all_goals
    simp only [ranks, hp, rank] at hborn hlt hlock hcreated hrunning hevent hinited
  case unborn => exact absurd hborn (by omega)
  case finished => exact absurd hlt (by omega)
  case locking => simp [hlock]
  case waitCreated => simp [hcreated]
  case waitRunning => simp [hrunning]
  case looping => simp [hevent]
  case waitInited => simp [hinited]
  all_goals exact Option.some_ne_none _

theorem started_at_rest (hrest : AtRest n s) :
    started n s = n ∧ (n ≤ s.running → s.early = .returned) := by
  have hearly := hrest .early
  simp only [step, Cpu.earlyInit] at hearly
  cases he : s.early with
  | creating i =>
    simp only [he] at hearly
    split at hearly <;> cases hearly
  | waiting =>
    refine ⟨by rw [started, he], fun hall => ?_⟩
    simp [he, hall] at hearly
  | returned => exact ⟨by rw [started, he], fun _ => rfl⟩

theorem unlocked_at_rest (h : Inv n s) (hrest : AtRest n s) : s.initLock = none := by
  by_contra hne
  obtain ⟨j, hj⟩ := Option.ne_none_iff_exists'.mp hne
  have hheld := (h.initLock j).mp hj
  exact run_ne_none (by omega) (by omega) (by omega) (by omega) (by omega) (by omega) (by omega)
    (hrest (.thread j))

/-- One barrier after the other, all threads have finished. -/
theorem finished_at_rest (h : Inv n s) (hrest : AtRest n s) : ∀ i < n, ranks s i = 15 := by
  have hlock := unlocked_at_rest h hrest
  have hborn : ∀ i < n, 1 ≤ ranks s i := fun i hi =>
    h.born i (hi.trans_eq (started_at_rest hrest).1.symm)
  have hle : ∀ i, ranks s i ≤ 15 := fun i => rank_le (s.pc i)
  have hstuck : ∀ i, Cpu.run n s i = none := fun i => hrest (.thread i)
  have hcreating : ∀ i < n, 7 ≤ ranks s i := by
    intro i hi
    by_contra hlt
    exact run_ne_none (hborn i hi) (by omega) (fun _ => hlock) (by omega) (by omega) (by omega)
      (by omega) (hstuck i)
  have hcreated : n ≤ s.created := by
    rw [h.counted.created, tally_eq_iff.mpr fun i hi => (hcreating i hi).trans' (by omega)]
  have hspawning : ∀ i < n, 10 ≤ ranks s i := by
    intro i hi
    by_contra hlt
    exact run_ne_none (hborn i hi) (by omega) (fun _ => hlock) (fun _ => hcreated) (by omega)
      (by omega) (by omega) (hstuck i)
  have hrunning : n ≤ s.running := by
    rw [h.counted.running, tally_eq_iff.mpr hspawning]
  have hevent : ∀ i, ranks s i = 11 → s.events i = true := by
    intro i hi
    rw [h.events, hi]
    rfl
  have harriving : ∀ i < n, 13 ≤ ranks s i := by
    intro i hi
    by_contra hlt
    exact run_ne_none (hborn i hi) (by omega) (fun _ => hlock) (fun _ => hcreated)
      (fun _ => hrunning) (hevent i) (by omega) (hstuck i)
  have hinited : n ≤ s.inited := by
    rw [h.counted.inited, tally_eq_iff.mpr harriving]
  intro i hi
  have := hle i
  by_contra hlt
  exact run_ne_none (hborn i hi) (by omega) (fun _ => hlock) (fun _ => hcreated)
    (fun _ => hrunning) (hevent i) (fun _ => hinited) (hstuck i)

theorem completed_at_rest (h : Inv n s) (hn : 1 ≤ n) (hrest : AtRest n s) :
    s.mains = [0] ∧ s.early = .returned := by
  have hall := finished_at_rest h hrest
  have hrunning : n ≤ s.running := by
    rw [h.counted.running, tally_eq_iff.mpr fun i hi => (hall i hi).ge.trans' (by omega)]
  exact ⟨by rw [h.mains, if_pos (hall 0 hn)], (started_at_rest hrest).2 hrunning⟩

def phase (n : Nat) : Early → Nat
  | .creating i => i
  | .waiting => n + 1
  | .returned => n + 2

/-- How far the bring-up has got. -/
def progress (n : Nat) (s : State) : Nat := phase n s.early + ∑ i ∈ range n, ranks s i

theorem progress_le (h : Inv n s) : progress n s ≤ n + 2 + n * 15 := by
  have hsum := sum_le_card_nsmul (range n) (ranks s) 15 fun i _ => rank_le (s.pc i)
  rw [card_range, Nat.nsmul_eq_mul] at hsum
  have hphase : phase n s.early ≤ n + 2 := by
    have hle := h.started_le
    rw [started] at hle
    cases he : s.early with
    | creating i =>
      rw [he] at hle
      exact hle.trans (Nat.le_add_right n 2)
    | waiting | returned => simp [phase]
  exact Nat.add_le_add hphase hsum

theorem sum_lt (hi : i < n) (ha : Advance n s i t) :
    ∑ j ∈ range n, ranks s j < ∑ j ∈ range n, ranks t j := by
  apply sum_lt_sum
  · intro j _
    by_cases hj : j = i
    · rw [hj, ha.rank_eq]
      exact Nat.le_succ _
    · exact (ha.other j hj).ge
  · exact ⟨i, mem_range.mpr hi, (Nat.lt_succ_self _).trans_eq ha.rank_eq.symm⟩

theorem early_progress_lt (h : Inv n s) (hs : Cpu.earlyInit n s = some t) :
    progress n s < progress n t := by
  obtain ⟨i, he, hi, rfl⟩ | ⟨i, he, hi, rfl⟩ | ⟨he, -, rfl⟩ := earlyInit_cases hs
  · have hstarted : started n s = i := by rw [started, he]
    have ha := advance_of_create (n := n) (pc_of_rank_zero (h.unborn i hstarted.le))
    rw [progress, he]
    exact Nat.add_lt_add (Nat.lt_succ_self i) (sum_lt hi ha)
  · have hstarted : started n s = i := by rw [started, he]
    rw [progress, he]
    exact Nat.add_lt_add_right (Nat.lt_succ_of_le (hstarted.ge.trans h.started_le)) _
  · rw [progress, he]
    exact Nat.add_lt_add_right (Nat.lt_succ_self (n + 1)) _

theorem progress_lt (h : Inv n s) (hs : step n s e = some t) : progress n s < progress n t := by
  cases e with
  | early => exact early_progress_lt h hs
  | thread i =>
    have hm := moved_of_run hs
    rw [progress, progress, hm.early]
    exact Nat.add_lt_add_left (sum_lt (h.lt_of_born hm.born) hm.toAdvance) _

theorem comes_to_rest (h : Inv n s) : ∃ t, Reachable (step n) s t ∧ AtRest n t := by
  have hstep : ∀ s e t, Inv n s → True → step n s e = some t →
      Inv n t ∧ (t = s ∨ progress n s < progress n t) :=
    fun _ _ _ hi _ hs => ⟨hi.step hs, .inr (progress_lt hi hs)⟩
  obtain ⟨t, ht, hinv, hrest⟩ := exists_at_rest (progress n) h (fun _ => progress_le) hstep
  refine ⟨t, ht, fun e => ?_⟩
  by_contra hne
  obtain ⟨u, hu⟩ := Option.ne_none_iff_exists'.mp hne
  have hlt := progress_lt hinv hu
  rw [hrest e u trivial hu] at hlt
  exact lt_irrefl _ hlt

/-- For every number of CPUs that fit, `Main` is called exactly once, behind the barriers: at most
once in every state, and once when the bring-up has come to rest, which it does. -/
theorem bringUp_correct (n : Nat) (hn : 1 ≤ n) (hmax : n ≤ kMaxCpus) :
    (∀ s, Reachable (step n) .init s → BringUp n s) ∧
    (∀ s, Reachable (step n) .init s → AtRest n s → s.mains = [0] ∧ s.early = .returned) ∧
    ∀ s, Reachable (step n) .init s → ∃ t, Reachable (step n) s t ∧ AtRest n t :=
  ⟨fun _ hs => (Inv.of_reachable hs).bringUp hn hmax,
    fun _ hs => completed_at_rest (Inv.of_reachable hs) hn,
    fun _ hs => comes_to_rest (Inv.of_reachable hs)⟩

theorem bringUp_correct_two : 1 ≤ 2 ∧ 2 ≤ kMaxCpus ∧
    (∀ s, Reachable (step 2) .init s → BringUp 2 s) ∧
    (∀ s, Reachable (step 2) .init s → AtRest 2 s → s.mains = [0] ∧ s.early = .returned) ∧
    ∀ s, Reachable (step 2) .init s → ∃ t, Reachable (step 2) s t ∧ AtRest 2 t :=
  ⟨by decide, by decide, bringUp_correct 2 (by decide) (by decide)⟩

end EbbrtContrib.CpuProgress
