import Mathlib.Algebra.Order.BigOperators.Group.Finset
import EbbrtContrib.MPTestResults

namespace EbbrtContrib.MPTestProgress

open Finset CyclicBarrier MPTest MPTestCall MPTestFrame MPTestResults Runs

variable {s t : State} {n k i : Nat} {r : Result} {results : Nat → Result}

/-- Only the workers of calls that have been made exist, `n` for each. -/
def Spawned (n : Nat) (s : State) : Prop := ∀ k i, s.call < k ∨ n ≤ i → s.pc k i = .unspawned

theorem not_unspawned (hs : WorkerStep n s k i r t) : s.pc k i ≠ .unspawned := by
  intro hp
  cases hs <;> simp_all

theorem spawned_step {e : Event} (h : Spawned n s) (hs : Step n s e t) : Spawned n t := by
  cases hs with
  | call site hc =>
    intro k i hki
    have hcall : (enter n s site).call = s.call + 1 := rfl
    exact h k i (by omega)
  | spawn m hc hm =>
    intro k i hki
    have hki' : s.call < k ∨ n ≤ i := hki
    show (s.goto s.call m .queued).pc k i = .unspawned
    rw [goto_pc, if_neg (by omega)]
    exact h k i hki'
  | save | resume => exact h
  | worker k i r t hw =>
    intro k' i' hki
    rw [worker_call hw] at hki
    have hunspawned := h k' i' hki
    rw [worker_other hw, hunspawned]
    rintro ⟨rfl, rfl⟩
    exact not_unspawned hw hunspawned

def phase (n : Nat) : Caller → Nat
  | .spawning m => m
  | .saved => n + 1
  | .activated => n + 2
  | .outside => n + 3

/-- All workers spawned so far. -/
def spawnedWorkers (n : Nat) (s : State) : Finset (Nat × Nat) := range (s.call + 1) ×ˢ range n

/-- How far a call has got. -/
def progress (n : Nat) (s : State) : Nat :=
  phase n s.caller + ∑ w ∈ spawnedWorkers n s, rank (s.pc w.1 w.2)

theorem rank_le (p : Pc) : rank p ≤ 10 := by
  cases p <;> simp [rank]

theorem phase_le (h : CallInv n s) : phase n s.caller ≤ n + 3 := by
  have hcaller := h.caller
  unfold CallerInv at hcaller
  cases hc : s.caller with
  | spawning m =>
    rw [hc] at hcaller
    exact hcaller.1.trans (Nat.le_add_right n 3)
  | _ => simp [phase]

theorem progress_le (h : CallInv n s) : progress n s ≤ n + 3 + (s.call + 1) * n * 10 := by
  have hsum := sum_le_card_nsmul (spawnedWorkers n s) (fun w => rank (s.pc w.1 w.2)) 10
    fun w _ => rank_le _
  rw [spawnedWorkers, card_product, card_range, card_range, Nat.nsmul_eq_mul] at hsum
  exact Nat.add_le_add (phase_le h) hsum

/-- A worker that does not spin moves up. -/
theorem worker_rank (hs : WorkerStep n s k i r t) :
    (t = s.touch k ∧ s.pc k i = .spinning ∧ s.count < n) ∨
      rank (t.pc k i) = rank (s.pc k i) + 1 := by
  have hgoto : ∀ p, (s.goto k i p).pc k i = p := by
    intro p
    rw [goto_pc, if_pos ⟨rfl, rfl⟩]
  have hmove : ∀ p, t.pc k i = p → ∀ q, s.pc k i = q → rank p = rank q + 1 →
      rank (t.pc k i) = rank (s.pc k i) + 1 := by
    rintro p rfl q rfl hr
    exact hr
  cases hs with
  | spin hp hc => exact .inl ⟨rfl, hp, hc⟩
  | start _ hp | pass _ _ hp | work hp | arrive _ _ hp | passAgain _ _ _ hp | write _ hp
  | count hp | leave hp | activate hp | finish hp =>
    exact .inr (hmove _ (hgoto _) _ hp rfl)

theorem sum_lt (hcall : t.call = s.call) (hw : (k, i) ∈ spawnedWorkers n s)
    (hrank : rank (t.pc k i) = rank (s.pc k i) + 1)
    (hother : ∀ k' i', ¬ (k' = k ∧ i' = i) → t.pc k' i' = s.pc k' i') :
    ∑ w ∈ spawnedWorkers n s, rank (s.pc w.1 w.2) <
      ∑ w ∈ spawnedWorkers n t, rank (t.pc w.1 w.2) := by
  have hworkers : spawnedWorkers n t = spawnedWorkers n s := by
    rw [spawnedWorkers, spawnedWorkers, hcall]
  rw [hworkers]
  apply sum_lt_sum
  · rintro ⟨k', i'⟩ -
    by_cases he : k' = k ∧ i' = i
    · obtain ⟨rfl, rfl⟩ := he
      exact (Nat.le_succ _).trans_eq hrank.symm
    · exact (congrArg rank (hother k' i' he)).ge
  · exact ⟨(k, i), hw, (Nat.lt_succ_self _).trans_eq hrank.symm⟩

/-- A worker that still spins does so in a call in progress, and changes nothing. -/
theorem spin_eq (h : CallInv n s) (hp : s.pc k i = .spinning) (hc : s.count < n) :
    s.touch k = s := by
  have hk : k = s.call := by
    by_contra hk
    obtain hl | hl | ⟨hl, -⟩ := h.old k i hk
    all_goals
      rw [hp] at hl
      cases hl
  have hcaller : s.caller ≠ .outside := by
    intro ho
    have hall : tally (ranks s) n 8 = n := tally_eq_iff.mpr fun j hj => h.counted_of_outside ho hj
    rw [h.counted, hall] at hc
    exact absurd hc (lt_irrefl n)
  have hlive : s.Live k := ⟨hk, hcaller⟩
  simp [State.touch, hlive]

theorem worker_phase (h : CallInv n s) (hs : WorkerStep n s k i r t) :
    phase n s.caller ≤ phase n t.caller := by
  cases hs with
  | activate hp hi =>
    have hk : k = s.call := by
      by_contra hk
      obtain hl | hl | ⟨-, hi0⟩ := h.old k i hk
      · rw [hp] at hl
        cases hl
      · rw [hp] at hl
        cases hl
      · exact hi0 hi
    subst hk hi
    have hr : ranks s 0 = 9 := by rw [ranks, hp, rank]
    rw [h.caller.saved (by omega) (by omega)]
    exact Nat.le_succ (n + 1)
  | _ => exact le_rfl

/-- Every step of a call that changes anything makes progress. -/
theorem progress_lt {e : Event} (h : CallInv n s) (hspawned : Spawned n s) (he : InCall s e)
    (hs : Step n s e t) : t = s ∨ progress n s < progress n t := by
  cases hs with
  | call site => exact he.elim
  | spawn m hc hm =>
    right
    have hcaller := h.caller
    rw [CallerInv, hc] at hcaller
    have hr : rank (s.pc s.call m) = 0 := by
      have := hcaller.2.1 m
      rw [ranks] at this
      omega
    have hsum := sum_lt (n := n) (k := s.call) (i := m)
      (t := { s.goto s.call m .queued with caller := .spawning (m + 1) }) (s := s) rfl
      (by simp [spawnedWorkers, hm]) (by rw [hr]; simp [rank]) fun k' i' hne => by simp [hne]
    have hphase : phase n s.caller = m := by rw [hc, phase]
    exact Nat.add_lt_add_of_le_of_lt (hphase.trans_le (Nat.le_succ m)) hsum
  | save m hc hm =>
    right
    have hle := h.caller
    rw [CallerInv, hc] at hle
    apply Nat.add_lt_add_right
    rw [hc]
    exact Nat.lt_succ_of_le hle.1
  | resume hc =>
    right
    apply Nat.add_lt_add_right
    rw [hc]
    exact Nat.lt_succ_self (n + 2)
  | worker k i r t hw =>
    obtain ⟨rfl, hp, hcount⟩ | hrank := worker_rank hw
    · exact .inl (spin_eq h hp hcount)
    · right
      have hmem : (k, i) ∈ spawnedWorkers n s := by
        by_contra hnot
        apply not_unspawned hw
        apply hspawned
        simp only [spawnedWorkers, mem_product, mem_range] at hnot
        omega
      exact Nat.add_lt_add_of_le_of_lt (worker_phase h hw)
        (sum_lt (worker_call hw) hmem hrank fun _ _ hne => worker_other hw hne)

theorem spawned_of_lastCall (h : LastCall (LoopsLeft n) n results s) : Spawned n s := by
  obtain ⟨t, site, u, hr, hcall, hreach⟩ := h
  have ht : Spawned n t :=
    hr.invariant (fun _ _ _ => rfl) fun _ _ _ hi _ hs => spawned_step hi (step_cases hs)
  exact hreach.invariant (spawned_step ht (step_cases hcall))
    fun _ _ _ hi _ hs => spawned_step hi (step_cases hs)

/-- A call can always be run to its end, and with workers it is then complete. -/
theorem exists_completed (hn : 0 < n) (h : LastCall (LoopsLeft n) n results s) :
    ∃ t, Reaches (step n) InCall s t ∧ t.call = s.call ∧ Completed n t := by
  have hbound : ∀ u, CallInv n u ∧ Spawned n u ∧ u.call = s.call →
      progress n u ≤ n + 3 + (s.call + 1) * n * 10 := by
    rintro u ⟨hu, -, hsame⟩
    rw [← hsame]
    exact progress_le hu
  have hstep : ∀ u e v, CallInv n u ∧ Spawned n u ∧ u.call = s.call → InCall u e →
      step n u e = some v → (CallInv n v ∧ Spawned n v ∧ v.call = s.call) ∧
        (v = u ∨ progress n u < progress n v) := by
    rintro u e v ⟨hu, hsp, hsame⟩ he hs
    have hs' := step_cases hs
    exact ⟨⟨hu.step he hs', spawned_step hsp hs', (step_call he hs').trans hsame⟩,
      progress_lt hu hsp he hs'⟩
  obtain ⟨t, hreach, ⟨ht, -, hsame⟩, hrest⟩ := exists_at_rest (progress n)
    ⟨callInv_of_lastCall h, spawned_of_lastCall h, rfl⟩ hbound hstep
  exact ⟨t, hreach, hsame, completed ht hrest hn⟩

end EbbrtContrib.MPTestProgress
