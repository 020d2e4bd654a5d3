import EbbrtContrib.MPTestFrame

namespace EbbrtContrib.MPTestResults

open CyclicBarrier MPTest MPTestCall MPTestFrame Runs

variable {s t : State} {n k i : Nat} {r : Result} {results : Nat → Result}
  {ok : State → Event → Prop}

/-- No step of the latest call is left that would change anything. -/
def Quiescent (n : Nat) (s : State) : Prop := ∀ e t, InCall s e → step n s e = some t → t = s

/-- The context was activated once, `MPTest` has returned, and what it printed is what the
workers of this call measured. -/
structure Completed (n : Nat) (s : State) : Prop where
  returned : s.caller = .outside
  activated : s.activations = 1
  printed : s.printed.map some = (List.range n).map (s.measured s.call)
  checked : s.checked = true

/-- The states of a call, with the steps of the earlier ones all meeting `ok`. -/
def LastCall (ok : State → Event → Prop) (n : Nat) (results : Nat → Result) (s : State) : Prop :=
  ∃ t site u, Reaches (step n) ok (.init results) t ∧ step n t (.call site) = some u ∧
    Reaches (step n) InCall u s

/-- In every run in which the steps of the earlier calls all meet `ok`, a call of `MPTest` with `n`
workers that has come to rest is complete. -/
def Completes (ok : State → Event → Prop) (n : Nat) : Prop :=
  ∀ results s, LastCall ok n results s → Quiescent n s → Completed n s

theorem step_call {e : Event} (he : InCall s e) (hs : Step n s e t) : t.call = s.call := by
  cases hs with
  | call site => exact he.elim
  | spawn | save | resume => rfl
  | worker k i r t hw => exact worker_call hw

theorem callInv_of_lastCall (h : LastCall (LoopsLeft n) n results s) : CallInv n s := by
  obtain ⟨t, site, u, hr, hcall, hreach⟩ := h
  obtain ⟨hc, hu⟩ := Option.ite_none_right_eq_some.mp hcall
  cases hu
  exact hreach.invariant ((idle_of_reaches hr hc).enter site)
    fun _ _ _ hi he hs => hi.step he (step_cases hs)

/-- A worker whose step takes it to another place is not at rest. -/
theorem Quiescent.not_moved (h : Quiescent n s) {p : Pc} (hs : worker n s k i r = some t)
    (hp : t.pc k i = p) (hne : s.pc k i ≠ p) : False := by
  have ht := h (.worker k i r) t trivial hs
  rw [ht] at hp
  exact hne hp

theorem Quiescent.caller (h : Quiescent n s) {e : Event} (he : InCall s e)
    (hs : step n s e = some t) : t.caller = s.caller := by
  rw [h e t he hs]

section AtRest

variable (h : CallInv n s) (hq : Quiescent n s)

include h hq

/-- At rest no worker of an earlier call is left. -/
theorem old_finished (k : Nat) (hk : k ≠ s.call) :
    s.pc k i = .unspawned ∨ s.pc k i = .finished := by
  obtain hp | hp | ⟨hp, hi⟩ := h.old k i hk
  · exact .inl hp
  · exact .inr hp
  · exfalso
    apply hq.not_moved (k := k) (i := i) (r := ⟨0, 0⟩) (p := .finished)
    · simp only [worker, hp, if_neg hi]
      rfl
    · simp
    · simp [hp]

/-- At rest, with the caller blocked, a worker is in the barrier, in its loop or done. -/
theorem rank_at_rest (hc : s.caller = .saved) (hi : i < n) :
    ranks s i = 2 ∨ ranks s i = 5 ∨ ranks s i = 8 ∨ ranks s i = 10 := by
  obtain ⟨base, bar, hbar, -, -⟩ := h.barrier
  have hmove : ∀ t p, worker n s s.call i ⟨0, 0⟩ = some t → t.pc s.call i = p →
      s.pc s.call i ≠ p → ranks s i = 2 ∨ ranks s i = 5 ∨ ranks s i = 8 ∨ ranks s i = 10 :=
    fun t p hs hp hne => (hq.not_moved hs hp hne).elim
  cases hp : s.pc s.call i with
  | unspawned =>
    have hcaller := h.caller
    rw [CallerInv, hc] at hcaller
    have hpos := hcaller.1 i hi
    rw [ranks, hp, rank] at hpos
    omega
  | queued =>
    have hstart : s.MayStart s.call i :=
      ⟨fun j hj => old_finished h hq j (by omega), fun _ => hc⟩
    apply hmove _ (.waiting bar.generation)
    · simp only [worker, hp, if_pos hstart, hbar]
      rfl
    · simp
    · simp [hp]
  | waiting g => exact .inl (by rw [ranks, hp, rank])
  | working =>
    apply hmove _ (.timed ⟨0, 0⟩)
    · simp only [worker, hp]
      rfl
    · exact (goto_pc _ _ _ _ _ _).trans (if_pos ⟨rfl, rfl⟩)
    · simp [hp]
  | timed r =>
    apply hmove _ (.waitingAgain bar.generation r)
    · simp only [worker, hp, hbar]
      rfl
    · simp
    · simp [hp]
  | waitingAgain g r => exact .inr (.inl (by rw [ranks, hp, rank]))
  | writing r =>
    apply hmove _ .counting
    · simp only [worker, hp]
      rfl
    · exact (goto_pc _ _ _ _ _ _).trans (if_pos ⟨rfl, rfl⟩)
    · simp [hp]
  | counting =>
    apply hmove _ .spinning
    · simp only [worker, hp]
      rfl
    · exact (goto_pc _ _ _ _ _ _).trans (if_pos ⟨rfl, rfl⟩)
    · simp [hp]
  | spinning => exact .inr (.inr (.inl (by rw [ranks, hp, rank])))
  | leaving =>
    by_cases hi0 : i = 0
    · apply hmove _ .finished
      · simp only [worker, hp, if_pos hi0]
        rfl
      · exact (goto_pc _ _ _ _ _ _).trans (if_pos ⟨rfl, rfl⟩)
      · simp [hp]
    · apply hmove _ .finished
      · simp only [worker, hp, if_neg hi0]
        rfl
      · simp
      · simp [hp]
  | finished => exact .inr (.inr (.inr (by rw [ranks, hp, rank])))

/-- With all workers in their loops the counter is full, and the loops end. -/
theorem not_spinning (hall : ∀ j < n, 8 ≤ ranks s j) (hr : ranks s i = 8) : False := by
  have hp : s.pc s.call i = .spinning := by
    rw [ranks] at hr
    cases hp : s.pc s.call i <;> simp [hp, rank] at hr ⊢
  have hcount : ¬ s.count < n := by
    rw [h.counted, tally_eq_iff.mpr hall]
    exact lt_irrefl n
  apply hq.not_moved (k := s.call) (i := i) (r := ⟨0, 0⟩) (p := .leaving)
  · simp only [worker, hp, if_neg hcount]
    rfl
  · exact (goto_pc _ _ _ _ _ _).trans (if_pos ⟨rfl, rfl⟩)
  · simp [hp]

theorem not_waiting (hall : ∀ j < n, 2 ≤ ranks s j) (hr : ranks s i = 2) : False := by
  obtain ⟨base, bar, hbar, hcross, hjoined⟩ := h.barrier
  have hopen := hcross.isOpen_first_iff.mpr (tally_eq_iff.mpr hall)
  have hj := hjoined i
  rw [ranks] at hr
  cases hp : s.pc s.call i with
  | waiting g =>
    rw [hp, MPTestCall.Joined] at hj
    subst hj
    apply hq.not_moved (k := s.call) (i := i) (r := ⟨0, 0⟩) (p := .working)
    · simp only [worker, hp, hbar, Option.bind_some, if_pos hopen]
      rfl
    · simp
    · simp [hp]
  | _ => simp [hp, rank] at hr

theorem not_waitingAgain (hall : ∀ j < n, 5 ≤ ranks s j) (hr : ranks s i = 5) : False := by
  obtain ⟨base, bar, hbar, hcross, hjoined⟩ := h.barrier
  have hfirst : tally (ranks s) n 2 = n := by
    apply tally_eq_iff.mpr
    intro j hj
    have := hall j hj
    omega
  have hopen := (hcross.isOpen_second_iff hfirst).mpr (tally_eq_iff.mpr hall)
  have hj := hjoined i
  rw [ranks] at hr
  cases hp : s.pc s.call i with
  | waitingAgain g r =>
    rw [hp, MPTestCall.Joined] at hj
    subst hj
    apply hq.not_moved (k := s.call) (i := i) (r := ⟨0, 0⟩) (p := .writing r)
    · simp only [worker, hp, hbar, Option.bind_some, if_pos hopen]
      rfl
    · simp
    · simp [hp]
  | _ => simp [hp, rank] at hr

/-- The caller does not stay blocked: its own worker runs to the end. -/
theorem not_saved (hn : 0 < n) : s.caller ≠ .saved := by
  intro hc
  have hrest := fun j hj => rank_at_rest h hq (i := j) hc hj
  have h2 : ∀ j < n, 2 ≤ ranks s j := by
    intro j hj
    have := hrest j hj
    omega
  have h5 : ∀ j < n, 5 ≤ ranks s j := by
    intro j hj
    have := hrest j hj
    have hne : ranks s j ≠ 2 := not_waiting h hq h2
    omega
  have h8 : ∀ j < n, 8 ≤ ranks s j := by
    intro j hj
    have := hrest j hj
    have := h5 j hj
    have hne : ranks s j ≠ 5 := not_waitingAgain h hq h5
    omega
  have hne : ranks s 0 ≠ 8 := not_spinning h hq h8
  have hle := h8 0 hn
  have hcaller := h.caller
  rw [CallerInv, hc] at hcaller
  have := hrest 0 hn
  omega

theorem completed (hn : 0 < n) : Completed n s := by
  cases hc : s.caller with
  | spawning m =>
    exfalso
    by_cases hm : m < n
    · have ht := hq.caller (e := .spawn) trivial (by simp only [step, hc, if_pos hm]; rfl)
      simp [hc] at ht
    · have ht := hq.caller (e := .save) trivial (by simp only [step, hc, if_neg hm]; rfl)
      simp [hc] at ht
  | saved => exact absurd hc (not_saved h hq hn)
  | activated =>
    exfalso
    have ht := hq.caller (e := .resume) trivial (by simp only [step, if_pos hc]; rfl)
    simp [hc, leave] at ht
  | outside =>
    have hcaller := h.caller
    rw [CallerInv, hc] at hcaller
    exact ⟨hc, hcaller.2.1, hcaller.2.2.2, hcaller.2.2.1⟩

end AtRest

theorem completes_of_pos (hn : 0 < n) : Completes (LoopsLeft n) n := by
  intro results s h hq
  exact completed (callInv_of_lastCall h) hq hn

/-- The caller of a first call without workers, blocked in `SaveContext`. -/
def blocked : State := { enter 0 (.init fun _ => ⟨0, 0⟩) 0 with caller := .saved }

theorem blocked_quiescent : Quiescent 0 blocked := by
  intro e t he hs
  cases e with
  | call site => exact he.elim
  | spawn => cases hs
  | save => cases hs
  | resume => cases hs
  | worker k i r => cases hs

/-- Without workers nobody ever wakes the caller up. -/
theorem not_completes_zero : ¬ Completes ok 0 := by
  intro hall
  have hsaved : Reaches (step 0) InCall (enter 0 (.init fun _ => ⟨0, 0⟩) 0) blocked :=
    Reaches.refl.tail (e := .save) trivial rfl
  cases (hall _ _ ⟨_, 0, _, .refl, rfl, hsaved⟩ blocked_quiescent).returned

theorem workers_eq_zero_iff {count : Nat} (hcount : 1 ≤ count) (p : BitVec 32) :
    workers count p = 0 ↔ p = 0 := by
  have hneg : ¬ p.signExtend 64 < 0#64 := BitVec.not_lt_zero
  have hzero : p.signExtend 64 = 0 ↔ p = 0 := by
    rw [← BitVec.toInt_inj, BitVec.toInt_signExtend_of_le (by decide), ← BitVec.toInt_inj]
    rfl
  rw [← hzero, ← BitVec.toNat_inj, workers, clamp, if_neg hneg]
  change _ ↔ _ = 0
  split <;> omega

/-- `MPTest` completes for every argument of `-P` but `0`, which `n<0` was meant to catch. -/
theorem completes_iff {count : Nat} (hcount : 1 ≤ count) (p : BitVec 32) :
    Completes (LoopsLeft (workers count p)) (workers count p) ↔ p ≠ 0 := by
  rw [ne_eq, ← workers_eq_zero_iff hcount p]
  constructor
  · intro h hz
    rw [hz] at h
    exact not_completes_zero h
  · intro hne
    exact completes_of_pos (Nat.pos_of_ne_zero hne)

/-- `-P -1` asks for all cores. -/
theorem completes_minus_one : 1 ≤ 4 ∧ workers 4 (-1) = 4 ∧
    Completes (LoopsLeft (workers 4 (-1))) (workers 4 (-1)) :=
  ⟨by decide, by decide, (completes_iff (by decide) (-1)).mpr (by decide)⟩

/-- With `-P 0` the caller saves its context and stays there. -/
theorem no_workers_stuck : workers 4 0 = 0 ∧
    run (step 0) (.init fun _ => ⟨0, 0⟩) [.call 0, .save] = some blocked ∧
    Quiescent 0 blocked ∧ blocked.caller = .saved ∧ blocked.activations = 0 ∧
    ¬ ∀ count p, 1 ≤ count → Completes (fun _ _ => True) (workers count p) := by
  have hzero : workers 4 0 = 0 := by decide
  refine ⟨hzero, rfl, blocked_quiescent, rfl, rfl, ?_⟩
  intro hall
  have h := hall 4 0 (by decide)
  rw [hzero] at h
  exact not_completes_zero h

end EbbrtContrib.MPTestResults
