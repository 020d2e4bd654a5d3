import EbbrtContrib.MPTestCall

namespace EbbrtContrib.MPTestFrame

open CyclicBarrier MPTest MPTestCall Runs

variable {s t : State} {n k i : Nat} {r : Result} {results : Nat → Result}

/-- No dead frame was ever used, and every worker that still spins does so on the counter of
the call in progress. -/
def FrameSafe (s : State) : Prop := s.stale = false ∧ ∀ k i, s.pc k i = .spinning → s.Live k

/-- `MPTest` goes on behind `SaveContext` only when no worker is between its `count++` and
its last read of `count`. -/
def LoopsLeft (n : Nat) (s : State) : Event → Prop
  | .resume => ∀ i < n, s.pc s.call i ≠ .spinning
  | _ => True

instance (n : Nat) (s : State) : (e : Event) → Decidable (LoopsLeft n s e)
  | .resume => inferInstanceAs (Decidable (∀ i < n, s.pc s.call i ≠ .spinning))
  | .call _ => inferInstanceAs (Decidable True)
  | .spawn => inferInstanceAs (Decidable True)
  | .save => inferInstanceAs (Decidable True)
  | .worker _ _ _ => inferInstanceAs (Decidable True)

theorem touch_stale (hl : s.Live k) : (s.touch k).stale = s.stale := by
  simp [State.touch, hl]

theorem worker_stale (hs : WorkerStep n s k i r t) (hl : s.Live k) : t.stale = s.stale := by
  cases hs with
  | start | pass | arrive | passAgain | write | finish => rfl
  | work | count | spin | leave | activate => exact touch_stale hl

theorem worker_call (hs : WorkerStep n s k i r t) : t.call = s.call := by
  cases hs <;> rfl

theorem worker_caller (hs : WorkerStep n s k i r t) :
    t.caller = s.caller ∨ t.caller = .activated := by
  cases hs with
  | activate => exact .inr rfl
  | _ => exact .inl rfl

theorem worker_other (hs : WorkerStep n s k i r t) {k' i' : Nat} (hne : ¬ (k' = k ∧ i' = i)) :
    t.pc k' i' = s.pc k' i' := by
  have hgoto : ∀ p, (s.goto k i p).pc k' i' = s.pc k' i' := by
    intro p
    rw [goto_pc, if_neg hne]
  cases hs with
  | spin => rfl
  | _ => exact hgoto _

/-- The state of a run: a call in progress keeps its invariant, and in between all workers
have left. -/
structure FrameInv (n : Nat) (s : State) : Prop where
  fresh : s.stale = false
  future : ∀ k i, s.call < k → s.pc k i = .unspawned
  outside : s.caller = .outside → Idle n s
  inside : s.caller ≠ .outside → CallInv n s

namespace FrameInv

theorem init (n : Nat) (results : Nat → Result) : FrameInv n (.init results) where
  fresh := rfl
  future := fun _ _ _ => rfl
  outside := fun _ => idle_init n results
  inside := fun hc => absurd rfl hc

/-- When the caller goes on and nobody spins any more, all workers have left. -/
theorem idle_of_resume (h : FrameInv n s) (hc : s.caller = .activated)
    (hg : ∀ i < n, s.pc s.call i ≠ .spinning) : Idle n (leave n s) := by
  have hinv := h.inside (by rw [hc]; decide)
  obtain ⟨hall, -, hzero⟩ := hinv.counted_of_activated hc
  constructor
  · rfl
  · intro k i
    by_cases hk : k = s.call
    · subst hk
      by_cases hi : i < n
      · have hr := tally_eq_iff.mp hall i hi
        have hne := hg i hi
        rw [ranks] at hr
        show Left i (s.pc s.call i)
        cases hp : s.pc s.call i with
        | leaving =>
          right
          right
          refine ⟨rfl, ?_⟩
          intro hi0
          rw [← hi0, ranks, hp, rank] at hzero
          omega
        | finished => exact .inr (.inl rfl)
        | spinning => exact absurd hp hne
        | _ =>
          rw [hp, rank] at hr
          omega
      · exact .inl (hinv.beyond i (by omega))
    · exact hinv.old k i hk
  · exact h.future
  · intro site bar hb
    by_cases hsite : site = s.site s.call
    · obtain ⟨base, bar', hb', hcross, -⟩ := hinv.barrier
      subst hsite
      rw [show s.bars (s.site s.call) = some bar from hb, Option.some.injEq] at hb'
      subst hb'
      exact ⟨hcross.size, hcross.dvd_arrivals (tally_full_of_le (by decide) hall)⟩
    · exact hinv.others site bar hsite hb

/-- Between two calls the only step of a worker is the end of its event. -/
theorem idle_worker (h : Idle n s) (hs : WorkerStep n s k i r t) : Idle n t := by
  obtain ⟨hp, hi, rfl⟩ := CallInv.old_cases hs (h.workers k i)
  constructor
  · exact h.caller
  · intro k' i'
    rw [goto_pc]
    split
    · exact .inr (.inl rfl)
    · exact h.workers k' i'
  · intro k' i' hk'
    have hfresh := h.fresh k' i' hk'
    rw [goto_pc, if_neg]
    · exact hfresh
    · rintro ⟨rfl, rfl⟩
      rw [hp] at hfresh
      cases hfresh
  · exact h.bars

theorem worker (h : FrameInv n s) (hs : WorkerStep n s k i r t) : FrameInv n t := by
  have hspawned : s.pc k i ≠ .unspawned := by
    intro hp
    cases hs <;> simp_all
  have hle : k ≤ s.call := by
    by_contra hk
    exact hspawned (h.future k i (by omega))
  have hfuture : ∀ k' i', t.call < k' → t.pc k' i' = .unspawned := by
    intro k' i' hk'
    rw [worker_call hs] at hk'
    rw [worker_other hs (by omega)]
    exact h.future k' i' hk'
  by_cases hc : s.caller = .outside
  · have hidle := h.outside hc
    obtain ⟨-, -, ht⟩ := CallInv.old_cases hs (hidle.workers k i)
    have hidle' := idle_worker hidle hs
    subst ht
    exact ⟨h.fresh, hfuture, fun _ => hidle', fun hc' => absurd hidle'.caller hc'⟩
  · have hinv := h.inside hc
    have hc' : t.caller ≠ .outside := by
      obtain he | he := worker_caller hs
      · rwa [he]
      · rw [he]
        decide
    have hinv' := hinv.step (e := .worker k i r) trivial (.worker k i r t hs)
    refine ⟨?_, hfuture, fun ho => absurd ho hc', fun _ => hinv'⟩
    by_cases hk : k = s.call
    · rw [worker_stale hs ⟨hk, hc⟩, h.fresh]
    · obtain ⟨-, -, ht⟩ := CallInv.old_cases hs (hinv.old k i hk)
      rw [ht]
      exact h.fresh

theorem step (h : FrameInv n s) {e : Event} (hg : LoopsLeft n s e) (hs : Step n s e t) :
    FrameInv n t := by
  cases hs with
  | call site hc =>
    refine ⟨h.fresh, ?_, ?_, fun _ => (h.outside hc).enter site⟩
    · intro k i hk
      exact h.future k i (by simp only [MPTest.enter] at hk; omega)
    · intro ho
      cases ho
  | spawn m hc hm =>
    have hinv := h.inside (by rw [hc]; simp)
    refine ⟨h.fresh, ?_, ?_, fun _ => hinv.spawn hc hm⟩
    · intro k i hk
      have hk' : s.call < k := hk
      show (s.goto s.call m .queued).pc k i = .unspawned
      rw [goto_pc, if_neg (by omega)]
      exact h.future k i hk'
    · intro ho
      cases ho
  | save m hc hm =>
    have hinv := h.inside (by rw [hc]; simp)
    refine ⟨h.fresh, h.future, ?_, fun _ => hinv.save hc hm⟩
    intro ho
    cases ho
  | resume hc =>
    exact ⟨h.fresh, h.future, fun _ => h.idle_of_resume hc hg, fun ho => absurd rfl ho⟩
  | worker k i r t hw => exact h.worker hw

end FrameInv

theorem reaches_frameInv (h : Reaches (step n) (LoopsLeft n) (.init results) s) :
    FrameInv n s :=
  h.invariant (.init n results) fun _ _ _ hinv hg hs => hinv.step hg (step_cases hs)

/-- Between two calls of such a run the next call finds everything at rest. -/
theorem idle_of_reaches (h : Reaches (step n) (LoopsLeft n) (.init results) s)
    (hc : s.caller = .outside) : Idle n s := (reaches_frameInv h).outside hc

/-- The frame of `MPTest` outlives all uses in every run in which the caller never goes on
while a worker still spins. -/
theorem frame_safe (h : Reaches (step n) (LoopsLeft n) (.init results) s) : FrameSafe s := by
  have hinv := reaches_frameInv h
  refine ⟨hinv.fresh, ?_⟩
  intro k i hp
  have hleft : ¬ Left i (s.pc k i) := by
    rw [hp]
    rintro (he | he | ⟨he, -⟩) <;> cases he
  have hc : s.caller ≠ .outside := fun hc => hleft ((hinv.outside hc).workers k i)
  refine ⟨?_, hc⟩
  by_contra hk
  exact hleft ((hinv.inside hc).old k i hk)

/-- Otherwise the next read of a spinning worker goes to the dead frame. -/
theorem early_resume_stale (hc : s.caller = .activated) (hi : s.pc s.call i = .spinning)
    (r : Result) : ∃ t u, step n s .resume = some t ∧ step n t (.worker s.call i r) = some u ∧
      u.stale = true := by
  have hstale : ((leave n s).touch s.call).stale = true := by
    simp [State.touch, State.Live, leave]
  have hworker : ∃ u, worker n (leave n s) s.call i r = some u ∧ u.stale = true := by
    unfold worker
    rw [show (leave n s).pc s.call i = .spinning from hi]
    dsimp only
    split
    · exact ⟨_, rfl, hstale⟩
    · exact ⟨_, rfl, hstale⟩
  obtain ⟨u, hu, hus⟩ := hworker
  exact ⟨leave n s, u, by rw [step, if_pos hc], hu, hus⟩

/-- A call with two workers that take turns for `m` rounds. -/
def turns (m : Nat) : List Event :=
  [.call 0, .spawn, .spawn, .save] ++
    (List.replicate m [Event.worker 1 0 ⟨0, 0⟩, .worker 1 1 ⟨0, 0⟩]).flatten

def start : State := .init fun _ => ⟨0, 0⟩

/-- Both workers leave their loops before the caller goes on to a second call. -/
def lateRelease : List Event := turns 8 ++ [.worker 1 0 ⟨0, 0⟩, .resume, .call 0]

/-- The worker on the caller's CPU is the first to see the final count, and the other one
reads the counter of the second call. -/
def earlyRelease : List Event :=
  turns 7 ++ [.worker 1 0 ⟨0, 0⟩, .worker 1 0 ⟨0, 0⟩, .resume, .call 0, .worker 1 1 ⟨0, 0⟩]

theorem lateRelease_runs : (run (guarded (step 2) (LoopsLeft 2)) start lateRelease).isSome := by
  decide

theorem lateRelease_safe :
    FrameSafe ((run (guarded (step 2) (LoopsLeft 2)) start lateRelease).get lateRelease_runs) :=
  frame_safe (reaches_get lateRelease_runs)

theorem earlyRelease_runs : (run (step 2) start earlyRelease).isSome := by decide

theorem earlyRelease_stale :
    let s := (run (step 2) start earlyRelease).get earlyRelease_runs
    s.stale = true ∧ s.call = 2 ∧ s.count = 0 ∧ s.pc 1 1 = .spinning ∧
      ¬ ∀ n, 1 ≤ n → ∀ results t, Reachable (step n) (.init results) t → FrameSafe t := by
  have hstale : ((run (step 2) start earlyRelease).get earlyRelease_runs).stale = true := by
    decide
  refine ⟨hstale, by decide, by decide, by decide, ?_⟩
  intro hall
  have hreach := reachable_of_run (Option.some_get earlyRelease_runs).symm
  have hsafe := hall 2 (by decide) _ _ hreach
  rw [hsafe.1] at hstale
  cases hstale

end EbbrtContrib.MPTestFrame
