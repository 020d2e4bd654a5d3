import Mathlib.Logic.Basic

namespace EbbrtContrib.Runs

variable {σ ε : Type*} {step : σ → ε → Option σ} {ok : σ → ε → Prop} {s t u : σ}

/-- Replay a list of events; `none` as soon as an event cannot happen. -/
def run (step : σ → ε → Option σ) : σ → List ε → Option σ
  | s, [] => some s
  | s, e :: es => (step s e).bind fun t => run step t es

/-- The states reached from `s` by steps that all meet `ok` in the state they start from. -/
inductive Reaches (step : σ → ε → Option σ) (ok : σ → ε → Prop) (s : σ) : σ → Prop
  | refl : Reaches step ok s s
  | tail {t u : σ} {e : ε} : Reaches step ok s t → ok t e → step t e = some u → Reaches step ok s u

/-- The states reached by any run. -/
abbrev Reachable (step : σ → ε → Option σ) (s : σ) : σ → Prop :=
  Reaches step (fun _ _ => True) s

theorem Reaches.trans (h : Reaches step ok s t) (h' : Reaches step ok t u) :
    Reaches step ok s u := by
  induction h' with
  | refl => exact h
  | tail _ hg hs ih => exact .tail ih hg hs

/-- What holds at the start and is kept by every guarded step holds in every state reached. -/
theorem Reaches.invariant {I : σ → Prop} (h : Reaches step ok s t) (h0 : I s)
    (hstep : ∀ s e t, I s → ok s e → step s e = some t → I t) : I t := by
  induction h with
  | refl => exact h0
  | tail _ hg hs ih => exact hstep _ _ _ ih hg hs

theorem Reaches.head_cases (h : Reaches step ok s u) :
    s = u ∨ ∃ e t, ok s e ∧ step s e = some t ∧ Reaches step ok t u := by
  induction h with
  | refl => exact .inl rfl
  | tail _ hg hs ih =>
    obtain rfl | ⟨e, t, hok, ht, hreach⟩ := ih
    · exact .inr ⟨_, _, hg, hs, .refl⟩
    · exact .inr ⟨e, t, hok, ht, hreach.tail hg hs⟩

/-- A program without a choice gets from each of its states to the state it stops in. -/
theorem reachable_of_deterministic {step : σ → Unit → Option σ} (h : Reachable step s t)
    (hu : Reachable step s u) (hstop : step u () = none) : Reachable step t u := by
  induction h with
  | refl => exact hu
  | tail _ _ hs ih =>
    obtain rfl | ⟨_, t, -, ht, hreach⟩ := ih.head_cases
    · rw [hstop] at hs
      cases hs
    · obtain rfl := Option.some.inj (hs.symm.trans ht)
      exact hreach

/-- When every step that changes the state raises a bounded measure, the system can come to
rest. -/
theorem exists_at_rest {I : σ → Prop} (measure : σ → Nat) {bound : Nat} (h : I s)
    (hbound : ∀ s, I s → measure s ≤ bound)
    (hstep : ∀ s e t, I s → ok s e → step s e = some t → I t ∧ (t = s ∨ measure s < measure t)) :
    ∃ t, Reaches step ok s t ∧ I t ∧ ∀ e u, ok t e → step t e = some u → u = t := by
  induction hm : bound - measure s using Nat.strongRecOn generalizing s with
  | _ m ih =>
    by_cases hrest : ∀ e u, ok s e → step s e = some u → u = s
    · exact ⟨s, .refl, h, hrest⟩
    · simp only [not_forall] at hrest
      obtain ⟨e, t, hok, hs, hne⟩ := hrest
      obtain ⟨ht, hraise⟩ := hstep s e t h hok hs
      have hlt := hraise.resolve_left hne
      have hle := hbound t ht
      obtain ⟨u, hu, hrest⟩ := ih (bound - measure t) (by omega) ht rfl
      exact ⟨u, (Reaches.refl.tail hok hs).trans hu, hrest⟩

/-- The steps of a run that lower a measure are paid for by the measure that it starts with, and by
the credit that its other steps give. -/
theorem countP_add_le_of_run {I : σ → Prop} (measure credit : σ → Nat) (counts : ε → Bool)
    (hstep : ∀ s e t, I s → step s e = some t →
      I t ∧ measure t + credit s + (if counts e then 1 else 0) ≤ measure s + credit t)
    {es : List ε} (hrun : run step s es = some t) (h : I s) :
    I t ∧ es.countP counts + measure t + credit s ≤ measure s + credit t := by
  induction es generalizing s with
  | nil =>
    simp only [run, Option.some.injEq] at hrun
    subst hrun
    exact ⟨h, by simp⟩
  | cons e es ih =>
    simp only [run, Option.bind_eq_some_iff] at hrun
    obtain ⟨m, hm, ht⟩ := hrun
    obtain ⟨him, hlower⟩ := hstep s e m h hm
    obtain ⟨hit, hcount⟩ := ih ht him
    rw [List.countP_cons]
    exact ⟨hit, by omega⟩

/-- A run makes no more of the steps that lower a measure than the measure it starts with. -/
theorem countP_le_of_run {I : σ → Prop} (measure : σ → Nat) (counts : ε → Bool)
    (hstep : ∀ s e t, I s → step s e = some t →
      I t ∧ measure t + (if counts e then 1 else 0) ≤ measure s)
    {es : List ε} (hrun : run step s es = some t) (h : I s) :
    I t ∧ es.countP counts + measure t ≤ measure s :=
  countP_add_le_of_run measure (fun _ => 0) counts hstep hrun h

theorem run_append {es es' : List ε} (h : run step s es = some t) (h' : run step t es' = some u) :
    run step s (es ++ es') = some u := by
  induction es generalizing s with
  | nil =>
    cases h
    exact h'
  | cons e es ih =>
    obtain ⟨m, hm, hrest⟩ := Option.bind_eq_some_iff.mp h
    rw [List.cons_append, run, hm, Option.bind_some, ih hrest]

theorem reachable_of_run {l : List ε} (h : run step s l = some t) : Reachable step s t := by
  induction l generalizing s with
  | nil =>
    simp only [run, Option.some.injEq] at h
    subst h
    exact .refl
  | cons e es ih =>
    simp only [run, Option.bind_eq_some_iff] at h
    obtain ⟨m, hm, ht⟩ := h
    exact (Reaches.refl.tail trivial hm).trans (ih ht)

/-- The events that meet `ok` in the state they happen in. -/
def guarded (step : σ → ε → Option σ) (ok : σ → ε → Prop) [∀ s e, Decidable (ok s e)] (s : σ)
    (e : ε) : Option σ :=
  if ok s e then step s e else none

theorem reaches_of_run [∀ s e, Decidable (ok s e)] {es : List ε}
    (h : run (guarded step ok) s es = some t) : Reaches step ok s t := by
  induction es generalizing s with
  | nil =>
    simp only [run, Option.some.injEq] at h
    subst h
    exact .refl
  | cons e es ih =>
    simp only [run, guarded, Option.bind_eq_some_iff, Option.ite_none_right_eq_some] at h
    obtain ⟨m, ⟨hg, hm⟩, ht⟩ := h
    exact (Reaches.refl.tail hg hm).trans (ih ht)

theorem reaches_get [∀ s e, Decidable (ok s e)] {es : List ε}
    (h : (run (guarded step ok) s es).isSome) :
    Reaches step ok s ((run (guarded step ok) s es).get h) :=
  reaches_of_run (Option.some_get h).symm

end EbbrtContrib.Runs
