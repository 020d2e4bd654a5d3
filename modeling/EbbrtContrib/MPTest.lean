import Mathlib.Data.BitVec
import Mathlib.Logic.Function.Basic
import EbbrtContrib.CyclicBarrier
import EbbrtContrib.Runs

namespace EbbrtContrib.MPTest

open CyclicBarrier Runs

/-- What a worker stores in `MPResults`. -/
structure Result where
  time : BitVec 64
  rc : BitVec 32
  deriving DecidableEq, Repr

/-- `if (n<0) n=1; else if (n>Cpu::Count()) n=Cpu::Count();` on a `size_t`. -/
def clamp (count : Nat) (n : BitVec 64) : Nat :=
  if n < 0#64 then 1 else if count < n.toNat then count else n.toNat

/-- The number of workers after `-P p`. -/
def workers (count : Nat) (p : BitVec 32) : Nat := clamp count (p.signExtend 64)

/-- Where the event that runs `MPTest` is: not in a call, about to spawn worker `i`, blocked
in `SaveContext`, or put back on its CPU by `ActivateContext`. -/
inductive Caller
  | outside
  | spawning (i : Nat)
  | saved
  | activated
  deriving DecidableEq, Repr

/-- The next step of a worker. -/
inductive Pc
  | unspawned
  | queued
  | waiting (g : Nat)
  | working
  | timed (r : Result)
  | waitingAgain (g : Nat) (r : Result)
  | writing (r : Result)
  | counting
  | spinning
  | leaving
  | finished
  deriving DecidableEq, Repr

/-- Calls are numbered from one. `site` tells which instance of the template a call runs,
and `bars` holds the static barrier of each instance once its first call has built it. The
frame of `MPTest` is `count` and the lifetime that `caller` tells. `measured` and `stale`
record what each worker measured and whether a dead frame was ever read. -/
structure State where
  caller : Caller
  call : Nat
  site : Nat → Nat
  bars : Nat → Option Barrier
  count : Nat
  pc : Nat → Nat → Pc
  results : Nat → Result
  printed : List Result
  checked : Bool
  activations : Nat
  measured : Nat → Nat → Option Result
  stale : Bool

def State.init (results : Nat → Result) : State where
  caller := .outside
  call := 0
  site := fun _ => 0
  bars := fun _ => none
  count := 0
  pc := fun _ _ => .unspawned
  results := results
  printed := []
  checked := false
  activations := 0
  measured := fun _ _ => none
  stale := false

/-- Whether call `k` has not returned. -/
def State.Live (s : State) (k : Nat) : Prop := k = s.call ∧ s.caller ≠ .outside

instance (s : State) (k : Nat) : Decidable (s.Live k) := inferInstanceAs (Decidable (_ ∧ _))

/-- A step that goes through a reference to the frame of call `k`. -/
def State.touch (s : State) (k : Nat) : State :=
  { s with stale := s.stale || !decide (s.Live k) }

def State.goto (s : State) (k i : Nat) (p : Pc) : State :=
  { s with pc := Function.update s.pc k (Function.update (s.pc k) i p) }

def State.arrive (s : State) (k : Nat) (bar : Barrier) : State :=
  { s with bars := Function.update s.bars (s.site k) (some bar.enter) }

/-- Events run to completion in order: worker `i` of call `k` begins when its CPU has no
earlier worker, and CPU 0 is also that of the caller. -/
def State.MayStart (s : State) (k i : Nat) : Prop :=
  (∀ j < k, s.pc j i = .unspawned ∨ s.pc j i = .finished) ∧ (i = 0 → s.caller = .saved)

instance (s : State) (k i : Nat) : Decidable (s.MayStart k i) :=
  inferInstanceAs (Decidable (_ ∧ _))

/-- One step of worker `i` of call `k`. The `r` is what the clock and `work` yield when the
step is the one that runs `work`. -/
def worker (n : Nat) (s : State) (k i : Nat) (r : Result) : Option State :=
  match s.pc k i with
  | .unspawned => none
  | .queued =>
    if s.MayStart k i then
      (s.bars (s.site k)).map fun bar => (s.arrive k bar).goto k i (.waiting bar.generation)
    else none
  | .waiting g => (s.bars (s.site k)).bind fun bar =>
    if bar.IsOpen g then some (s.goto k i .working) else none
  | .working =>
    some { (s.touch k).goto k i (.timed r) with
      measured := Function.update s.measured k (Function.update (s.measured k) i (some r)) }
  | .timed r => (s.bars (s.site k)).map fun bar =>
    (s.arrive k bar).goto k i (.waitingAgain bar.generation r)
  | .waitingAgain g r => (s.bars (s.site k)).bind fun bar =>
    if bar.IsOpen g then some (s.goto k i (.writing r)) else none
  | .writing r => some { s.goto k i .counting with results := Function.update s.results i r }
  | .counting => some { (s.touch k).goto k i .spinning with count := s.count + 1 }
  | .spinning => if s.count < n then some (s.touch k) else some ((s.touch k).goto k i .leaving)
  | .leaving =>
    if i = 0 then
      some { (s.touch k).goto k i .finished with
        caller := .activated, activations := s.activations + 1 }
    else some (s.goto k i .finished)
  | .finished => none

/-- The entry of `MPTest` up to its first `SpawnRemote`. -/
def enter (n : Nat) (s : State) (site : Nat) : State :=
  { s with
    caller := .spawning 0
    call := s.call + 1
    site := Function.update s.site (s.call + 1) site
    bars := Function.update s.bars site (some ((s.bars site).getD (.new n)))
    count := 0
    activations := 0 }

/-- From the return of `SaveContext` to the end of `MPTest`. -/
def leave (n : Nat) (s : State) : State :=
  { s with
    caller := .outside
    printed := (List.range n).map s.results
    checked := n == s.count }

inductive Event
  | call (site : Nat)
  | spawn
  | save
  | resume
  | worker (k i : Nat) (r : Result)
  deriving DecidableEq, Repr

def step (n : Nat) (s : State) : Event → Option State
  | .call site => if s.caller = .outside then some (enter n s site) else none
  | .spawn =>
    match s.caller with
    | .spawning i =>
      if i < n then some { s.goto s.call i .queued with caller := .spawning (i + 1) } else none
    | _ => none
  | .save =>
    match s.caller with
    | .spawning i => if i < n then none else some { s with caller := .saved }
    | _ => none
  | .resume => if s.caller = .activated then some (leave n s) else none
  | .worker k i r => worker n s k i r

variable {s t : State} {n k i : Nat} {r : Result}

@[simp] theorem goto_pc (s : State) (k i : Nat) (p : Pc) (k' i' : Nat) :
    (s.goto k i p).pc k' i' = if k' = k ∧ i' = i then p else s.pc k' i' := by
  unfold State.goto
  by_cases hk : k' = k
  · subst hk
    simp [Function.update_apply]
  · simp [hk]

/-- Everything a step of a worker can do, as a relation. -/
inductive WorkerStep (n : Nat) (s : State) (k i : Nat) (r : Result) : State → Prop
  | start (bar : Barrier) : s.pc k i = .queued → s.MayStart k i → s.bars (s.site k) = some bar →
      WorkerStep n s k i r ((s.arrive k bar).goto k i (.waiting bar.generation))
  | pass (g : Nat) (bar : Barrier) : s.pc k i = .waiting g → s.bars (s.site k) = some bar →
      bar.IsOpen g → WorkerStep n s k i r (s.goto k i .working)
  | work : s.pc k i = .working →
      WorkerStep n s k i r { (s.touch k).goto k i (.timed r) with
        measured := Function.update s.measured k (Function.update (s.measured k) i (some r)) }
  | arrive (m : Result) (bar : Barrier) : s.pc k i = .timed m → s.bars (s.site k) = some bar →
      WorkerStep n s k i r ((s.arrive k bar).goto k i (.waitingAgain bar.generation m))
  | passAgain (g : Nat) (m : Result) (bar : Barrier) : s.pc k i = .waitingAgain g m →
      s.bars (s.site k) = some bar → bar.IsOpen g →
      WorkerStep n s k i r (s.goto k i (.writing m))
  | write (m : Result) : s.pc k i = .writing m →
      WorkerStep n s k i r
        { s.goto k i .counting with results := Function.update s.results i m }
  | count : s.pc k i = .counting →
      WorkerStep n s k i r { (s.touch k).goto k i .spinning with count := s.count + 1 }
  | spin : s.pc k i = .spinning → s.count < n → WorkerStep n s k i r (s.touch k)
  | leave : s.pc k i = .spinning → n ≤ s.count →
      WorkerStep n s k i r ((s.touch k).goto k i .leaving)
  | activate : s.pc k i = .leaving → i = 0 →
      WorkerStep n s k i r { (s.touch k).goto k i .finished with
        caller := .activated, activations := s.activations + 1 }
  | finish : s.pc k i = .leaving → i ≠ 0 → WorkerStep n s k i r (s.goto k i .finished)

theorem worker_cases (h : worker n s k i r = some t) : WorkerStep n s k i r t := by
  unfold worker at h
  cases hp : s.pc k i with
  | unspawned => simp [hp] at h
  | queued =>
    rw [hp] at h
    obtain ⟨hm, bar, hb, rfl⟩ : s.MayStart k i ∧ ∃ bar, s.bars (s.site k) = some bar ∧
        (s.arrive k bar).goto k i (.waiting bar.generation) = t := by simpa using h
    exact .start bar hp hm hb
  | waiting g =>
    rw [hp] at h
    obtain ⟨bar, hb, ho, rfl⟩ : ∃ bar, s.bars (s.site k) = some bar ∧ bar.IsOpen g ∧
        s.goto k i .working = t := by simpa [Option.bind_eq_some_iff] using h
    exact .pass g bar hp hb ho
  | working =>
    rw [hp, Option.some.injEq] at h
    exact h ▸ .work hp
  | timed m =>
    rw [hp] at h
    obtain ⟨bar, hb, rfl⟩ := Option.map_eq_some_iff.mp h
    exact .arrive m bar hp hb
  | waitingAgain g m =>
    rw [hp] at h
    obtain ⟨bar, hb, ho, rfl⟩ : ∃ bar, s.bars (s.site k) = some bar ∧ bar.IsOpen g ∧
        s.goto k i (.writing m) = t := by simpa [Option.bind_eq_some_iff] using h
    exact .passAgain g m bar hp hb ho
  | writing m =>
    rw [hp, Option.some.injEq] at h
    exact h ▸ .write m hp
  | counting =>
    rw [hp, Option.some.injEq] at h
    exact h ▸ .count hp
  | spinning =>
    rw [hp] at h
    by_cases hc : s.count < n
    · simp only [hc, if_true, Option.some.injEq] at h
      exact h ▸ .spin hp hc
    · simp only [hc, if_false, Option.some.injEq] at h
      exact h ▸ .leave hp (by omega)
  | leaving =>
    rw [hp] at h
    by_cases hi : i = 0
    · simp only [hi, if_true, Option.some.injEq] at h
      subst hi
      exact h ▸ .activate hp rfl
    · simp only [hi, if_false, Option.some.injEq] at h
      exact h ▸ .finish hp hi
  | finished => simp [hp] at h

/-- Everything a step of the system can do, as a relation. -/
inductive Step (n : Nat) (s : State) : Event → State → Prop
  | call (site : Nat) : s.caller = .outside → Step n s (.call site) (enter n s site)
  | spawn (m : Nat) : s.caller = .spawning m → m < n →
      Step n s .spawn { s.goto s.call m .queued with caller := .spawning (m + 1) }
  | save (m : Nat) : s.caller = .spawning m → n ≤ m → Step n s .save { s with caller := .saved }
  | resume : s.caller = .activated → Step n s .resume (leave n s)
  | worker (k i : Nat) (r : Result) (t : State) : WorkerStep n s k i r t →
      Step n s (.worker k i r) t

theorem step_cases {e : Event} (h : step n s e = some t) : Step n s e t := by
  cases e with
  | call site =>
    obtain ⟨hc, ht⟩ := Option.ite_none_right_eq_some.mp h
    cases ht
    exact .call site hc
  | spawn =>
    cases hc : s.caller with
    | spawning m =>
      simp only [step, hc] at h
      obtain ⟨hm, ht⟩ := Option.ite_none_right_eq_some.mp h
      cases ht
      exact .spawn m hc hm
    | _ => simp [step, hc] at h
  | save =>
    cases hc : s.caller with
    | spawning m =>
      simp only [step, hc] at h
      obtain ⟨hm, ht⟩ := Option.ite_none_left_eq_some.mp h
      cases ht
      exact .save m hc (not_lt.mp hm)
    | _ => simp [step, hc] at h
  | resume =>
    obtain ⟨hc, ht⟩ := Option.ite_none_right_eq_some.mp h
    cases ht
    exact .resume hc
  | worker k i r => exact .worker k i r t (worker_cases h)

end EbbrtContrib.MPTest
