import EbbrtContrib.CpuBringUp

namespace EbbrtContrib.CpuExit

open CpuBringUp Runs

/-- The thread of `main`, and those of the CPUs. -/
inductive Who
  | main
  | cpu (i : Nat)
  deriving DecidableEq, Repr

/-- Where a thread is in `Cpu::Shutdown`: at the test of `numCpus_`, at the
`compare_exchange_strong`, and at the `stop`. `val` is there when `Cpu::Exit(val)` has called it,
which is at `exit(val)` then, and in it. -/
inductive Stage
  | away
  | testing (val : Option Int)
  | swapping (val : Option Int)
  | stopping (val : Option Int)
  | exiting (val : Int)
  | exited
  deriving DecidableEq, Repr

/-- `up` is the bring-up of the CPUs, `shutdown` their `shutdown_`, and `stops` counts the calls of
`io_service_.stop()`, which are all for the first CPU; `fault` is one through a null pointer. That
CPU's thread has `left` `Cpu::run`, or gone `astray` at its end, and `interrupted` tells of its
handler for `SIGINT`. `asked` are the calls of `Cpu::Exit`, and `exits` those of `exit`. -/
structure State where
  up : CpuBringUp.State
  stage : Who → Stage
  shutdown : Bool
  stops : Nat
  fault : Bool
  left : Bool
  astray : Bool
  interrupted : Bool
  asked : List (Who × Int)
  exits : List (Who × Int)

def State.init : State :=
  ⟨.init, fun _ => .away, false, 0, false, false, false, false, [], []⟩

def State.goto (s : State) (w : Who) (p : Stage) : State :=
  { s with stage := Function.update s.stage w p }

/-- The return of `Cpu::Shutdown`. -/
def back : Option Int → Stage
  | none => .away
  | some val => .exiting val

/-- `Cpu::Shutdown`, and what follows it in `Cpu::Exit`. -/
def Cpu.shutdown (s : State) (w : Who) : Option State :=
  match s.stage w with
  | .away | .exited => none
  | .testing val => some (s.goto w (if 0 < s.up.numCpus then .swapping val else back val))
  | .swapping val =>
    if s.shutdown then some (s.goto w (back val))
    else some { s.goto w (.stopping val) with shutdown := true }
  | .stopping val =>
    match indexToCPU s.up 0 with
    | some _ => some { s.goto w (back val) with stops := s.stops + 1 }
    | none => some { s with fault := true }
  | .exiting val => some { s.goto w .exited with exits := s.exits ++ [(w, val)] }

/-- CPU `i` is in its event loop, between two events. -/
def Idle (s : State) (i : Nat) : Prop :=
  (s.up.pc i = .looping ∨ s.up.pc i = .finished) ∧ s.stage (.cpu i) = .away ∧
    (i = 0 → s.left = false)

instance (s : State) (i : Nat) : Decidable (Idle s i) :=
  inferInstanceAs (Decidable ((_ ∨ _) ∧ _ ∧ (_ → _)))

/-- `call` is an event on CPU `i` that calls `Cpu::Exit(val)`: the end of `AppMain`, or a
`kPROCESS_EXIT` message. On the first CPU, `ctxt_.Run` returns with `leave` or `stray`: it is the
last statement of `Cpu::run`, a `void *` function without a `return`, so that the thread ends there,
or anything may happen. `join` is the return of the `pthread_join` for that thread, behind which
`main` calls `Cpu::Exit(0)`. `SIGINT` is waited for once. -/
inductive Event
  | up (e : CpuBringUp.Event)
  | interrupt
  | call (i : Nat) (val : Int)
  | leave
  | stray
  | join
  | move (w : Who)
  deriving DecidableEq, Repr

variable (n : Nat)

/-- A thread that is in `Cpu::Shutdown` does nothing else, and the first one nothing more when it
has left its loop. -/
def free (s : State) : CpuBringUp.Event → Prop
  | .early => True
  | .thread i => s.stage (.cpu i) = .away ∧ (i = 0 → s.left = false)

instance (s : State) : (e : CpuBringUp.Event) → Decidable (free s e)
  | .early => inferInstanceAs (Decidable True)
  | .thread _ => inferInstanceAs (Decidable (_ ∧ (_ → _)))

def handle (s : State) : Event → Option State
  | .up e =>
    if free s e then (CpuBringUp.step n s.up e).map fun up => { s with up := up } else none
  | .interrupt =>
    if s.interrupted = false ∧ Idle s 0 then
      some { s.goto (.cpu 0) (.testing none) with interrupted := true }
    else none
  | .call i val =>
    if Idle s i then
      some { s.goto (.cpu i) (.testing (some val)) with asked := s.asked ++ [(.cpu i, val)] }
    else none
  | .leave => if 0 < s.stops ∧ Idle s 0 then some { s with left := true } else none
  | .stray => if 0 < s.stops ∧ Idle s 0 then some { s with astray := true } else none
  | .join =>
    if s.left ∧ s.up.early = .returned ∧ s.stage .main = .away then
      some { s.goto .main (.testing (some 0)) with asked := s.asked ++ [(.main, 0)] }
    else none
  | .move w => Cpu.shutdown s w

/-- Nothing is said about what a program does that has gone astray. -/
def step (s : State) (e : Event) : Option State :=
  if s.fault ∨ s.astray then none else handle n s e

/-- The end of `Cpu::run` is that of the thread. -/
def Returns (_ : State) (e : Event) : Prop := e ≠ .stray

instance (s : State) (e : Event) : Decidable (Returns s e) := inferInstanceAs (Decidable (_ ≠ _))

variable {n : Nat} {s t : State} {e : Event}

/-- Everything a step can do, as a relation. -/
inductive Step (n : Nat) (s : State) : Event → State → Prop
  | up (e : CpuBringUp.Event) (up : CpuBringUp.State) : free s e →
      CpuBringUp.step n s.up e = some up → Step n s (.up e) { s with up := up }
  | interrupt : s.interrupted = false → Idle s 0 → Step n s .interrupt
      { s.goto (.cpu 0) (.testing none) with interrupted := true }
  | call (i : Nat) (val : Int) : Idle s i → Step n s (.call i val)
      { s.goto (.cpu i) (.testing (some val)) with asked := s.asked ++ [(.cpu i, val)] }
  | leave : 0 < s.stops → Idle s 0 → Step n s .leave { s with left := true }
  | stray : 0 < s.stops → Idle s 0 → Step n s .stray { s with astray := true }
  | join : s.left = true → s.up.early = .returned → s.stage .main = .away → Step n s .join
      { s.goto .main (.testing (some 0)) with asked := s.asked ++ [(.main, 0)] }
  | tested (w : Who) (val : Option Int) : s.stage w = .testing val → Step n s (.move w)
      (s.goto w (if 0 < s.up.numCpus then .swapping val else back val))
  | late (w : Who) (val : Option Int) : s.stage w = .swapping val → s.shutdown = true →
      Step n s (.move w) (s.goto w (back val))
  | first (w : Who) (val : Option Int) : s.stage w = .swapping val → s.shutdown = false →
      Step n s (.move w) { s.goto w (.stopping val) with shutdown := true }
  | stops (w : Who) (val : Option Int) : s.stage w = .stopping val → indexToCPU s.up 0 ≠ none →
      Step n s (.move w) { s.goto w (back val) with stops := s.stops + 1 }
  | faults (w : Who) (val : Option Int) : s.stage w = .stopping val → indexToCPU s.up 0 = none →
      Step n s (.move w) { s with fault := true }
  | exits (w : Who) (val : Int) : s.stage w = .exiting val → Step n s (.move w)
      { s.goto w .exited with exits := s.exits ++ [(w, val)] }

theorem move_cases {w : Who} (h : Cpu.shutdown s w = some t) : Step n s (.move w) t := by
  unfold Cpu.shutdown at h
  cases hp : s.stage w with
  | away | exited =>
    rw [hp] at h
    cases h
  | testing val =>
    rw [hp] at h
    obtain rfl := Option.some.inj h
    exact .tested w val hp
  | swapping val =>
    rw [hp] at h
    dsimp only at h
    split at h
    · rename_i hshutdown
      obtain rfl := Option.some.inj h
      exact .late w val hp hshutdown
    · rename_i hshutdown
      obtain rfl := Option.some.inj h
      exact .first w val hp (Bool.eq_false_iff.mpr hshutdown)
  | stopping val =>
    rw [hp] at h
    dsimp only at h
    split at h
    · rename_i cpu hcpu
      obtain rfl := Option.some.inj h
      exact .stops w val hp (by rw [hcpu]; exact Option.some_ne_none cpu)
    · rename_i hcpu
      obtain rfl := Option.some.inj h
      exact .faults w val hp hcpu
  | exiting val =>
    rw [hp] at h
    obtain rfl := Option.some.inj h
    exact .exits w val hp

theorem step_cases (h : step n s e = some t) : Step n s e t := by
  obtain ⟨-, h⟩ := Option.ite_none_left_eq_some.mp h
  cases e with
  | up e =>
    obtain ⟨hfree, h⟩ := Option.ite_none_right_eq_some.mp h
    obtain ⟨up, hup, rfl⟩ := Option.map_eq_some_iff.mp h
    exact .up e up hfree hup
  | interrupt =>
    obtain ⟨⟨hinterrupted, hidle⟩, h⟩ := Option.ite_none_right_eq_some.mp h
    obtain rfl := Option.some.inj h
    exact .interrupt hinterrupted hidle
  | call i val =>
    obtain ⟨hidle, h⟩ := Option.ite_none_right_eq_some.mp h
    obtain rfl := Option.some.inj h
    exact .call i val hidle
  | leave =>
    obtain ⟨⟨hstops, hidle⟩, h⟩ := Option.ite_none_right_eq_some.mp h
    obtain rfl := Option.some.inj h
    exact .leave hstops hidle
  | stray =>
    obtain ⟨⟨hstops, hidle⟩, h⟩ := Option.ite_none_right_eq_some.mp h
    obtain rfl := Option.some.inj h
    exact .stray hstops hidle
  | join =>
    obtain ⟨⟨hleft, hearly, haway⟩, h⟩ := Option.ite_none_right_eq_some.mp h
    obtain rfl := Option.some.inj h
    exact .join hleft hearly haway
  | move w => exact move_cases h

end EbbrtContrib.CpuExit
