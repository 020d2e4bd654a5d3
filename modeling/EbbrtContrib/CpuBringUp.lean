import Mathlib.Algebra.Group.Nat.Defs
import Mathlib.Logic.Function.Basic
import EbbrtContrib.Runs

namespace EbbrtContrib.CpuBringUp

open Runs

def kMaxCpus : Nat := 256

/-- Where a thread is in `Cpu::run`: not created; at `init_lock_.lock()`, at the `construct` and
the increment of `Create`, at `Init`, at the increment of `created_`, at `init_lock_.unlock()`;
waiting for `created_`, at the `Spawn`, at the increment of `running_` and waiting for it; in
`ctxt_.Run`; and in the spawned event at the increment of `inited_`, waiting for it, and at the
test for `Main`. -/
inductive Pc
  | unborn
  | locking
  | constructing
  | counting
  | initing
  | creating
  | unlocking
  | waitCreated
  | spawning
  | announcing
  | waitRunning
  | looping
  | arriving
  | waitInited
  | starting
  | finished
  deriving DecidableEq, Repr

def rank : Pc → Nat
  | .unborn => 0
  | .locking => 1
  | .constructing => 2
  | .counting => 3
  | .initing => 4
  | .creating => 5
  | .unlocking => 6
  | .waitCreated => 7
  | .spawning => 8
  | .announcing => 9
  | .waitRunning => 10
  | .looping => 11
  | .arriving => 12
  | .waitInited => 13
  | .starting => 14
  | .finished => 15

/-- `EarlyInit`: before the `pthread_create` of thread `i`, waiting for `running_`, returned. -/
inductive Early
  | creating (i : Nat)
  | waiting
  | returned
  deriving DecidableEq, Repr

/-- A constructed `Cpu`; `tid_` is set by `Init`. -/
structure Cpu where
  index : Nat
  tid : Option Nat
  deriving DecidableEq, Repr

/-- `tls` is `my_cpu_tls_` of each thread, as an index into `cpus`, and `events` tells of each
context whether it has a spawned event to run. `mains` records the threads that called `Main`. -/
structure State where
  early : Early
  pc : Nat → Pc
  initLock : Option Nat
  cpus : Nat → Option Cpu
  numCpus : Nat
  tls : Nat → Option Nat
  created : Nat
  running : Nat
  inited : Nat
  events : Nat → Bool
  mains : List Nat

def State.init : State where
  early := .creating 0
  pc := fun _ => .unborn
  initLock := none
  cpus := fun _ => none
  numCpus := 0
  tls := fun _ => none
  created := 0
  running := 0
  inited := 0
  events := fun _ => false
  mains := []

def State.goto (s : State) (i : Nat) (p : Pc) : State := { s with pc := Function.update s.pc i p }

/-- `(size_t)GetMine()` on thread `i` -/
def State.mine (s : State) (i : Nat) : Option Nat :=
  ((s.tls i).bind s.cpus).map Cpu.index

def Cpu.count (s : State) : Nat := s.numCpus

/-- `GetByIndex`, as an index into `cpus`; `numCpus_ - 1` is converted to `size_t`. -/
def Cpu.getByIndex (s : State) (index : Nat) : Option Nat :=
  if (2 ^ 64 + s.numCpus - 1) % 2 ^ 64 < index then none else some index

/-- The `Cpu` that `indexToCPU` takes the context of. -/
def indexToCPU (s : State) (i : Nat) : Option Cpu := (Cpu.getByIndex s i).bind s.cpus

/-- `Cpu::Create` is `construct` and then `numCpus_++`. -/
def Cpu.construct (s : State) (index : Nat) : State :=
  { s with cpus := Function.update s.cpus index (some ⟨index, none⟩) }

/-- `Cpu::Init` of `cpus[index]`, on thread `i`. -/
def Cpu.init (s : State) (index i : Nat) : State :=
  { s with
    tls := Function.update s.tls i (some index)
    cpus := Function.update s.cpus index ((s.cpus index).map fun c => { c with tid := some i }) }

variable (n : Nat)

/-- `EarlyInit` -/
def Cpu.earlyInit (s : State) : Option State :=
  match s.early with
  | .creating i =>
    if i < n then some { s.goto i .locking with early := .creating (i + 1) }
    else some { s with early := .waiting }
  | .waiting => if n ≤ s.running then some { s with early := .returned } else none
  | .returned => none

/-- `Cpu::run`, and the event that it spawns. A loop that waits for a counter does not get on
before the counter has reached `n`. -/
def Cpu.run (s : State) (i : Nat) : Option State :=
  match s.pc i with
  | .unborn => none
  | .locking =>
    if s.initLock = none then some { s.goto i .constructing with initLock := some i } else none
  | .constructing => some ((Cpu.construct s i).goto i .counting)
  | .counting => some { s.goto i .initing with numCpus := s.numCpus + 1 }
  | .initing => some ((Cpu.init s i i).goto i .creating)
  | .creating => some { s.goto i .unlocking with created := s.created + 1 }
  | .unlocking => some { s.goto i .waitCreated with initLock := none }
  | .waitCreated => if n ≤ s.created then some (s.goto i .spawning) else none
  | .spawning => some { s.goto i .announcing with events := Function.update s.events i true }
  | .announcing => some { s.goto i .waitRunning with running := s.running + 1 }
  | .waitRunning => if n ≤ s.running then some (s.goto i .looping) else none
  | .looping =>
    if s.events i then
      some { s.goto i .arriving with events := Function.update s.events i false }
    else none
  | .arriving => some { s.goto i .waitInited with inited := s.inited + 1 }
  | .waitInited => if n ≤ s.inited then some (s.goto i .starting) else none
  | .starting =>
    some { s.goto i .finished with
      mains := if s.mine i = some 0 then s.mains ++ [i] else s.mains }
  | .finished => none

inductive Event
  | early
  | thread (i : Nat)
  deriving DecidableEq, Repr

def step (s : State) : Event → Option State
  | .early => Cpu.earlyInit n s
  | .thread i => Cpu.run n s i

variable {n : Nat} {s t : State} {i : Nat}

/-- How far each thread is. -/
def ranks (s : State) (i : Nat) : Nat := rank (s.pc i)

/-- What changes when thread `i` gets one further, by how far it was. -/
structure Advance (n : Nat) (s : State) (i : Nat) (t : State) : Prop where
  rank_eq : ranks t i = ranks s i + 1
  other : ∀ j, j ≠ i → ranks t j = ranks s j
  initLock : t.initLock =
    if ranks s i = 1 then some i else if ranks s i = 6 then none else s.initLock
  cpus_other : ∀ j, j ≠ i → t.cpus j = s.cpus j
  cpus : t.cpus i = if ranks s i = 2 then some ⟨i, none⟩
    else if ranks s i = 4 then (s.cpus i).map fun c => { c with tid := some i } else s.cpus i
  numCpus : t.numCpus = s.numCpus + if ranks s i = 3 then 1 else 0
  tls : ∀ j, t.tls j = if j = i ∧ ranks s i = 4 then some i else s.tls j
  created : t.created = s.created + if ranks s i = 5 then 1 else 0
  running : t.running = s.running + if ranks s i = 9 then 1 else 0
  inited : t.inited = s.inited + if ranks s i = 12 then 1 else 0
  events : ∀ j, t.events j =
    if j = i ∧ ranks s i = 8 then true else if j = i ∧ ranks s i = 11 then false else s.events j
  mains : t.mains = if ranks s i = 14 ∧ s.mine i = some 0 then s.mains ++ [i] else s.mains
  free : ranks s i = 1 → s.initLock = none
  allCreated : ranks s i = 7 → n ≤ s.created
  allRunning : ranks s i = 10 → n ≤ s.running
  allInited : ranks s i = 13 → n ≤ s.inited

/-- Everything a step of thread `i` can do. -/
structure Moved (n : Nat) (s : State) (i : Nat) (t : State) : Prop extends Advance n s i t where
  born : 1 ≤ ranks s i
  early : t.early = s.early

theorem moved_of_run (h : Cpu.run n s i = some t) : Moved n s i t := by
  unfold Cpu.run at h
  cases hp : s.pc i <;> simp only [hp] at h
  case unborn => cases h
  case finished => cases h
  case locking | waitCreated | waitRunning | looping | waitInited =>
    simp only [Option.ite_none_right_eq_some, Option.some.injEq] at h
    obtain ⟨hguard, rfl⟩ := h
    refine ⟨?_, by simp [ranks, rank, hp], rfl⟩
    constructor <;> simp +contextual [ranks, rank, hp, hguard, State.goto, Function.update_apply]
  case constructing | counting | initing | creating | unlocking | spawning | announcing | arriving
      | starting =>
    obtain rfl := Option.some.inj h
    refine ⟨?_, by simp [ranks, rank, hp], rfl⟩
    constructor <;> simp +contextual [ranks, rank, hp, State.goto, Cpu.construct, Cpu.init,
      Function.update_apply]

/-- Everything a step of `EarlyInit` can do. -/
theorem earlyInit_cases (h : Cpu.earlyInit n s = some t) :
    (∃ i, s.early = .creating i ∧ i < n ∧
      t = { s.goto i .locking with early := .creating (i + 1) }) ∨
    (∃ i, s.early = .creating i ∧ n ≤ i ∧ t = { s with early := .waiting }) ∨
    (s.early = .waiting ∧ n ≤ s.running ∧ t = { s with early := .returned }) := by
  unfold Cpu.earlyInit at h
  cases he : s.early with
  | creating i =>
    simp only [he] at h
    by_cases hi : i < n
    · rw [if_pos hi] at h
      exact .inl ⟨i, rfl, hi, (Option.some.inj h).symm⟩
    · rw [if_neg hi] at h
      exact .inr (.inl ⟨i, rfl, Nat.le_of_not_lt hi, (Option.some.inj h).symm⟩)
  | waiting =>
    simp only [he, Option.ite_none_right_eq_some, Option.some.injEq] at h
    exact .inr (.inr ⟨rfl, h.1, h.2.symm⟩)
  | returned =>
    simp only [he] at h
    cases h

/-- The creation of thread `i`. -/
theorem advance_of_create (hp : s.pc i = .unborn) :
    Advance n s i { s.goto i .locking with early := .creating (i + 1) } := by
  constructor <;> simp +contextual [ranks, rank, hp, State.goto]

theorem pc_of_rank_zero (h : ranks s i = 0) : s.pc i = .unborn := by
  rw [ranks] at h
  cases hp : s.pc i <;> rw [hp] at h <;> first | rfl | cases h

end EbbrtContrib.CpuBringUp
