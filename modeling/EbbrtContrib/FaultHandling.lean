import Mathlib.Logic.Function.Basic
import EbbrtContrib.Runs

namespace EbbrtContrib.FaultHandling

open Runs

/-- Where a call of `HandleFault` is: at the `Find` and the `Insert` of the local id map, with
the entry write-locked (after a lost `Insert`, before `new Root`, with the root to be stored,
and after the store), with the entry read-locked, or in `getRep_BIN` on root `r`. -/
inductive Pc
  | idle
  | find
  | insert
  | lostInsert
  | newRoot
  | store (r : Nat)
  | release
  | reading
  | lock (r : Nat)
  | check (r : Nat)
  | unlock (r : Nat)
  | wait (r : Nat)
  | relock (r : Nat)
  | recheck (r : Nat)
  | assign (r rep : Nat)
  | leave (r rep : Nat)
  | done (rep : Nat)
  | raised
  deriving DecidableEq, Repr

/-- `theRep_`, the thread that holds `lock_`, and whether `data_` is ready. -/
structure Root where
  theRep : Option Nat
  holder : Option Nat
  ready : Bool
  deriving DecidableEq, Repr

/-- A run of the constructor of the representative. -/
structure Construction where
  root : Nat
  rep : Nat
  ready : Bool
  deriving DecidableEq, Repr

/-- `entry` is the map's entry for the id: absent, or present with the root stored in it, if
any; `writer` and `readers` hold its lock. `stores` and `constructed` record the roots stored and
the representatives constructed, `unstored` and `misused` tell of a read of an entry without
root and of an `unlock` by a thread that does not hold the lock. -/
structure State where
  pc : Nat → Pc
  entry : Option (Option Nat)
  writer : Option Nat
  readers : List Nat
  roots : Nat → Root
  nextRoot : Nat
  nextRep : Nat
  stores : List Nat
  constructed : List Construction
  unstored : Bool
  misused : Bool

def State.init : State where
  pc := fun _ => .idle
  entry := none
  writer := none
  readers := []
  roots := fun _ => ⟨none, none, false⟩
  nextRoot := 0
  nextRep := 0
  stores := []
  constructed := []
  unstored := false
  misused := false

def State.goto (s : State) (t : Nat) (p : Pc) : State := { s with pc := Function.update s.pc t p }

def State.setRoot (s : State) (r : Nat) (v : Root) : State :=
  { s with roots := Function.update s.roots r v }

/-- `lock_.lock()` -/
def State.lock (s : State) (t r : Nat) : State := s.setRoot r { s.roots r with holder := some t }

/-- `lock_.unlock()`, also in the destructor of the lock guard. -/
def State.unlock (s : State) (t r : Nat) : State :=
  { s.setRoot r { s.roots r with holder := none } with
    misused := s.misused || decide ((s.roots r).holder ≠ some t) }

/-- `run` is the next step of a thread, `raise` an exception instead of it, while it waits for
the data or in the constructor of the representative. -/
inductive Event
  | run (t : Nat)
  | ready (r : Nat)
  | raise (t : Nat)
  deriving DecidableEq, Repr

/-- `HandleFault` and `Root::getRep_BIN`. -/
def advance (s : State) (t : Nat) : Option State :=
  match s.pc t with
  | .idle => some (s.goto t .find)
  | .find =>
    match s.entry with
    | none => some (s.goto t .insert)
    | some _ =>
      if s.writer = none then some { s.goto t .reading with readers := t :: s.readers } else none
  | .insert =>
    match s.entry with
    | none => some { s.goto t .newRoot with entry := some none, writer := some t }
    | some _ =>
      -- a failed `Insert` returns the entry locked as well
      if s.writer = none ∧ s.readers = [] then some { s.goto t .lostInsert with writer := some t }
      else none
  | .lostInsert => some { s.goto t .find with writer := none }
  | .newRoot => some { s.goto t (.store s.nextRoot) with nextRoot := s.nextRoot + 1 }
  | .store r => some { s.goto t .release with entry := some (some r), stores := s.stores ++ [r] }
  | .release => some { s.goto t .find with writer := none }
  | .reading =>
    match s.entry with
    | some (some r) => some { s.goto t (.lock r) with readers := s.readers.erase t }
    | some none | none => some { s.goto t .raised with unstored := true }
  | .lock r => if (s.roots r).holder = none then some ((s.lock t r).goto t (.check r)) else none
  | .check r =>
    match (s.roots r).theRep with
    | some rep => some (s.goto t (.leave r rep))
    | none => some (s.goto t (.unlock r))
  | .unlock r => some ((s.unlock t r).goto t (.wait r))
  | .wait r => if (s.roots r).ready then some (s.goto t (.relock r)) else none
  | .relock r => if (s.roots r).holder = none then some ((s.lock t r).goto t (.recheck r)) else none
  | .recheck r =>
    match (s.roots r).theRep with
    | some rep => some (s.goto t (.leave r rep))
    | none => some { s.goto t (.assign r s.nextRep) with
        nextRep := s.nextRep + 1
        constructed := s.constructed ++ [⟨r, s.nextRep, (s.roots r).ready⟩] }
  | .assign r rep =>
    some ((s.setRoot r { s.roots r with theRep := some rep }).goto t (.leave r rep))
  | .leave r rep => some ((s.unlock t r).goto t (.done rep))
  | .done _ | .raised => none

def step (s : State) : Event → Option State
  | .run t => advance s t
  | .ready r => some (s.setRoot r { s.roots r with ready := true })
  | .raise t =>
    match s.pc t with
    | .wait r => some ((s.unlock t r).goto t .raised)
    | .recheck r =>
      if (s.roots r).theRep = none then some ((s.unlock t r).goto t .raised) else none
    | _ => none

@[simp] theorem goto_pc (s : State) (t t' : Nat) (p : Pc) :
    (s.goto t p).pc t' = if t' = t then p else s.pc t' :=
  Function.update_apply s.pc t p t'

@[simp] theorem setRoot_roots (s : State) (r r' : Nat) (v : Root) :
    (s.setRoot r v).roots r' = if r' = r then v else s.roots r' :=
  Function.update_apply s.roots r v r'

/-- The steps of a thread that change nothing but its own place. -/
inductive Moves (s : State) : Pc → Pc → Prop
  | call : Moves s .idle .find
  | absent : s.entry = none → Moves s .find .insert
  | hasRep (r rep : Nat) : (s.roots r).theRep = some rep → Moves s (.check r) (.leave r rep)
  | noRep (r : Nat) : (s.roots r).theRep = none → Moves s (.check r) (.unlock r)
  | ready (r : Nat) : (s.roots r).ready = true → Moves s (.wait r) (.relock r)
  | beaten (r rep : Nat) : (s.roots r).theRep = some rep → Moves s (.recheck r) (.leave r rep)

inductive Locks (r : Nat) : Pc → Pc → Prop
  | first : Locks r (.lock r) (.check r)
  | again : Locks r (.relock r) (.recheck r)

inductive Unlocks (r : Nat) : Pc → Pc → Prop
  | drop : Unlocks r (.unlock r) (.wait r)
  | guard (rep : Nat) : Unlocks r (.leave r rep) (.done rep)

/-- Everything a step can do, as a relation. -/
inductive Step (s : State) : Event → State → Prop
  | moves (t : Nat) (q : Pc) : Moves s (s.pc t) q → Step s (.run t) (s.goto t q)
  | locks (t r : Nat) (q : Pc) : Locks r (s.pc t) q → (s.roots r).holder = none →
      Step s (.run t) ((s.lock t r).goto t q)
  | unlocks (t r : Nat) (q : Pc) : Unlocks r (s.pc t) q →
      Step s (.run t) ((s.unlock t r).goto t q)
  | finds (t : Nat) : s.pc t = .find → s.entry ≠ none → s.writer = none →
      Step s (.run t) { s.goto t .reading with readers := t :: s.readers }
  | inserts (t : Nat) : s.pc t = .insert → s.entry = none →
      Step s (.run t) { s.goto t .newRoot with entry := some none, writer := some t }
  | loses (t : Nat) : s.pc t = .insert → s.entry ≠ none → s.writer = none → s.readers = [] →
      Step s (.run t) { s.goto t .lostInsert with writer := some t }
  | releases (t : Nat) : s.pc t = .lostInsert ∨ s.pc t = .release →
      Step s (.run t) { s.goto t .find with writer := none }
  | newRoot (t : Nat) : s.pc t = .newRoot →
      Step s (.run t) { s.goto t (.store s.nextRoot) with nextRoot := s.nextRoot + 1 }
  | stores (t r : Nat) : s.pc t = .store r → Step s (.run t)
      { s.goto t .release with entry := some (some r), stores := s.stores ++ [r] }
  | reads (t r : Nat) : s.pc t = .reading → s.entry = some (some r) →
      Step s (.run t) { s.goto t (.lock r) with readers := s.readers.erase t }
  | misreads (t : Nat) : s.pc t = .reading → (∀ r, s.entry ≠ some (some r)) →
      Step s (.run t) { s.goto t .raised with unstored := true }
  | constructs (t r : Nat) : s.pc t = .recheck r → (s.roots r).theRep = none →
      Step s (.run t) { s.goto t (.assign r s.nextRep) with
        nextRep := s.nextRep + 1
        constructed := s.constructed ++ [⟨r, s.nextRep, (s.roots r).ready⟩] }
  | assigns (t r rep : Nat) : s.pc t = .assign r rep → Step s (.run t)
      ((s.setRoot r { s.roots r with theRep := some rep }).goto t (.leave r rep))
  | ready (r : Nat) : Step s (.ready r) (s.setRoot r { s.roots r with ready := true })
  | raisesWaiting (t r : Nat) : s.pc t = .wait r →
      Step s (.raise t) ((s.unlock t r).goto t .raised)
  | raisesConstructing (t r : Nat) : s.pc t = .recheck r → (s.roots r).theRep = none →
      Step s (.raise t) ((s.unlock t r).goto t .raised)

theorem advance_cases {s u : State} {t : Nat} (h : advance s t = some u) : Step s (.run t) u := by
  have hmoves : ∀ {p q}, s.pc t = p → Moves s p q → Step s (.run t) (s.goto t q) :=
    fun hp hm => .moves t _ (hp ▸ hm)
  unfold advance at h
  cases hp : s.pc t <;> simp only [hp] at h
  case idle =>
    cases h
    exact hmoves hp .call
  case find =>
    cases he : s.entry <;> simp only [he] at h
    case none =>
      cases h
      exact hmoves hp (.absent he)
    case some v =>
      simp only [Option.ite_none_right_eq_some, Option.some.injEq] at h
      obtain ⟨hw, rfl⟩ := h
      exact .finds t hp (by simp [he]) hw
  case insert =>
    cases he : s.entry <;> simp only [he] at h
    case none =>
      cases h
      exact .inserts t hp he
    case some v =>
      simp only [Option.ite_none_right_eq_some, Option.some.injEq] at h
      obtain ⟨⟨hw, hr⟩, rfl⟩ := h
      exact .loses t hp (by simp [he]) hw hr
  case lostInsert =>
    cases h
    exact .releases t (.inl hp)
  case newRoot =>
    cases h
    exact .newRoot t hp
  case store r =>
    cases h
    exact .stores t r hp
  case release =>
    cases h
    exact .releases t (.inr hp)
  case reading =>
    split at h
    · rename_i r he
      cases h
      exact .reads t r hp he
    · rename_i he
      cases h
      exact .misreads t hp (by simp [he])
    · rename_i he
      cases h
      exact .misreads t hp (by simp [he])
  case lock r =>
    simp only [Option.ite_none_right_eq_some, Option.some.injEq] at h
    obtain ⟨hfree, rfl⟩ := h
    exact .locks t r _ (hp ▸ .first) hfree
  case check r =>
    cases hrep : (s.roots r).theRep <;> simp only [hrep] at h <;> cases h
    · exact hmoves hp (.noRep r hrep)
    · exact hmoves hp (.hasRep r _ hrep)
  case unlock r =>
    cases h
    exact .unlocks t r _ (hp ▸ .drop)
  case wait r =>
    simp only [Option.ite_none_right_eq_some, Option.some.injEq] at h
    obtain ⟨hready, rfl⟩ := h
    exact hmoves hp (.ready r hready)
  case relock r =>
    simp only [Option.ite_none_right_eq_some, Option.some.injEq] at h
    obtain ⟨hfree, rfl⟩ := h
    exact .locks t r _ (hp ▸ .again) hfree
  case recheck r =>
    cases hrep : (s.roots r).theRep <;> simp only [hrep] at h <;> cases h
    · exact .constructs t r hp hrep
    · exact hmoves hp (.beaten r _ hrep)
  case assign r rep =>
    cases h
    exact .assigns t r rep hp
  case leave r rep =>
    cases h
    exact .unlocks t r _ (hp ▸ .guard rep)
  case done rep => cases h
  case raised => cases h

theorem step_cases {s u : State} {e : Event} (h : step s e = some u) : Step s e u := by
  cases e with
  | run t => exact advance_cases h
  | ready r =>
    cases h
    exact .ready r
  | raise t =>
    simp only [step] at h
    split at h
    · rename_i r hp
      cases h
      exact .raisesWaiting t r hp
    · rename_i r hp
      simp only [Option.ite_none_right_eq_some, Option.some.injEq] at h
      obtain ⟨hrep, rfl⟩ := h
      exact .raisesConstructing t r hp hrep
    · cases h

end EbbrtContrib.FaultHandling
