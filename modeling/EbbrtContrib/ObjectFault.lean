import EbbrtContrib.Buffers

namespace EbbrtContrib.ObjectFault

open Buffers Runs

/-- Where a call of `HandleFault` is: at the first `Find`, waiting for the global map, at `Insert`
with its object, at the `delete` of it, at the second `Find`, before `CacheRef` with the object to
be returned, back with it, or past a second `Find` that has not found the entry. -/
inductive Pc
  | idle
  | find
  | get
  | insert (p : Nat)
  | discard (p : Nat)
  | retry
  | cache (p : Nat)
  | done (p : Nat)
  | misread
  deriving DecidableEq, Repr

/-- An object and the call that has constructed, deleted or cached it. -/
structure Deed where
  caller : Nat
  object : Nat
  deriving DecidableEq, Repr

/-- `objects` are those that exist, `entry` is the entry of the id in the local id map. -/
structure State (α : Type) where
  pc : Nat → Pc
  entry : Option Nat
  objects : Memory α
  constructed : List Deed
  deleted : List Deed
  cached : List Deed

variable {α : Type}

def State.init : State α where
  pc _ := .idle
  entry := none
  objects := ⟨fun _ => none, 0, fun _ _ => rfl⟩
  constructed := []
  deleted := []
  cached := []

def State.goto (s : State α) (t : Nat) (p : Pc) : State α :=
  { s with pc := Function.update s.pc t p }

/-- The next step of call `t`, which waits for the global map in `get`. -/
def advance (s : State α) (t : Nat) : Option (State α) :=
  match s.pc t with
  | .idle => some (s.goto t .find)
  | .find =>
    match s.entry with
    | some p => some (s.goto t (.cache p))
    | none => some (s.goto t .get)
  | .insert p =>
    match s.entry with
    | none => some { s.goto t (.cache p) with entry := some p }
    | some _ => some (s.goto t (.discard p))
  | .discard p => some { s.goto t .retry with
      objects := s.objects.free p
      deleted := s.deleted ++ [⟨t, p⟩] }
  | .retry =>
    match s.entry with
    | some p => some (s.goto t (.cache p))
    | none => some (s.goto t .misread)
  | .cache p => some { s.goto t (.done p) with cached := s.cached ++ [⟨t, p⟩] }
  | .get | .done _ | .misread => none

/-- `answer` is the value of the global map for the id, with which call `t` constructs its
object. -/
inductive Event
  | run (t : Nat)
  | answer (t : Nat) (value : List UInt8)
  deriving DecidableEq, Repr

def Event.caller : Event → Nat
  | .run t | .answer t _ => t

/-- `HandleFault`, with the constructor of the object. -/
def step (new : List UInt8 → α) (s : State α) : Event → Option (State α)
  | .run t => advance s t
  | .answer t value =>
    match s.pc t with
    | .get => some { s.goto t (.insert s.objects.next) with
        objects := s.objects.alloc (new value)
        constructed := s.constructed ++ [⟨t, s.objects.next⟩] }
    | _ => none

/-- What the constructor sets. -/
structure CmdServer where
  deriving DecidableEq, Repr

def CmdServer.handleFault : State CmdServer → Event → Option (State CmdServer) :=
  step fun _inner => ⟨⟩

structure Printer where
  remote_nid : List UInt8
  deriving DecidableEq, Repr

def Printer.handleFault : State Printer → Event → Option (State Printer) :=
  step fun inner => ⟨inner⟩

@[simp] theorem goto_pc (s : State α) (t t' : Nat) (p : Pc) :
    (s.goto t p).pc t' = if t' = t then p else s.pc t' :=
  Function.update_apply s.pc t p t'

/-- The steps that change nothing but the place of the call. -/
inductive Moves (s : State α) : Pc → Pc → Prop
  | call : Moves s .idle .find
  | absent : s.entry = none → Moves s .find .get
  | finds (p : Nat) : s.entry = some p → Moves s .find (.cache p)
  | loses (p q : Nat) : s.entry = some q → Moves s (.insert p) (.discard p)
  | rereads (p : Nat) : s.entry = some p → Moves s .retry (.cache p)
  | misreads : s.entry = none → Moves s .retry .misread

/-- Everything a step can do, as a relation. -/
inductive Step (new : List UInt8 → α) (s : State α) : Event → State α → Prop
  | moves (t : Nat) (q : Pc) : Moves s (s.pc t) q → Step new s (.run t) (s.goto t q)
  | constructs (t : Nat) (value : List UInt8) : s.pc t = .get → Step new s (.answer t value)
      { s.goto t (.insert s.objects.next) with
        objects := s.objects.alloc (new value)
        constructed := s.constructed ++ [⟨t, s.objects.next⟩] }
  | inserts (t p : Nat) : s.pc t = .insert p → s.entry = none → Step new s (.run t)
      { s.goto t (.cache p) with entry := some p }
  | deletes (t p : Nat) : s.pc t = .discard p → Step new s (.run t)
      { s.goto t .retry with objects := s.objects.free p, deleted := s.deleted ++ [⟨t, p⟩] }
  | caches (t p : Nat) : s.pc t = .cache p → Step new s (.run t)
      { s.goto t (.done p) with cached := s.cached ++ [⟨t, p⟩] }

variable {new : List UInt8 → α} {s u : State α} {e : Event}

theorem step_cases (h : step new s e = some u) : Step new s e u := by
  cases e with
  | answer t value =>
    simp only [step] at h
    split at h
    · rename_i hp
      cases h
      exact .constructs t value hp
    · cases h
  | run t =>
    have hmoves : ∀ {p q}, s.pc t = p → Moves s p q → Step new s (.run t) (s.goto t q) :=
      fun hp hm => .moves t _ (hp ▸ hm)
    change advance s t = some u at h
    unfold advance at h
    cases hp : s.pc t <;> simp only [hp] at h
    case idle =>
      cases h
      exact hmoves hp .call
    case find =>
      cases he : s.entry <;> simp only [he] at h <;> cases h
      · exact hmoves hp (.absent he)
      · exact hmoves hp (.finds _ he)
    case insert p =>
      cases he : s.entry <;> simp only [he] at h <;> cases h
      · exact .inserts t p hp he
      · exact hmoves hp (.loses p _ he)
    case discard p =>
      cases h
      exact .deletes t p hp
    case retry =>
      cases he : s.entry <;> simp only [he] at h <;> cases h
      · exact hmoves hp (.misreads he)
      · exact hmoves hp (.rereads _ he)
    case cache p =>
      cases h
      exact .caches t p hp
    case get | done | misread => cases h

end EbbrtContrib.ObjectFault
