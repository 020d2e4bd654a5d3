import Mathlib.Algebra.Group.Nat.Defs
import Mathlib.Data.List.ReduceOption
import Mathlib.Logic.Function.Basic
import EbbrtContrib.Runs

namespace EbbrtContrib.CmdServer

open Runs

def bufSize : Nat := 4096

def sendWindowSize : Nat := 256

/-- How the program can stop: a failed `assert`, or a `memcpy` past the end of `buffer_`. -/
inductive Halt
  | aborted
  | corrupted
  deriving DecidableEq, Repr

/-- An `OutConnection` blocked in `SendAndBlock`, with the bytes passed to it so far. The
cells of `buffer_` that no byte was ever copied to are `none`. -/
structure Sending (α : Type*) where
  len : Nat
  sent : Nat
  sendLen : Nat
  passed : List (Option α)
  deriving DecidableEq, Repr

/-- An `InConnection`; from its `Close` on, the `Do` that this runs. -/
inductive Conn (α : Type*)
  | accepted
  | connecting (len : Nat)
  | sending (d : Sending α)
  | closed
  deriving DecidableEq, Repr

/-- Connections are numbered as they are accepted. `handed` records the bytes copied by
`Buffer`, and `completed` what each `Send` that has returned passed on. -/
structure State (α : Type*) where
  buffer : List (Option α)
  bufLen : Nat
  accepted : Nat
  conn : Nat → Conn α
  halted : Option Halt
  handed : List α
  completed : List (List (Option α))

variable {α : Type*}

/-- The constructor leaves `buffer_` and `bufLen_` uninitialised. -/
def State.init (bufLen : Nat) : State α where
  buffer := List.replicate bufSize none
  bufLen := bufLen
  accepted := 0
  conn := fun _ => .closed
  halted := none
  handed := []
  completed := []

/-- `BUFSIZE - bufLen_`, on `size_t`. -/
def State.room (s : State α) : Nat := (2 ^ 64 + bufSize - s.bufLen) % 2 ^ 64

/-- `Buffer`, in a build with or without assertions. -/
def State.store (asserts : Bool) (s : State α) (seg : List α) : State α :=
  if asserts ∧ ¬ seg.length < s.room then { s with halted := some .aborted }
  else if bufSize < s.bufLen + seg.length then { s with halted := some .corrupted }
  else { s with
    buffer := s.buffer.take s.bufLen ++ seg.map some ++ s.buffer.drop (s.bufLen + seg.length)
    bufLen := s.bufLen + seg.length
    handed := s.handed ++ seg }

def State.setConn (s : State α) (c : Nat) (k : Conn α) : State α :=
  { s with conn := Function.update s.conn c k }

/-- The loop of `SendAndBlock` up to its next `SaveContext`, or to the end of `Do`. -/
def State.sendAndBlock (s : State α) (c : Nat) (d : Sending α) : State α :=
  if d.len = 0 then
    { s.setConn c .closed with bufLen := 0, completed := s.completed ++ [d.passed] }
  else
    let sendLen := if sendWindowSize < d.len then sendWindowSize else d.len
    s.setConn c (.sending { d with
      sendLen := sendLen
      passed := d.passed ++ (s.buffer.drop d.sent).take sendLen })

/-- `freed` is the disposal of a chunk, which wakes up its `SendAndBlock`. -/
inductive Event (α : Type*)
  | accept
  | receive (c : Nat) (seg : List α)
  | close (c : Nat)
  | connected (c : Nat)
  | freed (c : Nat)
  deriving Repr

def handle (asserts : Bool) (s : State α) : Event α → Option (State α)
  | .accept => some { s.setConn s.accepted .accepted with accepted := s.accepted + 1 }
  | .receive c seg =>
    match s.conn c with
    | .accepted => some (s.store asserts seg)
    | _ => none
  | .close c =>
    match s.conn c with
    | .accepted => some (s.setConn c (.connecting s.bufLen))
    | _ => none
  | .connected c =>
    match s.conn c with
    | .connecting len => some (s.sendAndBlock c ⟨len, 0, 0, []⟩)
    | _ => none
  | .freed c =>
    match s.conn c with
    | .sending d => some (s.sendAndBlock c
        { d with sent := d.sent + d.sendLen, len := d.len - d.sendLen })
    | _ => none

def step (asserts : Bool) (s : State α) (e : Event α) : Option (State α) :=
  match s.halted with
  | none => handle asserts s e
  | some _ => none

/-- Everything a step can do, as a relation. -/
inductive Step (asserts : Bool) (s : State α) : Event α → State α → Prop
  | accept : Step asserts s .accept
      { s.setConn s.accepted .accepted with accepted := s.accepted + 1 }
  | receive (c : Nat) (seg : List α) : s.conn c = .accepted →
      Step asserts s (.receive c seg) (s.store asserts seg)
  | close (c : Nat) : s.conn c = .accepted →
      Step asserts s (.close c) (s.setConn c (.connecting s.bufLen))
  | connected (c len : Nat) : s.conn c = .connecting len →
      Step asserts s (.connected c) (s.sendAndBlock c ⟨len, 0, 0, []⟩)
  | freed (c : Nat) (d : Sending α) : s.conn c = .sending d → Step asserts s (.freed c)
      (s.sendAndBlock c { d with sent := d.sent + d.sendLen, len := d.len - d.sendLen })

theorem step_cases {asserts : Bool} {s t : State α} {e : Event α} (h : step asserts s e = some t) :
    Step asserts s e t := by
  have hh : handle asserts s e = some t := by
    unfold step at h
    split at h
    · exact h
    · cases h
  cases e with
  | accept =>
    cases hh
    exact .accept
  | receive c seg =>
    simp only [handle] at hh
    split at hh
    · rename_i hc
      cases hh
      exact .receive c seg hc
    · cases hh
  | close c =>
    simp only [handle] at hh
    split at hh
    · rename_i hc
      cases hh
      exact .close c hc
    · cases hh
  | connected c =>
    simp only [handle] at hh
    split at hh
    · rename_i len hc
      cases hh
      exact .connected c len hc
    · cases hh
  | freed c =>
    simp only [handle] at hh
    split at hh
    · rename_i d hc
      cases hh
      exact .freed c d hc
    · cases hh

@[simp] theorem setConn_conn (s : State α) (c c' : Nat) (k : Conn α) :
    (s.setConn c k).conn c' = if c' = c then k else s.conn c' :=
  Function.update_apply s.conn c k c'

end EbbrtContrib.CmdServer
