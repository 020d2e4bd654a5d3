import Mathlib.Data.BitVec
import EbbrtContrib.Runs

namespace EbbrtContrib.OutConnection

open Runs

/-- `state_` -/
inductive Flag
  | none
  | blocked
  | success
  | error
  deriving DecidableEq, Repr

/-- What `ConnectAndBlock`, or `SendAndBlock` with its chunk number `k`, waits for. -/
inductive Wait
  | connect
  | chunk (k : Nat)
  deriving DecidableEq, Repr

/-- The calls of the network stack: `Connected`, `Abort` and the disposal of a chunk. -/
inductive Callback
  | connected
  | abort
  | disposed (k : Nat)
  deriving DecidableEq, Repr

def Wait.event : Wait → Callback
  | .connect => .connected
  | .chunk k => .disposed k

/-- Where a `Send` is: in `Pcb().Connect`, or in `Send` and `Pcb().Output` for a chunk; with
its context saved; with its context activated but not resumed; or back from its operations. -/
inductive Phase
  | calling (w : Wait)
  | blocked (w : Wait)
  | woken (w : Wait)
  | returned
  deriving DecidableEq, Repr

/-- `len`, `sent` and `sendLen` are the variables of `SendAndBlock`, and `connected` and
`result` what the two operations have returned. `chunks` records what was handed to the stack,
`delivered` its calls, `saves` and `wakes` the calls of `SaveContext` and `ActivateContext`;
`stray` tells of an `ActivateContext` on a context that was not saved. -/
structure State (α : Type*) where
  flag : Flag
  phase : Phase
  len : Nat
  sent : Nat
  sendLen : Nat
  chunks : List (List α)
  connected : Option Int
  result : Option Int
  delivered : List Callback
  saves : List Wait
  wakes : List (Wait × Callback)
  stray : Bool
  failed : Bool
  deriving DecidableEq, Repr

variable {α : Type*} (bytes : List α) (windowSize : Nat)

/-- In `Pcb().Connect`, with the connection installed. -/
def State.init : State α :=
  ⟨.none, .calling .connect, bytes.length, 0, 0, [], none, none, [], [], [], false, false⟩

/-- `ActivateContext(std::move(context_))` -/
def State.activate (s : State α) (c : Callback) : State α :=
  match s.phase with
  | .blocked w => { s with phase := .woken w, wakes := s.wakes ++ [(w, c)] }
  | .calling _ | .woken _ | .returned => { s with stray := true }

/-- `OutConnection::Connected` -/
def onConnected (s : State α) : State α :=
  if s.flag = .blocked then { s with flag := .success }.activate .connected
  else { s with failed := true }

/-- `OutConnection::Abort` -/
def onAbort (s : State α) : State α :=
  if s.flag = .blocked then { s with flag := .error }.activate .abort else s

/-- The disposal of chunk `k`. -/
def onDisposed (s : State α) (k : Nat) : State α :=
  if s.flag = .blocked then { s with flag := .success }.activate (.disposed k) else s

def callback (s : State α) : Callback → State α
  | .connected => onConnected s
  | .abort => onAbort s
  | .disposed k => onDisposed s k

/-- `while (len)`: the next chunk is handed to the stack. -/
def State.loop (s : State α) : State α :=
  if s.len = 0 then
    { s with phase := .returned, result := some (BitVec.ofNat 32 s.sent).toInt }
  else
    let sendLen := if windowSize < s.len then windowSize else s.len
    { s with
      phase := .calling (.chunk s.chunks.length)
      sendLen := sendLen
      chunks := s.chunks ++ [(bytes.drop s.sent).take sendLen] }

/-- What follows `SaveContext` when the context runs again. -/
def resume (s : State α) : Wait → State α
  | .connect =>
    if s.flag = .success then State.loop bytes windowSize { s with connected := some 1 }
    else { s with phase := .returned, connected := some 0 }
  | .chunk _ =>
    if s.flag = .success then
      State.loop bytes windowSize { s with sent := s.sent + s.sendLen, len := s.len - s.sendLen }
    else { s with phase := .returned, result := some 0 }

/-- The stack connects once, and disposes of every chunk once, at any time after it was handed
over. -/
def Deliverable (s : State α) : Callback → Prop
  | .connected => .connected ∉ s.delivered
  | .abort => True
  | .disposed k => k < s.chunks.length ∧ .disposed k ∉ s.delivered

instance (s : State α) (c : Callback) : Decidable (Deliverable s c) :=
  match c with
  | .connected => inferInstanceAs (Decidable (_ ∉ _))
  | .abort => inferInstanceAs (Decidable True)
  | .disposed _ => inferInstanceAs (Decidable (_ ∧ _))

/-- `block` is the return of the operation, followed by `state_ = BLOCKED` and `SaveContext`. -/
inductive Event
  | deliver (c : Callback)
  | block
  | resume
  deriving DecidableEq, Repr

def handle (s : State α) : Event → Option (State α)
  | .deliver c =>
    if s.phase ≠ .returned ∧ Deliverable s c then
      some (callback { s with delivered := s.delivered ++ [c] } c)
    else none
  | .block =>
    match s.phase with
    | .calling w => some { s with flag := .blocked, phase := .blocked w, saves := s.saves ++ [w] }
    | .blocked _ | .woken _ | .returned => none
  | .resume =>
    match s.phase with
    | .woken w => some (resume bytes windowSize s w)
    | .calling _ | .blocked _ | .returned => none

def step (s : State α) (e : Event) : Option (State α) :=
  if s.failed then none else handle bytes windowSize s e

variable {bytes : List α} {windowSize : Nat}

/-- What `Connected` and a disposal make of `state_`, and what `Abort` makes of it. -/
def Callback.outcome : Callback → Flag
  | .connected | .disposed _ => .success
  | .abort => .error

theorem callback_blocked (s : State α) (c : Callback) (h : s.flag = .blocked) :
    callback s c = { s with flag := c.outcome }.activate c := by
  cases c <;> simp only [callback, onConnected, onAbort, onDisposed, h, if_true, Callback.outcome]

theorem callback_ignored (s : State α) (c : Callback) (h : s.flag ≠ .blocked)
    (hc : c ≠ .connected) : callback s c = s := by
  cases c with
  | connected => exact absurd rfl hc
  | abort => simp only [callback, onAbort, if_neg h]
  | disposed k => simp only [callback, onDisposed, if_neg h]

/-- The stack disposes only of what was handed to it. -/
theorem handed_snoc {s : State α} {c : Callback}
    (h : ∀ k, .disposed k ∈ s.delivered → k < s.chunks.length) (hd : Deliverable s c) (k : Nat)
    (hk : .disposed k ∈ s.delivered ++ [c]) : k < s.chunks.length := by
  obtain hk | hk := List.mem_append.mp hk
  · exact h k hk
  · rw [← List.mem_singleton.mp hk] at hd
    exact hd.1

/-- Everything a step can do, as a relation. -/
inductive Step (bytes : List α) (windowSize : Nat) (s : State α) : Event → State α → Prop
  | wakes (c : Callback) (w : Wait) : Deliverable s c → s.flag = .blocked → s.phase = .blocked w →
      Step bytes windowSize s (.deliver c) { s with
        delivered := s.delivered ++ [c], flag := c.outcome
        phase := .woken w, wakes := s.wakes ++ [(w, c)] }
  | stray (c : Callback) : s.flag = .blocked → (∀ w, s.phase ≠ .blocked w) →
      s.phase ≠ .returned → Step bytes windowSize s (.deliver c) { s with
        delivered := s.delivered ++ [c], flag := c.outcome, stray := true }
  | ignored (c : Callback) : s.flag ≠ .blocked → c ≠ .connected → s.phase ≠ .returned →
      Deliverable s c → Step bytes windowSize s (.deliver c) { s with
        delivered := s.delivered ++ [c] }
  | assertFails : s.flag ≠ .blocked → s.phase ≠ .returned →
      Step bytes windowSize s (.deliver .connected) { s with
        delivered := s.delivered ++ [.connected], failed := true }
  | block (w : Wait) : s.phase = .calling w → Step bytes windowSize s .block { s with
      flag := .blocked, phase := .blocked w, saves := s.saves ++ [w] }
  | resume (w : Wait) : s.phase = .woken w →
      Step bytes windowSize s .resume (resume bytes windowSize s w)

theorem step_cases {s t : State α} {e : Event} (h : step bytes windowSize s e = some t) :
    Step bytes windowSize s e t := by
  have hh : handle bytes windowSize s e = some t := by
    unfold step at h
    split at h
    · cases h
    · exact h
  cases e with
  | deliver c =>
    simp only [handle, Option.ite_none_right_eq_some, Option.some.injEq] at hh
    obtain ⟨⟨hret, hdel⟩, rfl⟩ := hh
    by_cases hf : s.flag = .blocked
    · rw [callback_blocked { s with delivered := s.delivered ++ [c] } c hf]
      cases hp : s.phase with
      | blocked w =>
        simp only [State.activate]
        exact .wakes c w hdel hf hp
      | calling w | woken w | returned =>
        have ht : Step bytes windowSize s (.deliver c) _ :=
          .stray c hf (fun w hw => by cases hp.symm.trans hw) hret
        simp only [State.activate]
        rwa [hp] at ht
    · by_cases hc : c = .connected
      · subst hc
        simp only [callback, onConnected, if_neg hf]
        exact .assertFails hf hret
      · rw [callback_ignored { s with delivered := s.delivered ++ [c] } c hf hc]
        exact .ignored c hf hc hret hdel
  | block =>
    simp only [handle] at hh
    split at hh
    · rename_i w hp
      cases hh
      exact .block w hp
    all_goals cases hh
  | resume =>
    simp only [handle] at hh
    split at hh
    · rename_i w hp
      cases hh
      exact .resume w hp
    all_goals cases hh

end EbbrtContrib.OutConnection
