import EbbrtContrib.CString
import EbbrtContrib.OneObject

namespace EbbrtContrib.PrinterNetwork

open CString ObjectFault Runs

abbrev NetworkId := List Byte

/-- A call of `Print` on a bare-metal node, one of its overloads for each argument. -/
inductive Call
  | str (s : CStr)
  | string (s : List Byte)
  | bytes (b : List Byte)

/-- The message that `Print` sends: of a C string also the NUL. -/
def Call.payload : Call → List Byte
  | .str s => dup s.bytes
  | .string s => s
  | .bytes b => b

/-- Where the front end is: waiting for `Printer::Init`, in the loop over `NumNodes`, past it, or
gone by `exit(1)`. -/
inductive Stage
  | initializing
  | allocating
  | serving
  | exited
  deriving DecidableEq, Repr

/-- What must not happen: a `Get` of an id that nobody has set, a use of a `Printer` that is
deleted, and a message to a bare-metal `Printer`, which throws. -/
inductive Failure
  | missing
  | deleted
  | unexpected
  deriving DecidableEq, Repr

/-- A line of the console: the node that it is from, which it names, and the text. -/
structure Line where
  node : Nat
  output : List Byte
  deriving DecidableEq, Repr

/-- `id` is the entry of `kPrinterEbbId` in the global id map, `started` the count of nodes that are
allocated, `times` how often the allocation time was printed, and `flight i` what node `i` has
sent, with the receiver. `sent` and `received` record the messages of each node, those that were
received as the buffer chains they came in. -/
structure State where
  stage : Stage
  id : Option NetworkId
  started : Nat
  reported : Nat → Bool
  allocatedNodes : Nat
  times : Nat
  node : Nat → ObjectFault.State Printer
  flight : Nat → List (NetworkId × List Byte)
  console : List Line
  failed : Option Failure
  sent : Nat → List (List Byte)
  received : Nat → List (List (List Byte))

def State.init : State where
  stage := .initializing
  id := none
  started := 0
  reported _ := false
  allocatedNodes := 0
  times := 0
  node _ := .init
  flight _ := []
  console := []
  failed := none
  sent _ := []
  received _ := []

/-- `initialized` is the end of `Printer::Init`, `allocate` an `AllocateNode`, which may throw, and
`reported` the network id of a node. On node `i`, call `t` of `HandleFault` makes a step by itself,
or by the answer of the global id map. -/
inductive Event
  | initialized (ok : Bool)
  | allocate (ok : Bool)
  | reported (i : Nat)
  | run (i t : Nat)
  | get (i t : Nat)
  | print (i t : Nat) (call : Call)
  | deliver (i : Nat) (chain : List (List Byte))

/-- A step of `HandleFault` on node `i`. -/
def State.fault (s : State) (i : Nat) (e : ObjectFault.Event) : Option State :=
  (Printer.handleFault (s.node i) e).map fun node =>
    { s with node := Function.update s.node i node }

/-- `SendMessage` of the `Printer` at `p`. -/
def State.print (s : State) (i p : Nat) (bytes : List Byte) : State :=
  match (s.node i).objects.buffers p with
  | none => { s with failed := some .deleted }
  | some printer => { s with
      flight := Function.update s.flight i (s.flight i ++ [(printer.remote_nid, bytes)])
      sent := Function.update s.sent i (s.sent i ++ [bytes]) }

/-- `ReceiveMessage`: the front end prints what is in the first buffer of the chain. -/
def State.receive (front : NetworkId) (s : State) (i : Nat) (dst : NetworkId)
    (chain : List (List Byte)) : State :=
  if dst = front then { s with
    console := s.console ++ [⟨i, chain.headD []⟩]
    received := Function.update s.received i (s.received i ++ [chain]) }
  else { s with failed := some .unexpected }

def step (numNodes : Int) (front : NetworkId) (s : State) : Event → Option State
  | .initialized ok =>
    if s.stage = .initializing then
      some (if ok then { s with stage := .allocating, id := some front }
        else { s with stage := .serving })
    else none
  | .allocate ok =>
    if s.stage = .allocating then
      if s.started < numNodes then
        some (if ok then { s with started := s.started + 1 } else { s with stage := .exited })
      else some { s with stage := .serving }
    else none
  | .reported i =>
    if s.stage ≠ .exited ∧ i < s.started ∧ s.reported i = false then
      some { s with
        reported := Function.update s.reported i true
        allocatedNodes := s.allocatedNodes + 1
        times := s.times + if (s.allocatedNodes + 1 : Int) = numNodes then 1 else 0 }
    else none
  | .run i t => if i < s.started then s.fault i (.run t) else none
  | .get i t =>
    if s.stage ≠ .exited ∧ i < s.started ∧ (s.node i).pc t = .get then
      match s.id with
      | some id => s.fault i (.answer t id)
      | none => some { s with failed := some .missing }
    else none
  | .print i t call =>
    match (s.node i).pc t with
    | .done p => if i < s.started then some (s.print i p call.payload) else none
    | _ => none
  | .deliver i chain =>
    match s.flight i with
    | [] => none
    | (dst, bytes) :: rest =>
      if s.stage ≠ .exited ∧ chain.flatten = bytes then
        some (({ s with flight := Function.update s.flight i rest }).receive front i dst chain)
      else none

variable {numNodes : Int} {front : NetworkId} {s t : State}

/-- Everything a step can do, as a relation. -/
inductive Step (numNodes : Int) (front : NetworkId) (s : State) : State → Prop
  | publishes : s.stage = .initializing →
      Step numNodes front s { s with stage := .allocating, id := some front }
  | stops (stage : Stage) : s.stage = .initializing ∨ s.stage = .allocating → stage ≠ .allocating →
      Step numNodes front s { s with stage := stage }
  | starts : s.stage = .allocating → s.started < numNodes →
      Step numNodes front s { s with started := s.started + 1 }
  | reports (i : Nat) : i < s.started → s.reported i = false → Step numNodes front s { s with
      reported := Function.update s.reported i true
      allocatedNodes := s.allocatedNodes + 1
      times := s.times + if (s.allocatedNodes + 1 : Int) = numNodes then 1 else 0 }
  | faults (i : Nat) (e : ObjectFault.Event) (node : ObjectFault.State Printer) : i < s.started →
      (∀ t value, e = .answer t value → s.id = some value) →
      Printer.handleFault (s.node i) e = some node →
      Step numNodes front s { s with node := Function.update s.node i node }
  | misses (i : Nat) : i < s.started → s.id = none →
      Step numNodes front s { s with failed := some .missing }
  | sends (i t p : Nat) (call : Call) : i < s.started → (s.node i).pc t = .done p →
      Step numNodes front s (s.print i p call.payload)
  | receives (i : Nat) (dst : NetworkId) (rest : List (NetworkId × List Byte))
      (chain : List (List Byte)) : s.flight i = (dst, chain.flatten) :: rest →
      Step numNodes front s
        (({ s with flight := Function.update s.flight i rest }).receive front i dst chain)

theorem step_cases {e : Event} (h : step numNodes front s e = some t) :
    Step numNodes front s t := by
  cases e with
  | initialized ok =>
    obtain ⟨hs, h⟩ := Option.ite_none_right_eq_some.mp h
    cases h
    cases ok with
    | true => exact .publishes hs
    | false => exact .stops .serving (.inl hs) (by decide)
  | allocate ok =>
    obtain ⟨hs, h⟩ := Option.ite_none_right_eq_some.mp h
    split at h
    · rename_i hlt
      cases h
      cases ok with
      | true => exact .starts hs hlt
      | false => exact .stops .exited (.inr hs) (by decide)
    · cases h
      exact .stops .serving (.inr hs) (by decide)
  | reported i =>
    obtain ⟨hi, h⟩ := Option.ite_none_right_eq_some.mp h
    cases h
    exact .reports i hi.2.1 hi.2.2
  | run i t =>
    obtain ⟨hi, h⟩ := Option.ite_none_right_eq_some.mp h
    obtain ⟨node, hnode, rfl⟩ := Option.map_eq_some_iff.mp h
    exact .faults i (.run t) node hi (fun t' value he => by cases he) hnode
  | get i t =>
    obtain ⟨hi, h⟩ := Option.ite_none_right_eq_some.mp h
    split at h
    · rename_i id hid
      obtain ⟨node, hnode, rfl⟩ := Option.map_eq_some_iff.mp h
      refine .faults i (.answer t id) node hi.2.1 (fun t' value he => ?_) hnode
      cases he
      exact hid
    · rename_i hid
      cases h
      exact .misses i hi.2.1 hid
  | print i t call =>
    cases hp : (s.node i).pc t with
    | done p =>
      simp only [step, hp] at h
      obtain ⟨hi, h⟩ := Option.ite_none_right_eq_some.mp h
      cases h
      exact .sends i t p call hi hp
    | _ => simp [step, hp] at h
  | deliver i chain =>
    cases hf : s.flight i with
    | nil => simp [step, hf] at h
    | cons m rest =>
      obtain ⟨dst, bytes⟩ := m
      simp only [step, hf] at h
      obtain ⟨⟨-, hbytes⟩, hs⟩ := Option.ite_none_right_eq_some.mp h
      subst hbytes
      cases hs
      exact .receives i dst rest chain hf

end EbbrtContrib.PrinterNetwork
