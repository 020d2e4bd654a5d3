import Mathlib.Logic.Function.Basic
import EbbrtContrib.InputStream

namespace EbbrtContrib.StreamNodes

open InputStream (Source Size Call asyncReadStart asyncReadStop handler_keeps readFile_keeps
  disposal_keeps)

/-- `kSTREAM_START` and `kSTREAM_STOP`, with the session of the sender that they are about. -/
inductive Request
  | start (k : Nat)
  | stop (k : Nat)
  deriving DecidableEq, Repr

/-- `kSTREAM_DATA`, with the session of the receiver whose start began the read that it is of. -/
structure Data where
  session : Nat
  data : Option Size
  avail : Size
  deriving DecidableEq, Repr

/-- The stream of a back end, with its messages in flight to and from the front end. -/
structure Node where
  doRead : Bool
  session : Nat
  up : List Request
  down : List Data
  calls : List Call
  deriving DecidableEq, Repr

/-- `target` is the node, and its session, that the consumer of each session of the front
end's stream has captured. The front end has `crashed` when its consumer used a null buffer. -/
structure System where
  stream : InputStream.State
  crashed : Bool
  target : Nat → Nat × Nat
  node : Nat → Node

def Node.init : Node := ⟨false, 0, [], [], []⟩

def System.init : System where
  stream := .init
  crashed := false
  target := fun _ => (0, 0)
  node := fun _ => .init

/-- `async_read_start` on a back end. -/
def Node.asyncReadStart (v : Node) : Node :=
  if v.doRead = true then v
  else { v with
    doRead := true, session := v.session + 1, up := v.up ++ [.start (v.session + 1)] }

/-- `async_read_stop` on a back end. -/
def Node.asyncReadStop (v : Node) : Node :=
  if v.doRead = false then v
  else { v with doRead := false, up := v.up ++ [.stop v.session] }

/-- A back end passes the data on to its consumer whatever its `doRead_` is. -/
def Node.receive (v : Node) (d : Data) (rest : List Data) : Node :=
  { v with
    down := rest, calls := v.calls ++ [⟨v.session, d.session, d.data, d.avail, v.doRead⟩] }

def System.setNode (s : System) (n : Nat) (v : Node) : System :=
  { s with node := Function.update s.node n v }

/-- The messages that a call of the front end's consumer sends to node `n`. A session of another
node, which cannot be one of `n`, is told as 0. -/
def System.message (s : System) (n : Nat) (c : Call) : Option Data :=
  match c.data with
  | none => none
  | some size =>
    if (s.target c.consumer).1 = n then
      some ⟨if (s.target c.origin).1 = n then (s.target c.origin).2 else 0, some size, c.avail⟩
    else none

/-- The front end's stream moves on, and its consumer sends what it is called with. It reads the
length of a null buffer before it tests it, and the front end does nothing any more. -/
def System.serve (s : System) (t : InputStream.State) : System :=
  let calls := t.calls.drop s.stream.calls.length
  { s with
    stream := t
    crashed := s.crashed || calls.any (·.data.isNone)
    node := fun n => { s.node n with down := (s.node n).down ++ calls.filterMap (s.message n) } }

variable (src : Source)

/-- `process_message` for the requests of node `n`. -/
def System.process (s : System) (n : Nat) : Request → System
  | .start k =>
    if s.stream.doRead = true then s
    else { s with
      stream := asyncReadStart src s.stream
      target := Function.update s.target (s.stream.session + 1) (n, k) }
  | .stop _ => { s with stream := asyncReadStop src s.stream }

/-- `start` and `stop` are calls on a back end, `request` and `data` the arrival of the
oldest message in either direction, and `stream` an event of the front end's stream. -/
inductive Event
  | start (n : Nat)
  | stop (n : Nat)
  | request (n : Nat)
  | data (n : Nat)
  | stream (e : InputStream.Event)
  deriving DecidableEq, Repr

/-- The events of a stream other than its start and stop. -/
def Internal : InputStream.Event → Prop
  | .start | .stop => False
  | _ => True

instance : (e : InputStream.Event) → Decidable (Internal e)
  | .start => inferInstanceAs (Decidable False)
  | .stop => inferInstanceAs (Decidable False)
  | .complete _ _ => inferInstanceAs (Decidable True)
  | .handle _ _ => inferInstanceAs (Decidable True)
  | .run _ _ => inferInstanceAs (Decidable True)
  | .dispose _ => inferInstanceAs (Decidable True)

def step (s : System) : Event → Option System
  | .start n => some (s.setNode n (s.node n).asyncReadStart)
  | .stop n => some (s.setNode n (s.node n).asyncReadStop)
  | .request n =>
    match (s.node n).up with
    | [] => none
    | r :: rest =>
      if s.crashed then none
      else some ((s.setNode n { s.node n with up := rest }).process src n r)
  | .data n =>
    match (s.node n).down with
    | [] => none
    | d :: rest => some (s.setNode n ((s.node n).receive d rest))
  | .stream e =>
    if Internal e ∧ s.crashed = false then (InputStream.step src s.stream e).map s.serve else none

variable {src} {s t : System} {n : Nat}

/-- Everything a step can do, as a relation. -/
inductive Step (src : Source) (s : System) : Event → System → Prop
  | start (n : Nat) : Step src s (.start n) (s.setNode n (s.node n).asyncReadStart)
  | stop (n : Nat) : Step src s (.stop n) (s.setNode n (s.node n).asyncReadStop)
  | request (n : Nat) (r : Request) (rest : List Request) : (s.node n).up = r :: rest →
      s.crashed = false →
      Step src s (.request n) ((s.setNode n { s.node n with up := rest }).process src n r)
  | data (n : Nat) (d : Data) (rest : List Data) : (s.node n).down = d :: rest →
      Step src s (.data n) (s.setNode n ((s.node n).receive d rest))
  | stream (e : InputStream.Event) (t : InputStream.State) : Internal e → s.crashed = false →
      InputStream.Step src s.stream e t → Step src s (.stream e) (s.serve t)

theorem step_cases {e : Event} (h : step src s e = some t) : Step src s e t := by
  cases e with
  | start n =>
    cases h
    exact .start n
  | stop n =>
    cases h
    exact .stop n
  | request n =>
    simp only [step] at h
    split at h
    · cases h
    · rename_i r rest hup
      obtain ⟨hcrashed, hs⟩ := Option.ite_none_left_eq_some.mp h
      cases hs
      exact .request n r rest hup (Bool.eq_false_of_not_eq_true hcrashed)
  | data n =>
    simp only [step] at h
    split at h
    · cases h
    · rename_i d rest hdown
      cases h
      exact .data n d rest hdown
  | stream e =>
    obtain ⟨⟨he, hcrashed⟩, hs⟩ := Option.ite_none_right_eq_some.mp h
    obtain ⟨u, hu, ht⟩ := Option.map_eq_some_iff.mp hs
    cases ht
    exact .stream e u he hcrashed (InputStream.step_cases hu)

/-- Only start and stop change whether a stream is started, and for whom. -/
theorem internal_keeps {u v : InputStream.State} {e : InputStream.Event} (he : Internal e)
    (h : InputStream.Step src u e v) : v.doRead = u.doRead ∧ v.session = u.session := by
  cases h with
  | start => exact he.elim
  | stop => exact he.elim
  | complete => exact ⟨rfl, rfl⟩
  | handle i session r readable hp => exact handler_keeps _ session r readable
  | run i session n hp hn => exact readFile_keeps src _ session n
  | dispose i c hp => exact disposal_keeps src _ c

@[simp] theorem setNode_node (s : System) (n m : Nat) (v : Node) :
    (s.setNode n v).node m = if m = n then v else s.node m :=
  Function.update_apply s.node n v m

@[simp] theorem process_node (s : System) (n : Nat) (r : Request) :
    (s.process src n r).node = s.node := by
  cases r with
  | start k =>
    simp only [System.process]
    split <;> rfl
  | stop k => rfl

end EbbrtContrib.StreamNodes
