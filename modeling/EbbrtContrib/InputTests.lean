import EbbrtContrib.FileStream

namespace EbbrtContrib.InputTests

open CString InputStream FileStream Runs

/-- What is behind the stream `sin`: a descriptor that asio reads, or a regular file, from `start`
on. -/
inductive Input
  | device
  | file (f : File) (start : Nat)

def Input.source : Input → Source
  | .device => ⟨true, 0⟩
  | .file f _ => f.source

/-- What can still be read of a file whose descriptor is at `offset`. -/
def Input.rest : Input → Nat → List Byte
  | .device, _ => []
  | .file f _, offset => f.bytes.drop offset

def Input.start : Input → Nat
  | .device => 0
  | .file _ start => start

def Input.isFile : Input → Bool
  | .device => false
  | .file _ _ => true

/-- Where the test is: before its start, blocked in `SaveContext`, put back by `ActivateContext`, or
behind it. -/
inductive Place
  | outside
  | saved
  | activated
  | returned
  deriving DecidableEq, Repr

/-- `console` is what was written, `eofs` how often the end of the stream was told, `misused`
whether a context was activated that was not saved, and `threw` whether an exception has left the
consumer. `arrived` records what was read. -/
structure State where
  stream : InputStream.State
  place : Place
  buffer : List Byte
  offset : Nat
  console : List Byte
  eofs : Nat
  misused : Bool
  threw : Bool
  arrived : List (List Byte)
  deriving DecidableEq, Repr

def State.init (input : Input) (memory : List Byte) : State :=
  ⟨.init, .outside, memory, input.start, [], 0, false, false, []⟩

/-- `'.'` -/
def dot : Byte := 0x2e

/-- What `console::Write`, which is not part of the repository, answers for a buffer: how many of
its bytes it has written. -/
abbrev Write := List Byte → Nat

/-- It writes every buffer as a whole. -/
def Write.Whole (write : Write) : Prop := ∀ b, write b = b.length

/-- How the loop of a consumer comes to its end. -/
inductive Outcome
  | through
  | ends
  | throws
  deriving DecidableEq, Repr

/-- The loop of the consumer over the buffers of a chain: what is written, and whether it ends the
test. -/
def dump (write : Write) (isFile : Bool) : List (List Byte) → List Byte × Outcome
  | [] => ([], .through)
  | b :: bs =>
    if b = [] then dump write isFile bs
    else if write b = 0 then ([], .throws)
    else if isFile = false ∧ b.head? = some dot then (b.take (write b), .ends)
    else (b.take (write b) ++ (dump write isFile bs).1, (dump write isFile bs).2)

variable (write : Write) (input : Input)

/-- `async_read_stop` and `ActivateContext` -/
def State.finish (s : State) : State :=
  { s with
    stream := asyncReadStop input.source s.stream
    place := if s.place = .saved then .activated else s.place
    misused := s.misused || decide (s.place ≠ .saved) }

/-- A call of the consumer. -/
def State.consume (s : State) (call : Call) : State :=
  match call.data with
  | none => { s with eofs := s.eofs + 1 }.finish input
  | some n =>
    let out := dump write input.isFile [s.buffer.take n.toNat]
    let s := { s with console := s.console ++ out.1 }
    match out.2 with
    | .through => s
    | .ends => s.finish input
    | .throws => { s with threw := true }

/-- The stream goes on to `stream`, with the calls of the consumer on its way. -/
def State.follow (s : State) (stream : InputStream.State) : State :=
  (stream.calls.drop s.stream.calls.length).foldl (State.consume write input)
    { s with stream := stream }

/-- The consumer owns the buffer that it is called with, so its disposal comes right behind. -/
def State.release (s : State) : State :=
  match InputStream.step input.source s.stream (.dispose 0) with
  | some stream => s.follow write input stream
  | none => s

/-- `complete` is asio queueing the handler of a read, with the bytes unless it failed, `handle`
that handler, and `read` the spawned read of a file, which gets `n` bytes. -/
inductive Event
  | start
  | complete (i : Nat) (r : Option (List Byte))
  | handle (i : Nat) (readable : Option Size)
  | read (i n : Nat)
  | resume
  deriving DecidableEq, Repr

def completion : Option (List Byte) → Completion
  | none => .error
  | some data => .data (BitVec.ofNat 64 data.length)

def react (s : State) : Event → Option State
  | .start =>
    if s.place = .outside then
      (InputStream.step input.source s.stream .start).map fun stream =>
        { s with place := .saved }.follow write input stream
    else none
  | .complete i r =>
    if (r.elim 0 List.length) ≤ kBufferSize then
      (InputStream.step input.source s.stream (.complete i (completion r))).map fun stream =>
        { s with
          stream := stream
          buffer := fill s.buffer (r.getD [])
          arrived := s.arrived ++ r.toList }
    else none
  | .handle i readable =>
    (InputStream.step input.source s.stream (.handle i readable)).map fun stream =>
      (s.follow write input stream).release write input
  | .read i n =>
    let data := (input.rest s.offset).take n
    if n ≤ kBufferSize ∧ data.length = n ∧ (n = 0 → input.rest s.offset = []) then
      (InputStream.step input.source s.stream (.run i (BitVec.ofNat 64 n))).map fun stream =>
        ({ s with
          buffer := fill s.buffer data
          offset := s.offset + n
          arrived := s.arrived ++ [data] }.follow write input stream).release write input
    else none
  | .resume => if s.place = .activated then some { s with place := .returned } else none

/-- `standardin_test` on the front end. Nothing is said about what follows an exception. -/
def step (s : State) (e : Event) : Option State := if s.threw then none else react write input s e

variable {write}

theorem take_write (hw : write.Whole) (b : List Byte) : b.take (write b) = b := by
  rw [hw b, List.take_length]

theorem write_eq_zero_iff (hw : write.Whole) (b : List Byte) : write b = 0 ↔ b = [] := by
  rw [hw b, List.length_eq_zero_iff]

/-- On a file the loop writes all bytes of a chain, however they are split over its buffers. -/
theorem dump_file (hw : write.Whole) (chain : List (List Byte)) :
    dump write true chain = (chain.flatten, .through) := by
  induction chain with
  | nil => rfl
  | cons b bs ih =>
    rw [dump, ih]
    split
    · rename_i hb
      rw [hb]
      rfl
    · rename_i hb
      rw [if_neg fun h => hb ((write_eq_zero_iff hw b).mp h),
        if_neg fun h => absurd h.1 (by decide), take_write hw]
      rfl

theorem dump_one (hw : write.Whole) (isFile : Bool) (b : List Byte) :
    dump write isFile [b] =
      (b, if isFile = false ∧ b.head? = some dot then .ends else .through) := by
  rw [dump]
  split
  · rename_i hb
    subst hb
    simp [dump]
  · rename_i hb
    rw [if_neg fun h => hb ((write_eq_zero_iff hw b).mp h), take_write hw]
    split
    · rfl
    · rw [dump, List.append_nil]

end EbbrtContrib.InputTests
