import EbbrtContrib.InputTests
import EbbrtContrib.StreamMessages

namespace EbbrtContrib.RemoteStream

open Chain CString FileStream InputStream InputTests StreamMessages Runs

/-- A `kSTREAM_DATA` message that the front end has passed to the messenger. Its buffers are
`stream_data_msg_` and the first `size` bytes of `buffer_`, which it does not copy. -/
structure Outgoing where
  size : Size
  transmitted : Bool
  deriving DecidableEq, Repr

/-- The front end has `stream`, `offset`, `buffer`, `avail` of `stream_data_msg_` and `messages`,
the buffers that are not freed yet. It has `crashed` when it used a null buffer. `wire` is what was
transmitted. The node has `received`, the calls of its consumer, and `console`; `eofs` counts the
ends of the stream that it was told, and `threw` is an exception in the handler of a message. -/
structure State where
  stream : InputStream.State
  offset : Nat
  buffer : List Byte
  avail : UInt64
  messages : List Outgoing
  crashed : Bool
  wire : List (List Byte)
  received : List (List Byte × UInt64)
  console : List Byte
  eofs : Nat
  threw : Bool
  deriving DecidableEq, Repr

def State.init (memory : List Byte) (avail : UInt64) : State :=
  ⟨.init, 0, memory, avail, [], false, [], [], [], 0, false⟩

/-- The loops of the consumers over a chain: what they write, and whether they throw. -/
abbrev Loop := List (List Byte) → List Byte × Bool

/-- `standardin_test`, which no dot ends on a file. -/
def standardin (write : Write) : Loop := fun chain =>
  ((dump write true chain).1, (dump write true chain).2 = .throws)

/-- `filein_test` writes empty buffers as well. -/
def filein (write : Write) : Loop
  | [] => ([], false)
  | b :: bs =>
    if write b = 0 then ([], true)
    else (b.take (write b) ++ (filein write bs).1, (filein write bs).2)

variable (f : File) (pad : BitVec 32) (loop : Loop)

/-- The consumer that the front end installs on `kSTREAM_START`. It sets `avail`, and reads the
length of `buf` before it tests it. -/
def State.pass (s : State) (call : InputStream.Call) : State :=
  match call.data with
  | none => { s with avail := UInt64.ofNat call.avail.toNat, crashed := true }
  | some n => { s with
      avail := UInt64.ofNat call.avail.toNat
      messages := s.messages ++ [⟨n, false⟩] }

/-- The stream goes on to `stream`, with the calls of the consumer on its way. -/
def State.follow (s : State) (stream : InputStream.State) : State :=
  (stream.calls.drop s.stream.calls.length).foldl State.pass { s with stream := stream }

/-- The bytes of a message, as its buffers are when it is transmitted. -/
def State.image (s : State) (m : Outgoing) : List Byte :=
  (⟨pad, s.avail⟩ : StreamDataMsg).image ++ s.buffer.take m.size.toNat

/-- A call of the consumer on the node. -/
def State.consume (s : State) (call : StreamMessages.Call (List (List Byte))) : State :=
  match call.buf with
  | none => { s with eofs := s.eofs + 1 }
  | some chain => { s with
      received := s.received ++ [(chain.flatten, call.avail)]
      console := s.console ++ (loop chain).1
      threw := (loop chain).2 }

/-- `process_message` on the node, for a message that has come in the buffers of `chain`. -/
def State.receive (s : State) (chain : List (List Byte)) : State :=
  match processMessage listChain chain with
  | .ok (.consumer call) => s.consume loop call
  | .ok _ => s
  | .error _ => { s with threw := true }

/-- `start` is a `kSTREAM_START` that the front end gets, `read` the spawned read of `n` bytes,
`transmit` and `free` the messenger with the first message that it has to, and `deliver` the
message at the node. -/
inductive Event
  | start
  | read (i n : Nat)
  | transmit
  | free
  | deliver (chain : List (List Byte))
  deriving DecidableEq, Repr

def step (s : State) : Event → Option State
  | .start =>
    if s.crashed then none
    else (InputStream.step f.source s.stream .start).map fun stream => s.follow stream
  | .read i n =>
    if s.crashed = false ∧ 1 ≤ n ∧ n ≤ kBufferSize ∧ s.offset + n ≤ f.bytes.length then
      (InputStream.step f.source s.stream (.run i (BitVec.ofNat 64 n))).map fun stream =>
        { s with
          buffer := fill s.buffer ((f.bytes.drop s.offset).take n)
          offset := s.offset + n }.follow stream
    else none
  | .transmit =>
    match s.messages.dropWhile (·.transmitted) with
    | [] => none
    | m :: rest =>
      if s.crashed then none
      else some { s with
        messages := s.messages.takeWhile (·.transmitted) ++ { m with transmitted := true } :: rest
        wire := s.wire ++ [s.image pad m] }
  | .free =>
    match s.messages with
    | ⟨_, true⟩ :: rest =>
      if s.crashed then none
      else (InputStream.step f.source s.stream (.dispose 0)).map fun stream =>
        { s with messages := rest }.follow stream
    | _ => none
  | .deliver chain =>
    match s.wire with
    | bytes :: rest =>
      if s.threw = false ∧ chain.flatten = bytes then
        some ({ s with wire := rest }.receive loop chain)
      else none
    | [] => none

end EbbrtContrib.RemoteStream
