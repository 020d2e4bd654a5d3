import EbbrtContrib.Fallible
import EbbrtContrib.LittleEndian
import EbbrtContrib.OpenStream

namespace EbbrtContrib.FsMessages

open Fallible LittleEndian
open OpenStream (Path EbbId)

abbrev Byte := UInt8

inductive Fault
  | outOfBounds
  | nullPromise
  deriving DecidableEq, Repr

inductive MessageType
  | kOPEN_STREAM
  | kSTREAM_ID
  | kPROCESS_EXIT
  deriving DecidableEq, Repr

def MessageType.code : MessageType → Nat
  | .kOPEN_STREAM => 0
  | .kSTREAM_ID => 1
  | .kPROCESS_EXIT => 2

/-- `sizeof(OpenStreamMsg)`, `sizeof(StreamIdMsg)` and `sizeof(ProcessExitMsg)`. -/
def MessageType.size : MessageType → Nat
  | .kOPEN_STREAM => 4
  | .kSTREAM_ID => 8
  | .kPROCESS_EXIT => 8

def sizeofMessage : Nat := 4

/-- A received chain, by its first buffer and the others. -/
structure Buffers where
  first : List Byte
  rest : List (List Byte)
  deriving DecidableEq, Repr

def Buffers.bytes (b : Buffers) : List Byte := b.first ++ b.rest.flatten

/-- A load of `n` bytes behind `Data()`, which is the data of the first buffer only. -/
def Buffers.load (b : Buffers) (i n : Nat) : Except Fault (List Byte) :=
  if i + n ≤ b.first.length then .ok ((b.first.drop i).take n) else .error .outOfBounds

/-- `Advance`, on the first buffer only. -/
def Buffers.advance (b : Buffers) (n : Nat) : Buffers := { b with first := b.first.drop n }

inductive Node
  | frontend
  | backend
  deriving DecidableEq, Repr

/-- `p_`, by the request that it was allocated for, and the number of the next request. -/
structure Root where
  p : Option Nat
  next : Nat
  deriving DecidableEq, Repr

/-- What `process_message` does outside the root; `threw` is an exception that it passes on. -/
inductive Action
  | openInputStream (path : Path)
  | request (path : Path)
  | threw
  | setValue (request : Nat) (id : EbbId)
  | exit (val : Nat)
  | ignored
  deriving DecidableEq, Repr

/-- `Root::open_stream` on a backend. -/
def Root.openStream (r : Root) (path : Path) : Root × Action :=
  match r.p with
  | some _ => (r, .threw)
  | none => (⟨some r.next, r.next + 1⟩, .request path)

def processMessage (node : Node) (r : Root) (buf : Buffers) : Except Fault (Root × Action) := do
  let type := ofLE (← buf.load 0 sizeofMessage)
  if type = MessageType.kOPEN_STREAM.code then
    let path := (buf.advance MessageType.kOPEN_STREAM.size).first
    match node with
    | .frontend => return (r, .openInputStream path)
    | .backend => return r.openStream path
  else if type = MessageType.kSTREAM_ID.code then
    let id := ofLE (← buf.load 4 4)
    match r.p with
    | none => .error .nullPromise
    | some k => return ({ r with p := none }, .setValue k id)
  else if type = MessageType.kPROCESS_EXIT.code then
    let val := ofLE (← buf.load 4 4)
    match node with
    | .frontend => return (r, .exit val)
    | .backend => return (r, .ignored)
  else
    return (r, .ignored)

/-- What the two buffers of an open request refer to. -/
inductive Object
  | openStreamMsg
  | str
  deriving DecidableEq, Repr

/-- The chain that `open_stream` hands to `SendMessage`. -/
def openStreamChain : List Object := [.openStreamMsg, .str]

/-- When the messenger transmits the chain: before `open_stream` returns, or behind it, when the
memory of its string holds anything. -/
inductive Moment (path : Path)
  | during
  | after (memory : List Byte) (h : memory.length = path.length)

def memoryAt (path : Path) : Moment path → Object → List Byte
  | _, .openStreamMsg => toLE 4 MessageType.kOPEN_STREAM.code
  | .during, .str => path
  | .after memory _, .str => memory

def transmitted (path : Path) (m : Moment path) : List Byte :=
  openStreamChain.flatMap (memoryAt path m)

/-- A chain that the bytes `s` arrive in. -/
structure Received (s : List Byte) where
  buffers : Buffers
  split : buffers.bytes = s

variable {node : Node} {r : Root} {buf : Buffers}

theorem load_eq {i n : Nat} (h : i + n ≤ buf.first.length) :
    buf.load i n = .ok ((buf.first.drop i).take n) := if_pos h

theorem load_fault {i n : Nat} (h : ¬ i + n ≤ buf.first.length) :
    buf.load i n = .error .outOfBounds := if_neg h

/-- Without a whole header in the first buffer the type is read out of bounds. -/
theorem processMessage_short (node : Node) (r : Root) (h : ¬ sizeofMessage ≤ buf.first.length) :
    processMessage node r buf = .error .outOfBounds := by
  have hload : buf.load 0 sizeofMessage = .error .outOfBounds :=
    load_fault (by rwa [Nat.zero_add])
  rw [processMessage, hload]
  rfl

/-- The type in a first buffer that holds one. -/
def Buffers.type (b : Buffers) : Nat := ofLE (b.first.take sizeofMessage)

theorem processMessage_open (r : Root) (h : sizeofMessage ≤ buf.first.length)
    (htype : buf.type = MessageType.kOPEN_STREAM.code) :
    processMessage .frontend r buf =
      .ok (r, .openInputStream (buf.first.drop MessageType.kOPEN_STREAM.size)) := by
  have hload : buf.load 0 sizeofMessage = .ok (buf.first.take sizeofMessage) := by
    rw [load_eq (by rwa [Nat.zero_add]), List.drop_zero]
  rw [processMessage, hload, ok_bind]
  exact if_pos htype

theorem length_memoryAt (path : Path) (m : Moment path) :
    (memoryAt path m .str).length = path.length := by
  cases m with
  | during => rfl
  | after memory h => exact h

theorem transmitted_eq (path : Path) (m : Moment path) :
    transmitted path m = toLE 4 MessageType.kOPEN_STREAM.code ++ memoryAt path m .str := by
  rw [transmitted, openStreamChain, List.flatMap_cons, List.flatMap_singleton]
  rfl

/-- The front end opens what stands behind the header in the first buffer. -/
theorem opened_of_received {path : Path} {m : Moment path} (b : Received (transmitted path m))
    (r : Root) (h : sizeofMessage ≤ b.buffers.first.length) :
    processMessage .frontend r b.buffers = .ok (r, .openInputStream (b.buffers.first.drop 4)) ∧
      b.buffers.first.drop 4 ++ b.buffers.rest.flatten = memoryAt path m .str := by
  have hfour : 4 ≤ b.buffers.first.length := h
  have hsplit : b.buffers.first ++ b.buffers.rest.flatten =
      toLE 4 MessageType.kOPEN_STREAM.code ++ memoryAt path m .str :=
    b.split.trans (transmitted_eq path m)
  have hhead : b.buffers.first.take 4 = toLE 4 MessageType.kOPEN_STREAM.code := by
    have htake := congrArg (List.take 4) hsplit
    rwa [List.take_append_of_le_length hfour, List.take_left' (length_toLE 4 _)] at htake
  refine ⟨processMessage_open r h ?_, ?_⟩
  · rw [Buffers.type, sizeofMessage, hhead, ofLE_toLE _ _ (by decide)]
  · have hdrop := congrArg (List.drop 4) hsplit
    rwa [List.drop_append_of_le_length hfour, List.drop_left' (length_toLE 4 _)] at hdrop

/-- The front end opens the path of the request exactly when the string's memory still holds it
at the transmission and the whole message arrives in the first buffer. -/
theorem opens_path_iff (path : Path) (m : Moment path) (b : Received (transmitted path m))
    (r : Root) :
    processMessage .frontend r b.buffers = .ok (r, .openInputStream path) ↔
      memoryAt path m .str = path ∧ b.buffers.rest.flatten = [] := by
  by_cases h : sizeofMessage ≤ b.buffers.first.length
  · obtain ⟨hrun, hbytes⟩ := opened_of_received b r h
    rw [hrun, Except.ok.injEq, Prod.mk.injEq, Action.openInputStream.injEq]
    constructor
    · rintro ⟨-, hfirst⟩
      have hlen := congrArg List.length hbytes
      rw [hfirst, List.length_append, length_memoryAt] at hlen
      have hrest : b.buffers.rest.flatten = [] := List.length_eq_zero_iff.mp (by omega)
      rw [hfirst, hrest, List.append_nil] at hbytes
      exact ⟨hbytes.symm, hrest⟩
    · rintro ⟨hmem, hrest⟩
      rw [hrest, List.append_nil, hmem] at hbytes
      exact ⟨rfl, hbytes⟩
  · rw [processMessage_short .frontend r h]
    refine iff_of_false nofun ?_
    rintro ⟨-, hrest⟩
    have hlen := congrArg List.length (b.split.trans (transmitted_eq path m))
    rw [Buffers.bytes, hrest, List.append_nil, List.length_append, length_toLE] at hlen
    exact h ((Nat.le_add_right 4 _).trans_eq hlen.symm)

def ab : Path := [0x61, 0x62]

/-- The path `ab`, transmitted after its memory was reused, or received with its last byte in a
second buffer. -/
theorem path_lost :
    processMessage .frontend ⟨none, 0⟩ ⟨[0, 0, 0, 0, 0x61], [[0x62]]⟩ =
        .ok (⟨none, 0⟩, .openInputStream [0x61]) ∧
    ¬ ∀ path (m : Moment path) (b : Received (transmitted path m)) r,
      processMessage .frontend r b.buffers = .ok (r, .openInputStream path) := by
  refine ⟨rfl, fun h => ?_⟩
  have hopen := h ab (.after [0, 0] rfl) ⟨⟨[0, 0, 0, 0, 0, 0], []⟩, rfl⟩ ⟨none, 0⟩
  cases hopen

end EbbrtContrib.FsMessages
