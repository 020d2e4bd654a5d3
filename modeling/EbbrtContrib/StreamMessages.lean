import EbbrtContrib.Chain
import EbbrtContrib.Fallible
import EbbrtContrib.LittleEndian

namespace EbbrtContrib.StreamMessages

open CString Chain LittleEndian Fallible

variable {C : Type}

inductive Fault
  | nullDereference
  | shortMessage
  deriving DecidableEq, Repr

inductive MessageType
  | kSTREAM_START
  | kSTREAM_DATA
  | kSTREAM_STOP
  deriving DecidableEq, Repr

def MessageType.code : MessageType → Nat
  | .kSTREAM_START => 0
  | .kSTREAM_DATA => 1
  | .kSTREAM_STOP => 2

/-- `stream_data_msg_`: the type, four bytes of padding whose content is whatever the
memory holds, and the eight bytes of `avail`. -/
structure StreamDataMsg where
  pad : BitVec 32
  avail : UInt64

def StreamDataMsg.image (m : StreamDataMsg) : List Byte :=
  toLE 4 MessageType.kSTREAM_DATA.code ++ (toLE 4 m.pad.toNat ++ toLE 8 m.avail.toNat)

def sizeofMessage : Nat := 4
def sizeofStreamStartMsg : Nat := 4
def sizeofStreamDataMsg : Nat := 16

/-- A call of a consumer: a buffer chain, or null, and `avail`. -/
structure Call (C : Type) where
  buf : Option C
  avail : UInt64

def deref (buf : Option C) : Except Fault C :=
  match buf with
  | some b => .ok b
  | none => .error .nullDereference

/-- The consumer that the frontend installs on `kSTREAM_START`: the message it sends for
one call. The trace line reads the length of `buf` before `buf` is tested. -/
def streamConsumer (io : IOBuf C) (pad : BitVec 32) (call : Call C) : Except Fault C := do
  let streamDataMsg : StreamDataMsg := ⟨pad, call.avail⟩
  let _len := io.computeChainDataLength (← deref call.buf)
  let msgBuf := io.create streamDataMsg.image
  match call.buf with
  | some buf => return io.appendChain msgBuf buf
  | none => return msgBuf

/-- What `process_message` does with the representative. -/
inductive Action (C : Type)
  | asyncReadStart
  | consumer (call : Call C)
  | asyncReadStop
  | unknown (type : Nat)

def getOrThrow (io : IOBuf C) (n : Nat) (buf : C) : Except Fault (List Byte) :=
  match io.get n buf with
  | some bs => .ok bs
  | none => .error .shortMessage

def processMessage (io : IOBuf C) (buf : C) : Except Fault (Action C) := do
  let msg ← getOrThrow io sizeofMessage buf
  let type := ofLE msg
  if type = MessageType.kSTREAM_START.code then
    let _m ← getOrThrow io sizeofStreamStartMsg buf
    return .asyncReadStart
  else if type = MessageType.kSTREAM_DATA.code then
    let m ← getOrThrow io sizeofStreamDataMsg buf
    let avail := UInt64.ofNat (ofLE (m.drop 8))
    let buf := io.advanceChain sizeofStreamDataMsg buf
    if io.computeChainDataLength buf = 0 then
      return .consumer ⟨none, 0⟩
    else
      return .consumer ⟨some buf, avail⟩
  else if type = MessageType.kSTREAM_STOP.code then
    return .asyncReadStop
  else
    return .unknown type

@[simp] theorem length_image (m : StreamDataMsg) : m.image.length = sizeofStreamDataMsg := by
  simp [StreamDataMsg.image, sizeofStreamDataMsg]

theorem type_image (m : StreamDataMsg) (rest : List Byte) :
    ofLE ((m.image ++ rest).take sizeofMessage) = MessageType.kSTREAM_DATA.code := by
  rw [StreamDataMsg.image, List.append_assoc, sizeofMessage,
    List.take_append_of_le_length (by simp), List.take_of_length_le (by simp),
    ofLE_toLE _ _ (by decide)]

theorem avail_image (m : StreamDataMsg) (rest : List Byte) :
    UInt64.ofNat (ofLE (((m.image ++ rest).take sizeofStreamDataMsg).drop 8)) = m.avail := by
  have htake : (m.image ++ rest).take sizeofStreamDataMsg = m.image := by
    rw [List.take_append_of_le_length (by simp), List.take_of_length_le (by simp)]
  have hdrop : m.image.drop 8 = toLE 8 m.avail.toNat := by
    rw [StreamDataMsg.image, ← List.append_assoc]
    exact List.drop_left' (by simp)
  rw [htake, hdrop, ofLE_toLE _ _ m.avail.toNat_lt]
  simp

/-- What a consumer gets to see of a call. -/
def Call.view (io : IOBuf C) (call : Call C) : Option (List Byte) × UInt64 :=
  (call.buf.map io.bytes, call.avail)

def Action.view (io : IOBuf C) : Action C → Option (Option (List Byte) × UInt64)
  | .consumer call => some (call.view io)
  | .asyncReadStart | .asyncReadStop | .unknown _ => none

/-- A message that carries `payload` is handed on as the bytes of the payload, or as the
end of the stream when there are none, however the message is split over its chain. -/
theorem processMessage_data (io : IOBuf C) (m : StreamDataMsg) (payload : List Byte) (buf : C)
    (h : io.bytes buf = m.image ++ payload) :
    ∃ action, processMessage io buf = .ok action ∧
      action.view io = some (if payload = [] then (none, 0) else (some payload, m.avail)) := by
  have hlen : sizeofStreamDataMsg ≤ (io.bytes buf).length := by simp [h]
  have hget : ∀ n ≤ sizeofStreamDataMsg, getOrThrow io n buf =
      .ok ((m.image ++ payload).take n) := fun n hn => by
    rw [getOrThrow, io.get_eq, if_pos (Nat.le_trans hn hlen), h]
  have hrest : io.bytes (io.advanceChain sizeofStreamDataMsg buf) = payload := by
    rw [io.bytes_advanceChain _ _ hlen, h]
    exact List.drop_left' (length_image m)
  have hcount : io.computeChainDataLength (io.advanceChain sizeofStreamDataMsg buf) =
      payload.length := by rw [io.length_eq, hrest]
  have hrun : processMessage io buf = .ok (.consumer
      (if payload.length = 0 then ⟨none, 0⟩
       else ⟨some (io.advanceChain sizeofStreamDataMsg buf), m.avail⟩)) := by
    rw [processMessage, hget sizeofMessage (by decide), ok_bind, type_image,
      hget sizeofStreamDataMsg (Nat.le_refl _), ok_bind, avail_image]
    dsimp only
    rw [if_neg (by decide), if_pos rfl, hcount]
    split <;> rfl
  refine ⟨_, hrun, ?_⟩
  by_cases hp : payload = []
  · simp [hp, Action.view, Call.view]
  · simp [hp, Action.view, Call.view, hrest]

/-- A chunk that a reader hands to a consumer. -/
structure Chunk (io : IOBuf C) where
  buf : C
  avail : UInt64
  nonempty : io.bytes buf ≠ []

def Chunk.call {io : IOBuf C} (chunk : Chunk io) : Call C := ⟨some chunk.buf, chunk.avail⟩

/-- The calls of a reader: its chunks and, once the stream has ended, `(nullptr, 0)`. -/
def calls {io : IOBuf C} (chunks : List (Chunk io)) (ended : Bool) : List (Call C) :=
  chunks.map Chunk.call ++ if ended then [⟨none, 0⟩] else []

/-- One message for each call, and on the other side the same calls, whatever chains the
messages arrive in. -/
def Faithful (io : IOBuf C) (pad : BitVec 32) (cs : List (Call C)) : Prop :=
  ∃ msgs, cs.mapM (streamConsumer io pad) = .ok msgs ∧ msgs.length = cs.length ∧
    ∀ received : List C, received.map io.bytes = msgs.map io.bytes →
      ∃ actions, received.mapM (processMessage io) = .ok actions ∧
        actions.map (Action.view io) = cs.map fun call => some (call.view io)

/-- `msg` is the message for a call with a buffer that is not empty. -/
def Carries (io : IOBuf C) (pad : BitVec 32) (call : Call C) (msg : C) : Prop :=
  ∃ payload, payload ≠ [] ∧ call.view io = (some payload, call.avail) ∧
    io.bytes msg = (⟨pad, call.avail⟩ : StreamDataMsg).image ++ payload

theorem streamConsumer_chunk {io : IOBuf C} (pad : BitVec 32) (chunk : Chunk io) :
    ∃ msg, streamConsumer io pad chunk.call = .ok msg ∧ Carries io pad chunk.call msg :=
  ⟨_, rfl, io.bytes chunk.buf, chunk.nonempty, rfl, by simp [Chunk.call]⟩

theorem streamConsumer_null (io : IOBuf C) (pad : BitVec 32) (avail : UInt64) :
    streamConsumer io pad ⟨none, avail⟩ = .error .nullDereference := rfl

theorem received_calls {io : IOBuf C} {pad : BitVec 32} {cs : List (Call C)} {msgs : List C}
    (h : List.Forall₂ (Carries io pad) cs msgs) (received : List C)
    (hr : received.map io.bytes = msgs.map io.bytes) :
    ∃ actions, received.mapM (processMessage io) = .ok actions ∧
      actions.map (Action.view io) = cs.map fun call => some (call.view io) := by
  induction h generalizing received with
  | nil =>
    rw [List.map_nil, List.map_eq_nil_iff] at hr
    subst hr
    exact ⟨[], rfl, rfl⟩
  | @cons call msg cs msgs hcarry _ ih =>
    obtain ⟨buf, rest, rfl, hbuf, hrest⟩ := List.map_eq_cons_iff.mp hr
    obtain ⟨payload, hne, hview, hbytes⟩ := hcarry
    obtain ⟨action, haction, hav⟩ := processMessage_data io _ payload buf (hbuf.trans hbytes)
    obtain ⟨actions, hactions, havs⟩ := ih rest hrest
    refine ⟨action :: actions, by simp [List.mapM_cons, haction, hactions], ?_⟩
    rw [List.map_cons, List.map_cons, havs, hav, if_neg hne, hview]

theorem chunks_faithful {io : IOBuf C} (pad : BitVec 32) (chunks : List (Chunk io)) :
    Faithful io pad (chunks.map Chunk.call) := by
  have hstep : ∀ call ∈ chunks.map Chunk.call, ∃ msg,
      streamConsumer io pad call = .ok msg ∧ Carries io pad call msg := by
    intro call hm
    obtain ⟨chunk, -, rfl⟩ := List.mem_map.mp hm
    exact streamConsumer_chunk pad chunk
  obtain ⟨msgs, hmsgs, hcarry⟩ := mapM_ok _ hstep
  exact ⟨msgs, hmsgs, hcarry.length_eq.symm, received_calls hcarry⟩

/-- A stream reaches the other node unchanged as long as it has not ended: the call that
ends it dereferences the null buffer. -/
theorem stream_faithful_iff {io : IOBuf C} (pad : BitVec 32) (chunks : List (Chunk io))
    (ended : Bool) : Faithful io pad (calls chunks ended) ↔ ended = false := by
  cases ended with
  | false => exact iff_of_true (by simpa [calls] using chunks_faithful pad chunks) rfl
  | true =>
    refine iff_of_false ?_ (by decide)
    rintro ⟨msgs, hmsgs, -⟩
    have hm : (⟨none, 0⟩ : Call C) ∈ calls chunks true := by simp [calls]
    exact mapM_ne_ok hm (streamConsumer_null io pad 0) msgs hmsgs

/-- One byte and then the end of the stream. -/
theorem ended_not_faithful :
    ¬ ∀ chunks : List (Chunk listChain), Faithful listChain 0 (calls chunks true) := by
  intro h
  obtain ⟨msgs, hmsgs, -⟩ := h [⟨[[0x61]], 0, by decide⟩]
  cases hmsgs

end EbbrtContrib.StreamMessages
