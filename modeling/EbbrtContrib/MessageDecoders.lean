import EbbrtContrib.FsMessages
import EbbrtContrib.InputTests
import EbbrtContrib.StreamMessages

namespace EbbrtContrib.MessageDecoders

open Fallible LittleEndian Chain StreamMessages
open FsMessages (Byte Node Root Buffers)
open InputTests (Write dump)

variable {C : Type}

/-- The message of an encoding, when it is long enough to have a type and the type is known. -/
def messageType {T : Type} (types : List T) (code : T → Nat) (s : List Byte) : Option T :=
  if 4 ≤ s.length then types.find? fun t => code t = ofLE (s.take 4) else none

/-- The messages that `FS` expects in a state: requests at the front end, and an id where an open
is outstanding. -/
def FsExpected (node : Node) (r : Root) : FsMessages.MessageType → Prop
  | .kOPEN_STREAM | .kPROCESS_EXIT => node = .frontend
  | .kSTREAM_ID => r.p ≠ none

/-- A message of a known type that is long enough for it and expected. -/
def FsAccepts (node : Node) (r : Root) (m : Buffers) : Prop :=
  ∃ t, messageType [.kOPEN_STREAM, .kSTREAM_ID, .kPROCESS_EXIT] FsMessages.MessageType.code
    m.bytes = some t ∧ t.size ≤ m.bytes.length ∧ FsExpected node r t

/-- The decoder stays inside the message and off null pointers, and leaves its root unchanged
by what it should not accept. -/
structure FsTolerates (node : Node) (r : Root) (m : Buffers) : Prop where
  safe : ∃ u, FsMessages.processMessage node r m = .ok u
  unchanged : ¬ FsAccepts node r m → ∀ u, FsMessages.processMessage node r m = .ok u → u.1 = r

/-- The first buffer holds the header of the message, an id arrives only where an open is
outstanding, and an open request only at the front end or where one is outstanding. -/
structure FsHarmless (node : Node) (r : Root) (m : Buffers) : Prop where
  header : FsMessages.sizeofMessage ≤ m.first.length
  openStream : m.type = FsMessages.MessageType.kOPEN_STREAM.code → node = .frontend ∨ r.p ≠ none
  streamId : m.type = FsMessages.MessageType.kSTREAM_ID.code →
    FsMessages.MessageType.kSTREAM_ID.size ≤ m.first.length ∧ r.p ≠ none
  processExit : m.type = FsMessages.MessageType.kPROCESS_EXIT.code →
    FsMessages.MessageType.kPROCESS_EXIT.size ≤ m.first.length

/-- What is installed as `consumer_`: that of one of the two tests, or the one that `kSTREAM_START`
installs. -/
inductive Consumer
  | standardin
  | filein
  | forward
  deriving DecidableEq, Repr

/-- `doRead_` and `consumer_` of the representative, `isFile`, and `stream_data_msg_.avail`. `saved`
tells whether the test of the consumer is still blocked on the context that this has captured. -/
structure Stream where
  doRead : Bool
  consumer : Option Consumer
  isFile : Bool
  saved : Bool
  avail : UInt64
  deriving DecidableEq, Repr

/-- A null pointer that is used, or the context of a test that does not wait for it. -/
inductive Misuse
  | consumer
  | buffer
  | context
  deriving DecidableEq, Repr

/-- The buffers of a chain, and what `console::Write` returns. -/
structure Outside (C : Type) where
  buffers : C → List (List Byte)
  write : Write

/-- Whether a call of the consumer of a test ends the test. An exception leaves it as it is. -/
def endsTest (out : Outside C) (isFile : Bool) (c : Consumer) (call : Call C) : Bool :=
  match call.buf with
  | none => true
  | some buf => c = .standardin && (dump out.write isFile (out.buffers buf)).2 = .ends

/-- `async_read_stop` and `ActivateContext` -/
def Stream.finish (s : Stream) : Except Misuse Stream :=
  if s.saved then .ok { s with doRead := false, saved := false } else .error .context

/-- What `process_message` of `InputStream::Root` does with the representative. -/
def perform (io : IOBuf C) (out : Outside C) (pad : BitVec 32) (s : Stream) :
    Action C → Except Misuse Stream
  | .asyncReadStart =>
    if s.doRead = true then .ok s else .ok { s with doRead := true, consumer := some .forward }
  | .consumer call =>
    match s.consumer with
    | none => .error .consumer
    | some .standardin => if endsTest out s.isFile .standardin call then s.finish else .ok s
    | some .filein => if endsTest out s.isFile .filein call then s.finish else .ok s
    | some .forward =>
      match streamConsumer io pad call with
      | .error _ => .error .buffer
      | .ok _ => .ok { s with avail := call.avail }
  | .asyncReadStop => .ok { s with doRead := false }
  | .unknown _ => .ok s

/-- Where the data pointer throws nothing has been changed. -/
def receive (io : IOBuf C) (out : Outside C) (pad : BitVec 32) (s : Stream) (buf : C) :
    Except Misuse Stream :=
  match StreamMessages.processMessage io buf with
  | .error _ => .ok s
  | .ok action => perform io out pad s action

def sizeofStream : StreamMessages.MessageType → Nat
  | .kSTREAM_START => sizeofStreamStartMsg
  | .kSTREAM_DATA => sizeofStreamDataMsg
  | .kSTREAM_STOP => sizeofMessage

/-- Requests are expected at the front end, data in a session of a back end. -/
def StreamExpected (node : Node) (s : Stream) : StreamMessages.MessageType → Prop
  | .kSTREAM_START | .kSTREAM_STOP => node = .frontend
  | .kSTREAM_DATA => node = .backend ∧ s.doRead = true ∧ s.consumer ≠ none

def StreamAccepts (io : IOBuf C) (node : Node) (s : Stream) (buf : C) : Prop :=
  ∃ t, messageType [.kSTREAM_START, .kSTREAM_DATA, .kSTREAM_STOP] StreamMessages.MessageType.code
    (io.bytes buf) = some t ∧ sizeofStream t ≤ (io.bytes buf).length ∧ StreamExpected node s t

structure StreamTolerates (io : IOBuf C) (out : Outside C) (pad : BitVec 32) (node : Node)
    (s : Stream) (buf : C) : Prop where
  safe : ∃ u, receive io out pad s buf = .ok u
  unchanged : ¬ StreamAccepts io node s buf → ∀ u, receive io out pad s buf = .ok u → u = s

def streamType (io : IOBuf C) (buf : C) : Nat := ofLE ((io.bytes buf).take sizeofMessage)

/-- `avail` in a message that is long enough to have it. -/
def availOf (io : IOBuf C) (buf : C) : UInt64 :=
  UInt64.ofNat (ofLE (((io.bytes buf).take sizeofStreamDataMsg).drop 8))

/-- The call of the consumer for a data message. -/
def dataCall (io : IOBuf C) (buf : C) : Call C :=
  if (io.bytes buf).length = sizeofStreamDataMsg then ⟨none, 0⟩
  else ⟨some (io.advanceChain sizeofStreamDataMsg buf), availOf io buf⟩

/-- Data arrives where a consumer is installed. It ends a test in its session only, and while the
test waits for its end. -/
def DataHarmless (io : IOBuf C) (out : Outside C) (node : Node) (s : Stream) (buf : C) : Prop :=
  match s.consumer with
  | none => False
  | some .forward => sizeofStreamDataMsg < (io.bytes buf).length ∧
      (node = .backend ∧ s.doRead = true ∨ availOf io buf = s.avail)
  | some c => endsTest out s.isFile c (dataCall io buf) = true →
      node = .backend ∧ s.doRead = true ∧ s.saved = true

/-- A start does not arrive at a back end that is not started, nor a stop at one that is, and
no data where nobody has asked for it. -/
structure StreamHarmless (io : IOBuf C) (out : Outside C) (node : Node) (s : Stream) (buf : C) :
    Prop where
  start : streamType io buf = StreamMessages.MessageType.kSTREAM_START.code →
    sizeofMessage ≤ (io.bytes buf).length → node = .frontend ∨ s.doRead = true
  stop : streamType io buf = StreamMessages.MessageType.kSTREAM_STOP.code →
    sizeofMessage ≤ (io.bytes buf).length → node = .frontend ∨ s.doRead = false
  data : streamType io buf = StreamMessages.MessageType.kSTREAM_DATA.code →
    sizeofStreamDataMsg ≤ (io.bytes buf).length → DataHarmless io out node s buf

theorem messageType_eq {T : Type} {types : List T} {code : T → Nat} {s : List Byte} {t : T}
    (hinj : ∀ a b, code a = code b → a = b) (hs : 4 ≤ s.length) (hmem : t ∈ types)
    (ht : ofLE (s.take 4) = code t) : messageType types code s = some t := by
  rw [messageType, if_pos hs, ht]
  cases hfind : types.find? fun a => code a = code t with
  | none =>
    have hnone := List.find?_eq_none.mp hfind t hmem
    exact absurd (decide_eq_true rfl) hnone
  | some u =>
    have hu := List.find?_some hfind
    exact congrArg some (hinj u t (of_decide_eq_true hu))

theorem fs_code_inj (a b : FsMessages.MessageType) (h : a.code = b.code) : a = b := by
  cases a <;> cases b <;> first | rfl | cases h

theorem stream_code_inj (a b : StreamMessages.MessageType) (h : a.code = b.code) : a = b := by
  cases a <;> cases b <;> first | rfl | cases h

section Fs

variable {node : Node} {r : Root} {m : Buffers}

theorem fsAccepts_iff (h : FsMessages.sizeofMessage ≤ m.first.length) {t : FsMessages.MessageType}
    (ht : m.type = t.code) :
    FsAccepts node r m ↔ t.size ≤ m.bytes.length ∧ FsExpected node r t := by
  have hle : 4 ≤ m.bytes.length := by
    rw [Buffers.bytes, List.length_append]
    exact Nat.le_add_right_of_le h
  have htake : m.bytes.take 4 = m.first.take 4 := List.take_append_of_le_length h
  have htype : messageType [.kOPEN_STREAM, .kSTREAM_ID, .kPROCESS_EXIT]
      FsMessages.MessageType.code m.bytes = some t :=
    messageType_eq fs_code_inj hle (by cases t <;> simp) (htake ▸ ht)
  constructor
  · rintro ⟨u, hu, hsize, hexp⟩
    obtain rfl := Option.some.inj (htype.symm.trans hu)
    exact ⟨hsize, hexp⟩
  · exact fun hacc => ⟨t, htype, hacc⟩

theorem load_header (h : FsMessages.sizeofMessage ≤ m.first.length) :
    m.load 0 FsMessages.sizeofMessage = .ok (m.first.take FsMessages.sizeofMessage) := by
  rw [FsMessages.load_eq (by rwa [Nat.zero_add]), List.drop_zero]

variable (node r) in
theorem process_openStream (h : FsMessages.sizeofMessage ≤ m.first.length)
    (ht : m.type = FsMessages.MessageType.kOPEN_STREAM.code) :
    FsMessages.processMessage node r m = .ok (match node with
      | .frontend => (r, .openInputStream (m.first.drop 4))
      | .backend => r.openStream (m.first.drop 4)) := by
  rw [FsMessages.processMessage, load_header h, ok_bind]
  refine (if_pos ht).trans ?_
  cases node <;> rfl

variable (node r) in
theorem process_streamId (h : FsMessages.sizeofMessage ≤ m.first.length)
    (ht : m.type = FsMessages.MessageType.kSTREAM_ID.code) :
    (∃ u, FsMessages.processMessage node r m = .ok u) ↔
      FsMessages.MessageType.kSTREAM_ID.size ≤ m.first.length ∧ r.p ≠ none := by
  have hrun : ∃ reply, FsMessages.processMessage node r m = m.load 4 4 >>= reply ∧
      ∀ id, (∃ u, reply id = .ok u) ↔ r.p ≠ none := by
    rw [FsMessages.processMessage, load_header h, ok_bind]
    refine ⟨_, (if_neg ?_).trans (if_pos ht), fun id => ?_⟩
    · exact fun he => absurd (ht.symm.trans he) (by decide)
    · cases r.p with
      | none =>
        refine iff_of_false ?_ fun hp => hp rfl
        rintro ⟨u, hu⟩
        cases hu
      | some k => exact iff_of_true ⟨_, rfl⟩ (Option.some_ne_none k)
  obtain ⟨reply, hrun, hreply⟩ := hrun
  rw [hrun]
  by_cases hsize : 4 + 4 ≤ m.first.length
  · rw [FsMessages.load_eq hsize, ok_bind, hreply]
    exact ⟨fun hp => ⟨hsize, hp⟩, fun hp => hp.2⟩
  · rw [FsMessages.load_fault hsize]
    refine iff_of_false ?_ fun hp => hsize hp.1
    rintro ⟨u, hu⟩
    cases hu

variable (node r) in
theorem process_processExit (h : FsMessages.sizeofMessage ≤ m.first.length)
    (ht : m.type = FsMessages.MessageType.kPROCESS_EXIT.code) :
    ((∃ u, FsMessages.processMessage node r m = .ok u) ↔
      FsMessages.MessageType.kPROCESS_EXIT.size ≤ m.first.length) ∧
    ∀ u, FsMessages.processMessage node r m = .ok u → u.1 = r := by
  have hrun : ∃ reply : List UInt8 → FsMessages.Action, FsMessages.processMessage node r m =
      m.load 4 4 >>= fun val => .ok (r, reply val) := by
    have hopen : m.type ≠ FsMessages.MessageType.kOPEN_STREAM.code :=
      fun he => absurd (ht.symm.trans he) (by decide)
    have hid : m.type ≠ FsMessages.MessageType.kSTREAM_ID.code :=
      fun he => absurd (ht.symm.trans he) (by decide)
    rw [FsMessages.processMessage, load_header h, ok_bind]
    cases node with
    | frontend =>
      exact ⟨fun val => .exit (ofLE val), (if_neg hopen).trans ((if_neg hid).trans (if_pos ht))⟩
    | backend => exact ⟨fun _ => .ignored, (if_neg hopen).trans ((if_neg hid).trans (if_pos ht))⟩
  obtain ⟨reply, hrun⟩ := hrun
  rw [hrun]
  by_cases hsize : 4 + 4 ≤ m.first.length
  · rw [FsMessages.load_eq hsize, ok_bind]
    refine ⟨iff_of_true ⟨_, rfl⟩ hsize, ?_⟩
    rintro u ⟨⟩
    rfl
  · rw [FsMessages.load_fault hsize]
    refine ⟨iff_of_false ?_ hsize, ?_⟩
    · rintro ⟨u, hu⟩
      cases hu
    · intro u hu
      cases hu

variable (node r) in
theorem process_unknown (h : FsMessages.sizeofMessage ≤ m.first.length)
    (ht : ∀ t : FsMessages.MessageType, m.type ≠ t.code) :
    FsMessages.processMessage node r m = .ok (r, .ignored) := by
  rw [FsMessages.processMessage, load_header h, ok_bind]
  exact (if_neg (ht .kOPEN_STREAM)).trans
    ((if_neg (ht .kSTREAM_ID)).trans (if_neg (ht .kPROCESS_EXIT)))

theorem openStream_fst (r : Root) (path : OpenStream.Path) :
    (r.openStream path).1 = r ↔ r.p ≠ none := by
  obtain ⟨p, next⟩ := r
  cases p with
  | none => exact iff_of_false nofun fun h => h rfl
  | some k => exact iff_of_true rfl nofun

/-- What has to hold of a message of type `t` with a whole header. -/
def FsHarmlessFor (node : Node) (r : Root) (m : Buffers) : FsMessages.MessageType → Prop
  | .kOPEN_STREAM => node = .frontend ∨ r.p ≠ none
  | .kSTREAM_ID => FsMessages.MessageType.kSTREAM_ID.size ≤ m.first.length ∧ r.p ≠ none
  | .kPROCESS_EXIT => FsMessages.MessageType.kPROCESS_EXIT.size ≤ m.first.length

theorem fsHarmless_iff (h : FsMessages.sizeofMessage ≤ m.first.length) {t : FsMessages.MessageType}
    (ht : m.type = t.code) : FsHarmless node r m ↔ FsHarmlessFor node r m t := by
  have hcode : ∀ u : FsMessages.MessageType, m.type = u.code → u = t := fun u hu =>
    fs_code_inj u t (hu.symm.trans ht)
  constructor
  · intro hh
    cases t with
    | kOPEN_STREAM => exact hh.openStream ht
    | kSTREAM_ID => exact hh.streamId ht
    | kPROCESS_EXIT => exact hh.processExit ht
  · intro hh
    refine ⟨h, fun hu => ?_, fun hu => ?_, fun hu => ?_⟩
    · obtain rfl := hcode _ hu
      exact hh
    · obtain rfl := hcode _ hu
      exact hh
    · obtain rfl := hcode _ hu
      exact hh

theorem fs_tolerates_iff (node : Node) (r : Root) (m : Buffers) :
    FsTolerates node r m ↔ FsHarmless node r m := by
  by_cases h : FsMessages.sizeofMessage ≤ m.first.length
  · by_cases hknown : ∃ t : FsMessages.MessageType, m.type = t.code
    · obtain ⟨t, ht⟩ := hknown
      rw [fsHarmless_iff h ht]
      cases t with
      | kOPEN_STREAM =>
        have hrun := process_openStream node r h ht
        cases node with
        | frontend =>
          refine iff_of_true ⟨⟨_, hrun⟩, fun _ u hu => ?_⟩ (.inl rfl)
          cases hrun.symm.trans hu
          rfl
        | backend =>
          have hrefused : ¬ FsAccepts .backend r m := fun hacc => by
            cases ((fsAccepts_iff h ht).mp hacc).2
          constructor
          · exact fun htol => .inr ((openStream_fst r _).mp (htol.unchanged hrefused _ hrun))
          · intro hp
            refine ⟨⟨_, hrun⟩, fun _ u hu => ?_⟩
            cases hrun.symm.trans hu
            exact (openStream_fst r _).mpr (hp.resolve_left nofun)
      | kSTREAM_ID =>
        rw [FsHarmlessFor, ← process_streamId node r h ht]
        refine ⟨fun htol => htol.safe, fun hsafe => ⟨hsafe, fun hrefused => ?_⟩⟩
        obtain ⟨hsize, hp⟩ := (process_streamId node r h ht).mp hsafe
        refine absurd ((fsAccepts_iff h ht).mpr ⟨?_, hp⟩) hrefused
        rw [Buffers.bytes, List.length_append]
        exact Nat.le_add_right_of_le hsize
      | kPROCESS_EXIT =>
        obtain ⟨hsafe, hsame⟩ := process_processExit node r h ht
        rw [FsHarmlessFor, ← hsafe]
        exact ⟨fun htol => htol.safe, fun hs => ⟨hs, fun _ => hsame⟩⟩
    · rw [not_exists] at hknown
      have hrun := process_unknown node r h hknown
      refine iff_of_true ⟨⟨_, hrun⟩, fun _ u hu => ?_⟩ ⟨h, ?_, ?_, ?_⟩
      · cases hrun.symm.trans hu
        rfl
      · exact fun he => absurd he (hknown _)
      · exact fun he => absurd he (hknown _)
      · exact fun he => absurd he (hknown _)
  · refine iff_of_false (fun htol => ?_) fun hh => h hh.header
    obtain ⟨u, hu⟩ := htol.safe
    rw [FsMessages.processMessage_short node r h] at hu
    cases hu

end Fs

section Streams

variable {io : IOBuf C} {out : Outside C} {pad : BitVec 32} {node : Node} {s : Stream} {buf : C}

theorem getOrThrow_eq {n : Nat} (h : n ≤ (io.bytes buf).length) :
    getOrThrow io n buf = .ok ((io.bytes buf).take n) := by
  rw [getOrThrow, io.get_eq, if_pos h]

theorem getOrThrow_short {n : Nat} (h : ¬ n ≤ (io.bytes buf).length) :
    getOrThrow io n buf = .error .shortMessage := by
  rw [getOrThrow, io.get_eq, if_neg h]

variable (node s) in
theorem streamAccepts_iff (h : sizeofMessage ≤ (io.bytes buf).length)
    {t : StreamMessages.MessageType} (ht : streamType io buf = t.code) :
    StreamAccepts io node s buf ↔
      sizeofStream t ≤ (io.bytes buf).length ∧ StreamExpected node s t := by
  have htype : messageType [.kSTREAM_START, .kSTREAM_DATA, .kSTREAM_STOP]
      StreamMessages.MessageType.code (io.bytes buf) = some t :=
    messageType_eq stream_code_inj h (by cases t <;> simp) ht
  constructor
  · rintro ⟨u, hu, hsize, hexp⟩
    obtain rfl := Option.some.inj (htype.symm.trans hu)
    exact ⟨hsize, hexp⟩
  · exact fun hacc => ⟨t, htype, hacc⟩

/-- A message that the data pointer throws on. -/
theorem receive_short (out : Outside C) (pad : BitVec 32) (s : Stream)
    (h : ¬ sizeofMessage ≤ (io.bytes buf).length) : receive io out pad s buf = .ok s := by
  rw [receive, StreamMessages.processMessage, getOrThrow_short h]
  rfl

theorem receive_start (out : Outside C) (pad : BitVec 32) (s : Stream)
    (h : sizeofMessage ≤ (io.bytes buf).length)
    (ht : streamType io buf = StreamMessages.MessageType.kSTREAM_START.code) :
    receive io out pad s buf = perform io out pad s .asyncReadStart := by
  have hrun : StreamMessages.processMessage io buf = .ok .asyncReadStart := by
    rw [StreamMessages.processMessage, getOrThrow_eq h, ok_bind]
    refine (if_pos ht).trans ?_
    have hload : getOrThrow io sizeofStreamStartMsg buf = _ := getOrThrow_eq h
    rw [hload]
    rfl
  rw [receive, hrun]

theorem receive_stop (out : Outside C) (pad : BitVec 32) (s : Stream)
    (h : sizeofMessage ≤ (io.bytes buf).length)
    (ht : streamType io buf = StreamMessages.MessageType.kSTREAM_STOP.code) :
    receive io out pad s buf = .ok { s with doRead := false } := by
  have hrun : StreamMessages.processMessage io buf = .ok .asyncReadStop := by
    rw [StreamMessages.processMessage, getOrThrow_eq h, ok_bind]
    refine (if_neg ?_).trans ((if_neg ?_).trans (if_pos ht))
    · exact fun he => absurd (ht.symm.trans he) (by decide)
    · exact fun he => absurd (ht.symm.trans he) (by decide)
  rw [receive, hrun]
  rfl

theorem receive_unknown (out : Outside C) (pad : BitVec 32) (s : Stream)
    (h : sizeofMessage ≤ (io.bytes buf).length)
    (ht : ∀ t : StreamMessages.MessageType, streamType io buf ≠ t.code) :
    receive io out pad s buf = .ok s := by
  have hrun : StreamMessages.processMessage io buf = .ok (.unknown (streamType io buf)) := by
    rw [StreamMessages.processMessage, getOrThrow_eq h, ok_bind]
    exact (if_neg (ht .kSTREAM_START)).trans
      ((if_neg (ht .kSTREAM_DATA)).trans (if_neg (ht .kSTREAM_STOP)))
  rw [receive, hrun]
  rfl

theorem receive_data (out : Outside C) (pad : BitVec 32) (s : Stream)
    (hsize : sizeofStreamDataMsg ≤ (io.bytes buf).length)
    (ht : streamType io buf = StreamMessages.MessageType.kSTREAM_DATA.code) :
    receive io out pad s buf = perform io out pad s (.consumer (dataCall io buf)) := by
  have h : sizeofMessage ≤ (io.bytes buf).length := Nat.le_trans (by decide) hsize
  have hrest : io.computeChainDataLength (io.advanceChain sizeofStreamDataMsg buf) =
      (io.bytes buf).length - sizeofStreamDataMsg := by
    rw [io.length_eq, io.bytes_advanceChain _ _ hsize, List.length_drop]
  have hrun : StreamMessages.processMessage io buf = .ok (.consumer (dataCall io buf)) := by
    rw [StreamMessages.processMessage, getOrThrow_eq h, ok_bind]
    refine (if_neg fun he => ?_).trans ((if_pos ht).trans ?_)
    · exact absurd (ht.symm.trans he) (by decide)
    · rw [getOrThrow_eq hsize, ok_bind, dataCall]
      by_cases hlen : (io.bytes buf).length = sizeofStreamDataMsg
      · rw [if_pos hlen]
        exact if_pos (by rw [hrest]; omega)
      · rw [if_neg hlen]
        exact if_neg (by rw [hrest]; omega)
  rw [receive, hrun]

theorem receive_data_short (out : Outside C) (pad : BitVec 32) (s : Stream)
    (h : sizeofMessage ≤ (io.bytes buf).length)
    (hsize : ¬ sizeofStreamDataMsg ≤ (io.bytes buf).length)
    (ht : streamType io buf = StreamMessages.MessageType.kSTREAM_DATA.code) :
    receive io out pad s buf = .ok s := by
  have hrun : StreamMessages.processMessage io buf = .error .shortMessage := by
    rw [StreamMessages.processMessage, getOrThrow_eq h, ok_bind]
    refine (if_neg fun he => ?_).trans ((if_pos ht).trans ?_)
    · exact absurd (ht.symm.trans he) (by decide)
    · rw [getOrThrow_short hsize]
      rfl
  rw [receive, hrun]

/-- What has to hold of a message of type `t` that has a type. -/
def StreamHarmlessFor (io : IOBuf C) (out : Outside C) (node : Node) (s : Stream) (buf : C) :
    StreamMessages.MessageType → Prop
  | .kSTREAM_START => node = .frontend ∨ s.doRead = true
  | .kSTREAM_STOP => node = .frontend ∨ s.doRead = false
  | .kSTREAM_DATA => sizeofStreamDataMsg ≤ (io.bytes buf).length → DataHarmless io out node s buf

theorem streamHarmless_iff (h : sizeofMessage ≤ (io.bytes buf).length)
    {t : StreamMessages.MessageType} (ht : streamType io buf = t.code) :
    StreamHarmless io out node s buf ↔ StreamHarmlessFor io out node s buf t := by
  have hcode : ∀ u : StreamMessages.MessageType, streamType io buf = u.code → u = t := fun u hu =>
    stream_code_inj u t (hu.symm.trans ht)
  constructor
  · intro hh
    cases t with
    | kSTREAM_START => exact hh.start ht h
    | kSTREAM_STOP => exact hh.stop ht h
    | kSTREAM_DATA => exact hh.data ht
  · intro hh
    refine ⟨fun hu _ => ?_, fun hu _ => ?_, fun hu => ?_⟩
    · obtain rfl := hcode _ hu
      exact hh
    · obtain rfl := hcode _ hu
      exact hh
    · obtain rfl := hcode _ hu
      exact hh

theorem tolerates_of_unchanged (h : receive io out pad s buf = .ok s) :
    StreamTolerates io out pad node s buf :=
  ⟨⟨s, h⟩, fun _ _ hu => (Except.ok.inj (h.symm.trans hu)).symm⟩

/-- A message that is not accepted is tolerated when it leaves the state as it is. -/
theorem tolerates_refused_iff {u : Stream} (h : receive io out pad s buf = .ok u)
    (hrefused : ¬ StreamAccepts io node s buf) : StreamTolerates io out pad node s buf ↔ u = s := by
  constructor
  · exact fun htol => htol.unchanged hrefused u h
  · rintro rfl
    exact tolerates_of_unchanged h

theorem tolerates_accepted {u : Stream} (h : receive io out pad s buf = .ok u)
    (hacc : StreamAccepts io node s buf) : StreamTolerates io out pad node s buf :=
  ⟨⟨u, h⟩, fun hrefused => absurd hacc hrefused⟩

theorem finish_eq (u : Stream) :
    s.finish = .ok u ↔ s.saved = true ∧ u = { s with doRead := false, saved := false } := by
  unfold Stream.finish
  split
  · rename_i hs
    rw [Except.ok.injEq, eq_comm]
    exact (and_iff_right hs).symm
  · rename_i hs
    exact iff_of_false (by rintro ⟨⟩) fun h => hs h.1

/-- The consumer of a test. -/
theorem test_tolerates_iff {c : Consumer} (hc : s.consumer = some c)
    (hsize : sizeofStreamDataMsg ≤ (io.bytes buf).length)
    (ht : streamType io buf = StreamMessages.MessageType.kSTREAM_DATA.code)
    (hrun : receive io out pad s buf =
      if endsTest out s.isFile c (dataCall io buf) then s.finish else .ok s) :
    StreamTolerates io out pad node s buf ↔
      (endsTest out s.isFile c (dataCall io buf) = true →
        node = .backend ∧ s.doRead = true ∧ s.saved = true) := by
  have h : sizeofMessage ≤ (io.bytes buf).length := Nat.le_trans (by decide) hsize
  have haccepts := streamAccepts_iff node s h ht
  by_cases hends : endsTest out s.isFile c (dataCall io buf) = true
  · rw [if_pos hends] at hrun
    rw [forall_prop_of_true hends]
    by_cases hsaved : s.saved = true
    · have hfinish := (finish_eq _).mpr ⟨hsaved, rfl⟩
      rw [hfinish] at hrun
      constructor
      · intro htol
        by_contra hnot
        have hrefused : ¬ StreamAccepts io node s buf := fun hacc =>
          hnot ⟨(haccepts.mp hacc).2.1, (haccepts.mp hacc).2.2.1, hsaved⟩
        have hsame := congrArg Stream.saved ((tolerates_refused_iff hrun hrefused).mp htol)
        rw [hsaved] at hsame
        cases hsame
      · rintro ⟨hnode, hd, -⟩
        have hne : s.consumer ≠ none := by
          rw [hc]
          exact Option.some_ne_none c
        exact tolerates_accepted hrun (haccepts.mpr ⟨hsize, hnode, hd, hne⟩)
    · refine iff_of_false (fun htol => ?_) fun hall => hsaved hall.2.2
      obtain ⟨u, hu⟩ := htol.safe
      rw [hrun] at hu
      exact hsaved ((finish_eq u).mp hu).1
  · rw [if_neg hends] at hrun
    exact iff_of_true (tolerates_of_unchanged hrun) fun hall => absurd hall hends

/-- The consumer that sends to a node. -/
theorem forward_tolerates_iff (hc : s.consumer = some .forward)
    (hsize : sizeofStreamDataMsg ≤ (io.bytes buf).length)
    (ht : streamType io buf = StreamMessages.MessageType.kSTREAM_DATA.code)
    (hrun : receive io out pad s buf = perform io out pad s (.consumer (dataCall io buf))) :
    StreamTolerates io out pad node s buf ↔
      sizeofStreamDataMsg < (io.bytes buf).length ∧
        (node = .backend ∧ s.doRead = true ∨ availOf io buf = s.avail) := by
  have h : sizeofMessage ≤ (io.bytes buf).length := Nat.le_trans (by decide) hsize
  have haccepts := streamAccepts_iff node s h ht
  rw [perform, hc] at hrun
  by_cases hlen : (io.bytes buf).length = sizeofStreamDataMsg
  · have hcall : dataCall io buf = ⟨none, 0⟩ := if_pos hlen
    rw [hcall] at hrun
    refine iff_of_false (fun htol => ?_) fun hh => absurd hlen (Nat.ne_of_gt hh.1)
    obtain ⟨u, hu⟩ := htol.safe
    cases hrun.symm.trans hu
  have hlt : sizeofStreamDataMsg < (io.bytes buf).length :=
    Nat.lt_of_le_of_ne hsize (Ne.symm hlen)
  have hcall : dataCall io buf =
      ⟨some (io.advanceChain sizeofStreamDataMsg buf), availOf io buf⟩ := if_neg hlen
  rw [hcall] at hrun
  have hs : (⟨s.doRead, some .forward, s.isFile, s.saved, availOf io buf⟩ : Stream) =
      { s with avail := availOf io buf } := by rw [← hc]
  have hu : receive io out pad s buf = .ok { s with avail := availOf io buf } :=
    hrun.trans (congrArg Except.ok hs)
  by_cases hsession : node = .backend ∧ s.doRead = true
  · refine iff_of_true (tolerates_accepted hu (haccepts.mpr ⟨hsize, ?_⟩)) ⟨hlt, .inl hsession⟩
    refine ⟨hsession.1, hsession.2, ?_⟩
    rw [hc]
    exact Option.some_ne_none _
  · have hrefused : ¬ StreamAccepts io node s buf := fun hacc =>
      hsession ⟨(haccepts.mp hacc).2.1, (haccepts.mp hacc).2.2.1⟩
    rw [tolerates_refused_iff hu hrefused]
    constructor
    · exact fun he => ⟨hlt, .inr (congrArg Stream.avail he)⟩
    · rintro ⟨-, hs | havail⟩
      · exact absurd hs hsession
      · rw [havail]

theorem data_tolerates_iff (hsize : sizeofStreamDataMsg ≤ (io.bytes buf).length)
    (ht : streamType io buf = StreamMessages.MessageType.kSTREAM_DATA.code) :
    StreamTolerates io out pad node s buf ↔ DataHarmless io out node s buf := by
  have hrun := receive_data out pad s hsize ht
  rw [DataHarmless]
  cases hc : s.consumer with
  | none =>
    rw [perform, hc] at hrun
    refine iff_of_false (fun htol => ?_) not_false
    obtain ⟨u, hu⟩ := htol.safe
    cases hrun.symm.trans hu
  | some c =>
    cases c with
    | standardin | filein =>
      rw [perform, hc] at hrun
      exact test_tolerates_iff hc hsize ht hrun
    | forward => exact forward_tolerates_iff hc hsize ht hrun

theorem start_tolerates_iff (h : sizeofMessage ≤ (io.bytes buf).length)
    (ht : streamType io buf = StreamMessages.MessageType.kSTREAM_START.code) :
    StreamTolerates io out pad node s buf ↔ node = .frontend ∨ s.doRead = true := by
  have hrun := receive_start out pad s h ht
  have haccepts := streamAccepts_iff node s h ht
  rw [perform] at hrun
  by_cases hd : s.doRead = true
  · rw [if_pos hd] at hrun
    exact iff_of_true (tolerates_of_unchanged hrun) (.inr hd)
  · rw [if_neg hd] at hrun
    cases node with
    | frontend => exact iff_of_true (tolerates_accepted hrun (haccepts.mpr ⟨h, rfl⟩)) (.inl rfl)
    | backend =>
      have hrefused : ¬ StreamAccepts io .backend s buf := fun hacc => by
        cases (haccepts.mp hacc).2
      rw [tolerates_refused_iff hrun hrefused]
      constructor
      · exact fun he => absurd (congrArg Stream.doRead he).symm hd
      · rintro (hnode | hread)
        · cases hnode
        · exact absurd hread hd

theorem stop_tolerates_iff (h : sizeofMessage ≤ (io.bytes buf).length)
    (ht : streamType io buf = StreamMessages.MessageType.kSTREAM_STOP.code) :
    StreamTolerates io out pad node s buf ↔ node = .frontend ∨ s.doRead = false := by
  have hrun := receive_stop out pad s h ht
  have haccepts := streamAccepts_iff node s h ht
  cases node with
  | frontend => exact iff_of_true (tolerates_accepted hrun (haccepts.mpr ⟨h, rfl⟩)) (.inl rfl)
  | backend =>
    have hrefused : ¬ StreamAccepts io .backend s buf := fun hacc => by
      cases (haccepts.mp hacc).2
    rw [tolerates_refused_iff hrun hrefused]
    constructor
    · exact fun he => .inr (congrArg Stream.doRead he).symm
    · rintro (hnode | hd)
      · cases hnode
      · rw [← hd]

theorem stream_tolerates_iff (io : IOBuf C) (out : Outside C) (pad : BitVec 32) (node : Node)
    (s : Stream) (buf : C) :
    StreamTolerates io out pad node s buf ↔ StreamHarmless io out node s buf := by
  by_cases h : sizeofMessage ≤ (io.bytes buf).length
  · by_cases hknown : ∃ t : StreamMessages.MessageType, streamType io buf = t.code
    · obtain ⟨t, ht⟩ := hknown
      rw [streamHarmless_iff h ht]
      cases t with
      | kSTREAM_START => exact start_tolerates_iff h ht
      | kSTREAM_STOP => exact stop_tolerates_iff h ht
      | kSTREAM_DATA =>
        by_cases hsize : sizeofStreamDataMsg ≤ (io.bytes buf).length
        · rw [data_tolerates_iff hsize ht, StreamHarmlessFor, forall_prop_of_true hsize]
        · exact iff_of_true (tolerates_of_unchanged (receive_data_short out pad s h hsize ht))
            fun hle => absurd hle hsize
    · rw [not_exists] at hknown
      exact iff_of_true (tolerates_of_unchanged (receive_unknown out pad s h hknown))
        ⟨fun he => absurd he (hknown _), fun he => absurd he (hknown _),
          fun he => absurd he (hknown _)⟩
  · exact iff_of_true (tolerates_of_unchanged (receive_short out pad s h))
      ⟨fun _ hle => absurd hle h, fun _ hle => absurd hle h,
        fun _ hle => absurd (Nat.le_trans (by decide) hle) h⟩

end Streams

/-- What each of the two decoders tolerates, in every state of its root. -/
theorem decoders_tolerate_iff (node : Node) (r : Root) (m : Buffers) (io : IOBuf C)
    (out : Outside C) (pad : BitVec 32) (s : Stream) (buf : C) :
    (FsTolerates node r m ↔ FsHarmless node r m) ∧
      (StreamTolerates io out pad node s buf ↔ StreamHarmless io out node s buf) :=
  ⟨fs_tolerates_iff node r m, stream_tolerates_iff io out pad node s buf⟩

/-- The chains as lists of buffers, and a console that writes everything. -/
def outside : Outside (List (List Byte)) := ⟨id, List.length⟩

/-- An id that nobody waits for, a message of two bytes, data for a stream that was never started,
and an end that `standardin_test` is told when it has returned. -/
theorem stray_messages :
    FsMessages.processMessage .backend ⟨none, 0⟩ ⟨toLE 4 1 ++ toLE 4 7, []⟩ =
        .error .nullPromise ∧
    FsMessages.processMessage .backend ⟨none, 0⟩ ⟨[1, 0], []⟩ = .error .outOfBounds ∧
    receive listChain outside 0 ⟨false, none, false, false, 0⟩
        [toLE 4 1 ++ toLE 4 0 ++ toLE 8 0 ++ [0x61]] = .error .consumer ∧
    receive listChain outside 0 ⟨false, some .standardin, false, false, 0⟩
        [toLE 4 1 ++ toLE 4 0 ++ toLE 8 0] = .error .context ∧
    ¬ ∀ node r m, FsTolerates node r m := by
  refine ⟨rfl, rfl, rfl, rfl, fun h => ?_⟩
  obtain ⟨u, hu⟩ := (h .backend ⟨none, 0⟩ ⟨[1, 0], []⟩).safe
  cases hu

end EbbrtContrib.MessageDecoders
