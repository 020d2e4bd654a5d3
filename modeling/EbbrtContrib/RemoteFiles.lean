import EbbrtContrib.FsMessages
import EbbrtContrib.RemoteStream
import EbbrtContrib.StreamMembers
import EbbrtContrib.StreamReplies

namespace EbbrtContrib.RemoteFiles

open FileStream (File)
open FsMessages (Buffers Moment MessageType processMessage transmitted)
open OpenStream (Answers EbbId Path)
open CString LittleEndian

/-- The regular files of the front end, the paths that the nodes were started with, their consoles,
and what is not initialised: `stream_id_msg_.id`, the first id of the allocator, and `buffer_` and
`stream_data_msg_` of each stream. -/
structure Setup where
  disk : Path → Option File
  path : Nat → Path
  write : InputTests.Write
  cell : EbbId
  next : EbbId
  memory : EbbId → List Byte
  avail : EbbId → UInt64
  pad : EbbId → BitVec 32

/-- Nodes have `called` once `filein_test` has opened its stream; `requests` are the nodes whose
`kOPEN_STREAM` is under way, `ids` the `kSTREAM_ID` on their way to a node, and `starts` the
`kSTREAM_START` of a node. On the front end there are the root of the file system, the file behind
each id, and its stream with the node that its consumer sends to. The console of a stream is that of
this node. The front end has `crashed` at a null buffer, or an exception has left `process_message`
(`threw`), which nothing catches. -/
structure State where
  called : List Nat
  requests : List Nat
  fs : StreamReplies.State
  files : EbbId → Option File
  ids : List (Nat × EbbId)
  starts : List (Nat × EbbId)
  streams : EbbId → RemoteStream.State
  consumer : EbbId → Option Nat
  crashed : Bool
  threw : Bool

def State.init (c : Setup) : State where
  called := []
  requests := []
  fs := .init c.cell c.next
  files := fun _ => none
  ids := []
  starts := []
  streams := fun id => .init (c.memory id) (c.avail id)
  consumer := fun _ => none
  crashed := false
  threw := false

/-- The front end has come to its end. -/
def State.down (s : State) : Bool := s.crashed || s.threw

/-- What the system calls answer, where `open` may give no descriptor. -/
def answers (file : Option File) (fd : Option Nat) : Answers :=
  match file with
  | none => ⟨false, none, none⟩
  | some _ => ⟨true, fd, some .file⟩

/-- The stream that the front end makes of what was published for a file. -/
theorem hosted_published (f : File) (fd pad pad' : BitVec 32) :
    StreamMembers.hosted (StreamMembers.RootMembers.toString ⟨fd, f.source.len, .file⟩ pad pad') =
      .ok (fd, f.source) :=
  StreamMembers.hosted_toString

/-- The hosted `openInputStream`, which the front end calls with the path that it was sent. -/
def State.openInputStream (s : State) (node : Nat) (file : Option File) (fd : Option Nat) :
    State :=
  { s with
    fs := StreamReplies.processOpenStream s.fs node (answers file fd)
    files := match (OpenStream.openInputStream (answers file fd) s.fs.next).1 with
      | .ok id => Function.update s.files id file
      | .error _ => s.files
    threw := match (OpenStream.openInputStream (answers file fd) s.fs.next).1 with
      | .ok _ => s.threw
      | .error _ => true }

/-- A chain that a request can arrive in: behind its header is what the memory of the path held. -/
def Arrives (path : Path) (buf : Buffers) : Prop :=
  buf.bytes.take 4 = toLE 4 MessageType.kOPEN_STREAM.code ∧ buf.bytes.length = 4 + path.length

instance (path : Path) (buf : Buffers) : Decidable (Arrives path buf) :=
  inferInstanceAs (Decidable (_ ∧ _))

/-- A `kSTREAM_START` that the front end gets from a node. It installs the consumer for the node
unless the stream is read already. -/
def State.asyncReadStart (s : State) (node : Nat) (id : EbbId) (stream : RemoteStream.State) :
    State :=
  { s with
    streams := Function.update s.streams id stream
    consumer := if (s.streams id).stream.doRead then s.consumer
      else Function.update s.consumer id (some node) }

/-- The null buffer that one stream uses ends the front end as a whole. -/
def State.follow (s : State) (id : EbbId) (stream : RemoteStream.State) : State :=
  { s with
    streams := Function.update s.streams id stream
    crashed := s.crashed || stream.crashed }

/-- The steps of a stream that the front end takes. -/
def onFrontend : RemoteStream.Event → Bool
  | .start | .read _ _ | .transmit | .free => true
  | .deliver _ => false

/-- `call` is `filein_test` on a node. The front end gets the `request`, `complete`s the future of
an open, and transmits the `reply`; the node that gets the `id` calls `async_read_start`, and the
front end gets its `start`. The other steps are those of the streams. -/
inductive Event
  | call (node : Nat)
  | request (i : Nat) (buf : Buffers) (fd : Option Nat)
  | complete (k : Nat) (ok : Bool)
  | reply (k : Nat)
  | id (i : Nat)
  | start (i : Nat)
  | stream (id : EbbId) (e : RemoteStream.Event)
  deriving DecidableEq, Repr

/-- There is no step where the front end would read a header outside of the first buffer. -/
def step (c : Setup) (s : State) : Event → Option State
  | .call node =>
    if node ∈ s.called then none
    else some { s with called := s.called ++ [node], requests := s.requests ++ [node] }
  | .request i buf fd =>
    match s.requests[i]? with
    | some node =>
      if s.down = false ∧ Arrives (c.path node) buf then
        match processMessage .frontend ⟨none, 0⟩ buf with
        | .ok (_, .openInputStream path) =>
          some ({ s with requests := s.requests.eraseIdx i }.openInputStream node (c.disk path) fd)
        | .ok _ | .error _ => none
      else none
    | none => none
  | .complete k ok =>
    if s.down then none
    else (StreamReplies.step s.fs (.complete k ok)).map fun fs => { s with fs := fs }
  | .reply k =>
    match s.fs.queue[k]? with
    | some q =>
      if s.down then none
      else (StreamReplies.step s.fs (.transmit k)).map fun fs =>
        { s with fs := fs, ids := s.ids ++ [(q.node, s.fs.cell)] }
    | none => none
  | .id i =>
    match s.ids[i]? with
    | some m => some { s with ids := s.ids.eraseIdx i, starts := s.starts ++ [m] }
    | none => none
  | .start i =>
    match s.starts[i]? with
    | some (node, id) =>
      match s.files id with
      | some f =>
        if s.down then none
        else
          (RemoteStream.step f (c.pad id) (RemoteStream.filein c.write) (s.streams id) .start).map
            fun stream => { s with starts := s.starts.eraseIdx i }.asyncReadStart node id stream
      | none => none
    | none => none
  | .stream id e =>
    match s.files id with
    | some f =>
      if e ≠ .start ∧ (s.down = false ∨ onFrontend e = false) then
        (RemoteStream.step f (c.pad id) (RemoteStream.filein c.write) (s.streams id) e).map
          fun stream => s.follow id stream
      else none
    | none => none

variable {c : Setup} {s t : State}

theorem arrives_iff {path : Path} {buf : Buffers} :
    Arrives path buf ↔ ∃ m : Moment path, buf.bytes = transmitted path m := by
  constructor
  · rintro ⟨hhead, hlength⟩
    refine ⟨.after (buf.bytes.drop 4) (by rw [List.length_drop, hlength]; omega), ?_⟩
    rw [FsMessages.transmitted_eq, ← hhead]
    exact (List.take_append_drop 4 buf.bytes).symm
  · rintro ⟨m, hm⟩
    rw [Arrives, hm, FsMessages.transmitted_eq]
    refine ⟨List.take_left' (length_toLE 4 _), ?_⟩
    rw [List.length_append, length_toLE, FsMessages.length_memoryAt]

/-- Everything a step can do, as a relation. -/
inductive Step (c : Setup) (s : State) : Event → State → Prop
  | call (node : Nat) : node ∉ s.called → Step c s (.call node)
      { s with called := s.called ++ [node], requests := s.requests ++ [node] }
  | request (i node : Nat) (buf : Buffers) (fd : Option Nat) : s.down = false →
      s.requests[i]? = some node → Arrives (c.path node) buf → 4 ≤ buf.first.length →
      Step c s (.request i buf fd) ({ s with requests := s.requests.eraseIdx i }.openInputStream
        node (c.disk (buf.first.drop 4)) fd)
  | complete (k : Nat) (ok : Bool) (fs : StreamReplies.State) : s.down = false →
      StreamReplies.Step s.fs (.complete k ok) fs → Step c s (.complete k ok) { s with fs := fs }
  | reply (k : Nat) (q : StreamReplies.Reply) (fs : StreamReplies.State) : s.down = false →
      s.fs.queue[k]? = some q → StreamReplies.Step s.fs (.transmit k) fs → Step c s (.reply k)
        { s with fs := fs, ids := s.ids ++ [(q.node, s.fs.cell)] }
  | id (i : Nat) (m : Nat × EbbId) : s.ids[i]? = some m → Step c s (.id i)
      { s with ids := s.ids.eraseIdx i, starts := s.starts ++ [m] }
  | start (i node : Nat) (id : EbbId) (f : File) (stream : RemoteStream.State) :
      s.down = false → s.starts[i]? = some (node, id) → s.files id = some f →
      RemoteStream.step f (c.pad id) (RemoteStream.filein c.write) (s.streams id) .start =
        some stream →
      Step c s (.start i)
        ({ s with starts := s.starts.eraseIdx i }.asyncReadStart node id stream)
  | stream (id : EbbId) (f : File) (e : RemoteStream.Event) (stream : RemoteStream.State) :
      s.files id = some f → e ≠ .start → s.down = false ∨ onFrontend e = false →
      RemoteStream.step f (c.pad id) (RemoteStream.filein c.write) (s.streams id) e = some stream →
      Step c s (.stream id e) (s.follow id stream)

/-- What the front end makes of a request that arrives. -/
theorem processMessage_arrives {path : Path} {buf : Buffers} (h : Arrives path buf) :
    processMessage .frontend ⟨none, 0⟩ buf = if 4 ≤ buf.first.length then
      .ok (⟨none, 0⟩, .openInputStream (buf.first.drop 4)) else .error .outOfBounds := by
  obtain ⟨m, hm⟩ := arrives_iff.mp h
  split
  · rename_i hfour
    exact (FsMessages.opened_of_received ⟨buf, hm⟩ ⟨none, 0⟩ hfour).1
  · rename_i hfour
    exact FsMessages.processMessage_short .frontend ⟨none, 0⟩ hfour

theorem step_cases {e : Event} (h : step c s e = some t) : Step c s e t := by
  cases e with
  | call node =>
    obtain ⟨hnew, h⟩ := Option.ite_none_left_eq_some.mp h
    obtain rfl := Option.some.inj h
    exact .call node hnew
  | request i buf fd =>
    simp only [step] at h
    split at h
    · rename_i node hi
      obtain ⟨⟨hdown, harrives⟩, h⟩ := Option.ite_none_right_eq_some.mp h
      rw [processMessage_arrives harrives] at h
      by_cases hfour : 4 ≤ buf.first.length
      · rw [if_pos hfour] at h
        obtain rfl := Option.some.inj h
        exact .request i node buf fd hdown hi harrives hfour
      · rw [if_neg hfour] at h
        cases h
    · cases h
  | complete k ok =>
    obtain ⟨hdown, h⟩ := Option.ite_none_left_eq_some.mp h
    obtain ⟨fs, hfs, rfl⟩ := Option.map_eq_some_iff.mp h
    exact .complete k ok fs (Bool.eq_false_iff.mpr hdown) (StreamReplies.step_cases hfs)
  | reply k =>
    simp only [step] at h
    split at h
    · rename_i q hq
      obtain ⟨hdown, h⟩ := Option.ite_none_left_eq_some.mp h
      obtain ⟨fs, hfs, rfl⟩ := Option.map_eq_some_iff.mp h
      exact .reply k q fs (Bool.eq_false_iff.mpr hdown) hq (StreamReplies.step_cases hfs)
    · cases h
  | id i =>
    simp only [step] at h
    split at h
    · rename_i m hm
      obtain rfl := Option.some.inj h
      exact .id i m hm
    · cases h
  | start i =>
    simp only [step] at h
    split at h
    · rename_i node id hi
      split at h
      · rename_i f hf
        obtain ⟨hdown, h⟩ := Option.ite_none_left_eq_some.mp h
        obtain ⟨stream, hstream, rfl⟩ := Option.map_eq_some_iff.mp h
        exact .start i node id f stream (Bool.eq_false_iff.mpr hdown) hi hf hstream
      · cases h
    · cases h
  | stream id e =>
    simp only [step] at h
    split at h
    · rename_i f hf
      obtain ⟨⟨hstart, hdown⟩, h⟩ := Option.ite_none_right_eq_some.mp h
      obtain ⟨stream, hstream, rfl⟩ := Option.map_eq_some_iff.mp h
      exact .stream id f e stream hf hstart hdown hstream
    · cases h

end EbbrtContrib.RemoteFiles
