import Mathlib.Data.List.Nodup
import EbbrtContrib.Numbered
import EbbrtContrib.RemoteFiles
import EbbrtContrib.RemoteStreamCopy

namespace EbbrtContrib.RemoteFilesOwn

open FileStream (File)
open RemoteStream (Loop)
open RemoteStreamCopy
open CString Numbered RemoteFiles Runs
open OpenStream (EbbId openInputStream_fails openInputStream_opens)

section

variable {f : File} {pad : BitVec 32} {loop : Loop} {s t : RemoteStream.State}
  {e : RemoteStream.Event}

/-- A stream that was not started has nothing to do. -/
theorem step_init {memory : List Byte} {avail : UInt64} (he : e ≠ .start) :
    RemoteStream.step f pad loop (.init memory avail) e = none := by
  cases e with
  | start => exact absurd rfl he
  | read i n =>
    rw [RemoteStream.step]
    split <;> rfl
  | transmit | free | deliver => rfl

theorem foldl_pass_stream (calls : List InputStream.Call) (s : RemoteStream.State) :
    (calls.foldl RemoteStream.State.pass s).stream = s.stream := by
  induction calls generalizing s with
  | nil => rfl
  | cons call calls ih =>
    rw [List.foldl_cons, ih, RemoteStream.State.pass]
    split <;> rfl

theorem follow_stream (s : RemoteStream.State) (stream : InputStream.State) :
    (s.follow stream).stream = stream :=
  foldl_pass_stream _ _

theorem start_quiet (h : RemoteStream.step f pad loop s .start = some t) :
    t.stream.doRead = true ∧ t.crashed = s.crashed := by
  obtain ⟨-, h⟩ := Option.ite_none_left_eq_some.mp h
  obtain ⟨stream, hstream, rfl⟩ := Option.map_eq_some_iff.mp h
  obtain rfl := Option.some.inj hstream
  obtain ⟨he, hd⟩ | ⟨-, hd⟩ := InputStream.asyncReadStart_cases f.source s.stream
  · rw [he, follow_quiet' rfl]
    exact ⟨hd, rfl⟩
  · obtain ⟨hdoRead, -, hcalls⟩ := InputStream.start_keeps f.source hd
    rw [follow_quiet' hcalls]
    exact ⟨hdoRead, rfl⟩

theorem receive_keeps (loop : Loop) (s : RemoteStream.State) (chain : List (List Byte)) :
    (s.receive loop chain).stream = s.stream ∧ (s.receive loop chain).crashed = s.crashed := by
  rw [RemoteStream.State.receive]
  split
  · rw [RemoteStream.State.consume]
    split <;> exact ⟨rfl, rfl⟩
  · exact ⟨rfl, rfl⟩
  · exact ⟨rfl, rfl⟩

/-- A stream that is read goes on, and one that has crashed stays so. -/
theorem step_keeps (h : RemoteStream.step f pad loop s e = some t) :
    (s.stream.doRead = true → t.stream.doRead = true) ∧ (s.crashed = true → t.crashed = true) := by
  cases e with
  | start =>
    obtain ⟨hdoRead, hcrashed⟩ := start_quiet h
    exact ⟨fun _ => hdoRead, hcrashed.trans⟩
  | read i n =>
    obtain ⟨⟨hcrashed, -⟩, h⟩ := Option.ite_none_right_eq_some.mp h
    obtain ⟨stream, hstream, rfl⟩ := Option.map_eq_some_iff.mp h
    refine ⟨fun hd => ?_, fun hc => absurd (hcrashed.symm.trans hc) Bool.false_ne_true⟩
    rw [follow_stream]
    cases InputStream.step_cases hstream with
    | run => exact (InputStream.readFile_keeps _ _ _ _).1.trans hd
  | transmit =>
    simp only [RemoteStream.step] at h
    split at h
    · cases h
    · obtain ⟨hcrashed, h⟩ := Option.ite_none_left_eq_some.mp h
      obtain rfl := Option.some.inj h
      exact ⟨fun hd => hd, fun hc => absurd hc hcrashed⟩
  | free =>
    simp only [RemoteStream.step] at h
    split at h
    · obtain ⟨hcrashed, h⟩ := Option.ite_none_left_eq_some.mp h
      obtain ⟨stream, hstream, rfl⟩ := Option.map_eq_some_iff.mp h
      refine ⟨fun hd => ?_, fun hc => absurd hc hcrashed⟩
      rw [follow_stream]
      cases InputStream.step_cases hstream with
      | dispose => exact (InputStream.disposal_keeps _ _ _).1.trans hd
    · cases h
  | deliver chain =>
    simp only [RemoteStream.step] at h
    split at h
    · obtain ⟨-, h⟩ := Option.ite_none_right_eq_some.mp h
      obtain rfl := Option.some.inj h
      obtain ⟨hstream, hcrashed⟩ := receive_keeps loop { s with wire := _ } chain
      rw [hstream, hcrashed]
      exact ⟨fun hd => hd, fun hc => hc⟩
    · cases h

end

variable {c : Setup} {s t : State} {e : Event}

/-- The request arrives as it was written and in one buffer, and a reply is queued when no other
is. -/
def Orderly (c : Setup) (s : State) : Event → Prop
  | .request i buf _ => s.requests[i]?.map c.path = some (buf.first.drop 4)
  | .complete k ok => StreamReplies.Alone s.fs (.complete k ok)
  | .call _ | .reply _ | .id _ | .start _ | .stream _ _ => True

/-- Every stream was opened for the file of its node, and a node has one request at most. -/
structure Opened (c : Setup) (s : State) : Prop where
  fs : StreamReplies.Inv s.fs
  requests : s.requests.Nodup
  nodes : (s.fs.opened.map StreamReplies.Stream.node).Nodup
  apart : ∀ o ∈ s.fs.opened, o.node ∉ s.requests
  requested : ∀ node ∈ s.requests, node ∈ s.called
  called : ∀ o ∈ s.fs.opened, o.node ∈ s.called
  file : ∀ o ∈ s.fs.opened, ∃ f, c.disk (c.path o.node) = some f ∧ s.files o.id = some f
  fresh : ∀ id, s.fs.next ≤ id → s.files id = none

/-- The stream with an id was opened for the node. -/
def Own (s : State) (node : Nat) (id : EbbId) : Prop :=
  ∃ request, (⟨node, request, id⟩ : StreamReplies.Stream) ∈ s.fs.opened

/-- Nobody is told of a stream but the node that it was opened for. -/
structure Told (s : State) : Prop where
  ids : ∀ m ∈ s.ids, Own s m.1 m.2
  starts : ∀ m ∈ s.starts, Own s m.1 m.2
  consumer : ∀ id node, s.consumer id = some node → Own s node id

structure Streams (c : Setup) (s : State) : Prop where
  untouched : ∀ id, s.consumer id = none → s.streams id = .init (c.memory id) (c.avail id)
  started : ∀ id, s.consumer id ≠ none → (s.streams id).stream.doRead = true
  invariant : ∀ id f, s.files id = some f →
    RemoteStreamCopy.Invariant f (c.pad id) (RemoteStream.filein c.write) (s.streams id)
  crashed : s.crashed = true ↔ ∃ id, (s.streams id).crashed = true

/-- The open gives the next id to the file that it finds, or it fails with an exception. -/
inductive Opens (s : State) (node : Nat) (file : Option File) (fd : Option Nat) : State → Prop
  | opened (f : File) : file = some f → fd ≠ none → Opens s node file fd { s with
      fs := { s.fs with
        arrived := s.fs.arrived + 1, next := s.fs.next + 1
        opening := s.fs.opening ++ [⟨node, s.fs.arrived, s.fs.next⟩]
        opened := s.fs.opened ++ [⟨node, s.fs.arrived, s.fs.next⟩] }
      files := Function.update s.files s.fs.next (some f) }
  | failed (next : EbbId) : s.fs.next ≤ next → file = none ∨ fd = none → Opens s node file fd
      { s with fs := { s.fs with arrived := s.fs.arrived + 1, next := next }, threw := true }

theorem openInputStream_cases (s : State) (node : Nat) (file : Option File) (fd : Option Nat) :
    Opens s node file fd (s.openInputStream node file fd) := by
  have hfailed (h : ¬ (answers file fd).Opens) (hnone : file = none ∨ fd = none) :
      Opens s node file fd (s.openInputStream node file fd) := by
    obtain ⟨err, next, hle, hfail⟩ := openInputStream_fails h s.fs.next
    rw [State.openInputStream, StreamReplies.processOpenStream, hfail]
    exact .failed next hle hnone
  cases file with
  | none => exact hfailed (fun h => absurd h.1 Bool.false_ne_true) (.inl rfl)
  | some f =>
    cases fd with
    | none => exact hfailed (fun h => h.2.1 rfl) (.inr rfl)
    | some fd =>
      have hopens : (answers (some f) (some fd)).Opens := by
        refine ⟨rfl, Option.some_ne_none fd, Option.some_ne_none _, ?_⟩
        intro h
        cases h
      rw [State.openInputStream, StreamReplies.processOpenStream,
        openInputStream_opens hopens s.fs.next]
      exact .opened f rfl (Option.some_ne_none fd)

/-- A future that is completed and a reply that is transmitted open nothing. -/
theorem opened_of_step {fs fs' : StreamReplies.State} {e : StreamReplies.Event}
    (h : StreamReplies.Step fs e fs') (he : ∀ node a, e ≠ .request node a) :
    fs'.opened = fs.opened ∧ fs'.next = fs.next := by
  cases h with
  | opens node a | throws node a => exact absurd rfl (he node a)
  | completes | fails | transmit => exact ⟨rfl, rfl⟩

namespace Opened

theorem init (c : Setup) : Opened c (.init c) where
  fs := .init c.cell c.next
  requests := List.nodup_nil
  nodes := List.nodup_nil
  apart _ ho := absurd ho List.not_mem_nil
  requested _ hnode := absurd hnode List.not_mem_nil
  called _ ho := absurd ho List.not_mem_nil
  file _ ho := absurd ho List.not_mem_nil
  fresh _ _ := rfl

theorem call (h : Opened c s) {node : Nat} (hnew : node ∉ s.called) :
    Opened c { s with called := s.called ++ [node], requests := s.requests ++ [node] } where
  fs := h.fs
  requests := h.requests.append (List.nodup_singleton node)
    (List.disjoint_singleton.mpr fun hmem => hnew (h.requested node hmem))
  nodes := h.nodes
  apart o ho hmem := by
    obtain hmem | hmem := List.mem_append.mp hmem
    · exact h.apart o ho hmem
    · exact hnew (List.mem_singleton.mp hmem ▸ h.called o ho)
  requested := forall_mem_snoc (fun node hnode => List.mem_append_left _ (h.requested node hnode))
    (List.mem_append_right _ List.mem_cons_self)
  called o ho := List.mem_append_left _ (h.called o ho)
  file := h.file
  fresh := h.fresh

theorem erase (h : Opened c s) (i : Nat) : Opened c { s with requests := s.requests.eraseIdx i } :=
  ⟨h.fs, h.requests.sublist (List.eraseIdx_sublist _ i), h.nodes,
    fun o ho hmem => h.apart o ho (List.mem_of_mem_eraseIdx hmem),
    fun node hnode => h.requested node (List.mem_of_mem_eraseIdx hnode), h.called, h.file, h.fresh⟩

/-- A node whose request has been taken out of those under way is served. -/
theorem opens (h : Opened c s) {node : Nat} {fd : Option Nat} (hcalled : node ∈ s.called)
    (hnode : node ∉ s.requests) (hnew : ∀ o ∈ s.fs.opened, o.node ≠ node)
    (ht : Opens s node (c.disk (c.path node)) fd t) :
    Opened c t ∧ ∀ o ∈ s.fs.opened, o ∈ t.fs.opened := by
  cases ht with
  | opened f hfile hfd =>
    have hfs := h.fs.step (e := .request node (answers (some f) fd)) trivial
      (.opens node (answers (some f) fd))
    refine ⟨⟨hfs, h.requests, nodup_snoc_of_ne h.nodes hnew, forall_mem_snoc h.apart hnode,
      h.requested, forall_mem_snoc h.called hcalled, forall_mem_snoc ?_ ?_, ?_⟩,
      fun o ho => List.mem_append_left _ ho⟩
    · intro o ho
      obtain ⟨g, hg, hfiles⟩ := h.file o ho
      exact ⟨g, hg, (Function.update_of_ne (h.fs.ids_lt o ho).ne _ _).trans hfiles⟩
    · exact ⟨f, hfile, Function.update_self _ _ _⟩
    · intro id hid
      exact (Function.update_of_ne (Nat.ne_of_gt hid) _ _).trans (h.fresh id (Nat.le_of_lt hid))
  | failed next hle =>
    have hfs := h.fs.step (e := .request node (answers none fd)) trivial
      (.throws node (answers none fd) next hle)
    exact ⟨⟨hfs, h.requests, h.nodes, h.apart, h.requested, h.called, h.file,
      fun id hid => h.fresh id (hle.trans hid)⟩, fun o ho => ho⟩

/-- The other steps of the file system leave what was opened. -/
theorem settle (h : Opened c s) {fs : StreamReplies.State} {e : StreamReplies.Event}
    (hfs : StreamReplies.Step s.fs e fs) (hok : StreamReplies.Alone s.fs e)
    (he : ∀ node a, e ≠ .request node a) :
    Opened c { s with fs := fs } ∧ ∀ o ∈ s.fs.opened, o ∈ fs.opened := by
  obtain ⟨hopened, hnext⟩ := opened_of_step hfs he
  obtain ⟨hinv, hrequests, hnodes, hapart, hrequested, hcalled, hfile, hfresh⟩ := h
  rw [← hopened] at hnodes hapart hcalled hfile
  rw [← hnext] at hfresh
  exact ⟨⟨hinv.step hok hfs, hrequests, hnodes, hapart, hrequested, hcalled, hfile, hfresh⟩,
    fun o ho => hopened ▸ ho⟩

theorem step (h : Opened c s) (hok : Orderly c s e) (hs : Step c s e t) :
    Opened c t ∧ ∀ o ∈ s.fs.opened, o ∈ t.fs.opened := by
  cases hs with
  | call node hnew => exact ⟨h.call hnew, fun o ho => ho⟩
  | request i node buf fd hdown hi =>
    rw [Orderly, hi] at hok
    obtain hpath := Option.some.inj hok
    have hmem := List.mem_of_getElem? hi
    rw [← hpath]
    refine (h.erase i).opens (h.requested node hmem) ?_ ?_ (openInputStream_cases _ _ _ _)
    · intro hin
      exact ne_of_mem_eraseIdx (f := id) (by rw [List.map_id]; exact h.requests) hi hin rfl
    · intro o ho he
      exact h.apart o ho (he ▸ hmem)
  | complete k ok fs hdown hfs => exact h.settle hfs hok fun _ _ => by simp
  | reply k q fs hdown hq hfs =>
    obtain ⟨hopened, hmono⟩ := h.settle hfs trivial fun _ _ => by simp
    exact ⟨⟨hopened.fs, h.requests, hopened.nodes, hopened.apart, h.requested, hopened.called,
      hopened.file, hopened.fresh⟩, hmono⟩
  | id | start | stream =>
    exact ⟨⟨h.fs, h.requests, h.nodes, h.apart, h.requested, h.called, h.file, h.fresh⟩,
      fun o ho => ho⟩

end Opened

namespace Told

theorem init (c : Setup) : Told (.init c) where
  ids _ hm := absurd hm List.not_mem_nil
  starts _ hm := absurd hm List.not_mem_nil
  consumer _ _ h := by cases h

theorem step (h : Told s) (hopened : Opened c s) (hmono : ∀ o ∈ s.fs.opened, o ∈ t.fs.opened)
    (hs : Step c s e t) : Told t := by
  have hown {node : Nat} {id : EbbId} (h : Own s node id) : Own t node id :=
    h.imp fun _ ho => hmono _ ho
  have hids := fun m hm => hown (h.ids m hm)
  have hstarts := fun m hm => hown (h.starts m hm)
  have hconsumer := fun id node hid => hown (h.consumer id node hid)
  cases hs with
  | call | request | complete | stream => exact ⟨hids, hstarts, hconsumer⟩
  | reply k q fs hdown hq =>
    refine ⟨forall_mem_snoc hids ?_, hstarts, hconsumer⟩
    exact hown ⟨q.request, hopened.fs.queued q (List.mem_of_getElem? hq)⟩
  | id i m hm =>
    exact ⟨fun m hm => hids m (List.mem_of_mem_eraseIdx hm),
      forall_mem_snoc hstarts (hids m (List.mem_of_getElem? hm)), hconsumer⟩
  | start i node id f stream hdown hi =>
    refine ⟨hids, fun m hm => hstarts m (List.mem_of_mem_eraseIdx hm), ?_⟩
    intro id' node' hid
    simp only [State.asyncReadStart] at hid
    split at hid
    · exact hconsumer id' node' hid
    · by_cases hne : id' = id
      · subst hne
        rw [Function.update_self] at hid
        obtain rfl := Option.some.inj hid
        exact hstarts _ (List.mem_of_getElem? hi)
      · rw [Function.update_of_ne hne] at hid
        exact hconsumer id' node' hid

end Told

namespace Streams

theorem init (c : Setup) : Streams c (.init c) where
  untouched _ _ := rfl
  started _ h := absurd rfl h
  invariant _ _ h := by cases h
  crashed := ⟨fun h => absurd h Bool.false_ne_true,
    fun ⟨_, h⟩ => absurd h Bool.false_ne_true⟩

/-- The steps of the file system leave the streams alone, up to the file behind a new id. -/
theorem files (h : Streams c s) (hstreams : t.streams = s.streams)
    (hconsumer : t.consumer = s.consumer) (hcrashed : t.crashed = s.crashed)
    (hfiles : ∀ id f, t.files id = some f → s.files id = some f ∨ s.consumer id = none) :
    Streams c t := by
  refine ⟨?_, ?_, ?_, ?_⟩
  · rw [hconsumer, hstreams]
    exact h.untouched
  · rw [hconsumer, hstreams]
    exact h.started
  · intro id f hf
    rw [hstreams]
    obtain hold | hnone := hfiles id f hf
    · exact h.invariant id f hold
    · rw [h.untouched id hnone]
      exact .init _ _
  · rw [hcrashed, hstreams]
    exact h.crashed

/-- An id that is not given yet has no consumer. -/
theorem consumer_next (hopened : Opened c s) (htold : Told s) : s.consumer s.fs.next = none := by
  cases hc : s.consumer s.fs.next with
  | none => rfl
  | some node =>
    obtain ⟨r, ho⟩ := htold.consumer _ _ hc
    exact absurd (hopened.fs.ids_lt _ ho) (Nat.lt_irrefl _)

/-- A stream that is read takes the place of another. -/
theorem put (h : Streams c s) {id : EbbId} {f : File} {stream : RemoteStream.State}
    (hstreams : t.streams = Function.update s.streams id stream) (hfiles : t.files = s.files)
    (hf : s.files id = some f) (hinv : Invariant f (c.pad id) (RemoteStream.filein c.write) stream)
    (hread : stream.stream.doRead = true) (hid : t.consumer id ≠ none)
    (hothers : ∀ id', id' ≠ id → t.consumer id' = s.consumer id')
    (hcrashed : t.crashed = true ↔ stream.crashed = true ∨ s.crashed = true)
    (hstays : (s.streams id).crashed = true → stream.crashed = true) : Streams c t := by
  have hself : t.streams id = stream := by rw [hstreams, Function.update_self]
  have hother (id' : EbbId) (hne : id' ≠ id) : t.streams id' = s.streams id' := by
    rw [hstreams, Function.update_of_ne hne]
  refine ⟨?_, ?_, ?_, ?_⟩
  · intro id' hnone
    have hne : id' ≠ id := by
      rintro rfl
      exact hid hnone
    rw [hother id' hne]
    exact h.untouched id' ((hothers id' hne).symm.trans hnone)
  · intro id' hsome
    by_cases hne : id' = id
    · rwa [hne, hself]
    · rw [hother id' hne]
      exact h.started id' (hothers id' hne ▸ hsome)
  · intro id' f' hf'
    rw [hfiles] at hf'
    by_cases hne : id' = id
    · subst hne
      obtain rfl := Option.some.inj (hf.symm.trans hf')
      rwa [hself]
    · rw [hother id' hne]
      exact h.invariant id' f' hf'
  · rw [hcrashed, h.crashed]
    constructor
    · rintro (hc | ⟨id', hc⟩)
      · exact ⟨id, hself.symm ▸ hc⟩
      · by_cases hne : id' = id
        · exact ⟨id, hself.symm ▸ hstays (hne ▸ hc)⟩
        · exact ⟨id', (hother id' hne).symm ▸ hc⟩
    · rintro ⟨id', hc⟩
      by_cases hne : id' = id
      · rw [hne, hself] at hc
        exact .inl hc
      · rw [hother id' hne] at hc
        exact .inr ⟨id', hc⟩

theorem start (h : Streams c s) {node : Nat} {id : EbbId} {f : File}
    {stream : RemoteStream.State} (hf : s.files id = some f)
    (hs : RemoteStream.step f (c.pad id) (RemoteStream.filein c.write) (s.streams id) .start =
      some stream) :
    Streams c (s.asyncReadStart node id stream) := by
  obtain ⟨hread, hcrashed⟩ := start_quiet hs
  refine h.put rfl rfl hf ((h.invariant id f hf).step hs) hread ?_ ?_ ?_ hcrashed.trans
  · intro hnone
    simp only [State.asyncReadStart] at hnone
    split at hnone
    · rename_i hwas
      rw [h.untouched id hnone] at hwas
      cases hwas
    · rw [Function.update_self] at hnone
      cases hnone
  · intro id' hne
    simp only [State.asyncReadStart]
    split
    · rfl
    · exact Function.update_of_ne hne _ _
  · rw [hcrashed]
    exact ⟨.inr, fun hc => hc.elim (fun hc => h.crashed.mpr ⟨id, hc⟩) fun hc => hc⟩

theorem follow (h : Streams c s) {id : EbbId} {f : File} {e : RemoteStream.Event}
    {stream : RemoteStream.State} (hf : s.files id = some f) (he : e ≠ .start)
    (hs : RemoteStream.step f (c.pad id) (RemoteStream.filein c.write) (s.streams id) e =
      some stream) :
    Streams c (s.follow id stream) := by
  obtain ⟨hread, hcrashed⟩ := step_keeps hs
  have hsome : s.consumer id ≠ none := by
    intro hnone
    rw [h.untouched id hnone, step_init he] at hs
    cases hs
  refine h.put rfl rfl hf ((h.invariant id f hf).step hs) (hread (h.started id hsome))
    hsome (fun _ _ => rfl) ?_ hcrashed
  rw [State.follow, Bool.or_eq_true, or_comm]

theorem opens (h : Streams c s) (hnext : s.consumer s.fs.next = none) {node : Nat}
    {file : Option File} {fd : Option Nat} (ht : Opens s node file fd t) : Streams c t := by
  cases ht with
  | failed => exact h.files rfl rfl rfl fun id f hf => .inl hf
  | opened f =>
    refine h.files rfl rfl rfl fun id f' hf => ?_
    by_cases hne : id = s.fs.next
    · exact .inr (hne ▸ hnext)
    · exact .inl ((Function.update_of_ne hne _ _).symm.trans hf)

theorem step (h : Streams c s) (hopened : Opened c s) (htold : Told s) (hs : Step c s e t) :
    Streams c t := by
  have hkeep {t : State} (hstreams : t.streams = s.streams) (hconsumer : t.consumer = s.consumer)
      (hcrashed : t.crashed = s.crashed) (hfiles : t.files = s.files) : Streams c t :=
    h.files hstreams hconsumer hcrashed fun id f hf => .inl (hfiles ▸ hf)
  have hnext := consumer_next hopened htold
  cases hs with
  | call | complete | reply | id => exact hkeep rfl rfl rfl rfl
  | request i =>
    have herased : Streams c { s with requests := s.requests.eraseIdx i } := hkeep rfl rfl rfl rfl
    exact herased.opens hnext (openInputStream_cases _ _ _ _)
  | start i node id f stream hdown hi hf hstep =>
    have herased : Streams c { s with starts := s.starts.eraseIdx i } := hkeep rfl rfl rfl rfl
    exact herased.start hf hstep
  | stream id f e stream hf he hdown hstep => exact h.follow hf he hstep

end Streams

structure Inv (c : Setup) (s : State) : Prop where
  opened : Opened c s
  told : Told s
  streams : Streams c s

theorem Inv.step (h : Inv c s) (hok : Orderly c s e) (hs : RemoteFiles.step c s e = some t) :
    Inv c t := by
  have hcases := step_cases hs
  obtain ⟨hopened, hmono⟩ := h.opened.step hok hcases
  exact ⟨hopened, h.told.step h.opened hmono hcases, h.streams.step h.opened h.told hcases⟩

theorem inv_of_reaches {ok : State → Event → Prop} (hok : ∀ s e, ok s e → Orderly c s e)
    (h : Reaches (RemoteFiles.step c) ok (.init c) s) : Inv c s :=
  h.invariant ⟨.init c, .init c, .init c⟩ fun _ _ _ hi hg hs => hi.step (hok _ _ hg) hs

/-- Every node dumps one stream, the one that was opened for it and has its own file behind it, and
no stream is dumped by two. -/
structure OwnFiles (c : Setup) (s : State) : Prop where
  opened : ∀ id node, s.consumer id = some node → Own s node id
  owner : ∀ id node node', Own s node id → s.consumer id = some node' → node' = node
  delivered : ∀ id node, s.consumer id = some node → ∃ f blocks rest,
    c.disk (c.path node) = some f ∧ Delivered f (c.pad id) (s.streams id) blocks rest
  one : ∀ id id' node, s.consumer id = some node → s.consumer id' = some node → id = id'
  others : ∀ id, s.consumer id = none → (s.streams id).console = []

/-- The file of the node that a stream is dumped by. -/
theorem Inv.file (h : Inv c s) {id : EbbId} {node : Nat} (hid : s.consumer id = some node) :
    ∃ f, c.disk (c.path node) = some f ∧ s.files id = some f := by
  obtain ⟨r, ho⟩ := h.told.consumer id node hid
  exact h.opened.file _ ho

theorem Inv.delivered (h : Inv c s) (hw : c.write.Whole) {id : EbbId} {node : Nat}
    (hid : s.consumer id = some node) : ∃ f blocks rest,
      c.disk (c.path node) = some f ∧ Delivered f (c.pad id) (s.streams id) blocks rest := by
  obtain ⟨f, hdisk, hf⟩ := h.file hid
  obtain ⟨blocks, rest, hdelivered⟩ := (h.streams.invariant id f hf).delivered (filein_shows hw)
  exact ⟨f, blocks, rest, hdisk, hdelivered⟩

/-- The consumer of a stream is that of the node that it was opened for. -/
theorem Inv.consumer_eq (h : Inv c s) {id : EbbId} {node node' : Nat} (hown : Own s node id)
    (hid : s.consumer id = some node') : node' = node := by
  obtain ⟨r, ho⟩ := hown
  obtain ⟨r', ho'⟩ := h.told.consumer id node' hid
  exact congrArg StreamReplies.Stream.node (eq_of_mem h.opened.fs.ids ho' ho rfl)

/-- A node that a `kSTREAM_START` comes from dumps its stream from then on. -/
theorem Inv.dumps (h : Inv c s) {node : Nat} {id : EbbId} (hown : Own s node id)
    (stream : RemoteStream.State) : (s.asyncReadStart node id stream).consumer id = some node := by
  simp only [State.asyncReadStart]
  cases hc : s.consumer id with
  | none =>
    rw [h.streams.untouched id hc]
    exact Function.update_self id (some node) s.consumer
  | some node' =>
    obtain rfl := h.consumer_eq hown hc
    rw [if_pos (h.streams.started id (hc ▸ Option.some_ne_none node')), hc]

/-- Who dumps a stream goes on with it. -/
theorem Inv.goes_on (h : Inv c s) {node node' : Nat} {id id' : EbbId}
    (stream : RemoteStream.State) (hc : s.consumer id' = some node') :
    (s.asyncReadStart node id stream).consumer id' = some node' := by
  simp only [State.asyncReadStart]
  split
  · exact hc
  · rename_i hread
    have hne : id' ≠ id := by
      rintro rfl
      exact hread (h.streams.started id' (hc ▸ Option.some_ne_none node'))
    rwa [Function.update_of_ne hne]

theorem Inv.eofs (h : Inv c s) (id : EbbId) : (s.streams id).eofs = 0 := by
  cases hc : s.consumer id with
  | none =>
    rw [h.streams.untouched id hc]
    rfl
  | some node =>
    obtain ⟨f, -, hf⟩ := h.file hc
    obtain ⟨n, before, after, -, hpassed⟩ := h.streams.invariant id f hf
    exact hpassed.eofs

/-- However many nodes dump files at once, and whatever the order of their messages, of the system
calls and of the steps of the streams: what a node shows is its own file from the start on. -/
theorem remoteFiles_own (hw : c.write.Whole)
    (h : Reaches (RemoteFiles.step c) (Orderly c) (.init c) s) : OwnFiles c s := by
  have hinv := inv_of_reaches (fun _ _ hok => hok) h
  refine ⟨hinv.told.consumer, fun id node node' hown hid => hinv.consumer_eq hown hid,
    fun id node hid => hinv.delivered hw hid, ?_, ?_⟩
  · intro id id' node hid hid'
    obtain ⟨r, ho⟩ := hinv.told.consumer id node hid
    obtain ⟨r', ho'⟩ := hinv.told.consumer id' node hid'
    exact congrArg StreamReplies.Stream.id (eq_of_mem hinv.opened.nodes ho ho' rfl)
  · intro id hnone
    rw [hinv.streams.untouched id hnone]
    rfl

instance (c : Setup) (s : State) (e : Event) : Decidable (Orderly c s e) :=
  match e with
  | .request i buf _ =>
    inferInstanceAs (Decidable (s.requests[i]?.map c.path = some (buf.first.drop 4)))
  | .complete k ok => inferInstanceAs (Decidable (StreamReplies.Alone s.fs (.complete k ok)))
  | .call _ | .reply _ | .id _ | .start _ | .stream _ _ => inferInstanceAs (Decidable True)

/-- Node 0 dumps the file `a`, and every other node the file `b`. -/
def twoFiles : Setup where
  disk path := if path = [0x61] then some FileStream.fiveBytes
    else if path = [0x62] then some ⟨[7, 8], by decide⟩ else none
  path node := if node = 0 then [0x61] else [0x62]
  write := List.length
  cell := 0
  next := 100
  memory := fun _ => []
  avail := fun _ => 0
  pad := fun _ => 0

/-- Two nodes open their files at once, and the front end serves them in the other order. -/
def apart : List Event :=
  [.call 0, .call 1, .request 1 ⟨[0, 0, 0, 0, 0x62], []⟩ (some 3),
    .request 0 ⟨[0, 0, 0, 0, 0x61], []⟩ (some 4), .complete 1 true, .reply 0, .complete 0 true,
    .reply 0, .id 1, .id 0, .start 1, .start 0, .stream 101 (.read 0 3), .stream 100 (.read 0 2),
    .stream 101 .transmit, .stream 100 .transmit, .stream 101 .free,
    .stream 100 (.deliver [(⟨0, 0⟩ : StreamMessages.StreamDataMsg).image ++ [7, 8]]),
    .stream 101 (.deliver [(⟨0, 2⟩ : StreamMessages.StreamDataMsg).image ++ [1, 2], [3]])]

theorem apart_runs :
    (run (guarded (RemoteFiles.step twoFiles) (Orderly twoFiles)) (.init twoFiles)
      apart).isSome := by
  decide +kernel

theorem apart_own : OwnFiles twoFiles
    ((run (guarded (RemoteFiles.step twoFiles) (Orderly twoFiles)) (.init twoFiles) apart).get
      apart_runs) :=
  remoteFiles_own (fun _ => rfl) (reaches_get apart_runs)

/-- The second open completes before the reply to the first is transmitted. Node 0 is told of the
stream of node 1, and shows its file. -/
example : (run (RemoteFiles.step twoFiles) (.init twoFiles)
    [.call 0, .call 1, .request 1 ⟨[0, 0, 0, 0, 0x62], []⟩ (some 3),
      .request 0 ⟨[0, 0, 0, 0, 0x61], []⟩ (some 4), .complete 1 true, .complete 0 true, .reply 0,
      .id 0, .start 0, .stream 100 (.read 0 2), .stream 100 .transmit,
      .stream 100 (.deliver [(⟨0, 0⟩ : StreamMessages.StreamDataMsg).image ++ [7, 8]])]).map
      (fun s => (s.consumer 100, (s.streams 100).console)) = some (some 0, [7, 8]) := by
  decide +kernel

end EbbrtContrib.RemoteFilesOwn
