import Mathlib.Algebra.Order.BigOperators.Group.List
import Mathlib.Algebra.Order.Group.Nat
import EbbrtContrib.RemoteFilesOwn

namespace EbbrtContrib.RemoteFilesEnd

open FileStream (File)
open OpenStream (EbbId)
open RemoteStreamCopy
open Numbered RemoteFiles RemoteFilesOwn Runs

variable {c : Setup} {s t : State} {e : Event}

/-- Every open of a file that is there succeeds. -/
def Smooth (c : Setup) (s : State) (e : Event) : Prop :=
  Orderly c s e ∧ (∀ i buf, e ≠ .request i buf none) ∧ ∀ k, e ≠ .complete k false

/-- The nodes that wait for their stream, wherever their messages are. -/
def waiting (s : State) : List Nat :=
  s.requests ++ s.fs.opening.map StreamReplies.Stream.node ++
    s.fs.queue.map StreamReplies.Reply.node ++ s.ids.map Prod.fst ++ s.starts.map Prod.fst

/-- Nothing of a dump is lost, if there is its file. -/
def Tracked (c : Setup) (s : State) : Prop :=
  ∀ node ∈ s.called, c.disk (c.path node) ≠ none →
    node ∈ waiting s ∨ ∃ id, s.consumer id = some node

theorem mem_waiting {node : Nat} : node ∈ waiting s ↔ node ∈ s.requests ∨
    node ∈ s.fs.opening.map StreamReplies.Stream.node ∨
    node ∈ s.fs.queue.map StreamReplies.Reply.node ∨ node ∈ s.ids.map Prod.fst ∨
    node ∈ s.starts.map Prod.fst := by
  simp only [waiting, List.mem_append, or_assoc]

namespace Tracked

theorem init (c : Setup) : Tracked c (.init c) := fun _ hnode => absurd hnode List.not_mem_nil

/-- The step takes nobody out, and tells no node to dump another stream. -/
theorem keep (h : Tracked c s) (hcalled : t.called = s.called) (hconsumer : t.consumer = s.consumer)
    (hwaiting : ∀ node, c.disk (c.path node) ≠ none → node ∈ waiting s → node ∈ waiting t) :
    Tracked c t := by
  intro node hnode hdisk
  rw [hcalled] at hnode
  rw [hconsumer]
  exact (h node hnode hdisk).imp_left (hwaiting node hdisk)

theorem opens (h : Tracked c s) {i node : Nat} {fd : Option Nat}
    (hi : s.requests[i]? = some node) (hfd : fd ≠ none)
    (ht : Opens { s with requests := s.requests.eraseIdx i } node (c.disk (c.path node)) fd t) :
    Tracked c t := by
  cases ht with
  | opened f =>
    refine h.keep rfl rfl fun b _ hwait => ?_
    have hmove := eq_or_mem_eraseIdx (x := b) hi
    simp only [mem_waiting, List.map_append, List.mem_append, List.map_singleton,
      List.mem_singleton] at hwait ⊢
    grind
  | failed next hle hnone =>
    refine h.keep rfl rfl fun b hdisk hwait => ?_
    have hmove := eq_or_mem_eraseIdx (x := b) hi
    have hne : b ≠ node := by
      rintro rfl
      exact hnone.elim hdisk hfd
    simp only [mem_waiting] at hwait ⊢
    grind

theorem step (h : Tracked c s) (hinv : Inv c s) (hok : Smooth c s e) (hs : Step c s e t) :
    Tracked c t := by
  obtain ⟨horderly, hfd, hcomplete⟩ := hok
  cases hs with
  | call node hnew =>
    refine forall_mem_snoc (fun node' hnode hdisk => ?_) fun _ => .inl ?_
    · refine (h node' hnode hdisk).imp_left fun hwait => ?_
      rw [mem_waiting] at hwait ⊢
      exact hwait.imp_left (List.mem_append_left [node])
    · exact mem_waiting.mpr (.inl (List.mem_append_right _ List.mem_cons_self))
  | request i node buf fd hdown hi =>
    rw [Orderly, hi] at horderly
    rw [← Option.some.inj horderly]
    exact h.opens hi (fun hnone => hfd i buf (hnone ▸ rfl)) (openInputStream_cases _ _ _ _)
  | complete k ok fs hdown hfs =>
    cases hfs with
    | fails => exact absurd rfl (hcomplete k)
    | completes _ o hk =>
      refine h.keep rfl rfl fun b _ hwait => ?_
      have hmove := eq_or_mem_map_eraseIdx (f := StreamReplies.Stream.node) (b := b) hk
      simp only [mem_waiting, List.map_append, List.mem_append, List.map_singleton,
        List.mem_singleton] at hwait ⊢
      grind
  | reply k q fs hdown hq hfs =>
    cases hfs with
    | transmit _ q' hq' =>
      obtain rfl := Option.some.inj (hq'.symm.trans hq)
      refine h.keep rfl rfl fun b _ hwait => ?_
      have hmove := eq_or_mem_map_eraseIdx (f := StreamReplies.Reply.node) (b := b) hq
      simp only [mem_waiting, List.map_append, List.mem_append, List.map_singleton,
        List.mem_singleton] at hwait ⊢
      grind
  | id i m hm =>
    refine h.keep rfl rfl fun b _ hwait => ?_
    have hmove := eq_or_mem_map_eraseIdx (f := Prod.fst) (b := b) hm
    simp only [mem_waiting, List.map_append, List.mem_append, List.map_singleton,
      List.mem_singleton] at hwait ⊢
    grind
  | start i node id f stream hdown hi =>
    intro b hb hdisk
    obtain hwait | ⟨id', hc⟩ := h b hb hdisk
    · have hmove := eq_or_mem_map_eraseIdx (f := Prod.fst) (b := b) hi
      by_cases hbn : b = node
      · subst hbn
        exact .inr ⟨id, hinv.dumps (hinv.told.starts _ (List.mem_of_getElem? hi)) stream⟩
      · refine .inl ?_
        simp only [mem_waiting, State.asyncReadStart] at hwait ⊢
        grind
    · exact .inr ⟨id', hinv.goes_on stream hc⟩
  | stream => exact h.keep rfl rfl fun _ _ hwait => hwait

end Tracked

/-- No step but a call of another node is possible. -/
def AtRest (c : Setup) (s : State) : Prop :=
  ∀ e, (∀ node, e ≠ .call node) → RemoteFiles.step c s e = none

namespace AtRest

variable {node : Nat} {id : EbbId}

/-- The chain in which the request of a node is read as it was written. -/
def request (c : Setup) (node : Nat) : FsMessages.Buffers :=
  ⟨LittleEndian.toLE 4 FsMessages.MessageType.kOPEN_STREAM.code ++ c.path node, []⟩

theorem arrives_request (c : Setup) (node : Nat) : Arrives (c.path node) (request c node) :=
  arrives_iff.mpr ⟨.during, by
    rw [FsMessages.transmitted_eq, FsMessages.Buffers.bytes, request, List.flatten_nil,
      List.append_nil]
    rfl⟩

theorem not_crashed (hdown : s.down = false) : s.crashed = false :=
  (Bool.or_eq_false_iff.mp hdown).1

theorem not_requested (h : AtRest c s) (hdown : s.down = false) : s.requests = [] := by
  cases hr : s.requests with
  | nil => rfl
  | cons node rest =>
    have hstep := h (.request 0 (request c node) none) fun _ => by simp
    have hfour : 4 ≤ (request c node).first.length := by
      rw [request, List.length_append, LittleEndian.length_toLE]
      exact Nat.le_add_right 4 _
    simp only [RemoteFiles.step, hr, List.getElem?_cons_zero, hdown,
      arrives_request c node, and_self, if_true, processMessage_arrives (arrives_request c node),
      hfour] at hstep
    cases hstep

theorem not_opening (h : AtRest c s) (hdown : s.down = false) : s.fs.opening = [] := by
  cases ho : s.fs.opening with
  | nil => rfl
  | cons o rest =>
    have hstep := h (.complete 0 false) fun _ => by simp
    simp [RemoteFiles.step, StreamReplies.step, hdown, ho] at hstep

theorem not_replied (h : AtRest c s) (hdown : s.down = false) : s.fs.queue = [] := by
  cases hq : s.fs.queue with
  | nil => rfl
  | cons q rest =>
    have hstep := h (.reply 0) fun _ => by simp
    simp [RemoteFiles.step, StreamReplies.step, hdown, hq] at hstep

theorem not_told (h : AtRest c s) : s.ids = [] := by
  cases hi : s.ids with
  | nil => rfl
  | cons m rest =>
    have hstep := h (.id 0) fun _ => by simp
    simp [RemoteFiles.step, hi] at hstep

theorem not_starting (h : AtRest c s) (hinv : Inv c s) (hdown : s.down = false) :
    s.starts = [] := by
  cases hm : s.starts with
  | nil => rfl
  | cons m rest =>
    obtain ⟨node, id⟩ := m
    obtain ⟨r, ho⟩ := hinv.told.starts (node, id) (by rw [hm]; exact List.mem_cons_self)
    obtain ⟨f, -, hf⟩ := hinv.opened.file _ ho
    have hnot : (s.streams id).crashed = false := by
      rw [← Bool.not_eq_true]
      exact fun hc => absurd (hinv.streams.crashed.mpr ⟨id, hc⟩) (by simp [not_crashed hdown])
    have hstep := h (.start 0) fun _ => by simp
    simp [RemoteFiles.step, RemoteStream.step, InputStream.step, hdown, hm, hf, hnot] at hstep

theorem nobody_waits (h : AtRest c s) (hinv : Inv c s) (hdown : s.down = false) :
    waiting s = [] := by
  rw [waiting, h.not_requested hdown, h.not_opening hdown, h.not_replied hdown,
    h.not_told, h.not_starting hinv hdown]
  rfl

/-- A stream that is dumped and can go no further has come to its end, or the front end has. -/
theorem down_of_dumping (h : AtRest c s) (hinv : Inv c s) (hid : s.consumer id = some node)
    {f : File} (hdisk : c.disk (c.path node) = some f) (hne : f.bytes ≠ []) : s.down = true := by
  by_contra hnot
  have hdown := Bool.eq_false_iff.mpr hnot
  obtain ⟨f', hdisk', hf⟩ := hinv.file hid
  obtain rfl := Option.some.inj (hdisk.symm.trans hdisk')
  have hrest : RemoteStreamCopy.AtRest f (c.pad id) (RemoteStream.filein c.write)
      (s.streams id) := by
    intro e he
    have hstep := h (.stream id e) fun _ => by simp
    simp only [RemoteFiles.step, hf] at hstep
    rw [if_pos ⟨he, .inl hdown⟩] at hstep
    exact Option.map_eq_none_iff.mp hstep
  have hread := hinv.streams.started id (hid ▸ Option.some_ne_none node)
  have hstarted : (s.streams id).stream ≠ .init := by
    intro hinit
    rw [hinit] at hread
    cases hread
  obtain ⟨n, before, after, hfront, -⟩ := hinv.streams.invariant id f hf
  have hcrashed := hinv.streams.crashed.mpr ⟨id, hfront.crashed_of_atRest hrest hstarted hne⟩
  cases (not_crashed hdown).symm.trans hcrashed

/-- The node of the stream that has crashed the front end has got its file. -/
theorem whole (h : AtRest c s) (hinv : Inv c s) (hw : c.write.Whole) (hcrashed : s.crashed = true) :
    ∃ id node f, s.consumer id = some node ∧ c.disk (c.path node) = some f ∧
      ((s.streams id).threw = false → (s.streams id).console = f.bytes) := by
  obtain ⟨id, hid⟩ := hinv.streams.crashed.mp hcrashed
  cases hc : s.consumer id with
  | none =>
    rw [hinv.streams.untouched id hc] at hid
    cases hid
  | some node =>
    obtain ⟨f, hdisk, hf⟩ := hinv.file hc
    refine ⟨id, node, f, hc, hdisk, fun hthrew => ?_⟩
    obtain ⟨blocks, rest, hdelivered⟩ :=
      (hinv.streams.invariant id f hf).delivered (filein_shows hw)
    have hwire : (s.streams id).wire = [] := by
      cases hw : (s.streams id).wire with
      | nil => rfl
      | cons bytes rest =>
        have hstep := h (.stream id (.deliver [bytes])) fun _ => by simp
        simp [RemoteFiles.step, RemoteStream.step, hf, hw, hthrew, onFrontend] at hstep
    rw [hdelivered.shown hthrew]
    exact hdelivered.all hid hwire

end AtRest

/-- The exception is that of the request of a node whose path has no file. -/
def Missed (c : Setup) (s : State) : Prop :=
  s.threw = true → ∃ node ∈ s.called, c.disk (c.path node) = none

namespace Missed

theorem keep (h : Missed c s) (hthrew : t.threw = s.threw) (hcalled : s.called ⊆ t.called) :
    Missed c t := by
  intro ht
  obtain ⟨node, hnode, hnone⟩ := h (hthrew ▸ ht)
  exact ⟨node, hcalled hnode, hnone⟩

theorem step (h : Missed c s) (hinv : Inv c s) (hok : Smooth c s e) (hs : Step c s e t) :
    Missed c t := by
  obtain ⟨horderly, hfd, -⟩ := hok
  cases hs with
  | call => exact h.keep rfl (List.subset_append_left _ _)
  | complete | reply | id | start | stream => exact h.keep rfl fun _ hnode => hnode
  | request i node buf fd hdown hi =>
    rw [Orderly, hi] at horderly
    rw [← Option.some.inj horderly]
    have hcases := openInputStream_cases { s with requests := s.requests.eraseIdx i } node
      (c.disk (c.path node)) fd
    generalize State.openInputStream _ _ _ _ = t at hcases
    cases hcases with
    | opened => exact h.keep rfl fun _ hnode => hnode
    | failed next _ hnone =>
      have hcalled := hinv.opened.requested node (List.mem_of_getElem? hi)
      exact fun _ => ⟨node, hcalled, hnone.resolve_right fun he => hfd i buf (he ▸ rfl)⟩

end Missed

/-- The dumps end with the front end: it has crashed at the end of a file that its node has got as a
whole, or an exception has ended it at the request of a node whose path has no file. No node is told
that its stream is at the end. -/
structure Ended (c : Setup) (s : State) : Prop where
  down : s.crashed = true ∨ s.threw = true
  whole : s.crashed = true → ∃ id node f, s.consumer id = some node ∧
    c.disk (c.path node) = some f ∧
      ((s.streams id).threw = false → (s.streams id).console = f.bytes)
  missed : Missed c s
  eofs : ∀ id, (s.streams id).eofs = 0

/-- Once a node dumps a file that is not empty, the system comes to rest only by the end of the
front end. -/
theorem remoteFiles_end (hw : c.write.Whole)
    (h : Reaches (RemoteFiles.step c) (Smooth c) (.init c) s) (hrest : AtRest c s) {node : Nat}
    (hnode : node ∈ s.called) {f : File} (hdisk : c.disk (c.path node) = some f)
    (hne : f.bytes ≠ []) : Ended c s := by
  obtain ⟨hinv, htracked, hmissed⟩ : Inv c s ∧ Tracked c s ∧ Missed c s := by
    refine h.invariant (I := fun s => Inv c s ∧ Tracked c s ∧ Missed c s)
      ⟨⟨.init c, .init c, .init c⟩, .init c, fun h => (by cases h)⟩ ?_
    rintro s e t ⟨hinv, htracked, hmissed⟩ hok hs
    have hcases := step_cases hs
    exact ⟨hinv.step hok.1 hs, htracked.step hinv hok hcases, hmissed.step hinv hok hcases⟩
  have hdown : s.down = true := by
    by_contra hnot
    obtain hwait | ⟨id, hid⟩ := htracked node hnode (hdisk ▸ Option.some_ne_none f)
    · rw [hrest.nobody_waits hinv (Bool.eq_false_iff.mpr hnot)] at hwait
      exact List.not_mem_nil hwait
    · exact hnot (hrest.down_of_dumping hinv hid hdisk hne)
  exact ⟨Bool.or_eq_true_iff.mp hdown, hrest.whole hinv hw, hmissed, hinv.eofs⟩

instance (c : Setup) (s : State) (e : Event) : Decidable (Smooth c s e) :=
  match e with
  | .request i buf fd => decidable_of_iff (Orderly c s (.request i buf fd) ∧ fd ≠ none) (by
      simp [Smooth])
  | .complete k ok => decidable_of_iff (Orderly c s (.complete k ok) ∧ ok ≠ false) (by
      simp [Smooth])
  | .call _ | .reply _ | .id _ | .start _ | .stream _ _ => .isTrue (by simp [Smooth, Orderly])

/-- When the front end is at its end and all messages have been dealt with, nothing is left. -/
theorem atRest_of_down (hdown : s.down = true) (hids : s.ids = [])
    (hwire : ∀ id, (s.streams id).wire = []) : AtRest c s := by
  intro e he
  cases e with
  | call node => exact absurd rfl (he node)
  | request i buf fd =>
    simp only [RemoteFiles.step]
    split
    · exact if_neg fun h => absurd (h.1.symm.trans hdown) (by decide)
    · rfl
  | complete k ok => exact if_pos hdown
  | reply k =>
    simp only [RemoteFiles.step]
    split
    · exact if_pos hdown
    · rfl
  | id i => simp [RemoteFiles.step, hids]
  | start i =>
    simp only [RemoteFiles.step]
    split
    · split
      · exact if_pos hdown
      · rfl
    · rfl
  | stream id e =>
    simp only [RemoteFiles.step]
    split
    · cases e with
      | deliver chain => simp [RemoteStream.step, hwire]
      | start | read | transmit | free => simp [onFrontend, hdown]
    · rfl

/-- Node 1 dumps its file. -/
def oneDump : List Event :=
  [.call 1, .request 0 ⟨[0, 0, 0, 0, 0x62], []⟩ (some 3), .complete 0 true, .reply 0, .id 0,
    .start 0, .stream 100 (.read 0 2), .stream 100 .transmit, .stream 100 .free,
    .stream 100 (.deliver [(⟨0, 0⟩ : StreamMessages.StreamDataMsg).image ++ [7, 8]])]

theorem oneDump_runs :
    (run (guarded (RemoteFiles.step twoFiles) (Smooth twoFiles)) (.init twoFiles)
      oneDump).isSome := by
  decide +kernel

theorem oneDump_atRest : AtRest twoFiles
    ((run (guarded (RemoteFiles.step twoFiles) (Smooth twoFiles)) (.init twoFiles) oneDump).get
      oneDump_runs) := by
  have hinv := inv_of_reaches (fun _ _ hok => hok.1) (reaches_get oneDump_runs)
  refine atRest_of_down (by decide +kernel) (by decide +kernel) fun id => ?_
  cases hc : State.consumer _ id with
  | none =>
    rw [hinv.streams.untouched id hc]
    rfl
  | some node =>
    obtain ⟨r, ho⟩ := hinv.told.consumer id node hc
    have hopened : ((run (guarded (RemoteFiles.step twoFiles) (Smooth twoFiles)) (.init twoFiles)
        oneDump).get oneDump_runs).fs.opened = [⟨1, 0, 100⟩] := by
      decide +kernel
    rw [hopened, List.mem_singleton] at ho
    cases ho
    decide +kernel

theorem oneDump_ended : Ended twoFiles
    ((run (guarded (RemoteFiles.step twoFiles) (Smooth twoFiles)) (.init twoFiles) oneDump).get
      oneDump_runs) :=
  remoteFiles_end (fun _ => rfl) (reaches_get oneDump_runs) oneDump_atRest
    (show 1 ∈ _ by decide +kernel) (f := ⟨[7, 8], by decide⟩) rfl (by decide)

/-- The steps that a dump can have: one for its request, four up to its start, and those of the
stream. -/
def cost (c : Setup) (node : Nat) : Nat :=
  5 + 4 * (c.disk (c.path node)).elim 0 fun f => f.bytes.length

def streamWork (s : State) (id : EbbId) : Nat :=
  (s.files id).elim 0 fun f => work f (s.streams id)

/-- The steps that are left for the dumps that have been called. -/
def stepsLeft (c : Setup) (s : State) : Nat :=
  (s.requests.map (cost c)).sum + 4 * s.fs.opening.length + 3 * s.fs.queue.length +
    2 * s.ids.length + s.starts.length + (s.fs.opened.map fun o => streamWork s o.id).sum

def moves : Event → Bool
  | .call _ => false
  | .request _ _ _ | .complete _ _ | .reply _ | .id _ | .start _ | .stream _ _ => true

theorem sum_map_eraseIdx {α : Type*} {l : List α} {i : Nat} {x : α} (f : α → Nat)
    (hi : l[i]? = some x) : f x + ((l.eraseIdx i).map f).sum = (l.map f).sum := by
  obtain ⟨hlt, rfl⟩ := List.getElem?_eq_some_iff.mp hi
  exact ((List.getElem_cons_eraseIdx_perm hlt).map f).sum_nat

/-- A stream that is put in the place of another has no more to do. -/
theorem streamWork_put {id : EbbId} {f : File} {stream : RemoteStream.State}
    (hfiles : t.files = s.files) (hstreams : t.streams = Function.update s.streams id stream)
    (hf : s.files id = some f) (hwork : work f stream ≤ work f (s.streams id))
    (id' : EbbId) : streamWork t id' ≤ streamWork s id' := by
  rw [streamWork, streamWork, hfiles, hstreams]
  by_cases hne : id' = id
  · subst hne
    rw [hf, Function.update_self]
    exact hwork
  · rw [Function.update_of_ne hne]

namespace stepsLeft

theorem opens (hinv : Inv c s) {i node : Nat} {fd : Option Nat} (hi : s.requests[i]? = some node)
    (ht : Opens { s with requests := s.requests.eraseIdx i } node (c.disk (c.path node)) fd t) :
    stepsLeft c t + 1 ≤ stepsLeft c s := by
  have hsum := sum_map_eraseIdx (cost c) hi
  cases ht with
  | failed next hle hnone =>
    simp only [stepsLeft, cost, streamWork] at hsum ⊢
    omega
  | opened f hdisk hfd =>
    have hold : (s.fs.opened.map fun o => (Function.update s.files s.fs.next (some f) o.id).elim 0
        fun f => work f (s.streams o.id)) = s.fs.opened.map fun o => streamWork s o.id := by
      refine List.map_congr_left fun o ho => ?_
      rw [Function.update_of_ne (hinv.opened.fs.ids_lt o ho).ne]
      rfl
    have hnew : work f (s.streams s.fs.next) = 4 * f.bytes.length := by
      rw [hinv.streams.untouched _ (Streams.consumer_next hinv.opened hinv.told)]
      rfl
    simp only [cost, hdisk, Option.elim_some] at hsum
    simp only [stepsLeft, streamWork, List.map_append, List.map_singleton, List.sum_append,
      List.sum_singleton, List.length_append, List.length_singleton, Function.update_self,
      Option.elim_some, hnew] at hold ⊢
    rw [hold]
    omega

theorem put {id : EbbId} {f : File} {stream : RemoteStream.State} (hfs : t.fs = s.fs)
    (hfiles : t.files = s.files) (hstreams : t.streams = Function.update s.streams id stream)
    (hf : s.files id = some f) (hwork : work f stream ≤ work f (s.streams id)) :
    (t.fs.opened.map fun o => streamWork t o.id).sum ≤
      (s.fs.opened.map fun o => streamWork s o.id).sum := by
  rw [hfs]
  exact List.sum_le_sum fun o _ => streamWork_put hfiles hstreams hf hwork o.id

/-- A step of a stream is one of the steps that it has left. -/
theorem follow (hinv : Inv c s) {id : EbbId} {f : File} {e : RemoteStream.Event}
    {stream : RemoteStream.State} (hf : s.files id = some f) (he : e ≠ .start)
    (hs : RemoteStream.step f (c.pad id) (RemoteStream.filein c.write) (s.streams id) e =
      some stream) :
    stepsLeft c (s.follow id stream) + 1 ≤ stepsLeft c s := by
  have hwork : work f stream + 1 ≤ work f (s.streams id) := by
    simpa [he] using work_step hs
  have hlt : ((s.follow id stream).fs.opened.map
      fun o => streamWork (s.follow id stream) o.id).sum <
      (s.fs.opened.map fun o => streamWork s o.id).sum := by
    have hle := streamWork_put (s := s) (t := s.follow id stream) rfl rfl hf
      (Nat.le_of_succ_le hwork)
    refine List.sum_lt_sum _ _ (fun o _ => hle o.id) ?_
    cases hc : s.consumer id with
    | none =>
      rw [hinv.streams.untouched id hc, step_init he] at hs
      cases hs
    | some node =>
      obtain ⟨r, ho⟩ := hinv.told.consumer id node hc
      refine ⟨_, ho, ?_⟩
      simp only [streamWork, State.follow, hf, Function.update_self, Option.elim_some]
      exact hwork
  have hrest : stepsLeft c (s.follow id stream) +
      (s.fs.opened.map fun o => streamWork s o.id).sum = stepsLeft c s +
      ((s.follow id stream).fs.opened.map
        fun o => streamWork (s.follow id stream) o.id).sum := by
    simp only [stepsLeft, State.follow]
    omega
  omega

/-- Every step but a call is one of those that are left. -/
theorem step (hinv : Inv c s) (hok : Orderly c s e) (hs : Step c s e t) :
    stepsLeft c t + (s.called.map (cost c)).sum + (if moves e then 1 else 0) ≤
      stepsLeft c s + (t.called.map (cost c)).sum := by
  have hmoves {t : State} (hlt : stepsLeft c t + 1 ≤ stepsLeft c s)
      (hcalled : t.called = s.called) : stepsLeft c t + (s.called.map (cost c)).sum + 1 ≤
        stepsLeft c s + (t.called.map (cost c)).sum := by
    rw [hcalled]
    omega
  cases hs with
  | call node hnew =>
    simp only [stepsLeft, streamWork, moves, List.map_append, List.map_singleton, List.sum_append,
      List.sum_singleton, Bool.false_eq_true, if_false]
    omega
  | request i node buf fd hdown hi =>
    rw [Orderly, hi] at hok
    rw [← Option.some.inj hok]
    exact hmoves (opens hinv hi (openInputStream_cases _ _ _ _)) rfl
  | complete k ok fs hdown hfs =>
    refine hmoves ?_ rfl
    cases hfs with
    | completes _ o hk | fails _ o hk =>
      have hlen := length_eraseIdx_add_one hk
      simp only [stepsLeft, streamWork, List.length_append, List.length_singleton]
      omega
  | reply k q fs hdown hq hfs =>
    refine hmoves ?_ rfl
    cases hfs with
    | transmit =>
      have hlen := length_eraseIdx_add_one hq
      simp only [stepsLeft, streamWork, List.length_append, List.length_singleton]
      omega
  | id i m hm =>
    refine hmoves ?_ rfl
    have hlen := length_eraseIdx_add_one hm
    simp only [stepsLeft, streamWork, List.length_append, List.length_singleton]
    omega
  | start i node id f stream hdown hi hf hstep =>
    refine hmoves ?_ rfl
    have hlen := length_eraseIdx_add_one hi
    have hwork : work f stream ≤ work f (s.streams id) := by
      simpa using work_step hstep
    have hput := put (s := s)
      (t := { s with starts := s.starts.eraseIdx i }.asyncReadStart node id stream) rfl rfl rfl hf
      hwork
    simp only [stepsLeft, State.asyncReadStart] at hput ⊢
    omega
  | stream id f e stream hf he hdown hstep => exact hmoves (follow hinv hf he hstep) rfl

end stepsLeft

/-- No run has more steps than the dumps that were called for have. -/
theorem remoteFiles_bounded {es : List Event}
    (h : run (guarded (RemoteFiles.step c) (Orderly c)) (.init c) es = some s) :
    es.countP moves ≤ (s.called.map (cost c)).sum := by
  have hbound := (countP_add_le_of_run (I := Inv c) (stepsLeft c)
    (fun s => (s.called.map (cost c)).sum) moves ?_ h ⟨.init c, .init c, .init c⟩).2
  · have hinit : stepsLeft c (.init c) = 0 := rfl
    omega
  · intro s e t hinv hs
    obtain ⟨hok, hs⟩ := Option.ite_none_right_eq_some.mp hs
    exact ⟨hinv.step hok hs, stepsLeft.step hinv hok (step_cases hs)⟩

theorem apart_bounded : apart.countP moves ≤ (((run (guarded (RemoteFiles.step twoFiles)
    (Orderly twoFiles)) (.init twoFiles) apart).get apart_runs).called.map (cost twoFiles)).sum :=
  remoteFiles_bounded (Option.some_get apart_runs).symm

end EbbrtContrib.RemoteFilesEnd
