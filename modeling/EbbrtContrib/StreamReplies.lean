import EbbrtContrib.Numbered
import EbbrtContrib.OpenStream

namespace EbbrtContrib.StreamReplies

open OpenStream (Answers EbbId RuntimeError openInputStream openInputStream_opens
  openInputStream_fails)
open Runs Numbered

/-- A stream that was opened for a request of a node. Requests are numbered as they arrive at
the front end. -/
structure Stream where
  node : Nat
  request : Nat
  id : EbbId
  deriving DecidableEq, Repr

/-- A reply handed to `SendMessage`, which refers to `stream_id_msg_`. -/
structure Reply where
  node : Nat
  request : Nat
  deriving DecidableEq, Repr

/-- `cell` is `stream_id_msg_.id`, `opening` the opens whose id is being published, and
`opened` records all of them. `received` is what the nodes were sent. -/
structure State where
  cell : EbbId
  arrived : Nat
  next : EbbId
  opening : List Stream
  opened : List Stream
  queue : List Reply
  received : List Stream
  deriving DecidableEq, Repr

/-- The constructor of `Root` leaves `stream_id_msg_.id` uninitialised. -/
def State.init (cell next : EbbId) : State := ⟨cell, 0, next, [], [], [], []⟩

/-- `transmit` is the step that reads the bytes of a queued reply. -/
inductive Event
  | request (node : Nat) (a : Answers)
  | complete (k : Nat) (ok : Bool)
  | transmit (k : Nat)
  deriving DecidableEq, Repr

/-- `process_message` for `kOPEN_STREAM` -/
def processOpenStream (s : State) (node : Nat) (a : Answers) : State :=
  match openInputStream a s.next with
  | (.ok id, next) => { s with
      arrived := s.arrived + 1, next := next
      opening := s.opening ++ [⟨node, s.arrived, id⟩]
      opened := s.opened ++ [⟨node, s.arrived, id⟩] }
  | (.error _, next) => { s with arrived := s.arrived + 1, next := next }

/-- The continuation of `openInputStream`, when its future has not failed. -/
def sendStreamId (s : State) (o : Stream) : State :=
  { s with cell := o.id, queue := s.queue ++ [⟨o.node, o.request⟩] }

def step (s : State) : Event → Option State
  | .request node a => some (processOpenStream s node a)
  | .complete k ok =>
    match s.opening[k]? with
    | some o =>
      let s := { s with opening := s.opening.eraseIdx k }
      some (if ok then sendStreamId s o else s)
    | none => none
  | .transmit k =>
    match s.queue[k]? with
    | some q => some { s with
        queue := s.queue.eraseIdx k
        received := s.received ++ [⟨q.node, q.request, s.cell⟩] }
    | none => none

/-- Everything a step can do, as a relation. -/
inductive Step (s : State) : Event → State → Prop
  | opens (node : Nat) (a : Answers) : Step s (.request node a) { s with
      arrived := s.arrived + 1, next := s.next + 1
      opening := s.opening ++ [⟨node, s.arrived, s.next⟩]
      opened := s.opened ++ [⟨node, s.arrived, s.next⟩] }
  | throws (node : Nat) (a : Answers) (next : EbbId) : s.next ≤ next → Step s (.request node a)
      { s with arrived := s.arrived + 1, next := next }
  | completes (k : Nat) (o : Stream) : s.opening[k]? = some o → Step s (.complete k true) { s with
      opening := s.opening.eraseIdx k, cell := o.id
      queue := s.queue ++ [⟨o.node, o.request⟩] }
  | fails (k : Nat) (o : Stream) : s.opening[k]? = some o → Step s (.complete k false)
      { s with opening := s.opening.eraseIdx k }
  | transmit (k : Nat) (q : Reply) : s.queue[k]? = some q → Step s (.transmit k) { s with
      queue := s.queue.eraseIdx k
      received := s.received ++ [⟨q.node, q.request, s.cell⟩] }

theorem step_cases {s t : State} {e : Event} (h : step s e = some t) : Step s e t := by
  cases e with
  | request node a =>
    by_cases ha : a.Opens
    · simp only [step, processOpenStream, openInputStream_opens ha] at h
      cases h
      exact .opens node a
    · obtain ⟨err, next, hle, hfail⟩ := openInputStream_fails ha s.next
      simp only [step, processOpenStream, hfail] at h
      cases h
      exact .throws node a next hle
  | complete k ok =>
    simp only [step] at h
    split at h
    · rename_i o hk
      cases ok with
      | true =>
        cases h
        exact .completes k o hk
      | false =>
        cases h
        exact .fails k o hk
    · cases h
  | transmit k =>
    simp only [step] at h
    split at h
    · rename_i q hk
      cases h
      exact .transmit k q hk
    · cases h

/-- Every node was sent the id of the stream opened for its request, and a queued reply still
refers to that id. -/
structure OwnReplies (s : State) : Prop where
  created : (s.opened.map Stream.request).Nodup
  received : ∀ m ∈ s.received, m ∈ s.opened
  queued : ∀ q ∈ s.queue, ⟨q.node, q.request, s.cell⟩ ∈ s.opened

/-- The cell is not modified while a queued message refers to it. -/
def Intact (s t : State) : Prop := s.queue ≠ [] → t.cell = s.cell

/-- An open completes only when every reply queued before it has been transmitted. -/
def Alone (s : State) : Event → Prop
  | .complete _ true => s.queue = []
  | .complete _ false | .request _ _ | .transmit _ => True

structure Inv (s : State) : Prop where
  opened : ∀ o ∈ s.opening, o ∈ s.opened
  requests_lt : ∀ o ∈ s.opened, o.request < s.arrived
  ids_lt : ∀ o ∈ s.opened, o.id < s.next
  requests : (s.opened.map Stream.request).Nodup
  ids : (s.opened.map Stream.id).Nodup
  once : (s.opening.map Stream.request).Nodup
  apart : ∀ o ∈ s.opening, ∀ q ∈ s.queue, o.request ≠ q.request
  received : ∀ m ∈ s.received, m ∈ s.opened
  queued : ∀ q ∈ s.queue, ⟨q.node, q.request, s.cell⟩ ∈ s.opened

variable {s t : State} {e : Event}

namespace Inv

theorem init (cell next : EbbId) : Inv (.init cell next) := by
  constructor <;> simp [State.init]

theorem ownReplies (h : Inv s) : OwnReplies s := ⟨h.requests, h.received, h.queued⟩

theorem step (h : Inv s) (hg : Alone s e) (hs : Step s e t) : Inv t := by
  obtain ⟨opened, requests_lt, ids_lt, requests, ids, once, apart, received, queued⟩ := h
  cases hs with
  | opens node a =>
    have hnew : ∀ o ∈ s.opening, o.request < s.arrived := fun o ho => requests_lt o (opened o ho)
    constructor
    · exact forall_mem_snoc (fun o ho => List.mem_append_left _ (opened o ho)) (by simp)
    · exact forall_mem_snoc (fun o ho => Nat.lt_succ_of_lt (requests_lt o ho)) (Nat.lt_succ_self _)
    · exact forall_mem_snoc (fun o ho => Nat.lt_succ_of_lt (ids_lt o ho)) (Nat.lt_succ_self _)
    · exact nodup_snoc requests requests_lt
    · exact nodup_snoc ids ids_lt
    · exact nodup_snoc once hnew
    · refine forall_mem_snoc apart fun q hq => ?_
      exact Nat.ne_of_gt (requests_lt _ (queued q hq))
    · exact fun m hm => List.mem_append_left _ (received m hm)
    · exact fun q hq => List.mem_append_left _ (queued q hq)
  | throws node a next hle =>
    refine ⟨opened, fun o ho => Nat.lt_succ_of_lt (requests_lt o ho),
      fun o ho => Nat.lt_of_lt_of_le (ids_lt o ho) hle, requests, ids, once, apart, received,
      queued⟩
  | completes k o hk =>
    have hmem : ∀ o' ∈ s.opening.eraseIdx k, o' ∈ s.opening := fun o' => List.mem_of_mem_eraseIdx
    have ho : o ∈ s.opened := opened o (List.mem_of_getElem? hk)
    have hqueue : s.queue = [] := hg
    refine ⟨fun o' ho' => opened o' (hmem o' ho'), requests_lt, ids_lt, requests, ids,
      nodup_eraseIdx once k, ?_, received, ?_⟩
    · intro o' ho' q hq
      rw [hqueue, List.nil_append, List.mem_singleton] at hq
      rw [hq]
      exact ne_of_mem_eraseIdx once hk ho'
    · intro q hq
      rw [hqueue, List.nil_append, List.mem_singleton] at hq
      rwa [hq]
  | fails k o hk =>
    have hmem : ∀ o' ∈ s.opening.eraseIdx k, o' ∈ s.opening := fun o' => List.mem_of_mem_eraseIdx
    exact ⟨fun o' ho' => opened o' (hmem o' ho'), requests_lt, ids_lt, requests, ids,
      nodup_eraseIdx once k, fun o' ho' => apart o' (hmem o' ho'), received, queued⟩
  | transmit k q hk =>
    have hmem : ∀ q' ∈ s.queue.eraseIdx k, q' ∈ s.queue := fun q' => List.mem_of_mem_eraseIdx
    exact ⟨opened, requests_lt, ids_lt, requests, ids, once,
      fun o ho q' hq' => apart o ho q' (hmem q' hq'),
      forall_mem_snoc received (queued q (List.mem_of_getElem? hk)),
      fun q' hq' => queued q' (hmem q' hq')⟩

theorem intact (hs : Step s e t) (hg : Alone s e) : Intact s t := by
  intro hne
  cases hs with
  | completes k o hk => exact absurd hg hne
  | opens | throws | fails | transmit => rfl

/-- A completion while a reply is queued gives that reply the id of another stream. -/
theorem overwrites (h : Inv s) (hs : Step s e t) (hg : ¬ Alone s e) :
    ¬ Intact s t ∧ ∃ u, StreamReplies.step t (.transmit 0) = some u ∧ ¬ OwnReplies u := by
  cases hs with
  | opens | throws | fails | transmit => exact absurd trivial hg
  | completes k o hk =>
    obtain ⟨q, rest, hq⟩ := List.exists_cons_of_ne_nil (show s.queue ≠ [] from hg)
    have hmem : q ∈ s.queue := by rw [hq]; exact List.mem_cons_self
    have ho : o ∈ s.opening := List.mem_of_getElem? hk
    have hreq : o.request ≠ q.request := h.apart o ho q hmem
    constructor
    · intro hi
      have he := eq_of_mem h.ids (h.opened o ho) (h.queued q hmem) (hi hg)
      exact hreq (congrArg Stream.request he)
    · have hfirst : (s.queue ++ [⟨o.node, o.request⟩])[0]? = some q := by rw [hq]; rfl
      refine ⟨_, by simp only [StreamReplies.step, hfirst]; rfl, fun hown => ?_⟩
      have hm : (⟨q.node, q.request, o.id⟩ : Stream) ∈ s.opened :=
        hown.received _ (List.mem_append_right _ List.mem_cons_self)
      have he := eq_of_mem h.ids (h.opened o ho) hm rfl
      exact hreq (congrArg Stream.request he)

end Inv

/-- Replies carry their own request's id in every run in which opens complete alone. Any other
completion modifies the cell under a queued reply, which then tells its node the id of another
stream. -/
theorem own_replies_iff_alone (cell next : EbbId) :
    (∀ t, Reaches step Alone (.init cell next) t → OwnReplies t) ∧
    ∀ s e t, Reaches step Alone (.init cell next) s → step s e = some t →
      (Intact s t ↔ Alone s e) ∧
        (¬ Alone s e → ∃ u, step t (.transmit 0) = some u ∧ ¬ OwnReplies u) := by
  have hinv : ∀ t, Reaches step Alone (.init cell next) t → Inv t := fun t ht =>
    ht.invariant (Inv.init cell next) fun _ _ _ hi hg hs => hi.step hg (step_cases hs)
  refine ⟨fun t ht => (hinv t ht).ownReplies, fun s e t hs hstep => ?_⟩
  have hcases := step_cases hstep
  refine ⟨⟨fun hi => ?_, Inv.intact hcases⟩, fun hg => ((hinv s hs).overwrites hcases hg).2⟩
  by_contra hg
  exact ((hinv s hs).overwrites hcases hg).1 hi

instance (s : State) (e : Event) : Decidable (Alone s e) :=
  match e with
  | .complete _ true => inferInstanceAs (Decidable (s.queue = []))
  | .complete _ false | .request _ _ | .transmit _ => inferInstanceAs (Decidable True)

def aFile : Answers := ⟨true, some 3, some .file⟩

/-- The opens of two nodes overlap, and each reply is transmitted before the next is queued. -/
def inTurn : List Event :=
  [.request 0 aFile, .request 1 aFile, .complete 1 true, .transmit 0, .complete 0 true, .transmit 0]

/-- The open of node 1 completes before the reply to node 0 is transmitted. -/
def overtaken : List Event :=
  [.request 0 aFile, .request 1 aFile, .complete 0 true, .complete 0 true, .transmit 0, .transmit 0]

theorem inTurn_runs : (run (guarded step Alone) (.init 0 100) inTurn).isSome := by decide

theorem inTurn_own :
    OwnReplies ((run (guarded step Alone) (.init 0 100) inTurn).get inTurn_runs) :=
  (own_replies_iff_alone 0 100).1 _ (reaches_get inTurn_runs)

/-- Both nodes are sent the id of the stream of node 1. -/
theorem overtaken_not_own :
    (∃ s, run step (.init 0 100) overtaken = some s ∧
      s.opened = [⟨0, 0, 100⟩, ⟨1, 1, 101⟩] ∧ s.received = [⟨0, 0, 101⟩, ⟨1, 1, 101⟩]) ∧
    (¬ ∀ cell next s, Reachable step (.init cell next) s → OwnReplies s) ∧
    ¬ ∀ cell next s e t, Reachable step (.init cell next) s → step s e = some t → Intact s t := by
  refine ⟨⟨_, rfl, rfl, rfl⟩, ?_, ?_⟩
  · intro h
    have hown := h 0 100 _ (reachable_of_run (l := overtaken) rfl)
    exact absurd (hown.received ⟨0, 0, 101⟩ List.mem_cons_self) (by decide)
  · intro h
    have hintact := h 0 100 _ (.complete 0 true) _
      (reachable_of_run (l := overtaken.take 3) rfl) rfl
    exact absurd (hintact (by decide)) (by decide)

end EbbrtContrib.StreamReplies
