import Mathlib.Data.List.Nodup
import EbbrtContrib.StreamNodes
import EbbrtContrib.StreamSessions

namespace EbbrtContrib.NodeSessions

open InputStream (Source Size Call)
open StreamNodes StreamOwners StreamSessions Runs

variable {src : Source} {s t : System} {n k : Nat}

/-- The call that a message in flight should become. -/
def Data.toCall (d : Data) : Call := ⟨d.session, d.session, d.data, d.avail, true⟩

/-- The calls of a back end's consumers, past and coming. -/
def trace (v : Node) : List Call := v.calls ++ v.down.map Data.toCall

/-- The node that the front end's stream has been started for, and the node's session. -/
def served (s : System) : Nat × Nat := s.target s.stream.session

/-- A back end only stops when none of its messages are in flight and nothing is left at the
front end that sends it more, and the front end's stream is only started and stopped as
`StreamSessions.Settled` demands. -/
def SettledRequest (src : Source) (u : InputStream.State) : List Request → Prop
  | .start _ :: _ => StreamSessions.Settled src u .start
  | .stop _ :: _ => StreamSessions.Settled src u .stop
  | [] => True

def Settled (src : Source) (s : System) : Event → Prop
  | .stop n => (s.node n).doRead = true → (s.node n).up = [] ∧ (s.node n).down = [] ∧
      ((served s).1 = n → outstanding s.stream = 0)
  | .request n => SettledRequest src s.stream (s.node n).up
  | _ => True

instance (src : Source) (u : InputStream.State) :
    (rs : List Request) → Decidable (SettledRequest src u rs)
  | .start _ :: _ => inferInstanceAs (Decidable (StreamSessions.Settled src u .start))
  | .stop _ :: _ => inferInstanceAs (Decidable (StreamSessions.Settled src u .stop))
  | [] => inferInstanceAs (Decidable True)

instance (src : Source) (s : System) : (e : Event) → Decidable (Settled src s e)
  | .stop n => inferInstanceAs (Decidable ((s.node n).doRead = true → _ ∧ _ ∧ (_ → _)))
  | .request n => inferInstanceAs (Decidable (SettledRequest src s.stream (s.node n).up))
  | .start _ => inferInstanceAs (Decidable True)
  | .data _ => inferInstanceAs (Decidable True)
  | .stream _ => inferInstanceAs (Decidable True)

/-- What holds of a back end whatever the front end does. No message tells it the end. -/
structure NodeInv (v : Node) : Prop where
  own : ∀ c ∈ trace v, c.active = true ∧ c.origin = c.consumer
  data : ∀ c ∈ trace v, c.data ≠ none
  down : ∀ d ∈ v.down, v.doRead = true ∧ d.session = v.session
  nodup : v.up.Nodup
  fresh : ∀ k, .start k ∈ v.up → v.doRead = true ∧ k = v.session

/-- While something is outstanding at the front end, the node it is for is in the session it
was started for. -/
structure Inv (src : Source) (s : System) : Prop where
  stream : StreamSessions.Inv src s.stream
  node : ∀ n, NodeInv (s.node n)
  active : outstanding s.stream ≠ 0 → (s.node (served s).1).doRead = true ∧
    (served s).2 = (s.node (served s).1).session ∧
    .start (served s).2 ∉ (s.node (served s).1).up

namespace NodeInv

theorem init : NodeInv .init where
  own := fun _ hc => (List.not_mem_nil hc).elim
  data := fun _ hc => (List.not_mem_nil hc).elim
  down := fun _ hd => (List.not_mem_nil hd).elim
  nodup := .nil
  fresh := fun _ hk => (List.not_mem_nil hk).elim

theorem start {v : Node} (h : NodeInv v) (hd : v.doRead = false) :
    NodeInv v.asyncReadStart := by
  have hup : ∀ k, .start k ∉ v.up := by
    intro k hk
    rw [(h.fresh k hk).1] at hd
    cases hd
  rw [Node.asyncReadStart, if_neg (by simp [hd])]
  constructor
  · exact h.own
  · exact h.data
  · intro d hmem
    rw [(h.down d hmem).1] at hd
    cases hd
  · rw [List.nodup_append]
    refine ⟨h.nodup, List.nodup_singleton _, ?_⟩
    intro r hr r' hr' he
    rw [List.mem_singleton.mp hr'] at he
    exact hup _ (he ▸ hr)
  · intro k hk
    obtain hk | hk := List.mem_append.mp hk
    · exact absurd hk (hup k)
    · cases List.mem_singleton.mp hk
      exact ⟨rfl, rfl⟩

theorem stop {v : Node} (h : NodeInv v) (hd : v.doRead = true) (hup : v.up = [])
    (hdown : v.down = []) : NodeInv v.asyncReadStop := by
  rw [Node.asyncReadStop, if_neg (by simp [hd])]
  refine ⟨h.own, h.data, ?_, ?_, ?_⟩
  · rw [hdown]
    simp
  · rw [hup]
    exact List.nodup_singleton _
  · intro k hk
    rw [hup, List.nil_append, List.mem_singleton] at hk
    cases hk

theorem tail {v : Node} (h : NodeInv v) {r : Request} {rest : List Request}
    (hup : v.up = r :: rest) : NodeInv { v with up := rest } := by
  have hnodup := h.nodup
  rw [hup, List.nodup_cons] at hnodup
  refine ⟨h.own, h.data, h.down, hnodup.2, ?_⟩
  intro k hk
  exact h.fresh k (by rw [hup]; exact List.mem_cons_of_mem _ hk)

/-- The arrival of a message changes nothing in the calls past and coming. -/
theorem trace_receive {v : Node} (h : NodeInv v) {d : Data} {rest : List Data}
    (hdown : v.down = d :: rest) : trace (v.receive d rest) = trace v := by
  obtain ⟨hdoRead, hsession⟩ := h.down d (by rw [hdown]; exact List.mem_cons_self)
  simp [trace, Node.receive, hdown, Data.toCall, hdoRead, hsession]

theorem receive {v : Node} (h : NodeInv v) {d : Data} {rest : List Data}
    (hdown : v.down = d :: rest) : NodeInv (v.receive d rest) := by
  have htrace := h.trace_receive hdown
  refine ⟨htrace ▸ h.own, htrace ▸ h.data, ?_, h.nodup, h.fresh⟩
  intro d' hd'
  exact h.down d' (by rw [hdown]; exact List.mem_cons_of_mem _ hd')

/-- A message to a node that is active. -/
theorem message {v : Node} (h : NodeInv v) (hd : v.doRead = true)
    (hup : .start v.session ∉ v.up) (size avail : Size) :
    NodeInv { v with down := v.down ++ [⟨v.session, some size, avail⟩] } := by
  have htrace : ∀ c ∈ trace { v with down := v.down ++ [⟨v.session, some size, avail⟩] },
      c ∈ trace v ∨ c = ⟨v.session, v.session, some size, avail, true⟩ := by
    intro c hc
    have happend : trace { v with down := v.down ++ [⟨v.session, some size, avail⟩] } =
        trace v ++ [⟨v.session, v.session, some size, avail, true⟩] := by
      simp [trace, Data.toCall]
    rw [happend] at hc
    exact (List.mem_append.mp hc).imp_right List.mem_singleton.mp
  constructor
  · intro c hc
    obtain hc | rfl := htrace c hc
    · exact h.own c hc
    · exact ⟨rfl, rfl⟩
  · intro c hc
    obtain hc | rfl := htrace c hc
    · exact h.data c hc
    · exact Option.some_ne_none size
  · intro d hmem
    obtain hmem | hmem := List.mem_append.mp hmem
    · exact h.down d hmem
    · rw [List.mem_singleton.mp hmem]
      exact ⟨hd, rfl⟩
  · exact h.nodup
  · intro k hk
    obtain ⟨-, hsession⟩ := h.fresh k hk
    rw [hsession] at hk
    exact absurd hk hup

theorem ownSession {v : Node} (h : NodeInv v) : OwnSession v.calls := by
  have hmem : ∀ c ∈ v.calls, c ∈ trace v := fun c hc => List.mem_append_left _ hc
  refine ⟨fun c hc => h.own c (hmem c hc), List.pairwise_of_forall_mem_list ?_⟩
  exact fun a ha b _ hdata => absurd hdata (h.data a (hmem a ha))

end NodeInv

theorem outstanding_stop (src : Source) (u : InputStream.State) :
    outstanding (InputStream.asyncReadStop src u) = outstanding u := by
  obtain ⟨he, -⟩ | ⟨he, -⟩ := InputStream.asyncReadStop_cases src u
  · rw [he]
  · rw [he]
    simp only [outstanding]
    split
    · rw [List.length_map]
    · rfl

/-- An event of a stream takes up something outstanding. -/
theorem outstanding_of_internal {u v : InputStream.State} {e : InputStream.Event}
    (he : Internal e) (h : InputStream.Step src u e v) : outstanding u ≠ 0 := by
  intro hzero
  obtain ⟨hpending, hspawned, hchunks⟩ := nothing_outstanding hzero
  cases h with
  | start => exact he.elim
  | stop => exact he.elim
  | complete i session r hp hr => simp [hpending] at hp
  | handle i session r readable hp => simp [hpending] at hp
  | run i session n hp hn => simp [hspawned] at hp
  | dispose i c hp => simp [hchunks] at hp

namespace Inv

theorem init : Inv src .init where
  stream := .init
  node := fun _ => .init
  active := fun h => absurd rfl h

theorem setNode (h : Inv src s) {v : Node} (hv : NodeInv v)
    (hserved : outstanding s.stream ≠ 0 → (served s).1 = n → v.doRead = true ∧
      (served s).2 = v.session ∧ .start (served s).2 ∉ v.up) : Inv src (s.setNode n v) := by
  have hsame : served (s.setNode n v) = served s := rfl
  constructor
  · exact h.stream
  · intro m
    rw [setNode_node]
    split
    · exact hv
    · exact h.node m
  · intro hout
    rw [hsame, setNode_node]
    split
    · rename_i hn
      exact hserved hout hn
    · exact h.active hout

theorem start (h : Inv src s) (n : Nat) : Inv src (s.setNode n (s.node n).asyncReadStart) := by
  by_cases hd : (s.node n).doRead = true
  · have hv : (s.node n).asyncReadStart = s.node n := by rw [Node.asyncReadStart, if_pos hd]
    rw [hv]
    apply h.setNode (h.node n)
    intro hout hn
    have hactive := h.active hout
    rwa [hn] at hactive
  · apply h.setNode ((h.node n).start (by simpa using hd))
    intro hout hn
    have hdoRead := (h.active hout).1
    rw [hn] at hdoRead
    exact absurd hdoRead hd

theorem stop (h : Inv src s) (hg : (s.node n).doRead = true → (s.node n).up = [] ∧
      (s.node n).down = [] ∧ ((served s).1 = n → outstanding s.stream = 0)) :
    Inv src (s.setNode n (s.node n).asyncReadStop) := by
  by_cases hd : (s.node n).doRead = true
  · obtain ⟨hup, hdown, hzero⟩ := hg hd
    apply h.setNode ((h.node n).stop hd hup hdown)
    exact fun hout hn => absurd (hzero hn) hout
  · have hv : (s.node n).asyncReadStop = s.node n := by
      rw [Node.asyncReadStop, if_pos (by simpa using hd)]
    rw [hv]
    apply h.setNode (h.node n)
    intro hout hn
    have hdoRead := (h.active hout).1
    rw [hn] at hdoRead
    exact absurd hdoRead hd

theorem receive (h : Inv src s) {d : Data} {rest : List Data}
    (hdown : (s.node n).down = d :: rest) :
    Inv src (s.setNode n ((s.node n).receive d rest)) := by
  apply h.setNode ((h.node n).receive hdown)
  intro hout hn
  have hactive := h.active hout
  rwa [hn] at hactive

/-- A request is taken from its queue. -/
theorem tail (h : Inv src s) {r : Request} {rest : List Request}
    (hup : (s.node n).up = r :: rest) : Inv src (s.setNode n { s.node n with up := rest }) := by
  apply h.setNode ((h.node n).tail hup)
  intro hout hn
  obtain ⟨hdoRead, hsession, hstart⟩ := h.active hout
  rw [hn] at hdoRead hsession hstart
  refine ⟨hdoRead, hsession, ?_⟩
  intro hmem
  exact hstart (by rw [hup]; exact List.mem_cons_of_mem _ hmem)

/-- The front end's stream is started for an active node whose start was the last one. -/
theorem process_start (h : Inv src s) (hg : StreamSessions.Settled src s.stream .start)
    (hdoRead : (s.node n).doRead = true) (hsession : k = (s.node n).session)
    (hup : .start k ∉ (s.node n).up) : Inv src (s.process src n (.start k)) := by
  by_cases hd : s.stream.doRead = true
  · rw [System.process, if_pos hd]
    exact h
  · have hsession' := (InputStream.start_keeps (s := s.stream) src (by simpa using hd)).2.1
    rw [System.process, if_neg hd]
    have hserved : served { s with
        stream := InputStream.asyncReadStart src s.stream
        target := Function.update s.target (s.stream.session + 1) (n, k) } = (n, k) := by
      rw [served, hsession']
      exact Function.update_self _ _ _
    refine ⟨h.stream.start hg, h.node, ?_⟩
    intro _
    rw [hserved]
    exact ⟨hdoRead, hsession, hup⟩

theorem process_stop (h : Inv src s) (hg : StreamSessions.Settled src s.stream .stop) :
    Inv src (s.process src n (.stop k)) := by
  have hout := outstanding_stop src s.stream
  have hserved : served (s.process src n (.stop k)) = served s := by
    rw [served, System.process, (InputStream.stop_keeps src s.stream).2.1, served]
  refine ⟨h.stream.stop hg, h.node, ?_⟩
  intro hne
  rw [hserved]
  exact h.active (hout ▸ hne)

theorem request (h : Inv src s) {r : Request} {rest : List Request}
    (hg : SettledRequest src s.stream (s.node n).up) (hup : (s.node n).up = r :: rest) :
    Inv src ((s.setNode n { s.node n with up := rest }).process src n r) := by
  have htail := h.tail hup
  have hnode := h.node n
  have hnodup := hnode.nodup
  rw [hup] at hg hnodup
  cases r with
  | start k =>
    obtain ⟨hdoRead, hsession⟩ := hnode.fresh k (by rw [hup]; exact List.mem_cons_self)
    apply htail.process_start hg
    · simpa using hdoRead
    · simpa using hsession
    · simpa using (List.nodup_cons.mp hnodup).1
  | stop k => exact htail.process_stop hg

/-- The front end's stream takes a step, and a call of its consumer goes to the node that is
being served. -/
theorem serve (h : Inv src s) {u : InputStream.State} {e : InputStream.Event} (he : Internal e)
    (hs : InputStream.Step src s.stream e u) : Inv src (s.serve u) := by
  obtain ⟨hdoRead, hsession⟩ := internal_keeps he hs
  have hout := outstanding_of_internal he hs
  have hok : StreamSessions.Settled src s.stream e := by
    cases e with
    | start => exact he.elim
    | stop => exact he.elim
    | _ => trivial
  have hstream := h.stream.step hok hs
  have hserved : served (s.serve u) = served s := by
    rw [served, served, ← hsession]
    rfl
  obtain ⟨hactive, hown, hup⟩ := h.active hout
  -- At most one message goes out, to the node that is being served.
  have hnode : ∀ m, (s.serve u).node m = s.node m ∨ (served s).1 = m ∧ ∃ size avail,
      (s.serve u).node m = { s.node m with
        down := (s.node m).down ++ [⟨(served s).2, some size, avail⟩] } := by
    intro m
    obtain hcalls | ⟨c, hcalls, hc⟩ := InputStream.step_calls hs
    · left
      simp [System.serve, hcalls]
    · have horigin : c.origin = c.consumer :=
        (hstream.calls.own c (by rw [hcalls]; exact List.mem_append_right _ List.mem_cons_self)).2
      have htarget : s.target s.stream.session = served s := rfl
      simp only [System.serve, hcalls, List.drop_left, List.filterMap_cons, List.filterMap_nil,
        System.message, horigin, hc, htarget]
      cases c.data with
      | none => exact .inl (by simp)
      | some size =>
        by_cases hm : (served s).1 = m
        · exact .inr ⟨hm, size, c.avail, by simp [hm]⟩
        · exact .inl (by simp [hm])
  refine ⟨hstream, fun m => ?_, fun _ => ?_⟩
  · obtain hsame | ⟨rfl, size, avail, hsent⟩ := hnode m
    · rw [hsame]
      exact h.node m
    · rw [hsent, hown]
      rw [hown] at hup
      exact (h.node _).message hactive hup size avail
  · rw [hserved]
    obtain hsame | ⟨-, size, avail, hsent⟩ := hnode (served s).1
    · rw [hsame]
      exact ⟨hactive, hown, hup⟩
    · rw [hsent]
      exact ⟨hactive, hown, hup⟩

theorem step (h : Inv src s) {e : Event} (hg : Settled src s e) (hs : Step src s e t) :
    Inv src t := by
  cases hs with
  | start n => exact h.start n
  | stop n => exact h.stop hg
  | request n r rest hup hcrashed => exact h.request hg hup
  | data n d rest hdown => exact h.receive hdown
  | stream e u he hcrashed hu => exact h.serve he hu

end Inv

/-- Neither implementation calls a consumer outside its session in a run without leftovers. -/
theorem calls_in_session (src : Source) :
    (∀ s, Reaches (InputStream.step src) (StreamSessions.Settled src) .init s →
      OwnSession s.calls) ∧
    ∀ s, Reaches (step src) (Settled src) .init s →
      OwnSession s.stream.calls ∧ ∀ n, OwnSession (s.node n).calls := by
  refine ⟨fun s h => (inv_of_reaches h).calls, ?_⟩
  intro s h
  have hinv : Inv src s :=
    h.invariant Inv.init fun _ _ _ hi hg hs => hi.step hg (step_cases hs)
  exact ⟨hinv.stream.calls, fun n => (hinv.node n).ownSession⟩

def pipe : Source := ⟨true, 0⟩

/-- The consumer stops while it holds a chunk, and is started again after its disposal. -/
def settled : List InputStream.Event :=
  [.start, .complete 0 (.data 5), .handle 0 (some 0), .stop, .dispose 0, .start]

/-- A back end gets a chunk, and stops when `io_control` has failed at the front end. -/
def settledNode : List Event :=
  [.start 0, .request 0, .stream (.complete 0 (.data 5)), .stream (.handle 0 (some 0)), .data 0,
    .stream (.dispose 0), .stream (.complete 0 (.data 3)), .stream (.handle 0 none), .stop 0,
    .request 0]

theorem settled_runs :
    (run (guarded (InputStream.step pipe) (StreamSessions.Settled pipe)) .init settled).isSome := by
  decide

theorem settledNode_runs :
    (run (guarded (step pipe) (Settled pipe)) .init settledNode).isSome := by decide

theorem settled_in_session :
    OwnSession ((run (guarded (InputStream.step pipe) (StreamSessions.Settled pipe)) .init
      settled).get settled_runs).calls ∧
    let s := (run (guarded (step pipe) (Settled pipe)) .init settledNode).get settledNode_runs
    OwnSession s.stream.calls ∧ ∀ n, OwnSession (s.node n).calls :=
  ⟨(calls_in_session pipe).1 _ (reaches_get settled_runs),
    (calls_in_session pipe).2 _ (reaches_get settledNode_runs)⟩

/-- The cancelled read of a stopped pipe calls its consumer, and so does a message that
arrives after the stop of a back end. -/
theorem leftovers_call :
    (∃ s, run (InputStream.step pipe) .init [.start, .stop, .handle 0 none] = some s ∧
      s.calls = [⟨1, 1, none, 0, false⟩]) ∧
    (∃ s, run (step pipe) .init [.start 0, .request 0, .stream (.complete 0 (.data 5)),
      .stream (.handle 0 (some 0)), .stop 0, .data 0] = some s ∧
      (s.node 0).calls = [⟨1, 1, some 5, 0, false⟩]) ∧
    ¬ (∀ src s, Reachable (InputStream.step src) .init s → OwnSession s.calls) ∧
    ¬ ∀ src s, Reachable (step src) .init s → ∀ n, OwnSession (s.node n).calls := by
  refine ⟨⟨_, rfl, rfl⟩, ⟨_, rfl, rfl⟩, ?_, ?_⟩
  · intro hall
    have hreach : Reachable (InputStream.step pipe) .init _ :=
      reachable_of_run (l := [.start, .stop, .handle 0 none]) rfl
    exact absurd ((hall pipe _ hreach).own _ List.mem_cons_self).1 (by decide)
  · intro hall
    have hreach : Reachable (step pipe) .init _ :=
      reachable_of_run (l := [.start 0, .request 0, .stream (.complete 0 (.data 5)),
        .stream (.handle 0 (some 0)), .stop 0, .data 0]) rfl
    exact absurd ((hall pipe _ hreach 0).own _ List.mem_cons_self).1 (by decide)

end EbbrtContrib.NodeSessions
