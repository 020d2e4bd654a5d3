import EbbrtContrib.StreamNodes

namespace EbbrtContrib.StreamTurns

open InputStream (Source)
open StreamNodes Runs

variable {src : Source} {s t : System} {n k : Nat}

/-- The front end's stream is started, by a consumer that sends to node `n`. -/
def Started (s : System) (n : Nat) : Prop :=
  s.stream.doRead = true ∧ (s.target s.stream.session).1 = n

instance (s : System) (n : Nat) : Decidable (Started s n) := inferInstanceAs (Decidable (_ ∧ _))

/-- It has an active session for the node, which a front end that has crashed has not. -/
def Serves (s : System) (n : Nat) : Prop := s.crashed = false ∧ Started s n

instance (s : System) (n : Nat) : Decidable (Serves s n) := inferInstanceAs (Decidable (_ ∧ _))

/-- No stop of a node ends the delivery to another active one. -/
def Undisturbed (src : Source) (s : System) : Prop :=
  ∀ n m k rest t, n ≠ m → (s.node n).up = .stop k :: rest → step src s (.request n) = some t →
    (s.node m).doRead = true → Serves s m → Serves t m

/-- A node whose start has arrived, and that has neither stopped nor been told the end, is
being served. -/
def NobodyForgotten (s : System) : Prop :=
  ∀ n, (s.node n).doRead = true → .start (s.node n).session ∉ (s.node n).up →
    (∀ d ∈ (s.node n).down, d.session = (s.node n).session → d.data ≠ none) →
    (∀ c ∈ (s.node n).calls, c.consumer = (s.node n).session → c.data ≠ none) → Serves s n

/-- The oldest request is no start, or the front end's stream is not started. -/
def StartsIdle (doRead : Bool) : List Request → Prop
  | .start _ :: _ => doRead = false
  | _ => True

/-- A start arrives at the front end only when no session is active there. -/
def TakeTurns (s : System) : Event → Prop
  | .request n => StartsIdle s.stream.doRead (s.node n).up
  | _ => True

instance (doRead : Bool) : (rs : List Request) → Decidable (StartsIdle doRead rs)
  | .start _ :: _ => inferInstanceAs (Decidable (doRead = false))
  | .stop _ :: _ => inferInstanceAs (Decidable True)
  | [] => inferInstanceAs (Decidable True)

instance (s : System) : (e : Event) → Decidable (TakeTurns s e)
  | .request n => inferInstanceAs (Decidable (StartsIdle s.stream.doRead (s.node n).up))
  | .start _ => inferInstanceAs (Decidable True)
  | .stop _ => inferInstanceAs (Decidable True)
  | .data _ => inferInstanceAs (Decidable True)
  | .stream _ => inferInstanceAs (Decidable True)

theorem started_start (hd : s.stream.doRead = false) (m : Nat) :
    Started (s.process src n (.start k)) m ↔ n = m := by
  obtain ⟨hdoRead, hsession, -⟩ := InputStream.start_keeps src hd
  simp [Started, System.process, hd, hdoRead, hsession]

theorem not_started_stop (m : Nat) : ¬ Started (s.process src n (.stop k)) m := by
  intro h
  have hd := (InputStream.stop_keeps src s.stream).1
  rw [Started, System.process, hd] at h
  cases h.1

/-- A queue of requests that takes the front end's view `b` of a node to the node's own
`doRead_`. -/
def Leads : Bool → List Request → Bool → Prop
  | b, [], b' => b = b'
  | b, .start _ :: rest, b' => b = false ∧ Leads true rest b'
  | b, .stop _ :: rest, b' => b = true ∧ Leads false rest b'

theorem Leads.append {b b' b'' : Bool} {rs rs' : List Request} (h : Leads b rs b')
    (h' : Leads b' rs' b'') : Leads b (rs ++ rs') b'' := by
  induction rs generalizing b with
  | nil =>
    rw [Leads] at h
    rw [h, List.nil_append]
    exact h'
  | cons r rest ih =>
    cases r with
    | start k => exact ⟨h.1, ih h.2⟩
    | stop k => exact ⟨h.1, ih h.2⟩

/-- The front end knows of every node what its requests have told so far, and the last
request of an active node is its start. -/
structure Inv (s : System) : Prop where
  leads : ∀ n, Leads (decide (Started s n)) (s.node n).up (s.node n).doRead
  last : ∀ n, (s.node n).doRead = true → ∀ r, (s.node n).up.getLast? = some r →
    r = .start (s.node n).session

namespace Inv

theorem init : Inv .init := by
  constructor
  · intro n
    simp [System.init, Node.init, InputStream.State.init, Started, Leads]
  · intro n hd
    cases hd

/-- A step on one node that does not touch the front end. -/
theorem setNode (h : Inv s) {v : Node}
    (hleads : Leads (decide (Started s n)) v.up v.doRead)
    (hlast : v.doRead = true → ∀ r, v.up.getLast? = some r → r = .start v.session) :
    Inv (s.setNode n v) := by
  constructor
  · intro m
    by_cases hm : m = n
    · subst hm
      rw [setNode_node, if_pos rfl]
      exact hleads
    · rw [setNode_node, if_neg hm]
      exact h.leads m
  · intro m
    by_cases hm : m = n
    · subst hm
      rw [setNode_node, if_pos rfl]
      exact hlast
    · rw [setNode_node, if_neg hm]
      exact h.last m

theorem start (h : Inv s) (n : Nat) : Inv (s.setNode n (s.node n).asyncReadStart) := by
  have hleads := h.leads n
  have hlast := h.last n
  unfold Node.asyncReadStart
  split
  · exact h.setNode hleads hlast
  · rename_i hd
    rw [Bool.not_eq_true] at hd
    rw [hd] at hleads
    apply h.setNode
    · exact hleads.append ⟨rfl, rfl⟩
    · intro _ r hr
      simpa using hr.symm

theorem stop (h : Inv s) (n : Nat) : Inv (s.setNode n (s.node n).asyncReadStop) := by
  have hleads := h.leads n
  have hlast := h.last n
  unfold Node.asyncReadStop
  split
  · exact h.setNode hleads hlast
  · rename_i hd
    rw [Bool.not_eq_false] at hd
    rw [hd] at hleads
    apply h.setNode
    · exact hleads.append ⟨rfl, rfl⟩
    · intro hd'
      cases hd'

theorem data (h : Inv s) (n : Nat) (d : Data) (rest : List Data) :
    Inv (s.setNode n ((s.node n).receive d rest)) :=
  h.setNode (h.leads n) (h.last n)

/-- A stop that arrives is one of the node that is being served. -/
theorem started_of_stop (h : Inv s) {rest : List Request}
    (hup : (s.node n).up = .stop k :: rest) : Started s n := by
  have hleads := h.leads n
  rw [hup] at hleads
  exact of_decide_eq_true hleads.1

theorem last_tail (h : Inv s) {r : Request} {rest : List Request}
    (hup : (s.node n).up = r :: rest) (hd : (s.node n).doRead = true) :
    ∀ r', rest.getLast? = some r' → r' = .start (s.node n).session := by
  intro r' hr'
  apply h.last n hd
  rw [hup, List.getLast?_cons, hr']
  rfl

/-- The arrival of a request changes the front end's view of its sender only. -/
theorem of_process (h : Inv s) {r : Request} {rest : List Request}
    (hup : (s.node n).up = r :: rest)
    (hself : Leads (decide (Started ((s.setNode n { s.node n with up := rest }).process src n r) n))
      rest (s.node n).doRead)
    (hother : ∀ m, m ≠ n → (Started ((s.setNode n { s.node n with up := rest }).process src n r) m ↔
      Started s m)) : Inv ((s.setNode n { s.node n with up := rest }).process src n r) := by
  constructor
  · intro m
    rw [process_node, setNode_node]
    by_cases hm : m = n
    · rw [if_pos hm, hm]
      exact hself
    · rw [if_neg hm, decide_eq_decide.mpr (hother m hm)]
      exact h.leads m
  · intro m
    rw [process_node, setNode_node]
    by_cases hm : m = n
    · rw [if_pos hm]
      exact fun hd => h.last_tail hup hd
    · rw [if_neg hm]
      exact h.last m

theorem request (h : Inv s) {r : Request} {rest : List Request}
    (hg : StartsIdle s.stream.doRead (s.node n).up) (hup : (s.node n).up = r :: rest) :
    Inv ((s.setNode n { s.node n with up := rest }).process src n r) := by
  have hleads := h.leads n
  rw [hup] at hg hleads
  cases r with
  | start k =>
    have hd : (s.setNode n { s.node n with up := rest }).stream.doRead = false := hg
    apply h.of_process hup
    · rw [decide_eq_true ((started_start hd n).mpr rfl)]
      exact hleads.2
    · intro m hm
      rw [started_start hd m]
      refine ⟨fun he => absurd he.symm hm, fun hs => ?_⟩
      rw [hs.1] at hg
      cases hg
  | stop k =>
    have hstarted := h.started_of_stop hup
    apply h.of_process hup
    · rw [decide_eq_false (not_started_stop n)]
      exact hleads.2
    · intro m hm
      refine ⟨fun hs => absurd hs (not_started_stop m), fun hs => ?_⟩
      exact absurd (hs.2.symm.trans hstarted.2) hm

theorem stream (h : Inv s) {u : InputStream.State} (hdoRead : u.doRead = s.stream.doRead)
    (hsession : u.session = s.stream.session) : Inv (s.serve u) := by
  have hstarted : ∀ m, Started (s.serve u) m ↔ Started s m := by
    intro m
    rw [Started, Started, ← hdoRead, ← hsession]
    rfl
  constructor
  · intro m
    rw [decide_eq_decide.mpr (hstarted m)]
    exact h.leads m
  · exact h.last

theorem step (h : Inv s) {e : Event} (hg : TakeTurns s e) (hs : Step src s e t) : Inv t := by
  cases hs with
  | start n => exact h.start n
  | stop n => exact h.stop n
  | request n r rest hup hcrashed => exact h.request hg hup
  | data n d rest hdown => exact h.data n d rest
  | stream e u he hcrashed hu =>
    obtain ⟨hdoRead, hsession⟩ := internal_keeps he hu
    exact h.stream hdoRead hsession

theorem undisturbed (h : Inv s) : Undisturbed src s := by
  intro n m k rest t hne hup _ _ hserves
  exact absurd ((h.started_of_stop hup).2.symm.trans hserves.2.2) hne

theorem nobodyForgotten (h : Inv s) (hcrashed : s.crashed = false) : NobodyForgotten s := by
  intro n hd hstart _ _
  have hnil : (s.node n).up = [] := by
    rw [← List.getLast?_eq_none_iff]
    cases hlast : (s.node n).up.getLast? with
    | none => rfl
    | some r =>
      have hr := h.last n hd r hlast
      rw [hr] at hlast
      exact absurd (List.mem_of_getLast? hlast) hstart
  have hleads := h.leads n
  rw [hnil, hd] at hleads
  exact ⟨hcrashed, of_decide_eq_true hleads⟩

end Inv

/-- Sessions of different nodes do not interfere in a run in which they take turns, as long as the
front end has not crashed at the end of its stream. -/
theorem turns_do_not_interfere (h : Reaches (step src) TakeTurns .init s) :
    Undisturbed src s ∧ (s.crashed = false → NobodyForgotten s) := by
  have hinv : Inv s := h.invariant Inv.init fun _ _ _ hi hg hs => hi.step hg (step_cases hs)
  exact ⟨hinv.undisturbed, hinv.nobodyForgotten⟩

def pipe : Source := ⟨true, 0⟩

/-- Node 1 starts when node 0 has stopped. -/
def inTurn : List Event :=
  [.start 0, .request 0, .stop 0, .request 0, .start 1, .request 1]

/-- Node 1 starts, and stops, while node 0 is being served. -/
def crossed : List Event := [.start 0, .request 0, .start 1, .request 1]

theorem inTurn_runs : (run (guarded (step pipe) TakeTurns) .init inTurn).isSome := by decide

theorem inTurn_apart :
    Undisturbed pipe ((run (guarded (step pipe) TakeTurns) .init inTurn).get inTurn_runs) ∧
      NobodyForgotten ((run (guarded (step pipe) TakeTurns) .init inTurn).get inTurn_runs) := by
  obtain ⟨hundisturbed, hforgotten⟩ := turns_do_not_interfere (reaches_get inTurn_runs)
  exact ⟨hundisturbed, hforgotten (by decide)⟩

/-- The pipe ends while node 0 is served: the front end crashes, and the node waits for ever. -/
example : (run (step pipe) .init [.start 0, .request 0, .stream (.complete 0 .error),
    .stream (.handle 0 none)]).map (fun s => (s.crashed, (s.node 0).doRead, (s.node 0).down)) =
      some (true, true, []) := by decide

/-- The start of node 1 is dropped, and its stop ends the delivery to node 0. -/
theorem crossed_interferes :
    (∃ s, run (step pipe) .init crossed = some s ∧ Reachable (step pipe) .init s ∧
      ¬ NobodyForgotten s) ∧
    ∃ s, run (step pipe) .init (crossed ++ [.stop 1]) = some s ∧ Reachable (step pipe) .init s ∧
      ¬ Undisturbed pipe s := by
  constructor
  · refine ⟨_, rfl, reachable_of_run (l := crossed) rfl, ?_⟩
    intro h
    exact absurd (h 1 (by decide) (by decide) (by decide) (by decide)) (by decide)
  · refine ⟨_, rfl, reachable_of_run (l := crossed ++ [.stop 1]) rfl, ?_⟩
    intro h
    exact absurd (h 1 0 1 [] _ (by decide) (by decide) rfl (by decide) (by decide)) (by decide)

end EbbrtContrib.StreamTurns
