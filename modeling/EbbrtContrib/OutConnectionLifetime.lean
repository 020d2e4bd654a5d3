import EbbrtContrib.OutConnection

namespace EbbrtContrib.OutConnectionLifetime

open OutConnection Runs

/-- What `CmdServer::Send` has done with its connection. -/
inductive Stage
  | sending
  | shut
  | deleted
  deriving DecidableEq, Repr

/-- `touched` are the chunks whose disposals have read `state_` behind the `delete`. -/
structure State (α : Type*) where
  conn : OutConnection.State α
  stage : Stage
  touched : List Nat
  deriving DecidableEq, Repr

variable {α : Type*} (bytes : List α) (windowSize : Nat)

def State.init : State α := ⟨.init bytes, .sending, []⟩

/-- `conn e` is a step of the blocking operations. The stack may keep a chunk behind them, and
`dispose k` is its disposal then. It calls no handler of a connection that was shut down. -/
inductive Event
  | conn (e : OutConnection.Event)
  | shutdown
  | delete
  | dispose (k : Nat)
  deriving DecidableEq, Repr

/-- The disposal of chunk `k`, whose `this` is the connection. -/
def dispose (s : State α) (k : Nat) : State α :=
  let conn := { s.conn with delivered := s.conn.delivered ++ [.disposed k] }
  match s.stage with
  | .deleted => { s with conn := conn, touched := s.touched ++ [k] }
  | .sending | .shut => { s with conn := onDisposed conn k }

/-- `CmdServer::Send`, with `new OutConnection` behind it. -/
def step (s : State α) : Event → Option (State α)
  | .conn e => (OutConnection.step bytes windowSize s.conn e).map fun conn =>
    { s with conn := conn }
  | .shutdown =>
    if s.conn.phase = .returned ∧ s.stage = .sending then some { s with stage := .shut } else none
  | .delete => if s.stage = .shut then some { s with stage := .deleted } else none
  | .dispose k =>
    if s.conn.phase = .returned ∧ Deliverable s.conn (.disposed k) then some (dispose s k)
    else none

variable {bytes : List α} {windowSize : Nat} {s t : State α} {e : Event}
  {u v : OutConnection.State α} {f : OutConnection.Event} {c : Callback} {w : Wait}

/-- Everything a step can do, as a relation. -/
inductive Step (bytes : List α) (windowSize : Nat) (s : State α) : Event → State α → Prop
  | conn (e : OutConnection.Event) (conn : OutConnection.State α) :
      OutConnection.Step bytes windowSize s.conn e conn →
      Step bytes windowSize s (.conn e) { s with conn := conn }
  | shutdown : s.conn.phase = .returned → s.stage = .sending →
      Step bytes windowSize s .shutdown { s with stage := .shut }
  | delete : s.stage = .shut → Step bytes windowSize s .delete { s with stage := .deleted }
  | dispose (k : Nat) : s.conn.phase = .returned → Deliverable s.conn (.disposed k) →
      Step bytes windowSize s (.dispose k) (dispose s k)

theorem step_cases (h : step bytes windowSize s e = some t) : Step bytes windowSize s e t := by
  cases e with
  | conn e =>
    obtain ⟨conn, hconn, rfl⟩ := Option.map_eq_some_iff.mp h
    exact .conn e conn (OutConnection.step_cases hconn)
  | shutdown =>
    obtain ⟨⟨hphase, hstage⟩, h⟩ := Option.ite_none_right_eq_some.mp h
    obtain rfl := Option.some.inj h
    exact .shutdown hphase hstage
  | delete =>
    obtain ⟨hstage, h⟩ := Option.ite_none_right_eq_some.mp h
    obtain rfl := Option.some.inj h
    exact .delete hstage
  | dispose k =>
    obtain ⟨⟨hphase, hdel⟩, h⟩ := Option.ite_none_right_eq_some.mp h
    obtain rfl := Option.some.inj h
    exact .dispose k hphase hdel

/-- The operation of `w` is the last one that was called. -/
def Current (u : OutConnection.State α) : Wait → Prop
  | .connect => u.chunks = []
  | .chunk k => u.chunks.length = k + 1 ∧ .connected ∈ u.delivered

/-- No `Abort` has ended a wait. -/
def Unaborted (u : OutConnection.State α) : Prop := ∀ w, (w, .abort) ∉ u.wakes

/-- At most the last chunk is with the stack, and behind the operations only when an `Abort` has
ended the wait for it. -/
def Place (u : OutConnection.State α) : Prop :=
  match u.phase with
  | .calling w | .blocked w => Current u w ∧ Unaborted u
  | .woken w => Current u w ∧ (u.flag = .success ∧ w.event ∈ u.delivered ∧ Unaborted u ∨
      u.flag = .error ∧ ∀ w', (w', .abort) ∈ u.wakes ↔ w' = w)
  | .returned => u.flag ≠ .blocked ∧
      (∀ k, (.chunk k, .abort) ∈ u.wakes → u.chunks.length = k + 1) ∧
      ((∀ k, (.chunk k, .abort) ∉ u.wakes) → ∀ k < u.chunks.length, .disposed k ∈ u.delivered)

/-- This holds whenever the stack calls back, in the operations too. -/
structure Held (u : OutConnection.State α) : Prop where
  flag : u.flag = .blocked → ∃ w, u.phase = .blocked w
  handed : ∀ k, .disposed k ∈ u.delivered → k < u.chunks.length
  previous : ∀ k, k + 1 < u.chunks.length → .disposed k ∈ u.delivered
  place : Place u

theorem Current.more {delivered : List Callback} (h : Current u w)
    (hsub : ∀ c ∈ u.delivered, c ∈ delivered) : Current { u with delivered := delivered } w := by
  cases w with
  | connect => exact h
  | chunk k => exact ⟨h.1, hsub _ h.2⟩

namespace Held

theorem init : Held (.init bytes) := by
  refine ⟨fun h => (by cases h), fun k hk => absurd hk List.not_mem_nil, fun k hk => ?_, rfl, ?_⟩
  · exact absurd hk (Nat.not_lt_zero _)
  · exact fun w => List.not_mem_nil

/-- A call that finds no context to activate. -/
theorem deliver (h : Held u) (hflag : u.flag ≠ .blocked)
    (hc : ∀ k, c = .disposed k → k < u.chunks.length) (failed : Bool) :
    Held { u with delivered := u.delivered ++ [c], failed := failed } := by
  have hsub : ∀ c' ∈ u.delivered, c' ∈ u.delivered ++ [c] := fun c' => List.mem_append_left _
  refine ⟨h.flag, fun k hk => ?_, fun k hk => hsub _ (h.previous k hk), ?_⟩
  · obtain hk | hk := List.mem_append.mp hk
    · exact h.handed k hk
    · exact hc k (List.mem_singleton.mp hk).symm
  · have hplace := h.place
    unfold Place at hplace ⊢
    cases hp : u.phase with
    | calling w | blocked w =>
      rw [hp] at hplace
      exact ⟨hplace.1.more hsub, hplace.2⟩
    | woken w =>
      rw [hp] at hplace
      obtain ⟨hcur, ⟨hs, hevent, hun⟩ | herror⟩ := hplace
      · exact ⟨hcur.more hsub, .inl ⟨hs, hsub _ hevent, hun⟩⟩
      · exact ⟨hcur.more hsub, .inr herror⟩
    | returned =>
      rw [hp] at hplace
      obtain ⟨-, hlast, hall⟩ := hplace
      exact ⟨hflag, hlast, fun hun k hk => hsub _ (hall hun k hk)⟩

/-- The last chunk is the only one that is left to be disposed of. -/
theorem eq_last (h : Held u) {j k : Nat} (hk : u.chunks.length = k + 1)
    (hd : Deliverable u (.disposed j)) : j = k := by
  obtain ⟨hj, hnot⟩ := hd
  have hlast : ¬ j + 1 < u.chunks.length := fun hlt => hnot (h.previous j hlt)
  omega

/-- A context is activated for its own event, or by an `Abort`. -/
theorem own_event (h : Held u) (hcur : Current u w) (hd : Deliverable u c) :
    c = w.event ∨ c = .abort := by
  cases c with
  | abort => exact .inr rfl
  | connected =>
    cases w with
    | connect => exact .inl rfl
    | chunk k => exact absurd hcur.2 hd
  | disposed j =>
    cases w with
    | connect =>
      have hnil : u.chunks = [] := hcur
      obtain ⟨hj, -⟩ := hd
      rw [hnil] at hj
      exact absurd hj (Nat.not_lt_zero j)
    | chunk k => exact .inl (congrArg Callback.disposed (h.eq_last hcur.1 hd))

theorem wakes (h : Held u) (hp : u.phase = .blocked w) (hd : Deliverable u c) :
    Held { u with
      delivered := u.delivered ++ [c], flag := c.outcome
      phase := .woken w, wakes := u.wakes ++ [(w, c)] } := by
  have hplace := h.place
  rw [Place, hp] at hplace
  obtain ⟨hcur, hun⟩ := hplace
  refine ⟨fun hf => ?_, handed_snoc h.handed hd, fun k hk => ?_, ?_, ?_⟩
  · cases c <;> cases hf
  · exact List.mem_append_left _ (h.previous k hk)
  · exact hcur.more fun c' => List.mem_append_left _
  · obtain rfl | rfl := h.own_event hcur hd
    · refine .inl ⟨by cases w <;> rfl, List.mem_append_right _ List.mem_cons_self, fun w' hw' => ?_⟩
      obtain hw' | hw' := List.mem_append.mp hw'
      · exact hun w' hw'
      · cases w <;> cases List.mem_singleton.mp hw'
    · refine .inr ⟨rfl, fun w' => ⟨fun hw' => ?_, ?_⟩⟩
      · obtain hw' | hw' := List.mem_append.mp hw'
        · exact absurd hw' (hun w')
        · exact congrArg Prod.fst (List.mem_singleton.mp hw')
      · rintro rfl
        exact List.mem_append_right _ List.mem_cons_self

/-- The loop goes on with every chunk so far disposed of. -/
theorem loop (hflag : u.flag = .success)
    (hhanded : ∀ k, .disposed k ∈ u.delivered → k < u.chunks.length)
    (hall : ∀ k < u.chunks.length, .disposed k ∈ u.delivered) (hconn : .connected ∈ u.delivered)
    (hun : Unaborted u) : Held (State.loop bytes windowSize u) := by
  have hne : u.flag ≠ .blocked := by
    rw [hflag]
    intro hf
    cases hf
  unfold State.loop
  by_cases hlen : u.len = 0
  · rw [if_pos hlen]
    exact ⟨fun hf => absurd hf hne, hhanded, fun k hk => hall k (Nat.lt_of_succ_lt hk), hne,
      fun k hk => absurd hk (hun _), fun _ => hall⟩
  · rw [if_neg hlen]
    refine ⟨fun hf => absurd hf hne, fun k hk => ?_, fun k hk => ?_, ⟨?_, hconn⟩, hun⟩
    · rw [List.length_append]
      exact Nat.lt_add_right _ (hhanded k hk)
    · rw [List.length_append, List.length_singleton] at hk
      exact hall k (Nat.lt_of_succ_lt_succ hk)
    · rw [List.length_append, List.length_singleton]

theorem resume (h : Held u) (hp : u.phase = .woken w) :
    Held (OutConnection.resume bytes windowSize u w) := by
  have hplace := h.place
  rw [Place, hp] at hplace
  obtain ⟨hcur, ⟨hs, hevent, hun⟩ | ⟨herror, habort⟩⟩ := hplace
  · cases w with
    | connect =>
      rw [OutConnection.resume, if_pos hs]
      have hnil : u.chunks = [] := hcur
      refine loop hs h.handed (fun k hk => ?_) hevent hun
      rw [hnil] at hk
      exact absurd hk (Nat.not_lt_zero k)
    | chunk j =>
      rw [OutConnection.resume, if_pos hs]
      refine loop hs h.handed (fun k hk => ?_) hcur.2 hun
      by_cases hk' : k + 1 < u.chunks.length
      · exact h.previous k hk'
      · obtain rfl : k = j := by
          have hk : k < u.chunks.length := hk
          have hj : u.chunks.length = j + 1 := hcur.1
          omega
        exact hevent
  · have hne : u.flag ≠ .blocked := by
      rw [herror]
      intro hf
      cases hf
    have hnot : ¬ u.flag = .success := by
      rw [herror]
      intro hf
      cases hf
    cases w with
    | connect =>
      have hnil : u.chunks = [] := hcur
      rw [OutConnection.resume, if_neg hnot]
      refine ⟨fun hf => absurd hf hne, h.handed, h.previous, hne, fun k hk => ?_, fun _ k hk => ?_⟩
      · cases (habort _).mp hk
      · rw [hnil] at hk
        exact absurd hk (Nat.not_lt_zero k)
    | chunk j =>
      rw [OutConnection.resume, if_neg hnot]
      refine ⟨fun hf => absurd hf hne, h.handed, h.previous, hne, fun k hk => ?_, fun hno => ?_⟩
      · cases (habort _).mp hk
        exact hcur.1
      · exact absurd ((habort _).mpr rfl) (hno j)

theorem step (h : Held u) (hs : OutConnection.Step bytes windowSize u f v) : Held v := by
  cases hs with
  | wakes c w hd _ hp => exact h.wakes hp hd
  | stray c hf hp _ =>
    obtain ⟨w, hw⟩ := h.flag hf
    exact absurd hw (hp w)
  | ignored c hf _ _ hd =>
    refine h.deliver hf ?_ u.failed
    rintro k rfl
    exact hd.1
  | assertFails hf _ => exact h.deliver hf (fun k hk => (by cases hk)) true
  | block w hp =>
    have hplace := h.place
    rw [Place, hp] at hplace
    refine ⟨fun _ => ⟨w, rfl⟩, h.handed, h.previous, ?_, hplace.2⟩
    cases w <;> exact hplace.1
  | resume w hp => exact h.resume hp

/-- What the stack still has when the operations are back. -/
theorem outstanding (h : Held u) (hp : u.phase = .returned) {k : Nat}
    (hd : Deliverable u (.disposed k)) : (.chunk k, .abort) ∈ u.wakes := by
  have hplace := h.place
  rw [Place, hp] at hplace
  obtain ⟨-, hlast, hall⟩ := hplace
  by_contra hno
  have hnone : ∀ j, (.chunk j, .abort) ∉ u.wakes := by
    intro j hj
    obtain rfl := h.eq_last (hlast j hj) hd
    exact hno hj
  exact hd.2 (hall hnone k hd.1)

end Held

theorem flag_returned (h : Held u) (hp : u.phase = .returned) : u.flag ≠ .blocked := by
  intro hf
  obtain ⟨w, hw⟩ := h.flag hf
  cases hp.symm.trans hw

theorem not_step (hp : u.phase = .returned) : ¬ OutConnection.Step bytes windowSize u f v := by
  intro hs
  cases hs with
  | wakes c w _ _ hw => cases hp.symm.trans hw
  | stray c _ _ hne => exact hne hp
  | ignored c _ _ hne => exact hne hp
  | assertFails _ hne => exact hne hp
  | block w hw | resume w hw => cases hp.symm.trans hw

/-- The operations are back when the connection is shut down, and only the chunk that was given up
touches it behind the `delete`. -/
structure Inv (s : State α) : Prop where
  held : Held s.conn
  returned : s.stage ≠ .sending → s.conn.phase = .returned
  touched : ∀ k ∈ s.touched, (.chunk k, .abort) ∈ s.conn.wakes ∧ .disposed k ∈ s.conn.delivered
  late : s.touched ≠ [] → s.stage ≠ .sending
  few : s.touched.length ≤ 1

namespace Inv

theorem init : Inv (.init bytes) where
  held := Held.init
  returned h := absurd rfl h
  touched _ hk := absurd hk List.not_mem_nil
  late h := absurd rfl h
  few := Nat.zero_le 1

theorem disposed (h : Inv s) (hp : s.conn.phase = .returned) {k : Nat}
    (hd : Deliverable s.conn (.disposed k)) : Held { s.conn with
      delivered := s.conn.delivered ++ [.disposed k] } := by
  refine h.held.deliver (flag_returned h.held hp) ?_ s.conn.failed
  intro j hj
  obtain rfl := Callback.disposed.inj hj
  exact hd.1

/-- A chunk that is disposed of late is the only one. -/
theorem untouched (h : Inv s) (hp : s.conn.phase = .returned) {k : Nat}
    (hd : Deliverable s.conn (.disposed k)) : s.touched = [] := by
  have hplace := h.held.place
  rw [Place, hp] at hplace
  refine List.eq_nil_iff_forall_not_mem.mpr fun j hj => ?_
  obtain ⟨habort, hdelivered⟩ := h.touched j hj
  obtain rfl := h.held.eq_last (hplace.2.1 j habort) hd
  exact hd.2 hdelivered

theorem dispose (h : Inv s) (hp : s.conn.phase = .returned) {k : Nat}
    (hd : Deliverable s.conn (.disposed k)) : Inv (dispose s k) := by
  have hheld := h.disposed hp hd
  have hflag := flag_returned h.held hp
  have hignored := callback_ignored { s.conn with delivered := s.conn.delivered ++ [.disposed k] }
    (.disposed k) hflag (by simp)
  have hkept : ∀ j ∈ s.touched, (.chunk j, .abort) ∈ s.conn.wakes ∧
      .disposed j ∈ s.conn.delivered ++ [.disposed k] :=
    fun j hj => ⟨(h.touched j hj).1, List.mem_append_left _ (h.touched j hj).2⟩
  unfold OutConnectionLifetime.dispose
  cases hs : s.stage with
  | sending | shut =>
    dsimp only
    rw [callback] at hignored
    rw [hignored]
    exact ⟨hheld, fun _ => hp, hkept, fun hne => absurd (h.untouched hp hd) hne, h.few⟩
  | deleted =>
    refine ⟨hheld, fun _ => hp, fun j hj => ?_, fun _ => Stage.noConfusion, ?_⟩
    · obtain hj | hj := List.mem_append.mp hj
      · exact hkept j hj
      · obtain rfl := List.mem_singleton.mp hj
        exact ⟨h.held.outstanding hp hd, List.mem_append_right _ (List.mem_singleton_self _)⟩
    · rw [h.untouched hp hd]
      exact le_rfl

theorem step (h : Inv s) (hs : Step bytes windowSize s e t) : Inv t := by
  cases hs with
  | conn f conn hconn =>
    have hsending : s.stage = .sending := by
      by_contra hne
      exact not_step (h.returned hne) hconn
    have hnone : s.touched = [] := by
      by_contra hne
      exact h.late hne hsending
    refine ⟨h.held.step hconn, fun hne => absurd hsending hne, fun k hk => ?_,
      fun hne => absurd hnone hne, h.few⟩
    rw [hnone] at hk
    exact absurd hk List.not_mem_nil
  | shutdown hp _ => exact ⟨h.held, fun _ => hp, h.touched, fun _ => Stage.noConfusion, h.few⟩
  | delete hs =>
    have hp := h.returned (by rw [hs]; exact Stage.noConfusion)
    exact ⟨h.held, fun _ => hp, h.touched, fun _ => Stage.noConfusion, h.few⟩
  | dispose k hp hd => exact h.dispose hp hd

end Inv

/-- An `Abort` has ended the wait for a chunk that the stack has not disposed of. -/
def GivenUp (u : OutConnection.State α) : Prop :=
  ∃ k, (.chunk k, .abort) ∈ u.wakes ∧ .disposed k ∉ u.delivered

theorem dispose_touches (hs : s.stage = .deleted) (k : Nat) :
    (dispose s k).touched = s.touched ++ [k] := by
  rw [dispose, hs]

/-- Nothing happens behind the `delete` but a disposal. -/
theorem Inv.deleted (h : Inv s) (hd : s.stage = .deleted) (hs : Step bytes windowSize s e t) :
    ∃ k, e = .dispose k ∧ Deliverable s.conn (.disposed k) := by
  cases hs with
  | conn f conn hconn =>
    exact absurd hconn (not_step (h.returned (by rw [hd]; exact Stage.noConfusion)))
  | shutdown _ hstage | delete hstage => cases hd.symm.trans hstage
  | dispose k _ hdel => exact ⟨k, rfl, hdel⟩

/-- In every run, at most one disposal finds the connection of a `Send` deleted. It can happen
exactly when an `Abort` has ended the wait for a chunk that the stack still had at the `delete`. -/
theorem touched_iff (h : Reachable (step bytes windowSize) (.init bytes) s) :
    s.touched.length ≤ 1 ∧ (s.touched ≠ [] → ∃ k, (.chunk k, .abort) ∈ s.conn.wakes) ∧
    (s.stage = .deleted → s.touched = [] →
      ((∃ t, Reachable (step bytes windowSize) s t ∧ t.touched ≠ []) ↔ GivenUp s.conn)) := by
  have hinv : Inv s := h.invariant Inv.init fun _ _ _ hi _ hs => hi.step (step_cases hs)
  refine ⟨hinv.few, fun hne => ?_, fun hd hnone => ⟨?_, ?_⟩⟩
  · obtain ⟨k, hk⟩ := List.exists_mem_of_ne_nil _ hne
    exact ⟨k, (hinv.touched k hk).1⟩
  · rintro ⟨t, ht, htouched⟩
    obtain rfl | ⟨e, u, -, hs, -⟩ := ht.head_cases
    · exact absurd hnone htouched
    · obtain ⟨k, rfl, hdel⟩ := hinv.deleted hd (step_cases hs)
      have hp := hinv.returned (by rw [hd]; exact Stage.noConfusion)
      exact ⟨k, hinv.held.outstanding hp hdel, hdel.2⟩
  · rintro ⟨k, habort, hnot⟩
    have hp := hinv.returned (by rw [hd]; exact Stage.noConfusion)
    have hplace := hinv.held.place
    rw [Place, hp] at hplace
    have hlast := hplace.2.1 k habort
    have hs : step bytes windowSize s (.dispose k) = some (dispose s k) := by
      rw [step, if_pos ⟨hp, (Nat.lt_succ_self k).trans_eq hlast.symm, hnot⟩]
    refine ⟨dispose s k, Reaches.refl.tail trivial hs, ?_⟩
    rw [dispose_touches hd]
    exact List.append_ne_nil_of_right_ne_nil _ (List.cons_ne_nil _ _)

/-- The second one of three windows is given up. -/
def givenUp : List Event :=
  [.conn .block, .conn (.deliver .connected), .conn .resume, .conn .block,
    .conn (.deliver (.disposed 0)), .conn .resume, .conn .block, .conn (.deliver .abort),
    .conn .resume, .shutdown, .delete]

theorem givenUp_runs : (run (step [1, 2, 3] 1) (.init [1, 2, 3]) givenUp).isSome := by decide

theorem givenUp_touched : ∃ t, Reachable (step [1, 2, 3] 1)
    ((run (step [1, 2, 3] 1) (.init [1, 2, 3]) givenUp).get givenUp_runs) t ∧ t.touched ≠ [] :=
  ((touched_iff (reachable_of_run (Option.some_get givenUp_runs).symm)).2.2 (by decide)
    (by decide)).mpr ⟨1, by decide, by decide⟩

end EbbrtContrib.OutConnectionLifetime
