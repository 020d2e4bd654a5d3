import EbbrtContrib.CmdServer

namespace EbbrtContrib.CmdServerBounds

open CmdServer Runs

variable {α : Type*} {asserts : Bool} {s t : State α} {e : Event α}

/-- An event of the server, or the end of the `Do` of a connection whose `Send` could not
connect or was aborted, and which clears the buffer all the same. -/
inductive Action (α : Type*)
  | event (e : Event α)
  | giveUp (c : Nat)
  deriving Repr

def act (asserts : Bool) (s : State α) : Action α → Option (State α)
  | .event e => step asserts s e
  | .giveUp c =>
    match s.halted, s.conn c with
    | none, .connecting _ | none, .sending _ => some { s.setConn c .closed with bufLen := 0 }
    | _, _ => none

theorem giveUp_cases {c : Nat} (h : act asserts s (.giveUp c) = some t) :
    s.halted = none ∧ t = { s.setConn c .closed with bufLen := 0 } := by
  simp only [act] at h
  split at h
  · rename_i hh _
    exact ⟨hh, (Option.some.inj h).symm⟩
  · rename_i hh _
    exact ⟨hh, (Option.some.inj h).symm⟩
  · cases h

/-- No assertion has failed, no `memcpy` has left `buffer_`, and `bufLen_` is in its range. -/
structure Safe (s : State α) : Prop where
  running : s.halted = none
  bound : s.bufLen ≤ bufSize

/-- A segment that is received behind `n` bytes fits: with assertions there has to be room for one
more byte. -/
def Fits (asserts : Bool) (n : Nat) : Action α → Prop
  | .event (.receive _ seg) =>
    if asserts then n + seg.length < bufSize else n + seg.length ≤ bufSize
  | _ => True

/-- The action is the end of a `Do`, which has nothing more to send, or gives up. -/
def endsDo (s : State α) : Action α → Bool
  | .event (.connected c) =>
    match s.conn c with
    | .connecting len => len = 0
    | _ => false
  | .event (.freed c) =>
    match s.conn c with
    | .sending d => d.len - d.sendLen = 0
    | _ => false
  | .giveUp _ => true
  | .event _ => false

/-- The length of the segment that is received. -/
def Action.length : Action α → Nat
  | .event (.receive _ seg) => seg.length
  | _ => 0

/-- The lengths received since the last end of a `Do`, of which `n` before the action. -/
def sinceDo (n : Nat) (s : State α) (a : Action α) : Nat :=
  if endsDo s a then 0 else n + a.length

/-- At every segment of a run, the lengths received since the last end of a `Do` sum to less than
`BUFSIZE`, or without assertions to no more than it; `n` is their sum so far. -/
def Within (asserts : Bool) : Nat → State α → List (Action α) → Prop
  | _, _, [] => True
  | n, s, a :: as => (act asserts s a).elim True fun t =>
    Fits asserts n a ∧ Within asserts (sinceDo n s a) t as

theorem lt_room_iff (h : s.bufLen ≤ bufSize) (n : Nat) : n < s.room ↔ s.bufLen + n < bufSize := by
  rw [State.room]
  simp only [bufSize] at h ⊢
  omega

theorem store_safe_iff (h : Safe s) (seg : List α) :
    Safe (s.store asserts seg) ↔
      if asserts then s.bufLen + seg.length < bufSize else s.bufLen + seg.length ≤ bufSize := by
  have hroom := lt_room_iff h.bound seg.length
  unfold State.store
  cases asserts with
  | false =>
    simp only [Bool.false_eq_true, false_and, if_false]
    split_ifs with hfull
    · exact iff_of_false (fun hs => by cases hs.running) (Nat.not_le_of_lt hfull)
    · exact iff_of_true ⟨h.running, Nat.le_of_not_lt hfull⟩ (Nat.le_of_not_lt hfull)
  | true =>
    simp only [true_and, if_true, hroom]
    by_cases hfits : s.bufLen + seg.length < bufSize
    · rw [if_neg (not_not_intro hfits), if_neg (Nat.not_lt_of_lt hfits)]
      exact iff_of_true ⟨h.running, Nat.le_of_lt hfits⟩ hfits
    · rw [if_pos hfits]
      exact iff_of_false (fun hs => by cases hs.running) hfits

theorem sendAndBlock_safe (h : Safe s) (c : Nat) (d : Sending α) : Safe (s.sendAndBlock c d) := by
  unfold State.sendAndBlock
  split
  · exact ⟨h.running, Nat.zero_le _⟩
  · exact ⟨h.running, h.bound⟩

theorem act_safe_iff (h : Safe s) {a : Action α} (ha : act asserts s a = some t) :
    Safe t ↔ Fits asserts s.bufLen a := by
  cases a with
  | giveUp c =>
    obtain ⟨hrunning, rfl⟩ := giveUp_cases ha
    exact iff_of_true ⟨hrunning, Nat.zero_le _⟩ trivial
  | event e =>
    cases step_cases ha with
    | receive c seg hc => exact store_safe_iff h seg
    | accept => exact iff_of_true ⟨h.running, h.bound⟩ trivial
    | close c hc => exact iff_of_true ⟨h.running, h.bound⟩ trivial
    | connected c len hc => exact iff_of_true (sendAndBlock_safe h c _) trivial
    | freed c d hc => exact iff_of_true (sendAndBlock_safe h c _) trivial

/-- `bufLen_` is what has been received since the last end of a `Do`. -/
theorem bufLen_act (ht : t.halted = none) {a : Action α} (ha : act asserts s a = some t) :
    t.bufLen = sinceDo s.bufLen s a := by
  have hloop : ∀ c d, (s.sendAndBlock c d).bufLen = if d.len = 0 then 0 else s.bufLen := by
    intro c d
    unfold State.sendAndBlock
    split <;> rfl
  cases a with
  | giveUp c =>
    obtain ⟨-, rfl⟩ := giveUp_cases ha
    rfl
  | event e =>
    cases step_cases ha with
    | accept => rfl
    | close c hc => rfl
    | receive c seg hc =>
      unfold State.store at ht ⊢
      split_ifs at ht ⊢
      rfl
    | connected c len hc =>
      simp only [hloop, sinceDo, endsDo, hc, decide_eq_true_eq]
      rfl
    | freed c d hc =>
      simp only [hloop, sinceDo, endsDo, hc, decide_eq_true_eq]
      rfl

/-- One run after another step. -/
theorem safe_prefixes_cons {a : Action α} {as : List (Action α)} :
    (∀ as' t, as' <+: a :: as → run (act asserts) s as' = some t → Safe t) ↔
      Safe s ∧ ∀ m, act asserts s a = some m →
        ∀ as' t, as' <+: as → run (act asserts) m as' = some t → Safe t := by
  constructor
  · intro h
    refine ⟨h [] s List.nil_prefix rfl, fun m hm as' t hpre hrun => ?_⟩
    refine h (a :: as') t ((List.prefix_cons_inj a).mpr hpre) ?_
    rw [run, hm, Option.bind_some, hrun]
  · rintro ⟨hs, hrest⟩ as' t hpre hrun
    obtain rfl | ⟨l, rfl, hl⟩ := List.prefix_cons_iff.mp hpre
    · cases hrun
      exact hs
    · obtain ⟨m, hm, hrun⟩ := Option.bind_eq_some_iff.mp hrun
      exact hrest m hm l t hl hrun

/-- A run from a state that is safe. -/
theorem safe_iff_of_safe (hs : Safe s) (as : List (Action α)) :
    (∀ as' t, as' <+: as → run (act asserts) s as' = some t → Safe t) ↔
      Within asserts s.bufLen s as := by
  induction as generalizing s with
  | nil =>
    refine iff_of_true (fun as' t hpre hrun => ?_) trivial
    obtain rfl := List.prefix_nil.mp hpre
    cases hrun
    exact hs
  | cons a as ih =>
    rw [safe_prefixes_cons, Within]
    cases ha : act asserts s a with
    | none => exact iff_of_true ⟨hs, fun m hm => by cases hm⟩ trivial
    | some m =>
      rw [Option.elim_some]
      constructor
      · rintro ⟨-, hrest⟩
        have hm : Safe m := hrest m rfl [] m List.nil_prefix rfl
        refine ⟨(act_safe_iff hs ha).mp hm, ?_⟩
        rw [← bufLen_act hm.running ha]
        exact (ih hm).mp (hrest m rfl)
      · rintro ⟨hfits, hwithin⟩
        have hm : Safe m := (act_safe_iff hs ha).mpr hfits
        rw [← bufLen_act hm.running ha] at hwithin
        refine ⟨hs, fun m' hm' => ?_⟩
        obtain rfl := Option.some.inj hm'
        exact (ih hm).mpr hwithin

/-- In every run the receive buffer stays in bounds as long as `bufLen_` is in range at the start,
and what the clients send between two ends of a `Do` is less than `BUFSIZE`. -/
theorem safe_iff_within (asserts : Bool) (g : Nat) (as : List (Action α)) :
    (∀ as' t, as' <+: as → run (act asserts) (.init g) as' = some t → Safe t) ↔
      g ≤ bufSize ∧ Within asserts g (.init g) as := by
  by_cases hg : g ≤ bufSize
  · have hsafe : Safe (.init g : State α) := ⟨rfl, hg⟩
    exact (safe_iff_of_safe hsafe as).trans (and_iff_right hg).symm
  · refine iff_of_false (fun h => hg ?_) fun h => hg h.1
    exact (h [] _ List.nil_prefix rfl).bound

/-- A segment of `BUFSIZE` bytes aborts the server, and so does one of any length if the
uninitialised `bufLen_` is `BUFSIZE`; without assertions it is written behind the buffer. -/
theorem full_segment_halts :
    (∃ t, run (act true) (.init 0) [.event .accept, .event (.receive 0 (List.replicate 4096 0))] =
      some t ∧ t.halted = some .aborted) ∧
    (∃ t, run (act true) (.init 4096) [.event .accept, .event (.receive 0 [0])] =
      some t ∧ t.halted = some .aborted) ∧
    (∃ t, run (act false) (.init 4096) [.event .accept, .event (.receive 0 [0])] =
      some t ∧ t.halted = some .corrupted) ∧
    ¬ ∀ asserts g (t : State Nat), g < 2 ^ 64 → Reachable (act asserts) (.init g) t → Safe t := by
  have hlen : ¬ (List.replicate 4096 0).length < (State.init 0 : State Nat).room := by
    rw [List.length_replicate]
    decide
  refine ⟨⟨_, rfl, ?_⟩, ⟨_, rfl, rfl⟩, ⟨_, rfl, rfl⟩, fun h => ?_⟩
  · rw [State.store]
    exact congrArg State.halted (if_pos ⟨rfl, hlen⟩)
  · have hs := h true 4096 _ (by decide)
      (reachable_of_run (l := [.event .accept, .event (.receive 0 [0])]) rfl)
    cases hs.running

end EbbrtContrib.CmdServerBounds
