import EbbrtContrib.CmdServerBounds
import EbbrtContrib.WindowedSend

namespace EbbrtContrib.CmdServerSends

open CmdServer (Halt bufSize sendWindowSize)
open CmdServerBounds (Action act)
open OutConnection (Callback Flag Phase Wait)
open Runs

abbrev Address := Nat

variable {α : Type*}

/-- What the memory of a chunk holds, which is a part of `buffer_`. -/
def load (buffer : List (Option α)) (chunk : List Address) : List (Option α) :=
  chunk.filterMap (buffer[·]?)

/-- The `Do` of a connection that has closed: the length that `Send` was called with, and its
`OutConnection`. The stack gets no copy of a chunk but its place in `buffer_`, so `send` is about
addresses. `passed` records what each chunk held when it was handed over. `got` is how many of them
the other end has accepted, and `received` what they held when it did. -/
structure Sending (α : Type*) where
  len : Nat
  send : OutConnection.State Address
  passed : List (List (Option α))
  got : Nat
  received : List (Option α)
  deriving DecidableEq, Repr

/-- An `InConnection`; from its `Close` on, the `Do` that this runs. -/
inductive Conn (α : Type*)
  | accepted
  | sending (d : Sending α)
  | closed
  deriving DecidableEq, Repr

/-- `failed` tells of the assertion in `OutConnection::Connected`. `arrived` records what the other
end has of each `Send` that is over, and the rest is as in `CmdServer`. -/
structure State (α : Type*) where
  buffer : List (Option α)
  bufLen : Nat
  accepted : Nat
  conn : Nat → Conn α
  halted : Option Halt
  failed : Bool
  handed : List α
  completed : List (List (Option α))
  arrived : List (List (Option α))

def State.init (bufLen : Nat) : State α where
  buffer := List.replicate bufSize none
  bufLen := bufLen
  accepted := 0
  conn := fun _ => .closed
  halted := none
  failed := false
  handed := []
  completed := []
  arrived := []

/-- What a `Send` waits for, or is about to. -/
def wait : Phase → Option Wait
  | .calling w | .blocked w | .woken w => some w
  | .returned => none

/-- The connection as `CmdServer` has it. -/
def Sending.abs (d : Sending α) : CmdServer.Conn α :=
  match wait d.send.phase with
  | some .connect => .connecting d.len
  | some (.chunk _) => .sending ⟨d.send.len, d.send.sent, d.send.sendLen, d.passed.flatten⟩
  | none => .closed

def Conn.abs : Conn α → CmdServer.Conn α
  | .accepted => .accepted
  | .sending d => d.abs
  | .closed => .closed

def State.abs (s : State α) : CmdServer.State α where
  buffer := s.buffer
  bufLen := s.bufLen
  accepted := s.accepted
  conn c := (s.conn c).abs
  halted := s.halted
  handed := s.handed
  completed := s.completed

/-- `Buffer`, as in `CmdServer`. -/
def State.store (asserts : Bool) (s : State α) (seg : List α) : State α :=
  let t := s.abs.store asserts seg
  { s with buffer := t.buffer, bufLen := t.bufLen, halted := t.halted, handed := t.handed }

def State.setConn (s : State α) (c : Nat) (k : Conn α) : State α :=
  { s with conn := Function.update s.conn c k }

/-- In `Pcb().Connect`. -/
def Sending.init (len : Nat) : Sending α := ⟨len, .init (List.range len), [], 0, []⟩

/-- The `Send` of connection `c` has gone on to `u`. When it is back, its connection is deleted,
and `Do` clears the buffer. -/
def State.proceed (s : State α) (c : Nat) (d : Sending α) (u : OutConnection.State Address) :
    State α :=
  let passed := d.passed ++ (u.chunks.drop d.send.chunks.length).map (load s.buffer)
  if u.phase = .returned then { s.setConn c .closed with
    bufLen := 0
    completed := if u.flag = .success then s.completed ++ [passed.flatten] else s.completed
    arrived := s.arrived ++ [d.received] }
  else { s.setConn c (.sending { d with send := u, passed := passed }) with failed := u.failed }

/-- The stack has chunk `k`, and may transmit it again and again. -/
def Sending.Outstanding (d : Sending α) (k : Nat) : Prop :=
  k < d.send.chunks.length ∧ .disposed k ∉ d.send.delivered ∧ .abort ∉ d.send.delivered

instance (d : Sending α) (k : Nat) : Decidable (d.Outstanding k) :=
  inferInstanceAs (Decidable (_ ∧ _ ∧ _))

/-- The other end accepts the chunks one after the other, and each of them once. -/
def Sending.transmit (buffer : List (Option α)) (d : Sending α) (k : Nat) : Sending α :=
  if k = d.got then { d with
    got := k + 1
    received := d.received ++ load buffer (d.send.chunks.getD k []) }
  else d

/-- `send c e` is a step of the `Send` that connection `c` runs, or a call of the stack to it, and
`transmit c k` the arrival of its chunk `k` at the other end. -/
inductive Event (α : Type*)
  | accept
  | receive (c : Nat) (seg : List α)
  | close (c : Nat)
  | send (c : Nat) (e : OutConnection.Event)
  | transmit (c k : Nat)
  deriving DecidableEq, Repr

def handle (asserts : Bool) (s : State α) : Event α → Option (State α)
  | .accept => some { s.setConn s.accepted .accepted with accepted := s.accepted + 1 }
  | .receive c seg =>
    match s.conn c with
    | .accepted => some (s.store asserts seg)
    | .sending _ | .closed => none
  | .close c =>
    match s.conn c with
    | .accepted => some (s.setConn c (.sending (.init s.bufLen)))
    | .sending _ | .closed => none
  | .send c e =>
    match s.conn c with
    | .sending d =>
      (OutConnection.step (List.range d.len) sendWindowSize d.send e).map (s.proceed c d)
    | .accepted | .closed => none
  | .transmit c k =>
    match s.conn c with
    | .sending d =>
      if d.Outstanding k then some (s.setConn c (.sending (d.transmit s.buffer k))) else none
    | .accepted | .closed => none

def step (asserts : Bool) (s : State α) (e : Event α) : Option (State α) :=
  if s.halted = none ∧ s.failed = false then handle asserts s e else none

variable {asserts : Bool} {s t : State α} {e : Event α} {d : Sending α} {c : Nat}

/-- Everything a step can do, as a relation. -/
inductive Step (asserts : Bool) (s : State α) : Event α → State α → Prop
  | accept : Step asserts s .accept
      { s.setConn s.accepted .accepted with accepted := s.accepted + 1 }
  | receive (c : Nat) (seg : List α) : s.conn c = .accepted →
      Step asserts s (.receive c seg) (s.store asserts seg)
  | close (c : Nat) : s.conn c = .accepted →
      Step asserts s (.close c) (s.setConn c (.sending (.init s.bufLen)))
  | send (c : Nat) (d : Sending α) (e : OutConnection.Event) (u : OutConnection.State Address) :
      s.conn c = .sending d →
      OutConnection.Step (List.range d.len) sendWindowSize d.send e u → d.send.failed = false →
      Step asserts s (.send c e) (s.proceed c d u)
  | transmit (c : Nat) (d : Sending α) (k : Nat) : s.conn c = .sending d → d.Outstanding k →
      Step asserts s (.transmit c k) (s.setConn c (.sending (d.transmit s.buffer k)))

theorem step_cases (h : step asserts s e = some t) :
    (s.halted = none ∧ s.failed = false) ∧ Step asserts s e t := by
  obtain ⟨hgoes, hh⟩ := Option.ite_none_right_eq_some.mp h
  refine ⟨hgoes, ?_⟩
  cases e with
  | accept =>
    cases hh
    exact .accept
  | receive c seg =>
    simp only [handle] at hh
    split at hh
    · rename_i hc
      cases hh
      exact .receive c seg hc
    · cases hh
    · cases hh
  | close c =>
    simp only [handle] at hh
    split at hh
    · rename_i hc
      cases hh
      exact .close c hc
    · cases hh
    · cases hh
  | send c e =>
    simp only [handle] at hh
    split at hh
    · rename_i d hc
      obtain ⟨u, hu, rfl⟩ := Option.map_eq_some_iff.mp hh
      refine .send c d e u hc (OutConnection.step_cases hu) ?_
      by_contra hf
      rw [OutConnection.step, if_pos (Bool.eq_true_of_not_eq_false hf)] at hu
      cases hu
    · cases hh
    · cases hh
  | transmit c k =>
    simp only [handle] at hh
    split at hh
    · rename_i d hc
      obtain ⟨hk, hh⟩ := Option.ite_none_right_eq_some.mp hh
      obtain rfl := Option.some.inj hh
      exact .transmit c d k hc hk
    · cases hh
    · cases hh

/-- What the end of a wait is to `CmdServer`. -/
def outcome (c : Nat) (flag : Flag) : Wait → Action α
  | .connect => if flag = .success then .event (.connected c) else .giveUp c
  | .chunk _ => if flag = .success then .event (.freed c) else .giveUp c

/-- The steps that `CmdServer` makes as well. -/
def visible (s : State α) : Event α → Option (Action α)
  | .accept => some (.event .accept)
  | .receive c seg => some (.event (.receive c seg))
  | .close c => some (.event (.close c))
  | .send c .resume =>
    match s.conn c with
    | .sending d =>
      match d.send.phase with
      | .woken w => some (outcome c d.send.flag w)
      | .calling _ | .blocked _ | .returned => none
    | .accepted | .closed => none
  | .send _ .block | .send _ (.deliver _) | .transmit _ _ => none

/-- The variables of `SendAndBlock` fit the length that it was called with. -/
def Sending.Sound (d : Sending α) : Prop :=
  match wait d.send.phase with
  | some .connect => d.send.sent = 0 ∧ d.send.len = d.len ∧ d.passed = []
  | some (.chunk _) => d.send.sent + d.send.len = d.len ∧ d.send.sendLen ≤ d.send.len
  | none => False

def State.Sound (s : State α) : Prop := ∀ c d, s.conn c = .sending d → d.Sound

@[simp] theorem setConn_conn (s : State α) (c c' : Nat) (k : Conn α) :
    (s.setConn c k).conn c' = if c' = c then k else s.conn c' :=
  Function.update_apply s.conn c k c'

theorem abs_setConn (s : State α) (c : Nat) (k : Conn α) :
    (s.setConn c k).abs = s.abs.setConn c k.abs := by
  unfold State.setConn State.abs CmdServer.State.setConn
  dsimp only
  congr
  funext c'
  exact Function.apply_update (fun _ => Conn.abs) s.conn c k c'

/-- A change that `CmdServer` does not see. -/
theorem abs_setConn_same {k : Conn α} (h : k.abs = (s.conn c).abs) :
    (s.setConn c k).abs = s.abs := by
  rw [abs_setConn, h]
  unfold CmdServer.State.setConn State.abs
  dsimp only
  congr
  exact Function.update_eq_self c fun c' => (s.conn c').abs

theorem abs_store (s : State α) (seg : List α) :
    (s.store asserts seg).abs = s.abs.store asserts seg := by
  unfold State.store
  dsimp only
  unfold CmdServer.State.store
  split_ifs <;> rfl

theorem load_range' (buffer : List (Option α)) (a n : Nat) :
    load buffer (List.range' a n) = (buffer.drop a).take n := by
  induction n generalizing a with
  | zero => rfl
  | succ n ih =>
    have ih := ih (a + 1)
    rw [load] at ih ⊢
    rw [List.range'_succ, List.filterMap_cons]
    by_cases ha : a < buffer.length
    · rw [List.getElem?_eq_getElem ha, List.drop_eq_getElem_cons ha, List.take_succ_cons, ih]
    · rw [List.getElem?_eq_none (Nat.le_of_not_lt ha), ih,
        List.drop_eq_nil_of_le (Nat.le_of_not_lt ha), List.drop_eq_nil_of_le (by omega)]
      simp only [List.take_nil]

/-- The addresses of a chunk lead to its bytes. -/
theorem load_chunk (buffer : List (Option α)) {len sent n : Nat} (h : sent + n ≤ len) :
    load buffer (((List.range len).drop sent).take n) = (buffer.drop sent).take n := by
  rw [← load_range', List.range_eq_range', List.drop_range',
    List.take_range'_of_length_ge (by omega), Nat.zero_add, Nat.mul_one]

theorem State.Sound.setConn (h : s.Sound) {k : Conn α} (hk : ∀ d, k = .sending d → d.Sound) :
    (s.setConn c k).Sound := by
  intro c' d hd
  rw [setConn_conn] at hd
  split at hd
  · exact hk d hd
  · exact h c' d hd

/-- The loop of `SendAndBlock` is that of `CmdServer`. -/
theorem proceed_loop {v : OutConnection.State Address} (sendLen : Nat)
    (hchunks : v.chunks = d.send.chunks) (hflag : v.flag = .success)
    (htotal : v.sent + v.len = d.len) :
    (s.proceed c d (OutConnection.State.loop (List.range d.len) sendWindowSize v)).abs =
      s.abs.sendAndBlock c ⟨v.len, v.sent, sendLen, d.passed.flatten⟩ ∧
    (s.Sound →
      (s.proceed c d (OutConnection.State.loop (List.range d.len) sendWindowSize v)).Sound) := by
  unfold OutConnection.State.loop CmdServer.State.sendAndBlock
  by_cases hlen : v.len = 0
  · rw [if_pos hlen, if_pos hlen]
    unfold State.proceed
    dsimp only
    rw [if_pos rfl, if_pos hflag, hchunks, List.drop_length, List.map_nil, List.append_nil]
    refine ⟨congrArg (fun u : CmdServer.State α => { u with
      bufLen := 0, completed := u.completed ++ [d.passed.flatten] }) (abs_setConn s c .closed), ?_⟩
    intro hs
    exact hs.setConn fun d hd => by cases hd
  · rw [if_neg hlen, if_neg hlen]
    have hle : (if sendWindowSize < v.len then sendWindowSize else v.len) ≤ v.len := by
      split_ifs <;> omega
    generalize (if sendWindowSize < v.len then sendWindowSize else v.len) = n at hle ⊢
    unfold State.proceed
    dsimp only
    rw [if_neg (by rintro ⟨⟩), hchunks, List.drop_left, List.map_singleton,
      load_chunk s.buffer (by omega : v.sent + n ≤ d.len)]
    refine ⟨(abs_setConn s c _).trans ?_, ?_⟩
    · simp only [Conn.abs, Sending.abs, wait, List.flatten_append, List.flatten_singleton]
      rfl
    · intro hs
      refine hs.setConn fun d' hd => ?_
      cases hd
      exact ⟨htotal, hle⟩

/-- A `Send` that was given up. -/
theorem proceed_givenUp {u : OutConnection.State Address} (hp : u.phase = .returned)
    (hf : ¬ u.flag = .success) :
    (s.proceed c d u).abs = { s.abs.setConn c .closed with bufLen := 0 } ∧
      (s.Sound → (s.proceed c d u).Sound) := by
  unfold State.proceed
  dsimp only
  rw [if_pos hp, if_neg hf]
  refine ⟨congrArg (fun u : CmdServer.State α => { u with bufLen := 0 }) (abs_setConn s c .closed),
    ?_⟩
  intro hs
  exact hs.setConn fun d hd => by cases hd

theorem abs_conn (hc : s.conn c = .sending d) : s.abs.conn c = d.abs := congrArg Conn.abs hc

/-- When a `Send` goes on, `CmdServer` makes a step. -/
theorem proceed_resume {w : Wait} (hs : s.Sound) (hruns : s.halted = none)
    (hc : s.conn c = .sending d) (hp : d.send.phase = .woken w) :
    act asserts s.abs (outcome c d.send.flag w) = some
      (s.proceed c d (OutConnection.resume (List.range d.len) sendWindowSize d.send w)).abs ∧
    (s.proceed c d (OutConnection.resume (List.range d.len) sendWindowSize d.send w)).Sound := by
  have hruns : s.abs.halted = none := hruns
  have habs := abs_conn hc
  have hd := hs c d hc
  rw [Sending.Sound, hp] at hd
  rw [Sending.abs, hp] at habs
  cases w with
  | connect =>
    obtain ⟨hsent, hlen, hpassed⟩ := hd
    by_cases hf : d.send.flag = .success
    · rw [OutConnection.resume, if_pos hf, outcome, if_pos hf]
      have htotal : d.send.sent + d.send.len = d.len := by
        rw [hsent, hlen, Nat.zero_add]
      obtain ⟨hloop, hsound⟩ := proceed_loop (s := s) (c := c)
        (v := { d.send with connected := some 1 }) 0 rfl hf htotal
      refine ⟨?_, hsound hs⟩
      rw [hloop]
      simp only [act, CmdServer.step, hruns, CmdServer.handle, habs, wait, hsent, hlen, hpassed,
        List.flatten_nil]
    · rw [OutConnection.resume, if_neg hf, outcome, if_neg hf]
      obtain ⟨hgiven, hsound⟩ := proceed_givenUp (s := s) (c := c) (d := d)
        (u := { d.send with phase := .returned, connected := some 0 }) rfl hf
      refine ⟨?_, hsound hs⟩
      rw [hgiven]
      simp only [act, hruns, habs, wait]
  | chunk k =>
    obtain ⟨htotal, hle⟩ := hd
    by_cases hf : d.send.flag = .success
    · rw [OutConnection.resume, if_pos hf, outcome, if_pos hf]
      obtain ⟨hloop, hsound⟩ := proceed_loop (s := s) (c := c)
        (v := { d.send with
          sent := d.send.sent + d.send.sendLen, len := d.send.len - d.send.sendLen })
        d.send.sendLen rfl hf (by
          change d.send.sent + d.send.sendLen + (d.send.len - d.send.sendLen) = d.len
          omega)
      refine ⟨?_, hsound hs⟩
      rw [hloop]
      simp only [act, CmdServer.step, hruns, CmdServer.handle, habs, wait]
    · rw [OutConnection.resume, if_neg hf, outcome, if_neg hf]
      obtain ⟨hgiven, hsound⟩ := proceed_givenUp (s := s) (c := c) (d := d)
        (u := { d.send with phase := .returned, result := some 0 }) rfl hf
      refine ⟨?_, hsound hs⟩
      rw [hgiven]
      simp only [act, hruns, habs, wait]

/-- What a `Send` keeps up to its next wait. -/
structure Waits {β : Type*} (u v : OutConnection.State β) : Prop where
  wait : wait v.phase = wait u.phase
  len : v.len = u.len
  sent : v.sent = u.sent
  sendLen : v.sendLen = u.sendLen
  chunks : v.chunks = u.chunks

theorem waits_cases {β : Type*} {bytes : List β} {windowSize : Nat} {u v : OutConnection.State β}
    {e : OutConnection.Event} (h : OutConnection.Step bytes windowSize u e v) :
    e ≠ .resume ∧ Waits u v ∨
      ∃ w, e = .resume ∧ u.phase = .woken w ∧ v = OutConnection.resume bytes windowSize u w := by
  cases h with
  | wakes c w hd hf hp => exact .inl ⟨by rintro ⟨⟩, by rw [hp]; rfl, rfl, rfl, rfl, rfl⟩
  | stray | ignored | assertFails => exact .inl ⟨by rintro ⟨⟩, rfl, rfl, rfl, rfl, rfl⟩
  | block w hp => exact .inl ⟨by rintro ⟨⟩, by rw [hp]; rfl, rfl, rfl, rfl, rfl⟩
  | resume w hp => exact .inr ⟨w, rfl, hp, rfl⟩

/-- `CmdServer` sees nothing of this. -/
theorem proceed_waits {u : OutConnection.State Address} (hs : s.Sound)
    (hc : s.conn c = .sending d) (hu : Waits d.send u) :
    (s.proceed c d u).abs = s.abs ∧ (s.proceed c d u).Sound := by
  have hd := hs c d hc
  have hret : u.phase ≠ .returned := by
    intro hp
    rw [Sending.Sound, ← hu.wait, hp] at hd
    exact hd
  have hnone : (u.chunks.drop d.send.chunks.length).map (load s.buffer) = [] := by
    rw [hu.chunks, List.drop_length, List.map_nil]
  unfold State.proceed
  dsimp only
  rw [if_neg hret, hnone, List.append_nil]
  constructor
  · refine abs_setConn_same (s := s) (c := c) (k := .sending { d with send := u }) ?_
    rw [hc]
    simp only [Conn.abs, Sending.abs, hu.wait, hu.len, hu.sent, hu.sendLen]
  · refine hs.setConn fun d' hd' => ?_
    cases hd'
    simpa only [Sending.Sound, hu.wait, hu.len, hu.sent, hu.sendLen] using hd

/-- `CmdServer` makes this step, or none. -/
def Follows (asserts : Bool) (s t : State α) : Option (Action α) → Prop
  | some a => act asserts s.abs a = some t.abs
  | none => t.abs = s.abs

/-- A step of the server is one of `CmdServer`, or none. -/
theorem step_refines (hs : s.Sound) (h : step asserts s e = some t) :
    t.Sound ∧ Follows asserts s t (visible s e) := by
  obtain ⟨⟨hruns, -⟩, hstep⟩ := step_cases h
  have hruns' : s.abs.halted = none := hruns
  cases hstep with
  | accept =>
    have hsound : (s.setConn s.accepted .accepted).Sound := hs.setConn fun d hd => by cases hd
    refine ⟨hsound, ?_⟩
    simp only [visible, Follows, act, CmdServer.step, hruns', CmdServer.handle]
    exact congrArg some (congrArg (fun u : CmdServer.State α =>
      { u with accepted := s.accepted + 1 }) (abs_setConn s s.accepted .accepted)).symm
  | receive c seg hc =>
    have habs : s.abs.conn c = .accepted := congrArg Conn.abs hc
    refine ⟨hs, ?_⟩
    simp only [visible, Follows, act, CmdServer.step, hruns', CmdServer.handle, habs, abs_store]
  | close c hc =>
    have habs : s.abs.conn c = .accepted := congrArg Conn.abs hc
    refine ⟨hs.setConn fun d hd => ?_, ?_⟩
    · cases hd
      exact ⟨rfl, List.length_range, rfl⟩
    · simp only [visible, Follows, act, CmdServer.step, hruns', CmdServer.handle, habs, abs_setConn]
      rfl
  | transmit c d k hc hk =>
    have hsame : wait (d.transmit s.buffer k).send.phase = wait d.send.phase ∧
        (d.transmit s.buffer k).abs = d.abs ∧ ((d.transmit s.buffer k).Sound ↔ d.Sound) := by
      unfold Sending.transmit
      split <;> exact ⟨rfl, rfl, .rfl⟩
    refine ⟨hs.setConn fun d' hd => ?_, abs_setConn_same ?_⟩
    · cases hd
      exact hsame.2.2.mpr (hs c d hc)
    · rw [hc]
      exact hsame.2.1
  | send c d e u hc hu hf =>
    obtain ⟨hne, hwaits⟩ | ⟨w, rfl, hp, rfl⟩ := waits_cases hu
    · obtain ⟨habs, hsound⟩ := proceed_waits hs hc hwaits
      refine ⟨hsound, ?_⟩
      have hvisible : visible s (.send c e) = none := by
        cases e with
        | deliver | block => rfl
        | resume => exact absurd rfl hne
      rw [hvisible]
      exact habs
    · obtain ⟨hact, hsound⟩ : act asserts s.abs _ = some _ ∧ State.Sound _ :=
        proceed_resume hs hruns hc hp
      have hvisible : visible s (.send c .resume) = some (outcome c d.send.flag w) := by
        simp only [visible, hc, hp]
      rw [hvisible]
      exact ⟨hsound, hact⟩

/-- The steps of `CmdServer` in a run. -/
def trace (asserts : Bool) : State α → List (Event α) → List (Action α)
  | _, [] => []
  | s, e :: es =>
    (visible s e).toList ++ (step asserts s e).elim [] fun t => trace asserts t es

theorem run_refines {es : List (Event α)} (hs : s.Sound) (h : run (step asserts) s es = some t) :
    run (act asserts) s.abs (trace asserts s es) = some t.abs := by
  induction es generalizing s with
  | nil =>
    cases h
    rfl
  | cons e es ih =>
    obtain ⟨m, hm, hrest⟩ := Option.bind_eq_some_iff.mp h
    obtain ⟨hsound, hfollows⟩ := step_refines hs hm
    have ih := ih hsound hrest
    rw [trace, hm, Option.elim_some]
    cases hv : visible s e with
    | none =>
      rw [hv] at hfollows
      rw [Option.toList_none, List.nil_append, ← ih, show m.abs = s.abs from hfollows]
    | some a =>
      rw [hv] at hfollows
      rw [Option.toList_some, List.singleton_append, run, show act _ _ _ = _ from hfollows,
        Option.bind_some]
      exact ih

/-- Every `Send` is in an operation, of which the stack has told nothing so far. -/
structure Ready (s : State α) : Prop where
  sound : s.Sound
  asserted : s.failed = false
  calling : ∀ c d, s.conn c = .sending d →
    WindowedSend.Inv (List.range d.len) sendWindowSize d.send ∧ ∃ w, d.send.phase = .calling w

theorem setConn_setConn (s : State α) (c : Nat) (k k' : Conn α) :
    (s.setConn c k).setConn c k' = s.setConn c k' := by
  rw [State.setConn, State.setConn, State.setConn, Function.update_idem]

theorem proceed_same {u : OutConnection.State Address} (hp : u.phase ≠ .returned)
    (hchunks : u.chunks = d.send.chunks) (hf : u.failed = s.failed) :
    s.proceed c d u = s.setConn c (.sending { d with send := u }) := by
  unfold State.proceed
  dsimp only
  rw [if_neg hp, hchunks, List.drop_length, List.map_nil, List.append_nil, hf]
  rfl

theorem step_send {e : OutConnection.Event} {u : OutConnection.State Address}
    (hruns : s.halted = none) (hf : s.failed = false) (hc : s.conn c = .sending d)
    (hu : OutConnection.step (List.range d.len) sendWindowSize d.send e = some u) :
    step asserts s (.send c e) = some (s.proceed c d u) := by
  rw [step, if_pos ⟨hruns, hf⟩]
  simp only [handle, hc, hu, Option.map_some]

theorem one_le_window : 1 ≤ sendWindowSize := by decide

/-- A `Send` has gone on, and the others are where they were. -/
theorem ready_proceed {u : OutConnection.State Address} (hf : s.failed = false)
    (hcalling : ∀ c' d, c' ≠ c → s.conn c' = .sending d →
      WindowedSend.Inv (List.range d.len) sendWindowSize d.send ∧ ∃ w, d.send.phase = .calling w)
    (hs : (s.proceed c d u).Sound) (hu : WindowedSend.Inv (List.range d.len) sendWindowSize u)
    (hp : u.phase = .returned ∨ ∃ w, u.phase = .calling w) : Ready (s.proceed c d u) := by
  have hcase : ∃ k, (s.proceed c d u).conn = (s.setConn c k).conn ∧
      ∀ d', k = .sending d' → d'.len = d.len ∧ d'.send = u ∧ u.phase ≠ .returned := by
    unfold State.proceed
    dsimp only
    split
    · exact ⟨.closed, rfl, fun d' hd => by cases hd⟩
    · rename_i hret
      refine ⟨_, rfl, fun d' hd => ?_⟩
      cases hd
      exact ⟨rfl, rfl, hret⟩
  obtain ⟨k, hconn, hk⟩ := hcase
  refine ⟨hs, ?_, ?_⟩
  · unfold State.proceed
    dsimp only
    split
    · exact hf
    · exact hu.asserted
  · intro c' d' hd'
    rw [hconn, setConn_conn] at hd'
    split at hd'
    · obtain ⟨hlen, hsend, hret⟩ := hk d' hd'
      rw [hlen, hsend]
      exact ⟨hu, hp.resolve_left hret⟩
    · rename_i hne
      exact hcalling c' d' hne hd'

section

variable {u b v x : OutConnection.State Address} {bytes : List Address} {windowSize : Nat}
  {w : Wait} {f : Callback}

/-- A wait and what follows it, in three steps. -/
structure Wakes (bytes : List Address) (windowSize : Nat) (u : OutConnection.State Address)
    (w : Wait) (f : Callback) (b v x : OutConnection.State Address) : Prop where
  blocks : OutConnection.step bytes windowSize u .block = some b
  wakes : OutConnection.step bytes windowSize b (.deliver f) = some v
  resumes : OutConnection.step bytes windowSize v .resume = some x
  blocked : b.phase = .blocked w ∧ b.chunks = u.chunks
  woken : v.phase = .woken w ∧ v.flag = f.outcome ∧ v.chunks = u.chunks
  goesOn : x.phase = .returned ∨ ∃ w, x.phase = .calling w
  inv : WindowedSend.Inv bytes windowSize b ∧ WindowedSend.Inv bytes windowSize v ∧
    WindowedSend.Inv bytes windowSize x

/-- The stack can end every wait, by its event or with an `Abort`. -/
theorem exists_wakes (hw : 1 ≤ windowSize) (h : WindowedSend.Inv bytes windowSize u)
    (hp : u.phase = .calling w) (hf : f = w.event ∨ f = .abort) :
    ∃ b v x, Wakes bytes windowSize u w f b v x := by
  have hblock := h.block hp
  obtain ⟨hg, v, hv, -⟩ := hblock.awaited rfl hf
  have hinv := hblock.step hw hg (OutConnection.step_cases hv)
  have hwoken : v.phase = .woken w ∧ v.flag = f.outcome ∧ v.chunks = u.chunks := by
    cases OutConnection.step_cases hv with
    | wakes f w' hd hfl hph =>
      cases hph
      exact ⟨rfl, rfl, rfl⟩
    | stray f hfl hph hret => exact absurd rfl (hph w)
    | ignored f hfl => exact absurd rfl hfl
    | assertFails hfl => exact absurd rfl hfl
  refine ⟨_, v, OutConnection.resume bytes windowSize v w, ?_, hv, ?_, ⟨rfl, rfl⟩, hwoken, ?_,
    hblock, hinv, hinv.resume hw hwoken.1⟩
  · rw [h.step_eq, OutConnection.handle, hp]
  · rw [hinv.step_eq, OutConnection.handle, hwoken.1]
  · obtain ⟨hret, -⟩ | ⟨w', hcall, -⟩ := WindowedSend.Inv.resume_cases v w
    · exact .inl hret
    · exact .inr ⟨w', hcall⟩

end

/-- The server makes these steps, of which `CmdServer` sees the last one. -/
theorem Ready.ends {w : Wait} {f : Callback} (h : Ready s) (hruns : s.halted = none)
    (hc : s.conn c = .sending d) (hp : d.send.phase = .calling w) (hf : f = w.event ∨ f = .abort) :
    ∃ es t, run (step asserts) s es = some t ∧ Ready t ∧
      trace asserts s es = [outcome c f.outcome w] := by
  obtain ⟨hinv, -⟩ := h.calling c d hc
  obtain ⟨b, v, x, hwakes⟩ := exists_wakes one_le_window hinv hp hf
  obtain ⟨hpb, hcb⟩ := hwakes.blocked
  obtain ⟨hpv, hfv, hcv⟩ := hwakes.woken
  obtain ⟨hb, hv, hx⟩ := hwakes.inv
  have hself : ∀ u, (s.setConn c (.sending { d with send := u })).conn c =
      .sending { d with send := u } := by
    intro u
    rw [setConn_conn, if_pos rfl]
  have hblocks : step asserts s (.send c .block) =
      some (s.setConn c (.sending { d with send := b })) := by
    rw [step_send hruns h.asserted hc hwakes.blocks, proceed_same (by rw [hpb]; rintro ⟨⟩) hcb
      (hb.asserted.trans h.asserted.symm)]
  have hdelivers : step asserts (s.setConn c (.sending { d with send := b }))
      (.send c (.deliver f)) = some (s.setConn c (.sending { d with send := v })) := by
    rw [step_send (s := s.setConn c (.sending { d with send := b })) hruns h.asserted (hself b)
      hwakes.wakes, proceed_same (s := s.setConn c (.sending { d with send := b }))
      (d := { d with send := b }) (by rw [hpv]; rintro ⟨⟩) (hcv.trans hcb.symm)
      (hv.asserted.trans h.asserted.symm), setConn_setConn]
  have hresumes : step asserts (s.setConn c (.sending { d with send := v })) (.send c .resume) =
      some _ :=
    step_send (s := s.setConn c (.sending { d with send := v })) hruns h.asserted (hself v)
      hwakes.resumes
  have hsound : (s.setConn c (.sending { d with send := v })).Sound :=
    (step_refines (step_refines h.sound hblocks).1 hdelivers).1
  have hready : Ready ((s.setConn c (.sending { d with send := v })).proceed c
      { d with send := v } x) := by
    refine ready_proceed h.asserted ?_ (step_refines hsound hresumes).1 hx hwakes.goesOn
    intro c' d' hne hd'
    rw [setConn_conn, if_neg hne] at hd'
    exact h.calling c' d' hd'
  refine ⟨[.send c .block, .send c (.deliver f), .send c .resume], _, ?_, hready, ?_⟩
  · simp only [run, hblocks, hdelivers, hresumes, Option.bind_some]
  · simp only [trace, hblocks, hdelivers, hresumes, Option.elim_some, visible, hself, hpv, hfv,
      Option.toList_none, Option.toList_some, List.nil_append, List.append_nil]

theorem abs_accepted {k : Conn α} (h : k.abs = .accepted) : k = .accepted := by
  cases k with
  | accepted => rfl
  | sending d =>
    rw [Conn.abs, Sending.abs] at h
    split at h <;> cases h
  | closed => cases h

/-- Where the `Send` of a connection is that `CmdServer` has in its `Do`. -/
theorem Ready.calls (h : Ready s) (hc : s.abs.conn c ≠ .accepted) (hopen : s.abs.conn c ≠ .closed) :
    ∃ d w, s.conn c = .sending d ∧ d.send.phase = .calling w := by
  cases hk : s.conn c with
  | accepted => exact absurd (congrArg Conn.abs hk) hc
  | closed => exact absurd (congrArg Conn.abs hk) hopen
  | sending d =>
    obtain ⟨-, w, hw⟩ := h.calling c d hk
    exact ⟨d, w, rfl, hw⟩

/-- A step of the server that is none of a `Send`. -/
theorem sees {a : Action α} (hstep : step asserts s e = some t) (hv : visible s e = some a)
    (hready : Ready t) :
    ∃ es t, run (step asserts) s es = some t ∧ Ready t ∧ trace asserts s es = [a] := by
  refine ⟨[e], t, ?_, hready, ?_⟩
  · rw [run, hstep, Option.bind_some, run]
  · rw [trace, hstep, hv, Option.elim_some, trace, Option.toList_some, List.append_nil]

theorem Ready.setConn (h : Ready s) {k : Conn α} (hk : ∀ d, k = .sending d →
    d.Sound ∧ WindowedSend.Inv (List.range d.len) sendWindowSize d.send ∧
      ∃ w, d.send.phase = .calling w) : Ready (s.setConn c k) := by
  refine ⟨h.sound.setConn fun d hd => (hk d hd).1, h.asserted, ?_⟩
  intro c' d hd
  rw [setConn_conn] at hd
  split at hd
  · exact (hk d hd).2
  · exact h.calling c' d hd

/-- The server can do what `CmdServer` does. -/
theorem Ready.act {a : Action α} {u : CmdServer.State α} (h : Ready s)
    (ha : act asserts s.abs a = some u) :
    ∃ es t, run (step asserts) s es = some t ∧ Ready t ∧ trace asserts s es = [a] := by
  cases a with
  | giveUp c =>
    have hruns : s.halted = none := (CmdServerBounds.giveUp_cases ha).1
    have hconn : s.abs.conn c ≠ .accepted ∧ s.abs.conn c ≠ .closed := by
      constructor <;> intro hc <;> simp only [CmdServerBounds.act, hc] at ha <;> split at ha <;>
        cases ha <;> contradiction
    obtain ⟨d, w, hc, hp⟩ := h.calls hconn.1 hconn.2
    cases w with
    | connect | chunk k => exact h.ends hruns hc hp (.inr rfl)
  | event e =>
    have hruns : s.halted = none := by
      by_contra hne
      obtain ⟨k, hk⟩ := Option.ne_none_iff_exists'.mp hne
      have hk : s.abs.halted = some k := hk
      simp only [CmdServerBounds.act, CmdServer.step, hk] at ha
      cases ha
    have hgoes : s.halted = none ∧ s.failed = false := ⟨hruns, h.asserted⟩
    cases CmdServer.step_cases ha with
    | accept =>
      have hready : Ready (s.setConn s.accepted .accepted) := h.setConn fun d hd => by cases hd
      have hstep : step asserts s .accept = some
          { s.setConn s.accepted .accepted with accepted := s.accepted + 1 } := by
        rw [step, if_pos hgoes, handle]
      exact sees hstep rfl ⟨hready.sound, hready.asserted, hready.calling⟩
    | receive c seg hc =>
      have hstep : step asserts s (.receive c seg) = some (s.store asserts seg) := by
        rw [step, if_pos hgoes]
        simp only [handle, abs_accepted hc]
      exact sees hstep rfl ⟨h.sound, h.asserted, h.calling⟩
    | close c hc =>
      have hstep : step asserts s (.close c) = some (s.setConn c (.sending (.init s.bufLen))) := by
        rw [step, if_pos hgoes]
        simp only [handle, abs_accepted hc]
      refine sees hstep rfl (h.setConn fun d hd => ?_)
      cases hd
      exact ⟨⟨rfl, List.length_range, rfl⟩, WindowedSend.Inv.init, .connect, rfl⟩
    | connected c len hc =>
      obtain ⟨d, w, hd, hp⟩ := h.calls (by rw [hc]; rintro ⟨⟩) (by rw [hc]; rintro ⟨⟩)
      have habs := (abs_conn hd).symm.trans hc
      rw [Sending.abs, hp] at habs
      cases w with
      | connect => exact h.ends hruns hd hp (.inl rfl)
      | chunk k => cases habs
    | freed c d' hc =>
      obtain ⟨d, w, hd, hp⟩ := h.calls (by rw [hc]; rintro ⟨⟩) (by rw [hc]; rintro ⟨⟩)
      have habs := (abs_conn hd).symm.trans hc
      rw [Sending.abs, hp] at habs
      cases w with
      | connect => cases habs
      | chunk k => exact h.ends hruns hd hp (.inl rfl)

theorem trace_append {es es' : List (Event α)} (h : run (step asserts) s es = some t) :
    trace asserts s (es ++ es') = trace asserts s es ++ trace asserts t es' := by
  induction es generalizing s with
  | nil =>
    cases h
    rfl
  | cons e es ih =>
    obtain ⟨m, hm, hrest⟩ := Option.bind_eq_some_iff.mp h
    rw [List.cons_append, trace, trace, hm, Option.elim_some, Option.elim_some, ih hrest,
      List.append_assoc]

theorem Ready.run {as : List (Action α)} {u : CmdServer.State α} (h : Ready s)
    (hrun : run (CmdServerBounds.act asserts) s.abs as = some u) :
    ∃ es t, run (step asserts) s es = some t ∧ trace asserts s es = as ∧ t.abs = u := by
  induction as generalizing s with
  | nil =>
    cases hrun
    exact ⟨[], s, rfl, rfl, rfl⟩
  | cons a as ih =>
    obtain ⟨m, hm, hrest⟩ := Option.bind_eq_some_iff.mp hrun
    obtain ⟨es, t, hes, hready, htrace⟩ := h.act hm
    have habs := run_refines h.sound hes
    rw [htrace, Runs.run, hm, Option.bind_some, Runs.run] at habs
    obtain rfl := Option.some.inj habs
    obtain ⟨es', t', hes', htrace', habs'⟩ := ih hready hrest
    refine ⟨es ++ es', t', run_append hes hes', ?_, habs'⟩
    rw [trace_append hes, htrace, htrace', List.singleton_append]

theorem ready_init (g : Nat) : Ready (.init g : State α) := by
  refine ⟨fun c d hd => ?_, rfl, fun c d hd => ?_⟩ <;> cases hd

/-- The runs of `CmdServer` are those of the server in which every `Send` has its `OutConnection`
and waits for the calls of the stack, as far as `CmdServer` sees them: it adds none and leaves none
out. -/
theorem server_refines (asserts : Bool) (g : Nat) (as : List (Action α)) (u : CmdServer.State α) :
    run (CmdServerBounds.act asserts) (.init g) as = some u ↔
      ∃ es s, run (step asserts) (.init g) es = some s ∧ trace asserts (.init g) es = as ∧
        s.abs = u := by
  have hready := ready_init (α := α) g
  constructor
  · exact hready.run
  · rintro ⟨es, s, hrun, rfl, rfl⟩
    exact run_refines hready.sound hrun

end EbbrtContrib.CmdServerSends
