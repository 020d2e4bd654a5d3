import EbbrtContrib.CmdServerBytes
import EbbrtContrib.CmdServerChunks

namespace EbbrtContrib.CmdServerRelay

open CmdServer (bufSize sendWindowSize)
open CmdServerBounds (Action)
open CmdServerBytes (OneAtATime total)
open CmdServerChunks CmdServerSends OutConnection Runs

variable {α : Type*} {asserts : Bool} {s t : CmdServerSends.State α}
  {e : CmdServerSends.Event α} {d : Sending α} {c : Nat}

/-- The stack connects, it disposes of a chunk that the other end has, and it aborts nothing. -/
def Acknowledges (d : Sending α) : OutConnection.Event → Prop
  | .deliver .connected => d.send.phase = .blocked .connect
  | .deliver (.disposed k) => .chunk k ∈ d.send.saves ∧ k < d.got
  | .deliver .abort => False
  | .block | .resume => True

def Succeeds (s : CmdServerSends.State α) : CmdServerSends.Event α → Prop
  | .send c e =>
    match s.conn c with
    | .sending d => Acknowledges d e
    | .accepted | .closed => True
  | .accept | .receive _ _ | .close _ | .transmit _ _ => True

/-- The clients take turns. -/
def InTurn (asserts : Bool) (s : CmdServer.State α) : Option (Action α) → Prop
  | some (.event e) => OneAtATime asserts s e
  | some (.giveUp _) | none => True

def Relays (asserts : Bool) (s : CmdServerSends.State α) (e : CmdServerSends.Event α) : Prop :=
  InTurn asserts s.abs (visible s e) ∧ Succeeds s e

structure Sends (d : Sending α) : Prop where
  inv : WindowedSend.Inv (List.range d.len) sendWindowSize d.send
  unaborted : WindowedSend.Unaborted d.send
  accepted : ∀ k, .disposed k ∈ d.send.delivered → k < d.got

structure Relay (s : CmdServerSends.State α) : Prop where
  bytes : CmdServerBytes.Inv s.abs
  kept : Inv s
  sound : s.Sound
  sends : ∀ c d, s.conn c = .sending d → Sends d
  arrived : s.arrived = s.completed

theorem total_abs (h : d.Sound) : total d.abs = d.len := by
  unfold Sending.Sound at h
  unfold Sending.abs
  split at h
  · rfl
  · exact h.1
  · exact h.elim

theorem resume_records {β : Type*} (bytes : List β) (windowSize : Nat) (u : OutConnection.State β)
    (w : Wait) : (OutConnection.resume bytes windowSize u w).wakes = u.wakes ∧
      (OutConnection.resume bytes windowSize u w).delivered = u.delivered ∧
      (OutConnection.resume bytes windowSize u w).flag = u.flag := by
  cases w with
  | connect | chunk k =>
    rw [OutConnection.resume]
    split_ifs
    · unfold OutConnection.State.loop
      split <;> exact ⟨rfl, rfl, rfl⟩
    · exact ⟨rfl, rfl, rfl⟩

namespace Sends

/-- Its wait has ended with its event. -/
theorem woken (h : Sends d) {w : Wait} (hp : d.send.phase = .woken w) :
    WindowedSend.Loop (List.range d.len) sendWindowSize d.send w ∧ d.send.flag = .success ∧
      w.event ∈ d.send.delivered := by
  have hplace := h.inv.place
  rw [WindowedSend.Place, hp] at hplace
  obtain ⟨hloop, ⟨hf, -, hd⟩ | ⟨-, hab, -⟩⟩ := hplace
  · exact ⟨hloop, hf, hd⟩
  · exact absurd hab (h.unaborted w)

theorem blocking {e : OutConnection.Event} (hg : Acknowledges d e) :
    WindowedSend.Blocking d.send e := by
  cases e with
  | block | resume => trivial
  | deliver c =>
    cases c with
    | connected => exact hg
    | abort => trivial
    | disposed k => exact hg.1

/-- A step of `Send`. -/
theorem step (h : Sends d) {e : OutConnection.Event} {u : OutConnection.State Address}
    (hg : Acknowledges d e)
    (hu : OutConnection.Step (List.range d.len) sendWindowSize d.send e u)
    (passed : List (List (Option α))) : Sends { d with send := u, passed := passed } := by
  have hinv := h.inv.step one_le_window (blocking hg) hu
  have hsnoc : ∀ c, e = .deliver c → ∀ k, .disposed k ∈ d.send.delivered ++ [c] → k < d.got := by
    rintro c rfl k hk
    obtain hk | hk := List.mem_append.mp hk
    · exact h.accepted k hk
    · rw [← List.mem_singleton.mp hk] at hg
      exact hg.2
  cases hu with
  | wakes c w hd hf hp =>
    refine ⟨hinv, fun w' hw' => ?_, hsnoc c rfl⟩
    obtain hw' | hw' := List.mem_append.mp hw'
    · exact h.unaborted w' hw'
    · cases List.mem_singleton.mp hw'
      exact hg
  | stray c hf hp hret => exact ⟨hinv, h.unaborted, hsnoc c rfl⟩
  | ignored c hf hc hret hd => exact ⟨hinv, h.unaborted, hsnoc c rfl⟩
  | assertFails hf hret => exact ⟨hinv, h.unaborted, hsnoc .connected rfl⟩
  | block w hp => exact ⟨hinv, h.unaborted, h.accepted⟩
  | resume w hp =>
    obtain ⟨hwakes, hdelivered, -⟩ := resume_records (List.range d.len) sendWindowSize d.send w
    refine ⟨hinv, ?_, ?_⟩
    · change WindowedSend.Unaborted (OutConnection.resume _ _ _ _)
      rw [WindowedSend.Unaborted, hwakes]
      exact h.unaborted
    · change ∀ k, .disposed k ∈ (OutConnection.resume _ _ _ _).delivered → k < d.got
      rw [hdelivered]
      exact h.accepted

theorem transmit (h : Sends d) (buffer : List (Option α)) (k : Nat) :
    Sends (d.transmit buffer k) := by
  unfold Sending.transmit
  split
  · rename_i hk
    exact ⟨h.inv, h.unaborted, fun j hj => (h.accepted j hj).trans (hk ▸ Nat.lt_succ_self k)⟩
  · exact h

/-- When `Send` is back, the other end has every chunk. -/
theorem complete (h : Sends d) {buffer : List (Option α)} (hk : Kept buffer d) {w : Wait}
    (hp : d.send.phase = .woken w) : d.received = d.passed.flatten := by
  obtain ⟨hloop, -, hevent⟩ := h.woken hp
  have hgot : d.passed.length ≤ d.got := by
    rw [hk.passed, List.length_map]
    cases w with
    | connect =>
      rw [hloop.1]
      exact Nat.zero_le _
    | chunk k =>
      rw [hloop.1]
      exact h.accepted k hevent
  rw [hk.received, List.take_of_length_le hgot]

end Sends

theorem len_of_returned {β : Type*} {bytes : List β} {windowSize : Nat}
    {u : OutConnection.State β}
    (h : (OutConnection.State.loop bytes windowSize u).phase = .returned) : u.len = 0 := by
  by_contra hne
  rw [OutConnection.State.loop, if_neg hne] at h
  cases h

namespace Relay

theorem init {g : Nat} (hg : g ≤ bufSize) : Relay (.init g : CmdServerSends.State α) := by
  have hconn : ∀ (c : Nat) (d : Sending α),
      (CmdServerSends.State.init g : CmdServerSends.State α).conn c ≠ .sending d := by
    intro c d hd
    cases hd
  exact ⟨CmdServerBytes.Inv.init hg, Inv.init g, fun c d hd => absurd hd (hconn c d),
    fun c d hd => absurd hd (hconn c d), rfl⟩

theorem total_conn (h : Relay s) (c : Nat) : total (s.abs.conn c) = length (s.conn c) := by
  cases hc : s.conn c with
  | accepted | closed => exact congrArg (total ∘ Conn.abs) hc
  | sending d => exact (congrArg total (abs_conn hc)).trans (total_abs (h.sound c d hc))

/-- Nothing is given up. -/
theorem not_givenUp (h : Relay s) : visible s e ≠ some (.giveUp c) := by
  intro hv
  cases e with
  | accept | receive | close | transmit => cases hv
  | send c' e =>
    cases e with
    | block | deliver => cases hv
    | resume =>
      rw [visible] at hv
      split at hv
      · rename_i d hd
        split at hv
        · rename_i w hw
          obtain ⟨-, hf, -⟩ := (h.sends c' d hd).woken hw
          cases w with
          | connect | chunk k =>
            rw [outcome, if_pos hf] at hv
            cases hv
        all_goals cases hv
      all_goals cases hv

/-- The only `Do` with bytes to send is the one that ends. -/
theorem endsLast (h : Relay s) (hg : Relays asserts s e) : EndsLast s e := by
  cases e with
  | accept | receive | close | transmit => trivial
  | send c e =>
    cases e with
    | block | deliver => trivial
    | resume =>
      intro hends c' _ hne
      by_contra hlen
      have hlen : 0 < total (s.abs.conn c') := by
        rw [h.total_conn]
        exact Nat.pos_of_ne_zero hlen
      cases hc : s.conn c with
      | accepted | closed =>
        rw [hc] at hends
        exact hends
      | sending d =>
        have htotal : total (s.abs.conn c) = d.len := by
          rw [h.total_conn, hc]
          rfl
        rw [hc, Ends] at hends
        split at hends
        · rename_i w hw
          obtain ⟨hloop, hf, -⟩ := (h.sends c d hc).woken hw
          cases w with
          | connect =>
            -- It has sent nothing, so that the buffer is empty.
            rw [OutConnection.resume, if_pos hf] at hends
            have hzero : d.len = 0 := by
              rw [← List.length_range (n := d.len), ← hloop.2.2]
              exact len_of_returned (u := { d.send with connected := some 1 }) hends
            have hturn := hg.1
            simp only [visible, hc, hw, outcome, if_pos hf, InTurn, OneAtATime, abs_conn hc,
              Sending.abs, wait, CmdServerBytes.ClearsOwn] at hturn
            have hbuf : s.bufLen = 0 := hturn hzero
            have hwithin := h.kept.within c'
            rw [← h.total_conn, hbuf] at hwithin
            omega
          | chunk k =>
            obtain ⟨-, -, -, hsum, hpos, -⟩ := hloop
            rw [List.length_range] at hsum
            exact hne (h.bytes.alone c' c hlen (by omega))
        all_goals exact hends

/-- What the other end has of a `Send` that is back. -/
theorem returned (h : Relay s) (hc : s.conn c = .sending d) {w : Wait}
    (hp : d.send.phase = .woken w)
    (hret : (OutConnection.resume (List.range d.len) sendWindowSize d.send w).phase = .returned) :
    let u := OutConnection.resume (List.range d.len) sendWindowSize d.send w
    u.flag = .success ∧ d.received =
      (d.passed ++ (u.chunks.drop d.send.chunks.length).map (load s.buffer)).flatten := by
  obtain ⟨-, hf, -⟩ := (h.sends c d hc).woken hp
  obtain ⟨-, -, hflag⟩ := resume_records (List.range d.len) sendWindowSize d.send w
  have hchunks : (OutConnection.resume (List.range d.len) sendWindowSize d.send w).chunks.drop
      d.send.chunks.length = [] := by
    obtain ⟨-, hlen⟩ | ⟨w', hcall, -⟩ :
        (OutConnection.resume (List.range d.len) sendWindowSize d.send w).phase = .returned ∧ _ ∨
          _ :=
      WindowedSend.Inv.resume_cases d.send w
    · exact List.drop_eq_nil_of_le hlen.le
    · rw [hret] at hcall
      cases hcall
  refine ⟨hflag.trans hf, ?_⟩
  rw [hchunks, List.map_nil, List.append_nil]
  exact (h.sends c d hc).complete (h.kept.kept c d hc) hp

theorem setConn_sends (h : Relay s) {k : CmdServerSends.Conn α}
    (hk : ∀ d, k = .sending d → Sends d) (c' : Nat) (d : Sending α)
    (hd : (s.setConn c k).conn c' = .sending d) : Sends d := by
  rw [setConn_conn] at hd
  split at hd
  · exact hk d hd
  · exact h.sends c' d hd

theorem step (h : Relay s) (hg : Relays asserts s e) (hs : step asserts s e = some t) :
    Relay t := by
  obtain ⟨hsound, hfollows⟩ := step_refines h.sound hs
  obtain ⟨-, hstep⟩ := step_cases hs
  have hkept := h.kept.step (h.endsLast hg) hstep
  have hbytes : CmdServerBytes.Inv t.abs := by
    have hturn := hg.1
    cases hv : visible s e with
    | none =>
      rw [hv] at hfollows
      exact hfollows ▸ h.bytes
    | some a =>
      rw [hv] at hfollows hturn
      cases a with
      | giveUp c => exact absurd hv h.not_givenUp
      | event a => exact h.bytes.step hturn (CmdServer.step_cases hfollows)
  have hrest : (∀ c d, t.conn c = .sending d → Sends d) ∧ t.arrived = t.completed := by
    cases hstep with
    | accept => exact ⟨h.setConn_sends fun d hd => (by cases hd), h.arrived⟩
    | receive c seg hc => exact ⟨h.sends, h.arrived⟩
    | close c hc =>
      refine ⟨h.setConn_sends fun d hd => ?_, h.arrived⟩
      cases hd
      exact ⟨WindowedSend.Inv.init, fun w => List.not_mem_nil, fun k hk =>
        absurd hk List.not_mem_nil⟩
    | transmit c d k hc hk =>
      refine ⟨h.setConn_sends fun d' hd => ?_, h.arrived⟩
      cases hd
      exact (h.sends c d hc).transmit s.buffer k
    | send c d e u hc hu hf =>
      have hacks : Acknowledges d e := by
        have hsucceeds := hg.2
        simpa only [Succeeds, hc] using hsucceeds
      unfold State.proceed
      dsimp only
      split
      · rename_i hret
        refine ⟨h.setConn_sends fun d hd => (by cases hd), ?_⟩
        obtain ⟨w, rfl, hp, rfl⟩ := returned_cases hu hret
        obtain ⟨hflag, hreceived⟩ := h.returned hc hp hret
        rw [if_pos hflag, h.arrived, hreceived]
      · refine ⟨h.setConn_sends fun d' hd => ?_, h.arrived⟩
        cases hd
        exact (h.sends c d hc).step hacks hu _
  exact ⟨hbytes, hkept, hsound, hrest.1, hrest.2⟩

/-- The other end has the first bytes of what is being sent. -/
theorem ahead (h : Relay s) (hc : s.conn c = .sending d) : d.received <+: s.buffer.take d.len := by
  have hpassed : d.received <+: d.passed.flatten := by
    rw [(h.kept.kept c d hc).received, ← List.take_append_drop d.got d.passed, List.flatten_append,
      List.take_append_drop]
    exact List.prefix_append _ _
  have hsound := h.sound c d hc
  have habs := abs_conn hc
  unfold Sending.Sound at hsound
  unfold Sending.abs at habs
  split at hsound
  · rw [hsound.2.2] at hpassed
    exact hpassed.trans List.nil_prefix
  · rename_i k hw
    rw [hw] at habs
    obtain ⟨hle, hflatten⟩ := h.bytes.progress c _ habs
    dsimp only at hle hflatten
    rw [hflatten] at hpassed
    exact hpassed.trans (List.take_prefix_take_left (by omega))
  · exact hsound.elim

end Relay

instance (d : Sending α) : (e : OutConnection.Event) → Decidable (Acknowledges d e)
  | .deliver .connected => inferInstanceAs (Decidable (_ = _))
  | .deliver (.disposed _) => inferInstanceAs (Decidable (_ ∧ _))
  | .deliver .abort => inferInstanceAs (Decidable False)
  | .block | .resume => inferInstanceAs (Decidable True)

instance (s : CmdServerSends.State α) : (e : CmdServerSends.Event α) → Decidable (Succeeds s e)
  | .send c e =>
    match hc : s.conn c with
    | .sending d => decidable_of_iff (Acknowledges d e) (by simp only [Succeeds, hc])
    | .accepted | .closed => isTrue (by simp only [Succeeds, hc])
  | .accept | .receive _ _ | .close _ | .transmit _ _ => inferInstanceAs (Decidable True)

instance (asserts : Bool) (s : CmdServer.State α) :
    (a : Option (Action α)) → Decidable (InTurn asserts s a)
  | some (.event e) => inferInstanceAs (Decidable (OneAtATime asserts s e))
  | some (.giveUp _) | none => inferInstanceAs (Decidable True)

instance (asserts : Bool) (s : CmdServerSends.State α) (e : CmdServerSends.Event α) :
    Decidable (Relays asserts s e) :=
  inferInstanceAs (Decidable (_ ∧ _))

end EbbrtContrib.CmdServerRelay
