import EbbrtContrib.CmdServerClients
import EbbrtContrib.CmdServerSends

namespace EbbrtContrib.CmdServerChunks

open CmdServer (bufSize sendWindowSize)
open CmdServerSends OutConnection Runs

variable {α : Type*} {asserts : Bool} {s t : CmdServerSends.State α}
  {e : CmdServerSends.Event α} {d : Sending α} {c : Nat}

/-- The bytes that a connection has to send. -/
def length : CmdServerSends.Conn α → Nat
  | .sending d => d.len
  | .accepted | .closed => 0

/-- The next step of the connection is the end of its `Do`. -/
def Ends : CmdServerSends.Conn α → Prop
  | .sending d =>
    match d.send.phase with
    | .woken w => (resume (List.range d.len) sendWindowSize d.send w).phase = .returned
    | .calling _ | .blocked _ | .returned => False
  | .accepted | .closed => False

/-- No `Do` ends while another one has bytes to send. -/
def EndsLast (s : CmdServerSends.State α) : CmdServerSends.Event α → Prop
  | .send c .resume => Ends (s.conn c) → ∀ c' < s.accepted, c' ≠ c → length (s.conn c') = 0
  | .send _ .block | .send _ (.deliver _) | .accept | .receive _ _ | .close _ | .transmit _ _ =>
    True

/-- The memory of every chunk is what it was when the stack got it, and the other end has that of
the chunks that it has accepted. -/
structure Kept (buffer : List (Option α)) (d : Sending α) : Prop where
  addresses : ∀ chunk ∈ d.send.chunks, ∀ i ∈ chunk, i < d.len
  passed : d.passed = d.send.chunks.map (load buffer)
  got : d.got ≤ d.send.chunks.length
  received : d.received = (d.passed.take d.got).flatten

structure Inv (s : CmdServerSends.State α) : Prop where
  size : s.buffer.length = bufSize
  fresh : ∀ c, s.accepted ≤ c → s.conn c = .closed
  within : ∀ c, length (s.conn c) ≤ s.bufLen
  kept : ∀ c d, s.conn c = .sending d → Kept s.buffer d

theorem load_congr {buffer buffer' : List (Option α)} {chunk : List Address}
    (h : ∀ i ∈ chunk, buffer[i]? = buffer'[i]?) : load buffer chunk = load buffer' chunk :=
  List.filterMap_congr h

/-- `Buffer` writes behind `bufLen_`, or it stops the program. -/
theorem store_keeps (asserts : Bool) (hsize : s.buffer.length = bufSize) (seg : List α) :
    (s.store asserts seg).buffer.length = bufSize ∧ s.bufLen ≤ (s.store asserts seg).bufLen ∧
      ∀ i < s.bufLen, (s.store asserts seg).buffer[i]? = s.buffer[i]? := by
  have hsize' : s.abs.buffer.length = bufSize := hsize
  unfold State.store CmdServer.State.store
  dsimp only
  split_ifs with hassert hfull
  · exact ⟨hsize, le_rfl, fun _ _ => rfl⟩
  · exact ⟨hsize, le_rfl, fun _ _ => rfl⟩
  · have hfits : s.bufLen + seg.length ≤ bufSize := Nat.le_of_not_lt hfull
    refine ⟨CmdServerClients.size_append hsize' hfits, Nat.le_add_right _ _, fun i hi => ?_⟩
    have htake : i < (s.buffer.take s.bufLen).length := by
      rw [List.length_take, hsize]
      omega
    change (s.buffer.take s.bufLen ++ seg.map some ++
      s.buffer.drop (s.bufLen + seg.length))[i]? = s.buffer[i]?
    rw [List.append_assoc, List.getElem?_append_left htake, List.getElem?_take_of_lt hi]

/-- `Send` comes back from a wait. -/
theorem returned_cases {β : Type*} {bytes : List β} {windowSize : Nat}
    {u v : OutConnection.State β} {e : OutConnection.Event}
    (h : OutConnection.Step bytes windowSize u e v) (hret : v.phase = .returned) :
    ∃ w, e = .resume ∧ u.phase = .woken w ∧ v = OutConnection.resume bytes windowSize u w := by
  cases h with
  | wakes | block => cases hret
  | stray c hf hp hne => exact absurd hret hne
  | ignored c hf hc hne => exact absurd hret hne
  | assertFails hf hne => exact absurd hret hne
  | resume w hp => exact ⟨w, rfl, hp, rfl⟩

/-- A step of `Send` hands over one chunk of its bytes, or none. -/
theorem chunks_step {β : Type*} {bytes : List β} {windowSize : Nat} {u v : OutConnection.State β}
    {e : OutConnection.Event} (h : OutConnection.Step bytes windowSize u e v) :
    ∃ new, v.chunks = u.chunks ++ new ∧ ∀ chunk ∈ new, ∀ i ∈ chunk, i ∈ bytes := by
  have hloop : ∀ v : OutConnection.State β, v.chunks = u.chunks →
      ∃ new, (OutConnection.State.loop bytes windowSize v).chunks = u.chunks ++ new ∧
        ∀ chunk ∈ new, ∀ i ∈ chunk, i ∈ bytes := by
    intro v hv
    unfold OutConnection.State.loop
    split
    · exact ⟨[], by simp [hv]⟩
    · refine ⟨[_], by rw [← hv], fun chunk hc i hi => ?_⟩
      rw [List.mem_singleton.mp hc] at hi
      exact List.mem_of_mem_drop (List.mem_of_mem_take hi)
  obtain ⟨-, hwaits⟩ | ⟨w, -, -, rfl⟩ := waits_cases h
  · exact ⟨[], by simp [hwaits.chunks]⟩
  · cases w with
    | connect =>
      rw [OutConnection.resume]
      split_ifs
      · exact hloop _ rfl
      · exact ⟨[], by simp⟩
    | chunk k =>
      rw [OutConnection.resume]
      split_ifs
      · exact hloop _ rfl
      · exact ⟨[], by simp⟩

namespace Kept

variable {buffer : List (Option α)}

theorem init (n : Nat) : Kept buffer (.init n) := by
  refine ⟨fun chunk hc => absurd hc List.not_mem_nil, rfl, Nat.zero_le _, rfl⟩

theorem congr (h : Kept buffer d) {buffer' : List (Option α)}
    (hsame : ∀ i < d.len, buffer'[i]? = buffer[i]?) : Kept buffer' d := by
  refine ⟨h.addresses, ?_, h.got, h.received⟩
  rw [h.passed]
  refine List.map_congr_left fun chunk hc => load_congr fun i hi => ?_
  exact (hsame i (h.addresses chunk hc i hi)).symm

/-- The other end accepts its next chunk. -/
theorem transmit (h : Kept buffer d) {k : Nat} (hk : k < d.send.chunks.length) :
    Kept buffer (d.transmit buffer k) := by
  unfold Sending.transmit
  split
  · rename_i hgot
    subst hgot
    refine ⟨h.addresses, h.passed, hk, ?_⟩
    have hpassed : d.passed[d.got]? = some (load buffer (d.send.chunks.getD d.got [])) := by
      rw [h.passed, List.getElem?_map, List.getD_eq_getElem?_getD, List.getElem?_eq_getElem hk]
      rfl
    change d.received ++ load buffer (d.send.chunks.getD d.got []) =
      (d.passed.take (d.got + 1)).flatten
    rw [List.take_add_one, hpassed, List.flatten_append, ← h.received]
    simp only [Option.toList_some, List.flatten_singleton]
  · exact h

/-- The chunks that are handed over are where the bytes of `Send` are. -/
theorem proceed (h : Kept buffer d) {u : OutConnection.State Address} {new : List (List Address)}
    (hchunks : u.chunks = d.send.chunks ++ new)
    (hnew : ∀ chunk ∈ new, ∀ i ∈ chunk, i ∈ List.range d.len) :
    Kept buffer { d with
      send := u
      passed := d.passed ++ (u.chunks.drop d.send.chunks.length).map (load buffer) } := by
  have hlen : d.passed.length = d.send.chunks.length := by rw [h.passed, List.length_map]
  refine ⟨?_, ?_, ?_, ?_⟩
  · intro chunk hc i hi
    obtain hc | hc := List.mem_append.mp ((congrArg (chunk ∈ ·) hchunks).mp hc)
    · exact h.addresses chunk hc i hi
    · exact List.mem_range.mp (hnew chunk hc i hi)
  · change d.passed ++ (u.chunks.drop d.send.chunks.length).map (load buffer) =
      u.chunks.map (load buffer)
    rw [hchunks, List.drop_left, List.map_append, h.passed]
  · change d.got ≤ u.chunks.length
    rw [hchunks, List.length_append]
    exact h.got.trans (Nat.le_add_right _ _)
  · change d.received = ((d.passed ++ _).take d.got).flatten
    rw [List.take_append_of_le_length (h.got.trans_eq hlen.symm)]
    exact h.received

end Kept

namespace Inv

theorem init (g : Nat) : Inv (.init g : CmdServerSends.State α) := by
  refine ⟨List.length_replicate, fun _ _ => rfl, fun _ => Nat.zero_le _, fun c d hd => ?_⟩
  cases hd

theorem lt_accepted (h : Inv s) (hc : s.conn c ≠ .closed) : c < s.accepted := by
  by_contra hn
  exact hc (h.fresh c (Nat.le_of_not_lt hn))

/-- A step that changes one connection only. -/
theorem setConn (h : Inv s) {k : CmdServerSends.Conn α} (hc : c < s.accepted)
    (hlen : length k ≤ s.bufLen) (hk : ∀ d, k = .sending d → Kept s.buffer d) :
    Inv (s.setConn c k) := by
  refine ⟨h.size, fun c' hc' => ?_, fun c' => ?_, fun c' d hd => ?_⟩
  · have hne : c' ≠ c := by
      rintro rfl
      exact absurd hc (Nat.not_lt_of_le hc')
    rw [setConn_conn, if_neg hne]
    exact h.fresh c' hc'
  · rw [setConn_conn]
    split
    · exact hlen
    · exact h.within c'
  · rw [setConn_conn] at hd
    split at hd
    · exact hk d hd
    · exact h.kept c' d hd

theorem accept (h : Inv s) :
    Inv { s.setConn s.accepted .accepted with accepted := s.accepted + 1 } := by
  refine ⟨h.size, fun c hc => ?_, fun c => ?_, fun c d hd => ?_⟩
  · change (s.setConn s.accepted .accepted).conn c = .closed
    rw [setConn_conn, if_neg (by rintro rfl; exact absurd hc (Nat.not_succ_le_self _))]
    exact h.fresh c (Nat.le_of_succ_le hc)
  · change length ((s.setConn s.accepted .accepted).conn c) ≤ s.bufLen
    rw [setConn_conn]
    split
    · exact Nat.zero_le _
    · exact h.within c
  · change (s.setConn s.accepted .accepted).conn c = .sending d at hd
    rw [setConn_conn] at hd
    split at hd
    · cases hd
    · exact h.kept c d hd

theorem receive (h : Inv s) (seg : List α) : Inv (s.store asserts seg) := by
  obtain ⟨hsize, hle, hsame⟩ := store_keeps asserts h.size seg
  refine ⟨hsize, h.fresh, fun c => (h.within c).trans hle, fun c d hd => ?_⟩
  have hlen : length (s.conn c) ≤ s.bufLen := h.within c
  have hd : s.conn c = .sending d := hd
  rw [hd] at hlen
  exact (h.kept c d hd).congr fun i hi => hsame i (Nat.lt_of_lt_of_le hi hlen)

/-- Behind the end of a `Do` the buffer may be written from its start on. -/
theorem clear (h : Inv s) {u : CmdServerSends.State α} (hc : c < s.accepted)
    (hconn : u.conn = (s.setConn c .closed).conn) (hbuffer : u.buffer = s.buffer)
    (haccepted : u.accepted = s.accepted)
    (hothers : ∀ c' < s.accepted, c' ≠ c → length (s.conn c') = 0) : Inv u := by
  have hinv : Inv (s.setConn c .closed) := h.setConn hc (Nat.zero_le _) fun d hd => by cases hd
  refine ⟨hbuffer ▸ h.size, fun c' hc' => ?_, fun c' => ?_, fun c' d hd => ?_⟩
  · rw [hconn]
    exact hinv.fresh c' (haccepted.symm.trans_le hc')
  · rw [hconn, setConn_conn]
    split
    · exact Nat.zero_le _
    · rename_i hne
      by_cases hlt : c' < s.accepted
      · rw [hothers c' hlt hne]
        exact Nat.zero_le _
      · rw [h.fresh c' (Nat.le_of_not_lt hlt)]
        exact Nat.zero_le _
  · rw [hconn] at hd
    rw [hbuffer]
    exact hinv.kept c' d hd

theorem step (h : Inv s) (hg : EndsLast s e) (hs : CmdServerSends.Step asserts s e t) : Inv t := by
  cases hs with
  | accept => exact h.accept
  | receive c seg hc => exact h.receive seg
  | close c hc =>
    refine h.setConn (h.lt_accepted (by rw [hc]; rintro ⟨⟩)) le_rfl fun d hd => ?_
    cases hd
    exact Kept.init s.bufLen
  | transmit c d k hc hk =>
    have hlen := h.within c
    rw [hc] at hlen
    refine h.setConn (h.lt_accepted (by rw [hc]; rintro ⟨⟩)) ?_ fun d' hd => ?_
    · unfold Sending.transmit
      split <;> exact hlen
    · cases hd
      exact (h.kept c d hc).transmit hk.1
  | send c d e u hc hu hf =>
    have hlen := h.within c
    rw [hc] at hlen
    have hlt : c < s.accepted := h.lt_accepted (by rw [hc]; rintro ⟨⟩)
    obtain ⟨new, hchunks, hnew⟩ := chunks_step hu
    have hkept := (h.kept c d hc).proceed hchunks hnew
    unfold State.proceed
    dsimp only
    split
    · rename_i hret
      obtain ⟨w, rfl, hp, rfl⟩ := returned_cases hu hret
      refine h.clear hlt rfl rfl rfl (hg ?_)
      rw [hc]
      simp only [Ends, hp]
      exact hret
    · have hinv : Inv (s.setConn c (.sending { d with
          send := u
          passed := d.passed ++ (u.chunks.drop d.send.chunks.length).map (load s.buffer) })) := by
        refine h.setConn hlt hlen fun d' hd => ?_
        cases hd
        exact hkept
      exact ⟨hinv.size, hinv.fresh, hinv.within, hinv.kept⟩

end Inv

/-- What the stack can transmit of every chunk is what it was handed, and what the other end has is
what the stack was handed of the first chunks. -/
structure Intact (buffer : List (Option α)) (d : Sending α) : Prop where
  handed : d.send.chunks.map (load buffer) = d.passed
  received : d.received = (d.passed.take d.got).flatten

/-- In every run in which no `Do` ends while another one has bytes to send, no chunk is overwritten
as long as its `Send` is not over. -/
theorem chunks_intact {g : Nat} (h : Reaches (step asserts) EndsLast (.init g) s)
    (hc : s.conn c = .sending d) : Intact s.buffer d := by
  have hinv : Inv s :=
    h.invariant (Inv.init g) fun _ _ _ hi hg hs => hi.step hg (step_cases hs).2
  exact ⟨(hinv.kept c d hc).passed.symm, (hinv.kept c d hc).received⟩

instance : (k : CmdServerSends.Conn α) → Decidable (Ends k)
  | .sending d =>
    match hp : d.send.phase with
    | .woken w => decidable_of_iff
        ((OutConnection.resume (List.range d.len) sendWindowSize d.send w).phase = .returned)
        (by simp only [Ends, hp])
    | .calling _ | .blocked _ | .returned => isFalse (by simp only [Ends, hp, not_false_eq_true])
  | .accepted | .closed => inferInstanceAs (Decidable False)

instance (s : CmdServerSends.State α) : (e : CmdServerSends.Event α) → Decidable (EndsLast s e)
  | .send _ .resume => inferInstanceAs (Decidable (_ → ∀ c' < s.accepted, _))
  | .send _ .block | .send _ (.deliver _) | .accept | .receive _ _ | .close _ | .transmit _ _ =>
    inferInstanceAs (Decidable True)

/-- A client whose `Send` is given up, and another one behind it. -/
def givenUp : List (CmdServerSends.Event Nat) :=
  [.accept, .accept, .receive 0 [1, 2], .close 0, .send 0 .block, .send 0 (.deliver .abort),
    .send 0 .resume, .receive 1 [3], .close 1, .send 1 .block, .send 1 (.deliver .connected),
    .send 1 .resume, .transmit 1 0]

theorem givenUp_runs : (run (guarded (step true) EndsLast) (.init 0) givenUp).isSome := by decide

/-- One byte is handed over and transmitted. -/
def oneByte (byte : Nat) : Sending Nat where
  len := 1
  send := { OutConnection.State.init [0] with
    flag := .success, phase := .calling (.chunk 0), len := 1, sendLen := 1, chunks := [[0]]
    connected := some 1, delivered := [.connected], saves := [.connect]
    wakes := [(.connect, .connected)] }
  passed := [[some byte]]
  got := 1
  received := [some byte]

theorem givenUp_intact :
    let s := (run (guarded (step true) EndsLast) (.init 0) givenUp).get givenUp_runs
    s.conn 1 = .sending (oneByte 3) ∧ Intact s.buffer (oneByte 3) :=
  ⟨by decide, chunks_intact (c := 1) (reaches_get givenUp_runs) (by decide)⟩

/-- Two clients close before the first one's `Do` ends: the chunk of the second one is overwritten
by the bytes of a third one before the stack transmits it. -/
def overwritten : List (CmdServerSends.Event Nat) :=
  [.accept, .accept, .accept, .receive 0 [1], .close 0, .close 1, .send 0 .block,
    .send 0 (.deliver .abort), .send 0 .resume, .send 1 .block, .send 1 (.deliver .connected),
    .send 1 .resume, .receive 2 [9], .transmit 1 0]

example : (run (step true) (.init 0) overwritten).map (fun s => s.conn 1) =
    some (.sending { oneByte 1 with received := [some 9] }) := by
  decide

end EbbrtContrib.CmdServerChunks
