import Mathlib.Order.Nat
import EbbrtContrib.CmdServer

namespace EbbrtContrib.CmdServerBytes

open CmdServer Runs

variable {α : Type*} {asserts : Bool} {s t : State α} {c : Nat}

/-- The bytes that a `Do` in progress has taken on to send. -/
def total : Conn α → Nat
  | .connecting len => len
  | .sending d => d.sent + d.len
  | _ => 0

/-- If the next step of the `Do` is its last one, nothing has arrived beyond what it sent. -/
def ClearsOwn (bufLen : Nat) : Conn α → Prop
  | .connecting len => len = 0 → bufLen = 0
  | .sending d => d.len ≤ d.sendLen → bufLen ≤ d.sent + d.len
  | _ => True

/-- A `Do` starts on an empty buffer or while no other one has bytes to send, it clears only
what it sent, and in a build without assertions every segment fits. -/
def OneAtATime (asserts : Bool) (s : State α) : Event α → Prop
  | .accept => True
  | .receive _ seg => asserts = true ∨ s.bufLen + seg.length ≤ bufSize
  | .close _ => s.bufLen = 0 ∨ ∀ c < s.accepted, total (s.conn c) = 0
  | .connected c | .freed c => ClearsOwn s.bufLen (s.conn c)

instance (bufLen : Nat) : (k : Conn α) → Decidable (ClearsOwn bufLen k)
  | .connecting len => inferInstanceAs (Decidable (len = 0 → bufLen = 0))
  | .sending d => inferInstanceAs (Decidable (d.len ≤ d.sendLen → bufLen ≤ d.sent + d.len))
  | .accepted => inferInstanceAs (Decidable True)
  | .closed => inferInstanceAs (Decidable True)

instance (asserts : Bool) (s : State α) : (e : Event α) → Decidable (OneAtATime asserts s e)
  | .accept => inferInstanceAs (Decidable True)
  | .receive _ seg =>
    inferInstanceAs (Decidable (asserts = true ∨ s.bufLen + seg.length ≤ bufSize))
  | .close _ =>
    inferInstanceAs (Decidable (s.bufLen = 0 ∨ ∀ c < s.accepted, total (s.conn c) = 0))
  | .connected c => inferInstanceAs (Decidable (ClearsOwn s.bufLen (s.conn c)))
  | .freed c => inferInstanceAs (Decidable (ClearsOwn s.bufLen (s.conn c)))

def AllClosed (s : State α) : Prop := ∀ c < s.accepted, s.conn c = .closed

/-- No write is out of bounds, every byte is in one completed `Send` or still in `buffer_`,
and it is in a `Send` once everything is closed. -/
structure Conserved (s : State α) : Prop where
  inBounds : s.halted ≠ some .corrupted
  kept : (s.completed.flatten ++ s.buffer.take s.bufLen).reduceOption.Perm s.handed
  done : AllClosed s → s.completed.flatten.reduceOption.Perm s.handed

structure Inv (s : State α) : Prop where
  size : s.buffer.length = bufSize
  bound : s.bufLen ≤ bufSize
  sound : s.halted ≠ some .corrupted
  fresh : ∀ c, s.accepted ≤ c → s.conn c = .closed
  whole : (s.completed.flatten ++ s.buffer.take s.bufLen).reduceOption = s.handed
  within : ∀ c, total (s.conn c) ≤ s.bufLen
  progress : ∀ c d, s.conn c = .sending d →
    d.sendLen ≤ d.len ∧ d.passed = s.buffer.take (d.sent + d.sendLen)
  alone : ∀ c c', 0 < total (s.conn c) → 0 < total (s.conn c') → c = c'
  held : (∃ c, s.conn c = .accepted) ∨ (∃ c, 0 < total (s.conn c)) ∨
    (s.buffer.take s.bufLen).reduceOption = []

theorem reduceOption_replicate (n : Nat) : (List.replicate n (none : Option α)).reduceOption = [] :=
  by simp [List.reduceOption]

theorem reduceOption_map_some (xs : List α) : (xs.map some).reduceOption = xs := by
  simp [List.reduceOption, List.filterMap_map]

namespace Inv

theorem init {g : Nat} (hg : g ≤ bufSize) : Inv (State.init g : State α) := by
  have htake : ((List.replicate bufSize (none : Option α)).take g).reduceOption = [] := by
    rw [List.take_replicate, reduceOption_replicate]
  constructor
  · exact List.length_replicate
  · exact hg
  · simp [State.init]
  · exact fun _ _ => rfl
  · exact htake
  · exact fun _ => Nat.zero_le g
  · intro c d hc
    cases hc
  · intro c c' hc
    cases hc
  · exact .inr (.inr htake)

theorem lt_accepted (h : Inv s) (hc : s.conn c ≠ .closed) : c < s.accepted := by
  by_contra hn
  exact hc (h.fresh c (not_lt.mp hn))

/-- A step that changes one connection only. -/
theorem setConn (h : Inv s) {k : Conn α}
    (hconn : ∀ c', t.conn c' = if c' = c then k else s.conn c') (hbuffer : t.buffer = s.buffer)
    (hbufLen : t.bufLen = s.bufLen) (hcompleted : t.completed = s.completed)
    (hhanded : t.handed = s.handed) (hhalted : t.halted = s.halted)
    (haccepted : s.accepted ≤ t.accepted) (hc : c < t.accepted) (hwithin : total k ≤ s.bufLen)
    (hprogress : ∀ d, k = .sending d →
      d.sendLen ≤ d.len ∧ d.passed = s.buffer.take (d.sent + d.sendLen))
    (halone : 0 < total k → ∀ c', c' ≠ c → total (s.conn c') = 0)
    (hheld : k = .accepted ∨ 0 < total k ∨ (s.buffer.take s.bufLen).reduceOption = []) :
    Inv t := by
  have hself : t.conn c = k := by rw [hconn, if_pos rfl]
  have hother : ∀ c', c' ≠ c → t.conn c' = s.conn c' := by
    intro c' hne
    rw [hconn, if_neg hne]
  constructor
  · rw [hbuffer, h.size]
  · rw [hbufLen]
    exact h.bound
  · rw [hhalted]
    exact h.sound
  · intro c' hc'
    rw [hother c' (by omega)]
    exact h.fresh c' (by omega)
  · rw [hcompleted, hbuffer, hbufLen, hhanded]
    exact h.whole
  · intro c'
    rw [hbufLen]
    by_cases hne : c' = c
    · rw [hne, hself]
      exact hwithin
    · rw [hother c' hne]
      exact h.within c'
  · intro c' d hd
    rw [hbuffer]
    by_cases hne : c' = c
    · rw [hne, hself] at hd
      exact hprogress d hd
    · rw [hother c' hne] at hd
      exact h.progress c' d hd
  · intro c₁ c₂ h₁ h₂
    by_cases he₁ : c₁ = c
    · by_cases he₂ : c₂ = c
      · rw [he₁, he₂]
      · rw [he₁, hself] at h₁
        rw [hother c₂ he₂, halone h₁ c₂ he₂] at h₂
        omega
    · by_cases he₂ : c₂ = c
      · rw [he₂, hself] at h₂
        rw [hother c₁ he₁, halone h₂ c₁ he₁] at h₁
        omega
      · rw [hother c₁ he₁] at h₁
        rw [hother c₂ he₂] at h₂
        exact h.alone c₁ c₂ h₁ h₂
  · rw [hbuffer, hbufLen]
    obtain hk | hk | hk := hheld
    · exact .inl ⟨c, hself.trans hk⟩
    · exact .inr (.inl ⟨c, by rwa [hself]⟩)
    · exact .inr (.inr hk)

theorem accept (h : Inv s) :
    Inv { s.setConn s.accepted .accepted with accepted := s.accepted + 1 } := by
  have hconn := fun c' => setConn_conn s s.accepted c' .accepted
  refine Inv.setConn (t := { s.setConn s.accepted .accepted with accepted := s.accepted + 1 }) h
    hconn rfl rfl rfl rfl rfl (Nat.le_succ _) (Nat.lt_succ_self _) (Nat.zero_le _) ?_ ?_ ?_
  · intro d hd
    cases hd
  · intro hpos
    cases hpos
  · exact .inl rfl

theorem close (h : Inv s) (hc : s.conn c = .accepted)
    (hg : s.bufLen = 0 ∨ ∀ c < s.accepted, total (s.conn c) = 0) :
    Inv (s.setConn c (.connecting s.bufLen)) := by
  apply h.setConn (fun c' => setConn_conn s c c' _) rfl rfl rfl rfl rfl le_rfl
    (h.lt_accepted (by simp [hc])) le_rfl
  · intro d hd
    cases hd
  · intro hpos c' _
    obtain hz | hz := hg
    · exact absurd hpos (by rw [total, hz]; omega)
    · by_cases hc' : c' < s.accepted
      · exact hz c' hc'
      · rw [h.fresh c' (by omega)]
        rfl
  · by_cases hz : s.bufLen = 0
    · right
      right
      rw [hz]
      rfl
    · exact .inr (.inl (Nat.pos_of_ne_zero hz))

theorem receive (h : Inv s) (hc : s.conn c = .accepted) {seg : List α}
    (hg : asserts = true ∨ s.bufLen + seg.length ≤ bufSize) : Inv (s.store asserts seg) := by
  have hbound := h.bound
  have hsize := h.size
  unfold State.store
  split
  · exact ⟨h.size, h.bound, by simp, h.fresh, h.whole, h.within, h.progress, h.alone, h.held⟩
  · rename_i hassert
    have hfits : s.bufLen + seg.length ≤ bufSize := by
      obtain ha | hle := hg
      · have hroom : seg.length < s.room := by
          by_contra hn
          exact hassert ⟨ha, hn⟩
        simp only [State.room, bufSize] at hroom hbound ⊢
        omega
      · exact hle
    rw [if_neg (by omega)]
    have htake : (s.buffer.take s.bufLen ++ seg.map some ++
        s.buffer.drop (s.bufLen + seg.length)).take (s.bufLen + seg.length) =
        s.buffer.take s.bufLen ++ seg.map some := by
      apply List.take_left'
      simp [List.length_take]
      omega
    have hkeep : ∀ n ≤ s.bufLen, (s.buffer.take s.bufLen ++ seg.map some ++
        s.buffer.drop (s.bufLen + seg.length)).take n = s.buffer.take n := by
      intro n hn
      rw [List.append_assoc, List.take_append_of_le_length (by simp; omega), List.take_take,
        Nat.min_eq_left hn]
    constructor
    · simp only [List.length_append, List.length_take, List.length_map, List.length_drop]
      omega
    · exact hfits
    · exact h.sound
    · exact h.fresh
    · rw [htake, ← List.append_assoc, List.reduceOption_append, h.whole, reduceOption_map_some]
    · intro c'
      exact (h.within c').trans (Nat.le_add_right _ _)
    · intro c' d hd
      obtain ⟨hle, hpassed⟩ := h.progress c' d hd
      have hwithin := h.within c'
      rw [show s.conn c' = .sending d from hd, total] at hwithin
      refine ⟨hle, ?_⟩
      rw [hkeep _ (by omega)]
      exact hpassed
    · exact h.alone
    · exact .inl ⟨c, hc⟩

/-- All the bytes of the buffer have been passed, and the `Do` returns. -/
theorem returns (h : Inv s) {d : Sending α} (hz : d.len = 0) (hlen : s.bufLen = d.sent)
    (htotal : total (s.conn c) = d.sent) (hpassed : d.passed = s.buffer.take d.sent) :
    Inv (s.sendAndBlock c d) := by
  have hrest : ∀ c', c' ≠ c → total (s.conn c') = 0 := by
    intro c' hne
    by_contra hpos
    have hw := h.within c'
    exact hne (h.alone c' c (by omega) (by omega))
  have hother : ∀ c', total ((s.setConn c .closed).conn c') = 0 := by
    intro c'
    rw [setConn_conn]
    split
    · rfl
    · rename_i hne
      exact hrest c' hne
  rw [State.sendAndBlock, if_pos hz]
  constructor
  · exact h.size
  · exact Nat.zero_le _
  · exact h.sound
  · intro c' hc'
    show (s.setConn c .closed).conn c' = .closed
    rw [setConn_conn]
    split
    · rfl
    · exact h.fresh c' hc'
  · show ((s.completed ++ [d.passed]).flatten ++ []).reduceOption = s.handed
    rw [← h.whole, List.flatten_append, List.flatten_singleton, List.append_nil, hpassed, hlen]
  · intro c'
    exact (hother c').le
  · intro c' d' hd'
    have hd : (s.setConn c .closed).conn c' = .sending d' := hd'
    rw [setConn_conn] at hd
    split at hd
    · cases hd
    · exact h.progress c' d' hd
  · intro c₁ c₂ h₁
    exact absurd h₁ (by rw [show _ = _ from hother c₁]; omega)
  · exact .inr (.inr rfl)

/-- The loop goes on with the chunk after the bytes passed so far. -/
theorem sends (h : Inv s) {d : Sending α} (hz : d.len ≠ 0) (hc : s.conn c ≠ .closed)
    (htotal : total (s.conn c) = d.sent + d.len) (hpassed : d.passed = s.buffer.take d.sent) :
    Inv (s.sendAndBlock c d) := by
  have hwithin := h.within c
  rw [htotal] at hwithin
  rw [State.sendAndBlock, if_neg hz]
  set sendLen := if sendWindowSize < d.len then sendWindowSize else d.len with hsend
  have hle : sendLen ≤ d.len := by
    rw [hsend]
    split <;> omega
  apply h.setConn (fun c' => setConn_conn s c c' _) rfl rfl rfl rfl rfl le_rfl (h.lt_accepted hc)
  · exact hwithin
  · intro d' hd'
    cases hd'
    refine ⟨hle, ?_⟩
    rw [List.take_add, hpassed]
  · intro _ c' hne
    by_contra hpos
    exact hne (h.alone c' c (by omega) (by omega))
  · right
    left
    show 0 < d.sent + d.len
    omega

/-- The loop goes on, or the `Do` returns. -/
theorem sendAndBlock (h : Inv s) {d : Sending α} (hc : s.conn c ≠ .closed)
    (htotal : total (s.conn c) = d.sent + d.len) (hpassed : d.passed = s.buffer.take d.sent)
    (hreturn : d.len = 0 → s.bufLen ≤ d.sent) :
    Inv (s.sendAndBlock c d) := by
  by_cases hz : d.len = 0
  · have hwithin := h.within c
    have hle := hreturn hz
    exact h.returns hz (by omega) (by omega) hpassed
  · exact h.sends hz hc htotal hpassed

theorem step (h : Inv s) {e : Event α} (hg : OneAtATime asserts s e) (hs : Step asserts s e t) :
    Inv t := by
  cases hs with
  | accept => exact h.accept
  | receive c seg hc => exact h.receive hc hg
  | close c hc => exact h.close hc hg
  | connected c len hc =>
    apply h.sendAndBlock
    · simp [hc]
    · simp [hc, total]
    · rfl
    · intro hz
      rw [OneAtATime, hc] at hg
      exact (hg hz).le
  | freed c d hc =>
    obtain ⟨hle, hpassed⟩ := h.progress c d hc
    apply h.sendAndBlock
    · simp [hc]
    · simp only [hc, total]
      omega
    · exact hpassed
    · intro hz
      rw [OneAtATime, hc] at hg
      have hz' : d.len - d.sendLen = 0 := hz
      have hret := hg (by omega)
      show s.bufLen ≤ d.sent + d.sendLen
      omega

theorem conserved (h : Inv s) : Conserved s := by
  refine ⟨h.sound, h.whole ▸ .refl _, ?_⟩
  intro hclosed
  have hall : ∀ c, s.conn c = .closed := by
    intro c
    by_cases hc : c < s.accepted
    · exact hclosed c hc
    · exact h.fresh c (by omega)
  have hwhole := h.whole
  obtain ⟨c, hc⟩ | ⟨c, hc⟩ | hempty := h.held
  · rw [hall c] at hc
    cases hc
  · rw [hall c] at hc
    cases hc
  · rw [List.reduceOption_append, hempty, List.append_nil] at hwhole
    rw [hwhole]

end Inv

/-- In every run in which no `Do` throws away or sends again the bytes of another one, the
received bytes are conserved. -/
theorem conserved_of_reaches {g : Nat} (hg : g ≤ bufSize)
    (h : Reaches (step asserts) (OneAtATime asserts) (.init g) s) : Conserved s := by
  have hinv : Inv s :=
    h.invariant (Inv.init hg) fun _ _ _ hi hok hs => hi.step hok (step_cases hs)
  exact hinv.conserved

/-- Two connections one after the other. -/
def inTurn : List (Event Nat) :=
  [.accept, .accept, .receive 0 [1], .close 0, .connected 0, .freed 0, .receive 1 [2], .close 1,
    .connected 1, .freed 1]

/-- The second connection's byte arrives while the first one's is being sent. -/
def overlap : List (Event Nat) :=
  [.accept, .accept, .receive 0 [1], .close 0, .receive 1 [2], .connected 0, .freed 0, .close 1,
    .connected 1]

theorem inTurn_runs : (run (guarded (step true) (OneAtATime true)) (.init 0) inTurn).isSome := by
  decide

theorem inTurn_conserved :
    Conserved ((run (guarded (step true) (OneAtATime true)) (.init 0) inTurn).get inTurn_runs) :=
  conserved_of_reaches (Nat.zero_le _) (reaches_get inTurn_runs)

theorem overlap_runs : (run (step true) (.init 0) overlap).isSome := by decide

theorem overlap_loses :
    let s := (run (step true) (.init 0) overlap).get overlap_runs
    AllClosed s ∧ s.handed = [1, 2] ∧ s.completed.flatten.reduceOption = [1] ∧
      ¬ ∀ t : State Nat, Reachable (step true) (.init 0) t → Conserved t := by
  have hclosed : AllClosed ((run (step true) (.init 0) overlap).get overlap_runs) := by
    unfold AllClosed
    decide
  have hhanded : ((run (step true) (.init 0) overlap).get overlap_runs).handed = [1, 2] := by
    decide
  have hsent : ((run (step true) (.init 0) overlap).get
      overlap_runs).completed.flatten.reduceOption = [1] := by decide
  refine ⟨hclosed, hhanded, hsent, ?_⟩
  intro hall
  have hdone := (hall _ (reachable_of_run (Option.some_get overlap_runs).symm)).done hclosed
  rw [hhanded, hsent] at hdone
  exact absurd hdone.length_eq (by decide)

end EbbrtContrib.CmdServerBytes
