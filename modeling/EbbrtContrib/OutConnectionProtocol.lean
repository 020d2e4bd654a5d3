import EbbrtContrib.OutConnection

namespace EbbrtContrib.OutConnectionProtocol

open OutConnection Runs

variable {α : Type*} {bytes : List α} {windowSize : Nat} {s t : State α} {e : Event}
  {c : Callback} {w : Wait}

/-- `c` was delivered, and no `Abort` before it. -/
def Occurred (l : List Callback) (c : Callback) : Prop :=
  ∃ before after, l = before ++ c :: after ∧ .abort ∉ before

/-- The wait whose context is saved and not activated. -/
def waiting : Phase → List Wait
  | .blocked w => [w]
  | .calling _ | .woken _ | .returned => []

/-- What the blocking operations promise in a state: the assertion in `Connected` has not
failed, every `SaveContext` but the last is matched by one `ActivateContext` for its event, a
saved context has its event, or an `Abort`, still to come, and success is reported only for an
event that no `Abort` preceded. -/
structure Protocol (s : State α) : Prop where
  asserted : s.failed = false
  matched : s.saves = s.wakes.map Prod.fst ++ waiting s.phase
  stray : s.stray = false
  causes : ∀ w c, (w, c) ∈ s.wakes → c = w.event ∨ c = .abort
  awaited : ∀ w, s.phase = .blocked w → Deliverable s w.event ∧ .abort ∉ s.delivered
  connected : s.connected = some 1 → Occurred s.delivered .connected
  sent : ∀ n, s.result = some n → n ≠ 0 → ∀ k < s.chunks.length, Occurred s.delivered (.disposed k)

/-- Nothing is left to be sent when the wait `w` is over. -/
def NothingLeft (s : State α) : Wait → Prop
  | .connect => s.len = 0
  | .chunk _ => s.len - s.sendLen = 0

instance (s : State α) (w : Wait) : Decidable (NothingLeft s w) :=
  match w with
  | .connect => inferInstanceAs (Decidable (_ = 0))
  | .chunk _ => inferInstanceAs (Decidable (_ = 0))

/-- The stack calls back while a context is saved. While an activated context has not run yet
it may dispose of chunks, and abort when the wait has failed or nothing is left to be sent. -/
def Timely (s : State α) : Event → Prop
  | .deliver c =>
    match s.phase, c with
    | .calling _, _ => False
    | .woken _, .connected => False
    | .woken w, .abort => s.flag = .error ∨ NothingLeft s w
    | .woken _, .disposed _ => True
    | .blocked _, _ => True
    | .returned, _ => True
  | .block | .resume => True

/-- The operation of `w` is the last one that was called. -/
def Current (s : State α) : Wait → Prop
  | .connect => s.chunks = [] ∧ s.connected = none
  | .chunk k => s.chunks.length = k + 1 ∧ s.connected = some 1

def Unseen (s : State α) (w : Wait) : Prop := w.event ∉ s.delivered ∧ .abort ∉ s.delivered

/-- The loop of `SendAndBlock` is entered after a success, with every chunk so far disposed of. -/
structure Ready (s : State α) : Prop where
  asserted : s.failed = false
  matched : s.saves = s.wakes.map Prod.fst
  stray : s.stray = false
  causes : ∀ w c, (w, c) ∈ s.wakes → c = w.event ∨ c = .abort
  flag : s.flag = .success
  connected : s.connected = some 1 ∧ Occurred s.delivered .connected
  handed : ∀ k, .disposed k ∈ s.delivered → k < s.chunks.length
  previous : ∀ k < s.chunks.length, Occurred s.delivered (.disposed k)
  left : .abort ∈ s.delivered → s.len = 0

def Place (s : State α) : Prop :=
  match s.phase with
  | .calling w => Current s w ∧ Unseen s w ∧ s.flag ≠ .blocked
  | .blocked w => Current s w ∧ Unseen s w ∧ s.flag = .blocked
  | .woken w => Current s w ∧ (s.flag = .error ∨
      s.flag = .success ∧ Occurred s.delivered w.event ∧ (.abort ∈ s.delivered → NothingLeft s w))
  | .returned => True

structure Inv (s : State α) : Prop where
  asserted : s.failed = false
  matched : s.saves = s.wakes.map Prod.fst ++ waiting s.phase
  stray : s.stray = false
  causes : ∀ w c, (w, c) ∈ s.wakes → c = w.event ∨ c = .abort
  place : Place s
  handed : ∀ k, .disposed k ∈ s.delivered → k < s.chunks.length
  connected : s.connected = some 1 → Occurred s.delivered .connected
  previous : ∀ k, k + 1 < s.chunks.length → Occurred s.delivered (.disposed k)
  pending : s.phase ≠ .returned → s.result = none
  sent : ∀ n, s.result = some n → n ≠ 0 → ∀ k < s.chunks.length, Occurred s.delivered (.disposed k)

namespace Occurred

theorem snoc {l : List Callback} (h : Occurred l c) (c' : Callback) : Occurred (l ++ [c']) c := by
  obtain ⟨before, after, rfl, hn⟩ := h
  exact ⟨before, after ++ [c'], by simp, hn⟩

theorem last {l : List Callback} (h : .abort ∉ l) : Occurred (l ++ [c]) c := ⟨l, [], rfl, h⟩

theorem mem {l : List Callback} (h : Occurred l c) : c ∈ l := by
  obtain ⟨before, after, rfl, -⟩ := h
  simp

end Occurred

namespace Inv

theorem init : Inv (.init bytes) := by
  refine ⟨rfl, rfl, rfl, by simp [State.init], ?_, by simp [State.init], by simp [State.init],
    by simp [State.init], fun _ => rfl, by simp [State.init]⟩
  exact ⟨⟨rfl, rfl⟩, ⟨by simp [State.init], by simp [State.init]⟩, by simp [State.init]⟩

theorem deliverable (hcur : Current s w) (hun : Unseen s w) : Deliverable s w.event := by
  cases w with
  | connect => exact hun.1
  | chunk k => exact ⟨by have := hcur.1; omega, hun.1⟩

theorem protocol (h : Inv s) : Protocol s := by
  refine ⟨h.asserted, h.matched, h.stray, h.causes, fun w hw => ?_, h.connected, h.sent⟩
  have hplace := h.place
  rw [Place, hw] at hplace
  obtain ⟨hcur, hun, -⟩ := hplace
  exact ⟨deliverable hcur hun, hun.2⟩

/-- What is left to be delivered in the operation of `w` is its own event and an `Abort`. -/
theorem own_event (h : Inv s) (hcur : Current s w) (hd : Deliverable s c) :
    c = w.event ∨ c = .abort := by
  cases c with
  | abort => exact .inr rfl
  | connected =>
    cases w with
    | connect => exact .inl rfl
    | chunk k => exact absurd (h.connected hcur.2).mem hd
  | disposed j =>
    obtain ⟨hlt, hnot⟩ := hd
    cases w with
    | connect => simp [hcur.1] at hlt
    | chunk k =>
      have hk : s.chunks.length = k + 1 := hcur.1
      by_cases hj : j + 1 < s.chunks.length
      · exact absurd (h.previous j hj).mem hnot
      · have hjk : j = k := by omega
        exact .inl (congrArg Callback.disposed hjk)

theorem flag_blocked (h : Inv s) (hf : s.flag = .blocked) (hret : s.phase ≠ .returned) :
    ∃ w, s.phase = .blocked w := by
  have hplace := h.place
  unfold Place at hplace
  cases hp : s.phase with
  | blocked w => exact ⟨w, rfl⟩
  | returned => exact absurd hp hret
  | calling w =>
    rw [hp] at hplace
    exact absurd hf hplace.2.2
  | woken w =>
    rw [hp] at hplace
    obtain ⟨-, he | ⟨hs, -⟩⟩ := hplace
    · cases hf.symm.trans he
    · cases hf.symm.trans hs

theorem not_blocked (h : Inv s) (hf : s.flag ≠ .blocked) : s.phase ≠ .blocked w := by
  intro hp
  have hplace := h.place
  rw [Place, hp] at hplace
  exact hf hplace.2.2

theorem loop (h : Ready s) (hres : s.result = none) : Inv (State.loop bytes windowSize s) := by
  obtain ⟨asserted, matched, stray, causes, flag, connected, handed, previous, left⟩ := h
  unfold State.loop
  by_cases hlen : s.len = 0
  · rw [if_pos hlen]
    refine ⟨asserted, ?_, stray, causes, trivial, handed, fun _ => connected.2,
      fun k hk => previous k (Nat.lt_of_succ_lt hk), fun hret => absurd rfl hret,
      fun _ _ _ => previous⟩
    rw [matched, waiting, List.append_nil]
  · rw [if_neg hlen]
    refine ⟨asserted, ?_, stray, causes, ?_, ?_, fun _ => connected.2, ?_, fun _ => hres, ?_⟩
    · rw [matched, waiting, List.append_nil]
    · refine ⟨⟨by simp, connected.1⟩, ⟨fun hm => ?_, fun hm => hlen (left hm)⟩, ?_⟩
      · exact absurd (handed _ hm) (Nat.lt_irrefl _)
      · rw [flag]
        exact nofun
    · intro k hk
      rw [List.length_append]
      exact Nat.lt_add_right _ (handed k hk)
    · intro k hk
      rw [List.length_append, List.length_singleton] at hk
      exact previous k (Nat.lt_of_succ_lt_succ hk)
    · intro n hn
      cases hres.symm.trans hn

theorem resume (h : Inv s) (hp : s.phase = .woken w) :
    Inv (resume bytes windowSize s w) := by
  have hplace := h.place
  rw [Place, hp] at hplace
  obtain ⟨hcur, hflag⟩ := hplace
  have hres : s.result = none := h.pending (by rw [hp]; exact Phase.noConfusion)
  have hmatched : s.saves = s.wakes.map Prod.fst := by
    rw [h.matched, hp, waiting, List.append_nil]
  cases w with
  | connect =>
    obtain ⟨hnil, -⟩ := hcur
    obtain he | ⟨hs, hocc, hleft⟩ := hflag
    · rw [OutConnection.resume, if_neg (by rw [he]; exact nofun)]
      refine ⟨h.asserted, ?_, h.stray, h.causes, trivial, h.handed, ?_, h.previous,
        fun hret => absurd rfl hret, fun n hn => by cases hres.symm.trans hn⟩
      · rw [hmatched, waiting, List.append_nil]
      · intro hc
        cases hc
    · rw [OutConnection.resume, if_pos hs]
      refine loop ⟨h.asserted, hmatched, h.stray, h.causes, hs, ⟨rfl, hocc⟩, h.handed, ?_, hleft⟩
        hres
      intro k hk
      simp [hnil] at hk
  | chunk j =>
    obtain ⟨hj, hconn⟩ := hcur
    obtain he | ⟨hs, hocc, hleft⟩ := hflag
    · rw [OutConnection.resume, if_neg (by rw [he]; exact nofun)]
      refine ⟨h.asserted, ?_, h.stray, h.causes, trivial, h.handed, h.connected,
        h.previous, fun hret => absurd rfl hret, fun n hn hne => ?_⟩
      · rw [hmatched, waiting, List.append_nil]
      · exact absurd (Option.some.inj hn).symm hne
    · rw [OutConnection.resume, if_pos hs]
      refine loop ⟨h.asserted, hmatched, h.stray, h.causes, hs, ⟨hconn, h.connected hconn⟩,
        h.handed, fun k hk => ?_, hleft⟩ hres
      by_cases hk' : k + 1 < s.chunks.length
      · exact h.previous k hk'
      · have hjk : j = k := by
          have hk : k < s.chunks.length := hk
          omega
        rw [← hjk]
        exact hocc

theorem step (h : Inv s) (hg : Timely s e) (hs : Step bytes windowSize s e t) : Inv t := by
  cases hs with
  | stray c hf hp hret =>
    obtain ⟨w, hw⟩ := h.flag_blocked hf hret
    exact absurd hw (hp w)
  | assertFails hf hret =>
    cases hp : s.phase with
    | blocked w => exact absurd hp (h.not_blocked hf)
    | returned => exact absurd hp hret
    | calling w | woken w => simp only [Timely, hp] at hg
  | wakes c w hd hf hp =>
    have hplace := h.place
    rw [Place, hp] at hplace
    obtain ⟨hcur, hun, -⟩ := hplace
    have hown := h.own_event hcur hd
    refine ⟨h.asserted, ?_, h.stray, ?_, ⟨hcur, ?_⟩, handed_snoc h.handed hd,
      fun hc => (h.connected hc).snoc c, fun k hk => (h.previous k hk).snoc c, fun _ => ?_,
      fun n hn hne k hk => (h.sent n hn hne k hk).snoc c⟩
    · rw [h.matched, hp, waiting, waiting, List.map_append, List.append_nil]
      rfl
    · intro w' c' hm
      obtain hm | hm := List.mem_append.mp hm
      · exact h.causes w' c' hm
      · cases List.mem_singleton.mp hm
        exact hown
    · obtain rfl | rfl := hown
      · refine .inr ⟨by cases w <;> rfl, .last hun.2, fun hm => ?_⟩
        obtain hm | hm := List.mem_append.mp hm
        · exact absurd hm hun.2
        · cases w <;> cases List.mem_singleton.mp hm
      · exact .inl rfl
    · exact h.pending (by rw [hp]; exact Phase.noConfusion)
  | ignored c hf hc hret hd =>
    refine ⟨h.asserted, h.matched, h.stray, h.causes, ?_, handed_snoc h.handed hd,
      fun hc => (h.connected hc).snoc c, fun k hk => (h.previous k hk).snoc c, h.pending,
      fun n hn hne k hk => (h.sent n hn hne k hk).snoc c⟩
    have hplace := h.place
    cases hp : s.phase with
    | blocked w => exact absurd hp (h.not_blocked hf)
    | returned => exact absurd hp hret
    | calling w => simp only [Timely, hp] at hg
    | woken w =>
      rw [Place, hp] at hplace
      simp only [Timely, hp] at hg
      obtain ⟨hcur, he | ⟨hs, hocc, hleft⟩⟩ := hplace
      · exact ⟨hcur, .inl he⟩
      · refine ⟨hcur, .inr ⟨hs, hocc.snoc c, fun hm => ?_⟩⟩
        obtain hm | hm := List.mem_append.mp hm
        · exact hleft hm
        · cases List.mem_singleton.mp hm
          obtain he | hleft := hg
          · cases hs.symm.trans he
          · exact hleft
  | block w hp =>
    have hplace := h.place
    rw [Place, hp] at hplace
    obtain ⟨hcur, hun, -⟩ := hplace
    refine ⟨h.asserted, ?_, h.stray, h.causes, ⟨hcur, hun, rfl⟩, h.handed, h.connected, h.previous,
      fun _ => h.pending (by rw [hp]; exact Phase.noConfusion), h.sent⟩
    rw [h.matched, hp, waiting, waiting, List.append_nil]
  | resume w hp => exact h.resume hp

end Inv

variable (bytes windowSize) in
/-- Once the operation of `w` has returned, a callback that it waits for is lost. -/
theorem not_protocol_block (hp : s.phase = .calling w) (hf : s.failed = false)
    (hlost : ¬ Unseen s w) :
    ∃ u, Reachable (step bytes windowSize) s u ∧ ¬ Protocol u := by
  have hs : step bytes windowSize s .block = some { s with
      flag := .blocked, phase := .blocked w, saves := s.saves ++ [w] } := by
    simp only [step, handle, hf, hp, Bool.false_eq_true, if_false]
  refine ⟨_, Reaches.refl.tail trivial hs, fun h => ?_⟩
  obtain ⟨hd, ha⟩ := h.awaited w rfl
  refine hlost ⟨?_, ha⟩
  cases w with
  | connect => exact hd
  | chunk k => exact hd.2

variable (bytes windowSize) in
theorem loop_calling (hlen : s.len ≠ 0) :
    (State.loop bytes windowSize s).phase = .calling (.chunk s.chunks.length) ∧
      (State.loop bytes windowSize s).delivered = s.delivered ∧
      (State.loop bytes windowSize s).failed = s.failed := by
  rw [State.loop, if_neg hlen]
  exact ⟨rfl, rfl, rfl⟩

variable (bytes windowSize) in
/-- With something left to be sent a success is followed by the next chunk. -/
theorem resume_calling (hs : s.flag = .success) (hleft : ¬ NothingLeft s w) :
    ∃ k, (resume bytes windowSize s w).phase = .calling (.chunk k) ∧
      (resume bytes windowSize s w).delivered = s.delivered ∧
      (resume bytes windowSize s w).failed = s.failed := by
  cases w with
  | connect | chunk k =>
    rw [resume, if_pos hs]
    exact ⟨_, loop_calling bytes windowSize hleft⟩

variable (bytes windowSize) in
theorem lost_calling (h : Inv s) (hp : s.phase = .calling w) (hd : Deliverable s c) :
    ∃ u, Reachable (step bytes windowSize) { s with delivered := s.delivered ++ [c] } u ∧
      ¬ Protocol u := by
  have hplace := h.place
  rw [Place, hp] at hplace
  refine not_protocol_block bytes windowSize hp h.asserted ?_
  rintro ⟨hevent, habort⟩
  obtain rfl | rfl := h.own_event hplace.1 hd
  · exact hevent (List.mem_append_right _ List.mem_cons_self)
  · exact habort (List.mem_append_right _ List.mem_cons_self)

variable (bytes windowSize) in
theorem lost_woken (h : Inv s) (hp : s.phase = .woken w) (hs : s.flag = .success)
    (hleft : ¬ NothingLeft s w) :
    ∃ u, Reachable (step bytes windowSize) { s with delivered := s.delivered ++ [.abort] } u ∧
      ¬ Protocol u := by
  have hstep : step bytes windowSize { s with delivered := s.delivered ++ [.abort] } .resume =
      some (resume bytes windowSize { s with delivered := s.delivered ++ [.abort] } w) := by
    simp only [step, handle, h.asserted, hp, Bool.false_eq_true, if_false]
  have hleft' : ¬ NothingLeft { s with delivered := s.delivered ++ [.abort] } w := by
    cases w <;> exact hleft
  obtain ⟨k, hphase, hdelivered, hfailed⟩ := resume_calling bytes windowSize
    (s := { s with delivered := s.delivered ++ [.abort] }) hs hleft'
  have hlost : ¬ Unseen (resume bytes windowSize
      { s with delivered := s.delivered ++ [.abort] } w) (.chunk k) := by
    rintro ⟨-, habort⟩
    rw [hdelivered] at habort
    exact habort (List.mem_append_right _ List.mem_cons_self)
  obtain ⟨u, hu, hnot⟩ :=
    not_protocol_block bytes windowSize hphase (hfailed.trans h.asserted) hlost
  exact ⟨u, (Reaches.refl.tail trivial hstep).trans hu, hnot⟩

/-- A callback at any other time breaks the protocol, there or at the next `SaveContext`. -/
theorem not_protocol_of_untimely (h : Inv s) (hs : Step bytes windowSize s e t)
    (hg : ¬ Timely s e) : ∃ u, Reachable (step bytes windowSize) t u ∧ ¬ Protocol u := by
  cases hs with
  | block w hp => exact absurd trivial hg
  | resume w hp => exact absurd trivial hg
  | assertFails hf hret => exact ⟨_, .refl, fun hpr => by cases hpr.asserted⟩
  | stray c hf hp hret => exact ⟨_, .refl, fun hpr => by cases hpr.stray⟩
  | wakes c w hd hf hp => simp [Timely, hp] at hg
  | ignored c hf hc hret hd =>
    cases hp : s.phase with
    | returned => exact absurd hp hret
    | blocked w => exact absurd hp (h.not_blocked hf)
    | calling w =>
      rw [← hp]
      exact lost_calling bytes windowSize h hp hd
    | woken w =>
      rw [← hp]
      have hplace := h.place
      rw [Place, hp] at hplace
      cases c with
      | connected => exact absurd rfl hc
      | disposed k => simp [Timely, hp] at hg
      | abort =>
        simp only [Timely, hp, not_or] at hg
        obtain ⟨hs, -⟩ := hplace.2.resolve_left hg.1
        exact lost_woken bytes windowSize h hp hs hg.2

/-- The blocking operations keep their protocol in every run in which the stack calls back in
time. Any other callback leads to a state in which it is broken. -/
theorem protocol_iff_timely (bytes : List α) (windowSize : Nat) :
    (∀ t, Reaches (step bytes windowSize) Timely (.init bytes) t → Protocol t) ∧
    ∀ s e t, Reaches (step bytes windowSize) Timely (.init bytes) s →
      step bytes windowSize s e = some t → ¬ Timely s e →
      ∃ u, Reachable (step bytes windowSize) t u ∧ ¬ Protocol u := by
  have hinv : ∀ t, Reaches (step bytes windowSize) Timely (.init bytes) t → Inv t := fun t ht =>
    ht.invariant Inv.init fun _ _ _ hi hg hs => hi.step hg (step_cases hs)
  exact ⟨fun t ht => (hinv t ht).protocol,
    fun s e t hs hstep hg => not_protocol_of_untimely (hinv s hs) (step_cases hstep) hg⟩

instance (s : State α) (e : Event) : Decidable (Timely s e) :=
  match e with
  | .deliver c =>
    match hp : s.phase, c with
    | .calling _, _ => .isFalse (by simp [Timely, hp])
    | .woken _, .connected => .isFalse (by simp [Timely, hp])
    | .woken w, .abort =>
      decidable_of_iff (s.flag = .error ∨ NothingLeft s w) (by simp [Timely, hp])
    | .woken _, .disposed _ => .isTrue (by simp [Timely, hp])
    | .blocked _, _ => .isTrue (by simp [Timely, hp])
    | .returned, _ => .isTrue (by simp [Timely, hp])
  | .block | .resume => inferInstanceAs (Decidable True)

def hello : List Nat := [1, 2, 3]

/-- Two chunks are sent, and the connection aborts when nothing is left. -/
def inTime : List Event :=
  [.block, .deliver .connected, .resume, .block, .deliver (.disposed 0), .resume, .block,
    .deliver (.disposed 1), .deliver .abort, .resume]

theorem inTime_runs :
    (run (guarded (step hello 2) Timely) (.init hello) inTime).isSome := by decide

theorem inTime_protocol :
    Protocol ((run (guarded (step hello 2) Timely) (.init hello) inTime).get inTime_runs) :=
  (protocol_iff_timely hello 2).1 _ (reaches_get inTime_runs)

/-- `Connected` in `Pcb().Connect` fails the assertion; a chunk that is disposed of in
`Pcb().Output` leaves the context saved with nothing but an `Abort` to come; and with an `Abort`
in `Pcb().Output` all is reported as sent. -/
theorem early_callbacks_break :
    (∃ t, run (step hello 8) (.init hello) [.deliver .connected] = some t ∧ t.failed = true) ∧
    (∃ t, run (step hello 8) (.init hello)
        [.block, .deliver .connected, .resume, .deliver (.disposed 0), .block] = some t ∧
      t.phase = .blocked (.chunk 0) ∧ ∀ c, Deliverable t c → c = .abort) ∧
    (∃ t, run (step hello 8) (.init hello) [.block, .deliver .connected, .resume,
        .deliver .abort, .block, .deliver (.disposed 0), .resume] = some t ∧ t.result = some 3) ∧
    ¬ ∀ (bytes : List Nat) windowSize t,
      Reachable (step bytes windowSize) (.init bytes) t → Protocol t := by
  refine ⟨⟨_, rfl, rfl⟩, ⟨_, rfl, rfl, fun c hc => ?_⟩, ⟨_, rfl, by decide⟩, fun h => ?_⟩
  · cases c with
    | abort => rfl
    | connected => exact absurd hc (by decide)
    | disposed k =>
      obtain ⟨hk, hnot⟩ := hc
      obtain rfl : k = 0 := Nat.lt_one_iff.mp hk
      exact absurd hnot (by decide)
  · have hp := h hello 8 _ (reachable_of_run (l := [.deliver .connected]) rfl)
    cases hp.asserted

end EbbrtContrib.OutConnectionProtocol
