import EbbrtContrib.CpuExit
import EbbrtContrib.CpuProgress

namespace EbbrtContrib.CpuExitOnce

open Finset CpuExit CyclicBarrier Runs

variable {n : Nat} {s t : CpuExit.State} {e : CpuExit.Event} {w : Who}

/-- Thread `i` is in its event loop, and not in the event of the bring-up. -/
def InLoop (u : CpuBringUp.State) (i : Nat) : Prop := u.pc i = .looping ∨ u.pc i = .finished

theorem inLoop_iff (u : CpuBringUp.State) (i : Nat) :
    InLoop u i ↔ CpuBringUp.ranks u i = 11 ∨ CpuBringUp.ranks u i = 15 := by
  rw [InLoop, CpuBringUp.ranks]
  cases u.pc i <;> simp [CpuBringUp.rank]

/-- The bring-up leaves a thread alone that is in its loop. -/
theorem InLoop.step {u v : CpuBringUp.State} {i : Nat} {e : CpuBringUp.Event} (h : InLoop u i)
    (hinv : CpuBarriers.Inv n u) (hs : CpuBringUp.step n u e = some v) (he : e ≠ .thread i) :
    InLoop v i := by
  have hranks : CpuBringUp.ranks v i = CpuBringUp.ranks u i := by
    cases e with
    | thread j =>
      exact (CpuBringUp.moved_of_run hs).other i fun hij => he (hij ▸ rfl)
    | early =>
      obtain ⟨j, hj, -, rfl⟩ | ⟨j, -, -, rfl⟩ | ⟨-, -, rfl⟩ := CpuBringUp.earlyInit_cases hs
      · have hborn : CpuBringUp.ranks u j = 0 :=
          hinv.unborn j (by rw [CpuBarriers.started, hj])
        refine (CpuBringUp.advance_of_create (n := n)
          (CpuBringUp.pc_of_rank_zero hborn)).other i fun hij => ?_
        rw [inLoop_iff, hij, hborn] at h
        omega
      · rfl
      · rfl
  rwa [inLoop_iff, hranks, ← inLoop_iff]

/-- Behind the barrier of `running_` all CPUs are there. -/
theorem InLoop.ready {u : CpuBringUp.State} {i : Nat} (h : InLoop u i)
    (hinv : CpuBarriers.Inv n u) :
    i < n ∧ n ≤ u.running ∧ 0 < u.numCpus ∧ CpuBringUp.indexToCPU u 0 ≠ none := by
  rw [inLoop_iff] at h
  have hi : i < n := hinv.lt_of_born (by omega)
  have hall := hinv.counted.runningGate i (by omega)
  have hnum : u.numCpus = n := by
    rw [hinv.counted.numCpus]
    exact tally_full_of_le (by omega) hall
  have hrank : 10 ≤ CpuBringUp.ranks u 0 := tally_eq_iff.mp hall 0 (by omega)
  refine ⟨hi, by rw [hinv.counted.running, hall], by omega, ?_⟩
  rw [CpuBringUp.indexToCPU, CpuBringUp.Cpu.getByIndex, if_neg (Nat.not_lt_zero _),
    Option.bind_some, hinv.cpus, if_neg (by omega)]
  exact Option.some_ne_none _

/-- Only threads in their event loops shut down, and `main` behind the end of the first one. -/
structure Busy (n : Nat) (s : CpuExit.State) : Prop where
  up : CpuBarriers.Inv n s.up
  looping : ∀ i, s.stage (.cpu i) ≠ .away → InLoop s.up i
  left : s.left = true → InLoop s.up 0 ∧ s.stage (.cpu 0) = .away
  main : s.stage .main ≠ .away → s.left = true
  fault : s.fault = false

namespace Busy

theorem init : Busy n .init where
  up := CpuBarriers.Inv.init
  looping _ h := absurd rfl h
  left h := by cases h
  main h := absurd rfl h
  fault := rfl

theorem ready (h : Busy n s) (hw : s.stage w ≠ .away) :
    0 < s.up.numCpus ∧ CpuBringUp.indexToCPU s.up 0 ≠ none := by
  cases w with
  | main => exact ((h.left (h.main hw)).1.ready h.up).2.2
  | cpu i => exact ((h.looping i hw).ready h.up).2.2

/-- A thread goes on in `Cpu::Shutdown`, or starts it in its event loop. -/
theorem goto (h : Busy n s) (hw : s.stage w ≠ .away ∨ ∃ i, w = .cpu i ∧ Idle s i) (p : Stage)
    (htup : t.up = s.up) (hstage : t.stage = Function.update s.stage w p)
    (hleft : t.left = s.left) (hfault : t.fault = s.fault) : Busy n t where
  up := htup ▸ h.up
  looping i hi := by
    rw [htup]
    rw [hstage] at hi
    by_cases he : Who.cpu i = w
    · subst he
      obtain hw | ⟨j, hj, hidle⟩ := hw
      · exact h.looping i hw
      · obtain rfl := Who.cpu.inj hj
        exact hidle.1
    · rw [Function.update_of_ne he] at hi
      exact h.looping i hi
  left hl := by
    rw [hleft] at hl
    obtain ⟨hloop, haway⟩ := h.left hl
    refine ⟨htup ▸ hloop, ?_⟩
    rw [hstage, Function.update_of_ne, haway]
    rintro rfl
    obtain hw | ⟨i, hi, hidle⟩ := hw
    · exact hw haway
    · obtain rfl := Who.cpu.inj hi
      cases (hidle.2.2 rfl).symm.trans hl
  main hm := by
    rw [hleft]
    rw [hstage] at hm
    by_cases he : Who.main = w
    · subst he
      obtain hw | ⟨i, hi, -⟩ := hw
      · exact h.main hw
      · cases hi
    · rw [Function.update_of_ne he] at hm
      exact h.main hm
  fault := hfault.trans h.fault

theorem step (h : Busy n s) (hs : CpuExit.step n s e = some t) : Busy n t := by
  cases step_cases hs with
  | up e up hfree hup =>
    have hkeep : ∀ i, (s.stage (.cpu i) ≠ .away ∨ i = 0 ∧ s.left = true) → InLoop s.up i →
        InLoop up i := by
      intro i hi hloop
      refine hloop.step h.up hup fun he => ?_
      rw [he] at hfree
      obtain hi | ⟨rfl, hi⟩ := hi
      · exact hi hfree.1
      · cases (hfree.2 rfl).symm.trans hi
    exact ⟨h.up.step hup, fun i hi => hkeep i (.inl hi) (h.looping i hi),
      fun hl => ⟨hkeep 0 (.inr ⟨rfl, hl⟩) (h.left hl).1, (h.left hl).2⟩, h.main, h.fault⟩
  | interrupt _ hidle => exact h.goto (.inr ⟨0, rfl, hidle⟩) _ rfl rfl rfl rfl
  | call i val hidle => exact h.goto (.inr ⟨i, rfl, hidle⟩) _ rfl rfl rfl rfl
  | leave _ hidle => exact ⟨h.up, h.looping, fun _ => ⟨hidle.1, hidle.2.1⟩, fun _ => rfl, h.fault⟩
  | stray => exact ⟨h.up, h.looping, h.left, h.main, h.fault⟩
  | join hleft _ _ =>
    refine ⟨h.up, fun i hi => h.looping i ?_, fun hl => ⟨(h.left hl).1, ?_⟩, fun _ => hleft,
      h.fault⟩
    · simpa [State.goto] using hi
    · simpa [State.goto] using (h.left hl).2
  | tested w val hp => exact h.goto (.inl (by simp [hp])) _ rfl rfl rfl rfl
  | late w val hp => exact h.goto (.inl (by simp [hp])) _ rfl rfl rfl rfl
  | first w val hp => exact h.goto (.inl (by simp [hp])) _ rfl rfl rfl rfl
  | stops w val hp => exact h.goto (.inl (by simp [hp])) _ rfl rfl rfl rfl
  | faults w val hp hnone => exact absurd hnone (h.ready (w := w) (by simp [hp])).2
  | exits w val hp => exact h.goto (.inl (by simp [hp])) _ rfl rfl rfl rfl

end Busy

/-- The thread has won the exchange, and has not called `stop` yet. -/
def stopper : Stage → Bool
  | .stopping _ => true
  | .away | .testing _ | .swapping _ | .exiting _ | .exited => false

theorem stopper_back (val : Option Int) : stopper (back val) = false := by
  cases val <;> rfl

/-- One thread wins the exchange, and calls `stop` once. -/
structure Token (s : CpuExit.State) : Prop where
  open_ : s.shutdown = false → s.stops = 0 ∧ ∀ w, stopper (s.stage w) = false
  taken : s.shutdown = true → (s.stops = 1 ∧ ∀ w, stopper (s.stage w) = false) ∨
    (s.stops = 0 ∧ ∃ w, stopper (s.stage w) = true ∧ ∀ w', w' ≠ w → stopper (s.stage w') = false)
  left : s.left = true → s.stops = 1

namespace Token

theorem init : Token .init :=
  ⟨fun _ => ⟨rfl, fun _ => rfl⟩, fun h => (by cases h), fun h => (by cases h)⟩

/-- A thread goes from one place to another where it is not about to call `stop`. -/
theorem goto (h : Token s) {p : Stage} (hw : stopper (s.stage w) = false) (hp : stopper p = false)
    (hstage : t.stage = Function.update s.stage w p) (hshutdown : t.shutdown = s.shutdown)
    (hstops : t.stops = s.stops) (hleft : t.left = s.left) : Token t := by
  have hsame : ∀ w', stopper (t.stage w') = stopper (s.stage w') := by
    intro w'
    rw [hstage]
    by_cases he : w' = w
    · rw [he, Function.update_self, hw, hp]
    · rw [Function.update_of_ne he]
  refine ⟨?_, ?_, ?_⟩
  · rw [hshutdown, hstops]
    exact fun hs => ⟨(h.open_ hs).1, fun w' => (hsame w').trans ((h.open_ hs).2 w')⟩
  · simp only [hshutdown, hstops, hsame]
    exact h.taken
  · rw [hleft, hstops]
    exact h.left

theorem keep (h : Token s) (hstage : t.stage = s.stage) (hshutdown : t.shutdown = s.shutdown)
    (hstops : t.stops = s.stops) (hleft : t.left = s.left) : Token t := by
  refine ⟨?_, ?_, ?_⟩
  · rw [hshutdown, hstops, hstage]
    exact h.open_
  · rw [hshutdown, hstops, hstage]
    exact h.taken
  · rw [hleft, hstops]
    exact h.left

theorem first (h : Token s) (hshutdown : s.shutdown = false) (val : Option Int) :
    Token { s.goto w (.stopping val) with shutdown := true } := by
  obtain ⟨hstops, hnone⟩ := h.open_ hshutdown
  refine ⟨fun hs => (by cases hs), fun _ => .inr ⟨hstops, w, ?_, fun w' he => ?_⟩, h.left⟩
  · change stopper (Function.update s.stage w (.stopping val) w) = true
    rw [Function.update_self]
    rfl
  · change stopper (Function.update s.stage w (.stopping val) w') = false
    rw [Function.update_of_ne he]
    exact hnone w'

theorem stops (h : Token s) (hw : stopper (s.stage w) = true) (val : Option Int) :
    Token { s.goto w (back val) with stops := s.stops + 1 } := by
  have hshutdown : s.shutdown = true := by
    by_contra hs
    cases hw.symm.trans ((h.open_ (Bool.eq_false_iff.mpr hs)).2 w)
  obtain ⟨-, hnone⟩ | ⟨hstops, w', hw', hother⟩ := h.taken hshutdown
  · cases hw.symm.trans (hnone w)
  · obtain rfl : w = w' := by
      by_contra hne
      cases hw.symm.trans (hother w hne)
    refine ⟨fun hs => ?_, fun _ => .inl ⟨congrArg (· + 1) hstops, fun v => ?_⟩, fun _ => ?_⟩
    · cases hshutdown.symm.trans hs
    · change stopper (Function.update s.stage w (back val) v) = false
      by_cases hv : v = w
      · rw [hv, Function.update_self]
        exact stopper_back val
      · rw [Function.update_of_ne hv]
        exact hother v hv
    · exact congrArg (· + 1) hstops

theorem stops_le (h : Token s) : s.stops ≤ 1 := by
  cases hs : s.shutdown with
  | false => exact (h.open_ hs).1.trans_le (Nat.zero_le 1)
  | true =>
    obtain ⟨hone, -⟩ | ⟨hzero, -⟩ := h.taken hs
    · exact hone.le
    · exact hzero.trans_le (Nat.zero_le 1)

theorem step (h : Token s) (hbusy : Busy n s) (hs : CpuExit.step n s e = some t) : Token t := by
  cases step_cases hs with
  | up e up => exact h.keep rfl rfl rfl rfl
  | interrupt _ hidle => exact h.goto (by rw [hidle.2.1]; rfl) rfl rfl rfl rfl rfl
  | call i val hidle => exact h.goto (by rw [hidle.2.1]; rfl) rfl rfl rfl rfl rfl
  | leave hstops => exact ⟨h.open_, h.taken, fun _ => le_antisymm h.stops_le hstops⟩
  | stray => exact h.keep rfl rfl rfl rfl
  | join _ _ haway => exact h.goto (by rw [haway]; rfl) rfl rfl rfl rfl rfl
  | tested w val hp =>
    refine h.goto (by rw [hp]; rfl) ?_ rfl rfl rfl rfl
    rw [if_pos (hbusy.ready (w := w) (by simp [hp])).1]
    rfl
  | late w val hp => exact h.goto (by rw [hp]; rfl) (stopper_back val) rfl rfl rfl rfl
  | first w val _ hshutdown => exact h.first hshutdown val
  | stops w val hp => exact h.stops (by rw [hp]; rfl) val
  | faults w val hp => exact h.keep rfl rfl rfl rfl
  | exits w val hp => exact h.goto (by rw [hp]; rfl) rfl rfl rfl rfl rfl

end Token

/-- What a thread is to exit with. -/
def value : Stage → Option Int
  | .testing val | .swapping val | .stopping val => val
  | .exiting val => some val
  | .away | .exited => none

theorem value_back (val : Option Int) : value (back val) = val := by
  cases val <;> rfl

theorem back_ne_exited (val : Option Int) : back val ≠ .exited := by
  cases val <;> simp [back]

/-- A thread that calls `Cpu::Exit` does so once, since it does not come back, and `exit` is called
with its value. -/
structure Calls (s : CpuExit.State) : Prop where
  pending : ∀ w val, value (s.stage w) = some val → (w, val) ∈ s.asked
  made : ∀ p ∈ s.exits, p ∈ s.asked ∧ s.stage p.1 = .exited
  once : (s.exits.map Prod.fst).Nodup
  exited : ∀ w, s.stage w = .exited → ∃ val, (w, val) ∈ s.exits
  started : ∀ w val, (w, val) ∈ s.asked → value (s.stage w) = some val ∨ s.stage w = .exited
  main : ∀ val, (.main, val) ∈ s.asked → val = 0
  mainAsked : s.stage .main ≠ .away → (.main, 0) ∈ s.asked
  cause : (s.shutdown = true ∨ ∃ w, s.stage w ≠ .away) →
    s.interrupted = true ∨ ∃ i val, (.cpu i, val) ∈ s.asked

namespace Calls

theorem init : Calls .init where
  pending _ _ h := by cases h
  made _ h := absurd h List.not_mem_nil
  once := List.nodup_nil
  exited _ h := by cases h
  started _ _ h := absurd h List.not_mem_nil
  main _ h := absurd h List.not_mem_nil
  mainAsked h := absurd rfl h
  cause h := by
    obtain h | ⟨w, h⟩ := h
    · cases h
    · exact absurd rfl h

theorem keep (h : Calls s) (hstage : t.stage = s.stage) (hasked : t.asked = s.asked)
    (hexits : t.exits = s.exits) (hshutdown : t.shutdown = s.shutdown)
    (hinterrupted : t.interrupted = s.interrupted) : Calls t := by
  refine ⟨?_, ?_, ?_, ?_, ?_, ?_, ?_, ?_⟩
  all_goals
    simp only [hstage, hasked, hexits, hshutdown, hinterrupted]
  exacts [h.pending, h.made, h.once, h.exited, h.started, h.main, h.mainAsked, h.cause]

/-- A thread goes on in `Cpu::Shutdown`, with the same value. -/
theorem goto (h : Calls s) {p : Stage} (hw : s.stage w ≠ .away) (hexited : s.stage w ≠ .exited)
    (hvalue : value p = value (s.stage w)) (hp : p ≠ .exited) (hmain : w = .main → p ≠ .away)
    (hstage : t.stage = Function.update s.stage w p) (hasked : t.asked = s.asked)
    (hexits : t.exits = s.exits) (hinterrupted : t.interrupted = s.interrupted) : Calls t := by
  have hsame : ∀ w', value (t.stage w') = value (s.stage w') := by
    intro w'
    rw [hstage]
    by_cases he : w' = w
    · rw [he, Function.update_self, hvalue]
    · rw [Function.update_of_ne he]
  have hexit : ∀ w', t.stage w' = .exited ↔ s.stage w' = .exited := by
    intro w'
    rw [hstage]
    by_cases he : w' = w
    · rw [he, Function.update_self]
      exact iff_of_false hp hexited
    · rw [Function.update_of_ne he]
  refine ⟨?_, ?_, ?_, ?_, ?_, ?_, ?_, ?_⟩
  · simp only [hsame, hasked]
    exact h.pending
  · simp only [hexits, hasked, hexit]
    exact h.made
  · rw [hexits]
    exact h.once
  · simp only [hexit, hexits]
    exact h.exited
  · simp only [hsame, hexit, hasked]
    exact h.started
  · rw [hasked]
    exact h.main
  · intro hm
    rw [hasked]
    refine h.mainAsked fun haway => hm ?_
    rw [hstage, Function.update_of_ne, haway]
    rintro rfl
    exact hw haway
  · intro _
    rw [hinterrupted, hasked]
    exact h.cause (.inr ⟨w, hw⟩)

/-- `Cpu::Exit` is called, on a CPU or at the end of `main`. -/
theorem ask (h : Calls s) {val : Int} (hw : s.stage w = .away) (hmain : w = .main → val = 0)
    (hcause : s.interrupted = true ∨ ∃ i v, (Who.cpu i, v) ∈ s.asked ++ [(w, val)]) :
    Calls { s.goto w (.testing (some val)) with asked := s.asked ++ [(w, val)] } := by
  have hnew : (w, val) ∈ s.asked ++ [(w, val)] :=
    List.mem_append_right _ (List.mem_singleton_self _)
  refine ⟨?_, ?_, h.once, ?_, ?_, ?_, ?_, fun _ => hcause⟩
  · intro w' v hv
    change value (Function.update s.stage w (.testing (some val)) w') = some v at hv
    by_cases he : w' = w
    · subst he
      rw [Function.update_self] at hv
      obtain rfl := Option.some.inj hv
      exact hnew
    · rw [Function.update_of_ne he] at hv
      exact List.mem_append_left _ (h.pending w' v hv)
  · intro p hp
    obtain ⟨hasked, hexited⟩ := h.made p hp
    refine ⟨List.mem_append_left _ hasked, ?_⟩
    change Function.update s.stage w (.testing (some val)) p.1 = .exited
    rw [Function.update_of_ne, hexited]
    intro he
    cases (he ▸ hexited).symm.trans hw
  · intro w' hw'
    change Function.update s.stage w (.testing (some val)) w' = .exited at hw'
    by_cases he : w' = w
    · rw [he, Function.update_self] at hw'
      cases hw'
    · rw [Function.update_of_ne he] at hw'
      exact h.exited w' hw'
  · intro w' v hv
    change value (Function.update s.stage w (.testing (some val)) w') = some v ∨
      Function.update s.stage w (.testing (some val)) w' = .exited
    obtain hold | hlast := List.mem_append.mp hv
    · rw [Function.update_of_ne]
      · exact h.started w' v hold
      · rintro rfl
        obtain hs | hs := h.started w' v hold
        all_goals
          rw [hw] at hs
          cases hs
    · obtain ⟨rfl, rfl⟩ := Prod.mk.inj (List.mem_singleton.mp hlast)
      rw [Function.update_self]
      exact .inl rfl
  · intro v hv
    obtain hv | hv := List.mem_append.mp hv
    · exact h.main v hv
    · obtain ⟨hm, rfl⟩ := Prod.mk.inj (List.mem_singleton.mp hv)
      exact hmain hm.symm
  · intro hm
    change Function.update s.stage w (.testing (some val)) .main ≠ .away at hm
    by_cases he : Who.main = w
    · subst he
      obtain rfl := hmain rfl
      exact hnew
    · rw [Function.update_of_ne he] at hm
      exact List.mem_append_left _ (h.mainAsked hm)

theorem interrupt (h : Calls s) (hw : s.stage (.cpu 0) = .away) :
    Calls { s.goto (.cpu 0) (.testing none) with interrupted := true } := by
  have hother : ∀ w', value (Function.update s.stage (.cpu 0) (.testing none) w') =
      value (s.stage w') ∧ (Function.update s.stage (.cpu 0) (.testing none) w' = .exited ↔
        s.stage w' = .exited) := by
    intro w'
    by_cases he : w' = .cpu 0
    · rw [he, Function.update_self, hw]
      exact ⟨rfl, by simp⟩
    · rw [Function.update_of_ne he]
      exact ⟨rfl, Iff.rfl⟩
  refine ⟨fun w' val hv => ?_, fun p hp => ⟨(h.made p hp).1, ?_⟩, h.once, fun w' hw' => ?_,
    fun w' val hv => ?_, h.main, fun hm => ?_, fun _ => .inl rfl⟩
  · exact h.pending w' val ((hother w').1.symm.trans hv)
  · exact (hother p.1).2.mpr (h.made p hp).2
  · exact h.exited w' ((hother w').2.mp hw')
  · exact (h.started w' val hv).imp (hother w').1.trans (hother w').2.mpr
  · refine h.mainAsked fun haway => hm ?_
    change Function.update s.stage (.cpu 0) (.testing none) .main = .away
    rwa [Function.update_of_ne (by simp)]

theorem exits (h : Calls s) {val : Int} (hw : s.stage w = .exiting val) :
    Calls { s.goto w .exited with exits := s.exits ++ [(w, val)] } := by
  have hasked : (w, val) ∈ s.asked := h.pending w val (by rw [hw]; rfl)
  refine ⟨?_, ?_, ?_, ?_, ?_, h.main, ?_, fun _ => h.cause (.inr ⟨w, by simp [hw]⟩)⟩
  · intro w' v hv
    change value (Function.update s.stage w .exited w') = some v at hv
    by_cases he : w' = w
    · rw [he, Function.update_self] at hv
      cases hv
    · rw [Function.update_of_ne he] at hv
      exact h.pending w' v hv
  · intro p hp
    change p ∈ s.asked ∧ Function.update s.stage w .exited p.1 = .exited
    obtain hp | hp := List.mem_append.mp hp
    · obtain ⟨hp, hexited⟩ := h.made p hp
      refine ⟨hp, ?_⟩
      by_cases he : p.1 = w
      · rw [he, Function.update_self]
      · rw [Function.update_of_ne he, hexited]
    · rw [List.mem_singleton.mp hp, Function.update_self]
      exact ⟨hasked, rfl⟩
  · rw [List.map_append, List.nodup_append]
    refine ⟨h.once, List.nodup_singleton w, fun a ha b hb => ?_⟩
    rintro rfl
    obtain ⟨p, hp, rfl⟩ := List.mem_map.mp ha
    have he : p.1 = w := List.mem_singleton.mp hb
    have hexited := (h.made p hp).2
    rw [he, hw] at hexited
    cases hexited
  · intro w' hw'
    change Function.update s.stage w .exited w' = .exited at hw'
    by_cases he : w' = w
    · exact ⟨val, List.mem_append_right _ (by rw [he]; exact List.mem_singleton_self _)⟩
    · rw [Function.update_of_ne he] at hw'
      obtain ⟨v, hv⟩ := h.exited w' hw'
      exact ⟨v, List.mem_append_left _ hv⟩
  · intro w' v hv
    change value (Function.update s.stage w .exited w') = some v ∨
      Function.update s.stage w .exited w' = .exited
    by_cases he : w' = w
    · rw [he, Function.update_self]
      exact .inr rfl
    · rw [Function.update_of_ne he]
      exact h.started w' v hv
  · intro hm
    change Function.update s.stage w .exited .main ≠ .away at hm
    by_cases he : Who.main = w
    · exact h.mainAsked (by rw [he, hw]; simp)
    · rw [Function.update_of_ne he] at hm
      exact h.mainAsked hm

/-- `main` has a value to exit with, so that it does not come back. -/
theorem main_back (h : Calls s) {val : Option Int} (hw : s.stage w ≠ .away)
    (hvalue : value (s.stage w) = val) (hexited : s.stage w ≠ .exited) (hm : w = .main) :
    back val ≠ .away := by
  subst hm
  obtain hv | hv := h.started .main 0 (h.mainAsked hw)
  · rw [← hvalue, hv]
    simp [back]
  · exact absurd hv hexited

theorem step (h : Calls s) (hbusy : Busy n s) (htoken : Token s)
    (hs : CpuExit.step n s e = some t) : Calls t := by
  cases step_cases hs with
  | up e up => exact h.keep rfl rfl rfl rfl rfl
  | leave => exact h.keep rfl rfl rfl rfl rfl
  | stray => exact h.keep rfl rfl rfl rfl rfl
  | faults => exact h.keep rfl rfl rfl rfl rfl
  | interrupt _ hidle => exact h.interrupt hidle.2.1
  | call i val hidle =>
    exact h.ask hidle.2.1 (fun hm => (by cases hm))
      (.inr ⟨i, val, List.mem_append_right _ (by simp)⟩)
  | join hleft _ haway =>
    refine h.ask haway (fun _ => rfl) ?_
    have hshutdown : s.shutdown = true := by
      by_contra hopen
      have hzero := (htoken.open_ (Bool.eq_false_iff.mpr hopen)).1
      rw [htoken.left hleft] at hzero
      cases hzero
    refine (h.cause (.inl hshutdown)).imp id ?_
    rintro ⟨i, val, hi⟩
    exact ⟨i, val, List.mem_append_left _ hi⟩
  | tested w val hp =>
    rw [if_pos (hbusy.ready (w := w) (by simp [hp])).1]
    exact h.goto (by simp [hp]) (by simp [hp]) (by rw [hp]; rfl) (by simp) (by simp) rfl rfl rfl rfl
  | late w val hp =>
    exact h.goto (by simp [hp]) (by simp [hp]) (by rw [hp]; exact value_back val)
      (back_ne_exited val) (h.main_back (by simp [hp]) (by rw [hp]; rfl) (by simp [hp]))
      rfl rfl rfl rfl
  | first w val hp =>
    exact h.goto (by simp [hp]) (by simp [hp]) (by rw [hp]; rfl) (by simp) (by simp) rfl rfl rfl rfl
  | stops w val hp =>
    exact h.goto (by simp [hp]) (by simp [hp]) (by rw [hp]; exact value_back val)
      (back_ne_exited val) (h.main_back (by simp [hp]) (by rw [hp]; rfl) (by simp [hp]))
      rfl rfl rfl rfl
  | exits w val hp => exact h.exits hp

end Calls

/-- It is the stopped first CPU that goes astray, and the program ends there. -/
def Strays (s : CpuExit.State) : Prop := s.astray = true → 0 < s.stops ∧ s.left = false

theorem Strays.step (hs : CpuExit.step n s e = some t) : Strays t := by
  have hastray : s.astray = false := by
    obtain ⟨hgoes, -⟩ := Option.ite_none_left_eq_some.mp hs
    exact Bool.eq_false_iff.mpr fun ha => hgoes (.inr ha)
  cases step_cases hs with
  | stray hstops hidle => exact fun _ => ⟨hstops, hidle.2.2 rfl⟩
  | up | interrupt | call | leave | join | tested | late | first | stops | faults | exits =>
    intro ha
    cases hastray.symm.trans ha

structure Inv (n : Nat) (s : CpuExit.State) : Prop where
  busy : Busy n s
  token : Token s
  calls : Calls s
  strays : Strays s

theorem Inv.step (h : Inv n s) (hs : CpuExit.step n s e = some t) : Inv n t :=
  ⟨h.busy.step hs, h.token.step h.busy hs, h.calls.step h.busy h.token hs, Strays.step hs⟩

theorem inv_init : Inv n .init := ⟨Busy.init, Token.init, Calls.init, fun h => (by cases h)⟩

theorem inv_of_reaches {ok : CpuExit.State → CpuExit.Event → Prop}
    (h : Reaches (CpuExit.step n) ok .init s) : Inv n s :=
  h.invariant inv_init fun _ _ _ hi _ hs => hi.step hs

/-- The end of `AppMain` on one CPU. -/
def ended : List CpuExit.Event :=
  .up .early :: List.replicate 10 (.up (.thread 0)) ++ [.call 0 0]

theorem ended_returns : (run (guarded (CpuExit.step 1) Returns) .init ended).isSome := by
  decide +kernel

/-- It goes through `Cpu::Shutdown` to `exit`. -/
def exited : List CpuExit.Event := ended ++ List.replicate 4 (.move (.cpu 0))

theorem exited_runs : (run (CpuExit.step 1) .init exited).isSome := by decide +kernel

/-- The event loop of the first CPU is stopped at most once, through a `Cpu` that is there. Every
call of `exit` has the value of a call of `Cpu::Exit` on the same thread, which makes no other one.
`main` calls `Cpu::Exit(0)` only behind the end of that CPU's thread, and a handler on a CPU has
stopped the loop. Where the thread goes astray, `main` has not called it. -/
structure Sound (s : CpuExit.State) : Prop where
  stops : s.stops ≤ 1
  fault : s.fault = false
  asked : ∀ p ∈ s.exits, p ∈ s.asked
  once : (s.exits.map Prod.fst).Nodup
  main : ∀ val, (.main, val) ∈ s.asked → val = 0 ∧ s.left = true ∧ s.stops = 1 ∧
    (s.interrupted = true ∨ ∃ i val, (.cpu i, val) ∈ s.asked)
  astray : s.astray = true → s.stops = 1 ∧ ∀ val, (.main, val) ∉ s.asked

theorem Calls.entered (h : Calls s) {val : Int} (hw : (w, val) ∈ s.asked) : s.stage w ≠ .away := by
  intro haway
  obtain hs | hs := h.started w val hw
  all_goals
    rw [haway] at hs
    cases hs

theorem exit_sound (h : Reachable (CpuExit.step n) .init s) : Sound s := by
  obtain ⟨hbusy, htoken, hcalls, hstrays⟩ := inv_of_reaches h
  refine ⟨htoken.stops_le, hbusy.fault, fun p hp => (hcalls.made p hp).1, hcalls.once, ?_, ?_⟩
  · intro val hval
    have hentered := hcalls.entered hval
    have hleft := hbusy.main hentered
    exact ⟨hcalls.main val hval, hleft, htoken.left hleft, hcalls.cause (.inr ⟨.main, hentered⟩)⟩
  · intro hastray
    obtain ⟨hstops, hleft⟩ := hstrays hastray
    refine ⟨le_antisymm htoken.stops_le hstops, fun val hval => ?_⟩
    cases hleft.symm.trans (hbusy.main (hcalls.entered hval))

theorem exit_sound_one : ∃ s : CpuExit.State, s.exits = [(.cpu 0, 0)] ∧ Sound s :=
  ⟨(run (CpuExit.step 1) .init exited).get exited_runs, by decide +kernel,
    exit_sound (reachable_of_run (Option.some_get exited_runs).symm)⟩

/-- On one CPU, either it calls `Cpu::Exit` and stays there, or it is interrupted and leaves its
loop, and `main` does. -/
theorem exits_one (h : Inv 1 s) : s.exits.length ≤ 1 := by
  obtain ⟨hbusy, -, hcalls, -⟩ := h
  have hfirst : ∀ p ∈ s.exits, p.1 = .main ∨ p.1 = .cpu 0 := by
    intro p hp
    cases hw : p.1 with
    | main => exact .inl rfl
    | cpu i =>
      have hexited := (hcalls.made p hp).2
      rw [hw] at hexited
      have hi := ((hbusy.looping i (by simp [hexited])).ready hbusy.up).1
      exact .inr (congrArg Who.cpu (Nat.lt_one_iff.mp hi))
  -- `main` exits behind the end of the loop, where the CPU cannot
  have hsame : ∀ p ∈ s.exits, ∀ q ∈ s.exits, p.1 = .main → q.1 = .cpu 0 → False := by
    intro p hp q hq hpm hqc
    have hpe := (hcalls.made p hp).2
    have hqe := (hcalls.made q hq).2
    rw [hpm] at hpe
    rw [hqc, (hbusy.left (hbusy.main (by simp [hpe]))).2] at hqe
    cases hqe
  have hnodup := hcalls.once
  cases hexits : s.exits with
  | nil => exact Nat.zero_le 1
  | cons p rest =>
    cases hrest : rest with
    | nil => exact Nat.le_refl 1
    | cons q rest' =>
      subst hrest
      rw [hexits] at hfirst hsame hnodup
      have hp : p ∈ p :: q :: rest' := List.mem_cons_self
      have hq : q ∈ p :: q :: rest' := List.mem_cons_of_mem p List.mem_cons_self
      have hne : p.1 ≠ q.1 := fun he =>
        (List.nodup_cons.mp hnodup).1 (he ▸ List.mem_cons_self)
      obtain hpw | hpw := hfirst p hp
      · obtain hqw | hqw := hfirst q hq
        · exact absurd (hpw.trans hqw.symm) hne
        · exact (hsame p hp q hq hpw hqw).elim
      · obtain hqw | hqw := hfirst q hq
        · exact (hsame q hq p hp hqw hpw).elim
        · exact absurd (hpw.trans hqw.symm) hne

/-- The bring-up runs as it does alone while no thread shuts down. -/
theorem reaches_up {u : CpuBringUp.State} (h : Reachable (CpuBringUp.step n) .init u) :
    Reaches (CpuExit.step n) Returns .init { CpuExit.State.init with up := u } := by
  induction h with
  | refl => exact .refl
  | @tail u v e _ _ hs ih =>
    have hreturns : Returns { CpuExit.State.init with up := u } (.up e) := by simp [Returns]
    refine ih.tail hreturns ?_
    have hfree : free { CpuExit.State.init with up := u } e := by
      cases e with
      | early => trivial
      | thread i => exact ⟨rfl, fun _ => rfl⟩
    change (if free { CpuExit.State.init with up := u } e then _ else _) = _
    rw [if_pos hfree]
    exact Option.map_eq_some_iff.mpr ⟨v, hs, rfl⟩

/-- `Cpu::Exit(1)` on the second CPU stops the loop of the first one, and `main` gets to `exit`
first. -/
def race : List CpuExit.Event :=
  [.call 1 1, .move (.cpu 1), .move (.cpu 1), .move (.cpu 1), .leave, .join, .move .main,
    .move .main, .move .main, .move (.cpu 1)]

theorem race_exits {u : CpuBringUp.State} {cpu : CpuBringUp.Cpu}
    (hpc : ∀ i < 2, u.pc i = .finished) (hearly : u.early = .returned) (hnum : 0 < u.numCpus)
    (hcpu : CpuBringUp.indexToCPU u 0 = some cpu) :
    ∃ t, run (guarded (CpuExit.step n) Returns) { CpuExit.State.init with up := u } race = some t ∧
      t.exits = [(.main, 0), (.cpu 1, 1)] := by
  simp [run, race, guarded, Returns, CpuExit.step, handle, Idle, Cpu.shutdown, State.goto,
    State.init, hpc, hearly, hnum, hcpu, Function.update, back]

/-- `exit` is called at most once in every run exactly when there is only one CPU, provided that the
end of `Cpu::run` is that of the thread. -/
theorem exit_once_iff (hn : 1 ≤ n) :
    (∀ s, Reaches (CpuExit.step n) Returns .init s → s.exits.length ≤ 1) ↔ n = 1 := by
  constructor
  · intro h
    by_contra hne
    obtain ⟨u, hu, hrest⟩ := CpuProgress.comes_to_rest (CpuBarriers.Inv.init (n := n))
    have hinv := CpuBarriers.Inv.of_reachable hu
    have hranks := CpuProgress.finished_at_rest hinv hrest
    have hpc : ∀ i < 2, u.pc i = .finished := by
      intro i hi
      have hrank := hranks i (by omega)
      rw [CpuBringUp.ranks] at hrank
      cases hp : u.pc i <;> rw [hp] at hrank <;> first | rfl | cases hrank
    obtain ⟨-, -, hnum, hcpu⟩ := InLoop.ready (.inr (hpc 0 (by omega))) hinv
    obtain ⟨cpu, hcpu⟩ := Option.ne_none_iff_exists'.mp hcpu
    have hearly := (CpuProgress.completed_at_rest hinv hn hrest).2
    obtain ⟨t, ht, hexits⟩ := race_exits hpc hearly hnum hcpu
    have hle := h t ((reaches_up hu).trans (reaches_of_run ht))
    rw [hexits] at hle
    exact absurd hle (by decide)
  · rintro rfl s hs
    exact exits_one (inv_of_reaches hs)

theorem exit_once_iff_two : 1 ≤ 2 ∧
    ((∀ s, Reaches (CpuExit.step 2) Returns .init s → s.exits.length ≤ 1) ↔ 2 = 1) :=
  ⟨by decide, exit_once_iff (by decide)⟩

/-- The handler for `SIGINT` does not return without `shutdown_` being set. -/
def Begun (s : CpuExit.State) : Prop :=
  s.interrupted = true → s.shutdown = true ∨
    ∃ val, s.stage (.cpu 0) = .testing val ∨ s.stage (.cpu 0) = .swapping val

namespace Begun

theorem keep (h : Begun s) (hstage : t.stage (.cpu 0) = s.stage (.cpu 0))
    (hshutdown : t.shutdown = s.shutdown) (hinterrupted : t.interrupted = s.interrupted) :
    Begun t := by
  rw [Begun, hinterrupted, hshutdown, hstage]
  exact h

/-- A thread goes on, and the first CPU does so with `shutdown_` set or before its exchange. -/
theorem goto (h : Begun s) {p : Stage} (hstage : t.stage = Function.update s.stage w p)
    (hshutdown : t.shutdown = s.shutdown) (hinterrupted : t.interrupted = s.interrupted)
    (hfirst : w = .cpu 0 → s.interrupted = true → s.shutdown = true ∨
      ∃ val, p = .testing val ∨ p = .swapping val) : Begun t := by
  by_cases hw : w = .cpu 0
  · subst hw
    rw [Begun, hinterrupted, hshutdown, hstage, Function.update_self]
    exact hfirst rfl
  · refine h.keep ?_ hshutdown hinterrupted
    rw [hstage, Function.update_of_ne (Ne.symm hw)]

/-- Behind its exchange, the first CPU has found `shutdown_` set or set it. -/
theorem shutdown (h : Begun s) (hinterrupted : s.interrupted = true)
    (htesting : ∀ val, s.stage (.cpu 0) ≠ .testing val)
    (hswapping : ∀ val, s.stage (.cpu 0) ≠ .swapping val) : s.shutdown = true := by
  obtain hs | ⟨val, hs | hs⟩ := h hinterrupted
  · exact hs
  · exact absurd hs (htesting val)
  · exact absurd hs (hswapping val)

theorem step (h : Begun s) (hbusy : Busy n s) (hs : CpuExit.step n s e = some t) : Begun t := by
  cases step_cases hs with
  | up e up => exact h.keep rfl rfl rfl
  | leave => exact h.keep rfl rfl rfl
  | stray => exact h.keep rfl rfl rfl
  | faults => exact h.keep rfl rfl rfl
  | interrupt _ hidle =>
    refine fun _ => .inr ⟨none, .inl ?_⟩
    change Function.update s.stage (.cpu 0) (.testing none) (.cpu 0) = .testing none
    rw [Function.update_self]
  | call i val hidle => exact h.goto rfl rfl rfl fun _ _ => .inr ⟨_, .inl rfl⟩
  | join hleft _ haway => exact h.goto rfl rfl rfl fun _ _ => .inr ⟨_, .inl rfl⟩
  | tested w val hp =>
    rw [if_pos (hbusy.ready (w := w) (by simp [hp])).1]
    exact h.goto rfl rfl rfl fun _ _ => .inr ⟨_, .inr rfl⟩
  | late w val hp hshutdown => exact h.goto rfl rfl rfl fun _ _ => .inl hshutdown
  | first w val hp => exact fun _ => .inl rfl
  | stops w val hp =>
    exact h.goto rfl rfl rfl fun hw hint =>
      .inl (h.shutdown hint (by simp [← hw, hp]) (by simp [← hw, hp]))
  | exits w val hp =>
    exact h.goto rfl rfl rfl fun hw hint =>
      .inl (h.shutdown hint (by simp [← hw, hp]) (by simp [← hw, hp]))

end Begun

/-- The steps other than a call from outside, where the end of `Cpu::run` is that of the thread. -/
def Own (s : CpuExit.State) (e : CpuExit.Event) : Prop :=
  Returns s e ∧ e ≠ .interrupt ∧ ∀ i val, e ≠ .call i val

def AtRest (n : Nat) (s : CpuExit.State) : Prop := ∀ e, Own s e → CpuExit.step n s e = none

theorem early_at_rest {u : CpuBringUp.State} (hrest : CpuBringUp.step n u .early = none)
    (hrunning : n ≤ u.running) : u.early = .returned := by
  simp only [CpuBringUp.step, CpuBringUp.Cpu.earlyInit] at hrest
  cases he : u.early with
  | creating i =>
    simp only [he] at hrest
    split at hrest <;> cases hrest
  | waiting => simp [he, hrunning] at hrest
  | returned => rfl

/-- At rest, every thread is back from `Cpu::Shutdown`, unless one is in `exit`. -/
theorem away_at_rest (h : Inv n s) (hastray : s.astray = false)
    (hrest : AtRest n s) (hexits : s.exits = []) (w : Who) :
    s.stage w = .away := by
  have hmove : Cpu.shutdown s w = none := by
    have hstuck := hrest (.move w) (by simp [Own, Returns])
    rwa [CpuExit.step, if_neg (by simp [h.busy.fault, hastray])] at hstuck
  unfold Cpu.shutdown at hmove
  cases hp : s.stage w with
  | away => rfl
  | exited =>
    obtain ⟨val, hval⟩ := h.calls.exited w hp
    rw [hexits] at hval
    cases hval
  | testing val | exiting val =>
    rw [hp] at hmove
    cases hmove
  | swapping val =>
    rw [hp] at hmove
    dsimp only at hmove
    split at hmove <;> cases hmove
  | stopping val =>
    rw [hp] at hmove
    dsimp only at hmove
    split at hmove <;> cases hmove

/-- A handler has called `Cpu::Shutdown` or `Cpu::Exit`. -/
def Called (s : CpuExit.State) : Prop := s.interrupted = true ∨ s.asked ≠ []

theorem Called.step (h : Called s) (hs : CpuExit.step n s e = some t) : Called t := by
  cases step_cases hs with
  | interrupt => exact .inl rfl
  | call | join => exact .inr (by simp)
  | up | leave | stray | tested | late | first | stops | faults | exits => exact h

/-- The program does not come to rest then before it calls `exit`. -/
theorem exits_at_rest (hn : 1 ≤ n) (h : Inv n s) (hastray : s.astray = false) (hbegun : Begun s)
    (hrest : AtRest n s) (hcalled : Called s) : s.exits ≠ [] := by
  intro hexits
  have haway := away_at_rest h hastray hrest hexits
  have hfault : ¬ (s.fault = true ∨ s.astray = true) := by simp [h.busy.fault, hastray]
  have hinterrupted : s.interrupted = true := by
    refine hcalled.resolve_right fun hne => ?_
    obtain ⟨⟨w, val⟩, hw⟩ := List.exists_mem_of_ne_nil _ hne
    exact h.calls.entered hw (haway w)
  have hshutdown := hbegun.shutdown hinterrupted (by simp [haway]) (by simp [haway])
  have hstops : s.stops = 1 := by
    obtain ⟨hone, -⟩ | ⟨-, w, hw, -⟩ := h.token.taken hshutdown
    · exact hone
    · rw [haway w] at hw
      cases hw
  have hup : ∀ e, free s e → CpuBringUp.step n s.up e = none := by
    intro e hfree
    have hstuck := hrest (.up e) (by simp [Own, Returns])
    rw [CpuExit.step, if_neg hfault, handle, if_pos hfree] at hstuck
    exact Option.map_eq_none_iff.mp hstuck
  cases hleft : s.left with
  | false =>
    have hall : CpuProgress.AtRest n s.up := by
      intro e
      cases e with
      | early => exact hup .early trivial
      | thread i => exact hup (.thread i) ⟨haway _, fun _ => hleft⟩
    have hrank := CpuProgress.finished_at_rest h.busy.up hall 0 hn
    have hidle : Idle s 0 := ⟨(inLoop_iff _ _).mpr (.inr hrank), haway _, fun _ => hleft⟩
    have hstuck := hrest .leave (by simp [Own, Returns])
    rw [CpuExit.step, if_neg hfault, handle, if_pos ⟨by omega, hidle⟩] at hstuck
    cases hstuck
  | true =>
    have hrunning := ((h.busy.left hleft).1.ready h.busy.up).2.1
    have hearly := early_at_rest (hup .early trivial) hrunning
    have hstuck := hrest .join (by simp [Own, Returns])
    rw [CpuExit.step, if_neg hfault, handle, if_pos ⟨hleft, hearly, haway .main⟩] at hstuck
    cases hstuck

/-- How far a thread has got in `Cpu::Shutdown`. `main` has not called it yet while it is away, and
a CPU is back from it. -/
def points : Who → Stage → Nat
  | .main, .away => 0
  | _, .testing _ => 1
  | _, .swapping _ => 2
  | _, .stopping _ => 3
  | _, .exiting _ => 4
  | _, .exited | .cpu _, .away => 5

theorem points_le (w : Who) (p : Stage) : points w p ≤ 5 := by
  cases w <;> cases p <;> simp [points]

theorem points_back {val : Option Int} (hmain : w = .main → back val ≠ .away) :
    3 < points w (back val) := by
  cases val with
  | some val => cases w <;> simp [back, points]
  | none =>
    cases w with
    | main => exact absurd rfl (hmain rfl)
    | cpu i => simp [back, points]

/-- How far the program has got, between two calls from outside. -/
def progress (n : Nat) (s : CpuExit.State) : Nat :=
  CpuProgress.progress n s.up + ∑ i ∈ range n, points (.cpu i) (s.stage (.cpu i)) +
    points .main (s.stage .main) + s.left.toNat

theorem progress_le (h : CpuBarriers.Inv n s.up) :
    progress n s ≤ n + 2 + n * 15 + n * 5 + 5 + 1 := by
  have hsum := sum_le_card_nsmul (range n) (fun i => points (.cpu i) (s.stage (.cpu i))) 5
    fun i _ => points_le _ _
  rw [card_range, Nat.nsmul_eq_mul] at hsum
  exact Nat.add_le_add (Nat.add_le_add (Nat.add_le_add (CpuProgress.progress_le h) hsum)
    (points_le _ _)) (Bool.toNat_le _)

/-- A thread that goes on in `Cpu::Shutdown` raises the sum. -/
theorem progress_goto {p : Stage} (hlt : points w (s.stage w) < points w p)
    (hw : ∀ i, w = .cpu i → i < n) (htup : t.up = s.up)
    (hstage : t.stage = Function.update s.stage w p) (hleft : t.left = s.left) :
    progress n s < progress n t := by
  rw [progress, progress, htup, hleft, hstage]
  refine Nat.add_lt_add_right ?_ _
  cases w with
  | main =>
    have hsame : ∀ i, Function.update s.stage .main p (.cpu i) = s.stage (.cpu i) :=
      fun i => Function.update_of_ne (by simp) _ _
    simp only [hsame, Function.update_self]
    exact Nat.add_lt_add_left hlt _
  | cpu i =>
    rw [Function.update_of_ne (by simp)]
    refine Nat.add_lt_add_right (Nat.add_lt_add_left ?_ _) _
    refine sum_lt_sum (fun j _ => ?_) ⟨i, mem_range.mpr (hw i rfl), ?_⟩
    · by_cases hj : Who.cpu j = .cpu i
      · obtain rfl := Who.cpu.inj hj
        rw [Function.update_self]
        exact hlt.le
      · rw [Function.update_of_ne hj]
    · rw [Function.update_self]
      exact hlt

theorem Busy.lt (h : Busy n s) (hw : s.stage w ≠ .away) : ∀ i, w = .cpu i → i < n := by
  rintro i rfl
  exact ((h.looping i hw).ready h.up).1

theorem progress_lt (h : Inv n s) (hown : Own s e) (hs : CpuExit.step n s e = some t) :
    progress n s < progress n t := by
  obtain ⟨hbusy, htoken, hcalls, -⟩ := h
  cases step_cases hs with
  | up e up _ hup =>
    have hlt := CpuProgress.progress_lt hbusy.up hup
    simp only [progress]
    omega
  | interrupt => exact absurd rfl hown.2.1
  | call i val => exact absurd rfl (hown.2.2 i val)
  | stray => exact absurd rfl hown.1
  | leave _ hidle =>
    simp only [progress, hidle.2.2 rfl]
    exact Nat.lt_succ_self _
  | join _ _ haway =>
    exact progress_goto (by simp [haway, points]) (fun i hi => (by cases hi)) rfl rfl rfl
  | tested w val hp =>
    have hw : s.stage w ≠ .away := by simp [hp]
    rw [if_pos (hbusy.ready hw).1]
    exact progress_goto (by cases w <;> simp [hp, points]) (hbusy.lt hw) rfl rfl rfl
  | late w val hp =>
    have hw : s.stage w ≠ .away := by simp [hp]
    have hvalue : value (s.stage w) = val := by
      rw [hp]
      rfl
    have hback := points_back (hcalls.main_back hw hvalue (by simp [hp]))
    refine progress_goto (hback.trans' ?_) (hbusy.lt hw) rfl rfl rfl
    cases w <;> simp [hp, points]
  | first w val hp =>
    exact progress_goto (by cases w <;> simp [hp, points]) (hbusy.lt (by simp [hp])) rfl rfl rfl
  | stops w val hp =>
    have hw : s.stage w ≠ .away := by simp [hp]
    have hvalue : value (s.stage w) = val := by
      rw [hp]
      rfl
    have hback := points_back (hcalls.main_back hw hvalue (by simp [hp]))
    refine progress_goto (hback.trans_le' ?_) (hbusy.lt hw) rfl rfl rfl
    cases w <;> simp [hp, points]
  | faults w val hp hnone => exact absurd hnone (hbusy.ready (w := w) (by simp [hp])).2
  | exits w val hp =>
    exact progress_goto (by cases w <;> simp [hp, points]) (hbusy.lt (by simp [hp])) rfl rfl rfl

/-- No step but the one astray goes astray. -/
theorem astray_of_returns (hastray : s.astray = false) (hreturns : Returns s e)
    (hs : CpuExit.step n s e = some t) : t.astray = false := by
  cases step_cases hs with
  | stray => exact absurd rfl hreturns
  | up | interrupt | call | leave | join | tested | late | first | stops | faults | exits =>
    exact hastray

/-- Once a handler has called `Cpu::Shutdown` or `Cpu::Exit`, the program comes to rest, and has
called `exit` wherever it does, provided that the end of `Cpu::run` is that of the thread. -/
theorem exit_reached (hn : 1 ≤ n) (h : Reaches (CpuExit.step n) Returns .init s)
    (hcalled : Called s) :
    (∃ t, Reaches (CpuExit.step n) Own s t ∧ AtRest n t) ∧
    ∀ t, Reaches (CpuExit.step n) Own s t → AtRest n t → t.exits ≠ [] := by
  have hstart : Inv n s ∧ s.astray = false ∧ Begun s := by
    refine h.invariant (I := fun s => Inv n s ∧ s.astray = false ∧ Begun s)
      ⟨inv_init, rfl, fun h => (by cases h)⟩ ?_
    rintro s e t ⟨hinv, hastray, hbegun⟩ hreturns hs
    exact ⟨hinv.step hs, astray_of_returns hastray hreturns hs, hbegun.step hinv.busy hs⟩
  constructor
  · have hstep : ∀ s e t, Inv n s → Own s e → CpuExit.step n s e = some t →
        Inv n t ∧ (t = s ∨ progress n s < progress n t) :=
      fun _ _ _ hinv hown hs => ⟨hinv.step hs, .inr (progress_lt hinv hown hs)⟩
    obtain ⟨t, ht, hinv, hrest⟩ := exists_at_rest (progress n) hstart.1
      (fun _ hinv => progress_le hinv.busy.up) hstep
    refine ⟨t, ht, fun e hown => ?_⟩
    by_contra hne
    obtain ⟨u, hu⟩ := Option.ne_none_iff_exists'.mp hne
    have hlt := progress_lt hinv hown hu
    rw [hrest e u hown hu] at hlt
    exact lt_irrefl _ hlt
  · intro t ht hrest
    obtain ⟨hinv, hastray, hbegun, hcalled⟩ :
        Inv n t ∧ t.astray = false ∧ Begun t ∧ Called t := by
      refine ht.invariant (I := fun s => Inv n s ∧ s.astray = false ∧ Begun s ∧ Called s)
        ⟨hstart.1, hstart.2.1, hstart.2.2, hcalled⟩ ?_
      rintro s e t ⟨hinv, hastray, hbegun, hcalled⟩ hown hs
      exact ⟨hinv.step hs, astray_of_returns hastray hown.1 hs, hbegun.step hinv.busy hs,
        hcalled.step hs⟩
    exact exits_at_rest hn hinv hastray hbegun hrest hcalled

theorem exit_reached_one : ∃ s, Called s ∧
    (∃ t, Reaches (CpuExit.step 1) Own s t ∧ AtRest 1 t) ∧
    ∀ t, Reaches (CpuExit.step 1) Own s t → AtRest 1 t → t.exits ≠ [] := by
  have hreach := reaches_get ended_returns
  have hcalled : Called ((run (guarded (CpuExit.step 1) Returns) .init ended).get ended_returns) :=
    .inr (by decide +kernel)
  exact ⟨_, hcalled, exit_reached (by decide) hreach hcalled⟩

end EbbrtContrib.CpuExitOnce
