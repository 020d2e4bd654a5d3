import Mathlib.Algebra.Order.BigOperators.Group.Finset
import Mathlib.Tactic.SplitIfs
import EbbrtContrib.CpuBringUp
import EbbrtContrib.CyclicBarrier

namespace EbbrtContrib.CpuBarriers

open CpuBringUp CyclicBarrier Runs

variable {n : Nat} {s t : State} {i : Nat}

/-- What holds in every state of the bring-up of `n` CPUs. -/
structure BringUp (n : Nat) (s : State) : Prop where
  mainOnce : s.mains = [] ∨ s.mains = [0]
  complete : s.mains ≠ [] → s.numCpus = n ∧ ∀ i < n, s.cpus i = some ⟨i, some i⟩
  byIndex : s.mains ≠ [] → ∀ i < Cpu.count s,
    Cpu.getByIndex s i = some i ∧ indexToCPU s i = some ⟨i, some i⟩
  inBounds : ∀ i, s.cpus i ≠ none → i < kMaxCpus
  spawned : s.early = .returned → ∀ i < n, rank .waitRunning ≤ ranks s i

/-- The threads that have been created. -/
def started (n : Nat) (s : State) : Nat :=
  match s.early with
  | .creating i => i
  | .waiting | .returned => n

/-- Each counter counts the threads past its increment, and holds back those before its loop. -/
structure Counted (n : Nat) (s : State) : Prop where
  numCpus : s.numCpus = tally (ranks s) n 4
  created : s.created = tally (ranks s) n 6
  running : s.running = tally (ranks s) n 10
  inited : s.inited = tally (ranks s) n 13
  createdGate : Barred (ranks s) n 6 7
  runningGate : Gate (ranks s) n 10
  initedGate : Gate (ranks s) n 13

/-- What is known of a state from how far its threads are. -/
structure Steady (n : Nat) (s : State) : Prop where
  counted : Counted n s
  initLock : ∀ i, s.initLock = some i ↔ 2 ≤ ranks s i ∧ ranks s i ≤ 6
  cpus : ∀ i, s.cpus i = if ranks s i < 3 then none
    else some ⟨i, if ranks s i < 5 then none else some i⟩
  tls : ∀ i, s.tls i = if ranks s i < 5 then none else some i
  events : ∀ i, s.events i = decide (9 ≤ ranks s i ∧ ranks s i ≤ 11)
  mains : s.mains = if ranks s 0 = 15 then [0] else []

structure Inv (n : Nat) (s : State) : Prop extends Steady n s where
  started_le : started n s ≤ n
  unborn : ∀ i, started n s ≤ i → ranks s i = 0
  born : ∀ i < started n s, 1 ≤ ranks s i
  returned : s.early = .returned → tally (ranks s) n 10 = n

theorem rank_le (p : Pc) : rank p ≤ 15 := by
  cases p <;> decide

theorem Counted.advance (h : Counted n s) (hi : i < n) (ha : Advance n s i t) : Counted n t := by
  have hcount : ∀ r, tally (ranks t) n (r + 1) =
      tally (ranks s) n (r + 1) + if ranks s i = r then 1 else 0 := by
    intro r
    rw [tally_advance hi ha.rank_eq ha.other]
    congr 1
    exact if_congr (by omega) rfl rfl
  constructor
  · rw [ha.numCpus, hcount, h.numCpus]
  · rw [ha.created, hcount, h.created]
  · rw [ha.running, hcount, h.running]
  · rw [ha.inited, hcount, h.inited]
  · refine h.createdGate.advance hi ha.rank_eq ha.other fun hr => ?_
    have hle := ha.allCreated hr
    rw [h.created] at hle
    exact le_antisymm tally_le hle
  · refine h.runningGate.advance hi ha.rank_eq ha.other fun hr => ?_
    have hle := ha.allRunning hr
    rw [h.running] at hle
    exact le_antisymm tally_le hle
  · refine h.initedGate.advance hi ha.rank_eq ha.other fun hr => ?_
    have hle := ha.allInited hr
    rw [h.inited] at hle
    exact le_antisymm tally_le hle

namespace Steady

theorem mine_eq (h : Steady n s) (hi : 5 ≤ ranks s i) : s.mine i = some i := by
  rw [State.mine, h.tls, if_neg (by omega), Option.bind_some, h.cpus, if_neg (by omega)]
  rfl

/-- The lock is held from its acquisition to its release. -/
theorem initLock_advance (h : Steady n s) (ha : Advance n s i t) (j : Nat) :
    t.initLock = some j ↔ 2 ≤ ranks t j ∧ ranks t j ≤ 6 := by
  have hlock := h.initLock j
  have hown := h.initLock i
  rw [ha.initLock]
  by_cases hji : j = i
  · subst hji
    rw [ha.rank_eq]
    split_ifs with h1 h6
    · simp [h1]
    · simp [h6]
    · rw [hlock]
      omega
  · rw [ha.other j hji]
    split_ifs with h1 h6
    · rw [ha.free h1] at hlock
      constructor
      · rintro ⟨⟩
        exact absurd rfl hji
      · intro hj
        cases hlock.mpr hj
    · rw [hown.mpr (by omega)] at hlock
      constructor
      · intro hj
        cases hj
      · intro hj
        exact absurd (Option.some.inj (hlock.mpr hj)).symm hji
    · exact hlock

theorem cpus_advance (h : Steady n s) (ha : Advance n s i t) (j : Nat) :
    t.cpus j = if ranks t j < 3 then none
      else some ⟨j, if ranks t j < 5 then none else some j⟩ := by
  by_cases hji : j = i
  · subst hji
    rw [ha.cpus, ha.rank_eq, h.cpus]
    split_ifs <;> first | rfl | omega
  · rw [ha.cpus_other j hji, ha.other j hji, h.cpus]

theorem tls_advance (h : Steady n s) (ha : Advance n s i t) (j : Nat) :
    t.tls j = if ranks t j < 5 then none else some j := by
  rw [ha.tls, h.tls]
  by_cases hji : j = i
  · subst hji
    rw [ha.rank_eq]
    split_ifs <;> first | rfl | omega
  · rw [ha.other j hji, if_neg (fun hc => hji hc.1)]

theorem events_advance (h : Steady n s) (ha : Advance n s i t) (j : Nat) :
    t.events j = decide (9 ≤ ranks t j ∧ ranks t j ≤ 11) := by
  rw [ha.events, h.events]
  by_cases hji : j = i
  · subst hji
    rw [ha.rank_eq]
    split_ifs with h8 h11
    · rw [h8.2]
      rfl
    · rw [h11.2]
      rfl
    · exact decide_eq_decide.mpr (by omega)
  · rw [ha.other j hji, if_neg (fun hc => hji hc.1), if_neg (fun hc => hji hc.1)]

/-- Only thread 0 sees itself as the `Cpu` of index 0. -/
theorem mains_advance (h : Steady n s) (ha : Advance n s i t) :
    t.mains = if ranks t 0 = 15 then [0] else [] := by
  rw [ha.mains]
  have hmains := h.mains
  by_cases hz : i = 0
  · subst hz
    have hle := rank_le (t.pc 0)
    change ranks t 0 ≤ 15 at hle
    have hrank := ha.rank_eq
    rw [if_neg (by omega)] at hmains
    rw [hrank]
    split_ifs with hmain h15 h15
    · rw [hmains, List.nil_append]
    · exact absurd (congrArg (· + 1) hmain.1) h15
    · exact absurd ⟨by omega, h.mine_eq (by omega)⟩ hmain
    · exact hmains
  · rw [ha.other 0 (fun h0 => hz h0.symm), if_neg, hmains]
    rintro ⟨h14, hmine⟩
    rw [h.mine_eq (by omega)] at hmine
    exact hz (Option.some.inj hmine)

theorem advance (h : Steady n s) (hi : i < n) (ha : Advance n s i t) : Steady n t :=
  ⟨h.counted.advance hi ha, h.initLock_advance ha, h.cpus_advance ha, h.tls_advance ha,
    h.events_advance ha, h.mains_advance ha⟩

end Steady

namespace Inv

theorem init : Inv n .init := by
  have hzero : ∀ i, ranks State.init i = 0 := fun _ => rfl
  refine ⟨⟨⟨?_, ?_, ?_, ?_, ?_, gate_of_zero hzero, gate_of_zero hzero⟩, fun i => ?_, fun _ => rfl,
    fun _ => rfl, fun _ => rfl, rfl⟩, Nat.zero_le n, fun i _ => hzero i,
    fun i hi => absurd hi (Nat.not_lt_zero i), fun h => ?_⟩
  · exact (tally_of_zero hzero).symm
  · exact (tally_of_zero hzero).symm
  · exact (tally_of_zero hzero).symm
  · exact (tally_of_zero hzero).symm
  · intro i hi
    rw [hzero i] at hi
    exact absurd hi (Nat.not_lt_zero 7)
  · rw [hzero i]
    exact iff_of_false (fun h => by cases h) (by omega)
  · cases h

theorem lt_of_born (h : Inv n s) (hi : 1 ≤ ranks s i) : i < n := by
  by_contra hn
  have hle := h.started_le
  have hz := h.unborn i (by omega)
  omega

theorem moved (h : Inv n s) (hm : Moved n s i t) : Inv n t := by
  have hi := h.lt_of_born hm.born
  have hstarted : started n t = started n s := by rw [started, started, hm.early]
  refine ⟨h.toSteady.advance hi hm.toAdvance, hstarted.trans_le h.started_le, ?_, ?_, ?_⟩
  · intro j hj
    rw [hstarted] at hj
    have hz := h.unborn j hj
    rw [hm.other j (by rintro rfl; have := hm.born; omega), hz]
  · intro j hj
    rw [hstarted] at hj
    have hb := h.born j hj
    by_cases hji : j = i
    · rw [hji, hm.rank_eq]
      exact Nat.le_add_left 1 _
    · rwa [hm.other j hji]
  · intro hret
    rw [hm.early] at hret
    exact tally_full_advance (h.returned hret) hi hm.rank_eq hm.other

/-- `EarlyInit` creates the next thread. -/
theorem creates (h : Inv n s) (he : s.early = .creating i) (hi : i < n) :
    Inv n { s.goto i .locking with early := .creating (i + 1) } := by
  have hstarted : started n s = i := by rw [started, he]
  have hzero : ranks s i = 0 := h.unborn i hstarted.le
  have ha := advance_of_create (n := n) (pc_of_rank_zero hzero)
  refine ⟨h.toSteady.advance hi ha, hi, ?_, ?_, fun hret => by cases hret⟩
  · intro j hj
    have hj' : i + 1 ≤ j := hj
    rw [ha.other j (by omega)]
    exact h.unborn j (by omega)
  · intro j hj
    have hj' : j < i + 1 := hj
    by_cases hji : j = i
    · rw [hji, ha.rank_eq]
      exact Nat.le_add_left 1 _
    · rw [ha.other j hji]
      exact h.born j (by omega)

/-- `EarlyInit` gets on after the last `pthread_create`. -/
theorem settled (h : Inv n s) (hn : started n s = n) {e : Early}
    (he : started n { s with early := e } = n)
    (hret : e = .returned → tally (ranks s) n 10 = n) : Inv n { s with early := e } := by
  have hc := h.counted
  have hsteady : Steady n { s with early := e } :=
    ⟨⟨hc.numCpus, hc.created, hc.running, hc.inited, hc.createdGate, hc.runningGate,
      hc.initedGate⟩, h.initLock, h.cpus, h.tls, h.events, h.mains⟩
  exact ⟨hsteady, he.le, fun j hj => h.unborn j ((hn.trans he.symm).trans_le hj),
    fun j hj => h.born j (hj.trans_eq (he.trans hn.symm)), hret⟩

theorem early (h : Inv n s) (hs : Cpu.earlyInit n s = some t) : Inv n t := by
  obtain ⟨i, he, hi, rfl⟩ | ⟨i, he, hi, rfl⟩ | ⟨he, hall, rfl⟩ := earlyInit_cases hs
  · exact h.creates he hi
  · have hstarted : started n s = i := by rw [started, he]
    have hn : started n s = n := le_antisymm h.started_le (hi.trans_eq hstarted.symm)
    exact h.settled hn rfl fun hret => by cases hret
  · have hn : started n s = n := by rw [started, he]
    rw [h.counted.running] at hall
    exact h.settled hn rfl fun _ => le_antisymm tally_le hall

theorem step {e : Event} (h : Inv n s) (hs : step n s e = some t) : Inv n t := by
  cases e with
  | early => exact h.early hs
  | thread i => exact h.moved (moved_of_run hs)

theorem of_reachable (h : Reachable (CpuBringUp.step n) .init s) : Inv n s :=
  h.invariant init fun _ _ _ hi _ hs => hi.step hs

/-- `Main` is behind the barrier of `inited_`, hence behind all the others. -/
theorem all_of_mains (h : Inv n s) (hm : s.mains ≠ []) : ∀ i < n, 13 ≤ ranks s i := by
  have h0 : ranks s 0 = 15 := by
    by_contra hne
    rw [h.mains, if_neg hne] at hm
    exact hm rfl
  exact tally_eq_iff.mp (h.counted.initedGate 0 (by omega))

theorem bringUp (h : Inv n s) (hn : 1 ≤ n) (hmax : n ≤ kMaxCpus) : BringUp n s := by
  have hcpus : s.mains ≠ [] → ∀ i < n, s.cpus i = some ⟨i, some i⟩ := by
    intro hm i hi
    have hall := h.all_of_mains hm i hi
    rw [h.cpus, if_neg (by omega), if_neg (by omega)]
  have hnum : s.mains ≠ [] → s.numCpus = n := by
    intro hm
    rw [h.counted.numCpus]
    exact tally_eq_iff.mpr fun i hi => by have := h.all_of_mains hm i hi; omega
  refine ⟨?_, fun hm => ⟨hnum hm, hcpus hm⟩, ?_, ?_, ?_⟩
  · rw [h.mains]
    split_ifs
    · exact .inr rfl
    · exact .inl rfl
  · intro hm i hi
    rw [Cpu.count, hnum hm] at hi
    have hget : Cpu.getByIndex s i = some i := by
      rw [Cpu.getByIndex, hnum hm, if_neg]
      simp only [kMaxCpus] at hmax
      omega
    refine ⟨hget, ?_⟩
    rw [indexToCPU, hget, Option.bind_some, hcpus hm i hi]
  · intro i hi
    have hborn : 1 ≤ ranks s i := by
      by_contra hlt
      rw [h.cpus, if_pos (by omega)] at hi
      exact hi rfl
    exact (h.lt_of_born hborn).trans_le hmax
  · intro hret
    exact tally_eq_iff.mp (h.returned hret)

end Inv

end EbbrtContrib.CpuBarriers
