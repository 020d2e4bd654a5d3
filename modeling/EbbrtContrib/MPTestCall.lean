import EbbrtContrib.MPTest

namespace EbbrtContrib.MPTestCall

open CyclicBarrier MPTest Runs

variable {s t : State} {n k i : Nat} {r : Result}

/-- How far a worker has got. -/
def rank : Pc → Nat
  | .unspawned => 0
  | .queued => 1
  | .waiting _ => 2
  | .working => 3
  | .timed _ => 4
  | .waitingAgain _ _ => 5
  | .writing _ => 6
  | .counting => 7
  | .spinning => 8
  | .leaving => 9
  | .finished => 10

/-- The ranks of the workers of the latest call. -/
def ranks (s : State) (i : Nat) : Nat := rank (s.pc s.call i)

/-- A worker that will not use the frame of its call any more. -/
def Left (i : Nat) (p : Pc) : Prop := p = .unspawned ∨ p = .finished ∨ (p = .leaving ∧ i ≠ 0)

/-- The result that a worker holds in its local variables. -/
def carried : Pc → Option Result
  | .timed r | .waitingAgain _ r | .writing r => some r
  | _ => none

/-- A worker in the barrier waits for the generation of its own crossing. -/
def Joined (base : Nat) : Pc → Prop
  | .waiting g => g = base
  | .waitingAgain g _ => g = base + 1
  | _ => True

def CallerInv (n : Nat) (s : State) : Prop :=
  match s.caller with
  | .spawning m =>
    m ≤ n ∧ (∀ i, 0 < ranks s i ↔ i < m) ∧ ranks s 0 ≤ 1 ∧ s.activations = 0
  | .saved => (∀ i < n, 0 < ranks s i) ∧ ranks s 0 < 10 ∧ s.activations = 0
  | .activated => ranks s 0 = 10 ∧ s.activations = 1
  | .outside => ranks s 0 = 10 ∧ s.activations = 1 ∧ s.checked = true ∧
      s.printed.map some = (List.range n).map (s.measured s.call)

/-- What holds from the entry of `MPTest` on until the next call. -/
structure CallInv (n : Nat) (s : State) : Prop where
  old : ∀ k i, k ≠ s.call → Left i (s.pc k i)
  beyond : ∀ i, n ≤ i → s.pc s.call i = .unspawned
  barrier : ∃ base bar, s.bars (s.site s.call) = some bar ∧
    Crossing bar base (ranks s) n 2 5 ∧ ∀ i, Joined base (s.pc s.call i)
  others : ∀ site bar, site ≠ s.site s.call → s.bars site = some bar →
    bar.size = n ∧ n ∣ bar.arrivals
  gate : Gate (ranks s) n 8
  counted : s.count = tally (ranks s) n 8
  carries : ∀ i r, carried (s.pc s.call i) = some r → s.measured s.call i = some r
  written : ∀ i, 6 < ranks s i → s.measured s.call i = some (s.results i)
  caller : CallerInv n s

/-- Between two calls: every barrier is at rest and no earlier worker is before the end of
its spin loop. -/
structure Idle (n : Nat) (s : State) : Prop where
  caller : s.caller = .outside
  workers : ∀ k i, Left i (s.pc k i)
  fresh : ∀ k i, s.call < k → s.pc k i = .unspawned
  bars : ∀ site bar, s.bars site = some bar → bar.size = n ∧ n ∣ bar.arrivals

theorem idle_init (n : Nat) (results : Nat → Result) : Idle n (.init results) where
  caller := rfl
  workers := fun _ _ => .inl rfl
  fresh := fun _ _ _ => rfl
  bars := fun _ _ h => absurd h (by simp [State.init])

theorem Idle.enter (h : Idle n s) (site : Nat) : CallInv n (enter n s site) := by
  have hpc : ∀ i, s.pc (s.call + 1) i = .unspawned := fun i => h.fresh _ i (by omega)
  have hranks : ∀ i, ranks (MPTest.enter n s site) i = 0 := by
    intro i
    simp [ranks, MPTest.enter, hpc, rank]
  constructor
  · intro k i _
    exact h.workers k i
  · intro i _
    exact hpc i
  · set bar := (s.bars site).getD (.new n) with hbar
    have hrest : bar.size = n ∧ n ∣ bar.arrivals := by
      cases hb : s.bars site with
      | none => simp [hbar, hb, Barrier.new]
      | some b =>
        rw [hbar, hb, Option.getD_some]
        exact h.bars site b hb
    obtain ⟨hsize, base, hbase⟩ := hrest
    refine ⟨base, bar, by simp [MPTest.enter, hbar], ?_, ?_⟩
    · constructor
      · omega
      · exact hsize
      · rw [tally_of_zero hranks, tally_of_zero hranks, hbase, hsize, Nat.mul_comm, Nat.add_zero]
      · exact gate_of_zero hranks
      · exact gate_of_zero hranks
    · intro i
      simp [MPTest.enter, hpc, Joined]
  · intro site' bar hne hb
    simp only [MPTest.enter, Function.update_self] at hne hb
    rw [Function.update_of_ne hne] at hb
    exact h.bars site' bar hb
  · exact gate_of_zero hranks
  · rw [tally_of_zero hranks]
    rfl
  · intro i r hr
    simp [MPTest.enter, hpc, carried] at hr
  · intro i hi
    rw [hranks i] at hi
    omega
  · refine ⟨Nat.zero_le n, ?_, ?_, rfl⟩
    · intro i
      rw [hranks i]
      omega
    · rw [hranks 0]
      omega

/-- Worker `i` of the latest call goes on to `p`, the place right after its own. -/
structure Moved (s t : State) (i : Nat) (p : Pc) : Prop where
  call : t.call = s.call
  site : t.site = s.site
  pc : ∀ k' i', t.pc k' i' = if k' = s.call ∧ i' = i then p else s.pc k' i'
  next : rank p = ranks s i + 1

namespace Moved

variable {p : Pc}

theorem goto (s : State) (i : Nat) (hp : rank p = ranks s i + 1) :
    Moved s (s.goto s.call i p) i p :=
  ⟨rfl, rfl, goto_pc s s.call i p, hp⟩

theorem pc_self (h : Moved s t i p) : t.pc t.call i = p := by
  rw [h.pc, h.call, if_pos ⟨rfl, rfl⟩]

theorem pc_other (h : Moved s t i p) {j : Nat} (hj : j ≠ i) :
    t.pc t.call j = s.pc s.call j := by
  rw [h.pc, h.call, if_neg fun he => hj he.2]

theorem ranks_self (h : Moved s t i p) : ranks t i = ranks s i + 1 := by
  rw [ranks, h.pc_self, h.next]

theorem ranks_other (h : Moved s t i p) (j : Nat) (hj : j ≠ i) : ranks t j = ranks s j := by
  rw [ranks, h.pc_other hj, ranks]

theorem barrier_keep (hm : Moved s t i p) (h : CallInv n s) (hi : i < n)
    (hbars : t.bars = s.bars) (hr : ranks s i + 1 ≠ 2 ∧ ranks s i + 1 ≠ 5)
    (hp : ∀ base, Joined base p)
    (hopen : ∀ base bar, s.bars (s.site s.call) = some bar → Joined base (s.pc s.call i) →
      (ranks s i = 2 → bar.IsOpen base) ∧ (ranks s i = 5 → bar.IsOpen (base + 1))) :
    ∃ base bar, t.bars (t.site t.call) = some bar ∧
      Crossing bar base (ranks t) n 2 5 ∧ ∀ j, Joined base (t.pc t.call j) := by
  obtain ⟨base, bar, hb, hc, hj⟩ := h.barrier
  obtain ⟨hfirst, hsecond⟩ := hopen base bar hb (hj i)
  have hc' := hc.advance hi hm.ranks_self hm.ranks_other hfirst hsecond
  rw [if_neg (by omega)] at hc'
  refine ⟨base, bar, by rw [hbars, hm.site, hm.call, hb], hc', ?_⟩
  intro j
  by_cases hji : j = i
  · rw [hji, hm.pc_self]
    exact hp base
  · rw [hm.pc_other hji]
    exact hj j

theorem barrier_arrive (hm : Moved s t i p) (h : CallInv n s) (hi : i < n) {bar : Barrier}
    (hb : s.bars (s.site s.call) = some bar)
    (hbars : t.bars = Function.update s.bars (s.site s.call) (some bar.enter))
    (hr : ranks s i + 1 = 2 ∨ ranks s i + 1 = 5)
    (hp : ∀ base, Crossing bar base (ranks s) n 2 5 → Joined base p) :
    ∃ base bar, t.bars (t.site t.call) = some bar ∧
      Crossing bar base (ranks t) n 2 5 ∧ ∀ j, Joined base (t.pc t.call j) := by
  obtain ⟨base, bar', hb', hc, hj⟩ := h.barrier
  rw [hb, Option.some.injEq] at hb'
  subst hb'
  have hc' := hc.advance hi hm.ranks_self hm.ranks_other (by omega) (by omega)
  rw [if_pos hr] at hc'
  refine ⟨base, bar.enter, by rw [hbars, hm.site, hm.call, Function.update_self], hc', ?_⟩
  intro j
  by_cases hji : j = i
  · rw [hji, hm.pc_self]
    exact hp base hc
  · rw [hm.pc_other hji]
    exact hj j

/-- A move keeps the invariant when the worker leaves the barrier, the counter and its own
data as they should be at its new place. -/
theorem callInv (hm : Moved s t i p) (h : CallInv n s) (hi : i < n)
    (hbarrier : ∃ base bar, t.bars (t.site t.call) = some bar ∧
      Crossing bar base (ranks t) n 2 5 ∧ ∀ j, Joined base (t.pc t.call j))
    (hbars : ∀ site, site ≠ s.site s.call → t.bars site = s.bars site)
    (hgate : ranks s i = 8 → tally (ranks s) n 8 = n)
    (hcount : t.count = s.count + if 8 = ranks s i + 1 then 1 else 0)
    (hcarry : ∀ r, carried p = some r → t.measured s.call i = some r)
    (hwritten : 6 < rank p → t.measured s.call i = some (t.results i))
    (hmeasured : ∀ j, j ≠ i → t.measured s.call j = s.measured s.call j)
    (hresults : ∀ j, j ≠ i → t.results j = s.results j)
    (hcaller : CallerInv n t) : CallInv n t := by
  constructor
  · intro k j hk
    rw [hm.call] at hk
    rw [hm.pc, if_neg fun he => hk he.1]
    exact h.old k j hk
  · intro j hj
    rw [hm.pc_other (by omega)]
    exact h.beyond j hj
  · exact hbarrier
  · intro site bar hne hb
    rw [hm.site, hm.call] at hne
    rw [hbars site hne] at hb
    exact h.others site bar hne hb
  · exact h.gate.advance hi hm.ranks_self hm.ranks_other hgate
  · rw [hcount, h.counted, tally_advance hi hm.ranks_self hm.ranks_other]
  · intro j r hr
    rw [hm.call]
    by_cases hji : j = i
    · rw [hji, hm.pc_self] at hr
      rw [hji]
      exact hcarry r hr
    · rw [hm.pc_other hji] at hr
      rw [hmeasured j hji]
      exact h.carries j r hr
  · intro j hj
    rw [hm.call]
    by_cases hji : j = i
    · rw [hji, hm.ranks_self, ← hm.next] at hj
      rw [hji]
      exact hwritten hj
    · rw [hm.ranks_other j hji] at hj
      rw [hmeasured j hji, hresults j hji]
      exact h.written j hj
  · exact hcaller

end Moved

/-- The moves that leave the barrier and the results alone. -/
theorem Moved.callInv_keep {p : Pc} (hm : Moved s t i p) (h : CallInv n s) (hi : i < n)
    (hbars : t.bars = s.bars) (hmeasured : t.measured = s.measured)
    (hresults : t.results = s.results) (hr : ranks s i + 1 ≠ 2 ∧ ranks s i + 1 ≠ 5)
    (hp : ∀ base, Joined base p)
    (hopen : ∀ base bar, s.bars (s.site s.call) = some bar → Joined base (s.pc s.call i) →
      (ranks s i = 2 → bar.IsOpen base) ∧ (ranks s i = 5 → bar.IsOpen (base + 1)))
    (hgate : ranks s i = 8 → n ≤ s.count)
    (hcount : t.count = s.count + if 8 = ranks s i + 1 then 1 else 0)
    (hcarry : ∀ r, carried p = some r → carried (s.pc s.call i) = some r)
    (hcaller : CallerInv n t) (hr6 : ranks s i ≠ 6) : CallInv n t := by
  apply hm.callInv h hi _ _ _ hcount _ _ _ _ hcaller
  · exact hm.barrier_keep h hi hbars hr hp hopen
  · intro site _
    rw [hbars]
  · intro h8
    have hle : tally (ranks s) n 8 ≤ n := tally_le
    have hcounted := h.counted
    have hge := hgate h8
    omega
  · intro r hr
    rw [hmeasured]
    exact h.carries i r (hcarry r hr)
  · intro h6
    rw [hm.next] at h6
    rw [hmeasured, hresults]
    exact h.written i (by omega)
  · intro j _
    rw [hmeasured]
  · intro j _
    rw [hresults]

theorem CallerInv.saved (h : CallerInv n s) (hlo : 1 < ranks s 0) (hhi : ranks s 0 < 10) :
    s.caller = .saved := by
  unfold CallerInv at h
  cases hc : s.caller with
  | saved => rfl
  | _ =>
    rw [hc] at h
    omega

theorem CallerInv.move {p : Pc} (h : CallerInv n s) (hm : Moved s t i p) (hpos : 0 < ranks s i)
    (hzero : i = 0 → s.caller = .saved ∧ ranks s 0 < 9) (hcaller : t.caller = s.caller)
    (hactivations : t.activations = s.activations) (hchecked : t.checked = s.checked)
    (hprinted : t.printed = s.printed)
    (hmeasured : s.caller = .outside → t.measured = s.measured) : CallerInv n t := by
  have hself := hm.ranks_self
  have hlive : ∀ j, 0 < ranks t j ↔ 0 < ranks s j := by
    intro j
    by_cases hji : j = i
    · subst hji
      omega
    · rw [hm.ranks_other j hji]
  have hfirst : i ≠ 0 → ranks t 0 = ranks s 0 := fun hi => hm.ranks_other 0 hi.symm
  unfold CallerInv at h ⊢
  rw [hcaller]
  cases hc : s.caller with
  | spawning m =>
    rw [hc] at h hzero
    have hi : i ≠ 0 := fun hi => absurd (hzero hi).1 (by simp)
    simpa only [hlive, hfirst hi, hactivations] using h
  | saved =>
    rw [hc] at h
    refine ⟨fun j hj => (hlive j).mpr (h.1 j hj), ?_, by rw [hactivations, h.2.2]⟩
    by_cases hi : i = 0
    · have := hzero hi
      subst hi
      omega
    · rw [hfirst hi]
      exact h.2.1
  | activated =>
    rw [hc] at h hzero
    have hi : i ≠ 0 := fun hi => absurd (hzero hi).1 (by simp)
    simpa only [hfirst hi, hactivations] using h
  | outside =>
    rw [hc] at h hzero
    have hi : i ≠ 0 := fun hi => absurd (hzero hi).1 (by simp)
    simpa only [hfirst hi, hactivations, hchecked, hprinted, hmeasured hc, hm.call] using h

namespace CallInv

theorem index_lt (h : CallInv n s) (hr : 0 < ranks s i) : i < n := by
  by_contra hn
  rw [ranks, h.beyond i (by omega), rank] at hr
  omega

/-- The caller returns only after every worker has counted itself. -/
theorem counted_of_outside (h : CallInv n s) (hc : s.caller = .outside) (hi : i < n) :
    8 ≤ ranks s i := by
  have hcaller := h.caller
  rw [CallerInv, hc] at hcaller
  exact tally_eq_iff.mp (h.gate 0 (by omega)) i hi

theorem touch (h : CallInv n s) (k : Nat) : CallInv n (s.touch k) :=
  ⟨h.old, h.beyond, h.barrier, h.others, h.gate, h.counted, h.carries, h.written, h.caller⟩

/-- A worker that does not change the caller leaves it where it belongs. -/
theorem caller_keep {p : Pc} (h : CallInv n s) (hm : Moved s t i p) (hpos : 0 < ranks s i)
    (hstart : i = 0 → ranks s i = 1 → s.caller = .saved) (hlt : i = 0 → ranks s i < 9)
    (hcaller : t.caller = s.caller) (hactivations : t.activations = s.activations)
    (hchecked : t.checked = s.checked) (hprinted : t.printed = s.printed)
    (hmeasured : 8 ≤ ranks s i → t.measured = s.measured) : CallerInv n t := by
  apply h.caller.move hm hpos _ hcaller hactivations hchecked hprinted
  · intro hc
    exact hmeasured (h.counted_of_outside hc (h.index_lt hpos))
  · intro hi
    have hlt' := hlt hi
    have hstart' := hstart hi
    subst hi
    refine ⟨?_, hlt'⟩
    by_cases hone : ranks s 0 = 1
    · exact hstart' hone
    · exact h.caller.saved (by omega) (by omega)

/-- A worker arrives at the barrier. -/
theorem arrive (h : CallInv n s) {bar : Barrier} {p : Pc} (hb : s.bars (s.site s.call) = some bar)
    (hr : ranks s i = 1 ∨ ranks s i = 4) (hp : rank p = ranks s i + 1)
    (hjoined : ∀ base, Crossing bar base (ranks s) n 2 5 → Joined base p)
    (hcarry : ∀ m, carried p = some m → carried (s.pc s.call i) = some m)
    (hstart : i = 0 → ranks s i = 1 → s.caller = .saved) :
    CallInv n ((s.arrive s.call bar).goto s.call i p) := by
  have hi := h.index_lt (i := i) (by omega)
  have hm : Moved s ((s.arrive s.call bar).goto s.call i p) i p :=
    ⟨rfl, rfl, goto_pc _ _ _ _, hp⟩
  apply hm.callInv h hi
  · exact hm.barrier_arrive h hi hb rfl (by omega) hjoined
  · intro site hne
    exact Function.update_of_ne hne _ _
  · omega
  · rw [if_neg (by omega)]
    rfl
  · intro m hm
    exact h.carries i m (hcarry m hm)
  · omega
  · exact fun _ _ => rfl
  · exact fun _ _ => rfl
  · exact h.caller_keep hm (by omega) hstart (by omega) rfl rfl rfl rfl (by omega)

/-- The barrier lets a worker pass. -/
theorem pass (h : CallInv n s) {p : Pc} (hr : ranks s i = 2 ∨ ranks s i = 5)
    (hp : rank p = ranks s i + 1) (hjoined : ∀ base, Joined base p)
    (hopen : ∀ base bar, s.bars (s.site s.call) = some bar → Joined base (s.pc s.call i) →
      (ranks s i = 2 → bar.IsOpen base) ∧ (ranks s i = 5 → bar.IsOpen (base + 1)))
    (hcarry : ∀ m, carried p = some m → carried (s.pc s.call i) = some m) :
    CallInv n (s.goto s.call i p) := by
  have hi := h.index_lt (i := i) (by omega)
  have hm : Moved s (s.goto s.call i p) i p := .goto s i hp
  apply hm.callInv_keep h hi rfl rfl rfl (by omega) hjoined hopen (by omega) _ hcarry
  · exact h.caller_keep hm (by omega) (by omega) (by omega) rfl rfl rfl rfl (by omega)
  · omega
  · rw [if_neg (by omega)]
    rfl

/-- Behind its write a worker leaves the barrier and the results alone. -/
theorem late (h : CallInv n s) {p : Pc} (hm : Moved s t i p) (hr : 7 ≤ ranks s i)
    (hshared : t.bars = s.bars ∧ t.measured = s.measured ∧ t.results = s.results)
    (hgate : ranks s i = 8 → n ≤ s.count)
    (hcount : t.count = s.count + if 8 = ranks s i + 1 then 1 else 0)
    (hcaller : CallerInv n t) : CallInv n t := by
  obtain ⟨hbars, hmeasured, hresults⟩ := hshared
  have hi := h.index_lt (i := i) (by omega)
  have hnext := hm.next
  apply hm.callInv_keep h hi hbars hmeasured hresults (by omega) _ (by omega) hgate hcount _
    hcaller (by omega)
  · cases p with
    | spinning | leaving | finished => exact fun _ => trivial
    | _ =>
      rw [rank] at hnext
      omega
  · cases p with
    | spinning | leaving | finished => exact nofun
    | _ =>
      rw [rank] at hnext
      omega

/-- The measurement of a worker is the one that it carries to its write. -/
theorem works (h : CallInv n s) (hp : s.pc s.call i = .working) (r : Result) :
    CallInv n { (s.touch s.call).goto s.call i (.timed r) with
      measured := Function.update s.measured s.call
        (Function.update (s.measured s.call) i (some r)) } := by
  have hr : ranks s i = 3 := by rw [ranks, hp, rank]
  have hi := h.index_lt (i := i) (by omega)
  have hm : Moved s { (s.touch s.call).goto s.call i (.timed r) with
      measured := Function.update s.measured s.call
        (Function.update (s.measured s.call) i (some r)) } i (.timed r) :=
    ⟨rfl, rfl, goto_pc _ _ _ _, by rw [hr, rank]⟩
  apply hm.callInv h hi
  · apply hm.barrier_keep h hi rfl (by omega) fun _ => trivial
    intro base bar _ _
    exact ⟨by omega, by omega⟩
  · exact fun _ _ => rfl
  · omega
  · rw [hr]
    rfl
  · intro m hm
    simpa [carried] using hm
  · simp [rank]
  · intro j hj
    simp [hj]
  · exact fun _ _ => rfl
  · exact h.caller_keep hm (by omega) (by omega) (by omega) rfl rfl rfl rfl (by omega)

theorem writes (h : CallInv n s) {m : Result} (hp : s.pc s.call i = .writing m) :
    CallInv n { s.goto s.call i .counting with results := Function.update s.results i m } := by
  have hr : ranks s i = 6 := by rw [ranks, hp, rank]
  have hi := h.index_lt (i := i) (by omega)
  have hm : Moved s { s.goto s.call i .counting with
      results := Function.update s.results i m } i .counting :=
    ⟨rfl, rfl, goto_pc _ _ _ _, by rw [hr, rank]⟩
  apply hm.callInv h hi
  · apply hm.barrier_keep h hi rfl (by omega) fun _ => trivial
    intro base bar _ _
    exact ⟨by omega, by omega⟩
  · exact fun _ _ => rfl
  · omega
  · rw [hr]
    rfl
  · intro m' hm'
    simp [carried] at hm'
  · intro _
    have hcarry := h.carries i m (by rw [hp, carried])
    show s.measured s.call i = some (Function.update s.results i m i)
    rw [hcarry, Function.update_self]
  · exact fun _ _ => rfl
  · intro j hj
    simp [hj]
  · exact h.caller_keep hm (by omega) (by omega) (by omega) rfl rfl rfl rfl (by omega)

/-- Worker 0 ends the wait of the caller, which has saved its context by then. -/
theorem activates (h : CallInv n s) (hp : s.pc s.call 0 = .leaving) :
    CallInv n { (s.touch s.call).goto s.call 0 .finished with
      caller := .activated, activations := s.activations + 1 } := by
  have hr : ranks s 0 = 9 := by rw [ranks, hp, rank]
  have hm : Moved s { (s.touch s.call).goto s.call 0 .finished with
      caller := .activated, activations := s.activations + 1 } 0 .finished :=
    ⟨rfl, rfl, goto_pc _ _ _ _, by rw [hr, rank]⟩
  apply h.late hm (by omega) ⟨rfl, rfl, rfl⟩ (by omega)
  · rw [hr]
    rfl
  · have hcaller := h.caller
    have hsaved := hcaller.saved (by omega) (by omega)
    rw [CallerInv, hsaved] at hcaller
    refine ⟨by rw [hm.ranks_self, hr], ?_⟩
    rw [hcaller.2.2]

theorem worker (h : CallInv n s) (hs : WorkerStep n s s.call i r t) : CallInv n t := by
  cases hs with
  | start bar hp hstart hb =>
    have hr : ranks s i = 1 := by rw [ranks, hp, rank]
    have hi := h.index_lt (i := i) (by omega)
    apply h.arrive hb (.inl hr) (by rw [hr, rank])
    · intro base hc
      exact hc.generation_first hi (by omega)
    · simp [carried]
    · exact fun hi _ => hstart.2 hi
  | pass g bar hp hb hopen =>
    have hr : ranks s i = 2 := by rw [ranks, hp, rank]
    apply h.pass (.inl hr) (by rw [hr, rank])
    · exact fun _ => trivial
    · intro base bar' hb' hj
      rw [hb, Option.some.injEq] at hb'
      rw [hp, Joined] at hj
      subst hb' hj
      exact ⟨fun _ => hopen, by omega⟩
    · simp [carried]
  | work hp => exact h.works hp r
  | arrive m bar hp hb =>
    have hr : ranks s i = 4 := by rw [ranks, hp, rank]
    have hi := h.index_lt (i := i) (by omega)
    apply h.arrive hb (.inr hr) (by rw [hr, rank])
    · intro base hc
      exact hc.generation_second hi (by omega) (by omega)
    · intro m' hm'
      rwa [hp]
    · omega
  | passAgain g m bar hp hb hopen =>
    have hr : ranks s i = 5 := by rw [ranks, hp, rank]
    apply h.pass (.inr hr) (by rw [hr, rank])
    · exact fun _ => trivial
    · intro base bar' hb' hj
      rw [hb, Option.some.injEq] at hb'
      rw [hp, Joined] at hj
      subst hb' hj
      exact ⟨by omega, fun _ => hopen⟩
    · intro m' hm'
      rwa [hp]
  | write m hp => exact h.writes hp
  | count hp =>
    have hr : ranks s i = 7 := by rw [ranks, hp, rank]
    have hm : Moved s { (s.touch s.call).goto s.call i .spinning with count := s.count + 1 } i
        .spinning := ⟨rfl, rfl, goto_pc _ _ _ _, by rw [hr, rank]⟩
    apply h.late hm (by omega) ⟨rfl, rfl, rfl⟩ (by omega)
    · rw [hr]
      rfl
    · exact h.caller_keep hm (by omega) (by omega) (by omega) rfl rfl rfl rfl fun _ => rfl
  | spin hp hc => exact h.touch s.call
  | leave hp hc =>
    have hr : ranks s i = 8 := by rw [ranks, hp, rank]
    have hm : Moved s ((s.touch s.call).goto s.call i .leaving) i .leaving :=
      ⟨rfl, rfl, goto_pc _ _ _ _, by rw [hr, rank]⟩
    apply h.late hm (by omega) ⟨rfl, rfl, rfl⟩ fun _ => hc
    · rw [hr]
      rfl
    · exact h.caller_keep hm (by omega) (by omega) (by omega) rfl rfl rfl rfl fun _ => rfl
  | activate hp hi0 =>
    subst hi0
    exact h.activates hp
  | finish hp hi0 =>
    have hr : ranks s i = 9 := by rw [ranks, hp, rank]
    have hm : Moved s (s.goto s.call i .finished) i .finished := .goto s i (by rw [hr, rank])
    apply h.late hm (by omega) ⟨rfl, rfl, rfl⟩ (by omega)
    · rw [hr]
      rfl
    · exact h.caller_keep hm (by omega) (by omega) (by omega) rfl rfl rfl rfl fun _ => rfl

/-- The only step that is left to a worker of an earlier call is the end of its event. -/
theorem old_cases (hs : WorkerStep n s k i r t) (hl : Left i (s.pc k i)) :
    s.pc k i = .leaving ∧ i ≠ 0 ∧ t = s.goto k i .finished := by
  obtain hp | hp | ⟨hp, hi⟩ := hl
  all_goals
    cases hs with
    | finish hp' hi' => exact ⟨hp', hi', rfl⟩
    | activate hp' hi' =>
      rw [hp] at hp'
      first | exact absurd hi' hi | cases hp'
    | start _ hp' | pass _ _ hp' | work hp' | arrive _ _ hp' | passAgain _ _ _ hp'
    | write _ hp' | count hp' | spin hp' | leave hp' =>
      rw [hp] at hp'
      cases hp'

theorem old_worker (h : CallInv n s) (hs : WorkerStep n s k i r t) (hk : k ≠ s.call) :
    CallInv n t := by
  obtain ⟨hp, hi, rfl⟩ := old_cases hs (h.old k i hk)
  have hpc : (s.goto k i .finished).pc s.call = s.pc s.call := by
    funext j
    rw [goto_pc, if_neg fun he => hk he.1.symm]
  have hranks : ranks (s.goto k i .finished) = ranks s := by
    funext j
    rw [ranks, ranks, ← hpc]
    rfl
  constructor
  · intro k' i' hk'
    rw [goto_pc]
    split
    · exact .inr (.inl rfl)
    · exact h.old k' i' hk'
  · intro j hj
    exact (congrFun hpc j).trans (h.beyond j hj)
  · rw [hranks]
    show ∃ base bar, s.bars (s.site s.call) = some bar ∧
      Crossing bar base (ranks s) n 2 5 ∧ ∀ j, Joined base ((s.goto k i .finished).pc s.call j)
    rw [hpc]
    exact h.barrier
  · exact h.others
  · rw [hranks]
    exact h.gate
  · rw [hranks]
    exact h.counted
  · intro j m hm
    exact h.carries j m ((congrArg carried (congrFun hpc j)).symm.trans hm)
  · rw [hranks]
    exact h.written
  · have hcaller := h.caller
    unfold CallerInv at hcaller ⊢
    rw [hranks]
    exact hcaller

theorem spawn (h : CallInv n s) {m : Nat} (hc : s.caller = .spawning m) (hm : m < n) :
    CallInv n { s.goto s.call m .queued with caller := .spawning (m + 1) } := by
  have hcaller := h.caller
  rw [CallerInv, hc] at hcaller
  obtain ⟨-, hspawned, hzero, hact⟩ := hcaller
  have hr : ranks s m = 0 := by
    have := hspawned m
    omega
  have hmv : Moved s { s.goto s.call m .queued with caller := .spawning (m + 1) } m .queued :=
    ⟨rfl, rfl, goto_pc _ _ _ _, by rw [hr, rank]⟩
  apply hmv.callInv_keep h hm rfl rfl rfl (by omega) (fun _ => trivial) (by omega) (by omega)
  · rw [hr]
    rfl
  · simp [carried]
  · refine ⟨hm, ?_, ?_, hact⟩
    · intro j
      by_cases hj : j = m
      · subst hj
        have hself := hmv.ranks_self
        omega
      · rw [hmv.ranks_other j hj, hspawned j]
        omega
    · by_cases hz : m = 0
      · subst hz
        have hself := hmv.ranks_self
        omega
      · rw [hmv.ranks_other 0 (Ne.symm hz)]
        exact hzero
  · omega

theorem save (h : CallInv n s) {m : Nat} (hc : s.caller = .spawning m) (hm : n ≤ m) :
    CallInv n { s with caller := .saved } := by
  have hcaller := h.caller
  rw [CallerInv, hc] at hcaller
  obtain ⟨-, hspawned, hzero, hact⟩ := hcaller
  refine ⟨h.old, h.beyond, h.barrier, h.others, h.gate, h.counted, h.carries, h.written, ?_⟩
  refine ⟨fun j hj => (hspawned j).mpr (by omega), ?_, hact⟩
  show ranks s 0 < 10
  omega

/-- When the caller is woken up every worker has counted itself. -/
theorem counted_of_activated (h : CallInv n s) (hc : s.caller = .activated) :
    tally (ranks s) n 8 = n ∧ s.activations = 1 ∧ ranks s 0 = 10 := by
  have hcaller := h.caller
  rw [CallerInv, hc] at hcaller
  exact ⟨h.gate 0 (by omega), hcaller.2, hcaller.1⟩

theorem resume (h : CallInv n s) (hc : s.caller = .activated) : CallInv n (leave n s) := by
  obtain ⟨hall, hact, hzero⟩ := h.counted_of_activated hc
  refine ⟨h.old, h.beyond, h.barrier, h.others, h.gate, h.counted, h.carries, h.written, ?_⟩
  refine ⟨hzero, hact, ?_, ?_⟩
  · show (n == s.count) = true
    rw [h.counted, hall, beq_self_eq_true]
  · show ((List.range n).map s.results).map some = (List.range n).map (s.measured s.call)
    rw [List.map_map]
    apply List.map_congr_left
    intro j hj
    have hr := tally_eq_iff.mp hall j (List.mem_range.mp hj)
    exact (h.written j (by omega)).symm

end CallInv

/-- The events of a call after its entry. -/
def InCall : State → Event → Prop
  | _, .call _ => False
  | _, _ => True

theorem CallInv.step (h : CallInv n s) {e : Event} (he : InCall s e) (hs : Step n s e t) :
    CallInv n t := by
  cases hs with
  | call site => exact he.elim
  | spawn m hc hm => exact h.spawn hc hm
  | save m hc hm => exact h.save hc hm
  | resume hc => exact h.resume hc
  | worker k i r t hw =>
    by_cases hk : k = s.call
    · subst hk
      exact h.worker hw
    · exact h.old_worker hw hk

end EbbrtContrib.MPTestCall
