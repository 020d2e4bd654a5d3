import EbbrtContrib.MPTestOverlap

namespace EbbrtContrib.MPTestWork

open CyclicBarrier MPTest MPTestCall MPTestFrame MPTestProgress MPTestOverlap Runs

/-- The callable that `MPTest` runs on every CPU, one step at a time: `τ` are its variables,
`σ` is the memory it shares, and `ω` what the rest of the system answers to a step. -/
structure Work (σ τ ω : Type*) where
  begin : τ
  advance : Nat → ω → τ → σ → Option (τ × σ)
  result : τ → Option (BitVec 32)

/-- The calls of `MPTest` that an event makes one after the other, numbered from one: the
instance of the template, what the event does before the call, and the callable. -/
structure Calls (σ τ ω : Type*) where
  total : Nat
  site : Nat → Nat
  before : Nat → σ → σ
  work : Nat → Work σ τ ω

/-- `mp` is what `MPTest` itself reads and writes, and `locals k i` the variables of the
callable in worker `i` of call `k`. -/
structure State (σ τ : Type*) where
  mp : MPTest.State
  shared : σ
  locals : Nat → Nat → τ

variable {σ τ ω : Type*}

def State.init (c : Calls σ τ ω) (results : Nat → Result) (shared : σ) : State σ τ :=
  ⟨.init results, shared, fun _ _ => (c.work 0).begin⟩

/-- `work` is a step of a callable, and `done` its return, with the time that the worker takes
for it. -/
inductive Event (ω : Type*)
  | call
  | spawn
  | save
  | resume
  | worker (k i : Nat)
  | work (k i : Nat) (answer : ω)
  | done (k i : Nat) (time : BitVec 64)
  deriving DecidableEq, Repr

/-- A step of `MPTest` that leaves the callables alone. -/
def State.mpStep (n : Nat) (s : State σ τ) (e : MPTest.Event) : Option (State σ τ) :=
  (MPTest.step n s.mp e).map fun mp => { s with mp := mp }

def step (n : Nat) (c : Calls σ τ ω) (s : State σ τ) : Event ω → Option (State σ τ)
  | .call =>
    let k := s.mp.call + 1
    if k ≤ c.total then
      (MPTest.step n s.mp (.call (c.site k))).map fun mp =>
        ⟨mp, c.before k s.shared, Function.update s.locals k fun _ => (c.work k).begin⟩
    else none
  | .spawn => s.mpStep n .spawn
  | .save => s.mpStep n .save
  | .resume => s.mpStep n .resume
  | .worker k i => if s.mp.pc k i = .working then none else s.mpStep n (.worker k i ⟨0, 0⟩)
  | .work k i answer =>
    if s.mp.pc k i = .working then
      ((c.work k).advance i answer (s.locals k i) s.shared).map fun u =>
        ⟨s.mp, u.2, Function.update s.locals k (Function.update (s.locals k) i u.1)⟩
    else none
  | .done k i time =>
    if s.mp.pc k i = .working then
      ((c.work k).result (s.locals k i)).bind fun rc => s.mpStep n (.worker k i ⟨time, rc⟩)
    else none

variable {n : Nat} {c : Calls σ τ ω} {s t : State σ τ}

/-- Everything a step can do, as a relation. -/
inductive Step (n : Nat) (c : Calls σ τ ω) (s : State σ τ) : Event ω → State σ τ → Prop
  | call (mp : MPTest.State) : s.mp.call + 1 ≤ c.total →
      MPTest.step n s.mp (.call (c.site (s.mp.call + 1))) = some mp →
      Step n c s .call ⟨mp, c.before (s.mp.call + 1) s.shared,
        Function.update s.locals (s.mp.call + 1) fun _ => (c.work (s.mp.call + 1)).begin⟩
  | caller (e : Event ω) (e' : MPTest.Event) (mp : MPTest.State) :
      e' = .spawn ∨ e' = .save ∨ e' = .resume → MPTest.step n s.mp e' = some mp →
      Step n c s e { s with mp := mp }
  | worker (k i : Nat) (mp : MPTest.State) : s.mp.pc k i ≠ .working →
      MPTest.step n s.mp (.worker k i ⟨0, 0⟩) = some mp →
      Step n c s (.worker k i) { s with mp := mp }
  | work (k i : Nat) (answer : ω) (l : τ) (shared : σ) : s.mp.pc k i = .working →
      (c.work k).advance i answer (s.locals k i) s.shared = some (l, shared) →
      Step n c s (.work k i answer)
        ⟨s.mp, shared, Function.update s.locals k (Function.update (s.locals k) i l)⟩
  | done (k i : Nat) (time : BitVec 64) (rc : BitVec 32) (mp : MPTest.State) :
      s.mp.pc k i = .working → (c.work k).result (s.locals k i) = some rc →
      MPTest.step n s.mp (.worker k i ⟨time, rc⟩) = some mp →
      Step n c s (.done k i time) { s with mp := mp }

theorem mpStep_cases {e : MPTest.Event} (h : s.mpStep n e = some t) :
    ∃ mp, MPTest.step n s.mp e = some mp ∧ t = { s with mp := mp } := by
  obtain ⟨mp, hmp, rfl⟩ := Option.map_eq_some_iff.mp h
  exact ⟨mp, hmp, rfl⟩

theorem step_cases {e : Event ω} (h : step n c s e = some t) : Step n c s e t := by
  cases e with
  | call =>
    obtain ⟨hk, h⟩ := Option.ite_none_right_eq_some.mp h
    obtain ⟨mp, hmp, rfl⟩ := Option.map_eq_some_iff.mp h
    exact .call mp hk hmp
  | spawn =>
    obtain ⟨mp, hmp, rfl⟩ := mpStep_cases h
    exact .caller _ .spawn mp (.inl rfl) hmp
  | save =>
    obtain ⟨mp, hmp, rfl⟩ := mpStep_cases h
    exact .caller _ .save mp (.inr (.inl rfl)) hmp
  | resume =>
    obtain ⟨mp, hmp, rfl⟩ := mpStep_cases h
    exact .caller _ .resume mp (.inr (.inr rfl)) hmp
  | worker k i =>
    obtain ⟨hp, h⟩ := Option.ite_none_left_eq_some.mp h
    obtain ⟨mp, hmp, rfl⟩ := mpStep_cases h
    exact .worker k i mp hp hmp
  | work k i answer =>
    obtain ⟨hp, h⟩ := Option.ite_none_right_eq_some.mp h
    obtain ⟨⟨l, shared⟩, hl, rfl⟩ := Option.map_eq_some_iff.mp h
    exact .work k i answer l shared hp hl
  | done k i time =>
    obtain ⟨hp, h⟩ := Option.ite_none_right_eq_some.mp h
    obtain ⟨rc, hrc, h⟩ := Option.bind_eq_some_iff.mp h
    obtain ⟨mp, hmp, rfl⟩ := mpStep_cases h
    exact .done k i time rc mp hp hrc hmp

theorem Step.mp {e : Event ω} (h : Step n c s e t) :
    t.mp = s.mp ∨ ∃ e', MPTest.step n s.mp e' = some t.mp := by
  cases h with
  | call mp _ hmp => exact .inr ⟨_, hmp⟩
  | caller e e' mp _ hmp => exact .inr ⟨e', hmp⟩
  | worker k i mp _ hmp => exact .inr ⟨_, hmp⟩
  | work => exact .inl rfl
  | done k i time rc mp _ _ hmp => exact .inr ⟨_, hmp⟩

/-- With the steps of the callables left out, a run is a run of `MPTest`. -/
theorem reachable_mp (h : Reachable (step n c) s t) : Reachable (MPTest.step n) s.mp t.mp := by
  induction h with
  | refl => exact .refl
  | tail _ _ hs ih =>
    obtain he | ⟨e', hs'⟩ := (step_cases hs).mp
    · rw [he]
      exact ih
    · exact ih.tail trivial hs'

variable {results : Nat → Result} {shared : σ}

/-- A step of a worker that is not the end of its callable leaves alone what was measured. -/
theorem measured_of_worker {mp mp' : MPTest.State} {k i : Nat} {r : Result}
    (hs : WorkerStep n mp k i r mp') (hp : mp.pc k i ≠ .working) :
    mp'.measured = mp.measured := by
  cases hs with
  | work hw => exact absurd hw hp
  | _ => rfl

/-- What a worker of the latest call has measured is the result of its callable. -/
def Returned (c : Calls σ τ ω) (s : State σ τ) : Prop :=
  ∀ i, 3 < ranks s.mp i → ∃ time rc, s.mp.measured s.mp.call i = some ⟨time, rc⟩ ∧
    (c.work s.mp.call).result (s.locals s.mp.call i) = some rc

theorem Returned.keep {t : State σ τ} (h : Returned c s) (hcall : t.mp.call = s.mp.call)
    (hmeasured : t.mp.measured = s.mp.measured) (hlocals : t.locals = s.locals)
    (hranks : ∀ i, 3 < ranks t.mp i → 3 < ranks s.mp i) : Returned c t := by
  intro i hi
  rw [hcall, hmeasured, hlocals]
  exact h i (hranks i hi)

theorem rank_working {p : Pc} (hp : p ≠ .working) : rank p ≠ 3 := by
  cases p with
  | working => exact absurd rfl hp
  | _ => simp [rank]

/-- Only the end of the callable takes a worker past its work. -/
theorem ranks_of_worker {mp mp' : MPTest.State} {k i : Nat} {r : Result}
    (hs : WorkerStep n mp k i r mp') (hp : mp.pc k i ≠ .working) (j : Nat)
    (hj : 3 < ranks mp' j) : 3 < ranks mp j := by
  unfold ranks at hj ⊢
  rw [worker_call hs] at hj
  by_cases hkj : mp.call = k ∧ j = i
  · obtain ⟨rfl, rfl⟩ := hkj
    obtain ⟨rfl, -⟩ | hrank := worker_rank hs
    · exact hj
    · have hne := rank_working hp
      omega
  · rwa [worker_other hs hkj] at hj

theorem returned_step {e : Event ω} (ho : OverlapInv n s.mp) (hr : Returned c s)
    (hs : Step n c s e t) : Returned c t := by
  cases hs with
  | call mp _ hmp =>
    cases MPTest.step_cases hmp with
    | call _ hc =>
      intro i hi
      have hpc : s.mp.pc (s.mp.call + 1) i = .unspawned :=
        ho.spawned _ i (.inl (Nat.lt_succ_self _))
      have hi' : 3 < rank (s.mp.pc (s.mp.call + 1) i) := hi
      rw [hpc] at hi'
      simp [rank] at hi'
  | caller e e' mp he hmp =>
    cases MPTest.step_cases hmp with
    | spawn m hc hm =>
      refine hr.keep rfl rfl rfl fun i hi => ?_
      have hi' : 3 < rank ((s.mp.goto s.mp.call m .queued).pc s.mp.call i) := hi
      rw [goto_pc] at hi'
      split at hi'
      · simp [rank] at hi'
      · exact hi'
    | save m hc hm => exact hr.keep rfl rfl rfl fun i hi => hi
    | resume hc => exact hr.keep rfl rfl rfl fun i hi => hi
    | call | worker => simp at he
  | worker k i mp hp hmp =>
    have hw := worker_cases hmp
    exact hr.keep (worker_call hw) (measured_of_worker hw hp) rfl (ranks_of_worker hw hp)
  | work k i answer l shared hp hl =>
    obtain ⟨rfl, -⟩ := ho.of_working hp
    intro j hj
    have hji : j ≠ i := by
      rintro rfl
      have hj' : 3 < rank (s.mp.pc s.mp.call j) := hj
      rw [hp] at hj'
      simp [rank] at hj'
    dsimp only
    rw [Function.update_self, Function.update_of_ne hji]
    exact hr j hj
  | done k i time rc mp hp hrc hmp =>
    obtain ⟨rfl, -⟩ := ho.of_working hp
    cases worker_cases hmp with
    | work _ =>
      intro j hj
      change ∃ time' rc', Function.update s.mp.measured s.mp.call
        (Function.update (s.mp.measured s.mp.call) i (some ⟨time, rc⟩)) s.mp.call j =
          some ⟨time', rc'⟩ ∧ _
      rw [Function.update_self]
      by_cases hji : j = i
      · subst hji
        exact ⟨time, rc, Function.update_self _ _ _, hrc⟩
      · rw [Function.update_of_ne hji]
        apply hr
        have hj' : 3 < rank ((s.mp.goto s.mp.call i (.timed ⟨time, rc⟩)).pc s.mp.call j) := hj
        rwa [goto_pc, if_neg fun he => hji he.2] at hj'
    | start _ hp' | pass _ _ hp' | arrive _ _ hp' | passAgain _ _ _ hp' | write _ hp' | count hp'
    | spin hp' | leave hp' | activate hp' | finish hp' =>
      rw [hp] at hp'
      cases hp'

/-- What holds of the workers of every run. -/
def Inv (n : Nat) (c : Calls σ τ ω) (s : State σ τ) : Prop := OverlapInv n s.mp ∧ Returned c s

theorem Inv.init (n : Nat) (c : Calls σ τ ω) (results : Nat → Result) (shared : σ) :
    Inv n c (.init c results shared) :=
  ⟨.init n results, fun _ hi => absurd hi (Nat.not_lt_zero 3)⟩

theorem Inv.step (h : Inv n c s) {e : Event ω} (hs : Step n c s e t) : Inv n c t := by
  refine ⟨?_, returned_step h.1 h.2 hs⟩
  obtain he | ⟨e', hmp⟩ := hs.mp
  · rw [he]
    exact h.1
  · exact h.1.step (MPTest.step_cases hmp)

theorem inv_of_reachable (h : Reachable (step n c) (.init c results shared) s) : Inv n c s := by
  apply h.invariant (I := Inv n c) (.init n c results shared)
  intro s e t hi _ hs
  exact hi.step (step_cases hs)

/-- Work is done only for a call that is under way. When `MPTest` has returned, each of its `n`
workers has run the callable to its end, and the lines that were printed are what they returned. -/
structure Contained (n : Nat) (c : Calls σ τ ω) (s : State σ τ) : Prop where
  working : ∀ k i, s.mp.pc k i = .working → i < n ∧ s.mp.Live k
  returned : s.mp.caller = .outside → 0 < s.mp.call → s.mp.checked = true ∧
    s.mp.printed.map (fun r => some r.rc) =
      (List.range n).map fun i => (c.work s.mp.call).result (s.locals s.mp.call i)

theorem contained_of_reachable (h : Reachable (step n c) (.init c results shared) s) :
    Contained n c s := by
  obtain ⟨ho, hr⟩ := inv_of_reachable h
  constructor
  · intro k i hp
    obtain ⟨rfl, -, hi, -, hc⟩ := ho.of_working hp
    exact ⟨hi, rfl, hc⟩
  · intro hc hk
    have hcaller := ho.callerInv hk
    rw [CallerInv, hc] at hcaller
    obtain ⟨-, -, hchecked, hprinted⟩ := hcaller
    refine ⟨hchecked, ?_⟩
    have hrc := congrArg (List.map (Option.map Result.rc)) hprinted
    rw [List.map_map, List.map_map] at hrc
    refine hrc.trans (List.map_congr_left fun i hi => ?_)
    have hcounted := ho.all_counted hk (.inr hc) i (List.mem_range.mp hi)
    obtain ⟨time, rc, hmeasured, hresult⟩ := hr i (by omega)
    rw [Function.comp_apply, hmeasured, hresult, Option.map_some]

theorem Contained.result (h : Contained n c s) (hc : s.mp.caller = .outside) (hk : 0 < s.mp.call)
    {i : Nat} (hi : i < n) :
    ∃ rc, (c.work s.mp.call).result (s.locals s.mp.call i) = some rc := by
  have hmem := List.mem_map_of_mem
    (f := fun i => (c.work s.mp.call).result (s.locals s.mp.call i)) (List.mem_range.mpr hi)
  rw [← (h.returned hc hk).2, List.mem_map] at hmem
  obtain ⟨r, -, hr⟩ := hmem
  exact ⟨r.rc, hr.symm⟩

/-- The lines that were printed, when the results of the callables are known. -/
theorem Contained.rows (h : Contained n c s) (hc : s.mp.caller = .outside) (hk : 0 < s.mp.call)
    {e : Nat → BitVec 32} (he : ∀ i < n, ∀ rc,
      (c.work s.mp.call).result (s.locals s.mp.call i) = some rc → rc = e i) :
    s.mp.printed.map Result.rc = (List.range n).map e := by
  have hrows := (h.returned hc hk).2
  have hsome : (List.range n).map (fun i => (c.work s.mp.call).result (s.locals s.mp.call i)) =
      (List.range n).map fun i => some (e i) := by
    apply List.map_congr_left
    intro i hi
    obtain ⟨rc, hrc⟩ := h.result hc hk (List.mem_range.mp hi)
    rw [hrc, he i (List.mem_range.mp hi) rc hrc]
  apply List.map_injective_iff.mpr (Option.some_injective _)
  rw [List.map_map, List.map_map]
  exact hrows.trans hsome

/-- A rule for calls that follow each other: `I k` holds before call `k`, and `J k` from its entry
to its return, whatever order the steps of its workers take. -/
structure Rule (n : Nat) (c : Calls σ τ ω) (I : Nat → σ → Prop) (J : Nat → (Nat → τ) → σ → Prop) :
    Prop where
  enter : ∀ k σ, k < c.total → I (k + 1) σ →
    J (k + 1) (fun _ => (c.work (k + 1)).begin) (c.before (k + 1) σ)
  work : ∀ k l σ i answer l' σ', 0 < k → i < n → J k l σ →
    (c.work k).advance i answer (l i) σ = some (l', σ') → J k (Function.update l i l') σ'
  leave : ∀ k l σ, 0 < k → J k l σ → (∀ i < n, ((c.work k).result (l i)).isSome) → I (k + 1) σ

/-- The latest call is in its invariant; before the first call its precondition holds. -/
def Phase (I : Nat → σ → Prop) (J : Nat → (Nat → τ) → σ → Prop) (s : State σ τ) : Prop :=
  (s.mp.call = 0 → I 1 s.shared) ∧ (0 < s.mp.call → J s.mp.call (s.locals s.mp.call) s.shared)

namespace Rule

variable {I : Nat → σ → Prop} {J : Nat → (Nat → τ) → σ → Prop}

/-- The event goes on when all of its workers have returned. -/
theorem next (hrule : Rule n c I J) (ho : OverlapInv n s.mp) (hr : Returned c s)
    (hphase : Phase I J s) (hc : s.mp.caller = .outside) : I (s.mp.call + 1) s.shared := by
  by_cases hk : s.mp.call = 0
  · rw [hk]
    exact hphase.1 hk
  · have hpos := Nat.pos_of_ne_zero hk
    apply hrule.leave s.mp.call _ _ hpos (hphase.2 hpos)
    intro i hi
    have hcounted := ho.all_counted hpos (.inr hc) i hi
    obtain ⟨-, rc, -, hresult⟩ := hr i (by omega)
    rw [hresult]
    rfl

theorem phase_step (hrule : Rule n c I J) {e : Event ω} (ho : OverlapInv n s.mp)
    (hr : Returned c s) (hphase : Phase I J s) (hs : Step n c s e t) : Phase I J t := by
  have hkeep : ∀ mp : MPTest.State, mp.call = s.mp.call → Phase I J { s with mp := mp } := by
    intro mp hcall
    refine ⟨fun hk => hphase.1 (hcall ▸ hk), fun hk => ?_⟩
    change J mp.call (s.locals mp.call) s.shared
    rw [hcall] at hk ⊢
    exact hphase.2 hk
  cases hs with
  | call mp hk hmp =>
    cases MPTest.step_cases hmp with
    | call _ hc =>
      refine ⟨fun hz => absurd hz (Nat.succ_ne_zero _), fun _ => ?_⟩
      change J (s.mp.call + 1) (Function.update s.locals (s.mp.call + 1)
        (fun _ => (c.work (s.mp.call + 1)).begin) (s.mp.call + 1)) _
      rw [Function.update_self]
      exact hrule.enter s.mp.call s.shared hk (hrule.next ho hr hphase hc)
  | caller e e' mp he hmp =>
    cases MPTest.step_cases hmp with
    | spawn | save | resume => exact hkeep _ rfl
    | call | worker => simp at he
  | worker k i mp hp hmp => exact hkeep mp (worker_call (worker_cases hmp))
  | done k i time rc mp hp hrc hmp => exact hkeep mp (worker_call (worker_cases hmp))
  | work k i answer l shared hp hl =>
    obtain ⟨rfl, hpos, hi, -⟩ := ho.of_working hp
    refine ⟨fun hz => absurd hz (Nat.ne_of_gt hpos), fun _ => ?_⟩
    change J s.mp.call (Function.update s.locals s.mp.call
      (Function.update (s.locals s.mp.call) i l) s.mp.call) shared
    rw [Function.update_self]
    exact hrule.work _ _ _ i answer l shared hpos hi (hphase.2 hpos) hl

theorem invariant (hrule : Rule n c I J) (hinit : I 1 shared)
    (h : Reachable (step n c) (.init c results shared) s) :
    (0 < s.mp.call → J s.mp.call (s.locals s.mp.call) s.shared) ∧
      (s.mp.caller = .outside → I (s.mp.call + 1) s.shared) := by
  obtain ⟨⟨ho, hr⟩, hphase⟩ := h.invariant (I := fun s => Inv n c s ∧ Phase I J s)
    ⟨.init n c results shared, fun _ => hinit, fun hk => absurd hk (Nat.lt_irrefl 0)⟩
    fun s e t hi _ hs => ⟨hi.1.step (step_cases hs),
      hrule.phase_step hi.1.1 hi.1.2 hi.2 (step_cases hs)⟩
  exact ⟨hphase.2, hrule.next ho hr hphase⟩

end Rule

/-- A call in the body of a loop: what the test does before it, and the callable. -/
structure Stage (σ τ ω : Type*) where
  before : σ → σ
  work : Work σ τ ω

/-- `for (int i=0; i<times; i++)` around `m` calls, each with its own instance of `MPTest`. -/
def repeated (times : Int) (m : Nat) (block : Nat → Stage σ τ ω) : Calls σ τ ω where
  total := times.toNat * m
  site k := (k - 1) % m
  before k := (block ((k - 1) % m)).before
  work k := (block ((k - 1) % m)).work

/-- The rule of a loop whose invariants are the same in each round. -/
theorem Rule.repeated {times : Int} {m : Nat} {block : Nat → Stage σ τ ω} {I : Nat → σ → Prop}
    {J : Nat → (Nat → τ) → σ → Prop} (hm : 0 < m)
    (enter : ∀ j σ, j < m → I j σ → J j (fun _ => (block j).work.begin) ((block j).before σ))
    (work : ∀ j l σ i answer l' σ', j < m → i < n → J j l σ →
      (block j).work.advance i answer (l i) σ = some (l', σ') → J j (Function.update l i l') σ')
    (leave : ∀ j l σ, j < m → J j l σ → (∀ i < n, ((block j).work.result (l i)).isSome) →
      I ((j + 1) % m) σ) :
    Rule n (MPTestWork.repeated times m block) (fun k => I ((k - 1) % m))
      (fun k => J ((k - 1) % m)) where
  enter k σ _ hi := enter _ σ (Nat.mod_lt _ hm) hi
  work k l σ i answer l' σ' _ hi hj := work _ l σ i answer l' σ' (Nat.mod_lt _ hm) hi hj
  leave k l σ hk hj hl := by
    have hnext : ((k - 1) % m + 1) % m = (k + 1 - 1) % m := by
      rw [Nat.mod_add_mod, Nat.sub_add_cancel hk, Nat.add_sub_cancel]
    rw [← hnext]
    exact leave _ l σ (Nat.mod_lt _ hm) hj hl

/-- The events of a call in which the `n` workers take their steps in turn, `rounds` of them in the
callable, where `answer j i` is the answer to worker `i` in round `j`. -/
def turns (n k rounds : Nat) (answer : Nat → Nat → ω) : List (Event ω) :=
  let all := (List.range n).map (Event.worker k ·)
  .call :: List.replicate n .spawn ++ .save :: all ++ all ++
    (List.range rounds).flatMap (fun j => (List.range n).map fun i => .work k i (answer j i)) ++
    (List.range n).map (Event.done k · 0) ++ (List.replicate 6 all).flatten ++ [.resume]

end EbbrtContrib.MPTestWork
