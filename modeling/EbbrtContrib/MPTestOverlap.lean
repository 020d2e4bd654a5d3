import EbbrtContrib.MPTestProgress

namespace EbbrtContrib.MPTestOverlap

open CyclicBarrier MPTest MPTestCall MPTestFrame MPTestProgress Runs

variable {s t : State} {n k i : Nat} {r : Result} {p : Pc}

/-- A call may be entered while workers of earlier calls are still in their spin loops: these
have counted themselves, and worker 0, which wakes the caller, has finished. -/
structure OverlapInv (n : Nat) (s : State) : Prop where
  spawned : Spawned n s
  old : ∀ k i, 0 < k → k < s.call → i < n →
    8 ≤ rank (s.pc k i) ∧ (i = 0 → s.pc k i = .finished)
  none : ∀ i, s.pc 0 i = .unspawned
  gate : Gate (ranks s) n 8
  counted : s.count = tally (ranks s) n 8
  carries : ∀ i m, carried (s.pc s.call i) = some m → s.measured s.call i = some m
  written : ∀ i, 6 < ranks s i → s.measured s.call i = some (s.results i)
  caller : s.caller = .outside ∧ s.call = 0 ∨ 0 < s.call ∧ CallerInv n s

/-- What a worker of the latest call does when it goes on to `p`. -/
structure Advance (n : Nat) (s t : State) (i : Nat) (p : Pc) : Prop where
  moved : Moved s t i p
  spawned : 0 < ranks s i
  start : i = 0 → ranks s i = 1 → s.caller = .saved
  pass : ranks s i = 8 → n ≤ s.count
  count : t.count = s.count + if 8 = ranks s i + 1 then 1 else 0
  printed : t.printed = s.printed
  checked : t.checked = s.checked
  quiet : ¬ (i = 0 ∧ ranks s i = 9) → t.caller = s.caller ∧ t.activations = s.activations
  wakes : i = 0 → ranks s i = 9 → t.caller = .activated ∧ t.activations = s.activations + 1
  carry : ∀ m, carried p = some m →
    carried (s.pc s.call i) = some m ∨ t.measured s.call i = some m
  measured : ranks s i ≠ 3 → t.measured = s.measured
  measuredOther : ∀ k j, ¬ (k = s.call ∧ j = i) → t.measured k j = s.measured k j
  results : ranks s i ≠ 6 → t.results = s.results
  resultsOther : ∀ j, j ≠ i → t.results j = s.results j
  write : ranks s i = 6 → carried (s.pc s.call i) = some (t.results i)

theorem advance_of_step (hs : WorkerStep n s s.call i r t) :
    t = s.touch s.call ∨ ∃ p, Advance n s t i p := by
  have hrank : ∀ q, s.pc s.call i = q → ranks s i = rank q := fun q hq => congrArg rank hq
  cases hs with
  | start bar hp hm hb =>
    have hr := hrank _ hp
    refine .inr ⟨.waiting bar.generation, ⟨rfl, rfl, goto_pc _ _ _ _, ?_⟩, ?_, ?_, ?_, ?_, rfl, rfl,
      fun _ => ⟨rfl, rfl⟩, ?_, ?_, fun _ => rfl, fun _ _ _ => rfl, fun _ => rfl, fun _ _ => rfl, ?_⟩
    · rw [hr, rank, rank]
    · rw [hr, rank]
      exact Nat.one_pos
    · exact fun hi _ => hm.2 hi
    all_goals simp [hr, rank, carried, State.goto, State.arrive]
  | pass g bar hp hb ho =>
    have hr := hrank _ hp
    refine .inr ⟨.working, .goto s i (by rw [hr, rank, rank]), ?_, ?_, ?_, ?_, rfl, rfl,
      fun _ => ⟨rfl, rfl⟩, ?_, ?_, fun _ => rfl, fun _ _ _ => rfl, fun _ => rfl, fun _ _ => rfl, ?_⟩
    all_goals simp [hr, rank, carried, State.goto]
  | work hp =>
    have hr := hrank _ hp
    have hother : ∀ k j, ¬ (k = s.call ∧ j = i) → Function.update s.measured s.call
        (Function.update (s.measured s.call) i (some r)) k j = s.measured k j := by
      intro k j hkj
      by_cases hk : k = s.call
      · subst hk
        rw [Function.update_self, Function.update_of_ne fun hj => hkj ⟨rfl, hj⟩]
      · rw [Function.update_of_ne hk]
    refine .inr ⟨.timed r, ⟨rfl, rfl, goto_pc _ _ _ _, ?_⟩, ?_, ?_, ?_, ?_, rfl, rfl,
      fun _ => ⟨rfl, rfl⟩, ?_, ?_, ?_, hother, fun _ => rfl, fun _ _ => rfl, ?_⟩
    · rw [hr, rank, rank]
    all_goals simp [hr, rank, carried, State.goto, State.touch]
  | arrive m bar hp hb =>
    have hr := hrank _ hp
    refine .inr ⟨.waitingAgain bar.generation m, ⟨rfl, rfl, goto_pc _ _ _ _, ?_⟩, ?_, ?_, ?_, ?_,
      rfl, rfl, fun _ => ⟨rfl, rfl⟩, ?_, ?_, fun _ => rfl, fun _ _ _ => rfl, fun _ => rfl,
      fun _ _ => rfl, ?_⟩
    · rw [hr, rank, rank]
    all_goals simp [hr, hp, rank, carried, State.goto, State.arrive]
  | passAgain g m bar hp hb ho =>
    have hr := hrank _ hp
    refine .inr ⟨.writing m, .goto s i (by rw [hr, rank, rank]), ?_, ?_, ?_, ?_, rfl, rfl,
      fun _ => ⟨rfl, rfl⟩, ?_, ?_, fun _ => rfl, fun _ _ _ => rfl, fun _ => rfl, fun _ _ => rfl, ?_⟩
    all_goals simp [hr, hp, rank, carried, State.goto]
  | write m hp =>
    have hr := hrank _ hp
    refine .inr ⟨.counting, ⟨rfl, rfl, goto_pc _ _ _ _, ?_⟩, ?_, ?_, ?_, ?_, rfl, rfl,
      fun _ => ⟨rfl, rfl⟩, ?_, ?_, fun _ => rfl, fun _ _ _ => rfl, ?_,
      fun j hj => Function.update_of_ne hj _ _, ?_⟩
    · rw [hr, rank, rank]
    all_goals simp [hr, hp, rank, carried, State.goto]
  | count hp =>
    have hr := hrank _ hp
    refine .inr ⟨.spinning, ⟨rfl, rfl, goto_pc _ _ _ _, ?_⟩, ?_, ?_, ?_, ?_, rfl, rfl,
      fun _ => ⟨rfl, rfl⟩, ?_, ?_, fun _ => rfl, fun _ _ _ => rfl, fun _ => rfl, fun _ _ => rfl, ?_⟩
    · rw [hr, rank, rank]
    all_goals simp [hr, rank, carried, State.goto]
  | spin hp hc => exact .inl rfl
  | leave hp hc =>
    have hr := hrank _ hp
    refine .inr ⟨.leaving, ⟨rfl, rfl, goto_pc _ _ _ _, ?_⟩, ?_, ?_, fun _ => hc, ?_, rfl, rfl,
      fun _ => ⟨rfl, rfl⟩, ?_, ?_, fun _ => rfl, fun _ _ _ => rfl, fun _ => rfl, fun _ _ => rfl, ?_⟩
    · rw [hr, rank, rank]
    all_goals simp [hr, rank, carried, State.goto, State.touch]
  | activate hp hi =>
    have hr := hrank _ hp
    refine .inr ⟨.finished, ⟨rfl, rfl, goto_pc _ _ _ _, ?_⟩, ?_, ?_, ?_, ?_, rfl, rfl,
      fun hq => absurd ⟨hi, hr⟩ hq, fun _ _ => ⟨rfl, rfl⟩, ?_, fun _ => rfl, fun _ _ _ => rfl,
      fun _ => rfl, fun _ _ => rfl, ?_⟩
    · rw [hr, rank, rank]
    all_goals simp [hr, rank, carried, State.goto, State.touch]
  | finish hp hi =>
    have hr := hrank _ hp
    refine .inr ⟨.finished, .goto s i (by rw [hr, rank, rank]), ?_, ?_, ?_, ?_, rfl, rfl,
      fun _ => ⟨rfl, rfl⟩, fun h0 => absurd h0 hi, ?_, fun _ => rfl, fun _ _ _ => rfl,
      fun _ => rfl, fun _ _ => rfl, ?_⟩
    all_goals simp [hr, rank, carried, State.goto]

theorem carried_of_working (hr : ranks s i = 3) : carried (s.pc s.call i) = none := by
  unfold ranks at hr
  cases hp : s.pc s.call i with
  | timed m | waitingAgain g m | writing m =>
    rw [hp] at hr
    simp [rank] at hr
  | _ => rfl

namespace OverlapInv

theorem init (n : Nat) (results : Nat → Result) : OverlapInv n (.init results) where
  spawned := fun _ _ _ => rfl
  old := fun k i h0 hk => absurd hk (Nat.not_lt_zero k)
  none := fun _ => rfl
  gate := gate_of_zero fun _ => rfl
  counted := (tally_of_zero fun _ => rfl).symm
  carries := fun _ _ h => by cases h
  written := fun _ h => absurd h (Nat.not_lt_zero 6)
  caller := .inl ⟨rfl, rfl⟩

theorem callerInv (h : OverlapInv n s) (hk : 0 < s.call) : CallerInv n s :=
  (h.caller.resolve_left fun hc => absurd hc.2 (Nat.ne_of_gt hk)).2

theorem index_lt (h : OverlapInv n s) (hp : s.pc k i ≠ .unspawned) : i < n := by
  by_contra hi
  exact hp (h.spawned k i (.inr (Nat.le_of_not_lt hi)))

theorem call_pos (h : OverlapInv n s) (hr : 0 < ranks s i) : 0 < s.call := by
  apply Nat.pos_of_ne_zero
  intro hz
  rw [ranks, hz, h.none, rank] at hr
  exact absurd hr (Nat.lt_irrefl 0)

theorem rank_index (h : OverlapInv n s) (hr : 0 < ranks s i) : i < n := by
  apply h.index_lt (k := s.call)
  intro hp
  rw [ranks, hp, rank] at hr
  exact absurd hr (Nat.lt_irrefl 0)

/-- The caller goes on only when every worker of its call has counted itself. -/
theorem all_counted (h : OverlapInv n s) (hk : 0 < s.call)
    (hc : s.caller = .activated ∨ s.caller = .outside) : ∀ i < n, 8 ≤ ranks s i := by
  have hzero : ranks s 0 = 10 := by
    have hcaller := h.callerInv hk
    unfold CallerInv at hcaller
    obtain hc | hc := hc
    all_goals
      rw [hc] at hcaller
      exact hcaller.1
  exact tally_eq_iff.mp (h.gate 0 (by omega))

theorem enter (h : OverlapInv n s) (hc : s.caller = .outside) (site : Nat) :
    OverlapInv n (enter n s site) := by
  have hpc : ∀ i, s.pc (s.call + 1) i = .unspawned := fun i => h.spawned _ i (.inl (by omega))
  have hranks : ∀ i, ranks (MPTest.enter n s site) i = 0 := by
    intro i
    simp [ranks, MPTest.enter, hpc, rank]
  have hcall : (MPTest.enter n s site).call = s.call + 1 := rfl
  refine ⟨?_, ?_, h.none, gate_of_zero hranks, (tally_of_zero hranks).symm, ?_, ?_,
    .inr ⟨hcall ▸ Nat.succ_pos _, ?_⟩⟩
  · intro k i hki
    exact h.spawned k i (by omega)
  · intro k i h0 hk hi
    by_cases hlt : k < s.call
    · exact h.old k i h0 hlt hi
    · obtain rfl : k = s.call := by omega
      have hcaller := h.callerInv h0
      rw [CallerInv, hc] at hcaller
      refine ⟨h.all_counted h0 (.inr hc) i hi, ?_⟩
      rintro rfl
      have hten : rank (s.pc s.call 0) = 10 := hcaller.1
      change s.pc s.call 0 = .finished
      cases hp : s.pc s.call 0 with
      | finished => rfl
      | _ =>
        rw [hp] at hten
        simp [rank] at hten
  · intro i m hm
    simp [MPTest.enter, hpc, carried] at hm
  · intro i hi
    rw [hranks i] at hi
    omega
  · refine ⟨Nat.zero_le n, ?_, ?_, rfl⟩
    · intro i
      rw [hranks i]
      omega
    · rw [hranks 0]
      omega

/-- A worker of the latest call goes on. -/
theorem move (h : OverlapInv n s) (hm : Moved s t i p) (hi : i < n) (hk : 0 < s.call)
    (hgate : ranks s i = 8 → n ≤ s.count)
    (hcount : t.count = s.count + if 8 = ranks s i + 1 then 1 else 0)
    (hcarries : ∀ m, carried p = some m → t.measured s.call i = some m)
    (hwritten : 6 < rank p → t.measured s.call i = some (t.results i))
    (hmeasured : ∀ j, j ≠ i → t.measured s.call j = s.measured s.call j)
    (hresults : ∀ j, j ≠ i → t.results j = s.results j)
    (hcaller : CallerInv n t) : OverlapInv n t := by
  have hpc : ∀ k' i', ¬ (k' = s.call ∧ i' = i) → t.pc k' i' = s.pc k' i' := by
    intro k' i' hne
    rw [hm.pc, if_neg hne]
  refine ⟨?_, ?_, ?_, ?_, ?_, ?_, ?_, .inr ⟨hm.call ▸ hk, hcaller⟩⟩
  · intro k' i' hki
    rw [hm.call] at hki
    rw [hpc k' i' (by omega)]
    exact h.spawned k' i' hki
  · intro k' i' h0 hlt hi'
    rw [hm.call] at hlt
    rw [hpc k' i' (by omega)]
    exact h.old k' i' h0 hlt hi'
  · intro i'
    rw [hpc 0 i' (by omega)]
    exact h.none i'
  · apply h.gate.advance hi hm.ranks_self hm.ranks_other
    intro h8
    have hge := hgate h8
    rw [h.counted] at hge
    exact le_antisymm tally_le hge
  · rw [hcount, h.counted, tally_advance hi hm.ranks_self hm.ranks_other]
  · intro j m hj
    rw [hm.call]
    by_cases hji : j = i
    · subst hji
      rw [hm.pc_self] at hj
      exact hcarries m hj
    · rw [hm.pc_other hji] at hj
      rw [hmeasured j hji]
      exact h.carries j m hj
  · intro j hj
    rw [hm.call]
    by_cases hji : j = i
    · subst hji
      rw [hm.ranks_self, ← hm.next] at hj
      exact hwritten hj
    · rw [hm.ranks_other j hji] at hj
      rw [hmeasured j hji, hresults j hji]
      exact h.written j hj

theorem spawn (h : OverlapInv n s) {m : Nat} (hc : s.caller = .spawning m) (hm : m < n) :
    OverlapInv n { s.goto s.call m .queued with caller := .spawning (m + 1) } := by
  obtain ⟨hk, hcaller⟩ := h.caller.resolve_left fun ho => by cases hc.symm.trans ho.1
  rw [CallerInv, hc] at hcaller
  obtain ⟨-, hspawned, hzero, hact⟩ := hcaller
  have hr : ranks s m = 0 := by
    have := hspawned m
    omega
  have hmv : Moved s { s.goto s.call m .queued with caller := .spawning (m + 1) } m .queued :=
    ⟨rfl, rfl, goto_pc _ _ _ _, by rw [hr, rank]⟩
  apply h.move hmv hm hk (by omega) (by rw [hr]; rfl) (fun _ hm => by cases hm) (by simp [rank])
    (fun _ _ => rfl) fun _ _ => rfl
  refine ⟨hm, ?_, ?_, hact⟩
  · intro j
    by_cases hj : j = m
    · subst hj
      have hself := hmv.ranks_self
      omega
    · rw [hmv.ranks_other j hj, hspawned j]
      omega
  · by_cases hz : m = 0
    · subst hz
      have hself := hmv.ranks_self
      omega
    · rw [hmv.ranks_other 0 (Ne.symm hz)]
      exact hzero

theorem save (h : OverlapInv n s) {m : Nat} (hc : s.caller = .spawning m) (hm : n ≤ m) :
    OverlapInv n { s with caller := .saved } := by
  obtain ⟨hk, hcaller⟩ := h.caller.resolve_left fun ho => by cases hc.symm.trans ho.1
  rw [CallerInv, hc] at hcaller
  obtain ⟨-, hspawned, hzero, hact⟩ := hcaller
  refine ⟨h.spawned, h.old, h.none, h.gate, h.counted, h.carries, h.written, .inr ⟨hk, ?_⟩⟩
  refine ⟨fun j hj => (hspawned j).mpr (by omega), ?_, hact⟩
  change ranks s 0 < 10
  omega

theorem resume (h : OverlapInv n s) (hc : s.caller = .activated) : OverlapInv n (leave n s) := by
  obtain ⟨hk, hcaller⟩ := h.caller.resolve_left fun ho => by cases hc.symm.trans ho.1
  have hall := h.all_counted hk (.inl hc)
  rw [CallerInv, hc] at hcaller
  refine ⟨h.spawned, h.old, h.none, h.gate, h.counted, h.carries, h.written, .inr ⟨hk, ?_⟩⟩
  refine ⟨hcaller.1, hcaller.2, ?_, ?_⟩
  · change (n == s.count) = true
    rw [h.counted, tally_eq_iff.mpr hall, beq_self_eq_true]
  · change ((List.range n).map s.results).map some = (List.range n).map (s.measured s.call)
    rw [List.map_map]
    apply List.map_congr_left
    intro j hj
    have hr := hall j (List.mem_range.mp hj)
    exact (h.written j (by omega)).symm

theorem touch (h : OverlapInv n s) (k : Nat) : OverlapInv n (s.touch k) :=
  ⟨h.spawned, h.old, h.none, h.gate, h.counted, h.carries, h.written, h.caller⟩

/-- Worker 0 ends the wait of a caller that has saved its context; the other moves leave the
caller where it is. -/
theorem advance_caller (h : OverlapInv n s) (ha : Advance n s t i p) : CallerInv n t := by
  have hcaller := h.callerInv (h.call_pos ha.spawned)
  have hnext := ha.moved.next
  by_cases hw : i = 0 ∧ ranks s i = 9
  · obtain ⟨rfl, hr⟩ := hw
    have hsaved := hcaller.saved (by omega) (by omega)
    obtain ⟨hact, hactivations⟩ := ha.wakes rfl hr
    rw [CallerInv, hsaved] at hcaller
    rw [CallerInv, hact]
    exact ⟨by rw [ha.moved.ranks_self, hr], by rw [hactivations, hcaller.2.2]⟩
  · obtain ⟨hkeep, hactivations⟩ := ha.quiet hw
    have hle := rank_le p
    apply hcaller.move ha.moved ha.spawned _ hkeep hactivations ha.checked ha.printed
    · intro hc
      have hcounted := h.all_counted (h.call_pos ha.spawned) (.inr hc) i (h.rank_index ha.spawned)
      exact ha.measured (by omega)
    · rintro rfl
      have hlt : ranks s 0 < 9 := by omega
      refine ⟨?_, hlt⟩
      by_cases hone : ranks s 0 = 1
      · exact ha.start rfl hone
      · have hpos := ha.spawned
        exact hcaller.saved (by omega) (by omega)

theorem advance (h : OverlapInv n s) (ha : Advance n s t i p) : OverlapInv n t := by
  have hnext := ha.moved.next
  apply h.move ha.moved (h.rank_index ha.spawned) (h.call_pos ha.spawned) ha.pass ha.count
  · intro m hm
    obtain hold | hnew := ha.carry m hm
    · have hworking : ranks s i ≠ 3 := fun hr => by
        rw [carried_of_working hr] at hold
        cases hold
      rw [ha.measured hworking]
      exact h.carries i m hold
    · exact hnew
  · intro hr
    rw [ha.measured (by omega)]
    by_cases hsix : ranks s i = 6
    · exact h.carries i _ (ha.write hsix)
    · rw [ha.results hsix]
      exact h.written i (by omega)
  · exact fun j hj => ha.measuredOther s.call j fun he => hj he.2
  · exact ha.resultsOther
  · exact h.advance_caller ha

theorem goto_old (h : OverlapInv n s) (hk : k ≠ s.call) (h0 : 0 < k) (hi : i < n) (hlt : k < s.call)
    (hp : 8 ≤ rank p) (hfirst : i = 0 → p = .finished) : OverlapInv n (s.goto k i p) := by
  have hpc : (s.goto k i p).pc s.call = s.pc s.call := by
    funext j
    rw [goto_pc, if_neg fun he => hk he.1.symm]
  have hranks : ranks (s.goto k i p) = ranks s := by
    funext j
    rw [ranks, ranks, ← hpc]
    rfl
  refine ⟨?_, ?_, ?_, by rw [hranks]; exact h.gate, by rw [hranks]; exact h.counted, ?_,
    by rw [hranks]; exact h.written, ?_⟩
  · intro k' i' hki
    have hki' : s.call < k' ∨ n ≤ i' := hki
    rw [goto_pc, if_neg (by omega)]
    exact h.spawned k' i' hki
  · intro k' i' h0' hlt' hi'
    rw [goto_pc]
    split
    · rename_i he
      exact ⟨hp, fun hz => hfirst (he.2 ▸ hz)⟩
    · exact h.old k' i' h0' hlt' hi'
  · intro j
    rw [goto_pc, if_neg (by omega)]
    exact h.none j
  · intro j m hm
    exact h.carries j m ((congrArg carried (congrFun hpc j)).symm.trans hm)
  · have hcaller := h.caller
    unfold CallerInv at hcaller ⊢
    rw [hranks]
    exact hcaller

/-- A worker of an earlier call only leaves its loop and ends. -/
theorem old_worker (h : OverlapInv n s) (hs : WorkerStep n s k i r t) (hk : k ≠ s.call) :
    OverlapInv n t := by
  have hne := not_unspawned hs
  have hi := h.index_lt hne
  have h0 : 0 < k := Nat.pos_of_ne_zero fun hz => hne (hz ▸ h.none i)
  have hlt : k < s.call := by
    by_contra hle
    exact hne (h.spawned k i (.inl (by omega)))
  obtain ⟨hrank, hfirst⟩ := h.old k i h0 hlt hi
  have hnotFirst : s.pc k i ≠ .finished → i ≠ 0 := fun hp hz => hp (hfirst hz)
  cases hs with
  | spin hp hc => exact h.touch k
  | leave hp hc =>
    apply (h.touch k).goto_old hk h0 hi hlt (by simp [rank])
    exact fun hz => absurd hz (hnotFirst (by simp [hp]))
  | finish hp hz => exact h.goto_old hk h0 hi hlt (by simp [rank]) fun _ => rfl
  | activate hp hz => exact absurd hz (hnotFirst (by simp [hp]))
  | start _ hp | pass _ _ hp | work hp | arrive _ _ hp | passAgain _ _ _ hp | write _ hp
  | count hp =>
    rw [hp] at hrank
    simp [rank] at hrank

theorem step (h : OverlapInv n s) {e : Event} (hs : Step n s e t) : OverlapInv n t := by
  cases hs with
  | call site hc => exact h.enter hc site
  | spawn m hc hm => exact h.spawn hc hm
  | save m hc hm => exact h.save hc hm
  | resume hc => exact h.resume hc
  | worker k i r t hw =>
    by_cases hk : k = s.call
    · subst hk
      obtain rfl | ⟨p, ha⟩ := advance_of_step hw
      · exact h.touch s.call
      · exact h.advance ha
    · exact h.old_worker hw hk

/-- Work is done for the latest call only, while its caller waits or still spawns. -/
theorem of_working (h : OverlapInv n s) (hp : s.pc k i = .working) :
    k = s.call ∧ 0 < s.call ∧ i < n ∧ s.caller ≠ .activated ∧ s.caller ≠ .outside := by
  have hne : s.pc k i ≠ .unspawned := by
    rw [hp]
    intro he
    cases he
  have hi := h.index_lt hne
  have h0 : 0 < k := Nat.pos_of_ne_zero fun hz => hne (hz ▸ h.none i)
  obtain rfl : k = s.call := by
    by_contra hk
    obtain hlt | hlt := Nat.lt_or_gt_of_ne hk
    · have hrank := (h.old k i h0 hlt hi).1
      rw [hp] at hrank
      simp [rank] at hrank
    · exact hne (h.spawned k i (.inl hlt))
  have hbefore : ∀ c, c = Caller.activated ∨ c = .outside → s.caller ≠ c := by
    rintro c hc rfl
    have hrank := h.all_counted h0 hc i hi
    rw [ranks, hp] at hrank
    simp [rank] at hrank
  exact ⟨rfl, h0, hi, hbefore _ (.inl rfl), hbefore _ (.inr rfl)⟩

end OverlapInv

theorem overlapInv_of_reachable {results : Nat → Result}
    (h : Reachable (step n) (.init results) s) : OverlapInv n s := by
  apply h.invariant (I := OverlapInv n) (.init n results)
  intro s e t hi _ hs
  exact hi.step (step_cases hs)

end EbbrtContrib.MPTestOverlap
