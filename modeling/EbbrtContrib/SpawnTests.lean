import EbbrtContrib.MPTestWork

namespace EbbrtContrib.SpawnTests

open MPTest MPTestWork Runs

/-- The variables of the loops: `j` is that of `spawnNullRemoteTest`. -/
structure Loop where
  i : Int
  j : Nat
  deriving DecidableEq, Repr

/-- What has been handed to the event managers: from which CPU, and to which. -/
abbrev Spawned := List (Nat × Nat)

/-- `for (i=0; i<acnt; i++)` around one round of the callable. -/
def rounds {σ : Type*} (acnt : Int) (round : Nat → Loop → σ → Loop × σ) : Work σ Loop Unit where
  begin := ⟨0, 0⟩
  advance cpu _ l s := if l.i < acnt then some (round cpu l s) else none
  result l := if l.i < acnt then none else some (BitVec.ofInt 32 l.i)

/-- The callable of `timing_test` and `nullfunc_test`, which has no effect. -/
def nullRound (_cpu : Nat) (l : Loop) (s : Unit) : Loop × Unit := (⟨l.i + 1, l.j⟩, s)

def timingTest (rcnt acnt : Int) : Calls Unit Loop Unit :=
  repeated rcnt 1 fun _ => ⟨id, rounds acnt nullRound⟩

def nullfuncTest (rcnt acnt : Int) : Calls Unit Loop Unit :=
  repeated rcnt 1 fun _ => ⟨id, rounds acnt nullRound⟩

/-- `Spawn` -/
def localRound (cpu : Nat) (l : Loop) (s : Spawned) : Loop × Spawned :=
  (⟨l.i + 1, l.j⟩, s ++ [(cpu, cpu)])

/-- `SpawnRemote` for each of `numCores` CPUs, one at a time. -/
def remoteRound (numCores cpu : Nat) (l : Loop) (s : Spawned) : Loop × Spawned :=
  if l.j < numCores then (⟨l.i, l.j + 1⟩, s ++ [(cpu, l.j)]) else (⟨l.i + 1, 0⟩, s)

def spawnNullLocalTest (acnt : Int) : Stage Spawned Loop Unit := ⟨id, rounds acnt localRound⟩

def spawnNullRemoteTest (count : Nat) (acnt : Int) : Stage Spawned Loop Unit :=
  ⟨id, rounds acnt (remoteRound count)⟩

def spawnTest (count : Nat) (rcnt acnt : Int) : Calls Spawned Loop Unit :=
  repeated rcnt 2 fun
    | 0 => spawnNullLocalTest acnt
    | _ => spawnNullRemoteTest count acnt

section

variable {σ : Type*} {acnt : Int} {round : Nat → Loop → σ → Loop × σ} {n : Nat}

theorem result_eq_some {l : Loop} {rc : BitVec 32} :
    (rounds acnt round).result l = some rc ↔ acnt ≤ l.i ∧ BitVec.ofInt 32 l.i = rc := by
  simp only [rounds, Option.ite_none_left_eq_some, Option.some.injEq, not_lt]

theorem advance_eq_some {cpu : Nat} {answer : Unit} {l l' : Loop} {s s' : σ} :
    (rounds acnt round).advance cpu answer l s = some (l', s') ↔
      l.i < acnt ∧ round cpu l s = (l', s') := by
  simp only [rounds, Option.ite_none_right_eq_some, Option.some.injEq]

end

/-- A worker has made some of its rounds, and at most `limit` spawns of the next. -/
structure InRange (limit : Nat) (acnt : Int) (l : Loop) : Prop where
  nonneg : 0 ≤ l.i
  le : l.i ≤ max acnt 0
  spawns : l.j ≤ limit
  ended : acnt ≤ l.i → l.j = 0

variable {n count k : Nat} {acnt : Int} {l : Nat → Loop} {s s' : Spawned}

theorem InRange.begin (limit : Nat) (acnt : Int) : InRange limit acnt ⟨0, 0⟩ :=
  ⟨le_rfl, le_max_right acnt 0, Nat.zero_le _, fun _ => rfl⟩

theorem InRange.all {limit : Nat} {l : Loop} (h : InRange limit acnt l) (hle : acnt ≤ l.i) :
    l.i = max acnt 0 ∧ l.j = 0 := by
  refine ⟨?_, h.ended hle⟩
  have hlo := h.nonneg
  have hhi := h.le
  omega

theorem nullTest_rule (n : Nat) (rcnt acnt : Int) :
    Rule n (repeated rcnt 1 fun _ => ⟨id, rounds acnt nullRound⟩) (fun _ _ => True)
      (fun _ l _ => ∀ i < n, InRange 0 acnt (l i)) := by
  apply Rule.repeated (I := fun _ _ => True) (J := fun _ l _ => ∀ i < n, InRange 0 acnt (l i))
    Nat.one_pos
  · exact fun j s _ _ i _ => .begin 0 acnt
  · intro j l s i answer l' s' _ hi h hadv i' hi'
    obtain ⟨hlt, hround⟩ := advance_eq_some.mp hadv
    rw [nullRound, Prod.mk.injEq] at hround
    obtain ⟨rfl, -⟩ := hround
    by_cases he : i' = i
    · subst he
      have hr := h i' hi
      have hlo := hr.nonneg
      rw [Function.update_self]
      refine ⟨?_, ?_, hr.spawns, fun _ => Nat.le_zero.mp hr.spawns⟩
      · change 0 ≤ (l i').i + 1
        omega
      · change (l i').i + 1 ≤ max acnt 0
        omega
    · rw [Function.update_of_ne he]
      exact h i' hi'
  · exact fun _ _ _ _ _ _ => trivial

/-- The lines of `timing_test` and `nullfunc_test` are about all rounds, on every CPU. -/
theorem nullTest_rows {rcnt : Int} {results : Nat → Result} {c : Calls Unit Loop Unit}
    {s : MPTestWork.State Unit Loop}
    (hcalls : c = timingTest rcnt acnt ∨ c = nullfuncTest rcnt acnt)
    (h : Reachable (step n c) (.init c results ()) s) (hc : s.mp.caller = .outside)
    (hk : 0 < s.mp.call) :
    s.mp.printed.map Result.rc = List.replicate n (BitVec.ofInt 32 (max acnt 0)) := by
  obtain rfl : c = repeated rcnt 1 fun _ => ⟨id, rounds acnt nullRound⟩ := hcalls.elim id id
  obtain ⟨hduring, -⟩ := (nullTest_rule n rcnt acnt).invariant trivial h
  rw [(contained_of_reachable h).rows hc hk (e := fun _ => BitVec.ofInt 32 (max acnt 0)),
    List.map_const', List.length_range]
  intro i hi rc hrc
  obtain ⟨hle, rfl⟩ := result_eq_some.mp hrc
  rw [((hduring hk i hi).all hle).1]

/-- How often a worker on `src` has spawned on `dst` in a call. -/
def sent (count : Nat) (isLocal : Bool) (src dst : Nat) (l : Loop) : Nat :=
  if isLocal then if dst = src then l.i.toNat else 0
  else (if dst < count then l.i.toNat else 0) + if dst < l.j then 1 else 0

/-- How often `src` has spawned on `dst` in `k` calls. -/
def spawnedBy (n count : Nat) (acnt : Int) (k src dst : Nat) : Nat :=
  if src < n then (k + 1) / 2 * (if dst = src then acnt.toNat else 0) +
    k / 2 * (if dst < count then acnt.toNat else 0) else 0

def isLocal (k : Nat) : Bool := (k - 1) % 2 == 0

/-- How many events are spawned in a round, one of them at a time. -/
def limit (count : Nat) (isLocal : Bool) : Nat := if isLocal then 0 else count

/-- While call `k` is under way. -/
def During (n count : Nat) (acnt : Int) (k : Nat) (l : Nat → Loop) (s : Spawned) : Prop :=
  (∀ src dst, s.count (src, dst) = spawnedBy n count acnt (k - 1) src dst +
    if src < n then sent count (isLocal k) src dst (l src) else 0) ∧
    ∀ i < n, InRange (limit count (isLocal k)) acnt (l i)

theorem count_snoc (s : Spawned) (e : Nat × Nat) (src dst : Nat) :
    (s ++ [e]).count (src, dst) = s.count (src, dst) + if src = e.1 ∧ dst = e.2 then 1 else 0 := by
  rw [List.count_append, List.count_singleton]
  congr 1
  by_cases he : e = (src, dst)
  · subst he
    rw [beq_self_eq_true, if_pos rfl, if_pos ⟨rfl, rfl⟩]
  · rw [beq_eq_false_iff_ne.mpr he, if_neg Bool.false_ne_true,
      if_neg fun hsd => he (Prod.ext hsd.1.symm hsd.2.symm)]

/-- A step of a callable moves it on by the event that it spawns on the CPU it runs on. -/
structure Round (count : Nat) (acnt : Int) (isLocal : Bool) (cpu : Nat) (l l' : Loop)
    (s s' : Spawned) : Prop where
  range : InRange (limit count isLocal) acnt l'
  own : ∀ dst, s'.count (cpu, dst) + sent count isLocal cpu dst l =
    s.count (cpu, dst) + sent count isLocal cpu dst l'
  other : ∀ src dst, src ≠ cpu → s'.count (src, dst) = s.count (src, dst)

theorem localRound_step {cpu : Nat} {l l' : Loop} (h : localRound cpu l s = (l', s'))
    (hr : InRange 0 acnt l) (hlt : l.i < acnt) : Round count acnt true cpu l l' s s' := by
  rw [localRound, Prod.mk.injEq] at h
  obtain ⟨rfl, rfl⟩ := h
  have hlo := hr.nonneg
  refine ⟨⟨?_, ?_, hr.spawns, fun _ => Nat.le_zero.mp hr.spawns⟩, ?_, ?_⟩
  · change 0 ≤ l.i + 1
    omega
  · change l.i + 1 ≤ max acnt 0
    omega
  · intro dst
    rw [count_snoc]
    simp only [sent, if_true, true_and]
    split_ifs <;> omega
  · intro src dst hne
    rw [count_snoc, if_neg fun he => hne he.1, Nat.add_zero]

theorem remoteRound_step {cpu : Nat} {l l' : Loop} (h : remoteRound count cpu l s = (l', s'))
    (hr : InRange count acnt l) (hlt : l.i < acnt) : Round count acnt false cpu l l' s s' := by
  have hlo := hr.nonneg
  have hj := hr.spawns
  unfold remoteRound at h
  split at h
  · rename_i hmore
    rw [Prod.mk.injEq] at h
    obtain ⟨rfl, rfl⟩ := h
    refine ⟨⟨hlo, hr.le, hmore, fun hle => absurd hle (not_le.mpr hlt)⟩, ?_, ?_⟩
    · intro dst
      rw [count_snoc]
      simp only [sent, Bool.false_eq_true, if_false, true_and]
      split_ifs <;> omega
    · intro src dst hne
      rw [count_snoc, if_neg fun he => hne he.1, Nat.add_zero]
  · rename_i hlast
    rw [Prod.mk.injEq] at h
    obtain ⟨rfl, rfl⟩ := h
    refine ⟨⟨?_, ?_, Nat.zero_le _, fun _ => rfl⟩, ?_, fun _ _ _ => rfl⟩
    · change 0 ≤ l.i + 1
      omega
    · change l.i + 1 ≤ max acnt 0
      omega
    · intro dst
      simp only [sent, Bool.false_eq_true, if_false]
      split_ifs <;> omega

theorem During.round {isLocal' : Bool} (hk : isLocal' = isLocal k) (h : During n count acnt k l s)
    {i : Nat} (hi : i < n) {l' : Loop} (hround : Round count acnt isLocal' i (l i) l' s s') :
    During n count acnt k (Function.update l i l') s' := by
  subst hk
  constructor
  · intro src dst
    have hcount := h.1 src dst
    by_cases hsrc : src = i
    · subst hsrc
      have hown := hround.own dst
      rw [if_pos hi] at hcount ⊢
      rw [Function.update_self]
      omega
    · rw [hround.other src dst hsrc, Function.update_of_ne hsrc, hcount]
  · intro i' hi'
    by_cases he : i' = i
    · subst he
      rw [Function.update_self]
      exact hround.range
    · rw [Function.update_of_ne he]
      exact h.2 i' hi'

/-- What each worker has spawned when it returns. -/
theorem sent_all {isLocal : Bool} {l : Loop} (h : InRange (limit count isLocal) acnt l)
    (hle : acnt ≤ l.i) (src dst : Nat) : sent count isLocal src dst l =
      if isLocal then if dst = src then acnt.toNat else 0
      else if dst < count then acnt.toNat else 0 := by
  obtain ⟨hi, hj⟩ := h.all hle
  have hnat : l.i.toNat = acnt.toNat := by omega
  rw [sent, hnat, hj]
  simp

theorem isLocal_iff (k : Nat) : isLocal k = true ↔ (k - 1) % 2 = 0 := beq_iff_eq

theorem spawnedBy_succ (n count : Nat) (acnt : Int) {k : Nat} (hk : 0 < k) (src dst : Nat) :
    spawnedBy n count acnt k src dst = spawnedBy n count acnt (k - 1) src dst +
      if src < n then if isLocal k then if dst = src then acnt.toNat else 0
        else if dst < count then acnt.toNat else 0 else 0 := by
  unfold spawnedBy
  split
  · by_cases hlocal : isLocal k = true
    · have hmod := (isLocal_iff k).mp hlocal
      have hodd : (k + 1) / 2 = (k - 1 + 1) / 2 + 1 := by omega
      have heven : k / 2 = (k - 1) / 2 := by omega
      rw [if_pos hlocal, hodd, heven, Nat.succ_mul]
      omega
    · have hmod : (k - 1) % 2 ≠ 0 := fun hz => hlocal ((isLocal_iff k).mpr hz)
      have hodd : (k + 1) / 2 = (k - 1 + 1) / 2 := by omega
      have heven : k / 2 = (k - 1) / 2 + 1 := by omega
      rw [if_neg hlocal, hodd, heven, Nat.succ_mul]
      omega
  · rfl

theorem work_spawnTest (count : Nat) (rcnt acnt : Int) (k : Nat) :
    (spawnTest count rcnt acnt).work k =
      rounds acnt (if isLocal k then localRound else remoteRound count) := by
  unfold spawnTest repeated isLocal
  dsimp only
  obtain hz | hz := Nat.mod_two_eq_zero_or_one (k - 1)
  all_goals
    rw [hz]
    rfl

theorem before_spawnTest (count : Nat) (rcnt acnt : Int) (k : Nat) (s : Spawned) :
    (spawnTest count rcnt acnt).before k s = s := by
  unfold spawnTest repeated
  dsimp only
  obtain hz | hz := Nat.mod_two_eq_zero_or_one (k - 1)
  all_goals
    rw [hz]
    rfl

theorem spawnTest_rule (n count : Nat) (rcnt acnt : Int) : Rule n (spawnTest count rcnt acnt)
    (fun k s => ∀ src dst, s.count (src, dst) = spawnedBy n count acnt (k - 1) src dst)
    (During n count acnt) where
  enter k s hk h := by
    rw [work_spawnTest, before_spawnTest]
    refine ⟨fun src dst => ?_, fun _ _ => .begin _ acnt⟩
    have hzero : sent count (isLocal (k + 1)) src dst ⟨0, 0⟩ = 0 := by simp [sent]
    rw [h src dst]
    change spawnedBy n count acnt k src dst = spawnedBy n count acnt k src dst +
      if src < n then sent count (isLocal (k + 1)) src dst ⟨0, 0⟩ else 0
    rw [hzero, ite_self, Nat.add_zero]
  work k l s i answer l' s' hk hi h hadv := by
    rw [work_spawnTest, advance_eq_some] at hadv
    obtain ⟨hlt, hround⟩ := hadv
    have hr := h.2 i hi
    cases hlocal : isLocal k with
    | true =>
      rw [hlocal] at hround hr
      exact h.round hlocal.symm hi (localRound_step hround hr hlt)
    | false =>
      rw [hlocal] at hround hr
      exact h.round hlocal.symm hi (remoteRound_step hround hr hlt)
  leave k l s hk h hall := by
    intro src dst
    rw [h.1 src dst, Nat.add_sub_cancel, spawnedBy_succ n count acnt hk]
    by_cases hsrc : src < n
    · obtain ⟨rc, hrc⟩ := Option.isSome_iff_exists.mp (hall src hsrc)
      rw [work_spawnTest, result_eq_some] at hrc
      rw [if_pos hsrc, if_pos hsrc, sent_all (h.2 src hsrc) hrc.1]
    · rw [if_neg hsrc, if_neg hsrc]

/-- When call `k` of `spawn_test` has returned, every worker has spawned exactly as many events on
every CPU as the rounds so far ask for, and has returned the number of its own rounds. -/
structure Complete (n count : Nat) (acnt : Int) (s : MPTestWork.State Spawned Loop) : Prop where
  checked : s.mp.checked = true
  rows : s.mp.printed.map Result.rc = List.replicate n (BitVec.ofInt 32 (max acnt 0))
  spawned : ∀ src dst, s.shared.count (src, dst) = spawnedBy n count acnt s.mp.call src dst

theorem spawnTest_complete {rcnt : Int} {results : Nat → Result}
    {s : MPTestWork.State Spawned Loop}
    (h : Reachable (step n (spawnTest count rcnt acnt))
      (.init (spawnTest count rcnt acnt) results []) s)
    (hc : s.mp.caller = .outside) (hk : 0 < s.mp.call) : Complete n count acnt s := by
  obtain ⟨hduring, hafter⟩ := (spawnTest_rule n count rcnt acnt).invariant
    (fun src dst => by simp [spawnedBy]) h
  have hcontained := contained_of_reachable h
  refine ⟨(hcontained.returned hc hk).1, ?_, hafter hc⟩
  rw [hcontained.rows hc hk (e := fun _ => BitVec.ofInt 32 (max acnt 0)), List.map_const',
    List.length_range]
  intro i hi rc hrc
  rw [work_spawnTest, result_eq_some] at hrc
  rw [← hrc.2, (((hduring hk).2 i hi).all hrc.1).1]

/-- Two CPUs, two of them workers, which spawn one event each and then one on each CPU. -/
def oneRound : List (Event Unit) := turns 2 1 1 (fun _ _ => ()) ++ turns 2 2 3 fun _ _ => ()

def start : MPTestWork.State Spawned Loop := .init (spawnTest 2 1 1) (fun _ => ⟨0, 0⟩) []

theorem oneRound_runs : (run (step 2 (spawnTest 2 1 1)) start oneRound).isSome := by
  decide +kernel

theorem oneRound_complete :
    Complete 2 2 1 ((run (step 2 (spawnTest 2 1 1)) start oneRound).get oneRound_runs) :=
  spawnTest_complete (reachable_of_run (Option.some_get oneRound_runs).symm) (by decide +kernel)
    (by decide +kernel)

end EbbrtContrib.SpawnTests
