import EbbrtContrib.MultiCounter

namespace EbbrtContrib.RepresentativeScan

open EarlyExit MultiCounter

variable {kMaxCpus count : Nat} {Rep σ : Type}

/-- `repArray`, with the representatives that its entries point to. -/
abbrev Table (kMaxCpus : Nat) (Rep : Type) := Fin kMaxCpus → Option Rep

/-- A read behind the end of `repArray`, and a `numCores` that wraps around. -/
inductive Fault
  | read
  | wrap
  deriving DecidableEq, Repr

/-- `repArray[i]` -/
def entry (repArray : Table kMaxCpus Rep) (i : Nat) : Except Fault (Option Rep) :=
  if h : i < kMaxCpus then .ok (repArray ⟨i, h⟩) else .error .read

/-- `numCores--` -/
def decrement (numCores : Nat) : Except Fault Nat :=
  if numCores = 0 then .error .wrap else .ok (numCores - 1)

/-- `for (size_t i=0; numCores && i<kMaxCpus; i++) if (repArray[i]) { body; numCores--; }` from
index `i` on. -/
def loop (body : σ → Nat → Rep → σ) (repArray : Table kMaxCpus Rep) (numCores i : Nat) (s : σ) :
    Except Fault σ :=
  if _h : numCores ≠ 0 ∧ i < kMaxCpus then do
    match ← entry repArray i with
    | some rep =>
      let numCores ← decrement numCores
      loop body repArray numCores (i + 1) (body s i rep)
    | none => loop body repArray numCores (i + 1) s
  else .ok s
termination_by kMaxCpus - i

/-- `MPMultiEbbCtrRoot::destroy`: the representatives that it deletes, before the root itself. -/
def destroy (count : Nat) (repArray : Table kMaxCpus Rep) : Except Fault (List Rep) :=
  loop (fun deleted _ rep => deleted ++ [rep]) repArray count 0 []

/-- The entries of the table with their indices. -/
def indexed (repArray : Table kMaxCpus Rep) : List (Option (Nat × Rep)) :=
  List.ofFn fun i => (repArray i).map fun rep => ((i : Nat), rep)

def entries (repArray : Table kMaxCpus Rep) : List (Nat × Rep) := (indexed repArray).reduceOption

/-- Neither of the faults occurs, whatever the count is. -/
theorem loop_eq_scan (body : σ → Nat → Rep → σ) (repArray : Table kMaxCpus Rep)
    (numCores i : Nat) (s : σ) : loop body repArray numCores i s =
      .ok (scan (fun s e => body s e.1 e.2) numCores s ((indexed repArray).drop i)) := by
  induction hk : kMaxCpus - i generalizing numCores i s with
  | zero =>
    have hi : ¬ i < kMaxCpus := by omega
    have hdrop : (indexed repArray).drop i = [] :=
      List.drop_eq_nil_of_le (by rw [indexed, List.length_ofFn]; omega)
    rw [loop, dif_neg (fun h => hi h.2), hdrop]
    cases numCores <;> rfl
  | succ k ih =>
    have hi : i < kMaxCpus := by omega
    have hlen : i < (indexed repArray).length := by rwa [indexed, List.length_ofFn]
    rw [loop, List.drop_eq_getElem_cons hlen]
    cases numCores with
    | zero => rfl
    | succ n =>
      rw [dif_pos ⟨Nat.succ_ne_zero n, hi⟩, entry, dif_pos hi]
      have hget : (indexed repArray)[i] = (repArray ⟨i, hi⟩).map fun rep => (i, rep) := by
        simp only [indexed, List.getElem_ofFn]
      rw [hget]
      cases repArray ⟨i, hi⟩ with
      | none => exact ih (n + 1) (i + 1) s (by omega)
      | some rep => exact ih n (i + 1) (body s i rep) (by omega)

/-- `gatherVal` is this loop as well. -/
theorem loop_gatherVal (r : Root kMaxCpus) (count : Nat) :
    loop (fun _gval _ v => v) r count 0 0 = .ok (gatherVal count r) := by
  have htable : (indexed r).map (Option.map Prod.snd) = List.ofFn r := by
    rw [indexed, List.map_ofFn]
    congr 1
    funext i
    cases hi : r i <;> simp [hi]
  rw [loop_eq_scan, List.drop_zero, gatherVal, ← htable, scan_map]

theorem entries_eq (repArray : Table kMaxCpus Rep) : entries repArray =
    (List.finRange kMaxCpus).filterMap fun i => (repArray i).map fun rep => ((i : Nat), rep) := by
  rw [entries, indexed, List.ofFn_eq_map, List.reduceOption, List.filterMap_map]
  rfl

/-- How many entries are not null. -/
def occupied (repArray : Table kMaxCpus Rep) : Nat :=
  (Finset.univ.filter fun i => (repArray i).isSome).card

theorem length_entries (repArray : Table kMaxCpus Rep) :
    (entries repArray).length = occupied repArray := by
  rw [entries_eq, List.length_filterMap_eq_countP, List.countP_eq_length_filter, occupied,
    ← List.toFinset_card_of_nodup ((List.nodup_finRange kMaxCpus).filter _)]
  congr 1
  ext i
  simp

/-- Every entry of the table that is not null is visited once, and nothing else. -/
structure Complete (repArray : Table kMaxCpus Rep) (visited : List (Nat × Rep)) : Prop where
  once : (visited.map Prod.fst).Nodup
  mem_iff : ∀ i rep, (i, rep) ∈ visited ↔ ∃ h : i < kMaxCpus, repArray ⟨i, h⟩ = some rep

theorem complete_entries (repArray : Table kMaxCpus Rep) :
    Complete repArray (entries repArray) := by
  rw [entries_eq]
  constructor
  · rw [List.Nodup, List.pairwise_map]
    refine (List.pairwise_lt_finRange kMaxCpus).filterMap _ ?_
    intro j j' hlt e he e' he'
    obtain ⟨rep, -, rfl⟩ := Option.map_eq_some_iff.mp he
    obtain ⟨rep', -, rfl⟩ := Option.map_eq_some_iff.mp he'
    exact (Fin.lt_def.mp hlt).ne
  · intro i rep
    simp only [List.mem_filterMap, List.mem_finRange, true_and, Option.map_eq_some_iff,
      Prod.mk.injEq]
    constructor
    · rintro ⟨j, rep', hj, rfl, rfl⟩
      exact ⟨j.isLt, hj⟩
    · rintro ⟨h, hi⟩
      exact ⟨⟨i, h⟩, rep, hi, rfl, rfl⟩

/-- With a budget for all entries, the loop runs its body on each of them. -/
theorem loop_complete (body : σ → Nat → Rep → σ) (repArray : Table kMaxCpus Rep) (s : σ)
    (hfew : occupied repArray ≤ count) : loop body repArray count 0 s =
      .ok ((entries repArray).foldl (fun s e => body s e.1 e.2) s) := by
  have hlen : (indexed repArray).reduceOption.length ≤ count :=
    (length_entries repArray).trans_le hfew
  rw [loop_eq_scan, List.drop_zero, scan_eq_foldl _ _ _ _ hlen]
  rfl

theorem destroy_complete (repArray : Table kMaxCpus Rep) (hfew : occupied repArray ≤ count) :
    destroy count repArray = .ok ((entries repArray).map Prod.snd) := by
  have hfold : ∀ (es : List (Nat × Rep)) deleted,
      es.foldl (fun deleted e => deleted ++ [e.2]) deleted = deleted ++ es.map Prod.snd := by
    intro es
    induction es with
    | nil => simp
    | cons e es ih => intro deleted; simp [ih]
  rw [destroy, loop_complete _ _ _ hfew, hfold, List.nil_append]

/-- The table, and the representatives that `setRep` was called with. -/
structure Reps (kMaxCpus : Nat) where
  repArray : Table kMaxCpus Nat
  recorded : List Nat

/-- After the constructor of the root. -/
def Reps.init : Reps kMaxCpus := ⟨fun _ => none, []⟩

def setRep (r : Reps kMaxCpus) (i : Fin kMaxCpus) (rep : Nat) : Reps kMaxCpus :=
  ⟨Function.update r.repArray i (some rep), r.recorded ++ [rep]⟩

/-- A call from core `i`: the first one constructs the core's representative. -/
def call (r : Reps kMaxCpus) (i : Fin kMaxCpus) : Reps kMaxCpus :=
  if (r.repArray i).isSome then r else setRep r i r.recorded.length

/-- Every representative that was recorded is in one entry of the table. -/
structure Held (r : Reps kMaxCpus) : Prop where
  nodup : r.recorded.Nodup
  lt : ∀ rep ∈ r.recorded, rep < r.recorded.length
  mem_iff : ∀ rep, rep ∈ r.recorded ↔ ∃ i, r.repArray i = some rep
  unique : ∀ i j rep, r.repArray i = some rep → r.repArray j = some rep → i = j

theorem held_init : Held (.init : Reps kMaxCpus) := by
  constructor <;> simp [Reps.init]

variable {r : Reps kMaxCpus}

theorem Held.setRep (h : Held r) (i : Fin kMaxCpus) (hi : r.repArray i = none) :
    Held (setRep r i r.recorded.length) := by
  have hfresh : ∀ j, r.repArray j ≠ some r.recorded.length := fun j hj =>
    lt_irrefl _ (h.lt _ ((h.mem_iff _).mpr ⟨j, hj⟩))
  constructor
  · refine h.nodup.append (List.nodup_singleton _) (List.disjoint_singleton.mpr ?_)
    exact fun hm => lt_irrefl _ (h.lt _ hm)
  · intro rep hrep
    rw [RepresentativeScan.setRep, List.length_append, List.length_singleton]
    obtain hm | hm := List.mem_append.mp hrep
    · exact Nat.lt_succ_of_lt (h.lt rep hm)
    · exact Nat.lt_succ_of_le (List.mem_singleton.mp hm).le
  · intro rep
    simp only [RepresentativeScan.setRep, List.mem_append, List.mem_singleton, h.mem_iff,
      Function.update_apply]
    constructor
    · rintro (⟨j, hj⟩ | rfl)
      · have hne : j ≠ i := fun he => by simp [he, hi] at hj
        exact ⟨j, by rw [if_neg hne, hj]⟩
      · exact ⟨i, if_pos rfl⟩
    · rintro ⟨j, hj⟩
      by_cases he : j = i
      · rw [if_pos he] at hj
        exact .inr (Option.some.inj hj).symm
      · rw [if_neg he] at hj
        exact .inl ⟨j, hj⟩
  · intro j k rep hj hk
    simp only [RepresentativeScan.setRep, Function.update_apply] at hj hk
    split at hj <;> split at hk
    · rename_i hji hki
      exact hji.trans hki.symm
    · rw [← hj] at hk
      exact absurd hk (hfresh k)
    · rw [← hk] at hj
      exact absurd hj (hfresh j)
    · exact h.unique j k rep hj hk

theorem Held.call (h : Held r) (i : Fin kMaxCpus) : Held (call r i) := by
  unfold RepresentativeScan.call
  split
  · exact h
  · rename_i hi
    exact h.setRep i (by simpa using hi)

/-- Every representative of a core that called is in the table, and the others have none. -/
theorem call_isSome (r : Reps kMaxCpus) (i j : Fin kMaxCpus) :
    ((call r i).repArray j).isSome ↔ j = i ∨ (r.repArray j).isSome := by
  unfold call
  split
  · rename_i hi
    constructor
    · exact .inr
    · rintro (rfl | hj)
      · exact hi
      · exact hj
  · by_cases hj : j = i <;> simp [setRep, hj]

/-- The root after calls from these cores, in this order. -/
def reps (cores : List (Fin kMaxCpus)) : Reps kMaxCpus := cores.foldl call .init

theorem held_reps (cores : List (Fin kMaxCpus)) : Held (reps cores) := by
  induction cores using List.reverseRecOn with
  | nil => exact held_init
  | append_singleton cores i ih =>
    rw [reps, List.foldl_append]
    exact ih.call i

theorem occupied_reps (cores : List (Fin kMaxCpus)) :
    occupied (reps cores).repArray = cores.toFinset.card := by
  rw [occupied]
  congr 1
  induction cores using List.reverseRecOn with
  | nil => simp [reps, Reps.init]
  | append_singleton cores i ih =>
    ext j
    have hj := Finset.ext_iff.mp ih j
    rw [Finset.mem_filter, List.mem_toFinset] at hj
    rw [Finset.mem_filter, reps, List.foldl_append, List.foldl_cons, List.foldl_nil, call_isSome]
    simp only [Finset.mem_univ, true_and, List.mem_toFinset, List.mem_append, List.mem_singleton,
      reps] at hj ⊢
    rw [hj, or_comm]

/-- The table holds every recorded representative once. -/
theorem Held.perm (h : Held r) : ((entries r.repArray).map Prod.snd).Perm r.recorded := by
  have hc := complete_entries r.repArray
  have hnodup : ((entries r.repArray).map Prod.snd).Nodup := by
    refine List.Nodup.map_on ?_ (List.Nodup.of_map _ hc.once)
    rintro ⟨i, rep⟩ hi ⟨j, rep'⟩ hj rfl
    obtain ⟨hik, hri⟩ := (hc.mem_iff i rep).mp hi
    obtain ⟨hjk, hrj⟩ := (hc.mem_iff j rep).mp hj
    rw [Fin.mk.inj (h.unique _ _ _ hri hrj)]
  rw [List.perm_ext_iff_of_nodup hnodup h.nodup]
  intro rep
  rw [h.mem_iff, List.mem_map]
  constructor
  · rintro ⟨⟨i, rep'⟩, hi, rfl⟩
    obtain ⟨hik, hri⟩ := (hc.mem_iff i rep').mp hi
    exact ⟨⟨i, hik⟩, hri⟩
  · rintro ⟨i, hri⟩
    exact ⟨(i, rep), (hc.mem_iff i rep).mpr ⟨i.isLt, hri⟩, rfl⟩

/-- The loop of `gatherVal` and `destroy` neither reads behind the table nor lets `numCores` wrap,
and visits every entry that is not null once, wherever they are, when there are at most as many
of them as CPUs; so `destroy` deletes once what `setRep` has recorded. -/
theorem earlyExit_complete (kMaxCpus count : Nat) :
    (∀ (Rep : Type) (repArray : Table kMaxCpus Rep), occupied repArray ≤ count →
      ∃ visited, Complete repArray visited ∧
        (∀ (σ : Type) (body : σ → Nat → Rep → σ) s,
          loop body repArray count 0 s = .ok (visited.foldl (fun s e => body s e.1 e.2) s)) ∧
        destroy count repArray = .ok (visited.map Prod.snd)) ∧
    (∀ r : Root kMaxCpus, loop (fun _gval _ v => v) r count 0 0 = .ok (gatherVal count r)) ∧
    ∀ cores : List (Fin kMaxCpus), cores.toFinset.card ≤ count →
      ∃ deleted, destroy count (reps cores).repArray = .ok deleted ∧ deleted.Nodup ∧
        ∀ rep, rep ∈ deleted ↔ rep ∈ (reps cores).recorded := by
  refine ⟨fun Rep repArray hfew => ?_, fun r => loop_gatherVal r count, fun cores hfew => ?_⟩
  · exact ⟨entries repArray, complete_entries repArray,
      fun σ body s => loop_complete body repArray s hfew, destroy_complete repArray hfew⟩
  · have hperm := (held_reps cores).perm
    have hoccupied := (occupied_reps cores).trans_le hfew
    refine ⟨_, destroy_complete _ hoccupied, ?_, fun rep => hperm.mem_iff⟩
    exact hperm.nodup_iff.mpr (held_reps cores).nodup

/-- Two cores call, the last one of the table first. -/
def sparse : List (Fin 256) := [Fin.last 255, ⟨3, by decide⟩, Fin.last 255]

theorem sparse_complete : sparse.toFinset.card ≤ 2 ∧ occupied (reps sparse).repArray ≤ 2 ∧
    (∃ visited, Complete (reps sparse).repArray visited ∧
      destroy 2 (reps sparse).repArray = .ok (visited.map Prod.snd)) ∧
    ∃ deleted, destroy 2 (reps sparse).repArray = .ok deleted ∧ deleted.Nodup ∧
      ∀ rep, rep ∈ deleted ↔ rep ∈ [0, 1] := by
  have hfew : sparse.toFinset.card ≤ 2 := by decide
  have hoccupied := (occupied_reps sparse).trans_le hfew
  obtain ⟨visited, hcomplete, -, hdestroy⟩ := (earlyExit_complete 256 2).1 Nat _ hoccupied
  have hrecorded : (reps sparse).recorded = [0, 1] := by decide
  refine ⟨hfew, hoccupied, ⟨visited, hcomplete, hdestroy⟩, ?_⟩
  rw [← hrecorded]
  exact (earlyExit_complete 256 2).2.2 sparse hfew

end EbbrtContrib.RepresentativeScan
