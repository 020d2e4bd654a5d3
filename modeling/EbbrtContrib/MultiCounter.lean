import Mathlib.Data.BitVec
import Mathlib.Algebra.BigOperators.Fin
import Mathlib.Data.Fintype.BigOperators
import EbbrtContrib.EarlyExit

namespace EbbrtContrib.MultiCounter

open EarlyExit

/-- `_val`, an `int` that `inc` and `dec` let wrap around. -/
abbrev Val := BitVec 32

/-- `repArray`, each entry with the counter of the representative it points to. -/
abbrev Root (kMaxCpus : Nat) := Fin kMaxCpus → Option Val

variable {kMaxCpus : Nat}

def Root.new : Root kMaxCpus := fun _ => none

/-- The first access from a core constructs its representative, which `setRep` records. -/
def fault (i : Fin kMaxCpus) (r : Root kMaxCpus) : Root kMaxCpus :=
  if (r i).isSome then r else Function.update r i (some 0)

inductive Op
  | inc
  | dec
  | val
  deriving DecidableEq, Repr

def Op.delta : Op → Val
  | .inc => 1
  | .dec => -1
  | .val => 0

/-- A call on a core changes the representative of that core only. -/
def exec (r : Root kMaxCpus) (call : Fin kMaxCpus × Op) : Root kMaxCpus :=
  Function.update (fault call.1 r) call.1 ((fault call.1 r call.1).map (· + call.2.delta))

/-- `gval=repArray[i]->_val`, for as many entries as there are cores. -/
def gatherVal (count : Nat) (r : Root kMaxCpus) : Val :=
  scan (fun _gval v => v) count 0 (List.ofFn r)

/-- The table of representatives in the local id map: a flat map, sorted by core, of
exactly the representatives that `setRep` recorded. -/
structure RepMap (r : Root kMaxCpus) where
  entries : List (Fin kMaxCpus × Val)
  sorted : entries.Pairwise fun a b => a.1 < b.1
  mem_iff : ∀ i v, (i, v) ∈ entries ↔ r i = some v

/-- The map that the records of `setRep` make. -/
def RepMap.ofRoot (r : Root kMaxCpus) : RepMap r where
  entries := (List.finRange kMaxCpus).filterMap fun j => (r j).map fun v => (j, v)
  sorted := by
    refine (List.pairwise_lt_finRange kMaxCpus).filterMap _ ?_
    intro j j' hlt a ha a' ha'
    obtain ⟨v, -, rfl⟩ := Option.map_eq_some_iff.mp ha
    obtain ⟨v', -, rfl⟩ := Option.map_eq_some_iff.mp ha'
    exact hlt
  mem_iff i v := by simp

inductive Exception
  | badAnyCast
  deriving DecidableEq, Repr

/-- The type of the pointers in the map, and the type that they are cast to. -/
inductive RepType
  | rep
  | constRep
  deriving DecidableEq, Repr

/-- A `boost::any` gives its value back as the type that it was made from only. -/
def anyCast {α : Type} (held wanted : RepType) (v : α) : Except Exception α :=
  if held = wanted then .ok v else .error .badAnyCast

/-- `it->second`, an `MPMultiEbbCtr *`, becomes the `boost::any` that is cast to a
`const MPMultiEbbCtr *`. -/
def otherGatherVal {r : Root kMaxCpus} (m : RepMap r) : Except Exception Val :=
  m.entries.foldlM (fun gval entry => do
    let v ← anyCast .rep .constRep entry.2
    return gval + v) 0

/-- Calls on the cores in the order they took effect, and the core that reads the counter
afterwards. At most `count` cores ever have a representative. -/
structure History (kMaxCpus count : Nat) where
  calls : List (Fin kMaxCpus × Op)
  reader : Fin kMaxCpus
  few : (insert reader (calls.map Prod.fst).toFinset).card ≤ count

variable {count : Nat}

def History.cores (h : History kMaxCpus count) : Finset (Fin kMaxCpus) :=
  insert h.reader (h.calls.map Prod.fst).toFinset

def History.root (h : History kMaxCpus count) : Root kMaxCpus :=
  fault h.reader (h.calls.foldl exec .new)

/-- `val()` called from the reader's core. -/
def History.val (h : History kMaxCpus count) : Val := gatherVal count h.root

/-- The number of `inc` minus the number of `dec`. -/
def net (calls : List (Fin kMaxCpus × Op)) : Val := (calls.map fun call => call.2.delta).sum

theorem History.cores_nonempty (h : History kMaxCpus count) : h.cores.Nonempty :=
  ⟨h.reader, Finset.mem_insert_self _ _⟩

/-- The highest core with a representative. -/
def History.last (h : History kMaxCpus count) : Fin kMaxCpus := h.cores.max' h.cores_nonempty

theorem fault_apply (i j : Fin kMaxCpus) (r : Root kMaxCpus) :
    fault i r j = if j = i then some ((r i).getD 0) else r j := by
  unfold fault
  by_cases hi : (r i).isSome
  · by_cases hj : j = i
    · subst hj
      rw [if_pos hi, if_pos rfl]
      exact (Option.some_get hi).symm.trans (by rw [Option.get_eq_getD])
    · rw [if_pos hi, if_neg hj]
  · have hn : r i = none := by simpa using hi
    simp [hn, Function.update_apply]

theorem exec_apply (call : Fin kMaxCpus × Op) (j : Fin kMaxCpus) (r : Root kMaxCpus) :
    exec r call j = if j = call.1 then some ((r call.1).getD 0 + call.2.delta) else r j := by
  unfold exec
  by_cases hj : j = call.1
  · subst hj
    simp [fault_apply]
  · rw [Function.update_of_ne hj, fault_apply, if_neg hj, if_neg hj]

/-- The calls executed on core `j`. -/
def callsOn (j : Fin kMaxCpus) (calls : List (Fin kMaxCpus × Op)) : List (Fin kMaxCpus × Op) :=
  calls.filter fun call => call.1 = j

def callsOff (j : Fin kMaxCpus) (calls : List (Fin kMaxCpus × Op)) : List (Fin kMaxCpus × Op) :=
  calls.filter fun call => call.1 ≠ j

theorem net_on_add_off (j : Fin kMaxCpus) (calls : List (Fin kMaxCpus × Op)) :
    net (callsOn j calls) + net (callsOff j calls) = net calls := by
  induction calls with
  | nil => simp [net, callsOn, callsOff]
  | cons call calls ih =>
    simp only [net, callsOn, callsOff, List.filter_cons, List.map_cons, List.sum_cons] at ih ⊢
    by_cases hj : call.1 = j
    · simp only [hj, decide_true, if_true, ne_eq, not_true_eq_false, decide_false,
        Bool.false_eq_true, if_false, List.map_cons, List.sum_cons, add_assoc, ih]
    · simp only [hj, decide_false, Bool.false_eq_true, if_false, ne_eq, not_false_eq_true,
        decide_true, if_true, List.map_cons, List.sum_cons, ← ih]
      rw [add_left_comm]

theorem foldl_exec_isSome (calls : List (Fin kMaxCpus × Op)) (j : Fin kMaxCpus) :
    (calls.foldl exec .new j).isSome ↔ j ∈ calls.map Prod.fst := by
  induction calls using List.reverseRecOn with
  | nil => simp [Root.new]
  | append_singleton calls call ih =>
    rw [List.foldl_append, List.foldl_cons, List.foldl_nil, exec_apply]
    by_cases hj : j = call.1
    · simp [hj]
    · rw [if_neg hj, ih]
      simp [hj]

theorem net_callsOn_append (j : Fin kMaxCpus) (calls : List (Fin kMaxCpus × Op))
    (call : Fin kMaxCpus × Op) : net (callsOn j (calls ++ [call])) =
      net (callsOn j calls) + if j = call.1 then call.2.delta else 0 := by
  by_cases hj : j = call.1
  · subst hj
    simp [callsOn, net]
  · simp [callsOn, net, hj, Ne.symm hj]

/-- Every representative holds the net number of calls on its own core. -/
theorem foldl_exec_getD (calls : List (Fin kMaxCpus × Op)) (j : Fin kMaxCpus) :
    (calls.foldl exec .new j).getD 0 = net (callsOn j calls) := by
  induction calls using List.reverseRecOn with
  | nil => rfl
  | append_singleton calls call ih =>
    rw [List.foldl_append, List.foldl_cons, List.foldl_nil, exec_apply, net_callsOn_append, ← ih]
    by_cases hj : j = call.1
    · rw [if_pos hj, if_pos hj, Option.getD_some, hj]
    · rw [if_neg hj, if_neg hj, add_zero]

theorem root_isSome (h : History kMaxCpus count) (j : Fin kMaxCpus) :
    (h.root j).isSome ↔ j ∈ h.cores := by
  rw [History.root, fault_apply, History.cores, Finset.mem_insert, List.mem_toFinset]
  by_cases hj : j = h.reader
  · simp [hj]
  · rw [if_neg hj, foldl_exec_isSome]
    simp [hj]

theorem root_getD (h : History kMaxCpus count) (j : Fin kMaxCpus) :
    (h.root j).getD 0 = net (callsOn j h.calls) := by
  rw [History.root, fault_apply]
  by_cases hj : j = h.reader
  · rw [if_pos hj, Option.getD_some, foldl_exec_getD, hj]
  · rw [if_neg hj, foldl_exec_getD]

theorem reduceOption_ofFn (r : Root kMaxCpus) :
    (List.ofFn r).reduceOption = (List.finRange kMaxCpus).filterMap r := by
  rw [List.ofFn_eq_map, List.reduceOption, List.filterMap_map]
  rfl

theorem length_table (h : History kMaxCpus count) :
    (List.ofFn h.root).reduceOption.length ≤ count := by
  rw [reduceOption_ofFn, List.length_filterMap_eq_countP, List.countP_eq_length_filter]
  have hnodup := (List.nodup_finRange kMaxCpus).filter fun j => (h.root j).isSome
  rw [← List.toFinset_card_of_nodup hnodup]
  refine (Finset.card_le_card fun j hj => ?_).trans h.few
  rw [List.mem_toFinset, List.mem_filter] at hj
  exact (root_isSome h j).mp hj.2

theorem gatherVal_eq (h : History kMaxCpus count) : h.val = (h.root h.last).getD 0 := by
  rw [History.val, gatherVal, scan_eq_foldl _ _ _ _ (length_table h), reduceOption_ofFn]
  obtain ⟨below, above, hsplit⟩ := List.append_of_mem (List.mem_finRange h.last)
  have hsorted := List.pairwise_lt_finRange kMaxCpus
  rw [hsplit, List.pairwise_append, List.pairwise_cons] at hsorted
  have habove : above.filterMap h.root = [] := by
    rw [List.filterMap_eq_nil_iff]
    intro j hj
    by_contra hne
    have hmem := (root_isSome h j).mp (Option.isSome_iff_ne_none.mpr hne)
    exact absurd (h.cores.le_max' j hmem) (not_le.mpr (hsorted.2.1.1 j hj))
  obtain ⟨v, hv⟩ := Option.isSome_iff_exists.mp
    ((root_isSome h h.last).mpr (h.cores.max'_mem h.cores_nonempty))
  rw [hsplit, List.filterMap_append, List.filterMap_cons_some hv, habove, foldl_last, hv,
    Option.getD_some]

/-- `otherGatherVal` throws at its first entry. -/
theorem otherGatherVal_eq {r : Root kMaxCpus} (m : RepMap r) :
    otherGatherVal m = if m.entries = [] then .ok 0 else .error .badAnyCast := by
  unfold otherGatherVal
  cases m.entries with
  | nil => rfl
  | cons entry entries => rfl

theorem entries_eq_nil_iff {r : Root kMaxCpus} (m : RepMap r) :
    m.entries = [] ↔ r = .new := by
  constructor
  · intro hnil
    funext i
    by_contra hne
    obtain ⟨v, hv⟩ := Option.ne_none_iff_exists'.mp hne
    have hmem := (m.mem_iff i v).mpr hv
    rw [hnil] at hmem
    exact absurd hmem List.not_mem_nil
  · rintro rfl
    refine List.eq_nil_iff_forall_not_mem.mpr ?_
    rintro ⟨i, v⟩ hmem
    cases (m.mem_iff i v).mp hmem

theorem gatherVal_new : gatherVal count (.new : Root kMaxCpus) = 0 := by
  have hnone : (List.ofFn (.new : Root kMaxCpus)).reduceOption = [] := by
    rw [reduceOption_ofFn]
    exact List.filterMap_eq_nil_iff.mpr fun _ _ => rfl
  rw [gatherVal, scan_eq_foldl _ _ _ _ (by rw [hnone]; exact Nat.zero_le _), hnone, List.foldl_nil]

/-- Both ways of gathering return the same. -/
def Agree (count : Nat) {r : Root kMaxCpus} (m : RepMap r) : Prop :=
  otherGatherVal m = .ok (gatherVal count r)

theorem agree_iff {r : Root kMaxCpus} (m : RepMap r) : Agree count m ↔ r = .new := by
  rw [Agree, otherGatherVal_eq, ← entries_eq_nil_iff m]
  by_cases hnil : m.entries = []
  · have hnew := (entries_eq_nil_iff m).mp hnil
    subst hnew
    rw [if_pos hnil, gatherVal_new]
    exact iff_of_true rfl hnil
  · rw [if_neg hnil]
    exact iff_of_false (by rintro ⟨⟩) hnil

/-- A read is exact when `val()` returns the net number of calls and both ways of
gathering agree. -/
def Exact (h : History kMaxCpus count) : Prop :=
  h.val = net h.calls ∧ ∀ m : RepMap h.root, Agree count m

/-- `gatherVal` returns the counter of the highest core instead of the sum, which is right
exactly when the calls on all other cores cancel out. `otherGatherVal` throws when there is a
representative, and `val()` has made the one of its core, so that no read is exact. -/
theorem exact_iff (h : History kMaxCpus count) :
    (h.val = net h.calls ↔ net (callsOff h.last h.calls) = 0) ∧
      (∀ (r : Root kMaxCpus) (m : RepMap r), Agree count m ↔ r = .new) ∧ ¬ Exact h := by
  have hval : h.val = net (callsOn h.last h.calls) := by rw [gatherVal_eq, root_getD]
  refine ⟨?_, fun r m => agree_iff m, ?_⟩
  · rw [hval, ← net_on_add_off h.last h.calls, left_eq_add]
  · rintro ⟨-, hagree⟩
    have hnew := (agree_iff _).mp (hagree (.ofRoot h.root))
    have hreader := (root_isSome h h.reader).mpr (Finset.mem_insert_self _ _)
    rw [hnew] at hreader
    cases hreader

/-- One `inc` on each of two cores is read as a single one, and not at all by the other loop. -/
def twoIncs : History 256 2 where
  calls := [(0, .inc), (1, .inc)]
  reader := 0
  few := by decide

theorem twoIncs_not_exact : twoIncs.val = 1 ∧ net twoIncs.calls = 2 ∧
    otherGatherVal (.ofRoot twoIncs.root) = .error .badAnyCast ∧
    ¬ ∀ h : History 256 2, Exact h := by
  have hval : twoIncs.val = 1 := by decide
  have hnet : net twoIncs.calls = 2 := by decide
  refine ⟨hval, hnet, ?_, ?_⟩
  · rw [otherGatherVal_eq, if_neg]
    rw [entries_eq_nil_iff]
    intro hnew
    have hreader := (root_isSome twoIncs twoIncs.reader).mpr (Finset.mem_insert_self _ _)
    rw [hnew] at hreader
    cases hreader
  · intro hall
    have h := (hall twoIncs).1
    rw [hval, hnet] at h
    exact absurd h (by decide)

end EbbrtContrib.MultiCounter
