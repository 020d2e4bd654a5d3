import EbbrtContrib.CounterTests

namespace EbbrtContrib.CounterChecks

open CString CheckedInt CommandLine CounterTests Fallible

/-- What `tests` tests are to return, repeated. -/
def total (args : Arguments) (tests : Int) : Int :=
  2 * max args.actionCnt 0 * tests * max args.repeatCnt 0

/-- Every counter is back where it was, `rc` has been zero, and the results are those of the tests
that are selected. -/
structure Checked (args : Arguments) (cpp ebb : Int) (s : State) : Prop where
  counters : s.counters = State.start.counters
  works : ∀ w ∈ s.works, w.after = w.before ∧ w.rc = 0
  cpp : args.tests.cpp → cpp = total args 5
  ebb : args.tests.ebb → ebb = total args 2

/-- No `int` overflows and no assertion fails, and what comes out is right. -/
def SelfChecking (args : Arguments) : Prop :=
  ∃ cpp ebb s, counterTests args = .ok (cpp, ebb, s) ∧ Checked args cpp ebb s

variable {check : Int → M Unit} {cnt rc : Int} {s : State} {t : CtrTest}

theorem fits_of_le (hc : 0 ≤ cnt) (hle : cnt ≤ INT_MAX) : Fits cnt :=
  ⟨Int.le_trans (by decide) hc, hle⟩

theorem rounds_add_zero (n : Nat) :
    rounds (fun rc => add Fault.overflow rc (val 0)) n 0 = .ok 0 := by
  induction n with
  | zero => rfl
  | succ n ih => exact ih

/-- What the macro has in its own `rc` behind the two loops that count. -/
def counted (cnt : Int) : M Int := int .overflow (2 * max cnt 0)

/-- On a counter at zero. -/
theorem work_zero (hcheck : check 0 = .ok ()) (h : Fits cnt) (rc : Int) :
    work check 0 cnt rc = counted cnt >>= fun _ => .ok (rc, ⟨0, 0, 0⟩) := by
  have hfirst : add Fault.overflow 0 (max cnt 0) = .ok (max cnt 0) := by
    rw [add, Int.zero_add]
    exact int_ok (fits_of_le (Int.le_max_right cnt 0) (Int.max_le.mpr ⟨h.2, by decide⟩))
  have hsecond : add Fault.overflow (max cnt 0) (max cnt 0) = counted cnt := by
    rw [add, counted, Int.two_mul]
  have hthird : add Fault.overflow 0 0 = .ok 0 := rfl
  have hback : dec^[cnt.toNat] (inc^[cnt.toNat] 0) = 0 := dec_inc.iterate cnt.toNat 0
  have hup : ∀ c, rounds (fun c => (.ok (inc c) : M Ctr)) cnt.toNat c = .ok (inc^[cnt.toNat] c) :=
    fun _ => rounds_ok cnt.toNat fun _ => rfl
  have hdown : ∀ c, rounds (fun c => (.ok (dec c) : M Ctr)) cnt.toNat c = .ok (dec^[cnt.toNat] c) :=
    fun _ => rounds_ok cnt.toNat fun _ => rfl
  simp only [work, loop_eq _ _ h, hup, hdown, hback, rounds_add_zero, ok_bind, hfirst, hsecond,
    hthird, hcheck, pure_ok]

/-- The state with one more work on a counter at zero. -/
def State.worked (s : State) : State := { s with works := s.works ++ [⟨0, 0, 0⟩] }

/-- The states that a run goes through. -/
structure Good (s : State) : Prop where
  counters : s.counters = State.start.counters
  works : ∀ w ∈ s.works, w = ⟨0, 0, 0⟩

theorem good_start : Good .start := ⟨rfl, List.forall_mem_nil _⟩

theorem Good.worked (h : Good s) : Good (State.worked s) := by
  refine ⟨h.counters, fun w hw => ?_⟩
  obtain hw | hw := List.mem_append.mp hw
  · exact h.works w hw
  · exact List.mem_singleton.mp hw

/-- What a test does when the counters are at zero: it counts, and returns zero. -/
def Passes (t : CtrTest) : Prop := ∀ cnt s, Fits cnt → Good s →
  t cnt s = counted cnt >>= fun _ => .ok (0, State.worked s)

theorem passes_onStatic (hcheck : check 0 = .ok ()) (c : Static) :
    Passes (onStatic (work check) c) := by
  intro cnt s h hs
  have hzero : s.counters c = 0 := congrFun hs.counters c
  have hsame : Function.update s.counters c 0 = s.counters := by
    rw [← hzero, Function.update_eq_self]
  simp only [onStatic, hzero, work_zero hcheck h]
  cases counted cnt with
  | error e => rfl
  | ok rc => simp only [ok_bind, hsame, State.worked, pure_ok]

theorem passes_onNew (hcheck : check 0 = .ok ()) : Passes (onNew (work check)) := by
  intro cnt s h _
  simp only [onNew, work_zero hcheck h]
  cases counted cnt with
  | error e => rfl
  | ok rc => rfl

theorem passes_cppTests : ∀ t ∈ cppTests, Passes t := by
  simp only [cppTests, List.forall_mem_cons]
  exact ⟨passes_onStatic rfl .globalCtr, passes_onNew rfl, passes_onNew rfl,
    passes_onStatic rfl .virtualGlobalCtr, passes_onNew rfl, List.forall_mem_nil _⟩

theorem passes_ebbTests : ∀ t ∈ ebbTests, Passes t := by
  simp only [ebbTests, List.forall_mem_cons]
  exact ⟨passes_onStatic rfl .theGlobalCtr, passes_onNew rfl, List.forall_mem_nil _⟩

theorem call_eq (ht : Passes t) (h : Fits cnt) (hs : Good s) :
    call cnt (0, s) t = counted cnt >>= fun _ => .ok (0, State.worked s) := by
  rw [call, ht cnt s h hs]
  cases counted cnt with
  | error e => rfl
  | ok rc => rfl

/-- The sum of a group and the state, between two of its tests. -/
def Between (x : Int × State) : Prop := x.1 = 0 ∧ Good x.2

theorem returns_call (ht : Passes t) (h : Fits cnt) (hcount : Fits (2 * max cnt 0)) :
    Returns Between fun x => call cnt x t := by
  rintro ⟨sum, s⟩ ⟨hsum, hs⟩
  obtain rfl : sum = 0 := hsum
  refine ⟨(0, State.worked s), ?_, rfl, hs.worked⟩
  change call cnt (0, s) t = _
  rw [call_eq ht h hs, counted, int_ok hcount]
  rfl

section

variable {tests : List CtrTest} {args : Arguments}

/-- No macro counts too far: either there is no repetition, or two loops fit in an `int`. -/
def Counts (args : Arguments) : Prop :=
  args.repeatCnt ≤ 0 ∨ 2 * max args.actionCnt 0 ≤ INT_MAX

/-- The tests of a group return zero, whatever they count. -/
theorem repetitions_returns (ht : ∀ t ∈ tests, Passes t) (ha : Fits args.actionCnt)
    (hr : Fits args.repeatCnt) (hs : Good s) (hcounts : Counts args) :
    ∃ u, repetitions tests args s = .ok (0, u) ∧ Good u := by
  have hrounds : ∃ x, rounds (fun x => tests.foldlM (call args.actionCnt) x) args.repeatCnt.toNat
      (0, s) = .ok x ∧ Between x := by
    obtain hnone | hcount := hcounts
    · rw [Int.toNat_of_nonpos hnone]
      exact ⟨(0, s), rfl, rfl, hs⟩
    · have hfits : Fits (2 * max args.actionCnt 0) := fits_of_le (by omega) hcount
      exact (Returns.foldlM tests fun t hm => returns_call (ht t hm) ha hfits).rounds
        args.repeatCnt.toNat (0, s) ⟨rfl, hs⟩
  obtain ⟨⟨sum, u⟩, hx, hsum, hu⟩ := hrounds
  obtain rfl : sum = 0 := hsum
  refine ⟨u, ?_, hu⟩
  simp only [repetitions, loop_eq _ _ hr, hx, ok_bind, pure_ok]

/-- The first test of the first repetition overflows. -/
theorem repetitions_overflows (ht : Passes t) (ha : Fits args.actionCnt)
    (hr : Fits args.repeatCnt) (hs : Good s) (hcounts : ¬ Counts args) :
    repetitions (t :: tests) args s = .error .overflow := by
  obtain ⟨hrepeat, hcount⟩ := not_or.mp hcounts
  obtain ⟨n, hn⟩ : ∃ n, args.repeatCnt.toNat = n + 1 := ⟨args.repeatCnt.toNat - 1, by omega⟩
  have hcall : call args.actionCnt (0, s) t = .error .overflow := by
    rw [call_eq ht ha hs, counted, int, if_neg fun hfits => hcount hfits.2]
    rfl
  simp only [repetitions, loop_eq _ _ hr, hn, rounds, List.foldlM_cons, hcall, error_bind]

end

variable {args : Arguments}

theorem group_returns {tests : List CtrTest} {selected : Bool} (ht : ∀ t ∈ tests, Passes t)
    (ha : Fits args.actionCnt) (hr : Fits args.repeatCnt) (hs : Good s)
    (hcounts : selected → Counts args) :
    ∃ u, (if selected then repetitions tests args s else .ok (0, s)) = .ok (0, u) ∧ Good u := by
  cases selected with
  | false => exact ⟨s, rfl, hs⟩
  | true => exact repetitions_returns ht ha hr hs (hcounts rfl)

/-- The two groups return zero, with all counters back. -/
theorem counterTests_returns (ha : Fits args.actionCnt) (hr : Fits args.repeatCnt)
    (hcounts : args.tests.cpp ∨ args.tests.ebb → Counts args) :
    ∃ s, counterTests args = .ok (0, 0, s) ∧ Good s := by
  obtain ⟨u, hu, hgood⟩ :=
    group_returns passes_cppTests ha hr good_start fun h => hcounts (.inl h)
  obtain ⟨v, hv, hend⟩ := group_returns passes_ebbTests ha hr hgood fun h => hcounts (.inr h)
  refine ⟨v, ?_, hend⟩
  simp only [counterTests, cppTest, ebbTest, hu, hv, ok_bind, pure_ok]

/-- The first group that is selected overflows. -/
theorem counterTests_overflows (ha : Fits args.actionCnt) (hr : Fits args.repeatCnt)
    (hsel : args.tests.cpp ∨ args.tests.ebb) (hcounts : ¬ Counts args) :
    counterTests args = .error .overflow := by
  have hcpp : repetitions cppTests args .start = .error .overflow :=
    repetitions_overflows (passes_onStatic rfl .globalCtr) ha hr good_start hcounts
  have hebb : repetitions ebbTests args .start = .error .overflow :=
    repetitions_overflows (passes_onStatic rfl .theGlobalCtr) ha hr good_start hcounts
  cases hc : args.tests.cpp with
  | true => simp only [counterTests, cppTest, hc, if_true, hcpp, error_bind]
  | false =>
    have he : args.tests.ebb = true := by simpa only [hc, Bool.false_eq_true, false_or] using hsel
    simp only [counterTests, cppTest, ebbTest, hc, he, if_true, Bool.false_eq_true, if_false,
      ok_bind, hebb, error_bind]

/-- What the tests are to return is zero only where nothing is counted. -/
theorem total_eq_zero_iff {tests : Int} (htests : 0 < tests) :
    total args tests = 0 ↔ args.actionCnt ≤ 0 ∨ args.repeatCnt ≤ 0 := by
  rw [total, Int.mul_eq_zero, Int.mul_eq_zero, Int.mul_eq_zero]
  omega

/-- The counters come back and the assertions hold in every run that returns, but a group that is
selected returns zero, so that it is self-checking only where there is nothing to count. -/
theorem selfChecking_iff (ha : Fits args.actionCnt) (hr : Fits args.repeatCnt) :
    SelfChecking args ↔
      (args.tests.cpp ∨ args.tests.ebb → args.actionCnt ≤ 0 ∨ args.repeatCnt ≤ 0) := by
  constructor
  · rintro ⟨cpp, ebb, s, hreturns, hchecked⟩ hsel
    by_cases hcounts : Counts args
    · obtain ⟨u, hu, -⟩ := counterTests_returns ha hr fun _ => hcounts
      rw [hu] at hreturns
      cases hreturns
      obtain hsel | hsel := hsel
      · exact (total_eq_zero_iff (by decide)).mp (hchecked.cpp hsel).symm
      · exact (total_eq_zero_iff (by decide)).mp (hchecked.ebb hsel).symm
    · rw [counterTests_overflows ha hr hsel hcounts] at hreturns
      cases hreturns
  · intro hnone
    have hcounts : args.tests.cpp ∨ args.tests.ebb → Counts args := by
      intro hsel
      obtain ha | hr := hnone hsel
      · refine .inr ?_
        rw [Int.max_eq_right ha]
        decide
      · exact .inl hr
    obtain ⟨u, hu, hgood⟩ := counterTests_returns ha hr hcounts
    refine ⟨0, 0, u, hu, hgood.counters, fun w hw => ?_, fun h => ?_, fun h => ?_⟩
    · rw [hgood.works w hw]
      exact ⟨rfl, rfl⟩
    · exact ((total_eq_zero_iff (by decide)).mpr (hnone (.inl h))).symm
    · exact ((total_eq_zero_iff (by decide)).mpr (hnone (.inr h))).symm

/-- `-A 0 -c -e`: both groups, with nothing to count. -/
def noActions : List (List Byte) := [[0x75], [0x2d, 0x41], [0x30], [0x2d, 0x63], [0x2d, 0x65]]

theorem noActions_selfChecking : SelfChecking (processArgs getopt noActions).args :=
  (selfChecking_iff (by decide) (by decide)).mpr fun _ => .inl (by decide)

/-- `-c`, with the counts left as they are. -/
def defaults : List (List Byte) := [[0x75], [0x2d, 0x63]]

theorem defaults_not_selfChecking : (∃ s, counterTests (processArgs getopt defaults).args =
      .ok (0, 0, s)) ∧ total (processArgs getopt defaults).args 5 = 100000000 ∧
    ¬ SelfChecking (processArgs getopt defaults).args := by
  have hcounts : Counts (processArgs getopt defaults).args := .inr (by decide)
  obtain ⟨s, hs, -⟩ := counterTests_returns (by decide) (by decide) fun _ => hcounts
  refine ⟨⟨s, hs⟩, by decide, ?_⟩
  rintro ⟨cpp, ebb, t, ht, hchecked⟩
  rw [hs] at ht
  cases ht
  exact absurd (hchecked.cpp (by decide)) (by decide)

end EbbrtContrib.CounterChecks
