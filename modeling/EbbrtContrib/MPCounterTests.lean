import EbbrtContrib.MPTestWork
import EbbrtContrib.MultiCounter

namespace EbbrtContrib.MPCounterTests

open EarlyExit MPTest MPTestWork MultiCounter Runs

/-- The counters of the three tests that `mp_test` repeats. -/
inductive Kind
  | sharedHeap
  | sharedHeapEbb
  | multiHeapEbb
  deriving DecidableEq, Repr

variable {kMaxCpus : Nat}

/-- One atomic `_val`, or a representative for each CPU. -/
inductive Counter (kMaxCpus : Nat)
  | shared (val : Val)
  | multi (root : Root kMaxCpus)

/-- `new MPSharedCtr`, `MPSharedEbbCtr::Create` and `MPMultiEbbCtr::Create` -/
def Counter.create : Kind → Counter kMaxCpus
  | .sharedHeap | .sharedHeapEbb => .shared 0
  | .multiHeapEbb => .multi .new

/-- A call from a CPU. -/
def Counter.call (cpu : Fin kMaxCpus) (op : Op) : Counter kMaxCpus → Counter kMaxCpus
  | .shared v => .shared (v + op.delta)
  | .multi r => .multi (exec r (cpu, op))

/-- What `val` returns. -/
def Counter.val (count : Nat) : Counter kMaxCpus → Val
  | .shared v => v
  | .multi r => gatherVal count r

/-- The variables of `MPCtrRefWorkInc`, `MPCtrRefWorkDec` and `MPCtrRefWorkVal`, of which the last
one only has the `rc`. -/
structure Loop where
  i : Int
  rc : Int
  deriving DecidableEq, Repr

/-- What a round of the loop adds to `rc`. -/
def addend (count : Nat) (ctr : Counter kMaxCpus) : Op → Int
  | .inc | .dec => 0
  | .val => (ctr.val count).toInt

/-- What `SUM=i` or `SUM=rc` leaves in the `rc` of the caller, which is what `SUM` is. In
`MPCtrRefWorkVal` it is the name of the macro's own `rc`, and the caller's is still zero. -/
def Loop.sum (l : Loop) : Op → Int
  | .inc | .dec => l.i
  | .val => 0

/-- The three macros, which differ in the call that they repeat. -/
def mpCtrRefWork (count : Nat) (cnt : Int) (op : Op) : Work (Counter kMaxCpus) Loop Unit where
  begin := ⟨0, 0⟩
  advance cpu _ l ctr :=
    if h : l.i < cnt ∧ cpu < kMaxCpus then
      let ctr := ctr.call ⟨cpu, h.2⟩ op
      some (⟨l.i + 1, l.rc + addend count ctr op⟩, ctr)
    else none
  result l := if l.i < cnt then none else some (BitVec.ofInt 32 (l.sum op))

def mpCtrRefWorkInc (count : Nat) (cnt : Int) : Work (Counter kMaxCpus) Loop Unit :=
  mpCtrRefWork count cnt .inc

def mpCtrRefWorkDec (count : Nat) (cnt : Int) : Work (Counter kMaxCpus) Loop Unit :=
  mpCtrRefWork count cnt .dec

def mpCtrRefWorkVal (count : Nat) (cnt : Int) : Work (Counter kMaxCpus) Loop Unit :=
  mpCtrRefWork count cnt .val

/-- The three calls of `MPTest` in a test. -/
def counterTest (kind : Kind) (count : Nat) (cnt : Int) :
    Nat → Stage (Counter kMaxCpus) Loop Unit
  | 0 => ⟨fun _ => .create kind, mpCtrRefWorkInc count cnt⟩
  | 1 => ⟨id, mpCtrRefWorkDec count cnt⟩
  | _ => ⟨id, mpCtrRefWorkVal count cnt⟩

def mpSharedHeapCtrTest (count : Nat) (cnt : Int) : Nat → Stage (Counter kMaxCpus) Loop Unit :=
  counterTest .sharedHeap count cnt

def mpSharedHeapEbbCtrTest (count : Nat) (cnt : Int) : Nat → Stage (Counter kMaxCpus) Loop Unit :=
  counterTest .sharedHeapEbb count cnt

def mpMultiHeapEbbCtrTest (count : Nat) (cnt : Int) : Nat → Stage (Counter kMaxCpus) Loop Unit :=
  counterTest .multiHeapEbb count cnt

/-- The body of the loop of `mp_test`. -/
def mpTestBlock (count : Nat) (acnt : Int) (j : Nat) : Stage (Counter kMaxCpus) Loop Unit :=
  match j / 3 with
  | 0 => mpSharedHeapCtrTest count acnt (j % 3)
  | 1 => mpSharedHeapEbbCtrTest count acnt (j % 3)
  | _ => mpMultiHeapEbbCtrTest count acnt (j % 3)

def mpTest (count : Nat) (rcnt acnt : Int) : Calls (Counter kMaxCpus) Loop Unit :=
  repeated rcnt 9 (mpTestBlock count acnt)

def kindOf (j : Nat) : Kind :=
  match j / 3 with
  | 0 => .sharedHeap
  | 1 => .sharedHeapEbb
  | _ => .multiHeapEbb

/-- What call `j` of the body does to the counter. -/
def opOf (j : Nat) : Op :=
  match j % 3 with
  | 0 => .inc
  | 1 => .dec
  | _ => .val

variable {n count : Nat} {cnt : Int} {j : Nat} {l : Nat → Loop}
  {ctr : Counter kMaxCpus} {f : Fin kMaxCpus → Val}

/-- The counter stands for what each CPU has added to it. -/
def Holds (ctr : Counter kMaxCpus) (f : Fin kMaxCpus → Val) : Prop :=
  match ctr with
  | .shared v => v = ∑ i, f i
  | .multi r => ∀ i, (r i).getD 0 = f i

theorem holds_create (kind : Kind) : Holds (.create kind : Counter kMaxCpus) 0 := by
  cases kind with
  | sharedHeap | sharedHeapEbb => exact Finset.sum_const_zero.symm
  | multiHeapEbb => exact fun i => rfl

theorem Holds.call (h : Holds ctr f) (cpu : Fin kMaxCpus) (op : Op) :
    Holds (ctr.call cpu op) (f + Pi.single cpu op.delta) := by
  cases ctr with
  | shared v =>
    change v + op.delta = ∑ i, (f i + (Pi.single cpu op.delta : Fin kMaxCpus → Val) i)
    rw [Finset.sum_add_distrib, Finset.sum_pi_single', if_pos (Finset.mem_univ cpu), h]
  | multi r =>
    intro i
    rw [exec_apply, Pi.add_apply]
    by_cases hi : i = cpu
    · subst hi
      rw [if_pos rfl, Option.getD_some, Pi.single_eq_same, h i]
    · rw [if_neg hi, Pi.single_eq_of_ne hi, add_zero, h i]

/-- A counter to which no CPU has added anything reads zero, also where `gatherVal` keeps only
the last representative. -/
theorem Holds.val_eq_zero (h : Holds ctr 0) (count : Nat) : ctr.val count = 0 := by
  cases ctr with
  | shared v => exact h.trans Finset.sum_const_zero
  | multi r =>
    apply scan_invariant (P := (· = 0)) _ rfl
    intro _ v hv _
    obtain ⟨i, hi⟩ := (List.mem_ofFn' _ _).mp hv
    have hzero := h i
    rwa [hi, Option.getD_some] at hzero

/-- What a worker has added to the counter after `x` rounds of the current call, and of the
earlier calls of the test. -/
def contribution (cnt : Int) (x : Int) : Op → Val
  | .inc => BitVec.ofInt 32 x
  | .dec => BitVec.ofInt 32 (max cnt 0 - x)
  | .val => 0

theorem contribution_succ (cnt x : Int) (op : Op) :
    contribution cnt (x + 1) op = contribution cnt x op + op.delta := by
  cases op with
  | inc => exact BitVec.ofInt_add x 1
  | dec =>
    change BitVec.ofInt 32 (max cnt 0 - (x + 1)) = BitVec.ofInt 32 (max cnt 0 - x) + -1
    rw [← Int.sub_sub, Int.sub_eq_add_neg, BitVec.ofInt_add]
    rfl
  | val => exact (add_zero 0).symm

/-- Before call `j` of the body. -/
def Before (n : Nat) (cnt : Int) (j : Nat) (ctr : Counter kMaxCpus) : Prop :=
  opOf j ≠ .inc → Holds ctr fun i => if i < n then contribution cnt 0 (opOf j) else 0

/-- While call `j` of the body is under way. -/
def During (n : Nat) (cnt : Int) (j : Nat) (l : Nat → Loop) (ctr : Counter kMaxCpus) : Prop :=
  (Holds ctr fun i => if i < n then contribution cnt (l i).i (opOf j) else 0) ∧
    ∀ i < n, 0 ≤ (l i).i ∧ (l i).i ≤ max cnt 0 ∧ (l i).rc = 0

theorem During.enter {ctr' : Counter kMaxCpus} (h : Before n cnt j ctr)
    (hctr : ctr' = if opOf j = .inc then .create (kindOf j) else ctr) :
    During n cnt j (fun _ => ⟨0, 0⟩) ctr' := by
  refine ⟨?_, fun i _ => ⟨le_rfl, le_max_right cnt 0, rfl⟩⟩
  rw [hctr]
  split
  · rename_i hop
    rw [hop]
    convert holds_create (kindOf j) using 2
    split <;> rfl
  · rename_i hop
    exact h hop

theorem holds_round (h : Holds ctr fun i => if i < n then contribution cnt (l i).i (opOf j) else 0)
    {i : Nat} (hi : i < n) (hcpu : i < kMaxCpus) (rc : Int) :
    Holds (ctr.call ⟨i, hcpu⟩ (opOf j)) fun i' => if i' < n then
      contribution cnt (Function.update l i ⟨(l i).i + 1, rc⟩ i').i (opOf j) else 0 := by
  convert h.call ⟨i, hcpu⟩ (opOf j) using 2 with i'
  rw [Pi.add_apply]
  by_cases he : i' = ⟨i, hcpu⟩
  · subst he
    rw [if_pos hi, if_pos hi, Function.update_self, Pi.single_eq_same, contribution_succ]
  · have hne : (i' : Nat) ≠ i := fun hv => he (Fin.ext hv)
    rw [Function.update_of_ne hne, Pi.single_eq_of_ne he, add_zero]

/-- Nothing is read that is not zero. -/
theorem addend_eq_zero
    (h : Holds ctr fun i => if i < n then contribution cnt (l i).i (opOf j) else 0)
    (cpu : Fin kMaxCpus) : addend count (ctr.call cpu (opOf j)) (opOf j) = 0 := by
  cases hop : opOf j with
  | inc | dec => rfl
  | val =>
    have hzero : Holds (ctr.call cpu .val) 0 := by
      rw [hop] at h
      convert h.call cpu .val using 1
      funext i
      change (0 : Val) = (if i < n then 0 else 0) + (Pi.single cpu 0 : Fin kMaxCpus → Val) i
      rw [Pi.single_zero, Pi.zero_apply, ite_self, add_zero]
    rw [addend, hzero.val_eq_zero count]
    rfl

theorem During.round (h : During n cnt j l ctr) {i : Nat} (hi : i < n) (hcpu : i < kMaxCpus)
    (hlt : (l i).i < cnt) : During n cnt j
      (Function.update l i
        ⟨(l i).i + 1, (l i).rc + addend count (ctr.call ⟨i, hcpu⟩ (opOf j)) (opOf j)⟩)
      (ctr.call ⟨i, hcpu⟩ (opOf j)) := by
  refine ⟨holds_round h.1 hi hcpu _, ?_⟩
  intro i' hi'
  obtain ⟨hlo, hhi, hrc⟩ := h.2 i' hi'
  by_cases he : i' = i
  · subst he
    rw [Function.update_self, addend_eq_zero h.1, hrc]
    change 0 ≤ (l i').i + 1 ∧ (l i').i + 1 ≤ max cnt 0 ∧ (0 : Int) + 0 = 0
    omega
  · rw [Function.update_of_ne he]
    exact ⟨hlo, hhi, hrc⟩

/-- A worker that has returned made all of its rounds. -/
theorem During.returned (h : During n cnt j l ctr) {i : Nat} (hi : i < n) (hle : cnt ≤ (l i).i) :
    (l i).i = max cnt 0 := by
  obtain ⟨hlo, hhi, -⟩ := h.2 i hi
  omega

/-- The order of the calls of a test. -/
def nextOp : Op → Op
  | .inc => .dec
  | .dec => .val
  | .val => .inc

theorem opOf_next : ∀ j < 9, opOf ((j + 1) % 9) = nextOp (opOf j) := by decide

/-- What a call starts from is what the one before it leaves. -/
theorem contribution_next (cnt : Int) (op : Op) (hop : nextOp op ≠ .inc) :
    contribution cnt 0 (nextOp op) = contribution cnt (max cnt 0) op := by
  cases op with
  | inc => exact congrArg (BitVec.ofInt 32) (sub_zero _)
  | dec => exact (congrArg (BitVec.ofInt 32) (sub_self (max cnt 0))).symm
  | val => exact absurd rfl hop

theorem During.leave (h : During n cnt j l ctr) (hall : ∀ i < n, cnt ≤ (l i).i) (hj : j < 9) :
    Before n cnt ((j + 1) % 9) ctr := by
  intro hop
  rw [opOf_next j hj] at hop ⊢
  convert h.1 using 2 with i
  by_cases hi : (i : Nat) < n
  · rw [if_pos hi, if_pos hi, h.returned hi (hall i hi), contribution_next cnt (opOf j) hop]
  · rw [if_neg hi, if_neg hi]

theorem result_eq_some {op : Op} {l : Loop} {rc : BitVec 32} :
    (mpCtrRefWork count cnt op : Work (Counter kMaxCpus) Loop Unit).result l = some rc ↔
      cnt ≤ l.i ∧ BitVec.ofInt 32 (l.sum op) = rc := by
  simp only [mpCtrRefWork, Option.ite_none_left_eq_some, Option.some.injEq, not_lt]

/-- What each worker returns. -/
def expected (cnt : Int) : Op → BitVec 32
  | .inc | .dec => BitVec.ofInt 32 (max cnt 0)
  | .val => 0

/-- When a call of `mp_test` has returned, each of its `n` workers has made all of its rounds and
has read zero in them, the printed sums are what they would be without any concurrency, and the
counter, of whichever kind, is back at zero after the calls of `dec`. -/
structure Balanced (n count : Nat) (cnt : Int) (s : MPTestWork.State (Counter kMaxCpus) Loop) :
    Prop where
  checked : s.mp.checked = true
  rows : s.mp.printed.map Result.rc =
    List.replicate n (expected cnt (opOf ((s.mp.call - 1) % 9)))
  read : ∀ i < n, (s.locals s.mp.call i).i = max cnt 0 ∧ (s.locals s.mp.call i).rc = 0
  settled : opOf ((s.mp.call - 1) % 9) ≠ .inc → s.shared.val count = 0

/-- Two CPUs, and one round of the three tests. -/
def oneRound : List (Event Unit) := (List.range' 1 9).flatMap fun k => turns 2 k 1 fun _ _ => ()

def start : MPTestWork.State (Counter 4) Loop :=
  .init (mpTest 2 1 1) (fun _ => ⟨0, 0⟩) (.shared 0)

theorem oneRound_runs : (run (step 2 (mpTest 2 1 1)) start oneRound).isSome := by decide +kernel

end EbbrtContrib.MPCounterTests
