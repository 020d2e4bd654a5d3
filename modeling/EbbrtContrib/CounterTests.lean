import Mathlib.Data.BitVec
import Mathlib.Logic.Function.Basic
import EbbrtContrib.CommandLine
import EbbrtContrib.CheckedInt

namespace EbbrtContrib.CounterTests

open CheckedInt CommandLine

/-- An `int` that overflows, and an `rc` that is not zero where it is asserted to be. -/
inductive Fault
  | overflow
  | assertion
  deriving DecidableEq, Repr

/-- `_val` of a `Ctr`, `VirtualCtr` or `EbbCtr`, which the instructions of `inc` and `dec` let wrap
around. -/
abbrev Ctr := BitVec 32

def inc (c : Ctr) : Ctr := c + 1
def dec (c : Ctr) : Ctr := c - 1
def val (c : Ctr) : Int := c.toInt

/-- A counter before and after `CtrWork` or `CtrRefWork`, and the `rc` of the macro. -/
structure Work where
  before : Ctr
  after : Ctr
  rc : Int
  deriving DecidableEq, Repr

/-- The counters that outlive the tests. -/
inductive Static
  | globalCtr
  | virtualGlobalCtr
  | theGlobalCtr
  deriving DecidableEq, Repr

structure State where
  counters : Static → Ctr
  works : List Work

def State.start : State where
  counters _ := 0
  works := []

abbrev M := Except Fault

/-- What the two macros share, with the check of `rc`. Their callers pass `rc` as `SUM`, which in
the block is the name of the macro's own `rc`: all sums go there, and the `rc` of the caller is left
as it is. -/
def work (check : Int → M Unit) (ctr : Ctr) (cnt callerRc : Int) : M (Int × Work) := do
  let rc := 0
  let (i, up) ← loop .overflow (fun ctr => .ok (inc ctr)) cnt 0 ctr
  let rc ← add .overflow rc i
  let (i, down) ← loop .overflow (fun ctr => .ok (dec ctr)) cnt 0 up
  let _rc ← add .overflow rc i
  let (_i, rc) ← loop .overflow (fun rc => add .overflow rc (val down)) cnt 0 0
  let rc ← add .overflow rc rc
  check rc
  return (callerRc, ⟨ctr, down, rc⟩)

def ctrWork : Ctr → Int → Int → M (Int × Work) := work fun _rc => .ok ()

def ctrRefWork : Ctr → Int → Int → M (Int × Work) :=
  work fun rc => if rc = 0 then .ok () else .error .assertion

/-- A test, given its `cnt`. -/
abbrev CtrTest := Int → State → M (Int × State)

def onStatic (work : Ctr → Int → Int → M (Int × Work)) (c : Static) : CtrTest := fun cnt s => do
  let (rc, w) ← work (s.counters c) cnt 0
  return (rc, ⟨Function.update s.counters c w.after, s.works ++ [w]⟩)

/-- The counter is constructed by the test, and does not outlive it. -/
def onNew (work : Ctr → Int → Int → M (Int × Work)) : CtrTest := fun cnt s => do
  let (rc, w) ← work 0 cnt 0
  return (rc, ⟨s.counters, s.works ++ [w]⟩)

def globalCtrTest : CtrTest := onStatic ctrWork .globalCtr
def virtualGlobalCtrTest : CtrTest := onStatic ctrWork .virtualGlobalCtr
def stackCtrTest : CtrTest := onNew ctrWork
def heapCtrTest : CtrTest := onNew ctrRefWork
def virtualHeapCtrTest : CtrTest := onNew ctrRefWork
def globalEbbCtrTest : CtrTest := onStatic ctrRefWork .theGlobalCtr
def heapEbbCtrTest : CtrTest := onNew ctrRefWork

/-- `rc+=test(acnt)` -/
def call (acnt : Int) (x : Int × State) (test : CtrTest) : M (Int × State) := do
  let (r, s) ← test acnt x.2
  let rc ← add .overflow x.1 r
  return (rc, s)

def repetitions (tests : List CtrTest) (args : Arguments) (s : State) : M (Int × State) := do
  let body x := tests.foldlM (call args.actionCnt) x
  let (_i, x) ← loop .overflow body args.repeatCnt 0 (0, s)
  return x

def cppTests : List CtrTest :=
  [globalCtrTest, stackCtrTest, heapCtrTest, virtualGlobalCtrTest, virtualHeapCtrTest]

def ebbTests : List CtrTest := [globalEbbCtrTest, heapEbbCtrTest]

def cppTest (args : Arguments) (s : State) : M (Int × State) :=
  if args.tests.cpp then repetitions cppTests args s else .ok (0, s)

def ebbTest (args : Arguments) (s : State) : M (Int × State) :=
  if args.tests.ebb then repetitions ebbTests args s else .ok (0, s)

/-- What the two tests return, called as in `AppMain`, and the counters behind them. -/
def counterTests (args : Arguments) : M (Int × Int × State) := do
  let (cpp, s) ← cppTest args .start
  let (ebb, s) ← ebbTest args s
  return (cpp, ebb, s)

theorem dec_inc : Function.LeftInverse dec inc := fun c => BitVec.add_sub_cancel c 1

end EbbrtContrib.CounterTests
