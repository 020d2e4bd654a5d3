import EbbrtContrib.CommandLine
import EbbrtContrib.MPTestWork
import EbbrtContrib.OwnedHeap

namespace EbbrtContrib.HoardThreadTest

open CommandLine CString MPTestWork OwnedHeap

/-- The globals of the test. -/
structure Config where
  nthreads : Int
  niterations : Int
  nobjects : Int
  work : Int
  size : Int
  deriving DecidableEq, Repr

/-- The arguments of `hoard_threadtest`, which replace the globals as far as they are given. -/
def Config.read (argv : List (List Byte)) : Config where
  nthreads := argv[1]?.elim 1 atoi
  niterations := argv[2]?.elim 50 atoi
  nobjects := argv[3]?.elim 30000 atoi
  work := argv[4]?.elim 0 atoi
  size := argv[5]?.elim 1 atoi

/-- The elements from `optind` on, to which `getopt` has moved what is no option. -/
def operands : List (List Byte) → List (List Byte)
  | [] => []
  | arg :: rest =>
    if arg = [dash, dash] then rest
    else if arg.head? = some dash ∧ arg ≠ [dash] then
      match (optionsOf arg.tail).2, rest with
      | none, rest => operands rest
      | some _, [] => []
      | some _, _ :: rest => operands rest
    else arg :: operands rest

/-- What `malloc_test` passes to `hoard_threadtest`. -/
def mallocTest (argv : List (List Byte)) : Config := .read (operands argv.tail)

example : mallocTest (["ubench", "-m", "-P", "2", "--", "threadtest", "4", "50", "120000"].map
    (·.toUTF8.toList)) = ⟨4, 50, 120000, 0, 1⟩ := by
  decide +kernel

/-- `nobjects / nthreads`, which traps where the quotient is no `int`. -/
def Config.share (c : Config) : Option Int :=
  if c.nthreads = 0 ∨ (c.nobjects = -2147483648 ∧ c.nthreads = -1) then none
  else some (c.nobjects.tdiv c.nthreads)

/-- A block that the program had allocated before, or one of a worker. -/
inductive Owner
  | other
  | worker (i : Nat)
  deriving DecidableEq, Repr

/-- What ends the program: the trap of the division, and the exceptions of `new`. -/
inductive Cause
  | division
  | badArrayNewLength
  | badAlloc
  deriving DecidableEq, Repr

/-- `fault` tells of an access outside of a table and of a `delete[]` of what is not allocated;
`allocated` and `freed` count the blocks of each worker. -/
structure Memory where
  heap : Heap Nat Owner
  allocated : Nat → Nat
  freed : Nat → Nat
  fault : Bool
  ended : Option Cause

def Memory.init (live : Nat → Bool) : Memory :=
  ⟨fun a => if live a then some .other else none, fun _ => 0, fun _ => 0, false, none⟩

def Memory.grant (m : Memory) (cpu a : Nat) : Memory :=
  { m with
    heap := alloc m.heap (.worker cpu) a
    allocated := Function.update m.allocated cpu (m.allocated cpu + 1) }

/-- `new T[length]`; the allocator answers with an address that is not in use, or not at all. -/
def Memory.new (m : Memory) (cpu : Nat) (length : Int) (answer : Option Nat) :
    Option (Option Nat × Memory) :=
  if length < 0 then some (none, { m with ended := some .badArrayNewLength })
  else match answer with
    | none => some (none, { m with ended := some .badAlloc })
    | some a => if m.heap a = none then some (some a, m.grant cpu a) else none

def Memory.release (m : Memory) (cpu a : Nat) : Memory :=
  { m with
    heap := free m.heap a
    freed := Function.update m.freed cpu (m.freed cpu + 1) }

/-- `delete[] p`, where an uninitialised pointer is `none`. -/
def Memory.delete (m : Memory) (cpu : Nat) (p : Option Nat) : Memory :=
  match p with
  | none => { m with fault := true }
  | some a => if m.heap a = none then { m with fault := true } else m.release cpu a

/-- A store at index `i` of the table. -/
def Memory.access (m : Memory) (table : List (Option Nat)) (i : Nat) : Memory :=
  { m with fault := m.fault || decide (table.length ≤ i) }

/-- Where `worker` is: before the allocation of `a`, at the head of the outer loop, in the two inner
loops, at the last `delete[]`, or behind it. -/
inductive Place
  | start
  | outer (j : Nat)
  | allocating (j i : Nat)
  | freeing (j i : Nat)
  | ending
  | done
  deriving DecidableEq, Repr

/-- The variables of `worker`: `a`, and the table that it points to. -/
structure Local where
  place : Place
  a : Option Nat
  table : List (Option Nat)
  deriving DecidableEq, Repr

/-- A step of `worker`; the loops over `work` have no effect. -/
def advance (c : Config) (cpu : Nat) (answer : Option Nat) (l : Local) (m : Memory) :
    Option (Local × Memory) :=
  match m.ended, l.place, c.share with
  | some _, _, _ | none, .done, _ => none
  | none, .outer j, _ =>
    if j < c.niterations then some ({ l with place := .allocating j 0 }, m)
    else some ({ l with place := .ending }, m)
  | none, .ending, _ => some ({ l with place := .done }, m.delete cpu l.a)
  | none, _, none => some (l, { m with ended := some .division })
  | none, .start, some share => (m.new cpu share answer).map fun r =>
    (r.1.elim l fun a => ⟨.outer 0, some a, List.replicate share.toNat none⟩, r.2)
  | none, .allocating j i, some share =>
    if i < share then (m.new cpu c.size answer).map fun r =>
      r.1.elim (l, r.2) fun a =>
        ({ l with place := .allocating j (i + 1), table := l.table.set i (some a) },
          r.2.access l.table i)
    else some ({ l with place := .freeing j 0 }, m)
  | none, .freeing j i, some share =>
    if i < share then
      some ({ l with place := .freeing j (i + 1) }, m.delete cpu (l.table[i]?.join))
    else some ({ l with place := .outer (j + 1) }, m)

def worker (c : Config) : Work Memory Local (Option Nat) where
  begin := ⟨.start, none, []⟩
  advance := advance c
  result l := if l.place = .done then some 1 else none

/-- `hoard_threadtest`, on as many CPUs as `MPTest` makes of `nthreads`. -/
def hoardThreadtest (c : Config) : Calls Memory Local (Option Nat) :=
  repeated 1 1 fun _ => ⟨id, worker c⟩

end EbbrtContrib.HoardThreadTest
