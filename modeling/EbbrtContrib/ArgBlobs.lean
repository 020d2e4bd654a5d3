import Mathlib.Algebra.Group.Int.Defs
import Mathlib.Algebra.Group.Nat.Defs
import Mathlib.Data.List.Count
import Mathlib.Data.List.Range
import Mathlib.Logic.Function.Basic
import EbbrtContrib.Argv

namespace EbbrtContrib.ArgBlobs

open CString Argv Fallible

/-- `int len = str.size()` -/
def toInt (size : Nat) : Int :=
  if size % 2 ^ 32 < 2 ^ 31 then (size % 2 ^ 32 : Nat) else (size % 2 ^ 32 : Nat) - 2 ^ 32

def INT_MAX : Nat := 2 ^ 31 - 1

/-- One round of the loops of both `Init`. -/
def append (str : List Byte) (arg : CStr) : List Byte := str ++ arg.bytes ++ [NUL]

def CmdLineArgs.init (argv : List CStr) : List Byte := argv.foldl append []

/-- The loop runs up to the NULL of `::environ`. -/
def Environment.initFrom (str : List Byte) : List (Option CStr) → List Byte
  | some arg :: environ => initFrom (append str arg) environ
  | none :: _ | [] => str

def Environment.init (environ : List (Option CStr)) : List Byte := Environment.initFrom [] environ

/-- A read behind the end of the data, and an `int` that overflows. -/
inductive Fault
  | read
  | overflow
  deriving DecidableEq, Repr

/-- `for (i=0; i<len; i++) if (data[i] == 0) n++;` -/
def countNul (data : List Byte) (len : Int) : Nat := (data.take len.toNat).count NUL

/-- `for (i=0,j=1; j < n; i++) if (data[i] == 0) { ..&(data[i+1]).. j++; }` with `data` from
index `i` on. -/
def scan {σ : Type} (entry : σ → Nat → Nat → σ) (n : Nat) :
    List Byte → Nat → Nat → σ → Except Fault σ
  | [], _, j, s => if j < n then .error .read else .ok s
  | c :: data, i, j, s =>
    if j < n then
      if c = NUL then scan entry n data (i + 1) (j + 1) (entry s j (i + 1))
      else scan entry n data (i + 1) j s
    else .ok s

/-- Pointers into the blob are kept as indices of its bytes. -/
structure CmdLineArgs where
  argvVector : List Slot
  argc : Nat
  deriving DecidableEq, Repr

def CmdLineArgs.data (c : CmdLineArgs) (i : Nat) : Slot := c.argvVector[i]?.getD .uninit

def CmdLineArgs.argv (c : CmdLineArgs) (i : Nat) : Slot := c.data i

/-- `argv_vector.reserve(n)` -/
def reserve (n : Nat) : Except Fault Unit := if INT_MAX < n then .error .overflow else .ok ()

def CmdLineArgs.construct (data : List Byte) : Except Fault CmdLineArgs := do
  let argc := countNul data (toInt data.length)
  reserve (argc + 1)
  let v ← scan (fun v _ start => v ++ [.ptr start]) argc data 0 1 [.ptr 0]
  return ⟨v ++ [.null], argc⟩

/-- `environ_`: the memory from its address on, of which `allocated` slots are its own, and the
indices that have been written. -/
structure Environment where
  slots : Nat → Slot
  allocated : Nat
  written : List Nat

/-- `environ_[j] = s` -/
def Environment.write (e : Environment) (j : Nat) (s : Slot) : Environment :=
  { e with slots := Function.update e.slots j s, written := e.written ++ [j] }

/-- The bare-metal constructor; `heap` is what the memory holds that `malloc` returns. -/
def Environment.construct (heap : Nat → Slot) (data : List Byte) : Except Fault Environment :=
  let numvar := countNul data (toInt data.length)
  let e : Environment := ⟨heap, numvar, []⟩
  let e := e.write numvar .null
  scan (fun e j start => e.write j (.ptr start)) numvar data 0 1 (e.write 0 (.ptr 0))

/-- The indices behind the NULs of the data, which is read from index `i` on. -/
def starts : Nat → List Byte → List Nat
  | _, [] => []
  | i, c :: data => if c = NUL then (i + 1) :: starts (i + 1) data else starts (i + 1) data

theorem length_starts (i : Nat) (data : List Byte) : (starts i data).length = data.count NUL := by
  induction data generalizing i with
  | nil => rfl
  | cons c data ih =>
    rw [starts]
    split
    · rename_i hc
      rw [hc, List.length_cons, ih, List.count_cons_self]
    · rename_i hc
      rw [ih, List.count_cons_of_ne hc]

/-- The loop stops in time, after the first `n - 1` starts. -/
theorem scan_eq {σ : Type} (entry : σ → Nat → Nat → σ) (n : Nat) (data : List Byte) (i j : Nat)
    (s : σ) (h : n ≤ data.count NUL + j) :
    scan entry n data i j s =
      .ok ((((starts i data).take (n - j)).zipIdx j).foldl (fun s p => entry s p.2 p.1) s) := by
  induction data generalizing i j s with
  | nil =>
    have hj : ¬ j < n := by simpa using h
    simp [scan, hj, starts]
  | cons c data ih =>
    by_cases hj : j < n
    · by_cases hc : c = NUL
      · subst hc
        rw [List.count_cons_self] at h
        obtain ⟨k, hk⟩ : ∃ k, n - j = k + 1 := ⟨n - j - 1, by omega⟩
        have hk' : n - (j + 1) = k := by omega
        simp only [scan, hj, if_true, starts, ih _ _ _ (show n ≤ data.count NUL + (j + 1) by omega),
          hk, hk', List.take_succ_cons, List.zipIdx_cons, List.foldl_cons]
      · rw [List.count_cons_of_ne hc] at h
        simp only [scan, hj, if_true, hc, if_false, starts, ih _ _ _ h]
    · have hz : n - j = 0 := by omega
      simp [scan, hj, hz]

theorem count_take_le (data : List Byte) (k : Nat) : (data.take k).count NUL ≤ data.count NUL :=
  (List.take_sublist k data).count_le NUL

theorem foldl_append (starts : List Nat) (j : Nat) (v : List Slot) :
    (starts.zipIdx j).foldl (fun v p => v ++ [Slot.ptr p.1]) v = v ++ starts.map Slot.ptr := by
  induction starts generalizing j v with
  | nil => simp
  | cons a starts ih => simp [ih]

theorem foldl_write (starts : List Nat) (j : Nat) (e : Environment) :
    (∀ i, ((starts.zipIdx j).foldl (fun e p => e.write p.2 (.ptr p.1)) e).slots i =
      if j ≤ i then (starts[i - j]?.map Slot.ptr).getD (e.slots i) else e.slots i) := by
  intro i
  induction starts generalizing j e with
  | nil => simp
  | cons a starts ih =>
    rw [List.zipIdx_cons, List.foldl_cons, ih]
    obtain hlt | rfl | hgt := lt_trichotomy i j
    · rw [if_neg (by omega), if_neg (by omega)]
      exact Function.update_of_ne (by omega) _ _
    · rw [if_neg (by omega), if_pos le_rfl, Nat.sub_self]
      exact Function.update_self _ _ _
    · obtain ⟨k, rfl⟩ : ∃ k, i = j + 1 + k := ⟨i - (j + 1), by omega⟩
      have hk : j + 1 + k - j = k + 1 := by omega
      rw [if_pos (by omega), if_pos (by omega), hk, Nat.add_sub_cancel_left,
        List.getElem?_cons_succ]
      congr 1
      exact Function.update_of_ne (by omega) _ _

end EbbrtContrib.ArgBlobs
