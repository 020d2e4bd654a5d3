import Mathlib.Algebra.Group.Int.Defs
import Mathlib.Logic.Function.Iterate
import EbbrtContrib.Fallible

namespace EbbrtContrib.CheckedInt

open Fallible

variable {ε σ : Type} {fault : ε}

def INT_MIN : Int := -2 ^ 31
def INT_MAX : Int := 2 ^ 31 - 1

/-- The values of a 32-bit `int`. -/
def Fits (n : Int) : Prop := INT_MIN ≤ n ∧ n ≤ INT_MAX

instance (n : Int) : Decidable (Fits n) := inferInstanceAs (Decidable (_ ∧ _))

/-- The exact result `n` of an operation on `int`s, or the fault that no `int` holds it. -/
def int (fault : ε) (n : Int) : Except ε Int := if Fits n then .ok n else .error fault

def add (fault : ε) (a b : Int) : Except ε Int := int fault (a + b)

/-- `for (; i < cnt; i++)`, with `i` and the state behind it. -/
def loop (fault : ε) (body : σ → Except ε σ) (cnt i : Int) (s : σ) : Except ε (Int × σ) :=
  if _h : i < cnt then do
    let s ← body s
    let _i ← add fault i 1
    loop fault body cnt (i + 1) s
  else .ok (i, s)
termination_by (cnt - i).toNat

def rounds (body : σ → Except ε σ) : Nat → σ → Except ε σ
  | 0, s => .ok s
  | n + 1, s => body s >>= rounds body n

variable {body : σ → Except ε σ} {P : σ → Prop} {cnt : Int}

theorem int_ok (h : Fits cnt) : int fault cnt = .ok cnt := if_pos h

/-- The counter of a loop never overflows. -/
theorem loop_from (fault : ε) (body : σ → Except ε σ) (h : Fits cnt) (n : Nat) {i : Int}
    (hi : Fits i) (hn : i + n = max i cnt) (s : σ) :
    loop fault body cnt i s = rounds body n s >>= fun s => .ok (max i cnt, s) := by
  induction n generalizing i s with
  | zero =>
    have hge : ¬ i < cnt := by omega
    rw [loop, dif_neg hge, Int.max_eq_left (Int.not_lt.mp hge)]
    rfl
  | succ n ih =>
    have hlt : i < cnt := by omega
    have hi' : Fits (i + 1) := ⟨by have := hi.1; omega, by have := h.2; omega⟩
    rw [loop, dif_pos hlt, rounds]
    cases body s with
    | error e => rfl
    | ok s =>
      have hmax : max (i + 1) cnt = max i cnt := by omega
      simp only [ok_bind, add, int_ok hi', ih hi' (by omega) s, hmax]

theorem loop_eq (fault : ε) (body : σ → Except ε σ) (h : Fits cnt) (s : σ) :
    loop fault body cnt 0 s = rounds body cnt.toNat s >>= fun s => .ok (max cnt 0, s) := by
  rw [Int.max_comm]
  exact loop_from fault body h cnt.toNat (by decide) (by omega) s

theorem rounds_ok {f : σ → σ} (n : Nat) {s : σ} (h : ∀ s, body s = .ok (f s)) :
    rounds body n s = .ok (f^[n] s) := by
  induction n generalizing s with
  | zero => rfl
  | succ n ih =>
    rw [rounds, h, ok_bind, ih, Function.iterate_succ_apply]

/-- From the states that meet `P` the program returns, in one of them. -/
def Returns (P : σ → Prop) (body : σ → Except ε σ) : Prop := ∀ s, P s → ∃ t, body s = .ok t ∧ P t

namespace Returns

theorem rounds (h : Returns P body) (n : Nat) : Returns P (rounds body n) := by
  induction n with
  | zero => exact fun s hs => ⟨s, rfl, hs⟩
  | succ n ih =>
    intro s hs
    obtain ⟨t, ht, hP⟩ := h s hs
    obtain ⟨u, hu, hP⟩ := ih t hP
    refine ⟨u, ?_, hP⟩
    rw [CheckedInt.rounds, ht, ok_bind, hu]

/-- One program after the other. -/
theorem foldlM {ι : Type} {f : σ → ι → Except ε σ} (l : List ι)
    (h : ∀ t ∈ l, Returns P fun s => f s t) : Returns P fun s => l.foldlM f s := by
  induction l with
  | nil => exact fun s hs => ⟨s, rfl, hs⟩
  | cons t l ih =>
    intro s hs
    obtain ⟨u, hu, hP⟩ := h t List.mem_cons_self s hs
    obtain ⟨v, hv, hP⟩ := ih (fun t ht => h t (List.mem_cons_of_mem _ ht)) u hP
    refine ⟨v, ?_, hP⟩
    simp only [List.foldlM_cons, hu, ok_bind, hv]

end Returns

end EbbrtContrib.CheckedInt
