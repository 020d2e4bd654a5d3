import Mathlib.Logic.Function.Basic
import EbbrtContrib.Runs

namespace EbbrtContrib.Buffers

open Runs

variable {α : Type*}

/-- The buffers that exist, by their ids. The ids from `next` on have not been given out yet, and
none is given out twice. -/
structure Memory (α : Type*) where
  buffers : Nat → Option α
  next : Nat
  fresh : ∀ b, next ≤ b → buffers b = none

namespace Memory

def alloc (m : Memory α) (a : α) : Memory α where
  buffers := Function.update m.buffers m.next (some a)
  next := m.next + 1
  fresh b hb := by
    rw [Function.update_of_ne (by omega)]
    exact m.fresh b (Nat.le_of_succ_le hb)

def free (m : Memory α) (b : Nat) : Memory α where
  buffers := Function.update m.buffers b none
  next := m.next
  fresh c hc := by
    by_cases h : c = b
    · rw [h, Function.update_self]
    · rw [Function.update_of_ne h]
      exact m.fresh c hc

variable {m m' : Memory α} {b c : Nat} {a : α}

theorem alloc_buffers (m : Memory α) (a : α) (b : Nat) :
    (m.alloc a).buffers b = if b = m.next then some a else m.buffers b :=
  Function.update_apply m.buffers m.next (some a) b

theorem free_buffers (m : Memory α) (b c : Nat) :
    (m.free b).buffers c = if c = b then none else m.buffers c :=
  Function.update_apply m.buffers b none c

theorem lt_next (h : m.buffers b = some a) : b < m.next := by
  by_contra hge
  rw [m.fresh b (Nat.le_of_not_lt hge)] at h
  cases h

inductive Event (α : Type*)
  | alloc (a : α)
  | free (b : Nat)

def step (m : Memory α) : Event α → Option (Memory α)
  | .alloc a => some (m.alloc a)
  | .free b => some (m.free b)

/-- The memories that come after `m` while somebody keeps buffer `b`. -/
def Later (b : Nat) : Memory α → Memory α → Prop := Reaches step fun _ e => e ≠ .free b

theorem Later.kept (h : Later b m m') (ha : m.buffers b = some a) : m'.buffers b = some a := by
  refine Reaches.invariant (I := fun m => m.buffers b = some a) h ha fun m e t hm hkeeps ht => ?_
  cases e with
  | alloc a' =>
    obtain rfl := Option.some.inj ht
    rw [alloc_buffers, if_neg (Nat.ne_of_lt (lt_next hm))]
    exact hm
  | free c =>
    obtain rfl := Option.some.inj ht
    rw [free_buffers, if_neg (fun he : b = c => hkeeps (congrArg Event.free he.symm))]
    exact hm

/-- What has been freed does not come back. -/
theorem Later.gone (h : Later b m m') (hc : c < m.next) (hn : m.buffers c = none) :
    m'.buffers c = none := by
  have hinv : c < m'.next ∧ m'.buffers c = none := by
    refine Reaches.invariant h (I := fun m => c < m.next ∧ m.buffers c = none) ⟨hc, hn⟩ ?_
    rintro m e t ⟨hc, hn⟩ - ht
    cases e with
    | alloc a' =>
      obtain rfl := Option.some.inj ht
      refine ⟨Nat.lt_succ_of_lt hc, ?_⟩
      rw [alloc_buffers, if_neg (Nat.ne_of_lt hc)]
      exact hn
    | free d =>
      obtain rfl := Option.some.inj ht
      refine ⟨hc, ?_⟩
      rw [free_buffers, hn, ite_self]
  exact hinv.2

end Memory

end EbbrtContrib.Buffers
