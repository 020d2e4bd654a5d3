import Mathlib.Data.List.Basic
import EbbrtContrib.Fallible

namespace EbbrtContrib.InPlace

variable {α : Type}

inductive Fault
  | read
  | overrun
  | bounds
  | fuel
  deriving DecidableEq, Repr

/-- A buffer that is read at `scan` and rewritten in place at `dest`. -/
structure Cursor (α : Type) where
  buf : List α
  dest : Nat
  scan : Nat
  deriving DecidableEq, Repr

def peek (c : Cursor α) : Except Fault α :=
  match c.buf[c.scan]? with
  | some a => .ok a
  | none => .error .read

/-- `*(scan++)` -/
def next (c : Cursor α) : Except Fault (α × Cursor α) :=
  match c.buf[c.scan]? with
  | some a => .ok (a, { c with scan := c.scan + 1 })
  | none => .error .read

/-- `*dest = a`. A write that would reach an element not yet read is a fault. -/
def store (a : α) (c : Cursor α) : Except Fault (Cursor α) :=
  if c.dest < c.scan then .ok { c with buf := c.buf.set c.dest a } else .error .overrun

/-- `*(dest++) = a` -/
def put (a : α) (c : Cursor α) : Except Fault (Cursor α) :=
  if c.dest < c.scan then .ok { c with buf := c.buf.set c.dest a, dest := c.dest + 1 }
  else .error .overrun

theorem peek_eq_ok {c : Cursor α} {a : α} : peek c = .ok a ↔ c.buf[c.scan]? = some a := by
  unfold peek
  split
  · rename_i b hb
    simp [hb]
  · rename_i hb
    simp [hb]

theorem next_eq_ok {c c' : Cursor α} {a : α} :
    next c = .ok (a, c') ↔ c.buf[c.scan]? = some a ∧ c' = { c with scan := c.scan + 1 } := by
  unfold next
  split
  · rename_i b hb
    simp [hb, eq_comm]
  · rename_i hb
    simp [hb]

theorem store_eq_ok {c c' : Cursor α} {a : α} :
    store a c = .ok c' ↔ c.dest < c.scan ∧ c' = { c with buf := c.buf.set c.dest a } := by
  unfold store
  split
  · rename_i hlt
    simp [hlt, eq_comm]
  · rename_i hlt
    simp [hlt]

theorem put_eq_ok {c c' : Cursor α} {a : α} :
    put a c = .ok c' ↔
      c.dest < c.scan ∧ c' = { c with buf := c.buf.set c.dest a, dest := c.dest + 1 } := by
  unfold put
  split
  · rename_i hlt
    simp [hlt, eq_comm]
  · rename_i hlt
    simp [hlt]

/-- The cursor pair over a buffer cut into the part that has been rewritten,
the gap of elements read but not yet written over, and the unread rest. -/
def cut (w g r : List α) : Cursor α := ⟨w ++ (g ++ r), w.length, w.length + g.length⟩

theorem cut_getElem? (w g r : List α) : (cut w g r).buf[(cut w g r).scan]? = r.head? := by
  simp only [cut]
  rw [List.getElem?_append_right (by omega), List.getElem?_append_right (by omega)]
  cases r <;> simp

@[simp] theorem next_cut (w g r : List α) (a : α) :
    next (cut w g (a :: r)) = .ok (a, cut w (g ++ [a]) r) := by
  simp only [next, cut_getElem?, List.head?_cons]
  simp [cut, Nat.add_assoc]

theorem set_gap {g : List α} (hg : g ≠ []) (w r : List α) (a : α) :
    (w ++ (g ++ r)).set w.length a = w ++ (a :: g.tail ++ r) := by
  rw [List.set_append_right _ _ (Nat.le_refl _)]
  cases g with
  | nil => exact absurd rfl hg
  | cons b g => simp

theorem lt_scan {g : List α} (hg : g ≠ []) (w : List α) : w.length < w.length + g.length := by
  have := List.length_pos_iff.mpr hg
  omega

theorem put_cut {g : List α} (hg : g ≠ []) (w r : List α) (a : α) :
    put a (cut w g r) = .ok (cut (w ++ [a]) g.tail r) := by
  simp only [put, cut, if_pos (lt_scan hg w), set_gap hg]
  cases g with
  | nil => exact absurd rfl hg
  | cons b g => simp [Nat.add_assoc, Nat.add_comm g.length]

theorem store_cut {g : List α} (hg : g ≠ []) (w r : List α) (a : α) :
    store a (cut w g r) = .ok (cut w (a :: g.tail) r) := by
  simp only [store, cut, if_pos (lt_scan hg w), set_gap hg]
  cases g with
  | nil => exact absurd rfl hg
  | cons b g => simp

end EbbrtContrib.InPlace
