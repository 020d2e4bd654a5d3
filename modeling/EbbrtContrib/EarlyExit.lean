import Mathlib.Data.List.ReduceOption

namespace EbbrtContrib.EarlyExit

variable {α α' β : Type}

/-- `for (i = 0; n && i < table.size; i++) if (table[i]) { b = f(b, table[i]); n--; }` -/
def scan (f : β → α → β) : Nat → β → List (Option α) → β
  | 0, b, _ => b
  | _ + 1, b, [] => b
  | n + 1, b, none :: table => scan f (n + 1) b table
  | n + 1, b, some a :: table => scan f n (f b a) table

/-- A budget for all entries that are not null never stops the scan early. -/
theorem scan_eq_foldl (f : β → α → β) (n : Nat) (b : β) (table : List (Option α))
    (h : table.reduceOption.length ≤ n) : scan f n b table = table.reduceOption.foldl f b := by
  induction table generalizing n b with
  | nil => cases n <;> rfl
  | cons entry table ih =>
    cases entry with
    | none =>
      rw [List.reduceOption_cons_of_none] at h ⊢
      cases n with
      | zero => rw [List.length_eq_zero_iff.mp (Nat.le_zero.mp h)]; rfl
      | succ n => exact ih (n + 1) b h
    | some a =>
      rw [List.reduceOption_cons_of_some, List.length_cons] at h
      rw [List.reduceOption_cons_of_some, List.foldl_cons]
      cases n with
      | zero => omega
      | succ n => exact ih n (f b a) (by omega)

theorem scan_map (f : β → α' → β) (g : α → α') (n : Nat) (b : β) (table : List (Option α)) :
    scan f n b (table.map (Option.map g)) = scan (fun b a => f b (g a)) n b table := by
  induction table generalizing n b with
  | nil => cases n <;> rfl
  | cons entry table ih =>
    cases n with
    | zero => rfl
    | succ n =>
      cases entry with
      | none => exact ih (n + 1) b
      | some a => exact ih n (f b (g a))

/-- What the scan starts with and every entry keeps holds of its result. -/
theorem scan_invariant {f : β → α → β} {P : β → Prop} {table : List (Option α)}
    (hstep : ∀ b a, some a ∈ table → P b → P (f b a)) {n : Nat} {b : β} (hb : P b) :
    P (scan f n b table) := by
  induction table generalizing n b with
  | nil => cases n <;> exact hb
  | cons entry table ih =>
    have htable := fun b a ha => hstep b a (List.mem_cons_of_mem entry ha)
    cases n with
    | zero => exact hb
    | succ n =>
      cases entry with
      | none => exact ih htable hb
      | some a => exact ih htable (hstep b a List.mem_cons_self hb)

theorem foldl_last (b : α) (xs : List α) (a : α) :
    (xs ++ [a]).foldl (fun _ x => x) b = a := by
  rw [List.foldl_append, List.foldl_cons, List.foldl_nil]

end EbbrtContrib.EarlyExit
