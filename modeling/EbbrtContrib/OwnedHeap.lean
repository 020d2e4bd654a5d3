import Mathlib.Data.List.Nodup
import Mathlib.Logic.Function.Basic

namespace EbbrtContrib.OwnedHeap

variable {α ι : Type*} [DecidableEq α]

/-- The addresses of the live blocks, each with the one that allocated it. -/
abbrev Heap (α ι : Type*) := α → Option ι

def alloc (h : Heap α ι) (o : ι) (a : α) : Heap α ι := Function.update h a (some o)

def free (h : Heap α ι) (a : α) : Heap α ι := Function.update h a none

/-- The blocks that `o` allocated and nobody freed are those of the list. -/
structure Holds (h : Heap α ι) (o : ι) (blocks : List α) : Prop where
  nodup : blocks.Nodup
  mem_iff : ∀ a, h a = some o ↔ a ∈ blocks

variable {h : Heap α ι} {o o' : ι} {a : α} {blocks : List α}

theorem alloc_apply (h : Heap α ι) (o : ι) (a b : α) :
    alloc h o a b = if b = a then some o else h b :=
  Function.update_apply h a (some o) b

theorem free_apply (h : Heap α ι) (a b : α) : free h a b = if b = a then none else h b :=
  Function.update_apply h a none b

/-- What others allocate is nobody else's. -/
theorem alloc_other (hne : o' ≠ o) (hfresh : h a = none) (b : α) :
    alloc h o' a b = some o ↔ h b = some o := by
  rw [alloc_apply]
  by_cases hb : b = a
  · subst hb
    rw [if_pos rfl, hfresh, Option.some.injEq]
    exact ⟨fun he => absurd he hne, fun he => (by cases he)⟩
  · rw [if_neg hb]

/-- What others free of their own is nobody else's. -/
theorem free_other (hne : o' ≠ o) (howner : h a = some o') (b : α) :
    free h a b = some o ↔ h b = some o := by
  rw [free_apply]
  by_cases hb : b = a
  · subst hb
    rw [if_pos rfl, howner, Option.some.injEq]
    exact ⟨fun he => (by cases he), fun he => absurd he hne⟩
  · rw [if_neg hb]

namespace Holds

omit [DecidableEq α] in
theorem nil (hnone : ∀ a, h a ≠ some o) : Holds h o [] :=
  ⟨List.nodup_nil, fun a => ⟨fun ha => absurd ha (hnone a), fun ha => absurd ha List.not_mem_nil⟩⟩

omit [DecidableEq α] in
theorem congr {h' : Heap α ι} (hh : Holds h o blocks) (hsame : ∀ a, h' a = some o ↔ h a = some o) :
    Holds h' o blocks :=
  ⟨hh.nodup, fun a => (hsame a).trans (hh.mem_iff a)⟩

theorem alloc (hh : Holds h o blocks) (hfresh : h a = none) :
    Holds (alloc h o a) o (blocks ++ [a]) := by
  have hnot : a ∉ blocks := fun ha => by cases hfresh.symm.trans ((hh.mem_iff a).mpr ha)
  constructor
  · exact hh.nodup.append (List.nodup_singleton a) (List.disjoint_singleton.mpr hnot)
  · intro b
    rw [alloc_apply, List.mem_append, List.mem_singleton]
    by_cases hb : b = a
    · simp [hb]
    · simp [hb, hh.mem_iff b]

theorem free {before after : List α} (hh : Holds h o (before ++ a :: after)) :
    Holds (free h a) o (before ++ after) := by
  have hmiddle := List.nodup_middle.mp hh.nodup
  rw [List.nodup_cons] at hmiddle
  refine ⟨hmiddle.2, fun b => ?_⟩
  rw [free_apply]
  by_cases hb : b = a
  · subst hb
    rw [if_pos rfl]
    exact ⟨fun he => (by cases he), fun he => absurd he hmiddle.1⟩
  · rw [if_neg hb, hh.mem_iff b, List.mem_append, List.mem_append, List.mem_cons]
    simp [hb]

end Holds

end EbbrtContrib.OwnedHeap
