import Mathlib.Data.List.Nodup
import Mathlib.Data.List.Perm.Basic

namespace EbbrtContrib.Numbered

variable {α β : Type*} {f : α → β} {l : List α} {x : α}

theorem nodup_snoc_of_ne (h : (l.map f).Nodup) (hx : ∀ c ∈ l, f c ≠ f x) :
    ((l ++ [x]).map f).Nodup := by
  rw [List.map_append, List.map_singleton]
  refine h.append (List.nodup_singleton _) ?_
  rw [List.disjoint_singleton]
  intro hm
  obtain ⟨c, hc, he⟩ := List.mem_map.mp hm
  exact hx c hc he

theorem nodup_snoc {f : α → Nat} (h : (l.map f).Nodup) (hx : ∀ c ∈ l, f c < f x) :
    ((l ++ [x]).map f).Nodup :=
  nodup_snoc_of_ne h fun c hc => Nat.ne_of_lt (hx c hc)

theorem forall_mem_snoc {P : α → Prop} (h : ∀ c ∈ l, P c) (hx : P x) : ∀ c ∈ l ++ [x], P c := by
  intro c hc
  obtain hc | hc := List.mem_append.mp hc
  · exact h c hc
  · rwa [List.mem_singleton.mp hc]

theorem eq_of_mem {c : α} (h : (l.map f).Nodup) (hc : c ∈ l) (hx : x ∈ l) (he : f c = f x) :
    c = x :=
  List.inj_on_of_nodup_map h hc hx he

/-- Taking one of the elements out leaves the others, and none with its number. -/
theorem ne_of_mem_eraseIdx {k : Nat} {c : α} (h : (l.map f).Nodup) (hk : l[k]? = some x)
    (hc : c ∈ l.eraseIdx k) : f c ≠ f x := by
  obtain ⟨hlt, rfl⟩ := List.getElem?_eq_some_iff.mp hk
  have hperm := (List.getElem_cons_eraseIdx_perm hlt).map f
  rw [List.map_cons] at hperm
  intro he
  have hnot := (List.nodup_cons.mp (hperm.nodup_iff.mpr h)).1
  exact hnot (he ▸ List.mem_map_of_mem hc)

theorem nodup_eraseIdx (h : (l.map f).Nodup) (k : Nat) : ((l.eraseIdx k).map f).Nodup :=
  h.sublist ((List.eraseIdx_sublist l k).map f)

/-- What is not taken out of a list stays in it. -/
theorem eq_or_mem_eraseIdx {y : α} {k : Nat} (hk : l[k]? = some y) (hx : x ∈ l) :
    x = y ∨ x ∈ l.eraseIdx k := by
  obtain ⟨hlt, rfl⟩ := List.getElem?_eq_some_iff.mp hk
  exact List.mem_cons.mp ((List.getElem_cons_eraseIdx_perm hlt).mem_iff.mpr hx)

theorem eq_or_mem_map_eraseIdx {y : α} {b : β} {k : Nat} (hk : l[k]? = some y)
    (hb : b ∈ l.map f) : b = f y ∨ b ∈ (l.eraseIdx k).map f := by
  obtain ⟨x, hx, rfl⟩ := List.mem_map.mp hb
  exact (eq_or_mem_eraseIdx hk hx).imp (congrArg f) List.mem_map_of_mem

theorem length_eraseIdx_add_one {k : Nat} (hk : l[k]? = some x) :
    (l.eraseIdx k).length + 1 = l.length := by
  obtain ⟨hlt, rfl⟩ := List.getElem?_eq_some_iff.mp hk
  exact List.length_eraseIdx_add_one hlt

end EbbrtContrib.Numbered
