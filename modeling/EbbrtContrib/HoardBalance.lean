import Mathlib.Algebra.BigOperators.Group.Finset.Basic
import EbbrtContrib.HoardThreadTest

namespace EbbrtContrib.HoardBalance

open HoardThreadTest MPTest MPTestWork OwnedHeap Runs

/-- The rounds of the outer loop. -/
def rounds (c : Config) : Nat := c.niterations.toNat

/-- The rounds of the inner loops. -/
def perWorker (c : Config) : Nat := (c.share.getD 0).toNat

/-- The pointers to the blocks that a worker has not freed yet, in the order of their
allocation. -/
def held (l : Local) : List (Option Nat) :=
  match l.place with
  | .start | .done => []
  | .outer _ | .ending => [l.a]
  | .allocating _ i => l.a :: l.table.take i
  | .freeing _ i => l.a :: l.table.drop i

/-- How many blocks a worker has allocated where it is. -/
def allocatedAt (c : Config) : Place → Nat
  | .start => 0
  | .outer j => 1 + j * perWorker c
  | .allocating j i => 1 + j * perWorker c + i
  | .freeing j _ => 1 + (j + 1) * perWorker c
  | .ending | .done => 1 + rounds c * perWorker c

def freedAt (c : Config) : Place → Nat
  | .start => 0
  | .outer j | .allocating j _ => j * perWorker c
  | .freeing j i => j * perWorker c + i
  | .ending => rounds c * perWorker c
  | .done => 1 + rounds c * perWorker c

def InRange (c : Config) : Place → Prop
  | .start | .ending | .done => True
  | .outer j => j ≤ rounds c
  | .allocating j i | .freeing j i => j < rounds c ∧ i ≤ perWorker c

/-- Why the program ends. -/
def Reason (c : Config) : Cause → Prop
  | .division => c.share = none
  | .badArrayNewLength => (∃ share, c.share = some share ∧ share < 0) ∨ c.size < 0
  | .badAlloc => True

/-- Everything a step of `worker` can do. -/
inductive Moved (c : Config) (cpu : Nat) (l : Local) (m : Memory) : Local → Memory → Prop
  | stop (cause : Cause) : l.place ≠ .done → Reason c cause →
      Moved c cpu l m l { m with ended := some cause }
  | begin (share : Int) (a : Nat) : l.place = .start → c.share = some share → 0 ≤ share →
      m.heap a = none →
      Moved c cpu l m ⟨.outer 0, some a, List.replicate share.toNat none⟩ (m.grant cpu a)
  | round (j : Nat) : l.place = .outer j → (j : Int) < c.niterations →
      Moved c cpu l m { l with place := .allocating j 0 } m
  | last (j : Nat) : l.place = .outer j → c.niterations ≤ j →
      Moved c cpu l m { l with place := .ending } m
  | object (j i : Nat) (share : Int) (a : Nat) : l.place = .allocating j i →
      c.share = some share → (i : Int) < share → m.heap a = none →
      Moved c cpu l m ⟨.allocating j (i + 1), l.a, l.table.set i (some a)⟩
        ((m.grant cpu a).access l.table i)
  | filled (j i : Nat) (share : Int) : l.place = .allocating j i → c.share = some share →
      share ≤ i → Moved c cpu l m { l with place := .freeing j 0 } m
  | release (j i : Nat) (share : Int) : l.place = .freeing j i → c.share = some share →
      (i : Int) < share → Moved c cpu l m { l with place := .freeing j (i + 1) }
        (m.delete cpu l.table[i]?.join)
  | emptied (j i : Nat) (share : Int) : l.place = .freeing j i → c.share = some share →
      share ≤ i → Moved c cpu l m { l with place := .outer (j + 1) } m
  | finish : l.place = .ending →
      Moved c cpu l m { l with place := .done } (m.delete cpu l.a)

variable {c : Config} {cpu i n : Nat} {answer : Option Nat} {l l' : Local} {m m' : Memory}

theorem new_cases {length : Int} {r : Option Nat × Memory}
    (h : m.new cpu length answer = some r) :
    (r = (none, { m with ended := some .badArrayNewLength }) ∧ length < 0) ∨
      r = (none, { m with ended := some .badAlloc }) ∨
      ∃ a, r = (some a, m.grant cpu a) ∧ 0 ≤ length ∧ m.heap a = none := by
  unfold Memory.new at h
  split at h
  · rename_i hneg
    exact .inl ⟨(Option.some.inj h).symm, hneg⟩
  · rename_i hnonneg
    cases answer with
    | none => exact .inr (.inl (Option.some.inj h).symm)
    | some a =>
      obtain ⟨hfree, h⟩ := Option.ite_none_right_eq_some.mp h
      exact .inr (.inr ⟨a, (Option.some.inj h).symm, not_lt.mp hnonneg, hfree⟩)

theorem advance_cases (h : advance c cpu answer l m = some (l', m')) :
    m.ended = none ∧ Moved c cpu l m l' m' := by
  cases hm : m.ended with
  | some cause => simp [advance, hm] at h
  | none =>
    refine ⟨rfl, ?_⟩
    cases hp : l.place with
    | done => simp [advance, hm, hp] at h
    | outer j =>
      simp only [advance, hm, hp] at h
      split at h
      · rename_i hj
        cases h
        exact .round j hp hj
      · rename_i hj
        cases h
        exact .last j hp (not_lt.mp hj)
    | ending =>
      simp only [advance, hm, hp] at h
      cases h
      exact .finish hp
    | start =>
      cases hs : c.share with
      | none =>
        simp only [advance, hm, hp, hs] at h
        cases h
        exact .stop _ (by simp [hp]) hs
      | some share =>
        simp only [advance, hm, hp, hs, Option.map_eq_some_iff] at h
        obtain ⟨r, hr, h⟩ := h
        obtain ⟨rfl, hneg⟩ | rfl | ⟨a, rfl, hnonneg, hfree⟩ := new_cases hr
        · cases h
          exact .stop _ (by simp [hp]) (.inl ⟨share, hs, hneg⟩)
        · cases h
          exact .stop _ (by simp [hp]) trivial
        · cases h
          exact .begin share a hp hs hnonneg hfree
    | allocating j i =>
      cases hs : c.share with
      | none =>
        simp only [advance, hm, hp, hs] at h
        cases h
        exact .stop _ (by simp [hp]) hs
      | some share =>
        simp only [advance, hm, hp, hs] at h
        split at h
        · rename_i hi
          obtain ⟨r, hr, h⟩ := Option.map_eq_some_iff.mp h
          obtain ⟨rfl, hneg⟩ | rfl | ⟨a, rfl, -, hfree⟩ := new_cases hr
          · cases h
            exact .stop _ (by simp [hp]) (.inr hneg)
          · cases h
            exact .stop _ (by simp [hp]) trivial
          · cases h
            exact .object j i share a hp hs hi hfree
        · rename_i hi
          cases h
          exact .filled j i share hp hs (not_lt.mp hi)
    | freeing j i =>
      cases hs : c.share with
      | none =>
        simp only [advance, hm, hp, hs] at h
        cases h
        exact .stop _ (by simp [hp]) hs
      | some share =>
        simp only [advance, hm, hp, hs] at h
        split at h
        · rename_i hi
          cases h
          exact .release j i share hp hs hi
        · rename_i hi
          cases h
          exact .emptied j i share hp hs (not_lt.mp hi)

/-- A worker holds the blocks that its place tells, and nobody else does. -/
structure Mine (c : Config) (cpu : Nat) (l : Local) (m : Memory) : Prop where
  begun : l.place ≠ .start → c.share = some (perWorker c : Int) ∧ l.table.length = perWorker c
  range : InRange c l.place
  blocks : ∃ blocks, held l = blocks.map some ∧ Holds m.heap (.worker cpu) blocks
  allocated : m.allocated cpu = allocatedAt c l.place
  freed : m.freed cpu = freedAt c l.place

/-- What a step on `cpu` leaves alone: the blocks of everybody else, and their counts. -/
structure Others (cpu : Nat) (m m' : Memory) : Prop where
  heap : ∀ o, o ≠ .worker cpu → ∀ a, m'.heap a = some o ↔ m.heap a = some o
  allocated : ∀ i, i ≠ cpu → m'.allocated i = m.allocated i
  freed : ∀ i, i ≠ cpu → m'.freed i = m.freed i

theorem Others.refl (cpu : Nat) (m : Memory) (fault : Bool) (ended : Option Cause) :
    Others cpu m { m with fault := fault, ended := ended } :=
  ⟨fun _ _ _ => Iff.rfl, fun _ _ => rfl, fun _ _ => rfl⟩

theorem others_grant {a : Nat} (hfree : m.heap a = none) : Others cpu m (m.grant cpu a) where
  heap _ ho b := alloc_other (fun he => ho he.symm) hfree b
  allocated _ hi := Function.update_of_ne hi _ _
  freed _ _ := rfl

theorem others_release {a : Nat} (howner : m.heap a = some (.worker cpu)) :
    Others cpu m (m.release cpu a) where
  heap _ ho b := free_other (fun he => ho he.symm) howner b
  allocated _ _ := rfl
  freed _ hi := Function.update_of_ne hi _ _

theorem Mine.others (h : Mine c i l m) (ho : Others cpu m m') (hne : i ≠ cpu) : Mine c i l m' := by
  obtain ⟨blocks, heq, hblocks⟩ := h.blocks
  refine ⟨h.begun, h.range, ⟨blocks, heq, ?_⟩, ?_, ?_⟩
  · exact hblocks.congr (ho.heap _ fun he => hne (Owner.worker.inj he))
  · exact (ho.allocated i hne).trans h.allocated
  · exact (ho.freed i hne).trans h.freed

/-- A worker that has not begun. -/
theorem Mine.begin (hheap : ∀ a, m.heap a ≠ some (.worker cpu)) (hallocated : m.allocated cpu = 0)
    (hfreed : m.freed cpu = 0) : Mine c cpu ⟨.start, none, []⟩ m :=
  ⟨fun hne => absurd rfl hne, trivial, ⟨[], rfl, .nil hheap⟩, hallocated, hfreed⟩

/-- What a step of a worker does to itself and to the others. -/
structure Kept (c : Config) (cpu : Nat) (l' : Local) (m m' : Memory) : Prop where
  mine : Mine c cpu l' m'
  others : Others cpu m m'
  fault : m'.fault = m.fault
  ended : m'.ended = m.ended ∨ l'.place ≠ .done ∧ ∃ cause, m'.ended = some cause ∧ Reason c cause

theorem Mine.share (h : Mine c cpu l m) {share : Int} (hs : c.share = some share)
    (hne : l.place ≠ .start) : share = perWorker c := by
  have hb := (h.begun hne).1
  rw [hs] at hb
  exact Option.some.inj hb

theorem Kept.stop (h : Mine c cpu l m) {cause : Cause} (hne : l.place ≠ .done)
    (hr : Reason c cause) : Kept c cpu l m { m with ended := some cause } :=
  ⟨⟨h.begun, h.range, h.blocks, h.allocated, h.freed⟩, .refl cpu m m.fault _, rfl,
    .inr ⟨hne, cause, rfl, hr⟩⟩

/-- A step that only changes the place. -/
theorem Kept.goto (h : Mine c cpu l m) (p : Place) (hne : l.place ≠ .start)
    (hrange : InRange c p) (hheld : held { l with place := p } = held l)
    (hallocated : allocatedAt c p = allocatedAt c l.place)
    (hfreed : freedAt c p = freedAt c l.place) :
    Kept c cpu { l with place := p } m m := by
  refine ⟨⟨fun _ => h.begun hne, hrange, ?_, ?_, ?_⟩, .refl cpu m m.fault m.ended, rfl, .inl rfl⟩
  · rw [hheld]
    exact h.blocks
  · exact h.allocated.trans hallocated.symm
  · exact h.freed.trans hfreed.symm

theorem perWorker_eq {share : Int} (hs : c.share = some share) (hnonneg : 0 ≤ share) :
    share = perWorker c := by
  rw [perWorker, hs, Option.getD_some, Int.toNat_of_nonneg hnonneg]

theorem Kept.begin (h : Mine c cpu l m) (hp : l.place = .start) {share : Int}
    (hs : c.share = some share) (hnonneg : 0 ≤ share) {a : Nat} (hfree : m.heap a = none) :
    Kept c cpu ⟨.outer 0, some a, List.replicate share.toNat none⟩ m (m.grant cpu a) := by
  have hper := perWorker_eq hs hnonneg
  refine ⟨⟨fun _ => ⟨hper ▸ hs, ?_⟩, Nat.zero_le _, ⟨[a], rfl, ?_⟩, ?_, ?_⟩,
    others_grant hfree, rfl, .inl rfl⟩
  · rw [List.length_replicate, perWorker, hs, Option.getD_some]
  · obtain ⟨blocks, heq, hblocks⟩ := h.blocks
    rw [held, hp] at heq
    rw [List.map_eq_nil_iff.mp heq.symm] at hblocks
    exact hblocks.alloc hfree
  · change Function.update m.allocated cpu (m.allocated cpu + 1) cpu = 1 + 0 * perWorker c
    rw [Function.update_self, h.allocated, hp, allocatedAt, Nat.zero_mul]
  · change m.freed cpu = 0 * perWorker c
    rw [h.freed, hp, freedAt, Nat.zero_mul]

theorem take_set_succ {α : Type*} (xs : List α) (i : Nat) (x : α) (hi : i < xs.length) :
    (xs.set i x).take (i + 1) = xs.take i ++ [x] := by
  rw [List.take_add_one, List.take_set_of_le le_rfl, List.getElem?_set_self hi, Option.toList_some]

theorem Kept.object (h : Mine c cpu l m) {j i : Nat} (hp : l.place = .allocating j i) {share : Int}
    (hs : c.share = some share) (hlt : (i : Int) < share) {a : Nat} (hfree : m.heap a = none) :
    Kept c cpu ⟨.allocating j (i + 1), l.a, l.table.set i (some a)⟩ m
      ((m.grant cpu a).access l.table i) := by
  have hne : l.place ≠ .start := by simp [hp]
  have hrange := h.range
  rw [hp] at hrange
  have hi : i < perWorker c := by
    have hshare := h.share hs hne
    omega
  have hlen := (h.begun hne).2
  refine ⟨⟨fun _ => ⟨(h.begun hne).1, ?_⟩, ⟨hrange.1, hi⟩, ?_, ?_, ?_⟩, ?_, ?_, .inl rfl⟩
  · rw [List.length_set, hlen]
  · obtain ⟨blocks, heq, hblocks⟩ := h.blocks
    rw [held, hp] at heq
    refine ⟨blocks ++ [a], ?_, hblocks.alloc hfree⟩
    change l.a :: (l.table.set i (some a)).take (i + 1) = _
    rw [take_set_succ _ _ _ (hlen ▸ hi), List.map_append, ← heq]
    rfl
  · change Function.update m.allocated cpu (m.allocated cpu + 1) cpu = 1 + j * perWorker c + (i + 1)
    rw [Function.update_self, h.allocated, hp]
    rfl
  · change m.freed cpu = j * perWorker c
    rw [h.freed, hp]
    rfl
  · have ho : Others cpu m (m.grant cpu a) := others_grant hfree
    exact ⟨ho.heap, ho.allocated, ho.freed⟩
  · change (m.fault || decide (l.table.length ≤ i)) = m.fault
    rw [hlen, decide_eq_false (not_le.mpr hi), Bool.or_false]

/-- A worker deletes one of the blocks that it holds. -/
theorem delete_mine (before : List Nat) {after : List Nat} {a : Nat}
    (h : Holds m.heap (.worker cpu) (before ++ a :: after)) :
    m.delete cpu (some a) = m.release cpu a ∧ Others cpu m (m.release cpu a) ∧
      Holds (m.release cpu a).heap (.worker cpu) (before ++ after) := by
  have howner := (h.mem_iff a).mpr (List.mem_append_right before List.mem_cons_self)
  refine ⟨?_, others_release howner, h.free⟩
  rw [Memory.delete, if_neg]
  rw [howner]
  exact Option.some_ne_none _

theorem Kept.release (h : Mine c cpu l m) {j i : Nat} (hp : l.place = .freeing j i) {share : Int}
    (hs : c.share = some share) (hlt : (i : Int) < share) :
    Kept c cpu { l with place := .freeing j (i + 1) } m (m.delete cpu l.table[i]?.join) := by
  have hne : l.place ≠ .start := by simp [hp]
  have hrange := h.range
  rw [hp] at hrange
  have hlen := (h.begun hne).2
  have hi : i < perWorker c := by
    have hshare := h.share hs hne
    omega
  obtain ⟨blocks, heq, hblocks⟩ := h.blocks
  rw [held, hp] at heq
  dsimp only at heq
  rw [List.drop_eq_getElem_cons (hlen ▸ hi)] at heq
  obtain ⟨first, blocks, rfl, hfirst, heq⟩ := List.map_eq_cons_iff.mp heq.symm
  obtain ⟨a, rest, rfl, ha, hrest⟩ := List.map_eq_cons_iff.mp heq
  obtain ⟨hdelete, hothers, hrelease⟩ := delete_mine [first] hblocks
  have hentry : l.table[i]?.join = some a := by
    rw [List.getElem?_eq_getElem (hlen ▸ hi), ← ha]
    rfl
  rw [hentry, hdelete]
  refine ⟨⟨fun _ => h.begun hne, ⟨hrange.1, hi⟩, ⟨first :: rest, ?_, hrelease⟩, ?_, ?_⟩, hothers,
    rfl, .inl rfl⟩
  · change l.a :: l.table.drop (i + 1) = some first :: rest.map some
    rw [hfirst, hrest]
  · change m.allocated cpu = 1 + (j + 1) * perWorker c
    rw [h.allocated, hp]
    rfl
  · change Function.update m.freed cpu (m.freed cpu + 1) cpu = j * perWorker c + (i + 1)
    rw [Function.update_self, h.freed, hp]
    rfl

theorem Kept.finish (h : Mine c cpu l m) (hp : l.place = .ending) :
    Kept c cpu { l with place := .done } m (m.delete cpu l.a) := by
  have hne : l.place ≠ .start := by simp [hp]
  obtain ⟨blocks, heq, hblocks⟩ := h.blocks
  rw [held, hp] at heq
  obtain ⟨a, rfl, ha⟩ := List.map_eq_singleton_iff.mp heq.symm
  obtain ⟨hdelete, hothers, hrelease⟩ := delete_mine [] hblocks
  rw [← ha, hdelete]
  refine ⟨⟨fun _ => h.begun hne, trivial, ⟨[], rfl, hrelease⟩, ?_, ?_⟩, hothers, rfl, .inl rfl⟩
  · change m.allocated cpu = 1 + rounds c * perWorker c
    rw [h.allocated, hp]
    rfl
  · change Function.update m.freed cpu (m.freed cpu + 1) cpu = 1 + rounds c * perWorker c
    rw [Function.update_self, h.freed, hp, Nat.add_comm]
    rfl

/-- In the last round of an inner loop the table is all filled, or all emptied. -/
theorem Mine.full (h : Mine c cpu l m) {j i : Nat}
    (hp : l.place = .allocating j i ∨ l.place = .freeing j i) {share : Int}
    (hs : c.share = some share) (hge : share ≤ i) :
    l.place ≠ .start ∧ i = perWorker c ∧ j < rounds c ∧ l.table.length = perWorker c := by
  have hne : l.place ≠ .start := by
    intro he
    obtain hp | hp := hp
    all_goals simp [hp] at he
  have hshare := h.share hs hne
  have hrange : j < rounds c ∧ i ≤ perWorker c := by
    have hr := h.range
    obtain hp | hp := hp
    all_goals
      rw [hp] at hr
      exact hr
  exact ⟨hne, by omega, hrange.1, (h.begun hne).2⟩

theorem Mine.moved (h : Mine c cpu l m) (hmoved : Moved c cpu l m l' m') :
    Kept c cpu l' m m' := by
  cases hmoved with
  | stop cause hne hr => exact .stop h hne hr
  | begin share a hp hs hnonneg hfree => exact .begin h hp hs hnonneg hfree
  | round j hp hj =>
    apply Kept.goto h (.allocating j 0) (by simp [hp])
    · exact ⟨by unfold rounds; omega, Nat.zero_le _⟩
    all_goals simp [held, hp, allocatedAt, freedAt]
  | last j hp hj =>
    have hrange : j ≤ rounds c := by
      have hr := h.range
      rwa [hp] at hr
    have hround : rounds c = j := by
      unfold rounds at hrange ⊢
      omega
    apply Kept.goto h .ending (by simp [hp]) trivial
    all_goals simp [held, hp, allocatedAt, freedAt, hround]
  | object j i share a hp hs hlt hfree => exact .object h hp hs hlt hfree
  | filled j i share hp hs hge =>
    obtain ⟨hne, rfl, hj, hlen⟩ := h.full (.inl hp) hs hge
    apply Kept.goto h (.freeing j 0) hne ⟨hj, Nat.zero_le _⟩
    · simp [held, hp, ← hlen]
    · rw [hp, allocatedAt, allocatedAt, Nat.succ_mul, Nat.add_assoc]
    · simp [hp, freedAt]
  | release j i share hp hs hlt => exact .release h hp hs hlt
  | emptied j i share hp hs hge =>
    obtain ⟨hne, rfl, hj, hlen⟩ := h.full (.inr hp) hs hge
    apply Kept.goto h (.outer (j + 1)) hne hj
    · simp [held, hp, ← hlen]
    · simp [hp, allocatedAt]
    · rw [hp, freedAt, freedAt, Nat.succ_mul]
  | finish hp => exact .finish h hp

/-- While the workers run: whoever is not a worker of the call keeps its blocks. -/
structure During (c : Config) (n : Nat) (live : Nat → Bool) (l : Nat → Local) (m : Memory) :
    Prop where
  mine : ∀ i < n, Mine c i (l i) m
  idle : ∀ i, n ≤ i → m.allocated i = 0 ∧ m.freed i = 0 ∧ ∀ a, m.heap a ≠ some (.worker i)
  other : ∀ a, m.heap a = some .other ↔ live a = true
  fault : m.fault = false
  ended : ∀ cause, m.ended = some cause → Reason c cause ∧ ∃ i < n, (l i).place ≠ .done

variable {live : Nat → Bool} {ls : Nat → Local}

theorem init_heap (live : Nat → Bool) (a : Nat) (i : Nat) :
    (Memory.init live).heap a ≠ some (.worker i) := by
  change (if live a then some Owner.other else none) ≠ some (.worker i)
  split <;> simp

theorem During.init (c : Config) (n : Nat) (live : Nat → Bool) :
    During c n live (fun _ => ⟨.start, none, []⟩) (.init live) where
  mine i _ := .begin (fun a => init_heap live a i) rfl rfl
  idle i _ := ⟨rfl, rfl, fun a => init_heap live a i⟩
  other a := by
    change (if live a then some Owner.other else none) = some .other ↔ live a = true
    split <;> simp [*]
  fault := rfl
  ended _ he := by cases he

theorem During.kept (h : During c n live ls m) (hi : i < n) (hended : m.ended = none)
    (hkept : Kept c i l' m m') : During c n live (Function.update ls i l') m' where
  mine i' hi' := by
    by_cases he : i' = i
    · subst he
      rw [Function.update_self]
      exact hkept.mine
    · rw [Function.update_of_ne he]
      exact (h.mine i' hi').others hkept.others he
  idle i' hi' := by
    have hne : i' ≠ i := by omega
    obtain ⟨hallocated, hfreed, hheap⟩ := h.idle i' hi'
    refine ⟨(hkept.others.allocated i' hne).trans hallocated,
      (hkept.others.freed i' hne).trans hfreed, fun a ha => hheap a ?_⟩
    exact (hkept.others.heap _ (fun he => hne (Owner.worker.inj he)) a).mp ha
  other a := (hkept.others.heap .other (fun he => by cases he) a).trans (h.other a)
  fault := hkept.fault.trans h.fault
  ended cause hc := by
    obtain he | ⟨hne, cause', he, hr⟩ := hkept.ended
    · rw [he, hended] at hc
      cases hc
    · rw [he] at hc
      cases hc
      exact ⟨hr, i, hi, by rwa [Function.update_self]⟩

theorem hoardThreadtest_rule (c : Config) (n : Nat) (live : Nat → Bool) :
    Rule n (hoardThreadtest c) (fun k m => k = 1 → m = .init live)
      (fun _ => During c n live) where
  enter k m hk hm := by
    have hk' : k < (1 : Int).toNat * 1 := hk
    obtain rfl : k = 0 := Nat.lt_one_iff.mp hk'
    rw [hm rfl]
    exact .init c n live
  work k l m i answer l' m' _ hi h hadv := by
    obtain ⟨hended, hmoved⟩ := advance_cases (c := c) hadv
    exact h.kept hi hended ((h.mine i hi).moved hmoved)
  leave k l m hk h hall he := absurd he (by omega)

variable {results : Nat → Result} {s : MPTestWork.State Memory Local}

theorem during_of_reachable
    (h : Reachable (step n (hoardThreadtest c))
      (.init (hoardThreadtest c) results (.init live)) s) :
    (0 < s.mp.call → During c n live (s.locals s.mp.call) s.shared) ∧
      ∃ ls, During c n live ls s.shared := by
  obtain ⟨hduring, hbefore⟩ := (hoardThreadtest_rule c n live).invariant (fun _ => rfl) h
  refine ⟨hduring, ?_⟩
  obtain ⟨hc, hk⟩ | ⟨hk, -⟩ := (inv_of_reachable h).1.caller
  · rw [hbefore hc (by rw [hk])]
    exact ⟨_, .init c n live⟩
  · exact ⟨_, hduring hk⟩

/-- Nothing is deleted twice, or stored outside of a table; the blocks of the rest of the program
stay as they are, and a worker never holds more than its table and what the table can hold. -/
structure Sound (c : Config) (n : Nat) (live : Nat → Bool) (m : Memory) : Prop where
  fault : m.fault = false
  other : ∀ a, m.heap a = some .other ↔ live a = true
  blocks : ∀ i, ∃ blocks, Holds m.heap (.worker i) blocks ∧
    blocks.length + m.freed i = m.allocated i ∧
    blocks.length ≤ if i < n then 1 + perWorker c else 0
  ended : ∀ cause, m.ended = some cause → Reason c cause

/-- When `hoard_threadtest` goes on behind `MPTest`, every worker has freed the table and all of its
objects, and the heap is what it was before. -/
structure Balanced (c : Config) (n : Nat) (live : Nat → Bool) (s : MPTestWork.State Memory Local) :
    Prop where
  checked : s.mp.checked = true
  rows : s.mp.printed.map Result.rc = List.replicate n 1
  heap : s.shared.heap = (Memory.init live).heap
  ended : s.shared.ended = none
  counts : ∀ i < n, s.shared.allocated i = 1 + rounds c * perWorker c ∧
    s.shared.freed i = 1 + rounds c * perWorker c

theorem result_eq_some {rc : BitVec 32} (h : (worker c).result l = some rc) :
    l.place = .done ∧ rc = 1 := by
  obtain ⟨hp, he⟩ := Option.ite_none_right_eq_some.mp h
  exact ⟨hp, (Option.some.inj he).symm⟩

theorem During.heap_eq (h : During c n live ls m) (hdone : ∀ i < n, (ls i).place = .done) :
    m.heap = (Memory.init live).heap := by
  funext a
  change m.heap a = if live a then some .other else none
  cases hm : m.heap a with
  | none =>
    rw [if_neg]
    intro hlive
    rw [(h.other a).mpr hlive] at hm
    cases hm
  | some o =>
    cases o with
    | other => rw [if_pos ((h.other a).mp hm)]
    | worker i =>
      exfalso
      by_cases hi : i < n
      · obtain ⟨blocks, heq, hblocks⟩ := (h.mine i hi).blocks
        rw [held, hdone i hi] at heq
        rw [List.map_eq_nil_iff.mp heq.symm] at hblocks
        exact List.not_mem_nil ((hblocks.mem_iff a).mp hm)
      · exact (h.idle i (not_lt.mp hi)).2.2 a hm

theorem done_of_returned
    (h : Reachable (step n (hoardThreadtest c)) (.init (hoardThreadtest c) results (.init live)) s)
    (hc : s.mp.caller = .outside) (hk : 0 < s.mp.call) :
    ∀ i < n, (s.locals s.mp.call i).place = .done := by
  intro i hi
  obtain ⟨rc, hrc⟩ := (contained_of_reachable h).result hc hk hi
  exact (result_eq_some hrc).1

theorem counts_of_returned
    (h : Reachable (step n (hoardThreadtest c)) (.init (hoardThreadtest c) results (.init live)) s)
    (hc : s.mp.caller = .outside) (hk : 0 < s.mp.call) (hi : i < n) :
    s.shared.allocated i = 1 + rounds c * perWorker c ∧
      s.shared.freed i = 1 + rounds c * perWorker c := by
  have hm := ((during_of_reachable h).1 hk).mine i hi
  rw [hm.allocated, hm.freed, done_of_returned h hc hk i hi]
  exact ⟨rfl, rfl⟩

theorem hoardThreadtest_balanced
    (h : Reachable (step n (hoardThreadtest c)) (.init (hoardThreadtest c) results (.init live)) s)
    (hc : s.mp.caller = .outside) (hk : 0 < s.mp.call) : Balanced c n live s := by
  have hduring := (during_of_reachable h).1 hk
  have hcontained := contained_of_reachable h
  have hdone := done_of_returned h hc hk
  refine ⟨(hcontained.returned hc hk).1, ?_, hduring.heap_eq hdone, ?_,
    fun i hi => counts_of_returned h hc hk hi⟩
  · rw [hcontained.rows hc hk (e := fun _ => 1), List.map_const', List.length_range]
    exact fun i _ rc hrc => (result_eq_some hrc).2
  · cases he : s.shared.ended with
    | none => rfl
    | some cause =>
      obtain ⟨-, i, hi, hne⟩ := hduring.ended cause he
      exact absurd (hdone i hi) hne

/-- Two CPUs and threads, one round, and three objects for both of them together. -/
def twoThreads : Config := ⟨2, 1, 3, 0, 1⟩

def start : MPTestWork.State Memory Local :=
  .init (hoardThreadtest twoThreads) (fun _ => ⟨0, 0⟩) (.init (· < 8))

def oneCall : List (Event (Option Nat)) := turns 2 1 8 fun j i => some (8 + 2 * j + i)

theorem oneCall_runs : (run (step 2 (hoardThreadtest twoThreads)) start oneCall).isSome := by
  decide +kernel

theorem oneCall_balanced : HoardBalance.Balanced twoThreads 2 (· < 8)
    ((run (step 2 (hoardThreadtest twoThreads)) start oneCall).get oneCall_runs) :=
  hoardThreadtest_balanced (reachable_of_run (Option.some_get oneCall_runs).symm)
    (by decide +kernel) (by decide +kernel)

/-- The number of workers, where `nthreads` is a positive `int`. -/
theorem workers_of_pos {count p : Nat} (hmax : p < 2147483648) :
    workers count (BitVec.ofNat 32 p) = min count p := by
  have hnat : (BitVec.ofNat 32 p).toNat = p := by
    rw [BitVec.toNat_ofNat, Nat.mod_eq_of_lt (by omega)]
  have hmsb : (BitVec.ofNat 32 p).msb = false := by
    rw [BitVec.msb_eq_false_iff_two_mul_lt, hnat]
    omega
  have hsign : ((BitVec.ofNat 32 p).signExtend 64).toNat = p := by
    rw [BitVec.signExtend_eq_setWidth_of_msb_false hmsb, BitVec.toNat_setWidth, hnat,
      Nat.mod_eq_of_lt (by omega)]
  rw [workers, clamp, if_neg BitVec.not_lt_zero, hsign]
  split <;> omega

/-- The objects that the workers share evenly are all of them only where there is a CPU for every
thread and nothing is left over. -/
theorem shared_eq_iff {count p q : Nat} :
    min count p * (q / p) = q ↔ q = 0 ∨ p ≤ count ∧ p ∣ q := by
  constructor
  · intro h
    obtain hq | hq := Nat.eq_zero_or_pos q
    · exact .inl hq
    · have hquot : 0 < q / p := by
        by_contra hz
        rw [Nat.eq_zero_of_not_pos hz, Nat.mul_zero] at h
        omega
      have hle : p ≤ count := by
        by_contra hlt
        have hless := Nat.mul_lt_mul_of_pos_right (not_le.mp hlt) hquot
        have hback := Nat.mul_div_le q p
        rw [Nat.min_eq_left (by omega)] at h
        omega
      rw [Nat.min_eq_right hle] at h
      exact .inr ⟨hle, Dvd.intro _ h⟩
  · rintro (rfl | ⟨hle, hdvd⟩)
    · rw [Nat.zero_div, Nat.mul_zero]
    · rw [Nat.min_eq_right hle, Nat.mul_div_cancel' hdvd]

theorem shared_le {count p q : Nat} : min count p * (q / p) ≤ q :=
  (Nat.mul_le_mul_right _ (min_le_right _ _)).trans (Nat.mul_div_le q p)

theorem perWorker_natCast {p q : Nat} (hpos : 0 < p) (hp : c.nthreads = p) (hq : c.nobjects = q) :
    perWorker c = q / p := by
  have hshare : c.share = some ((q : Int).tdiv p) := by
    rw [Config.share, if_neg, hp, hq]
    rintro (hz | ⟨-, hneg⟩)
    all_goals omega
  rw [perWorker, hshare, Option.getD_some, ← Int.ofNat_tdiv, Int.toNat_natCast]

/-- The objects that the workers have allocated, besides their tables. -/
def objects (n : Nat) (s : MPTestWork.State Memory Local) : Nat :=
  ∑ i ∈ Finset.range n, (s.shared.allocated i - 1)

theorem objects_of_returned
    (h : Reachable (step n (hoardThreadtest c)) (.init (hoardThreadtest c) results (.init live)) s)
    (hc : s.mp.caller = .outside) (hk : 0 < s.mp.call) :
    objects n s = rounds c * (n * perWorker c) := by
  have hsame : ∀ i ∈ Finset.range n, s.shared.allocated i - 1 = rounds c * perWorker c := by
    intro i hi
    rw [(counts_of_returned h hc hk (Finset.mem_range.mp hi)).1, Nat.add_sub_cancel_left]
  rw [objects, Finset.sum_const_nat hsame, Finset.card_range, Nat.mul_left_comm]

/-- There is nothing to share, or each thread has a CPU and they all get the same number. -/
def Shared (c : Config) (count : Nat) : Prop :=
  rounds c = 0 ∨ c.nobjects = 0 ∨ c.nthreads ≤ count ∧ c.nthreads ∣ c.nobjects

/-- The test allocates `nobjects` objects in every round, as its name for them says, only where
there are as many CPUs as threads and each thread gets the same number. Elsewhere it allocates
fewer. -/
theorem hoardThreadtest_total {count : Nat} (hpos : 0 < c.nthreads)
    (hmax : c.nthreads < 2147483648) (hobjects : 0 ≤ c.nobjects)
    (hn : n = workers count (BitVec.ofInt 32 c.nthreads))
    (h : Reachable (step n (hoardThreadtest c)) (.init (hoardThreadtest c) results (.init live)) s)
    (hc : s.mp.caller = .outside) (hk : 0 < s.mp.call) :
    (objects n s = rounds c * c.nobjects.toNat ↔ Shared c count) ∧
      (¬ Shared c count → objects n s < rounds c * c.nobjects.toNat) := by
  obtain ⟨p, hp⟩ := Int.eq_ofNat_of_zero_le hpos.le
  obtain ⟨q, hq⟩ := Int.eq_ofNat_of_zero_le hobjects
  have hworkers : n = min count p := by
    rw [hn, hp, BitVec.ofInt_natCast, workers_of_pos (by omega)]
  have htotal : objects n s = rounds c * (min count p * (q / p)) := by
    rw [objects_of_returned h hc hk, perWorker_natCast (by omega) hp hq, ← hworkers]
  have hle : objects n s ≤ rounds c * c.nobjects.toNat := by
    rw [htotal, hq, Int.toNat_natCast]
    exact Nat.mul_le_mul_left _ shared_le
  have hiff : objects n s = rounds c * c.nobjects.toNat ↔ Shared c count := by
    rw [htotal, Shared, hq, hp, Int.toNat_natCast, mul_eq_mul_left_iff, shared_eq_iff,
      Int.natCast_eq_zero, Int.ofNat_le, Int.natCast_dvd_natCast]
    exact or_comm
  exact ⟨hiff, fun hnot => lt_of_le_of_ne hle fun he => hnot (hiff.mp he)⟩

theorem oneCall_total :
    let s := (run (step 2 (hoardThreadtest twoThreads)) start oneCall).get oneCall_runs
    (objects 2 s = rounds twoThreads * twoThreads.nobjects.toNat ↔ Shared twoThreads 2) ∧
      (¬ Shared twoThreads 2 → objects 2 s < rounds twoThreads * twoThreads.nobjects.toNat) :=
  hoardThreadtest_total (by decide) (by decide) (by decide) (by decide)
    (reachable_of_run (Option.some_get oneCall_runs).symm) (by decide +kernel) (by decide +kernel)

end EbbrtContrib.HoardBalance
