import Mathlib.Algebra.Order.BigOperators.Group.Finset
import EbbrtContrib.Runs

namespace EbbrtContrib.ParallelFor

open Finset Runs

variable {L C : Type*}

/-- The body of a loop over indices. It starts at the point `start`, and `next i` is its step for
index `i` at a point, on the cell of that index; it is over when there is no further point, and
`none` is undefined behaviour. An index above `limit` does not fit the loop's variable. -/
structure Body (L C : Type*) where
  start : L
  next : Nat → L → C → Option (Option L × C)
  limit : Nat

/-- Where a range is: not started, at the test of its loop, in the body, or through. -/
inductive Point (L : Type*)
  | ready
  | testing
  | inside (l : L)
  | through
  deriving DecidableEq, Repr

/-- A range from its key up to `stop`, that has got to index `i`. -/
structure Task (L : Type*) where
  i : Nat
  stop : Nat
  point : Point L
  deriving DecidableEq, Repr

/-- The ranges by their first index. -/
structure State (L C : Type*) where
  tasks : Nat → Option (Task L)
  cells : Nat → C
  fault : Bool

/-- A loop over the first `n` indices, in one range. -/
def State.init (n : Nat) (cells : Nat → C) : State L C :=
  ⟨fun b => if b = 0 ∧ 0 < n then some ⟨0, n, .ready⟩ else none, cells, false⟩

def State.put (s : State L C) (b : Nat) (t : Task L) : State L C :=
  { s with tasks := Function.update s.tasks b (some t) }

/-- A range is split at any index in it, as long as it is not started. The ranges that are started
go on in any order, step by step. -/
inductive Event
  | split (b m : Nat)
  | start (b : Nat)
  | move (b : Nat)
  deriving DecidableEq, Repr

variable (body : Body L C)

/-- A step of the loop on the range `t` with the key `b`. -/
def move (s : State L C) (b : Nat) (t : Task L) : Option (State L C) :=
  match t.point with
  | .ready | .through => none
  | .testing =>
    some (s.put b { t with point := if t.i = t.stop then .through else .inside body.start })
  | .inside l =>
    match body.next t.i l (s.cells t.i) with
    | none => some { s with fault := true }
    | some (some l', c) =>
      some { s.put b { t with point := .inside l' } with cells := Function.update s.cells t.i c }
    | some (none, c) =>
      if t.i < body.limit then
        some { s.put b { t with i := t.i + 1, point := .testing } with
          cells := Function.update s.cells t.i c }
      else some { s with fault := true }

def split (s : State L C) (b m : Nat) (t : Task L) : Option (State L C) :=
  match t.point with
  | .ready =>
    if b < m ∧ m < t.stop then
      some ((s.put b ⟨t.i, m, .ready⟩).put m ⟨m, t.stop, .ready⟩)
    else none
  | .testing | .inside _ | .through => none

def start (s : State L C) (b : Nat) (t : Task L) : Option (State L C) :=
  match t.point with
  | .ready =>
    if b ≤ body.limit then some (s.put b { t with point := .testing })
    else some { s with fault := true }
  | .testing | .inside _ | .through => none

def handle (s : State L C) : Event → Option (State L C)
  | .split b m => (s.tasks b).bind (split s b m)
  | .start b => (s.tasks b).bind (start body s b)
  | .move b => (s.tasks b).bind (move body s b)

def step (s : State L C) (e : Event) : Option (State L C) :=
  if s.fault then none else handle body s e

/-- The body of index `i`, started on the cell `c₀`, has got to a point, or to its end. -/
inductive Progress (i : Nat) (c₀ : C) : Option L → C → Prop
  | begins : Progress i c₀ (some body.start) c₀
  | goes {l : L} {l' : Option L} {c c' : C} : Progress i c₀ (some l) c →
      body.next i l c = some (l', c') → Progress i c₀ l' c'

variable {body} {s s' : State L C} {e : Event} {b n : Nat} {t : Task L} {cells : Nat → C}

/-- The range can do nothing but fault. -/
def Faulty (body : Body L C) (s : State L C) (b : Nat) (t : Task L) : Prop :=
  t.point = .ready ∧ body.limit < b ∨ ∃ l, t.point = .inside l ∧
    (body.next t.i l (s.cells t.i) = none ∨
      ∃ c, body.next t.i l (s.cells t.i) = some (none, c) ∧ body.limit ≤ t.i)

/-- Everything a step can do, as a relation. -/
inductive Step (body : Body L C) (s : State L C) : Event → State L C → Prop
  | split (b m : Nat) (t : Task L) : s.tasks b = some t → t.point = .ready → b < m → m < t.stop →
      Step body s (.split b m) ((s.put b ⟨t.i, m, .ready⟩).put m ⟨m, t.stop, .ready⟩)
  | start (b : Nat) (t : Task L) : s.tasks b = some t → t.point = .ready →
      Step body s (.start b) (s.put b { t with point := .testing })
  | leave (b : Nat) (t : Task L) : s.tasks b = some t → t.point = .testing → t.i = t.stop →
      Step body s (.move b) (s.put b { t with point := .through })
  | enter (b : Nat) (t : Task L) : s.tasks b = some t → t.point = .testing → t.i ≠ t.stop →
      Step body s (.move b) (s.put b { t with point := .inside body.start })
  | goes (b : Nat) (t : Task L) (l l' : L) (c : C) : s.tasks b = some t → t.point = .inside l →
      body.next t.i l (s.cells t.i) = some (some l', c) → Step body s (.move b)
        { s.put b { t with point := .inside l' } with cells := Function.update s.cells t.i c }
  | ends (b : Nat) (t : Task L) (l : L) (c : C) : s.tasks b = some t → t.point = .inside l →
      body.next t.i l (s.cells t.i) = some (none, c) → t.i < body.limit → Step body s (.move b)
        { s.put b { t with i := t.i + 1, point := .testing } with
          cells := Function.update s.cells t.i c }
  | faults (e : Event) (b : Nat) (t : Task L) : s.tasks b = some t → Faulty body s b t →
      Step body s e { s with fault := true }

theorem split_cases {m : Nat} (ht : s.tasks b = some t) (h : split s b m t = some s') :
    Step body s (.split b m) s' := by
  unfold split at h
  cases hp : t.point with
  | ready =>
    rw [hp] at h
    obtain ⟨⟨hb, hm⟩, h⟩ := Option.ite_none_right_eq_some.mp h
    obtain rfl := Option.some.inj h
    exact .split b m t ht hp hb hm
  | testing | inside l | through =>
    rw [hp] at h
    cases h

theorem start_cases (ht : s.tasks b = some t) (h : start body s b t = some s') :
    Step body s (.start b) s' := by
  unfold start at h
  cases hp : t.point with
  | ready =>
    rw [hp] at h
    dsimp only at h
    split at h
    · obtain rfl := Option.some.inj h
      exact .start b t ht hp
    · rename_i hlimit
      obtain rfl := Option.some.inj h
      exact .faults _ b t ht (.inl ⟨hp, not_le.mp hlimit⟩)
  | testing | inside l | through =>
    rw [hp] at h
    cases h

theorem move_cases (ht : s.tasks b = some t) (h : move body s b t = some s') :
    Step body s (.move b) s' := by
  unfold move at h
  cases hp : t.point with
  | ready | through =>
    rw [hp] at h
    cases h
  | testing =>
    rw [hp] at h
    obtain rfl := Option.some.inj h
    by_cases hi : t.i = t.stop
    · rw [if_pos hi]
      exact .leave b t ht hp hi
    · rw [if_neg hi]
      exact .enter b t ht hp hi
  | inside l =>
    rw [hp] at h
    dsimp only at h
    split at h
    · rename_i hnext
      obtain rfl := Option.some.inj h
      exact .faults _ b t ht (.inr ⟨l, hp, .inl hnext⟩)
    · rename_i l' c hnext
      obtain rfl := Option.some.inj h
      exact .goes b t l l' c ht hp hnext
    · rename_i c hnext
      split at h
      · rename_i hlimit
        obtain rfl := Option.some.inj h
        exact .ends b t l c ht hp hnext hlimit
      · rename_i hlimit
        obtain rfl := Option.some.inj h
        exact .faults _ b t ht (.inr ⟨l, hp, .inr ⟨c, hnext, not_lt.mp hlimit⟩⟩)

theorem step_cases (h : step body s e = some s') : Step body s e s' := by
  obtain ⟨-, h⟩ := Option.ite_none_left_eq_some.mp h
  cases e with
  | split b m =>
    obtain ⟨t, ht, h⟩ := Option.bind_eq_some_iff.mp h
    exact split_cases ht h
  | start b =>
    obtain ⟨t, ht, h⟩ := Option.bind_eq_some_iff.mp h
    exact start_cases ht h
  | move b =>
    obtain ⟨t, ht, h⟩ := Option.bind_eq_some_iff.mp h
    exact move_cases ht h

/-- The cell of an index in a range: as it was, while the range has not got to it; in the body; or
as the body leaves it. -/
def Cell (body : Body L C) (cells : Nat → C) (s : State L C) (t : Task L) (j : Nat) : Prop :=
  if j < t.i then Progress body j (cells j) none (s.cells j)
  else if j = t.i then
    match t.point with
    | .inside l => Progress body j (cells j) (some l) (s.cells j)
    | .ready | .testing | .through => s.cells j = cells j
  else s.cells j = cells j

namespace Cell

variable {j : Nat}

theorem before (hj : j < t.i) :
    Cell body cells s t j ↔ Progress body j (cells j) none (s.cells j) := by
  rw [Cell, if_pos hj]

theorem behind (hj : t.i < j) : Cell body cells s t j ↔ s.cells j = cells j := by
  rw [Cell, if_neg (by omega), if_neg (by omega)]

theorem inside {l : L} (hp : t.point = .inside l) :
    Cell body cells s t t.i ↔ Progress body t.i (cells t.i) (some l) (s.cells t.i) := by
  rw [Cell, if_neg (lt_irrefl _), if_pos rfl, hp]

theorem idle (hp : ∀ l, t.point ≠ .inside l) :
    Cell body cells s t t.i ↔ s.cells t.i = cells t.i := by
  rw [Cell, if_neg (lt_irrefl _), if_pos rfl]
  cases hpt : t.point with
  | inside l => exact absurd hpt (hp l)
  | ready | testing | through => rfl

theorem ahead (hp : ∀ l, t.point ≠ .inside l) (hj : t.i ≤ j) :
    Cell body cells s t j ↔ s.cells j = cells j := by
  obtain rfl | hj := hj.eq_or_lt
  · exact idle hp
  · exact behind hj

theorem congr (hcells : s'.cells j = s.cells j) (h : Cell body cells s t j) :
    Cell body cells s' t j := by
  unfold Cell at h ⊢
  rwa [hcells]

/-- A range that stays at its index changes no other cell. -/
theorem stay {p : Point L} (h : Cell body cells s t j)
    (hcells : ∀ j, j ≠ t.i → s'.cells j = s.cells j)
    (hat : Cell body cells s' { t with point := p } t.i) :
    Cell body cells s' { t with point := p } j := by
  obtain hj | rfl | hj := lt_trichotomy j t.i
  · refine (before (by exact hj)).mpr ?_
    rw [hcells j (by omega)]
    exact (before hj).mp h
  · exact hat
  · refine (behind (by exact hj)).mpr ?_
    rw [hcells j (by omega)]
    exact (behind hj).mp h

end Cell

/-- The range `t` with the key `b` is a part of the loop. -/
structure Range (body : Body L C) (n b : Nat) (t : Task L) : Prop where
  lower : b ≤ t.i
  upper : t.i ≤ t.stop
  stop : t.stop ≤ n
  nonempty : b < t.stop
  ready : t.point = .ready → t.i = b
  inside : ∀ l, t.point = .inside l → t.i < t.stop
  through : t.point = .through → t.i = t.stop
  fits : b < t.i → t.i ≤ body.limit

/-- The ranges are a partition of the indices, and each of them works on its own cells. -/
structure Inv (body : Body L C) (n : Nat) (cells : Nat → C) (s : State L C) : Prop where
  range : ∀ b t, s.tasks b = some t → Range body n b t
  apart : ∀ b t b' t', s.tasks b = some t → s.tasks b' = some t' → b < b' → t.stop ≤ b'
  cover : ∀ j < n, ∃ b t, s.tasks b = some t ∧ b ≤ j ∧ j < t.stop
  cell : ∀ b t, s.tasks b = some t → ∀ j, b ≤ j → j < t.stop → Cell body cells s t j
  outside : ∀ j, n ≤ j → s.cells j = cells j

namespace Inv

theorem init : Inv body n cells (.init n cells) := by
  have hone : ∀ b t, (State.init n cells : State L C).tasks b = some t →
      b = 0 ∧ 0 < n ∧ t = ⟨0, n, .ready⟩ := by
    intro b t ht
    obtain ⟨⟨hb, hn⟩, ht⟩ := Option.ite_none_right_eq_some.mp ht
    exact ⟨hb, hn, (Option.some.inj ht).symm⟩
  refine ⟨fun b t ht => ?_, fun b t b' t' ht ht' hlt => ?_, fun j hj => ?_, fun b t ht j _ _ => ?_,
    fun j _ => rfl⟩
  · obtain ⟨rfl, hn, rfl⟩ := hone b t ht
    exact ⟨le_rfl, hn.le, le_rfl, hn, fun _ => rfl, fun l h => (by cases h), fun h => (by cases h),
      fun h => absurd h (lt_irrefl 0)⟩
  · obtain ⟨rfl, -⟩ := hone b t ht
    obtain ⟨rfl, -⟩ := hone b' t' ht'
    exact absurd hlt (lt_irrefl 0)
  · exact ⟨0, ⟨0, n, .ready⟩, if_pos ⟨rfl, (Nat.zero_le j).trans_lt hj⟩, Nat.zero_le j, hj⟩
  · obtain ⟨-, -, rfl⟩ := hone b t ht
    rw [Cell, if_neg (Nat.not_lt_zero j)]
    split
    · rfl
    · rfl

/-- Two ranges with an index in common are the same one. -/
theorem same (h : Inv body n cells s) {b' j : Nat} {t' : Task L} (ht : s.tasks b = some t)
    (ht' : s.tasks b' = some t') (hb : b ≤ j) (hj : j < t.stop) (hb' : b' ≤ j)
    (hj' : j < t'.stop) : b = b' := by
  obtain hlt | rfl | hlt := lt_trichotomy b b'
  · exact absurd (h.apart b t b' t' ht ht' hlt) (by omega)
  · rfl
  · exact absurd (h.apart b' t' b t ht' ht hlt) (by omega)

/-- A range goes on, and changes no cell but its own. -/
theorem put (h : Inv body n cells s) (ht : s.tasks b = some t) (t' : Task L)
    (hstop : t'.stop = t.stop) (hrange : Range body n b t')
    (htasks : s'.tasks = Function.update s.tasks b (some t'))
    (hkeep : ∀ j, ¬ (b ≤ j ∧ j < t.stop) → s'.cells j = s.cells j)
    (hcell : ∀ j, b ≤ j → j < t.stop → Cell body cells s' t' j) : Inv body n cells s' := by
  have hold : ∀ b' u, s'.tasks b' = some u → b' = b ∧ u = t' ∨ b' ≠ b ∧ s.tasks b' = some u := by
    intro b' u hu
    rw [htasks] at hu
    by_cases he : b' = b
    · subst he
      rw [Function.update_self] at hu
      exact .inl ⟨rfl, (Option.some.inj hu).symm⟩
    · rw [Function.update_of_ne he] at hu
      exact .inr ⟨he, hu⟩
  refine ⟨fun b' u hu => ?_, fun b₁ u₁ b₂ u₂ h₁ h₂ hlt => ?_, fun j hj => ?_,
    fun b' u hu j hb hj => ?_, fun j hj => ?_⟩
  · obtain ⟨rfl, rfl⟩ | ⟨-, hu⟩ := hold b' u hu
    · exact hrange
    · exact h.range b' u hu
  · obtain ⟨rfl, rfl⟩ | ⟨-, h₁⟩ := hold b₁ u₁ h₁
    · obtain ⟨rfl, -⟩ | ⟨-, h₂⟩ := hold b₂ u₂ h₂
      · exact absurd hlt (lt_irrefl _)
      · exact hstop.trans_le (h.apart _ _ _ _ ht h₂ hlt)
    · obtain ⟨rfl, -⟩ | ⟨-, h₂⟩ := hold b₂ u₂ h₂
      · exact h.apart _ _ _ _ h₁ ht hlt
      · exact h.apart _ _ _ _ h₁ h₂ hlt
  · obtain ⟨b', u, hu, hb, hju⟩ := h.cover j hj
    by_cases he : b' = b
    · subst he
      obtain rfl := Option.some.inj (ht.symm.trans hu)
      exact ⟨b', t', by rw [htasks, Function.update_self], hb, hju.trans_eq hstop.symm⟩
    · exact ⟨b', u, by rw [htasks, Function.update_of_ne he, hu], hb, hju⟩
  · obtain ⟨rfl, rfl⟩ | ⟨hne, hu⟩ := hold b' u hu
    · exact hcell j hb (hj.trans_eq hstop)
    · refine Cell.congr (hkeep j fun hin => hne ?_) (h.cell b' u hu j hb hj)
      exact h.same hu ht hb hj hin.1 hin.2
  · rw [hkeep j fun hin => ?_]
    · exact h.outside j hj
    · have hstop' := (h.range b t ht).stop
      omega

/-- What is in a range is in one of its two parts. -/
theorem split (h : Inv body n cells s) {m : Nat} (ht : s.tasks b = some t)
    (hp : t.point = .ready) (hb : b < m) (hm : m < t.stop) :
    Inv body n cells ((s.put b ⟨t.i, m, .ready⟩).put m ⟨m, t.stop, .ready⟩) := by
  have hr := h.range b t ht
  have hi := hr.ready hp
  have hstop := hr.stop
  have hlower : ((s.put b ⟨t.i, m, .ready⟩).put m ⟨m, t.stop, .ready⟩).tasks b =
      some ⟨t.i, m, .ready⟩ := by
    change Function.update (Function.update s.tasks b _) m _ b = _
    rw [Function.update_of_ne hb.ne, Function.update_self]
  have hupper : ((s.put b ⟨t.i, m, .ready⟩).put m ⟨m, t.stop, .ready⟩).tasks m =
      some ⟨m, t.stop, .ready⟩ := Function.update_self _ _ _
  have hother : ∀ b', b' ≠ b → b' ≠ m →
      ((s.put b ⟨t.i, m, .ready⟩).put m ⟨m, t.stop, .ready⟩).tasks b' = s.tasks b' := by
    intro b' hne hne'
    change Function.update (Function.update s.tasks b _) m _ b' = _
    rw [Function.update_of_ne hne', Function.update_of_ne hne]
  -- a range of before is on one side of the one that is split
  have hside : ∀ b' u, s.tasks b' = some u → b' ≠ b → t.stop ≤ b' ∨ u.stop ≤ b := by
    intro b' u hu hne
    obtain hlt | hlt := lt_or_gt_of_ne hne
    · exact .inr (h.apart b' u b t hu ht hlt)
    · exact .inl (h.apart b t b' u ht hu hlt)
  have hold : ∀ b' u, ((s.put b ⟨t.i, m, .ready⟩).put m ⟨m, t.stop, .ready⟩).tasks b' = some u →
      b' = m ∧ u = ⟨m, t.stop, .ready⟩ ∨ b' = b ∧ u = ⟨t.i, m, .ready⟩ ∨
        b' ≠ b ∧ s.tasks b' = some u := by
    intro b' u hu
    by_cases hm' : b' = m
    · rw [hm', hupper] at hu
      exact .inl ⟨hm', (Option.some.inj hu).symm⟩
    · by_cases hb' : b' = b
      · rw [hb', hlower] at hu
        exact .inr (.inl ⟨hb', (Option.some.inj hu).symm⟩)
      · rw [hother b' hb' hm'] at hu
        exact .inr (.inr ⟨hb', hu⟩)
  have hfresh : ∀ j, b ≤ j → j < t.stop → s.cells j = cells j := by
    intro j hj hj'
    refine (Cell.ahead (fun l hl => ?_) (by omega)).mp (h.cell b t ht j hj hj')
    cases hp.symm.trans hl
  refine ⟨fun b' u hu => ?_, fun b₁ u₁ b₂ u₂ h₁ h₂ hlt => ?_, fun j hj => ?_,
    fun b' u hu j hj hj' => ?_, h.outside⟩
  · obtain ⟨rfl, rfl⟩ | ⟨rfl, rfl⟩ | ⟨-, hu⟩ := hold b' u hu
    · exact ⟨le_rfl, hm.le, hstop, hm, fun _ => rfl, fun l h => (by cases h),
        fun h => (by cases h), fun h => absurd h (lt_irrefl _)⟩
    · exact ⟨hi.ge, hi.trans_le hb.le, hm.le.trans hstop, hb, fun _ => hi, fun l h => (by cases h),
        fun h => (by cases h), fun h => absurd h hi.le.not_gt⟩
    · exact h.range b' u hu
  · obtain ⟨rfl, rfl⟩ | ⟨rfl, rfl⟩ | ⟨hne, h₁⟩ := hold b₁ u₁ h₁
    · obtain ⟨rfl, rfl⟩ | ⟨rfl, rfl⟩ | ⟨hne', h₂⟩ := hold b₂ u₂ h₂
      · exact absurd hlt (lt_irrefl _)
      · exact absurd hlt (by omega)
      · have := hside b₂ u₂ h₂ hne'
        have := (h.range b₂ u₂ h₂).nonempty
        change t.stop ≤ b₂
        omega
    · obtain ⟨rfl, rfl⟩ | ⟨rfl, rfl⟩ | ⟨hne', h₂⟩ := hold b₂ u₂ h₂
      · exact le_rfl
      · exact absurd hlt (lt_irrefl _)
      · have := hside b₂ u₂ h₂ hne'
        have := (h.range b₂ u₂ h₂).nonempty
        change m ≤ b₂
        omega
    · have := hside b₁ u₁ h₁ hne
      have := (h.range b₁ u₁ h₁).nonempty
      obtain ⟨rfl, rfl⟩ | ⟨rfl, rfl⟩ | ⟨-, h₂⟩ := hold b₂ u₂ h₂
      · omega
      · omega
      · exact h.apart b₁ u₁ b₂ u₂ h₁ h₂ hlt
  · obtain ⟨b', u, hu, hb', hju⟩ := h.cover j hj
    by_cases he : b' = b
    · subst he
      obtain rfl := Option.some.inj (ht.symm.trans hu)
      by_cases hjm : j < m
      · exact ⟨b', _, hlower, hb', hjm⟩
      · exact ⟨m, _, hupper, not_lt.mp hjm, hju⟩
    · have := hside b' u hu he
      exact ⟨b', u, (hother b' he (by omega)).trans hu, hb', hju⟩
  · obtain ⟨rfl, rfl⟩ | ⟨rfl, rfl⟩ | ⟨hne, hu⟩ := hold b' u hu
    · have hready : ∀ l : L, Point.ready ≠ .inside l := fun l hl => (by cases hl)
      exact (Cell.ahead hready hj).mpr (hfresh j (hb.le.trans hj) hj')
    · have hready : ∀ l : L, Point.ready ≠ .inside l := fun l hl => (by cases hl)
      exact (Cell.ahead (t := ⟨t.i, m, .ready⟩) hready (hi.trans_le hj)).mpr
        (hfresh j hj (lt_trans hj' hm))
    · exact Cell.congr rfl (h.cell b' u hu j hj hj')

/-- A range that is not in the body goes on at its index. -/
theorem turn (h : Inv body n cells s) (ht : s.tasks b = some t) {p : Point L}
    (hrange : Range body n b { t with point := p })
    (hat : b ≤ t.i → t.i < t.stop → Cell body cells s { t with point := p } t.i) :
    Inv body n cells (s.put b { t with point := p }) := by
  refine h.put ht { t with point := p } rfl hrange rfl (fun _ _ => rfl) fun j hj hj' => ?_
  have hold := h.cell b t ht j hj hj'
  obtain hlt | rfl | hlt := lt_trichotomy j t.i
  · exact (Cell.before (by exact hlt)).mpr ((Cell.before hlt).mp hold)
  · exact hat hj hj'
  · exact (Cell.behind (by exact hlt)).mpr ((Cell.behind hlt).mp hold)

theorem untouched (h : Inv body n cells s) (ht : s.tasks b = some t)
    (hp : ∀ l, t.point ≠ .inside l) (hb : b ≤ t.i) (hi : t.i < t.stop) :
    s.cells t.i = cells t.i := (Cell.idle hp).mp (h.cell b t ht t.i hb hi)

theorem progress (h : Inv body n cells s) (ht : s.tasks b = some t) {l : L}
    (hp : t.point = .inside l) : Progress body t.i (cells t.i) (some l) (s.cells t.i) := by
  have hr := h.range b t ht
  exact (Cell.inside hp).mp (h.cell b t ht t.i hr.lower (hr.inside l hp))

theorem step (h : Inv body n cells s) (hs : Step body s e s') : Inv body n cells s' := by
  cases hs with
  | split b m t ht hp hb hm => exact h.split ht hp hb hm
  | start b t ht hp =>
    have hr := h.range b t ht
    refine h.turn ht ⟨hr.lower, hr.upper, hr.stop, hr.nonempty, fun hq => (by cases hq),
      fun l hq => (by cases hq), fun hq => (by cases hq), hr.fits⟩ fun hb hi => ?_
    have hsame := h.untouched ht (by simp [hp]) hb hi
    exact (Cell.idle fun l hl => (by cases hl)).mpr hsame
  | leave b t ht hp hi =>
    have hr := h.range b t ht
    refine h.turn ht ⟨hr.lower, hr.upper, hr.stop, hr.nonempty, fun hq => (by cases hq),
      fun l hq => (by cases hq), fun _ => hi, hr.fits⟩ fun _ hlt => ?_
    exact absurd hi hlt.ne
  | enter b t ht hp hi =>
    have hr := h.range b t ht
    have hlt := lt_of_le_of_ne hr.upper hi
    refine h.turn ht ⟨hr.lower, hr.upper, hr.stop, hr.nonempty, fun hq => (by cases hq),
      fun l _ => hlt, fun hq => (by cases hq), hr.fits⟩ fun hb _ => ?_
    refine (Cell.inside rfl).mpr ?_
    change Progress body t.i (cells t.i) (some body.start) (s.cells t.i)
    rw [h.untouched ht (by simp [hp]) hb hlt]
    exact .begins
  | goes b t l l' c ht hp hnext =>
    have hr := h.range b t ht
    have hlt := hr.inside l hp
    refine h.put ht { t with point := .inside l' } rfl ⟨hr.lower, hr.upper, hr.stop, hr.nonempty,
      fun hq => (by cases hq), fun l _ => hlt, fun hq => (by cases hq), hr.fits⟩ rfl
      (fun j hj => ?_) fun j hj hj' => ?_
    · exact Function.update_of_ne (fun he => hj (by rw [he]; exact ⟨hr.lower, hlt⟩)) _ _
    · refine (h.cell b t ht j hj hj').stay (fun j hj => Function.update_of_ne hj _ _) ?_
      refine (Cell.inside rfl).mpr ?_
      change Progress body t.i (cells t.i) (some l') (Function.update s.cells t.i c t.i)
      rw [Function.update_self]
      exact (h.progress ht hp).goes hnext
  | ends b t l c ht hp hnext hlimit =>
    have hr := h.range b t ht
    have hlt := hr.inside l hp
    have hlower := hr.lower
    have hrange : Range body n b (⟨t.i + 1, t.stop, .testing⟩ : Task L) :=
      ⟨hlower.trans (Nat.le_succ _), hlt, hr.stop, hr.nonempty, fun hq => (by cases hq),
        fun l hq => (by cases hq), fun hq => (by cases hq), fun _ => hlimit⟩
    refine h.put ht ⟨t.i + 1, t.stop, .testing⟩ rfl hrange rfl (fun j hj => ?_) fun j hj hj' => ?_
    · exact Function.update_of_ne (fun he => hj (by rw [he]; exact ⟨hlower, hlt⟩)) _ _
    · have hold := h.cell b t ht j hj hj'
      have hne : ∀ j, j ≠ t.i → Function.update s.cells t.i c j = s.cells j :=
        fun j hj => Function.update_of_ne hj _ _
      obtain hji | rfl | hji := lt_trichotomy j t.i
      · refine (Cell.before (Nat.lt_succ_of_lt hji)).mpr ?_
        change Progress body j (cells j) none (Function.update s.cells t.i c j)
        rw [hne j hji.ne]
        exact (Cell.before hji).mp hold
      · refine (Cell.before (Nat.lt_succ_self _)).mpr ?_
        change Progress body t.i (cells t.i) none (Function.update s.cells t.i c t.i)
        rw [Function.update_self]
        exact (h.progress ht hp).goes hnext
      · refine (Cell.ahead (fun l hl => (by cases hl)) (Nat.succ_le_of_lt hji)).mpr ?_
        change Function.update s.cells t.i c j = cells j
        rw [hne j hji.ne']
        exact (Cell.behind hji).mp hold
  | faults => exact ⟨h.range, h.apart, h.cover, h.cell, h.outside⟩

/-- A cell whose body does not change it, or that has none, stays as it was. -/
theorem kept (h : Inv body n cells s) {j : Nat}
    (hj : j < n → ∀ p c, Progress body j (cells j) p c → c = cells j) : s.cells j = cells j := by
  by_cases hlt : j < n
  · obtain ⟨b, t, ht, hb, hjt⟩ := h.cover j hlt
    have hcell := h.cell b t ht j hb hjt
    obtain hji | rfl | hji := lt_trichotomy j t.i
    · exact hj hlt none _ ((Cell.before hji).mp hcell)
    · by_cases hp : ∃ l, t.point = .inside l
      · obtain ⟨l, hp⟩ := hp
        exact hj hlt (some l) _ ((Cell.inside hp).mp hcell)
      · exact (Cell.idle fun l hl => hp ⟨l, hl⟩).mp hcell
    · exact (Cell.behind hji).mp hcell
  · exact h.outside j (not_lt.mp hlt)

/-- When the body is defined on every cell it gets to, and every index fits, no range faults. -/
theorem not_faulty (h : Inv body n cells s) (hlimit : n ≤ body.limit)
    (hsafe : ∀ i < n, ∀ l c, Progress body i (cells i) (some l) c → body.next i l c ≠ none)
    (ht : s.tasks b = some t) : ¬ Faulty body s b t := by
  have hr := h.range b t ht
  have hstop := hr.stop
  have hnonempty := hr.nonempty
  rintro (⟨-, hb⟩ | ⟨l, hp, hnext | ⟨c, -, hi⟩⟩)
  · omega
  · exact hsafe t.i ((hr.inside l hp).trans_le hstop) l _ (h.progress ht hp) hnext
  · have := hr.inside l hp
    omega

end Inv

theorem inv_of_reachable (h : Reachable (step body) (.init n cells) s) : Inv body n cells s :=
  h.invariant Inv.init fun _ _ _ hi _ hs => hi.step (step_cases hs)

theorem faultless (hlimit : n ≤ body.limit)
    (hsafe : ∀ i < n, ∀ l c, Progress body i (cells i) (some l) c → body.next i l c ≠ none)
    (h : Reachable (step body) (.init n cells) s) : s.fault = false := by
  have hboth : Inv body n cells s ∧ s.fault = false := by
    refine h.invariant (I := fun s => Inv body n cells s ∧ s.fault = false) ⟨Inv.init, rfl⟩ ?_
    rintro s e t ⟨hinv, hfault⟩ - hs
    refine ⟨hinv.step (step_cases hs), ?_⟩
    cases step_cases hs with
    | faults _ b u hu hfaulty => exact absurd hfaulty (hinv.not_faulty hlimit hsafe hu)
    | split | start | leave | enter | goes | ends => exact hfault
  exact hboth.2

/-- No range can get on. -/
def AtRest (body : Body L C) (s : State L C) : Prop := ∀ e, step body s e = none

theorem through_at_rest (hfault : s.fault = false) (hrest : AtRest body s)
    (ht : s.tasks b = some t) : t.point = .through := by
  have hmove : move body s b t = none := by
    have hstuck := hrest (.move b)
    rwa [step, hfault, if_neg Bool.false_ne_true, handle, ht, Option.bind_some] at hstuck
  have hstart : start body s b t = none := by
    have hstuck := hrest (.start b)
    rwa [step, hfault, if_neg Bool.false_ne_true, handle, ht, Option.bind_some] at hstuck
  unfold move at hmove
  unfold start at hstart
  cases hp : t.point with
  | through => rfl
  | ready =>
    rw [hp] at hstart
    dsimp only at hstart
    split at hstart <;> cases hstart
  | testing =>
    rw [hp] at hmove
    cases hmove
  | inside l =>
    rw [hp] at hmove
    dsimp only at hmove
    split at hmove
    · cases hmove
    · cases hmove
    · split at hmove <;> cases hmove

/-- Wherever the ranges were split and in whatever order they went on, at the end the body of every
index has been run once on the cell of that index. -/
theorem done_at_rest (h : Inv body n cells s) (hfault : s.fault = false) (hrest : AtRest body s)
    {j : Nat} (hj : j < n) : Progress body j (cells j) none (s.cells j) := by
  obtain ⟨b, t, ht, hb, hjt⟩ := h.cover j hj
  have hi := (h.range b t ht).through (through_at_rest hfault hrest ht)
  exact (Cell.before (hjt.trans_eq hi.symm)).mp (h.cell b t ht j hb hjt)

theorem fits_at_rest (h : Inv body n cells s) (hfault : s.fault = false) (hrest : AtRest body s) :
    n ≤ body.limit := by
  obtain rfl | hn := Nat.eq_zero_or_pos n
  · exact Nat.zero_le _
  · obtain ⟨b, t, ht, hb, hlast⟩ := h.cover (n - 1) (by omega)
    have hr := h.range b t ht
    have hi := hr.through (through_at_rest hfault hrest ht)
    have hn' : n ≤ t.i := by omega
    exact hn'.trans (hr.fits (by omega))

section Ranked

variable {rank : L → Nat}

/-- How far the range with the key `b` has got. -/
def points (body : Body L C) (rank : L → Nat) (b : Nat) (t : Task L) : Nat :=
  match t.point with
  | .ready => 1
  | .testing => 2 + (t.i - b) * (rank body.start + 2)
  | .inside l => 3 + (t.i - b) * (rank body.start + 2) + (rank body.start - rank l)
  | .through => 3 + (t.i - b) * (rank body.start + 2)

def total (body : Body L C) (rank : L → Nat) (n : Nat) (s : State L C) : Nat :=
  ∑ b ∈ range n, (s.tasks b).elim 0 (points body rank b) + s.fault.toNat

theorem points_le (hr : Range body n b t) :
    points body rank b t ≤ 3 + n * (rank body.start + 2) + rank body.start := by
  have hi : t.i - b ≤ n := (Nat.sub_le _ _).trans (hr.upper.trans hr.stop)
  have hmul := Nat.mul_le_mul_right (rank body.start + 2) hi
  unfold points
  split <;> omega

theorem total_le (h : Inv body n cells s) : total body rank n s ≤
    n * (3 + n * (rank body.start + 2) + rank body.start) + 1 := by
  have hsum := sum_le_card_nsmul (range n) (fun b => (s.tasks b).elim 0 (points body rank b))
    (3 + n * (rank body.start + 2) + rank body.start) fun b _ => ?_
  · rw [card_range, Nat.nsmul_eq_mul] at hsum
    exact Nat.add_le_add hsum (Bool.toNat_le _)
  · change (s.tasks b).elim 0 (points body rank b) ≤ _
    cases ht : s.tasks b with
    | none => exact Nat.zero_le _
    | some t => exact points_le (h.range b t ht)

theorem total_put (h : Inv body n cells s) (ht : s.tasks b = some t) (t' : Task L)
    (htasks : s'.tasks = Function.update s.tasks b (some t')) (hfault : s'.fault = s.fault)
    (hlt : points body rank b t < points body rank b t') :
    total body rank n s < total body rank n s' := by
  have hr := h.range b t ht
  rw [total, total, hfault]
  refine Nat.add_lt_add_right (sum_lt_sum (fun j _ => ?_) ⟨b, ?_, ?_⟩) _
  · rw [htasks]
    by_cases hj : j = b
    · subst hj
      rw [Function.update_self, ht]
      exact hlt.le
    · rw [Function.update_of_ne hj]
  · exact mem_range.mpr (hr.nonempty.trans_le hr.stop)
  · rw [htasks, Function.update_self, ht]
    exact hlt

theorem total_split (h : Inv body n cells s) {m : Nat} (ht : s.tasks b = some t)
    (hp : t.point = .ready) (hb : b < m) (hm : m < t.stop) : total body rank n s <
      total body rank n ((s.put b ⟨t.i, m, .ready⟩).put m ⟨m, t.stop, .ready⟩) := by
  have hnone : s.tasks m = none := by
    by_contra hne
    obtain ⟨u, hu⟩ := Option.ne_none_iff_exists'.mp hne
    exact absurd (h.apart b t m u ht hu hb) (not_le.mpr hm)
  refine Nat.add_lt_add_right (sum_lt_sum (fun j _ => ?_) ⟨m, ?_, ?_⟩) _
  · change _ ≤ (Function.update (Function.update s.tasks b _) m _ j).elim 0 _
    by_cases hj : j = m
    · rw [hj, hnone]
      exact Nat.zero_le _
    · rw [Function.update_of_ne hj]
      by_cases hj' : j = b
      · rw [hj', Function.update_self, ht]
        change points body rank b t ≤ points body rank b ⟨t.i, m, .ready⟩
        rw [points, hp]
        exact le_rfl
      · rw [Function.update_of_ne hj']
  · exact mem_range.mpr (hm.trans_le (h.range b t ht).stop)
  · change _ < (Function.update (Function.update s.tasks b _) m _ m).elim 0 _
    rw [Function.update_self, hnone]
    exact Nat.zero_lt_one

theorem rank_le (hrank : ∀ i l c l' c', body.next i l c = some (some l', c') → rank l' < rank l)
    {i : Nat} {c₀ c : C} {p : Option L} (h : Progress body i c₀ p c) :
    ∀ l, p = some l → rank l ≤ rank body.start := by
  induction h with
  | begins =>
    intro l hl
    exact (congrArg rank (Option.some.inj hl)).ge
  | goes _ hnext ih =>
    rintro l rfl
    exact (hrank _ _ _ _ _ hnext).le.trans (ih _ rfl)

theorem total_lt (hrank : ∀ i l c l' c', body.next i l c = some (some l', c') → rank l' < rank l)
    (h : Inv body n cells s) (hf : s.fault = false) (hs : Step body s e s') :
    total body rank n s < total body rank n s' := by
  cases hs with
  | split b m t ht hp hb hm => exact total_split h ht hp hb hm
  | start b t ht hp =>
    refine total_put h ht _ rfl rfl ?_
    simp only [points, hp]
    omega
  | leave b t ht hp | enter b t ht hp =>
    refine total_put h ht _ rfl rfl ?_
    simp only [points, hp]
    omega
  | goes b t l l' c ht hp hnext =>
    refine total_put h ht _ rfl rfl ?_
    have hlt := hrank _ _ _ _ _ hnext
    have hle := rank_le hrank (h.progress ht hp) l rfl
    simp only [points, hp]
    omega
  | ends b t l c ht hp hnext =>
    have hlower := (h.range b t ht).lower
    refine total_put h ht _ rfl rfl ?_
    have hsucc : t.i + 1 - b = t.i - b + 1 := by omega
    simp only [points, hp, hsucc, Nat.succ_mul]
    omega
  | faults =>
    rw [total, total, hf]
    exact Nat.lt_succ_self _

/-- With a body that ends, every run can be brought to rest. -/
theorem comes_to_rest
    (hrank : ∀ i l c l' c', body.next i l c = some (some l', c') → rank l' < rank l)
    (h : Inv body n cells s) : ∃ t, Reachable (step body) s t ∧ AtRest body t := by
  have hfault : ∀ s e t, step body s e = some t → s.fault = false := fun s e t hs =>
    Bool.eq_false_iff.mpr (Option.ite_none_left_eq_some.mp hs).1
  have hstep : ∀ s e t, Inv body n cells s → True → step body s e = some t →
      Inv body n cells t ∧ (t = s ∨ total body rank n s < total body rank n t) :=
    fun s e t hi _ hs => ⟨hi.step (step_cases hs),
      .inr (total_lt hrank hi (hfault s e t hs) (step_cases hs))⟩
  obtain ⟨t, ht, hinv, hrest⟩ :=
    exists_at_rest (total body rank n) h (fun _ => total_le) hstep
  refine ⟨t, ht, fun e => ?_⟩
  by_contra hne
  obtain ⟨u, hu⟩ := Option.ne_none_iff_exists'.mp hne
  have hlt := total_lt hrank hinv (hfault t e u hu) (step_cases hu)
  rw [hrest e u trivial hu] at hlt
  exact lt_irrefl _ hlt

end Ranked

end EbbrtContrib.ParallelFor
