import EbbrtContrib.ParallelFor

namespace EbbrtContrib.StackRegistrations

open ParallelFor Runs

/-- What the code uses of irtk. `register nmi target source` is the `Run` of a registration whose
parameters were guessed with or without NMI, with a padding of 0 in the target. It changes only the
transformation that is its output, where it starts from what is there. -/
structure Irtk (Image Grey Matrix Rigid : Type*) where
  toGrey : Image → Grey
  getMatrix : Rigid → Matrix
  putMatrix : Matrix → Rigid → Rigid
  mul : Matrix → Matrix → Matrix
  invert : Matrix → Matrix
  register : Bool → Grey → Grey → Rigid → Rigid

/-- The members of `EbbRTStackRegistrations` that its loop reads. `stacks_` are the `stacks`. -/
structure Registrations (Image Grey Rigid : Type*) where
  stacks_ : List Image
  templateNumber : Int
  target : Grey
  offset : Rigid
  externalTemplate : Bool

/-- Where the body of the loop is, with `source` and `m`. -/
inductive At (Grey Matrix : Type*)
  | testing
  | copying
  | reading (source : Grey)
  | putting (source : Grey) (m : Matrix)
  | running (source : Grey)
  | rereading
  | restoring (m : Matrix)
  deriving DecidableEq, Repr

def INT_MAX : Nat := 2147483647

variable {Image Grey Matrix Rigid : Type*} (k : Irtk Image Grey Matrix Rigid)
  (r : Registrations Image Grey Rigid)

/-- The body of the loop in `operator()`, on `stack_transformations[i]`, which is there when `i` is
below the size of the vector. -/
def next (i : Nat) (p : At Grey Matrix) (c : Option Rigid) :
    Option (Option (At Grey Matrix) × Option Rigid) :=
  let mo := k.getMatrix r.offset
  match p with
  | .testing => some (if (i : Int) = r.templateNumber then none else some .copying, c)
  | .copying => r.stacks_[i]?.map fun stack => (some (.reading (k.toGrey stack)), c)
  | .reading source => c.map fun t => (some (.putting source (k.mul (k.getMatrix t) mo)), c)
  | .putting source m => c.map fun t => (some (.running source), some (k.putMatrix m t))
  | .running source => c.map fun t =>
    (some .rereading, some (k.register r.externalTemplate r.target source t))
  | .rereading => c.map fun t =>
    (some (.restoring (k.mul (k.getMatrix t) (k.invert mo))), c)
  | .restoring m => c.map fun t => (none, some (k.putMatrix m t))

def body : Body (At Grey Matrix) (Option Rigid) := ⟨.testing, next k r, INT_MAX⟩

/-- `parallel_for` over the stacks, on any number of threads, though the source asks for one. -/
def step (s : State (At Grey Matrix) (Option Rigid)) (e : Event) :
    Option (State (At Grey Matrix) (Option Rigid)) := ParallelFor.step (body k r) s e

def init (ts : List Rigid) : State (At Grey Matrix) (Option Rigid) :=
  .init r.stacks_.length fun i => ts[i]?

/-- The transformation of a stack once it is registered. -/
def registered (stack : Image) (t : Rigid) : Rigid :=
  let mo := k.getMatrix r.offset
  let t := k.putMatrix (k.mul (k.getMatrix t) mo) t
  let t := k.register r.externalTemplate r.target (k.toGrey stack) t
  k.putMatrix (k.mul (k.getMatrix t) (k.invert mo)) t

/-- All stacks but the template are registered, each with its own transformation. -/
def result (ts : List Rigid) : List Rigid :=
  ts.mapIdx fun i t =>
    if (i : Int) = r.templateNumber then t
    else r.stacks_[i]?.elim t fun stack => registered k r stack t

/-- There is a transformation for every stack but the template, and an `int` counts the stacks. -/
def Sized (ts : List Rigid) : Prop :=
  r.stacks_.length ≤ INT_MAX ∧
    ∀ i < r.stacks_.length, (i : Int) ≠ r.templateNumber → i < ts.length

variable {k r} {ts : List Rigid} {i : Nat} {c c₀ : Option Rigid}

/-- The cell of a stack that is not the template, at each point of the body. -/
inductive Going (k : Irtk Image Grey Matrix Rigid) (r : Registrations Image Grey Rigid)
    (stack : Image) (t : Rigid) : Option (At Grey Matrix) → Rigid → Prop
  | reading : Going k r stack t (some (.reading (k.toGrey stack))) t
  | putting : Going k r stack t (some (.putting (k.toGrey stack)
      (k.mul (k.getMatrix t) (k.getMatrix r.offset)))) t
  | running : Going k r stack t (some (.running (k.toGrey stack)))
      (k.putMatrix (k.mul (k.getMatrix t) (k.getMatrix r.offset)) t)
  | rereading : Going k r stack t (some .rereading)
      (k.register r.externalTemplate r.target (k.toGrey stack)
        (k.putMatrix (k.mul (k.getMatrix t) (k.getMatrix r.offset)) t))
  | restoring : Going k r stack t (some (.restoring (k.mul (k.getMatrix
      (k.register r.externalTemplate r.target (k.toGrey stack)
        (k.putMatrix (k.mul (k.getMatrix t) (k.getMatrix r.offset)) t)))
      (k.invert (k.getMatrix r.offset)))))
      (k.register r.externalTemplate r.target (k.toGrey stack)
        (k.putMatrix (k.mul (k.getMatrix t) (k.getMatrix r.offset)) t))
  | done : Going k r stack t none (registered k r stack t)

/-- The cell of index `i` at each point of the body. -/
inductive Reached (k : Irtk Image Grey Matrix Rigid) (r : Registrations Image Grey Rigid) (i : Nat)
    (c₀ : Option Rigid) : Option (At Grey Matrix) → Option Rigid → Prop
  | testing : Reached k r i c₀ (some .testing) c₀
  | template : (i : Int) = r.templateNumber → Reached k r i c₀ none c₀
  | copying : (i : Int) ≠ r.templateNumber → Reached k r i c₀ (some .copying) c₀
  | missing (stack : Image) : (i : Int) ≠ r.templateNumber → r.stacks_[i]? = some stack →
      c₀ = none → Reached k r i c₀ (some (.reading (k.toGrey stack))) none
  | going (stack : Image) (t t' : Rigid) (p : Option (At Grey Matrix)) :
      (i : Int) ≠ r.templateNumber → r.stacks_[i]? = some stack → c₀ = some t →
      Going k r stack t p t' → Reached k r i c₀ p (some t')

/-- What is left of the body. -/
def rank : At Grey Matrix → Nat
  | .testing => 6
  | .copying => 5
  | .reading _ => 4
  | .putting _ _ => 3
  | .running _ => 2
  | .rereading => 1
  | .restoring _ => 0

theorem reached {p : Option (At Grey Matrix)} (h : Progress (body k r) i c₀ p c) :
    Reached k r i c₀ p c := by
  induction h with
  | begins => exact .testing
  | @goes l l' c c' _ hnext ih =>
    change next k r i l c = some (l', c') at hnext
    cases ih with
    | testing =>
      obtain ⟨rfl, rfl⟩ := Prod.mk.inj (Option.some.inj hnext)
      split
      · rename_i htemplate
        exact .template htemplate
      · rename_i htemplate
        exact .copying htemplate
    | copying hne =>
      obtain ⟨stack, hstack, he⟩ := Option.map_eq_some_iff.mp hnext
      obtain ⟨rfl, rfl⟩ := Prod.mk.inj he
      cases c₀ with
      | none => exact .missing stack hne hstack rfl
      | some t => exact .going stack t t _ hne hstack rfl .reading
    | missing stack hne hstack hnone => cases hnext
    | going stack t t' _ hne hstack ht hgoing =>
      cases hgoing with
      | reading =>
        obtain ⟨rfl, rfl⟩ := Prod.mk.inj (Option.some.inj hnext)
        exact .going stack t _ _ hne hstack ht .putting
      | putting =>
        obtain ⟨rfl, rfl⟩ := Prod.mk.inj (Option.some.inj hnext)
        exact .going stack t _ _ hne hstack ht .running
      | running =>
        obtain ⟨rfl, rfl⟩ := Prod.mk.inj (Option.some.inj hnext)
        exact .going stack t _ _ hne hstack ht .rereading
      | rereading =>
        obtain ⟨rfl, rfl⟩ := Prod.mk.inj (Option.some.inj hnext)
        exact .going stack t _ _ hne hstack ht .restoring
      | restoring =>
        obtain ⟨rfl, rfl⟩ := Prod.mk.inj (Option.some.inj hnext)
        exact .going stack t _ _ hne hstack ht .done

/-- The body leaves the template alone. -/
theorem eq_of_template {p : Option (At Grey Matrix)} (h : Progress (body k r) i c₀ p c)
    (hi : (i : Int) = r.templateNumber) : c = c₀ := by
  cases reached h with
  | testing | template => rfl
  | copying hne | missing _ hne | going _ _ _ _ hne => exact absurd hi hne

theorem getElem?_result : (result k r ts)[i]? = ts[i]?.map fun t =>
    if (i : Int) = r.templateNumber then t
    else r.stacks_[i]?.elim t fun stack => registered k r stack t := List.getElem?_mapIdx

theorem eq_result (h : Progress (body k r) i ts[i]? none c) : c = (result k r ts)[i]? := by
  rw [getElem?_result]
  cases reached h with
  | template htemplate =>
    simp only [if_pos htemplate]
    exact Option.map_id'.symm
  | going stack t t' _ hne hstack ht hgoing =>
    cases hgoing
    rw [ht, Option.map_some, if_neg hne, hstack]
    rfl

/-- A body that is through had a transformation to register. -/
theorem lt_length (h : Progress (body k r) i ts[i]? none c) (hne : (i : Int) ≠ r.templateNumber) :
    i < ts.length := by
  cases reached h with
  | template htemplate => exact absurd htemplate hne
  | going stack t t' _ _ _ ht => exact (List.getElem?_eq_some_iff.mp ht).1

theorem next_ne_none (hsized : Sized r ts) (hi : i < r.stacks_.length) {p : At Grey Matrix}
    (h : Progress (body k r) i ts[i]? (some p) c) : (body k r).next i p c ≠ none := by
  change next k r i p c ≠ none
  cases reached h with
  | testing => exact Option.some_ne_none _
  | copying =>
    rw [next, List.getElem?_eq_getElem hi]
    exact Option.some_ne_none _
  | missing _ hne _ hnone =>
    have hlt := hsized.2 i hi hne
    rw [List.getElem?_eq_getElem hlt] at hnone
    cases hnone
  | going _ _ _ _ _ _ _ hgoing => cases hgoing <;> exact Option.some_ne_none _

theorem rank_lt (i : Nat) (p : At Grey Matrix) (c : Option Rigid) (p' : At Grey Matrix)
    (c' : Option Rigid) (h : (body k r).next i p c = some (some p', c')) : rank p' < rank p := by
  change next k r i p c = some (some p', c') at h
  cases p with
  | testing =>
    have hp := congrArg Prod.fst (Option.some.inj h)
    dsimp only at hp
    split at hp
    · cases hp
    · cases hp
      exact Nat.lt_succ_self 5
  | copying | reading _ | putting _ _ | running _ | rereading =>
    obtain ⟨_, _, he⟩ := Option.map_eq_some_iff.mp h
    cases he
    exact Nat.lt_succ_self _
  | restoring _ =>
    obtain ⟨_, _, he⟩ := Option.map_eq_some_iff.mp h
    cases he

variable {s : State (At Grey Matrix) (Option Rigid)}

theorem all_done (h : Reachable (step k r) (init r ts) s) (hfault : s.fault = false)
    (hrest : AtRest (body k r) s) (hi : i < r.stacks_.length) :
    Progress (body k r) i ts[i]? none (s.cells i) :=
  done_at_rest (inv_of_reachable h) hfault hrest hi

/-- The transformation of the template, and those behind the stacks, never change. -/
theorem untouched (h : Reachable (step k r) (init r ts) s)
    (hi : (i : Int) = r.templateNumber ∨ r.stacks_.length ≤ i) : s.cells i = ts[i]? :=
  (inv_of_reachable h).kept fun hlt _ _ hprogress =>
    eq_of_template hprogress (hi.resolve_right (not_le.mpr hlt))

/-- No run leaves a vector or overflows an index exactly when there is a transformation for every
stack but the template, and an `int` counts the stacks. -/
theorem faultless_iff (k : Irtk Image Grey Matrix Rigid) (r : Registrations Image Grey Rigid)
    (ts : List Rigid) :
    (∀ s, Reachable (step k r) (init r ts) s → s.fault = false) ↔ Sized r ts := by
  constructor
  · intro h
    have hinit : ParallelFor.Inv (body k r) r.stacks_.length (fun i => ts[i]?) (init r ts) :=
      Inv.init
    obtain ⟨s, hs, hrest⟩ := comes_to_rest (fun i p c p' c' => rank_lt i p c p' c') hinit
    have hfault := h s hs
    refine ⟨fits_at_rest (inv_of_reachable hs) hfault hrest, fun i hi hne => ?_⟩
    exact lt_length (all_done hs hfault hrest hi) hne
  · exact fun hsized s hs => faultless hsized.1 (fun i hi p c => next_ne_none hsized hi) hs

/-- However the stacks are split and in whatever order the threads go on, the loop comes to rest,
with the result of registering one stack after the other. -/
theorem registrations_result (hsized : Sized r ts) (h : Reachable (step k r) (init r ts) s) :
    (∀ i : Nat, (i : Int) = r.templateNumber ∨ r.stacks_.length ≤ i → s.cells i = ts[i]?) ∧
    (∃ t, Reachable (step k r) s t ∧ AtRest (body k r) t) ∧
    (AtRest (body k r) s → ∀ i, s.cells i = (result k r ts)[i]?) := by
  refine ⟨fun _ hi => untouched h hi, comes_to_rest (fun i p c p' c' => rank_lt i p c p' c')
    (inv_of_reachable h), fun hrest i => ?_⟩
  have hfault := (faultless_iff k r ts).mpr hsized s h
  by_cases hi : i < r.stacks_.length
  · exact eq_result (all_done h hfault hrest hi)
  · rw [untouched h (.inr (not_lt.mp hi)), getElem?_result, List.getElem?_eq_none (not_lt.mp hi)]
    simp

/-- Images, matrices and transformations of one dimension. -/
def shifts : Irtk Int Int Int Int :=
  ⟨id, id, fun m _ => m, (· + ·), (- ·), fun _ target source t => t + target - source⟩

/-- Three stacks, of which the second one is the template. -/
def threeStacks : Registrations Int Int Int := ⟨[5, 7, 9], 1, 7, 1, false⟩

/-- The third stack is registered first. -/
def upperFirst : List Event :=
  [.split 0 2, .start 2] ++ List.replicate 9 (.move 2) ++ [.start 0] ++ List.replicate 11 (.move 0)

theorem upperFirst_runs :
    (run (step shifts threeStacks) (init threeStacks [0, 0, 0]) upperFirst).isSome := by
  decide +kernel

theorem threeStacks_registered : ∃ s, Sized threeStacks [(0 : Int), 0, 0] ∧
    Reachable (step shifts threeStacks) (init threeStacks [0, 0, 0]) s ∧
    (∀ i : Nat, (i : Int) = threeStacks.templateNumber ∨ threeStacks.stacks_.length ≤ i →
      s.cells i = [(0 : Int), 0, 0][i]?) ∧
    (∃ t, Reachable (step shifts threeStacks) s t ∧ AtRest (body shifts threeStacks) t) ∧
    (AtRest (body shifts threeStacks) s → ∀ i,
      s.cells i = (result shifts threeStacks [0, 0, 0])[i]?) := by
  have hsized : Sized threeStacks [(0 : Int), 0, 0] := ⟨by decide, fun i hi _ => hi⟩
  have hreach := reachable_of_run (Option.some_get upperFirst_runs).symm
  exact ⟨_, hsized, hreach, registrations_result hsized hreach⟩

end EbbrtContrib.StackRegistrations
