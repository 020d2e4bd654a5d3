import EbbrtContrib.OneRepresentative

namespace EbbrtContrib.FaultFailure

open FaultHandling OneRepresentative Runs

variable {s u : State} {e : Event} {t : Nat} {p q : Pc}

/-- The places of `getRep_BIN` between taking `lock_` of root `r` and dropping it. -/
def Inside (r : Nat) : Pc → Prop
  | .check r' | .unlock r' | .recheck r' | .assign r' _ | .leave r' _ => r' = r
  | _ => False

instance (r : Nat) (p : Pc) : Decidable (Inside r p) := by
  unfold Inside
  split <;> infer_instance

def waits : Pc → Bool
  | .wait _ => true
  | _ => false

/-- An exception is thrown with `lock_` held: by the constructor of the representative, and not
by a call that waits for the data. -/
def LockedThrow (s : State) : Event → Prop
  | .raise t => waits (s.pc t) = false
  | .run _ | .ready _ => True

instance (s : State) (e : Event) : Decidable (LockedThrow s e) :=
  match e with
  | .raise t => inferInstanceAs (Decidable (waits (s.pc t) = false))
  | .run _ | .ready _ => inferInstanceAs (Decidable True)

theorem LockedThrow.not_wait (h : LockedThrow s (.raise t)) (r : Nat) : s.pc t ≠ .wait r := by
  intro hp
  cases (congrArg waits hp).symm.trans h

inductive LockOp
  | acquire (t : Nat)
  | release (t : Nat)
  deriving DecidableEq, Repr

def runOps (r t : Nat) : Pc → List LockOp
  | .lock r' | .relock r' => if r' = r then [.acquire t] else []
  | .unlock r' | .leave r' _ => if r' = r then [.release t] else []
  | _ => []

def raiseOps (r t : Nat) : Pc → List LockOp
  | .wait r' | .recheck r' => if r' = r then [.release t] else []
  | _ => []

/-- What an event does to `lock_` of root `r`. -/
def lockOps (r : Nat) (s : State) : Event → List LockOp
  | .run t => runOps r t (s.pc t)
  | .ready _ => []
  | .raise t => raiseOps r t (s.pc t)

/-- A run of the calls with the history of `lock_` of root `r`. -/
def traced (r : Nat) (c : State × List LockOp) (e : Event) : Option (State × List LockOp) :=
  (step c.1 e).map fun u => (u, c.2 ++ lockOps r c.1 e)

/-- Every acquisition is followed by its release, by the same thread, before the next one. -/
inductive Paired : Option Nat → List LockOp → Prop
  | nil : Paired none []
  | acquire (t : Nat) (l : List LockOp) : Paired none l → Paired (some t) (l ++ [.acquire t])
  | release (t : Nat) (l : List LockOp) : Paired (some t) l → Paired none (l ++ [.release t])

/-- A root with its data that no fault has used. -/
def untouched : Root := ⟨none, none, true⟩

/-- An exception in call `t` ends the call with its lock dropped, and leaves the root it was on
as if there had been no fault: the next call that faults on it gets a representative. -/
structure Survived (s u : State) (t : Nat) : Prop where
  misused : u.misused = false
  ended : u.pc t = .raised
  others : ∀ t', t' ≠ t → u.pc t' = s.pc t'
  theRep : ∀ r, (u.roots r).theRep = (s.roots r).theRep
  root : ∃ r, s.pc t = .recheck r ∧ u.roots r = untouched ∧ (∀ r', r' ≠ r → u.roots r' = s.roots r')
    ∧ ∀ t', u.pc t' = .lock r → ∃ v, run step u (List.replicate 8 (.run t')) = some v ∧
      v.pc t' = .done u.nextRep ∧ v.roots r = { untouched with theRep := some u.nextRep }

structure Consistent (r : Nat) (s : State) (l : List LockOp) : Prop where
  misused : s.misused = false
  paired : Paired (s.roots r).holder l
  holder : ∀ t, (s.roots r).holder = some t ↔ Inside r (s.pc t)
  exclusive : ∀ t t', Inside r (s.pc t) → Inside r (s.pc t') → t' = t
  oneRep : OneRep s

theorem holder_setRoot {r : Nat} {v : Root} (hv : v.holder = (s.roots r).holder) (r' : Nat) :
    ((s.setRoot r v).roots r').holder = (s.roots r').holder := by
  rw [setRoot_roots]
  by_cases hr : r' = r
  · rw [if_pos hr, hv, hr]
  · rw [if_neg hr]

/-- The places that hold a lock are those that know they do. -/
theorem holds_of_inside {r : Nat} (h : Inv s) (hi : Inside r (s.pc t)) : Holds s t r := by
  have hat := h.place t
  generalize s.pc t = p at hi hat
  cases p with
  | check r' | unlock r' =>
    obtain rfl : r' = r := hi
    exact hat.2
  | recheck r' | assign r' rep | leave r' rep =>
    obtain rfl : r' = r := hi
    exact hat.2.1
  | _ => exact hi.elim

theorem Moves.inside (h : Moves s p q) (r : Nat) : Inside r p ↔ Inside r q := by
  cases h <;> rfl

theorem Locks.inside {r : Nat} (h : Locks r p q) (r' : Nat) : ¬ Inside r' p ∧ Inside r q := by
  cases h <;> exact ⟨not_false, rfl⟩

theorem Unlocks.inside_iff {r : Nat} (h : Unlocks r p q) (r' : Nat) : Inside r' p ↔ r = r' := by
  cases h <;> rfl

/-- An exception in the constructor drops the lock that the call holds. -/
theorem inv_raises (h : Inv s) {r : Nat} (hp : s.pc t = .recheck r) :
    Inv ((s.unlock t r).goto t .raised) := by
  have hholds : Holds s t r := (h.at_pc hp).2.1
  exact h.setHolder r none _ trivial (Inv.no_assign hp fun _ _ => Pc.noConfusion)
    (h.unlock_misused hholds) fun t' ht' hh => ht' (Inv.holds_unique hholds hh)

theorem inv_step (h : Inv s) (hg : LockedThrow s e) (hs : Step s e u) : Inv u := by
  cases e with
  | run t => exact h.step (e := .run t) trivial hs
  | ready r => exact h.step (e := .ready r) trivial hs
  | raise t =>
    cases hs with
    | raisesWaiting _ r hp => exact absurd hp (hg.not_wait r)
    | raisesConstructing _ r hp _ => exact inv_raises h hp

/-- Whoever holds a lock is inside. -/
def Insiders (s : State) : Prop := ∀ t r, Holds s t r → Inside r (s.pc t)

namespace Insiders

theorem keep (h : Insiders s) (hpc : ∀ t', u.pc t' = if t' = t then q else s.pc t')
    (hholder : ∀ t' r, Holds u t' r → Holds s t' r ∨ t' = t ∧ Inside r q)
    (hself : ∀ r, Holds u t r → Inside r (s.pc t) → Inside r q) : Insiders u := by
  intro t' r hh
  rw [hpc]
  by_cases ht : t' = t
  · rw [if_pos ht]
    subst ht
    obtain hs | ⟨-, hi⟩ := hholder t' r hh
    · exact hself r hh (h t' r hs)
    · exact hi
  · rw [if_neg ht]
    obtain hs | ⟨he, -⟩ := hholder t' r hh
    · exact h t' r hs
    · exact absurd he ht

/-- A step that leaves the holders, from a place outside or to one inside of the same root. -/
theorem free (h : Insiders s) (hpc : ∀ t', u.pc t' = if t' = t then q else s.pc t')
    (hholder : ∀ r, (u.roots r).holder = (s.roots r).holder)
    (hself : ∀ r, Inside r (s.pc t) → Inside r q) : Insiders u :=
  h.keep hpc (fun _ r hh => .inl ((hholder r).symm.trans hh)) fun r _ => hself r

theorem unlock (h : Insiders s) {r : Nat} (hp : ∀ r', Inside r' (s.pc t) → r' = r) :
    Insiders ((s.unlock t r).goto t q) := by
  have hnot : ∀ t', ¬ Holds ((s.unlock t r).goto t q) t' r := by
    intro t' hh
    simp [Holds, State.unlock, State.setRoot, State.goto] at hh
  refine h.keep (goto_pc (s.unlock t r) t · q) ?_ ?_
  · intro t' r' hh
    have hne : r' ≠ r := fun he => hnot t' (he ▸ hh)
    exact .inl (by simpa [Holds, State.unlock, State.setRoot, State.goto, hne] using hh)
  · intro r' hh hi
    exact absurd ((hp r' hi) ▸ hh) (hnot t)

theorem lock (h : Insiders s) {r : Nat} (hl : Locks r (s.pc t) q) :
    Insiders ((s.lock t r).goto t q) := by
  refine h.keep (goto_pc (s.lock t r) t · q) ?_ ?_
  · intro t' r' hh
    by_cases hr : r' = r
    · subst hr
      have ht : t = t' := by simpa [Holds, State.lock, State.goto] using hh
      exact .inr ⟨ht.symm, (Locks.inside hl r').2⟩
    · exact .inl (by simpa [Holds, State.lock, State.goto, hr] using hh)
  · intro r' _ hi
    exact absurd hi (Locks.inside hl r').1

theorem step (h : Insiders s) (hs : Step s e u) : Insiders u := by
  cases hs with
  | moves t q hm => exact h.free (goto_pc s t · q) (fun _ => rfl) fun r => (Moves.inside hm r).mp
  | locks t r q hl _ => exact h.lock hl
  | unlocks t r q hu => exact h.unlock fun r' hi => ((Unlocks.inside_iff hu r').mp hi).symm
  | finds t hp | inserts t hp | loses t hp | newRoot t hp | stores t r hp | reads t r hp
  | misreads t hp =>
    refine h.free (goto_pc s t · _) (fun _ => rfl) fun r hi => ?_
    rw [hp] at hi
    exact hi.elim
  | releases t hp =>
    refine h.free (goto_pc s t · _) (fun _ => rfl) fun r hi => ?_
    obtain hp | hp := hp <;> rw [hp] at hi <;> exact hi.elim
  | constructs t r hp =>
    refine h.free (goto_pc s t · _) (fun _ => rfl) fun r' hi => ?_
    rw [hp] at hi
    exact hi
  | assigns t r rep hp =>
    refine h.free (goto_pc (s.setRoot r _) t · _) (holder_setRoot rfl) fun r' hi => ?_
    rw [hp] at hi
    exact hi
  | ready r =>
    intro t' r' hh
    exact h t' r' ((holder_setRoot (v := { s.roots r with ready := true }) rfl r').symm.trans hh)
  | raisesWaiting t r hp => exact h.unlock fun r' hi => (hp ▸ hi).elim
  | raisesConstructing t r hp => exact h.unlock fun r' hi => (hp ▸ hi).symm

end Insiders

namespace Paired

variable {l l' : List LockOp} {r r' : Nat}

theorem keep (h : Paired (s.roots r).holder l) (hops : l' = [])
    (hholder : (u.roots r).holder = (s.roots r).holder) : Paired (u.roots r).holder (l ++ l') := by
  rw [hops, List.append_nil, hholder]
  exact h

theorem lock (h : Paired (s.roots r).holder l) (hfree : (s.roots r').holder = none)
    (hops : l' = if r' = r then [.acquire t] else []) :
    Paired (((s.lock t r').goto t q).roots r).holder (l ++ l') := by
  have hroot : ((s.lock t r').goto t q).roots r = _ := setRoot_roots s r' r _
  rw [hroot, hops]
  by_cases hr : r = r'
  · subst hr
    rw [hfree] at h
    rw [if_pos rfl, if_pos rfl]
    exact .acquire t l h
  · rw [if_neg hr, if_neg (Ne.symm hr), List.append_nil]
    exact h

theorem unlock (h : Paired (s.roots r).holder l) (hholds : Holds s t r')
    (hops : l' = if r' = r then [.release t] else []) :
    Paired (((s.unlock t r').goto t q).roots r).holder (l ++ l') := by
  have hroot : ((s.unlock t r').goto t q).roots r = _ := setRoot_roots s r' r _
  rw [hroot, hops]
  by_cases hr : r = r'
  · subst hr
    rw [hholds] at h
    rw [if_pos rfl, if_pos rfl]
    exact .release t l h
  · rw [if_neg hr, if_neg (Ne.symm hr), List.append_nil]
    exact h

theorem step (h : Paired (s.roots r).holder l) (hi : Inv s) (hg : LockedThrow s e)
    (hs : Step s e u) : Paired (u.roots r).holder (l ++ lockOps r s e) := by
  cases hs with
  | moves t q hm =>
    refine h.keep ?_ rfl
    change runOps r t (s.pc t) = []
    generalize s.pc t = p at hm
    cases hm <;> rfl
  | locks t r' q hl hfree =>
    refine h.lock hfree ?_
    change runOps r t (s.pc t) = _
    generalize s.pc t = p at hl
    cases hl <;> rfl
  | unlocks t r' q hu =>
    refine h.unlock (holds_of_inside hi ((Unlocks.inside_iff hu r').mpr rfl)) ?_
    change runOps r t (s.pc t) = _
    generalize s.pc t = p at hu
    cases hu <;> rfl
  | finds t hp | inserts t hp | loses t hp | newRoot t hp | stores t r' hp | reads t r' hp
  | misreads t hp | constructs t r' hp => exact h.keep (congrArg (runOps r t) hp) rfl
  | releases t hp =>
    obtain hp | hp := hp
    · exact h.keep (congrArg (runOps r t) hp) rfl
    · exact h.keep (congrArg (runOps r t) hp) rfl
  | assigns t r' rep hp =>
    exact h.keep (congrArg (runOps r t) hp)
      (holder_setRoot (v := { s.roots r' with theRep := some rep }) rfl r)
  | ready r' => exact h.keep rfl (holder_setRoot (v := { s.roots r' with ready := true }) rfl r)
  | raisesWaiting t r' hp => exact absurd hp (hg.not_wait r')
  | raisesConstructing t r' hp =>
    exact h.unlock (hi.at_pc hp).2.1 (congrArg (raiseOps r t) hp)

end Paired

theorem consistent {r : Nat} {l : List LockOp} (hi : Inv s) (hin : Insiders s)
    (hl : Paired (s.roots r).holder l) : Consistent r s l where
  misused := hi.misused
  paired := hl
  holder t := ⟨hin t r, holds_of_inside hi⟩
  exclusive _ _ h h' := Inv.holds_unique (holds_of_inside hi h) (holds_of_inside hi h')
  oneRep := hi.oneRep

/-- A fault on an untouched root makes the representative, when nobody interferes. -/
theorem fault_untouched {r : Nat} (hp : s.pc t = .lock r) (hr : s.roots r = untouched) :
    ∃ v, run step s (List.replicate 8 (.run t)) = some v ∧ v.pc t = .done s.nextRep ∧
      v.roots r = { untouched with theRep := some s.nextRep } := by
  simp [run, step, advance, hp, hr, untouched, State.lock, State.unlock, State.setRoot, State.goto]

theorem survived (h : Inv s) {r : Nat} (hp : s.pc t = .recheck r)
    (hn : (s.roots r).theRep = none) : Survived s ((s.unlock t r).goto t .raised) t := by
  have hinv := inv_raises h hp
  have hready : (s.roots r).ready = true := (h.at_pc hp).2.2
  have hroot : ((s.unlock t r).goto t .raised).roots r = untouched := by
    refine (setRoot_roots s r r _).trans ((if_pos rfl).trans ?_)
    rw [hn, hready, untouched]
  have hother : ∀ r', r' ≠ r → ((s.unlock t r).goto t .raised).roots r' = s.roots r' :=
    fun r' hr => (setRoot_roots s r r' _).trans (if_neg hr)
  refine ⟨hinv.misused, ?_, ?_, ?_, r, hp, hroot, hother, ?_⟩
  · exact (goto_pc _ t t _).trans (if_pos rfl)
  · intro t' ht
    exact (goto_pc (s.unlock t r) t t' _).trans (if_neg ht)
  · intro r'
    by_cases hr : r' = r
    · rw [hr, hroot, hn, untouched]
    · rw [hother r' hr]
  · exact fun t' ht => fault_untouched ht hroot

/-- An exception of a call that waits drops a lock that it does not hold. -/
theorem raise_iff (h : Inv s) (hs : FaultHandling.step s (.raise t) = some u) :
    LockedThrow s (.raise t) ↔ Survived s u t := by
  have hcases := step_cases hs
  constructor
  · intro hg
    cases hcases with
    | raisesWaiting _ r hp => exact absurd hp (hg.not_wait r)
    | raisesConstructing _ r hp hn => exact survived h hp hn
  · intro hu
    obtain ⟨r, hp, -⟩ := hu.root
    exact congrArg waits hp

/-- While no call that waits for the data throws, every lock is dropped once, by the call that
took it, no two calls are inside, and an exception leaves the root untouched. -/
theorem consistent_of_reaches {r : Nat} {l : List LockOp}
    (h : Reaches (traced r) (fun c e => LockedThrow c.1 e) (.init, []) (s, l)) :
    Consistent r s l ∧
      ∀ t u, step s (.raise t) = some u → (LockedThrow s (.raise t) ↔ Survived s u t) := by
  have hinv : Inv (s, l).1 ∧ Insiders (s, l).1 ∧ Paired ((s, l).1.roots r).holder (s, l).2 := by
    refine h.invariant (I := fun c => Inv c.1 ∧ Insiders c.1 ∧ Paired (c.1.roots r).holder c.2)
      ⟨Inv.init, ?_, .nil⟩ ?_
    · intro t' r' hh
      cases hh
    · intro c e c' hc hg hs
      obtain ⟨hi, hin, hl⟩ := hc
      simp only [traced, Option.map_eq_some_iff] at hs
      obtain ⟨u, hu, rfl⟩ := hs
      have hcases := step_cases hu
      exact ⟨inv_step hi hg hcases, hin.step hcases, hl.step hi hg hcases⟩
  obtain ⟨hi, hin, hl⟩ := hinv
  exact ⟨consistent hi hin hl, fun t u hs => raise_iff hi hs⟩

/-- The constructor throws in call 0; call 1 faults afterwards. -/
def retried : List Event :=
  List.replicate 11 (.run 0) ++ [.ready 0, .run 0, .run 0, .raise 0] ++ List.replicate 11 (.run 1)

theorem retried_runs :
    (run (guarded (traced 0) fun c e => LockedThrow c.1 e) (.init, []) retried).isSome := by decide

theorem retried_consistent :
    let c := (run (guarded (traced 0) fun c e => LockedThrow c.1 e) (.init, []) retried).get
      retried_runs
    Consistent 0 c.1 c.2 ∧ c.1.pc 0 = .raised ∧ c.1.pc 1 = .done 0 ∧
      c.2 = [.acquire 0, .release 0, .acquire 0, .release 0, .acquire 1, .release 1, .acquire 1,
        .release 1] :=
  ⟨(consistent_of_reaches (reaches_get retried_runs)).1, by decide, by decide, by decide⟩

/-- Call 0 waits for the data; call 1 takes the lock, and call 0 throws and drops it, so that
call 2 takes it as well. -/
def stolen : List Event :=
  List.replicate 11 (.run 0) ++ List.replicate 4 (.run 1) ++ [.raise 0] ++ List.replicate 4 (.run 2)

theorem stolen_runs : (run (traced 0) (.init, []) stolen).isSome := by decide

theorem waiter_drops_lock : ¬ ∀ s l, Reachable (traced 0) (.init, []) (s, l) →
    Consistent 0 s l := by
  intro h
  have hc := h _ _ (reachable_of_run (Option.some_get stolen_runs).symm)
  cases hc.exclusive 1 2 (by decide) (by decide)

end EbbrtContrib.FaultFailure
