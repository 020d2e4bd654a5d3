import EbbrtContrib.Numbered
import EbbrtContrib.ObjectFault

namespace EbbrtContrib.OneObject

open Numbered ObjectFault Runs

variable {α : Type} {new : List UInt8 → α} {s u : State α} {e : Event} {t : Nat} {p : Nat} {q : Pc}

/-- The object that a call has constructed and neither inserted nor deleted. -/
def holds : Pc → Option Nat
  | .insert p | .discard p => some p
  | _ => none

def Live (s : State α) (p : Nat) : Prop := s.objects.buffers p ≠ none

/-- The object of the map is one that a call has constructed, and it exists; what calls cache and
return is this object. Every object is inserted, held by the call that has constructed it, or
deleted by it, and deleted at most once. -/
structure Consistent (s : State α) : Prop where
  entry : ∀ p, s.entry = some p → Live s p ∧ ∃ t, ⟨t, p⟩ ∈ s.constructed
  cached : ∀ d ∈ s.cached, s.entry = some d.object
  returned : ∀ t p, s.pc t = .done p → s.entry = some p ∧ ⟨t, p⟩ ∈ s.cached
  constructedOnce : (s.constructed.map Deed.object).Nodup
  deletedOnce : (s.deleted.map Deed.object).Nodup
  deleted : ∀ d ∈ s.deleted, d ∈ s.constructed ∧ s.entry ≠ some d.object ∧ ¬ Live s d.object
  fate : ∀ d ∈ s.constructed,
    s.entry = some d.object ∨ holds (s.pc d.caller) = some d.object ∨ d ∈ s.deleted
  read : ∀ t, s.pc t ≠ .misread

/-- Call `t` has constructed `p`, and `p` is its own. -/
structure Owns (s : State α) (t p : Nat) : Prop where
  constructed : ⟨t, p⟩ ∈ s.constructed
  outside : s.entry ≠ some p
  alive : Live s p
  kept : ∀ d ∈ s.deleted, d.object ≠ p

/-- What a call knows at each place. -/
def At (s : State α) (t : Nat) : Pc → Prop
  | .idle | .find | .get => True
  | .insert p => Owns s t p
  | .discard p => Owns s t p ∧ s.entry ≠ none
  | .retry => s.entry ≠ none
  | .cache p => s.entry = some p
  | .done p => s.entry = some p ∧ ⟨t, p⟩ ∈ s.cached
  | .misread => False

structure Inv (s : State α) : Prop where
  place : ∀ t, At s t (s.pc t)
  entry : ∀ p, s.entry = some p → Live s p ∧ ∃ t, ⟨t, p⟩ ∈ s.constructed
  cached : ∀ d ∈ s.cached, s.entry = some d.object
  lt : ∀ d ∈ s.constructed, d.object < s.objects.next
  constructedOnce : (s.constructed.map Deed.object).Nodup
  deletedOnce : (s.deleted.map Deed.object).Nodup
  deleted : ∀ d ∈ s.deleted, d ∈ s.constructed ∧ s.entry ≠ some d.object ∧ ¬ Live s d.object
  fate : ∀ d ∈ s.constructed,
    s.entry = some d.object ∨ holds (s.pc d.caller) = some d.object ∨ d ∈ s.deleted

theorem Moves.holds {q' : Pc} (h : Moves s q q') : holds q = holds q' := by
  cases h <;> rfl

/-- What a call knows outlasts steps of the others, if the entry stays and so does what it owns. -/
theorem At.mono (h : At s t q) (hentry : ∀ p, s.entry = some p → u.entry = some p)
    (howns : ∀ p, Owns s t p → Owns u t p) (hcached : s.cached ⊆ u.cached) : At u t q := by
  have hsome : s.entry ≠ none → u.entry ≠ none := by
    intro hne hn
    obtain ⟨p, hp⟩ := Option.ne_none_iff_exists'.mp hne
    cases (hentry p hp).symm.trans hn
  cases q with
  | idle | find | get => trivial
  | insert p => exact howns p h
  | discard p => exact ⟨howns p h.1, hsome h.2⟩
  | retry => exact hsome h
  | cache p => exact hentry p h
  | done p => exact ⟨hentry p h.1, hcached h.2⟩
  | misread => exact h.elim

namespace Inv

theorem at_pc (h : Inv s) (hp : s.pc t = q) : At s t q := hp ▸ h.place t

/-- An object has one constructor. -/
theorem unique (h : Inv s) {t' : Nat} (hp : ⟨t, p⟩ ∈ s.constructed)
    (hp' : ⟨t', p⟩ ∈ s.constructed) : t' = t :=
  congrArg Deed.caller (eq_of_mem h.constructedOnce hp' hp rfl)

/-- What is to be shown of the places when call `t` gets to `q`. -/
theorem places (h : Inv s) (hpc : ∀ t', u.pc t' = if t' = t then q else s.pc t') (hq : At u t q)
    (hother : ∀ t', t' ≠ t → ∀ q', At s t' q' → At u t' q') (t' : Nat) : At u t' (u.pc t') := by
  rw [hpc]
  by_cases ht : t' = t
  · rw [if_pos ht, ht]
    exact hq
  · rw [if_neg ht]
    exact hother t' ht _ (h.place t')

/-- What is to be shown of the objects when call `t` has not held any, or holds the same. -/
theorem fates (h : Inv s) (hpc : ∀ t', u.pc t' = if t' = t then q else s.pc t')
    (hentry : ∀ p, s.entry = some p → u.entry = some p) (hdeleted : s.deleted ⊆ u.deleted)
    (hself : ∀ p, holds (s.pc t) = some p →
      u.entry = some p ∨ holds q = some p ∨ ⟨t, p⟩ ∈ u.deleted) :
    ∀ d ∈ s.constructed,
      u.entry = some d.object ∨ holds (u.pc d.caller) = some d.object ∨ d ∈ u.deleted := by
  intro d hd
  obtain he | hh | hm := h.fate d hd
  · exact .inl (hentry _ he)
  · by_cases ht : d.caller = t
    · rw [hpc, if_pos ht]
      subst ht
      exact hself _ hh
    · rw [hpc, if_neg ht]
      exact .inr (.inl hh)
  · exact .inr (.inr (hdeleted hm))

theorem init : Inv (State.init : State α) := by
  constructor <;> simp [State.init, At]

theorem moves (h : Inv s) (hm : Moves s (s.pc t) q) : Inv (s.goto t q) := by
  have hq : At (s.goto t q) t q := by
    have hat := h.place t
    generalize s.pc t = p at hm hat
    cases hm with
    | call | absent => trivial
    | finds p he | rereads p he => exact he
    | loses p p' he =>
      refine ⟨⟨hat.constructed, hat.outside, hat.alive, hat.kept⟩, fun hn => ?_⟩
      cases he.symm.trans hn
    | misreads he => exact hat he
  refine ⟨h.places (goto_pc s t · q) hq fun t' _ q' hat => ?_, h.entry, h.cached, h.lt,
    h.constructedOnce, h.deletedOnce, h.deleted, ?_⟩
  · exact At.mono hat (fun _ => id) (fun p ho => ⟨ho.constructed, ho.outside, ho.alive, ho.kept⟩)
      fun _ => id
  · refine h.fates (goto_pc s t · q) (fun _ => id) (fun _ => id) fun p hp => ?_
    rw [Moves.holds hm] at hp
    exact .inr (.inl hp)

theorem constructs (h : Inv s) (hp : s.pc t = .get) (value : List UInt8) :
    Inv { s.goto t (.insert s.objects.next) with
      objects := s.objects.alloc (new value)
      constructed := s.constructed ++ [⟨t, s.objects.next⟩] } := by
  have hfresh : ∀ d ∈ s.constructed, d.object ≠ s.objects.next := fun d hd =>
    Nat.ne_of_lt (h.lt d hd)
  have hexists : ∀ p, (s.objects.alloc (new value)).buffers p ≠ none ↔
      p = s.objects.next ∨ Live s p := by
    intro p
    rw [Buffers.Memory.alloc_buffers]
    split <;> simp_all [Live]
  refine ⟨h.places (goto_pc s t · _) ?_ ?_, ?_, h.cached, ?_, ?_, h.deletedOnce, ?_, ?_⟩
  · refine ⟨List.mem_append_right _ (List.mem_singleton_self _), ?_, (hexists _).mpr (.inl rfl), ?_⟩
    · intro he
      obtain ⟨-, t', ht'⟩ := h.entry _ he
      exact hfresh _ ht' rfl
    · exact fun d hd => hfresh d (h.deleted d hd).1
  · intro t' _ q' hat
    exact At.mono hat (fun _ => id) (fun p ho => ⟨List.mem_append_left _ ho.constructed, ho.outside,
      (hexists p).mpr (.inr ho.alive), ho.kept⟩) fun _ => id
  · intro p he
    obtain ⟨halive, t', ht'⟩ := h.entry p he
    exact ⟨(hexists p).mpr (.inr halive), t', List.mem_append_left _ ht'⟩
  · exact forall_mem_snoc (fun d hd => Nat.lt_succ_of_lt (h.lt d hd)) (Nat.lt_succ_self _)
  · exact nodup_snoc_of_ne h.constructedOnce hfresh
  · intro d hd
    obtain ⟨hc, ho, hx⟩ := h.deleted d hd
    refine ⟨List.mem_append_left _ hc, ho, fun hex => ?_⟩
    obtain hn | hex := (hexists _).mp hex
    · exact hfresh d hc hn
    · exact hx hex
  · refine forall_mem_snoc ?_ (.inr (.inl (by simp [holds])))
    refine h.fates (goto_pc s t · _) (fun _ => id) (fun _ => id) fun p hh => ?_
    rw [hp] at hh
    cases hh

theorem inserts (h : Inv s) (hp : s.pc t = .insert p) (he : s.entry = none) :
    Inv { s.goto t (.cache p) with entry := some p } := by
  have howns : Owns s t p := h.at_pc hp
  have hentry : ∀ p', s.entry = some p' → some p = some p' := by
    intro p' hp'
    cases he.symm.trans hp'
  refine ⟨h.places (goto_pc s t · _) rfl ?_, ?_, ?_, h.lt, h.constructedOnce, h.deletedOnce, ?_, ?_⟩
  · intro t' ht' q' hat
    refine At.mono hat hentry (fun p' ho => ⟨ho.constructed, fun hp' => ?_, ho.alive, ho.kept⟩)
      fun _ => id
    obtain rfl := Option.some.inj hp'
    exact ht' (h.unique howns.constructed ho.constructed)
  · intro p' hp'
    obtain rfl := Option.some.inj hp'
    exact ⟨howns.alive, t, howns.constructed⟩
  · intro d hd
    cases he.symm.trans (h.cached d hd)
  · intro d hd
    obtain ⟨hc, -, hx⟩ := h.deleted d hd
    exact ⟨hc, fun hp' => howns.kept d hd (Option.some.inj hp').symm, hx⟩
  · refine h.fates (goto_pc s t · _) hentry (fun _ => id) fun p' hp' => .inl ?_
    rw [hp] at hp'
    exact hp'

theorem deletes (h : Inv s) (hp : s.pc t = .discard p) : Inv { s.goto t .retry with
    objects := s.objects.free p, deleted := s.deleted ++ [⟨t, p⟩] } := by
  obtain ⟨howns, hsome⟩ : Owns s t p ∧ s.entry ≠ none := h.at_pc hp
  have hexists : ∀ p', (s.objects.free p).buffers p' ≠ none ↔ p' ≠ p ∧ Live s p' := by
    intro p'
    rw [Buffers.Memory.free_buffers]
    split <;> simp_all [Live]
  refine ⟨h.places (goto_pc s t · _) hsome ?_, ?_, h.cached, h.lt, h.constructedOnce, ?_, ?_, ?_⟩
  · intro t' ht' q' hat
    refine At.mono hat (fun _ => id) (fun p' ho => ?_) fun _ => id
    have hne : p' ≠ p := fun he => ht' (h.unique howns.constructed (he ▸ ho.constructed))
    exact ⟨ho.constructed, ho.outside, (hexists p').mpr ⟨hne, ho.alive⟩,
      forall_mem_snoc ho.kept hne.symm⟩
  · intro p' hp'
    obtain ⟨halive, hmade⟩ := h.entry p' hp'
    exact ⟨(hexists p').mpr ⟨fun he => howns.outside (he ▸ hp'), halive⟩, hmade⟩
  · exact nodup_snoc_of_ne h.deletedOnce howns.kept
  · refine forall_mem_snoc (fun d hd => ?_)
      ⟨howns.constructed, howns.outside, fun hex => ((hexists p).mp hex).1 rfl⟩
    obtain ⟨hc, ho, hx⟩ := h.deleted d hd
    exact ⟨hc, ho, fun hex => hx ((hexists _).mp hex).2⟩
  · refine h.fates (goto_pc s t · _) (fun _ => id) (fun _ => List.mem_append_left _) ?_
    intro p' hp'
    rw [hp] at hp'
    obtain rfl := Option.some.inj hp'
    exact .inr (.inr (List.mem_append_right _ (List.mem_singleton_self _)))

theorem caches (h : Inv s) (hp : s.pc t = .cache p) :
    Inv { s.goto t (.done p) with cached := s.cached ++ [⟨t, p⟩] } := by
  have he : s.entry = some p := h.at_pc hp
  refine ⟨h.places (goto_pc s t · _) ⟨he, ?_⟩ ?_, h.entry, ?_, h.lt, h.constructedOnce,
    h.deletedOnce, h.deleted, ?_⟩
  · exact List.mem_append_right _ (List.mem_singleton_self _)
  · intro t' _ q' hat
    exact At.mono hat (fun _ => id) (fun p ho => ⟨ho.constructed, ho.outside, ho.alive, ho.kept⟩)
      fun _ => List.mem_append_left _
  · exact forall_mem_snoc h.cached he
  · refine h.fates (goto_pc s t · _) (fun _ => id) (fun _ => id) fun p' hp' => ?_
    rw [hp] at hp'
    cases hp'

theorem step (h : Inv s) (hs : Step new s e u) : Inv u := by
  cases hs with
  | moves _ _ hm => exact h.moves hm
  | constructs _ value hp => exact h.constructs hp value
  | inserts _ _ hp he => exact h.inserts hp he
  | deletes _ _ hp => exact h.deletes hp
  | caches _ _ hp => exact h.caches hp

theorem of_reachable (h : Reachable (ObjectFault.step new) .init s) : Inv s :=
  h.invariant init fun _ _ _ hi _ hs => hi.step (step_cases hs)

theorem consistent (h : Inv s) : Consistent s where
  entry := h.entry
  cached := h.cached
  returned _ _ hp := h.at_pc hp
  constructedOnce := h.constructedOnce
  deletedOnce := h.deletedOnce
  deleted := h.deleted
  fate := h.fate
  read _ hp := h.at_pc hp

end Inv

/-- What has been inserted stays. -/
theorem entry_stays (h : Reachable (step new) s u) (hp : s.entry = some p) : u.entry = some p := by
  refine Reaches.invariant (I := fun s => s.entry = some p) h hp fun s e u hp _ hs => ?_
  cases step_cases hs with
  | moves | constructs | deletes | caches => exact hp
  | inserts _ _ _ he => cases he.symm.trans hp

/-- Every call that has begun has returned. -/
def Settled (s : State α) : Prop := ∀ t, s.pc t = .idle ∨ ∃ p, s.pc t = .done p

/-- The object of the map, in the end: every call that has begun has cached and returned it, and of
the others each has been deleted once, by the call that has constructed it. -/
structure Agreed (s : State α) (p : Nat) : Prop where
  entry : s.entry = some p
  alive : Live s p
  constructed : ∃ t, ⟨t, p⟩ ∈ s.constructed
  returned : ∀ t, s.pc t ≠ .idle → s.pc t = .done p ∧ ⟨t, p⟩ ∈ s.cached
  deleted : ∀ d ∈ s.constructed, d.object ≠ p →
    d ∈ s.deleted ∧ (s.deleted.map Deed.object).count d.object = 1

theorem Inv.agreed (h : Inv s) (hs : Settled s) (ht : s.pc t ≠ .idle) : ∃ p, Agreed s p := by
  obtain ⟨p, hp⟩ := (hs t).resolve_left ht
  obtain ⟨he, -⟩ : s.entry = some p ∧ _ := h.at_pc hp
  obtain ⟨halive, hmade⟩ := h.entry p he
  refine ⟨p, he, halive, hmade, fun t' ht' => ?_, fun d hd hne => ?_⟩
  · obtain ⟨p', hp'⟩ := (hs t').resolve_left ht'
    have hat : At s t' (.done p') := h.at_pc hp'
    obtain ⟨he', hc⟩ := hat
    obtain rfl := Option.some.inj (he.symm.trans he')
    exact ⟨hp', hc⟩
  · have hd' : d ∈ s.deleted := by
      obtain hin | hheld | hd' := h.fate d hd
      · exact absurd (Option.some.inj (he.symm.trans hin)).symm hne
      · obtain hi | ⟨p', hp'⟩ := hs d.caller
        · rw [hi] at hheld
          cases hheld
        · rw [hp'] at hheld
          cases hheld
      · exact hd'
    exact ⟨hd', List.count_eq_one_of_mem h.deletedOnce (List.mem_map_of_mem hd')⟩

/-- How far a call is. -/
def rank : Pc → Nat
  | .idle => 0
  | .find => 1
  | .get => 2
  | .insert _ => 3
  | .discard _ => 4
  | .retry => 5
  | .cache _ => 6
  | .done _ => 7
  | .misread => 7

theorem rank_le (q : Pc) : rank q ≤ 7 := by
  cases q <;> simp [rank]

theorem Moves.rank_lt {q' : Pc} (h : Moves s q q') : rank q < rank q' := by
  cases h <;> simp [rank]

/-- A call gets nearer to its return by each of its steps, and is left where it is by those of the
others. -/
theorem rank_step (h : Step new s e u) : rank (s.pc e.caller) < rank (u.pc e.caller) ∧
    ∀ t, t ≠ e.caller → u.pc t = s.pc t := by
  cases h with
  | moves t q hm =>
    refine ⟨?_, fun t' ht' => (goto_pc s t t' q).trans (if_neg ht')⟩
    rw [Event.caller, goto_pc, if_pos rfl]
    exact Moves.rank_lt hm
  | constructs t value hp =>
    refine ⟨?_, fun t' ht' => (goto_pc s t t' _).trans (if_neg ht')⟩
    simp [Event.caller, hp, rank]
  | inserts t p hp | deletes t p hp | caches t p hp =>
    refine ⟨?_, fun t' ht' => (goto_pc s t t' _).trans (if_neg ht')⟩
    simp [Event.caller, hp, rank]

/-- A call that has not returned can always go on, once the global map has answered it. -/
theorem Inv.enabled (new : List UInt8 → α) (h : Inv s) (ht : ∀ p, s.pc t ≠ .done p)
    (value : List UInt8) : ∃ e u, e.caller = t ∧ (e = .run t ∨ e = .answer t value) ∧
      ObjectFault.step new s e = some u := by
  by_cases hget : s.pc t = .get
  · refine ⟨.answer t value, ?_⟩
    simp [ObjectFault.step, hget, Event.caller]
  · refine ⟨.run t, ?_⟩
    have hrun : ∃ u, advance s t = some u := by
      unfold advance
      cases hp : s.pc t with
      | get => exact absurd hp hget
      | done p => exact absurd hp (ht p)
      | misread => exact (h.at_pc hp).elim
      | idle | discard | cache => exact ⟨_, rfl⟩
      | find | insert | retry => cases s.entry <;> exact ⟨_, rfl⟩
    obtain ⟨u, hu⟩ := hrun
    exact ⟨u, rfl, .inl rfl, hu⟩

/-- A call returns the object of the map, whatever the others have done so far. -/
theorem Inv.returns (new : List UInt8 → α) (h : Inv s) (t : Nat) :
    ∃ u, Reaches (ObjectFault.step new) (fun _ e => e.caller = t) s u ∧
      ∃ p, u.pc t = .done p ∧ u.entry = some p := by
  have hrests : ∃ u, Reaches (ObjectFault.step new) (fun _ e => e.caller = t) s u ∧ Inv u ∧
      ∀ e v, e.caller = t → ObjectFault.step new u e = some v → v = u :=
    exists_at_rest (fun s => rank (s.pc t)) h (fun _ _ => rank_le _) fun s e u hs he hstep => by
      subst he
      exact ⟨hs.step (step_cases hstep), .inr (rank_step (step_cases hstep)).1⟩
  obtain ⟨u, hu, hinv, hrest⟩ := hrests
  refine ⟨u, hu, ?_⟩
  by_contra hnot
  have hne : ∀ p, u.pc t ≠ .done p := fun p hp => hnot ⟨p, hp, (hinv.at_pc hp : At u t _).1⟩
  obtain ⟨e, v, he, -, hv⟩ := hinv.enabled new hne []
  have hlt := (rank_step (step_cases hv)).1
  rw [hrest e v he hv] at hlt
  exact Nat.lt_irrefl _ hlt

/-- A call takes seven steps at most. -/
theorem Inv.steps_le (h : Inv s) (t : Nat) {es : List Event}
    (hrun : run (ObjectFault.step new) s es = some u) :
    es.countP (fun e => e.caller = t) ≤ 7 := by
  have hcount := countP_le_of_run (I := Inv) (fun s => 7 - rank (s.pc t)) (fun e => e.caller = t)
    (fun s e u hs hstep => ?_) hrun h
  · exact Nat.le_trans (Nat.le_of_add_right_le hcount.2) (Nat.sub_le _ _)
  · refine ⟨hs.step (step_cases hstep), ?_⟩
    obtain ⟨hlt, hother⟩ := rank_step (step_cases hstep)
    by_cases ht : e.caller = t
    · subst ht
      have hu := rank_le (u.pc e.caller)
      simp only [decide_true, if_true]
      omega
    · simp [ht, hother t (Ne.symm ht)]

/-- However the calls interleave, one object is kept: it is the only one that calls cache and
return, and the others are deleted by the calls that have constructed them. Every call returns after
a few steps of its own. -/
theorem keeps_one (new : List UInt8 → α) (h : Reachable (step new) .init s) :
    Consistent s ∧
      (∀ u p, Reachable (step new) s u → s.entry = some p → u.entry = some p) ∧
      (∀ t, Settled s → s.pc t ≠ .idle → ∃ p, Agreed s p) ∧
      ∀ t, (∃ u, Reaches (step new) (fun _ e => e.caller = t) s u ∧
          ∃ p, u.pc t = .done p ∧ u.entry = some p) ∧
        ∀ es u, run (step new) s es = some u → es.countP (fun e => e.caller = t) ≤ 7 :=
  have hinv := Inv.of_reachable h
  ⟨hinv.consistent, fun _ _ => entry_stays, fun _ => hinv.agreed,
    fun t => ⟨hinv.returns new t, fun _ _ => hinv.steps_le t⟩⟩

/-- Two calls construct an object each before one of them is inserted. -/
def race (a b : Nat) (value : List UInt8) : List Event :=
  [.run a, .run b, .run a, .run b, .answer a value, .answer b value, .run b, .run a, .run a, .run b,
    .run a, .run a]

theorem race_keeps_one :
    ∃ s : State Printer, Reachable Printer.handleFault .init s ∧ Consistent s ∧ Settled s ∧
      s.pc 3 = .done 1 ∧ s.pc 5 = .done 1 ∧ s.deleted = [⟨3, 0⟩] ∧ ∃ p, Agreed s p := by
  have hrun : (run Printer.handleFault .init (race 3 5 [10, 1, 2, 3])).isSome := by rfl
  have h := reachable_of_run (Option.some_get hrun).symm
  have hsettled : Settled ((run Printer.handleFault .init (race 3 5 [10, 1, 2, 3])).get hrun) := by
    intro t
    by_cases h3 : t = 3
    · subst h3
      exact .inr ⟨1, rfl⟩
    · by_cases h5 : t = 5
      · subst h5
        exact .inr ⟨1, rfl⟩
      · refine .inl ?_
        simp [run, race, Printer.handleFault, step, advance, State.init, State.goto, h3, h5]
  obtain ⟨hcons, -, hagreed, -⟩ := keeps_one _ h
  exact ⟨_, h, hcons, hsettled, rfl, rfl, rfl, hagreed 3 hsettled Pc.noConfusion⟩

end EbbrtContrib.OneObject
