import EbbrtContrib.FaultHandling

namespace EbbrtContrib.OneRepresentative

open FaultHandling Runs

variable {s u : State} {e : Event} {t : Nat} {p q : Pc}

def NoThrow : Event → Prop
  | .raise _ => False
  | .run _ | .ready _ => True

/-- One root is stored, one representative constructed, once the data is ready, and every call
that has returned has returned it; nobody has used an entry without root. -/
structure OneRep (s : State) : Prop where
  stores : s.stores.length ≤ 1
  constructed : s.constructed.length ≤ 1
  ready : ∀ c ∈ s.constructed, c.ready = true
  returned : ∀ t rep, s.pc t = .done rep → ∃ r, s.constructed = [⟨r, rep, true⟩]
  stored : s.unstored = false

def Stored (s : State) (r : Nat) : Prop := s.entry = some (some r)

def Holds (s : State) (t r : Nat) : Prop := (s.roots r).holder = some t

def HasRep (s : State) (r rep : Nat) : Prop := (s.roots r).theRep = some rep

/-- What a call knows at each of its places. -/
def At (s : State) (t : Nat) : Pc → Prop
  | .idle | .find | .insert | .raised => True
  | .lostInsert | .release => s.writer = some t ∧ ∃ r, Stored s r
  | .newRoot | .store _ => s.writer = some t ∧ s.entry = some none
  | .reading => t ∈ s.readers
  | .lock r | .wait r => Stored s r
  | .check r => Stored s r ∧ Holds s t r
  | .unlock r => Stored s r ∧ Holds s t r
  | .relock r => Stored s r ∧ (s.roots r).ready = true
  | .recheck r => Stored s r ∧ Holds s t r ∧ (s.roots r).ready = true
  | .assign r rep => Stored s r ∧ Holds s t r ∧ (s.roots r).theRep = none ∧
      s.constructed = [⟨r, rep, true⟩]
  | .leave r rep => Stored s r ∧ Holds s t r ∧ HasRep s r rep
  | .done rep => ∃ r, Stored s r ∧ HasRep s r rep

/-- How far the representative is: not constructed, constructed by a call that has not assigned
it yet, or assigned. -/
inductive Progress (s : State) : Prop
  | none : s.constructed = [] → Progress s
  | constructed (t r rep : Nat) : s.pc t = .assign r rep → Progress s
  | assigned (r rep : Nat) : HasRep s r rep → Progress s

structure Inv (s : State) : Prop where
  place : ∀ t, At s t (s.pc t)
  stores : s.stores = (match s.entry with | some (some r) => [r] | some none | none => [])
  unlocked : s.entry = none → s.writer = none
  locked : s.entry = some none → s.writer ≠ none
  excludes : s.writer ≠ none → s.readers = []
  read : s.readers ≠ [] → ∃ r, Stored s r
  rep : ∀ r rep, HasRep s r rep → Stored s r ∧ s.constructed = [⟨r, rep, true⟩]
  progress : Progress s
  stored : s.unstored = false
  misused : s.misused = false

/-- A call keeps what it knows when the others leave its locks, and what has been stored. -/
theorem At.mono (h : At s t p) (hentry : ∀ r, Stored s r → Stored u r)
    (hwriter : s.writer = some t → u.writer = some t ∧ (s.entry = some none → u.entry = some none))
    (hreaders : t ∈ s.readers → t ∈ u.readers)
    (hholds : ∀ r, Holds s t r → Holds u t r ∧ ((s.roots r).theRep = none →
      ∀ rep, s.constructed = [⟨r, rep, true⟩] →
        (u.roots r).theRep = none ∧ u.constructed = [⟨r, rep, true⟩]))
    (hready : ∀ r, (s.roots r).ready = true → (u.roots r).ready = true)
    (hrep : ∀ r rep, HasRep s r rep → HasRep u r rep) : At u t p := by
  cases p with
  | idle | find | insert | raised => trivial
  | lostInsert | release =>
    obtain ⟨hw, r, hr⟩ := h
    exact ⟨(hwriter hw).1, r, hentry r hr⟩
  | newRoot | store =>
    obtain ⟨hw, he⟩ := h
    exact ⟨(hwriter hw).1, (hwriter hw).2 he⟩
  | reading => exact hreaders h
  | lock r | wait r => exact hentry r h
  | check r | unlock r => exact ⟨hentry r h.1, (hholds r h.2).1⟩
  | relock r => exact ⟨hentry r h.1, hready r h.2⟩
  | recheck r => exact ⟨hentry r h.1, (hholds r h.2.1).1, hready r h.2.2⟩
  | assign r rep =>
    obtain ⟨hr, hh, hn, hc⟩ := h
    exact ⟨hentry r hr, (hholds r hh).1, (hholds r hh).2 hn rep hc⟩
  | leave r rep => exact ⟨hentry r h.1, (hholds r h.2.1).1, hrep r rep h.2.2⟩
  | done rep =>
    obtain ⟨r, hr, hp⟩ := h
    exact ⟨r, hentry r hr, hrep r rep hp⟩

/-- The places after a step of call `t` to `q`. -/
theorem place_goto (h : Inv s) (hpc : ∀ t', u.pc t' = if t' = t then q else s.pc t')
    (hself : At u t q) (hother : ∀ t', t' ≠ t → At s t' (s.pc t') → At u t' (s.pc t')) :
    ∀ t', At u t' (u.pc t') := by
  intro t'
  rw [hpc]
  by_cases ht : t' = t
  · rw [ht, if_pos rfl]
    exact hself
  · rw [if_neg ht]
    exact hother t' ht (h.place t')

namespace Inv

theorem init : Inv .init := by
  refine ⟨fun _ => trivial, rfl, fun _ => rfl, fun h => ?_, fun h => absurd rfl h,
    fun h => absurd rfl h, fun _ _ h => ?_, .none rfl, rfl, rfl⟩
  · cases h
  · cases h

theorem at_pc (h : Inv s) (hp : s.pc t = p) : At s t p := hp ▸ h.place t

theorem stored_unique {r r' : Nat} (h : Stored s r) (h' : Stored s r') : r' = r := by
  have he := h'.symm.trans h
  simpa using he

theorem holds_unique {t t' r : Nat} (h : Holds s t r) (h' : Holds s t' r) : t' = t := by
  have he := h'.symm.trans h
  simpa using he

/-- A step of call `t` to `q` that leaves what has been stored, and what the others hold. -/
theorem keep (h : Inv s) (hpc : ∀ t', u.pc t' = if t' = t then q else s.pc t') (hself : At u t q)
    (hassign : ∀ r rep, s.pc t = .assign r rep → q = .assign r rep)
    (hshared : u.entry = s.entry ∧ u.stores = s.stores ∧ u.constructed = s.constructed ∧
      u.unstored = s.unstored ∧ u.misused = false)
    (hwriter : ∀ t', t' ≠ t → s.writer = some t' → u.writer = some t')
    (hlocks : (s.entry = none → u.writer = none) ∧ (s.entry = some none → u.writer ≠ none) ∧
      (u.writer ≠ none → u.readers = []) ∧ (u.readers ≠ [] → ∃ r, Stored s r))
    (hreaders : ∀ t', t' ≠ t → t' ∈ s.readers → t' ∈ u.readers)
    (hholds : ∀ t', t' ≠ t → ∀ r, Holds s t' r → Holds u t' r)
    (hrep : ∀ r, (u.roots r).theRep = (s.roots r).theRep)
    (hready : ∀ r, (s.roots r).ready = true → (u.roots r).ready = true) : Inv u := by
  obtain ⟨hentry, hstores, hconstructed, hunstored, hmisused⟩ := hshared
  have hstored : ∀ r, Stored u r ↔ Stored s r := fun r => by rw [Stored, Stored, hentry]
  have hhas : ∀ r rep, HasRep u r rep ↔ HasRep s r rep := fun r rep => by
    rw [HasRep, HasRep, hrep]
  refine ⟨place_goto h hpc hself ?_, ?_, ?_, ?_, hlocks.2.2.1, ?_, ?_, ?_, ?_, hmisused⟩
  · intro t' ht' hat
    refine hat.mono (fun r => (hstored r).mpr) (fun hw => ⟨hwriter t' ht' hw, fun he => ?_⟩)
      (hreaders t' ht') (fun r hr => ⟨hholds t' ht' r hr, fun hn rep hc => ⟨?_, ?_⟩⟩) hready
      (fun r rep => (hhas r rep).mpr)
    · rw [hentry, he]
    · rw [hrep, hn]
    · rw [hconstructed, hc]
  · rw [hstores, hentry]
    exact h.stores
  · rw [hentry]
    exact hlocks.1
  · rw [hentry]
    exact hlocks.2.1
  · intro hr
    obtain ⟨r, hr⟩ := hlocks.2.2.2 hr
    exact ⟨r, (hstored r).mpr hr⟩
  · intro r rep hr
    rw [hconstructed, hstored]
    exact h.rep r rep ((hhas r rep).mp hr)
  · cases h.progress with
    | none hc => exact .none (hconstructed.trans hc)
    | assigned r rep hr => exact .assigned r rep ((hhas r rep).mpr hr)
    | constructed t' r rep ht' =>
      refine .constructed t' r rep ?_
      rw [hpc]
      by_cases he : t' = t
      · rw [if_pos he]
        exact hassign r rep (he ▸ ht')
      · rw [if_neg he, ht']
  · rw [hunstored]
    exact h.stored

theorem shared (h : Inv s) : s.entry = s.entry ∧ s.stores = s.stores ∧
    s.constructed = s.constructed ∧ s.unstored = s.unstored ∧ s.misused = false :=
  ⟨rfl, rfl, rfl, rfl, h.misused⟩

theorem locks (h : Inv s) : (s.entry = none → s.writer = none) ∧
    (s.entry = some none → s.writer ≠ none) ∧ (s.writer ≠ none → s.readers = []) ∧
    (s.readers ≠ [] → ∃ r, Stored s r) :=
  ⟨h.unlocked, h.locked, h.excludes, h.read⟩

theorem goto (h : Inv s) (hself : At s t q) (hassign : ∀ r rep, s.pc t ≠ .assign r rep) :
    Inv (s.goto t q) := by
  refine h.keep (goto_pc s t · q) ?_ (fun r rep ha => absurd ha (hassign r rep)) h.shared
    (fun _ _ hw => hw) h.locks (fun _ _ hr => hr) (fun _ _ _ hr => hr) (fun _ => rfl)
    (fun _ hr => hr)
  cases q <;> exact hself

theorem moves (h : Inv s) (hm : Moves s (s.pc t) q) : Inv (s.goto t q) := by
  have hat := h.place t
  generalize hp : s.pc t = p at hm hat
  have hassign : ∀ r rep, s.pc t ≠ .assign r rep := by
    intro r rep ha
    rw [hp] at ha
    subst ha
    cases hm
  cases hm with
  | call => exact h.goto trivial hassign
  | absent he => exact h.goto trivial hassign
  | hasRep r rep hr => exact h.goto ⟨hat.1, hat.2, hr⟩ hassign
  | noRep r hr => exact h.goto hat hassign
  | ready r hr => exact h.goto ⟨hat, hr⟩ hassign
  | beaten r rep hr => exact h.goto ⟨hat.1, hat.2.1, hr⟩ hassign

theorem no_assign (hp : s.pc t = p) (hne : ∀ r rep, p ≠ .assign r rep) (r rep : Nat)
    (ha : s.pc t = .assign r rep) : q = .assign r rep :=
  absurd (hp.symm.trans ha) (hne r rep)

/-- Locking changes the holder of a free lock, unlocking the holder that unlocks. -/
theorem setHolder (h : Inv s) (r : Nat) (holder : Option Nat) (misused : Bool)
    (hself : At { (s.setRoot r { s.roots r with holder := holder }).goto t q with
      misused := misused } t q)
    (hassign : ∀ r rep, s.pc t = .assign r rep → q = .assign r rep) (hmisused : misused = false)
    (hfree : ∀ t', t' ≠ t → ¬ Holds s t' r) :
    Inv { (s.setRoot r { s.roots r with holder := holder }).goto t q with misused := misused } := by
  refine h.keep (goto_pc _ t · q) hself hassign ⟨rfl, rfl, rfl, rfl, hmisused⟩
    (fun _ _ hw => hw) h.locks (fun _ _ hr => hr) ?_ ?_ ?_
  · intro t' ht' r' hr'
    have hne : r' ≠ r := fun he => hfree t' ht' (he ▸ hr')
    simpa [Holds, State.goto, State.setRoot, Function.update_apply, hne] using hr'
  · intro r'
    by_cases hr : r' = r
    · subst hr
      simp [State.goto, State.setRoot]
    · simp [State.goto, State.setRoot, hr]
  · intro r' hready
    by_cases hr : r' = r
    · subst hr
      simpa [State.goto, State.setRoot] using hready
    · simpa [State.goto, State.setRoot, Function.update_apply, hr] using hready

theorem lock (h : Inv s) {r : Nat} (hl : Locks r (s.pc t) q) (hfree : (s.roots r).holder = none) :
    Inv ((s.lock t r).goto t q) := by
  have hat := h.place t
  have hnone : ∀ t', t' ≠ t → ¬ Holds s t' r := fun t' _ hh => by cases hfree.symm.trans hh
  have hholds : ((s.lock t r).goto t q).roots r = { s.roots r with holder := some t } := by
    rw [State.lock, State.goto, setRoot_roots, if_pos rfl]
  generalize hp : s.pc t = p at hl hat
  refine h.setHolder r (some t) s.misused ?_ ?_ h.misused hnone
  · cases hl with
    | first => exact ⟨hat, congrArg Root.holder hholds⟩
    | again => exact ⟨hat.1, congrArg Root.holder hholds, (congrArg Root.ready hholds).trans hat.2⟩
  · cases hl with
    | first | again => exact no_assign hp (fun _ _ => Pc.noConfusion)

/-- A call that holds the lock does not misuse it. -/
theorem unlock_misused (h : Inv s) {r : Nat} (hholds : Holds s t r) :
    (s.misused || decide ((s.roots r).holder ≠ some t)) = false := by
  rw [h.misused, Bool.false_or]
  exact decide_eq_false (not_not_intro hholds)

theorem unlock (h : Inv s) {r : Nat} (hu : Unlocks r (s.pc t) q) :
    Inv ((s.unlock t r).goto t q) := by
  have hat := h.place t
  generalize hp : s.pc t = p at hu hat
  have hholds : Holds s t r := by
    cases hu with
    | drop => exact hat.2
    | guard rep => exact hat.2.1
  refine h.setHolder r none _ ?_ ?_ ?_ (fun t' ht' hh => ht' (holds_unique hholds hh))
  · cases hu with
    | drop => exact hat.1
    | guard rep =>
      refine ⟨r, hat.1, ?_⟩
      have hrep := hat.2.2
      simpa [HasRep, State.goto, State.setRoot] using hrep
  · cases hu with
    | drop | guard => exact no_assign hp (fun _ _ => Pc.noConfusion)
  · exact h.unlock_misused hholds

theorem ready (h : Inv s) (r : Nat) : Inv (s.setRoot r { s.roots r with ready := true }) := by
  have hpc : ∀ t', s.pc t' = if t' = 0 then s.pc 0 else s.pc t' := by
    intro t'
    by_cases ht : t' = 0 <;> simp [ht]
  have hholder : ∀ r', ((s.setRoot r { s.roots r with ready := true }).roots r').holder =
      (s.roots r').holder := by
    intro r'
    by_cases hr : r' = r <;> simp [hr]
  have hrep : ∀ r', ((s.setRoot r { s.roots r with ready := true }).roots r').theRep =
      (s.roots r').theRep := by
    intro r'
    by_cases hr : r' = r <;> simp [hr]
  have hready : ∀ r', (s.roots r').ready = true →
      ((s.setRoot r { s.roots r with ready := true }).roots r').ready = true := by
    intro r' hr'
    by_cases hr : r' = r <;> simp [hr, hr']
  have hholds : ∀ t' r', Holds s t' r' →
      Holds (s.setRoot r { s.roots r with ready := true }) t' r' :=
    fun _ r' hh => (hholder r').trans hh
  refine h.keep hpc ?_ (fun _ _ ha => ha) h.shared (fun _ _ hw => hw) h.locks (fun _ _ hr => hr)
    (fun t' _ => hholds t') hrep hready
  refine (h.place 0).mono (fun _ hr => hr) (fun hw => ⟨hw, fun he => he⟩) (fun hr => hr)
    (fun r' hh => ⟨hholds 0 r' hh, fun hn _ hc => ⟨(hrep r').trans hn, hc⟩⟩) hready
    (fun r' _ hr => (hrep r').trans hr)

/-- An entry that nobody writes has its root. -/
theorem stored_of_entry (h : Inv s) (he : s.entry ≠ none) (hw : s.writer = none) :
    ∃ r, Stored s r := by
  cases hentry : s.entry with
  | none => exact absurd hentry he
  | some v =>
    cases v with
    | none => exact absurd hw (h.locked hentry)
    | some r => exact ⟨r, hentry⟩

theorem finds (h : Inv s) (hp : s.pc t = .find) (he : s.entry ≠ none) (hw : s.writer = none) :
    Inv { s.goto t .reading with readers := t :: s.readers } :=
  h.keep (goto_pc s t · .reading) List.mem_cons_self
    (no_assign hp fun _ _ => Pc.noConfusion) h.shared (fun _ _ hw => hw)
    ⟨h.unlocked, h.locked, fun hne => absurd hw hne, fun _ => h.stored_of_entry he hw⟩
    (fun _ _ => List.mem_cons_of_mem _) (fun _ _ _ hr => hr) (fun _ => rfl) (fun _ hr => hr)

theorem stored_of_read (h : Inv s) (hp : s.pc t = .reading) : ∃ r, Stored s r :=
  h.read (List.ne_nil_of_mem (h.at_pc hp))

theorem reads (h : Inv s) {r : Nat} (hp : s.pc t = .reading) (he : s.entry = some (some r)) :
    Inv { s.goto t (.lock r) with readers := s.readers.erase t } := by
  refine h.keep (goto_pc s t · (.lock r)) he (no_assign hp fun _ _ => Pc.noConfusion) h.shared
    (fun _ _ hw => hw) ⟨h.unlocked, h.locked, fun hw => ?_, fun _ => ⟨r, he⟩⟩
    (fun t' ht' hr => (List.mem_erase_of_ne ht').mpr hr) (fun _ _ _ hr => hr) (fun _ => rfl)
    (fun _ hr => hr)
  have hnil := h.excludes hw
  have hmem : t ∈ s.readers := h.at_pc hp
  rw [hnil] at hmem
  cases hmem

theorem loses (h : Inv s) (hp : s.pc t = .insert) (he : s.entry ≠ none) (hw : s.writer = none)
    (hr : s.readers = []) : Inv { s.goto t .lostInsert with writer := some t } :=
  h.keep (goto_pc s t · .lostInsert) ⟨rfl, h.stored_of_entry he hw⟩
    (no_assign hp fun _ _ => Pc.noConfusion) h.shared (fun _ _ hw' => by cases hw.symm.trans hw')
    ⟨fun hn => absurd hn he, fun _ => Option.some_ne_none t, fun _ => hr, h.read⟩
    (fun _ _ hr => hr) (fun _ _ _ hr => hr) (fun _ => rfl) (fun _ hr => hr)

theorem releases (h : Inv s) (hp : s.pc t = .lostInsert ∨ s.pc t = .release) :
    Inv { s.goto t .find with writer := none } := by
  have hat : s.writer = some t ∧ ∃ r, Stored s r := by
    obtain hp | hp := hp
    · exact h.at_pc hp
    · exact h.at_pc hp
  obtain ⟨hw, r, hr⟩ := hat
  refine h.keep (goto_pc s t · .find) trivial ?_ h.shared
    (fun t' ht' hw' => absurd (Option.some.inj (hw'.symm.trans hw)) ht')
    ⟨fun _ => rfl, fun hn => (by cases hr.symm.trans hn), fun hn => absurd rfl hn, h.read⟩
    (fun _ _ hr => hr) (fun _ _ _ hr => hr) (fun _ => rfl) (fun _ hr => hr)
  obtain hp | hp := hp
  · exact no_assign hp fun _ _ => Pc.noConfusion
  · exact no_assign hp fun _ _ => Pc.noConfusion

theorem newRoot (h : Inv s) (hp : s.pc t = .newRoot) :
    Inv { s.goto t (.store s.nextRoot) with nextRoot := s.nextRoot + 1 } :=
  h.keep (goto_pc s t · (.store s.nextRoot)) (h.at_pc hp)
    (no_assign hp fun _ _ => Pc.noConfusion) h.shared (fun _ _ hw => hw) h.locks
    (fun _ _ hr => hr) (fun _ _ _ hr => hr) (fun _ => rfl) (fun _ hr => hr)

/-- Before a root is stored there is no representative. -/
theorem not_constructed (h : Inv s) (hn : ∀ r, ¬ Stored s r) : s.constructed = [] := by
  cases h.progress with
  | none hc => exact hc
  | constructed t r rep ht => exact absurd (h.at_pc ht).1 (hn r)
  | assigned r rep hr => exact absurd (h.rep r rep hr).1 (hn r)

theorem inserts (h : Inv s) (he : s.entry = none) :
    Inv { s.goto t .newRoot with entry := some none, writer := some t } := by
  have hnot : ∀ r, ¬ Stored s r := fun r hr => by cases he.symm.trans hr
  have hnil : s.readers = [] := by
    by_contra hne
    obtain ⟨r, hr⟩ := h.read hne
    exact hnot r hr
  refine ⟨place_goto h (goto_pc s t · .newRoot) ⟨rfl, rfl⟩ ?_, ?_, ?_, ?_, ?_, ?_, ?_, ?_,
    h.stored, h.misused⟩
  · intro t' _ hat
    refine hat.mono (fun r hr => absurd hr (hnot r)) (fun hw => ?_) (fun hr => hr)
      (fun _ hr => ⟨hr, fun hn _ hc => ⟨hn, hc⟩⟩) (fun _ hr => hr) (fun _ _ hr => hr)
    cases (h.unlocked he).symm.trans hw
  · have hstores := h.stores
    rw [he] at hstores
    exact hstores
  · intro hn
    cases hn
  · exact fun _ => Option.some_ne_none t
  · exact fun _ => hnil
  · exact fun hne => absurd hnil hne
  · exact fun r rep hr => absurd (h.rep r rep hr).1 (hnot r)
  · exact .none (h.not_constructed hnot)

theorem storesRoot (h : Inv s) {r : Nat} (hp : s.pc t = .store r) : Inv { s.goto t .release with
    entry := some (some r), stores := s.stores ++ [r] } := by
  obtain ⟨hw, he⟩ := h.at_pc hp
  have hnot : ∀ r, ¬ Stored s r := fun r hr => by cases he.symm.trans hr
  refine ⟨place_goto h (goto_pc s t · .release) ⟨hw, r, rfl⟩ ?_, ?_, ?_, ?_, h.excludes, ?_, ?_, ?_,
    h.stored, h.misused⟩
  · intro t' ht' hat
    refine hat.mono (fun r hr => absurd hr (hnot r)) (fun hw' => ?_) (fun hr => hr)
      (fun _ hr => ⟨hr, fun hn _ hc => ⟨hn, hc⟩⟩) (fun _ hr => hr) (fun _ _ hr => hr)
    exact absurd (Option.some.inj (hw'.symm.trans hw)) ht'
  · have hstores := h.stores
    rw [he] at hstores
    exact congrArg (· ++ [r]) hstores
  · intro hn
    cases hn
  · intro hn
    cases hn
  · exact fun _ => ⟨r, rfl⟩
  · exact fun r rep hr => absurd (h.rep r rep hr).1 (hnot r)
  · exact .none (h.not_constructed hnot)

theorem constructs (h : Inv s) {r : Nat} (hp : s.pc t = .recheck r)
    (hn : (s.roots r).theRep = none) : Inv { s.goto t (.assign r s.nextRep) with
      nextRep := s.nextRep + 1
      constructed := s.constructed ++ [⟨r, s.nextRep, (s.roots r).ready⟩] } := by
  obtain ⟨hstored, hholds, hready⟩ := h.at_pc hp
  have hnil : s.constructed = [] := by
    cases h.progress with
    | none hc => exact hc
    | constructed t' r' rep ht' =>
      obtain ⟨hstored', hholds', -⟩ := h.at_pc ht'
      obtain rfl := stored_unique hstored hstored'
      obtain rfl := holds_unique hholds hholds'
      cases hp.symm.trans ht'
    | assigned r' rep hr =>
      obtain rfl := stored_unique hstored (h.rep r' rep hr).1
      cases hn.symm.trans hr
  have hone : s.constructed ++ [⟨r, s.nextRep, (s.roots r).ready⟩] = [⟨r, s.nextRep, true⟩] := by
    rw [hnil, hready, List.nil_append]
  refine ⟨place_goto h (goto_pc s t · (.assign r s.nextRep)) ⟨hstored, hholds, hn, hone⟩ ?_,
    h.stores, h.unlocked, h.locked, h.excludes, h.read, ?_, ?_, h.stored, h.misused⟩
  · intro t' _ hat
    refine hat.mono (fun _ hr => hr) (fun hw => ⟨hw, fun he => he⟩) (fun hr => hr)
      (fun _ hr => ⟨hr, fun _ _ hc => ?_⟩) (fun _ hr => hr) (fun _ _ hr => hr)
    cases hnil.symm.trans hc
  · intro r' rep hr
    cases hnil.symm.trans (h.rep r' rep hr).2
  · refine .constructed t r s.nextRep ?_
    exact (goto_pc s t t _).trans (if_pos rfl)

theorem assigns (h : Inv s) {r rep : Nat} (hp : s.pc t = .assign r rep) :
    Inv ((s.setRoot r { s.roots r with theRep := some rep }).goto t (.leave r rep)) := by
  obtain ⟨hstored, hholds, hn, hone⟩ := h.at_pc hp
  have hself : ((s.setRoot r { s.roots r with theRep := some rep }).goto t (.leave r rep)).roots r =
      { s.roots r with theRep := some rep } := by
    rw [State.goto, setRoot_roots, if_pos rfl]
  have hother : ∀ r', r' ≠ r →
      ((s.setRoot r { s.roots r with theRep := some rep }).goto t (.leave r rep)).roots r' =
        s.roots r' := by
    intro r' hne
    rw [State.goto, setRoot_roots, if_neg hne]
  refine ⟨place_goto h (goto_pc _ t · (.leave r rep)) ?_ ?_, h.stores, h.unlocked, h.locked,
    h.excludes, h.read, ?_, .assigned r rep (congrArg Root.theRep hself), h.stored, h.misused⟩
  · exact ⟨hstored, (congrArg Root.holder hself).trans hholds, congrArg Root.theRep hself⟩
  · intro t' ht' hat
    refine hat.mono (fun _ hr => hr) (fun hw => ⟨hw, fun he => he⟩) (fun hr => hr) ?_ ?_ ?_
    · intro r' hr'
      have hne : r' ≠ r := by
        rintro rfl
        exact ht' (holds_unique hholds hr')
      rw [Holds, hother r' hne]
      exact ⟨hr', fun hn _ hc => ⟨hn, hc⟩⟩
    · intro r' hready
      by_cases hne : r' = r
      · rw [hne, hself]
        exact hne ▸ hready
      · rwa [hother r' hne]
    · intro r' rep' hr
      have hne : r' ≠ r := by
        rintro rfl
        cases hn.symm.trans hr
      rwa [HasRep, hother r' hne]
  · intro r' rep' hr
    by_cases hne : r' = r
    · rw [hne] at hr ⊢
      obtain rfl := Option.some.inj ((congrArg Root.theRep hself).symm.trans hr)
      exact ⟨hstored, hone⟩
    · rw [HasRep, hother r' hne] at hr
      exact h.rep r' rep' hr

theorem step (h : Inv s) (hg : NoThrow e) (hs : Step s e u) : Inv u := by
  cases hs with
  | moves t q hm => exact h.moves hm
  | locks t r q hl hfree => exact h.lock hl hfree
  | unlocks t r q hu => exact h.unlock hu
  | finds t hp he hw => exact h.finds hp he hw
  | inserts t hp he => exact h.inserts he
  | loses t hp he hw hr => exact h.loses hp he hw hr
  | releases t hp => exact h.releases hp
  | newRoot t hp => exact h.newRoot hp
  | stores t r hp => exact h.storesRoot hp
  | reads t r hp he => exact h.reads hp he
  | misreads t hp hn =>
    obtain ⟨r, hr⟩ := h.stored_of_read hp
    exact absurd hr (hn r)
  | constructs t r hp hn => exact h.constructs hp hn
  | assigns t r rep hp => exact h.assigns hp
  | ready r => exact h.ready r
  | raisesWaiting | raisesConstructing => exact hg.elim

theorem oneRep (h : Inv s) : OneRep s := by
  have hone : s.constructed = [] ∨ ∃ r rep, s.constructed = [⟨r, rep, true⟩] := by
    cases h.progress with
    | none hc => exact .inl hc
    | constructed t r rep ht => exact .inr ⟨r, rep, (h.at_pc ht).2.2.2⟩
    | assigned r rep hr => exact .inr ⟨r, rep, (h.rep r rep hr).2⟩
  refine ⟨?_, ?_, ?_, ?_, h.stored⟩
  · rw [h.stores]
    split <;> simp
  · obtain hc | ⟨r, rep, hc⟩ := hone <;> simp [hc]
  · obtain hc | ⟨r, rep, hc⟩ := hone <;> simp [hc]
  · intro t rep ht
    obtain ⟨r, -, hr⟩ := h.at_pc ht
    exact ⟨r, (h.rep r rep hr).2⟩

end Inv

/-- One root and one representative, in every run of any number of calls without exceptions. -/
theorem oneRep_of_reaches (h : Reaches step (fun _ e => NoThrow e) .init s) : OneRep s :=
  (h.invariant Inv.init fun _ _ _ hi hg hs => hi.step hg (step_cases hs)).oneRep

instance (e : Event) : Decidable (NoThrow e) :=
  match e with
  | .raise _ => inferInstanceAs (Decidable False)
  | .run _ | .ready _ => inferInstanceAs (Decidable True)

/-- Call 0 inserts the entry while call 1 loses the race, both wait for the data, and call 1
is the first to lock again. -/
def race : List Event :=
  [.run 0, .run 1, .run 0, .run 1, .run 0, .run 0, .run 0, .run 0, .run 1, .run 1, .run 1, .run 1,
    .run 1, .run 1, .run 1, .run 0, .run 0, .run 0, .run 0, .run 0, .ready 0, .run 0, .run 1,
    .run 1, .run 1, .run 1, .run 1, .run 0, .run 0, .run 0]

theorem race_runs : (run (guarded step fun _ e => NoThrow e) .init race).isSome := by decide

theorem race_oneRep :
    OneRep ((run (guarded step fun _ e => NoThrow e) .init race).get race_runs) ∧
      ((run (guarded step fun _ e => NoThrow e) .init race).get race_runs).pc 0 = .done 0 ∧
      ((run (guarded step fun _ e => NoThrow e) .init race).get race_runs).pc 1 = .done 0 :=
  ⟨oneRep_of_reaches (reaches_get race_runs), by decide, by decide⟩

end EbbrtContrib.OneRepresentative
