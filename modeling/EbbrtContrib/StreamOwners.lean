import Mathlib.Data.List.Perm.Basic
import EbbrtContrib.InputStream

namespace EbbrtContrib.StreamOwners

open InputStream Runs

variable {α : Type*} {src : Source} {s t : State}

theorem countP_eraseIdx {p : α → Bool} {l : List α} {i : Nat} {a : α} (h : l[i]? = some a) :
    (l.eraseIdx i).countP p + (if p a then 1 else 0) = l.countP p := by
  obtain ⟨hi, ha⟩ := List.getElem?_eq_some_iff.mp h
  rw [← (List.getElem_cons_eraseIdx_perm hi).countP_eq p, List.countP_cons, ha]

theorem length_eraseIdx {l : List α} {i : Nat} {a : α} (h : l[i]? = some a) :
    (l.eraseIdx i).length + 1 = l.length := by
  obtain ⟨hi, -⟩ := List.getElem?_eq_some_iff.mp h
  rw [List.length_eraseIdx_of_lt hi]
  omega

/-- A read whose handler has not run yet, unless it was cancelled or failed. -/
def Pending.owns (p : Pending) : Bool := p.result != some .error

/-- The asio reads, spawned reads and chunks that use `buffer_`. -/
def owners (s : State) : Nat := s.pending.countP Pending.owns + s.spawned.length + s.chunks.length

/-- The number of reads and chunks that are still to come back. -/
def outstanding (s : State) : Nat := s.pending.length + s.spawned.length + s.chunks.length

theorem nothing_outstanding (h : outstanding s = 0) :
    s.pending = [] ∧ s.spawned = [] ∧ s.chunks = [] := by
  unfold outstanding at h
  refine ⟨?_, ?_, ?_⟩
  all_goals
    apply List.length_eq_zero_iff.mp
    omega

/-- The steps in which `buffer_` is written. -/
def Writes : Event → Prop
  | .complete _ (.data _) | .run _ _ => True
  | _ => False

/-- At most one owner, and no write to `buffer_` under a live chunk. -/
def SoleOwner (src : Source) (s : State) : Prop :=
  owners s ≤ 1 ∧ ∀ e t, step src s e = some t → Writes e → s.chunks = []

/-- A start that begins a read finds nothing left over. -/
def FreshStart (src : Source) (s : State) : Event → Prop
  | .start => s.doRead = false → (src.sd = true ∨ s.count < src.len) → owners s = 0
  | _ => True

instance (src : Source) (s : State) : (e : Event) → Decidable (FreshStart src s e)
  | .start => inferInstanceAs (Decidable (_ → _ → _))
  | .stop => inferInstanceAs (Decidable True)
  | .complete _ _ => inferInstanceAs (Decidable True)
  | .handle _ _ => inferInstanceAs (Decidable True)
  | .run _ _ => inferInstanceAs (Decidable True)
  | .dispose _ => inferInstanceAs (Decidable True)

theorem owners_asyncReadSome (s : State) : owners (asyncReadSome src s) =
    owners s + if s.doRead = true ∧ (src.sd = true ∨ s.count < src.len) then 1 else 0 := by
  obtain ⟨he, hidle⟩ | ⟨he, hd, hsd⟩ | ⟨he, hd, hlt⟩ := asyncReadSome_cases src s
  · rw [he, if_neg fun h => hidle h.1 h.2, Nat.add_zero]
  · rw [he, if_pos ⟨hd, .inl hsd⟩, owners, owners, List.countP_append]
    have hone : [(⟨s.session, none⟩ : Pending)].countP Pending.owns = 1 := rfl
    dsimp only
    omega
  · rw [he, if_pos ⟨hd, .inr hlt⟩, owners, owners, List.length_append, List.length_singleton]
    dsimp only
    omega

theorem owners_asyncReadSome_le (s : State) : owners (asyncReadSome src s) ≤ owners s + 1 := by
  rw [owners_asyncReadSome]
  split <;> omega

theorem owners_stop (s : State) : owners (asyncReadStop src s) ≤ owners s := by
  obtain ⟨he, -⟩ | ⟨he, -⟩ := asyncReadStop_cases src s
  · exact (congrArg owners he).le
  · have hcancel : (s.pending.map Pending.cancel).countP Pending.owns ≤
        s.pending.countP Pending.owns := by
      rw [List.countP_map]
      apply List.countP_mono_left
      intro p _ hp
      cases hr : p.result with
      | none => simp [Pending.owns, hr]
      | some r => simpa [Pending.cancel, Pending.owns, hr] using hp
    rw [he]
    simp only [owners]
    split <;> omega

theorem owners_disposal (src : Source) (s : State) (c : Chunk) :
    owners (disposal src s c) ≤ owners s + 1 := by
  obtain ⟨he, -⟩ | ⟨he, -⟩ := disposal_cases src s c
  · rw [he]
    exact owners_asyncReadSome_le _
  · rw [he]
    exact Nat.le_succ _

theorem owners_handler (s : State) (session : Nat) (r : Completion) (readable : Option Size) :
    owners (handler s session r readable) ≤ owners s + if r = .error then 0 else 1 := by
  cases r with
  | error => exact le_rfl
  | data size =>
    simp only [handler]
    split
    · exact Nat.le_succ _
    · cases readable with
      | none => exact Nat.le_succ _
      | some avail =>
        simp only [owners, consumer, List.length_append, List.length_singleton]
        simp
        omega

theorem owners_readFile (src : Source) (s : State) (session : Nat) (n : Size) :
    owners (readFile src s session n) ≤ owners s + 1 := by
  rw [readFile]
  split
  · exact owners_disposal src s _
  · simp only [owners, consumer, List.length_append, List.length_singleton]
    omega

/-- Only a start can add an owner. -/
theorem owners_step {e : Event} (hs : Step src s e t) (hg : FreshStart src s e)
    (h : owners s ≤ 1) : owners t ≤ 1 := by
  cases hs with
  | start =>
    obtain ⟨he, -⟩ | ⟨he, hd⟩ := asyncReadStart_cases src s
    · rwa [he]
    · rw [he, owners_asyncReadSome]
      split
      · rename_i hr
        have hzero : owners s = 0 := hg hd hr.2
        show owners s + 1 ≤ 1
        omega
      · exact h
  | stop => exact (owners_stop s).trans h
  | complete i session r hp hr =>
    obtain ⟨hi, hpi⟩ := List.getElem?_eq_some_iff.mp hp
    have hset := List.countP_set (p := Pending.owns) (a := ⟨session, some r⟩) hi
    have hmem : 0 < s.pending.countP Pending.owns := by
      rw [List.countP_pos_iff]
      exact ⟨_, List.getElem_mem hi, by simp [hpi, Pending.owns]⟩
    have hself : Pending.owns s.pending[i] = true := by simp [hpi, Pending.owns]
    have hone : (if Pending.owns ⟨session, some r⟩ = true then 1 else 0) ≤ 1 := by
      split <;> omega
    simp only [owners] at h ⊢
    rw [hset, if_pos hself]
    omega
  | handle i session r readable hp =>
    have herase := countP_eraseIdx (p := Pending.owns) hp
    have hle := owners_handler { s with pending := s.pending.eraseIdx i } session r readable
    cases r with
    | error =>
      simp only [owners, if_true] at h hle ⊢
      omega
    | data size =>
      simp only [owners, Pending.owns] at h hle herase ⊢
      simp at hle herase
      omega
  | run i session n hp hn =>
    have herase := length_eraseIdx hp
    have hle := owners_readFile src { s with spawned := s.spawned.eraseIdx i } session n
    simp only [owners] at h hle ⊢
    omega
  | dispose i c hp =>
    have herase := length_eraseIdx hp
    have hle := owners_disposal src { s with chunks := s.chunks.eraseIdx i } c
    simp only [owners] at h hle ⊢
    omega

/-- With a single owner nothing is written under a chunk: a chunk would be a second one. -/
theorem sole_of_owners (h : owners s ≤ 1) : SoleOwner src s := by
  refine ⟨h, ?_⟩
  intro e t hstep hw
  unfold owners at h
  cases step_cases hstep with
  | start => exact hw.elim
  | stop => exact hw.elim
  | handle => exact hw.elim
  | dispose => exact hw.elim
  | complete i session r hp hr =>
    have hpos : 0 < s.pending.countP Pending.owns := by
      rw [List.countP_pos_iff]
      exact ⟨_, List.mem_of_getElem? hp, rfl⟩
    exact List.length_eq_zero_iff.mp (by omega)
  | run i session n hp hn =>
    have hpos := List.length_pos_of_mem (List.mem_of_getElem? hp)
    exact List.length_eq_zero_iff.mp (by omega)

/-- In every run in which the stream is only started with nothing left over there is at most
one owner of the buffer. -/
theorem sole_of_reaches (h : Reaches (step src) (FreshStart src) .init s) : SoleOwner src s := by
  apply sole_of_owners
  apply h.invariant (I := fun s => owners s ≤ 1) (Nat.zero_le 1)
  intro s e t hle hg hs
  exact owners_step (step_cases hs) hg hle

/-- Any other start adds a second owner at once. -/
theorem start_adds_owner {e : Event} (hg : ¬ FreshStart src s e) (hs : step src s e = some t) :
    2 ≤ owners t := by
  cases e with
  | start =>
    simp only [FreshStart, Classical.not_imp] at hg
    obtain ⟨hd, hr, hne⟩ := hg
    cases hs
    rw [asyncReadStart, if_neg (by simp [hd]), owners_asyncReadSome, if_pos ⟨rfl, hr⟩]
    show 2 ≤ owners s + 1
    omega
  | _ => exact absurd trivial hg

/-- A chunk of a pipe is disposed before the stream is started again. -/
def paused : List Event :=
  [.start, .complete 0 (.data 5), .handle 0 (some 0), .stop, .dispose 0, .start]

/-- The stream is stopped and started again while the chunk is still in use. -/
def restarted : List Event :=
  [.start, .complete 0 (.data 5), .handle 0 (some 0), .stop, .start]

def pipe : Source := ⟨true, 0⟩

theorem paused_runs : (run (guarded (step pipe) (FreshStart pipe)) .init paused).isSome := by
  decide

theorem paused_sole :
    SoleOwner pipe ((run (guarded (step pipe) (FreshStart pipe)) .init paused).get paused_runs) :=
  sole_of_reaches (reaches_get paused_runs)

theorem restarted_runs : (run (step pipe) .init restarted).isSome := by decide

theorem restarted_two_owners : Source.new .pipe 0 = some pipe ∧
    owners ((run (step pipe) .init restarted).get restarted_runs) = 2 ∧
    ¬ ∀ src s, Reachable (step src) .init s → SoleOwner src s := by
  have htwo : owners ((run (step pipe) .init restarted).get restarted_runs) = 2 := by decide
  refine ⟨rfl, htwo, ?_⟩
  intro hall
  have hsole := (hall pipe _ (reachable_of_run (Option.some_get restarted_runs).symm)).1
  rw [htwo] at hsole
  exact absurd hsole (by decide)

end EbbrtContrib.StreamOwners
