import EbbrtContrib.StreamOwners

namespace EbbrtContrib.StreamProgress

open InputStream Runs StreamOwners

variable {src : Source} {s t : State}

/-- The consumer of the current session has been told the end of the stream. -/
def Ended (s : State) : Prop := ∃ c ∈ s.calls, c.consumer = s.session ∧ c.data = none

/-- A started stream whose consumer still waits. -/
def Waiting (s : State) : Prop := s.doRead = true ∧ ¬ Ended s

/-- The disposal of a chunk of `n` bytes begins a read or tells the end of the stream. -/
def Continues (src : Source) (s : State) (n : Size) : Prop := src.sd = true ∨ s.count + n ≤ src.len

/-- While the consumer waits there is something that will call it. -/
def NeverStalls (src : Source) (s : State) : Prop :=
  Waiting s → s.pending ≠ [] ∨ s.spawned ≠ [] ∨ ∃ c ∈ s.chunks, Continues src s c.size

instance (s : State) : Decidable (Ended s) :=
  inferInstanceAs (Decidable (∃ c ∈ s.calls, c.consumer = s.session ∧ c.data = none))

instance (s : State) : Decidable (Waiting s) := inferInstanceAs (Decidable (_ ∧ _))

instance (src : Source) (s : State) (n : Size) : Decidable (Continues src s n) :=
  inferInstanceAs (Decidable (_ ∨ _))

/-- The handler takes neither the branch of an empty read nor that of a failed
`io_control`. -/
def Delivers (readable : Option Size) : Option Pending → Prop
  | some ⟨_, some (.data size)⟩ => size ≠ 0 ∧ readable.isSome = true
  | _ => True

instance (readable : Option Size) : (p : Option Pending) → Decidable (Delivers readable p)
  | some ⟨_, some (.data size)⟩ => inferInstanceAs (Decidable (size ≠ 0 ∧ _))
  | some ⟨_, some .error⟩ => inferInstanceAs (Decidable True)
  | some ⟨_, none⟩ => inferInstanceAs (Decidable True)
  | none => inferInstanceAs (Decidable True)

/-- A file is only started before its end, and while the consumer waits no handler drops a
read and no read of a file leads beyond the length recorded by `Create`. -/
def NotDropped (src : Source) (s : State) : Event → Prop
  | .start => s.doRead = true ∨ src.sd = true ∨ s.count < src.len
  | .handle i readable => Waiting s → Delivers readable s.pending[i]?
  | .run _ n => Waiting s → Continues src s n
  | .dispose i => Waiting s → ∀ c ∈ s.chunks[i]?, Continues src s c.size
  | _ => True

instance (src : Source) (s : State) : (e : Event) → Decidable (NotDropped src s e)
  | .start => inferInstanceAs (Decidable (_ ∨ _))
  | .stop => inferInstanceAs (Decidable True)
  | .complete _ _ => inferInstanceAs (Decidable True)
  | .handle i readable =>
    inferInstanceAs (Decidable (Waiting s → Delivers readable s.pending[i]?))
  | .run _ n => inferInstanceAs (Decidable (Waiting s → Continues src s n))
  | .dispose i =>
    inferInstanceAs (Decidable (Waiting s → ∀ c ∈ s.chunks[i]?, Continues src s c.size))

theorem ended_consumer (s : State) (origin : Nat) (avail : Size) :
    Ended (consumer s origin none avail) := by
  refine ⟨⟨s.session, origin, none, avail, s.doRead⟩, ?_, rfl, rfl⟩
  exact List.mem_append_right _ (List.mem_singleton_self _)

/-- Further calls of the same session do not take its end back. -/
theorem waiting_of_append {l : List Call} (h : Waiting t) (hdoRead : t.doRead = s.doRead)
    (hsession : t.session = s.session) (hcalls : t.calls = s.calls ++ l) : Waiting s := by
  refine ⟨hdoRead ▸ h.1, ?_⟩
  rintro ⟨c, hc, hconsumer, hdata⟩
  apply h.2
  refine ⟨c, ?_, hconsumer.trans hsession.symm, hdata⟩
  rw [hcalls]
  exact List.mem_append_left _ hc

theorem asyncReadSome_arms (hd : s.doRead = true) (hr : src.sd = true ∨ s.count < src.len) :
    (asyncReadSome src s).pending ≠ [] ∨ (asyncReadSome src s).spawned ≠ [] := by
  obtain ⟨-, hidle⟩ | ⟨he, -⟩ | ⟨he, -⟩ := asyncReadSome_cases src s
  · exact absurd hr (hidle hd)
  · rw [he]
    exact .inl (by simp)
  · rw [he]
    exact .inr (by simp)

theorem waiting_asyncReadSome (h : Waiting (asyncReadSome src s)) : Waiting s := by
  obtain ⟨hdoRead, hsession, hcalls⟩ := asyncReadSome_keeps src s
  exact waiting_of_append (l := []) h hdoRead hsession (by rw [hcalls, List.append_nil])

theorem NeverStalls.of_armed (src : Source) (h : s.pending ≠ [] ∨ s.spawned ≠ []) :
    NeverStalls src s := by
  intro _
  obtain h | h := h
  · exact .inl h
  · exact .inr (.inl h)

/-- The disposal of a chunk that continues the stream does so. -/
theorem neverStalls_disposal {c : Chunk} (hc : Waiting s → Continues src s c.size) :
    NeverStalls src (disposal src s c) := by
  intro hw
  obtain ⟨he, hquiet⟩ | ⟨he, -⟩ := disposal_cases src s c
  · rw [he] at hw ⊢
    have hws : Waiting s := waiting_asyncReadSome (s := { s with count := s.count + c.size }) hw
    have hr : src.sd = true ∨ s.count + c.size < src.len := by
      obtain hsd | hle := hc hws
      · exact .inl hsd
      · obtain hsd | hne := hquiet
        · exact .inl hsd
        · exact .inr (BitVec.lt_of_le_ne hle hne)
    have harm := asyncReadSome_arms (s := { s with count := s.count + c.size }) hws.1 hr
    exact NeverStalls.of_armed src harm hw
  · rw [he] at hw
    exact absurd (ended_consumer _ _ _) hw.2

/-- Reads are pending only on a descriptor. -/
structure Inv (src : Source) (s : State) : Prop where
  stalls : NeverStalls src s
  pending : s.pending ≠ [] → src.sd = true

theorem pending_asyncReadSome (h : s.pending ≠ [] → src.sd = true) :
    (asyncReadSome src s).pending ≠ [] → src.sd = true := by
  obtain ⟨he, -⟩ | ⟨-, -, hsd⟩ | ⟨he, -⟩ := asyncReadSome_cases src s
  · rwa [he]
  · exact fun _ => hsd
  · rw [he]
    exact h

theorem pending_disposal {c : Chunk} (h : s.pending ≠ [] → src.sd = true) :
    (disposal src s c).pending ≠ [] → src.sd = true := by
  obtain ⟨he, -⟩ | ⟨he, -⟩ := disposal_cases src s c
  · rw [he]
    exact pending_asyncReadSome h
  · rw [he]
    exact h

namespace Inv

theorem init : Inv src .init where
  stalls := fun hw => absurd hw.1 (by decide)
  pending := fun h => absurd rfl h

theorem start (h : Inv src s) (hg : s.doRead = true ∨ src.sd = true ∨ s.count < src.len) :
    Inv src (asyncReadStart src s) := by
  obtain ⟨he, -⟩ | ⟨he, hd⟩ := asyncReadStart_cases src s
  · rwa [he]
  · have hr : src.sd = true ∨ s.count < src.len := hg.resolve_left (by simp [hd])
    have harm :=
      asyncReadSome_arms (s := { s with doRead := true, session := s.session + 1 }) rfl hr
    rw [he]
    exact ⟨.of_armed src harm, pending_asyncReadSome h.pending⟩

theorem stop (h : Inv src s) : Inv src (asyncReadStop src s) := by
  obtain ⟨he, -⟩ | ⟨he, -⟩ := asyncReadStop_cases src s
  · rwa [he]
  · rw [he]
    constructor
    · exact fun hw => absurd hw.1 (by simp)
    · intro hne
      apply h.pending
      split at hne
      · simpa using hne
      · exact hne

theorem complete (h : Inv src s) {i session : Nat} {r : Completion}
    (hp : s.pending[i]? = some ⟨session, none⟩) :
    Inv src { s with pending := s.pending.set i ⟨session, some r⟩ } := by
  have hne : s.pending ≠ [] := List.ne_nil_of_mem (List.mem_of_getElem? hp)
  constructor
  · apply NeverStalls.of_armed src
    left
    simpa using hne
  · exact fun _ => h.pending hne

theorem handle (h : Inv src s) {i session : Nat} {r : Completion} {readable : Option Size}
    (hp : s.pending[i]? = some ⟨session, some r⟩)
    (hg : Waiting s → Delivers readable s.pending[i]?) :
    Inv src (handler { s with pending := s.pending.eraseIdx i } session r readable) := by
  have hsd : src.sd = true := h.pending (List.ne_nil_of_mem (List.mem_of_getElem? hp))
  refine ⟨?_, fun _ => hsd⟩
  intro hw
  cases r with
  | error => exact absurd (ended_consumer _ _ _) hw.2
  | data size =>
    rw [hp] at hg
    simp only [handler] at hw ⊢
    by_cases hz : size = 0
    · rw [if_pos hz] at hw
      have hws : Waiting s := hw
      exact absurd hz (hg hws).1
    · rw [if_neg hz] at hw ⊢
      cases readable with
      | none =>
        have hws : Waiting s := hw
        exact absurd (hg hws).2 (by simp)
      | some avail =>
        right
        right
        exact ⟨⟨session, size⟩, List.mem_append_right _ (List.mem_singleton_self _), .inl hsd⟩

theorem run (h : Inv src s) {i session : Nat} {n : Size}
    (hg : Waiting s → Continues src s n) :
    Inv src (readFile src { s with spawned := s.spawned.eraseIdx i } session n) := by
  rw [readFile]
  split
  · exact ⟨neverStalls_disposal hg, pending_disposal h.pending⟩
  · refine ⟨?_, h.pending⟩
    intro hw
    have hws : Waiting s := waiting_of_append hw rfl rfl rfl
    right
    right
    exact ⟨⟨session, n⟩, List.mem_append_right _ (List.mem_singleton_self _), hg hws⟩

theorem dispose (h : Inv src s) {i : Nat} {c : Chunk}
    (hg : Waiting s → Continues src s c.size) :
    Inv src (disposal src { s with chunks := s.chunks.eraseIdx i } c) :=
  ⟨neverStalls_disposal hg, pending_disposal h.pending⟩

theorem step (h : Inv src s) {e : Event} (hg : NotDropped src s e) (hs : Step src s e t) :
    Inv src t := by
  cases hs with
  | start => exact h.start hg
  | stop => exact h.stop
  | complete i session r hp hr => exact h.complete hp
  | handle i session r readable hp => exact h.handle hp hg
  | run i session n hp hn => exact h.run hg
  | dispose i c hp => exact h.dispose fun hw => hg hw c (by rw [hp]; rfl)

end Inv

/-- In every run in which no branch drops a read silently a started stream has something
outstanding until its consumer is told the end. -/
theorem neverStalls_of_reaches (h : Reaches (step src) (NotDropped src) .init s) :
    NeverStalls src s := by
  have hinv : Inv src s :=
    h.invariant Inv.init fun _ _ _ hi hg hs => hi.step hg (step_cases hs)
  exact hinv.stalls

theorem stalled (hw : Waiting t) (hzero : outstanding t = 0) : ¬ NeverStalls src t := by
  intro h
  obtain ⟨hpending, hspawned, hchunks⟩ := nothing_outstanding hzero
  obtain h | h | ⟨c, hc, -⟩ := h hw
  · exact h hpending
  · exact h hspawned
  · rw [hchunks] at hc
    cases hc

theorem disposal_silent {c : Chunk} (h : ¬ Continues src s c.size) :
    disposal src s c = { s with count := s.count + c.size } := by
  obtain ⟨hsd, hlt⟩ := not_or.mp h
  have hne : s.count + c.size ≠ src.len := fun he => hlt (he ▸ BitVec.le_refl _)
  have hnlt : ¬ s.count + c.size < src.len := fun hl => hlt (BitVec.le_of_lt hl)
  rw [disposal, if_neg hsd, if_neg hne, asyncReadSome]
  simp only [if_neg hsd, if_neg hnlt, ite_self]

/-- A disposal that does not continue the stream leaves nothing behind. -/
theorem disposal_stalls {c : Chunk} (hw : Waiting s) (hzero : outstanding s = 0)
    (hc : ¬ Continues src s c.size) : ¬ NeverStalls src (disposal src s c) := by
  rw [disposal_silent hc]
  exact stalled hw hzero

theorem start_stalls (h : Reachable (step src) .init s) (hzero : outstanding s = 0)
    (hg : ¬ NotDropped src s .start) : ¬ NeverStalls src (asyncReadStart src s) := by
  simp only [NotDropped, not_or] at hg
  obtain ⟨hd, hsd, hlt⟩ := hg
  have ht : asyncReadStart src s = { s with doRead := true, session := s.session + 1 } := by
    rw [asyncReadStart, if_neg hd, asyncReadSome, if_neg (by simp), if_neg hsd, if_neg hlt]
  rw [ht]
  apply stalled (t := { s with doRead := true, session := s.session + 1 }) ⟨rfl, _⟩ hzero
  rintro ⟨c, hc, hconsumer, -⟩
  have hle := consumer_le h c hc
  rw [hconsumer] at hle
  exact absurd hle (Nat.not_succ_le_self _)

theorem handler_stalls {session : Nat} {r : Completion} {readable : Option Size}
    (hw : Waiting s) (hzero : outstanding s = 0)
    (hd : ¬ Delivers readable (some ⟨session, some r⟩)) :
    ¬ NeverStalls src (handler s session r readable) := by
  cases r with
  | error => exact absurd trivial hd
  | data size =>
    have ht : handler s session (.data size) readable = s := by
      simp only [handler]
      split
      · rfl
      · rename_i hz
        cases readable with
        | none => rfl
        | some avail => exact absurd ⟨hz, rfl⟩ hd
    rw [ht]
    exact stalled hw hzero

theorem readFile_stalls {session : Nat} {n : Size} (hw : Waiting s) (hzero : outstanding s = 0)
    (hd : ¬ Continues src s n) : ¬ NeverStalls src (readFile src s session n) := by
  rw [readFile]
  split
  · exact disposal_stalls hw hzero hd
  · obtain ⟨hpending, hspawned, hchunks⟩ := nothing_outstanding hzero
    have hwaits : ¬ Ended (consumer { s with chunks := s.chunks ++ [⟨session, n⟩] } session
        (some n) (src.len - (s.count + n))) := by
      rintro ⟨c, hc, hconsumer, hdata⟩
      obtain hc | hc := List.mem_append.mp hc
      · exact hw.2 ⟨c, hc, hconsumer, hdata⟩
      · rw [List.mem_singleton.mp hc] at hdata
        cases hdata
    intro h
    obtain h | h | ⟨c, hc, hcont⟩ := h ⟨hw.1, hwaits⟩
    · exact h hpending
    · exact h hspawned
    · have hmem : c ∈ s.chunks ++ [⟨session, n⟩] := hc
      rw [hchunks, List.nil_append, List.mem_singleton] at hmem
      rw [hmem] at hcont
      exact hd hcont

/-- Where nothing else is outstanding every other step leaves the consumer waiting. -/
theorem dropped_stalls {e : Event} (h : Reachable (step src) .init s) (hone : outstanding s ≤ 1)
    (hfresh : e = .start → outstanding s = 0) (hg : ¬ NotDropped src s e)
    (hs : step src s e = some t) : ¬ NeverStalls src t := by
  unfold outstanding at hone
  cases step_cases hs with
  | start => exact start_stalls h (hfresh rfl) hg
  | stop => exact absurd trivial hg
  | complete => exact absurd trivial hg
  | handle i session r readable hp =>
    rw [NotDropped, hp, Classical.not_imp] at hg
    have herase := length_eraseIdx hp
    exact handler_stalls (s := { s with pending := s.pending.eraseIdx i }) hg.1
      (by simp only [outstanding]; omega) hg.2
  | run i session n hp hn =>
    rw [NotDropped, Classical.not_imp] at hg
    have herase := length_eraseIdx hp
    exact readFile_stalls (s := { s with spawned := s.spawned.eraseIdx i }) hg.1
      (by simp only [outstanding]; omega) hg.2
  | dispose i c hp =>
    rw [NotDropped, Classical.not_imp, hp] at hg
    have herase := length_eraseIdx hp
    apply disposal_stalls (s := { s with chunks := s.chunks.eraseIdx i }) hg.1
    · simp only [outstanding]
      omega
    · intro hcont
      apply hg.2
      rintro c' ⟨⟩
      exact hcont

/-- A file of ten bytes, read in one go and stopped by its consumer at the end. -/
def wholeFile : List Event := [.start, .run 0 10, .dispose 0, .stop]

def emptyFile : Source := ⟨false, 0⟩

theorem wholeFile_runs :
    (Runs.run (guarded (step ⟨false, 10⟩) (NotDropped ⟨false, 10⟩)) .init wholeFile).isSome := by
  decide

theorem wholeFile_neverStalls : NeverStalls ⟨false, 10⟩
    ((Runs.run (guarded (step ⟨false, 10⟩) (NotDropped ⟨false, 10⟩)) .init wholeFile).get
      wholeFile_runs) :=
  neverStalls_of_reaches (reaches_get wholeFile_runs)

/-- An empty file is started and nothing ever happens. -/
theorem emptyFile_stalls : Source.new .file 0 = some emptyFile ∧
    (∃ s, Runs.run (step emptyFile) .init [.start] = some s ∧ Waiting s ∧ s.pending = [] ∧
      s.spawned = [] ∧ s.chunks = []) ∧
    ¬ ∀ src s, Reachable (step src) .init s → NeverStalls src s := by
  refine ⟨rfl, ⟨_, rfl, by decide, rfl, rfl, rfl⟩, ?_⟩
  intro hall
  have hreach : Reachable (step emptyFile) .init (asyncReadStart emptyFile .init) :=
    reachable_of_run (l := [.start]) rfl
  obtain hn | hn | ⟨c, hc, -⟩ := hall emptyFile _ hreach (by decide)
  · exact hn rfl
  · exact hn rfl
  · cases hc

end EbbrtContrib.StreamProgress
