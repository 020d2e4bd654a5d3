import EbbrtContrib.StreamProgress

namespace EbbrtContrib.StreamSessions

open InputStream Runs StreamOwners StreamProgress

variable {src : Source} {s t : State}

/-- Every call is made while its consumer's session goes on, by a read of that session, and
none follows the end of the stream. -/
structure OwnSession (calls : List Call) : Prop where
  own : ∀ c ∈ calls, c.active = true ∧ c.origin = c.consumer
  last : calls.Pairwise fun a b => a.data = none → b.consumer ≠ a.consumer

theorem OwnSession.snoc {calls : List Call} {c : Call} (h : OwnSession calls)
    (hown : c.active = true ∧ c.origin = c.consumer)
    (hlast : ∀ a ∈ calls, a.data = none → c.consumer ≠ a.consumer) : OwnSession (calls ++ [c]) := by
  constructor
  · intro c' hc'
    obtain hc' | hc' := List.mem_append.mp hc'
    · exact h.own c' hc'
    · rw [List.mem_singleton.mp hc']
      exact hown
  · rw [List.pairwise_append]
    refine ⟨h.last, List.pairwise_singleton _ _, ?_⟩
    intro a ha b hb
    rw [List.mem_singleton.mp hb]
    exact hlast a ha

/-- The disposal of a chunk of `n` bytes does not tell the end of the stream. -/
def Quiet (src : Source) (s : State) (n : Size) : Prop := src.sd = true ∨ s.count + n ≠ src.len

instance (src : Source) (s : State) (n : Size) : Decidable (Quiet src s n) :=
  inferInstanceAs (Decidable (_ ∨ _))

/-- The stream is only stopped when nothing is left that calls the consumer, and only started
when no chunk is left over. -/
def Settled (src : Source) (s : State) : Event → Prop
  | .start => s.doRead = false → s.chunks = []
  | .stop => s.doRead = true →
      s.pending = [] ∧ s.spawned = [] ∧ ∀ c ∈ s.chunks, Quiet src s c.size
  | _ => True

instance (src : Source) (s : State) : (e : Event) → Decidable (Settled src s e)
  | .start => inferInstanceAs (Decidable (s.doRead = false → s.chunks = []))
  | .stop => inferInstanceAs (Decidable (s.doRead = true →
      s.pending = [] ∧ s.spawned = [] ∧ ∀ c ∈ s.chunks, Quiet src s c.size))
  | .complete _ _ => inferInstanceAs (Decidable True)
  | .handle _ _ => inferInstanceAs (Decidable True)
  | .run _ _ => inferInstanceAs (Decidable True)
  | .dispose _ => inferInstanceAs (Decidable True)

/-- There is at most one read or chunk, it belongs to the current session, and none that will
call the consumer is there when the session is over. -/
structure Inv (src : Source) (s : State) : Prop where
  calls : OwnSession s.calls
  le : ∀ c ∈ s.calls, c.consumer ≤ s.session
  pending : ∀ p ∈ s.pending, p.session = s.session
  spawned : ∀ k ∈ s.spawned, k = s.session
  chunks : ∀ c ∈ s.chunks, c.session = s.session
  one : outstanding s ≤ 1
  stopped : s.doRead = false → s.pending = [] ∧ s.spawned = [] ∧ ∀ c ∈ s.chunks, Quiet src s c.size
  ended : Ended s → outstanding s = 0

namespace Inv

theorem init : Inv src .init where
  calls := ⟨fun _ hc => (List.not_mem_nil hc).elim, .nil⟩
  le := fun _ hc => (List.not_mem_nil hc).elim
  pending := fun _ hp => (List.not_mem_nil hp).elim
  spawned := fun _ hk => (List.not_mem_nil hk).elim
  chunks := fun _ hc => (List.not_mem_nil hc).elim
  one := Nat.zero_le 1
  stopped := fun _ => ⟨rfl, rfl, fun _ hc => (List.not_mem_nil hc).elim⟩
  ended := fun _ => rfl

/-- Nothing is outstanding, so nothing can go wrong. -/
theorem of_nothing (hcalls : OwnSession s.calls) (hle : ∀ c ∈ s.calls, c.consumer ≤ s.session)
    (hzero : outstanding s = 0) : Inv src s := by
  obtain ⟨hp, hs, hc⟩ := nothing_outstanding hzero
  constructor
  · exact hcalls
  · exact hle
  · rw [hp]
    simp
  · rw [hs]
    simp
  · rw [hc]
    simp
  · omega
  · rw [hc]
    exact fun _ => ⟨hp, hs, by simp⟩
  · exact fun _ => hzero

/-- A read begins when nothing else is outstanding and the consumer waits. -/
theorem asyncReadSome (hcalls : OwnSession s.calls) (hle : ∀ c ∈ s.calls, c.consumer ≤ s.session)
    (hzero : outstanding s = 0) (hend : s.doRead = true → ¬ Ended s) :
    Inv src (asyncReadSome src s) := by
  obtain ⟨hp, hs, hc⟩ := nothing_outstanding hzero
  have hstarted : s.doRead = true → ¬ s.doRead = false := fun hd => by simp [hd]
  obtain ⟨he, -⟩ | ⟨he, hd, -⟩ | ⟨he, hd, -⟩ := asyncReadSome_cases src s
  · rw [he]
    exact of_nothing hcalls hle hzero
  · rw [he, hp]
    refine ⟨hcalls, hle, ?_, ?_, ?_, ?_, fun hd' => absurd hd' (hstarted hd),
      fun he => absurd he (hend hd)⟩
    · simp
    · simp [hs]
    · simp [hc]
    · simp [outstanding, hs, hc]
  · rw [he, hs]
    refine ⟨hcalls, hle, ?_, ?_, ?_, ?_, fun hd' => absurd hd' (hstarted hd),
      fun he => absurd he (hend hd)⟩
    · simp [hp]
    · simp
    · simp [hc]
    · simp [outstanding, hp, hc]

/-- The consumer of a waiting session may be called by a read of that session. -/
theorem consumer (hcalls : OwnSession s.calls) (hle : ∀ c ∈ s.calls, c.consumer ≤ s.session)
    (hw : Waiting s) (data : Option Size) (avail : Size) :
    OwnSession (consumer s s.session data avail).calls ∧
      ∀ c ∈ (InputStream.consumer s s.session data avail).calls, c.consumer ≤ s.session := by
  constructor
  · apply hcalls.snoc
    · exact ⟨hw.1, rfl⟩
    · intro a ha hdata he
      exact hw.2 ⟨a, ha, he.symm, hdata⟩
  · intro c hc
    obtain hc | hc := List.mem_append.mp hc
    · exact hle c hc
    · rw [List.mem_singleton.mp hc]

theorem waiting (h : Inv src s) (hne : s.pending ≠ [] ∨ s.spawned ≠ []) : Waiting s := by
  constructor
  · by_contra hd
    obtain ⟨hp, hs, -⟩ := h.stopped (by simpa using hd)
    obtain hne | hne := hne
    · exact hne hp
    · exact hne hs
  · intro he
    obtain ⟨hp, hs, -⟩ := nothing_outstanding (h.ended he)
    obtain hne | hne := hne
    · exact hne hp
    · exact hne hs

theorem start (h : Inv src s) (hg : s.doRead = false → s.chunks = []) :
    Inv src (asyncReadStart src s) := by
  obtain ⟨he, -⟩ | ⟨he, hd⟩ := asyncReadStart_cases src s
  · rwa [he]
  · obtain ⟨hp, hs, -⟩ := h.stopped hd
    have hc := hg hd
    rw [he]
    apply Inv.asyncReadSome (s := { s with doRead := true, session := s.session + 1 }) h.calls
    · intro c hmem
      exact (h.le c hmem).trans (Nat.le_succ _)
    · simp [outstanding, hp, hs, hc]
    · rintro - ⟨c, hmem, hconsumer, -⟩
      have hle := h.le c hmem
      rw [hconsumer] at hle
      exact absurd hle (Nat.not_succ_le_self _)

theorem stop (h : Inv src s)
    (hg : s.doRead = true →
      s.pending = [] ∧ s.spawned = [] ∧ ∀ c ∈ s.chunks, Quiet src s c.size) :
    Inv src (asyncReadStop src s) := by
  obtain ⟨he, -⟩ | ⟨he, hd⟩ := asyncReadStop_cases src s
  · rwa [he]
  · obtain ⟨hp, hs, hc⟩ := hg hd
    rw [he]
    have hmap : (if src.sd = true then s.pending.map Pending.cancel else s.pending) = [] := by
      rw [hp]
      simp
    have hout : outstanding { s with
        doRead := false
        pending := if src.sd = true then s.pending.map Pending.cancel else s.pending } =
        outstanding s := by
      simp [outstanding, hp]
    refine ⟨h.calls, h.le, ?_, h.spawned, h.chunks, hout.trans_le h.one,
      fun _ => ⟨hmap, hs, hc⟩, fun he => hout.trans (h.ended he)⟩
    rw [hmap]
    simp

theorem complete (h : Inv src s) {i session : Nat} {r : Completion}
    (hp : s.pending[i]? = some ⟨session, none⟩) :
    Inv src { s with pending := s.pending.set i ⟨session, some r⟩ } := by
  have hmem := List.mem_of_getElem? hp
  have hw := h.waiting (.inl (List.ne_nil_of_mem hmem))
  have hout : outstanding { s with pending := s.pending.set i ⟨session, some r⟩ } =
      outstanding s := by
    simp [outstanding]
  refine ⟨h.calls, h.le, ?_, h.spawned, h.chunks, hout.trans_le h.one, ?_, ?_⟩
  · intro p hp'
    obtain hp' | hp' := List.mem_or_eq_of_mem_set hp'
    · exact h.pending p hp'
    · have hsession : session = s.session := h.pending _ hmem
      rw [hp']
      exact hsession
  · intro hd
    exact absurd (hw.1.symm.trans hd) (by decide)
  · exact fun he => absurd he hw.2

/-- The consumer gets a chunk, which is then all there is. -/
theorem deliver (hcalls : OwnSession s.calls) (hle : ∀ c ∈ s.calls, c.consumer ≤ s.session)
    (hzero : outstanding s = 0) (hw : Waiting s) (n avail : Size) :
    Inv src (InputStream.consumer { s with chunks := s.chunks ++ [⟨s.session, n⟩] } s.session
      (some n) avail) := by
  obtain ⟨hp, hs, hc⟩ := nothing_outstanding hzero
  obtain ⟨hcalls', hle'⟩ := Inv.consumer hcalls hle hw (some n) avail
  refine ⟨hcalls', hle', ?_, ?_, ?_, ?_, ?_, ?_⟩
  · simp [InputStream.consumer, hp]
  · simp [InputStream.consumer, hs]
  · simp [InputStream.consumer, hc]
  · simp [InputStream.consumer, outstanding, hp, hs, hc]
  · intro hd
    exact absurd (hw.1.symm.trans hd) (by decide)
  · rintro ⟨c, hmem, hconsumer, hdata⟩
    obtain hmem | hmem := List.mem_append.mp hmem
    · exact absurd ⟨c, hmem, hconsumer, hdata⟩ hw.2
    · rw [List.mem_singleton.mp hmem] at hdata
      cases hdata

/-- The consumer is told the end, and nothing is left. -/
theorem finish (hcalls : OwnSession s.calls) (hle : ∀ c ∈ s.calls, c.consumer ≤ s.session)
    (hzero : outstanding s = 0) (hw : Waiting s) :
    Inv src (InputStream.consumer s s.session none 0) := by
  obtain ⟨hcalls', hle'⟩ := Inv.consumer hcalls hle hw none 0
  exact of_nothing hcalls' hle' hzero

theorem disposal (hcalls : OwnSession s.calls) (hle : ∀ c ∈ s.calls, c.consumer ≤ s.session)
    (hzero : outstanding s = 0) (hend : ¬ Ended s) {c : Chunk} (hc : c.session = s.session)
    (hquiet : s.doRead = false → Quiet src s c.size) : Inv src (disposal src s c) := by
  obtain ⟨he, -⟩ | ⟨he, hsd, hlen⟩ := disposal_cases src s c
  · rw [he]
    exact Inv.asyncReadSome (s := { s with count := _ }) hcalls hle hzero fun _ => hend
  · rw [he, hc]
    apply finish (s := { s with count := s.count + c.size }) hcalls hle hzero
    refine ⟨?_, hend⟩
    by_contra hd
    obtain hq | hq := hquiet (by simpa using hd)
    · rw [hsd] at hq
      cases hq
    · exact hq hlen

theorem handle (h : Inv src s) {i session : Nat} {r : Completion} {readable : Option Size}
    (hp : s.pending[i]? = some ⟨session, some r⟩) :
    Inv src (handler { s with pending := s.pending.eraseIdx i } session r readable) := by
  have hmem := List.mem_of_getElem? hp
  have hw := h.waiting (.inl (List.ne_nil_of_mem hmem))
  have hsession : session = s.session := h.pending _ hmem
  have hzero : outstanding { s with pending := s.pending.eraseIdx i } = 0 := by
    have herase := length_eraseIdx hp
    have hone := h.one
    simp only [outstanding] at hone ⊢
    omega
  subst hsession
  cases r with
  | error => exact finish (s := { s with pending := s.pending.eraseIdx i }) h.calls h.le hzero hw
  | data size =>
    simp only [handler]
    by_cases hz : size = 0
    · rw [if_pos hz]
      exact of_nothing h.calls h.le hzero
    · rw [if_neg hz]
      cases readable with
      | none => exact of_nothing h.calls h.le hzero
      | some avail =>
        exact deliver (s := { s with pending := s.pending.eraseIdx i }) h.calls h.le hzero hw
          size avail

theorem run (h : Inv src s) {i session : Nat} {n : Size} (hp : s.spawned[i]? = some session) :
    Inv src (readFile src { s with spawned := s.spawned.eraseIdx i } session n) := by
  have hmem := List.mem_of_getElem? hp
  have hw := h.waiting (.inr (List.ne_nil_of_mem hmem))
  have hsession : session = s.session := h.spawned _ hmem
  have hzero : outstanding { s with spawned := s.spawned.eraseIdx i } = 0 := by
    have herase := length_eraseIdx hp
    have hone := h.one
    simp only [outstanding] at hone ⊢
    omega
  subst hsession
  rw [readFile]
  split
  · apply disposal (s := { s with spawned := s.spawned.eraseIdx i }) h.calls h.le hzero hw.2 rfl
    intro hd
    exact absurd (hw.1.symm.trans hd) (by decide)
  · exact deliver (s := { s with spawned := s.spawned.eraseIdx i }) h.calls h.le hzero hw n _

theorem dispose (h : Inv src s) {i : Nat} {c : Chunk} (hp : s.chunks[i]? = some c) :
    Inv src (InputStream.disposal src { s with chunks := s.chunks.eraseIdx i } c) := by
  have hmem := List.mem_of_getElem? hp
  have hpos := List.length_pos_of_mem hmem
  have hzero : outstanding { s with chunks := s.chunks.eraseIdx i } = 0 := by
    have herase := length_eraseIdx hp
    have hone := h.one
    simp only [outstanding] at hone ⊢
    omega
  apply disposal (s := { s with chunks := s.chunks.eraseIdx i }) h.calls h.le hzero
  · intro he
    have hout := h.ended he
    simp only [outstanding] at hout
    omega
  · exact h.chunks c hmem
  · exact fun hd => (h.stopped hd).2.2 c hmem

theorem step (h : Inv src s) {e : Event} (hg : Settled src s e) (hs : Step src s e t) :
    Inv src t := by
  cases hs with
  | start => exact h.start hg
  | stop => exact h.stop hg
  | complete i session r hp hr => exact h.complete hp
  | handle i session r readable hp => exact h.handle hp
  | run i session n hp hn => exact h.run hp
  | dispose i c hp => exact h.dispose hp

end Inv

/-- Without leftovers every consumer of the hosted stream is only called in its own
session. -/
theorem inv_of_reaches (h : Reaches (step src) (Settled src) .init s) : Inv src s :=
  h.invariant Inv.init fun _ _ _ hi hg hs => hi.step hg (step_cases hs)

end EbbrtContrib.StreamSessions
