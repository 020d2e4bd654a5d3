import Mathlib.Tactic.SplitIfs
import EbbrtContrib.InputStream

namespace EbbrtContrib.FileReads

open InputStream Runs

/-- What `read` on the descriptor of a regular file answers. -/
inductive Result
  | failed
  | bytes (n : Nat)
  deriving DecidableEq, Repr

/-- `size_t n = read(..)` -/
def Result.size : Result → Size
  | .failed => -1
  | .bytes n => BitVec.ofNat 64 n

/-- A read that has run: the stream behind it and before it, with the read itself taken off,
and whether the error was raised. -/
structure Read where
  result : Result
  before : InputStream.State
  after : InputStream.State
  raised : Bool
  deriving DecidableEq, Repr

structure State where
  stream : InputStream.State
  reads : List Read
  deriving DecidableEq, Repr

def State.init : State := ⟨.init, []⟩

inductive Event
  | start
  | stop
  | read (i : Nat) (r : Result)
  | dispose (i : Nat)
  deriving DecidableEq, Repr

def regularFile (len : Size) : Source := ⟨false, len⟩

/-- The spawned read: the test for an error, and what follows it. -/
def readResult (len : Size) (s : InputStream.State) (session : Nat) (r : Result) : Read :=
  if r.size < 0 then ⟨r, s, s, true⟩
  else ⟨r, s, readFile (regularFile len) s session r.size, false⟩

def Result.Fits : Result → Prop
  | .failed => True
  | .bytes n => n ≤ kBufferSize

instance : (r : Result) → Decidable r.Fits
  | .failed => inferInstanceAs (Decidable True)
  | .bytes n => inferInstanceAs (Decidable (n ≤ kBufferSize))

def step (len : Size) (s : State) : Event → Option State
  | .start =>
    (InputStream.step (regularFile len) s.stream .start).map fun t => { s with stream := t }
  | .stop =>
    (InputStream.step (regularFile len) s.stream .stop).map fun t => { s with stream := t }
  | .read i r =>
    match s.stream.spawned[i]? with
    | some session =>
      if r.Fits then
        let read :=
          readResult len { s.stream with spawned := s.stream.spawned.eraseIdx i } session r
        some ⟨read.after, s.reads ++ [read]⟩
      else none
    | none => none
  | .dispose i =>
    (InputStream.step (regularFile len) s.stream (.dispose i)).map fun t => { s with stream := t }

/-- The read has made the call that ends the stream. -/
def Read.Told (r : Read) : Prop := ∃ c, r.after.calls = r.before.calls ++ [c] ∧ c.data = none

/-- A read is contained: its buffer is no longer than `buffer_`, what is left of the file is
computed without wrapping around, -1 raises the error, and a started stream whose read returns
0 or -1 begins no further read and tells the end or the error. -/
structure Read.Contained (len : Size) (r : Read) : Prop where
  buffer : r.raised = false → r.result.size.toNat ≤ kBufferSize
  avail : r.raised = false → r.result.size ≠ 0 →
    r.before.count.toNat + r.result.size.toNat ≤ len.toNat
  raised : r.result = .failed → r.raised = true
  stops : r.result = .failed ∨ r.result = .bytes 0 → r.before.doRead = true →
    r.after.spawned = r.before.spawned ∧ (r.raised = true ∨ r.Told)

def Contained (len : Size) (s : State) : Prop := ∀ r ∈ s.reads, r.Contained len

/-- A read does not fail and does not lead beyond the recorded length, and while the stream is
started it returns 0 only at that length. -/
def Regular (len : Size) (s : State) : Event → Prop
  | .read _ .failed => False
  | .read _ (.bytes n) =>
    if n = 0 then s.stream.doRead = true → s.stream.count = len
    else s.stream.count.toNat + n ≤ len.toNat
  | .start | .stop | .dispose _ => True

instance (len : Size) (s : State) : (e : Event) → Decidable (Regular len s e)
  | .read _ .failed => inferInstanceAs (Decidable False)
  | .read _ (.bytes n) => inferInstanceAs (Decidable (if n = 0 then _ else _))
  | .start => inferInstanceAs (Decidable True)
  | .stop => inferInstanceAs (Decidable True)
  | .dispose _ => inferInstanceAs (Decidable True)

variable {len : Size} {s t : State} {e : Event}

/-- The test for an error never succeeds. -/
theorem readResult_eq (len : Size) (s : InputStream.State) (session : Nat) (r : Result) :
    readResult len s session r = ⟨r, s, readFile (regularFile len) s session r.size, false⟩ :=
  if_neg (BitVec.not_lt_zero)

theorem size_bytes {n : Nat} (h : n ≤ kBufferSize) : (Result.bytes n).size.toNat = n := by
  rw [Result.size, BitVec.toNat_ofNat, Nat.mod_eq_of_lt]
  exact Nat.lt_of_le_of_lt h (by decide)

/-- A failed read is taken for one of 2^64 - 1 bytes. -/
theorem not_contained_failed (len : Size) (s : InputStream.State) (session : Nat) :
    ¬ (readResult len s session .failed).Contained len := by
  intro h
  rw [readResult_eq] at h
  have hbuffer : Result.failed.size.toNat ≤ kBufferSize := h.buffer rfl
  exact absurd hbuffer (by decide)

theorem readFile_zero (len : Size) (s : InputStream.State) (session : Nat) :
    readFile (regularFile len) s session 0 =
      if s.count = len then consumer s session none 0 else asyncReadSome (regularFile len) s := by
  rw [readFile, if_pos rfl, disposal, if_neg (by simp [regularFile])]
  simp [regularFile]

/-- An empty read ends a started stream at the recorded length, and nowhere else. -/
theorem contained_zero_iff (len : Size) (s : InputStream.State) (session : Nat) :
    (readResult len s session (.bytes 0)).Contained len ↔ (s.doRead = true → s.count = len) := by
  have hsize : (Result.bytes 0).size = 0 := rfl
  rw [readResult_eq, hsize, readFile_zero]
  constructor
  · intro h hd
    by_contra hne
    rw [if_neg hne] at h
    obtain ⟨-, hr | ⟨c, hc, -⟩⟩ := h.stops (.inr rfl) hd
    · cases hr
    · have hcalls : (asyncReadSome (regularFile len) s).calls = s.calls ++ [c] := hc
      rw [(asyncReadSome_keeps _ s).2.2] at hcalls
      have hlen := congrArg List.length hcalls
      rw [List.length_append, List.length_singleton] at hlen
      exact absurd hlen (Nat.ne_of_lt (Nat.lt_succ_self _))
  · intro h
    refine ⟨fun _ => Nat.zero_le _, fun _ hne => absurd rfl hne, nofun, fun _ hd => ?_⟩
    rw [if_pos (h hd)]
    exact ⟨rfl, .inr ⟨_, rfl, rfl⟩⟩

theorem contained_bytes_iff {n : Nat} (hn : n ≤ kBufferSize) (hpos : n ≠ 0)
    (s : InputStream.State) (session : Nat) :
    (readResult len s session (.bytes n)).Contained len ↔ s.count.toNat + n ≤ len.toNat := by
  have hsize := size_bytes hn
  have hne : (Result.bytes n).size ≠ 0 := fun hz => hpos (by rw [← hsize, hz]; rfl)
  rw [readResult_eq]
  constructor
  · intro h
    have havail := h.avail rfl hne
    rwa [hsize] at havail
  · intro h
    refine ⟨fun _ => hsize.le.trans hn, fun _ _ => hsize.symm ▸ h, nofun, fun hr => ?_⟩
    obtain hr | hr := hr
    · cases hr
    · exact absurd (Result.bytes.inj hr) hpos

/-- The read that a step makes is contained exactly when the step is regular. -/
theorem readResult_contained_iff {i session : Nat} {r : Result} (hfits : r.Fits) :
    (readResult len { s.stream with spawned := s.stream.spawned.eraseIdx i } session r).Contained
      len ↔ Regular len s (.read i r) := by
  cases r with
  | failed => exact iff_of_false (not_contained_failed len _ session) not_false
  | bytes n =>
    rw [Regular]
    split_ifs with hn
    · subst hn
      exact contained_zero_iff len _ session
    · exact contained_bytes_iff hfits hn _ session

/-- A step adds the read that it makes to those before it, and no other step adds one. -/
theorem step_reads (h : step len s e = some t) : (t.reads = s.reads ∧ Regular len s e) ∨
    ∃ i session r, e = .read i r ∧ r.Fits ∧ t.reads = s.reads ++
      [readResult len { s.stream with spawned := s.stream.spawned.eraseIdx i } session r] := by
  cases e with
  | start | stop =>
    cases h
    exact .inl ⟨rfl, trivial⟩
  | dispose i =>
    obtain ⟨u, -, rfl⟩ := Option.map_eq_some_iff.mp h
    exact .inl ⟨rfl, trivial⟩
  | read i r =>
    simp only [step] at h
    split at h
    · rename_i session hsession
      obtain ⟨hfits, ht⟩ := Option.ite_none_right_eq_some.mp h
      cases ht
      exact .inr ⟨i, session, r, rfl, hfits, rfl⟩
    · cases h

theorem contained_step_iff (h : step len s e = some t) :
    Contained len t ↔ Contained len s ∧ Regular len s e := by
  obtain ⟨hreads, hregular⟩ | ⟨i, session, r, rfl, hfits, hreads⟩ := step_reads h
  · rw [Contained, hreads]
    exact (and_iff_left hregular).symm
  · rw [Contained, hreads, List.forall_mem_append, List.forall_mem_singleton,
      readResult_contained_iff hfits]
    rfl

/-- Reads are contained in every run whose reads are regular, and from then on no longer as soon
as one is not. -/
theorem contained_iff_regular (len : Size) :
    (∀ t, Reaches (step len) (Regular len) .init t → Contained len t) ∧
    ∀ s e t, Reaches (step len) (Regular len) .init s → step len s e = some t →
      (Contained len t ↔ Regular len s e) := by
  have hall : ∀ t, Reaches (step len) (Regular len) .init t → Contained len t := fun t ht =>
    ht.invariant (fun r hr => absurd hr List.not_mem_nil) fun _ _ _ hi hg hs =>
      (contained_step_iff hs).mpr ⟨hi, hg⟩
  exact ⟨hall, fun s e t hs hstep =>
    (contained_step_iff hstep).trans (and_iff_right (hall s hs))⟩

/-- The sizes of the elements together, which wrap around as `count_` does. -/
def total {α : Type} (size : α → Size) (l : List α) : Size := l.foldr (fun x n => size x + n) 0

theorem total_snoc {α : Type} (size : α → Size) (l : List α) (x : α) :
    total size (l ++ [x]) = total size l + size x := by
  induction l with
  | nil => exact (BitVec.add_zero _).trans (BitVec.zero_add _).symm
  | cons y l ih => exact (congrArg (size y + ·) ih).trans (BitVec.add_assoc _ _ _).symm

theorem total_eraseIdx {α : Type} (size : α → Size) {l : List α} {i : Nat} {x : α}
    (h : l[i]? = some x) : size x + total size (l.eraseIdx i) = total size l := by
  induction l generalizing i with
  | nil => cases h
  | cons y l ih =>
    cases i with
    | zero =>
      obtain rfl := Option.some.inj h
      rfl
    | succ i =>
      change size x + (size y + total size (l.eraseIdx i)) = size y + total size l
      rw [← ih h, ← BitVec.add_assoc, BitVec.add_comm (size x), BitVec.add_assoc]

/-- What the reads have returned is counted, once its chunk has been disposed of. -/
def Counted (s : State) : Prop :=
  s.stream.count + total Chunk.size s.stream.chunks = total (fun r => r.result.size) s.reads

theorem asyncReadSome_counts (src : Source) (x : InputStream.State) :
    (asyncReadSome src x).count = x.count ∧ (asyncReadSome src x).chunks = x.chunks := by
  obtain ⟨he, -⟩ | ⟨he, -⟩ | ⟨he, -⟩ := asyncReadSome_cases src x
  all_goals
    rw [he]
    exact ⟨rfl, rfl⟩

theorem disposal_counts (src : Source) (x : InputStream.State) (c : Chunk) :
    (disposal src x c).count = x.count + c.size ∧ (disposal src x c).chunks = x.chunks := by
  obtain ⟨he, -⟩ | ⟨he, -⟩ := disposal_cases src x c
  · rw [he]
    exact asyncReadSome_counts src { x with count := x.count + c.size }
  · rw [he]
    exact ⟨rfl, rfl⟩

theorem readFile_counts (src : Source) (x : InputStream.State) (session : Nat) (n : Size) :
    (readFile src x session n).count + total Chunk.size (readFile src x session n).chunks =
      x.count + total Chunk.size x.chunks + n := by
  rw [readFile]
  split
  · rename_i hn
    obtain ⟨hcount, hchunks⟩ := disposal_counts src x ⟨session, n⟩
    subst hn
    rw [hcount, hchunks]
    exact (congrArg (· + _) (BitVec.add_zero x.count)).trans (BitVec.add_zero _).symm
  · change x.count + total Chunk.size (x.chunks ++ [⟨session, n⟩]) = _
    rw [total_snoc, BitVec.add_assoc]

theorem Counted.step (h : Counted s) (hs : step len s e = some t) : Counted t := by
  rw [Counted] at h ⊢
  cases e with
  | start =>
    cases hs
    obtain ⟨he, -⟩ | ⟨he, -⟩ := asyncReadStart_cases (regularFile len) s.stream
    · rw [he]
      exact h
    · obtain ⟨hcount, hchunks⟩ := asyncReadSome_counts (regularFile len)
        { s.stream with doRead := true, session := s.stream.session + 1 }
      rw [he, hcount, hchunks]
      exact h
  | stop =>
    cases hs
    obtain ⟨he, -⟩ | ⟨he, -⟩ := asyncReadStop_cases (regularFile len) s.stream
    all_goals
      rw [he]
      exact h
  | dispose i =>
    obtain ⟨u, hu, rfl⟩ := Option.map_eq_some_iff.mp hs
    cases InputStream.step_cases hu with
    | dispose _ c hc =>
      obtain ⟨hcount, hchunks⟩ := disposal_counts (regularFile len)
        { s.stream with chunks := s.stream.chunks.eraseIdx i } c
      rw [hcount, hchunks, BitVec.add_assoc, total_eraseIdx Chunk.size hc]
      exact h
  | read i r =>
    simp only [FileReads.step] at hs
    split at hs
    · obtain ⟨-, ht⟩ := Option.ite_none_right_eq_some.mp hs
      cases ht
      rw [total_snoc, ← h, readResult_eq]
      exact readFile_counts _ _ _ _
    · cases hs

/-- `Regular` in terms of what the reads have returned: `count_` is that of the reads so far, less
what the consumer has not disposed of yet. -/
theorem regular_iff_results {ok : State → Event → Prop} (h : Reaches (step len) ok .init s)
    (i n : Nat) :
    Regular len s (.read i (.bytes n)) ↔
      let counted := total (fun r => r.result.size) s.reads - total Chunk.size s.stream.chunks
      if n = 0 then s.stream.doRead = true → counted = len else counted.toNat + n ≤ len.toNat := by
  have hcounted : Counted s := h.invariant (I := Counted) rfl fun _ _ _ hi _ hs => hi.step hs
  rw [Counted] at hcounted
  rw [Regular, ← hcounted, BitVec.add_sub_cancel]

/-- A file of ten bytes that is read as it is. -/
def tenBytes : List Event :=
  [.start, .read 0 (.bytes 4), .dispose 0, .read 0 (.bytes 6), .dispose 0, .stop]

theorem tenBytes_runs :
    (Runs.run (guarded (step 10) (Regular 10)) .init tenBytes).isSome := by decide

theorem tenBytes_contained :
    Contained 10 ((Runs.run (guarded (step 10) (Regular 10)) .init tenBytes).get tenBytes_runs) :=
  (contained_iff_regular 10).1 _ (reaches_get tenBytes_runs)

theorem asyncReadSome_file {x : InputStream.State} (hd : x.doRead = true) (hc : x.count < len) :
    asyncReadSome (regularFile len) x = { x with spawned := x.spawned ++ [x.session] } := by
  have hstarted : ¬ x.doRead = false := by
    rw [hd]
    exact nofun
  have hfile : ¬ (regularFile len).sd = true := Bool.false_ne_true
  rw [asyncReadSome, if_neg hstarted, if_neg hfile]
  exact if_pos hc

/-- An empty read in front of the recorded length begins the next one, and tells nobody. -/
theorem zero_read (hd : s.stream.doRead = true) (hc : s.stream.count < len)
    (hone : s.stream.spawned = [s.stream.session]) :
    ∃ t, step len s (.read 0 (.bytes 0)) = some t ∧ t.stream = s.stream := by
  have hsize : (Result.bytes 0).size = 0 := rfl
  have hfits : (Result.bytes 0).Fits := Nat.zero_le _
  have hne : s.stream.count ≠ len := fun he => by
    rw [he] at hc
    exact (BitVec.lt_irrefl len) hc
  refine ⟨⟨s.stream, s.reads ++ [readResult len { s.stream with spawned := [] } s.stream.session
    (.bytes 0)]⟩, ?_, rfl⟩
  have hafter : (readResult len { s.stream with spawned := [] } s.stream.session
      (.bytes 0)).after = s.stream := by
    rw [readResult_eq, hsize, readFile_zero, if_neg hne]
    refine (asyncReadSome_file (x := { s.stream with spawned := [] }) hd hc).trans ?_
    rw [List.nil_append, ← hone]
  simp only [step, hone, List.getElem?_cons_zero, if_pos hfits, List.eraseIdx_cons_zero, hafter]

/-- A file that was truncated after its length was recorded is read again and again. -/
theorem zero_reads_spin (hd : s.stream.doRead = true) (hc : s.stream.count < len)
    (hone : s.stream.spawned = [s.stream.session]) (k : Nat) : ∃ t,
    Runs.run (step len) s (List.replicate k (.read 0 (.bytes 0))) = some t ∧
      t.stream = s.stream := by
  induction k generalizing s with
  | zero => exact ⟨s, rfl, rfl⟩
  | succ k ih =>
    obtain ⟨u, hu, hstream⟩ := zero_read hd hc hone
    rw [← hstream] at hd hc hone
    obtain ⟨t, hrun, ht⟩ := ih hd hc hone
    refine ⟨t, ?_, ht.trans hstream⟩
    rw [List.replicate_succ, Runs.run, hu]
    exact hrun

/-- A failed read passes 2^64 - 1 bytes to the consumer, a grown file makes what is left wrap
around, and a truncated one is read for ever. -/
theorem misbehaving_reads :
    (∃ t c, Runs.run (step 10) .init [.start, .read 0 .failed] = some t ∧ t.stream.calls = [c] ∧
      c.data.map BitVec.toNat = some (2 ^ 64 - 1)) ∧
    (∃ t c, Runs.run (step 10) .init [.start, .read 0 (.bytes 20)] = some t ∧
      t.stream.calls = [c] ∧ c.avail.toNat = 2 ^ 64 - 10) ∧
    (∀ k, ∃ t, Runs.run (step 10) .init (.start :: List.replicate k (.read 0 (.bytes 0))) = some t ∧
      t.stream.spawned = [1] ∧ t.stream.calls = []) ∧
    ¬ ∀ len t, Reachable (step len) .init t → Contained len t := by
  refine ⟨⟨_, _, rfl, rfl, by decide⟩, ⟨_, _, rfl, rfl, by decide⟩, fun k => ?_, fun h => ?_⟩
  · obtain ⟨t, hrun, ht⟩ := @zero_reads_spin 10 ⟨⟨true, 0, 1, [], [1], [], []⟩, []⟩ rfl
      (by decide) rfl k
    exact ⟨t, hrun, by rw [ht], by rw [ht]⟩
  · have hc := h 10 _ (reachable_of_run (l := [.start, .read 0 .failed]) rfl)
    exact not_contained_failed 10 _ 1 (hc _ (List.mem_singleton_self _))

end EbbrtContrib.FileReads
