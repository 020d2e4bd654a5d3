import Mathlib.Data.BitVec
import EbbrtContrib.Runs

namespace EbbrtContrib.InputStream

/-- `size_t` -/
abbrev Size := BitVec 64

def kBufferSize : Nat := 4096

inductive FileType
  | unknown
  | blockDev
  | charDev
  | socket
  | pipe
  | file
  | dir
  | symlink
  deriving DecidableEq, Repr

/-- What the stream reads from: whether it goes through the asio descriptor `sd_`, and the
length recorded by `Create`, which only regular files have. -/
structure Source where
  sd : Bool
  len : Size
  deriving DecidableEq, Repr

/-- `Create` and the constructor, which both throw on the types they do not support. -/
def Source.new (type : FileType) (stSize : Size) : Option Source :=
  match type with
  | .blockDev | .charDev | .socket | .pipe => some ⟨true, 0⟩
  | .file => some ⟨false, stSize⟩
  | .unknown | .dir | .symlink => none

/-- How asio completes a read. -/
inductive Completion
  | error
  | data (size : Size)
  deriving DecidableEq, Repr

/-- An asio read into `buffer_` whose handler has not run yet; it has a result from the time
on when asio has queued the handler. -/
structure Pending where
  session : Nat
  result : Option Completion
  deriving DecidableEq, Repr

/-- A live `IOBuf` over `buffer_`. -/
structure Chunk where
  session : Nat
  size : Size
  deriving DecidableEq, Repr

/-- A call of `consumer_`: the session that installed the consumer, the session whose read
the call comes from, the chunk (`none` for a null buffer), `avail`, and `doRead_` then. -/
structure Call where
  consumer : Nat
  origin : Nat
  data : Option Size
  avail : Size
  active : Bool
  deriving DecidableEq, Repr

/-- `session` counts the calls of `async_read_start` that installed a consumer. -/
structure State where
  doRead : Bool
  count : Size
  session : Nat
  pending : List Pending
  spawned : List Nat
  chunks : List Chunk
  calls : List Call
  deriving DecidableEq, Repr

def State.init : State := ⟨false, 0, 0, [], [], [], []⟩

variable (src : Source)

def consumer (s : State) (origin : Nat) (data : Option Size) (avail : Size) : State :=
  { s with calls := s.calls ++ [⟨s.session, origin, data, avail, s.doRead⟩] }

def asyncReadSome (s : State) : State :=
  if s.doRead = false then s
  else if src.sd then { s with pending := s.pending ++ [⟨s.session, none⟩] }
  else if s.count < src.len then { s with spawned := s.spawned ++ [s.session] }
  else s

def asyncReadStart (s : State) : State :=
  if s.doRead = true then s
  else asyncReadSome src { s with doRead := true, session := s.session + 1 }

/-- `cancel` completes the reads that have no result yet. -/
def Pending.cancel (p : Pending) : Pending :=
  match p.result with
  | none => { p with result := some .error }
  | some _ => p

def asyncReadStop (s : State) : State :=
  if s.doRead = false then s
  else { s with
    doRead := false
    pending := if src.sd then s.pending.map .cancel else s.pending }

/-- The completion handler; `readable` is what `io_control` returns, if it does not fail. -/
def handler (s : State) (session : Nat) (r : Completion) (readable : Option Size) : State :=
  match r with
  | .error => consumer s session none 0
  | .data size =>
    if size = 0 then s
    else match readable with
      | none => s
      | some avail =>
        consumer { s with chunks := s.chunks ++ [⟨session, size⟩] } session (some size) avail

/-- The disposal of a chunk. Where the code tests `doRead_` before it calls
`async_read_some`, it makes the first test of that function twice. -/
def disposal (s : State) (c : Chunk) : State :=
  if src.sd then asyncReadSome src { s with count := s.count + c.size }
  else if s.count + c.size = src.len then
    consumer { s with count := s.count + c.size } c.session none 0
  else asyncReadSome src { s with count := s.count + c.size }

/-- The spawned read of a regular file, which got `n` from `read`. -/
def readFile (s : State) (session : Nat) (n : Size) : State :=
  if n = 0 then disposal src s ⟨session, n⟩
  else consumer { s with chunks := s.chunks ++ [⟨session, n⟩] } session (some n)
    (src.len - (s.count + n))

/-- `complete` is asio queueing the handler of a read, `handle` that handler, `run` a spawned
read, and `dispose` the disposal of a live chunk. -/
inductive Event
  | start
  | stop
  | complete (i : Nat) (r : Completion)
  | handle (i : Nat) (readable : Option Size)
  | run (i : Nat) (n : Size)
  | dispose (i : Nat)
  deriving DecidableEq, Repr

/-- A result that a read into `buffer_` can have. -/
def Completion.Fits : Completion → Prop
  | .error => True
  | .data size => size.toNat ≤ kBufferSize

instance : (r : Completion) → Decidable r.Fits
  | .error => inferInstanceAs (Decidable True)
  | .data size => inferInstanceAs (Decidable (size.toNat ≤ kBufferSize))

def step (s : State) : Event → Option State
  | .start => some (asyncReadStart src s)
  | .stop => some (asyncReadStop src s)
  | .complete i r =>
    match s.pending[i]? with
    | some ⟨session, none⟩ =>
      if r.Fits then some { s with pending := s.pending.set i ⟨session, some r⟩ } else none
    | _ => none
  | .handle i readable =>
    match s.pending[i]? with
    | some ⟨session, some r⟩ =>
      some (handler { s with pending := s.pending.eraseIdx i } session r readable)
    | _ => none
  | .run i n =>
    match s.spawned[i]? with
    | some session =>
      -- a failed `read` returns -1, which is no negative `size_t`
      if n.toNat ≤ kBufferSize ∨ n = -1 then
        some (readFile src { s with spawned := s.spawned.eraseIdx i } session n)
      else none
    | none => none
  | .dispose i =>
    match s.chunks[i]? with
    | some c => some (disposal src { s with chunks := s.chunks.eraseIdx i } c)
    | none => none

variable {src} {s t : State}

theorem asyncReadSome_cases (src : Source) (s : State) :
    (asyncReadSome src s = s ∧ (s.doRead = true → ¬ (src.sd = true ∨ s.count < src.len))) ∨
    (asyncReadSome src s = { s with pending := s.pending ++ [⟨s.session, none⟩] } ∧
      s.doRead = true ∧ src.sd = true) ∨
    (asyncReadSome src s = { s with spawned := s.spawned ++ [s.session] } ∧
      s.doRead = true ∧ s.count < src.len) := by
  cases hd : s.doRead with
  | false => simp [asyncReadSome, hd]
  | true =>
    cases hsd : src.sd with
    | true => simp [asyncReadSome, hd, hsd]
    | false =>
      by_cases hlt : s.count < src.len
      · simp [asyncReadSome, hd, hsd, hlt]
      · simp [asyncReadSome, hd, hsd, hlt]

/-- Beginning a read changes nothing else. -/
theorem asyncReadSome_keeps (src : Source) (s : State) :
    (asyncReadSome src s).doRead = s.doRead ∧ (asyncReadSome src s).session = s.session ∧
      (asyncReadSome src s).calls = s.calls := by
  obtain ⟨he, -⟩ | ⟨he, -⟩ | ⟨he, -⟩ := asyncReadSome_cases src s
  all_goals
    rw [he]
    exact ⟨rfl, rfl, rfl⟩

theorem asyncReadStart_cases (src : Source) (s : State) :
    (asyncReadStart src s = s ∧ s.doRead = true) ∨
    (asyncReadStart src s =
      asyncReadSome src { s with doRead := true, session := s.session + 1 } ∧
      s.doRead = false) := by
  cases hd : s.doRead with
  | true => simp [asyncReadStart, hd]
  | false => simp [asyncReadStart, hd]

theorem asyncReadStop_cases (src : Source) (s : State) :
    (asyncReadStop src s = s ∧ s.doRead = false) ∨
    (asyncReadStop src s = { s with
      doRead := false
      pending := if src.sd then s.pending.map .cancel else s.pending } ∧ s.doRead = true) := by
  cases hd : s.doRead with
  | false => simp [asyncReadStop, hd]
  | true => simp [asyncReadStop, hd]

theorem disposal_cases (src : Source) (s : State) (c : Chunk) :
    (disposal src s c = asyncReadSome src { s with count := s.count + c.size } ∧
      (src.sd = true ∨ s.count + c.size ≠ src.len)) ∨
    (disposal src s c = consumer { s with count := s.count + c.size } c.session none 0 ∧
      src.sd = false ∧ s.count + c.size = src.len) := by
  cases hsd : src.sd with
  | true => simp [disposal, hsd]
  | false =>
    by_cases hlen : s.count + c.size = src.len
    · simp [disposal, hsd, hlen]
    · simp [disposal, hsd, hlen]

/-- Everything a step can do, as a relation. -/
inductive Step (src : Source) (s : State) : Event → State → Prop
  | start : Step src s .start (asyncReadStart src s)
  | stop : Step src s .stop (asyncReadStop src s)
  | complete (i session : Nat) (r : Completion) : s.pending[i]? = some ⟨session, none⟩ → r.Fits →
      Step src s (.complete i r) { s with pending := s.pending.set i ⟨session, some r⟩ }
  | handle (i session : Nat) (r : Completion) (readable : Option Size) :
      s.pending[i]? = some ⟨session, some r⟩ → Step src s (.handle i readable)
        (handler { s with pending := s.pending.eraseIdx i } session r readable)
  | run (i session : Nat) (n : Size) : s.spawned[i]? = some session →
      n.toNat ≤ kBufferSize ∨ n = -1 → Step src s (.run i n)
        (readFile src { s with spawned := s.spawned.eraseIdx i } session n)
  | dispose (i : Nat) (c : Chunk) : s.chunks[i]? = some c → Step src s (.dispose i)
      (disposal src { s with chunks := s.chunks.eraseIdx i } c)

theorem step_cases {e : Event} (h : step src s e = some t) : Step src s e t := by
  cases e with
  | start =>
    cases h
    exact .start
  | stop =>
    cases h
    exact .stop
  | complete i r =>
    simp only [step] at h
    split at h
    · rename_i session hp
      obtain ⟨hr, ht⟩ := Option.ite_none_right_eq_some.mp h
      cases ht
      exact .complete i session r hp hr
    · cases h
  | handle i readable =>
    simp only [step] at h
    split at h
    · rename_i session r hp
      cases h
      exact .handle i session r readable hp
    · cases h
  | run i n =>
    simp only [step] at h
    split at h
    · rename_i session hp
      obtain ⟨hn, ht⟩ := Option.ite_none_right_eq_some.mp h
      cases ht
      exact .run i session n hp hn
    · cases h
  | dispose i =>
    simp only [step] at h
    split at h
    · rename_i c hp
      cases h
      exact .dispose i c hp
    · cases h

theorem disposal_keeps (src : Source) (s : State) (c : Chunk) :
    (disposal src s c).doRead = s.doRead ∧ (disposal src s c).session = s.session := by
  obtain ⟨he, -⟩ | ⟨he, -⟩ := disposal_cases src s c
  · obtain ⟨hdoRead, hsession, -⟩ := asyncReadSome_keeps src { s with count := s.count + c.size }
    rw [he]
    exact ⟨hdoRead, hsession⟩
  · rw [he]
    exact ⟨rfl, rfl⟩

theorem handler_keeps (s : State) (session : Nat) (r : Completion) (readable : Option Size) :
    (handler s session r readable).doRead = s.doRead ∧
      (handler s session r readable).session = s.session := by
  cases r with
  | error => exact ⟨rfl, rfl⟩
  | data size =>
    simp only [handler]
    split
    · exact ⟨rfl, rfl⟩
    · split <;> exact ⟨rfl, rfl⟩

theorem readFile_keeps (src : Source) (s : State) (session : Nat) (n : Size) :
    (readFile src s session n).doRead = s.doRead ∧
      (readFile src s session n).session = s.session := by
  rw [readFile]
  split
  · exact disposal_keeps src s _
  · exact ⟨rfl, rfl⟩

theorem start_keeps (src : Source) (h : s.doRead = false) :
    (asyncReadStart src s).doRead = true ∧ (asyncReadStart src s).session = s.session + 1 ∧
      (asyncReadStart src s).calls = s.calls := by
  obtain ⟨-, hd⟩ | ⟨he, -⟩ := asyncReadStart_cases src s
  · rw [h] at hd
    cases hd
  · rw [he]
    exact asyncReadSome_keeps src { s with doRead := true, session := s.session + 1 }

theorem stop_keeps (src : Source) (s : State) :
    (asyncReadStop src s).doRead = false ∧ (asyncReadStop src s).session = s.session ∧
      (asyncReadStop src s).calls = s.calls := by
  obtain ⟨he, hd⟩ | ⟨he, -⟩ := asyncReadStop_cases src s
  · rw [he]
    exact ⟨hd, rfl, rfl⟩
  · rw [he]
    exact ⟨rfl, rfl, rfl⟩

/-- At most one call is made, of the consumer installed last. -/
def CallsOnce (s t : State) : Prop :=
  t.calls = s.calls ∨ ∃ c, t.calls = s.calls ++ [c] ∧ c.consumer = s.session

theorem disposal_calls (src : Source) (s : State) (c : Chunk) :
    CallsOnce s (disposal src s c) := by
  obtain ⟨he, -⟩ | ⟨he, -⟩ := disposal_cases src s c
  · rw [he]
    exact .inl (asyncReadSome_keeps src _).2.2
  · rw [he]
    exact .inr ⟨_, rfl, rfl⟩

theorem step_calls {e : Event} (h : Step src s e t) : CallsOnce s t := by
  cases h with
  | start =>
    obtain ⟨he, -⟩ | ⟨-, hd⟩ := asyncReadStart_cases src s
    · exact .inl (congrArg State.calls he)
    · exact .inl (start_keeps src hd).2.2
  | stop => exact .inl (stop_keeps src s).2.2
  | complete => exact .inl rfl
  | handle i session r readable hp =>
    cases r with
    | error => exact .inr ⟨_, rfl, rfl⟩
    | data size =>
      simp only [handler]
      split
      · exact .inl rfl
      · split
        · exact .inl rfl
        · exact .inr ⟨_, rfl, rfl⟩
  | run i session n hp hn =>
    rw [readFile]
    split
    · exact disposal_calls src { s with spawned := s.spawned.eraseIdx i } _
    · exact .inr ⟨_, rfl, rfl⟩
  | dispose i c hp => exact disposal_calls src { s with chunks := s.chunks.eraseIdx i } c

theorem session_le {e : Event} (h : Step src s e t) : s.session ≤ t.session := by
  cases h with
  | start =>
    obtain ⟨he, -⟩ | ⟨-, hd⟩ := asyncReadStart_cases src s
    · exact (congrArg State.session he).ge
    · exact (Nat.le_succ _).trans_eq (start_keeps src hd).2.1.symm
  | stop => exact (stop_keeps src s).2.1.ge
  | complete => exact le_rfl
  | handle i session r readable hp =>
    exact (handler_keeps { s with pending := s.pending.eraseIdx i } session r readable).2.ge
  | run i session n hp hn =>
    exact (readFile_keeps src { s with spawned := s.spawned.eraseIdx i } session n).2.ge
  | dispose i c hp => exact (disposal_keeps src { s with chunks := s.chunks.eraseIdx i } c).2.ge

/-- No consumer is called before it is installed. -/
theorem consumer_le (h : Runs.Reachable (step src) .init s) :
    ∀ c ∈ s.calls, c.consumer ≤ s.session := by
  apply h.invariant (I := fun s => ∀ c ∈ s.calls, c.consumer ≤ s.session)
  · exact fun c hc => (List.not_mem_nil hc).elim
  · intro s e t hle _ hs c hc
    have hstep := step_cases hs
    have hsession := session_le hstep
    obtain hcalls | ⟨c', hcalls, hc'⟩ := step_calls hstep
    · rw [hcalls] at hc
      exact (hle c hc).trans hsession
    · rw [hcalls] at hc
      obtain hc | hc := List.mem_append.mp hc
      · exact (hle c hc).trans hsession
      · rw [List.mem_singleton.mp hc, hc']
        exact hsession

end EbbrtContrib.InputStream
