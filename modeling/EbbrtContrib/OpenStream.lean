import EbbrtContrib.InputStream

namespace EbbrtContrib.OpenStream

open InputStream (FileType)
open Runs

abbrev Path := List UInt8

abbrev EbbId := Nat

/-- What the system calls of the front end answer for one path: whether `stat` succeeds, the
descriptor from `open`, and the type from `fstat`. -/
structure Answers where
  stat : Bool
  fd : Option Nat
  fstat : Option FileType
  deriving DecidableEq, Repr

inductive RuntimeError
  | yikes
  | statFailed
  | openFailed
  | fstatFailed
  | unsupportedFileType
  deriving DecidableEq, Repr

/-- `InputStream::Create` with an allocated id, up to the `Set` that publishes it. -/
def create (fstat : Option FileType) (id : EbbId) : Except RuntimeError EbbId :=
  match fstat with
  | none => .error .fstatFailed
  | some .unknown => .error .unsupportedFileType
  | some _ => .ok id

/-- The hosted `openInputStream`, with the next id that the allocator hands out. -/
def openInputStream (a : Answers) (next : EbbId) : Except RuntimeError EbbId × EbbId :=
  if a.stat then
    match a.fd with
    | none => (.error .openFailed, next)
    | some _ => (create a.fstat next, next + 1)
  else
    (.error .statFailed, next)

/-- Requests are numbered as `open_stream` accepts them: `p` is the request that `p_` was
allocated for. `requests` and `replies` are the messages under way, `opening` the opens whose
id is being published, and `opened` and `completed` record the streams created and the futures
completed for each request. -/
structure State where
  p : Option Nat
  accepted : List Path
  requests : List Path
  next : EbbId
  opening : List (Nat × EbbId)
  opened : List (Nat × EbbId)
  replies : List EbbId
  completed : List (Nat × EbbId)
  nullPromise : Bool
  deriving DecidableEq, Repr

def State.init (next : EbbId) : State := ⟨none, [], [], next, [], [], [], [], false⟩

/-- `Root::open_stream` on a backend. -/
def openStream (s : State) (path : Path) : Except RuntimeError State :=
  match s.p with
  | some _ => .error .yikes
  | none => .ok { s with
      p := some s.accepted.length
      accepted := s.accepted ++ [path]
      requests := s.requests ++ [path] }

/-- `process_message` for `kOPEN_STREAM`, of the request with number `r`. An exception leaves
the handler without a reply. -/
def processOpenStream (s : State) (r : Nat) (a : Answers) : State :=
  match openInputStream a s.next with
  | (.ok id, next) => { s with
      next := next, opening := s.opening ++ [(r, id)], opened := s.opened ++ [(r, id)] }
  | (.error _, next) => { s with next := next }

/-- `process_message` for `kSTREAM_ID`. -/
def processStreamId (s : State) (id : EbbId) : State :=
  match s.p with
  | some r => { s with p := none, completed := s.completed ++ [(r, id)] }
  | none => { s with nullPromise := true }

/-- `request` and `reply` are the delivery of the oldest message to the front end and to the
backend, `set` the completion of the future that publishes an id. -/
inductive Event
  | call (path : Path)
  | request (a : Answers)
  | set (k : Nat) (ok : Bool)
  | reply
  deriving DecidableEq, Repr

def step (s : State) : Event → Option State
  | .call path =>
    match openStream s path with
    | .ok t => some t
    | .error _ => some s
  | .request a =>
    match s.requests with
    | _ :: rest => some (processOpenStream { s with requests := rest }
        (s.accepted.length - s.requests.length) a)
    | [] => none
  | .set k ok =>
    match s.opening[k]? with
    | some (_, id) => some { s with
        opening := s.opening.eraseIdx k
        replies := if ok then s.replies ++ [id] else s.replies }
    | none => none
  | .reply =>
    match s.replies with
    | id :: rest => some (processStreamId { s with replies := rest } id)
    | [] => none

/-- Every call of the front end succeeds on the path, and it is of a supported type. -/
def Answers.Opens (a : Answers) : Prop :=
  a.stat = true ∧ a.fd ≠ none ∧ a.fstat ≠ none ∧ a.fstat ≠ some .unknown

instance (a : Answers) : Decidable a.Opens := inferInstanceAs (Decidable (_ ∧ _ ∧ _ ∧ _))

theorem openInputStream_opens {a : Answers} (h : a.Opens) (next : EbbId) :
    openInputStream a next = (.ok next, next + 1) := by
  obtain ⟨stat, fd, fstat⟩ := a
  obtain ⟨hstat, hfd, hfstat, htype⟩ := h
  obtain ⟨fd, rfl⟩ := Option.ne_none_iff_exists'.mp hfd
  obtain ⟨type, rfl⟩ := Option.ne_none_iff_exists'.mp hfstat
  cases hstat
  cases type with
  | unknown => exact absurd rfl htype
  | _ => rfl

theorem openInputStream_fails {a : Answers} (h : ¬ a.Opens) (next : EbbId) :
    ∃ e m, next ≤ m ∧ openInputStream a next = (.error e, m) := by
  obtain ⟨stat, fd, fstat⟩ := a
  cases stat with
  | false => exact ⟨_, _, Nat.le_refl _, rfl⟩
  | true =>
    cases fd with
    | none => exact ⟨_, _, Nat.le_refl _, rfl⟩
    | some fd =>
      cases fstat with
      | none => exact ⟨_, _, Nat.le_succ _, rfl⟩
      | some type =>
        cases type with
        | unknown => exact ⟨_, _, Nat.le_succ _, rfl⟩
        | _ => exact absurd ⟨rfl, by simp, by simp, by simp⟩ h

/-- Everything a step can do, as a relation. -/
inductive Step (s : State) : Event → State → Prop
  | refused (path : Path) (r : Nat) : s.p = some r → Step s (.call path) s
  | accepted (path : Path) : s.p = none → Step s (.call path) { s with
      p := some s.accepted.length, accepted := s.accepted ++ [path]
      requests := s.requests ++ [path] }
  | opens (a : Answers) (path : Path) (rest : List Path) : a.Opens → s.requests = path :: rest →
      Step s (.request a) { s with
        requests := rest, next := s.next + 1
        opening := s.opening ++ [(s.accepted.length - s.requests.length, s.next)]
        opened := s.opened ++ [(s.accepted.length - s.requests.length, s.next)] }
  | throws (a : Answers) (path : Path) (rest : List Path) (next : EbbId) : s.next ≤ next →
      ¬ a.Opens → s.requests = path :: rest →
      Step s (.request a) { s with requests := rest, next := next }
  | published (k r : Nat) (id : EbbId) : s.opening[k]? = some (r, id) →
      Step s (.set k true)
        { s with opening := s.opening.eraseIdx k, replies := s.replies ++ [id] }
  | unpublished (k r : Nat) (id : EbbId) : s.opening[k]? = some (r, id) →
      Step s (.set k false) { s with opening := s.opening.eraseIdx k }
  | reply (r : Nat) (id : EbbId) (rest : List EbbId) : s.p = some r → s.replies = id :: rest →
      Step s .reply
        { s with replies := rest, p := none, completed := s.completed ++ [(r, id)] }
  | nullPromise (id : EbbId) (rest : List EbbId) : s.p = none → s.replies = id :: rest →
      Step s .reply { s with replies := rest, nullPromise := true }

theorem step_cases {s t : State} {e : Event} (h : step s e = some t) : Step s e t := by
  cases e with
  | call path =>
    simp only [step, openStream] at h
    cases hp : s.p with
    | none =>
      simp only [hp] at h
      cases h
      exact .accepted path hp
    | some r =>
      simp only [hp] at h
      cases h
      exact .refused path r hp
  | request a =>
    simp only [step] at h
    split at h
    · rename_i path rest hr
      by_cases ha : a.Opens
      · simp only [processOpenStream, openInputStream_opens ha] at h
        cases h
        exact .opens a path rest ha hr
      · obtain ⟨err, next, hle, hfail⟩ := openInputStream_fails ha s.next
        simp only [processOpenStream, hfail] at h
        cases h
        exact .throws a path rest next hle ha hr
    · cases h
  | set k ok =>
    simp only [step] at h
    split at h
    · rename_i r id hk
      cases h
      cases ok with
      | true => exact .published k r id hk
      | false => exact .unpublished k r id hk
    · cases h
  | reply =>
    simp only [step] at h
    split at h
    · rename_i id rest hr
      cases hp : s.p with
      | none =>
        simp only [processStreamId, hp] at h
        cases h
        have ht := Step.nullPromise id rest hp hr
        rwa [hp] at ht
      | some r =>
        simp only [processStreamId, hp] at h
        cases h
        exact .reply r id rest hp hr
    · cases h

end EbbrtContrib.OpenStream
