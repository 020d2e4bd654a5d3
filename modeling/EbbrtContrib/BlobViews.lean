import EbbrtContrib.BlobRoundTrip
import EbbrtContrib.Buffers
import EbbrtContrib.EnvironBounds

namespace EbbrtContrib.BlobViews

open CString Argv ArgBlobs BlobRoundTrip Buffers Fallible

/-- A `char *` into the buffer of a `std::string`. -/
structure Pointer where
  buffer : Nat
  offset : Nat
  deriving DecidableEq, Repr

abbrev Strings := Memory (List Byte)

variable {m m' m'' : Strings} {data_ : Nat} {blob : List Byte}

/-- The string in a buffer. -/
def read (m : Strings) (b : Nat) : Except Fault (List Byte) :=
  match m.buffers b with
  | some data => .ok data
  | none => .error .read

/-- What a pointer leads to, if its buffer is still there. -/
def lookup (m : Strings) (p : Pointer) : Option (List Byte) :=
  (m.buffers p.buffer).map (List.drop p.offset)

def pointer (buffer : Nat) : Slot → Option Pointer
  | .ptr i => some ⟨buffer, i⟩
  | .null | .uninit => none

/-- The pointers that an object keeps, by their place. -/
abbrev Views := Nat → Option Pointer

/-- The constructor of `CmdLineArgs`. `data_` is the buffer of the root's shared future, and `str`
a copy of the string in it, which ends with the constructor. -/
def cmdLineArgs (m : Strings) (data_ : Nat) : Except Fault (Views × Strings) := do
  let str := m.next
  let m := m.alloc (← read m data_)
  let c ← CmdLineArgs.construct (← read m str)
  return (fun j => pointer str (c.data j), m.free str)

/-- The bare-metal constructor of `Environment`, with `str` a reference; the views are the entries
that it writes. -/
def environment (heap : Nat → Slot) (m : Strings) (data_ : Nat) :
    Except Fault (Views × Strings) := do
  let str := data_
  let e ← Environment.construct heap (← read m str)
  return (fun j => if j ∈ e.written then pointer str (e.slots j) else none, m)

/-- The root set-up in `InputStream::Root::getRep_BIN`, with `members_` as the only view. -/
def inputStream (m : Strings) (data_ : Nat) : Except Fault (Views × Strings) := do
  let _ ← read m data_
  return (fun j => if j = 0 then some ⟨data_, 0⟩ else none, m)

inductive Decoder
  | cmdLineArgs
  | environment (heap : Nat → Slot)
  | inputStream

def Decoder.construct : Decoder → Strings → Nat → Except Fault (Views × Strings)
  | .cmdLineArgs => BlobViews.cmdLineArgs
  | .environment heap => BlobViews.environment heap
  | .inputStream => BlobViews.inputStream

/-- The offsets that the views are meant to have. -/
def Decoder.offsets (blob : List Byte) : Decoder → List Nat
  | .cmdLineArgs | .environment _ => entries blob
  | .inputStream => [0]

/-- Every view leads to the bytes of the blob at its offset. -/
def Alive (m : Strings) (v : Views) (blob : List Byte) (offsets : List Nat) : Prop :=
  ∀ j p, v j = some p → ∃ i, offsets[j]? = some i ∧ lookup m p = some (blob.drop i)

theorem read_eq {b : Nat} (h : m.buffers b = some blob) : read m b = .ok blob := by
  rw [read, h]

theorem lookup_eq {p : Pointer} (h : m.buffers p.buffer = some blob) :
    lookup m p = some (blob.drop p.offset) := by
  rw [lookup, h]
  rfl

theorem pointer_eq {b : Nat} {s : Slot} {p : Pointer} (h : pointer b s = some p) :
    ∃ i, s = .ptr i ∧ p = ⟨b, i⟩ := by
  cases s with
  | ptr i => exact ⟨i, rfl, (Option.some.inj h).symm⟩
  | null | uninit => cases h

variable {v : Views}

/-- What the constructor of `CmdLineArgs` keeps are pointers into its own copy. -/
theorem cmdLineArgs_views (hblob : m.buffers data_ = some blob)
    (h : cmdLineArgs m data_ = .ok (v, m')) :
    v 0 = some ⟨m.next, 0⟩ ∧ (∀ j p, v j = some p → p.buffer = m.next) ∧
      m' = (m.alloc blob).free m.next := by
  have hstr : (m.alloc blob).buffers m.next = some blob := by
    rw [Memory.alloc_buffers, if_pos rfl]
  rw [cmdLineArgs, read_eq hblob, ok_bind] at h
  dsimp only at h
  rw [read_eq hstr, ok_bind, cmdLineArgs_construct] at h
  split at h
  · cases h
  · cases h
    refine ⟨rfl, fun j p hp => ?_, rfl⟩
    obtain ⟨i, -, rfl⟩ := pointer_eq hp
    rfl

/-- The copy is gone when the constructor has returned. -/
theorem cmdLineArgs_dangles (hblob : m.buffers data_ = some blob)
    (h : cmdLineArgs m data_ = .ok (v, m')) (hl : Memory.Later data_ m' m'') {j : Nat} {p : Pointer}
    (hp : v j = some p) : lookup m'' p = none := by
  obtain ⟨-, hbuffer, rfl⟩ := cmdLineArgs_views hblob h
  have hgone : m''.buffers m.next = none := by
    refine hl.gone (Nat.lt_succ_self _) ?_
    rw [Memory.free_buffers, if_pos rfl]
  rw [lookup, hbuffer j p hp, hgone]
  rfl

/-- The entries that the constructor of `Environment` writes lead to the strings, but for the NULL
behind them. -/
theorem environment_views {heap : Nat → Slot} (hblob : m.buffers data_ = some blob)
    (h : environment heap m data_ = .ok (v, m')) :
    m' = m ∧ ∀ j p, v j = some p → ∃ i, (entries blob)[j]? = some i ∧ p = ⟨data_, i⟩ := by
  obtain ⟨e, he, hslots⟩ := environment_construct heap blob
  have hwritten := (EnvironBounds.construct_written heap blob he).2
  rw [environment, read_eq hblob, ok_bind, he, ok_bind] at h
  cases h
  refine ⟨rfl, fun j p hp => ?_⟩
  simp only [Option.ite_none_right_eq_some] at hp
  obtain ⟨hmem, hp⟩ := hp
  obtain ⟨i, hi, rfl⟩ := pointer_eq hp
  rw [hslots] at hi
  cases hj : (entries blob)[j]? with
  | some i' =>
    rw [hj] at hi
    obtain rfl : i' = i := by simpa using hi
    exact ⟨i', rfl, rfl⟩
  | none =>
    have hlen := List.getElem?_eq_none_iff.mp hj
    rw [length_entries] at hlen
    have hlast : j = countNul blob (toInt blob.length) := by
      rw [hwritten, List.mem_cons, List.mem_range, EnvironBounds.numvar] at hmem
      exact hmem.resolve_right (by omega)
    rw [hj, if_pos hlast] at hi
    cases hi

theorem alive_of_kept {offsets : List Nat} (hkept : m.buffers data_ = some blob)
    (hviews : ∀ j p, v j = some p → ∃ i, offsets[j]? = some i ∧ p = ⟨data_, i⟩) :
    Alive m v blob offsets := by
  intro j p hp
  obtain ⟨i, hi, rfl⟩ := hviews j p hp
  exact ⟨i, hi, lookup_eq hkept⟩

/-- In every state after a constructor has returned, as long as the root keeps its string, the views
are alive, unless the constructor is that of `CmdLineArgs`. -/
theorem alive_iff (d : Decoder) (hblob : m.buffers data_ = some blob)
    (h : d.construct m data_ = .ok (v, m')) (hl : Memory.Later data_ m' m'') :
    Alive m'' v blob (d.offsets blob) ↔ d ≠ .cmdLineArgs := by
  cases d with
  | cmdLineArgs =>
    have hzero := (cmdLineArgs_views hblob h).1
    constructor
    · intro halive
      obtain ⟨i, -, hi⟩ := halive 0 _ hzero
      cases hi.symm.trans (cmdLineArgs_dangles hblob h hl hzero)
    · exact fun hne => absurd rfl hne
  | environment heap =>
    obtain ⟨rfl, hviews⟩ := environment_views hblob h
    exact iff_of_true (alive_of_kept (hl.kept hblob) hviews) Decoder.noConfusion
  | inputStream =>
    have hm : m' = m ∧ v = fun j => if j = 0 then some ⟨data_, 0⟩ else none := by
      rw [Decoder.construct, inputStream, read_eq hblob, ok_bind] at h
      cases h
      exact ⟨rfl, rfl⟩
    obtain ⟨rfl, rfl⟩ := hm
    refine iff_of_true (alive_of_kept (hl.kept hblob) fun j p hp => ?_)
      Decoder.noConfusion
    simp only [Option.ite_none_right_eq_some, Option.some.injEq] at hp
    obtain ⟨rfl, rfl⟩ := hp
    exact ⟨0, rfl, rfl⟩

/-- A root whose string is the blob of `A` and `B`. -/
def twoStrings : Strings where
  buffers b := if b = 0 then some [0x41, NUL, 0x42, NUL] else none
  next := 1
  fresh b hb := if_neg (by omega)

theorem twoStrings_alive : ∃ v m,
    Decoder.construct (.environment fun _ => .uninit) twoStrings 0 = .ok (v, m) ∧
      v 1 = some ⟨0, 2⟩ ∧ Alive m v [0x41, NUL, 0x42, NUL] [0, 2] := by
  have hblob : twoStrings.buffers 0 = some [0x41, NUL, 0x42, NUL] := rfl
  refine ⟨_, _, rfl, by decide, ?_⟩
  exact (alive_iff (.environment fun _ => .uninit) hblob rfl .refl).mpr Decoder.noConfusion

/-- The second argument is behind offset 2 of a buffer that is gone. -/
theorem twoStrings_dangle : ∃ v m, Decoder.construct .cmdLineArgs twoStrings 0 = .ok (v, m) ∧
    v 1 = some ⟨1, 2⟩ ∧ lookup m ⟨1, 2⟩ = none ∧ ¬ Alive m v [0x41, NUL, 0x42, NUL] [0, 2] := by
  refine ⟨_, _, rfl, by decide, by decide, fun halive => ?_⟩
  obtain ⟨i, -, hi⟩ := halive 1 ⟨1, 2⟩ (by decide)
  cases hi

end EbbrtContrib.BlobViews
