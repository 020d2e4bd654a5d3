import EbbrtContrib.Fallible
import EbbrtContrib.InputStream
import EbbrtContrib.LittleEndian

namespace EbbrtContrib.StreamMembers

open Fallible InputStream LittleEndian

/-- A `std::runtime_error` with its text, or a read behind the end of the blob. -/
inductive Error
  | runtimeError (what : String)
  | outside
  deriving DecidableEq, Repr

/-- The enumerators of `FileTypes`, in their order. -/
def fileTypes : List FileType :=
  [.unknown, .blockDev, .charDev, .socket, .pipe, .file, .dir, .symlink]

def code (type : FileType) : Nat := fileTypes.idxOf type

structure RootMembers where
  fd : BitVec 32
  len : Size
  type : FileType
  deriving DecidableEq, Repr

/-- `RootMembers::toString`: the bytes of the structure, with padding behind `fd` and `type` whose
content is whatever the memory holds. -/
def RootMembers.toString (rm : RootMembers) (pad pad' : BitVec 32) : List UInt8 :=
  toLE 4 rm.fd.toNat ++ (toLE 4 pad.toNat ++ (toLE 8 rm.len.toNat ++
    (toLE 4 (code rm.type) ++ toLE 4 pad'.toNat)))

/-- What `fstat` tells of a descriptor. -/
structure Stat where
  stMode : BitVec 32
  stSize : Size
  deriving DecidableEq, Repr

/-- `st_mode & S_IFMT` in the cases of the `switch`. -/
def formats : List (BitVec 32 × FileType) :=
  [(0x6000, .blockDev), (0x2000, .charDev), (0xC000, .socket), (0x1000, .pipe), (0x8000, .file),
    (0x4000, .dir), (0xA000, .symlink)]

def fileType (stMode : BitVec 32) : Option FileType := formats.lookup (stMode &&& 0xF000)

/-- `InputStream::Create`, as far as what it publishes; `fstat` fails when there is no `sb`. -/
def create (fd : BitVec 32) (sb : Option Stat) : Except Error RootMembers :=
  match sb with
  | none => .error (.runtimeError "stat")
  | some sb =>
    match fileType sb.stMode with
    | none => .error (.runtimeError "unsupported file type")
    | some type => .ok ⟨fd, if type = .file then sb.stSize else 0, type⟩

/-- A member of the structure that `members_` points to, of `n` bytes at an offset. -/
def member (data : List UInt8) (offset n : Nat) : Except Error Nat :=
  if offset + n ≤ data.length then .ok (ofLE ((data.drop offset).take n)) else .error .outside

def Root.fd (data : List UInt8) : Except Error (BitVec 32) := (.ofNat 32 ·) <$> member data 0 4

def Root.len (data : List UInt8) : Except Error Size := (.ofNat 64 ·) <$> member data 8 8

/-- The type, if the number is one of the enumerators. -/
def Root.type (data : List UInt8) : Except Error (Option FileType) :=
  (fileTypes[·]?) <$> member data 16 4

/-- The hosted constructor: `fd_`, and what it reads from. -/
def hosted (data : List UInt8) : Except Error (BitVec 32 × Source) := do
  let fd ← Root.fd data
  let len ← Root.len data
  match ← Root.type data with
  | some .blockDev | some .charDev | some .socket | some .pipe => return (fd, ⟨true, len⟩)
  | some .file => return (fd, ⟨false, len⟩)
  | none | some .unknown | some .dir | some .symlink =>
    .error (.runtimeError "UNSUPPORTED FILE TYPE")

/-- The bare-metal constructor: `fd_` and `len_`. -/
def bareMetal (data : List UInt8) : Except Error (BitVec 32 × Size) := do
  let fd ← Root.fd data
  let len ← Root.len data
  match ← Root.type data with
  | some .blockDev | some .charDev | some .socket | some .pipe => return (fd, len)
  | some .file => return (fd, len)
  | none | some .unknown | some .dir | some .symlink =>
    .error (.runtimeError "UNSUPPORTED FILE TYPE")

def isFile (data : List UInt8) : Except Error Bool := do
  return (← Root.type data) = some .file

variable {rm : RootMembers} {pad pad' : BitVec 32}

theorem length_toString : (rm.toString pad pad').length = 24 := by
  simp [RootMembers.toString]

theorem member_toString {offset n k : Nat} (hn : offset + n ≤ 24)
    (htake : ((rm.toString pad pad').drop offset).take n = toLE n k) (hk : k < 256 ^ n) :
    member (rm.toString pad pad') offset n = .ok k := by
  rw [member, if_pos (hn.trans_eq length_toString.symm), htake, ofLE_toLE n k hk]

theorem fd_toString : Root.fd (rm.toString pad pad') = .ok rm.fd := by
  have htake : ((rm.toString pad pad').drop 0).take 4 = toLE 4 rm.fd.toNat :=
    List.take_left' (length_toLE _ _)
  rw [Root.fd, member_toString (by decide) htake rm.fd.isLt]
  exact congrArg Except.ok (BitVec.ofNat_toNat 32 rm.fd)

theorem len_toString : Root.len (rm.toString pad pad') = .ok rm.len := by
  have hdrop : (rm.toString pad pad').drop 8 =
      toLE 8 rm.len.toNat ++ (toLE 4 (code rm.type) ++ toLE 4 pad'.toNat) := by
    rw [RootMembers.toString, ← List.append_assoc]
    exact List.drop_left' (by simp)
  have htake : ((rm.toString pad pad').drop 8).take 8 = toLE 8 rm.len.toNat := by
    rw [hdrop]
    exact List.take_left' (length_toLE _ _)
  rw [Root.len, member_toString (by decide) htake rm.len.isLt]
  exact congrArg Except.ok (BitVec.ofNat_toNat 64 rm.len)

theorem getElem?_code (type : FileType) : fileTypes[code type]? = some type := by
  cases type <;> rfl

theorem code_lt (type : FileType) : code type < 256 ^ 4 := by
  cases type <;> decide

theorem type_toString : Root.type (rm.toString pad pad') = .ok (some rm.type) := by
  have hdrop : (rm.toString pad pad').drop 16 = toLE 4 (code rm.type) ++ toLE 4 pad'.toNat := by
    rw [RootMembers.toString, ← List.append_assoc, ← List.append_assoc]
    exact List.drop_left' (by simp)
  have htake : ((rm.toString pad pad').drop 16).take 4 = toLE 4 (code rm.type) := by
    rw [hdrop]
    exact List.take_left' (length_toLE _ _)
  rw [Root.type, member_toString (by decide) htake (code_lt rm.type)]
  exact congrArg Except.ok (getElem?_code rm.type)

theorem hosted_toString : hosted (rm.toString pad pad') =
    match rm.type with
    | .blockDev | .charDev | .socket | .pipe => .ok (rm.fd, ⟨true, rm.len⟩)
    | .file => .ok (rm.fd, ⟨false, rm.len⟩)
    | .unknown | .dir | .symlink => .error (.runtimeError "UNSUPPORTED FILE TYPE") := by
  rw [hosted, fd_toString, len_toString, type_toString]
  cases rm.type <;> rfl

theorem bareMetal_toString : bareMetal (rm.toString pad pad') =
    (Prod.map id Source.len) <$> hosted (rm.toString pad pad') := by
  rw [hosted_toString, bareMetal, fd_toString, len_toString, type_toString]
  cases rm.type <;> rfl

theorem isFile_toString : isFile (rm.toString pad pad') = .ok (decide (rm.type = .file)) := by
  rw [isFile, type_toString]
  cases rm.type <;> rfl

/-- What a descriptor is streamed as, on the front end and on the nodes. -/
structure Published (fd : BitVec 32) (sb : Stat) (rm : RootMembers) (data : List UInt8) : Prop where
  hosted : (hosted data).toOption = (Source.new rm.type sb.stSize).map fun src => (fd, src)
  bareMetal : (bareMetal data).toOption =
    (Source.new rm.type sb.stSize).map fun src => (fd, src.len)
  isFile : ∀ src, Source.new rm.type sb.stSize = some src → isFile data = .ok !src.sd
  refused : Source.new rm.type sb.stSize = none ↔ rm.type = .dir ∨ rm.type = .symlink

/-- `fstat` has no format for `kUNKNOWN`. -/
theorem fileType_ne_unknown (stMode : BitVec 32) : fileType stMode ≠ some .unknown := by
  intro h
  obtain ⟨before, after, hformats, -⟩ := List.lookup_eq_some_iff.mp h
  have hmem : (stMode &&& 0xF000, FileType.unknown) ∈ formats := by
    rw [hformats]
    exact List.mem_append_right _ List.mem_cons_self
  simp [formats] at hmem

theorem published {fd : BitVec 32} {sb : Stat} {type : FileType} (hne : type ≠ .unknown) :
    Published fd sb ⟨fd, if type = .file then sb.stSize else 0, type⟩
      (RootMembers.toString ⟨fd, if type = .file then sb.stSize else 0, type⟩ pad pad') := by
  refine ⟨?_, ?_, ?_, ?_⟩
  · rw [hosted_toString]
    cases type <;> rfl
  · rw [bareMetal_toString, hosted_toString]
    cases type <;> rfl
  · intro src hsrc
    rw [isFile_toString]
    cases type with
    | unknown | dir | symlink => cases hsrc
    | blockDev | charDev | socket | pipe | file =>
      obtain rfl := Option.some.inj hsrc
      rfl
  · cases type with
    | unknown => exact absurd rfl hne
    | blockDev | charDev | socket | pipe | file | dir | symlink => simp [Source.new]

/-- `Create` throws exactly on the types that `fstat` does not know. What it publishes otherwise
makes the same stream of the descriptor on the front end and on every node, whatever bytes are in
the padding; the constructors throw on directories and symbolic links, which it has accepted. -/
theorem create_published (fd : BitVec 32) (sb : Stat) (pad pad' : BitVec 32) :
    (create fd (some sb) = .error (.runtimeError "unsupported file type") ↔
      fileType sb.stMode = none) ∧
    ∀ rm, create fd (some sb) = .ok rm →
      fileType sb.stMode = some rm.type ∧ Published fd sb rm (rm.toString pad pad') := by
  rw [create]
  cases htype : fileType sb.stMode with
  | none => exact ⟨iff_of_true rfl rfl, fun rm hrm => (by cases hrm)⟩
  | some type =>
    refine ⟨iff_of_false (fun h => (by cases h)) (Option.some_ne_none type), fun rm hrm => ?_⟩
    obtain rfl := Except.ok.inj hrm
    exact ⟨rfl, published fun hunknown => fileType_ne_unknown _ (hunknown ▸ htype)⟩

end EbbrtContrib.StreamMembers
