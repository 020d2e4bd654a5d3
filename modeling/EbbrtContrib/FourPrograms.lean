import EbbrtContrib.ArgvQuoting
import EbbrtContrib.BlobRoundTrip
import EbbrtContrib.CommandLineChecks

namespace EbbrtContrib.FourPrograms

open CString Fallible Argv ArgvStrings ArgvBalance ArgvQuoting ArgBlobs BlobRoundTrip CommandLine
  CommandLineChecks

/-- The four programs that are built from the source. -/
inductive Program
  | frontend
  | backend
  | standaloneHosted
  | standaloneBareMetal
  deriving DecidableEq, Repr

/-- What a pointer of `argv_vector` is read as. It leads into the copy that the constructor made of
the data, whose memory holds `copy` by then. -/
def read (copy : List Byte) : Slot → List Byte
  | .ptr p => strAt (dup copy) p
  | .null | .uninit => []

/-- `argv(i)` for every `i` below `argc()`, as the constructor of a node makes them of `data`. -/
def cmdLineArgs (data copy : List Byte) : Except ArgBlobs.Fault (List (List Byte)) := do
  let c ← CmdLineArgs.construct data
  return (List.range c.argc).map fun i => read copy (c.argv i)

/-- What each program is started with. The first two get the arguments that the front end has
published; the last one is booted with a command line. -/
def Program.start (argv : List CStr) (copy : List Byte) (line : CStr) :
    Program → Except ArgBlobs.Fault Start
  | .frontend => return .frontend (← cmdLineArgs (CmdLineArgs.init argv) copy)
  | .backend => return .backend (← cmdLineArgs (CmdLineArgs.init argv) copy)
  | .standaloneHosted => return .standaloneHosted (argv.map CStr.bytes)
  | .standaloneBareMetal => return .standaloneBareMetal line

def Program.publishes : Program → Bool
  | .frontend | .backend => true
  | .standaloneHosted | .standaloneBareMetal => false

/-- A front end that was asked for a backend allocates it and runs no test of its own. -/
def Program.allocates (getopt : List (List Byte) → List Report) (argv : List (List Byte)) :
    Program → Bool
  | .frontend => (processArgs getopt argv).rc ≠ 0 && (processArgs getopt argv).args.backend
  | .backend | .standaloneHosted | .standaloneBareMetal => false

/-- The benchmarks that a command line selects. -/
def selected (p : Parsed) : List Test :=
  if p.rc = 0 then [] else benchmarks.filter p.args.tests.selects

/-- The list can be published, and `line` quotes its strings. -/
structure Launch (argv : List CStr) (line : CStr) : Prop where
  nonempty : argv ≠ []
  size : (blob argv).length ≤ INT_MAX
  count : argv.length < INT_MAX
  quoted : ∃ lead qs, line = commandLine lead qs ∧ qs.map Quoted.arg = argv ∧
    ∀ q ∈ qs.dropLast, q.after.bytes ≠ []

section

variable {getopt : List (List Byte) → List Report} {stack : List (List Byte)} {argv : List CStr}
  {line : CStr}

theorem Ends.arguments {s : List Byte} {args : List (List Byte)} (h : Ends args (Tokenizer.lex s)) :
    ArgvStrings.arguments s = some args := by
  unfold ArgvStrings.arguments
  generalize Tokenizer.lex s = l at h
  cases h with
  | between => rfl
  | closed x t toks h => exact congrArg some h

theorem arguments_commandLine (h : Launch argv line) :
    arguments line.bytes = some (argv.map CStr.bytes) := by
  obtain ⟨lead, qs, rfl, rfl, hsep⟩ := h.quoted
  refine Ends.arguments ?_
  have hlead : Tokenizer.Lexer.start.read lead.bytes = .start :=
    ArgvResult.read_spaces [] lead.space
  rw [Tokenizer.lex, commandLine, Tokenizer.Lexer.read_append, hlead, List.map_map]
  exact ends_of_read qs hsep []

/-- What a node reads is what the front end was started with, while the copy is as it was. -/
theorem cmdLineArgs_published (h : Launch argv line) :
    cmdLineArgs (CmdLineArgs.init argv) (CmdLineArgs.init argv) = .ok (argv.map CStr.bytes) := by
  have hshort : Short argv := ⟨h.nonempty, h.size, h.count⟩
  obtain ⟨hc, hargc⟩ := hshort.construct
  have hcopy : Holds (fun i => (dup (blob argv))[i]?.getD NUL) 0 (blob argv) := by
    intro i hi
    change (dup (blob argv))[0 + i]?.getD NUL = (blob argv)[i]
    rw [Nat.zero_add, dup, List.getElem?_append_left hi, List.getElem?_eq_getElem hi,
      Option.getD_some]
  obtain ⟨hptr, -⟩ := (lists_iff_of_points h.nonempty h.size (points_decoded _)).mpr hcopy
  rw [cmdLineArgs, hc, cmdLineArgs_init]
  refine congrArg Except.ok (List.ext_getElem ?_ fun i hi hi' => ?_)
  · rw [List.length_map, List.length_map, List.length_range, hargc]
  · rw [List.length_map] at hi'
    obtain ⟨p, hp, hstr⟩ := hptr i hi'
    have hp : (decoded (blob argv)).argv i = .ptr p := hp
    rw [List.getElem_map, List.getElem_map, List.getElem_range, hp]
    exact strAt_of_holds argv[i].nul_free hstr

/-- Each program parses the same vector of strings, and runs what it selects. -/
structure Agrees (getopt : List (List Byte) → List Report) (argv : List (List Byte))
    (p : Program) (o : Outcome) : Prop where
  vector : o.init.argv = some argv
  parsed : o.init.parsed = processArgs getopt argv
  allocated : o.init.allocated = p.allocates getopt argv
  ran : o.ran.filter (· ∈ benchmarks) =
    if p.allocates getopt argv then [] else selected (processArgs getopt argv)

theorem calls_benchmarks (start : Start) : start.calls.filter (· ∈ benchmarks) = benchmarks := by
  cases start <;> rfl

theorem ran_benchmarks (start : Start) (p : Parsed) :
    (if (if p.rc = 0 then (0 : Int) else 1) = 0 then [] else
      start.calls.filter p.args.tests.selects).filter (· ∈ benchmarks) = selected p := by
  rw [selected]
  by_cases hrc : p.rc = 0
  · rw [if_pos hrc, if_pos hrc]
    rfl
  · rw [if_neg hrc, if_neg hrc, if_neg (by decide), List.filter_comm, calls_benchmarks]

theorem frontend_agrees (getopt : List (List Byte) → List Report) (stack vec : List (List Byte)) :
    ∃ o, appMain getopt stack (.frontend vec) = .ok o ∧ Agrees getopt vec .frontend o := by
  have hallocates : Program.allocates getopt vec .frontend = true ↔
      (if (processArgs getopt vec).rc = 0 then (0 : Int) else 1) = 1 ∧
        (processArgs getopt vec).args.backend = true := by
    simp [Program.allocates]
  rw [appMain, CommandLine.init, result_rc]
  by_cases hb : (if (processArgs getopt vec).rc = 0 then (0 : Int) else 1) = 1 ∧
      (processArgs getopt vec).args.backend = true
  · rw [if_pos hb]
    refine ⟨_, rfl, rfl, rfl, (hallocates.mpr hb).symm, ?_⟩
    rw [hallocates.mpr hb]
    rfl
  · rw [if_neg hb]
    have hnot := Bool.eq_false_iff.mpr (hallocates.not.mpr hb)
    refine ⟨_, rfl, rfl, rfl, hnot.symm, ?_⟩
    rw [hnot]
    exact ran_benchmarks (.frontend vec) (processArgs getopt vec)

theorem backend_agrees (getopt : List (List Byte) → List Report) (stack vec : List (List Byte)) :
    ∃ o, appMain getopt stack (.backend vec) = .ok o ∧ Agrees getopt vec .backend o := by
  rw [appMain, CommandLine.init, result_rc]
  exact ⟨_, rfl, rfl, rfl, rfl, ran_benchmarks (.backend vec) (processArgs getopt vec)⟩

theorem standaloneHosted_agrees (getopt : List (List Byte) → List Report)
    (stack vec : List (List Byte)) : ∃ o, appMain getopt stack (.standaloneHosted vec) = .ok o ∧
      Agrees getopt vec .standaloneHosted o := by
  rw [appMain, CommandLine.init, result_rc]
  exact ⟨_, rfl, rfl, rfl, rfl, ran_benchmarks (.standaloneHosted vec) (processArgs getopt vec)⟩

theorem standaloneBareMetal_agrees (getopt : List (List Byte) → List Report)
    (stack : List (List Byte)) {line : CStr} {vec : List (List Byte)}
    (h : arguments line.bytes = some vec) :
    ∃ o, appMain getopt stack (.standaloneBareMetal line) = .ok o ∧
      Agrees getopt vec .standaloneBareMetal o := by
  obtain ⟨out, hout, hret⟩ := stringToArgv_returns line
  rw [h] at hret
  have hvector := vector_returns hret
  have hinit : ∃ args, args.tests = (processArgs getopt vec).args.tests ∧
      CommandLine.init getopt stack (.standaloneBareMetal line) =
        .ok { (processArgs getopt vec).result (some out.err) (some vec) with args := args } := by
    rw [CommandLine.init, hout, ok_bind, hvector, Option.getD_some, result_rc]
    by_cases hrc : (if (processArgs getopt vec).rc = 0 then (0 : Int) else 1) = 1
    · refine ⟨{ (processArgs getopt vec).args with standalone := true }, rfl, ?_⟩
      exact congrArg Except.ok (if_pos hrc)
    · exact ⟨(processArgs getopt vec).args, rfl, congrArg Except.ok (if_neg hrc)⟩
  obtain ⟨args, hargs, hinit⟩ := hinit
  rw [appMain, hinit, result_rc]
  refine ⟨_, rfl, rfl, rfl, rfl, ?_⟩
  rw [hargs]
  exact ran_benchmarks (.standaloneBareMetal line) (processArgs getopt vec)

/-- Whichever of the four programs is launched with a list of arguments, it parses these, and the
four run the same benchmarks in the same order; only a front end that was asked for a backend runs
none. The arguments that are published must still be in the memory of the copy. -/
theorem programs_agree (getopt : List (List Byte) → List Report) (stack : List (List Byte))
    (h : Launch argv line) (p : Program) {copy : List Byte}
    (hcopy : p.publishes → copy = CmdLineArgs.init argv) :
    ∃ start o, p.start argv copy line = .ok start ∧ appMain getopt stack start = .ok o ∧
      Agrees getopt (argv.map CStr.bytes) p o := by
  cases p with
  | frontend =>
    rw [Program.start, hcopy rfl, cmdLineArgs_published h]
    obtain ⟨o, ho, hagrees⟩ := frontend_agrees getopt stack (argv.map CStr.bytes)
    exact ⟨_, o, rfl, ho, hagrees⟩
  | backend =>
    rw [Program.start, hcopy rfl, cmdLineArgs_published h]
    obtain ⟨o, ho, hagrees⟩ := backend_agrees getopt stack (argv.map CStr.bytes)
    exact ⟨_, o, rfl, ho, hagrees⟩
  | standaloneHosted =>
    obtain ⟨o, ho, hagrees⟩ := standaloneHosted_agrees getopt stack (argv.map CStr.bytes)
    exact ⟨_, o, rfl, ho, hagrees⟩
  | standaloneBareMetal =>
    obtain ⟨o, ho, hagrees⟩ := standaloneBareMetal_agrees getopt stack (arguments_commandLine h)
    exact ⟨_, o, rfl, ho, hagrees⟩

/-- `u -t`, quoted as `'u' "-t"`. -/
def timing : List CStr := [⟨[0x75], by decide⟩, ⟨[0x2d, 0x74], by decide⟩]

def timingQuoted : List Quoted :=
  [⟨.raw, ⟨[0x75], by decide⟩, .one⟩, ⟨.cooked, ⟨[0x2d, 0x74], by decide⟩, .none⟩]

theorem timing_launch : Launch timing (commandLine .none timingQuoted) where
  nonempty := by simp [timing]
  size := by decide
  count := by decide
  quoted := ⟨.none, timingQuoted, rfl, rfl, by simp [timingQuoted, Spaces.one]⟩

theorem timing_agree : ∃ start o,
    Program.backend.start timing (CmdLineArgs.init timing) (commandLine .none timingQuoted) =
      .ok start ∧ appMain CommandLine.getopt [] start = .ok o ∧
      Agrees CommandLine.getopt (timing.map CStr.bytes) .backend o :=
  programs_agree CommandLine.getopt [] timing_launch .backend fun _ => rfl

end

end EbbrtContrib.FourPrograms
