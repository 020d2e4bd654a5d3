import EbbrtContrib.Argv

namespace EbbrtContrib.CommandLine

open CString Argv InPlace

/-- The options of `getopt`'s string that take no argument, and those that take one. -/
inductive Flag
  | h | B | C | E | I | b | c | e | v | n | o | m | p | s | t
  deriving DecidableEq, Repr

inductive Valued
  | A | F | P | R
  deriving DecidableEq, Repr

def Flag.char : Flag → Byte
  | .h => 0x68
  | .B => 0x42
  | .C => 0x43
  | .E => 0x45
  | .I => 0x49
  | .b => 0x62
  | .c => 0x63
  | .e => 0x65
  | .v => 0x76
  | .n => 0x6e
  | .o => 0x6f
  | .m => 0x6d
  | .p => 0x70
  | .s => 0x73
  | .t => 0x74

def Valued.char : Valued → Byte
  | .A => 0x41
  | .F => 0x46
  | .P => 0x50
  | .R => 0x52

/-- What a call of `getopt` returns: an option with its `optarg`, or a question mark for the
`optopt` that is unknown or has no argument. -/
inductive Report
  | flag (option : Flag)
  | valued (option : Valued) (optarg : List Byte)
  | unknown (optopt : Byte)
  | missing (option : Valued)
  deriving DecidableEq, Repr

structure Tests where
  cpp : Bool
  ebb : Bool
  malloc : Bool
  standardin : Bool
  filein : Option (List Byte)
  cmdline : Bool
  env : Bool
  spawn : Bool
  mp : Bool
  timing : Bool
  nullfunc : Bool
  nullobject : Bool
  bootargs : Bool
  deriving DecidableEq, Repr

/-- `argv` stands for `argc` as well. -/
structure Arguments where
  tests : Tests
  backend : Bool
  standalone : Bool
  repeatCnt : Int
  actionCnt : Int
  processorCnt : Int
  argv : List (List Byte)
  deriving DecidableEq, Repr

def ACTION_CNT : Int := 1000000
def REPEAT_CNT : Int := 10
def PROCESSOR_CNT : Int := 1

/-- What `process_args` starts from. -/
def Arguments.start (argv : List (List Byte)) : Arguments where
  tests := ⟨false, false, false, false, none, false, false, false, false, false, false, false,
    false⟩
  backend := false
  standalone := false
  repeatCnt := REPEAT_CNT
  actionCnt := ACTION_CNT
  processorCnt := PROCESSOR_CNT
  argv := argv

def isdigit (c : Byte) : Bool := 0x30 ≤ c && c ≤ 0x39

def isprint (c : Byte) : Bool := 0x20 ≤ c && c ≤ 0x7e

def digits (s : List Byte) : Int :=
  (s.takeWhile isdigit).foldl (fun n c => 10 * n + (c.toNat - 0x30)) 0

/-- The number is not bounded here; `atoi` leaves undefined what no `int` can hold. -/
def atoi (s : List Byte) : Int :=
  match s.dropWhile isspace with
  | [] => 0
  | c :: s => if c = 0x2d then -digits s else if c = 0x2b then digits s else digits (c :: s)

inductive Message
  | usage
  | pathRequired
  | unknownOption (optopt : Byte)
  | unknownCharacter (optopt : Byte)
  | processing
  deriving DecidableEq, Repr

/-- `case '?'` -/
def complain (optopt : Byte) : Message :=
  if optopt = Valued.F.char then .pathRequired
  else if isprint optopt then .unknownOption optopt
  else .unknownCharacter optopt

/-- The `switch` of `process_args`; an error is what it returns, with the message before it. -/
def handle (args : Arguments) : Report → Except (Int × List Message) Arguments
  | .flag .h => .error (-1, [.usage])
  | .valued .A optarg => .ok { args with actionCnt := atoi optarg }
  | .flag .B => .ok { args with backend := true }
  | .flag .C => .ok { args with tests := { args.tests with cmdline := true } }
  | .flag .E => .ok { args with tests := { args.tests with env := true } }
  | .valued .F optarg => .ok { args with tests := { args.tests with filein := some optarg } }
  | .flag .I => .ok { args with tests := { args.tests with standardin := true } }
  | .valued .P optarg => .ok { args with processorCnt := atoi optarg }
  | .valued .R optarg => .ok { args with repeatCnt := atoi optarg }
  | .flag .m => .ok { args with tests := { args.tests with malloc := true } }
  | .flag .n => .ok { args with tests := { args.tests with nullfunc := true } }
  | .flag .o => .ok { args with tests := { args.tests with nullobject := true } }
  | .flag .b => .ok { args with tests := { args.tests with bootargs := true } }
  | .flag .c => .ok { args with tests := { args.tests with cpp := true } }
  | .flag .e => .ok { args with tests := { args.tests with ebb := true } }
  | .flag .p => .ok { args with tests := { args.tests with mp := true } }
  | .flag .s => .ok { args with tests := { args.tests with spawn := true } }
  | .flag .t => .ok { args with tests := { args.tests with timing := true } }
  | .unknown optopt => .error (0, [complain optopt])
  | .missing option => .error (0, [complain option.char])
  -- no case of its own: `default`
  | .flag .v => .error (-1, [])

/-- What a call of `process_args` returns, `*args` as it leaves them, and its messages. -/
structure Parsed where
  rc : Int
  args : Arguments
  printed : List Message
  deriving DecidableEq, Repr

def scanOptions : Arguments → List Report → Parsed
  | args, [] => ⟨1, args, []⟩
  | args, r :: rs =>
    match handle args r with
    | .ok args => scanOptions args rs
    | .error (rc, printed) => ⟨rc, args, printed⟩

section

variable (getopt : List (List Byte) → List Report)

def processArgs (argv : List (List Byte)) : Parsed := scanOptions (.start argv) (getopt argv)

/-- The four programs that are built from the source, and what each is started with: hosted and
bare-metal, and both of them `__STANDALONE__`. -/
inductive Start
  | frontend (argv : List (List Byte))
  | backend (argv : List (List Byte))
  | standaloneHosted (argv : List (List Byte))
  | standaloneBareMetal (cmdline : CStr)

/-- `rc` is what `init` returns. `tokenized` is what `string_to_argv` returned, if it was called,
and `argv` what the arguments of `process_args` were set to, if they were. -/
structure Init where
  rc : Int
  tokenized : Option StrToArgvErr
  argv : Option (List (List Byte))
  parsed : Parsed
  args : Arguments
  allocated : Bool
  printed : List Message
  deriving DecidableEq, Repr

/-- The strings that the outputs of `string_to_argv` stand for. -/
def vector (out : ArgvResult) : Option (List (List Byte)) := do
  let argc ← out.argc
  let slots ← out.argv
  return (List.range argc).map fun (i : Nat) =>
    match slots[i]? with
    | some (.ptr p) => strAt out.str p
    | some .null | some .uninit | none => []

/-- The test of what `process_args` has returned. -/
def Parsed.result (p : Parsed) (tokenized : Option StrToArgvErr)
    (argv : Option (List (List Byte))) : Init :=
  if p.rc = 0 then ⟨0, tokenized, argv, p, p.args, false, p.printed ++ [.processing]⟩
  else ⟨1, tokenized, argv, p, p.args, false, p.printed⟩

/-- `stack` is what uninitialised `argc` and `argv` stand for. -/
def init (stack : List (List Byte)) : Start → Except Fault Init
  | .frontend argv =>
    let i := (processArgs getopt argv).result none (some argv)
    if i.rc = 1 ∧ i.args.backend then .ok { i with rc := 0, allocated := true } else .ok i
  | .backend argv | .standaloneHosted argv =>
    .ok ((processArgs getopt argv).result none (some argv))
  | .standaloneBareMetal cmdline => do
    let out ← stringToArgv cmdline
    let i := (processArgs getopt ((vector out).getD stack)).result (some out.err) (vector out)
    return if i.rc = 1 then { i with args := { i.args with standalone := true } } else i

inductive Test
  | cmdline
  | env
  | standardin
  | filein
  | bootargs
  | timing
  | nullfunc
  | nullobject
  | cpp
  | ebb
  | spawn
  | mp
  | malloc
  deriving DecidableEq, Repr

/-- The first line of each test. -/
def Tests.selects (t : Tests) : Test → Bool
  | .cmdline => t.cmdline
  | .env => t.env
  | .standardin => t.standardin
  | .filein => t.filein.isSome
  | .bootargs => t.bootargs
  | .timing => t.timing
  | .nullfunc => t.nullfunc
  | .nullobject => t.nullobject
  | .cpp => t.cpp
  | .ebb => t.ebb
  | .spawn => t.spawn
  | .mp => t.mp
  | .malloc => t.malloc

/-- The tests that all four programs call. -/
def benchmarks : List Test :=
  [.timing, .nullfunc, .nullobject, .cpp, .ebb, .spawn, .mp, .malloc]

def Start.calls : Start → List Test
  | .frontend _ => [.cmdline, .env, .standardin, .filein] ++ benchmarks
  | .backend _ => [.cmdline, .env, .standardin, .filein, .bootargs] ++ benchmarks
  | .standaloneHosted _ => benchmarks
  | .standaloneBareMetal _ => .bootargs :: benchmarks

inductive Ending
  | cpuExit
  | processExit
  | powerOff
  deriving DecidableEq, Repr

def Start.ending : Start → Ending
  | .frontend _ | .standaloneHosted _ => .cpuExit
  | .backend _ => .processExit
  | .standaloneBareMetal _ => .powerOff

/-- `ran` are the tests that do not return at once. -/
structure Outcome where
  init : Init
  ran : List Test
  ending : Ending
  deriving DecidableEq, Repr

def appMain (stack : List (List Byte)) (start : Start) : Except Fault Outcome := do
  let i ← init getopt stack start
  return ⟨i, if i.rc = 0 then [] else start.calls.filter i.args.tests.selects, start.ending⟩

end

/-- The options of one element of the vector, and the one whose argument is the next element. -/
def optionsOf : List Byte → List Report × Option Valued
  | [] => ([], none)
  | ch :: chs =>
    match [Flag.h, .B, .C, .E, .I, .b, .c, .e, .v, .n, .o, .m, .p, .s, .t].find? (·.char = ch),
      [Valued.A, .F, .P, .R].find? (·.char = ch) with
    | some option, _ => (.flag option :: (optionsOf chs).1, (optionsOf chs).2)
    | none, some option => if chs = [] then ([], some option) else ([.valued option chs], none)
    | none, none => (.unknown ch :: (optionsOf chs).1, (optionsOf chs).2)

def dash : Byte := 0x2d

/-- The elements behind the program's name, up to `--`; others than options are skipped. -/
def reports : List (List Byte) → List Report
  | [] => []
  | arg :: rest =>
    if arg = [dash, dash] then []
    else if arg.head? = some dash ∧ arg ≠ [dash] then
      match optionsOf arg.tail with
      | (rs, none) => rs ++ reports rest
      | (rs, some option) =>
        match rest with
        | [] => rs ++ [.missing option]
        | optarg :: rest => rs ++ .valued option optarg :: reports rest
    else reports rest

/-- `getopt`, called until it returns -1. -/
def getopt (argv : List (List Byte)) : List Report := reports argv.tail

end EbbrtContrib.CommandLine
