import EbbrtContrib.ArgvQuoting
import EbbrtContrib.ArgvStrings

namespace EbbrtContrib.ArgvBalance

open CString Argv Tokenizer ArgvQuotes ArgvQuoting ArgvStrings

inductive Mode
  | outside
  | raw
  | cooked
  deriving DecidableEq, Repr

/-- How far an input is quoted. After a backslash the next character is consumed, in every
mode and whatever it is. -/
structure Quoting where
  mode : Mode
  escaped : Bool
  deriving DecidableEq, Repr

def Quoting.start : Quoting := ⟨.outside, false⟩

/-- The mode after a character that is not consumed. -/
def Mode.next : Mode → Byte → Mode
  | .outside, c => if c = squote then .raw else if c = dquote then .cooked else .outside
  | .raw, c => if c = squote then .outside else .raw
  | .cooked, c => if c = dquote then .outside else .cooked

def Quoting.step (q : Quoting) (c : Byte) : Quoting :=
  if q.escaped then ⟨q.mode, false⟩
  else if c = bslash then ⟨q.mode, true⟩
  else ⟨q.mode.next c, false⟩

def quoting (s : List Byte) : Quoting := s.foldl Quoting.step .start

/-- What the lexer knows of the quoting. -/
def Phase.quoting : Phase → Quoting
  | .between | .word | .closed => ⟨.outside, false⟩
  | .wordEsc => ⟨.outside, true⟩
  | .raw => ⟨.raw, false⟩
  | .rawEsc => ⟨.raw, true⟩
  | .cooked => ⟨.cooked, false⟩
  | .cookedEsc => ⟨.cooked, true⟩

theorem quoting_unquoted (l : Lexer) (c : Byte) :
    Phase.quoting (l.unquoted c).phase = Quoting.step ⟨.outside, false⟩ c := by
  rw [Lexer.unquoted]
  by_cases hb : c = bslash
  · simp [hb, Quoting.step, Phase.quoting]
  by_cases hq : c = squote
  · simp [hq, Quoting.step, Mode.next, Phase.quoting]
  by_cases hd : c = dquote
  · simp [hd, Quoting.step, Mode.next, Phase.quoting]
  have hstep : Quoting.step ⟨.outside, false⟩ c = ⟨.outside, false⟩ := by
    simp [Quoting.step, Mode.next, hb, hq, hd]
  rw [if_neg hb, if_neg hq, if_neg hd, hstep]
  split <;> rfl

theorem quoting_step (l : Lexer) (c : Byte) :
    Phase.quoting (l.step c).phase = (Phase.quoting l.phase).step c := by
  rw [Lexer.step]
  cases hp : l.phase
  case between =>
    by_cases hs : isspace c
    · obtain ⟨-, hb, hq, hd⟩ := separator_of_isspace hs
      simp [hs, hp, Phase.quoting, Quoting.step, Mode.next, hb, hq, hd]
    · dsimp only
      rw [if_neg hs]
      exact quoting_unquoted l c
  case word => exact quoting_unquoted l c
  case closed => exact quoting_unquoted l c
  case wordEsc => rfl
  case rawEsc => rfl
  case cookedEsc => rfl
  case raw =>
    by_cases hq : c = squote
    · simp [hq, Phase.quoting, Quoting.step, Mode.next]
    · by_cases hb : c = bslash <;> simp [hq, hb, Phase.quoting, Quoting.step, Mode.next]
  case cooked =>
    by_cases hd : c = dquote
    · simp [hd, Phase.quoting, Quoting.step, Mode.next]
    · by_cases hb : c = bslash <;> simp [hd, hb, Phase.quoting, Quoting.step, Mode.next]

theorem quoting_read (l : Lexer) (s : List Byte) :
    Phase.quoting (l.read s).phase = s.foldl Quoting.step (Phase.quoting l.phase) := by
  induction s generalizing l with
  | nil => rfl
  | cons c s ih => rw [Lexer.read_cons, ih, quoting_step, List.foldl_cons]

/-- The lexer and the automaton are inside the same quotation. -/
theorem quoting_lex (s : List Byte) : quoting s = Phase.quoting (lex s).phase :=
  (quoting_read .start s).symm

theorem open_iff (s : List Byte) : arguments s = none ↔ (quoting s).mode ≠ .outside := by
  rw [arguments_eq_none_iff, quoting_lex]
  cases (lex s).phase <;> simp [Phase.quoted, Phase.quoting]

/-- A quotation left open is reported, with both outputs untouched and each allocation freed
once; every other input sets both outputs. -/
theorem unbalanced_iff_open (str : CStr) :
    ∃ out, stringToArgv str = .ok out ∧
      (out.err = .unbalancedQuote ↔ (quoting str.bytes).mode ≠ .outside) ∧
      (out.err = .unbalancedQuote →
        out.argc = none ∧ out.argv = none ∧ ∀ b, out.freed.count b = 1) ∧
      (out.err ≠ .unbalancedQuote → out.err = .ok ∧ out.argc.isSome ∧ out.argv.isSome) := by
  obtain ⟨out, hout, hret⟩ := stringToArgv_returns str
  refine ⟨out, hout, ?_⟩
  rw [← open_iff]
  cases hargs : arguments str.bytes with
  | none =>
    rw [hargs] at hret
    obtain ⟨herr, hargc, hargv, hfreed⟩ := hret
    refine ⟨iff_of_true herr rfl, fun _ => ⟨hargc, hargv, fun b => ?_⟩, fun h => absurd herr h⟩
    rw [hfreed]
    cases b <;> rfl
  | some args =>
    rw [hargs] at hret
    obtain ⟨herr, hargc, slots, hargv, -⟩ := hret
    have hne : out.err ≠ .unbalancedQuote := by
      rw [herr]
      exact nofun
    refine ⟨iff_of_false hne (by simp), fun h => absurd h hne, fun _ => ⟨herr, ?_, ?_⟩⟩
    · rw [hargc]
      rfl
    · rw [hargv]
      rfl

end EbbrtContrib.ArgvBalance
