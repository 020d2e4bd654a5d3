import EbbrtContrib.ArgvBalance

namespace EbbrtContrib.ArgvSeparators

open CString Argv Tokenizer ArgvQuotes ArgvResult ArgvQuoting ArgvStrings ArgvBalance

/-- `\b`, which ends a token but is no space. -/
def bspace : Byte := 0x08

/-- One or more of the characters that end a token. -/
structure Separators where
  bytes : List Byte
  ne_nil : bytes ≠ []
  separator : ∀ b ∈ bytes, isSeparator b

/-- One separator is replaced by another one, or further ones are put next to it. -/
def Edit (s s' : Separators) : Prop := ∃ c, s.bytes = [c] ∧ (s'.bytes.length = 1 ∨ c ∈ s'.bytes)

/-- A place in a command line that is neither quoted nor escaped. -/
structure Site where
  before : CStr
  after : CStr
  unquoted : quoting before.bytes = .start

theorem isSeparator_iff (c : Byte) : isSeparator c ↔ isspace c ∨ c = bspace := by
  simp only [isspace, isSeparator, bspace, Bool.or_eq_true, Bool.and_eq_true, decide_eq_true_eq,
    UInt8.le_iff_toNat_le, ← UInt8.toNat_inj, UInt8.reduceToNat]
  omega

theorem Separators.nul_free (s : Separators) : NUL ∉ s.bytes := fun hm =>
  absurd (s.separator NUL hm) (by decide)

/-- The command line with `s` at the place. -/
def Site.line (p : Site) (s : Separators) : CStr where
  bytes := p.before.bytes ++ (s.bytes ++ p.after.bytes)
  nul_free := by
    simp only [List.mem_append, not_or]
    exact ⟨p.before.nul_free, s.nul_free, p.after.nul_free⟩

/-- A token is under way at the place. -/
def Site.InToken (p : Site) : Prop := (lex p.before.bytes).phase ≠ .between

instance (p : Site) : Decidable p.InToken := inferInstanceAs (Decidable (_ ≠ _))

/-- The separators that do not end the token under way. -/
def Site.between (p : Site) (s : Separators) : List Byte :=
  if p.InToken then s.bytes.tail else s.bytes

/-- The string `argv[i]`. -/
def argument (out : ArgvResult) (i : Nat) : Option (List Byte) :=
  match out.argv.bind (·[i]?) with
  | some (.ptr p) => some (strAt out.str p)
  | _ => none

/-- The same return code, the same `argc` and the same strings. -/
structure Same (out out' : ArgvResult) : Prop where
  err : out.err = out'.err
  argc : out.argc = out'.argc
  argument : ∀ n, out.argc = some n → ∀ i < n, argument out i = argument out' i

theorem Returns.argument {out : ArgvResult} {args : List (List Byte)}
    (h : Returns out (some args)) {i : Nat} (hi : i < args.length) :
    argument out i = some args[i] := by
  obtain ⟨-, -, slots, hargv, -, hslot⟩ := h
  obtain ⟨p, hp, hread⟩ := hslot i hi
  rw [ArgvSeparators.argument, hargv, Option.bind_some, hp, ← hread]

theorem same_iff {out out' : ArgvResult} {x y : Option (List (List Byte))} (h : Returns out x)
    (h' : Returns out' y) : Same out out' ↔ x = y := by
  cases x with
  | none =>
    obtain ⟨herr, hargc, -⟩ := h
    cases y with
    | none =>
      obtain ⟨herr', hargc', -⟩ := h'
      refine iff_of_true ⟨herr.trans herr'.symm, hargc.trans hargc'.symm, fun n hn => ?_⟩ rfl
      cases hargc.symm.trans hn
    | some args' =>
      refine iff_of_false (fun hs => ?_) nofun
      cases (herr.symm.trans hs.err).trans h'.1
  | some args =>
    cases y with
    | none =>
      refine iff_of_false (fun hs => ?_) nofun
      cases (h.1.symm.trans hs.err).trans h'.1
    | some args' =>
      constructor
      · intro hs
        have hlen : args.length = args'.length :=
          Option.some.inj ((h.2.1.symm.trans hs.argc).trans h'.2.1)
        apply congrArg some
        apply List.ext_getElem hlen
        intro i hi hi'
        have hsame := hs.argument _ h.2.1 i hi
        rw [Returns.argument h hi, Returns.argument h' hi'] at hsame
        exact Option.some.inj hsame
      · rintro hxy
        obtain rfl := Option.some.inj hxy
        refine ⟨h.1.trans h'.1.symm, h.2.1.trans h'.2.1.symm, fun n hn i hi => ?_⟩
        obtain rfl := Option.some.inj (h.2.1.symm.trans hn)
        rw [Returns.argument h hi, Returns.argument h' hi]

/-- The lexer with `pre` in front of the tokens that it has read. -/
def behind (pre : List (List Byte)) (l : Lexer) : Lexer := { l with tokens := pre ++ l.tokens }

theorem unquoted_behind (pre : List (List Byte)) (l : Lexer) (c : Byte) :
    (behind pre l).unquoted c = behind pre (l.unquoted c) := by
  rw [Lexer.unquoted, Lexer.unquoted]
  split_ifs
  · rfl
  · rfl
  · rfl
  · exact congrArg (Lexer.mk .between [] []) (List.append_assoc pre l.tokens [l.token])
  · rfl

theorem step_behind (pre : List (List Byte)) (l : Lexer) (c : Byte) :
    (behind pre l).step c = behind pre (l.step c) := by
  have hphase : (behind pre l).phase = l.phase := rfl
  rw [Lexer.step, Lexer.step, hphase]
  cases l.phase <;> dsimp only
  case between =>
    split_ifs
    · rfl
    · exact unquoted_behind pre l c
  case word => exact unquoted_behind pre l c
  case closed => exact unquoted_behind pre l c
  case wordEsc => rfl
  case rawEsc => rfl
  case cookedEsc => rfl
  case raw => split_ifs <;> rfl
  case cooked => split_ifs <;> rfl

theorem read_behind (pre : List (List Byte)) (l : Lexer) (s : List Byte) :
    (behind pre l).read s = behind pre (l.read s) := by
  induction s generalizing l with
  | nil => rfl
  | cons c s ih => rw [Lexer.read_cons, step_behind, ih, Lexer.read_cons]

/-- Between two tokens every `\b` is a token of its own, the empty one. -/
theorem read_between (toks : List (List Byte)) {s : List Byte} (hs : ∀ b ∈ s, isSeparator b) :
    (⟨.between, [], [], toks⟩ : Lexer).read s =
      ⟨.between, [], [], toks ++ List.replicate (s.count bspace) []⟩ := by
  induction s generalizing toks with
  | nil => simp
  | cons c s ih =>
    have hs' : ∀ b ∈ s, isSeparator b := fun b hb => hs b (List.mem_cons_of_mem c hb)
    by_cases hc : c = bspace
    · subst hc
      have hstep : (⟨.between, [], [], toks⟩ : Lexer).step bspace =
          ⟨.between, [], [], toks ++ [[]]⟩ := rfl
      rw [Lexer.read_cons, hstep, ih _ hs', List.count_cons_self, List.replicate_succ,
        List.append_assoc]
      rfl
    · have hspace : isspace c := ((isSeparator_iff c).mp (hs c List.mem_cons_self)).resolve_right hc
      have hstep : (⟨.between, [], [], toks⟩ : Lexer).step c = ⟨.between, [], [], toks⟩ := by
        simp [Lexer.step, hspace]
      rw [Lexer.read_cons, hstep, ih _ hs', List.count_cons_of_ne hc]

theorem separator_ne {c : Byte} (h : isSeparator c) : c ≠ bslash ∧ c ≠ squote ∧ c ≠ dquote := by
  obtain hs | rfl := (isSeparator_iff c).mp h
  · exact (separator_of_isspace hs).2
  · decide

theorem eq_between {l : Lexer} (h : Lag l) (hp : l.phase = .between) :
    l = ⟨.between, [], [], l.tokens⟩ := by
  obtain ⟨phase, lexeme, token, tokens⟩ := l
  obtain rfl : phase = .between := hp
  obtain ⟨hlexeme, htoken⟩ : lexeme = [] ∧ token = [] := h
  rw [hlexeme, htoken]

/-- The first separator ends the token under way. -/
theorem step_inToken {l : Lexer} (hq : Phase.quoting l.phase = .start) (hp : l.phase ≠ .between)
    {c : Byte} (hc : isSeparator c) : l.step c = ⟨.between, [], [], l.tokens ++ [l.token]⟩ := by
  obtain ⟨hb, hs, hd⟩ := separator_ne hc
  have hunquoted : l.step c = l.unquoted c := by
    rw [Lexer.step]
    cases hphase : l.phase <;> simp [hphase, Phase.quoting, Quoting.start] at hq hp ⊢
  rw [hunquoted, Lexer.unquoted, if_neg hb, if_neg hs, if_neg hd, if_pos hc]

/-- What is left of the separators behind the token under way is read between tokens. -/
theorem lex_line (p : Site) : ∃ toks, ∀ s : Separators, lex (p.before.bytes ++ s.bytes) =
    ⟨.between, [], [], toks ++ List.replicate ((p.between s).count bspace) []⟩ := by
  have hquoting : Phase.quoting (lex p.before.bytes).phase = .start :=
    (quoting_lex _).symm.trans p.unquoted
  by_cases hin : p.InToken
  · refine ⟨(lex p.before.bytes).tokens ++ [(lex p.before.bytes).token], fun s => ?_⟩
    obtain ⟨bytes, hne, hs⟩ := s
    cases bytes with
    | nil => exact absurd rfl hne
    | cons c bytes =>
      have hread : lex (p.before.bytes ++ c :: bytes) =
          ((lex p.before.bytes).step c).read bytes := Lexer.read_append _ _ _
      rw [Site.between, if_pos hin, hread, step_inToken hquoting hin (hs c List.mem_cons_self)]
      exact read_between _ fun b hb => hs b (List.mem_cons_of_mem c hb)
  · refine ⟨(lex p.before.bytes).tokens, fun s => ?_⟩
    have hstart := eq_between (lag_read .start ⟨rfl, rfl⟩ p.before.bytes) (not_not.mp hin)
    have hread : lex (p.before.bytes ++ s.bytes) = (lex p.before.bytes).read s.bytes :=
      Lexer.read_append _ _ _
    rw [Site.between, if_neg hin, hread]
    exact (congrArg (Lexer.read · s.bytes) hstart).trans (read_between _ s.separator)

/-- What follows a separator is read as a command line of its own. -/
theorem arguments_append {a : List Byte} {toks : List (List Byte)}
    (h : lex a = ⟨.between, [], [], toks⟩) (s : List Byte) :
    arguments (a ++ s) = (arguments s).map (toks ++ ·) := by
  have hstart : (⟨.between, [], [], toks⟩ : Lexer) = behind toks .start := by
    rw [behind, Lexer.start, List.append_nil]
  have hread : lex (a ++ s) = behind toks (lex s) := by
    rw [lex, Lexer.read_append]
    change (lex a).read s = _
    rw [h, hstart, read_behind]
    rfl
  rw [arguments, arguments, hread, behind, rest]
  cases (lex s).phase <;> simp [rest]

theorem arguments_line (p : Site) : ∃ toks, ∀ s : Separators, arguments (p.line s).bytes =
    (arguments p.after.bytes).map
      ((toks ++ List.replicate ((p.between s).count bspace) []) ++ ·) := by
  obtain ⟨toks, hlex⟩ := lex_line p
  refine ⟨toks, fun s => ?_⟩
  have hline : (p.line s).bytes = (p.before.bytes ++ s.bytes) ++ p.after.bytes :=
    (List.append_assoc _ _ _).symm
  rw [hline]
  exact arguments_append (hlex s) _

/-- Separators are interchangeable where the rest of the line leaves a quotation open, or where
as many `\b` stand between tokens. -/
theorem separators_interchangeable_iff (p : Site) (s s' : Separators) :
    ∃ out out', stringToArgv (p.line s) = .ok out ∧ stringToArgv (p.line s') = .ok out' ∧
      (Same out out' ↔ (quoting p.after.bytes).mode ≠ .outside ∨
        (p.between s).count bspace = (p.between s').count bspace) := by
  obtain ⟨out, hout, hret⟩ := stringToArgv_returns (p.line s)
  obtain ⟨out', hout', hret'⟩ := stringToArgv_returns (p.line s')
  refine ⟨out, out', hout, hout', ?_⟩
  obtain ⟨toks, hargs⟩ := arguments_line p
  rw [same_iff hret hret', hargs, hargs, ← open_iff]
  cases arguments p.after.bytes with
  | none => exact iff_of_true rfl (.inl rfl)
  | some args =>
    rw [Option.map_some, Option.map_some, Option.some.injEq]
    constructor
    · intro h
      have hlen := congrArg List.length h
      simp only [List.length_append, List.length_replicate] at hlen
      right
      omega
    · intro h
      obtain h | h := h
      · cases h
      · rw [h]

/-- The space of `a b`, and a `\b` put behind it. -/
def oneSpace : Separators := ⟨[0x20], by decide, by simp [isSeparator]⟩

def spaceAndBspace : Separators := ⟨[0x20, bspace], by decide, by simp [isSeparator, bspace]⟩

def twoWords : Site := ⟨⟨[0x61], by decide⟩, ⟨[0x62], by decide⟩, by decide⟩

theorem bspace_adds_argument :
    (∃ out out', stringToArgv (twoWords.line oneSpace) = .ok out ∧ out.argc = some 2 ∧
      stringToArgv (twoWords.line spaceAndBspace) = .ok out' ∧ out'.argc = some 3) ∧
    ¬ ∀ (p : Site) (s s' : Separators) out out', Edit s s' → stringToArgv (p.line s) = .ok out →
      stringToArgv (p.line s') = .ok out' → Same out out' := by
  refine ⟨⟨_, _, rfl, rfl, rfl, rfl⟩, fun h => ?_⟩
  have hedit : Edit oneSpace spaceAndBspace := ⟨0x20, rfl, .inr List.mem_cons_self⟩
  have hsame := (h twoWords oneSpace spaceAndBspace _ _ hedit rfl rfl).argc
  cases hsame

end EbbrtContrib.ArgvSeparators
