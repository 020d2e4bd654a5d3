import EbbrtContrib.ArgvResult

namespace EbbrtContrib.ArgvQuoting

open CString Argv Tokenizer ArgvQuotes ArgvResult

/-- `'...'` or `"..."` -/
inductive Form
  | raw
  | cooked
  deriving DecidableEq, Repr

def Form.quote : Form → Byte
  | .raw => squote
  | .cooked => dquote

/-- What the text in quotes is read in. -/
def Form.phase : Form → Phase
  | .raw => .raw
  | .cooked => .cooked

def escape (q : Byte) (s : List Byte) : List Byte :=
  s.flatMap fun c => if c = q ∨ c = bslash then [bslash, c] else [c]

def Form.encode (f : Form) (s : List Byte) : List Byte :=
  f.quote :: (escape f.quote s ++ [f.quote])

structure Spaces where
  bytes : List Byte
  space : ∀ b ∈ bytes, isspace b

/-- An argument in one of the two forms, and the spaces behind it. -/
structure Quoted where
  form : Form
  arg : CStr
  after : Spaces

def Quoted.source (q : Quoted) : List Byte := q.form.encode q.arg.bytes ++ q.after.bytes

theorem Spaces.nul_free (s : Spaces) : NUL ∉ s.bytes := fun hm =>
  absurd (s.space NUL hm) (by decide)

theorem Form.quote_ne_nul (f : Form) : f.quote ≠ NUL := by
  cases f <;> decide

theorem escape_nul_free (q : Byte) {s : List Byte} (hs : NUL ∉ s) : NUL ∉ escape q s := by
  simp only [escape, List.mem_flatMap, not_exists, not_and]
  intro c hc
  have hne : NUL ≠ c := fun he => hs (he ▸ hc)
  split_ifs <;> simp [hne, bslash_ne_nul.symm]

theorem Quoted.nul_free (q : Quoted) : NUL ∉ q.source := by
  simp only [Quoted.source, Form.encode, List.mem_append, List.mem_cons, not_or]
  exact ⟨⟨q.form.quote_ne_nul.symm, escape_nul_free _ q.arg.nul_free, q.form.quote_ne_nul.symm,
    List.not_mem_nil⟩, q.after.nul_free⟩

/-- The command line of the quoted arguments `qs`. -/
def commandLine (lead : Spaces) (qs : List Quoted) : CStr where
  bytes := lead.bytes ++ qs.flatMap Quoted.source
  nul_free := by
    simp only [List.mem_append, List.mem_flatMap, not_or, not_exists, not_and]
    exact ⟨lead.nul_free, fun q _ => q.nul_free⟩

theorem controlChar_escaped {f : Form} {c : Byte} (h : c = f.quote ∨ c = bslash)
    (hf : f = .cooked) : controlChar c = c := by
  subst hf
  obtain rfl | rfl := h <;> decide

/-- One byte of a quoted string, escaped or not, stands for itself. -/
theorem read_escape_byte (f : Form) (l : Lexer) (hl : l.phase = f.phase) (c : Byte) :
    l.read (if c = f.quote ∨ c = bslash then [bslash, c] else [c]) =
      l.take f.phase (if c = f.quote ∨ c = bslash then [bslash, c] else [c]) [c] := by
  cases f with
  | raw =>
    split_ifs with hc
    · have hor : c = bslash ∨ c = squote := hc.symm
      simp [Lexer.step, hl, Form.phase, hor]
    · simp only [not_or] at hc
      have hq : c ≠ squote := hc.1
      simp [Lexer.step, hl, Form.phase, hq, hc.2]
  | cooked =>
    split_ifs with hc
    · simp [Lexer.step, hl, Form.phase, controlChar_escaped hc rfl]
    · simp only [not_or] at hc
      have hq : c ≠ dquote := hc.1
      simp [Lexer.step, hl, Form.phase, hq, hc.2]

theorem read_escape (f : Form) (l : Lexer) (hl : l.phase = f.phase) (s : List Byte) :
    l.read (escape f.quote s) = l.take f.phase (escape f.quote s) s := by
  induction s generalizing l with
  | nil => simp [escape, Lexer.take, ← hl]
  | cons c s ih =>
    have hcons : escape f.quote (c :: s) =
        (if c = f.quote ∨ c = bslash then [bslash, c] else [c]) ++ escape f.quote s := rfl
    rw [hcons, Lexer.read_append, read_escape_byte f l hl, ih _ rfl, Lexer.take_take,
      List.singleton_append]

/-- A quoted argument is one piece of source text that stands for the argument. -/
theorem read_encode (f : Form) (s : List Byte) (toks : List (List Byte)) :
    (⟨.between, [], [], toks⟩ : Lexer).read (f.encode s) = ⟨.closed, f.encode s, s, toks⟩ := by
  have hopen : (⟨.between, [], [], toks⟩ : Lexer).step f.quote =
      ⟨f.phase, [f.quote], [], toks⟩ := by
    cases f <;> rfl
  have hclose : ∀ l : Lexer, l.phase = f.phase → l.step f.quote = l.take .closed [f.quote] [] := by
    intro l hl
    cases f <;> simp [Lexer.step, hl, Form.phase, Form.quote]
  rw [Form.encode, Lexer.read_cons, hopen, Lexer.read_append, read_escape f _ rfl, Lexer.read_cons,
    hclose _ rfl, Lexer.take_take]
  simp [Lexer.take]

theorem separator_of_isspace {c : Byte} (h : isspace c) :
    isSeparator c ∧ c ≠ bslash ∧ c ≠ squote ∧ c ≠ dquote := by
  simp only [isspace, isSeparator, bslash, squote, dquote, Bool.or_eq_true, Bool.and_eq_true,
    decide_eq_true_eq, UInt8.le_iff_toNat_le, ← UInt8.toNat_inj, ne_eq, UInt8.reduceToNat] at h ⊢
  omega

/-- The spaces behind a quotation end its token. -/
theorem read_after (s : Spaces) (hne : s.bytes ≠ []) (x t : List Byte) (toks : List (List Byte)) :
    (⟨.closed, x, t, toks⟩ : Lexer).read s.bytes = ⟨.between, [], [], toks ++ [t]⟩ := by
  obtain ⟨bytes, hspace⟩ := s
  cases bytes with
  | nil => exact absurd rfl hne
  | cons b bytes =>
    obtain ⟨hsep, hb, hs, hd⟩ := separator_of_isspace (hspace b (by simp))
    have hstep : (⟨.closed, x, t, toks⟩ : Lexer).step b = ⟨.between, [], [], toks ++ [t]⟩ := by
      simp [Lexer.step, Lexer.unquoted, hsep, hb, hs, hd]
    rw [Lexer.read_cons, hstep]
    exact read_spaces _ fun c hc => hspace c (by simp [hc])

/-- All of `args` have been read, the last one perhaps up to its closing quote only. -/
inductive Ends (args : List (List Byte)) : Lexer → Prop
  | between : Ends args ⟨.between, [], [], args⟩
  | closed (x t : List Byte) (toks : List (List Byte)) (h : toks ++ [t] = args) :
      Ends args ⟨.closed, x, t, toks⟩

theorem Ends.tokenize {s : List Byte} {args : List (List Byte)} (h : Ends args (lex s)) :
    tokenize s = some args ∧ Terminated s := by
  unfold Tokenizer.tokenize Terminated
  generalize lex s = l at h
  cases h with
  | between => exact ⟨rfl, fun hw => by cases hw⟩
  | closed x t toks h =>
    subst h
    exact ⟨rfl, fun hw => by cases hw⟩

theorem ends_of_read (qs : List Quoted) (hsep : ∀ q ∈ qs.dropLast, q.after.bytes ≠ [])
    (toks : List (List Byte)) :
    Ends (toks ++ qs.map fun q => q.arg.bytes)
      ((⟨.between, [], [], toks⟩ : Lexer).read (qs.flatMap Quoted.source)) := by
  induction qs generalizing toks with
  | nil =>
    rw [List.map_nil, List.append_nil]
    exact .between
  | cons q qs ih =>
    rw [List.flatMap_cons, Lexer.read_append, Quoted.source, Lexer.read_append, read_encode]
    by_cases hafter : q.after.bytes = []
    · cases qs with
      | nil =>
        rw [hafter]
        exact .closed _ _ _ rfl
      | cons q' qs => exact absurd hafter (hsep q (by simp))
    · rw [read_after q.after hafter]
      have h := ih (fun q' hq' => hsep q' (by cases qs <;> simp_all)) (toks ++ [q.arg.bytes])
      rwa [List.append_assoc] at h

/-- Quoted arguments, with spaces between them, are read back as they are. -/
theorem quoting_round_trip (lead : Spaces) (qs : List Quoted)
    (hsep : ∀ q ∈ qs.dropLast, q.after.bytes ≠ []) :
    ∃ out slots, stringToArgv (commandLine lead qs) = .ok out ∧ out.err = .ok ∧
      out.argc = some qs.length ∧ out.argv = some slots ∧ slots[qs.length]? = some .null ∧
      ∀ i (h : i < qs.length), ∃ p, slots[i]? = some (.ptr p) ∧
        strAt out.str p = qs[i].arg.bytes := by
  have hends : Ends (qs.map fun q => q.arg.bytes) (lex (commandLine lead qs).bytes) := by
    have hlead : Lexer.start.read lead.bytes = .start := read_spaces [] lead.space
    rw [lex, commandLine, Lexer.read_append, hlead]
    exact ends_of_read qs hsep []
  obtain ⟨htokens, hterminated⟩ := hends.tokenize
  obtain ⟨out, hout, hok, hfaithful⟩ := stringToArgv_tokens (commandLine lead qs)
  have herr : out.err = .ok := hok.mpr (by simp [htokens])
  obtain ⟨toks, slots, htoks, hargc, hargv, hnull, hptr⟩ := (hfaithful herr).mpr hterminated
  obtain rfl := Option.some.inj (htokens.symm.trans htoks)
  rw [List.length_map] at hargc hnull
  refine ⟨out, slots, hout, herr, hargc, hargv, hnull, fun i hi => ?_⟩
  obtain ⟨p, hp, hread⟩ := hptr i (by rwa [List.length_map])
  exact ⟨p, hp, by rw [hread, List.getElem_map]⟩

def Spaces.none : Spaces := ⟨[], by simp⟩

def Spaces.one : Spaces := ⟨[0x20], by simp [isspace]⟩

/-- The command line `'\'\\' ""`: the two arguments `'\` and the empty string. -/
def quoteAndEmpty : List Quoted :=
  [⟨.raw, ⟨[squote, bslash], by decide⟩, .one⟩, ⟨.cooked, ⟨[], by simp⟩, .none⟩]

theorem quoteAndEmpty_round_trip :
    ∃ out slots, stringToArgv (commandLine .none quoteAndEmpty) = .ok out ∧
      out.err = .ok ∧ out.argc = some 2 ∧ out.argv = some slots ∧ slots[2]? = some .null ∧
      ∀ i (h : i < quoteAndEmpty.length), ∃ p, slots[i]? = some (.ptr p) ∧
        strAt out.str p = quoteAndEmpty[i].arg.bytes :=
  quoting_round_trip .none quoteAndEmpty (by simp [quoteAndEmpty, Spaces.one])

end EbbrtContrib.ArgvQuoting
