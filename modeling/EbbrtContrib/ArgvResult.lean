import EbbrtContrib.ArgvTokens

namespace EbbrtContrib.ArgvResult

open CString Fallible InPlace Argv Tokenizer ArgvTokens

structure Wf (t : Table) : Prop where
  argv_eq : t.argv = t.argc
  size : t.res.length = t.act
  room : t.argc < t.act
  ten_le : 10 ≤ t.act

theorem new_wf : Wf .new := ⟨rfl, rfl, by decide, by decide⟩

theorem grow_spec {t : Table} (h : Wf t) :
    t.grow.argc = t.argc + 1 ∧ t.grow.argv = t.argc ∧ t.grow.res.length = t.grow.act ∧
      t.grow.argc < t.grow.act ∧ 10 ≤ t.grow.act ∧ ∀ j < t.argc, t.grow.res[j]? = t.res[j]? := by
  obtain ⟨hargv, hsize, hroom, hten⟩ := h
  unfold Table.grow
  split
  · refine ⟨rfl, rfl, by simp [hsize], by dsimp only; omega, by dsimp only; omega, fun j hj => ?_⟩
    exact List.getElem?_append_left (by omega)
  · exact ⟨rfl, hargv, hsize, by dsimp only; omega, hten, fun _ _ => rfl⟩

theorem push_spec {t : Table} (h : Wf t) (i : Nat) :
    ∃ t', t.push i = .ok t' ∧ Wf t' ∧ t'.argc = t.argc + 1 ∧
      t'.res[t.argc]? = some (.ptr i) ∧ ∀ j < t.argc, t'.res[j]? = t.res[j]? := by
  obtain ⟨hargc, hargv, hsize, hroom, hten, hkeep⟩ := grow_spec h
  have hlt : t.argc < t.grow.res.length := by omega
  refine ⟨{ t.grow with res := t.grow.res.set t.argc (.ptr i), argv := t.argc + 1 }, ?_, ?_, hargc,
    ?_, fun j hj => ?_⟩
  · simp [Table.push, Table.write, hargv, hlt]
  · exact ⟨hargc.symm, by simpa using hsize, hroom, hten⟩
  · simp [hlt]
  · rw [List.getElem?_set_ne (by omega), hkeep j hj]

theorem write_null {t : Table} (h : Wf t) :
    t.write .null = .ok { t with res := t.res.set t.argc .null } := by
  have hlt : t.argc < t.res.length := by have := h.size; have := h.room; omega
  simp [Table.write, h.argv_eq, hlt]

/-- The table points at each of the tokens. -/
def Holds (t : Table) (buf : List Byte) (toks : List (List Byte)) : Prop :=
  ∀ i (h : i < toks.length), ∃ p, t.res[i]? = some (.ptr p) ∧ Stored buf p toks[i]

theorem Holds.append {t : Table} {buf : List Byte} {toks : List (List Byte)}
    (h : Holds t buf toks) (z : List Byte) : Holds t (buf ++ z) toks := fun i hi => by
  obtain ⟨p, hp, hs⟩ := h i hi
  exact ⟨p, hp, hs.append z⟩

theorem Holds.keep {t t' : Table} {buf : List Byte} {toks : List (List Byte)}
    (h : Holds t buf toks) (hkeep : ∀ j < toks.length, t'.res[j]? = t.res[j]?) :
    Holds t' buf toks := fun i hi => by
  obtain ⟨p, hp, hs⟩ := h i hi
  exact ⟨p, (hkeep i hi).trans hp, hs⟩

theorem Holds.push {t : Table} {buf tok : List Byte} {toks : List (List Byte)} {p : Nat}
    (h : Holds t buf toks) (hp : t.res[toks.length]? = some (.ptr p)) (hs : Stored buf p tok) :
    Holds t buf (toks ++ [tok]) := fun i hi => by
  by_cases hlt : i < toks.length
  · rw [List.getElem_append_left hlt]
    exact h i hlt
  · have hi' : i = toks.length := by simp at hi; omega
    subst hi'
    exact ⟨p, hp, by simpa using hs⟩

theorem skipSpace_spec (fuel : Nat) (A r : List Byte) (c : Text) (hbuf : c.buf = A ++ (r ++ [NUL]))
    (hscan : c.scan = A.length) (hfuel : r.length < fuel) :
    ∃ s r', r = s ++ r' ∧ (∀ b ∈ s, isspace b) ∧ (∀ b ∈ r'.head?, ¬ isspace b) ∧
      skipSpace fuel c = .ok { c with scan := A.length + s.length } := by
  induction fuel generalizing A r c with
  | zero => omega
  | succ fuel ih =>
    have hpeek : peek c = .ok (r.head?.getD NUL) := by
      rw [peek, hbuf, hscan]
      cases r <;> simp
    cases r with
    | nil =>
      refine ⟨[], [], rfl, by simp, by simp, ?_⟩
      have hnul : isspace NUL = false := by decide
      simp [skipSpace, hpeek, hnul, ← hscan]
    | cons b r =>
      simp only [List.head?_cons, Option.getD_some] at hpeek
      by_cases hb : isspace b
      · simp only [List.length_cons] at hfuel
        obtain ⟨s, r', hr, hs, hhead, hrun⟩ := ih (A ++ [b]) r { c with scan := c.scan + 1 }
          (by simp [hbuf]) (by simp [hscan]) (by omega)
        refine ⟨b :: s, r', by simp [hr], by simpa [hb] using hs, hhead, ?_⟩
        simp only [skipSpace, hpeek, ok_bind, hb, if_true, hrun, List.length_append,
          List.length_cons, List.length_nil]
        congr 2
        omega
      · exact ⟨[], b :: r, rfl, by simp, by simpa using hb, by simp [skipSpace, hpeek, hb, ← hscan]⟩

/-- How the loop over the tokens leaves, against the reading `l` of the whole input. -/
inductive Outcome (l : Lexer) : StrToArgvErr × Table × Text → Prop
  | between (t : Table) (c : Text) (hphase : l.phase = .between) (hwf : Wf t)
      (hargc : t.argc = l.tokens.length) (hold : Holds t c.buf l.tokens) : Outcome l (.ok, t, c)
  | last (t : Table) (c : Text) (x z : List Byte)
      (hphase : l.phase = .word ∨ l.phase = .wordEsc ∨ l.phase = .closed) (hwf : Wf t)
      (hargc : t.argc = l.tokens.length + 1) (hold : Holds t c.buf l.tokens)
      (hptr : t.res[l.tokens.length]? = some (.ptr x.length)) (hnul : NUL ∉ l.token)
      (hbuf : c.buf = x ++ (l.token ++ z))
      (hz : z.takeWhile (· ≠ NUL) = [] ↔ (l.phase = .word → l.lexeme.length = l.token.length)) :
      Outcome l (.ok, t, c)
  | unbalanced (t : Table) (c : Text) (h : l.phase.quoted) : Outcome l (.unbalancedQuote, t, c)

theorem read_spaces {s : List Byte} (toks : List (List Byte)) (hs : ∀ b ∈ s, isspace b) :
    (⟨.between, [], [], toks⟩ : Lexer).read s = ⟨.between, [], [], toks⟩ := by
  induction s with
  | nil => rfl
  | cons b s ih =>
    have hb : isspace b := hs b (by simp)
    simpa [Lexer.step, hb] using ih fun a ha => hs a (by simp [ha])

/-- A token starts with its first byte that is not a space. -/
theorem read_start {s : List Byte} (toks : List (List Byte)) (hne : s ≠ [])
    (hs : ∀ b ∈ s.head?, ¬ isspace b) :
    (⟨.between, [], [], toks⟩ : Lexer).read s = (⟨.word, [], [], toks⟩ : Lexer).read s := by
  cases s with
  | nil => exact absurd rfl hne
  | cons b s =>
    have hb : isspace b = false := by simpa using hs
    simp [Lexer.step, hb, Lexer.unquoted, Lexer.take]

theorem scanTokens_spec (fuel : Nat) (A r : List Byte) (toks : List (List Byte)) (t : Table)
    (c : Text) (hbuf : c.buf = A ++ (r ++ [NUL])) (hscan : c.scan = A.length) (hwf : Wf t)
    (hargc : t.argc = toks.length) (hold : Holds t A toks) (hr : NUL ∉ r)
    (hfuel : 2 * r.length + 2 ≤ fuel) :
    ∃ o, scanTokens fuel t c = .ok o ∧ Outcome ((⟨.between, [], [], toks⟩ : Lexer).read r) o := by
  induction fuel generalizing A r toks t c with
  | zero => omega
  | succ fuel ih =>
    obtain ⟨s, r, rfl, hs, hhead, hskip⟩ := skipSpace_spec fuel A r c hbuf hscan (by omega)
    rw [Lexer.read_append, read_spaces toks hs]
    have hpeek : peek { c with scan := A.length + s.length } = .ok (r.head?.getD NUL) := by
      rw [peek, hbuf]
      cases r <;> simp
    cases r with
    | nil =>
      refine ⟨(.ok, t, { c with scan := A.length + s.length }), ?_, ?_⟩
      · simp [scanTokens, hskip, hpeek]
      · refine .between t _ rfl hwf hargc ?_
        rw [hbuf]
        exact hold.append _
    | cons b r =>
      obtain ⟨hb, hr'⟩ : b ≠ NUL ∧ NUL ∉ b :: r := by
        simp only [List.mem_append, not_or] at hr
        exact ⟨fun he => hr.2 (by simp [he]), hr.2⟩
      obtain ⟨t₁, hpush, hwf₁, hargc₁, hptr, hkeep⟩ := push_spec hwf (A.length + s.length)
      have hstart : (⟨c.buf, A.length + s.length, A.length + s.length⟩ : Text) =
          cut ((A ++ s) ++ []) [] (b :: r ++ [NUL]) := by
        simp [cut, hbuf]
      have hin : InToken ⟨.word, [], [], toks⟩ [] := ⟨by simp, rfl, .inr ⟨rfl, by simp⟩⟩
      simp only [List.length_append, List.length_cons] at hfuel
      obtain ⟨o, ho, hout⟩ := scanToken_spec fuel (A ++ s) [] (b :: r) ⟨.word, [], [], toks⟩ hin
        (by simp only [List.length_cons]; omega) hr'
      have hhold : Holds t₁ A toks := hold.keep fun j hj => hkeep j (by omega)
      rw [hargc] at hptr
      rw [read_start toks (by simp) hhead]
      simp only [List.head?_cons, Option.getD_some] at hpeek
      cases hout with
      | done c' z hphase htokens hnul hbuf' hz =>
        have hrun : scanTokens (fuel + 1) t c = .ok (.ok, t₁, c') := by
          simp only [scanTokens, hskip, ok_bind, hpeek, hb, if_false, hpush, hstart, ho,
            pure_ok]
        refine ⟨_, hrun, .last t₁ c' (A ++ s) z hphase hwf₁ ?_ ?_ ?_ hnul hbuf' hz⟩
        · rw [hargc₁, hargc, htokens]
        · rw [hbuf', htokens, List.append_assoc]
          exact hhold.append _
        · rw [htokens, hptr, List.length_append]
      | tokenDone s' r' tok g hr'' hs' hlex htok hg =>
        have hstored : Stored (A ++ s ++ (tok ++ NUL :: g.tail)) (A.length + s.length) tok :=
          ⟨A ++ s, g.tail, rfl, by simp, htok⟩
        have hhold' : Holds t₁ (A ++ s ++ (tok ++ NUL :: g.tail)) (toks ++ [tok]) := by
          refine Holds.push ?_ hptr hstored
          rw [List.append_assoc A s]
          exact hhold.append _
        have hlen := congrArg List.length hr''
        have hpos := List.length_pos_iff.mpr hs'
        simp only [List.length_cons, List.length_append] at hlen
        obtain ⟨o, ho', hout'⟩ := ih (A ++ s ++ (tok ++ NUL :: g.tail)) r' (toks ++ [tok]) t₁
          (cut (A ++ s ++ tok) (NUL :: g.tail) (r' ++ [NUL])) (by simp [cut]) (by simp [cut]; omega)
          hwf₁ (by simp [hargc₁, hargc]) hhold' (fun hm => hr' (by simp [hr'', hm])) (by omega)
        refine ⟨o, ?_, ?_⟩
        · simp only [scanTokens, hskip, ok_bind, hpeek, hb, if_false, hpush, hstart, ho, pure_ok,
            store_cut hg, ho']
        · rwa [hr'', Lexer.read_append, hlex]
      | errorLeave c' hq =>
        refine ⟨(.unbalancedQuote, t₁, c'), ?_, .unbalanced t₁ c' hq⟩
        simp only [scanTokens, hskip, ok_bind, hpeek, hb, if_false, hpush, hstart, ho,
          pure_ok]

/-- Inside an unquoted stretch, the source text of the token is as long as the token
exactly when it has no backslash and no quote. -/
def Literal (l : Lexer) : Prop := ∀ c ∈ l.lexeme, c ≠ bslash ∧ c ≠ squote ∧ c ≠ dquote

/-- Escapes and quotes make the source text of a token longer than the token. -/
def Lag (l : Lexer) : Prop :=
  match l.phase with
  | .between => l.lexeme = [] ∧ l.token = []
  | .word => (Literal l ∧ l.lexeme.length = l.token.length) ∨
      (¬ Literal l ∧ l.token.length < l.lexeme.length)
  | .rawEsc => ¬ Literal l ∧ l.token.length + 1 < l.lexeme.length
  | .wordEsc | .closed | .raw | .cooked | .cookedEsc =>
    ¬ Literal l ∧ l.token.length < l.lexeme.length

theorem literal_take (l : Lexer) (p : Phase) (c : Byte) (bs : List Byte) :
    Literal (l.take p [c] bs) ↔ Literal l ∧ c ≠ bslash ∧ c ≠ squote ∧ c ≠ dquote := by
  simp only [Literal, Lexer.take, List.mem_append, List.mem_singleton]
  constructor
  · exact fun h => ⟨fun b hb => h b (.inl hb), h c (.inr rfl)⟩
  · rintro ⟨h, hc⟩ b (hb | rfl)
    · exact h b hb
    · exact hc

theorem length_take (l : Lexer) (p : Phase) (c : Byte) (bs : List Byte) :
    (l.take p [c] bs).lexeme.length = l.lexeme.length + 1 ∧
      (l.take p [c] bs).token.length = l.token.length + bs.length := by
  simp [Lexer.take]

theorem Lag.unquoted {l : Lexer} (h : (Literal l ∧ l.lexeme.length = l.token.length) ∨
    (¬ Literal l ∧ l.token.length < l.lexeme.length)) (c : Byte) : Lag (l.unquoted c) := by
  have hle : l.token.length ≤ l.lexeme.length := by omega
  unfold Lexer.unquoted
  split_ifs <;> simp only [Lag, Lexer.take_phase, literal_take, length_take, List.length_nil,
    List.length_cons] <;> grind

/-- Once the source text is longer it stays longer, whatever is taken into the token. -/
theorem Lag.take {l : Lexer} (h : ¬ Literal l) (p : Phase) (c : Byte) (bs : List Byte)
    (hp : p ≠ .between)
    (hlen : l.token.length + bs.length + (if p = .rawEsc then 1 else 0) ≤ l.lexeme.length) :
    Lag (l.take p [c] bs) := by
  have hnot : ¬ Literal (l.take p [c] bs) := fun hl => h ((literal_take l p c bs).mp hl).1
  obtain ⟨hlexeme, htoken⟩ := length_take l p c bs
  have hlag : (l.take p [c] bs).token.length < (l.take p [c] bs).lexeme.length := by omega
  cases p with
  | between => exact absurd rfl hp
  | word => exact .inr ⟨hnot, hlag⟩
  | rawEsc =>
    rw [if_pos rfl] at hlen
    exact ⟨hnot, by omega⟩
  | _ => exact ⟨hnot, hlag⟩

theorem Lag.step {l : Lexer} (h : Lag l) (c : Byte) : Lag (l.step c) := by
  unfold Lag at h
  unfold Lexer.step
  cases hp : l.phase <;> simp only [hp] at h ⊢
  case between =>
    split_ifs
    · simpa [Lag, hp] using h
    · exact .unquoted (.inl ⟨by simp [Literal, h.1], by simp [h.1, h.2]⟩) c
  case word => exact .unquoted h c
  case closed => exact .unquoted (.inr h) c
  case wordEsc => exact .take h.1 _ c _ (by decide) (by simp; omega)
  case cookedEsc => exact .take h.1 _ c _ (by decide) (by simp; omega)
  case rawEsc => split_ifs <;> exact .take h.1 _ c _ (by decide) (by simp; omega)
  case raw => split_ifs <;> exact .take h.1 _ c _ (by decide) (by simp; omega)
  case cooked => split_ifs <;> exact .take h.1 _ c _ (by decide) (by simp; omega)

theorem lag_read (l : Lexer) (h : Lag l) (s : List Byte) : Lag (l.read s) := by
  induction s generalizing l with
  | nil => exact h
  | cons c s ih => exact ih _ (h.step c)

theorem lexeme_length_iff (s : List Byte) (hw : (lex s).phase = .word) :
    (lex s).lexeme.length = (lex s).token.length ↔ Literal (lex s) := by
  have h := lag_read .start ⟨rfl, rfl⟩ s
  change Lag (lex s) at h
  simp only [Lag, hw] at h
  obtain ⟨hl, he⟩ | ⟨hl, he⟩ := h
  · exact iff_of_true he hl
  · exact iff_of_false (by omega) hl

theorem lex_skip (s : List Byte) : lex (s.dropWhile isspace) = lex s := by
  induction s with
  | nil => rfl
  | cons b s ih =>
    by_cases hb : isspace b
    · rw [List.dropWhile_cons_of_pos hb, ih]
      simp [lex, Lexer.start, Lexer.step, hb]
    · rw [List.dropWhile_cons_of_neg hb]

/-- The answer of a successful call is the list of tokens of its input. -/
def Faithful (str : CStr) (out : ArgvResult) : Prop :=
  ∃ toks slots, tokenize str.bytes = some toks ∧ out.argc = some toks.length ∧
    out.argv = some slots ∧ slots[toks.length]? = some .null ∧
    ∀ i (h : i < toks.length), ∃ p, slots[i]? = some (.ptr p) ∧ strAt out.str p = toks[i]

/-- The last token is ended by a separator, by a backslash or by a closing quote,
or its source text has no backslash and no quote. -/
def Terminated (s : List Byte) : Prop :=
  (lex s).phase = .word → Literal (lex s)

theorem tokenize_of_word {s : List Byte}
    (h : (lex s).phase = .word ∨ (lex s).phase = .wordEsc ∨ (lex s).phase = .closed) :
    tokenize s = some ((lex s).tokens ++ [(lex s).token]) := by
  unfold tokenize
  obtain h | h | h := h <;> simp [h]

theorem terminated_iff {s : List Byte} : Terminated s ↔
    ((lex s).phase = .word → (lex s).lexeme.length = (lex s).token.length) :=
  forall_congr' fun hw => (lexeme_length_iff s hw).symm

/-- The scan of the tokens as `stringToArgv` starts it. -/
theorem scanTokens_start (str : CStr) :
    ∃ o, scanTokens (2 * (dup (str.bytes.dropWhile isspace)).length + 2) .new
      ⟨dup (str.bytes.dropWhile isspace), 0, 0⟩ = .ok o ∧ Outcome (lex str.bytes) o := by
  have hnul : NUL ∉ str.bytes.dropWhile isspace := fun hm =>
    str.nul_free (List.dropWhile_subset _ hm)
  have h := scanTokens_spec (2 * (dup (str.bytes.dropWhile isspace)).length + 2) []
    (str.bytes.dropWhile isspace) [] .new ⟨dup (str.bytes.dropWhile isspace), 0, 0⟩ rfl rfl new_wf
    rfl (by simp [Holds]) hnul (by rw [dup, List.length_append]; omega)
  rw [← lex_skip]
  exact h

/-- A call returns, it succeeds where no quotation is left open, and what it then returns is
right when the last token is terminated. -/
theorem stringToArgv_tokens (str : CStr) :
    ∃ out, stringToArgv str = .ok out ∧ (out.err = .ok ↔ tokenize str.bytes ≠ none) ∧
      (out.err = .ok → (Faithful str out ↔ Terminated str.bytes)) := by
  obtain ⟨o, ho, hout⟩ := scanTokens_start str
  cases hout with
  | between t c hphase hwf hargc hold =>
    refine ⟨⟨.ok, some t.argc, some (t.res.set t.argc .null), c.buf,
      if t.argc = 0 then [.str] else []⟩, ?_, ?_, fun _ => iff_of_true ?_ ?_⟩
    · simp [stringToArgv, ho, write_null hwf]
    · simp [tokenize, hphase]
    · have hroom : t.argc < t.res.length := by have := hwf.size; have := hwf.room; omega
      refine ⟨(lex str.bytes).tokens, _, by simp [tokenize, hphase], by simp [hargc], rfl,
        by simp [← hargc, hroom], fun i hi => ?_⟩
      obtain ⟨p, hp, hs⟩ := hold i hi
      exact ⟨p, by rw [List.getElem?_set_ne (by omega), hp], hs.strAt⟩
    · simp [Terminated, hphase]
  | last t c x z hphase hwf hargc hold hptr hnul hbuf hz =>
    refine ⟨⟨.ok, some t.argc, some (t.res.set t.argc .null), c.buf,
      if t.argc = 0 then [.str] else []⟩, ?_, ?_, fun _ => ?_⟩
    · simp [stringToArgv, ho, write_null hwf]
    · simp [tokenize_of_word hphase]
    · have hroom : t.argc < t.res.length := by have := hwf.size; have := hwf.room; omega
      have hslot : ∀ i < t.argc, (t.res.set t.argc .null)[i]? = t.res[i]? := fun i hi =>
        List.getElem?_set_ne (by omega)
      have hread : strAt c.buf x.length = (lex str.bytes).token ++ z.takeWhile (· ≠ NUL) := by
        rw [hbuf, strAt_append hnul]
      rw [terminated_iff, ← hz]
      constructor
      · rintro ⟨toks, slots, htoks, -, hslots, -, hall⟩
        obtain rfl := Option.some.inj ((tokenize_of_word hphase).symm.trans htoks)
        obtain rfl := Option.some.inj hslots
        obtain ⟨p, hp, hs⟩ := hall (lex str.bytes).tokens.length (by simp)
        rw [hslot _ (by omega), hptr] at hp
        cases hp
        simpa [hread] using hs
      · intro hnil
        refine ⟨_, _, tokenize_of_word hphase, by simp [hargc], rfl, by simp [← hargc, hroom],
          fun i hi => ?_⟩
        by_cases hlt : i < (lex str.bytes).tokens.length
        · obtain ⟨p, hp, hs⟩ := hold i hlt
          exact ⟨p, by rw [hslot i (by omega), hp],
            by rw [hs.strAt, List.getElem_append_left hlt]⟩
        · obtain rfl : i = (lex str.bytes).tokens.length := by simp at hi; omega
          exact ⟨x.length, by rw [hslot _ (by omega), hptr], by rw [hread, hnil]; simp⟩
  | unbalanced t c hq =>
    refine ⟨⟨.unbalancedQuote, none, none, c.buf, [.res, .str]⟩, ?_, ?_, fun h => by cases h⟩
    · simp [stringToArgv, ho]
    · cases hp : (lex str.bytes).phase <;> simp [tokenize, hp, Phase.quoted] at hq ⊢

/-- A call that succeeds returns the tokens of its input exactly when the last token is
terminated: at the end of the input no NUL is stored behind a token that became shorter
than its source text. -/
theorem stringToArgv_faithful_iff (str : CStr) :
    ∃ out, stringToArgv str = .ok out ∧
      (out.err = .ok → (Faithful str out ↔ Terminated str.bytes)) := by
  obtain ⟨out, hout, -, hfaithful⟩ := stringToArgv_tokens str
  exact ⟨out, hout, hfaithful⟩

/-- The command line `a\b` is one token `ab`, and is read back as `abb`. -/
def escaped : CStr := ⟨[0x61, bslash, 0x62], by decide⟩

theorem escaped_not_faithful : ¬ ∀ str out, stringToArgv str = .ok out → out.err = .ok →
    Faithful str out := by
  intro h
  have hrun : stringToArgv escaped = .ok ⟨.ok, some 1,
      some (.ptr 0 :: .null :: List.replicate 8 .uninit), [0x61, 0x62, 0x62, NUL], []⟩ := rfl
  obtain ⟨toks, slots, htoks, -, hslots, -, hall⟩ := h escaped _ hrun rfl
  have htok : tokenize escaped.bytes = some [[0x61, 0x62]] := rfl
  obtain rfl := Option.some.inj (htok.symm.trans htoks)
  obtain rfl := Option.some.inj hslots
  obtain ⟨p, hp, hs⟩ := hall 0 (by decide)
  cases hp
  exact absurd hs (by decide)

end EbbrtContrib.ArgvResult
