import EbbrtContrib.ArgvResult

namespace EbbrtContrib.ArgvStrings

open CString Fallible InPlace Argv Tokenizer ArgvQuotes ArgvTokens ArgvResult

/-- Behind the write cursor nothing has been changed. -/
structure Keeps (c c' : Text) : Prop where
  dest_le : c.dest ≤ c'.dest
  drop_eq : c'.buf.drop (c'.dest + 1) = c.buf.drop (c'.dest + 1)

theorem Keeps.refl (c : Text) : Keeps c c := ⟨Nat.le_refl _, rfl⟩

theorem Keeps.trans {c c' c'' : Text} (h : Keeps c c') (h' : Keeps c' c'') : Keeps c c'' := by
  refine ⟨Nat.le_trans h.dest_le h'.dest_le, h'.drop_eq.trans ?_⟩
  obtain ⟨k, hk⟩ := Nat.exists_eq_add_of_le h'.dest_le
  have hdrop := congrArg (List.drop k) h.drop_eq
  rw [List.drop_drop, List.drop_drop] at hdrop
  have hsum : c'.dest + 1 + k = c''.dest + 1 := by omega
  rwa [hsum] at hdrop

theorem keeps_next {c c' : Text} {ch : Byte} (h : next c = .ok (ch, c')) : Keeps c c' := by
  obtain ⟨-, rfl⟩ := next_eq_ok.mp h
  exact ⟨Nat.le_refl _, rfl⟩

theorem keeps_store {c c' : Text} {ch : Byte} (h : store ch c = .ok c') : Keeps c c' := by
  obtain ⟨-, rfl⟩ := store_eq_ok.mp h
  exact ⟨Nat.le_refl _, List.drop_set_of_lt (Nat.lt_succ_self _)⟩

theorem keeps_put {c c' : Text} {ch : Byte} (h : put ch c = .ok c') : Keeps c c' := by
  obtain ⟨-, rfl⟩ := put_eq_ok.mp h
  exact ⟨Nat.le_succ _, List.drop_set_of_lt (Nat.lt_succ_of_lt (Nat.lt_succ_self _))⟩

theorem copyRawString_keeps (fuel : Nat) {c : Text} {o : StrToArgvErr × Text}
    (h : copyRawString fuel c = .ok o) : Keeps c o.2 := by
  induction fuel generalizing c with
  | zero => cases h
  | succ fuel ih =>
    rw [copyRawString, bind_eq_ok] at h
    obtain ⟨⟨ch, c₁⟩, hch, h⟩ := h
    apply (keeps_next hch).trans
    dsimp only at h
    split_ifs at h
    · cases h
      exact .refl _
    · obtain ⟨c₂, hst, h⟩ := bind_eq_ok.mp h
      cases h
      exact keeps_store hst
    · obtain ⟨⟨d, c₂⟩, hd, h⟩ := bind_eq_ok.mp h
      apply (keeps_next hd).trans
      dsimp only at h
      split_ifs at h
      · cases h
        exact .refl _
      · obtain ⟨c₃, hput, h⟩ := bind_eq_ok.mp h
        exact (keeps_put hput).trans (ih h)
      · obtain ⟨c₃, hput, h⟩ := bind_eq_ok.mp h
        obtain ⟨c₄, hput', h⟩ := bind_eq_ok.mp h
        exact (keeps_put hput).trans ((keeps_put hput').trans (ih h))
    · obtain ⟨c₂, hput, h⟩ := bind_eq_ok.mp h
      exact (keeps_put hput).trans (ih h)

theorem copyCookedString_keeps (fuel : Nat) {c : Text} {o : StrToArgvErr × Text}
    (h : copyCookedString fuel c = .ok o) : Keeps c o.2 := by
  induction fuel generalizing c with
  | zero => cases h
  | succ fuel ih =>
    rw [copyCookedString, bind_eq_ok] at h
    obtain ⟨⟨ch, c₁⟩, hch, h⟩ := h
    apply (keeps_next hch).trans
    dsimp only at h
    split_ifs at h
    · cases h
      exact .refl _
    · obtain ⟨c₂, hst, h⟩ := bind_eq_ok.mp h
      cases h
      exact keeps_store hst
    · obtain ⟨⟨d, c₂⟩, hd, h⟩ := bind_eq_ok.mp h
      obtain ⟨⟨e, c₃⟩, he, hd⟩ := bind_eq_ok.mp hd
      cases hd
      apply (keeps_next he).trans
      dsimp only at h
      split_ifs at h
      · cases h
        exact .refl _
      · obtain ⟨c₄, hput, h⟩ := bind_eq_ok.mp h
        exact (keeps_put hput).trans (ih h)
    · obtain ⟨c₂, hput, h⟩ := bind_eq_ok.mp h
      exact (keeps_put hput).trans (ih h)

/-- The bytes of the source text that the token has not been written over. -/
def rest (l : Lexer) : List Byte := l.lexeme.drop l.token.length

/-- The gap still holds the source text, but for a NUL that a closing quote may have left. -/
structure Unwritten (l : Lexer) (g : List Byte) : Prop where
  tail : g.tail = (rest l).tail
  word : l.phase = .word → g = rest l

theorem tail_append {g g' : List Byte} (ht : g.tail = g'.tail) (hlen : g.length = g'.length)
    (s : List Byte) : (g ++ s).tail = (g' ++ s).tail := by
  cases g with
  | nil =>
    cases g' with
    | nil => rfl
    | cons b g' => cases hlen
  | cons a g =>
    cases g' with
    | nil => cases hlen
    | cons b g' => exact congrArg (· ++ s) ht

theorem length_rest {l : Lexer} {g : List Byte} (h : InToken l g) :
    g.length = (rest l).length := by
  rw [rest, List.length_drop, h.length, Nat.add_sub_cancel_left]

theorem rest_take {l : Lexer} {g : List Byte} (h : InToken l g) (p : Phase) (s bs : List Byte) :
    rest (l.take p s bs) = (rest l ++ s).drop bs.length := by
  have hle : l.token.length ≤ l.lexeme.length := h.length ▸ Nat.le_add_right _ _
  rw [rest, rest, ← List.drop_append_of_le_length hle, List.drop_drop]
  exact congrArg (List.drop · _) List.length_append

theorem Unwritten.take_word {l : Lexer} {g : List Byte} (h : InToken l g) (hg : Unwritten l g)
    (s : List Byte) (b : Byte) : Unwritten (l.take .word s [b]) (g ++ s).tail := by
  have heq : (g ++ s).tail = rest (l.take .word s [b]) := by
    rw [rest_take h, tail_append hg.tail (length_rest h), List.length_singleton, List.drop_one]
  exact ⟨congrArg List.tail heq, fun _ => heq⟩

/-- A quoted piece leaves the source text behind its NUL. -/
theorem Unwritten.take_closed {l : Lexer} {A g g' s r bs : List Byte} {q : Byte}
    (h : InToken l g) (hg : Unwritten l g)
    (hlen : s.length + (g ++ [q]).length = bs.length + (g'.length + 1))
    (hkeep : Keeps (cut (A ++ l.token) (g ++ [q]) (s ++ r ++ [NUL]))
      (cut (A ++ l.token ++ bs) (NUL :: g') (r ++ [NUL]))) :
    Unwritten (l.take .closed (q :: s) bs) (NUL :: g') := by
  have hdrop := hkeep.drop_eq
  have hpre : (A ++ l.token ++ bs).length + 1 = (A ++ l.token).length + (bs.length + 1) := by
    rw [List.length_append]
    omega
  have hle : bs.length + 1 ≤ (g ++ q :: s).length := by
    simp only [List.length_append, List.length_cons, List.length_nil] at hlen ⊢
    omega
  have hleft : ((A ++ l.token ++ bs) ++ (NUL :: g' ++ (r ++ [NUL]))).drop
      ((A ++ l.token ++ bs).length + 1) = g' ++ (r ++ [NUL]) := by
    rw [← List.drop_drop, List.drop_left]
    rfl
  have hright : ((A ++ l.token) ++ (g ++ [q] ++ (s ++ r ++ [NUL]))).drop
      ((A ++ l.token).length + (bs.length + 1)) =
        (g ++ q :: s).drop (bs.length + 1) ++ (r ++ [NUL]) := by
    rw [← List.drop_drop, List.drop_left, ← List.drop_append_of_le_length hle]
    simp
  simp only [cut, hleft] at hdrop
  rw [hpre, hright] at hdrop
  have hgap : g' = (g ++ q :: s).drop (bs.length + 1) := List.append_cancel_right hdrop
  have htail : (g ++ q :: s).drop (bs.length + 1) =
      (rest (l.take .closed (q :: s) bs)).tail := by
    rw [rest_take h, List.tail_drop, Nat.add_comm, ← List.drop_drop, List.drop_one,
      tail_append hg.tail (length_rest h), ← List.drop_one, List.drop_drop, Nat.add_comm]
  exact ⟨hgap.trans htail, fun hw => by cases hw⟩

/-- The token `l` as it is read back at the end of the input. -/
def Ended (A : List Byte) (l : Lexer) (c : Text) : Prop :=
  c.buf = A ++ (l.token ++ (rest l ++ [NUL]))

/-- What the loop over a token makes of a quoted piece, at the end of the input. -/
theorem scanToken_quoted_ended {fuel : Nat} {A g r : List Byte} {l : Lexer} {q : Byte} {p : Phase}
    {c : Text} {o : StrToArgvErr × Text}
    (ih : ∀ (g r : List Byte) (l : Lexer), InToken l g → Unwritten l g → r.length < fuel →
      NUL ∉ r → scanToken fuel (cut (A ++ l.token) g (r ++ [NUL])) = .ok (.done, c) →
      (l.read r).phase = .word → Ended A (l.read r) c)
    (h : InToken l g) (hg : Unwritten l g) (hread : l.read [q] = l.take p [q] [])
    (hfuel : r.length < fuel) (hr : NUL ∉ r)
    (hout : QuoteOutcome (A ++ l.token) (g ++ [q]) (l.take p [q] []) r o)
    (hkeep : Keeps (cut (A ++ l.token) (g ++ [q]) (r ++ [NUL])) o.2)
    (hrun : (if o.1 = .ok then scanToken fuel o.2 else .ok (.errorLeave o.1, o.2)) =
      .ok (.done, c)) (hw : (l.read (q :: r)).phase = .word) : Ended A (l.read (q :: r)) c := by
  cases hout with
  | closed s r' bs g' hrs hs hlex hlen hbs hg' =>
    subst hrs
    rw [Lexer.take_take, List.nil_append, List.singleton_append] at hlex
    have hread' : l.read (q :: s) = l.take .closed (q :: s) bs := by
      rw [← hlex, ← hread]
      rfl
    have hsplit : l.read (q :: (s ++ r')) = (l.take .closed (q :: s) bs).read r' := by
      rw [← hread', ← Lexer.read_append]
      rfl
    have hin : InToken (l.take .closed (q :: s) bs) (NUL :: g') :=
      h.closed hbs (by simp at hlen ⊢; omega) hg'
    rw [hsplit] at hw ⊢
    simp only [List.length_append] at hfuel
    apply ih _ r' _ hin (hg.take_closed h hlen hkeep) (by omega) (fun hm => hr (by simp [hm])) ?_ hw
    simpa [Lexer.take] using hrun
  | unbalanced c hq => cases hrun

theorem scanToken_ended (fuel : Nat) (A g r : List Byte) (l : Lexer) (c : Text) (h : InToken l g)
    (hg : Unwritten l g) (hfuel : r.length < fuel) (hr : NUL ∉ r)
    (hrun : scanToken fuel (cut (A ++ l.token) g (r ++ [NUL])) = .ok (.done, c))
    (hw : (l.read r).phase = .word) : Ended A (l.read r) c := by
  induction fuel generalizing g r l with
  | zero => omega
  | succ fuel ih =>
    cases r with
    | nil =>
      simp only [scanToken, List.nil_append, next_cut, ok_bind, if_true] at hrun
      cases hrun
      rw [Ended, Lexer.read_nil, ← hg.word hw]
      simp [cut]
    | cons b r =>
      obtain ⟨hb, hr'⟩ : b ≠ NUL ∧ NUL ∉ r := by simpa [eq_comm] using hr
      simp only [List.length_cons] at hfuel
      by_cases hesc : b = bslash
      · subst hesc
        cases r with
        | nil =>
          have hread : (l.read [bslash]).phase = .wordEsc := by simp [h.step, Lexer.unquoted]
          cases hread.symm.trans hw
        | cons d r =>
          obtain ⟨hd, hr''⟩ : d ≠ NUL ∧ NUL ∉ r := by simpa [eq_comm] using hr'
          have hs : NUL ∉ [bslash, d] := by simpa [eq_comm] using hd
          have hread : l.read [bslash, d] = l.take .word [bslash, d] [d] := by
            simp [h.step, Lexer.unquoted, Lexer.step_wordEsc]
          have hsplit : l.read (bslash :: d :: r) = (l.take .word [bslash, d] [d]).read r := by
            rw [← hread, ← Lexer.read_append]
            rfl
          simp only [List.length_cons] at hfuel
          rw [hsplit] at hw ⊢
          apply ih _ r _ (h.word hs (by simp) hd) (hg.take_word h _ d) (by omega) hr'' ?_ hw
          simpa [scanToken, hd, put_cut, Lexer.take] using hrun
      by_cases hq : b = squote
      · subst hq
        have hread : l.read [squote] = l.take .raw [squote] [] := by simp [h.step, Lexer.unquoted]
        obtain ⟨o, ho, hout⟩ := copyRawString_spec fuel (A ++ l.token) (g ++ [squote]) r
          (l.take .raw [squote] []) rfl (by omega) hr' (by simp) (h.clean.of_quote hb)
        apply scanToken_quoted_ended ih h hg hread (by omega) hr' hout
          (copyRawString_keeps fuel ho) ?_ hw
        simpa [scanToken, ho] using hrun
      by_cases hq' : b = dquote
      · subst hq'
        have hread : l.read [dquote] = l.take .cooked [dquote] [] := by
          simp [h.step, Lexer.unquoted]
        obtain ⟨o, ho, hout⟩ := copyCookedString_spec fuel (A ++ l.token) (g ++ [dquote]) r
          (l.take .cooked [dquote] []) rfl (by omega) hr' (by simp) (h.clean.of_quote hb)
        apply scanToken_quoted_ended ih h hg hread (by omega) hr' hout
          (copyCookedString_keeps fuel ho) ?_ hw
        simpa [scanToken, ho] using hrun
      by_cases hsep : isSeparator b
      · simp only [scanToken, List.cons_append, next_cut, ok_bind, hb, hesc, hq, hq', hsep, if_true,
          if_false] at hrun
        cases hrun
      · have hs : NUL ∉ [b] := by simpa [eq_comm] using hb
        have hread : l.step b = l.take .word [b] [b] := by
          simp [h.step, Lexer.unquoted, hesc, hq, hq', hsep]
        rw [Lexer.read_cons, hread] at hw ⊢
        apply ih _ r _ (h.word hs (by simp) hb) (hg.take_word h _ b) (by omega) hr' ?_ hw
        simpa [scanToken, hb, hesc, hq, hq', hsep, put_cut, Lexer.take] using hrun

theorem scanTokens_ended (fuel : Nat) (A r : List Byte) (toks : List (List Byte)) (t t' : Table)
    (c c' : Text) (hbuf : c.buf = A ++ (r ++ [NUL])) (hscan : c.scan = A.length) (hwf : Wf t)
    (hargc : t.argc = toks.length) (hr : NUL ∉ r) (hfuel : 2 * r.length + 2 ≤ fuel)
    (hrun : scanTokens fuel t c = .ok (.ok, t', c'))
    (hw : ((⟨.between, [], [], toks⟩ : Lexer).read r).phase = .word) :
    ∃ y, t'.res[((⟨.between, [], [], toks⟩ : Lexer).read r).tokens.length]? =
        some (.ptr y.length) ∧
      Ended y ((⟨.between, [], [], toks⟩ : Lexer).read r) c' := by
  induction fuel generalizing A r toks t c with
  | zero => omega
  | succ fuel ih =>
    obtain ⟨s, r, rfl, hs, hhead, hskip⟩ := skipSpace_spec fuel A r c hbuf hscan (by omega)
    rw [Lexer.read_append, read_spaces toks hs] at hw ⊢
    cases r with
    | nil => cases hw
    | cons b r =>
      have hpeek : peek { c with scan := A.length + s.length } = .ok b := by
        rw [peek, hbuf]
        simp
      obtain ⟨hb, hr'⟩ : b ≠ NUL ∧ NUL ∉ b :: r := by
        simp only [List.mem_append, not_or] at hr
        exact ⟨fun he => hr.2 (by simp [he]), hr.2⟩
      obtain ⟨t₁, hpush, hwf₁, hargc₁, hptr, -⟩ := push_spec hwf (A.length + s.length)
      have hstart : (⟨c.buf, A.length + s.length, A.length + s.length⟩ : Text) =
          cut ((A ++ s) ++ []) [] (b :: r ++ [NUL]) := by
        simp [cut, hbuf]
      have hin : InToken ⟨.word, [], [], toks⟩ [] := ⟨by simp, rfl, .inr ⟨rfl, by simp⟩⟩
      simp only [List.length_append, List.length_cons] at hfuel
      obtain ⟨o, ho, hout⟩ := scanToken_spec fuel (A ++ s) [] (b :: r) ⟨.word, [], [], toks⟩ hin
        (by simp only [List.length_cons]; omega) hr'
      rw [read_start toks (by simp) hhead] at hw ⊢
      rw [hargc] at hptr
      simp only [scanTokens, hskip, ok_bind, hpeek, hb, if_false, hpush, hstart, ho] at hrun
      cases hout with
      | done c₁ z hphase htokens hnul hbuf' hz =>
        cases hrun
        rw [htokens]
        refine ⟨A ++ s, by rw [hptr, List.length_append], ?_⟩
        exact scanToken_ended fuel (A ++ s) [] (b :: r) _ c' hin ⟨rfl, fun _ => rfl⟩
          (by simp only [List.length_cons]; omega) hr' ho hw
      | tokenDone s' r' tok g hr'' hs' hlex htok hg =>
        have hlen := congrArg List.length hr''
        have hpos := List.length_pos_iff.mpr hs'
        simp only [List.length_cons, List.length_append] at hlen
        rw [hr'', Lexer.read_append, hlex] at hw ⊢
        simp only [store_cut hg, ok_bind] at hrun
        exact ih (A ++ s ++ (tok ++ NUL :: g.tail)) r' (toks ++ [tok]) t₁ _ (by simp [cut])
          (by simp [cut]; omega) hwf₁ (by simp [hargc₁, hargc])
          (fun hm => hr' (by simp [hr'', hm])) (by omega) hrun hw
      | errorLeave c₁ hq => cases hrun

theorem step_lexeme (l : Lexer) (c b : Byte) (hb : b ∈ (l.step c).lexeme) :
    b ∈ l.lexeme ∨ b = c := by
  have htake : ∀ p bs, b ∈ (l.take p [c] bs).lexeme → b ∈ l.lexeme ∨ b = c := fun p bs hm =>
    (List.mem_append.mp hm).imp_right List.mem_singleton.mp
  have hunquoted : b ∈ (l.unquoted c).lexeme → b ∈ l.lexeme ∨ b = c := by
    rw [Lexer.unquoted]
    split_ifs
    · exact htake _ _
    · exact htake _ _
    · exact htake _ _
    · exact fun hm => absurd hm List.not_mem_nil
    · exact htake _ _
  rw [Lexer.step] at hb
  cases hp : l.phase <;> simp only [hp] at hb
  case between =>
    split_ifs at hb
    · exact .inl hb
    · exact hunquoted hb
  case word => exact hunquoted hb
  case closed => exact hunquoted hb
  case wordEsc => exact htake _ _ hb
  case rawEsc => exact htake _ _ hb
  case cookedEsc => exact htake _ _ hb
  case raw => split_ifs at hb <;> exact htake _ _ hb
  case cooked => split_ifs at hb <;> exact htake _ _ hb

/-- The source text of a token is part of the input. -/
theorem read_lexeme (l : Lexer) (s : List Byte) (b : Byte) (hb : b ∈ (l.read s).lexeme) :
    b ∈ l.lexeme ∨ b ∈ s := by
  induction s generalizing l with
  | nil => exact .inl hb
  | cons c s ih =>
    obtain hb | hb := ih _ hb
    · exact (step_lexeme l c b hb).imp_right (List.mem_cons.mpr <| .inl ·)
    · exact .inr (List.mem_cons_of_mem c hb)

/-- The strings that a call returns; `none` when a quotation is left open. The last one goes on
with the source text behind it when it is ended by the end of the input. -/
def arguments (s : List Byte) : Option (List (List Byte)) :=
  let l := lex s
  match l.phase with
  | .between => some l.tokens
  | .word => some (l.tokens ++ [l.token ++ rest l])
  | .wordEsc | .closed => some (l.tokens ++ [l.token])
  | .raw | .rawEsc | .cooked | .cookedEsc => none

/-- Both outputs are written, or neither and both allocations are freed. -/
def Returns (out : ArgvResult) : Option (List (List Byte)) → Prop
  | some args => out.err = .ok ∧ out.argc = some args.length ∧ ∃ slots, out.argv = some slots ∧
      slots[args.length]? = some .null ∧
      ∀ i (h : i < args.length), ∃ p, slots[i]? = some (.ptr p) ∧ strAt out.str p = args[i]
  | none => out.err = .unbalancedQuote ∧ out.argc = none ∧ out.argv = none ∧
      out.freed = [.res, .str]

theorem rest_nul_free (str : CStr) : NUL ∉ rest (lex str.bytes) := by
  intro hm
  obtain hn | hn := read_lexeme .start str.bytes NUL (List.mem_of_mem_drop hm)
  · exact List.not_mem_nil hn
  · exact str.nul_free hn

theorem scanTokens_start_ended (str : CStr) {t : Table} {c : Text}
    (hrun : scanTokens (2 * (dup (str.bytes.dropWhile isspace)).length + 2) .new
      ⟨dup (str.bytes.dropWhile isspace), 0, 0⟩ = .ok (.ok, t, c))
    (hw : (lex str.bytes).phase = .word) :
    ∃ y, t.res[(lex str.bytes).tokens.length]? = some (.ptr y.length) ∧
      Ended y (lex str.bytes) c := by
  have hnul : NUL ∉ str.bytes.dropWhile isspace := fun hm =>
    str.nul_free (List.dropWhile_subset _ hm)
  rw [← lex_skip] at hw ⊢
  apply scanTokens_ended _ [] _ [] .new t _ c rfl rfl new_wf rfl hnul _ hrun hw
  rw [dup, List.length_append]
  omega

/-- Every call returns, and what it returns is known. -/
theorem stringToArgv_returns (str : CStr) :
    ∃ out, stringToArgv str = .ok out ∧ Returns out (arguments str.bytes) := by
  obtain ⟨o, ho, hout⟩ := scanTokens_start str
  cases hout with
  | between t c hphase hwf hargc hold =>
    have hroom : t.argc < t.res.length := by have := hwf.size; have := hwf.room; omega
    refine ⟨⟨.ok, some t.argc, some (t.res.set t.argc .null), c.buf,
      if t.argc = 0 then [.str] else []⟩, by simp [stringToArgv, ho, write_null hwf], ?_⟩
    rw [arguments, hphase]
    refine ⟨rfl, by simp [hargc], _, rfl, by simp [← hargc, hroom], fun i hi => ?_⟩
    obtain ⟨p, hp, hs⟩ := hold i hi
    exact ⟨p, by rw [List.getElem?_set_ne (by omega), hp], hs.strAt⟩
  | last t c x z hphase hwf hargc hold hptr hnul hbuf hz =>
    have hroom : t.argc < t.res.length := by have := hwf.size; have := hwf.room; omega
    have hslot : ∀ i < t.argc, (t.res.set t.argc .null)[i]? = t.res[i]? := fun i hi =>
      List.getElem?_set_ne (by omega)
    obtain ⟨last, hargs, hread⟩ : ∃ last,
        arguments str.bytes = some ((lex str.bytes).tokens ++ [last]) ∧
          strAt c.buf x.length = last := by
      by_cases hw : (lex str.bytes).phase = .word
      · obtain ⟨y, hy, hended⟩ := scanTokens_start_ended str ho hw
        have hxy : x.length = y.length := by simpa [hptr] using hy
        refine ⟨(lex str.bytes).token ++ rest (lex str.bytes), by simp only [arguments, hw], ?_⟩
        rw [hxy, hended, strAt_append hnul, takeWhile_append (rest_nul_free str)]
        simp
      · refine ⟨(lex str.bytes).token, ?_, ?_⟩
        · obtain hp | hp | hp := hphase
          · exact absurd hp hw
          · simp only [arguments, hp]
          · simp only [arguments, hp]
        · rw [hbuf, strAt_append hnul, hz.mpr fun h => absurd h hw, List.append_nil]
    refine ⟨⟨.ok, some t.argc, some (t.res.set t.argc .null), c.buf,
      if t.argc = 0 then [.str] else []⟩, by simp [stringToArgv, ho, write_null hwf], ?_⟩
    rw [hargs]
    refine ⟨rfl, by simp [hargc], _, rfl, by simp [← hargc, hroom], fun i hi => ?_⟩
    by_cases hlt : i < (lex str.bytes).tokens.length
    · obtain ⟨p, hp, hs⟩ := hold i hlt
      exact ⟨p, by rw [hslot i (by omega), hp], by rw [hs.strAt, List.getElem_append_left hlt]⟩
    · obtain rfl : i = (lex str.bytes).tokens.length := by simp at hi; omega
      exact ⟨x.length, by rw [hslot _ (by omega), hptr], by rw [hread]; simp⟩
  | unbalanced t c hq =>
    refine ⟨⟨.unbalancedQuote, none, none, c.buf, [.res, .str]⟩, by simp [stringToArgv, ho], ?_⟩
    have hargs : arguments str.bytes = none := by
      cases hp : (lex str.bytes).phase <;> simp [arguments, hp, Phase.quoted] at hq ⊢
    rw [hargs]
    exact ⟨rfl, rfl, rfl, rfl⟩

theorem arguments_eq_none_iff (s : List Byte) :
    arguments s = none ↔ (lex s).phase.quoted = true := by
  cases hp : (lex s).phase <;> simp [arguments, hp, Phase.quoted]

end EbbrtContrib.ArgvStrings
