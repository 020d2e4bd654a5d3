import EbbrtContrib.ArgvQuotes

namespace EbbrtContrib.ArgvTokens

open CString InPlace Argv Tokenizer ArgvQuotes

/-- The state between two pieces of a token: `g` is what the source text of the token is
longer than its meaning, and starts with a NUL exactly when a quotation has just closed. -/
structure InToken (l : Lexer) (g : List Byte) : Prop where
  nul_free : NUL ∉ l.token
  length : l.lexeme.length = l.token.length + g.length
  gap : (l.phase = .closed ∧ ∃ g', g = NUL :: g' ∧ NUL ∉ g') ∨ (l.phase = .word ∧ NUL ∉ g)

theorem InToken.clean {l : Lexer} {g : List Byte} (h : InToken l g) : Clean g := by
  obtain ⟨-, g', rfl, hg⟩ | ⟨-, hg⟩ := h.gap
  · exact hg
  · exact .of_nul_free hg

theorem InToken.step {l : Lexer} {g : List Byte} (h : InToken l g) (c : Byte) :
    l.step c = l.unquoted c := by
  obtain ⟨hp, -⟩ | ⟨hp, -⟩ := h.gap <;> simp [Lexer.step, hp]

/-- A piece `s` of source text that stands for the single byte `b`. -/
theorem InToken.word {l : Lexer} {g : List Byte} (h : InToken l g) {s : List Byte} {b : Byte}
    (hs : NUL ∉ s) (hne : s ≠ []) (hb : b ≠ NUL) : InToken (l.take .word s [b]) (g ++ s).tail where
  nul_free := by simpa [Lexer.take, eq_comm] using ⟨h.nul_free, hb⟩
  length := by
    have := List.length_pos_iff.mpr hne
    simp only [Lexer.take, List.length_append, List.length_tail, List.length_cons, List.length_nil,
      h.length]
    omega
  gap := .inr ⟨rfl, nul_free_tail h.clean hs⟩

theorem InToken.closed {l : Lexer} {g g' s bs : List Byte} (h : InToken l g) (hbs : NUL ∉ bs)
    (hlen : s.length + g.length = bs.length + (g'.length + 1)) (hg' : NUL ∉ g') :
    InToken (l.take .closed s bs) (NUL :: g') where
  nul_free := by simpa [Lexer.take] using ⟨h.nul_free, hbs⟩
  length := by
    simp only [Lexer.take, List.length_append, List.length_cons, h.length]
    omega
  gap := .inl ⟨rfl, g', rfl, hg'⟩

/-- How the loop over one token leaves. At the end of the input the bytes `z` behind the
token decide what is read there as a C string. -/
inductive TokenOutcome (A : List Byte) (l : Lexer) (r : List Byte) : Exit × Text → Prop
  | done (c : Text) (z : List Byte)
      (hphase : (l.read r).phase = .word ∨ (l.read r).phase = .wordEsc ∨ (l.read r).phase = .closed)
      (htokens : (l.read r).tokens = l.tokens) (hnul : NUL ∉ (l.read r).token)
      (hbuf : c.buf = A ++ ((l.read r).token ++ z))
      (hz : z.takeWhile (· ≠ NUL) = [] ↔
        ((l.read r).phase = .word → (l.read r).lexeme.length = (l.read r).token.length)) :
      TokenOutcome A l r (.done, c)
  | tokenDone (s r' t g : List Byte) (hr : r = s ++ r') (hs : s ≠ [])
      (hlex : l.read s = ⟨.between, [], [], l.tokens ++ [t]⟩) (ht : NUL ∉ t) (hg : g ≠ []) :
      TokenOutcome A l r (.tokenDone, cut (A ++ t) g (r' ++ [NUL]))
  | errorLeave (c : Text) (h : (l.read r).phase.quoted) :
      TokenOutcome A l r (.errorLeave .unbalancedQuote, c)

theorem TokenOutcome.prepend {A r : List Byte} {l l₁ : Lexer} (s : List Byte)
    (hlex : l.read s = l₁) (htokens : l₁.tokens = l.tokens) {o : Exit × Text}
    (h : TokenOutcome A l₁ r o) : TokenOutcome A l (s ++ r) o := by
  subst hlex
  cases h with
  | done c z hphase ht hnul hbuf hz =>
    rw [← Lexer.read_append] at *
    exact .done c z hphase (ht.trans htokens) hnul hbuf hz
  | tokenDone s' r' t g hr hs hl ht hg =>
    refine .tokenDone (s ++ s') r' t g (by rw [hr, List.append_assoc]) (by simp [hs]) ?_ ht hg
    rw [Lexer.read_append, hl, htokens]
  | errorLeave c hq => exact .errorLeave c (by rwa [Lexer.read_append])

theorem takeWhile_gap {l : Lexer} {g : List Byte} (h : InToken l g) :
    (g ++ [NUL]).takeWhile (· ≠ NUL) = [] ↔
      (l.phase = .word → l.lexeme.length = l.token.length) := by
  have hlen := h.length
  obtain ⟨hp, g', rfl, -⟩ | ⟨hp, hg⟩ := h.gap
  · simp [hp]
  · rw [takeWhile_append hg]
    simp only [hp, forall_const, hlen]
    simp

/-- What the loop over a token does with the end of a quoted piece. -/
theorem scanToken_quoted {fuel : Nat} {A g r : List Byte} {l : Lexer} {q : Byte} {p : Phase}
    (ih : ∀ (g r : List Byte) (l : Lexer), InToken l g → r.length < fuel → NUL ∉ r →
      ∃ o, scanToken fuel (cut (A ++ l.token) g (r ++ [NUL])) = .ok o ∧ TokenOutcome A l r o)
    (h : InToken l g) (hread : l.read [q] = l.take p [q] []) (hfuel : r.length < fuel)
    (hr : NUL ∉ r) {o : StrToArgvErr × Text}
    (hout : QuoteOutcome (A ++ l.token) (g ++ [q]) (l.take p [q] []) r o) :
    ∃ o', (if o.1 = .ok then scanToken fuel o.2 else .ok (.errorLeave o.1, o.2)) = .ok o' ∧
      TokenOutcome A l (q :: r) o' := by
  cases hout with
  | closed s r' bs g' hrs hs hlex hlen hbs hg' =>
    subst hrs
    rw [Lexer.take_take, List.nil_append, List.singleton_append] at hlex
    have hread' : l.read (q :: s) = l.take .closed (q :: s) bs := by
      rw [← hlex, ← hread]
      rfl
    have hin : InToken (l.take .closed (q :: s) bs) (NUL :: g') :=
      h.closed hbs (by simp at hlen ⊢; omega) hg'
    simp only [List.length_append] at hfuel
    obtain ⟨o', ho', hout'⟩ := ih _ r' _ hin (by omega) (fun hm => hr (by simp [hm]))
    refine ⟨o', by simpa [Lexer.take] using ho', ?_⟩
    exact TokenOutcome.prepend (q :: s) hread' rfl hout'
  | unbalanced c hq =>
    refine ⟨(.errorLeave .unbalancedQuote, c), rfl, .errorLeave c ?_⟩
    have hcons : l.read (q :: r) = (l.take p [q] []).read r := by rw [← hread]; rfl
    rwa [hcons]

theorem scanToken_spec (fuel : Nat) (A g r : List Byte) (l : Lexer) (h : InToken l g)
    (hfuel : r.length < fuel) (hr : NUL ∉ r) :
    ∃ o, scanToken fuel (cut (A ++ l.token) g (r ++ [NUL])) = .ok o ∧ TokenOutcome A l r o := by
  induction fuel generalizing g r l with
  | zero => omega
  | succ fuel ih =>
    cases r with
    | nil =>
      refine ⟨(.done, cut (A ++ l.token) (g ++ [NUL]) []), by simp [scanToken], ?_⟩
      refine .done _ (g ++ [NUL]) ?_ rfl h.nul_free (by simp [cut]) (takeWhile_gap h)
      obtain ⟨hp, -⟩ | ⟨hp, -⟩ := h.gap <;> simp [hp]
    | cons c r =>
      obtain ⟨hc, hr'⟩ : c ≠ NUL ∧ NUL ∉ r := by simpa [eq_comm] using hr
      simp only [List.length_cons] at hfuel
      by_cases hb : c = bslash
      · subst hb
        cases r with
        | nil =>
          have hread : l.read [bslash] = l.take .wordEsc [bslash] [] := by
            simp [h.step, Lexer.unquoted]
          refine ⟨(.done, cut (A ++ l.token ++ [NUL]) (g ++ [bslash, NUL]).tail []), by
            simp [scanToken, put_cut], ?_⟩
          refine .done _ (NUL :: (g ++ [bslash, NUL]).tail) ?_ ?_ ?_ ?_ ?_ <;> rw [hread]
          · exact .inr (.inl rfl)
          · rfl
          · simpa [Lexer.take] using h.nul_free
          · simp [cut, Lexer.take]
          · simp
        | cons d r =>
          obtain ⟨hd, hr''⟩ : d ≠ NUL ∧ NUL ∉ r := by simpa [eq_comm] using hr'
          have hs : NUL ∉ [bslash, d] := by simpa [eq_comm] using hd
          simp only [List.length_cons] at hfuel
          obtain ⟨o, ho, hout⟩ := ih _ r _ (h.word hs (by simp) hd) (by omega) hr''
          refine ⟨o, by simpa [scanToken, hd, put_cut, Lexer.take] using ho, ?_⟩
          have hread : l.read [bslash, d] = l.take .word [bslash, d] [d] := by
            simp [h.step, Lexer.unquoted, Lexer.step_wordEsc]
          exact TokenOutcome.prepend [bslash, d] hread rfl hout
      by_cases hq : c = squote
      · subst hq
        have hread : l.read [squote] = l.take .raw [squote] [] := by simp [h.step, Lexer.unquoted]
        obtain ⟨o, ho, hout⟩ := copyRawString_spec fuel (A ++ l.token) (g ++ [squote]) r
          (l.take .raw [squote] []) rfl (by omega) hr' (by simp)  (h.clean.of_quote hc)
        obtain ⟨o', ho', hout'⟩ := scanToken_quoted ih h hread (by omega) hr' hout
        exact ⟨o', by simpa [scanToken, ho] using ho', hout'⟩
      by_cases hq' : c = dquote
      · subst hq'
        have hread : l.read [dquote] = l.take .cooked [dquote] [] := by
          simp [h.step, Lexer.unquoted]
        obtain ⟨o, ho, hout⟩ := copyCookedString_spec fuel (A ++ l.token) (g ++ [dquote]) r
          (l.take .cooked [dquote] []) rfl (by omega) hr' (by simp)  (h.clean.of_quote hc)
        obtain ⟨o', ho', hout'⟩ := scanToken_quoted ih h hread (by omega) hr' hout
        exact ⟨o', by simpa [scanToken, ho] using ho', hout'⟩
      by_cases hsep : isSeparator c
      · exact ⟨_, by simp [scanToken, hc, hb, hq, hq', hsep], .tokenDone [c] r l.token (g ++ [c])
          rfl (by simp) (by simp [h.step, Lexer.unquoted, hb, hq, hq', hsep]) h.nul_free (by simp)⟩
      · have hs : NUL ∉ [c] := by simpa [eq_comm] using hc
        obtain ⟨o, ho, hout⟩ := ih _ r _ (h.word hs (by simp) hc) (by omega) hr'
        refine ⟨o, by simpa [scanToken, hc, hb, hq, hq', hsep, put_cut, Lexer.take] using ho, ?_⟩
        have hread : l.read [c] = l.take .word [c] [c] := by
          simp [h.step, Lexer.unquoted, hb, hq, hq', hsep]
        exact TokenOutcome.prepend [c] hread rfl hout

end EbbrtContrib.ArgvTokens
