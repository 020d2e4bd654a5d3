import Mathlib.Tactic.SplitIfs
import EbbrtContrib.Tokenizer

namespace EbbrtContrib.ArgvQuotes

open CString InPlace Argv Tokenizer

@[simp] theorem bslash_ne_nul : bslash ≠ NUL := by decide
@[simp] theorem squote_ne_nul : squote ≠ NUL := by decide
@[simp] theorem dquote_ne_nul : dquote ≠ NUL := by decide
@[simp] theorem bslash_ne_squote : bslash ≠ squote := by decide
@[simp] theorem bslash_ne_dquote : bslash ≠ dquote := by decide
@[simp] theorem squote_ne_bslash : squote ≠ bslash := by decide
@[simp] theorem dquote_ne_bslash : dquote ≠ bslash := by decide
@[simp] theorem dquote_ne_squote : dquote ≠ squote := by decide

theorem controlChar_ne_nul {c : Byte} (h : c ≠ NUL) : controlChar c ≠ NUL := by
  unfold controlChar
  split_ifs <;> first | decide | exact h

theorem controlChar_nul : controlChar NUL = NUL := by decide

/-- A gap whose only NUL can be the one a closing quote left at the write cursor. -/
def Clean (g : List Byte) : Prop := NUL ∉ g.tail

theorem nul_free_tail {g s : List Byte} (hg : Clean g) (hs : NUL ∉ s) : NUL ∉ (g ++ s).tail := by
  cases g with
  | nil => exact fun hm => hs (List.mem_of_mem_tail hm)
  | cons b g => simpa [Clean, hs] using hg

theorem Clean.of_nul_free {g : List Byte} (h : NUL ∉ g) : Clean g :=
  fun hm => h (List.mem_of_mem_tail hm)

theorem Clean.of_quote {g : List Byte} {q : Byte} (hg : Clean g) (hq : q ≠ NUL) :
    Clean (g ++ [q]) :=
  nul_free_tail hg (by simpa using hq.symm)

/-- How a quoted piece ends: either `s` runs up to its closing quote and stands for `bs`,
with a NUL stored behind it, or the input ends inside the quotation. -/
inductive QuoteOutcome (w g : List Byte) (l : Lexer) (r : List Byte) :
    StrToArgvErr × Text → Prop
  | closed (s r' bs g' : List Byte) (hr : r = s ++ r') (hs : s ≠ [])
      (hlex : l.read s = l.take .closed s bs)
      (hlen : s.length + g.length = bs.length + (g'.length + 1))
      (hbs : NUL ∉ bs) (hg' : NUL ∉ g') :
      QuoteOutcome w g l r (.ok, cut (w ++ bs) (NUL :: g') (r' ++ [NUL]))
  | unbalanced (c : Text) (h : (l.read r).phase.quoted) : QuoteOutcome w g l r (.unbalancedQuote, c)

/-- Put `s` and the bytes it stands for in front of the rest of a quoted piece. -/
theorem QuoteOutcome.prepend {w g g₁ r bs : List Byte} {l : Lexer} {p : Phase} (s : List Byte)
    (hlex : l.read s = l.take p s bs) (hbs : NUL ∉ bs)
    (hlen : s.length + g.length = bs.length + g₁.length) {o : StrToArgvErr × Text}
    (h : QuoteOutcome (w ++ bs) g₁ (l.take p s bs) r o) : QuoteOutcome w g l (s ++ r) o := by
  cases h with
  | closed s' r' bs' g' hr hs hl hlen' hbs' hg' =>
    rw [List.append_assoc w bs bs']
    refine .closed (s ++ s') r' (bs ++ bs') g' (by rw [hr, List.append_assoc]) (by simp [hs])
      ?_ ?_ (by simp [hbs, hbs']) hg'
    · rw [Lexer.read_append, hlex, hl, Lexer.take_take]
    · simp only [List.length_append]
      omega
  | unbalanced c hq => exact .unbalanced c (by rwa [Lexer.read_append, hlex])

/-- The closing quote `q` itself. -/
theorem QuoteOutcome.close {w g r : List Byte} {l : Lexer} (q : Byte) (hq : q ≠ NUL)
    (hlex : l.step q = l.take .closed [q] []) (hg : Clean g) :
    QuoteOutcome w g l (q :: r) (.ok, cut w (NUL :: (g ++ [q]).tail) (r ++ [NUL])) := by
  have h := QuoteOutcome.closed (w := w) (g := g) [q] r [] (g ++ [q]).tail rfl (by simp)
    (by simpa using hlex) (by simp [List.length_tail]; omega) (by simp)
    (nul_free_tail hg (by simpa using hq.symm))
  simpa using h

theorem copyRawString_spec (fuel : Nat) (w g r : List Byte) (l : Lexer) (hl : l.phase = .raw)
    (hfuel : r.length < fuel) (hr : NUL ∉ r) (hg : g ≠ []) (hclean : Clean g) :
    ∃ o, copyRawString fuel (cut w g (r ++ [NUL])) = .ok o ∧ QuoteOutcome w g l r o := by
  induction fuel generalizing w g r l with
  | zero => omega
  | succ fuel ih =>
    have hlen : 0 < g.length := List.length_pos_iff.mpr hg
    match r with
    | [] =>
      exact ⟨(.unbalancedQuote, cut w (g ++ [NUL]) []), by simp [copyRawString],
        .unbalanced _ (by simp [hl, Phase.quoted])⟩
    | c :: r =>
      obtain ⟨hc, hr'⟩ : c ≠ NUL ∧ NUL ∉ r := by simpa [eq_comm] using hr
      simp only [List.length_cons] at hfuel
      by_cases hq : c = squote
      · subst hq
        exact ⟨_, by simp [copyRawString, store_cut],
          .close squote hc (by simp [Lexer.step, hl]) hclean⟩
      by_cases hb : c = bslash
      · subst hb
        match r with
        | [] =>
          exact ⟨(.unbalancedQuote, cut w (g ++ [bslash, NUL]) []), by simp [copyRawString],
            .unbalanced _ (by simp [Lexer.step, hl, Phase.quoted])⟩
        | d :: r =>
          obtain ⟨hd, hr''⟩ : d ≠ NUL ∧ NUL ∉ r := by simpa [eq_comm] using hr'
          have hgap : NUL ∉ (g ++ [bslash, d]).tail :=
            nul_free_tail hclean (by simpa [eq_comm] using hd)
          simp only [List.length_cons] at hfuel
          by_cases he : d = bslash ∨ d = squote
          · obtain ⟨o, ho, hout⟩ := ih (w ++ [d]) (g ++ [bslash, d]).tail r
              (l.take .raw [bslash, d] [d]) rfl (by omega) hr'' (by cases g <;> simp)
              (.of_nul_free hgap)
            refine ⟨o, by simpa [copyRawString, hd, he, put_cut] using ho, ?_⟩
            refine QuoteOutcome.prepend [bslash, d] ?_ ?_ ?_ hout
            · simp [Lexer.step, hl, he]
            · simpa [eq_comm] using hd
            · simp [List.length_tail]; omega
          · obtain ⟨o, ho, hout⟩ := ih (w ++ [bslash, d]) (g ++ [bslash, d]).tail.tail r
              (l.take .raw [bslash, d] [bslash, d]) rfl (by omega) hr''
              (List.ne_nil_of_length_pos (by simp [List.length_tail, hlen]))
              (.of_nul_free fun hm => hgap (List.mem_of_mem_tail hm))
            have hne : (g ++ [bslash, d]).tail ≠ [] := by cases g <;> simp
            refine ⟨o, by simpa [copyRawString, hd, he, put_cut, hne] using ho, ?_⟩
            refine QuoteOutcome.prepend [bslash, d] ?_ ?_ ?_ hout
            · simp [Lexer.step, hl, he]
            · simpa [eq_comm] using hd
            · simp [List.length_tail]
      · have hgap : NUL ∉ (g ++ [c]).tail := nul_free_tail hclean (by simpa [eq_comm] using hc)
        obtain ⟨o, ho, hout⟩ := ih (w ++ [c]) (g ++ [c]).tail r (l.take .raw [c] [c]) rfl
          (by omega) hr' (by cases g <;> simp at hg ⊢) (.of_nul_free hgap)
        refine ⟨o, by simpa [copyRawString, hc, hq, hb, put_cut] using ho, ?_⟩
        refine QuoteOutcome.prepend [c] ?_ ?_ ?_ hout
        · simp [Lexer.step, hl, hq, hb]
        · simpa [eq_comm] using hc
        · simp [List.length_tail]

theorem copyCookedString_spec (fuel : Nat) (w g r : List Byte) (l : Lexer)
    (hl : l.phase = .cooked) (hfuel : r.length < fuel) (hr : NUL ∉ r) (hg : g ≠ [])
    (hclean : Clean g) :
    ∃ o, copyCookedString fuel (cut w g (r ++ [NUL])) = .ok o ∧ QuoteOutcome w g l r o := by
  induction fuel generalizing w g r l with
  | zero => omega
  | succ fuel ih =>
    match r with
    | [] =>
      exact ⟨(.unbalancedQuote, cut w (g ++ [NUL]) []), by simp [copyCookedString],
        .unbalanced _ (by simp [hl, Phase.quoted])⟩
    | c :: r =>
      obtain ⟨hc, hr'⟩ : c ≠ NUL ∧ NUL ∉ r := by simpa [eq_comm] using hr
      simp only [List.length_cons] at hfuel
      by_cases hq : c = dquote
      · subst hq
        exact ⟨_, by simp [copyCookedString, store_cut],
          .close dquote hc (by simp [Lexer.step, hl]) hclean⟩
      by_cases hb : c = bslash
      · subst hb
        match r with
        | [] =>
          exact ⟨(.unbalancedQuote, cut w (g ++ [bslash, NUL]) []),
            by simp [copyCookedString, escapeConvt, controlChar_nul],
            .unbalanced _ (by simp [Lexer.step, hl, Phase.quoted])⟩
        | d :: r =>
          obtain ⟨hd, hr''⟩ : d ≠ NUL ∧ NUL ∉ r := by simpa [eq_comm] using hr'
          have hgap : NUL ∉ (g ++ [bslash, d]).tail :=
            nul_free_tail hclean (by simpa [eq_comm] using hd)
          have hctl := controlChar_ne_nul hd
          simp only [List.length_cons] at hfuel
          obtain ⟨o, ho, hout⟩ := ih (w ++ [controlChar d]) (g ++ [bslash, d]).tail r
            (l.take .cooked [bslash, d] [controlChar d]) rfl (by omega) hr''
            (by cases g <;> simp) (.of_nul_free hgap)
          refine ⟨o, by simpa [copyCookedString, escapeConvt, hctl, put_cut] using ho, ?_⟩
          refine QuoteOutcome.prepend [bslash, d] ?_ ?_ ?_ hout
          · simp [Lexer.step, hl]
          · simpa [eq_comm] using hctl
          · simp [List.length_tail]; omega
      · have hgap : NUL ∉ (g ++ [c]).tail := nul_free_tail hclean (by simpa [eq_comm] using hc)
        obtain ⟨o, ho, hout⟩ := ih (w ++ [c]) (g ++ [c]).tail r (l.take .cooked [c] [c]) rfl
          (by omega) hr' (by cases g <;> simp at hg ⊢) (.of_nul_free hgap)
        refine ⟨o, by simpa [copyCookedString, hc, hq, hb, put_cut] using ho, ?_⟩
        refine QuoteOutcome.prepend [c] ?_ ?_ ?_ hout
        · simp [Lexer.step, hl, hq, hb]
        · simpa [eq_comm] using hc
        · simp [List.length_tail]

end EbbrtContrib.ArgvQuotes
