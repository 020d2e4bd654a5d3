import Mathlib.Tactic.SplitIfs
import EbbrtContrib.Argv
import EbbrtContrib.Runs

namespace EbbrtContrib.ArgvMachine

open CString InPlace Argv Fallible Runs

/-- Where `string_to_argv` is: at the loop over spaces, at the test for the end, at `++argc` and
at `*(argv++) = dest = scan`; in the loop over a token and behind its backslash, in
`copy_raw_string` and in `copy_cooked_string`, each also behind a backslash; at the labels
`token_done` and `done`, and returned. -/
inductive Pc
  | skip
  | test
  | count
  | point
  | loop
  | escape
  | raw
  | rawEscape
  | cooked
  | cookedEscape
  | tokenDone
  | done
  | halted (err : StrToArgvErr)
  deriving DecidableEq, Repr

/-- `*scan` at an index; `*dest` at an index, with the number of characters consumed by then; and
`*argv` at an index, with the value of `act`. -/
inductive Access
  | read (i : Nat)
  | write (i consumed : Nat)
  | slot (i act : Nat)
  deriving DecidableEq, Repr

structure State where
  pc : Pc
  text : Text
  table : Table
  accesses : List Access
  deriving DecidableEq, Repr

def State.init (str : CStr) : State := ⟨.skip, ⟨dup (str.bytes.dropWhile isspace), 0, 0⟩, .new, []⟩

def State.goto (s : State) (p : Pc) : State := { s with pc := p }

/-- `*scan` -/
def State.char (s : State) : Byte := s.text.buf.getD s.text.scan NUL

def State.peek (s : State) : State := { s with accesses := s.accesses ++ [.read s.text.scan] }

/-- `*(scan++)` -/
def State.consume (s : State) : State :=
  { s.peek with text := { s.text with scan := s.text.scan + 1 } }

/-- `*dest = a` -/
def State.store (s : State) (a : Byte) : State :=
  { s with
    text := { s.text with buf := s.text.buf.set s.text.dest a }
    accesses := s.accesses ++ [.write s.text.dest s.text.scan] }

/-- `*(dest++) = a` -/
def State.put (s : State) (a : Byte) : State :=
  { s.store a with text := { (s.store a).text with dest := s.text.dest + 1 } }

/-- `*argv = p` -/
def State.setSlot (s : State) (p : Slot) : State :=
  { s with
    table := { s.table with res := s.table.res.set s.table.argv p }
    accesses := s.accesses ++ [.slot s.table.argv s.table.act] }

/-- `*(argv++) = dest = scan` -/
def State.point (s : State) : State :=
  let s' := s.setSlot (.ptr s.text.scan)
  { s' with
    table := { s'.table with argv := s.table.argv + 1 }
    text := { s.text with dest := s.text.scan } }

def State.next (s : State) : Option State :=
  let ch := s.char
  match s.pc with
  | .skip => some (if isspace ch then s.consume else s.peek.goto .test)
  | .test => some (s.peek.goto (if ch = NUL then .done else .count))
  | .count => some { s with table := s.table.grow, pc := .point }
  | .point => some (s.point.goto .loop)
  | .loop =>
    some (if ch = NUL then s.consume.goto .done
      else if ch = bslash then s.consume.goto .escape
      else if ch = squote then s.consume.goto .raw
      else if ch = dquote then s.consume.goto .cooked
      else if isSeparator ch then s.consume.goto .tokenDone
      else s.consume.put ch)
  | .escape => some ((s.consume.put ch).goto (if ch = NUL then .done else .loop))
  | .raw =>
    some (if ch = NUL then s.consume.goto (.halted .unbalancedQuote)
      else if ch = squote then (s.consume.store NUL).goto .loop
      else if ch = bslash then s.consume.goto .rawEscape
      else s.consume.put ch)
  | .rawEscape =>
    some (if ch = NUL then s.consume.goto (.halted .unbalancedQuote)
      else if ch = bslash ∨ ch = squote then (s.consume.put ch).goto .raw
      else ((s.consume.put bslash).put ch).goto .raw)
  | .cooked =>
    some (if ch = NUL then s.consume.goto (.halted .unbalancedQuote)
      else if ch = dquote then (s.consume.store NUL).goto .loop
      else if ch = bslash then s.consume.goto .cookedEscape
      else s.consume.put ch)
  | .cookedEscape =>
    some (if controlChar ch = NUL then s.consume.goto (.halted .unbalancedQuote)
      else (s.consume.put (controlChar ch)).goto .cooked)
  | .tokenDone => some ((s.store NUL).goto .skip)
  | .done => some ((s.setSlot .null).goto (.halted .ok))
  | .halted _ => none

/-- One step of the call. -/
def step (s : State) (_ : Unit) : Option State := s.next

/-- All of a state but its record of accesses. -/
def State.core (s : State) : Pc × Text × Table := (s.pc, s.text, s.table)

/-- With the cursors `c` and the table `t` the call gets from `p` to `q`. -/
def Leads (p : Pc) (c : Text) (t : Table) (q : Pc) (c' : Text) (t' : Table) : Prop :=
  ∀ l, ∃ l', Reachable step ⟨p, c, t, l⟩ ⟨q, c', t', l'⟩

variable {p q r : Pc} {c c₁ c₂ : Text} {t t₁ t₂ : Table} {ch : Byte}

theorem Leads.head (h : ∀ l, (State.next ⟨p, c, t, l⟩).map State.core = some (q, c₁, t₁))
    (h' : Leads q c₁ t₁ r c₂ t₂) : Leads p c t r c₂ t₂ := by
  intro l
  obtain ⟨⟨q', c', t', l₁⟩, hnext, hcore⟩ := Option.map_eq_some_iff.mp (h l)
  cases hcore
  obtain ⟨l₂, hreach⟩ := h' l₁
  exact ⟨l₂, (Reaches.refl.tail (e := ()) trivial hnext).trans hreach⟩

theorem Leads.refl : Leads p c t p c t := fun l => ⟨l, .refl⟩

theorem Leads.trans (h : Leads p c t q c₁ t₁) (h' : Leads q c₁ t₁ r c₂ t₂) :
    Leads p c t r c₂ t₂ := by
  intro l
  obtain ⟨l₁, h₁⟩ := h l
  obtain ⟨l₂, h₂⟩ := h' l₁
  exact ⟨l₂, h₁.trans h₂⟩

theorem char_eq (h : c.buf[c.scan]? = some ch) (p : Pc) (t : Table) (l : List Access) :
    State.char ⟨p, c, t, l⟩ = ch := by
  rw [State.char, List.getD_eq_getElem?_getD, h, Option.getD_some]

/-- Where a quoted piece is left. -/
def afterQuote (err : StrToArgvErr) : Pc := if err = .ok then .loop else .halted err

theorem copyRawString_leads {fuel : Nat} {err : StrToArgvErr}
    (h : copyRawString fuel c = .ok (err, c₁)) : Leads .raw c t (afterQuote err) c₁ t := by
  induction fuel generalizing c with
  | zero => cases h
  | succ fuel ih =>
    simp only [copyRawString, bind_eq_ok] at h
    obtain ⟨⟨ch, c₂⟩, hnext, h⟩ := h
    obtain ⟨hch, rfl⟩ := next_eq_ok.mp hnext
    dsimp only at h
    split_ifs at h with hnul hquote hslash
    · cases h
      refine .head (fun l => ?_) .refl
      simp only [State.next, char_eq hch, if_pos hnul]
      rfl
    · simp only [bind_eq_ok, store_eq_ok] at h
      obtain ⟨_, ⟨-, rfl⟩, h⟩ := h
      cases h
      refine .head (fun l => ?_) .refl
      simp only [State.next, char_eq hch, if_neg hnul, if_pos hquote]
      rfl
    · simp only [bind_eq_ok] at h
      obtain ⟨⟨d, c₂⟩, hnext', h⟩ := h
      obtain ⟨hd, rfl⟩ := next_eq_ok.mp hnext'
      have hescape : Leads .raw c t .rawEscape { c with scan := c.scan + 1 } t := by
        refine .head (fun l => ?_) .refl
        simp only [State.next, char_eq hch, if_neg hnul, if_neg hquote, if_pos hslash]
        rfl
      dsimp only at h
      split_ifs at h with hnul' hescaped
      · cases h
        refine hescape.trans (.head (fun l => ?_) .refl)
        simp only [State.next, char_eq hd, if_pos hnul']
        rfl
      · simp only [bind_eq_ok, put_eq_ok] at h
        obtain ⟨_, ⟨-, rfl⟩, h⟩ := h
        refine hescape.trans (.head (fun l => ?_) (ih h))
        simp only [State.next, char_eq hd, if_neg hnul', if_pos hescaped]
        rfl
      · simp only [bind_eq_ok, put_eq_ok] at h
        obtain ⟨_, ⟨-, rfl⟩, _, ⟨-, rfl⟩, h⟩ := h
        refine hescape.trans (.head (fun l => ?_) (ih h))
        simp only [State.next, char_eq hd, if_neg hnul', if_neg hescaped]
        rfl
    · simp only [bind_eq_ok, put_eq_ok] at h
      obtain ⟨_, ⟨-, rfl⟩, h⟩ := h
      refine .head (fun l => ?_) (ih h)
      simp only [State.next, char_eq hch, if_neg hnul, if_neg hquote, if_neg hslash]
      rfl

theorem copyCookedString_leads {fuel : Nat} {err : StrToArgvErr}
    (h : copyCookedString fuel c = .ok (err, c₁)) : Leads .cooked c t (afterQuote err) c₁ t := by
  induction fuel generalizing c with
  | zero => cases h
  | succ fuel ih =>
    simp only [copyCookedString, bind_eq_ok] at h
    obtain ⟨⟨ch, c₂⟩, hnext, h⟩ := h
    obtain ⟨hch, rfl⟩ := next_eq_ok.mp hnext
    dsimp only at h
    split_ifs at h with hnul hquote hslash
    · cases h
      refine .head (fun l => ?_) .refl
      simp only [State.next, char_eq hch, if_pos hnul]
      rfl
    · simp only [bind_eq_ok, store_eq_ok] at h
      obtain ⟨_, ⟨-, rfl⟩, h⟩ := h
      cases h
      refine .head (fun l => ?_) .refl
      simp only [State.next, char_eq hch, if_neg hnul, if_pos hquote]
      rfl
    · simp only [escapeConvt, bind_eq_ok] at h
      obtain ⟨⟨b, c₃⟩, ⟨⟨d, c₂⟩, hnext', hb⟩, h⟩ := h
      obtain ⟨hd, rfl⟩ := next_eq_ok.mp hnext'
      cases hb
      have hescape : Leads .cooked c t .cookedEscape { c with scan := c.scan + 1 } t := by
        refine .head (fun l => ?_) .refl
        simp only [State.next, char_eq hch, if_neg hnul, if_neg hquote, if_pos hslash]
        rfl
      dsimp only at h
      split_ifs at h with hnul'
      · cases h
        refine hescape.trans (.head (fun l => ?_) .refl)
        simp only [State.next, char_eq hd, if_pos hnul']
        rfl
      · simp only [bind_eq_ok, put_eq_ok] at h
        obtain ⟨_, ⟨-, rfl⟩, h⟩ := h
        refine hescape.trans (.head (fun l => ?_) (ih h))
        simp only [State.next, char_eq hd, if_neg hnul']
        rfl
    · simp only [bind_eq_ok, put_eq_ok] at h
      obtain ⟨_, ⟨-, rfl⟩, h⟩ := h
      refine .head (fun l => ?_) (ih h)
      simp only [State.next, char_eq hch, if_neg hnul, if_neg hquote, if_neg hslash]
      rfl

/-- Where the loop over the tokens is left. -/
def afterTokens (err : StrToArgvErr) : Pc := if err = .ok then .done else .halted err

/-- Where the loop over one token is left. -/
def afterToken : Exit → Pc
  | .done => .done
  | .tokenDone => .tokenDone
  | .errorLeave err => afterTokens err

theorem leads_afterQuote {fuel : Nat} {err : StrToArgvErr} {e : Exit}
    (ih : ∀ {c}, scanToken fuel c = .ok (e, c₁) → Leads .loop c t (afterToken e) c₁ t)
    (h : (if err = .ok then scanToken fuel c else .ok (.errorLeave err, c)) = .ok (e, c₁)) :
    Leads (afterQuote err) c t (afterToken e) c₁ t := by
  cases err with
  | ok => exact ih h
  | unbalancedQuote =>
    cases h
    exact .refl

theorem scanToken_leads {fuel : Nat} {e : Exit} (h : scanToken fuel c = .ok (e, c₁)) :
    Leads .loop c t (afterToken e) c₁ t := by
  induction fuel generalizing c with
  | zero => cases h
  | succ fuel ih =>
    simp only [scanToken, bind_eq_ok] at h
    obtain ⟨⟨ch, c₂⟩, hnext, h⟩ := h
    obtain ⟨hch, rfl⟩ := next_eq_ok.mp hnext
    dsimp only at h
    split_ifs at h with hnul hslash hsquote hdquote hsep
    · cases h
      refine .head (fun l => ?_) .refl
      simp only [State.next, char_eq hch, if_pos hnul]
      rfl
    · simp only [bind_eq_ok, put_eq_ok] at h
      obtain ⟨⟨d, c₂⟩, hnext', _, ⟨-, rfl⟩, h⟩ := h
      obtain ⟨hd, rfl⟩ := next_eq_ok.mp hnext'
      have hescape : Leads .loop c t .escape { c with scan := c.scan + 1 } t := by
        refine .head (fun l => ?_) .refl
        simp only [State.next, char_eq hch, if_neg hnul, if_pos hslash]
        rfl
      dsimp only at h
      split_ifs at h with hnul'
      · cases h
        refine hescape.trans (.head (fun l => ?_) .refl)
        simp only [State.next, char_eq hd, if_pos hnul']
        rfl
      · refine hescape.trans (.head (fun l => ?_) (ih h))
        simp only [State.next, char_eq hd, if_neg hnul']
        rfl
    · simp only [bind_eq_ok] at h
      obtain ⟨⟨err, c₂⟩, hraw, h⟩ := h
      have hquoted : Leads .loop c t (afterQuote err) c₂ t := by
        refine .head (fun l => ?_) (copyRawString_leads hraw)
        simp only [State.next, char_eq hch, if_neg hnul, if_neg hslash, if_pos hsquote]
        rfl
      exact hquoted.trans (leads_afterQuote ih h)
    · simp only [bind_eq_ok] at h
      obtain ⟨⟨err, c₂⟩, hcooked, h⟩ := h
      have hquoted : Leads .loop c t (afterQuote err) c₂ t := by
        refine .head (fun l => ?_) (copyCookedString_leads hcooked)
        simp only [State.next, char_eq hch, if_neg hnul, if_neg hslash, if_neg hsquote,
          if_pos hdquote]
        rfl
      exact hquoted.trans (leads_afterQuote ih h)
    · cases h
      refine .head (fun l => ?_) .refl
      simp only [State.next, char_eq hch, if_neg hnul, if_neg hslash, if_neg hsquote,
        if_neg hdquote, if_pos hsep]
      rfl
    · simp only [bind_eq_ok, put_eq_ok] at h
      obtain ⟨_, ⟨-, rfl⟩, h⟩ := h
      refine .head (fun l => ?_) (ih h)
      simp only [State.next, char_eq hch, if_neg hnul, if_neg hslash, if_neg hsquote,
        if_neg hdquote, if_neg hsep]
      rfl

theorem skipSpace_leads {fuel : Nat} (h : skipSpace fuel c = .ok c₁) :
    Leads .skip c t .test c₁ t := by
  induction fuel generalizing c with
  | zero => cases h
  | succ fuel ih =>
    simp only [skipSpace, bind_eq_ok] at h
    obtain ⟨ch, hpeek, h⟩ := h
    have hch := peek_eq_ok.mp hpeek
    split_ifs at h with hspace
    · refine .head (fun l => ?_) (ih h)
      simp only [State.next, char_eq hch, if_pos hspace]
      rfl
    · cases h
      refine .head (fun l => ?_) .refl
      simp only [State.next, char_eq hch, if_neg hspace]
      rfl

theorem push_eq_ok {i : Nat} (h : t.push i = .ok t₁) :
    t₁ = { t.grow with res := t.grow.res.set t.grow.argv (.ptr i), argv := t.grow.argv + 1 } := by
  simp only [Table.push, Table.write, bind_eq_ok] at h
  obtain ⟨t', hwrite, h⟩ := h
  split_ifs at hwrite
  cases hwrite
  cases h
  rfl

theorem scanTokens_leads {fuel : Nat} {err : StrToArgvErr}
    (h : scanTokens fuel t c = .ok (err, t₁, c₁)) : Leads .skip c t (afterTokens err) c₁ t₁ := by
  induction fuel generalizing c t with
  | zero => cases h
  | succ fuel ih =>
    simp only [scanTokens, bind_eq_ok] at h
    obtain ⟨c₂, hskip, ch, hpeek, h⟩ := h
    have hch := peek_eq_ok.mp hpeek
    refine (skipSpace_leads hskip).trans ?_
    split_ifs at h with hnul
    · cases h
      refine .head (fun l => ?_) .refl
      simp only [State.next, char_eq hch, if_pos hnul]
      rfl
    · simp only [bind_eq_ok] at h
      obtain ⟨t₂, hpush, ⟨e, c₃⟩, hscan, h⟩ := h
      obtain rfl := push_eq_ok hpush
      have hcount : Leads .test c₂ t .count c₂ t := by
        refine .head (fun l => ?_) .refl
        simp only [State.next, char_eq hch, if_neg hnul]
        rfl
      have hgrow : Leads .count c₂ t .point c₂ t.grow := .head (fun _ => rfl) .refl
      have hpoint : Leads .point c₂ t.grow .loop { c₂ with dest := c₂.scan }
          { t.grow with
            res := t.grow.res.set t.grow.argv (.ptr c₂.scan)
            argv := t.grow.argv + 1 } := .head (fun _ => rfl) .refl
      refine (hcount.trans (hgrow.trans hpoint)).trans ((scanToken_leads hscan).trans ?_)
      cases e with
      | done =>
        cases h
        exact .refl
      | errorLeave err =>
        cases h
        exact .refl
      | tokenDone =>
        simp only [bind_eq_ok, store_eq_ok] at h
        obtain ⟨_, ⟨-, rfl⟩, h⟩ := h
        exact .head (fun _ => rfl) (ih h)

/-- The steps of a call come to what the call returns. -/
theorem reaches_result {str : CStr} {out : ArgvResult} (h : stringToArgv str = .ok out) :
    ∃ u, Reachable step (.init str) u ∧ u.pc = .halted out.err ∧ u.text.buf = out.str ∧
      (out.err = .ok → out.argc = some u.table.argc ∧ out.argv = some u.table.res) := by
  simp only [stringToArgv, bind_eq_ok] at h
  obtain ⟨⟨err, t, c⟩, hscan, h⟩ := h
  obtain ⟨l, hreach⟩ := scanTokens_leads hscan []
  dsimp only at h
  split_ifs at h with herr
  · simp only [bind_eq_ok] at h
    obtain ⟨t', hwrite, h⟩ := h
    cases h
    simp only [Table.write] at hwrite
    split_ifs at hwrite
    cases hwrite
    rw [afterTokens, if_pos herr] at hreach
    exact ⟨_, hreach.tail (e := ()) trivial rfl, by rw [herr]; rfl, rfl, fun _ => ⟨rfl, rfl⟩⟩
  · cases h
    rw [afterTokens, if_neg herr] at hreach
    exact ⟨_, hreach, rfl, rfl, fun hok => absurd hok herr⟩

end EbbrtContrib.ArgvMachine
