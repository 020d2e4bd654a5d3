import Mathlib.Order.Basic
import EbbrtContrib.ArgvMachine
import EbbrtContrib.ArgvResult
import EbbrtContrib.Numbered

namespace EbbrtContrib.ArgvSafety

open CString InPlace Argv ArgvResult ArgvMachine Numbered Runs

/-- An access is inside the string of `len` characters and its NUL, behind the characters that
have been consumed, or inside the table. -/
def Access.Safe (len : Nat) : Access → Prop
  | .read i => i ≤ len
  | .write i consumed => i < consumed
  | .slot i act => i < act

def isPtr : Slot → Bool
  | .ptr _ => true
  | .uninit | .null => false

/-- How many pointers have been stored in a table. -/
def stored (t : Table) : Nat := t.res.countP isPtr

/-- What is safe about a state of a call that has duplicated `input`. -/
structure Safe (input : List Byte) (s : State) : Prop where
  accesses : ∀ a ∈ s.accesses, Access.Safe input.length a
  unread : s.text.buf.drop s.text.scan = (dup input).drop s.text.scan
  allocated : s.table.res.length = s.table.act
  argv : s.table.argv = stored s.table

/-- The table holds the pointers stored so far, and no other. -/
def Filled (t : Table) : Prop :=
  ∃ (ps : List Nat) (rest : List Slot), t.res = ps.map Slot.ptr ++ rest ∧ t.argv = ps.length ∧
    ∀ s ∈ rest, isPtr s = false

/-- Where the cursors are, and what the table is like, by the position in the code. -/
def At (len : Nat) (s : State) : Prop :=
  match s.pc with
  | .skip | .test | .count => s.text.scan ≤ len ∧ Wf s.table
  | .point => s.text.scan ≤ len ∧ Wf { s.table with argv := s.table.argv + 1 }
  | .loop => s.text.dest ≤ s.text.scan ∧ s.text.scan ≤ len ∧ Wf s.table
  | .escape | .raw | .cooked | .tokenDone =>
    s.text.dest < s.text.scan ∧ s.text.scan ≤ len ∧ Wf s.table
  | .rawEscape | .cookedEscape =>
    s.text.dest + 1 < s.text.scan ∧ s.text.scan ≤ len ∧ Wf s.table
  | .done => Wf s.table
  | .halted _ => True

structure TextSafe (input : List Byte) (s : State) : Prop where
  accesses : ∀ a ∈ s.accesses, Access.Safe input.length a
  unread : s.text.buf.drop s.text.scan = (dup input).drop s.text.scan

structure Inv (input : List Byte) (s : State) : Prop where
  text : TextSafe input s
  allocated : s.table.res.length = s.table.act
  filled : Filled s.table
  pos : At input.length s

variable {input : List Byte} {s t : State}

theorem Filled.stored {t : Table} (h : Filled t) : t.argv = stored t := by
  obtain ⟨ps, rest, hres, hargv, hrest⟩ := h
  have hptr : (ps.map Slot.ptr).countP isPtr = ps.length := by
    rw [List.countP_map]
    exact List.countP_eq_length.mpr fun _ _ => rfl
  have hnone : rest.countP isPtr = 0 := List.countP_eq_zero.mpr fun s hs => by simp [hrest s hs]
  rw [ArgvSafety.stored, hres, List.countP_append, hptr, hnone, hargv, Nat.add_zero]

theorem Inv.safe (h : Inv input s) : Safe input s :=
  ⟨h.text.accesses, h.text.unread, h.allocated, h.filled.stored⟩

theorem filled_new : Filled .new :=
  ⟨[], List.replicate 10 .uninit, rfl, rfl, fun s hs => by
    rw [List.eq_of_mem_replicate hs]
    rfl⟩

theorem Filled.grow {t : Table} (h : Filled t) (hargc : t.argc = t.argv) : Filled t.grow := by
  obtain ⟨ps, rest, hres, hargv, hrest⟩ := h
  unfold Table.grow
  split
  · refine ⟨ps, rest ++ List.replicate (t.act + t.act / 2 - t.act) .uninit, ?_, ?_, ?_⟩
    · rw [hres]
      exact List.append_assoc _ _ _
    · exact hargc.trans hargv
    · intro s hs
      obtain hs | hs := List.mem_append.mp hs
      · exact hrest s hs
      · rw [List.eq_of_mem_replicate hs]
        rfl
  · exact ⟨ps, rest, hres, hargv, hrest⟩

theorem Filled.point {t : Table} (h : Filled t) (hroom : t.argv < t.res.length) (i : Nat) :
    Filled { t with res := t.res.set t.argv (.ptr i), argv := t.argv + 1 } := by
  obtain ⟨ps, rest, hres, hargv, hrest⟩ := h
  cases rest with
  | nil => simp [hres, hargv] at hroom
  | cons s rest =>
    refine ⟨ps ++ [i], rest, ?_, ?_, fun s' hs => hrest s' (by simp [hs])⟩
    · simp [hres, hargv]
    · simp [hargv]

theorem Filled.null {t : Table} (h : Filled t) (hroom : t.argv < t.res.length) :
    Filled { t with res := t.res.set t.argv .null } := by
  obtain ⟨ps, rest, hres, hargv, hrest⟩ := h
  cases rest with
  | nil => simp [hres, hargv] at hroom
  | cons s rest =>
    refine ⟨ps, .null :: rest, ?_, hargv, fun s' hs => ?_⟩
    · simp [hres, hargv]
    · obtain rfl | hs := List.mem_cons.mp hs
      · rfl
      · exact hrest s' (by simp [hs])

namespace TextSafe

theorem peek (h : TextSafe input s) (hle : s.text.scan ≤ input.length) : TextSafe input s.peek :=
  ⟨forall_mem_snoc h.accesses hle, h.unread⟩

theorem consume (h : TextSafe input s) (hle : s.text.scan ≤ input.length) :
    TextSafe input s.consume := by
  refine ⟨(h.peek hle).accesses, ?_⟩
  have hdrop := congrArg (List.drop 1) h.unread
  rwa [List.drop_drop, List.drop_drop] at hdrop

theorem store (h : TextSafe input s) (hlt : s.text.dest < s.text.scan) (a : Byte) :
    TextSafe input (s.store a) := by
  refine ⟨forall_mem_snoc h.accesses hlt, ?_⟩
  have hdrop : (s.text.buf.set s.text.dest a).drop s.text.scan = s.text.buf.drop s.text.scan :=
    List.drop_set_of_lt hlt
  exact hdrop.trans h.unread

theorem put (h : TextSafe input s) (hlt : s.text.dest < s.text.scan) (a : Byte) :
    TextSafe input (s.put a) :=
  ⟨(h.store hlt a).accesses, (h.store hlt a).unread⟩

theorem setSlot (h : TextSafe input s) (hlt : s.table.argv < s.table.act) (p : Slot) :
    TextSafe input (s.setSlot p) :=
  ⟨forall_mem_snoc h.accesses hlt, h.unread⟩

/-- The NUL is the last character that is read. -/
theorem lt_of_char (h : TextSafe input s) (hle : s.text.scan ≤ input.length)
    (hchar : s.char ≠ NUL) : s.text.scan < input.length := by
  obtain hlt | heq := Nat.lt_or_eq_of_le hle
  · exact hlt
  · have hread : s.text.buf[s.text.scan]? = some NUL := by
      have hdrop := congrArg List.head? h.unread
      rw [List.head?_drop, List.head?_drop] at hdrop
      rw [hdrop, heq, dup, List.getElem?_append_right (Nat.le_refl _), Nat.sub_self]
      rfl
    exact absurd (char_eq hread s.pc s.table s.accesses) hchar

end TextSafe

theorem goto_self {p : Pc} (h : s.pc = p) : s.goto p = s := by
  rw [← h]
  rfl

/-- A step that leaves the table alone. -/
theorem Inv.goto {p : Pc} (h : Inv input s) (htable : t.table = s.table) (htext : TextSafe input t)
    (hpos : At input.length (t.goto p)) : Inv input (t.goto p) :=
  ⟨⟨htext.accesses, htext.unread⟩, htable ▸ h.allocated, htable ▸ h.filled, hpos⟩

/-- One character of a quoted piece, in the loop at `p` that a backslash leaves for `e`. -/
theorem Inv.quoted {p e : Pc} {q : Byte} (h : Inv input s) (hp : s.pc = p)
    (hdest : s.text.dest < s.text.scan) (hle : s.text.scan ≤ input.length) (hwf : Wf s.table)
    (hin : ∀ u : State, u.text.dest < u.text.scan → u.text.scan ≤ input.length →
      Wf u.table → At input.length (u.goto p))
    (hescape : ∀ u : State, u.text.dest + 1 < u.text.scan → u.text.scan ≤ input.length →
      Wf u.table → At input.length (u.goto e)) :
    Inv input (if s.char = NUL then s.consume.goto (.halted .unbalancedQuote)
      else if s.char = q then (s.consume.store NUL).goto .loop
      else if s.char = bslash then s.consume.goto e
      else s.consume.put s.char) := by
  have hlt := h.text.lt_of_char hle
  have htext := h.text.consume hle
  have hbehind : s.text.dest < s.text.scan + 1 := Nat.lt_succ_of_lt hdest
  split_ifs with hnul
  · exact h.goto rfl htext trivial
  · exact h.goto rfl (htext.store hbehind _) ⟨Nat.le_of_lt hbehind, hlt hnul, hwf⟩
  · exact h.goto rfl htext (hescape _ (Nat.succ_lt_succ hdest) (hlt hnul) hwf)
  · rw [← goto_self (s := s.consume.put s.char) hp]
    exact h.goto rfl (htext.put hbehind _) (hin _ (Nat.succ_lt_succ hdest) (hlt hnul) hwf)

theorem Inv.next (h : Inv input s) (hs : s.next = some t) : Inv input t := by
  have hpos := h.pos
  unfold State.next at hs
  cases hp : s.pc <;> simp only [hp, At] at hs hpos
  case skip =>
    obtain ⟨hle, hwf⟩ := hpos
    obtain rfl := Option.some.inj hs
    split_ifs with hspace
    · have hne : s.char ≠ NUL := by
        intro hnul
        rw [hnul] at hspace
        exact absurd hspace (by decide)
      have hlt := h.text.lt_of_char hle hne
      rw [← goto_self (s := s.consume) hp]
      exact h.goto rfl (h.text.consume hle) ⟨hlt, hwf⟩
    · exact h.goto rfl (h.text.peek hle) ⟨hle, hwf⟩
  case test =>
    obtain ⟨hle, hwf⟩ := hpos
    obtain rfl := Option.some.inj hs
    split_ifs
    · exact h.goto rfl (h.text.peek hle) hwf
    · exact h.goto rfl (h.text.peek hle) ⟨hle, hwf⟩
  case count =>
    obtain ⟨hle, hwf⟩ := hpos
    obtain rfl := Option.some.inj hs
    obtain ⟨hargc, hargv, hsize, hroom, hten, -⟩ := grow_spec hwf
    have hwf' : Wf { s.table.grow with argv := s.table.grow.argv + 1 } :=
      ⟨(congrArg (· + 1) hargv).trans hargc.symm, hsize, hroom, hten⟩
    exact ⟨⟨h.text.accesses, h.text.unread⟩, hsize, h.filled.grow hwf.argv_eq.symm, hle, hwf'⟩
  case point =>
    obtain ⟨hle, hwf⟩ := hpos
    obtain rfl := Option.some.inj hs
    have hlt : s.table.argv < s.table.act :=
      Nat.lt_of_succ_lt (hwf.argv_eq.trans_lt hwf.room)
    have htext := h.text.setSlot hlt (.ptr s.text.scan)
    have hsize : (s.table.res.set s.table.argv (.ptr s.text.scan)).length = s.table.act :=
      (List.length_set ..).trans h.allocated
    exact ⟨⟨htext.accesses, htext.unread⟩, hsize,
      h.filled.point (hlt.trans_eq h.allocated.symm) _, Nat.le_refl _, hle, hwf.argv_eq, hsize,
      hwf.room, hwf.ten_le⟩
  case loop =>
    obtain ⟨hdest, hle, hwf⟩ := hpos
    have hlt := h.text.lt_of_char hle
    have htext := h.text.consume hle
    have hbehind : s.text.dest < s.text.scan + 1 := Nat.lt_succ_of_le hdest
    obtain rfl := Option.some.inj hs
    split_ifs with hnul
    · exact h.goto rfl htext hwf
    · exact h.goto rfl htext ⟨hbehind, hlt hnul, hwf⟩
    · exact h.goto rfl htext ⟨hbehind, hlt hnul, hwf⟩
    · exact h.goto rfl htext ⟨hbehind, hlt hnul, hwf⟩
    · exact h.goto rfl htext ⟨hbehind, hlt hnul, hwf⟩
    · rw [← goto_self (s := s.consume.put s.char) hp]
      exact h.goto rfl (htext.put hbehind _) ⟨hbehind, hlt hnul, hwf⟩
  case escape =>
    obtain ⟨hdest, hle, hwf⟩ := hpos
    have htext := (h.text.consume hle).put (Nat.lt_succ_of_lt hdest) s.char
    obtain rfl := Option.some.inj hs
    split_ifs with hnul
    · exact h.goto rfl htext hwf
    · exact h.goto rfl htext
        ⟨Nat.le_of_lt (Nat.succ_lt_succ hdest), h.text.lt_of_char hle hnul, hwf⟩
  case raw =>
    obtain ⟨hdest, hle, hwf⟩ := hpos
    obtain rfl := Option.some.inj hs
    exact h.quoted hp hdest hle hwf (fun _ h₁ h₂ h₃ => ⟨h₁, h₂, h₃⟩)
      fun _ h₁ h₂ h₃ => ⟨h₁, h₂, h₃⟩
  case rawEscape =>
    obtain ⟨hdest, hle, hwf⟩ := hpos
    have hlt := h.text.lt_of_char hle
    have htext := h.text.consume hle
    have hbehind : s.text.dest < s.text.scan + 1 := by omega
    obtain rfl := Option.some.inj hs
    split_ifs with hnul
    · exact h.goto rfl htext trivial
    · exact h.goto rfl (htext.put hbehind _) ⟨Nat.lt_succ_of_lt hdest, hlt hnul, hwf⟩
    · exact h.goto rfl ((htext.put hbehind _).put (Nat.lt_succ_of_lt hdest) _)
        ⟨Nat.succ_lt_succ hdest, hlt hnul, hwf⟩
  case cooked =>
    obtain ⟨hdest, hle, hwf⟩ := hpos
    obtain rfl := Option.some.inj hs
    exact h.quoted hp hdest hle hwf (fun _ h₁ h₂ h₃ => ⟨h₁, h₂, h₃⟩)
      fun _ h₁ h₂ h₃ => ⟨h₁, h₂, h₃⟩
  case cookedEscape =>
    obtain ⟨hdest, hle, hwf⟩ := hpos
    have htext := h.text.consume hle
    have hbehind : s.text.dest < s.text.scan + 1 := by omega
    obtain rfl := Option.some.inj hs
    split_ifs with hnul
    · exact h.goto rfl htext trivial
    · have hne : s.char ≠ NUL := by
        intro hchar
        rw [hchar] at hnul
        exact hnul rfl
      exact h.goto rfl (htext.put hbehind _)
        ⟨Nat.lt_succ_of_lt hdest, h.text.lt_of_char hle hne, hwf⟩
  case tokenDone =>
    obtain ⟨hdest, hle, hwf⟩ := hpos
    obtain rfl := Option.some.inj hs
    exact h.goto rfl (h.text.store hdest NUL) ⟨hle, hwf⟩
  case done =>
    obtain rfl := Option.some.inj hs
    have hlt : s.table.argv < s.table.act := hpos.argv_eq.trans_lt hpos.room
    have htext := h.text.setSlot hlt .null
    refine ⟨⟨htext.accesses, htext.unread⟩, ?_, h.filled.null (hlt.trans_eq h.allocated.symm),
      trivial⟩
    exact (List.length_set ..).trans h.allocated
  case halted => cases hs

/-- The string that `string_to_argv` duplicates. -/
def skipped (str : CStr) : List Byte := str.bytes.dropWhile isspace

theorem Inv.init (str : CStr) : Inv (skipped str) (.init str) :=
  ⟨⟨fun _ ha => (List.not_mem_nil ha).elim, rfl⟩, rfl, filled_new, Nat.zero_le _, new_wf⟩

theorem Inv.of_reachable {str : CStr} (h : Reachable step (.init str) s) : Inv (skipped str) s :=
  h.invariant (.init str) fun _ _ _ hi _ hs => hi.next hs

/-- For every input each access of a call is in bounds, and the call comes to its end, on either
path with what `stringToArgv` returns. -/
theorem call_safe (str : CStr) :
    ∃ u out, stringToArgv str = .ok out ∧ u.pc = .halted out.err ∧ u.text.buf = out.str ∧
      (out.err = .ok → out.argc = some u.table.argc ∧ out.argv = some u.table.res) ∧
      ∀ s, Reachable step (.init str) s → Safe (skipped str) s ∧ Reachable step s u := by
  obtain ⟨out, hout, -⟩ := stringToArgv_tokens str
  obtain ⟨u, hu, hpc, hbuf, htable⟩ := reaches_result hout
  have hstop : step u () = none := by rw [step, State.next, hpc]
  exact ⟨u, out, hout, hpc, hbuf, htable, fun s hs =>
    ⟨(Inv.of_reachable hs).safe, reachable_of_deterministic hs hu hstop⟩⟩

end EbbrtContrib.ArgvSafety
