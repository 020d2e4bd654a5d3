import EbbrtContrib.ArgvBalance
import EbbrtContrib.CommandLine

namespace EbbrtContrib.CommandLineChecks

open CString Argv ArgvStrings ArgvBalance CommandLine

variable {getopt : List (List Byte) → List Report} {args : Arguments} {rs : List Report}

/-- The reports that `process_args` returns at: a help request, the option without a case, an
unknown option and a missing argument. -/
def stops : Report → Bool
  | .flag .h | .flag .v | .unknown _ | .missing _ => true
  | .flag _ | .valued _ _ => false

/-- What `process_args` returns there. -/
def failure : Report → Int
  | .flag _ | .valued _ _ => -1
  | .unknown _ | .missing _ => 0

/-- Tests run only after a command line that was parsed to its end. -/
structure Checked (getopt : List (List Byte) → List Report) (o : Outcome) : Prop where
  set : o.init.argv.isSome
  init : o.init.rc = 1 → o.init.tokenized ≠ some .unbalancedQuote ∧ o.init.parsed.rc = 1 ∧
    ∀ argv, o.init.argv = some argv → ∀ r ∈ getopt argv, stops r = false
  ran : o.ran ≠ [] → o.init.rc = 1
  prevents : ∀ argv, o.init.argv = some argv → (∃ r ∈ getopt argv, stops r = true) → o.ran = []

/-- The first report that ends the scan, if any, is not `-h` or `-v`. -/
def FailsAtZero (rs : List Report) : Prop := ∀ r, rs.find? stops = some r → failure r = 0

/-- The command lines that are checked. A hosted program that is to run on a backend ends without
a test when `-B` stands before `-h` or `-v`. -/
def Sound (getopt : List (List Byte) → List Report) : Start → Prop
  | .frontend argv => FailsAtZero (getopt argv) ∨
      .flag .B ∈ (getopt argv).takeWhile fun r => !stops r
  | .backend argv | .standaloneHosted argv => FailsAtZero (getopt argv)
  | .standaloneBareMetal cmdline => (quoting cmdline.bytes).mode = .outside ∧
      ∀ argv, arguments cmdline.bytes = some argv → FailsAtZero (getopt argv)

theorem handle_go (args : Arguments) {r : Report} (h : stops r = false) :
    ∃ args', handle args r = .ok args' ∧
      args'.backend = (args.backend || decide (r = .flag .B)) := by
  cases r with
  | flag option =>
    cases option with
    | h | v => cases h
    | B => exact ⟨_, rfl, (Bool.or_true _).symm⟩
    | C | E | I | b | c | e | n | o | m | p | s | t => exact ⟨_, rfl, (Bool.or_false _).symm⟩
  | valued option optarg =>
    cases option with
    | A | F | P | R => exact ⟨_, rfl, (Bool.or_false _).symm⟩
  | unknown | missing => cases h

theorem handle_stop (args : Arguments) {r : Report} (h : stops r = true) :
    ∃ printed, handle args r = .error (failure r, printed) := by
  cases r with
  | flag option =>
    cases option with
    | h | v => exact ⟨_, rfl⟩
    | B | C | E | I | b | c | e | n | o | m | p | s | t => cases h
  | valued => cases h
  | unknown | missing => exact ⟨_, rfl⟩

/-- The scan returns 1 at the end of the options, and at a report that stops it what that one
returns. -/
theorem scanOptions_rc (args : Arguments) (rs : List Report) :
    (scanOptions args rs).rc = ((rs.find? stops).map failure).getD 1 := by
  induction rs generalizing args with
  | nil => rfl
  | cons r rs ih =>
    cases hr : stops r with
    | false =>
      obtain ⟨args', hargs, -⟩ := handle_go args hr
      rw [scanOptions, hargs, List.find?_cons_of_neg (by simp [hr])]
      exact ih args'
    | true =>
      obtain ⟨printed, hargs⟩ := handle_stop args hr
      rw [scanOptions, hargs, List.find?_cons_of_pos hr]
      rfl

/-- `-B` counts when it stands before the report that stops the scan. -/
theorem scanOptions_backend (args : Arguments) (rs : List Report) :
    (scanOptions args rs).args.backend = true ↔
      args.backend = true ∨ .flag .B ∈ rs.takeWhile fun r => !stops r := by
  induction rs generalizing args with
  | nil => simp [scanOptions]
  | cons r rs ih =>
    cases hr : stops r with
    | false =>
      obtain ⟨args', hargs, hback⟩ := handle_go args hr
      rw [scanOptions, hargs, List.takeWhile_cons_of_pos (by simp [hr]), List.mem_cons]
      refine (ih args').trans ?_
      rw [hback, Bool.or_eq_true, decide_eq_true_iff, or_assoc, eq_comm (a := r)]
    | true =>
      obtain ⟨printed, hargs⟩ := handle_stop args hr
      rw [scanOptions, hargs, List.takeWhile_cons_of_neg (by simp [hr])]
      exact (or_iff_left List.not_mem_nil).symm

theorem failure_cases (r : Report) : failure r = 0 ∨ failure r = -1 := by
  cases r with
  | flag | valued => exact .inr rfl
  | unknown | missing => exact .inl rfl

/-- `init` takes every result but 0 for a success. -/
theorem result_rc (p : Parsed) (tokenized : Option StrToArgvErr)
    (argv : Option (List (List Byte))) :
    p.result tokenized argv = ⟨if p.rc = 0 then 0 else 1, tokenized, argv, p, p.args, false,
      if p.rc = 0 then p.printed ++ [.processing] else p.printed⟩ := by
  rw [Parsed.result]
  split_ifs <;> rfl

theorem checked_of_zero {o : Outcome} (hset : o.init.argv.isSome) (hrc : o.init.rc = 0)
    (hran : o.ran = []) : Checked getopt o where
  set := hset
  init h := by cases hrc.symm.trans h
  ran h := absurd hran h
  prevents _ _ _ := hran

/-- A call with its arguments set is checked when `process_args` does not return -1. -/
theorem checked_iff_failsAtZero {o : Outcome} {argv : List (List Byte)}
    (hset : o.init.argv = some argv) (htok : o.init.tokenized ≠ some .unbalancedQuote)
    (hparsed : o.init.parsed = processArgs getopt argv)
    (hrc : o.init.rc = if o.init.parsed.rc = 0 then 0 else 1)
    (hran : o.init.rc = 0 → o.ran = []) : Checked getopt o ↔ FailsAtZero (getopt argv) := by
  have hsome : o.init.argv.isSome := by rw [hset]; rfl
  have hscan : o.init.parsed.rc = (((getopt argv).find? stops).map failure).getD 1 := by
    rw [hparsed]
    exact scanOptions_rc _ _
  rw [FailsAtZero]
  cases hfind : (getopt argv).find? stops with
  | none =>
    rw [hfind] at hscan
    have hrc : o.init.rc = 1 := by rw [hrc, hscan]; rfl
    have hall : ∀ r ∈ getopt argv, stops r = false := fun r hr =>
      Bool.eq_false_iff.mpr (List.find?_eq_none.mp hfind r hr)
    refine iff_of_true ⟨hsome, fun _ => ⟨htok, hscan, ?_⟩, fun _ => hrc, ?_⟩ nofun
    · intro argv' hargv
      obtain rfl := Option.some.inj (hset.symm.trans hargv)
      exact hall
    · rintro argv' hargv ⟨r, hr, hstop⟩
      obtain rfl := Option.some.inj (hset.symm.trans hargv)
      cases (hall r hr).symm.trans hstop
  | some r =>
    rw [hfind] at hscan
    obtain hzero | hneg := failure_cases r
    · have hrc : o.init.rc = 0 := by rw [hrc, hscan]; exact if_pos hzero
      refine iff_of_true (checked_of_zero hsome hrc (hran hrc)) fun r' hr' => ?_
      rw [← Option.some.inj hr']
      exact hzero
    · have hparsed : o.init.parsed.rc = -1 := hscan.trans hneg
      have hrc : o.init.rc = 1 := by rw [hrc, hparsed]; rfl
      refine iff_of_false (fun h => ?_) (fun h => ?_)
      · cases hparsed.symm.trans (h.init hrc).2.1
      · cases hneg.symm.trans (h r rfl)

theorem frontend_iff (stack argv : List (List Byte)) :
    ∃ o, appMain getopt stack (.frontend argv) = .ok o ∧
      (Checked getopt o ↔ Sound getopt (.frontend argv)) := by
  have hback : (processArgs getopt argv).args.backend = true ↔
      .flag .B ∈ (getopt argv).takeWhile fun r => !stops r :=
    (scanOptions_backend (.start argv) (getopt argv)).trans (or_iff_right Bool.false_ne_true)
  have hresult := result_rc (processArgs getopt argv) none (some argv)
  rw [appMain, CommandLine.init, hresult]
  by_cases hb : (if (processArgs getopt argv).rc = 0 then (0 : Int) else 1) = 1 ∧
      (processArgs getopt argv).args.backend = true
  · rw [if_pos hb]
    exact ⟨_, rfl, iff_of_true (checked_of_zero rfl rfl rfl) (.inr (hback.mp hb.2))⟩
  · rw [if_neg hb]
    refine ⟨_, rfl, ?_⟩
    have htok : (none : Option StrToArgvErr) ≠ some .unbalancedQuote := nofun
    refine (checked_iff_failsAtZero rfl htok rfl rfl fun h => if_pos h).trans ?_
    refine (or_iff_left_of_imp fun hm r hr => ?_).symm
    have hzero : (processArgs getopt argv).rc = 0 := by
      by_contra hne
      exact hb ⟨if_neg hne, hback.mpr hm⟩
    rw [processArgs, scanOptions_rc, hr] at hzero
    exact hzero

/-- What is read through the outputs of a call that returns. -/
theorem vector_returns {out : ArgvResult} {argv : List (List Byte)}
    (h : Returns out (some argv)) : vector out = some argv := by
  obtain ⟨-, hargc, slots, hslots, -, hargs⟩ := h
  rw [vector, hargc, hslots]
  refine congrArg some (List.ext_getElem ?_ fun i hi hi' => ?_)
  · rw [List.length_map, List.length_range]
  · obtain ⟨p, hp, hstr⟩ := hargs i hi'
    rw [List.getElem_map, List.getElem_range, hp]
    exact hstr

theorem standaloneBareMetal_iff (stack : List (List Byte)) (cmdline : CStr) :
    ∃ o, appMain getopt stack (.standaloneBareMetal cmdline) = .ok o ∧
      (Checked getopt o ↔ Sound getopt (.standaloneBareMetal cmdline)) := by
  obtain ⟨out, hout, hret⟩ := stringToArgv_returns cmdline
  have hinit : ∃ args, CommandLine.init getopt stack (.standaloneBareMetal cmdline) =
      .ok { (processArgs getopt ((vector out).getD stack)).result (some out.err) (vector out) with
        args := args } := by
    rw [CommandLine.init, hout]
    by_cases hrc : ((processArgs getopt ((vector out).getD stack)).result (some out.err)
        (vector out)).rc = 1
    · exact ⟨_, congrArg Except.ok (if_pos hrc)⟩
    · exact ⟨_, congrArg Except.ok (if_neg hrc)⟩
  obtain ⟨args, hinit⟩ := hinit
  rw [result_rc] at hinit
  rw [appMain, hinit]
  refine ⟨_, rfl, ?_⟩
  rw [Sound, ← not_not (a := (quoting cmdline.bytes).mode = .outside), ← ne_eq, ← open_iff]
  cases harg : arguments cmdline.bytes with
  | none =>
    rw [harg] at hret
    have hnone : vector out = none := by rw [vector, hret.2.1]; rfl
    refine iff_of_false (fun h => ?_) (fun h => absurd rfl h.1)
    have hset := h.set
    dsimp only at hset
    rw [hnone] at hset
    cases hset
  | some argv =>
    rw [harg] at hret
    have hvector := vector_returns hret
    have hok : some out.err ≠ some .unbalancedQuote := by
      rw [hret.1]
      intro he
      cases he
    have hparsed : processArgs getopt ((vector out).getD stack) = processArgs getopt argv := by
      rw [hvector]
      rfl
    refine (checked_iff_failsAtZero hvector hok hparsed rfl fun h => if_pos h).trans ?_
    refine ⟨fun h => ⟨Option.some_ne_none argv, fun argv' hargv => ?_⟩, fun h => h.2 argv rfl⟩
    obtain rfl := Option.some.inj hargv
    exact h

/-- A command line is checked exactly when its quotations are closed, where it is tokenized, and
what ends the scan of its options, if anything, is not `-h` or `-v`. -/
theorem checked_iff_sound (getopt : List (List Byte) → List Report) (stack : List (List Byte))
    (start : Start) : ∃ o, appMain getopt stack start = .ok o ∧
      (Checked getopt o ↔ Sound getopt start) := by
  cases start with
  | frontend argv => exact frontend_iff stack argv
  | backend argv | standaloneHosted argv =>
    refine ⟨_, rfl, ?_⟩
    rw [result_rc]
    exact checked_iff_failsAtZero rfl nofun rfl rfl fun h => if_pos h
  | standaloneBareMetal cmdline => exact standaloneBareMetal_iff stack cmdline

/-- The bytes of `u`, `-c`, `-h` and of the line `'`. -/
def help : List (List Byte) := [[0x75], [0x2d, 0x63], [0x2d, 0x68]]

def openQuote : CStr := ⟨[squote], by decide⟩

/-- A help request behind `-c` runs the test, and the parser is called with what the stack holds
when the quotation is not closed. -/
theorem failures_ignored :
    (∃ o, appMain CommandLine.getopt [] (.standaloneHosted help) = .ok o ∧
      o.init.parsed.rc = -1 ∧ o.init.rc = 1 ∧ o.ran = [.cpp]) ∧
    (∃ o, appMain CommandLine.getopt help (.standaloneBareMetal openQuote) = .ok o ∧
      o.init.tokenized = some .unbalancedQuote ∧ o.init.argv = none ∧ o.ran = [.cpp]) ∧
    ¬ ∀ stack start, ∃ o, appMain CommandLine.getopt stack start = .ok o ∧
      Checked CommandLine.getopt o := by
  refine ⟨⟨_, rfl, by decide, by decide, by decide⟩, ⟨_, rfl, by decide, by decide, by decide⟩, ?_⟩
  intro h
  obtain ⟨o, ho, hchecked⟩ := h [] (.standaloneHosted help)
  obtain rfl := Except.ok.inj ho
  cases (hchecked.init (by decide)).2.1

end EbbrtContrib.CommandLineChecks
