import Mathlib.Data.List.Range
import EbbrtContrib.Numbered
import EbbrtContrib.OpenStream

namespace EbbrtContrib.OpenStreamHandshake

open OpenStream Runs Numbered

variable {s t : State} {e : Event} {path : Path} {r : Nat} {id : EbbId}

/-- The accepted requests whose future has not been completed. -/
def unanswered (s : State) : List Nat :=
  (List.range s.accepted.length).filter fun r => r ∉ s.completed.map Prod.fst

/-- The steps of the front end and of the messenger. -/
def Internal : Event → Prop
  | .call _ => False
  | .request _ | .set _ _ | .reply => True

/-- Every open that the step completes or gives up is a success. -/
def Succeeds : Event → Prop
  | .request a => a.Opens
  | .set _ ok => ok = true
  | .call _ | .reply => True

/-- What open_stream promises in a state. `p_` is the promise of the one request that is not
answered, a request is answered once and with the stream opened for it, and nothing is left
unanswered when the front end and the messenger have nothing more to do. -/
structure Handshake (s : State) : Prop where
  outstanding : s.p.toList = unanswered s
  once : (s.completed.map Prod.fst).Nodup
  own : ∀ r id, (r, id) ∈ s.completed → (r, id) ∈ s.opened
  created : (s.opened.map Prod.fst).Nodup ∧ (s.opened.map Prod.snd).Nodup
  received : s.nullPromise = false
  answered : (∀ e t, Internal e → step s e ≠ some t) → unanswered s = []
  answerable : ∃ t, Reaches step (fun _ e => Internal e ∧ Succeeds e) s t ∧ unanswered t = []
  accepts : unanswered s = [] → ∀ path, openStream s path = .ok { s with
    p := some s.accepted.length
    accepted := s.accepted ++ [path]
    requests := [path] }

/-- One request is not answered, and these are the traces of it that are left. -/
def Waiting (s : State) (requests : List Path) (opening : List (Nat × EbbId))
    (replies : List EbbId) : Prop :=
  s.p = some s.completed.length ∧ s.accepted.length = s.completed.length + 1 ∧
    s.requests = requests ∧ s.opening = opening ∧ s.replies = replies

/-- The request whose open has failed has no trace left but its promise. -/
def Lost (s : State) : Prop := Waiting s [] [] []

inductive Stage (s : State) : Prop
  | idle : s.p = none → s.accepted.length = s.completed.length → s.requests = [] →
      s.opening = [] → s.replies = [] → Stage s
  | sent (path : Path) : Waiting s [path] [] [] → Stage s
  | opening (id : EbbId) : Waiting s [] [(s.completed.length, id)] [] →
      (s.completed.length, id) ∈ s.opened → Stage s
  | replied (id : EbbId) : Waiting s [] [] [id] → (s.completed.length, id) ∈ s.opened → Stage s
  | lost : Lost s → Stage s

structure Inv (s : State) : Prop where
  stage : Stage s
  numbered : s.completed.map Prod.fst = List.range s.completed.length
  own : ∀ c ∈ s.completed, c ∈ s.opened
  first : ∀ c ∈ s.opened, c.1 < s.accepted.length - s.requests.length
  fresh : ∀ c ∈ s.opened, c.2 < s.next
  firsts : (s.opened.map Prod.fst).Nodup
  seconds : (s.opened.map Prod.snd).Nodup
  received : s.nullPromise = false

namespace Stage

theorem of_null (h : Stage s) (hp : s.p = none) : s.accepted.length = s.completed.length ∧
    s.requests = [] ∧ s.opening = [] ∧ s.replies = [] := by
  cases h with
  | idle _ hn hr ho hs => exact ⟨hn, hr, ho, hs⟩
  | sent _ h | opening _ h _ | replied _ h _ | lost h => cases hp.symm.trans h.1

theorem of_request {rest : List Path} (h : Stage s) (hr : s.requests = path :: rest) :
    rest = [] ∧ Waiting s [path] [] [] := by
  cases h with
  | idle _ _ hr' _ _ => cases hr.symm.trans hr'
  | opening _ h _ | replied _ h _ | lost h => cases hr.symm.trans h.2.2.1
  | sent path' h =>
    have he := hr.symm.trans h.2.2.1
    cases he
    exact ⟨rfl, h⟩

theorem of_opening {k : Nat} (h : Stage s) (hk : s.opening[k]? = some (r, id)) :
    k = 0 ∧ Waiting s [] [(s.completed.length, id)] [] ∧ (s.completed.length, id) ∈ s.opened := by
  cases h with
  | idle _ _ _ ho _ => simp [ho] at hk
  | sent _ h => simp [h.2.2.2.1] at hk
  | replied _ h _ => simp [h.2.2.2.1] at hk
  | lost h => simp [h.2.2.2.1] at hk
  | opening id' h hid =>
    rw [h.2.2.2.1] at hk
    cases k with
    | zero =>
      cases hk
      exact ⟨rfl, h, hid⟩
    | succ k => simp at hk

theorem of_reply {rest : List EbbId} (h : Stage s) (hs : s.replies = id :: rest) :
    rest = [] ∧ Waiting s [] [] [id] ∧ (s.completed.length, id) ∈ s.opened := by
  cases h with
  | idle _ _ _ _ hs' => cases hs.symm.trans hs'
  | sent _ h | opening _ h _ | lost h => cases hs.symm.trans h.2.2.2.2
  | replied id' h hid =>
    have he := hs.symm.trans h.2.2.2.2
    cases he
    exact ⟨rfl, h, hid⟩

end Stage

theorem inv_init (next : EbbId) : Inv (.init next) :=
  ⟨.idle rfl rfl rfl rfl rfl, rfl, by simp [State.init], by simp [State.init],
    by simp [State.init], by simp [State.init], by simp [State.init], rfl⟩

theorem not_lost_init (next : EbbId) : ¬ Lost (.init next) := fun h => by cases h.1

/-- A step that gives no open up leaves a request that is not lost. -/
theorem lost_iff (he : Succeeds e) (hs : ¬ Lost s) (ht : ¬ Lost t) :
    Lost t ↔ Lost s ∨ ¬ Succeeds e :=
  iff_of_false ht fun h => h.elim hs fun hn => hn he

/-- A step keeps the invariant, and loses the request exactly when it gives an open up. -/
theorem inv_step (h : Inv s) (hs : step s e = some t) :
    Inv t ∧ (Lost t ↔ Lost s ∨ ¬ Succeeds e) := by
  obtain ⟨stage, numbered, own, first, fresh, firsts, seconds, received⟩ := h
  cases step_cases hs with
  | refused path r hp =>
    exact ⟨⟨stage, numbered, own, first, fresh, firsts, seconds, received⟩, by simp [Succeeds]⟩
  | accepted path hp =>
    obtain ⟨hn, hr, ho, hrep⟩ := stage.of_null hp
    have hw : Waiting { s with
        p := some s.accepted.length, accepted := s.accepted ++ [path],
        requests := s.requests ++ [path] } [path] [] [] :=
      ⟨by rw [hn], by simp [hn], by simp [hr], ho, hrep⟩
    refine ⟨⟨.sent path hw, numbered, own, ?_, fresh, firsts, seconds, received⟩, ?_⟩
    · simpa [hr] using first
    · refine lost_iff trivial (fun h => ?_) fun h => ?_
      · cases hp.symm.trans h.1
      · cases hw.2.2.1.symm.trans h.2.2.1
  | opens a path rest ha hr =>
    obtain ⟨rfl, hp, hn, -, ho, hrep⟩ := stage.of_request hr
    have hnum : s.accepted.length - s.requests.length = s.completed.length := by
      rw [hn, hr, List.length_singleton, Nat.add_sub_cancel]
    rw [hnum] at first ⊢
    have hw : Waiting { s with
        requests := [], next := s.next + 1
        opening := s.opening ++ [(s.completed.length, s.next)]
        opened := s.opened ++ [(s.completed.length, s.next)] }
        [] [(s.completed.length, s.next)] [] :=
      ⟨hp, hn, rfl, by rw [ho, List.nil_append], hrep⟩
    refine ⟨⟨.opening s.next hw (by simp), numbered, ?_, ?_, ?_, ?_, ?_, received⟩, ?_⟩
    · exact fun c hc => List.mem_append_left _ (own c hc)
    · have hlen : s.completed.length < s.accepted.length := by omega
      exact forall_mem_snoc (fun c hc => Nat.lt_trans (first c hc) hlen) hlen
    · exact forall_mem_snoc (fun c hc => Nat.lt_succ_of_lt (fresh c hc)) (Nat.lt_succ_self _)
    · exact nodup_snoc firsts first
    · exact nodup_snoc seconds fresh
    · refine lost_iff ha (fun h => ?_) fun h => ?_
      · cases hr.symm.trans h.2.2.1
      · cases hw.2.2.2.1.symm.trans h.2.2.2.1
  | throws a path rest next hle ha hr =>
    obtain ⟨rfl, hp, hn, -, ho, hrep⟩ := stage.of_request hr
    have hlost : Lost { s with requests := [], next := next } := ⟨hp, hn, rfl, ho, hrep⟩
    refine ⟨⟨.lost hlost, numbered, own, ?_, ?_, firsts, seconds, received⟩, ?_⟩
    · intro c hc
      have hlt := first c hc
      rw [hr] at hlt
      exact Nat.lt_of_lt_of_le hlt (Nat.sub_le_sub_left (Nat.zero_le _) _)
    · exact fun c hc => Nat.lt_of_lt_of_le (fresh c hc) hle
    · exact iff_of_true hlost (.inr ha)
  | published k r id hk =>
    obtain ⟨rfl, ⟨hp, hn, hr, ho, hrep⟩, hid⟩ := stage.of_opening hk
    have hw : Waiting { s with
        opening := s.opening.eraseIdx 0, replies := s.replies ++ [id] } [] [] [id] :=
      ⟨hp, hn, hr, by rw [ho]; rfl, by rw [hrep]; rfl⟩
    refine ⟨⟨.replied id hw hid, numbered, own, first, fresh, firsts, seconds, received⟩, ?_⟩
    refine lost_iff rfl (fun h => ?_) fun h => ?_
    · cases ho.symm.trans h.2.2.2.1
    · cases hw.2.2.2.2.symm.trans h.2.2.2.2
  | unpublished k r id hk =>
    obtain ⟨rfl, ⟨hp, hn, hr, ho, hrep⟩, -⟩ := stage.of_opening hk
    have hlost : Lost { s with opening := s.opening.eraseIdx 0 } :=
      ⟨hp, hn, hr, by rw [ho]; rfl, hrep⟩
    refine ⟨⟨.lost hlost, numbered, own, first, fresh, firsts, seconds, received⟩, ?_⟩
    exact iff_of_true hlost (.inr Bool.false_ne_true)
  | reply r id rest hp hrep =>
    obtain ⟨rfl, ⟨hp', hn, hr, ho, -⟩, hid⟩ := stage.of_reply hrep
    obtain rfl := Option.some.inj (hp.symm.trans hp')
    refine ⟨⟨.idle rfl (by simp [hn]) hr ho rfl, ?_, ?_, first, fresh, firsts, seconds, received⟩,
      ?_⟩
    · rw [List.map_append, numbered, List.length_append, List.length_singleton, List.range_succ,
        List.map_singleton]
    · exact forall_mem_snoc own hid
    · refine lost_iff trivial (fun h => ?_) fun h => ?_
      · cases hrep.symm.trans h.2.2.2.2
      · cases h.1
  | nullPromise id rest hp hr =>
    cases hr.symm.trans (stage.of_null hp).2.2.2

theorem inv_of_reaches {ok : State → Event → Prop} (hi : Inv s) (h : Reaches step ok s t) :
    Inv t :=
  h.invariant hi fun _ _ _ hi _ hs => (inv_step hi hs).1

theorem not_lost_of_reaches (hi : Inv s) (hl : ¬ Lost s)
    (h : Reaches step (fun _ e => Succeeds e) s t) : Inv t ∧ ¬ Lost t := by
  refine h.invariant (I := fun s => Inv s ∧ ¬ Lost s) ⟨hi, hl⟩ ?_
  intro s e t hs hok hstep
  obtain ⟨hi, hlost⟩ := inv_step hs.1 hstep
  exact ⟨hi, fun h => (hlost.mp h).elim hs.2 (absurd hok)⟩

/-- Nothing happens any more once a request is lost. -/
theorem lost_of_reaches {ok : State → Event → Prop} (hl : Lost s) (h : Reaches step ok s t) :
    t = s := by
  refine h.invariant (I := fun u => u = s) rfl ?_
  rintro u e t rfl _ hs
  obtain ⟨hp, -, hr, ho, hrep⟩ := hl
  cases step_cases hs with
  | refused => rfl
  | accepted _ hp' => cases hp.symm.trans hp'
  | opens _ _ _ _ hr' | throws _ _ _ _ _ _ hr' => cases hr.symm.trans hr'
  | published _ _ _ hk | unpublished _ _ _ hk => simp [ho] at hk
  | reply _ _ _ _ hrep' | nullPromise _ _ _ hrep' => cases hrep.symm.trans hrep'

theorem unanswered_eq (h : Inv s) : s.p.toList = unanswered s := by
  have hkeep : ∀ n, (List.range s.completed.length).filter
      (fun r => r ∉ List.range n) = (List.range s.completed.length).filter (n ≤ ·) := by
    intro n
    simp [List.mem_range]
  have hnone : (List.range s.completed.length).filter (s.completed.length ≤ ·) = [] := by
    rw [List.filter_eq_nil_iff]
    intro r hr
    simpa using List.mem_range.mp hr
  have hwaiting : s.p = some s.completed.length → s.accepted.length = s.completed.length + 1 →
      s.p.toList = unanswered s := by
    intro hp hn
    rw [hp, unanswered, h.numbered, hn, List.range_succ, List.filter_append, hkeep, hnone]
    simp
  cases h.stage with
  | idle hp hn _ _ _ =>
    rw [hp, unanswered, h.numbered, hn, hkeep, hnone]
    rfl
  | sent _ hw | opening _ hw _ | replied _ hw _ | lost hw => exact hwaiting hw.1 hw.2.1

/-- The steps that answer what is under way, without another call of open_stream. -/
abbrev Settles (s t : State) : Prop := Reaches step (fun _ e => Internal e ∧ Succeeds e) s t

theorem answerable_replied (hi : Inv s) (hw : Waiting s [] [] [id]) :
    ∃ t, Settles s t ∧ unanswered t = [] := by
  obtain ⟨hp, -, -, -, hrep⟩ := hw
  have hs : step s .reply = some { s with
      replies := [], p := none, completed := s.completed ++ [(s.completed.length, id)] } := by
    simp only [step, hrep, processStreamId, hp]
  have hok : Internal .reply ∧ Succeeds .reply := ⟨trivial, trivial⟩
  exact ⟨_, Reaches.refl.tail hok hs, (unanswered_eq (inv_step hi hs).1).symm⟩

theorem answerable_opening (hi : Inv s) (hw : Waiting s [] [(r, id)] []) :
    ∃ t, Settles s t ∧ unanswered t = [] := by
  obtain ⟨hp, hn, hr, ho, hrep⟩ := hw
  have hs : step s (.set 0 true) = some { s with opening := [], replies := [id] } := by
    simp only [step, ho, hrep, List.getElem?_cons_zero, List.eraseIdx_cons_zero, if_true,
      List.nil_append]
  obtain ⟨t, ht, hnil⟩ := answerable_replied (inv_step hi hs).1 ⟨hp, hn, hr, rfl, rfl⟩
  exact ⟨t, (Reaches.refl.tail ⟨trivial, rfl⟩ hs).trans ht, hnil⟩

theorem answerable_sent (hi : Inv s) (hw : Waiting s [path] [] []) :
    ∃ t, Settles s t ∧ unanswered t = [] := by
  obtain ⟨hp, hn, hr, ho, hrep⟩ := hw
  have ha : OpenStream.Answers.Opens ⟨true, some 0, some .file⟩ := by decide
  have hs : step s (.request ⟨true, some 0, some .file⟩) = some { s with
      requests := [], next := s.next + 1
      opening := [(s.accepted.length - 1, s.next)]
      opened := s.opened ++ [(s.accepted.length - 1, s.next)] } := by
    simp only [step, hr, processOpenStream, openInputStream_opens ha, ho, List.nil_append,
      List.length_singleton]
  obtain ⟨t, ht, hnil⟩ := answerable_opening (inv_step hi hs).1 ⟨hp, hn, rfl, rfl, hrep⟩
  exact ⟨t, (Reaches.refl.tail ⟨trivial, ha⟩ hs).trans ht, hnil⟩

theorem answerable (hi : Inv s) (hl : ¬ Lost s) : ∃ t, Settles s t ∧ unanswered t = [] := by
  cases hi.stage with
  | idle hp _ _ _ _ => exact ⟨s, .refl, by rw [← unanswered_eq hi, hp, Option.toList_none]⟩
  | sent path hw => exact answerable_sent hi hw
  | opening id hw _ => exact answerable_opening hi hw
  | replied id hw _ => exact answerable_replied hi hw
  | lost hw => exact absurd hw hl

theorem handshake_of_inv (hi : Inv s) (hl : ¬ Lost s) : Handshake s where
  outstanding := unanswered_eq hi
  once := hi.numbered ▸ List.nodup_range
  own := fun r id hc => hi.own (r, id) hc
  created := ⟨hi.firsts, hi.seconds⟩
  received := hi.received
  answered := by
    intro hrest
    obtain ⟨t, ht, hnil⟩ := answerable hi hl
    have hst : t = s := by
      refine ht.invariant (I := fun u => u = s) rfl ?_
      rintro u e t rfl he hs
      exact absurd hs (hrest e t he.1)
    rwa [hst] at hnil
  answerable := answerable hi hl
  accepts := by
    intro hnil path
    have hp : s.p = none := by
      rw [← unanswered_eq hi] at hnil
      exact Option.toList_eq_nil_iff.mp hnil
    simp only [openStream, hp, (hi.stage.of_null hp).2.1, List.nil_append]

/-- A lost request leaves the backend unable to open another stream. -/
theorem not_handshake_of_lost (hi : Inv s) (hl : Lost s) :
    ¬ Handshake s ∧ ∀ path, openStream s path = .error .yikes := by
  obtain ⟨hp, hn, hr, ho, hrep⟩ := hl
  refine ⟨fun h => ?_, fun path => by rw [openStream, hp]⟩
  have hrest : ∀ e t, Internal e → step s e ≠ some t := by
    intro e t he hs
    cases e with
    | call path => exact he
    | request a => simp [step, hr] at hs
    | set k ok => simp [step, ho] at hs
    | reply => simp [step, hrep] at hs
  have hnil := h.answered hrest
  rw [← unanswered_eq hi, hp] at hnil
  cases hnil

/-- The handshake holds in every state of a run in which no open fails. From the first open
that fails on it never holds again, and every call of open_stream throws. -/
theorem handshake_iff_opens (next : EbbId) :
    (∀ t, Reaches step (fun _ e => Succeeds e) (.init next) t → Handshake t) ∧
    ∀ s e t, Reachable step (.init next) s → step s e = some t → ¬ Succeeds e →
      ∀ u, Reachable step t u → ¬ Handshake u ∧ ∀ path, openStream u path = .error .yikes := by
  constructor
  · intro t ht
    obtain ⟨hi, hl⟩ := not_lost_of_reaches (inv_init next) (not_lost_init next) ht
    exact handshake_of_inv hi hl
  · intro s e t hs hstep hfail u hu
    obtain ⟨hi, hlost⟩ := inv_step (inv_of_reaches (inv_init next) hs) hstep
    have hl : Lost t := hlost.mpr (.inr hfail)
    rw [lost_of_reaches hl hu]
    exact not_handshake_of_lost hi hl

/-- A file is opened, and then another one. -/
def twoFiles : List Event :=
  [.call [0x61], .request ⟨true, some 3, some .file⟩, .set 0 true, .reply, .call [0x62],
    .request ⟨true, some 4, some .file⟩, .set 0 true, .reply]

instance (e : Event) : Decidable (Succeeds e) :=
  match e with
  | .request a => inferInstanceAs (Decidable a.Opens)
  | .set _ ok => inferInstanceAs (Decidable (ok = true))
  | .call _ | .reply => inferInstanceAs (Decidable True)

theorem twoFiles_runs :
    (run (guarded step fun _ e => Succeeds e) (.init 100) twoFiles).isSome := by decide

theorem twoFiles_handshake :
    Handshake ((run (guarded step fun _ e => Succeeds e) (.init 100) twoFiles).get twoFiles_runs) :=
  (handshake_iff_opens 100).1 _ (reaches_get twoFiles_runs)

/-- The path does not exist: the request is never answered. -/
theorem missing_path_unanswered :
    (∃ t, run step (.init 100) [.call [0x61], .request ⟨false, none, none⟩] = some t ∧
      ∀ u, Reachable step t u → unanswered u = [0] ∧ ∀ path, openStream u path = .error .yikes) ∧
    ¬ ∀ next t, Reachable step (.init next) t → Handshake t := by
  have hreach : Reachable step (.init 100)
      ⟨some 0, [[0x61]], [], 100, [], [], [], [], false⟩ :=
    reachable_of_run (l := [.call [0x61], .request ⟨false, none, none⟩]) rfl
  have hi := inv_of_reaches (inv_init 100) hreach
  have hl : Lost ⟨some 0, [[0x61]], [], 100, [], [], [], [], false⟩ := ⟨rfl, rfl, rfl, rfl, rfl⟩
  refine ⟨⟨_, rfl, fun u hu => ?_⟩, fun h => (not_handshake_of_lost hi hl).1 (h 100 _ hreach)⟩
  obtain rfl := lost_of_reaches hl hu
  exact ⟨rfl, fun path => rfl⟩

end EbbrtContrib.OpenStreamHandshake
