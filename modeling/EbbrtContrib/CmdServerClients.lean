import EbbrtContrib.CmdServerBounds

namespace EbbrtContrib.CmdServerClients

open CmdServer CmdServerBounds Runs

variable {α : Type*} {asserts : Bool} {s t : State α} {a : Action α} {c : Nat}

/-- What the `Do` of a connection that closes now passes to `Send`. -/
def payload (s : State α) : List (Option α) := s.buffer.take s.bufLen

def segmentOf (c : Nat) : Action α → Option (List α)
  | .event (.receive c' seg) => if c' = c then some seg else none
  | .event .accept | .event (.close _) | .event (.connected _) | .event (.freed _) | .giveUp _ =>
    none

/-- The segments received on connection `c`, in order. -/
def segmentsOf (c : Nat) (as : List (Action α)) : List (List α) := as.filterMap (segmentOf c)

/-- The next step of the connection is the end of its `Do`. -/
def Returns : Conn α → Prop
  | .connecting len => len = 0
  | .sending d => d.len - d.sendLen = 0
  | .accepted | .closed => True

/-- No other connection than `c` receives a segment, and no `Do` ends. -/
def Undisturbed (c : Nat) (s : State α) : Action α → Prop
  | .event (.receive c' _) => c' = c
  | .event (.connected c') | .event (.freed c') => ¬ Returns (s.conn c')
  | .giveUp _ => False
  | .event .accept | .event (.close _) => True

instance : (k : Conn α) → Decidable (Returns k)
  | .connecting len => inferInstanceAs (Decidable (len = 0))
  | .sending d => inferInstanceAs (Decidable (d.len - d.sendLen = 0))
  | .accepted | .closed => inferInstanceAs (Decidable True)

instance (c : Nat) (s : State α) : (a : Action α) → Decidable (Undisturbed c s a)
  | .event (.receive c' _) => inferInstanceAs (Decidable (c' = c))
  | .event (.connected c') | .event (.freed c') =>
    inferInstanceAs (Decidable (¬ Returns (s.conn c')))
  | .giveUp _ => inferInstanceAs (Decidable False)
  | .event .accept | .event (.close _) => inferInstanceAs (Decidable True)

/-- From a moment on when the buffer is empty, and before its first segment, the run disturbs
connection `c` no more. -/
def Alone (asserts : Bool) (c : Nat) (as : List (Action α)) (s : State α) : Prop :=
  ∃ g before after m, as = before ++ after ∧ run (act asserts) (.init g) before = some m ∧
    m.bufLen = 0 ∧ segmentsOf c before = [] ∧
    run (guarded (act asserts) (Undisturbed c)) m after = some s

theorem segmentsOf_append (c : Nat) (as bs : List (Action α)) :
    segmentsOf c (as ++ bs) = segmentsOf c as ++ segmentsOf c bs :=
  List.filterMap_append

theorem flatten_segmentsOf_cons (c : Nat) (a : Action α) (as : List (Action α)) :
    (segmentsOf c (a :: as)).flatten = (segmentOf c a).getD [] ++ (segmentsOf c as).flatten := by
  rw [segmentsOf, List.filterMap_cons]
  cases segmentOf c a <;> rfl

/-- The buffer has its size, and what was written to it since it was empty lies within. -/
structure InBuffer (s : State α) : Prop where
  size : s.buffer.length = bufSize
  bound : s.bufLen ≤ bufSize

/-- `Buffer` appends the segment, if it does not stop the program. -/
theorem store_cases (asserts : Bool) (s : State α) (seg : List α) :
    (s.store asserts seg).halted ≠ none ∨
    s.bufLen + seg.length ≤ bufSize ∧ s.store asserts seg = { s with
      buffer := s.buffer.take s.bufLen ++ seg.map some ++ s.buffer.drop (s.bufLen + seg.length)
      bufLen := s.bufLen + seg.length
      handed := s.handed ++ seg } := by
  unfold State.store
  split_ifs with ha hfull
  · exact .inl (Option.some_ne_none _)
  · exact .inl (Option.some_ne_none _)
  · exact .inr ⟨Nat.le_of_not_lt hfull, rfl⟩

theorem sendAndBlock_buffer (s : State α) (c : Nat) (d : Sending α) :
    (s.sendAndBlock c d).buffer = s.buffer ∧
      (d.len ≠ 0 → (s.sendAndBlock c d).bufLen = s.bufLen) := by
  unfold State.sendAndBlock
  split
  · rename_i hz
    exact ⟨rfl, fun hne => absurd hz hne⟩
  · exact ⟨rfl, fun _ => rfl⟩

theorem size_append {buffer : List (Option α)} (hsize : buffer.length = bufSize) {n : Nat}
    {seg : List α} (hfits : n + seg.length ≤ bufSize) :
    (buffer.take n ++ seg.map some ++ buffer.drop (n + seg.length)).length = bufSize := by
  simp only [List.length_append, List.length_take, List.length_map, List.length_drop, hsize]
  omega

theorem take_append {buffer : List (Option α)} {n : Nat} (hn : n ≤ buffer.length) (seg : List α)
    (rest : List (Option α)) :
    (buffer.take n ++ seg.map some ++ rest).take (n + seg.length) =
      buffer.take n ++ seg.map some := by
  have hlen : (buffer.take n ++ seg.map some).length = n + seg.length := by
    rw [List.length_append, List.length_take, List.length_map, Nat.min_eq_left hn]
  rw [← hlen, List.take_left]

theorem act_size (h : s.buffer.length = bufSize) (ha : act asserts s a = some t) :
    t.buffer.length = bufSize := by
  cases a with
  | giveUp c =>
    obtain ⟨-, rfl⟩ := giveUp_cases ha
    exact h
  | event e =>
    cases step_cases ha with
    | accept | close => exact h
    | connected c len hc => rw [(sendAndBlock_buffer s c _).1, h]
    | freed c d hc => rw [(sendAndBlock_buffer s c _).1, h]
    | receive c seg hc =>
      unfold State.store
      split_ifs with ha hfull
      · exact h
      · exact h
      · exact size_append h (Nat.le_of_not_lt hfull)

theorem size_of_run {as : List (Action α)} (h : s.buffer.length = bufSize)
    (hrun : run (act asserts) s as = some t) : t.buffer.length = bufSize :=
  (reachable_of_run hrun).invariant h fun _ _ _ hs _ ha => act_size hs ha

/-- An undisturbed step adds to the payload what `c` receives, and nothing else. -/
theorem payload_act (h : InBuffer s) (hg : Undisturbed c s a) (ha : act asserts s a = some t)
    (ht : t.halted = none) :
    InBuffer t ∧ payload t = payload s ++ ((segmentOf c a).getD []).map some := by
  cases a with
  | giveUp c' => exact hg.elim
  | event e =>
    cases step_cases ha with
    | accept => exact ⟨⟨h.size, h.bound⟩, (List.append_nil _).symm⟩
    | close c' hc => exact ⟨⟨h.size, h.bound⟩, (List.append_nil _).symm⟩
    | connected c' len hc =>
      obtain ⟨hbuffer, hbufLen⟩ := sendAndBlock_buffer s c' ⟨len, 0, 0, []⟩
      simp only [Undisturbed, hc, Returns] at hg
      have hkeep := hbufLen hg
      refine ⟨⟨hbuffer ▸ h.size, hkeep ▸ h.bound⟩, ?_⟩
      rw [payload, hbuffer, hkeep]
      exact (List.append_nil _).symm
    | freed c' d hc =>
      obtain ⟨hbuffer, hbufLen⟩ := sendAndBlock_buffer s c'
        { d with sent := d.sent + d.sendLen, len := d.len - d.sendLen }
      simp only [Undisturbed, hc, Returns] at hg
      have hkeep := hbufLen hg
      refine ⟨⟨hbuffer ▸ h.size, hkeep ▸ h.bound⟩, ?_⟩
      rw [payload, hbuffer, hkeep]
      exact (List.append_nil _).symm
    | receive c' seg hc =>
      obtain rfl : c' = c := hg
      obtain hhalt | ⟨hfits, hstore⟩ := store_cases asserts s seg
      · exact absurd ht hhalt
      · rw [hstore]
        refine ⟨⟨size_append h.size hfits, hfits⟩, ?_⟩
        rw [payload, take_append (h.size ▸ h.bound), payload, segmentOf, if_pos rfl,
          Option.getD_some]

theorem halted_of_run {as : List (Action α)} (h : s.halted ≠ none)
    (hrun : run (guarded (act asserts) (Undisturbed c)) s as = some t) : t.halted ≠ none := by
  cases as with
  | nil =>
    cases hrun
    exact h
  | cons a as =>
    obtain ⟨k, hk⟩ := Option.ne_none_iff_exists'.mp h
    have hstep : act asserts s a = none := by
      cases a <;> simp only [act, step, hk]
    simp [run, guarded, hstep] at hrun

/-- Over an undisturbed run the payload grows by the segments of `c`. -/
theorem payload_run {as : List (Action α)} (h : InBuffer s)
    (hrun : run (guarded (act asserts) (Undisturbed c)) s as = some t) (ht : t.halted = none) :
    payload t = payload s ++ (segmentsOf c as).flatten.map some := by
  induction as generalizing s with
  | nil =>
    cases hrun
    exact (List.append_nil _).symm
  | cons a as ih =>
    simp only [run, guarded, Option.bind_eq_some_iff, Option.ite_none_right_eq_some] at hrun
    obtain ⟨m, ⟨hg, ha⟩, hrest⟩ := hrun
    have hm : m.halted = none := by
      by_contra hne
      exact halted_of_run hne hrest ht
    obtain ⟨hin, hpay⟩ := payload_act h hg ha hm
    rw [ih hin hrest, hpay, List.append_assoc, ← List.map_append, flatten_segmentsOf_cons]

theorem payload_of_alone {as : List (Action α)} (h : Alone asserts c as s)
    (hs : s.halted = none) : payload s = (segmentsOf c as).flatten.map some := by
  obtain ⟨g, before, after, m, rfl, hbefore, hempty, hnone, hafter⟩ := h
  have hsize : m.buffer.length = bufSize := size_of_run List.length_replicate hbefore
  have hin : InBuffer m := ⟨hsize, by rw [hempty]; exact Nat.zero_le _⟩
  rw [payload_run hin hafter hs, payload, hempty, List.take_zero, List.nil_append,
    segmentsOf_append, hnone, List.nil_append]

/-- Two runs that agree on the segments of `c`, and in which `c` is alone, hand the same payload
to the `Send` of `c`: its own bytes. -/
theorem own_payload {as₁ as₂ : List (Action α)} {s₁ s₂ t₁ t₂ : State α}
    (h₁ : Alone asserts c as₁ s₁) (h₂ : Alone asserts c as₂ s₂)
    (hsegments : segmentsOf c as₁ = segmentsOf c as₂)
    (hclose₁ : act asserts s₁ (.event (.close c)) = some t₁)
    (hclose₂ : act asserts s₂ (.event (.close c)) = some t₂) :
    payload s₁ = payload s₂ ∧ payload s₁ = (segmentsOf c as₁).flatten.map some := by
  have hrunning : ∀ {s t : State α}, act asserts s (.event (.close c)) = some t →
      s.halted = none := by
    intro s t hclose
    by_contra hne
    obtain ⟨k, hk⟩ := Option.ne_none_iff_exists'.mp hne
    simp [act, step, hk] at hclose
  have hpay₁ := payload_of_alone h₁ (hrunning hclose₁)
  have hpay₂ := payload_of_alone h₂ (hrunning hclose₂)
  exact ⟨by rw [hpay₁, hpay₂, hsegments], hpay₁⟩

/-- Connection 0 sends two segments; connection 1 is only accepted, or sends afterwards. -/
def quiet : List (Action Nat) :=
  [.event .accept, .event .accept, .event (.receive 0 [1]), .event (.receive 0 [2])]

def later : List (Action Nat) :=
  [.event .accept, .event .accept, .event (.receive 1 [7]), .event (.close 1), .giveUp 1,
    .event (.receive 0 [1]), .event (.receive 0 [2])]

/-- Connection 1 sends between them. -/
def mixed : List (Action Nat) :=
  [.event .accept, .event .accept, .event (.receive 0 [1]), .event (.receive 1 [7]),
    .event (.receive 0 [2])]

theorem quiet_own : ∃ s₁ s₂, Alone true 0 quiet s₁ ∧ Alone true 0 later s₂ ∧
    payload s₁ = payload s₂ ∧ payload s₁ = [some 1, some 2] := by
  have h₁ : Alone true 0 quiet _ := ⟨0, [], quiet, _, rfl, rfl, rfl, rfl, rfl⟩
  have h₂ : Alone true 0 later _ :=
    ⟨0, later.take 5, later.drop 5, _, rfl, rfl, rfl, rfl, rfl⟩
  exact ⟨_, _, h₁, h₂, own_payload h₁ h₂ rfl rfl rfl⟩

/-- The segment of connection 1 is in what the close of connection 0 hands to `Send`. -/
theorem mixed_payload : ¬ ∀ (as₁ as₂ : List (Action Nat)) s₁ s₂ t₁ t₂,
    run (act true) (.init 0) as₁ = some s₁ → run (act true) (.init 0) as₂ = some s₂ →
    segmentsOf 0 as₁ = segmentsOf 0 as₂ → act true s₁ (.event (.close 0)) = some t₁ →
    act true s₂ (.event (.close 0)) = some t₂ → payload s₁ = payload s₂ := by
  intro h
  have he := h quiet mixed _ _ _ _ rfl rfl rfl rfl rfl
  exact absurd he (by decide)

end EbbrtContrib.CmdServerClients
