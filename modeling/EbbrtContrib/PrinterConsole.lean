import EbbrtContrib.PrinterNetwork

namespace EbbrtContrib.PrinterConsole

open ObjectFault OneObject PrinterNetwork Runs

variable {numNodes : Int} {front : NetworkId} {s t : PrinterNetwork.State} {i : Nat}

/-- The front end has set its network id before it allocates the first node, and the `Printer`s of
all nodes send there. -/
structure Published (front : NetworkId) (s : PrinterNetwork.State) : Prop where
  id : s.stage = .allocating ∨ 0 < s.started → s.id = some front
  node : ∀ i, Inv (s.node i)
  remote : ∀ i p printer, (s.node i).objects.buffers p = some printer → printer.remote_nid = front

theorem remote_step {node node' : ObjectFault.State Printer} {e : ObjectFault.Event}
    (h : ∀ p printer, node.objects.buffers p = some printer → printer.remote_nid = front)
    (he : ∀ t value, e = .answer t value → value = front)
    (hs : ObjectFault.Step (fun inner => (⟨inner⟩ : Printer)) node e node') :
    ∀ p printer, node'.objects.buffers p = some printer → printer.remote_nid = front := by
  cases hs with
  | moves | inserts | caches => exact h
  | constructs t value hp =>
    intro p printer hb
    change (node.objects.alloc ⟨value⟩).buffers p = some printer at hb
    rw [Buffers.Memory.alloc_buffers] at hb
    split at hb
    · cases hb
      exact he t value rfl
    · exact h p printer hb
  | deletes t q hp =>
    intro p printer hb
    change (node.objects.free q).buffers p = some printer at hb
    rw [Buffers.Memory.free_buffers] at hb
    split at hb
    · cases hb
    · exact h p printer hb

theorem Published.init (front : NetworkId) : Published front .init where
  id h := by
    obtain h | h := h
    · cases h
    · exact absurd h (Nat.lt_irrefl 0)
  node _ := .init
  remote _ _ _ h := by cases h

/-- A step that leaves the nodes and the id alone. -/
theorem Published.keep (h : Published front s) (hnode : t.node = s.node) (hid : t.id = s.id)
    (hstarted : t.stage = .allocating ∨ 0 < t.started → s.stage = .allocating ∨ 0 < s.started) :
    Published front t where
  id hs := hid.trans (h.id (hstarted hs))
  node i := hnode ▸ h.node i
  remote i := hnode ▸ h.remote i

theorem print_fields (s : PrinterNetwork.State) (i p : Nat) (bytes : List UInt8) :
    (s.print i p bytes).node = s.node ∧ (s.print i p bytes).id = s.id ∧
      (s.print i p bytes).stage = s.stage ∧ (s.print i p bytes).started = s.started := by
  unfold State.print
  split <;> exact ⟨rfl, rfl, rfl, rfl⟩

theorem receive_fields (front : NetworkId) (s : PrinterNetwork.State) (i : Nat) (dst : NetworkId)
    (chain : List (List UInt8)) :
    (s.receive front i dst chain).node = s.node ∧ (s.receive front i dst chain).id = s.id ∧
      (s.receive front i dst chain).stage = s.stage ∧
      (s.receive front i dst chain).started = s.started := by
  unfold State.receive
  split <;> exact ⟨rfl, rfl, rfl, rfl⟩

theorem Published.step (h : Published front s) (hs : PrinterNetwork.Step numNodes front s t) :
    Published front t := by
  cases hs with
  | publishes => exact ⟨fun _ => rfl, h.node, h.remote⟩
  | stops stage _ hne => exact h.keep rfl rfl fun hs => .inr (hs.resolve_left hne)
  | starts hs _ => exact h.keep rfl rfl fun _ => .inl hs
  | reports | misses => exact h.keep rfl rfl fun hs => hs
  | faults i e node hi he hnode =>
    have hstep := ObjectFault.step_cases hnode
    have hanswer : ∀ t value, e = .answer t value → value = front := by
      intro t value heq
      have hid := h.id (.inr (Nat.zero_lt_of_lt hi))
      rw [he t value heq] at hid
      exact Option.some.inj hid
    refine ⟨h.id, ?_, ?_⟩
    · exact (Function.forall_update_iff s.node fun _ node => Inv node).mpr
        ⟨(h.node i).step hstep, fun j _ => h.node j⟩
    · exact (Function.forall_update_iff s.node fun _ node => ∀ p printer,
        node.objects.buffers p = some printer → printer.remote_nid = front).mpr
        ⟨remote_step (h.remote i) hanswer hstep, fun j _ => h.remote j⟩
  | sends i t p call =>
    obtain ⟨hnode, hid, hstage, hstarted⟩ := print_fields s i p call.payload
    exact h.keep hnode hid fun hs => by rwa [hstage, hstarted] at hs
  | receives i dst rest chain =>
    obtain ⟨hnode, hid, hstage, hstarted⟩ := receive_fields front
      { s with flight := Function.update s.flight i rest } i dst chain
    exact h.keep hnode hid fun hs => by rwa [hstage, hstarted] at hs

/-- What the console shows of node `i`. -/
def outputs (console : List Line) (i : Nat) : List (List UInt8) :=
  (console.filter (·.node = i)).map Line.output

/-- What node `i` has sent is what was received of it and what is still in flight, in this order. Of
a message that was received, the console shows the first buffer. -/
structure Traffic (front : NetworkId) (s : PrinterNetwork.State) : Prop where
  failed : s.failed = none
  addressed : ∀ i, ∀ m ∈ s.flight i, m.1 = front
  conserved : ∀ i, s.sent i = (s.received i).map List.flatten ++ (s.flight i).map Prod.snd
  shown : ∀ i, outputs s.console i = (s.received i).map (·.headD [])
  idle : ∀ i, s.started ≤ i → s.sent i = []

theorem Traffic.init (front : NetworkId) : Traffic front .init where
  failed := rfl
  addressed _ _ hm := absurd hm List.not_mem_nil
  conserved _ := rfl
  shown _ := rfl
  idle _ _ := rfl

theorem Traffic.keep (h : Traffic front s) (hfailed : t.failed = s.failed)
    (hflight : t.flight = s.flight) (hconsole : t.console = s.console) (hsent : t.sent = s.sent)
    (hreceived : t.received = s.received) (hstarted : s.started ≤ t.started) : Traffic front t where
  failed := hfailed.trans h.failed
  addressed := hflight ▸ h.addressed
  conserved := by
    rw [hsent, hreceived, hflight]
    exact h.conserved
  shown i := by
    rw [hconsole, hreceived]
    exact h.shown i
  idle i hi := by
    rw [hsent]
    exact h.idle i (Nat.le_trans hstarted hi)

theorem Traffic.sends (h : Traffic front s) (hi : i < s.started) {p : Nat} {printer : Printer}
    (hb : (s.node i).objects.buffers p = some printer) (hremote : printer.remote_nid = front)
    (bytes : List UInt8) : Traffic front (s.print i p bytes) := by
  rw [State.print, hb]
  refine ⟨h.failed, ?_, ?_, h.shown, ?_⟩
  · refine (Function.forall_update_iff s.flight fun _ ms => ∀ m ∈ ms, m.1 = front).mpr
      ⟨fun m hm => ?_, fun j _ => h.addressed j⟩
    obtain hm | hm := List.mem_append.mp hm
    · exact h.addressed i m hm
    · rw [List.mem_singleton.mp hm]
      exact hremote
  · intro j
    dsimp only
    by_cases hj : j = i
    · subst hj
      rw [Function.update_self, Function.update_self, h.conserved j, List.map_append,
        List.append_assoc]
      rfl
    · rw [Function.update_of_ne hj, Function.update_of_ne hj]
      exact h.conserved j
  · intro j hj
    have hne : j ≠ i := fun he => absurd hi (Nat.not_lt.mpr (he ▸ hj))
    exact (Function.update_of_ne hne _ _).trans (h.idle j hj)

theorem outputs_snoc (console : List Line) (i j : Nat) (output : List UInt8) :
    outputs (console ++ [⟨i, output⟩]) j =
      outputs console j ++ if i = j then [output] else [] := by
  rw [outputs, outputs, List.filter_append, List.map_append]
  by_cases hj : i = j <;> simp [hj]

theorem Traffic.receives (h : Traffic front s) {dst : NetworkId}
    {rest : List (NetworkId × List UInt8)} {chain : List (List UInt8)}
    (hf : s.flight i = (dst, chain.flatten) :: rest) :
    Traffic front (({ s with flight := Function.update s.flight i rest }).receive front i dst
      chain) := by
  have hdst : dst = front :=
    h.addressed i (dst, chain.flatten) (by rw [hf]; exact List.mem_cons_self)
  rw [State.receive, if_pos hdst]
  refine ⟨h.failed, ?_, fun j => ?_, fun j => ?_, h.idle⟩
  · refine (Function.forall_update_iff s.flight fun _ ms => ∀ m ∈ ms, m.1 = front).mpr
      ⟨fun m hm => h.addressed i m ?_, fun j _ => h.addressed j⟩
    rw [hf]
    exact List.mem_cons_of_mem _ hm
  · have hsent := h.conserved j
    dsimp only
    by_cases hj : j = i
    · subst hj
      rw [hf] at hsent
      rw [Function.update_self, Function.update_self, hsent, List.map_append, List.append_assoc]
      rfl
    · rw [Function.update_of_ne hj, Function.update_of_ne hj]
      exact hsent
  · dsimp only
    rw [outputs_snoc, h.shown j]
    by_cases hj : j = i
    · subst hj
      rw [if_pos rfl, Function.update_self, List.map_append]
      rfl
    · rw [if_neg fun he => hj he.symm, Function.update_of_ne hj, List.append_nil]

theorem Traffic.step (h : Traffic front s) (hp : Published front s)
    (hs : PrinterNetwork.Step numNodes front s t) : Traffic front t := by
  cases hs with
  | publishes | stops | reports | faults => exact h.keep rfl rfl rfl rfl rfl (Nat.le_refl _)
  | starts => exact h.keep rfl rfl rfl rfl rfl (Nat.le_succ _)
  | misses i hi hid =>
    rw [hp.id (.inr (Nat.zero_lt_of_lt hi))] at hid
    cases hid
  | sends i t p call hi hpc =>
    obtain ⟨hentry, -⟩ := (hp.node i).consistent.returned t p hpc
    obtain ⟨hlive, -⟩ := (hp.node i).entry p hentry
    obtain ⟨printer, hb⟩ := Option.ne_none_iff_exists'.mp hlive
    exact h.sends hi hb (hp.remote i p printer hb) _
  | receives i dst rest chain hf => exact h.receives hf

/-- How many nodes have been allocated and have reported, and that the time is printed once. -/
structure Timed (numNodes : Int) (s : PrinterNetwork.State) : Prop where
  started : (s.started : Int) ≤ max numNodes 0
  reported : ∀ i, s.reported i = true → i < s.started
  count : s.allocatedNodes = (List.range s.started).countP (s.reported ·)
  times : s.times = if 0 < numNodes ∧ numNodes ≤ s.allocatedNodes then 1 else 0

theorem Timed.init (numNodes : Int) : Timed numNodes .init where
  started := Int.le_max_right numNodes 0
  reported _ h := by cases h
  count := rfl
  times := by
    rw [if_neg]
    · rfl
    · rintro ⟨hpos, hle⟩
      exact absurd hpos (Int.not_lt.mpr hle)

theorem Timed.keep (h : Timed numNodes s) (hstarted : t.started = s.started)
    (hreported : t.reported = s.reported) (hallocated : t.allocatedNodes = s.allocatedNodes)
    (htimes : t.times = s.times) : Timed numNodes t := by
  constructor
  · exact hstarted ▸ h.started
  · rw [hreported, hstarted]
    exact h.reported
  · rw [hallocated, hstarted, hreported]
    exact h.count
  · rw [htimes, hallocated]
    exact h.times

theorem countP_update {f : Nat → Bool} {i : Nat} (hf : f i = false) (n : Nat) :
    (List.range n).countP (Function.update f i true ·) =
      (List.range n).countP (f ·) + if i < n then 1 else 0 := by
  induction n with
  | zero => rfl
  | succ n ih =>
    rw [List.range_succ, List.countP_append, List.countP_append, ih, List.countP_singleton,
      List.countP_singleton]
    by_cases hn : n = i
    · subst hn
      simp [hf]
    · rw [Function.update_of_ne hn]
      split_ifs <;> omega

theorem Timed.reports (h : Timed numNodes s) (hi : i < s.started) (hr : s.reported i = false) :
    Timed numNodes { s with
      reported := Function.update s.reported i true
      allocatedNodes := s.allocatedNodes + 1
      times := s.times + if (s.allocatedNodes + 1 : Int) = numNodes then 1 else 0 } := by
  refine ⟨h.started, ?_, ?_, ?_⟩
  · exact (Function.forall_update_iff s.reported fun j b => b = true → j < s.started).mpr
      ⟨fun _ => hi, fun j _ => h.reported j⟩
  · rw [countP_update hr, if_pos hi, ← h.count]
  · dsimp only
    have htimes := h.times
    split_ifs at htimes ⊢ <;> omega

theorem Timed.starts (h : Timed numNodes s) (hlt : (s.started : Int) < numNodes) :
    Timed numNodes { s with started := s.started + 1 } := by
  refine ⟨?_, fun j hj => Nat.lt_succ_of_lt (h.reported j hj), ?_, h.times⟩
  · dsimp only
    omega
  · have hnone : s.reported s.started = false :=
      Bool.eq_false_iff.mpr fun hr => Nat.lt_irrefl _ (h.reported _ hr)
    rw [List.range_succ, List.countP_append, List.countP_singleton, hnone, ← h.count]
    rfl

theorem Timed.step (h : Timed numNodes s) (hs : PrinterNetwork.Step numNodes front s t) :
    Timed numNodes t := by
  cases hs with
  | publishes | stops | faults | misses => exact h.keep rfl rfl rfl rfl
  | starts _ hlt => exact h.starts hlt
  | reports i hi hr => exact h.reports hi hr
  | sends i t p call =>
    unfold State.print
    split <;> exact h.keep rfl rfl rfl rfl
  | receives i dst rest chain =>
    unfold State.receive
    split <;> exact h.keep rfl rfl rfl rfl

/-- What every run keeps. -/
theorem invariants_of_reachable (h : Reachable (step numNodes front) .init s) :
    Published front s ∧ Traffic front s ∧ Timed numNodes s := by
  refine h.invariant (I := fun s => Published front s ∧ Traffic front s ∧ Timed numNodes s)
    ⟨.init front, .init front, .init numNodes⟩ fun s e t hi _ hs => ?_
  obtain ⟨hp, ht, htime⟩ := hi
  have hstep := PrinterNetwork.step_cases hs
  exact ⟨hp.step hstep, ht.step hp hstep, htime.step hstep⟩

/-- In any order of the events nothing fails; each message goes to the front end, and the console
has those of each node in the order of their `Print`s, none of them twice. Nothing of them is
missing but what is still in flight and what was not in the first buffer of a chain. -/
structure Delivered (front : NetworkId) (s : PrinterNetwork.State) : Prop where
  failed : s.failed = none
  addressed : ∀ i, ∀ m ∈ s.flight i, m.1 = front
  conserved : ∀ i, s.sent i = (s.received i).map List.flatten ++ (s.flight i).map Prod.snd
  shown : ∀ i, List.Forall₂ (· <+: ·) (outputs s.console i) ((s.received i).map List.flatten)
  whole : ∀ i, outputs s.console i ++ (s.flight i).map Prod.snd = s.sent i ↔
    ∀ chain ∈ s.received i, chain.tail.flatten = []

theorem headD_isPrefix (chain : List (List UInt8)) : chain.headD [] <+: chain.flatten := by
  cases chain with
  | nil => exact List.nil_prefix
  | cons b bs => exact List.prefix_append b bs.flatten

theorem headD_eq_iff (chain : List (List UInt8)) :
    chain.headD [] = chain.flatten ↔ chain.tail.flatten = [] := by
  cases chain with
  | nil => simp
  | cons b bs =>
    rw [List.headD_cons, List.flatten_cons, List.tail_cons, List.self_eq_append_right]

theorem printer_delivers (h : Reachable (step numNodes front) .init s) : Delivered front s := by
  obtain ⟨-, ht, -⟩ := invariants_of_reachable h
  refine ⟨ht.failed, ht.addressed, ht.conserved, fun i => ?_, fun i => ?_⟩
  · rw [ht.shown i, List.forall₂_map_left_iff, List.forall₂_map_right_iff, List.forall₂_same]
    exact fun chain _ => headD_isPrefix chain
  · rw [ht.conserved i, ht.shown i, List.append_left_inj, List.map_inj_left]
    exact forall₂_congr fun chain _ => headD_eq_iff chain

/-- Two nodes; on the first one, two calls of `HandleFault` race, and the second message is in two
buffers. -/
def twoNodes : List PrinterNetwork.Event :=
  [.initialized true, .allocate true, .allocate true, .reported 1, .allocate true, .reported 0,
    .run 0 0, .run 0 1, .run 0 0, .run 0 1, .get 0 0, .get 0 1, .run 0 1, .run 0 1, .run 0 0,
    .run 0 0, .run 0 0, .run 0 0, .print 0 1 (.str ⟨[0x68, 0x69], by decide⟩),
    .print 0 0 (.bytes [0x61, 0x62]), .deliver 0 [[0x68, 0x69, 0]], .deliver 0 [[0x61], [0x62]],
    .print 0 1 (.string [0x63])]

theorem twoNodes_runs : (run (step 2 [1]) .init twoNodes).isSome := by decide +kernel

theorem twoNodes_delivered : Delivered [1] ((run (step 2 [1]) .init twoNodes).get twoNodes_runs) :=
  printer_delivers (reachable_of_run (Option.some_get twoNodes_runs).symm)

theorem Timed.all_iff (h : Timed numNodes s) :
    numNodes ≤ s.allocatedNodes ↔ ∀ i : Nat, (i : Int) < numNodes → s.reported i = true := by
  have hstarted := h.started
  have hcount := h.count
  have hle := List.countP_le_length (l := List.range s.started) (p := (s.reported ·))
  have hfull := List.countP_eq_length (l := List.range s.started) (p := (s.reported ·))
  simp only [List.length_range, List.mem_range] at hle hfull
  constructor
  · intro hge i hi
    exact hfull.mp (by omega) i (by omega)
  · intro hall
    have hmore : numNodes ≤ s.started := by
      by_contra hlt
      exact Nat.lt_irrefl _ (h.reported _ (hall s.started (by omega)))
    have hsame := hfull.mpr fun i hi => hall i (by omega)
    omega

/-- The allocation time is printed once, when all of the nodes that were asked for have reported
their network ids; for no nodes it is never printed. -/
theorem allocationTime_printed (h : Reachable (step numNodes front) .init s) :
    s.times ≤ 1 ∧
      (s.times = 1 ↔ 0 < numNodes ∧ ∀ i : Nat, (i : Int) < numNodes → s.reported i = true) := by
  obtain ⟨-, -, ht⟩ := invariants_of_reachable h
  rw [← ht.all_iff, ht.times]
  split <;> simp [*]

theorem twoNodes_printed : ((run (step 2 [1]) .init twoNodes).get twoNodes_runs).times ≤ 1 ∧
    (((run (step 2 [1]) .init twoNodes).get twoNodes_runs).times = 1 ↔ (0 : Int) < 2 ∧
      ∀ i : Nat, (i : Int) < 2 →
        ((run (step 2 [1]) .init twoNodes).get twoNodes_runs).reported i = true) :=
  allocationTime_printed (reachable_of_run (Option.some_get twoNodes_runs).symm)

end EbbrtContrib.PrinterConsole
