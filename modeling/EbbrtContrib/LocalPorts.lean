import Mathlib.Data.BitVec
import EbbrtContrib.Runs

namespace EbbrtContrib.LocalPorts

open Runs

/-- `uint16_t` -/
abbrev Port := BitVec 16

def START_LPORT : Port := 50000

/-- The port of `AppMain`, which `StartListening` binds. -/
def listeningPort : Port := 8090

def Reserved (p : Port) : Prop := p < 1024

/-- Where a `Send` is: in the `lport++` of `ConnectAndBlock` with the value that it has read, before
`Connect`, with its connection made from a port, and past the `delete` of the connection. -/
inductive Phase
  | increment (lport : Port)
  | connect
  | connected (lport : Port)
  | deleted
  deriving DecidableEq, Repr

/-- `sends` are numbered in the order of their calls, and `ports` records those passed to
`Connect`. -/
structure State where
  lport : Port
  sends : List Phase
  ports : List Port
  deriving DecidableEq, Repr

def State.init : State := ⟨START_LPORT, [], []⟩

/-- `call` is the read of `lport` in `lport++`, `store` its write, and `delete` stands for the end
of a `Send`, some time after its connection blocked. -/
inductive Event
  | call
  | store (k : Nat)
  | connect (k : Nat)
  | delete (k : Nat)
  deriving DecidableEq, Repr

/-- `ConnectAndBlock`, and the `delete` in `Send`. -/
def step (s : State) : Event → Option State
  | .call => some { s with sends := s.sends ++ [.increment s.lport] }
  | .store k =>
    match s.sends[k]? with
    | some (.increment lport) => some { s with lport := lport + 1, sends := s.sends.set k .connect }
    | _ => none
  | .connect k =>
    match s.sends[k]? with
    | some .connect => some { s with
        sends := s.sends.set k (.connected s.lport)
        ports := s.ports ++ [s.lport] }
    | _ => none
  | .delete k =>
    match s.sends[k]? with
    | some (.connected _) => some { s with sends := s.sends.set k .deleted }
    | _ => none

def midway : Phase → Bool
  | .increment _ | .connect => true
  | .connected _ | .deleted => false

/-- No call begins while another one is on its way from `lport++` to `Connect`, as no event does
on one core. -/
def Alone (s : State) : Event → Prop
  | .call => ∀ p ∈ s.sends, midway p = false
  | .store _ | .connect _ | .delete _ => True

instance (s : State) (e : Event) : Decidable (Alone s e) :=
  match e with
  | .call => inferInstanceAs (Decidable (∀ p ∈ s.sends, _))
  | .store _ | .connect _ | .delete _ => inferInstanceAs (Decidable True)

/-- What is passed to `Connect` is above `START_LPORT`. -/
def OverStart (s : State) : Prop :=
  ∀ p ∈ s.ports, START_LPORT < p ∧ p ≠ 0 ∧ ¬ Reserved p ∧ p ≠ listeningPort

def Open (s : State) (k : Nat) (p : Port) : Prop := s.sends[k]? = some (.connected p)

instance (s : State) (k : Nat) (p : Port) : Decidable (Open s k p) :=
  inferInstanceAs (Decidable (_ = _))

/-- Connections that exist at the same time have different ports. -/
def Distinct (s : State) : Prop := ∀ k l p, Open s k p → Open s l p → k = l

structure Valid (s : State) : Prop where
  overStart : OverStart s
  distinct : Distinct s

/-- `lport` after `n` increments. -/
def lport (n : Nat) : Port := START_LPORT + BitVec.ofNat 16 n

theorem lport_succ (n : Nat) : lport n + 1 = lport (n + 1) := by
  rw [lport, lport, BitVec.ofNat_add, BitVec.add_assoc]
  rfl

theorem toNat_lport (n : Nat) : (lport n).toNat = (50000 + n) % 65536 := by
  rw [lport, BitVec.toNat_add, BitVec.toNat_ofNat]
  simp [START_LPORT]

theorem lport_inj (m n : Nat) : lport m = lport n ↔ m % 65536 = n % 65536 := by
  rw [← BitVec.toNat_inj, toNat_lport, toNat_lport]
  omega

/-- The calls with a connection have increasing ports; the one behind them, if any, is on its
way. -/
structure Inv (s : State) : Prop where
  ports : s.ports = (List.range s.ports.length).map fun k => lport (k + 1)
  past : ∀ k < s.ports.length, Open s k (lport (k + 1)) ∨ s.sends[k]? = some .deleted
  now : s.sends.length = s.ports.length ∧ s.lport = lport s.ports.length ∨
    s.sends.length = s.ports.length + 1 ∧
      (s.sends[s.ports.length]? = some (.increment s.lport) ∧ s.lport = lport s.ports.length ∨
        s.sends[s.ports.length]? = some .connect ∧ s.lport = lport (s.ports.length + 1))

variable {s t : State} {e : Event} {k : Nat} {p : Port}

/-- Everything a step can do, as a relation. -/
inductive Step (s : State) : Event → State → Prop
  | call : Step s .call { s with sends := s.sends ++ [.increment s.lport] }
  | store (k : Nat) (lport : Port) : s.sends[k]? = some (.increment lport) →
      Step s (.store k) { s with lport := lport + 1, sends := s.sends.set k .connect }
  | connect (k : Nat) : s.sends[k]? = some .connect → Step s (.connect k) { s with
      sends := s.sends.set k (.connected s.lport), ports := s.ports ++ [s.lport] }
  | delete (k : Nat) (p : Port) : Open s k p →
      Step s (.delete k) { s with sends := s.sends.set k .deleted }

theorem step_cases (h : step s e = some t) : Step s e t := by
  cases e with
  | call =>
    cases h
    exact .call
  | store k =>
    simp only [step] at h
    split at h
    · rename_i v hk
      cases h
      exact .store k v hk
    · cases h
  | connect k =>
    simp only [step] at h
    split at h
    · rename_i hk
      cases h
      exact .connect k hk
    · cases h
  | delete k =>
    simp only [step] at h
    split at h
    · rename_i p hk
      cases h
      exact .delete k p hk
    · cases h

namespace Inv

theorem init : Inv .init := by
  constructor <;> simp [State.init, lport]

/-- A call on its way is the last one. -/
theorem last (h : Inv s) {q : Phase} (hk : s.sends[k]? = some q) (hq : midway q = true) :
    k = s.ports.length ∧ s.sends.length = s.ports.length + 1 := by
  have hlt : k < s.sends.length := (List.getElem?_eq_some_iff.mp hk).1
  have hge : ¬ k < s.ports.length := by
    intro hk'
    obtain hp | hp := h.past k hk' <;> cases hk.symm.trans hp <;> cases hq
  obtain ⟨hlen, -⟩ | ⟨hlen, -⟩ := h.now
  · omega
  · exact ⟨by omega, hlen⟩

theorem call (h : Inv s) (halone : Alone s .call) :
    Inv { s with sends := s.sends ++ [.increment s.lport] } := by
  obtain ⟨hlen, hlport⟩ | ⟨hlen, hmid⟩ := h.now
  · refine ⟨h.ports, ?_, .inr ⟨?_, .inl ⟨?_, hlport⟩⟩⟩
    · intro k hk
      rw [Open, List.getElem?_append_left (hk.trans_eq hlen.symm)]
      exact h.past k hk
    · rw [List.length_append, hlen, List.length_singleton]
    · rw [List.getElem?_append_right hlen.le, hlen, Nat.sub_self]
      rfl
  · obtain ⟨hk, -⟩ | ⟨hk, -⟩ := hmid <;>
      cases halone _ (List.mem_of_getElem? hk)

theorem store (h : Inv s) {v : Port} (hk : s.sends[k]? = some (.increment v)) :
    Inv { s with lport := v + 1, sends := s.sends.set k .connect } := by
  obtain ⟨rfl, hlen⟩ := h.last hk rfl
  have hv : v = lport s.ports.length := by
    obtain ⟨hlen', -⟩ | ⟨-, ⟨hk', hv⟩ | ⟨hk', -⟩⟩ := h.now
    · omega
    · obtain rfl : s.lport = v := by simpa [hk'] using hk
      exact hv
    · cases hk.symm.trans hk'
  refine ⟨h.ports, ?_, .inr ⟨by rwa [List.length_set], .inr ⟨?_, ?_⟩⟩⟩
  · intro k hk'
    rw [Open, List.getElem?_set_ne hk'.ne']
    exact h.past k hk'
  · rw [List.getElem?_set_self (by omega)]
  · rw [hv, lport_succ]

theorem connect (h : Inv s) (hk : s.sends[k]? = some .connect) :
    Inv { s with sends := s.sends.set k (.connected s.lport), ports := s.ports ++ [s.lport] } := by
  obtain ⟨rfl, hlen⟩ := h.last hk rfl
  have hlport : s.lport = lport (s.ports.length + 1) := by
    obtain ⟨hlen', -⟩ | ⟨-, ⟨hk', -⟩ | ⟨-, hv⟩⟩ := h.now
    · omega
    · cases hk.symm.trans hk'
    · exact hv
  refine ⟨?_, ?_, .inl ⟨?_, ?_⟩⟩
  · rw [List.length_append, List.length_singleton, List.range_succ, List.map_append, ← h.ports,
      hlport]
    rfl
  · intro k hk'
    rw [List.length_append, List.length_singleton] at hk'
    obtain hlt | rfl := Nat.lt_succ_iff_lt_or_eq.mp hk'
    · rw [Open, List.getElem?_set_ne hlt.ne']
      exact h.past k hlt
    · rw [Open, List.getElem?_set_self (by omega), hlport]
      exact .inl rfl
  · rw [List.length_set, List.length_append, hlen, List.length_singleton]
  · rw [List.length_append, List.length_singleton, hlport]

theorem delete (h : Inv s) (hk : Open s k p) : Inv { s with sends := s.sends.set k .deleted } := by
  have hmid : ∀ {q}, s.sends[s.ports.length]? = some q → midway q = true → k ≠ s.ports.length := by
    rintro q hq hmid rfl
    cases hk.symm.trans hq
    cases hmid
  refine ⟨h.ports, ?_, ?_⟩
  · intro k' hk'
    by_cases he : k = k'
    · subst he
      rw [List.getElem?_set_self (List.getElem?_eq_some_iff.mp hk).1]
      exact .inr rfl
    · rw [Open, List.getElem?_set_ne he]
      exact h.past k' hk'
  · rw [List.length_set]
    obtain hrest | ⟨hlen, ⟨hq, hlport⟩ | ⟨hq, hlport⟩⟩ := h.now
    · exact .inl hrest
    · exact .inr ⟨hlen, .inl ⟨by rwa [List.getElem?_set_ne (hmid hq rfl)], hlport⟩⟩
    · exact .inr ⟨hlen, .inr ⟨by rwa [List.getElem?_set_ne (hmid hq rfl)], hlport⟩⟩

theorem step (h : Inv s) (halone : Alone s e) (hs : Step s e t) : Inv t := by
  cases hs with
  | call => exact h.call halone
  | store k v hk => exact h.store hk
  | connect k hk => exact h.connect hk
  | delete k p hk => exact h.delete hk

theorem of_reaches (h : Reaches LocalPorts.step Alone .init s) : Inv s :=
  h.invariant init fun _ _ _ hi halone hs => hi.step halone (step_cases hs)

theorem of_open (h : Inv s) (hk : Open s k p) : k < s.ports.length ∧ p = lport (k + 1) := by
  have hlt : k < s.sends.length := (List.getElem?_eq_some_iff.mp hk).1
  have hk' : k < s.ports.length := by
    obtain ⟨hlen, -⟩ | ⟨hlen, ⟨hq, -⟩ | ⟨hq, -⟩⟩ := h.now
    · omega
    all_goals
      have hne : k ≠ s.ports.length := by
        rintro rfl
        cases hk.symm.trans hq
      omega
  refine ⟨hk', ?_⟩
  obtain hp | hp := h.past k hk'
  · simpa [Open] using hk.symm.trans hp
  · cases hk.symm.trans hp

theorem mem_ports (h : Inv s) : p ∈ s.ports ↔ ∃ k < s.ports.length, lport (k + 1) = p := by
  constructor
  · intro hp
    rw [h.ports] at hp
    obtain ⟨k, hk, rfl⟩ := List.mem_map.mp hp
    exact ⟨k, List.mem_range.mp hk, rfl⟩
  · rintro ⟨k, hk, rfl⟩
    rw [h.ports]
    exact List.mem_map.mpr ⟨k, List.mem_range.mpr hk, rfl⟩

end Inv

/-- The increments before `lport` wraps around. -/
def beforeWrap : Nat := 65535 - 50000

theorem lport_over {n : Nat} (hn : 1 ≤ n) (hmax : n ≤ beforeWrap) : START_LPORT < lport n ∧
    lport n ≠ 0 ∧ ¬ Reserved (lport n) ∧ lport n ≠ listeningPort := by
  have hmax' : n ≤ 15535 := hmax
  have hport := toNat_lport n
  rw [Nat.mod_eq_of_lt (by omega)] at hport
  refine ⟨?_, ?_, ?_, ?_⟩
  · rw [BitVec.lt_def, hport]
    exact Nat.lt_add_of_pos_right hn
  · rintro h
    rw [h] at hport
    change 0 = 50000 + n at hport
    omega
  · intro h
    rw [Reserved, BitVec.lt_def, hport] at h
    change 50000 + n < 1024 at h
    omega
  · rintro h
    rw [h] at hport
    change 8090 = 50000 + n at hport
    omega

theorem overStart_iff (h : Inv s) : OverStart s ↔ s.ports.length ≤ beforeWrap := by
  constructor
  · intro hover
    by_contra hlt
    have hmem : lport (beforeWrap + 1) ∈ s.ports := h.mem_ports.mpr ⟨beforeWrap, by omega, rfl⟩
    exact (hover _ hmem).2.1 (by decide)
  · intro hlen p hp
    obtain ⟨k, hk, rfl⟩ := h.mem_ports.mp hp
    exact lport_over (Nat.succ_pos k) (hk.trans_le hlen)

/-- Open connections get in each other's way when a multiple of `2 ^ 16` calls lies between
them. -/
theorem distinct_iff (h : Inv s) : Distinct s ↔
    ∀ k l p q, Open s k p → Open s l q → k % 65536 = l % 65536 → k = l := by
  constructor
  · intro hd k l p q hk hl hmod
    have hp := (h.of_open hk).2
    have hq := (h.of_open hl).2
    have heq : p = q := by
      rw [hp, hq, lport_inj]
      omega
    exact hd k l p hk (heq ▸ hl)
  · intro hmod k l p hk hl
    have hp := (h.of_open hk).2.symm.trans (h.of_open hl).2
    rw [lport_inj] at hp
    exact hmod k l p p hk hl (by omega)

/-- While no call comes between another one's increment and its `Connect`, the ports are valid up
to the call at which `lport` wraps around. -/
theorem valid_iff (h : Reaches step Alone .init s) :
    (Valid s ↔ s.ports.length ≤ beforeWrap) ∧ (Distinct s ↔
      ∀ k l p q, Open s k p → Open s l q → k % 65536 = l % 65536 → k = l) := by
  have hinv := Inv.of_reaches h
  refine ⟨⟨fun hv => (overStart_iff hinv).mp hv.overStart, fun hlen => ?_⟩, distinct_iff hinv⟩
  refine ⟨(overStart_iff hinv).mpr hlen, (distinct_iff hinv).mpr fun k l p q hk hl hmod => ?_⟩
  have hk' := (hinv.of_open hk).1.trans_le hlen
  have hl' := (hinv.of_open hl).1.trans_le hlen
  have hmax : beforeWrap = 15535 := rfl
  omega

/-- Two `Send`s overlap. -/
def overlapping : List Event :=
  [.call, .store 0, .connect 0, .call, .store 1, .connect 1, .delete 1, .delete 0]

theorem overlapping_runs : (run (guarded step Alone) .init overlapping).isSome := by decide

theorem overlapping_valid :
    let s := (run (guarded step Alone) .init overlapping).get overlapping_runs
    Valid s ∧ s.ports = [50001, 50002] :=
  ⟨(valid_iff (reaches_get overlapping_runs)).1.mpr (by decide), by decide⟩

theorem serve (p : Port) (sends : List Phase) (ports : List Port)
    (halone : ∀ q ∈ sends, midway q = false) :
    run (guarded step Alone) ⟨p, sends, ports⟩
      [.call, .store sends.length, .connect sends.length] =
        some ⟨p + 1, sends ++ [.connected (p + 1)], ports ++ [p + 1]⟩ := by
  have hcall : guarded step Alone ⟨p, sends, ports⟩ .call =
    some ⟨p, sends ++ [.increment p], ports⟩ := if_pos halone
  rw [run, hcall]
  simp [run, guarded, Alone, step]

/-- `n` calls one after the other. -/
theorem served (n : Nat) : ∃ s, Reaches step Alone .init s ∧ s.ports.length = n ∧
    ∀ p ∈ s.sends, midway p = false := by
  induction n with
  | zero => exact ⟨.init, .refl, rfl, by simp [State.init]⟩
  | succ n ih =>
    obtain ⟨s, hs, hlen, halone⟩ := ih
    have hserve := reaches_of_run (serve s.lport s.sends s.ports halone)
    refine ⟨_, hs.trans hserve, ?_, ?_⟩
    · rw [List.length_append, hlen, List.length_singleton]
    · intro p hp
      obtain hp | hp := List.mem_append.mp hp
      · exact halone p hp
      · rw [List.mem_singleton.mp hp]
        rfl

/-- Two calls on different cores read the same `lport`. -/
def racing : List Event := [.call, .call, .store 0, .store 1, .connect 0, .connect 1]

theorem racing_runs : (run step .init racing).isSome := by decide

/-- The 15536th connection is made from port 0; and calls that race for `lport` get one port. -/
theorem port_wraps : (∃ s, Reaches step Alone .init s ∧ 0 ∈ s.ports ∧ ¬ Valid s) ∧
    ∃ s, Reachable step .init s ∧ Open s 0 50001 ∧ Open s 1 50001 ∧ ¬ Valid s := by
  constructor
  · obtain ⟨s, hs, hlen, -⟩ := served (beforeWrap + 1)
    have hzero : 0 ∈ s.ports := (Inv.of_reaches hs).mem_ports.mpr ⟨beforeWrap, by omega, by decide⟩
    exact ⟨s, hs, hzero, fun hv => (hv.overStart 0 hzero).2.1 rfl⟩
  · have hrace := reachable_of_run (Option.some_get racing_runs).symm
    refine ⟨_, hrace, by decide, by decide, fun hv => ?_⟩
    exact absurd (hv.distinct 0 1 50001 (by decide) (by decide)) (by decide)

end EbbrtContrib.LocalPorts
