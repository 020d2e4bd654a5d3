import Mathlib.Data.Set.Card
import EbbrtContrib.CommandLine
import EbbrtContrib.CpuBarriers

namespace EbbrtContrib.CpuCount

open CpuBringUp CpuBarriers CString Runs

section

variable (atoi : List Byte → BitVec 32)

/-- `DefaultPhysCpus_`, a `size_t`, from the value of `EBBRT_NODE_ALLOCATOR_DEFAULT_CPUS`, if it is
set, and the number of processors online. -/
def defaultPhysCpus (str : Option (List Byte)) (online : Nat) : BitVec 64 :=
  match str with
  | some str => (atoi str).signExtend 64
  | none => BitVec.ofNat 64 online

end

/-- The conversion to `int` -/
def getPhysCpus (defaultPhysCpus : BitVec 64) : Int := (defaultPhysCpus.setWidth 32).toInt

/-- Whether assertions are compiled in, and whether the `pthread_create` of thread `i`, pinned to
core `i`, succeeds. -/
structure Platform where
  asserts : Bool
  create : Nat → Bool

/-- The `pthread_t` that `EarlyInit` returns: 0, that of a thread, or what `tid` held. -/
inductive Tid
  | zero
  | thread (i : Nat)
  | uninit
  deriving DecidableEq, Repr

structure Boot where
  cpu : State
  rc : Tid
  aborted : Bool

def Boot.init : Boot := ⟨.init, .zero, false⟩

variable (P : Platform)

/-- `EarlyInit`, which goes on behind a failed `pthread_create` when there are no assertions. -/
def earlyInit (n : Nat) (b : Boot) : Option Boot :=
  let next (rc : Tid) := (Cpu.earlyInit n b.cpu).map fun s => { b with cpu := s, rc := rc }
  match b.cpu.early with
  | .creating i =>
    if i < n then
      if P.create i then next (if i = 0 then .thread i else b.rc)
      else if P.asserts then some { b with aborted := true }
      else some { b with
        cpu := { b.cpu with early := .creating (i + 1) }
        rc := if i = 0 then .uninit else b.rc }
    else next b.rc
  | .waiting | .returned => next b.rc

/-- The counters and the indices of threads are not negative, so that a negative `n` compares with
them as 0 does. -/
def step (n : Int) (b : Boot) (e : Event) : Option Boot :=
  if b.aborted then none
  else match e with
    | .early => earlyInit P n.toNat b
    | .thread i => (Cpu.run n.toNat b.cpu i).map fun s => { b with cpu := s }

/-- What is to hold of a bring-up with `n` CPUs: `Create` and `GetByIndex` (which is called when
there are some) stay within `cpus`, `main` joins a thread, and there are `n` threads behind
`EarlyInit`'s loop. -/
structure Sound (n : Int) : Prop where
  create : ∀ b, Reachable (step P n) .init b → ∀ i, b.cpu.cpus i ≠ none → i < kMaxCpus
  byIndex : ∀ b, Reachable (step P n) .init b → b.cpu.numCpus ≠ 0 →
    ∀ index i, Cpu.getByIndex b.cpu index = some i → i < kMaxCpus
  join : ∀ b, Reachable (step P n) .init b → b.cpu.early = .returned →
    ∃ i, b.rc = .thread i ∧ b.cpu.pc i ≠ .unborn
  started : ∀ b, Reachable (step P n) .init b → (∀ i, b.cpu.early ≠ .creating i) →
    ({i | b.cpu.pc i ≠ .unborn}.ncard : Int) = n

structure Usable (n : Int) : Prop extends Sound P n where
  pos : 1 ≤ n
  le_max : n ≤ kMaxCpus

variable {P} {n : Nat} {b c : Boot} {e : Event}

/-- Everything a step can do, as a relation. -/
inductive Step (P : Platform) (n : Nat) (b : Boot) : Event → Boot → Prop
  | creates (i : Nat) (s : State) : b.cpu.early = .creating i → i < n → P.create i = true →
      CpuBringUp.step n b.cpu .early = some s →
      Step P n b .early { b with cpu := s, rc := if i = 0 then .thread i else b.rc }
  | aborts (i : Nat) : b.cpu.early = .creating i → P.create i = false → P.asserts = true →
      Step P n b .early { b with aborted := true }
  | skips (i : Nat) : b.cpu.early = .creating i → i < n → P.create i = false → P.asserts = false →
      Step P n b .early { b with
        cpu := { b.cpu with early := .creating (i + 1) }
        rc := if i = 0 then .uninit else b.rc }
  | moves (e : Event) (s : State) : (e = .early → ∀ i, b.cpu.early = .creating i → n ≤ i) →
      CpuBringUp.step n b.cpu e = some s → Step P n b e { b with cpu := s }

theorem step_cases {n : Int} (h : step P n b e = some c) : Step P n.toNat b e c := by
  unfold step at h
  split at h
  · cases h
  · cases e with
    | thread i =>
      obtain ⟨s, hs, rfl⟩ := Option.map_eq_some_iff.mp h
      exact .moves (.thread i) s Event.noConfusion hs
    | early =>
      simp only [earlyInit] at h
      split at h
      · rename_i i he
        split at h
        · rename_i hi
          split at h
          · rename_i hc
            obtain ⟨s, hs, rfl⟩ := Option.map_eq_some_iff.mp h
            exact .creates i s he hi hc hs
          · rename_i hc
            split at h
            · rename_i ha
              cases h
              exact .aborts i he (by simpa using hc) ha
            · rename_i ha
              cases h
              exact .skips i he hi (by simpa using hc) (by simpa using ha)
        · rename_i hi
          obtain ⟨s, hs, rfl⟩ := Option.map_eq_some_iff.mp h
          refine .moves .early s (fun _ j hj => ?_) hs
          obtain rfl := Early.creating.inj (he.symm.trans hj)
          exact Nat.le_of_not_lt hi
      all_goals
        rename_i he
        obtain ⟨s, hs, rfl⟩ := Option.map_eq_some_iff.mp h
        exact .moves .early s (fun _ j hj => by cases he.symm.trans hj) hs

/-- No thread is left out by the loop. -/
def AllCreated (P : Platform) (n : Nat) : Prop :=
  P.asserts = false → ∀ i < n, P.create i = true

/-- The bring-up without failures, with the thread that `main` is to join. -/
structure Booted (n : Nat) (b : Boot) : Prop where
  cpu : Reachable (CpuBringUp.step n) .init b.cpu
  rc : b.rc = .thread 0 ∨ b.cpu.early = .creating 0

namespace Booted

theorem step (h : Booted n b) (hn : 1 ≤ n) (hall : AllCreated P n) (hs : Step P n b e c) :
    Booted n c := by
  cases hs with
  | creates i s he hi hc hs =>
    refine ⟨h.cpu.tail trivial hs, .inl ?_⟩
    by_cases hzero : i = 0
    · subst hzero
      rfl
    · refine (if_neg hzero).trans (h.rc.resolve_right fun he' => hzero ?_)
      exact Early.creating.inj (he.symm.trans he')
  | aborts i he hc ha => exact ⟨h.cpu, h.rc⟩
  | skips i he hi hc ha => cases hc.symm.trans (hall ha i hi)
  | moves e s hlast hs =>
    refine ⟨h.cpu.tail trivial hs, ?_⟩
    cases e with
    | thread i =>
      have hearly := (moved_of_run hs).early
      exact h.rc.imp_right hearly.trans
    | early =>
      refine .inl (h.rc.resolve_right fun he => ?_)
      exact absurd (hlast rfl 0 he) (by omega)

theorem of_reachable {n : Int} (hn : 1 ≤ n) (hall : AllCreated P n.toNat)
    (h : Reachable (CpuCount.step P n) .init b) : Booted n.toNat b :=
  h.invariant ⟨.refl, .inr rfl⟩ fun _ _ _ hb _ hs =>
    hb.step (by omega) hall (step_cases hs)

end Booted

theorem born_iff {s : State} {i : Nat} : s.pc i ≠ .unborn ↔ 1 ≤ ranks s i := by
  rw [ranks]
  cases s.pc i <;> simp [rank]

/-- All threads have been created when the loop of `EarlyInit` has ended. -/
theorem born_eq {s : State} (h : Inv n s) (hearly : ∀ i, s.early ≠ .creating i) :
    {i | s.pc i ≠ .unborn} = (Finset.range n : Set Nat) := by
  have hstarted : started n s = n := by
    rw [started]
    split
    · rename_i i he
      exact absurd he (hearly i)
    · rfl
    · rfl
  ext i
  change s.pc i ≠ .unborn ↔ _
  rw [born_iff, Finset.mem_coe, Finset.mem_range]
  constructor
  · exact h.lt_of_born
  · exact fun hi => h.born i (hi.trans_eq hstarted.symm)

theorem sound_of_range {n : Int} (hn : 1 ≤ n) (hmax : n ≤ kMaxCpus) (hall : AllCreated P n.toNat) :
    Sound P n := by
  have hmax' : n.toNat ≤ kMaxCpus := by omega
  have hinv : ∀ b, Reachable (step P n) .init b → Inv n.toNat b.cpu := fun b hb =>
    Inv.of_reachable (Booted.of_reachable hn hall hb).cpu
  constructor
  · intro b hb
    exact ((hinv b hb).bringUp (by omega) hmax').inBounds
  · intro b hb hnum index i hi
    have hle : b.cpu.numCpus ≤ n.toNat := by
      rw [(hinv b hb).counted.numCpus]
      exact CyclicBarrier.tally_le
    simp only [Cpu.getByIndex, Nat.not_lt, Option.ite_none_left_eq_some, Option.some.injEq] at hi
    have hmax256 : n.toNat ≤ 256 := hmax'
    obtain ⟨hindex, rfl⟩ := hi
    change index < 256
    omega
  · intro b hb hret
    have hne : ∀ i, b.cpu.early ≠ .creating i := fun i he => by cases hret.symm.trans he
    refine ⟨0, (Booted.of_reachable hn hall hb).rc.resolve_right (hne 0), ?_⟩
    have hmem : 0 ∈ (Finset.range n.toNat : Set Nat) := by
      rw [Finset.mem_coe, Finset.mem_range]
      omega
    rw [← born_eq (hinv b hb) hne] at hmem
    exact hmem
  · intro b hb hearly
    rw [born_eq (hinv b hb) hearly, Set.ncard_coe_finset, Finset.card_range]
    omega

/-- The loop of `EarlyInit` has run up to `k`, and no thread has done anything yet. -/
structure Looped (P : Platform) (k : Nat) (b : Boot) : Prop where
  aborted : b.aborted = false
  early : b.cpu.early = .creating k
  pc : ∀ i, b.cpu.pc i = if i < k ∧ P.create i = true then .locking else .unborn
  initLock : b.cpu.initLock = none

theorem Looped.creates {k : Nat} (h : Looped P k b) (hc : P.create k = true) (rc : Tid) :
    Looped P (k + 1) { b with
      cpu := { b.cpu.goto k .locking with early := .creating (k + 1) }, rc := rc } := by
  refine ⟨h.aborted, rfl, fun i => ?_, h.initLock⟩
  simp only [State.goto, Function.update_apply, h.pc]
  by_cases hi : i = k
  · rw [if_pos hi, if_pos ⟨by omega, hi ▸ hc⟩]
  · rw [if_neg hi]
    exact if_congr (and_congr_left' (by omega)) rfl rfl

theorem Looped.skips {k : Nat} (h : Looped P k b) (hc : P.create k ≠ true) (rc : Tid) :
    Looped P (k + 1) { b with cpu := { b.cpu with early := .creating (k + 1) }, rc := rc } := by
  refine ⟨h.aborted, rfl, fun i => ?_, h.initLock⟩
  rw [h.pc]
  refine if_congr (and_congr_left fun hi => ?_) rfl rfl
  have hne : i ≠ k := fun he => hc (he ▸ hi)
  omega

theorem looped {n : Int} (k : Nat) (hk : k ≤ n.toNat)
    (h : ∀ i < k, P.create i = true ∨ P.asserts = false) :
    ∃ b, Reachable (step P n) .init b ∧ Looped P k b := by
  induction k with
  | zero => exact ⟨.init, .refl, rfl, rfl, by simp [Boot.init, State.init], rfl⟩
  | succ k ih =>
    obtain ⟨b, hb, hl⟩ := ih (by omega) fun i hi => h i (by omega)
    have hlt : k < n.toNat := hk
    by_cases hc : P.create k = true
    · refine ⟨_, hb.tail (e := .early) trivial ?_,
        hl.creates hc (if k = 0 then .thread k else b.rc)⟩
      simp [step, hl.aborted, earlyInit, Cpu.earlyInit, hl.early, hlt, hc]
    · have ha := (h k (Nat.lt_succ_self k)).resolve_left hc
      refine ⟨_, hb.tail (e := .early) trivial ?_, hl.skips hc (if k = 0 then .uninit else b.rc)⟩
      simp [step, hl.aborted, earlyInit, hl.early, hlt, hc, ha]

/-- Without a thread `EarlyInit` returns the 0 that `rc` was set to. -/
theorem not_sound_of_nonpos {n : Int} (hn : n ≤ 0) : ¬ Sound P n := by
  intro h
  have hzero : n.toNat = 0 := by omega
  have hwaiting : step P n .init .early =
      some { Boot.init with cpu := { State.init with early := .waiting } } := by
    simp [step, earlyInit, Cpu.earlyInit, hzero, Boot.init, State.init]
  have hreturned : step P n { Boot.init with cpu := { State.init with early := .waiting } } .early =
      some { Boot.init with cpu := { State.init with early := .returned } } := by
    simp [step, earlyInit, Cpu.earlyInit, hzero, Boot.init, State.init]
  obtain ⟨i, hrc, -⟩ := h.join _ ((Reaches.refl.tail trivial hwaiting).tail trivial hreturned) rfl
  cases hrc

/-- The thread behind the last entry of `cpus` calls `Create` as the others do. -/
theorem not_sound_of_gt {n : Int} (hn : kMaxCpus < n) (hc : ∀ i, P.create i = true) :
    ¬ Sound P n := by
  intro h
  obtain ⟨b, hb, hl⟩ := looped (P := P) (kMaxCpus + 1) (n := n) (by omega) fun i _ => .inl (hc i)
  have hpc : b.cpu.pc kMaxCpus = .locking := by
    rw [hl.pc, if_pos ⟨Nat.lt_succ_self _, hc _⟩]
  let locked : State :=
    { b.cpu.goto kMaxCpus .constructing with initLock := some kMaxCpus }
  let constructed : State := (Cpu.construct locked kMaxCpus).goto kMaxCpus .counting
  have hlock : step P n b (.thread kMaxCpus) = some { b with cpu := locked } := by
    simp [step, hl.aborted, Cpu.run, hpc, hl.initLock, locked]
  have hconstruct : step P n { b with cpu := locked } (.thread kMaxCpus) =
      some { b with cpu := constructed } := by
    simp [step, hl.aborted, Cpu.run, locked, constructed, State.goto]
  have hcpus : constructed.cpus kMaxCpus ≠ none := by
    simp [constructed, Cpu.construct, State.goto]
  have hlt := h.create _ ((hb.tail trivial hlock).tail trivial hconstruct) kMaxCpus hcpus
  exact lt_irrefl _ hlt

/-- A thread that was not created is missing behind the loop. -/
theorem not_sound_of_skipped {n : Int} (ha : P.asserts = false) {i : Nat} (hi : i < n.toNat)
    (hc : P.create i = false) : ¬ Sound P n := by
  intro h
  obtain ⟨b, hb, hl⟩ := looped n.toNat le_rfl fun _ _ => .inr ha
  have hlast : step P n b .early = some { b with cpu := { b.cpu with early := .waiting } } := by
    simp [step, hl.aborted, earlyInit, Cpu.earlyInit, hl.early]
  have hcount := h.started _ (hb.tail trivial hlast) fun j he => by cases he
  have hborn : {j | b.cpu.pc j ≠ .unborn} =
      ((Finset.range n.toNat).filter fun j => P.create j = true : Finset Nat) := by
    ext j
    change b.cpu.pc j ≠ .unborn ↔ _
    rw [hl.pc, Finset.mem_coe, Finset.mem_filter, Finset.mem_range]
    split <;> simp_all
  change ({j | b.cpu.pc j ≠ .unborn}.ncard : Int) = n at hcount
  rw [hborn, Set.ncard_coe_finset] at hcount
  have hlt : ((Finset.range n.toNat).filter fun j => P.create j = true).card < n.toNat := by
    conv_rhs => rw [← Finset.card_range n.toNat]
    refine Finset.card_lt_card ((Finset.filter_ssubset).mpr ⟨i, Finset.mem_range.mpr hi, ?_⟩)
    simp [hc]
  omega

/-- With every thread created, the bring-up is sound for the counts that fit `cpus`. -/
theorem sound_iff {n : Int} (hc : ∀ i, P.create i = true) :
    Sound P n ↔ 1 ≤ n ∧ n ≤ kMaxCpus := by
  constructor
  · intro h
    constructor
    · by_contra hn
      exact not_sound_of_nonpos (by omega) h
    · by_contra hn
      exact not_sound_of_gt (by omega) hc h
  · rintro ⟨hn, hmax⟩
    exact sound_of_range hn hmax fun _ i _ => hc i

theorem usable_iff {n : Int} :
    Usable P n ↔ 1 ≤ n ∧ n ≤ kMaxCpus ∧ AllCreated P n.toNat := by
  constructor
  · intro h
    refine ⟨h.pos, h.le_max, fun ha i hi => ?_⟩
    by_contra hc
    exact not_sound_of_skipped ha hi (by simpa using hc) h.toSound
  · rintro ⟨hn, hmax, hall⟩
    exact ⟨sound_of_range hn hmax hall, hn, hmax⟩

variable (atoi : List Byte → BitVec 32)

/-- The number that is asked for: an `int`, or the last 32 bits of the count of processors. -/
def requested (str : Option (List Byte)) (online : Nat) : Int :=
  match str with
  | some str => (atoi str).toInt
  | none => (online % 2 ^ 32 : Nat)

theorem setWidth_signExtend (v : BitVec 32) : (v.signExtend 64).setWidth 32 = v := by
  ext i hi
  simp [hi, BitVec.getLsbD_signExtend]
  omega

/-- The conversions lose nothing but the counts from `2 ^ 31` on, which become negative. -/
theorem getPhysCpus_cases (str : Option (List Byte)) (online : Nat) :
    getPhysCpus (defaultPhysCpus atoi str online) = requested atoi str online ∨
      getPhysCpus (defaultPhysCpus atoi str online) < 0 ∧ 2 ^ 31 ≤ requested atoi str online := by
  cases str with
  | some str =>
    left
    rw [getPhysCpus, defaultPhysCpus, setWidth_signExtend, requested]
  | none =>
    have hwidth : ((BitVec.ofNat 64 online).setWidth 32).toNat = online % 2 ^ 32 := by
      rw [BitVec.toNat_setWidth, BitVec.toNat_ofNat]
      omega
    rw [getPhysCpus, defaultPhysCpus, requested, BitVec.toInt_eq_toNat_cond, hwidth]
    split <;> omega

/-- Whatever the variable holds, the number of CPUs is usable if and only if it is one of 1 to
`kMaxCpus`, and no thread is left out where there are no assertions; and the numbers out of this
range are not only too large or too small, but make the bring-up unsound. -/
theorem cpus_usable_iff (P : Platform) (str : Option (List Byte)) (online : Nat) :
    (Usable P (getPhysCpus (defaultPhysCpus atoi str online)) ↔
      1 ≤ requested atoi str online ∧ requested atoi str online ≤ kMaxCpus ∧
        AllCreated P (requested atoi str online).toNat) ∧
    ((∀ i, P.create i = true) → (Sound P (getPhysCpus (defaultPhysCpus atoi str online)) ↔
      1 ≤ requested atoi str online ∧ requested atoi str online ≤ kMaxCpus)) := by
  obtain h | ⟨hneg, hlarge⟩ := getPhysCpus_cases atoi str online
  · rw [h]
    exact ⟨usable_iff, sound_iff⟩
  · have hmax : (kMaxCpus : Int) = 256 := rfl
    refine ⟨⟨fun hu => ?_, fun hr => ?_⟩, fun hc => ⟨fun hs => ?_, fun hr => ?_⟩⟩
    · exact absurd hu.pos (by omega)
    · omega
    · exact absurd hs (not_sound_of_nonpos (by omega))
    · omega

/-- `atoi` of the model of the command line, for numbers that an `int` holds. -/
def atoi32 (str : List Byte) : BitVec 32 := BitVec.ofInt 32 (CommandLine.atoi str)

def allCreated : Platform := ⟨true, fun _ => true⟩

theorem fourCpus_usable :
    Usable allCreated (getPhysCpus (defaultPhysCpus atoi32 (some [0x34]) 8)) ∧
      Sound allCreated (getPhysCpus (defaultPhysCpus atoi32 (some [0x34]) 8)) := by
  have h := cpus_usable_iff atoi32 allCreated (some [0x34]) 8
  refine ⟨h.1.mpr ⟨by decide, by decide, ?_⟩, (h.2 fun _ => rfl).mpr ⟨by decide, by decide⟩⟩
  exact fun _ _ _ => rfl

/-- With the value `0` no thread is created, and `main` joins the thread 0 that `rc` was set to.
With `257` the last thread is behind `cpus`. -/
theorem zero_not_usable :
    (∃ b, Reachable (step allCreated (getPhysCpus (defaultPhysCpus atoi32 (some [0x30]) 4)))
        .init b ∧
      b.cpu.early = .returned ∧ b.rc = .zero ∧ ∀ i, b.cpu.pc i = .unborn) ∧
    ¬ Usable allCreated (getPhysCpus (defaultPhysCpus atoi32 (some [0x30]) 4)) ∧
    ¬ Sound allCreated (getPhysCpus (defaultPhysCpus atoi32 (some [0x32, 0x35, 0x37]) 4)) := by
  have hzero : getPhysCpus (defaultPhysCpus atoi32 (some [0x30]) 4) = 0 := by decide
  have hlarge : getPhysCpus (defaultPhysCpus atoi32 (some [0x32, 0x35, 0x37]) 4) = 257 := by decide
  rw [hzero, hlarge]
  refine ⟨?_, fun h => absurd h.pos (by decide), not_sound_of_gt (by decide) fun _ => rfl⟩
  exact ⟨_, (Reaches.refl.tail (e := .early) trivial rfl).tail (e := .early) trivial rfl, rfl, rfl,
    fun _ => rfl⟩

end EbbrtContrib.CpuCount
