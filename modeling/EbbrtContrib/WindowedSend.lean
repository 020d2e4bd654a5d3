import EbbrtContrib.OutConnection
import EbbrtContrib.Windows

namespace EbbrtContrib.WindowedSend

open OutConnection Runs Windows

variable {α : Type*} {bytes : List α} {windowSize : Nat} {s t : State α} {e : Event}
  {c : Callback} {w : Wait}

/-- The stack connects while `ConnectAndBlock` waits, and disposes of a chunk when `SendAndBlock`
has blocked on it. It can abort at any time. -/
def Blocking (s : State α) : Event → Prop
  | .deliver .connected => s.phase = .blocked .connect
  | .deliver (.disposed k) => .chunk k ∈ s.saves
  | .deliver .abort | .block | .resume => True

instance (s : State α) (e : Event) : Decidable (Blocking s e) :=
  match e with
  | .deliver .connected => inferInstanceAs (Decidable (s.phase = .blocked .connect))
  | .deliver (.disposed _) => inferInstanceAs (Decidable (_ ∈ s.saves))
  | .deliver .abort | .block | .resume => inferInstanceAs (Decidable True)

/-- The steps of the thread in `Send`. -/
def own : Event → Bool
  | .block | .resume => true
  | .deliver _ => false

/-- The loop of `SendAndBlock` in a state: it hands over the windows of the bytes, one after the
other was disposed of, and waits only for what is still to come; without an `Abort` of a chunk it
waits for, it returns when all are sent, and with one it hands over no other chunk and returns 0. -/
structure Partition (bytes : List α) (windowSize : Nat) (s : State α) : Prop where
  sizes : ∀ c ∈ s.chunks, c ≠ [] ∧ c.length ≤ windowSize
  consecutive : s.chunks.flatten <+: bytes
  outstanding : ∀ k < s.chunks.length, .disposed k ∉ s.delivered → k + 1 = s.chunks.length
  waits : s.phase ≠ .returned → (∃ e u, own e = true ∧ step bytes windowSize s e = some u) ∨
    ∃ w, s.phase = .blocked w ∧ ∀ c, c = w.event ∨ c = .abort → Blocking s (.deliver c) ∧
      ∃ u, step bytes windowSize s (.deliver c) = some u ∧ u.phase = .woken w
  complete : s.phase = .returned → s.connected = some 1 → (∀ k, (.chunk k, .abort) ∉ s.wakes) →
    s.chunks.flatten = bytes ∧ s.chunks.length = bytes.length ⌈/⌉ windowSize ∧
      s.result = some (bytes.length : Int)
  aborted : ∀ k, (.chunk k, .abort) ∈ s.wakes →
    s.chunks.length = k + 1 ∧ (s.phase = .returned → s.result = some 0)

/-- The variables of the loop in the operation of `w`. -/
def Loop (bytes : List α) (windowSize : Nat) (s : State α) : Wait → Prop
  | .connect => s.chunks.length = 0 ∧ s.sent = 0 ∧ s.len = bytes.length
  | .chunk k => s.chunks.length = k + 1 ∧ s.connected = some 1 ∧ s.sent = k * windowSize ∧
      s.sent + s.len = bytes.length ∧ 0 < s.len ∧ s.sendLen = min windowSize s.len

/-- No `Abort` has ended a wait. -/
def Unaborted (s : State α) : Prop := ∀ w, (w, .abort) ∉ s.wakes

def Place (bytes : List α) (windowSize : Nat) (s : State α) : Prop :=
  match s.phase with
  | .calling w => Loop bytes windowSize s w ∧ s.flag ≠ .blocked ∧ Unaborted s ∧
      w.event ∉ s.delivered ∧ w ∉ s.saves
  | .blocked w => Loop bytes windowSize s w ∧ s.flag = .blocked ∧ Unaborted s ∧
      w.event ∉ s.delivered ∧ w ∈ s.saves
  | .woken w => Loop bytes windowSize s w ∧
      (s.flag = .success ∧ Unaborted s ∧ w.event ∈ s.delivered ∨
        s.flag = .error ∧ (w, .abort) ∈ s.wakes ∧ ∀ w', (w', .abort) ∈ s.wakes → w' = w)
  | .returned => s.connected = some 0 ∧ (∀ k, (.chunk k, .abort) ∉ s.wakes) ∨
      (s.result = some 0 ∧ ∃ k, (.chunk k, .abort) ∈ s.wakes ∧
        ∀ k', (.chunk k', .abort) ∈ s.wakes → s.chunks.length = k' + 1) ∨
      (Unaborted s ∧ s.chunks.length = bytes.length ⌈/⌉ windowSize ∧
        s.result = some (BitVec.ofNat 32 bytes.length).toInt)

structure Inv (bytes : List α) (windowSize : Nat) (s : State α) : Prop where
  asserted : s.failed = false
  chunks : s.chunks = windows windowSize bytes s.chunks.length
  few : s.chunks.length ≤ bytes.length ⌈/⌉ windowSize
  previous : ∀ k, k + 1 < s.chunks.length → .disposed k ∈ s.delivered
  saved : ∀ k, .chunk k ∈ s.saves → k < s.chunks.length
  handed : ∀ k, .disposed k ∈ s.delivered → k < s.chunks.length
  place : Place bytes windowSize s

/-- The loop of `SendAndBlock` is entered with `n` windows handed over and disposed of. -/
structure Head (bytes : List α) (windowSize : Nat) (s : State α) : Prop where
  asserted : s.failed = false
  chunks : s.chunks = windows windowSize bytes s.chunks.length
  few : s.chunks.length ≤ bytes.length ⌈/⌉ windowSize
  disposed : ∀ k < s.chunks.length, .disposed k ∈ s.delivered
  saved : ∀ k, .chunk k ∈ s.saves → k < s.chunks.length
  handed : ∀ k, .disposed k ∈ s.delivered → k < s.chunks.length
  flag : s.flag = .success
  unaborted : Unaborted s
  connected : s.connected = some 1
  total : s.sent + s.len = bytes.length
  more : s.len ≠ 0 → s.sent = s.chunks.length * windowSize
  last : s.len = 0 → s.chunks.length = bytes.length ⌈/⌉ windowSize

namespace Inv

theorem init : Inv bytes windowSize (.init bytes) := by
  refine ⟨rfl, rfl, Nat.zero_le _, ?_, ?_, ?_, ⟨rfl, rfl, rfl⟩, ?_, ?_, ?_, ?_⟩
  · exact fun k hk => absurd hk (Nat.not_lt_zero _)
  · exact fun k hk => absurd hk List.not_mem_nil
  · exact fun k hk => absurd hk List.not_mem_nil
  · exact nofun
  · exact fun w hw => absurd hw List.not_mem_nil
  · exact List.not_mem_nil
  · exact List.not_mem_nil

/-- What `SendAndBlock` waits for is the disposal of the last chunk. -/
theorem own_event (h : Inv bytes windowSize s) (hl : Loop bytes windowSize s w)
    (hp : s.phase = .blocked w) (hd : Deliverable s c) (hg : Blocking s (.deliver c)) :
    c = w.event ∨ c = .abort := by
  cases c with
  | abort => exact .inr rfl
  | connected =>
    have hw : Phase.blocked w = .blocked .connect := hp.symm.trans hg
    cases hw
    exact .inl rfl
  | disposed k =>
    obtain ⟨hk, hnot⟩ := hd
    cases w with
    | connect =>
      rw [hl.1] at hk
      exact absurd hk (Nat.not_lt_zero k)
    | chunk j =>
      have hlen : s.chunks.length = j + 1 := hl.1
      have hlast : ¬ k + 1 < s.chunks.length := fun hlt => hnot (h.previous k hlt)
      obtain rfl : k = j := by omega
      exact .inl rfl

theorem loop (hw : 1 ≤ windowSize) (h : Head bytes windowSize s) :
    Inv bytes windowSize (State.loop bytes windowSize s) := by
  unfold State.loop
  by_cases hlen : s.len = 0
  · rw [if_pos hlen]
    have hsent : s.sent = bytes.length := by
      have := h.total
      omega
    refine ⟨h.asserted, h.chunks, h.few, fun k hk => h.disposed k (Nat.lt_of_succ_lt hk), h.saved,
      h.handed, .inr (.inr ⟨h.unaborted, h.last hlen, ?_⟩)⟩
    rw [hsent]
  · rw [if_neg hlen]
    have hsent := h.more hlen
    have hrest : (bytes.drop s.sent).length = s.len := by
      rw [List.length_drop, ← h.total, Nat.add_sub_cancel_left]
    have hmin : (if windowSize < s.len then windowSize else s.len) = min windowSize s.len := by
      split_ifs <;> omega
    have hwindow : (bytes.drop s.sent).take (min windowSize s.len) =
        window windowSize bytes s.chunks.length := by
      rw [window, ← hsent, ← hrest, ← List.take_eq_take_min]
    have hlt : s.chunks.length < bytes.length ⌈/⌉ windowSize := by
      rw [lt_ceilDiv_iff hw, ← hsent, ← h.total]
      exact Nat.lt_add_of_pos_right (Nat.pos_of_ne_zero hlen)
    rw [hmin]
    dsimp only
    rw [hwindow]
    have hsnoc : (s.chunks ++ [window windowSize bytes s.chunks.length]).length =
        s.chunks.length + 1 := by
      rw [List.length_append, List.length_singleton]
    refine ⟨h.asserted, ?_, hsnoc.trans_le hlt, ?_, ?_, ?_, ?_⟩
    · change s.chunks ++ _ = windows windowSize bytes (s.chunks ++ _).length
      rw [hsnoc, windows_succ, ← h.chunks]
    · exact fun k hk => h.disposed k (Nat.lt_of_succ_lt_succ (hk.trans_eq hsnoc))
    · exact fun k hk => (Nat.lt_succ_of_lt (h.saved k hk)).trans_eq hsnoc.symm
    · exact fun k hk => (Nat.lt_succ_of_lt (h.handed k hk)).trans_eq hsnoc.symm
    · refine ⟨⟨hsnoc, h.connected, hsent, h.total, Nat.pos_of_ne_zero hlen, rfl⟩, ?_, h.unaborted,
        ?_, ?_⟩
      · rw [h.flag]
        intro he
        cases he
      · exact fun hd => (h.handed _ hd).false
      · exact fun hs => (h.saved _ hs).false

theorem head_connect (h : Inv bytes windowSize s) (hl : Loop bytes windowSize s .connect)
    (hf : s.flag = .success) (hun : Unaborted s) :
    Head bytes windowSize { s with connected := some 1 } := by
  obtain ⟨hnil, hsent, hlen⟩ := hl
  refine ⟨h.asserted, h.chunks, h.few, ?_, h.saved, h.handed, hf, hun, rfl, ?_, ?_, ?_⟩
  · exact fun k hk => absurd (hk.trans_eq hnil) (Nat.not_lt_zero k)
  · change s.sent + s.len = _
    rw [hsent, hlen, Nat.zero_add]
  · intro _
    change s.sent = s.chunks.length * windowSize
    rw [hsent, hnil, Nat.zero_mul]
  · intro hzero
    change s.chunks.length = _
    rw [hnil, ← hlen, hzero, zero_ceilDiv]

/-- A chunk that is not the last one is a whole window. -/
theorem head_chunk (hw : 1 ≤ windowSize) (h : Inv bytes windowSize s) {k : Nat}
    (hl : Loop bytes windowSize s (.chunk k)) (hf : s.flag = .success) (hun : Unaborted s)
    (hd : .disposed k ∈ s.delivered) : Head bytes windowSize
      { s with sent := s.sent + s.sendLen, len := s.len - s.sendLen } := by
  obtain ⟨hk, hconn, hsent, htotal, hpos, hsend⟩ := hl
  refine ⟨h.asserted, h.chunks, h.few, ?_, h.saved, h.handed, hf, hun, hconn, ?_, ?_, ?_⟩
  · intro j hj
    by_cases hlast : j + 1 < s.chunks.length
    · exact h.previous j hlast
    · obtain rfl : j = k := by
        have hj : j < s.chunks.length := hj
        omega
      exact hd
  · change s.sent + s.sendLen + (s.len - s.sendLen) = _
    omega
  · intro hmore
    change s.sent + s.sendLen = s.chunks.length * windowSize
    have hmore : s.len - s.sendLen ≠ 0 := hmore
    have hfull : s.sendLen = windowSize := by omega
    rw [hsent, hfull, hk, Nat.succ_mul]
  · intro hzero
    change s.chunks.length = _
    have hzero : s.len - s.sendLen = 0 := hzero
    apply Nat.le_antisymm h.few
    rw [hk, ceilDiv_le_iff_le_mul hw, Nat.mul_comm, Nat.succ_mul]
    omega

theorem resume (hw : 1 ≤ windowSize) (h : Inv bytes windowSize s) (hp : s.phase = .woken w) :
    Inv bytes windowSize (resume bytes windowSize s w) := by
  have hplace := h.place
  rw [Place, hp] at hplace
  obtain ⟨hl, ⟨hf, hun, hd⟩ | ⟨hf, hab, huniq⟩⟩ := hplace
  · cases w with
    | connect =>
      rw [OutConnection.resume, if_pos hf]
      exact loop hw (h.head_connect hl hf hun)
    | chunk k =>
      rw [OutConnection.resume, if_pos hf]
      exact loop hw (h.head_chunk hw hl hf hun hd)
  · have hne : ¬ s.flag = .success := by
      rw [hf]
      exact nofun
    cases w with
    | connect =>
      rw [OutConnection.resume, if_neg hne]
      refine ⟨h.asserted, h.chunks, h.few, h.previous, h.saved, h.handed, .inl ⟨rfl, ?_⟩⟩
      exact fun k hk => by cases huniq _ hk
    | chunk k =>
      rw [OutConnection.resume, if_neg hne]
      refine ⟨h.asserted, h.chunks, h.few, h.previous, h.saved, h.handed,
        .inr (.inl ⟨rfl, k, hab, ?_⟩)⟩
      intro k' hk'
      cases huniq _ hk'
      exact hl.1

/-- What the stack calls while a context is saved wakes it. -/
theorem wakes (h : Inv bytes windowSize s) (hg : Blocking s (.deliver c)) (hd : Deliverable s c)
    (hp : s.phase = .blocked w) : Inv bytes windowSize { s with
      delivered := s.delivered ++ [c], flag := c.outcome
      phase := .woken w, wakes := s.wakes ++ [(w, c)] } := by
  have hplace := h.place
  rw [Place, hp] at hplace
  obtain ⟨hl, -, hun, hevent, hsaved⟩ := hplace
  refine ⟨h.asserted, h.chunks, h.few, fun k hk => List.mem_append_left _ (h.previous k hk),
    h.saved, handed_snoc h.handed hd, ?_, ?_⟩
  · cases w <;> exact hl
  · obtain rfl | rfl := h.own_event hl hp hd hg
    · refine .inl ⟨by cases w <;> rfl, ?_, List.mem_append_right _ List.mem_cons_self⟩
      intro w' hw'
      obtain hw' | hw' := List.mem_append.mp hw'
      · exact hun w' hw'
      · cases w <;> cases List.mem_singleton.mp hw'
    · refine .inr ⟨rfl, List.mem_append_right _ List.mem_cons_self, ?_⟩
      intro w' hw'
      obtain hw' | hw' := List.mem_append.mp hw'
      · exact absurd hw' (hun w')
      · cases List.mem_singleton.mp hw'
        rfl

/-- What it calls at any other time, an `Abort` or the disposal of a chunk that was blocked on,
changes nothing. -/
theorem ignored (h : Inv bytes windowSize s) (hg : Blocking s (.deliver c))
    (hd : Deliverable s c) (hf : s.flag ≠ .blocked) (hc : c ≠ .connected)
    (hret : s.phase ≠ .returned) :
    Inv bytes windowSize { s with delivered := s.delivered ++ [c] } := by
  have hplace := h.place
  refine ⟨h.asserted, h.chunks, h.few, fun k hk => List.mem_append_left _ (h.previous k hk),
    h.saved, handed_snoc h.handed hd, ?_⟩
  cases hphase : s.phase with
  | returned => exact absurd hphase hret
  | blocked w =>
    rw [Place, hphase] at hplace
    exact absurd hplace.2.1 hf
  | calling w =>
    rw [Place, hphase] at hplace
    obtain ⟨hl, hflag, hun, hevent, hsaved⟩ := hplace
    refine ⟨by cases w <;> exact hl, hflag, hun, fun hm => ?_, hsaved⟩
    obtain hm | hm := List.mem_append.mp hm
    · exact hevent hm
    · cases w with
      | connect => exact hc (List.mem_singleton.mp hm).symm
      | chunk k =>
        rw [← List.mem_singleton.mp hm] at hg
        exact hsaved hg
  | woken w =>
    rw [Place, hphase] at hplace
    obtain ⟨hl, ⟨hs, hun, hevent⟩ | herror⟩ := hplace
    · exact ⟨by cases w <;> exact hl, .inl ⟨hs, hun, List.mem_append_left _ hevent⟩⟩
    · exact ⟨by cases w <;> exact hl, .inr herror⟩

theorem block (h : Inv bytes windowSize s) (hp : s.phase = .calling w) :
    Inv bytes windowSize { s with
      flag := .blocked, phase := .blocked w, saves := s.saves ++ [w] } := by
  have hplace := h.place
  rw [Place, hp] at hplace
  obtain ⟨hl, -, hun, hevent, hsaved⟩ := hplace
  refine ⟨h.asserted, h.chunks, h.few, h.previous, ?_, h.handed, by cases w <;> exact hl, rfl,
    hun, hevent, List.mem_append_right _ List.mem_cons_self⟩
  intro k hk
  obtain hk | hk := List.mem_append.mp hk
  · exact h.saved k hk
  · cases List.mem_singleton.mp hk
    exact (Nat.lt_succ_self k).trans_eq hl.1.symm

/-- Nobody is called back in the wrong state. -/
theorem flag_blocked (h : Inv bytes windowSize s) (hf : s.flag = .blocked)
    (hret : s.phase ≠ .returned) : ∃ w, s.phase = .blocked w := by
  have hplace := h.place
  cases hp : s.phase with
  | blocked w => exact ⟨w, rfl⟩
  | returned => exact absurd hp hret
  | calling w =>
    rw [Place, hp] at hplace
    exact absurd hf hplace.2.1
  | woken w =>
    rw [Place, hp] at hplace
    obtain ⟨-, ⟨hs, -⟩ | ⟨he, -⟩⟩ := hplace
    · cases hf.symm.trans hs
    · cases hf.symm.trans he

theorem step (hw : 1 ≤ windowSize) (h : Inv bytes windowSize s) (hg : Blocking s e)
    (hs : Step bytes windowSize s e t) : Inv bytes windowSize t := by
  cases hs with
  | wakes c w hd hf hp => exact h.wakes hg hd hp
  | stray c hf hp hret =>
    obtain ⟨w, hblocked⟩ := h.flag_blocked hf hret
    exact absurd hblocked (hp w)
  | ignored c hf hc hret hd => exact h.ignored hg hd hf hc hret
  | assertFails hf hret =>
    have hplace := h.place
    rw [Place, show s.phase = .blocked .connect from hg] at hplace
    exact absurd hplace.2.1 hf
  | block w hp => exact h.block hp
  | resume w hp => exact h.resume hw hp

theorem step_eq (h : Inv bytes windowSize s) (e : Event) :
    OutConnection.step bytes windowSize s e = handle bytes windowSize s e := by
  rw [OutConnection.step, h.asserted, if_neg Bool.false_ne_true]

/-- A wait ends with its event, which is still to come, as with an `Abort`. -/
theorem awaited (h : Inv bytes windowSize s) (hp : s.phase = .blocked w)
    (hc : c = w.event ∨ c = .abort) : Blocking s (.deliver c) ∧
      ∃ u, OutConnection.step bytes windowSize s (.deliver c) = some u ∧ u.phase = .woken w := by
  have hplace := h.place
  rw [Place, hp] at hplace
  obtain ⟨hl, hflag, -, hevent, hsaved⟩ := hplace
  have hready : Blocking s (.deliver c) ∧ Deliverable s c := by
    obtain rfl | rfl := hc
    · cases w with
      | connect => exact ⟨hp, hevent⟩
      | chunk k => exact ⟨hsaved, (Nat.lt_succ_self k).trans_eq hl.1.symm, hevent⟩
    · exact ⟨trivial, trivial⟩
  have hret : s.phase ≠ .returned := by
    rw [hp]
    exact nofun
  refine ⟨hready.1, callback { s with delivered := s.delivered ++ [c] } c, ?_, ?_⟩
  · rw [h.step_eq, handle, if_pos ⟨hret, hready.2⟩]
  · rw [callback_blocked { s with delivered := s.delivered ++ [c] } c hflag, State.activate, hp]

/-- A thread that has not returned can go on, or it waits for what is still to come. -/
theorem waits (h : Inv bytes windowSize s) (hret : s.phase ≠ .returned) :
    (∃ e u, own e = true ∧ OutConnection.step bytes windowSize s e = some u) ∨
      ∃ w, s.phase = .blocked w ∧ ∀ c, c = w.event ∨ c = .abort → Blocking s (.deliver c) ∧
        ∃ u, OutConnection.step bytes windowSize s (.deliver c) = some u ∧ u.phase = .woken w := by
  cases hp : s.phase with
  | returned => exact absurd hp hret
  | calling w =>
    apply Or.inl
    refine ⟨.block,
      { s with flag := .blocked, phase := .blocked w, saves := s.saves ++ [w] }, rfl, ?_⟩
    rw [h.step_eq, handle, hp]
  | woken w =>
    apply Or.inl
    refine ⟨.resume, OutConnection.resume bytes windowSize s w, rfl, ?_⟩
    rw [h.step_eq, handle, hp]
  | blocked w => exact .inr ⟨w, rfl, fun c hc => h.awaited hp hc⟩

theorem aborted (h : Inv bytes windowSize s) {k : Nat} (hk : (.chunk k, .abort) ∈ s.wakes) :
    s.chunks.length = k + 1 ∧ (s.phase = .returned → s.result = some 0) := by
  have hplace := h.place
  cases hp : s.phase with
  | calling w | blocked w =>
    rw [Place, hp] at hplace
    exact absurd hk (hplace.2.2.1 _)
  | woken w =>
    rw [Place, hp] at hplace
    obtain ⟨hl, ⟨-, hun, -⟩ | ⟨-, -, huniq⟩⟩ := hplace
    · exact absurd hk (hun _)
    · cases huniq _ hk
      exact ⟨hl.1, nofun⟩
  | returned =>
    rw [Place, hp] at hplace
    obtain ⟨-, hnone⟩ | ⟨hres, -, -, hlen⟩ | ⟨hun, -⟩ := hplace
    · exact absurd hk (hnone k)
    · exact ⟨hlen k hk, fun _ => hres⟩
    · exact absurd hk (hun _)

theorem complete (hw : 1 ≤ windowSize) (h : Inv bytes windowSize s) (hp : s.phase = .returned)
    (hconn : s.connected = some 1) (hun : ∀ k, (.chunk k, .abort) ∉ s.wakes) :
    s.chunks.flatten = bytes ∧ s.chunks.length = bytes.length ⌈/⌉ windowSize ∧
      s.result = some (BitVec.ofNat 32 bytes.length).toInt := by
  have hplace := h.place
  rw [Place, hp] at hplace
  obtain ⟨hzero, -⟩ | ⟨-, k, hk, -⟩ | ⟨-, hlen, hres⟩ := hplace
  · cases hconn.symm.trans hzero
  · exact absurd hk (hun k)
  · refine ⟨?_, hlen, hres⟩
    rw [h.chunks, hlen, flatten_windows_ceilDiv hw]

theorem partition (hw : 1 ≤ windowSize) (hlen : bytes.length < 2 ^ 31)
    (h : Inv bytes windowSize s) : Partition bytes windowSize s := by
  refine ⟨fun c hc => ?_, ?_, fun k hk hnot => ?_, h.waits, fun hp hconn hun => ?_,
    fun k hk => h.aborted hk⟩
  · rw [h.chunks] at hc
    exact mem_windows hw h.few hc
  · rw [h.chunks]
    exact isPrefix_flatten_windows
  · by_contra hne
    exact hnot (h.previous k (by omega))
  · obtain ⟨hall, hcount, hres⟩ := h.complete hw hp hconn hun
    refine ⟨hall, hcount, hres.trans (congrArg some ?_)⟩
    rw [BitVec.toInt_eq_toNat_of_lt, BitVec.toNat_ofNat, Nat.mod_eq_of_lt (by omega)]
    rw [BitVec.toNat_ofNat, Nat.mod_eq_of_lt (by omega)]
    omega

/-- The steps that the thread has left. -/
def left (bytes : List α) (windowSize : Nat) (s : State α) : Nat :=
  2 * (bytes.length ⌈/⌉ windowSize - s.chunks.length) +
    match s.phase with
    | .calling _ => 2
    | .blocked _ | .woken _ => 1
    | .returned => 0

theorem loop_cases (s : State α) : (State.loop bytes windowSize s).phase = .returned ∧
      (State.loop bytes windowSize s).chunks.length = s.chunks.length ∨
    ∃ w, (State.loop bytes windowSize s).phase = .calling w ∧
      (State.loop bytes windowSize s).chunks.length = s.chunks.length + 1 := by
  by_cases hlen : s.len = 0
  · rw [State.loop, if_pos hlen]
    exact .inl ⟨rfl, rfl⟩
  · rw [State.loop, if_neg hlen]
    exact .inr ⟨_, rfl, List.length_append⟩

/-- When the thread goes on, it returns or hands over another chunk. -/
theorem resume_cases (s : State α) (w : Wait) :
    (OutConnection.resume bytes windowSize s w).phase = .returned ∧
      (OutConnection.resume bytes windowSize s w).chunks.length = s.chunks.length ∨
    ∃ w', (OutConnection.resume bytes windowSize s w).phase = .calling w' ∧
      (OutConnection.resume bytes windowSize s w).chunks.length = s.chunks.length + 1 := by
  cases w with
  | connect | chunk k =>
    rw [OutConnection.resume]
    split_ifs
    · exact loop_cases _
    · exact .inl ⟨rfl, rfl⟩

theorem left_step (ht : Inv bytes windowSize t) (hs : Step bytes windowSize s e t) :
    left bytes windowSize t + (if own e then 1 else 0) ≤ left bytes windowSize s := by
  cases hs with
  | wakes c w hd hf hp =>
    rw [left, left, hp]
    exact le_rfl
  | stray | ignored | assertFails => exact le_rfl
  | block w hp =>
    rw [left, left, hp]
    exact le_rfl
  | resume w hp =>
    have hfew := ht.few
    rw [left, left, hp]
    obtain ⟨hphase, hlen⟩ | ⟨w', hphase, hlen⟩ := resume_cases s w
    · rw [hphase, hlen]
      exact le_rfl
    · rw [hlen] at hfew
      rw [hphase, hlen]
      change 2 * (bytes.length ⌈/⌉ windowSize - (s.chunks.length + 1)) + 2 + 1 ≤
        2 * (bytes.length ⌈/⌉ windowSize - s.chunks.length) + 1
      omega

end Inv

/-- `SendAndBlock` partitions the bytes exactly, for any length and window, and ends after a
bounded number of steps of its own. -/
theorem windowed_send (hw : 1 ≤ windowSize) (hlen : bytes.length < 2 ^ 31) {es : List Event}
    (h : run (guarded (step bytes windowSize) Blocking) (.init bytes) es = some t) :
    Partition bytes windowSize t ∧
      es.countP own ≤ 2 * (bytes.length ⌈/⌉ windowSize) + 2 := by
  have hstep : ∀ s e t, Inv bytes windowSize s →
      guarded (step bytes windowSize) Blocking s e = some t →
      Inv bytes windowSize t ∧
        Inv.left bytes windowSize t + (if own e then 1 else 0) ≤ Inv.left bytes windowSize s := by
    intro s e t hi hs
    simp only [guarded, Option.ite_none_right_eq_some] at hs
    obtain ⟨hg, hs⟩ := hs
    have ht := hi.step hw hg (step_cases hs)
    exact ⟨ht, ht.left_step (step_cases hs)⟩
  obtain ⟨hinv, hcount⟩ := countP_le_of_run (Inv.left bytes windowSize) own hstep h Inv.init
  have hinit : Inv.left bytes windowSize (.init bytes) =
      2 * (bytes.length ⌈/⌉ windowSize) + 2 := rfl
  exact ⟨hinv.partition hw hlen, by omega⟩

def hello : List Nat := [1, 2, 3]

/-- Two chunks are sent, with an `Abort` in between that nobody waits for. -/
def twoChunks : List Event :=
  [.block, .deliver .connected, .resume, .deliver .abort, .block, .deliver (.disposed 0), .resume,
    .block, .deliver (.disposed 1), .resume]

theorem twoChunks_runs :
    (run (guarded (step hello 2) Blocking) (.init hello) twoChunks).isSome := by decide

theorem twoChunks_sent :
    let t := (run (guarded (step hello 2) Blocking) (.init hello) twoChunks).get twoChunks_runs
    (Partition hello 2 t ∧ twoChunks.countP own ≤ 2 * (hello.length ⌈/⌉ 2) + 2) ∧
      t.chunks = [[1, 2], [3]] ∧ t.result = some 3 :=
  ⟨windowed_send (by decide) (by decide) (Option.some_get twoChunks_runs).symm, by decide,
    by decide⟩

end EbbrtContrib.WindowedSend
