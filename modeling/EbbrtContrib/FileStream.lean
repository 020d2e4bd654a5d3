import Mathlib.Tactic.SplitIfs
import EbbrtContrib.CString
import EbbrtContrib.InputStream

namespace EbbrtContrib.FileStream

open CString InputStream Runs

/-- A regular file, whose descriptor is at its start. -/
structure File where
  bytes : List Byte
  length_lt : bytes.length < 2 ^ 64

/-- `len_` is the length of the file. -/
def File.source (f : File) : Source := ⟨false, BitVec.ofNat 64 f.bytes.length⟩

/-- The stream with the offset of its descriptor, `buffer_`, and the bytes of the chunks that
its consumer was called with. -/
structure State where
  stream : InputStream.State
  offset : Nat
  buffer : List Byte
  delivered : List (List Byte)
  deriving DecidableEq, Repr

def State.init (memory : List Byte) : State := ⟨.init, 0, memory, []⟩

/-- What `read` leaves in `buffer_`. -/
def fill (buffer data : List Byte) : List Byte := data ++ buffer.drop data.length

/-- `read` is the spawned read, which gets `n` bytes, and `dispose` the disposal of a live
chunk, which may come right behind the read, from inside the call of the consumer. -/
inductive Event
  | start
  | read (i n : Nat)
  | dispose (i : Nat)
  deriving DecidableEq, Repr

def step (f : File) (s : State) : Event → Option State
  | .start => (InputStream.step f.source s.stream .start).map fun t => { s with stream := t }
  | .read i n =>
    if 1 ≤ n ∧ n ≤ kBufferSize ∧ s.offset + n ≤ f.bytes.length then
      let buffer := fill s.buffer ((f.bytes.drop s.offset).take n)
      (InputStream.step f.source s.stream (.run i (BitVec.ofNat 64 n))).map fun t =>
        ⟨t, s.offset + n, buffer, s.delivered ++ [buffer.take n]⟩
    else none
  | .dispose i =>
    (InputStream.step f.source s.stream (.dispose i)).map fun t => { s with stream := t }

/-- What the stream has delivered is right: the chunks are the file up to some byte, each was
passed with the number of bytes behind it and stays as it was while it lives, and the only
other call is one of the end, after the whole file and with nothing under way. -/
structure Exact (f : File) (s : State) : Prop where
  delivered : s.delivered.flatten <+: f.bytes
  chunks : ∀ i (h : i < s.delivered.length), ∃ c, s.stream.calls[i]? = some c ∧
    c.data = some (BitVec.ofNat 64 s.delivered[i].length) ∧
    (s.delivered.take (i + 1)).flatten.length + c.avail.toNat = f.bytes.length
  live : ∀ c ∈ s.stream.chunks, s.delivered.getLast? = some (s.buffer.take c.size.toNat)
  count : s.stream.count.toNat ≤ f.bytes.length
  ends : s.stream.calls.length ≤ s.delivered.length + 1
  ended : ∀ c, s.stream.calls[s.delivered.length]? = some c → c.data = none ∧
    s.delivered.flatten = f.bytes ∧ s.stream.chunks = [] ∧ s.stream.spawned = []

variable {f : File} {s t : State}

/-- The calls for the chunks, the first of which starts at offset `n`. -/
def callsOf (length : Nat) : Nat → List (List Byte) → List Call
  | _, [] => []
  | n, b :: bs =>
    ⟨1, 1, some (BitVec.ofNat 64 b.length), BitVec.ofNat 64 (length - (n + b.length)), true⟩ ::
      callsOf length (n + b.length) bs

def endCall : Call := ⟨1, 1, none, 0, true⟩

/-- What has been delivered is the file up to the offset. -/
structure Sent (f : File) (s : State) (ends : List Call) : Prop where
  read : s.delivered.flatten = f.bytes.take s.offset
  offset_le : s.offset ≤ f.bytes.length
  calls : s.stream.calls = callsOf f.bytes.length 0 s.delivered ++ ends

/-- A started stream of one session has one read or one chunk under way until its end. -/
inductive Stage (f : File) (s : State) : Prop
  | fresh (sent : Sent f s []) (stream : s.stream = .init) (offset : s.offset = 0)
  | reading (sent : Sent f s []) (count : s.stream.count.toNat = s.offset)
      (stream : s.stream = ⟨true, s.stream.count, 1, [], [1], [], s.stream.calls⟩)
  | live (n : Size) (sent : Sent f s []) (count : s.stream.count.toNat + n.toNat = s.offset)
      (stream : s.stream = ⟨true, s.stream.count, 1, [], [], [⟨1, n⟩], s.stream.calls⟩)
      (last : s.delivered.getLast? = some (s.buffer.take n.toNat))
  | done (ends : List Call) (sent : Sent f s ends) (count : s.stream.count.toNat = s.offset)
      (stream : s.stream = ⟨true, s.stream.count, 1, [], [], [], s.stream.calls⟩)
      (offset : s.offset = f.bytes.length) (once : ends = [] ∨ ends = [endCall])

theorem fill_take (buffer data : List Byte) : (fill buffer data).take data.length = data :=
  List.take_left

theorem toNat_ofNat {n : Nat} (h : n < 2 ^ 64) : (BitVec.ofNat 64 n : Size).toNat = n := by
  rw [BitVec.toNat_ofNat, Nat.mod_eq_of_lt h]

theorem callsOf_snoc (length n : Nat) (bs : List (List Byte)) (b : List Byte) :
    callsOf length n (bs ++ [b]) = callsOf length n bs ++
      [⟨1, 1, some (BitVec.ofNat 64 b.length),
        BitVec.ofNat 64 (length - (n + bs.flatten.length + b.length)), true⟩] := by
  induction bs generalizing n with
  | nil => rfl
  | cons a bs ih =>
    rw [List.cons_append, callsOf, ih, callsOf, List.cons_append, List.flatten_cons,
      List.length_append, ← Nat.add_assoc]

theorem length_callsOf (length n : Nat) (bs : List (List Byte)) :
    (callsOf length n bs).length = bs.length := by
  induction bs generalizing n with
  | nil => rfl
  | cons b bs ih => exact congrArg Nat.succ (ih _)

theorem getElem?_callsOf (length n : Nat) (bs : List (List Byte)) (i : Nat) (h : i < bs.length) :
    (callsOf length n bs)[i]? = some ⟨1, 1, some (BitVec.ofNat 64 bs[i].length),
      BitVec.ofNat 64 (length - (n + (bs.take (i + 1)).flatten.length)), true⟩ := by
  induction bs generalizing n i with
  | nil => exact absurd h (Nat.not_lt_zero i)
  | cons b bs ih =>
    cases i with
    | zero => simp [callsOf]
    | succ i =>
      rw [callsOf, List.getElem?_cons_succ, ih _ _ (Nat.lt_of_succ_lt_succ h)]
      simp [Nat.add_assoc]

namespace Stage

theorem init (f : File) (memory : List Byte) : Stage f (.init memory) :=
  .fresh ⟨by simp [State.init], Nat.zero_le _, rfl⟩ rfl rfl

/-- The next read is spawned when the file has not been read to its end. -/
theorem asyncReadSome {stream : InputStream.State}
    (hs : stream = ⟨true, stream.count, 1, [], [], [], stream.calls⟩) (sent : Sent f s [])
    (hcalls : stream.calls = s.stream.calls) (hcount : stream.count.toNat = s.offset) :
    Stage f { s with stream := InputStream.asyncReadSome f.source stream } := by
  have hlen := toNat_ofNat f.length_lt
  have hsent : ∀ u : InputStream.State, u.calls = stream.calls → Sent f { s with stream := u } [] :=
    fun u hu => ⟨sent.read, sent.offset_le, (hu.trans hcalls).trans sent.calls⟩
  rw [hs, InputStream.asyncReadSome, if_neg (by simp), if_neg (by simp [File.source])]
  split_ifs with hlt
  · exact .reading (hsent _ rfl) hcount rfl
  · refine .done [] (hsent _ rfl) hcount rfl ?_ (.inl rfl)
    rw [BitVec.lt_def, File.source, hlen, hcount] at hlt
    exact Nat.le_antisymm sent.offset_le (Nat.le_of_not_lt hlt)

theorem start (h : Stage f s) :
    Stage f { s with stream := asyncReadStart f.source s.stream } := by
  cases h with
  | fresh sent stream offset =>
    have hstart : asyncReadStart f.source s.stream =
        InputStream.asyncReadSome f.source ⟨true, 0, 1, [], [], [], []⟩ := by
      rw [stream]
      rfl
    rw [hstart]
    exact asyncReadSome rfl sent (by rw [stream]; rfl) (by rw [offset]; rfl)
  | reading sent count stream =>
    rw [asyncReadStart, if_pos (by rw [stream])]
    exact .reading sent count stream
  | live n sent count stream last =>
    rw [asyncReadStart, if_pos (by rw [stream])]
    exact .live n sent count stream last
  | done ends sent count stream offset once =>
    rw [asyncReadStart, if_pos (by rw [stream])]
    exact .done ends sent count stream offset once

theorem read (h : Stage f s) {i n session : Nat} (hpos : 1 ≤ n)
    (hle : s.offset + n ≤ f.bytes.length) (hi : s.stream.spawned[i]? = some session) :
    Stage f ⟨readFile f.source { s.stream with spawned := s.stream.spawned.eraseIdx i } session
        (BitVec.ofNat 64 n), s.offset + n, fill s.buffer ((f.bytes.drop s.offset).take n),
      s.delivered ++ [(fill s.buffer ((f.bytes.drop s.offset).take n)).take n]⟩ := by
  have hlt := f.length_lt
  have hnat : (BitVec.ofNat 64 n : Size).toNat = n := toNat_ofNat (by omega)
  have hdata : ((f.bytes.drop s.offset).take n).length = n := by
    rw [List.length_take, List.length_drop]
    omega
  have hview : (fill s.buffer ((f.bytes.drop s.offset).take n)).take n =
      (f.bytes.drop s.offset).take n := by
    have htake := fill_take s.buffer ((f.bytes.drop s.offset).take n)
    rwa [hdata] at htake
  cases h with
  | fresh sent stream offset =>
    rw [stream] at hi
    cases hi
  | live n sent count stream last =>
    rw [stream] at hi
    cases hi
  | done ends sent count stream offset once =>
    rw [stream] at hi
    cases hi
  | reading sent count stream =>
    rw [stream] at hi
    obtain ⟨rfl, rfl⟩ : i = 0 ∧ session = 1 := by
      cases i with
      | zero => exact ⟨rfl, (Option.some.inj hi).symm⟩
      | succ i => cases hi
    have hne : (BitVec.ofNat 64 n : Size) ≠ 0 := fun hz => by
      rw [hz] at hnat
      exact absurd hnat (Nat.ne_of_lt hpos)
    have hrun : readFile f.source { s.stream with spawned := s.stream.spawned.eraseIdx 0 } 1
        (BitVec.ofNat 64 n) = ⟨true, s.stream.count, 1, [], [], [⟨1, BitVec.ofNat 64 n⟩],
          s.stream.calls ++ [⟨1, 1, some (BitVec.ofNat 64 n),
            f.source.len - (s.stream.count + BitVec.ofNat 64 n), true⟩]⟩ := by
      rw [stream, readFile, if_neg hne]
      rfl
    have havail : f.source.len - (s.stream.count + BitVec.ofNat 64 n) =
        BitVec.ofNat 64 (f.bytes.length - (s.offset + n)) := by
      have hlen : f.source.len.toNat = f.bytes.length := toNat_ofNat hlt
      apply BitVec.eq_of_toNat_eq
      rw [toNat_ofNat (by omega), BitVec.toNat_sub, BitVec.toNat_add, hlen, count, hnat]
      omega
    rw [hrun, havail, hview]
    have hflat : (s.delivered ++ [(f.bytes.drop s.offset).take n]).flatten =
        f.bytes.take (s.offset + n) := by
      rw [List.flatten_append, sent.read, List.flatten_singleton, ← List.take_add]
    refine .live (BitVec.ofNat 64 n) ⟨hflat, hle, ?_⟩ ?_ rfl ?_
    · have hflen : s.delivered.flatten.length = s.offset := by
        rw [sent.read, List.length_take, Nat.min_eq_left sent.offset_le]
      rw [callsOf_snoc, hdata, Nat.zero_add, hflen, List.append_nil, sent.calls, List.append_nil]
    · rw [hnat]
      exact congrArg (· + n) count
    · rw [List.getLast?_append_of_ne_nil _ (List.cons_ne_nil _ _), hnat, hview]
      rfl

theorem dispose (h : Stage f s) {i : Nat} {c : InputStream.Chunk}
    (hi : s.stream.chunks[i]? = some c) : Stage f { s with
      stream := disposal f.source { s.stream with chunks := s.stream.chunks.eraseIdx i } c } := by
  cases h with
  | fresh sent stream offset =>
    rw [stream] at hi
    cases hi
  | reading sent count stream =>
    rw [stream] at hi
    cases hi
  | done ends sent count stream offset once =>
    rw [stream] at hi
    cases hi
  | live n sent count stream last =>
    rw [stream] at hi
    obtain ⟨rfl, rfl⟩ : i = 0 ∧ c = ⟨1, n⟩ := by
      cases i with
      | zero => exact ⟨rfl, (Option.some.inj hi).symm⟩
      | succ i => cases hi
    have hlt := f.length_lt
    have hlen : f.source.len.toNat = f.bytes.length := toNat_ofNat hlt
    have hle := sent.offset_le
    have hsum : (s.stream.count + n).toNat = s.offset := by
      rw [BitVec.toNat_add, count]
      omega
    obtain ⟨he, -⟩ | ⟨he, -, heq⟩ := disposal_cases f.source
      { s.stream with chunks := s.stream.chunks.eraseIdx 0 } ⟨1, n⟩
    · rw [he]
      exact asyncReadSome (by rw [stream]; rfl) sent rfl hsum
    · rw [he]
      have hend : s.offset = f.bytes.length := by
        rw [← hsum, ← hlen]
        exact congrArg BitVec.toNat heq
      refine .done [endCall] ⟨sent.read, sent.offset_le, ?_⟩ hsum ?_ hend (.inr rfl)
      · rw [stream]
        exact congrArg (· ++ [endCall]) (sent.calls.trans (List.append_nil _))
      · rw [stream]
        rfl

theorem step (h : Stage f s) {e : Event} (hs : FileStream.step f s e = some t) : Stage f t := by
  cases e with
  | start =>
    cases hs
    exact h.start
  | read i n =>
    simp only [FileStream.step, Option.ite_none_right_eq_some, Option.map_eq_some_iff] at hs
    obtain ⟨⟨hpos, -, hle⟩, u, hu, rfl⟩ := hs
    cases step_cases hu with
    | run i session n hi hfits => exact h.read hpos hle hi
  | dispose i =>
    simp only [FileStream.step, Option.map_eq_some_iff] at hs
    obtain ⟨u, hu, rfl⟩ := hs
    cases step_cases hu with
    | dispose i c hi => exact h.dispose hi

theorem count_eq (h : Stage f s) : s.stream.count.toNat ≤ s.offset := by
  cases h with
  | fresh sent stream offset =>
    rw [stream]
    exact Nat.zero_le _
  | reading sent count stream => exact count.le
  | live n sent count stream last => exact (Nat.le_add_right _ _).trans_eq count
  | done ends sent count stream offset once => exact count.le

theorem live_chunk (h : Stage f s) {c : InputStream.Chunk} (hc : c ∈ s.stream.chunks) :
    s.delivered.getLast? = some (s.buffer.take c.size.toNat) := by
  cases h with
  | live n sent count stream last =>
    rw [stream, List.mem_singleton] at hc
    rwa [hc]
  | fresh sent stream | reading sent count stream | done ends sent count stream =>
    rw [stream] at hc
    cases hc

/-- Either nothing was called but for the chunks, or the end as well. -/
theorem sent (h : Stage f s) : Sent f s [] ∨ Sent f s [endCall] ∧
    s.offset = f.bytes.length ∧ s.stream.chunks = [] ∧ s.stream.spawned = [] := by
  cases h with
  | fresh sent | reading sent | live n sent => exact .inl sent
  | done ends sent count stream offset once =>
    obtain rfl | rfl := once
    · exact .inl sent
    · exact .inr ⟨sent, offset, by rw [stream], by rw [stream]⟩

end Stage

theorem Sent.chunks {ends : List Call} (h : Sent f s ends) (i : Nat) (hi : i < s.delivered.length) :
    ∃ c, s.stream.calls[i]? = some c ∧
      c.data = some (BitVec.ofNat 64 s.delivered[i].length) ∧
      (s.delivered.take (i + 1)).flatten.length + c.avail.toNat = f.bytes.length := by
  have hlt := f.length_lt
  have hle : (s.delivered.take (i + 1)).flatten.length ≤ f.bytes.length := by
    have hsplit : (s.delivered.take (i + 1)).flatten ++ (s.delivered.drop (i + 1)).flatten =
        f.bytes.take s.offset := by
      rw [← List.flatten_append, List.take_append_drop, h.read]
    have hflat := congrArg List.length hsplit
    rw [List.length_append, List.length_take] at hflat
    omega
  have hcall : s.stream.calls[i]? = (callsOf f.bytes.length 0 s.delivered)[i]? := by
    rw [h.calls, List.getElem?_append_left (by rwa [length_callsOf])]
  refine ⟨_, hcall.trans (getElem?_callsOf _ _ _ i hi), rfl, ?_⟩
  rw [Nat.zero_add, toNat_ofNat (by omega)]
  omega

theorem Stage.exact (h : Stage f s) : Exact f s := by
  have hread : ∀ {ends}, Sent f s ends → s.delivered.flatten <+: f.bytes := fun hs => by
    rw [hs.read]
    exact List.take_prefix _ _
  have hcount : ∀ {ends}, Sent f s ends → s.stream.count.toNat ≤ f.bytes.length := fun hs =>
    h.count_eq.trans hs.offset_le
  have hlen : ∀ {ends}, Sent f s ends →
      s.stream.calls.length = s.delivered.length + ends.length := fun hs => by
    rw [hs.calls, List.length_append, length_callsOf]
  obtain hs | ⟨hs, hend, hchunks, hspawned⟩ := h.sent
  · refine ⟨hread hs, hs.chunks, fun _ => h.live_chunk, hcount hs, ?_, fun c hc => ?_⟩
    · exact (hlen hs).le.trans (Nat.le_succ _)
    · have hnone : s.stream.calls[s.delivered.length]? = none :=
        List.getElem?_eq_none (hlen hs).le
      cases hnone.symm.trans hc
  · refine ⟨hread hs, hs.chunks, fun _ => h.live_chunk, hcount hs, (hlen hs).le, fun c hc => ?_⟩
    rw [hs.calls, List.getElem?_append_right (length_callsOf _ _ _).le, length_callsOf,
      Nat.sub_self] at hc
    obtain rfl := Option.some.inj hc
    refine ⟨rfl, ?_, hchunks, hspawned⟩
    rw [hs.read, hend, List.take_length]

/-- In every run of one session over a file that reads as it is, the stream delivers exactly
the file. -/
theorem exact_of_reaches {memory : List Byte} (h : Reachable (step f) (.init memory) s) :
    Exact f s := by
  have hstage : Stage f s := h.invariant (Stage.init f memory) fun _ _ _ hi _ hs => hi.step hs
  exact hstage.exact

/-- A file of five bytes, read in two pieces. -/
def fiveBytes : File := ⟨[1, 2, 3, 4, 5], by decide⟩

def twoReads : List Event := [.start, .read 0 3, .dispose 0, .read 0 2, .dispose 0]

theorem twoReads_runs : (Runs.run (step fiveBytes) (.init []) twoReads).isSome := by decide

theorem twoReads_exact :
    Exact fiveBytes ((Runs.run (step fiveBytes) (.init []) twoReads).get twoReads_runs) ∧
      ((Runs.run (step fiveBytes) (.init []) twoReads).get twoReads_runs).delivered =
        [[1, 2, 3], [4, 5]] :=
  ⟨exact_of_reaches (reachable_of_run (Option.some_get twoReads_runs).symm), by decide⟩

end EbbrtContrib.FileStream
