import EbbrtContrib.InputTests

namespace EbbrtContrib.InputTestsCopy

open CString InputStream FileStream InputTests Runs

variable {write : Write} {input : Input} {s t : InputTests.State} {stream : InputStream.State}

theorem follow_quiet (h : stream.calls = s.stream.calls) :
    s.follow write input stream = { s with stream := stream } := by
  rw [State.follow, h, List.drop_length, List.foldl_nil]

theorem follow_call {call : Call} (h : stream.calls = s.stream.calls ++ [call]) :
    s.follow write input stream = { s with stream := stream }.consume write input call := by
  rw [State.follow, h, List.drop_left, List.foldl_cons, List.foldl_nil]

/-- The context is activated while it is saved. -/
theorem finish_saved (hp : s.place = .saved) (hmisused : s.misused = false) :
    s.finish input = { s with
      stream := asyncReadStop input.source s.stream, place := .activated, misused := false } := by
  rw [State.finish, if_pos hp, hmisused, hp]
  rfl

/-- At the end of the stream the test ends. -/
theorem follow_end {call : Call} (h : stream.calls = s.stream.calls ++ [call])
    (hcall : call.data = none) (hp : s.place = .saved) (hmisused : s.misused = false) :
    s.follow write input stream = { s with
      stream := asyncReadStop input.source stream
      place := .activated
      eofs := s.eofs + 1
      misused := false } := by
  rw [follow_call h, State.consume, hcall]
  exact finish_saved (s := { s with stream := stream, eofs := s.eofs + 1 }) hp hmisused

/-- The bytes of a chunk are written; on a device, a dot at their start ends the test. -/
theorem follow_chunk (hw : write.Whole) {call : Call} {data : List Byte}
    (h : stream.calls = s.stream.calls ++ [call])
    (hcall : call.data = some (BitVec.ofNat 64 data.length)) (hlen : data.length ≤ kBufferSize)
    (hbuffer : s.buffer.take data.length = data) (hp : s.place = .saved)
    (hmisused : s.misused = false) :
    s.follow write input stream =
      if input.isFile = false ∧ data.head? = some dot then { s with
        stream := asyncReadStop input.source stream
        place := .activated
        console := s.console ++ data
        misused := false }
      else { s with stream := stream, console := s.console ++ data } := by
  have hnat : (BitVec.ofNat 64 data.length : Size).toNat = data.length :=
    toNat_ofNat (Nat.lt_of_le_of_lt hlen (by decide))
  rw [follow_call h, State.consume, hcall]
  dsimp only
  rw [hnat, hbuffer, dump_one hw]
  by_cases hdot : input.isFile = false ∧ data.head? = some dot
  · rw [if_pos hdot, if_pos hdot]
    exact finish_saved (s := { s with stream := stream, console := s.console ++ data }) hp hmisused
  · rw [if_neg hdot, if_neg hdot]

theorem release_none (h : s.stream.chunks = []) : s.release write input = s := by
  rw [State.release, InputStream.step, h]
  rfl

theorem release_chunk {c : Chunk} (h : s.stream.chunks = [c])
    (hstream : disposal input.source { s.stream with chunks := [] } c = stream) :
    s.release write input = s.follow write input stream := by
  rw [State.release, InputStream.step, h, ← hstream]
  rfl

theorem release_quiet {c : Chunk} (h : s.stream.chunks = [c])
    (hstream : disposal input.source { s.stream with chunks := [] } c = stream)
    (hcalls : stream.calls = s.stream.calls) :
    s.release write input = { s with stream := stream } := by
  rw [release_chunk h hstream, follow_quiet hcalls]

/-- The disposal of the last chunk of a file tells the consumer of the end. -/
theorem release_end {c : Chunk} {call : Call} (h : s.stream.chunks = [c])
    (hstream : disposal input.source { s.stream with chunks := [] } c = stream)
    (hcalls : stream.calls = s.stream.calls ++ [call]) (hcall : call.data = none)
    (hp : s.place = .saved) (hmisused : s.misused = false) :
    s.release write input = { s with
      stream := asyncReadStop input.source stream
      place := .activated
      eofs := s.eofs + 1
      misused := false } := by
  rw [release_chunk h hstream, follow_end hcalls hcall hp hmisused]

/-- No read, chunk or spawned event of the stream is left. -/
structure Idle (stream : InputStream.State) : Prop where
  stopped : stream.doRead = false
  pending : stream.pending = []
  spawned : stream.spawned = []
  chunks : stream.chunks = []

/-- The reads before the last one have not ended the test. -/
def Silent (reads : List (List Byte)) : Prop := ∀ b ∈ reads, b.head? ≠ some dot

/-- What ended the test: the end of the stream, or a read that starts with a dot. -/
def Ended (s : InputTests.State) : Prop :=
  (s.eofs = 1 ∧ Silent s.arrived) ∨
    (s.eofs = 0 ∧ ∃ before last, s.arrived = before ++ [last] ∧ Silent before ∧
      last.head? = some dot)

/-- What the test waits for, when it has handled the reads so far: asio, a handler with an error or
with bytes, or nothing, when a read was empty or `io_control` failed. -/
inductive Awaits (s : InputTests.State) (handled : List (List Byte)) : List Pending → Prop
  | asio : s.arrived = handled → Awaits s handled [⟨1, none⟩]
  | failed : s.arrived = handled → Awaits s handled [⟨1, some .error⟩]
  | bytes (data : List Byte) : s.arrived = handled ++ [data] → data.length ≤ kBufferSize →
      s.buffer.take data.length = data →
      Awaits s handled [⟨1, some (.data (BitVec.ofNat 64 data.length))⟩]
  | stalled (data : List Byte) : s.arrived = handled ++ [data] → Awaits s handled []

inductive DeviceStage (s : InputTests.State) : Prop
  | outside : s.place = .outside → s.stream = .init → s.console = [] → s.arrived = [] →
      s.eofs = 0 → s.misused = false → DeviceStage s
  | waiting (count : Size) (pending : List Pending) (calls : List Call)
      (handled : List (List Byte)) : s.place = .saved →
      s.stream = ⟨true, count, 1, pending, [], [], calls⟩ → s.console = handled.flatten →
      s.eofs = 0 → s.misused = false → Silent handled → Awaits s handled pending → DeviceStage s
  | finished : s.place = .activated ∨ s.place = .returned → Idle s.stream →
      s.console = s.arrived.flatten → s.misused = false → Ended s → DeviceStage s

namespace DeviceStage

theorem init (memory : List Byte) : DeviceStage (.init .device memory) :=
  .outside rfl rfl rfl rfl rfl rfl

theorem start (h : DeviceStage s) (hs : react write .device s .start = some t) : DeviceStage t := by
  obtain ⟨hp, hs⟩ := Option.ite_none_right_eq_some.mp hs
  obtain ⟨stream, hstream, rfl⟩ := Option.map_eq_some_iff.mp hs
  cases h with
  | outside _ hinit hconsole harrived heofs hmisused =>
    rw [hinit] at hstream
    cases hstream
    rw [follow_quiet (by rw [hinit]; rfl)]
    refine .waiting 0 [⟨1, none⟩] [] [] rfl rfl hconsole heofs hmisused ?_ (.asio harrived)
    exact fun b hb => absurd hb List.not_mem_nil
  | waiting _ _ _ _ hp' =>
    rw [hp] at hp'
    cases hp'
  | finished hp' => simp [hp] at hp'

theorem getElem?_singleton_eq {α : Type*} {a b : α} {i : Nat} (h : [a][i]? = some b) :
    i = 0 ∧ a = b := by
  rw [List.getElem?_singleton] at h
  obtain ⟨hi, h⟩ := Option.ite_none_right_eq_some.mp h
  exact ⟨hi, Option.some.inj h⟩

theorem complete (h : DeviceStage s) {i : Nat} {r : Option (List Byte)}
    (hs : react write .device s (.complete i r) = some t) : DeviceStage t := by
  obtain ⟨hlen, hs⟩ := Option.ite_none_right_eq_some.mp hs
  obtain ⟨stream, hstream, rfl⟩ := Option.map_eq_some_iff.mp hs
  cases InputStream.step_cases hstream with
  | complete i session r' hi hfits =>
    cases h with
    | outside _ hinit =>
      rw [hinit] at hi
      cases hi
    | finished _ hidle =>
      rw [hidle.pending] at hi
      cases hi
    | waiting count pending calls handled hp hopen hconsole heofs hmisused hsilent hawaits =>
      rw [hopen] at hi ⊢
      cases hawaits with
      | stalled => cases hi
      | failed | bytes =>
        obtain ⟨-, he⟩ := getElem?_singleton_eq hi
        cases he
      | asio harrived =>
        obtain ⟨rfl, he⟩ := getElem?_singleton_eq hi
        cases he
        refine .waiting count [⟨1, some (completion r)⟩] calls handled hp rfl hconsole heofs
          hmisused hsilent ?_
        cases r with
        | none => exact .failed ((List.append_nil _).trans harrived)
        | some data =>
          refine .bytes data ?_ hlen (fill_take s.buffer data)
          change s.arrived ++ [data] = handled ++ [data]
          rw [harrived]

/-- The handler of a read that failed tells the consumer of the end. -/
theorem fails {count : Size} {calls : List Call} {handled : List (List Byte)}
    (hp : s.place = .saved) (hcalls : s.stream.calls = calls)
    (hconsole : s.console = handled.flatten)
    (heofs : s.eofs = 0) (hmisused : s.misused = false) (hsilent : Silent handled)
    (harrived : s.arrived = handled) :
    DeviceStage ((s.follow write .device
      ⟨true, count, 1, [], [], [], calls ++ [⟨1, 1, none, 0, true⟩]⟩).release write .device) := by
  rw [follow_end (by rw [hcalls]) rfl hp hmisused, release_none rfl]
  refine .finished (.inl rfl) ⟨rfl, rfl, rfl, rfl⟩ ?_ rfl (.inl ⟨?_, ?_⟩)
  · exact hconsole.trans (congrArg List.flatten harrived.symm)
  · exact congrArg (· + 1) heofs
  · change Silent s.arrived
    rwa [harrived]

/-- The handler of a read passes the bytes on, unless there are none or `io_control` fails. -/
theorem reads (hw : write.Whole) {count : Size} {calls : List Call} {handled : List (List Byte)}
    {data : List Byte}
    (hp : s.place = .saved) (hcalls : s.stream.calls = calls)
    (hconsole : s.console = handled.flatten)
    (heofs : s.eofs = 0) (hmisused : s.misused = false) (hsilent : Silent handled)
    (harrived : s.arrived = handled ++ [data]) (hlen : data.length ≤ kBufferSize)
    (hbuffer : s.buffer.take data.length = data) (avail : Size) :
    DeviceStage ((s.follow write .device
      ⟨true, count, 1, [], [], [⟨1, BitVec.ofNat 64 data.length⟩],
        calls ++ [⟨1, 1, some (BitVec.ofNat 64 data.length), avail, true⟩]⟩).release write
          .device) := by
  rw [follow_chunk hw (by rw [hcalls]) rfl hlen hbuffer hp hmisused]
  have hflat : s.console ++ data = s.arrived.flatten := by
    rw [harrived, hconsole, List.flatten_append, List.flatten_singleton]
  split
  · rename_i hdot
    rw [release_quiet rfl rfl rfl]
    exact .finished (.inl rfl) ⟨rfl, rfl, rfl, rfl⟩ hflat rfl
      (.inr ⟨heofs, handled, data, harrived, hsilent, hdot.2⟩)
  · rename_i hdot
    rw [release_quiet rfl rfl rfl]
    refine .waiting (count + BitVec.ofNat 64 data.length) [⟨1, none⟩] _ (handled ++ [data]) hp rfl
      ?_ heofs hmisused ?_ (.asio harrived)
    · rw [← harrived]
      exact hflat
    · intro b hb
      obtain hb | hb := List.mem_append.mp hb
      · exact hsilent b hb
      · rw [List.mem_singleton.mp hb]
        exact fun he => hdot ⟨rfl, he⟩

/-- The test waits for a read that nobody begins. -/
theorem stalls {count : Size} {calls : List Call} {handled : List (List Byte)} {data : List Byte}
    (hp : s.place = .saved) (hcalls : s.stream.calls = calls)
    (hconsole : s.console = handled.flatten)
    (heofs : s.eofs = 0) (hmisused : s.misused = false) (hsilent : Silent handled)
    (harrived : s.arrived = handled ++ [data]) :
    DeviceStage
      ((s.follow write .device ⟨true, count, 1, [], [], [], calls⟩).release write .device) := by
  rw [follow_quiet (by rw [hcalls]), release_none rfl]
  exact .waiting count [] calls handled hp rfl hconsole heofs hmisused hsilent
    (.stalled data harrived)

theorem handle (h : DeviceStage s) (hw : write.Whole) {i : Nat} {readable : Option Size}
    (hs : react write .device s (.handle i readable) = some t) : DeviceStage t := by
  obtain ⟨stream, hstream, rfl⟩ := Option.map_eq_some_iff.mp hs
  cases InputStream.step_cases hstream with
  | handle i session r readable hi =>
    cases h with
    | outside _ hinit =>
      rw [hinit] at hi
      cases hi
    | finished _ hidle =>
      rw [hidle.pending] at hi
      cases hi
    | waiting count pending calls handled hp hopen hconsole heofs hmisused hsilent hawaits =>
      have hcalls : s.stream.calls = calls := by rw [hopen]
      rw [hopen] at hi
      cases hawaits with
      | stalled => cases hi
      | asio =>
        obtain ⟨-, he⟩ := getElem?_singleton_eq hi
        cases he
      | failed harrived =>
        obtain ⟨rfl, he⟩ := getElem?_singleton_eq hi
        cases he
        rw [hopen]
        exact fails hp hcalls hconsole heofs hmisused hsilent harrived
      | bytes data harrived hlen hbuffer =>
        obtain ⟨rfl, he⟩ := getElem?_singleton_eq hi
        cases he
        rw [hopen]
        unfold handler
        dsimp only
        split
        · exact stalls hp hcalls hconsole heofs hmisused hsilent harrived
        · cases readable with
          | none => exact stalls hp hcalls hconsole heofs hmisused hsilent harrived
          | some avail =>
            exact reads hw hp hcalls hconsole heofs hmisused hsilent harrived hlen hbuffer avail

theorem step (h : DeviceStage s) (hw : write.Whole) {e : InputTests.Event}
    (hs : InputTests.step write .device s e = some t) : DeviceStage t := by
  obtain ⟨-, hs⟩ := Option.ite_none_left_eq_some.mp hs
  cases e with
  | start => exact h.start hs
  | complete i r => exact h.complete hs
  | handle i readable => exact h.handle hw hs
  | read i n =>
    obtain ⟨-, hs⟩ := Option.ite_none_right_eq_some.mp hs
    obtain ⟨stream, hstream, -⟩ := Option.map_eq_some_iff.mp hs
    cases InputStream.step_cases hstream with
    | run i session n hi =>
      have hnone : s.stream.spawned = [] := by
        cases h with
        | outside _ hinit =>
          rw [hinit]
          rfl
        | waiting _ _ _ _ _ hopen => rw [hopen]
        | finished _ hidle => exact hidle.spawned
      rw [hnone] at hi
      cases hi
  | resume =>
    obtain ⟨hp, hs⟩ := Option.ite_none_right_eq_some.mp hs
    cases hs
    cases h with
    | outside hp' =>
      rw [hp] at hp'
      cases hp'
    | waiting _ _ _ _ hp' =>
      rw [hp] at hp'
      cases hp'
    | finished _ hidle hconsole hmisused hended =>
      exact .finished (.inr rfl) hidle hconsole hmisused hended

end DeviceStage

/-- What a test that reads a file waits for: the next read, or nothing when the file is empty. -/
def Spawned (f : File) (count : Size) (spawned : List Nat) : Prop :=
  (spawned = [1] ∧ count < f.source.len) ∨ (spawned = [] ∧ f.bytes = [])

inductive FileStage (f : File) (start : Nat) (s : InputTests.State) : Prop
  | outside : s.place = .outside → s.stream = .init → s.offset = start → s.console = [] →
      s.arrived = [] → s.eofs = 0 → s.misused = false → FileStage f start s
  | waiting (count : Size) (spawned : List Nat) (calls : List Call) : s.place = .saved →
      s.stream = ⟨true, count, 1, [], spawned, [], calls⟩ → s.offset = start + count.toNat →
      count.toNat ≤ (f.bytes.drop start).length →
      s.console = (f.bytes.drop start).take count.toNat → s.arrived.flatten = s.console →
      s.eofs = 0 → s.misused = false → Spawned f count spawned → FileStage f start s
  | finished : s.place = .activated ∨ s.place = .returned → Idle s.stream → start = 0 →
      f.bytes ≠ [] → s.console = f.bytes → s.arrived.flatten = s.console → s.eofs = 1 →
      s.misused = false → FileStage f start s

namespace FileStage

variable {f : File} {start : Nat}

theorem init (f : File) (start : Nat) (memory : List Byte) :
    FileStage f start (.init (.file f start) memory) :=
  .outside rfl rfl rfl rfl rfl rfl rfl

theorem len_toNat (f : File) : f.source.len.toNat = f.bytes.length := toNat_ofNat f.length_lt

/-- The stream begins the next read, if the file has one more byte to count. -/
theorem asyncReadSome_spawned (start : Nat) {count : Size} (calls : List Call)
    (hne : count ≠ f.source.len) (hle : count.toNat ≤ f.bytes.length) :
    asyncReadSome (Input.file f start).source ⟨true, count, 1, [], [], [], calls⟩ =
      ⟨true, count, 1, [], [1], [], calls⟩ ∧ Spawned f count [1] := by
  have hlt : count < f.source.len := by
    rw [BitVec.lt_def, len_toNat]
    refine Nat.lt_of_le_of_ne hle fun he => hne (BitVec.eq_of_toNat_eq ?_)
    rw [he, len_toNat]
  refine ⟨?_, .inl ⟨rfl, hlt⟩⟩
  rw [asyncReadSome, if_neg (by simp), if_neg (by simp [Input.source, File.source])]
  exact if_pos hlt

/-- A chunk that is disposed of is counted, and the end is told or the next read begun. -/
theorem disposal_eq (start : Nat) (count len : Size) (calls : List Call) :
    disposal (Input.file f start).source ⟨true, count, 1, [], [], [], calls⟩ ⟨1, len⟩ =
      if count + len = f.source.len then
        ⟨true, count + len, 1, [], [], [], calls ++ [⟨1, 1, none, 0, true⟩]⟩
      else asyncReadSome (Input.file f start).source ⟨true, count + len, 1, [], [], [], calls⟩ := by
  rw [disposal, if_neg (by simp [Input.source, File.source])]
  rfl

/-- The first read is spawned unless the file is empty. -/
theorem begins (f : File) : ∃ spawned,
    asyncReadStart f.source .init = ⟨true, 0, 1, [], spawned, [], []⟩ ∧ Spawned f 0 spawned := by
  by_cases hempty : f.bytes = []
  · refine ⟨[], ?_, .inr ⟨rfl, hempty⟩⟩
    rw [File.source, hempty]
    rfl
  · have hne : (0 : Size) ≠ f.source.len := by
      intro he
      have hzero := congrArg BitVec.toNat he
      rw [len_toNat] at hzero
      exact hempty (List.eq_nil_of_length_eq_zero hzero.symm)
    obtain ⟨he, hspawned⟩ := asyncReadSome_spawned 0 [] hne (Nat.zero_le _)
    exact ⟨[1], he, hspawned⟩

theorem starts (h : FileStage f start s) (hs : react write (.file f start) s .start = some t) :
    FileStage f start t := by
  obtain ⟨hp, hs⟩ := Option.ite_none_right_eq_some.mp hs
  obtain ⟨stream, hstream, rfl⟩ := Option.map_eq_some_iff.mp hs
  cases h with
  | waiting _ _ _ hp' =>
    rw [hp] at hp'
    cases hp'
  | finished hp' => simp [hp] at hp'
  | outside _ hinit hoffset hconsole harrived heofs hmisused =>
    obtain rfl := Option.some.inj hstream
    obtain ⟨spawned, hbegun, hspawned⟩ := begins f
    have he : asyncReadStart (Input.file f start).source s.stream =
        ⟨true, 0, 1, [], spawned, [], []⟩ := by
      rw [hinit]
      exact hbegun
    rw [he, follow_quiet (by rw [hinit]; rfl)]
    refine .waiting 0 spawned [] rfl rfl hoffset (Nat.zero_le _) ?_ ?_ heofs hmisused hspawned
    · exact hconsole.trans (List.take_zero).symm
    · change s.arrived.flatten = s.console
      rw [harrived, hconsole, List.flatten_nil]

/-- A read that gets nothing, because the descriptor was not at the start of the file, is begun
again. -/
theorem empties {count : Size} {calls : List Call} (hp : s.place = .saved)
    (hcalls : s.stream.calls = calls) (hoffset : s.offset = start + count.toNat)
    (hcount : count.toNat ≤ (f.bytes.drop start).length)
    (hconsole : s.console = (f.bytes.drop start).take count.toNat)
    (harrived : s.arrived.flatten = s.console) (heofs : s.eofs = 0) (hmisused : s.misused = false)
    (hlt : count < f.source.len) :
    FileStage f start ((s.follow write (.file f start)
      (readFile (Input.file f start).source ⟨true, count, 1, [], [], [], calls⟩ 1 0)).release write
        (.file f start)) := by
  have hne : count ≠ f.source.len := fun he => absurd hlt (by rw [he]; exact BitVec.lt_irrefl _)
  have hle : count.toNat ≤ f.bytes.length := by
    rw [← len_toNat]
    exact Nat.le_of_lt hlt
  obtain ⟨he, hspawned⟩ := asyncReadSome_spawned start calls hne hle
  have hstream : readFile (Input.file f start).source ⟨true, count, 1, [], [], [], calls⟩ 1 0 =
      ⟨true, count, 1, [], [1], [], calls⟩ := by
    have hzero : count + 0 = count := BitVec.add_zero count
    rw [readFile, if_pos rfl, disposal_eq, hzero, if_neg hne, he]
  rw [hstream, follow_quiet (by rw [hcalls]), release_none rfl]
  exact .waiting count [1] calls hp rfl hoffset hcount hconsole harrived heofs hmisused hspawned

/-- A read passes the bytes on, and the disposal of the last ones tells the consumer of the end. -/
theorem reads (hw : write.Whole) {count : Size} {calls : List Call} {data : List Byte}
    (hp : s.place = .saved)
    (hcalls : s.stream.calls = calls) (hoffset : s.offset = start + count.toNat + data.length)
    (hcount : count.toNat + data.length ≤ (f.bytes.drop start).length)
    (hconsole : s.console ++ data = (f.bytes.drop start).take (count.toNat + data.length))
    (harrived : s.arrived.flatten = s.console ++ data) (heofs : s.eofs = 0)
    (hmisused : s.misused = false) (hpos : data ≠ []) (hlen : data.length ≤ kBufferSize)
    (hbuffer : s.buffer.take data.length = data) (avail : Size) :
    FileStage f start ((s.follow write (.file f start) ⟨true, count, 1, [], [],
      [⟨1, BitVec.ofNat 64 data.length⟩],
      calls ++ [⟨1, 1, some (BitVec.ofNat 64 data.length), avail, true⟩]⟩).release write
        (.file f start)) := by
  have hnat : (BitVec.ofNat 64 data.length : Size).toNat = data.length :=
    toNat_ofNat (Nat.lt_of_le_of_lt hlen (by decide))
  have hmax : (f.bytes.drop start).length ≤ f.bytes.length := by
    rw [List.length_drop]
    exact Nat.sub_le _ _
  have hsum : (count + BitVec.ofNat 64 data.length).toNat = count.toNat + data.length := by
    have hlt := f.length_lt
    rw [BitVec.toNat_add, hnat]
    omega
  rw [follow_chunk hw (by rw [hcalls]) rfl hlen hbuffer hp hmisused, if_neg fun h => by cases h.1]
  by_cases hend : count + BitVec.ofNat 64 data.length = f.source.len
  · have hstream : disposal (Input.file f start).source ⟨true, count, 1, [], [], [],
        calls ++ [⟨1, 1, some (BitVec.ofNat 64 data.length), avail, true⟩]⟩
        ⟨1, BitVec.ofNat 64 data.length⟩ =
          ⟨true, count + BitVec.ofNat 64 data.length, 1, [], [], [],
            calls ++ [⟨1, 1, some (BitVec.ofNat 64 data.length), avail, true⟩] ++
            [⟨1, 1, none, 0, true⟩]⟩ := (disposal_eq _ _ _ _).trans (if_pos hend)
    rw [release_end rfl hstream rfl rfl (by exact hp) (by exact hmisused)]
    have hall : count.toNat + data.length = f.bytes.length := by
      rw [← hsum, hend, len_toNat]
    have hzero : start = 0 := by
      rw [List.length_drop] at hcount
      have hdata := List.length_pos_of_ne_nil hpos
      omega
    subst hzero
    have hwhole : s.console ++ data = f.bytes := by
      rw [hconsole, hall, List.drop_zero, List.take_length]
    refine .finished (.inl rfl) ⟨rfl, rfl, rfl, rfl⟩ rfl ?_ hwhole harrived
      (congrArg (· + 1) heofs) rfl
    exact fun hnil => hpos (List.append_eq_nil_iff.mp (hwhole.trans hnil)).2
  · obtain ⟨he, hspawned⟩ := asyncReadSome_spawned start
      (calls ++ [⟨1, 1, some (BitVec.ofNat 64 data.length), avail, true⟩]) hend
      (by rw [hsum]; exact hcount.trans hmax)
    have hstream : disposal (Input.file f start).source ⟨true, count, 1, [], [], [],
        calls ++ [⟨1, 1, some (BitVec.ofNat 64 data.length), avail, true⟩]⟩
        ⟨1, BitVec.ofNat 64 data.length⟩ =
          ⟨true, count + BitVec.ofNat 64 data.length, 1, [], [1], [],
            calls ++ [⟨1, 1, some (BitVec.ofNat 64 data.length), avail, true⟩]⟩ := by
      rw [disposal_eq, if_neg hend, he]
    rw [release_quiet rfl (by exact hstream) (by rfl)]
    refine .waiting _ [1] _ hp rfl ?_ ?_ ?_ harrived heofs hmisused hspawned
    · rw [hsum, ← Nat.add_assoc]
      exact hoffset
    · rw [hsum]
      exact hcount
    · rw [hsum]
      exact hconsole

theorem read (h : FileStage f start s) (hw : write.Whole) {i n : Nat}
    (hs : react write (.file f start) s (.read i n) = some t) : FileStage f start t := by
  obtain ⟨⟨hmax, hdata, hrest⟩, hs⟩ := Option.ite_none_right_eq_some.mp hs
  obtain ⟨stream, hstream, rfl⟩ := Option.map_eq_some_iff.mp hs
  cases InputStream.step_cases hstream with
  | run _ session _ hi hfits =>
    cases h with
    | outside _ hinit =>
      rw [hinit] at hi
      cases hi
    | finished _ hidle =>
      rw [hidle.spawned] at hi
      cases hi
    | waiting count spawned calls hp hopen hoffset hcount hconsole harrived heofs hmisused
        hspawned =>
      rw [hopen] at hi ⊢
      obtain ⟨rfl, hlt⟩ | ⟨rfl, -⟩ := hspawned
      · obtain ⟨rfl, rfl⟩ := DeviceStage.getElem?_singleton_eq hi
        obtain ⟨data, hread⟩ : ∃ data, ((Input.file f start).rest s.offset).take n = data :=
          ⟨_, rfl⟩
        rw [hread] at hdata ⊢
        subst hdata
        have hfrom : (f.bytes.drop s.offset).take data.length = data := hread
        rw [hoffset, ← List.drop_drop] at hfrom
        have hshown : s.console ++ data =
            (f.bytes.drop start).take (count.toNat + data.length) := by
          rw [hconsole, List.take_add, hfrom]
        have hflat : (s.arrived ++ [data]).flatten = s.console ++ data := by
          rw [List.flatten_append, List.flatten_singleton, harrived]
        by_cases hz : data = []
        · subst hz
          rw [List.append_nil] at hflat
          exact empties (s := ⟨⟨true, count, 1, [], [1], [], calls⟩, s.place, fill s.buffer [],
            s.offset + 0, s.console, s.eofs, s.misused, s.threw, s.arrived ++ [[]]⟩) hp rfl hoffset
            hcount hconsole hflat heofs hmisused hlt
        · have hne : (BitVec.ofNat 64 data.length : Size) ≠ 0 := by
            intro he
            have hzero := congrArg BitVec.toNat he
            rw [toNat_ofNat (Nat.lt_of_le_of_lt hmax (by decide))] at hzero
            exact hz (List.eq_nil_of_length_eq_zero hzero)
          rw [readFile, if_neg hne]
          refine reads hw (s := ⟨⟨true, count, 1, [], [1], [], calls⟩, s.place, fill s.buffer data,
            s.offset + data.length, s.console, s.eofs, s.misused, s.threw, s.arrived ++ [data]⟩) hp
            rfl ?_ ?_ hshown hflat heofs hmisused hz hmax (fill_take s.buffer data) _
          · change s.offset + data.length = start + count.toNat + data.length
            rw [hoffset]
          · have hle := List.length_take_le' data.length ((f.bytes.drop start).drop count.toNat)
            rw [hfrom, List.length_drop] at hle
            omega
      · cases hi

theorem step (h : FileStage f start s) (hw : write.Whole) {e : InputTests.Event}
    (hs : InputTests.step write (.file f start) s e = some t) : FileStage f start t := by
  have hnone : s.stream.pending = [] := by
    cases h with
    | outside _ hinit =>
      rw [hinit]
      rfl
    | waiting _ _ _ _ hopen => rw [hopen]
    | finished _ hidle => exact hidle.pending
  obtain ⟨-, hs⟩ := Option.ite_none_left_eq_some.mp hs
  cases e with
  | start => exact h.starts hs
  | read i n => exact h.read hw hs
  | complete i r =>
    obtain ⟨-, hs⟩ := Option.ite_none_right_eq_some.mp hs
    obtain ⟨stream, hstream, -⟩ := Option.map_eq_some_iff.mp hs
    cases InputStream.step_cases hstream with
    | complete i session r hi =>
      rw [hnone] at hi
      cases hi
  | handle i readable =>
    obtain ⟨stream, hstream, -⟩ := Option.map_eq_some_iff.mp hs
    cases InputStream.step_cases hstream with
    | handle i session r readable hi =>
      rw [hnone] at hi
      cases hi
  | resume =>
    obtain ⟨hp, hs⟩ := Option.ite_none_right_eq_some.mp hs
    cases hs
    cases h with
    | outside hp' =>
      rw [hp] at hp'
      cases hp'
    | waiting _ _ _ hp' =>
      rw [hp] at hp'
      cases hp'
    | finished _ hidle hstart hne hconsole harrived heofs hmisused =>
      exact .finished (.inr rfl) hidle hstart hne hconsole harrived heofs hmisused

end FileStage

/-- Whether the test has been woken. -/
def Woken (s : InputTests.State) : Prop := s.place = .activated ∨ s.place = .returned

/-- On a device, the test shows what arrives, up to the first read that starts with a dot, and its
context is activated once, for this read or for the end of the stream. It leaves no read behind. -/
structure DeviceCopied (s : InputTests.State) : Prop where
  misused : s.misused = false
  console : s.console <+: s.arrived.flatten
  silent : Silent s.arrived.dropLast
  woken : Woken s → s.console = s.arrived.flatten ∧ Ended s ∧ Idle s.stream
  waiting : ¬ Woken s → s.eofs = 0

theorem Silent.dropLast {reads : List (List Byte)} (h : Silent reads) : Silent reads.dropLast :=
  fun b hb => h b (List.mem_of_mem_dropLast hb)

theorem DeviceStage.copied (h : DeviceStage s) : DeviceCopied s := by
  cases h with
  | outside hp _ hconsole harrived heofs hmisused =>
    refine ⟨hmisused, ?_, ?_, ?_, fun _ => heofs⟩
    · rw [hconsole]
      exact List.nil_prefix
    · rw [harrived]
      exact fun b hb => absurd hb List.not_mem_nil
    · rintro (hw | hw)
      all_goals
        rw [hp] at hw
        cases hw
  | waiting count pending calls handled hp _ hconsole heofs hmisused hsilent hawaits =>
    have harrived : s.arrived = handled ∨ ∃ data, s.arrived = handled ++ [data] := by
      cases hawaits with
      | asio he | failed he => exact .inl he
      | bytes data he | stalled data he => exact .inr ⟨data, he⟩
    refine ⟨hmisused, ?_, ?_, ?_, fun _ => heofs⟩
    · rw [hconsole]
      obtain he | ⟨data, he⟩ := harrived
      · rw [he]
      · rw [he, List.flatten_append]
        exact List.prefix_append _ _
    · obtain he | ⟨data, he⟩ := harrived
      · rw [he]
        exact hsilent.dropLast
      · rwa [he, List.dropLast_concat]
    · rintro (hw | hw)
      all_goals
        rw [hp] at hw
        cases hw
  | finished hp hidle hconsole hmisused hended =>
    refine ⟨hmisused, ?_, ?_, fun _ => ⟨hconsole, hended, hidle⟩, fun hn => absurd hp hn⟩
    · rw [hconsole]
    · obtain ⟨-, hsilent⟩ | ⟨-, before, last, he, hsilent, -⟩ := hended
      · exact hsilent.dropLast
      · rwa [he, List.dropLast_concat]

theorem standardinTest_device (hw : write.Whole) {memory : List Byte}
    (h : Reachable (step write .device) (.init .device memory) s) : DeviceCopied s :=
  (h.invariant (DeviceStage.init memory) fun _ _ _ hi _ hs => hi.step hw hs).copied

/-- A line, and one that starts with a dot. -/
def dotted : List InputTests.Event :=
  [.start, .complete 0 (some [0x61, 0x0a]), .handle 0 (some 0), .complete 0 (some [dot, 0x0a]),
    .handle 0 (some 0), .resume]

theorem dotted_runs : (run (step List.length .device) (.init .device []) dotted).isSome := by
  decide +kernel

theorem dotted_copied :
    DeviceCopied ((run (step List.length .device) (.init .device []) dotted).get dotted_runs) :=
  standardinTest_device (fun _ => rfl) (reachable_of_run (Option.some_get dotted_runs).symm)

/-- On a regular file, the test shows the file from where its descriptor was. It is woken only
after the whole file, and never when the descriptor was not at its start, or the file is empty. -/
structure FileCopied (f : File) (start : Nat) (s : InputTests.State) : Prop where
  misused : s.misused = false
  console : s.console <+: f.bytes.drop start
  arrived : s.arrived.flatten = s.console
  woken : Woken s → s.console = f.bytes ∧ start = 0 ∧ f.bytes ≠ [] ∧ s.eofs = 1 ∧ Idle s.stream
  waiting : ¬ Woken s → s.eofs = 0

theorem FileStage.copied {f : File} {start : Nat} (h : FileStage f start s) :
    FileCopied f start s := by
  cases h with
  | outside hp _ _ hconsole harrived heofs hmisused =>
    refine ⟨hmisused, ?_, ?_, ?_, fun _ => heofs⟩
    · rw [hconsole]
      exact List.nil_prefix
    · rw [harrived, hconsole, List.flatten_nil]
    · rintro (hw | hw)
      all_goals
        rw [hp] at hw
        cases hw
  | waiting count spawned calls hp _ _ _ hconsole harrived heofs hmisused =>
    refine ⟨hmisused, ?_, harrived, ?_, fun _ => heofs⟩
    · rw [hconsole]
      exact List.take_prefix _ _
    · rintro (hw | hw)
      all_goals
        rw [hp] at hw
        cases hw
  | finished hp hidle hstart hne hconsole harrived heofs hmisused =>
    refine ⟨hmisused, ?_, harrived, fun _ => ⟨hconsole, hstart, hne, heofs, hidle⟩,
      fun hn => absurd hp hn⟩
    rw [hconsole, hstart, List.drop_zero]

theorem standardinTest_file (hw : write.Whole) {f : File} {start : Nat} {memory : List Byte}
    (h : Reachable (step write (.file f start)) (.init (.file f start) memory) s) :
    FileCopied f start s :=
  (h.invariant (FileStage.init f start memory) fun _ _ _ hi _ hs => hi.step hw hs).copied

/-- Two reads of a file, the second one to its end. -/
def wholeFile : List InputTests.Event := [.start, .read 0 2, .read 0 3, .resume]

theorem wholeFile_runs :
    (run (step List.length (.file fiveBytes 0)) (.init (.file fiveBytes 0) [])
      wholeFile).isSome := by
  decide +kernel

theorem wholeFile_copied : FileCopied fiveBytes 0
    ((run (step List.length (.file fiveBytes 0)) (.init (.file fiveBytes 0) []) wholeFile).get
      wholeFile_runs) :=
  standardinTest_file (fun _ => rfl) (reachable_of_run (Option.some_get wholeFile_runs).symm)

end EbbrtContrib.InputTestsCopy
