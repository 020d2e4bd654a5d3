import EbbrtContrib.InputTestsCopy
import EbbrtContrib.RemoteStream

namespace EbbrtContrib.RemoteStreamCopy

open Chain CString FileStream InputStream InputTests InputTestsCopy RemoteStream StreamMessages Runs

variable {f : File} {pad : BitVec 32} {loop : Loop} {s t : RemoteStream.State}
  {stream : InputStream.State}

/-- The number of bytes behind the first `n` of a file. -/
def behind (f : File) (n : Nat) : UInt64 := UInt64.ofNat (f.bytes.length - n)

/-- The messages for the blocks of a file that begin behind its first `n` bytes. -/
def messagesOf (f : File) (pad : BitVec 32) : Nat → List (List Byte) → List (List Byte)
  | _, [] => []
  | n, b :: bs => ((⟨pad, behind f (n + b.length)⟩ : StreamDataMsg).image ++ b) ::
      messagesOf f pad (n + b.length) bs

/-- The calls of the consumer on the node for these blocks. -/
def callsFor (f : File) : Nat → List (List Byte) → List (List Byte × UInt64)
  | _, [] => []
  | n, b :: bs => (b, behind f (n + b.length)) :: callsFor f (n + b.length) bs

theorem messagesOf_snoc (n : Nat) (bs : List (List Byte)) (b : List Byte) :
    messagesOf f pad n (bs ++ [b]) = messagesOf f pad n bs ++
      [(⟨pad, behind f (n + bs.flatten.length + b.length)⟩ : StreamDataMsg).image ++ b] := by
  induction bs generalizing n with
  | nil => rfl
  | cons c bs ih =>
    rw [List.cons_append, messagesOf, ih, messagesOf, List.flatten_cons, List.length_append,
      List.cons_append]
    simp only [Nat.add_assoc]

theorem callsFor_snoc (n : Nat) (bs : List (List Byte)) (b : List Byte) :
    callsFor f n (bs ++ [b]) = callsFor f n bs ++
      [(b, behind f (n + bs.flatten.length + b.length))] := by
  induction bs generalizing n with
  | nil => rfl
  | cons c bs ih =>
    rw [List.cons_append, callsFor, ih, callsFor, List.flatten_cons, List.length_append,
      List.cons_append]
    simp only [Nat.add_assoc]

theorem map_callsFor (n : Nat) (bs : List (List Byte)) : (callsFor f n bs).map Prod.fst = bs := by
  induction bs generalizing n with
  | nil => rfl
  | cons b bs ih => rw [callsFor, List.map_cons, ih]

/-- What a loop does with the bytes of a chain, however they are split. -/
structure Shows (loop : Loop) : Prop where
  isPrefix : ∀ chain, (loop chain).1 <+: chain.flatten
  all : ∀ chain, (loop chain).2 = false → (loop chain).1 = chain.flatten

variable {write : Write}

theorem standardin_shows (hw : write.Whole) : Shows (standardin write) where
  isPrefix chain := by
    rw [standardin, dump_file hw]
  all chain _ := by
    rw [standardin, dump_file hw]

theorem filein_shows (hw : write.Whole) : Shows (filein write) where
  isPrefix chain := by
    induction chain with
    | nil => exact List.nil_prefix
    | cons b bs ih =>
      rw [filein]
      split
      · exact List.nil_prefix
      · rw [take_write hw]
        exact (List.prefix_append_right_inj b).mpr ih
  all chain := by
    induction chain with
    | nil => exact fun _ => rfl
    | cons b bs ih =>
      rw [filein]
      split
      · intro h
        cases h
      · intro h
        rw [take_write hw]
        exact congrArg (b ++ ·) (ih h)

/-- The first `n` bytes of the file were transmitted, in blocks: those that the node has received,
and those on the wire. -/
structure Passed (f : File) (pad : BitVec 32) (loop : Loop) (s : RemoteStream.State) (n : Nat)
    (before after : List (List Byte)) : Prop where
  blocks : (before ++ after).flatten = f.bytes.take n
  nonempty : ∀ b ∈ before ++ after, b ≠ []
  received : s.received = callsFor f 0 before
  wire : s.wire = messagesOf f pad before.flatten.length after
  console : Shows loop → s.console <+: before.flatten
  all : Shows loop → s.threw = false → s.console = before.flatten
  eofs : s.eofs = 0

namespace Passed

variable {n : Nat} {before after : List (List Byte)}

/-- A step of the front end that transmits nothing. -/
theorem keep (h : Passed f pad loop s n before after) (hreceived : t.received = s.received)
    (hwire : t.wire = s.wire) (hconsole : t.console = s.console) (hthrew : t.threw = s.threw)
    (heofs : t.eofs = s.eofs) : Passed f pad loop t n before after where
  blocks := h.blocks
  nonempty := h.nonempty
  received := hreceived.trans h.received
  wire := hwire.trans h.wire
  console hshows := hconsole ▸ h.console hshows
  all hshows ht := hconsole.trans (h.all hshows (hthrew ▸ ht))
  eofs := heofs.trans h.eofs

/-- A message is transmitted with the block and its own `avail`. -/
theorem transmit (h : Passed f pad loop s n before after) {data : List Byte} (hne : data ≠ [])
    (hdata : (f.bytes.drop n).take data.length = data) (hn : n ≤ f.bytes.length)
    (hwire : t.wire = s.wire ++ [(⟨pad, behind f (n + data.length)⟩ : StreamDataMsg).image ++ data])
    (hreceived : t.received = s.received) (hconsole : t.console = s.console)
    (hthrew : t.threw = s.threw) (heofs : t.eofs = s.eofs) :
    Passed f pad loop t (n + data.length) before (after ++ [data]) where
  blocks := by
    rw [← List.append_assoc, List.flatten_append, h.blocks, List.flatten_singleton, List.take_add,
      hdata]
  nonempty b hb := by
    rw [← List.append_assoc] at hb
    obtain hb | hb := List.mem_append.mp hb
    · exact h.nonempty b hb
    · rwa [List.mem_singleton.mp hb]
  received := hreceived.trans h.received
  wire := by
    have hlen := congrArg List.length h.blocks
    rw [List.flatten_append, List.length_append, List.length_take, Nat.min_eq_left hn] at hlen
    rw [messagesOf_snoc, hlen, hwire, h.wire]
  console hshows := hconsole ▸ h.console hshows
  all hshows ht := hconsole.trans (h.all hshows (hthrew ▸ ht))
  eofs := heofs.trans h.eofs

theorem view_eq {action : Action (List (List Byte))} {payload : List Byte} {avail : UInt64}
    (h : action.view listChain = some (some payload, avail)) :
    ∃ chain, action = .consumer ⟨some chain, avail⟩ ∧ chain.flatten = payload := by
  cases action with
  | consumer call =>
    obtain ⟨buf, avail'⟩ := call
    have hview := Option.some.inj h
    rw [Call.view, Prod.mk.injEq] at hview
    obtain ⟨hbuf, rfl⟩ := hview
    obtain ⟨chain, rfl, hflat⟩ := Option.map_eq_some_iff.mp hbuf
    exact ⟨chain, rfl, hflat⟩
  | asyncReadStart | asyncReadStop | unknown => cases h

/-- The node takes the message apart again, however it comes in buffers. -/
theorem deliver (h : Passed f pad loop s n before after) {bytes : List Byte}
    {rest chain : List (List Byte)} (hwire : s.wire = bytes :: rest) (hthrew : s.threw = false)
    (hchain : chain.flatten = bytes) :
    ∃ b after', after = b :: after' ∧
      Passed f pad loop ({ s with wire := rest }.receive loop chain) n (before ++ [b]) after' := by
  cases after with
  | nil =>
    have hnil := h.wire
    rw [hwire] at hnil
    cases hnil
  | cons b bs =>
    refine ⟨b, bs, rfl, ?_⟩
    have hhead := h.wire
    rw [hwire, messagesOf, List.cons.injEq] at hhead
    obtain ⟨hbytes, hrest⟩ := hhead
    have hne := h.nonempty b (List.mem_append_right before List.mem_cons_self)
    obtain ⟨action, hrun, hview⟩ := processMessage_data listChain _ b chain (hchain.trans hbytes)
    rw [if_neg hne] at hview
    obtain ⟨payload, rfl, hflat⟩ := view_eq hview
    rw [State.receive, hrun]
    refine ⟨?_, ?_, ?_, ?_, ?_, ?_, h.eofs⟩
    · rw [List.append_assoc]
      exact h.blocks
    · rw [List.append_assoc]
      exact h.nonempty
    · rw [callsFor_snoc, Nat.zero_add, ← h.received, ← hflat]
      rfl
    · rw [List.flatten_append, List.flatten_singleton, List.length_append]
      exact hrest
    · intro hshows
      rw [List.flatten_append, List.flatten_singleton, ← h.all hshows hthrew, ← hflat]
      exact (List.prefix_append_right_inj s.console).mpr (hshows.isPrefix payload)
    · intro hshows ht
      rw [List.flatten_append, List.flatten_singleton, ← h.all hshows hthrew, ← hflat]
      exact congrArg (s.console ++ ·) (hshows.all payload ht)

end Passed

/-- Where the front end is. While a message has not been freed, no read is under way, so that
`buffer_` and `stream_data_msg_` are what they were when the message was made. -/
inductive Front (f : File) (s : RemoteStream.State) : Nat → Prop
  | fresh : s.stream = .init → s.offset = 0 → s.messages = [] → s.crashed = false → Front f s 0
  | reading (count : Size) (spawned : List Nat) (calls : List InputStream.Call) :
      s.stream = ⟨true, count, 1, [], spawned, [], calls⟩ → s.offset = count.toNat →
      count.toNat ≤ f.bytes.length → s.messages = [] → s.crashed = false →
      Spawned f count spawned → Front f s count.toNat
  | sending (count : Size) (data : List Byte) (sent : Bool) (calls : List InputStream.Call) :
      s.stream = ⟨true, count, 1, [], [], [⟨1, BitVec.ofNat 64 data.length⟩], calls⟩ →
      s.offset = count.toNat + data.length → count.toNat + data.length ≤ f.bytes.length →
      data ≠ [] → data.length ≤ kBufferSize → s.buffer.take data.length = data →
      (f.bytes.drop count.toNat).take data.length = data →
      s.messages = [⟨BitVec.ofNat 64 data.length, sent⟩] →
      s.avail = behind f (count.toNat + data.length) → s.crashed = false →
      Front f s (if sent then count.toNat + data.length else count.toNat)
  | crashed : s.crashed = true → Front f s f.bytes.length

theorem follow_quiet' (h : stream.calls = s.stream.calls) :
    s.follow stream = { s with stream := stream } := by
  rw [RemoteStream.State.follow, h, List.drop_length, List.foldl_nil]

theorem follow_pass (call : InputStream.Call) (h : stream.calls = s.stream.calls ++ [call]) :
    s.follow stream = { s with stream := stream }.pass call := by
  rw [RemoteStream.State.follow, h, List.drop_left, List.foldl_cons, List.foldl_nil]

/-- The node is where it was, and so is the wire. -/
structure SameNode (s t : RemoteStream.State) : Prop where
  received : t.received = s.received
  wire : t.wire = s.wire
  console : t.console = s.console
  threw : t.threw = s.threw
  eofs : t.eofs = s.eofs

theorem SameNode.pass (h : SameNode s t) (call : InputStream.Call) : SameNode s (t.pass call) := by
  rw [RemoteStream.State.pass]
  split <;> exact ⟨h.received, h.wire, h.console, h.threw, h.eofs⟩

theorem SameNode.foldl_pass (h : SameNode s t) (calls : List InputStream.Call) :
    SameNode s (calls.foldl RemoteStream.State.pass t) := by
  induction calls generalizing t with
  | nil => exact h
  | cons call calls ih => exact ih (h.pass call)

theorem SameNode.follow (h : SameNode s t) (stream : InputStream.State) :
    SameNode s (t.follow stream) :=
  SameNode.foldl_pass (t := { t with stream := stream })
    ⟨h.received, h.wire, h.console, h.threw, h.eofs⟩ _

namespace Front

variable {n : Nat}

theorem start (h : Front f s n) (hs : step f pad loop s .start = some t) :
    Front f t n ∧ SameNode s t := by
  obtain ⟨hcrashed, hs⟩ := Option.ite_none_left_eq_some.mp hs
  obtain ⟨stream, hstream, rfl⟩ := Option.map_eq_some_iff.mp hs
  refine ⟨?_, SameNode.follow ⟨rfl, rfl, rfl, rfl, rfl⟩ stream⟩
  obtain rfl := Option.some.inj hstream
  cases h with
  | crashed hc => exact absurd hc hcrashed
  | reading count spawned calls hopen hoffset hle hmessages hcr hspawned =>
    have hkeep : asyncReadStart f.source s.stream = s.stream := by
      rw [asyncReadStart, if_pos (by rw [hopen])]
    rw [hkeep, follow_quiet' rfl]
    exact .reading count spawned calls hopen hoffset hle hmessages hcr hspawned
  | sending count data sent calls hopen hoffset hle hne hmax hbuffer hdata hmessages havail hcr =>
    have hkeep : asyncReadStart f.source s.stream = s.stream := by
      rw [asyncReadStart, if_pos (by rw [hopen])]
    rw [hkeep, follow_quiet' rfl]
    exact .sending count data sent calls hopen hoffset hle hne hmax hbuffer hdata hmessages havail
      hcr
  | fresh hinit hoffset hmessages hcr =>
    obtain ⟨spawned, he, hspawned⟩ := FileStage.begins f
    rw [hinit, he, follow_quiet' (by rw [hinit]; rfl)]
    exact .reading 0 spawned [] rfl hoffset (Nat.zero_le _) hmessages hcr hspawned

/-- The consumer passes the bytes that were read on in a message, with the number of bytes behind
them. -/
theorem reads {count : Size} {calls : List InputStream.Call} {k : Nat}
    (hopen : s.stream = ⟨true, count, 1, [], [1], [], calls⟩) (hoffset : s.offset = count.toNat)
    (hmessages : s.messages = []) (hcr : s.crashed = false) (hpos : 1 ≤ k) (hmax : k ≤ kBufferSize)
    (hend : s.offset + k ≤ f.bytes.length) :
    Front f ({ s with
      buffer := fill s.buffer ((f.bytes.drop s.offset).take k), offset := s.offset + k }.follow
        (readFile f.source ⟨true, count, 1, [], [], [], calls⟩ 1 (BitVec.ofNat 64 k)))
      count.toNat := by
  obtain ⟨data, hread⟩ : ∃ data, (f.bytes.drop s.offset).take k = data := ⟨_, rfl⟩
  obtain rfl : data.length = k := by
    rw [← hread, List.length_take, List.length_drop]
    omega
  have hlt := f.length_lt
  have hnat : (BitVec.ofNat 64 data.length : Size).toNat = data.length := toNat_ofNat (by omega)
  have hne : (BitVec.ofNat 64 data.length : Size) ≠ 0 := by
    intro hz
    rw [hz] at hnat
    exact absurd hnat (Nat.ne_of_lt hpos)
  have havail : (f.source.len - (count + BitVec.ofNat 64 data.length)).toNat =
      f.bytes.length - (count.toNat + data.length) := by
    rw [BitVec.toNat_sub, BitVec.toNat_add, FileStage.len_toNat, hnat]
    omega
  rw [hread, readFile, if_neg hne,
    follow_pass ⟨1, 1, some (BitVec.ofNat 64 data.length),
      f.source.len - (count + BitVec.ofNat 64 data.length), true⟩ (by rw [hopen]; rfl)]
  rw [hoffset] at hread hend
  refine .sending count data false _ rfl ?_ hend (List.ne_nil_of_length_pos hpos) hmax
    (fill_take s.buffer data) hread ?_ ?_ hcr
  · change s.offset + data.length = count.toNat + data.length
    rw [hoffset]
  · change s.messages ++ [_] = [_]
    rw [hmessages]
    rfl
  · exact congrArg UInt64.ofNat havail

theorem read (h : Front f s n) {i k : Nat} (hs : step f pad loop s (.read i k) = some t) :
    Front f t n ∧ SameNode s t := by
  obtain ⟨⟨hcrashed, hpos, hmax, hend⟩, hs⟩ := Option.ite_none_right_eq_some.mp hs
  obtain ⟨stream, hstream, rfl⟩ := Option.map_eq_some_iff.mp hs
  refine ⟨?_, SameNode.follow (by exact ⟨rfl, rfl, rfl, rfl, rfl⟩) stream⟩
  cases InputStream.step_cases hstream with
  | run _ session _ hi hfits =>
    cases h with
    | crashed hc =>
      rw [hc] at hcrashed
      cases hcrashed
    | fresh hinit =>
      rw [hinit] at hi
      cases hi
    | sending _ _ _ _ hopen =>
      rw [hopen] at hi
      cases hi
    | reading count spawned calls hopen hoffset hle hmessages hcr hspawned =>
      rw [hopen] at hi
      obtain ⟨rfl, -⟩ | ⟨rfl, -⟩ := hspawned
      · obtain ⟨rfl, rfl⟩ := DeviceStage.getElem?_singleton_eq hi
        have hrun : { s.stream with spawned := s.stream.spawned.eraseIdx 0 } =
            (⟨true, count, 1, [], [], [], calls⟩ : InputStream.State) := by
          rw [hopen]
          rfl
        rw [hrun]
        exact reads hopen hoffset hmessages hcr hpos hmax hend
      · cases hi

/-- The message is transmitted while its buffers are as they were. -/
theorem transmit (h : Front f s n) {before after : List (List Byte)}
    (hp : Passed f pad loop s n before after) (hs : step f pad loop s .transmit = some t) :
    ∃ n' after', Front f t n' ∧ Passed f pad loop t n' before after' := by
  cases h with
  | fresh _ _ hmessages => simp [RemoteStream.step, hmessages] at hs
  | reading _ _ _ _ _ _ hmessages => simp [RemoteStream.step, hmessages] at hs
  | crashed hcr =>
    simp only [RemoteStream.step, hcr, if_true] at hs
    split at hs <;> cases hs
  | sending count data sent calls hopen hoffset hle hne hmax hbuffer hdata hmessages havail hcr =>
    cases sent with
    | true => simp [RemoteStream.step, hmessages] at hs
    | false =>
      have hnat : (BitVec.ofNat 64 data.length : Size).toNat = data.length :=
        toNat_ofNat (Nat.lt_of_le_of_lt hmax (by decide))
      have himage : s.image pad ⟨BitVec.ofNat 64 data.length, false⟩ =
          (⟨pad, behind f (count.toNat + data.length)⟩ : StreamDataMsg).image ++ data := by
        rw [State.image, hnat, hbuffer, havail]
      simp [RemoteStream.step, hmessages, hcr, himage] at hs
      subst hs
      have hcount : count.toNat ≤ f.bytes.length := Nat.le_of_add_right_le hle
      exact ⟨_, _, .sending count data true calls hopen hoffset hle hne hmax hbuffer hdata rfl
        havail rfl, hp.transmit hne hdata hcount rfl rfl rfl rfl rfl⟩

/-- When the message is freed the next read begins, or the end of the stream crashes the front
end. -/
theorem free (h : Front f s n) (hs : step f pad loop s .free = some t) :
    Front f t n ∧ SameNode s t := by
  cases h with
  | fresh _ _ hmessages => simp [RemoteStream.step, hmessages] at hs
  | reading _ _ _ _ _ _ hmessages => simp [RemoteStream.step, hmessages] at hs
  | crashed hcr =>
    simp only [RemoteStream.step, hcr, if_true] at hs
    split at hs <;> cases hs
  | sending count data sent calls hopen hoffset hle hne hmax hbuffer hdata hmessages havail hcr =>
    cases sent with
    | false => simp [RemoteStream.step, hmessages] at hs
    | true =>
      have hlt := f.length_lt
      have hnat : (BitVec.ofNat 64 data.length : Size).toNat = data.length :=
        toNat_ofNat (Nat.lt_of_le_of_lt hmax (by decide))
      have hsum : (count + BitVec.ofNat 64 data.length).toNat = count.toNat + data.length := by
        rw [BitVec.toNat_add, hnat]
        omega
      have hdispose : InputStream.step f.source s.stream (.dispose 0) =
          some (disposal f.source ⟨true, count, 1, [], [], [], calls⟩
            ⟨1, BitVec.ofNat 64 data.length⟩) := by
        rw [hopen]
        rfl
      simp only [RemoteStream.step, hmessages, hcr, hdispose, Bool.false_eq_true, if_false,
        Option.map_some, Option.some.injEq] at hs
      subst hs
      refine ⟨?_, SameNode.follow (by exact ⟨rfl, rfl, rfl, rfl, rfl⟩) _⟩
      rw [if_pos rfl, disposal, if_neg (by exact Bool.false_ne_true)]
      by_cases hend : count + BitVec.ofNat 64 data.length = f.source.len
      · have hall : count.toNat + data.length = f.bytes.length := by
          rw [← hsum, hend, FileStage.len_toNat]
        rw [if_pos hend, hall, follow_pass ⟨1, 1, none, 0, true⟩ (by rw [hopen]; rfl)]
        exact .crashed rfl
      · obtain ⟨he, hspawned⟩ :=
          FileStage.asyncReadSome_spawned 0 calls hend (by rw [hsum]; exact hle)
        have hnext : InputStream.asyncReadSome f.source
            ⟨true, count + BitVec.ofNat 64 data.length, 1, [], [], [], calls⟩ =
            ⟨true, count + BitVec.ofNat 64 data.length, 1, [], [1], [], calls⟩ := he
        rw [if_neg hend, hnext, follow_quiet' (by rw [hopen]), ← hsum]
        refine .reading _ [1] calls rfl ?_ ?_ rfl rfl hspawned
        · rw [hsum]
          exact hoffset
        · rw [hsum]
          exact hle

/-- The node does nothing to the front end. -/
theorem receive (h : Front f s n) {rest chain : List (List Byte)} :
    Front f ({ s with wire := rest }.receive loop chain) n := by
  have hnode : ∀ (wire : List (List Byte)) (received : List (List Byte × UInt64))
      (console : List Byte) (eofs : Nat) (threw : Bool), Front f
        ⟨s.stream, s.offset, s.buffer, s.avail, s.messages, s.crashed, wire, received, console,
          eofs, threw⟩ n := by
    intro wire received console eofs threw
    cases h with
    | fresh h₁ h₂ h₃ h₄ => exact .fresh h₁ h₂ h₃ h₄
    | reading count spawned calls h₁ h₂ h₃ h₄ h₅ h₆ =>
      exact .reading count spawned calls h₁ h₂ h₃ h₄ h₅ h₆
    | sending count data sent calls h₁ h₂ h₃ h₄ h₅ h₆ h₇ h₈ h₉ h₁₀ =>
      exact .sending count data sent calls h₁ h₂ h₃ h₄ h₅ h₆ h₇ h₈ h₉ h₁₀
    | crashed h₁ => exact .crashed h₁
  rw [State.receive]
  split
  · rw [RemoteStream.State.consume]
    split <;> exact hnode _ _ _ _ _
  · exact hnode _ _ _ _ _
  · exact hnode _ _ _ _ _

end Front

/-- The front end and the node together: what was transmitted is what the stream has passed on. -/
def Invariant (f : File) (pad : BitVec 32) (loop : Loop) (s : RemoteStream.State) : Prop :=
  ∃ n before after, Front f s n ∧ Passed f pad loop s n before after

namespace Invariant

theorem init (memory : List Byte) (avail : UInt64) : Invariant f pad loop (.init memory avail) :=
  ⟨0, [], [], .fresh rfl rfl rfl rfl, rfl, fun _ hb => absurd hb List.not_mem_nil, rfl, rfl,
    fun _ => List.nil_prefix, fun _ _ => rfl, rfl⟩

theorem step (h : Invariant f pad loop s) {e : RemoteStream.Event}
    (hs : RemoteStream.step f pad loop s e = some t) : Invariant f pad loop t := by
  obtain ⟨n, before, after, hfront, hpassed⟩ := h
  -- the steps of the front end other than `transmit` leave the wire and the node alone
  have hkeep : Front f t n ∧ SameNode s t → Invariant f pad loop t := fun h =>
    ⟨n, before, after, h.1, hpassed.keep h.2.received h.2.wire h.2.console h.2.threw h.2.eofs⟩
  cases e with
  | start => exact hkeep (hfront.start hs)
  | read i k => exact hkeep (hfront.read hs)
  | free => exact hkeep (hfront.free hs)
  | transmit =>
    obtain ⟨n', after', hfront', hpassed'⟩ := hfront.transmit hpassed hs
    exact ⟨n', before, after', hfront', hpassed'⟩
  | deliver chain =>
    simp only [RemoteStream.step] at hs
    split at hs
    · rename_i bytes rest hwire
      obtain ⟨⟨hthrew, hchain⟩, hs⟩ := Option.ite_none_right_eq_some.mp hs
      obtain rfl := Option.some.inj hs
      obtain ⟨b, after', -, hpassed'⟩ := hpassed.deliver hwire hthrew hchain
      exact ⟨n, before ++ [b], after', hfront.receive, hpassed'⟩
    · cases hs

end Invariant

theorem shows_of_test (hw : write.Whole) (hloop : loop = standardin write ∨ loop = filein write) :
    Shows loop := by
  obtain rfl | rfl := hloop
  · exact standardin_shows hw
  · exact filein_shows hw

theorem invariant_of_reachable {memory : List Byte} {avail : UInt64}
    (h : Reachable (RemoteStream.step f pad loop) (.init memory avail) s) :
    Invariant f pad loop s :=
  h.invariant (Invariant.init memory avail) fun _ _ _ hi _ hs => hi.step hs

/-- The consumer on the node has been called with `blocks`, and `rest` are those on the wire. They
are the file from its start in order, each with the number of bytes behind it. The loop of the
consumer shows all that it gets, unless it throws. The end of the stream is not told to it: the
front end crashes at the end instead, but not before it has transmitted the whole file. -/
structure Delivered (f : File) (pad : BitVec 32) (s : RemoteStream.State)
    (blocks rest : List (List Byte)) : Prop where
  received : s.received = callsFor f 0 blocks
  wire : s.wire = messagesOf f pad blocks.flatten.length rest
  isPrefix : (blocks ++ rest).flatten <+: f.bytes
  nonempty : ∀ b ∈ blocks ++ rest, b ≠ []
  console : s.console <+: blocks.flatten
  shown : s.threw = false → s.console = blocks.flatten
  eofs : s.eofs = 0
  crashed : s.crashed = true → (blocks ++ rest).flatten = f.bytes

theorem Invariant.delivered (h : Invariant f pad loop s) (hshows : Shows loop) :
    ∃ blocks rest, Delivered f pad s blocks rest := by
  obtain ⟨n, before, after, hfront, hpassed⟩ := h
  refine ⟨before, after, hpassed.received, hpassed.wire, ?_, hpassed.nonempty,
    hpassed.console hshows, hpassed.all hshows, hpassed.eofs, fun hcrashed => ?_⟩
  · rw [hpassed.blocks]
    exact List.take_prefix n f.bytes
  · have hall : n = f.bytes.length := by
      cases hfront with
      | crashed => rfl
      | fresh _ _ _ hcr | reading _ _ _ _ _ _ _ hcr | sending _ _ _ _ _ _ _ _ _ _ _ _ _ hcr =>
        rw [hcr] at hcrashed
        cases hcrashed
    rw [hpassed.blocks, hall, List.take_length]

/-- When nothing is on the wire any more, the blocks are what was transmitted. -/
theorem Delivered.all {blocks rest : List (List Byte)} (h : Delivered f pad s blocks rest)
    (hcrashed : s.crashed = true) (hwire : s.wire = []) : blocks.flatten = f.bytes := by
  have hnil : rest = [] := by
    cases rest with
    | nil => rfl
    | cons b bs =>
      have hne := h.wire
      rw [hwire, messagesOf] at hne
      cases hne
  have hall := h.crashed hcrashed
  rwa [hnil, List.append_nil] at hall

theorem remoteStream_delivers {memory : List Byte} {avail : UInt64} (hw : write.Whole)
    (hloop : loop = standardin write ∨ loop = filein write)
    (h : Reachable (RemoteStream.step f pad loop) (.init memory avail) s) :
    ∃ blocks rest, Delivered f pad s blocks rest :=
  (invariant_of_reachable h).delivered (shows_of_test hw hloop)

/-- Two reads, of which the second message comes in two buffers. -/
def twoMessages : List RemoteStream.Event :=
  [.start, .read 0 2, .transmit, .deliver [(⟨0, 3⟩ : StreamDataMsg).image ++ [1, 2]], .free,
    .read 0 3, .transmit, .free, .deliver [(⟨0, 0⟩ : StreamDataMsg).image ++ [3], [4, 5]]]

theorem twoMessages_run :
    (run (RemoteStream.step fiveBytes 0 (filein List.length)) (.init [] 0) twoMessages).isSome := by
  decide +kernel

theorem twoMessages_delivered : ∃ blocks rest, Delivered fiveBytes 0
    ((run (RemoteStream.step fiveBytes 0 (filein List.length)) (.init [] 0) twoMessages).get
      twoMessages_run) blocks rest :=
  remoteStream_delivers (fun _ => rfl) (.inr rfl)
    (reachable_of_run (Option.some_get twoMessages_run).symm)

/-- The steps that are left for a message: to transmit it, deliver it and free it. -/
def Outgoing.work (m : Outgoing) : Nat := if m.transmitted then 1 else 3

/-- A read of one byte makes a message of it. -/
def work (f : File) (s : RemoteStream.State) : Nat :=
  4 * (f.bytes.length - s.offset) + (s.messages.map Outgoing.work).sum + s.wire.length

theorem work_pass (s : RemoteStream.State) (call : InputStream.Call) :
    work f (s.pass call) ≤ work f s + 3 := by
  rw [RemoteStream.State.pass]
  split
  · exact Nat.le_add_right _ 3
  · simp only [work, List.map_append, List.sum_append, Outgoing.work, List.map_cons, List.map_nil,
      List.sum_cons, List.sum_nil, Bool.false_eq_true, if_false]
    omega

theorem work_receive (s : RemoteStream.State) (chain : List (List Byte)) :
    work f (s.receive loop chain) = work f s := by
  rw [State.receive]
  split
  · rw [RemoteStream.State.consume]
    split <;> rfl
  · rfl
  · rfl

/-- A step that makes a call adds a message at most. -/
theorem work_follow (h : CallsOnce s.stream stream) : work f (s.follow stream) ≤ work f s + 3 := by
  obtain he | ⟨call, he, -⟩ := h
  · rw [follow_quiet' he]
    exact Nat.le_add_right _ 3
  · rw [follow_pass call he]
    exact work_pass _ call

/-- The disposal of a chunk makes no message, because its call is the one at the end. -/
theorem work_follow_disposal {calling : InputStream.State} (hcalls : calling.calls = s.stream.calls)
    (c : Chunk) : work f (s.follow (disposal f.source calling c)) = work f s := by
  obtain ⟨he, -⟩ | ⟨he, -⟩ := disposal_cases f.source calling c
  · have hquiet := (asyncReadSome_keeps f.source
      { calling with count := calling.count + c.size }).2.2.trans hcalls
    rw [he, follow_quiet' hquiet]
    rfl
  · rw [he, follow_pass ⟨calling.session, c.session, none, 0, calling.doRead⟩
      (congrArg (· ++ [_]) hcalls)]
    rfl

theorem work_step {e : RemoteStream.Event} (h : RemoteStream.step f pad loop s e = some t) :
    work f t + (if e ≠ .start then 1 else 0) ≤ work f s := by
  cases e with
  | start =>
    obtain ⟨-, h⟩ := Option.ite_none_left_eq_some.mp h
    obtain ⟨stream, hstream, rfl⟩ := Option.map_eq_some_iff.mp h
    obtain rfl := Option.some.inj hstream
    have hcalls : (asyncReadStart f.source s.stream).calls = s.stream.calls := by
      obtain ⟨he, -⟩ | ⟨-, hd⟩ := asyncReadStart_cases f.source s.stream
      · rw [he]
      · exact (start_keeps f.source hd).2.2
    rw [follow_quiet' hcalls]
    exact Nat.le_refl _
  | read i k =>
    obtain ⟨⟨-, hpos, -, hend⟩, h⟩ := Option.ite_none_right_eq_some.mp h
    obtain ⟨stream, hstream, rfl⟩ := Option.map_eq_some_iff.mp h
    have hle := work_follow (f := f) (s := { s with
      buffer := fill s.buffer ((f.bytes.drop s.offset).take k), offset := s.offset + k })
      (step_calls (InputStream.step_cases hstream))
    rw [if_pos (by intro he; cases he)]
    refine (Nat.add_le_add_right hle 1).trans ?_
    simp only [work]
    omega
  | transmit =>
    simp only [RemoteStream.step] at h
    split at h
    · cases h
    · rename_i m rest hdrop
      obtain ⟨-, h⟩ := Option.ite_none_left_eq_some.mp h
      obtain rfl := Option.some.inj h
      have hm : m.transmitted = false := by
        have hnot := List.head?_dropWhile_not (·.transmitted) s.messages
        rwa [hdrop] at hnot
      have hsplit := congrArg (fun l => (l.map Outgoing.work).sum)
        (List.takeWhile_append_dropWhile (p := (·.transmitted)) (l := s.messages))
      rw [hdrop] at hsplit
      rw [if_pos (by decide)]
      simp only [work, Outgoing.work, List.map_append, List.map_cons, List.sum_append,
        List.sum_cons, List.length_append, List.length_singleton, hm, Bool.false_eq_true,
        if_false, if_true] at hsplit ⊢
      omega
  | free =>
    simp only [RemoteStream.step] at h
    split at h
    · rename_i size rest hmessages
      obtain ⟨-, h⟩ := Option.ite_none_left_eq_some.mp h
      obtain ⟨stream, hstream, rfl⟩ := Option.map_eq_some_iff.mp h
      cases InputStream.step_cases hstream with
      | dispose _ c hc =>
        rw [if_pos (by decide), work_follow_disposal (by rfl)]
        simp only [work, hmessages, List.map_cons, List.sum_cons, Outgoing.work, if_true]
        omega
    · cases h
  | deliver chain =>
    simp only [RemoteStream.step] at h
    split at h
    · rename_i bytes rest hwire
      obtain ⟨-, h⟩ := Option.ite_none_right_eq_some.mp h
      obtain rfl := Option.some.inj h
      rw [if_pos (by intro he; cases he), work_receive]
      simp only [work, hwire, List.length_cons]
      omega
    · cases h

/-- No run has more than four steps for a byte of the file. -/
theorem remoteStream_bounded {memory : List Byte} {avail : UInt64} {es : List RemoteStream.Event}
    (h : run (RemoteStream.step f pad loop) (.init memory avail) es = some s) :
    es.countP (· ≠ .start) ≤ 4 * f.bytes.length := by
  have hcount := (countP_le_of_run (I := fun _ => True) (work f) (· ≠ .start)
    (fun _ _ _ _ hs => ⟨trivial, by simpa using work_step hs⟩) h trivial).2
  have hinit : work f (.init memory avail) = 4 * f.bytes.length := rfl
  omega

theorem twoMessages_bounded : twoMessages.countP (· ≠ .start) ≤ 4 * fiveBytes.bytes.length :=
  remoteStream_bounded (Option.some_get twoMessages_run).symm

/-- No step but a `kSTREAM_START` is possible. -/
def AtRest (f : File) (pad : BitVec 32) (loop : Loop) (s : RemoteStream.State) : Prop :=
  ∀ e, e ≠ .start → RemoteStream.step f pad loop s e = none

/-- Nothing is left to do when the front end has crashed and the wire is empty. -/
theorem atRest_of_crashed (hcrashed : s.crashed = true) (hwire : s.wire = []) :
    AtRest f pad loop s := by
  intro e he
  cases e with
  | start => exact absurd rfl he
  | read i n => exact if_neg fun h => absurd (hcrashed.symm.trans h.1) (by decide)
  | transmit =>
    rw [RemoteStream.step]
    split
    · rfl
    · exact if_pos hcrashed
  | free =>
    rw [RemoteStream.step]
    split
    · exact if_pos hcrashed
    · rfl
  | deliver chain =>
    rw [RemoteStream.step]
    split
    · rename_i hw
      rw [hwire] at hw
      cases hw
    · rfl

/-- A front end that is at rest, and has been started on a file that is not empty, has crashed. -/
theorem Front.crashed_of_atRest {n : Nat} (h : Front f s n) (hrest : AtRest f pad loop s)
    (hstarted : s.stream ≠ .init) (hne : f.bytes ≠ []) : s.crashed = true := by
  cases h with
  | crashed hcr => exact hcr
  | fresh hinit => exact absurd hinit hstarted
  | reading count spawned calls hopen hoffset hle hmessages hcr hspawned =>
    obtain ⟨rfl, hlt⟩ | ⟨-, hempty⟩ := hspawned
    · rw [BitVec.lt_def, FileStage.len_toNat, ← hoffset] at hlt
      have hread := hrest (.read 0 1) (by decide)
      have hguard : s.crashed = false ∧ 1 ≤ 1 ∧ 1 ≤ kBufferSize ∧ s.offset + 1 ≤ f.bytes.length :=
        ⟨hcr, Nat.le_refl 1, by decide, hlt⟩
      rw [RemoteStream.step, if_pos hguard, hopen] at hread
      cases hread
    · exact absurd hempty hne
  | sending count data sent calls hopen hoffset hle hdata hmax hbuffer hfrom hmessages havail hcr =>
    cases sent with
    | false =>
      have htransmit := hrest .transmit (by decide)
      simp [RemoteStream.step, hmessages, hcr] at htransmit
    | true =>
      have hfree := hrest .free (by decide)
      simp [RemoteStream.step, hmessages, hcr, hopen, InputStream.step] at hfree

/-- A run that is at rest has delivered the whole file, unless the consumer has thrown. -/
theorem remoteStream_completes {memory : List Byte} {avail : UInt64} (hw : write.Whole)
    (hloop : loop = standardin write ∨ loop = filein write)
    (h : Reachable (RemoteStream.step f pad loop) (.init memory avail) s)
    (hrest : AtRest f pad loop s) (hstarted : s.stream ≠ .init) (hne : f.bytes ≠ [])
    (hthrew : s.threw = false) :
    s.crashed = true ∧ (s.received.map Prod.fst).flatten = f.bytes ∧ s.console = f.bytes := by
  have hinv := invariant_of_reachable h
  obtain ⟨blocks, rest, hdelivered⟩ := hinv.delivered (shows_of_test hw hloop)
  obtain ⟨n, before, after, hfront, -⟩ := hinv
  have hcrashed := hfront.crashed_of_atRest hrest hstarted hne
  have hwire : s.wire = [] := by
    cases hw : s.wire with
    | nil => rfl
    | cons bytes rest =>
      have hdeliver := hrest (.deliver [bytes]) (by intro he; cases he)
      simp [RemoteStream.step, hw, hthrew] at hdeliver
  have hall := hdelivered.all hcrashed hwire
  rw [hdelivered.received, map_callsFor, hdelivered.shown hthrew, hall]
  exact ⟨hcrashed, rfl, rfl⟩

theorem twoMessages_completes :
    let s := (run (RemoteStream.step fiveBytes 0 (filein List.length)) (.init [] 0)
      twoMessages).get twoMessages_run
    s.crashed = true ∧ (s.received.map Prod.fst).flatten = fiveBytes.bytes ∧
      s.console = fiveBytes.bytes :=
  remoteStream_completes (fun _ => rfl) (.inr rfl)
    (reachable_of_run (Option.some_get twoMessages_run).symm)
    (atRest_of_crashed (by decide +kernel) (by decide +kernel)) (by decide +kernel) (by decide)
    (by decide +kernel)

end EbbrtContrib.RemoteStreamCopy
