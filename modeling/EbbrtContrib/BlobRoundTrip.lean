import EbbrtContrib.ArgBlobs

namespace EbbrtContrib.BlobRoundTrip

open CString Argv ArgBlobs

/-- Each string followed by a NUL. -/
def blob (args : List CStr) : List Byte := args.flatMap fun a => a.bytes ++ [NUL]

/-- The bytes are in the memory from index `p` on. -/
def Holds (memory : Nat → Byte) (p : Nat) (bytes : List Byte) : Prop :=
  ∀ i (h : i < bytes.length), memory (p + i) = bytes[i]

/-- The entries of the vector lead to the strings, and it ends with NULL. -/
def Lists (memory : Nat → Byte) (v : Nat → Slot) (args : List CStr) : Prop :=
  (∀ i (h : i < args.length), ∃ p, v i = .ptr p ∧ Holds memory p (args[i].bytes ++ [NUL])) ∧
    v args.length = .null

/-- What both decoders make of the blob that both encoders make of a list. The vector of the first
one leads into the copy of the blob that its constructor has made and that ends with it: `memory`
is what there is when `argv(i)` is read. The second one leads into the data of its root, which
stays. -/
structure RoundTrip (memory : Nat → Byte) (args : List CStr) : Prop where
  cmdLineArgs : ∃ c, CmdLineArgs.construct (CmdLineArgs.init args) = .ok c ∧
    c.argc = args.length ∧ Lists memory c.argv args ∧ c.data c.argc = .null
  environment : ∀ environ, environ = args.map some ++ [none] → ∀ heap data,
    Holds data 0 (Environment.init environ) →
      ∃ e, Environment.construct heap (Environment.init environ) = .ok e ∧ Lists data e.slots args

/-- The vector is `ps`, and NULL behind it. -/
def Points (v : Nat → Slot) (ps : List Nat) : Prop :=
  ∀ i ≤ ps.length, v i = (ps[i]?.map Slot.ptr).getD .null

/-- The decoders make the same vector of a blob, whatever the memory of the second one held. -/
def SameVector (data : List Byte) : Prop :=
  ∀ heap, ∃ c e ps, CmdLineArgs.construct data = .ok c ∧ Environment.construct heap data = .ok e ∧
    Points c.data ps ∧ Points e.slots ps

theorem foldl_append_eq (args : List CStr) (str : List Byte) :
    args.foldl append str = str ++ blob args := by
  induction args generalizing str with
  | nil => simp [blob]
  | cons a args ih =>
    rw [List.foldl_cons, ih]
    simp [append, blob]

theorem cmdLineArgs_init (args : List CStr) : CmdLineArgs.init args = blob args :=
  foldl_append_eq args []

theorem initFrom_eq (args : List CStr) (rest : List (Option CStr)) (str : List Byte) :
    Environment.initFrom str (args.map some ++ none :: rest) = args.foldl append str := by
  induction args generalizing str with
  | nil => rfl
  | cons a args ih => exact ih (append str a)

/-- Both `Init` make the same blob. -/
theorem environment_init (args : List CStr) :
    Environment.init (args.map some ++ [none]) = blob args :=
  (initFrom_eq args [] []).trans (foldl_append_eq args [])

theorem toInt_of_le {size : Nat} (h : size ≤ INT_MAX) : toInt size = size := by
  simp only [INT_MAX] at h
  rw [toInt, if_pos (by omega), Nat.mod_eq_of_lt (by omega)]

theorem toInt_lt {size : Nat} (h : INT_MAX < size) : (toInt size).toNat < size := by
  simp only [INT_MAX] at h
  rw [toInt]
  split <;> omega

/-- The pointers of a vector, in order. -/
def entries (data : List Byte) : List Nat :=
  0 :: (starts 0 data).take (countNul data (toInt data.length) - 1)

/-- What the first constructor makes of a blob. -/
def decoded (data : List Byte) : CmdLineArgs where
  argvVector := (entries data).map Slot.ptr ++ [.null]
  argc := countNul data (toInt data.length)

theorem countNul_le (data : List Byte) (len : Int) : countNul data len ≤ data.count NUL :=
  count_take_le data len.toNat

theorem length_entries (data : List Byte) :
    (entries data).length = countNul data (toInt data.length) - 1 + 1 := by
  have hle := countNul_le data (toInt data.length)
  rw [entries, List.length_cons, List.length_take, length_starts]
  omega

theorem cmdLineArgs_construct (data : List Byte) :
    CmdLineArgs.construct data =
      if INT_MAX ≤ countNul data (toInt data.length) then .error .overflow
      else .ok (decoded data) := by
  have hle := countNul_le data (toInt data.length)
  rw [CmdLineArgs.construct, scan_eq _ _ _ _ _ _ (by omega), foldl_append, reserve]
  by_cases h : INT_MAX ≤ countNul data (toInt data.length)
  · rw [if_pos h, if_pos (Nat.lt_succ_of_le h)]
    rfl
  · rw [if_neg h, if_neg (by omega)]
    rfl

theorem environment_construct (heap : Nat → Slot) (data : List Byte) :
    ∃ e, Environment.construct heap data = .ok e ∧ ∀ i, e.slots i =
      ((entries data)[i]?.map Slot.ptr).getD
        (if i = countNul data (toInt data.length) then .null else heap i) := by
  have hle := countNul_le data (toInt data.length)
  refine ⟨_, scan_eq _ _ _ _ _ _ (by omega), fun i => ?_⟩
  rw [foldl_write]
  cases i with
  | zero =>
    rw [if_neg (by omega)]
    rfl
  | succ i =>
    rw [if_pos (by omega), Nat.add_sub_cancel, entries, List.getElem?_cons_succ]
    congr 1
    simp only [Environment.write, Function.update_apply, Nat.add_one_ne_zero, if_false]

theorem points_decoded (data : List Byte) : Points (decoded data).data (entries data) := by
  intro i hi
  rw [CmdLineArgs.data, decoded]
  obtain hlt | rfl := Nat.lt_or_eq_of_le hi
  · rw [List.getElem?_append_left (by simpa using hlt), List.getElem?_map]
    simp [hlt]
  · simp

theorem points_unique {v : Nat → Slot} {ps qs : List Nat} (hp : Points v ps) (hq : Points v qs) :
    ps = qs := by
  have hlen : ∀ {as bs : List Nat}, Points v as → Points v bs → as.length ≤ bs.length := by
    intro as bs ha hb
    by_contra hlt
    have hnull := hb bs.length le_rfl
    rw [ha bs.length (by omega), List.getElem?_eq_getElem (by omega)] at hnull
    simp at hnull
  have heq := le_antisymm (hlen hp hq) (hlen hq hp)
  refine List.ext_getElem heq fun i hi hi' => ?_
  have h := hp i hi.le
  rw [hq i hi'.le, List.getElem?_eq_getElem hi, List.getElem?_eq_getElem hi'] at h
  simpa using h.symm

theorem starts_append (i : Nat) {s : List Byte} (data : List Byte) (hs : NUL ∉ s) :
    starts i (s ++ NUL :: data) = (i + s.length + 1) :: starts (i + s.length + 1) data := by
  induction s generalizing i with
  | nil => simp [starts]
  | cons c s ih =>
    simp only [List.mem_cons, not_or] at hs
    rw [List.cons_append, starts, if_neg (Ne.symm hs.1), ih _ hs.2, List.length_cons]
    congr 2 <;> omega

section

variable {memory : Nat → Byte} {p : Nat}

theorem holds_append {xs ys : List Byte} :
    Holds memory p (xs ++ ys) ↔ Holds memory p xs ∧ Holds memory (p + xs.length) ys := by
  constructor
  · intro h
    refine ⟨fun i hi => ?_, fun i hi => ?_⟩
    · rw [h i (by rw [List.length_append]; omega), List.getElem_append_left hi]
    · rw [Nat.add_assoc, h (xs.length + i) (by rw [List.length_append]; omega),
        List.getElem_append_right (by omega)]
      simp only [Nat.add_sub_cancel_left]
  · rintro ⟨hxs, hys⟩ i hi
    by_cases hlt : i < xs.length
    · rw [List.getElem_append_left hlt, hxs i hlt]
    · rw [List.length_append] at hi
      rw [List.getElem_append_right (by omega), ← hys (i - xs.length) (by omega), Nat.add_assoc,
        Nat.add_sub_cancel' (by omega)]

/-- What a C string that is in memory is read as. -/
theorem strAt_of_holds {buf s : List Byte} {p : Nat} (hs : NUL ∉ s)
    (h : Holds (fun i => buf[i]?.getD NUL) p (s ++ [NUL])) : strAt buf p = s := by
  induction s generalizing p with
  | nil =>
    have hnul : buf[p]?.getD NUL = NUL := h 0 (Nat.succ_pos _)
    rw [strAt]
    by_cases hp : p < buf.length
    · rw [List.getElem?_eq_getElem hp, Option.getD_some] at hnul
      rw [List.drop_eq_getElem_cons hp, hnul]
      rfl
    · rw [List.drop_eq_nil_of_le (Nat.le_of_not_lt hp), List.takeWhile_nil]
  | cons c s ih =>
    obtain ⟨hc, hs⟩ := not_or.mp (mt List.mem_cons.mpr hs)
    have hfirst : buf[p]?.getD NUL = c := h 0 (Nat.succ_pos _)
    have hrest := (holds_append.mp (show Holds _ p ([c] ++ (s ++ [NUL])) from h)).2
    have hp : p < buf.length := by
      by_contra hp
      rw [List.getElem?_eq_none (Nat.le_of_not_lt hp)] at hfirst
      exact hc hfirst
    rw [List.getElem?_eq_getElem hp, Option.getD_some] at hfirst
    have hne : decide (c ≠ NUL) = true := decide_eq_true (Ne.symm hc)
    rw [strAt, List.drop_eq_getElem_cons hp, hfirst, List.takeWhile_cons, if_pos hne]
    exact congrArg (c :: ·) (ih hs hrest)

theorem blob_cons (a : CStr) (args : List CStr) :
    blob (a :: args) = (a.bytes ++ [NUL]) ++ blob args := rfl

theorem starts_blob (a : CStr) (args : List CStr) :
    starts p (blob (a :: args)) =
      (p + (a.bytes ++ [NUL]).length) :: starts (p + (a.bytes ++ [NUL]).length) (blob args) := by
  rw [blob_cons, List.append_assoc, List.singleton_append, starts_append _ _ a.nul_free,
    List.length_append, List.length_singleton, Nat.add_assoc]

/-- The blob is in memory exactly when each string is, at its start. -/
theorem holds_blob_iff (args : List CStr) : Holds memory p (blob args) ↔
    ∀ i (h : i < args.length), ∃ q, (p :: starts p (blob args))[i]? = some q ∧
      Holds memory q (args[i].bytes ++ [NUL]) := by
  induction args generalizing p with
  | nil => exact iff_of_true (fun i hi => by cases hi) fun i hi => by cases hi
  | cons a args ih =>
    rw [starts_blob, blob_cons, holds_append, ih]
    constructor
    · rintro ⟨ha, hargs⟩ i hi
      cases i with
      | zero => exact ⟨p, rfl, ha⟩
      | succ i => exact hargs i (Nat.lt_of_succ_lt_succ hi)
    · intro h
      refine ⟨?_, fun i hi => h (i + 1) (Nat.succ_lt_succ hi)⟩
      obtain ⟨q, hq, ha⟩ := h 0 (Nat.succ_pos _)
      obtain rfl := Option.some.inj hq
      exact ha

end

theorem count_blob (args : List CStr) : (blob args).count NUL = args.length := by
  induction args with
  | nil => rfl
  | cons a args ih =>
    have hblob : blob (a :: args) = a.bytes ++ (NUL :: blob args) := by simp [blob]
    rw [hblob, List.count_append, List.count_eq_zero.mpr a.nul_free, List.count_cons_self, ih,
      List.length_cons, Nat.zero_add]

/-- A blob ends in a NUL, so a part of it that is too short misses one. -/
theorem count_take_lt {args : List CStr} (hne : args ≠ []) {k : Nat} (hk : k < (blob args).length) :
    ((blob args).take k).count NUL < args.length := by
  obtain ⟨init, last, rfl⟩ := List.eq_nil_or_concat' args |>.resolve_left hne
  have hblob : blob (init ++ [last]) = (blob init ++ last.bytes) ++ [NUL] := by simp [blob]
  have hcount := count_blob (init ++ [last])
  rw [hblob, List.count_append, List.count_singleton_self] at hcount
  rw [hblob, List.length_append, List.length_singleton] at hk
  rw [hblob, List.take_append_of_le_length (by omega), ← hcount]
  exact Nat.lt_succ_of_le (count_take_le _ k)

theorem countNul_blob {args : List CStr} (h : (blob args).length ≤ INT_MAX) :
    countNul (blob args) (toInt (blob args).length) = args.length := by
  rw [countNul, toInt_of_le h, Int.toNat_natCast, List.take_length, count_blob]

/-- The vector of the entries of a blob lists its strings exactly when it is in memory. -/
theorem lists_iff_of_points {memory : Nat → Byte} {args : List CStr} (hne : args ≠ [])
    (h : (blob args).length ≤ INT_MAX) {v : Nat → Slot} (hv : Points v (entries (blob args))) :
    Lists memory v args ↔ Holds memory 0 (blob args) := by
  have hpos := List.length_pos_iff.mpr hne
  have hlen : (entries (blob args)).length = args.length := by
    rw [length_entries, countNul_blob h]
    omega
  have hentry : ∀ i < args.length,
      v i = ((0 :: starts 0 (blob args))[i]?.map Slot.ptr).getD .null := by
    intro i hi
    rw [hv i (hlen.symm ▸ hi.le), entries, countNul_blob h, ← List.take_succ_cons,
      List.getElem?_take_of_lt (by omega)]
  have hnull : v args.length = .null := by
    have hlast := hv args.length hlen.ge
    rwa [List.getElem?_eq_none hlen.le] at hlast
  rw [holds_blob_iff]
  constructor
  · rintro ⟨hptr, -⟩ i hi
    obtain ⟨p, hp, hstr⟩ := hptr i hi
    rw [hentry i hi] at hp
    cases hq : (0 :: starts 0 (blob args))[i]? with
    | none =>
      rw [hq] at hp
      cases hp
    | some q =>
      rw [hq] at hp
      cases hp
      exact ⟨p, rfl, hstr⟩
  · intro hstrs
    refine ⟨fun i hi => ?_, hnull⟩
    obtain ⟨q, hq, hstr⟩ := hstrs i hi
    refine ⟨q, ?_, hstr⟩
    rw [hentry i hi, hq]
    rfl

theorem not_lists_nil {memory : Nat → Byte} {v : Nat → Slot} {p : Nat} (h : v 0 = .ptr p) :
    ¬ Lists memory v [] := by
  intro hl
  have hnull : v 0 = .null := hl.2
  rw [h] at hnull
  cases hnull

/-- The list is not empty, and an `int` can hold its length and that of its blob. -/
structure Short (args : List CStr) : Prop where
  nonempty : args ≠ []
  size : (blob args).length ≤ INT_MAX
  count : args.length < INT_MAX

theorem Short.construct {args : List CStr} (h : Short args) :
    CmdLineArgs.construct (CmdLineArgs.init args) = .ok (decoded (blob args)) ∧
      (decoded (blob args)).argc = args.length := by
  have hcount := countNul_blob h.size
  have hlt := h.count
  refine ⟨?_, hcount⟩
  rw [cmdLineArgs_init, cmdLineArgs_construct, hcount, if_neg (by omega)]

theorem roundTrip_of_short {memory : Nat → Byte} {args : List CStr} (h : Short args)
    (hmemory : Holds memory 0 (blob args)) : RoundTrip memory args := by
  have hcount := countNul_blob h.size
  have hpos := List.length_pos_iff.mpr h.nonempty
  obtain ⟨hconstruct, hargc⟩ := h.construct
  have hlists : Lists memory (decoded (blob args)).argv args :=
    (lists_iff_of_points h.nonempty h.size (points_decoded _)).mpr hmemory
  refine ⟨⟨decoded (blob args), hconstruct, hargc, hlists, ?_⟩, ?_⟩
  · rw [hargc]
    exact hlists.2
  · rintro _ rfl heap data hdata
    rw [environment_init] at hdata ⊢
    obtain ⟨e, he, hslots⟩ := environment_construct heap (blob args)
    refine ⟨e, he, (lists_iff_of_points h.nonempty h.size fun i hi => ?_).mpr hdata⟩
    rw [length_entries, hcount] at hi
    rw [hslots, hcount]
    by_cases hi' : i = args.length
    · rw [if_pos hi']
    · have hlt : i < (entries (blob args)).length := by
        rw [length_entries, hcount]
        omega
      rw [if_neg hi', List.getElem?_eq_getElem hlt]
      rfl

theorem short_of_roundTrip {memory : Nat → Byte} {args : List CStr} (h : RoundTrip memory args) :
    Short args ∧ Holds memory 0 (blob args) := by
  obtain ⟨c, hc, hargc, hlists, -⟩ := h.cmdLineArgs
  rw [cmdLineArgs_init, cmdLineArgs_construct] at hc
  split at hc
  · cases hc
  · rename_i hlt
    obtain rfl := Except.ok.inj hc
    have hne : args ≠ [] := by
      rintro rfl
      have hfirst : (decoded (blob [])).argv 0 = .ptr 0 := rfl
      exact not_lists_nil hfirst hlists
    have hcount : countNul (blob args) (toInt (blob args).length) = args.length := hargc
    have hsize : (blob args).length ≤ INT_MAX := by
      by_contra hsize
      exact (count_take_lt hne (toInt_lt (Nat.lt_of_not_le hsize))).ne hcount
    exact ⟨⟨hne, hsize, by omega⟩, (lists_iff_of_points hne hsize (points_decoded _)).mp hlists⟩

/-- Without a NUL the second vector is not ended. -/
theorem sameVector_iff (data : List Byte) : SameVector data ↔
    0 < countNul data (toInt data.length) ∧ countNul data (toInt data.length) < INT_MAX := by
  constructor
  · intro h
    obtain ⟨c, e, ps, hc, he, hcp, hep⟩ := h fun _ => .uninit
    rw [cmdLineArgs_construct] at hc
    split at hc
    · cases hc
    · rename_i hlt
      obtain rfl := Except.ok.inj hc
      refine ⟨?_, Nat.lt_of_not_le hlt⟩
      by_contra hzero
      have hcount : countNul data (toInt data.length) = 0 := by omega
      have hlen := length_entries data
      rw [hcount] at hlen
      obtain rfl := points_unique (points_decoded data) hcp
      obtain ⟨e', he', hslots⟩ := environment_construct (fun _ => .uninit) data
      obtain rfl := Except.ok.inj (he.symm.trans he')
      have hnull := hep 1 (by omega)
      rw [hslots, List.getElem?_eq_none (by omega), hcount, if_neg (by omega)] at hnull
      cases hnull
  · rintro ⟨hpos, hlt⟩ heap
    obtain ⟨e, he, hslots⟩ := environment_construct heap data
    refine ⟨decoded data, e, entries data, ?_, he, points_decoded data, fun i hi => ?_⟩
    · rw [cmdLineArgs_construct, if_neg (by omega)]
    · rw [hslots]
      have hlen := length_entries data
      by_cases hi' : i = countNul data (toInt data.length)
      · rw [if_pos hi']
      · rw [if_neg hi', List.getElem?_eq_getElem (by omega)]
        rfl

/-- Both decoders read a list back exactly when it is not empty, its blob is not too long for an
`int`, and the memory of the copy that the first one made is still that of the blob; they make the
same vector of a blob exactly when it has a NUL. -/
theorem blobs_iff (memory : Nat → Byte) (args : List CStr) (data : List Byte) :
    (RoundTrip memory args ↔ Short args ∧ Holds memory 0 (blob args)) ∧
      (SameVector data ↔ 0 < (data.take (toInt data.length).toNat).count NUL ∧
        (data.take (toInt data.length).toNat).count NUL < INT_MAX) :=
  ⟨⟨short_of_roundTrip, fun h => roundTrip_of_short h.1 h.2⟩, sameVector_iff data⟩

/-- The empty list: `argv(0)` points at the blob, and `environ_` has no NULL of its own. -/
theorem empty_not_roundTrip : (∀ memory, ¬ RoundTrip memory []) ∧ ¬ SameVector (blob []) := by
  refine ⟨fun memory h => (short_of_roundTrip h).1.nonempty rfl, fun h => ?_⟩
  have hpos := ((sameVector_iff (blob [])).mp h).1
  exact absurd hpos (by decide)

/-- The memory of the copy of `A` is overwritten before `argv(0)` is read. -/
example : ¬ RoundTrip (fun _ => 0x42) [⟨[0x41], by decide⟩] := fun h =>
  absurd ((short_of_roundTrip h).2 0 (by decide)) (by decide)

end EbbrtContrib.BlobRoundTrip
