import YaNuget.Symbols.PeAgreement

/-!
# The passes of the scan

A forward reader answers a program's reads if they follow one another, and then
gives what may be read anywhere. Records that follow one another, but not the
headers, are what the second pass is for.
-/
namespace YaNuget.Pe

open Reads

section Forwards

variable {bytes : List UInt8} {file : Forward} {offset n pos' : ℕ} {α : Type}

/-- The reader stands within the bytes and its limit. -/
structure Forward.At (bytes : List UInt8) (file : Forward) : Prop where
  rest : file.rest = bytes.drop file.pos
  pos_le : file.pos ≤ bytes.length
  pos_le_len : file.pos ≤ file.len
  len_le : file.len ≤ maxScanBytes

theorem Forward.at_new {len : ℕ} (h : len ≤ maxScanBytes) : (Forward.new bytes len).At bytes :=
  ⟨rfl, Nat.zero_le _, Nat.zero_le _, h⟩

/-- How far the reader may read. -/
def Forward.limit (bytes : List UInt8) (file : Forward) : ℕ := min file.len bytes.length

theorem Forward.At.readAt_eq (h : file.At bytes) (hpos : file.pos ≤ offset)
    (hlimit : offset + n ≤ file.limit bytes) :
    file.readAt offset n = (some (piece bytes offset n),
      { file with rest := bytes.drop (offset + n), pos := offset + n }) := by
  have hlen := h.len_le
  have hmax : maxScanBytes < 2 ^ 64 - 1 := by decide
  obtain ⟨hle, hle'⟩ := Nat.le_min.mp hlimit
  have hinside : ¬ (2 ^ 64 ≤ offset + n ∨ file.len < offset + n) := by omega
  have hrest : file.rest.length = bytes.length - file.pos := by rw [h.rest, List.length_drop]
  have hskip : min (offset - file.pos) file.rest.length = offset - file.pos := by omega
  have hdrop : file.rest.drop (offset - file.pos) = bytes.drop offset := by
    rw [h.rest, List.drop_drop, Nat.add_sub_cancel' hpos]
  have hpos' : file.pos + (offset - file.pos) = offset := Nat.add_sub_cancel' hpos
  have hplace : file.pos ≠ 2 ^ 64 - 1 := by
    have := h.pos_le_len
    omega
  unfold readAt
  rw [if_neg hinside, if_neg hplace, if_neg (Nat.not_lt.mpr hpos)]
  simp only [hskip, ne_eq, not_true_eq_false, if_false, hdrop, hpos', List.length_drop]
  rw [if_neg (by omega), List.drop_drop]
  rfl

theorem Forward.At.readAt_behind (h : file.At bytes) (hpos : offset < file.pos)
    (hlimit : offset + n ≤ file.len) :
    file.readAt offset n = (none, { file with behind := true }) := by
  have hlen := h.len_le
  have hmax : maxScanBytes < 2 ^ 64 - 1 := by decide
  have hinside : ¬ (2 ^ 64 ≤ offset + n ∨ file.len < offset + n) := by omega
  have hplace : file.pos ≠ 2 ^ 64 - 1 := by
    have := h.pos_le_len
    omega
  unfold readAt
  rw [if_neg hinside, if_neg hplace, if_pos hpos]

theorem Forward.At.readAt_eq_none (h : file.At bytes)
    (hnot : ¬ (file.pos ≤ offset ∧ offset + n ≤ file.limit bytes)) :
    (file.readAt offset n).1 = none := by
  have hrest : file.rest.length = bytes.length - file.pos := by rw [h.rest, List.length_drop]
  have hle := h.pos_le
  unfold limit at hnot
  unfold readAt
  split_ifs with hout hplace hbehind
  · rfl
  · rfl
  · rfl
  · simp only
    split_ifs with hskip hshort
    · rfl
    · rfl
    · exfalso
      rw [List.length_drop] at hshort
      omega

theorem Forward.At.advance (h : file.At bytes) (hlimit : offset + n ≤ file.limit bytes) :
    Forward.At bytes { file with rest := bytes.drop (offset + n), pos := offset + n } := by
  obtain ⟨hle, hle'⟩ := Nat.le_min.mp hlimit
  exact ⟨rfl, hle', hle, h.len_le⟩

/-- Reads that follow one another are answered, as if any offset could be read. -/
theorem Forward.At.run_eq {p : Reading UInt8 α} (h : file.At bytes)
    (hfollows : follows (file.limit bytes) file.pos (p.extents bytes) = true) :
    ∃ a file', p.value bytes = some a ∧ file.run p = (some a, file') ∧ file'.At bytes ∧
      file'.len = file.len ∧ file'.behind = file.behind := by
  induction p generalizing file with
  | done a => exact ⟨a, file, rfl, rfl, h, rfl, rfl⟩
  | read offset n next ih =>
    simp only [Reading.extents, follows, Bool.and_eq_true, decide_eq_true_eq] at hfollows
    obtain ⟨⟨hpos, hlimit⟩, hrest⟩ := hfollows
    have hin : offset + n ≤ bytes.length := (Nat.le_min.mp hlimit).2
    rw [if_pos hin] at hrest
    obtain ⟨a, file', hvalue, hrun, hat, hlen, hbehind⟩ :=
      ih (piece bytes offset n) (h.advance hlimit) hrest
    refine ⟨a, file', ?_, ?_, hat, hlen, hbehind⟩
    · rw [Reading.value, if_pos hin, hvalue]
    · rw [run, h.readAt_eq hpos hlimit]
      exact hrun

theorem Forward.At.run_eq_none {p : Reading UInt8 α} (h : file.At bytes)
    (hnot : follows (file.limit bytes) file.pos (p.extents bytes) = false) :
    (file.run p).1 = none := by
  induction p generalizing file with
  | done a => cases hnot
  | read offset n next ih =>
    rw [run]
    by_cases hread : file.pos ≤ offset ∧ offset + n ≤ file.limit bytes
    · have hin : offset + n ≤ bytes.length := (Nat.le_min.mp hread.2).2
      simp only [Reading.extents, follows, hread, if_pos hin] at hnot
      rw [h.readAt_eq hread.1 hread.2]
      exact ih (piece bytes offset n) (h.advance hread.2) hnot
    · have hnone := h.readAt_eq_none hread
      cases hat : file.readAt offset n with
      | mk answer file' =>
        rw [hat] at hnone
        subst hnone
        rfl

theorem Forward.At.run_behind {p : Reading UInt8 α} (h : file.At bytes)
    (hnot : follows (file.limit bytes) file.pos (p.extents bytes) = false)
    (hfollows : follows (file.limit bytes) pos' (p.extents bytes) = true) :
    (file.run p).2.behind = true := by
  cases p with
  | done a => cases hnot
  | read offset n next =>
    obtain ⟨hbehind, hlimit⟩ := head_behind hfollows hnot
    rw [run, h.readAt_behind hbehind (Nat.le_min.mp hlimit).1]

end Forwards

section Extents

variable {bytes : List UInt8} {h : Headers} {limit pos : ℕ}

theorem headers_eq_some {bound : Bounds} (hh : headers bound bytes = some h) :
    h = ⟨numberAt 4 bytes 0x3C, numberAt 2 bytes (numberAt 4 bytes 0x3C + 6),
      numberAt 2 bytes (numberAt 4 bytes 0x3C + 20)⟩ ∧
    64 ≤ bytes.length ∧ piece bytes 0 2 = [0x4D, 0x5A] ∧ h.peAt + 24 ≤ bytes.length ∧
      piece bytes h.peAt 4 = [0x50, 0x45, 0, 0] ∧ h.sections ≤ bound.sections ∧
      h.optionalSize ≤ bound.optionalSize ∧ h.tableAt ≤ bytes.length := by
  unfold headers at hh
  simp only at hh
  split_ifs at hh with hall
  obtain rfl := Option.some.inj hh
  exact ⟨rfl, hall⟩

theorem value_locate_of_headers (hh : headers .scan bytes = some h) :
    locate.value bytes =
      (locateDirectory h (piece bytes h.optionalAt h.optionalSize)).value bytes := by
  obtain ⟨rfl, hdos, hmz, hcoff, hpe, hsections, hoptional, htable⟩ := headers_eq_some hh
  rw [value_locate, if_pos hdos, if_pos hmz, if_pos hcoff, if_pos hpe]
  simp only
  rw [if_pos ⟨hsections, hoptional⟩, if_pos htable]

theorem follows_locateDirectory (hlimit : limit ≤ bytes.length) (htable : h.tableAt ≤ bytes.length) :
    follows limit h.tableAt
        ((locateDirectory h (piece bytes h.optionalAt h.optionalSize)).extents bytes) =
      follows limit h.tableAt (h.tableExtents .scan bytes) := by
  unfold locateDirectory Headers.tableExtents
  rw [debugField_piece htable]
  cases h.debugField bytes with
  | none => rfl
  | some field =>
    cases field with
    | none => rfl
    | some field =>
      obtain ⟨rva, size⟩ := field
      simp only
      rw [follows_read hlimit, follows, debugAt_piece]
      cases h.fileOffset bytes rva with
      | none => rfl
      | some start =>
        simp only
        rw [follows_read hlimit]
        rfl

/-- The headers of an image are read one after the other. -/
theorem follows_locate (hlimit : limit ≤ bytes.length) (hh : headers .scan bytes = some h) :
    follows limit 0 (locate.extents bytes) = follows limit 0 (h.extents .scan bytes) := by
  obtain ⟨heq, -, hmz, -, hpe, hsections, hoptional, htable⟩ := headers_eq_some hh
  have hmagic : (piece bytes 0 64).take 2 = [0x4D, 0x5A] := (take_piece (by decide)).trans hmz
  have hpeAt : numberAt 4 (piece bytes 0 64) 0x3C = h.peAt := by
    rw [numberAt_piece (by decide), Nat.zero_add, heq]
  have hsignature : (piece bytes h.peAt 24).take 4 = [0x50, 0x45, 0, 0] :=
    (take_piece (by decide)).trans hpe
  have hcount : numberAt 2 (piece bytes h.peAt 24) 6 = h.sections := by
    rw [numberAt_piece (by decide), heq]
  have hsize : numberAt 2 (piece bytes h.peAt 24) 20 = h.optionalSize := by
    rw [numberAt_piece (by decide), heq]
  have hbounds : ¬ (maxSections < h.sections ∨ 1024 < h.optionalSize) := by
    rw [not_or, Nat.not_lt, Nat.not_lt]
    exact ⟨hsections, hoptional⟩
  have hrest := follows_locateDirectory hlimit htable
  unfold locate Headers.extents
  rw [follows_read hlimit, if_neg (not_not.mpr hmagic)]
  simp only [hpeAt]
  rw [follows_read hlimit, if_neg (not_not.mpr hsignature)]
  simp only [hcount, hsize]
  rw [if_neg hbounds, follows_read hlimit, follows, follows, follows]
  refine congrArg (_ && ·) (congrArg (_ && ·) (congrArg (_ && ·) ?_))
  exact hrest

/-- The data of the records is read one after the other. -/
theorem follows_readRecords (hlimit : limit ≤ bytes.length) (rs : List Record)
    (out : DebugDirectory) :
    follows limit pos ((readRecords rs out).extents bytes) =
      follows limit pos (rs.filterMap (Record.extent .scan)) := by
  induction rs generalizing pos out with
  | nil => rfl
  | cons r rest ih =>
    unfold readRecords
    by_cases hview : r.kind = debugTypeCodeView ∧ 24 ≤ r.size
    · have hextent : r.extent .scan = some (r.pointer, 24) := if_pos hview
      rw [if_pos hview, follows_read hlimit, List.filterMap_cons_some hextent, follows, ih]
    · rw [if_neg hview]
      by_cases hcheck : r.kind = debugTypePdbChecksum ∧ 1 < r.size ∧ r.size ≤ 256
      · have hextent : r.extent .scan = some (r.pointer, r.size) :=
          (if_neg hview).trans (if_pos hcheck)
        rw [if_pos hcheck, follows_read hlimit, List.filterMap_cons_some hextent, follows, ih]
      · have hextent : r.extent .scan = none := (if_neg hview).trans (if_neg hcheck)
        rw [if_neg hcheck, List.filterMap_cons_none hextent, ih]

end Extents
section Passes

variable {bytes : List UInt8} {len : ℕ} {rs : List Record}

/-- What the image says, its records taken in file order. -/
def readInOrder (bytes : List UInt8) : Option DebugDirectory :=
  (records .scan bytes).bind fun rs => directoryOf .scan bytes (inFileOrder rs)

def scanLimit (bytes : List UInt8) (len : ℕ) : ℕ := min (min len maxScanBytes) bytes.length

/-- The headers of the image and its tables lie one after the other, and the data of its
records does. -/
def Followable (bytes : List UInt8) (len : ℕ) : Prop :=
  ∀ h, headers .scan bytes = some h → follows (scanLimit bytes len) 0 (h.extents .scan bytes) = true ∧
    ∀ rs, h.records .scan bytes = some rs →
      follows (scanLimit bytes len) 0 ((inFileOrder rs).filterMap (Record.extent .scan)) = true

/-- The reads of the scan follow one another, those of the headers and those of the records
it has located. -/
def ReadsFollow (bytes : List UInt8) (len : ℕ) : Prop :=
  follows (scanLimit bytes len) 0 (locate.extents bytes) = true ∧
    ∀ rs, locate.value bytes = some (.records rs) →
      follows (scanLimit bytes len) 0 (rs.filterMap (Record.extent .scan)) = true

theorem scanLimit_le : scanLimit bytes len ≤ bytes.length := Nat.min_le_right _ _

theorem value_records (rs : List Record) :
    (readRecords rs .empty).value bytes = directoryOf .scan bytes rs := by
  rw [value_readRecords]
  simp [DebugDirectory.empty]

theorem pass_of_pending : (⟨len, some rs⟩ : DebugDirectoryScan).pass bytes =
    (.done ((Forward.new bytes len).run (readRecords rs .empty)).1, ⟨len, none⟩) := by
  unfold DebugDirectoryScan.pass
  simp only
  cases hrun : (Forward.new bytes len).run (readRecords rs .empty) with
  | mk answer file => cases answer <;> rfl

theorem pass_of_done {file : Forward} {directory : Option DebugDirectory}
    (hrun : (Forward.new bytes len).run locate = (some (.done directory), file)) :
    (⟨len, none⟩ : DebugDirectoryScan).pass bytes = (.done directory, ⟨len, none⟩) := by
  unfold DebugDirectoryScan.pass
  simp only [hrun]

theorem pass_of_none (hrun : ((Forward.new bytes len).run locate).1 = none) :
    (⟨len, none⟩ : DebugDirectoryScan).pass bytes = (.done none, ⟨len, none⟩) := by
  unfold DebugDirectoryScan.pass
  cases hlocated : (Forward.new bytes len).run locate with
  | mk located file =>
    rw [hlocated] at hrun
    subst hrun
    simp only [hlocated]

/-- A first pass reads the records on, or leaves them to a second. -/
theorem pass_of_records {file : Forward}
    (hrun : (Forward.new bytes len).run locate = (some (.records rs), file)) :
    (∃ directory, (file.run (readRecords rs .empty)).1 = some directory ∧
      (⟨len, none⟩ : DebugDirectoryScan).pass bytes = (.done (some directory), ⟨len, none⟩)) ∨
    (file.run (readRecords rs .empty)).1 = none ∧
      (⟨len, none⟩ : DebugDirectoryScan).pass bytes =
        if (file.run (readRecords rs .empty)).2.behind then (.again, ⟨len, some rs⟩)
        else (.done none, ⟨len, none⟩) := by
  unfold DebugDirectoryScan.pass
  simp only [hrun]
  cases hread : file.run (readRecords rs .empty) with
  | mk answer file' =>
    cases answer with
    | none => exact .inr ⟨rfl, rfl⟩
    | some directory => exact .inl ⟨directory, rfl, rfl⟩

/-- A second pass over records that follow one another reads them, and no other. -/
theorem pass_pending_spec (bytes : List UInt8) (len : ℕ) (rs : List Record) :
    ∃ result, (⟨min len maxScanBytes, some rs⟩ : DebugDirectoryScan).pass bytes =
        (.done result, ⟨min len maxScanBytes, none⟩) ∧
      (follows (scanLimit bytes len) 0 (rs.filterMap (Record.extent .scan)) = true →
        result = directoryOf .scan bytes rs) ∧
      (follows (scanLimit bytes len) 0 (rs.filterMap (Record.extent .scan)) = false →
        result = none) := by
  have hat : (Forward.new bytes (min len maxScanBytes)).At bytes :=
    Forward.at_new (Nat.min_le_right _ _)
  rw [← follows_readRecords scanLimit_le rs .empty]
  refine ⟨_, pass_of_pending, fun hfollows => ?_, fun hnot => hat.run_eq_none hnot⟩
  obtain ⟨directory, file', hvalue, hrun, -⟩ := hat.run_eq hfollows
  rw [hrun, ← value_records, hvalue]

theorem passes_of_done {result : Option DebugDirectory} {scan : DebugDirectoryScan}
    (hpass : (DebugDirectoryScan.new len).pass bytes = (.done result, scan)) :
    DebugDirectoryScan.passes bytes 2 (.new len) = some result := by
  simp only [DebugDirectoryScan.passes, hpass]

/-- Records that were located are read in the first pass or in the second, if they follow one
another. -/
theorem passes_of_records {file : Forward}
    (hrun : (Forward.new bytes (min len maxScanBytes)).run locate = (some (.records rs), file))
    (hat : file.At bytes) (hlimit : file.limit bytes = scanLimit bytes len) :
    ∃ result, DebugDirectoryScan.passes bytes 2 (.new len) = some result ∧
      (follows (scanLimit bytes len) 0 (rs.filterMap (Record.extent .scan)) = true →
        result = directoryOf .scan bytes rs) ∧
      (follows (scanLimit bytes len) 0 (rs.filterMap (Record.extent .scan)) = false →
        result = none) := by
  have hreads : follows (file.limit bytes) 0 ((readRecords rs .empty).extents bytes) =
      follows (scanLimit bytes len) 0 (rs.filterMap (Record.extent .scan)) := by
    rw [hlimit]
    exact follows_readRecords scanLimit_le rs .empty
  rcases pass_of_records hrun with ⟨directory, hanswer, hpass⟩ | ⟨hanswer, hpass⟩
  · have hfollows : follows (file.limit bytes) file.pos
        ((readRecords rs .empty).extents bytes) = true := by
      by_contra hnot
      rw [hat.run_eq_none (Bool.of_not_eq_true hnot)] at hanswer
      cases hanswer
    obtain ⟨directory', file', hvalue, hrun', -⟩ := hat.run_eq hfollows
    rw [hrun'] at hanswer
    cases hanswer
    refine ⟨some directory, passes_of_done hpass, fun _ => ?_, fun hnot => ?_⟩
    · rw [← value_records, hvalue]
    · rw [← hreads, follows_of_le (Nat.zero_le _) hfollows] at hnot
      cases hnot
  · have hnot : follows (file.limit bytes) file.pos
        ((readRecords rs .empty).extents bytes) = false := by
      by_contra hfollows
      obtain ⟨directory, file', -, hrun', -⟩ := hat.run_eq (Bool.of_not_eq_false hfollows)
      rw [hrun'] at hanswer
      cases hanswer
    cases hbehind : (file.run (readRecords rs .empty)).2.behind with
    | false =>
      rw [hbehind] at hpass
      refine ⟨none, passes_of_done hpass, fun hfollows => ?_, fun _ => rfl⟩
      rw [← hreads] at hfollows
      rw [hat.run_behind hnot hfollows] at hbehind
      cases hbehind
    | true =>
      rw [hbehind, if_pos rfl] at hpass
      obtain ⟨result, hpass', hin, hout⟩ := pass_pending_spec bytes len rs
      refine ⟨result, ?_, hin, hout⟩
      change (DebugDirectoryScan.new len).pass bytes = _ at hpass
      simp only [DebugDirectoryScan.passes, hpass, hpass']

/-- Two passes are enough, and read the image where their reads follow one another. -/
theorem passes_read (bytes : List UInt8) (len : ℕ) : ∃ result,
    DebugDirectoryScan.passes bytes 2 (.new len) = some result ∧
      (ReadsFollow bytes len → result = readInOrder bytes) ∧
      (¬ ReadsFollow bytes len → result = none) := by
  have hat : (Forward.new bytes (min len maxScanBytes)).At bytes :=
    Forward.at_new (Nat.min_le_right _ _)
  have hread : Located.read bytes (locate.value bytes) = readInOrder bytes := read_locate
  cases hheaders : follows (scanLimit bytes len) 0 (locate.extents bytes) with
  | false =>
    refine ⟨none, passes_of_done (pass_of_none (hat.run_eq_none hheaders)), fun h => ?_,
      fun _ => rfl⟩
    rw [h.1] at hheaders
    cases hheaders
  | true =>
    obtain ⟨located, file, hvalue, hrun, hat', hlen, -⟩ := hat.run_eq hheaders
    rw [hvalue] at hread
    cases located with
    | done directory =>
      refine ⟨directory, passes_of_done (pass_of_done hrun), fun _ => hread, fun hnot => ?_⟩
      refine absurd ⟨hheaders, fun rs hrs => ?_⟩ hnot
      rw [hvalue] at hrs
      cases hrs
    | records rs =>
      have hlimit : file.limit bytes = scanLimit bytes len := by
        unfold Forward.limit scanLimit
        rw [hlen]
        rfl
      obtain ⟨result, hpasses, hin, hout⟩ := passes_of_records hrun hat' hlimit
      refine ⟨result, hpasses, fun h => (hin (h.2 rs hvalue)).trans hread, fun hnot => hout ?_⟩
      refine Bool.of_not_eq_true fun hfollows => hnot ⟨hheaders, fun rs' hrs' => ?_⟩
      rw [hvalue] at hrs'
      cases hrs'
      exact hfollows

/-- The records of an image that has some are located, in file order. -/
theorem located_of_records {h : Headers} (hh : headers .scan bytes = some h)
    (hrecords : h.records .scan bytes = some rs) :
    locate.value bytes = some (.records (inFileOrder rs)) ∨
      rs = [] ∧ locate.value bytes = some (.done (some .empty)) := by
  have htable : h.tableAt ≤ bytes.length := by
    obtain ⟨-, -, -, -, -, -, -, htable⟩ := headers_eq_some hh
    exact htable
  rw [value_locate_of_headers hh]
  unfold locateDirectory
  unfold Headers.records at hrecords
  rw [debugField_piece htable]
  cases hfield : h.debugField bytes with
  | none => simp [hfield] at hrecords
  | some field =>
    rw [hfield, Option.bind_some] at hrecords
    cases field with
    | none => exact Or.inr ⟨(Option.some.inj hrecords).symm, rfl⟩
    | some field =>
      obtain ⟨rva, size⟩ := field
      simp only at hrecords ⊢
      split_ifs at hrecords with hin
      rw [Reading.value, if_pos hin, debugAt_piece]
      cases hstart : h.fileOffset bytes rva with
      | none => simp [hstart] at hrecords
      | some start =>
        rw [hstart, Option.bind_some] at hrecords
        unfold recordsAt at hrecords
        simp only at hrecords ⊢
        split_ifs at hrecords with hdirectory
        obtain rfl := Option.some.inj hrecords
        refine Or.inl ?_
        have hread := @recordsOf_piece bytes start (min (size / 28) 64)
        rw [Reading.value]
        exact (if_pos hdirectory).trans (congrArg (fun rs => some (Located.records rs)) hread)

/-- The reads of the scan lie where the headers and the records say. -/
theorem readsFollow_iff (hsome : readInOrder bytes ≠ none) :
    ReadsFollow bytes len ↔ Followable bytes len := by
  obtain ⟨directory, hdirectory⟩ := Option.ne_none_iff_exists'.mp hsome
  obtain ⟨rs, hrs, -⟩ := Option.bind_eq_some_iff.mp hdirectory
  obtain ⟨h, hh, hrecords⟩ := Option.bind_eq_some_iff.mp hrs
  have hlocated := located_of_records hh hrecords
  unfold ReadsFollow Followable
  rw [follows_locate scanLimit_le hh]
  constructor
  · rintro ⟨hheaders, hfollows⟩ h' hh'
    obtain rfl := Option.some.inj (hh.symm.trans hh')
    refine ⟨hheaders, fun rs' hrs' => ?_⟩
    obtain rfl := Option.some.inj (hrecords.symm.trans hrs')
    rcases hlocated with hvalue | ⟨rfl, -⟩
    · exact hfollows _ hvalue
    · rfl
  · intro hall
    obtain ⟨hheaders, hfollows⟩ := hall h hh
    refine ⟨hheaders, fun rs' hvalue' => ?_⟩
    rcases hlocated with hvalue | ⟨-, hvalue⟩
    · rw [hvalue] at hvalue'
      cases hvalue'
      exact hfollows rs hrecords
    · rw [hvalue] at hvalue'
      cases hvalue'

/-- Two passes are enough, and read the image where this can be followed. -/
theorem passes_spec (bytes : List UInt8) (len : ℕ) : ∃ result,
    DebugDirectoryScan.passes bytes 2 (.new len) = some result ∧
      (Followable bytes len → result = readInOrder bytes) ∧
      (¬ Followable bytes len → result = none) := by
  obtain ⟨result, hpasses, hin, hout⟩ := passes_read bytes len
  refine ⟨result, hpasses, ?_⟩
  by_cases hnone : readInOrder bytes = none
  · -- an image that says nothing reads as nothing, in whatever order it is
    have hresult : result = none := by
      by_cases hreads : ReadsFollow bytes len
      · exact (hin hreads).trans hnone
      · exact hout hreads
    exact ⟨fun _ => hresult.trans hnone.symm, fun _ => hresult⟩
  · rw [← readsFollow_iff hnone]
    exact ⟨hin, hout⟩

end Passes

end YaNuget.Pe
