import YaNuget.Symbols.PeImages

/-!
# The scan reads the image

The forward passes find what the image says, or give up: a structure that lies
out of order is not read at all.
-/
namespace YaNuget.Pe

open Reads

section Fields

variable {bytes : List UInt8} {offset n k start : ℕ}

theorem numberAt_piece (h : start + k ≤ n) :
    numberAt k (piece bytes offset n) start = numberAt k bytes (offset + start) := by
  unfold piece
  rw [numberAt_take h, numberAt_drop]

theorem piece_piece (h : start + k ≤ n) :
    piece (piece bytes offset n) start k = piece bytes (offset + start) k := by
  unfold piece
  rw [List.drop_take, List.take_take, Nat.min_eq_left (by omega), List.drop_drop]

theorem take_piece (h : k ≤ n) : (piece bytes offset n).take k = piece bytes offset k := by
  unfold piece
  rw [List.take_take, Nat.min_eq_left h]

variable {h : Headers}

theorem u16AtChecked_piece (hin : h.tableAt ≤ bytes.length) :
    u16AtChecked (piece bytes h.optionalAt h.optionalSize) start = h.optionalField bytes start 2 := by
  unfold u16AtChecked Headers.optionalField
  rw [length_piece hin]
  split_ifs with hstart
  · rw [numberAt_piece hstart]
  · rfl

theorem u32AtChecked_piece (hin : h.tableAt ≤ bytes.length) :
    u32AtChecked (piece bytes h.optionalAt h.optionalSize) start = h.optionalField bytes start 4 := by
  unfold u32AtChecked Headers.optionalField
  rw [length_piece hin]
  split_ifs with hstart
  · rw [numberAt_piece hstart]
  · rfl

theorem debugField_piece (hin : h.tableAt ≤ bytes.length) :
    debugField (piece bytes h.optionalAt h.optionalSize) = h.debugField bytes := by
  unfold debugField Headers.debugField
  simp only [u16AtChecked_piece hin, u32AtChecked_piece hin]
  cases h.optionalField bytes 0 2 with
  | none => rfl
  | some magic =>
    by_cases hpe : magic = 0x10b
    · simp [hpe]
    · by_cases hplus : magic = 0x20b
      · simp [hplus]
      · simp [hpe, hplus]

theorem findSome?_congr {α β : Type} {l : List α} {f g : α → Option β} (h : ∀ a ∈ l, f a = g a) :
    l.findSome? f = l.findSome? g := by
  induction l with
  | nil => rfl
  | cons a l ih =>
    rw [List.findSome?_cons, List.findSome?_cons, h a List.mem_cons_self,
      ih fun b hb => h b (List.mem_cons_of_mem a hb)]

theorem debugAt_piece (rva : ℕ) :
    debugAt (piece bytes h.tableAt (h.sections * 40)) h.sections rva = h.fileOffset bytes rva := by
  have hsection {i : ℕ} (hi : i < h.sections) {start : ℕ} (hstart : start + 4 ≤ 40) :
      numberAt 4 (piece (piece bytes h.tableAt (h.sections * 40)) (i * 40) 40) start =
        numberAt 4 bytes (h.tableAt + i * 40 + start) := by
    rw [piece_piece (by omega), numberAt_piece hstart]
  unfold debugAt Headers.fileOffset
  apply findSome?_congr
  intro i hi
  have hi := List.mem_range.mp hi
  simp only [hsection hi (show 12 + 4 ≤ 40 by decide), hsection hi (show 16 + 4 ≤ 40 by decide),
    hsection hi (show 20 + 4 ≤ 40 by decide)]

theorem recordOf_piece : recordOf (piece bytes offset 28) = recordAt bytes offset := by
  unfold recordOf recordAt
  rw [numberAt_piece (by decide), numberAt_piece (by decide), numberAt_piece (by decide),
    numberAt_piece (by decide), numberAt_piece (by decide)]

theorem recordsOf_piece (entries : ℕ) :
    recordsOf (piece bytes start (entries * 28)) entries =
      Sorting.sortBy (fun r r' => compare r.pointer r'.pointer)
        (((List.range entries).map fun i => recordAt bytes (start + i * 28)).filter
          Record.matters) := by
  unfold recordsOf
  have hmap : (List.range entries).map (fun i =>
      recordOf (piece (piece bytes start (entries * 28)) (i * debugEntrySize) debugEntrySize)) =
      (List.range entries).map fun i => recordAt bytes (start + i * 28) := by
    apply List.map_congr_left
    intro i hi
    have hi := List.mem_range.mp hi
    unfold debugEntrySize
    rw [piece_piece (by omega), recordOf_piece]
  simp only [hmap]

end Fields

section Values

variable {bytes : List UInt8}

/-- What comes of what was located, where any offset may be read. -/
def Located.read (bytes : List UInt8) : Option Located → Option DebugDirectory
  | none => none
  | some (.done directory) => directory
  | some (.records rs) => directoryOf .scan bytes rs

def inFileOrder (rs : List Record) : List Record :=
  Sorting.sortBy (fun r r' => compare r.pointer r'.pointer) rs

/-- The rest of the headers, once the first are read. -/
def locateDirectory (h : Headers) (optional : List UInt8) : Reading UInt8 Located :=
  match debugField optional with
  | none => .done (.done none)
  | some none => .done (.done (some .empty))
  | some (some (debugRva, debugSize)) =>
    .read h.tableAt (h.sections * 40) fun table =>
    match debugAt table h.sections debugRva with
    | none => .done (.done none)
    | some debugAt =>
      let entries := min (debugSize / debugEntrySize) maxDebugEntries
      .read debugAt (entries * debugEntrySize) fun directory =>
      .done (.records (recordsOf directory entries))

/-- The conditions on the headers are looked at one after the other. -/
theorem value_locate : locate.value bytes =
    if 64 ≤ bytes.length then
      if piece bytes 0 2 = [0x4D, 0x5A] then
        if numberAt 4 bytes 0x3C + 24 ≤ bytes.length then
          if piece bytes (numberAt 4 bytes 0x3C) 4 = [0x50, 0x45, 0, 0] then
            let h : Headers := ⟨numberAt 4 bytes 0x3C, numberAt 2 bytes (numberAt 4 bytes 0x3C + 6),
              numberAt 2 bytes (numberAt 4 bytes 0x3C + 20)⟩
            if h.sections ≤ 96 ∧ h.optionalSize ≤ 1024 then
              if h.tableAt ≤ bytes.length then
                (locateDirectory h (piece bytes h.optionalAt h.optionalSize)).value bytes
              else none
            else some (.done none)
          else some (.done none)
        else none
      else some (.done none)
    else none := by
  have hmagic : (piece bytes 0 64).take 2 = piece bytes 0 2 := take_piece (by decide)
  have hpeAt : numberAt 4 (piece bytes 0 64) 0x3C = numberAt 4 bytes 0x3C := by
    rw [numberAt_piece (by decide), Nat.zero_add]
  unfold locate
  rw [Reading.value, Nat.zero_add, hmagic, hpeAt]
  generalize numberAt 4 bytes 0x3C = peAt
  have hsignature : (piece bytes peAt 24).take 4 = piece bytes peAt 4 := take_piece (by decide)
  have hsections : numberAt 2 (piece bytes peAt 24) 6 = numberAt 2 bytes (peAt + 6) :=
    numberAt_piece (by decide)
  have hoptional : numberAt 2 (piece bytes peAt 24) 20 = numberAt 2 bytes (peAt + 20) :=
    numberAt_piece (by decide)
  have hbounds (n m : ℕ) : (maxSections < n ∨ 1024 < m) ↔ ¬ (n ≤ 96 ∧ m ≤ 1024) := by
    rw [not_and_or, Nat.not_le, Nat.not_le]
    rfl
  by_cases hmz : piece bytes 0 2 = [0x4D, 0x5A]
  · simp only [hmz, ne_eq, not_true_eq_false, if_false, if_true, Reading.value, hsignature,
      hsections, hoptional, hbounds]
    by_cases hpe : piece bytes peAt 4 = [0x50, 0x45, 0, 0]
    · by_cases hbound : numberAt 2 bytes (peAt + 6) ≤ 96 ∧ numberAt 2 bytes (peAt + 20) ≤ 1024
      · simp only [hpe, hbound, not_true_eq_false, if_false, if_true]
        rfl
      · simp only [hpe, hbound, not_true_eq_false, not_false_eq_true, if_false, if_true,
          Reading.value]
    · simp only [hpe, not_false_eq_true, if_true, if_false, Reading.value]
  · simp only [hmz, ne_eq, not_false_eq_true, if_true, if_false, Reading.value]

theorem read_locateDirectory {h : Headers} (hin : h.tableAt ≤ bytes.length) :
    Located.read bytes
        ((locateDirectory h (piece bytes h.optionalAt h.optionalSize)).value bytes) =
      (h.records .scan bytes).bind fun rs => directoryOf .scan bytes (inFileOrder rs) := by
  unfold locateDirectory Headers.records
  rw [debugField_piece hin]
  cases h.debugField bytes with
  | none => rfl
  | some field =>
    cases field with
    | none => rfl
    | some field =>
      obtain ⟨rva, size⟩ := field
      simp only [Option.bind_some]
      by_cases htable : h.tableAt + h.sections * 40 ≤ bytes.length
      · rw [if_pos htable, Reading.value, if_pos htable, debugAt_piece]
        cases h.fileOffset bytes rva with
        | none => rfl
        | some start =>
          have hentries : min (size / debugEntrySize) maxDebugEntries = min (size / 28) 64 := rfl
          have hbound : Bounds.scan.entries = 64 := rfl
          have hread := @recordsOf_piece bytes start (min (size / 28) 64)
          unfold recordsAt
          simp only [Option.bind_some, Reading.value, hentries, hbound]
          unfold debugEntrySize
          split_ifs with hdirectory
          · rw [hread]
            rfl
          · rfl
      · rw [if_neg htable, Reading.value, if_neg htable]
        rfl

/-- Where any offset may be read the records of the image are located. -/
theorem read_locate : Located.read bytes (locate.value bytes) =
    (records .scan bytes).bind fun rs => directoryOf .scan bytes (inFileOrder rs) := by
  rw [value_locate]
  unfold records headers
  by_cases hdos : 64 ≤ bytes.length
  · by_cases hmz : piece bytes 0 2 = [0x4D, 0x5A]
    · by_cases hcoff : numberAt 4 bytes 0x3C + 24 ≤ bytes.length
      · by_cases hpe : piece bytes (numberAt 4 bytes 0x3C) 4 = [0x50, 0x45, 0, 0]
        · simp only [hdos, hmz, hcoff, hpe, if_true, true_and]
          by_cases hbound : numberAt 2 bytes (numberAt 4 bytes 0x3C + 6) ≤ 96 ∧
              numberAt 2 bytes (numberAt 4 bytes 0x3C + 20) ≤ 1024
          · rw [if_pos hbound]
            split_ifs with htable hall hall
            · exact read_locateDirectory htable
            · exact absurd ⟨hbound.1, hbound.2, htable⟩ hall
            · exact absurd hall.2.2 htable
            · rfl
          · rw [if_neg hbound, if_neg fun hall => hbound ⟨hall.1, hall.2.1⟩]
            rfl
        · simp [hdos, hmz, hcoff, hpe, Located.read]
      · simp [hdos, hmz, hcoff, Located.read]
    · simp [hdos, hmz, Located.read]
  · simp [hdos, Located.read]

theorem codeView_piece {r : Record} (h : r.kind = debugTypeCodeView ∧ 24 ≤ r.size) :
    codeView r (piece bytes r.pointer 24) = r.codeView bytes := by
  have hmagic : (piece bytes r.pointer 24).take 4 = piece bytes r.pointer 4 := take_piece (by decide)
  unfold codeView Record.codeView
  rw [hmagic, piece_piece (by decide), numberAt_piece (by decide)]
  by_cases hrsds : piece bytes r.pointer 4 = [0x52, 0x53, 0x44, 0x53]
  · simp [hrsds, h]
  · simp [hrsds]

theorem directoryOf_cons (bound : Bounds) (r : Record) (rest : List Record) :
    directoryOf bound bytes (r :: rest) =
      if r.isIn bound bytes then
        (directoryOf bound bytes rest).map fun d =>
          ⟨(r.codeView bytes).toList ++ d.codeview, (r.checksum bound bytes).toList ++ d.checksums⟩
      else none := by
  unfold directoryOf
  rw [List.all_cons]
  cases r.isIn bound bytes with
  | false => rfl
  | true =>
    rw [Bool.true_and, if_pos rfl]
    split_ifs
    · cases hview : r.codeView bytes <;> cases hcheck : r.checksum bound bytes <;>
        simp [hview, hcheck]
    · rfl

/-- The records are read one after the other. -/
theorem value_readRecords (rs : List Record) (out : DebugDirectory) :
    (readRecords rs out).value bytes =
      (directoryOf .scan bytes rs).map fun d =>
        ⟨out.codeview ++ d.codeview, out.checksums ++ d.checksums⟩ := by
  induction rs generalizing out with
  | nil => simp [readRecords, Reading.value, directoryOf]
  | cons r rest ih =>
    unfold readRecords
    rw [directoryOf_cons]
    by_cases hview : r.kind = debugTypeCodeView ∧ 24 ≤ r.size
    · have hkind : ¬ r.kind = debugTypePdbChecksum := by
        rw [hview.1]
        decide
      have hcheck : r.checksum .scan bytes = none := by simp [Record.checksum, hkind]
      have hin : r.isIn .scan bytes = decide (r.pointer + 24 ≤ bytes.length) := by
        simp [Record.isIn, Record.extent, hview]
      rw [if_pos hview, Reading.value, ih, codeView_piece hview, hcheck, hin]
      by_cases hle : r.pointer + 24 ≤ bytes.length
      · simp [hle, Function.comp_def]
      · simp [hle]
    · have hnone : r.codeView bytes = none := by
        unfold Record.codeView
        rw [if_neg fun h => hview ⟨h.1, h.2.1⟩]
      rw [if_neg hview, hnone]
      by_cases hcheck : r.kind = debugTypePdbChecksum ∧ 1 < r.size ∧ r.size ≤ 256
      · have hsome : r.checksum .scan bytes = pdbChecksum (piece bytes r.pointer r.size) :=
          if_pos hcheck
        have hextent : r.extent .scan = some (r.pointer, r.size) :=
          (if_neg hview).trans (if_pos hcheck)
        have hin : r.isIn .scan bytes = decide (r.pointer + r.size ≤ bytes.length) := by
          unfold Record.isIn
          rw [hextent]
          rfl
        rw [if_pos hcheck, Reading.value, ih, hsome, hin]
        by_cases hle : r.pointer + r.size ≤ bytes.length
        · simp [hle, Function.comp_def]
        · simp [hle]
      · have hno : r.checksum .scan bytes = none := if_neg hcheck
        have hextent : r.extent .scan = none := (if_neg hview).trans (if_neg hcheck)
        have hin : r.isIn .scan bytes = true := by
          unfold Record.isIn
          rw [hextent]
          rfl
        rw [if_neg hcheck, ih, hno, hin]
        simp

end Values

end YaNuget.Pe
