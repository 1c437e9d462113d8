import YaNuget.Packages.CentralDirectory
import Mathlib.Data.List.Nodup

/-!
# Two readers of one archive

One reader takes the last end record, the ZIP64 values only in place of
saturated fields, and records until their signatures stop. The other takes the
ZIP64 values wherever a locator stands before the record, and as many records
as are declared. On an archive that passes the check they read the same.
-/
namespace YaNuget

namespace EndFields

def narrow (eocd : List UInt8) : EndFields where
  disk := numberAt 2 eocd 4
  directoryDisk := numberAt 2 eocd 6
  onDisk := numberAt 2 eocd 8
  total := numberAt 2 eocd 10
  size := numberAt 4 eocd 12
  offset := numberAt 4 eocd 16

def wide (record : List UInt8) : EndFields where
  disk := numberAt 4 record 16
  directoryDisk := numberAt 4 record 20
  onDisk := numberAt 8 record 24
  total := numberAt 8 record 32
  size := numberAt 8 record 40
  offset := numberAt 8 record 48

/-- The ZIP64 values in place of the saturated fields. -/
def widened (narrow wide : EndFields) : EndFields where
  disk := if narrow.disk = 0xffff then wide.disk else narrow.disk
  directoryDisk := if narrow.directoryDisk = 0xffff then wide.directoryDisk else narrow.directoryDisk
  onDisk := if narrow.onDisk = 0xffff then wide.onDisk else narrow.onDisk
  total := if narrow.total = 0xffff then wide.total else narrow.total
  size := if narrow.size = 0xffffffff then wide.size else narrow.size
  offset := if narrow.offset = 0xffffffff then wide.offset else narrow.offset

end EndFields

/-- The ZIP64 record of the end record at `eocdAt`: there may be none, and
there may be a locator that points at none. -/
def zip64Record (bytes : List UInt8) (eocdAt : ℕ) : Option (Option EndFields) :=
  if 20 ≤ eocdAt ∧ (bytes.drop (eocdAt - 20)).take 4 = zip64LocatorSignature then
    let recordAt := numberAt 8 bytes (eocdAt - 20 + 8)
    if recordAt + 56 ≤ bytes.length ∧ (bytes.drop recordAt).take 4 = zip64EocdSignature then
      some (some (.wide (bytes.drop recordAt)))
    else none
  else some none

/-- The length a record's header gives it. -/
def declaredLength (rest : List UInt8) : ℕ :=
  46 + (numberAt 2 rest 28 + numberAt 2 rest 30 + numberAt 2 rest 32)

def takeRecord (rest : List UInt8) : Option (List UInt8 × List UInt8) :=
  if rest.take 4 = centralHeaderSignature ∧ 46 ≤ rest.length ∧ declaredLength rest ≤ rest.length then
    some (rest.take (declaredLength rest), rest.drop (declaredLength rest))
  else none

theorem length_of_takeRecord {rest r rest' : List UInt8} (h : takeRecord rest = some (r, rest')) :
    rest'.length < rest.length := by
  unfold takeRecord at h
  split at h
  · next hc =>
    cases h
    have : 46 ≤ declaredLength rest := Nat.le_add_right _ _
    rw [List.length_drop]
    omega
  · cases h

/-- Records until their signatures stop. -/
def recordsUntil (rest : List UInt8) : Option (List (List UInt8)) :=
  if rest.take 4 = centralHeaderSignature then
    match h : takeRecord rest with
    | none => none
    | some (r, rest') =>
      have := length_of_takeRecord h
      (recordsUntil rest').map (r :: ·)
  else some []
termination_by rest.length

def recordsCounted : ℕ → List UInt8 → Option (List (List UInt8))
  | 0, _ => some []
  | n + 1, rest =>
    (takeRecord rest).bind fun (r, rest') => (recordsCounted n rest').map (r :: ·)

def lastEndRecord (bytes : List UInt8) : Option ℕ :=
  (lastSignature eocdSignature bytes).filter fun eocdAt => eocdAt + 22 ≤ bytes.length

/-- The fields, with the ZIP64 values where they are needed. -/
def fieldsWhereSaturated (bytes : List UInt8) (eocdAt : ℕ) : Option EndFields :=
  let narrow := EndFields.narrow (bytes.drop eocdAt)
  if narrow.saturated then (zip64Record bytes eocdAt).bind fun zip64 => zip64.map narrow.widened
  else some narrow

def fieldsWhereLocated (bytes : List UInt8) (eocdAt : ℕ) : Option EndFields :=
  (zip64Record bytes eocdAt).map fun zip64 => zip64.getD (.narrow (bytes.drop eocdAt))

/-- The reader that lets the signatures decide: where it starts, and its records. -/
def readUntil (bytes : List UInt8) : Option (ℕ × List (List UInt8)) := do
  let eocdAt ← lastEndRecord bytes
  let fields ← fieldsWhereSaturated bytes eocdAt
  let records ← recordsUntil (bytes.drop fields.offset)
  pure (fields.offset, records)

/-- The reader that lets the declared count decide. -/
def readCounted (bytes : List UInt8) : Option (ℕ × List (List UInt8)) := do
  let eocdAt ← lastEndRecord bytes
  let fields ← fieldsWhereLocated bytes eocdAt
  let records ← recordsCounted fields.onDisk (bytes.drop fields.offset)
  pure (fields.offset, records)

def Verdict.Gives {α : Type} (x : Verdict α) (P : α → Prop) : Prop :=
  match x with
  | .ok a => P a
  | .error e => e.isFault = false

namespace Verdict

variable {α β : Type} {x : Verdict α} {f : α → Verdict β} {P : α → Prop} {Q : β → Prop}

theorem Gives.bind (hx : x.Gives P) (hf : ∀ a, P a → (f a).Gives Q) : Gives (x >>= f) Q := by
  cases x with
  | ok a => exact hf a hx
  | error e => exact hx

theorem Gives.mono {P' : α → Prop} (h : ∀ a, P a → P' a) (hx : x.Gives P) : x.Gives P' := by
  cases x with
  | ok a => exact h a hx
  | error e => exact hx

theorem Gives.step {a : α} (hx : x = .ok a) (hf : (f a).Gives Q) : Gives (x >>= f) Q := by
  subst hx
  exact hf

end Verdict

section Located

variable {bytes : List UInt8}

theorem lastSignature_append {signature tail : List UInt8} {pos : ℕ}
    (h : lastSignature signature tail = some pos) (front : List UInt8) :
    lastSignature signature (front ++ tail) = some (front.length + pos) := by
  induction front with
  | nil => simpa using h
  | cons b front ih =>
    rw [List.cons_append, lastSignature, ih]
    simp only [List.length_cons, Option.some.injEq]
    omega

theorem endRecord_eq {eocd : List UInt8} (h : 22 ≤ eocd.length) :
    endRecord eocd = .ok (.narrow eocd) := by
  unfold endRecord
  rw [u16At_of_le (by omega), u16At_of_le (by omega), u16At_of_le (by omega),
    u16At_of_le (by omega), u32At_of_le (by omega), u32At_of_le (by omega)]
  rfl

theorem zip64EndRecord_eq {record : List UInt8} (h : 56 ≤ record.length) :
    zip64EndRecord record = .ok (.wide record) := by
  unfold zip64EndRecord
  rw [u32At_of_le (by omega), u32At_of_le (by omega), u64At_of_le (by omega),
    u64At_of_le (by omega), u64At_of_le (by omega), u64At_of_le (by omega)]
  rfl

theorem narrow_take : EndFields.narrow (bytes.take 22) = .narrow bytes := by
  unfold EndFields.narrow
  rw [numberAt_take (by omega), numberAt_take (by omega), numberAt_take (by omega),
    numberAt_take (by omega), numberAt_take (by omega), numberAt_take (by omega)]

theorem wide_take : EndFields.wide (bytes.take 56) = .wide bytes := by
  unfold EndFields.wide
  rw [numberAt_take (by omega), numberAt_take (by omega), numberAt_take (by omega),
    numberAt_take (by omega), numberAt_take (by omega), numberAt_take (by omega)]

/-- The check takes the last end record of the whole file. -/
theorem locateEndRecord_gives (file : ArchiveFile) :
    (locateEndRecord file).Gives fun r =>
      lastSignature eocdSignature file.bytes = some r.1 ∧ r.1 + 22 ≤ file.bytes.length ∧
        r.2 = (file.bytes.drop r.1).take 22 := by
  have hlt := file.length_lt
  have hwindow : min eocdSearchWindow file.bytes.length ≤ file.bytes.length := Nat.min_le_right _ _
  unfold locateEndRecord
  refine .step (sub64_of_le hwindow) (.step (readExact_of_le (by omega)) ?_)
  generalize min eocdSearchWindow file.bytes.length = window at hwindow
  have htail : (file.bytes.drop (file.bytes.length - window)).take window =
      file.bytes.drop (file.bytes.length - window) := by
    rw [List.take_of_length_le]
    rw [List.length_drop]
    omega
  have hlength : (file.bytes.drop (file.bytes.length - window)).length = window := by
    rw [List.length_drop]
    omega
  simp only [htail]
  split
  · next pos hpos =>
    obtain ⟨hlast, hroom⟩ := Option.filter_eq_some_iff.1 hpos
    simp only [decide_eq_true_eq] at hroom
    have hwhole := lastSignature_append hlast (file.bytes.take (file.bytes.length - window))
    rw [List.take_append_drop, List.length_take, Nat.min_eq_left (by omega)] at hwhole
    refine .step (slice_of_le hroom) (.step (add64_of_lt (by omega)) ⟨hwhole, ?_, ?_⟩)
    · simp only
      omega
    · rw [List.drop_drop]
  · rfl

/-- The check finds the ZIP64 record the readers find. -/
theorem locateZip64_gives (file : ArchiveFile) {eocdAt : ℕ} (h : eocdAt ≤ file.bytes.length) :
    (locateZip64 file eocdAt).Gives fun r =>
      zip64Record file.bytes eocdAt = some r.1 ∧ r.2 ≤ eocdAt := by
  unfold locateZip64 zip64Record
  split
  · next h20 =>
    have hloc : ((file.bytes.drop (eocdAt - 20)).take 20).length = 20 := by
      rw [List.length_take, List.length_drop]
      omega
    refine .step (sub64_of_le h20) (.step (readExact_of_le (by omega)) ?_)
    rw [List.take_take]
    by_cases hsig : (file.bytes.drop (eocdAt - 20)).take 4 = zip64LocatorSignature
    · simp only [Nat.min_eq_left, Nat.reduceLeDiff, hsig, if_true, h20, true_and]
      refine .step (u64At_of_le (by omega)) ?_
      rw [numberAt_take (by omega), numberAt_drop]
      split
      · exact rfl
      · next last hlast =>
        obtain ⟨hadd, hle⟩ := Option.filter_eq_some_iff.1 hlast
        simp only [decide_eq_true_eq] at hle
        have hend : last = numberAt 8 file.bytes (eocdAt - 20 + 8) + 56 := by
          unfold checkedAdd at hadd
          split at hadd
          · exact (Option.some.inj hadd).symm
          · cases hadd
        refine .step (readExact_of_le (by omega)) ?_
        rw [List.take_take]
        split
        · exact rfl
        · next hrec =>
          have hrec' : (file.bytes.drop (numberAt 8 file.bytes (eocdAt - 20 + 8))).take 4 =
              zip64EocdSignature := by simpa using hrec
          refine .step (zip64EndRecord_eq ?_) ⟨?_, ?_⟩
          · rw [List.length_take, List.length_drop]
            omega
          · rw [if_pos ⟨by omega, hrec'⟩, wide_take]
          · simp only
            omega
    · simp only [Nat.min_eq_left, Nat.reduceLeDiff, hsig, if_false, and_false]
      exact ⟨rfl, Nat.le_refl _⟩
  · next h20 => exact ⟨by simp [h20], Nat.le_refl _⟩

end Located

section Agreed

variable {narrow wide fields : EndFields}

/-- Where the records do not disagree, the one stands for the other. -/
theorem EndFields.widened_eq (h : narrow.disagrees wide = false) : narrow.widened wide = wide := by
  simp only [disagrees, List.any_cons, List.any_nil, Bool.or_false, Bool.or_eq_false_iff,
    Bool.and_eq_false_imp, Bool.not_eq_true', beq_eq_false_iff_ne, bne_eq_false_iff_eq, ne_eq] at h
  obtain ⟨h1, h2, h3, h4, h5, h6⟩ := h
  cases wide
  simp only [widened, EndFields.mk.injEq]
  refine ⟨?_, ?_, ?_, ?_, ?_, ?_⟩
  all_goals split
  all_goals first | rfl | (apply_assumption; assumption)

theorem EndFields.widened_of_not_saturated (h : narrow.saturated = false) :
    narrow.widened wide = narrow := by
  simp only [saturated, Bool.or_eq_false_iff, beq_eq_false_iff_ne, ne_eq] at h
  obtain ⟨⟨⟨⟨⟨h1, h2⟩, h3⟩, h4⟩, h5⟩, h6⟩ := h
  simp only [widened, h1, h2, h3, h4, h5, h6, if_false]

/-- Both readers take the fields the check takes. -/
theorem agreedFields_gives (narrow : EndFields) (zip64 : Option EndFields) :
    (agreedFields narrow zip64).Gives fun fields =>
      (if narrow.saturated then zip64.map narrow.widened else some narrow) = some fields ∧
        zip64.getD narrow = fields := by
  cases zip64 with
  | none =>
    simp only [agreedFields]
    split
    · exact rfl
    · exact ⟨rfl, rfl⟩
  | some wide =>
    simp only [agreedFields]
    split
    · exact rfl
    · next h =>
      have hwide := EndFields.widened_eq (Bool.eq_false_iff.2 h)
      refine ⟨?_, rfl⟩
      split
      · rw [Option.map_some, hwide]
      · next hsat =>
        rw [← hwide, EndFields.widened_of_not_saturated (Bool.eq_false_iff.2 hsat)]

/-- The counts agree, and the directory ends before `limit`. -/
theorem checkFields_gives (fields : EndFields) (limit : ℕ) :
    (checkFields fields limit).Gives fun _ =>
      fields.onDisk = fields.total ∧ fields.offset + fields.size ≤ limit := by
  unfold checkFields
  split
  · exact rfl
  split
  · exact rfl
  next htotal =>
  split
  · exact rfl
  split
  · exact rfl
  next last hlast =>
  obtain ⟨hadd, hle⟩ := Option.filter_eq_some_iff.1 hlast
  simp only [decide_eq_true_eq] at hle
  have hend : fields.offset + fields.size = last := by
    unfold checkedAdd at hadd
    split at hadd
    · exact Option.some.inj hadd
    · cases hadd
  exact ⟨Decidable.not_not.1 htotal, by omega⟩

end Agreed

section Walk

/-- A record: its signature, its header, and the length the header gives. -/
structure IsRecord (r : List UInt8) : Prop where
  signature : r.take 4 = centralHeaderSignature
  header : 46 ≤ r.length
  length : declaredLength r = r.length

theorem declaredLength_take {rest : List UInt8} {n : ℕ} (h : 46 ≤ n) :
    declaredLength (rest.take n) = declaredLength rest := by
  unfold declaredLength
  rw [numberAt_take (by omega), numberAt_take (by omega), numberAt_take (by omega)]

theorem littleEndian_lt (bytes : List UInt8) : littleEndian bytes < 256 ^ bytes.length := by
  induction bytes with
  | nil => simp [littleEndian]
  | cons b bytes ih =>
    have hb := b.toNat_lt
    simp only [littleEndian, List.foldr_cons, List.length_cons, Nat.pow_succ] at ih ⊢
    omega

theorem numberAt_two_lt (buf : List UInt8) (start : ℕ) : numberAt 2 buf start < 65536 := by
  have h := littleEndian_lt ((buf.drop start).take 2)
  have hle : ((buf.drop start).take 2).length ≤ 2 := by
    rw [List.length_take]
    omega
  exact Nat.lt_of_lt_of_le h (Nat.pow_le_pow_right (by omega) hle)

theorem recordLength_eq {header : List UInt8} (h : 46 ≤ header.length) :
    recordLength header = .ok (declaredLength header) := by
  have h28 := numberAt_two_lt header 28
  have h30 := numberAt_two_lt header 30
  have h32 := numberAt_two_lt header 32
  unfold recordLength
  rw [u16At_of_le (by omega), u16At_of_le (by omega), u16At_of_le (by omega)]
  simp only [bind, Except.bind]
  rw [add64_of_lt (by omega)]
  simp only
  rw [add64_of_lt (by omega)]
  simp only
  rw [add64_of_lt (by omega)]
  rfl

/-- The walk takes whole records, until there is no signature or no room for one. -/
theorem walkRecords_gives (left : ℕ) :
    ∀ (walked : ℕ) (reader : List UInt8), walked + reader.length < 2 ^ 64 →
      (walkRecords left walked reader).Gives fun r =>
        ∃ (records : List (List UInt8)) (rest : List UInt8),
          reader = records.flatten ++ rest ∧ (∀ r ∈ records, IsRecord r) ∧
          records.length + r.1 = left ∧ r.2 = walked + records.flatten.length ∧
          (rest.length < 4 ∨ rest.take 4 ≠ centralHeaderSignature) := by
  induction left with
  | zero =>
    intro walked reader _
    rw [walkRecords]
    split
    · next h => exact ⟨[], reader, rfl, by simp, rfl, rfl, .inl h⟩
    split
    · next h => exact ⟨[], reader, rfl, by simp, rfl, rfl, .inr h⟩
    exact rfl
  | succ left ih =>
    intro walked reader hlt
    rw [walkRecords]
    split
    · next h => exact ⟨[], reader, rfl, by simp, by simp, rfl, .inl h⟩
    split
    · next h => exact ⟨[], reader, rfl, by simp, by simp, rfl, .inr h⟩
    next hsig =>
    split
    · exact rfl
    next hheader =>
    have hlen : (reader.take 46).length = 46 := by
      rw [List.length_take]
      omega
    refine .step (recordLength_eq (by omega)) ?_
    rw [declaredLength_take (Nat.le_refl _)]
    split
    · exact rfl
    next hroom =>
    have hmin : 46 ≤ declaredLength reader := Nat.le_add_right _ _
    refine .step (add64_of_lt (by omega)) (Verdict.Gives.mono ?_ (ih _ _ ?_))
    · rintro ⟨left', walked'⟩ ⟨records, rest, hsplit, hrecords, hleft, hwalked, hstop⟩
      have hfirst : (reader.take (declaredLength reader)).length = declaredLength reader := by
        rw [List.length_take]
        omega
      refine ⟨reader.take (declaredLength reader) :: records, rest, ?_, ?_, ?_, ?_, hstop⟩
      · rw [List.flatten_cons, List.append_assoc, ← hsplit, List.take_append_drop]
      · intro r hr
        rcases List.mem_cons.1 hr with rfl | hr
        · refine ⟨?_, by omega, ?_⟩
          · rw [List.take_take, Nat.min_eq_left (by omega)]
            simpa using hsig
          · rw [declaredLength_take hmin, hfirst]
        · exact hrecords r hr
      · rw [List.length_cons]
        omega
      · rw [List.flatten_cons, List.length_append, hfirst]
        omega
    · rw [List.length_drop]
      omega

variable {records : List (List UInt8)} {rest : List UInt8}

theorem takeRecord_append {r : List UInt8} (h : IsRecord r) (rest : List UInt8) :
    takeRecord (r ++ rest) = some (r, rest) := by
  have hlen : declaredLength (r ++ rest) = r.length := by
    rw [← h.length, ← @declaredLength_take (r ++ rest) _ h.header, List.take_left]
  have hsig : (r ++ rest).take 4 = centralHeaderSignature := by
    rw [List.take_append_of_le_length (by have := h.header; omega), h.signature]
  have hheader := h.header
  unfold takeRecord
  rw [hlen, if_pos ⟨hsig, by rw [List.length_append]; omega, by rw [List.length_append]; omega⟩,
    List.take_left, List.drop_left]

theorem recordsCounted_flatten (h : ∀ r ∈ records, IsRecord r) (rest : List UInt8) :
    recordsCounted records.length (records.flatten ++ rest) = some records := by
  induction records with
  | nil => rfl
  | cons r records ih =>
    rw [List.length_cons, recordsCounted, List.flatten_cons, List.append_assoc,
      takeRecord_append (h r List.mem_cons_self)]
    simp only [Option.bind_some]
    rw [ih fun r hr => h r (List.mem_cons_of_mem _ hr)]
    rfl

/-- Whole records are read as such, up to what is none. -/
theorem recordsUntil_flatten (h : ∀ r ∈ records, IsRecord r)
    (hstop : rest.take 4 ≠ centralHeaderSignature) :
    recordsUntil (records.flatten ++ rest) = some records := by
  induction records with
  | nil =>
    rw [recordsUntil, List.flatten_nil, List.nil_append, if_neg hstop]
  | cons r records ih =>
    have hr := h r List.mem_cons_self
    have hsig : (r ++ (records.flatten ++ rest)).take 4 = centralHeaderSignature := by
      rw [List.take_append_of_le_length (by have := hr.header; omega), hr.signature]
    have htake := takeRecord_append hr (records.flatten ++ rest)
    rw [List.flatten_cons, List.append_assoc, recordsUntil, if_pos hsig]
    split
    · next hnone =>
      rw [htake] at hnone
      cases hnone
    · next r' rest' hsome =>
      rw [htake] at hsome
      cases hsome
      rw [ih fun r hr => h r (List.mem_cons_of_mem _ hr)]
      rfl

end Walk

/-- A verdict of the check, and where it accepts, one reading for both readers. -/
theorem checkCentralDirectory_gives (file : ArchiveFile) :
    (checkCentralDirectory file).Gives fun directory =>
      ∃ records rest, (∀ r ∈ records, IsRecord r) ∧ records.length = directory.records ∧
        file.bytes.drop directory.offset = records.flatten ++ rest ∧
        rest.take 4 ≠ centralHeaderSignature ∧
        readUntil file.bytes = some (directory.offset, records) ∧
        readCounted file.bytes = some (directory.offset, records) := by
  have hlt := file.length_lt
  unfold checkCentralDirectory
  refine (locateEndRecord_gives file).bind fun ⟨eocdAt, eocd⟩ ⟨hlast, hroom, heocd⟩ => ?_
  simp only at hlast hroom heocd ⊢
  have h22 : 22 ≤ eocd.length := by
    rw [heocd, List.length_take, List.length_drop]
    omega
  refine .step (endRecord_eq h22) ?_
  rw [heocd, narrow_take]
  refine (locateZip64_gives file (by omega)).bind fun ⟨zip64, limit⟩ ⟨hzip64, hlimit⟩ => ?_
  simp only at hzip64 hlimit ⊢
  refine (agreedFields_gives _ zip64).bind fun fields ⟨hnarrow, hwide⟩ => ?_
  refine (checkFields_gives fields limit).bind fun _ ⟨htotal, hbound⟩ => ?_
  have hsat : saturatingAdd fields.size 4 = fields.size + 4 := by
    unfold saturatingAdd
    omega
  have hreader : ((file.bytes.drop fields.offset).take (fields.size + 4)).length =
      fields.size + 4 := by
    rw [List.length_take, List.length_drop]
    omega
  rw [hsat]
  refine (walkRecords_gives fields.total 0 _ (by omega)).bind
    fun ⟨left, walked⟩ ⟨records, rest, hsplit, hrecords, hleft, hwalked, hstop⟩ => ?_
  simp only at hleft hwalked ⊢
  split
  · exact rfl
  next hleft0 =>
  split
  · exact rfl
  next hsize =>
  have hlength := congrArg List.length hsplit
  rw [hreader, List.length_append] at hlength
  -- Four bytes past the records are left of what the walk may read, and they
  -- are no signature.
  have hrest : rest.take 4 ≠ centralHeaderSignature := hstop.resolve_left (by omega)
  have hdrop : file.bytes.drop fields.offset =
      records.flatten ++ (rest ++ (file.bytes.drop fields.offset).drop (fields.size + 4)) := by
    rw [← List.append_assoc, ← hsplit, List.take_append_drop]
  have hstop' : (rest ++ (file.bytes.drop fields.offset).drop (fields.size + 4)).take 4 ≠
      centralHeaderSignature := by
    rwa [List.take_append_of_le_length (by omega)]
  have hend : lastEndRecord file.bytes = some eocdAt := by
    rw [lastEndRecord, hlast, Option.filter_some, if_pos (decide_eq_true hroom)]
  refine ⟨records, _, hrecords, by simp only; omega, hdrop, hstop', ?_, ?_⟩
  · have hfields : fieldsWhereSaturated file.bytes eocdAt = some fields := by
      rw [fieldsWhereSaturated, hzip64]
      exact hnarrow
    simp only [readUntil, hend, hfields, Option.bind_eq_bind, Option.bind_some]
    rw [hdrop, recordsUntil_flatten hrecords hstop']
    rfl
  · have hfields : fieldsWhereLocated file.bytes eocdAt = some fields := by
      rw [fieldsWhereLocated, hzip64, Option.map_some, hwide]
    have hcount : fields.onDisk = records.length := by omega
    simp only [readCounted, hend, hfields, Option.bind_eq_bind, Option.bind_some]
    rw [hdrop, hcount, recordsCounted_flatten hrecords]
    rfl

end YaNuget
