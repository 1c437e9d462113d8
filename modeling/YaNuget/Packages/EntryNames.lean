import YaNuget.Data.Text
import YaNuget.Packages.ZipReaders

/-!
# The names of a package's entries

The archive is opened by a library of its own, which chooses its end record
and keeps one entry of each name. What it made of the archive is compared with
the checked directory, and no two file entries may have names that are one file
where case and separators make no difference.
-/
namespace YaNuget

/-- The library: where its end record puts the directory and how many records
it declares, the name a record is kept under, and the name it decodes to. -/
structure ZipCrate (K : Type) where
  locate : List UInt8 → Except String (ℕ × ℕ)
  invalidHeader : String
  key : List UInt8 → K
  decode : List UInt8 → Except String (List Char)

/-- An archive as the library keeps it. -/
structure ZipArchive where
  centralDirectoryStart : ℕ
  entries : List (List UInt8)

namespace ZipCrate

variable {K : Type} [DecidableEq K] (crate : ZipCrate K)

/-- A later record of the same name takes the place of the earlier one. -/
def keep (entries : List (List UInt8)) (r : List UInt8) : List (List UInt8) :=
  if entries.any fun e => crate.key e = crate.key r then
    entries.map fun e => if crate.key e = crate.key r then r else e
  else entries ++ [r]

def new (bytes : List UInt8) : Except String ZipArchive := do
  let (start, count) ← crate.locate bytes
  match recordsCounted count (bytes.drop start) with
  | none => .error crate.invalidHeader
  | some records => .ok ⟨start, records.foldl crate.keep []⟩

end ZipCrate

/-- Separators and case make no difference. -/
def normalizeEntry (name : List Char) : List Char :=
  (name.map fun c => if c = '\\' then '/' else c).map Char.toLower

/-- A name that ends in a separator is a directory's. -/
def isFileName (normalized : List Char) : Bool := normalized.getLast? != some '/'

def rejectDuplicateEntries (records unique : ℕ) : Verdict Unit :=
  if records ≠ unique then
    .error (.invalidPackage ("archive names the same entry more than once (" ++ toString records ++
      " records, " ++ toString unique ++
      " distinct names); readers disagree about which one wins, so it is refused"))
  else .ok ()

/-- Entry by entry, with the normalized names seen so far. -/
def rejectCollidingEntries (decode : List UInt8 → Except String (List Char)) :
    List (List Char) → List (List UInt8) → Verdict Unit
  | _, [] => .ok ()
  | seen, entry :: entries =>
    match decode entry with
    | .error e => .error (.invalidPackage ("an entry name cannot be decoded: " ++ e))
    | .ok name =>
      let normalized := normalizeEntry name
      if !isFileName normalized then rejectCollidingEntries decode seen entries
      else if normalized ∈ seen then
        .error (.invalidPackage ("archive names " ++ String.ofList name ++
          " more than once (differing only in case or path separators); they would extract to " ++
          "the same file, so it is refused"))
      else rejectCollidingEntries decode (normalized :: seen) entries

def openArchive {K : Type} [DecidableEq K] (crate : ZipCrate K) (file : ArchiveFile) :
    Verdict ZipArchive := do
  let directory ← checkCentralDirectory file
  match crate.new file.bytes with
  | .error e => .error (.invalidPackage ("not a valid zip/nupkg: " ++ e))
  | .ok archive =>
    if archive.centralDirectoryStart ≠ directory.offset then
      .error (.invalidPackage ("archive's central directory is ambiguous (readers would disagree " ++
        "about where it starts), so it is refused"))
    else do
      rejectDuplicateEntries directory.records archive.entries.length
      rejectCollidingEntries crate.decode [] archive.entries
      pure archive

section Names

variable {K : Type} [DecidableEq K] {crate : ZipCrate K}

theorem length_keep_le (entries : List (List UInt8)) (r : List UInt8) :
    (crate.keep entries r).length ≤ entries.length + 1 := by
  unfold ZipCrate.keep
  split <;> simp

theorem foldl_keep (records : List (List UInt8)) : ∀ entries : List (List UInt8),
    (records.foldl crate.keep entries).length ≤ entries.length + records.length ∧
      ((records.foldl crate.keep entries).length = entries.length + records.length →
        records.foldl crate.keep entries = entries ++ records) := by
  induction records with
  | nil => simp
  | cons r records ih =>
    intro entries
    obtain ⟨hle, heq⟩ := ih (crate.keep entries r)
    have hkeep : (crate.keep entries r).length ≤ entries.length + 1 := length_keep_le entries r
    rw [List.foldl_cons, List.length_cons]
    refine ⟨by omega, fun h => ?_⟩
    have happend : crate.keep entries r = entries ++ [r] := by
      have hlen : (crate.keep entries r).length = entries.length + 1 := by omega
      unfold ZipCrate.keep at hlen ⊢
      split at hlen
      · simp at hlen
      · next hnew => rw [if_neg hnew]
    rw [heq (by omega), happend, List.append_assoc]
    rfl

/-- More records than there are cannot be read. -/
theorem recordsCounted_le {records : List (List UInt8)} {rest : List UInt8} {count : ℕ}
    (h : ∀ r ∈ records, IsRecord r) (hstop : rest.take 4 ≠ centralHeaderSignature)
    {read : List (List UInt8)} (hread : recordsCounted count (records.flatten ++ rest) = some read)
    (hle : records.length ≤ read.length) : read = records := by
  induction records generalizing count read with
  | nil =>
    cases count with
    | zero =>
      cases hread
      rfl
    | succ count =>
      rw [recordsCounted, List.flatten_nil, List.nil_append, takeRecord,
        if_neg fun hc => hstop hc.1] at hread
      cases hread
  | cons r records ih =>
    cases count with
    | zero =>
      cases hread
      simp at hle
    | succ count =>
      rw [recordsCounted, List.flatten_cons, List.append_assoc,
        takeRecord_append (h r List.mem_cons_self)] at hread
      simp only [Option.bind_some, Option.map_eq_some_iff] at hread
      obtain ⟨tail, htail, rfl⟩ := hread
      rw [List.length_cons, List.length_cons] at hle
      rw [ih (fun r hr => h r (List.mem_cons_of_mem _ hr)) htail (by omega)]

/-- Every name is decoded, and no two file names are the same. -/
theorem rejectCollidingEntries_gives (decode : List UInt8 → Except String (List Char))
    (entries : List (List UInt8)) : ∀ seen : List (List Char),
    (rejectCollidingEntries decode seen entries).Gives fun _ =>
      ∃ names : List (List Char), entries.map decode = names.map .ok ∧
        ((names.map normalizeEntry).filter isFileName).Nodup ∧
        ∀ n ∈ (names.map normalizeEntry).filter isFileName, n ∉ seen := by
  induction entries with
  | nil => exact fun _ => ⟨[], rfl, List.nodup_nil, by simp⟩
  | cons entry entries ih =>
    intro seen
    unfold rejectCollidingEntries
    split
    · exact rfl
    · next name hname =>
      simp only
      split
      · next hdir =>
        refine (ih seen).mono fun _ ⟨names, hdecode, hnodup, hseen⟩ => ⟨name :: names, ?_, ?_⟩
        · rw [List.map_cons, List.map_cons, hname, hdecode]
        · rw [List.map_cons, List.filter_cons_of_neg (by simpa using hdir)]
          exact ⟨hnodup, hseen⟩
      · next hfile =>
        split
        · exact rfl
        · next hnew =>
          refine (ih _).mono fun _ ⟨names, hdecode, hnodup, hseen⟩ => ⟨name :: names, ?_, ?_, ?_⟩
          · rw [List.map_cons, List.map_cons, hname, hdecode]
          · rw [List.map_cons, List.filter_cons_of_pos (by simpa using hfile), List.nodup_cons]
            exact ⟨fun hmem => hseen _ hmem List.mem_cons_self, hnodup⟩
          · rw [List.map_cons, List.filter_cons_of_pos (by simpa using hfile)]
            intro n hn
            rcases List.mem_cons.1 hn with rfl | hn
            · exact hnew
            · exact fun hmem => hseen n hn (List.mem_cons_of_mem _ hmem)

/-- The opened archive is what both readers read, under names of its own. -/
theorem openArchive_gives (crate : ZipCrate K) (file : ArchiveFile) :
    (openArchive crate file).Gives fun archive =>
      readUntil file.bytes = some (archive.centralDirectoryStart, archive.entries) ∧
        readCounted file.bytes = some (archive.centralDirectoryStart, archive.entries) ∧
        ∃ names : List (List Char), archive.entries.map crate.decode = names.map .ok ∧
          ((names.map normalizeEntry).filter isFileName).Nodup := by
  unfold openArchive
  refine (checkCentralDirectory_gives file).bind
    fun directory ⟨records, rest, hrecords, hcount, hdrop, hstop, huntil, hcounted⟩ => ?_
  split
  · exact rfl
  next archive hnew =>
  split
  · exact rfl
  next hstart =>
  have hstart' : archive.centralDirectoryStart = directory.offset := Decidable.not_not.1 hstart
  unfold rejectDuplicateEntries
  split
  · exact rfl
  next hunique =>
  refine .step rfl ?_
  have hentries : archive.entries = records := by
    unfold ZipCrate.new at hnew
    cases hloc : crate.locate file.bytes with
    | error e => simp [hloc, bind, Except.bind] at hnew
    | ok located =>
      simp only [hloc, bind, Except.bind] at hnew
      split at hnew
      · cases hnew
      · next read hread =>
        cases hnew
        simp only at hstart' hunique
        rw [hstart', hdrop] at hread
        obtain ⟨hle, heq⟩ := @foldl_keep K _ crate read []
        rw [List.length_nil, Nat.zero_add] at hle heq
        have hsame := recordsCounted_le hrecords hstop hread (by omega)
        subst hsame
        exact heq (by omega)
  refine (rejectCollidingEntries_gives crate.decode archive.entries []).bind
    fun _ ⟨names, hnames, hnodup, _⟩ => ?_
  refine ⟨?_, ?_, names, hnames, hnodup⟩
  · rw [hstart', hentries]
    exact huntil
  · rw [hstart', hentries]
    exact hcounted

/-- On an archive that passes the check, both readers start at the same offset
and read the same records. On one that is opened, those are the entries, and
each normalized file name is the name of one of them. The check itself never
overflows, and never reads outside the bytes. -/
theorem zip_readers_agree (crate : ZipCrate K) (file : ArchiveFile) :
    (∀ directory, checkCentralDirectory file = .ok directory →
      ∃ records, records.length = directory.records ∧
        readUntil file.bytes = some (directory.offset, records) ∧
        readCounted file.bytes = some (directory.offset, records)) ∧
    (∀ archive, openArchive crate file = .ok archive →
      readUntil file.bytes = some (archive.centralDirectoryStart, archive.entries) ∧
        readCounted file.bytes = some (archive.centralDirectoryStart, archive.entries) ∧
        ∃ names : List (List Char), archive.entries.map crate.decode = names.map .ok ∧
          ∀ n ∈ names.map normalizeEntry, isFileName n = true →
            (names.map normalizeEntry).count n = 1) ∧
    ∀ e, checkCentralDirectory file = .error e → e.isFault = false := by
  have hcheck := checkCentralDirectory_gives file
  have hopen := openArchive_gives crate file
  refine ⟨fun directory h => ?_, fun archive h => ?_, fun e h => ?_⟩
  · rw [h] at hcheck
    obtain ⟨records, _, -, hcount, -, -, huntil, hcounted⟩ := hcheck
    exact ⟨records, hcount, huntil, hcounted⟩
  · rw [h] at hopen
    obtain ⟨huntil, hcounted, names, hnames, hnodup⟩ := hopen
    refine ⟨huntil, hcounted, names, hnames, fun n hn hfile => ?_⟩
    rw [← List.count_filter hfile]
    exact List.count_eq_one_of_mem hnodup (List.mem_filter.2 ⟨hn, hfile⟩)
  · rw [h] at hcheck
    exact hcheck

end Names

/-- A record with this name, and nothing else that matters. -/
def recordNamed (name : List UInt8) : List UInt8 :=
  centralHeaderSignature ++ List.replicate 24 0 ++ [UInt8.ofNat name.length, 0] ++
    List.replicate 16 0 ++ name

/-- The files `a` and `B` and the directory `d`, behind four bytes of data. -/
def sampleRecords : List (List UInt8) := [recordNamed [0x61], recordNamed [0x42], recordNamed [0x64, 0x2f]]

def sampleZip : ArchiveFile where
  bytes := [1, 2, 3, 4] ++ sampleRecords.flatten ++ eocdSignature ++
    [0, 0, 0, 0, 3, 0, 3, 0, 142, 0, 0, 0, 4, 0, 0, 0, 0, 0]
  length_lt := by decide +kernel

/-- What the library makes of the sample. -/
def sampleCrate : ZipCrate (List UInt8) where
  locate _ := .ok (4, 3)
  invalidHeader := "Invalid central directory header"
  key := List.drop 46
  decode record := .ok ((record.drop 46).map fun b => Char.ofNat b.toNat)

/-- The sample is opened, and a file without an end record is refused. -/
theorem zip_readers_agree_sample :
    (∃ archive, openArchive sampleCrate sampleZip = .ok archive ∧
      archive.entries = sampleRecords ∧
      readUntil sampleZip.bytes = some (4, sampleRecords) ∧
      readCounted sampleZip.bytes = some (4, sampleRecords) ∧
      ∃ names : List (List Char), archive.entries.map sampleCrate.decode = names.map .ok ∧
        ∀ n ∈ names.map normalizeEntry, isFileName n = true →
          (names.map normalizeEntry).count n = 1) ∧
    ∃ e, checkCentralDirectory ⟨[], by decide⟩ = .error e ∧ e.isFault = false := by
  have hopens : (openArchive sampleCrate sampleZip).toOption.any (fun archive =>
      archive.centralDirectoryStart = 4 && archive.entries = sampleRecords) = true := by
    decide +kernel
  constructor
  · cases hopen : openArchive sampleCrate sampleZip with
    | error e => simp [hopen, Except.toOption] at hopens
    | ok archive =>
      rw [hopen] at hopens
      obtain ⟨hstart, hentries⟩ : archive.centralDirectoryStart = 4 ∧
          archive.entries = sampleRecords := by simpa [Except.toOption] using hopens
      have h := (zip_readers_agree sampleCrate sampleZip).2.1 archive hopen
      rw [hstart, hentries] at h
      exact ⟨archive, rfl, hentries, h.1, h.2.1, hentries ▸ h.2.2⟩
  · cases hcheck : checkCentralDirectory ⟨[], by decide⟩ with
    | ok directory =>
      have hfails : (checkCentralDirectory ⟨[], by decide⟩).isOk = false := by decide +kernel
      rw [hcheck] at hfails
      cases hfails
    | error e => exact ⟨e, rfl, (zip_readers_agree sampleCrate _).2.2 e hcheck⟩

end YaNuget
