import YaNuget.Data.Reads
import YaNuget.Data.Sorting
import YaNuget.Packages.CentralDirectory

/-!
# The debug directory of a PE file

An assembly is read from a stream that goes forward only. A first pass finds the
debug directory and reads the records it points at; if one of them lies behind
what was read, a second pass reads the records alone. Offsets and counts come
from the file, and the tables are capped.
-/
namespace YaNuget.Pe

open Reads

/-- How far into an assembly any structure may lie. -/
def maxScanBytes : ℕ := 256 * 1024 * 1024

def maxSections : ℕ := 96

def maxDebugEntries : ℕ := 64

def debugEntrySize : ℕ := 28

def debugTypeCodeView : ℕ := 2

def debugTypePdbChecksum : ℕ := 19

/-- The minor version `PM`, of a Portable PDB's entry. -/
def portableCodeViewMinor : ℕ := 0x504D

/-- A CodeView (`RSDS`) debug entry. -/
structure CodeView where
  guid : List UInt8
  age : ℕ
  stamp : ℕ
  portable : Bool
  deriving DecidableEq

/-- A `PdbChecksum` debug entry. -/
structure PdbChecksum where
  algorithm : String
  checksum : List UInt8
  deriving DecidableEq

structure DebugDirectory where
  codeview : List CodeView
  checksums : List PdbChecksum
  deriving DecidableEq

def DebugDirectory.empty : DebugDirectory := ⟨[], []⟩

/-- One debug-directory entry. -/
structure Record where
  kind : ℕ
  stamp : ℕ
  minor : ℕ
  size : ℕ
  pointer : ℕ
  deriving DecidableEq

inductive Located where
  | records (records : List Record)
  | done (directory : Option DebugDirectory)

/-! Fields. An index is within its buffer wherever it is not checked. -/

def u16AtChecked (buf : List UInt8) (start : ℕ) : Option ℕ :=
  if start + 2 ≤ buf.length then some (numberAt 2 buf start) else none

def u32AtChecked (buf : List UInt8) (start : ℕ) : Option ℕ :=
  if start + 4 ≤ buf.length then some (numberAt 4 buf start) else none

/-- The position and the size of the debug directory, from the optional header. There may be
none. -/
def debugField (optional : List UInt8) : Option (Option (ℕ × ℕ)) := do
  let magic ← u16AtChecked optional 0
  let (countAt, directoriesAt) ←
    if magic = 0x10b then some (92, 96) else if magic = 0x20b then some (108, 112) else none
  let directoryCount ← u32AtChecked optional countAt
  if directoryCount ≤ 6 then return none
  let debugRva ← u32AtChecked optional (directoriesAt + 6 * 8)
  let debugSize ← u32AtChecked optional (directoriesAt + 6 * 8 + 4)
  if debugRva = 0 ∨ debugSize = 0 then return none
  return some (debugRva, debugSize)

/-- The file offset of a relative address, by the section table. -/
def debugAt (table : List UInt8) (sections debugRva : ℕ) : Option ℕ :=
  (List.range sections).findSome? fun i =>
    let s := piece table (i * 40) 40
    let virtualAddress := numberAt 4 s 12
    let rawSize := numberAt 4 s 16
    let rawPointer := numberAt 4 s 20
    -- only the part of a section that is in the file
    if virtualAddress ≤ debugRva ∧ debugRva - virtualAddress < rawSize then
      some (rawPointer + (debugRva - virtualAddress))
    else none

def recordOf (e : List UInt8) : Record where
  kind := numberAt 4 e 12
  stamp := numberAt 4 e 4
  minor := numberAt 2 e 10
  size := numberAt 4 e 16
  pointer := numberAt 4 e 24

def Record.matters (r : Record) : Bool :=
  r.kind = debugTypeCodeView || r.kind = debugTypePdbChecksum

def recordsOf (directory : List UInt8) (entries : ℕ) : List Record :=
  let records := (List.range entries).map fun i =>
    recordOf (piece directory (i * debugEntrySize) debugEntrySize)
  Sorting.sortBy (fun r r' => compare r.pointer r'.pointer) (records.filter Record.matters)

def locate : Reading UInt8 Located :=
  .read 0 64 fun dos =>
  if dos.take 2 ≠ [0x4D, 0x5A] then .done (.done none)
  else
  let peAt := numberAt 4 dos 0x3C
  .read peAt 24 fun coff =>
  if coff.take 4 ≠ [0x50, 0x45, 0, 0] then .done (.done none)
  else
  let sections := numberAt 2 coff 6
  let optionalSize := numberAt 2 coff 20
  if maxSections < sections ∨ 1024 < optionalSize then .done (.done none)
  else
  let optionalAt := peAt + 24
  .read optionalAt optionalSize fun optional =>
  match debugField optional with
  | none => .done (.done none)
  | some none => .done (.done (some .empty))
  | some (some (debugRva, debugSize)) =>
    .read (optionalAt + optionalSize) (sections * 40) fun table =>
    match debugAt table sections debugRva with
    | none => .done (.done none)
    | some debugAt =>
      let entries := min (debugSize / debugEntrySize) maxDebugEntries
      .read debugAt (entries * debugEntrySize) fun directory =>
      .done (.records (recordsOf directory entries))

/-- `RSDS`, the GUID, the age, then the path of the PDB. -/
def codeView (r : Record) (data : List UInt8) : Option CodeView :=
  if data.take 4 ≠ [0x52, 0x53, 0x44, 0x53] then none
  else some
    { guid := piece data 4 16
      age := numberAt 4 data 20
      stamp := r.stamp
      portable := r.minor = portableCodeViewMinor }

def pdbChecksum (data : List UInt8) : Option PdbChecksum := do
  let nul ← data.findIdx? (· = 0)
  let algorithm ← String.fromUTF8? ⟨(data.take nul).toArray⟩
  return ⟨algorithm, data.drop (nul + 1)⟩

def readRecords : List Record → DebugDirectory → Reading UInt8 DebugDirectory
  | [], out => .done out
  | r :: rest, out =>
    if r.kind = debugTypeCodeView ∧ 24 ≤ r.size then
      .read r.pointer 24 fun data =>
      readRecords rest { out with codeview := out.codeview ++ (codeView r data).toList }
    else if r.kind = debugTypePdbChecksum ∧ 1 < r.size ∧ r.size ≤ 256 then
      .read r.pointer r.size fun data =>
      readRecords rest { out with checksums := out.checksums ++ (pdbChecksum data).toList }
    else readRecords rest out

/-- A reader that goes forward, addressed by file offset. -/
structure Forward where
  rest : List UInt8
  pos : ℕ
  len : ℕ
  behind : Bool

namespace Forward

def new (bytes : List UInt8) (len : ℕ) : Forward := ⟨bytes, 0, len, false⟩

/-- `n` bytes at an offset, skipping to it. It may lie outside the file or the limit, behind the
position, or past where the stream ends. -/
def readAt (file : Forward) (offset n : ℕ) : Option (List UInt8) × Forward :=
  if 2 ^ 64 ≤ offset + n ∨ file.len < offset + n then (none, file)
  else if file.pos = 2 ^ 64 - 1 then (none, file)
  else if offset < file.pos then (none, { file with behind := true })
  else
    let skip := offset - file.pos
    let skipped := min skip file.rest.length
    let file := { file with rest := file.rest.drop skip, pos := file.pos + skipped }
    if skipped ≠ skip then (none, file)
    else if file.rest.length < n then (none, { file with rest := [], pos := 2 ^ 64 - 1 })
    else (some (file.rest.take n), { file with rest := file.rest.drop n, pos := file.pos + n })

/-- The program reads on until a read is not answered. -/
def run {α : Type} : Forward → Reading UInt8 α → Option α × Forward
  | file, .done a => (some a, file)
  | file, .read offset n next =>
    match file.readAt offset n with
    | (none, file) => (none, file)
    | (some data, file) => file.run (next data)

end Forward

inductive Pass where
  | done (directory : Option DebugDirectory)
  | again

/-- Records are pending after a first pass that fell short. -/
structure DebugDirectoryScan where
  len : ℕ
  pending : Option (List Record)

namespace DebugDirectoryScan

def new (len : ℕ) : DebugDirectoryScan := ⟨min len maxScanBytes, none⟩

/-- A pass over the bytes, with a fresh reader. -/
def pass (scan : DebugDirectoryScan) (bytes : List UInt8) : Pass × DebugDirectoryScan :=
  let file := Forward.new bytes scan.len
  let first := scan.pending.isNone
  let taken := { scan with pending := none }
  let (located, file) : Option Located × Forward := match scan.pending with
    | some records => (some (.records records), file)
    | none => file.run locate
  match located with
  | none => (.done none, taken)
  | some (.done directory) => (.done directory, taken)
  | some (.records records) =>
    match file.run (readRecords records .empty) with
    | (some directory, _) => (.done (some directory), taken)
    | (none, file) =>
      if first && file.behind then (.again, { scan with pending := some records })
      else (.done none, taken)

/-- Passes over the same bytes until one is done, `fuel` at most. -/
def passes (bytes : List UInt8) : ℕ → DebugDirectoryScan → Option (Option DebugDirectory)
  | 0, _ => none
  | fuel + 1, scan =>
    match scan.pass bytes with
    | (.done directory, _) => some directory
    | (.again, scan) => scan.passes bytes fuel

end DebugDirectoryScan

end YaNuget.Pe
