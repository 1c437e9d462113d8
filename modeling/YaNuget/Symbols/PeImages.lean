import YaNuget.Symbols.PeScan

/-!
# PE images

What the debug directory of an image is, read from the file at the offsets that
its headers state. The bounds are those of a reader; the fields of the format
have bounds of their own.
-/
namespace YaNuget.Pe

open Reads

/-- How many sections, bytes of the optional header, debug entries and bytes of a checksum
record are read. -/
structure Bounds where
  sections : ℕ
  optionalSize : ℕ
  entries : ℕ
  checksumSize : ℕ

def Bounds.scan : Bounds := ⟨96, 1024, 64, 256⟩

structure Headers where
  peAt : ℕ
  sections : ℕ
  optionalSize : ℕ

namespace Headers

variable (h : Headers) (bytes : List UInt8)

def optionalAt : ℕ := h.peAt + 24

def tableAt : ℕ := h.optionalAt + h.optionalSize

def optionalField (start n : ℕ) : Option ℕ :=
  if start + n ≤ h.optionalSize then some (numberAt n bytes (h.optionalAt + start)) else none

/-- The seventh of the data directories. -/
def debugField : Option (Option (ℕ × ℕ)) := do
  let magic ← h.optionalField bytes 0 2
  let directories ← if magic = 0x10b then some 96 else if magic = 0x20b then some 112 else none
  let count ← h.optionalField bytes (directories - 4) 4
  if count ≤ 6 then return none
  let rva ← h.optionalField bytes (directories + 48) 4
  let size ← h.optionalField bytes (directories + 52) 4
  if rva = 0 ∨ size = 0 then return none
  return some (rva, size)

/-- Where a relative address is in the file: in the first section that has it. -/
def fileOffset (rva : ℕ) : Option ℕ :=
  (List.range h.sections).findSome? fun i =>
    let start := h.tableAt + i * 40
    let virtualAddress := numberAt 4 bytes (start + 12)
    let rawSize := numberAt 4 bytes (start + 16)
    if virtualAddress ≤ rva ∧ rva - virtualAddress < rawSize then
      some (numberAt 4 bytes (start + 20) + (rva - virtualAddress))
    else none

end Headers

section Image

variable (bound : Bounds) (bytes : List UInt8)

/-- The DOS header leads to the PE header, and this says how large the tables after it are. -/
def headers : Option Headers :=
  let peAt := numberAt 4 bytes 0x3C
  let h : Headers := ⟨peAt, numberAt 2 bytes (peAt + 6), numberAt 2 bytes (peAt + 20)⟩
  if 64 ≤ bytes.length ∧ piece bytes 0 2 = [0x4D, 0x5A] ∧ peAt + 24 ≤ bytes.length ∧
      piece bytes peAt 4 = [0x50, 0x45, 0, 0] ∧ h.sections ≤ bound.sections ∧
      h.optionalSize ≤ bound.optionalSize ∧ h.tableAt ≤ bytes.length then some h
  else none

def recordAt (start : ℕ) : Record where
  kind := numberAt 4 bytes (start + 12)
  stamp := numberAt 4 bytes (start + 4)
  minor := numberAt 2 bytes (start + 10)
  size := numberAt 4 bytes (start + 16)
  pointer := numberAt 4 bytes (start + 24)

def recordsAt (start size : ℕ) : Option (List Record) :=
  let entries := min (size / 28) bound.entries
  if start + entries * 28 ≤ bytes.length then
    some (((List.range entries).map fun i => recordAt bytes (start + i * 28)).filter Record.matters)
  else none

/-- The debug entries that the headers lead to. -/
def Headers.records (h : Headers) : Option (List Record) :=
  (h.debugField bytes).bind fun field =>
  match field with
  | none => some []
  | some (rva, size) =>
    if h.tableAt + h.sections * 40 ≤ bytes.length then
      (h.fileOffset bytes rva).bind fun start => recordsAt bound bytes start size
    else none

/-- The debug entries of an image, as they stand in its directory. -/
def records : Option (List Record) := (headers bound bytes).bind (Headers.records bound bytes)

/-- Where the data of a record is, as far as it is read. -/
def Record.extent (r : Record) : Option (ℕ × ℕ) :=
  if r.kind = debugTypeCodeView ∧ 24 ≤ r.size then some (r.pointer, 24)
  else if r.kind = debugTypePdbChecksum ∧ 1 < r.size ∧ r.size ≤ bound.checksumSize then
    some (r.pointer, r.size)
  else none

def Record.codeView (r : Record) : Option CodeView :=
  if r.kind = debugTypeCodeView ∧ 24 ≤ r.size ∧
      piece bytes r.pointer 4 = [0x52, 0x53, 0x44, 0x53] then
    some
      { guid := piece bytes (r.pointer + 4) 16
        age := numberAt 4 bytes (r.pointer + 20)
        stamp := r.stamp
        portable := r.minor = portableCodeViewMinor }
  else none

/-- The checksum that a record leads to. -/
def Record.checksum (r : Record) : Option PdbChecksum :=
  if r.kind = debugTypePdbChecksum ∧ 1 < r.size ∧ r.size ≤ bound.checksumSize then
    pdbChecksum (piece bytes r.pointer r.size)
  else none

def Record.isIn (r : Record) : Bool := (r.extent bound).all fun e => e.1 + e.2 ≤ bytes.length

/-- Where the section table and the debug directory are, if the headers lead to them. -/
def Headers.tableExtents (h : Headers) : List (ℕ × ℕ) :=
  match h.debugField bytes with
  | some (some (rva, size)) =>
    (h.tableAt, h.sections * 40) ::
      ((h.fileOffset bytes rva).map fun start => (start, min (size / 28) bound.entries * 28)).toList
  | _ => []

/-- Where the headers and the tables are, in the order in which one leads to the next. -/
def Headers.extents (h : Headers) : List (ℕ × ℕ) :=
  (0, 64) :: (h.peAt, 24) :: (h.optionalAt, h.optionalSize) :: h.tableExtents bound bytes

/-- What some records lead to. -/
def directoryOf (rs : List Record) : Option DebugDirectory :=
  if rs.all (Record.isIn bound bytes) then
    some ⟨rs.filterMap (Record.codeView bytes), rs.filterMap (Record.checksum bound bytes)⟩
  else none

end Image

end YaNuget.Pe
