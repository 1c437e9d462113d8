import Mathlib.Algebra.Group.Nat.Even
import Mathlib.Data.Nat.Notation
import Mathlib.Data.List.Basic

/-!
# The check of a package's central directory

A package is a zip archive, and each of its readers trusts other fields of the
end records. The check locates the directory by the last end record, compares
every count and offset a reader could take, and walks the records. Its
arithmetic is on 64 bits and its reads are within the bytes, or it fails with
an error of its own.
-/
namespace YaNuget

/-- A file's length fits in a signed 64-bit number. -/
structure ArchiveFile where
  bytes : List UInt8
  length_lt : bytes.length < 2 ^ 63

inductive CheckError where
  | invalidPackage (message : String)
  /-- Arithmetic that leaves the 64 bits. -/
  | overflow
  /-- An index outside a buffer. -/
  | outOfBounds
  /-- A read past the end of the file. -/
  | unexpectedEof
  deriving DecidableEq

/-- The error is not a verdict on the package. -/
def CheckError.isFault : CheckError → Bool
  | .invalidPackage _ => false
  | _ => true

abbrev Verdict (α : Type) := Except CheckError α

def ambiguous (what : String) : CheckError :=
  .invalidPackage ("archive's central directory is inconsistent (" ++ what ++
    "), so readers would disagree about its entries; it is refused")

def add64 (a b : ℕ) : Verdict ℕ := if a + b < 2 ^ 64 then .ok (a + b) else .error .overflow

def sub64 (a b : ℕ) : Verdict ℕ := if b ≤ a then .ok (a - b) else .error .overflow

def checkedAdd (a b : ℕ) : Option ℕ := if a + b < 2 ^ 64 then some (a + b) else none

def saturatingAdd (a b : ℕ) : ℕ := min (a + b) (2 ^ 64 - 1)

def readExact (bytes : List UInt8) (start n : ℕ) : Verdict (List UInt8) :=
  if start + n ≤ bytes.length then .ok ((bytes.drop start).take n) else .error .unexpectedEof

/-- `n` bytes of a buffer from position `start` on. -/
def slice (buf : List UInt8) (start n : ℕ) : Verdict (List UInt8) :=
  if start + n ≤ buf.length then .ok ((buf.drop start).take n) else .error .outOfBounds

def littleEndian (bytes : List UInt8) : ℕ := bytes.foldr (fun b n => b.toNat + 256 * n) 0

def numberAt (n : ℕ) (buf : List UInt8) (start : ℕ) : ℕ := littleEndian ((buf.drop start).take n)

def u16At (buf : List UInt8) (start : ℕ) : Verdict ℕ := littleEndian <$> slice buf start 2

def u32At (buf : List UInt8) (start : ℕ) : Verdict ℕ := littleEndian <$> slice buf start 4

def u64At (buf : List UInt8) (start : ℕ) : Verdict ℕ := littleEndian <$> slice buf start 8

section Reads

variable {buf : List UInt8} {start n : ℕ}

theorem readExact_of_le (h : start + n ≤ buf.length) :
    readExact buf start n = .ok ((buf.drop start).take n) := if_pos h

theorem slice_of_le (h : start + n ≤ buf.length) :
    slice buf start n = .ok ((buf.drop start).take n) := if_pos h

theorem u16At_of_le (h : start + 2 ≤ buf.length) : u16At buf start = .ok (numberAt 2 buf start) := by
  rw [u16At, slice_of_le h]
  rfl

theorem u32At_of_le (h : start + 4 ≤ buf.length) : u32At buf start = .ok (numberAt 4 buf start) := by
  rw [u32At, slice_of_le h]
  rfl

theorem u64At_of_le (h : start + 8 ≤ buf.length) : u64At buf start = .ok (numberAt 8 buf start) := by
  rw [u64At, slice_of_le h]
  rfl

theorem add64_of_lt {a b : ℕ} (h : a + b < 2 ^ 64) : add64 a b = .ok (a + b) := if_pos h

theorem sub64_of_le {a b : ℕ} (h : b ≤ a) : sub64 a b = .ok (a - b) := if_pos h

theorem numberAt_take {m : ℕ} (h : start + n ≤ m) :
    numberAt n (buf.take m) start = numberAt n buf start := by
  rw [numberAt, numberAt, List.drop_take, List.take_take, Nat.min_eq_left (by omega)]

theorem numberAt_drop (k : ℕ) : numberAt n (buf.drop k) start = numberAt n buf (k + start) := by
  rw [numberAt, numberAt, List.drop_drop]

end Reads

/-- The trailing comment may have 64 KiB, and the record itself has 22 bytes. -/
def eocdSearchWindow : ℕ := 22 + 65535

def eocdSignature : List UInt8 := [0x50, 0x4b, 5, 6]

def zip64LocatorSignature : List UInt8 := [0x50, 0x4b, 6, 7]

def zip64EocdSignature : List UInt8 := [0x50, 0x4b, 6, 6]

def centralHeaderSignature : List UInt8 := [0x50, 0x4b, 1, 2]

def maxArchiveEntries : ℕ := 100000

structure CentralDirectory where
  offset : ℕ
  records : ℕ
  deriving DecidableEq

/-- What an end record says. -/
structure EndFields where
  disk : ℕ
  directoryDisk : ℕ
  onDisk : ℕ
  total : ℕ
  size : ℕ
  offset : ℕ
  deriving DecidableEq

/-- The last place where the four bytes of a signature stand. -/
def lastSignature (signature : List UInt8) : List UInt8 → Option ℕ
  | [] => none
  | b :: rest =>
    match lastSignature signature rest with
    | some i => some (i + 1)
    | none => if (b :: rest).take 4 = signature then some 0 else none

def endRecord (eocd : List UInt8) : Verdict EndFields := do
  let disk ← u16At eocd 4
  let directoryDisk ← u16At eocd 6
  let onDisk ← u16At eocd 8
  let total ← u16At eocd 10
  let size ← u32At eocd 12
  let offset ← u32At eocd 16
  pure { disk, directoryDisk, onDisk, total, size, offset }

def zip64EndRecord (record : List UInt8) : Verdict EndFields := do
  let disk ← u32At record 16
  let directoryDisk ← u32At record 20
  let onDisk ← u64At record 24
  let total ← u64At record 32
  let size ← u64At record 40
  let offset ← u64At record 48
  pure { disk, directoryDisk, onDisk, total, size, offset }

namespace EndFields

/-- A 16-bit or 32-bit field of the end record stands for one of the ZIP64 record. -/
def saturated (narrow : EndFields) : Bool :=
  narrow.disk == 0xffff || narrow.directoryDisk == 0xffff || narrow.onDisk == 0xffff ||
    narrow.total == 0xffff || narrow.size == 0xffffffff || narrow.offset == 0xffffffff

/-- A field that is not saturated says something else in the other record. -/
def disagrees (narrow wide : EndFields) : Bool :=
  [(narrow.disk, wide.disk, narrow.disk == 0xffff),
    (narrow.directoryDisk, wide.directoryDisk, narrow.directoryDisk == 0xffff),
    (narrow.onDisk, wide.onDisk, narrow.onDisk == 0xffff),
    (narrow.total, wide.total, narrow.total == 0xffff),
    (narrow.size, wide.size, narrow.size == 0xffffffff),
    (narrow.offset, wide.offset, narrow.offset == 0xffffffff)].any
    fun (n, wide, sat) => !sat && n != wide

end EndFields

def locateEndRecord (file : ArchiveFile) : Verdict (ℕ × List UInt8) := do
  let len := file.bytes.length
  let window := min eocdSearchWindow len
  let tailStart ← sub64 len window
  let tail ← readExact file.bytes tailStart window
  match (lastSignature eocdSignature tail).filter fun pos => pos + 22 ≤ tail.length with
  | some pos => do
    let eocd ← slice tail pos 22
    let eocdAt ← add64 tailStart pos
    pure (eocdAt, eocd)
  | none => .error (.invalidPackage "not a valid zip/nupkg: no end of central directory")

/-- The ZIP64 record, when a locator stands right before the end record at
`eocdAt`, and what bounds the directory. -/
def locateZip64 (file : ArchiveFile) (eocdAt : ℕ) : Verdict (Option EndFields × ℕ) :=
  if 20 ≤ eocdAt then do
    let limit ← sub64 eocdAt 20
    let locator ← readExact file.bytes limit 20
    if locator.take 4 = zip64LocatorSignature then
      let recordAt ← u64At locator 8
      match (checkedAdd recordAt 56).filter fun last => last ≤ limit with
      | none => .error (ambiguous "ZIP64 record out of bounds")
      | some _ =>
        let record ← readExact file.bytes recordAt 56
        if record.take 4 ≠ zip64EocdSignature then
          .error (ambiguous "ZIP64 locator points at no record")
        else
          let wide ← zip64EndRecord record
          pure (some wide, recordAt)
    else pure (none, eocdAt)
  else pure (none, eocdAt)

/-- The one meaning of the two records. -/
def agreedFields (narrow : EndFields) : Option EndFields → Verdict EndFields
  | some wide =>
    if narrow.disagrees wide then
      .error (ambiguous "ZIP64 record disagrees with the 32-bit one")
    else .ok wide
  | none =>
    if narrow.saturated then .error (ambiguous "ZIP64 fields without a ZIP64 record")
    else .ok narrow

/-- What the fields say of the directory, before it is looked at. -/
def checkFields (fields : EndFields) (directoryLimit : ℕ) : Verdict Unit :=
  if fields.disk ≠ 0 ∨ fields.directoryDisk ≠ 0 then
    .error (.invalidPackage "multi-disk archives are not supported")
  else if fields.onDisk ≠ fields.total then
    .error (ambiguous "entries on this disk differ from the total")
  else if maxArchiveEntries < fields.total then
    .error (.invalidPackage ("archive declares " ++ toString fields.total ++
      " entries, more than the " ++ toString maxArchiveEntries ++ " allowed"))
  else
    match (checkedAdd fields.offset fields.size).filter fun last => last ≤ directoryLimit with
    | none => .error (ambiguous "directory runs past its end record")
    | some _ => .ok ()

def recordLength (header : List UInt8) : Verdict ℕ := do
  let name ← u16At header 28
  let extra ← u16At header 30
  let comment ← u16At header 32
  let rest ← add64 name extra
  let rest ← add64 rest comment
  add64 46 rest

/-- The walk over the records that `reader` still holds, `left` fewer than were
declared: what is left in the end, and the bytes that were walked. -/
def walkRecords : ℕ → ℕ → List UInt8 → Verdict (ℕ × ℕ)
  | left, walked, reader =>
    if reader.length < 4 then .ok (left, walked)
    else if reader.take 4 ≠ centralHeaderSignature then .ok (left, walked)
    else
      match left with
      | 0 => .error (ambiguous "more records than declared")
      | left + 1 =>
        if reader.length < 46 then .error (ambiguous "truncated record")
        else do
          let length ← recordLength (reader.take 46)
          if reader.length < length then .error (ambiguous "truncated record")
          else
            let walked ← add64 walked length
            walkRecords left walked (reader.drop length)

def checkCentralDirectory (file : ArchiveFile) : Verdict CentralDirectory := do
  let (eocdAt, eocd) ← locateEndRecord file
  let narrow ← endRecord eocd
  let (zip64, directoryLimit) ← locateZip64 file eocdAt
  let fields ← agreedFields narrow zip64
  checkFields fields directoryLimit
  let reader := (file.bytes.drop fields.offset).take (saturatingAdd fields.size 4)
  let (left, walked) ← walkRecords fields.total 0 reader
  if left ≠ 0 then .error (ambiguous "fewer records than declared")
  else if walked ≠ fields.size then
    .error (ambiguous "records do not fill the declared directory size")
  else pure ⟨fields.offset, fields.total⟩

end YaNuget
