import Mathlib.Data.Char
import Mathlib.Data.List.Lex
import YaNuget.Data.SortedMaps
import YaNuget.Packages.ContentTypes
import YaNuget.Packages.Nuspec

/-!
# Rewriting a package

Entries are replaced, added and removed, the manifest is replaced, and all else
is copied as it is. What becomes of every entry is decided from the directory
first; then the output is written in one pass, the new entries last.
-/
namespace YaNuget.Rewriting

/-- An entry, with its compressed data. -/
structure Entry (Raw : Type) where
  name : Text
  raw : Raw

/-- The archive library: what the directory says of the data, and what the data is of. -/
structure ZipLibrary (Raw : Type) where
  size : Raw → ℕ
  compressedSize : Raw → ℕ
  crc32 : Raw → UInt32
  inflate : Raw → Except String (List UInt8)
  deflate : List UInt8 → Raw
  inflate_deflate : ∀ bytes, inflate (deflate bytes) = .ok bytes
  notFound : String

structure Libraries (Raw : Type) where
  zip : ZipLibrary Raw
  parseXml : Text → Manifest.Xml
  tokenizer : Tokenizer
  debug : DebugFormat

/-- A package that can be opened: no two of its file entries are one file. -/
structure Package (Raw : Type) where
  entries : List (Entry Raw)
  distinct : ((entries.map fun e => normalizeEntry e.name).filter isFileName).Nodup

/-- How the reads and writes of one run end: what a file holds when it is read, and what goes
wrong with the entry at a place of the input or of the output. -/
structure Io (Raw : Type) where
  files : Text → Except String (List UInt8)
  create : Option String
  openEntry : ℕ → Option String
  write : ℕ → Option String
  finish : Option String
  reopen : List (Entry Raw) → Except Error (List (Entry Raw))
  sync : Option String

inductive Source where
  | bytes (content : List UInt8)
  | file (path : Text)
  deriving DecidableEq

/-- What to change, by normalized names; a put entry keeps the name as given. -/
structure Rewrite where
  nuspec : Option Text
  put : SortedMap Text (Text × Source)
  remove : SortedMap Text Unit
  keyed : ∀ e ∈ put.entries, e.1 = normalizeEntry e.2.1

namespace Rewrite

def new : Rewrite := ⟨none, .empty, .empty, by simp⟩

def withNuspec (plan : Rewrite) (xml : Text) : Rewrite := { plan with nuspec := some xml }

def withPut (plan : Rewrite) (name : Text) (content : Source) : Rewrite where
  nuspec := plan.nuspec
  put := plan.put.insert (normalizeEntry name) (name, content)
  remove := plan.remove
  keyed e he := by
    rcases (SortedMap.mem_insert _).mp he with rfl | ⟨he, -⟩
    · rfl
    · exact plan.keyed e he

def withRemove (plan : Rewrite) (name : Text) : Rewrite :=
  { plan with remove := plan.remove.insert (normalizeEntry name) () }

def isEmpty (plan : Rewrite) : Bool :=
  plan.nuspec.isNone && plan.put.entries.isEmpty && plan.remove.entries.isEmpty

end Rewrite

/-- What a rewrite did, by entry name as written. -/
structure Rewritten where
  replaced : List Text := []
  added : List Text := []
  removed : List Text := []
  signatureDropped : Bool := false
  deriving DecidableEq

def signature : Text := ".signature.p7s".toList
def relationships : Text := "_rels/.rels".toList
def corePropertiesDir : Text := "package/services/metadata/core-properties/".toList
def maxContentTypesBytes : ℕ := 1024 * 1024
def maxNameChars : ℕ := 512

inductive Action where
  | copy
  | drop
  /-- With the content that the plan has for the entry. -/
  | put (source : Source)
  | nuspec
  | contentTypes
  | coreProperties
  deriving DecidableEq

def isNuspec (normalized : Text) : Bool :=
  ".nuspec".toList.isSuffixOf normalized && !normalized.contains '/'

def isCore (normalized : Text) : Bool :=
  corePropertiesDir.isPrefixOf normalized && ".psmdcp".toList.isSuffixOf normalized

def isReserved (normalized : Text) : Bool :=
  isNuspec normalized || isCore normalized || normalized = contentTypes ||
    normalized = relationships

def Rewrite.action (plan : Rewrite) (normalized : Text) : Action :=
  if normalized = signature ∧ !plan.isEmpty then .drop
  else if normalized ∈ plan.remove.keys then .drop
  else
    match plan.put.get? normalized with
    | some (_, source) => .put source
    | none =>
      if isNuspec normalized ∧ plan.nuspec.isSome then .nuspec
      else if normalized = contentTypes ∧ !plan.isEmpty then .contentTypes
      else if isCore normalized ∧ plan.nuspec.isSome then .coreProperties
      else .copy

/-- What the result says of an entry. -/
def Rewritten.entry (done : Rewritten) (plan : Rewrite) (name : Text) : Rewritten :=
  if normalizeEntry name = signature ∧ !plan.isEmpty then { done with signatureDropped := true }
  else
    match plan.action (normalizeEntry name) with
    | .drop => { done with removed := done.removed ++ [name] }
    | .put _ => { done with replaced := done.replaced ++ [name] }
    | _ => done

structure Decided (Raw : Type) where
  actions : List (Entry Raw × Action) := []
  namesOut : List Text := []
  seen : List Text := []
  done : Rewritten := {}
  hasContentTypes : Bool := false
  hasNuspec : Bool := false

section Decide

variable {Raw : Type} (debug : DebugFormat) (plan : Rewrite)

def decideEntry (d : Decided Raw) (e : Entry Raw) : Except Error (Decided Raw) :=
  let normalized := normalizeEntry e.name
  if isReserved normalized ∧ (normalized ∈ plan.put.keys ∨ normalized ∈ plan.remove.keys) then
    .error (.invalidRewrite (String.ofList e.name ++ " is part of the package structure; replace " ++
      "the manifest with Rewrite::nuspec, and the rest follows from the entries"))
  else
    let action := plan.action normalized
    .ok {
      actions := d.actions ++ [(e, action)]
      namesOut := if action = .drop then d.namesOut else d.namesOut ++ [normalized]
      seen := normalized :: d.seen
      done := d.done.entry plan e.name
      hasContentTypes := d.hasContentTypes || action = .contentTypes
      hasNuspec := d.hasNuspec || isNuspec normalized }

/-- A relative path of plain segments. -/
def checkNewName (name : Text) : Except Error Unit :=
  if !name.isEmpty && name.length ≤ maxNameChars &&
      (name.splitOn '/').all fun segment =>
        !segment.isEmpty && segment ≠ ['.'] && segment ≠ ['.', '.'] &&
          segment.all fun c => c.isAlphanum || c = '.' || c = '_' || c = '-'
  then .ok ()
  else .error (.invalidRewrite (debug.text name ++ " is not a name to add: use '/'-separated " ++
    "segments of letters, digits, '.', '_' and '-'"))

/-- The names that no new entry may have. -/
def isReservedNew (normalized : Text) : Bool :=
  normalized = contentTypes || normalized = relationships || normalized = signature ||
    "package/".toList.isPrefixOf normalized || "_rels/".toList.isPrefixOf normalized ||
    isNuspec normalized

/-- One put of the plan: an entry to add, unless the input has one of the name. -/
def addEntry (seen : List Text) (added : List (Text × Source)) (e : Text × Text × Source) :
    Except Error (List (Text × Source)) :=
  let (normalized, name, source) := e
  if normalized ∈ seen then .ok added
  else do
    checkNewName debug name
    if isReservedNew normalized then
      .error (.invalidRewrite (String.ofList name ++ " is reserved for the package structure"))
    else .ok (added ++ [(name, source)])

/-- What is to be written: the input's entries with what becomes of them, and new ones. -/
structure Layout (Raw : Type) where
  actions : List (Entry Raw × Action)
  added : List (Text × Source)
  /-- The normalized names of the output's entries. -/
  namesOut : List Text
  done : Rewritten

def decideLayout (entries : List (Entry Raw)) : Except Error (Layout Raw) := do
  let d ← entries.foldlM (decideEntry plan) {}
  if !d.hasNuspec then .error (.invalidPackage "package contains no .nuspec")
  else
    match plan.remove.keys.find? fun n => n ∉ d.seen with
    | some absent => .error (.invalidRewrite ("cannot remove " ++ String.ofList absent ++
        ": the package has no such entry"))
    | none =>
      match plan.put.keys.find? fun n => n ∈ plan.remove.keys with
      | some clash =>
        .error (.invalidRewrite (String.ofList clash ++ " is both put and removed"))
      | none => do
        let added ← plan.put.entries.foldlM (addEntry debug d.seen) []
        if !plan.isEmpty && !d.hasContentTypes then
          .error (.invalidPackage
            "package has no [Content_Types].xml, so it cannot be kept consistent")
        else
          .ok ⟨d.actions, added, d.namesOut ++ added.map (normalizeEntry ·.1),
            { d.done with added := added.map (·.1) }⟩

end Decide

def utf8 (t : Text) : List UInt8 := t.flatMap String.utf8EncodeChar

def fromUtf8 (bytes : List UInt8) : Option Text :=
  (String.fromUTF8? ⟨bytes.toArray⟩).map String.toList

def coreProperty (tag : String) (value : Option Text) : Text :=
  match value with
  | some v =>
    if v.isEmpty then []
    else ("<" ++ tag ++ ">").toList ++ escape v ++ ("</" ++ tag ++ ">").toList
  | none => []

/-- The core properties NuGet writes for a manifest. -/
def coreProperties (nuspec : Manifest.Nuspec) : Text :=
  ("<?xml version=\"1.0\" encoding=\"utf-8\"?><coreProperties " ++
    "xmlns:dc=\"http://purl.org/dc/elements/1.1/\" " ++
    "xmlns:dcterms=\"http://purl.org/dc/terms/\" " ++
    "xmlns:xsi=\"http://www.w3.org/2001/XMLSchema-instance\" " ++
    "xmlns=\"http://schemas.openxmlformats.org/package/2006/metadata/core-properties\">").toList ++
  coreProperty "dc:creator" nuspec.authors ++
  coreProperty "dc:description" nuspec.description ++
  coreProperty "dc:identifier" (some nuspec.id) ++
  coreProperty "version" (some nuspec.version) ++
  coreProperty "dc:title" nuspec.title ++
  coreProperty "keywords" nuspec.tags ++
  coreProperty "lastModifiedBy" (some "yanuget-pkg".toList) ++
  "</coreProperties>".toList

/-- An entry copied raw, as the input describes it. -/
structure Copied where
  name : Text
  size : ℕ
  compressed : ℕ
  crc32 : UInt32
  deriving DecidableEq

/-- What was written so far. -/
structure Output (Raw : Type) where
  entries : List (Entry Raw) := []
  copied : List Copied := []

section Write

variable {Raw : Type} (L : Libraries Raw) (io : Io Raw) (plan : Rewrite)

/-- The operation went through, or the failure it met. -/
def attempt (failure : Option String) (error : String → Error) : Except Error Unit :=
  match failure with
  | some e => .error (error e)
  | none => .ok ()

def Output.append (out : Output Raw) (name : Text) (raw : Raw) : Except Error (Output Raw) := do
  attempt (io.write out.entries.length) .io
  pure { out with entries := out.entries ++ [⟨name, raw⟩] }

def writeSource (out : Output Raw) (name : Text) : Source → Except Error (Output Raw)
  | .bytes content => out.append io name (L.zip.deflate content)
  | .file path =>
    match io.files path with
    | .error e => .error (.io e)
    | .ok content => out.append io name (L.zip.deflate content)

def parseNuspec (xml : Text) : Except Error Manifest.Nuspec :=
  match Manifest.parseNuspec (L.parseXml xml) with
  | .error e => .error (.invalidPackage e)
  | .ok nuspec => .ok nuspec

def readContentTypes (e : Entry Raw) : Except Error Text :=
  let failed (why : String) : Error :=
    .invalidPackage ("could not read " ++ String.ofList e.name ++ ": " ++ why)
  if L.zip.size e.raw > maxContentTypesBytes then
    .error (.invalidPackage (String.ofList e.name ++ " is implausibly large"))
  else
    match L.zip.inflate e.raw with
    | .error why => .error (failed why)
    | .ok bytes =>
      match fromUtf8 (bytes.take maxContentTypesBytes) with
      | none => .error (failed "stream did not contain valid UTF-8")
      | some xml => .ok xml

def couldNotOpen (e : Entry Raw) (why : String) : Error :=
  .invalidPackage ("could not open " ++ String.ofList e.name ++ ": " ++ why)

/-- The `i`th entry of the input. -/
def writeAction (namesOut : List Text) (out : Output Raw) :
    (Entry Raw × Action) × ℕ → Except Error (Output Raw)
  | ((_, .drop), _) => .ok out
  | ((e, .copy), i) => do
    attempt (io.openEntry i) (couldNotOpen e)
    let copied : Copied :=
      ⟨e.name, L.zip.size e.raw, L.zip.compressedSize e.raw, L.zip.crc32 e.raw⟩
    Output.append io { out with copied := out.copied ++ [copied] } e.name e.raw
  | ((e, .put source), _) => writeSource L io out e.name source
  | ((e, .nuspec), _) => out.append io e.name (L.zip.deflate (utf8 (plan.nuspec.getD [])))
  | ((e, .contentTypes), i) => do
    attempt (io.openEntry i) (couldNotOpen e)
    let xml ← readContentTypes L e
    let xml ← completeContentTypes L.tokenizer L.debug xml namesOut
    out.append io e.name (L.zip.deflate (utf8 xml))
  | ((e, .coreProperties), _) => do
    let nuspec ← parseNuspec L (plan.nuspec.getD [])
    out.append io e.name (L.zip.deflate (utf8 (coreProperties nuspec)))

/-- Every entry copied raw reads back as the input has it. -/
def verifyCopies (written : List (Entry Raw)) (copied : List Copied) : Except Error Unit := do
  let entries ← io.reopen written
  copied.forM fun c =>
    match entries.find? (·.name = c.name) with
    | none => .error (.io (String.ofList c.name ++ ": " ++ L.zip.notFound))
    | some e =>
      if (L.zip.size e.raw, L.zip.compressedSize e.raw, L.zip.crc32 e.raw) ≠
          (c.size, c.compressed, c.crc32) then
        .error (.io ("the rewritten package does not carry " ++ String.ofList c.name ++
          " as the source does"))
      else .ok ()

def checkNuspec : Option Text → Except Error Unit
  | none => .ok ()
  | some xml =>
    match Manifest.parseNuspec (L.parseXml xml) with
    | .error e => .error (.invalidRewrite ("the new nuspec: invalid package: " ++ e))
    | .ok _ => .ok ()

def rewriteInto (input : Except Error (Package Raw)) :
    Except Error (Rewritten × List (Entry Raw)) := do
  let package ← input
  checkNuspec L plan.nuspec
  let layout ← decideLayout L.debug plan package.entries
  attempt io.create .io
  let out ← layout.actions.zipIdx.foldlM (writeAction L io plan layout.namesOut) {}
  let out ← layout.added.foldlM (fun out e => writeSource L io out e.1 e.2) out
  attempt io.finish .io
  verifyCopies L io out.entries out.copied
  attempt io.sync .io
  pure (layout.done, out.entries)

/-- What a rewrite leaves: its result, and the output if there is one. -/
structure Outcome (Raw : Type) where
  result : Except Error Rewritten
  output : Option (List (Entry Raw))

/-- On error the output is removed. -/
def rewriteBlocking (input : Except Error (Package Raw)) : Outcome Raw :=
  match rewriteInto L io plan input with
  | .ok (done, entries) => ⟨.ok done, some entries⟩
  | .error e => ⟨.error e, none⟩

end Write

end YaNuget.Rewriting
