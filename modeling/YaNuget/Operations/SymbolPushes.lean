import YaNuget.Operations.Admin

/-!
# Symbol packages

Every PDB of a symbol package is verified against the stored package it claims
to belong to, then claimed and stored under its key, all or none. Symbols are
stored once for all versions: the first version to claim a key owns its row.
-/
namespace YaNuget

open Concurrency Op Policy

/-- What is read from a `.snupkg`: its manifest's version, and its PDB entries
as far as they can be extracted. -/
structure SymbolArchive where
  id : String
  normalized : String
  entryNames : List String
  extracted : Except Error (List (String × Content))

/-- What the symbol pipeline uses that is not part of the store: the SHA-256 of
a file, the reader of symbol packages, and the check of one PDB against the
package's assembly of its name. That check answers the key of the PDB, or
nothing if it is not a Portable PDB. -/
structure SymbolReader where
  sha256 : Content → Digest
  readSymbols : Content → Except Error SymbolArchive
  checkPdb : Content → String × Content → Except Error (Option String)

/-- A PDB that has been matched to an assembly of the owning package. -/
structure Verified where
  key : SymbolKey
  bytes : Content
  deriving DecidableEq, Repr

def maxPdbEntries : ℕ := 512

/-- The final path segment, lower-cased. -/
def fileName (entry : String) : String :=
  toAsciiLowercase (String.ofList
    (entry.toList.reverse.takeWhile fun c => !(c == '/' || c == '\\')).reverse)

/-- The order the keys are locked in. -/
def SymbolKey.before (a b : SymbolKey) : Prop :=
  a.key < b.key ∨ a.key = b.key ∧ a.filename ≤ b.filename

instance (a b : SymbolKey) : Decidable (a.before b) := inferInstanceAs (Decidable (_ ∨ _))

section Verify

variable (reader : SymbolReader) (package : Content)

/-- Add a PDB that was checked. The same one twice is stored once. -/
def addVerified (verified : List Verified) (name : String) (v : Verified) :
    Except Error (List Verified) :=
  match verified.find? fun seen => seen.key = v.key with
  | some seen =>
    if reader.sha256 seen.bytes = reader.sha256 v.bytes then .ok verified
    else .error (.invalidPackage ("symbol file " ++ name ++
      ": another PDB in this package has the same key " ++ v.key.key ++ " and name"))
  | none => .ok (verified.orderedInsert (fun a b => a.key.before b.key) v)

def verifyEntry (verified : List Verified) (entry : String × Content) :
    Except Error (List Verified) := do
  match ← reader.checkPdb package entry with
  | none => pure verified
  | some key => addVerified reader verified entry.1 ⟨⟨key, fileName entry.1⟩, entry.2⟩

/-- Match every PDB against the stored package, in the order of their keys. -/
def verify (entries : List (String × Content)) : Except Error (List Verified) :=
  entries.foldlM (verifyEntry reader package) []

end Verify

namespace Op

variable {α : Type}

def withSymbolLock (s : SymbolKey) (body : Op α) : Op α := do
  call (.lockSymbol s)
  let result ← Fallible.attempt body
  call (.unlockSymbol s)
  ofResult result

def withSymbolLocks (ss : List SymbolKey) (body : Op α) : Op α :=
  ss.foldr (fun s rest => withSymbolLock s rest) body

end Op

/-- What storing one verified PDB comes to. -/
inductive Plan where
  /-- A new key: claim it and move the file in. -/
  | claim
  /-- This version's own claim, whose bytes are missing. -/
  | restore
  /-- The same bytes are already stored. -/
  | unchanged
  deriving DecidableEq, Repr

def storedSha256 (reader : SymbolReader) (s : SymbolKey) : Op (Option Digest) := do
  match ← Fallible.attempt (file (.getSymbol s)) with
  | .error .packageNotFound => pure none
  | .error e => throw e
  | .ok () => do
    let bytes ← file (.openSymbol s)
    pure (some (reader.sha256 bytes))

def refuseSymbol (s : SymbolKey) (why : String) : Error :=
  .invalidPackage ("symbol " ++ s.filename ++ " (" ++ s.key ++ ") " ++ why ++
    "; a symbol package may not replace symbols that are already published")

section StoreAll

variable (reader : SymbolReader) (k : VersionKey)

/-- Decide what becomes of one PDB. -/
def planOf (v : Verified) : Op Plan := do
  match ← query (.findSymbol v.key) with
  | none => pure .claim
  | some owner => do
    refuseIf (owner.lowerId ≠ k.lowerId)
      (refuseSymbol v.key ("is already owned by " ++ owner.lowerId))
    match ← storedSha256 reader v.key with
    | some stored =>
      if stored = reader.sha256 v.bytes then pure .unchanged
      else throw (refuseSymbol v.key "is already stored with different bytes")
    | none =>
      if owner.normalized = k.normalized then pure .restore
      else throw (refuseSymbol v.key ("is already claimed by version " ++ owner.normalized))

def planAll : List Verified → Op (List (Verified × Plan))
  | [] => pure []
  | v :: rest => do
    let plan ← planOf reader k v
    let plans ← planAll rest
    pure ((v, plan) :: plans)

/-- Undo claims made by a push that failed later on: the rows, and any bytes
already moved in under them. -/
def release (claimed : List SymbolKey) : Op Unit :=
  claimed.forM fun s => do
    Fallible.ignore (query (.deleteSymbol s))
    Fallible.ignore (file (.deleteSymbol s))

/-- Stop with an error, and undo the claims made so far. -/
def giveUp {α : Type} (claimed : List SymbolKey) (e : Error) : Op α := do
  release claimed
  throw e

/-- Claim before writing, one PDB after the other. -/
def carryOut : List (Verified × Plan) → List SymbolKey → Op (List SymbolKey)
  | [], claimed => pure claimed
  | (_, .unchanged) :: rest, claimed => carryOut rest claimed
  | (v, .claim) :: rest, claimed => do
    match ← Fallible.attempt (query (.addSymbol v.key k)) with
    | .error e => giveUp claimed e
    | .ok false => giveUp claimed (.conflict ("symbol " ++ v.key.filename ++ " (" ++ v.key.key ++
        ") was claimed concurrently"))
    | .ok true => do
      let claimed := claimed ++ [v.key]
      match ← Fallible.attempt (file (.storeSymbolFile v.key v.bytes)) with
      | .error e => giveUp claimed e
      | .ok () => carryOut rest claimed
  | (v, .restore) :: rest, claimed => do
    match ← Fallible.attempt (file (.storeSymbolFile v.key v.bytes)) with
    | .error e => giveUp claimed e
    | .ok () => carryOut rest claimed

/-- Claim and store every verified PDB, or none. Returns the keys it claimed. -/
def storeAll (verified : List Verified) : Op (List SymbolKey) :=
  withSymbolLocks (verified.map Verified.key) do
    let plans ← planAll reader k verified
    carryOut k plans []

/-- The body of a symbol push; the caller holds the version's lock. -/
def indexSymbolsLocked (feed : FeedName) (entries : List (String × Content)) : Op Unit := do
  let here ← query (.existsIn feed k)
  refuseIf (!here) .packageNotFound
  file (.getPackage k)
  let package ← file (.openPackage k)
  let verified ← ofResult (verify reader package entries)
  let claimed ← storeAll reader k verified
  match ← Fallible.attempt (file (.storeSymbolPackage k)) with
  | .error e => giveUp claimed e
  | .ok () => call (.symbolsIndexed k (verified.map fun v => (v.key, v.bytes)))

end StoreAll

def indexSymbolPackage (reader : SymbolReader) (feed : FeedName) (bytes : Content) : Op Unit := do
  let a ← ofResult (reader.readSymbols bytes)
  let k := versionKey a.id a.normalized
  let here ← query (.existsIn feed k)
  refuseIf (!here) .packageNotFound
  let pdbEntries := a.entryNames.filter fun name => name.endsWith ".pdb"
  refuseIf (pdbEntries.length > maxPdbEntries) (.invalidPackage ("symbol package contains " ++
    toString pdbEntries.length ++ " .pdb entries, more than the " ++ toString maxPdbEntries ++
    " allowed"))
  let entries ← ofResult a.extracted
  withVersionLock k (indexSymbolsLocked reader k feed entries)

end YaNuget
