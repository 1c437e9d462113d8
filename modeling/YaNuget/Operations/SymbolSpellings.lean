import YaNuget.Operations.SymbolNames

/-!
# Symbol files under every spelling

The rows and files of the symbol store, through pushes that may fail part-way,
requests and purges. Each looks a file up by its own spelling of the name: a
push by what it read from the PDB, a request by what the debugger asks for, and
a purge by what the row says.
-/
namespace YaNuget.SymbolNames

/-- A stored file, with the version whose push put it there. -/
structure StoredFile where
  owner : VersionKey
  bytes : Content

@[ext]
structure Store where
  rows : List (Name × VersionKey) := []
  files : Name → Option StoredFile := fun _ => none

/-- How a push fares that is not decided by the names: whether a file can be moved to a path, and
whether the symbol package itself can be stored. -/
structure Disk where
  move : Name → Option Error := fun _ => none
  package : Option Error := none

/-- What is asked of the store. -/
inductive Command where
  | push (k : VersionKey) (pdbs : List Pdb) (disk : Disk)
  | request (n : Name)
  | purge (k : VersionKey)

namespace Store

variable (table : CaseTable) (sha256 : Content → Digest) (s : Store) (k : VersionKey)

def findSymbol (n : Name) : Option VersionKey :=
  (s.rows.find? fun r => r.1 = row table n).map Prod.snd

def findSymbols : List Name := (s.rows.filter fun r => r.2 = k).map Prod.fst

def addSymbol (n : Name) : Option Store :=
  if (s.findSymbol table n).isSome then none
  else some { s with rows := s.rows ++ [(row table n, k)] }

def deleteSymbol (n : Name) : Store :=
  { s with rows := s.rows.filter fun r => r.1 ≠ row table n }

def deleteSymbols : Store := { s with rows := s.rows.filter fun r => r.2 ≠ k }

def getSymbol (n : Name) : Except Error StoredFile := do
  let path ← symbolPath n
  match s.files path with
  | some file => pure file
  | none => throw .packageNotFound

def storeSymbolFile (disk : Disk) (v : Pdb) : Except Error Store := do
  let path ← symbolPath v.name
  match disk.move path with
  | some e => throw e
  | none => pure { s with files := Function.update s.files path (some ⟨k, v.bytes⟩) }

/-- Remove a file, whether or not it is there. -/
def deleteFile (n : Name) : Except Error Store := do
  let path ← symbolPath n
  pure { s with files := Function.update s.files path none }

/-- Decide what becomes of one PDB. -/
def planOf (v : Pdb) : Except Error Plan :=
  let refuse (why : String) : Except Error Plan := .error (refuseSymbol
    ⟨String.ofList v.name.key, String.ofList v.name.filename⟩ why)
  match s.findSymbol table v.name with
  | none => .ok .claim
  | some owner =>
    if owner.lowerId ≠ k.lowerId then refuse ("is already owned by " ++ owner.lowerId)
    else
      match s.getSymbol v.name with
      | .ok stored =>
        if sha256 stored.bytes = sha256 v.bytes then .ok .unchanged
        else refuse "is already stored with different bytes"
      | .error .packageNotFound =>
        if owner.normalized = k.normalized then .ok .restore
        else refuse ("is already claimed by version " ++ owner.normalized)
      | .error e => .error e

/-- Undo one claim: its row, and its file as far as the name has a path. -/
def releaseOne (n : Name) : Store :=
  match (s.deleteSymbol table n).deleteFile n with
  | .ok s' => s'
  | .error _ => s.deleteSymbol table n

def release (claimed : List Name) : Store := claimed.foldl (releaseOne table) s

/-- Claim before writing, one PDB after the other. -/
def carryOut (disk : Disk) :
    Store → List (Pdb × Plan) → List Name → Store × Except Error (List Name)
  | s, [], claimed => (s, .ok claimed)
  | s, (_, .unchanged) :: rest, claimed => carryOut disk s rest claimed
  | s, (v, .claim) :: rest, claimed =>
    match s.addSymbol table k v.name with
    | none => (s.release table claimed, .error (.conflict ("symbol " ++
        String.ofList v.name.filename ++ " (" ++ String.ofList v.name.key ++
        ") was claimed concurrently")))
    | some claimedBy =>
      match claimedBy.storeSymbolFile k disk v with
      | .error e => (claimedBy.release table (claimed ++ [v.name]), .error e)
      | .ok stored => carryOut disk stored rest (claimed ++ [v.name])
  | s, (v, .restore) :: rest, claimed =>
    match s.storeSymbolFile k disk v with
    | .error e => (s.release table claimed, .error e)
    | .ok stored => carryOut disk stored rest claimed

/-- Claim and store every PDB, or none; then the symbol package. -/
def push (pdbs : List Pdb) (disk : Disk) : Store × Except Error Unit :=
  match pdbs.mapM fun v => (s.planOf table sha256 k v).map fun plan => (v, plan) with
  | .error e => (s, .error e)
  | .ok plans =>
    match carryOut table k disk s plans [] with
    | (after, .error e) => (after, .error e)
    | (after, .ok claimed) =>
      match disk.package with
      | some e => (after.release table claimed, .error e)
      | none => (after, .ok ())

def deleteEach : Store → List Name → Store × Except Error Unit
  | s, [] => (s, .ok ())
  | s, n :: rest =>
    match s.deleteFile n with
    | .error e => (s, .error e)
    | .ok s' => deleteEach s' rest

/-- Delete the files of a version's rows, then the rows. -/
def purgeSymbols : Store × Except Error Unit :=
  match deleteEach s (s.findSymbols k) with
  | (after, .error e) => (after, .error e)
  | (after, .ok ()) => (after.deleteSymbols k, .ok ())

/-- The store after a command. -/
def step : Command → Store
  | .push k pdbs disk => (s.push table sha256 k pdbs disk).1
  | .request _ => s
  | .purge k => (s.purgeSymbols k).1

/-- The store after a history that began with an empty one. -/
def after (history : List Command) : Store := history.foldl (step table sha256) {}

end Store

end YaNuget.SymbolNames
