import YaNuget.Requests.Files
import YaNuget.Store.Database
import YaNuget.Concurrency.Machine

/-!
# The calls of the server

The atomic calls an operation makes: database queries, storage calls and locks.
A database or storage call may fail, without effect, at the scheduler's choice;
a lock that is taken does not answer. The files are those below the store's
root, addressed by what their paths are made of.
-/
namespace YaNuget

open Concurrency Policy

structure Storage where
  payload : VersionKey → Option Content
  aux : VersionKey → AuxFile → Option Content
  blobs : Digest → Option Content
  symbolFiles : SymbolKey → Option Content

def Storage.empty : Storage := ⟨fun _ => none, fun _ _ => none, fun _ => none, fun _ => none⟩

/-- A temp file of a push: the incoming package, or the previous payload
kept aside. -/
inductive TempFile where
  | incoming (bytes : Content)
  | previous (bytes : Content)
  deriving DecidableEq, Repr

def TempFile.bytes : TempFile → Content
  | .incoming bytes => bytes
  | .previous bytes => bytes

inductive DbCall where
  | getPackageData (k : VersionKey)
  | getMembership (f : FeedName) (k : VersionKey)
  | existsIn (f : FeedName) (k : VersionKey)
  | packageDataExists (k : VersionKey)
  | feedCount (k : VersionKey)
  | approvedIn (k : VersionKey)
  | isTombstoned (f : FeedName) (k : VersionKey)
  | filesFor (k : VersionKey)
  | blobReferences (sha : Digest)
  | findSymbols (k : VersionKey)
  | addVersion (p : Package) (f : FeedName) (m : Membership)
  | replaceVersion (p : Package) (f : FeedName) (m : Membership)
  | replacePendingVersion (p : Package) (f : FeedName) (m : Membership) (dropFiles : Bool)
      (others : List (FeedName × PolicyOutcome))
  | deletePackageData (k : VersionKey)
  | deleteSymbols (k : VersionKey)
  | addMembership (f : FeedName) (k : VersionKey) (m : Membership)
  | removeMembership (f : FeedName) (k : VersionKey)
  | removeMembershipForGood (f : FeedName) (k : VersionKey)
  | approveMembership (f : FeedName) (k : VersionKey)
  | setListed (f : FeedName) (k : VersionKey) (listed : Bool)
  | setEnabled (f : FeedName) (k : VersionKey) (enabled : Bool)
  | setPinned (f : FeedName) (k : VersionKey) (pinned : Bool)
  | updateMemberships (f : FeedName) (ks : List VersionKey) (change : MembershipChange)
  | clearTombstone (f : FeedName) (k : VersionKey)
  | renameFeed (src dst : FeedName) (hold : Bool)
  | isServable (f : FeedName) (k : VersionKey)
  | find (f : FeedName) (k : VersionKey)
  | getFile (k : VersionKey) (name : String)
  | addFile (k : VersionKey) (f : PackageFile)
  | deleteFile (k : VersionKey) (name : String)
  | findSymbol (s : SymbolKey)
  | addSymbol (s : SymbolKey) (k : VersionKey)
  | deleteSymbol (s : SymbolKey)
  deriving DecidableEq, Repr

@[reducible] def DbCall.Answer : DbCall → Type
  | .getPackageData k => Option (PackageAt k)
  | .getMembership _ _ => Option Membership
  | .existsIn _ _ | .packageDataExists _ | .isTombstoned _ _ => Bool
  | .feedCount _ | .blobReferences _ => ℕ
  | .approvedIn _ => List FeedName
  | .filesFor _ | .replacePendingVersion _ _ _ _ _ => List PackageFile
  | .findSymbols _ => List SymbolKey
  | .addVersion _ _ _ | .deletePackageData _ => Bool
  | .replaceVersion _ _ _ | .addMembership _ _ _ | .clearTombstone _ _ => Unit
  | .deleteSymbols _ | .updateMemberships _ _ _ | .renameFeed _ _ _ => ℕ
  | .removeMembership _ _ | .removeMembershipForGood _ _ | .approveMembership _ _ => Bool
  | .setListed _ _ _ | .setEnabled _ _ _ | .setPinned _ _ _ => Bool
  | .isServable _ _ | .addSymbol _ _ => Bool
  | .find _ k => Option (PackageAt k)
  | .getFile _ _ => Option PackageFile
  | .findSymbol _ => Option VersionKey
  | .addFile _ _ | .deleteFile _ _ | .deleteSymbol _ => Unit

/-- The answer of a query, and the database after it. -/
def DbCall.run (db : Database) : (q : DbCall) → Except Error q.Answer × Database
  | .getPackageData k => (.ok (db.getPackageData k), db)
  | .getMembership f k => (.ok (db.getMembership f k), db)
  | .existsIn f k => (.ok (db.existsIn f k), db)
  | .packageDataExists k => (.ok (db.packageDataExists k), db)
  | .feedCount k => (.ok (db.feedCount k), db)
  | .approvedIn k => (.ok (db.approvedIn k), db)
  | .isTombstoned f k => (.ok (db.isTombstoned f k), db)
  | .filesFor k => (.ok (db.filesFor k), db)
  | .blobReferences sha => (.ok (db.blobReferences sha), db)
  | .findSymbols k => (.ok (db.findSymbols k), db)
  | .addVersion p f m => db.addVersion p f m
  | .replaceVersion p f m => (.ok (), db.replaceRows p f m)
  | .replacePendingVersion p f m dropFiles others =>
    db.replacePendingVersion p f m dropFiles others
  | .deletePackageData k => (.ok (db.deletePackageData k).1, (db.deletePackageData k).2)
  | .deleteSymbols k => (.ok (db.deleteSymbols k).1, (db.deleteSymbols k).2)
  | .addMembership f k m => db.insertMembership f k m
  | .removeMembership f k => (.ok (db.removeMembership f k).1, (db.removeMembership f k).2)
  | .removeMembershipForGood f k =>
    (.ok (db.removeMembershipForGood f k).1, (db.removeMembershipForGood f k).2)
  | .approveMembership f k => (.ok (db.approveMembership f k).1, (db.approveMembership f k).2)
  | .setListed f k on => (.ok (db.setListed f k on).1, (db.setListed f k on).2)
  | .setEnabled f k on => (.ok (db.setEnabled f k on).1, (db.setEnabled f k on).2)
  | .setPinned f k on => (.ok (db.setPinned f k on).1, (db.setPinned f k on).2)
  | .updateMemberships f ks change => db.updateMemberships f ks change
  | .clearTombstone f k => (.ok (), db.clearTombstone f k)
  | .renameFeed src dst hold => db.renameFeed src dst hold
  | .isServable f k => (.ok (db.isServable f k), db)
  | .find f k => (.ok (db.find f k), db)
  | .getFile k name => (.ok (db.getFile k name), db)
  | .addFile k f => db.addFile k f
  | .deleteFile k name => (.ok (), db.deleteFile k name)
  | .findSymbol s => (.ok (db.findSymbol s), db)
  | .addSymbol s k => db.addSymbol s k
  | .deleteSymbol s => (.ok (), db.deleteSymbol s)

inductive StorageCall where
  | storePackage (k : VersionKey) (file : TempFile)
  | getPackage (k : VersionKey)
  | hardLink (k : VersionKey)
  | storeAux (k : VersionKey) (kind : AuxFile) (bytes : Content)
  | getAux (k : VersionKey) (kind : AuxFile)
  | delete (k : VersionKey)
  | deleteBlob (sha : Digest)
  | deleteSymbol (s : SymbolKey)
  | storeBlob (sha : Digest) (bytes : Content)
  | getSymbol (s : SymbolKey)
  | openSymbol (s : SymbolKey)
  | storeSymbolFile (s : SymbolKey) (bytes : Content)
  | storeSymbolPackage (k : VersionKey)
  | auxContent (k : VersionKey) (kind : AuxFile)
  | openPackage (k : VersionKey)
  | openAux (k : VersionKey) (kind : AuxFile)
  /-- The length of a file that is open. -/
  | metadata (bytes : Content)
  deriving DecidableEq, Repr

@[reducible] def StorageCall.Answer : StorageCall → Type
  | .hardLink _ | .getAux _ _ | .openSymbol _ | .openPackage _ | .openAux _ _ => Content
  | .metadata _ => ℕ
  | _ => Unit

/-- What an open finds: the handle keeps these bytes. -/
def openFile : Option Content → Except Error Content
  | some bytes => .ok bytes
  | none => .error .packageNotFound

def tryExists (file : Option Content) : Except Error Unit :=
  if file.isSome then .ok () else .error .packageNotFound

/-- The answer of a storage call, and the files after it. A payload is moved
into place by a rename, so a link to the previous one keeps its bytes. -/
def StorageCall.run (s : Storage) : (c : StorageCall) → Except Error c.Answer × Storage
  | .storePackage k file =>
    (.ok (), { s with payload := Function.update s.payload k (some file.bytes) })
  | .getPackage k => (if (s.payload k).isSome then .ok () else .error .packageNotFound, s)
  | .hardLink k =>
    match s.payload k with
    | some bytes => (.ok bytes, s)
    | none => (.error .io, s)
  | .storeAux k kind bytes =>
    (.ok (), { s with aux := Function.update s.aux k (Function.update (s.aux k) kind (some bytes)) })
  | .getAux k kind =>
    match s.aux k kind with
    | some bytes => (.ok bytes, s)
    | none => (.error .packageNotFound, s)
  | .delete k =>
    (.ok (), { s with
      payload := Function.update s.payload k none
      aux := Function.update s.aux k fun _ => none })
  | .deleteBlob sha => (.ok (), { s with blobs := Function.update s.blobs sha none })
  | .deleteSymbol key => (.ok (), { s with symbolFiles := Function.update s.symbolFiles key none })
  | .storeBlob sha bytes =>
    -- a blob of the same size is taken to be these bytes
    if (s.blobs sha).any fun stored => stored.length = bytes.length then (.ok (), s)
    else (.ok (), { s with blobs := Function.update s.blobs sha (some bytes) })
  | .getSymbol key => (tryExists (s.symbolFiles key), s)
  | .openSymbol key => (openFile (s.symbolFiles key), s)
  | .storeSymbolFile key bytes =>
    (.ok (), { s with symbolFiles := Function.update s.symbolFiles key (some bytes) })
  | .storeSymbolPackage _ => (.ok (), s)
  | .auxContent k kind => (tryExists (s.aux k kind), s)
  | .openPackage k => (openFile (s.payload k), s)
  | .openAux k kind => (openFile (s.aux k kind), s)
  | .metadata bytes => (.ok bytes.length, s)

/-- What a storage call that fails answers: a symbol file that cannot be
removed is not an error, and where the look for a file fails there is none. -/
def StorageCall.failed : (c : StorageCall) → Except Error c.Answer
  | .deleteSymbol _ => .ok ()
  | .getPackage _ | .getSymbol _ | .auxContent _ _ => .error .packageNotFound
  | _ => .error .io

inductive Call where
  /-- A request to change the feed's membership of a version has come in. -/
  | arrive (f : FeedName) (k : VersionKey)
  | lockVersion (k : VersionKey)
  | unlockVersion (k : VersionKey)
  | lockBlob (sha : Digest)
  | unlockBlob (sha : Digest)
  | db (q : DbCall)
  | storage (c : StorageCall)
  | packageExists (k : VersionKey)
  | lockSymbol (s : SymbolKey)
  | unlockSymbol (s : SymbolKey)
  /-- A symbol push for the version has succeeded, with these symbol files. -/
  | symbolsIndexed (k : VersionKey) (verified : List (SymbolKey × Content))
  /-- A request for a file is answered. -/
  | respond (r : FileResponse)
  deriving DecidableEq, Repr

@[reducible] def Call.Answer : Call → Type
  | .arrive _ _ | .lockVersion _ | .unlockVersion _ | .lockBlob _ | .unlockBlob _ => Unit
  | .db q => Except Error q.Answer
  | .storage c => Except Error c.Answer
  | .packageExists _ => Bool
  | .lockSymbol _ | .unlockSymbol _ | .symbolsIndexed _ _ | .respond _ => Unit

/-- What the operations of the server share; `T` names the tasks that run them. -/
structure Store (T : Type) where
  db : Database
  storage : Storage
  versionLock : VersionKey → Option T
  blobLock : Digest → Option T
  symbolLock : SymbolKey → Option T

def Store.empty (T : Type) : Store T :=
  ⟨.empty, .empty, fun _ => none, fun _ => none, fun _ => none⟩

variable {T : Type} [DecidableEq T]

/-- The choice at a call is whether it fails. -/
def Store.exec (t : T) : (c : Call) → Bool → Store T → Option (c.Answer × Store T)
  | .arrive _ _, _, s => some ((), s)
  | .lockVersion k, _, s =>
    if s.versionLock k = none then
      some ((), { s with versionLock := Function.update s.versionLock k (some t) })
    else none
  | .unlockVersion k, _, s =>
    if s.versionLock k = some t then
      some ((), { s with versionLock := Function.update s.versionLock k none })
    else none
  | .lockBlob sha, _, s =>
    if s.blobLock sha = none then
      some ((), { s with blobLock := Function.update s.blobLock sha (some t) })
    else none
  | .unlockBlob sha, _, s =>
    if s.blobLock sha = some t then
      some ((), { s with blobLock := Function.update s.blobLock sha none })
    else none
  | .db q, fails, s =>
    if fails then some (.error .database, s)
    else some ((q.run s.db).1, { s with db := (q.run s.db).2 })
  | .storage c, fails, s =>
    if fails then some (c.failed, s)
    else some ((c.run s.storage).1, { s with storage := (c.run s.storage).2 })
  | .packageExists k, fails, s => some (!fails && (s.storage.payload k).isSome, s)
  | .lockSymbol key, _, s =>
    if s.symbolLock key = none then
      some ((), { s with symbolLock := Function.update s.symbolLock key (some t) })
    else none
  | .unlockSymbol key, _, s =>
    if s.symbolLock key = some t then
      some ((), { s with symbolLock := Function.update s.symbolLock key none })
    else none
  | .symbolsIndexed _ _, _, s => some ((), s)
  | .respond _, _, s => some ((), s)

def Call.dbAfter (fails : Bool) (db : Database) : Call → Database
  | .db q => if fails then db else (q.run db).2
  | _ => db

def Call.storageAfter (fails : Bool) (s : Storage) : Call → Storage
  | .storage c => if fails then s else (c.run s).2
  | _ => s

section Effects

variable {t : T} {c : Call} {o : Bool} {s s' : Store T} {r : c.Answer}

theorem Store.exec_files (h : Store.exec t c o s = some (r, s')) :
    s'.db = c.dbAfter o s.db ∧ s'.storage = c.storageAfter o s.storage := by
  cases c with
  | db q =>
    cases o with
    | true =>
      obtain ⟨-, rfl⟩ : _ ∧ s = s' := by simpa [Store.exec] using h
      exact ⟨rfl, rfl⟩
    | false =>
      obtain ⟨-, rfl⟩ : _ ∧ { s with db := (q.run s.db).2 } = s' := by simpa [Store.exec] using h
      exact ⟨rfl, rfl⟩
  | storage q =>
    cases o with
    | true =>
      obtain ⟨-, rfl⟩ : _ ∧ s = s' := by simpa [Store.exec] using h
      exact ⟨rfl, rfl⟩
    | false =>
      obtain ⟨-, rfl⟩ : _ ∧ { s with storage := (q.run s.storage).2 } = s' := by
        simpa [Store.exec] using h
      exact ⟨rfl, rfl⟩
  | lockVersion k =>
    simp only [Store.exec, Option.ite_none_right_eq_some, Option.some.injEq, Prod.mk.injEq] at h
    obtain ⟨-, -, rfl⟩ := h
    exact ⟨rfl, rfl⟩
  | unlockVersion k =>
    simp only [Store.exec, Option.ite_none_right_eq_some, Option.some.injEq, Prod.mk.injEq] at h
    obtain ⟨-, -, rfl⟩ := h
    exact ⟨rfl, rfl⟩
  | lockBlob sha =>
    simp only [Store.exec, Option.ite_none_right_eq_some, Option.some.injEq, Prod.mk.injEq] at h
    obtain ⟨-, -, rfl⟩ := h
    exact ⟨rfl, rfl⟩
  | unlockBlob sha =>
    simp only [Store.exec, Option.ite_none_right_eq_some, Option.some.injEq, Prod.mk.injEq] at h
    obtain ⟨-, -, rfl⟩ := h
    exact ⟨rfl, rfl⟩
  | lockSymbol key =>
    simp only [Store.exec, Option.ite_none_right_eq_some, Option.some.injEq, Prod.mk.injEq] at h
    obtain ⟨-, -, rfl⟩ := h
    exact ⟨rfl, rfl⟩
  | unlockSymbol key =>
    simp only [Store.exec, Option.ite_none_right_eq_some, Option.some.injEq, Prod.mk.injEq] at h
    obtain ⟨-, -, rfl⟩ := h
    exact ⟨rfl, rfl⟩
  | packageExists k =>
    obtain ⟨-, rfl⟩ : _ ∧ s = s' := by simpa [Store.exec] using h
    exact ⟨rfl, rfl⟩
  | arrive f k | symbolsIndexed k verified | respond response =>
    obtain rfl : s = s' := by simpa [Store.exec] using h
    exact ⟨rfl, rfl⟩

theorem Store.exec_query {q : DbCall} {r : (Call.db q).Answer}
    (h : Store.exec t (.db q) o s = some (r, s')) :
    (r = .error .database ∧ s' = s) ∨
      (r = (q.run s.db).1 ∧ s' = { s with db := (q.run s.db).2 }) := by
  cases o with
  | true =>
    obtain ⟨hr, hs⟩ : .error .database = r ∧ s = s' := by simpa [Store.exec] using h
    exact Or.inl ⟨hr.symm, hs.symm⟩
  | false =>
    obtain ⟨hr, hs⟩ : (q.run s.db).1 = r ∧ { s with db := (q.run s.db).2 } = s' := by
      simpa [Store.exec] using h
    exact Or.inr ⟨hr.symm, hs.symm⟩

/-- A task takes a free lock, releases its own, or leaves the locks alone. -/
theorem Store.exec_versionLock (h : Store.exec t c o s = some (r, s')) :
    (∃ k, c = .lockVersion k ∧ s.versionLock k = none ∧
      s'.versionLock = Function.update s.versionLock k (some t)) ∨
    (∃ k, c = .unlockVersion k ∧ s.versionLock k = some t ∧
      s'.versionLock = Function.update s.versionLock k none) ∨
    ((∀ k, c ≠ .lockVersion k ∧ c ≠ .unlockVersion k) ∧ s'.versionLock = s.versionLock) := by
  cases c with
  | lockVersion k =>
    simp only [Store.exec, Option.ite_none_right_eq_some, Option.some.injEq, Prod.mk.injEq] at h
    obtain ⟨hfree, -, rfl⟩ := h
    exact Or.inl ⟨k, rfl, hfree, rfl⟩
  | unlockVersion k =>
    simp only [Store.exec, Option.ite_none_right_eq_some, Option.some.injEq, Prod.mk.injEq] at h
    obtain ⟨hheld, -, rfl⟩ := h
    exact Or.inr (Or.inl ⟨k, rfl, hheld, rfl⟩)
  | lockBlob | unlockBlob | lockSymbol | unlockSymbol =>
    simp only [Store.exec, Option.ite_none_right_eq_some, Option.some.injEq, Prod.mk.injEq] at h
    obtain ⟨-, -, rfl⟩ := h
    simp
  | db q =>
    cases o <;> (simp [Store.exec] at h; obtain ⟨-, rfl⟩ := h; simp)
  | storage q =>
    cases o <;> (simp [Store.exec] at h; obtain ⟨-, rfl⟩ := h; simp)
  | arrive | packageExists | symbolsIndexed | respond =>
    simp [Store.exec] at h
    simp [h]

end Effects

/-- The server, as a machine whose tasks are `T`. -/
def server (T : Type) [DecidableEq T] : Machine T Call Call.Answer Bool (Store T) :=
  ⟨Store.exec⟩

end YaNuget
