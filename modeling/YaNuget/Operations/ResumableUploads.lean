import YaNuget.Concurrency.Machine
import YaNuget.Data.Text
import YaNuget.Store.Records

/-!
# Resumable uploads

A file arrives over several requests, collected in a part file until its last
byte is there. A slot in the server's memory keeps two requests from writing at
once, and holds the running hash from one request to the next. The state is that
of one upload, from its creation on. Requests are cancelled when their clients go
away, the server may be restarted at any step, and a write or an update that was
under way may take effect later than its request has ended.
-/
namespace YaNuget.Tus

open Concurrency

/-- The hashing state of an upload: the bytes that the hasher has seen. -/
structure Hashing where
  received : ℕ
  seen : Content
  deriving DecidableEq, Repr

/-- The lock of an upload, with the state inside. -/
structure Slot where
  holder : Option ℕ := none
  hashing : Option Hashing := none
  deriving DecidableEq, Repr

/-- Where the bytes are: in the part file, under a name of their own that one request has given
them, or nowhere. -/
inductive Place where
  | part
  | finished (t : ℕ)
  | gone
  deriving DecidableEq, Repr

/-- The row of the upload, as far as it changes. -/
structure Row where
  received : ℕ
  heldSince : Option ℕ
  deriving DecidableEq, Repr

/-- An attach, with the bytes that were attached. -/
structure Attachment where
  bytes : Content
  sha256 : Text
  size : ℕ
  deriving DecidableEq, Repr

/-- What a request does to the part file and to the row. -/
inductive Effect where
  | held (since : Option ℕ)
  /-- With the bytes that were sent since the row was last updated. -/
  | received (n : ℕ) (sent : Content) (now : ℕ)
  | delete
  | length (n : ℕ)
  | write (offset : ℕ) (bytes : Content)
  | remove
  | rename (t : ℕ)
  | removeFinished (t : ℕ)
  | attach (t : ℕ) (sha256 : Text) (size : ℕ)
  deriving DecidableEq, Repr

structure State where
  /-- The slot that is found under the upload's name. -/
  registry : Option ℕ := none
  slots : ℕ → Slot := fun _ => {}
  next : ℕ := 0
  arrived : ℕ → Bool := fun _ => false
  alive : ℕ → Bool := fun _ => false
  /-- The requests that run to their end whatever their clients do. -/
  detached : ℕ → Bool := fun _ => false
  /-- The requests that have the part file open for writing, and whether a write of theirs was
  lost that has not been reported yet. -/
  files : ℕ → Option Bool := fun _ => none
  place : Place := .part
  content : Content := []
  row : Option Row
  /-- What was still under way when its request went on. -/
  late : List Effect := []
  attached : List Attachment := []
  /-- The bytes that the row has been said to count, in their order. No step depends on them. -/
  acknowledged : Content := []
  now : ℕ

/-- A file of `n` bytes: cut, or filled up with zeros. -/
def resized (content : Content) (n : ℕ) : Content :=
  content.take n ++ List.replicate (n - content.length) 0

def overwritten (content : Content) (offset : ℕ) (bytes : Content) : Content :=
  resized content offset ++ bytes ++ content.drop (offset + bytes.length)

/-- What becomes of the state. An update of a row that is gone changes nothing. -/
def State.apply (s : State) : Effect → State
  | .held since => { s with row := s.row.map fun r => { r with heldSince := since } }
  | .received n sent now =>
    match s.row with
    | none => s
    | some _ => { s with
        row := some ⟨n, some now⟩
        acknowledged := s.acknowledged.take (n - sent.length) ++ sent }
  | .delete => { s with row := none }
  | .length n => { s with content := resized s.content n }
  | .write offset bytes => { s with content := overwritten s.content offset bytes }
  | .remove => if s.place = .part then { s with place := .gone } else s
  | .rename t => if s.place = .part then { s with place := .finished t } else s
  | .removeFinished t => if s.place = .finished t then { s with place := .gone } else s
  | .attach t sha256 size =>
    if s.place = .finished t then
      { s with place := .gone, attached := ⟨s.content, sha256, size⟩ :: s.attached }
    else s

/-- Why reading or writing failed. -/
inductive IoError where
  | invalidData (message : String)
  | timedOut (message : String)
  | storageFull (message : String)
  | other (message : String)
  deriving DecidableEq, Repr

/-- The calls that may fail. -/
inductive Request where
  | getUpload
  | expiredUploads
  | setUploadHeld (since : Option ℕ)
  | setUploadReceived (received : ℕ) (sent : Content)
  | deleteUpload
  /-- Whether there is room for what is still to come. -/
  | check (incoming : ℕ)
  | openPart
  | readPart (offset n : ℕ)
  | openForWriting
  | setLen (n : ℕ)
  | seek (n : ℕ)
  | writeAll (offset : ℕ) (chunk : Content)
  | flush
  | syncAll
  | removePart
  | rename
  | removeFinished
  | attach (sha256 : Text) (size : ℕ)
  deriving DecidableEq, Repr

abbrev Request.Answer : Request → Type
  | getUpload => Option Row
  | expiredUploads => Bool
  | readPart _ _ => Content
  | _ => Unit

/-- What happens beside the requests. -/
inductive Happening where
  | tick (n : ℕ)
  | cancel (t : ℕ)
  | restart
  /-- Something that was under way takes effect. -/
  | land (k : ℕ)
  deriving DecidableEq, Repr

inductive Call where
  | arrive
  | request (r : Request)
  | now
  | slot
  | tryLock (i : ℕ)
  | forgetSlot
  | unlock (i : ℕ)
  | hashing (i : ℕ)
  | setHashing (i : ℕ) (h : Option Hashing)
  | close
  | detach
  | happens (h : Happening)
  deriving DecidableEq, Repr

abbrev Call.Answer : Call → Type
  | request r => Except IoError r.Answer
  | now | slot => ℕ
  | tryLock _ => Bool
  | hashing _ => Option Hashing
  | _ => Unit

inductive Timing where
  | never | now | later
  deriving DecidableEq, Repr

/-- What is left open at a call: whether it fails, when it takes effect all the same, and how many
bytes a read returns or a write gets to the disk. -/
structure Choice where
  fails : Option IoError
  effect : Timing
  count : ℕ
  deriving DecidableEq, Repr

namespace State

variable (s : State)

/-- A call with an effect. One that fails may have had it, or have it later. -/
def change (o : Choice) (e : Effect) : Except IoError Unit × State :=
  match o.fails with
  | none => (.ok (), s.apply e)
  | some why => (.error why,
      match o.effect with
      | .never => s
      | .now => s.apply e
      | .later => { s with late := e :: s.late })

def changeIf (p : Prop) [Decidable p] (o : Choice) (e : Effect) : Except IoError Unit × State :=
  if p then s.change o e else (.error (.other "No such file or directory"), s)

/-- A call without effect. -/
def tries {α : Type} (o : Choice) (a : α) : Except IoError α × State :=
  match o.fails with
  | none => (.ok a, s)
  | some why => (.error why, s)

def setFile (t : ℕ) (file : Option Bool) : State :=
  { s with files := Function.update s.files t file }

/-- A write goes to a buffer first: one that is lost on its way to the disk fails the next one. -/
def write (t : ℕ) (o : Choice) (offset : ℕ) (chunk : Content) : Except IoError Unit × State :=
  if s.files t = some true then (.error (.other "write failed"), s.setFile t (some false))
  else match o.fails, o.effect with
    | none, .now => (.ok (), s.apply (.write offset chunk))
    | none, .never => (.ok (), (s.apply (.write offset (chunk.take o.count))).setFile t (some true))
    | none, .later => (.ok (), { s with late := .write offset chunk :: s.late })
    | some why, .later => (.error why, { s with late := .write offset chunk :: s.late })
    | some why, _ => (.error why, s.apply (.write offset (chunk.take o.count)))

/-- A write that was lost is reported. -/
def report (t : ℕ) (o : Choice) : Except IoError Unit × State :=
  if s.files t = some true then (.error (.other "write failed"), s.setFile t (some false))
  else s.tries o ()

/-- One call of request `t` that may fail, of an upload that expires at `expires`. -/
def answer (expires t : ℕ) (o : Choice) : (r : Request) → Except IoError r.Answer × State
  | .getUpload => s.tries o s.row
  | .expiredUploads => s.tries o (s.row.isSome && decide (expires < s.now))
  | .setUploadHeld since => s.change o (.held since)
  | .setUploadReceived received sent => s.change o (.received received sent s.now)
  | .deleteUpload => s.change o .delete
  | .check _ => s.tries o ()
  | .openPart => if s.place = .part then s.tries o () else
      (.error (.other "No such file or directory"), s)
  | .readPart offset n => s.tries o ((s.content.drop offset).take (min n (o.count + 1)))
  | .openForWriting => if s.place = .part ∧ o.fails = none then (.ok (), s.setFile t (some false))
      else (.error (.other "No such file or directory"), s)
  | .setLen n => s.change o (.length n)
  | .seek _ => s.tries o ()
  | .writeAll offset chunk => s.write t o offset chunk
  | .flush => s.report t o
  | .syncAll => s.report t o
  | .removePart => s.changeIf (s.place = .part) o .remove
  | .rename => s.changeIf (s.place = .part) o (.rename t)
  | .removeFinished => s.change o (.removeFinished t)
  | .attach sha256 size => s.changeIf (s.place = .finished t) o (.attach t sha256 size)

def setSlot (i : ℕ) (slot : Slot) : State := { s with slots := Function.update s.slots i slot }

/-- The locks of a request that is gone are free. -/
def release (t : ℕ) : State :=
  { s with slots := fun i =>
      if (s.slots i).holder = some t then { s.slots i with holder := none } else s.slots i }

def happen : Happening → State
  | .tick n => { s with now := s.now + n }
  | .cancel t =>
    if s.detached t then s
    else { (s.release t).setFile t none with alive := Function.update s.alive t false }
  | .restart =>
    { s with
      registry := none
      slots := fun _ => {}
      next := 0
      alive := fun _ => false
      files := fun _ => none
      late := []
      -- The startup sweep removes what was being attached.
      place := match s.place with
        | .part => .part
        | _ => .gone }
  | .land k =>
    match s.late[k]? with
    | none => s
    | some e => { s with late := s.late.eraseIdx k }.apply e

end State

/-- The requests, by their number, and what happens beside them. -/
inductive Party where
  | request (t : ℕ)
  | environment
  deriving DecidableEq, Repr

/-- Whether request `t` makes the call: it comes in once, and makes no call once it has been
cancelled or a restart has ended it. -/
def State.admits (s : State) (t : ℕ) (c : Call) : Bool :=
  match c with
  | .arrive => !s.arrived t
  | _ => s.alive t

def State.act (s : State) (expires t : ℕ) (o : Choice) : (c : Call) → Option (c.Answer × State)
  | .arrive => some ((), { s with
      arrived := Function.update s.arrived t true
      alive := Function.update s.alive t true })
  | .request r => some (s.answer expires t o r)
  | .now => some (s.now, s)
  | .slot =>
    match s.registry with
    | some i => some (i, s)
    | none => some (s.next, { s with registry := some s.next, next := s.next + 1 })
  | .tryLock i =>
    match (s.slots i).holder with
    | some _ => some (false, s)
    | none => some (true, s.setSlot i { s.slots i with holder := some t })
  | .forgetSlot => some ((), { s with registry := none })
  | .unlock i =>
    if (s.slots i).holder = some t then some ((), s.setSlot i { s.slots i with holder := none })
    else some ((), s)
  | .hashing i => some ((s.slots i).hashing, s)
  | .setHashing i h => some ((), s.setSlot i { s.slots i with hashing := h })
  | .close => some ((), s.setFile t none)
  | .detach => some ((), { s with detached := Function.update s.detached t true })
  | .happens _ => none

def exec (expires : ℕ) (p : Party) (c : Call) (o : Choice) (s : State) :
    Option (c.Answer × State) :=
  match p, c with
  | .environment, .happens h => some ((), s.happen h)
  | .environment, _ => none
  | .request t, c => if s.admits t c then s.act expires t o c else none

/-- The requests of one upload at work. -/
def machine (expires : ℕ) : Machine Party Call Call.Answer Choice State where
  exec := exec expires

inductive Error where
  | packageNotFound
  | conflict (message : String)
  | badRequest (message : String)
  | payloadTooLarge (message : String)
  | uploadTimeout (message : String)
  | insufficientStorage (message : String)
  | database (e : IoError)
  | io (e : IoError)
  | other (message : String)
  deriving DecidableEq, Repr

abbrev Op := Fallible Call Call.Answer Error

def ask (c : Call) : Op c.Answer := Fallible.lift (Program.perform c)

/-- A call that may fail, with its outcome as a value. -/
def tried (r : Request) : Op (Except IoError r.Answer) :=
  Fallible.lift (Program.perform (R := Call.Answer) (.request r))

def ofExcept {α : Type} (result : Except Error α) : Op α := ExceptT.mk (.done result)

def refuseIf (refused : Bool) (e : Error) : Op Unit := if refused then throw e else pure ()

/-- A call to the disk. -/
def file (r : Request) : Op r.Answer := do
  let result ← tried r
  ofExcept (result.mapError .io)

def query (r : Request) : Op r.Answer := do
  let result ← tried r
  ofExcept (result.mapError .database)

/-- What the upload was created with. -/
structure Upload where
  length : ℕ
  expectedSha256 : Option Text
  expires : ℕ
  /-- In hex. -/
  sha256 : Content → Text

/-- The answer to a request: how much has arrived, and whether it was expected to be as much. -/
inductive Reply where
  | conflict (offset : ℕ)
  | noContent (offset : ℕ)
  deriving DecidableEq, Repr

def mapUploadErr : IoError → Error
  | .invalidData message => .payloadTooLarge message
  | .timedOut message => .uploadTimeout message
  | .storageFull message => .insufficientStorage message
  | .other message => .io (.other message)

/-- Why an upload is not admitted: there is no room, or the rows could not be counted. -/
def refusal : IoError → Error
  | .storageFull message => .insufficientStorage message
  | e => .database e

variable (u : Upload)

def session : Op Row := do
  match ← query .getUpload with
  | none => throw .packageNotFound
  | some row =>
    let now ← ask .now
    if now < u.expires then pure row else throw .packageNotFound

/-- How much is read into memory at once. -/
def bufferSize : ℕ := 256 * 1024

/-- Read the first `received` bytes of the part file. A read returns at least one byte, so `fuel`
lasts if it is as much as there is to read. -/
def hashPart (received : ℕ) : ℕ → Content → Op Content
  | 0, seen => pure seen
  | fuel + 1, seen =>
    if received ≤ seen.length then pure seen
    else do
      let bytes ← file (.readPart seen.length (min bufferSize (received - seen.length)))
      if bytes.isEmpty then throw (.other "partial upload is shorter than recorded")
      else hashPart received fuel (seen ++ bytes)

/-- Bring the slot's state to the hash of the first `received` bytes of the part file. -/
def resumeHash (i received : ℕ) : Op Unit := do
  let hashing ← ask (.hashing i)
  if hashing.any (·.received = received) then pure ()
  else
    file .openPart
    let seen ← hashPart received received []
    ask (.setHashing i (some ⟨received, seen⟩))

def takeHashing (i : ℕ) (why : String) : Op Hashing := do
  match ← ask (.hashing i) with
  | none => throw (.other why)
  | some h =>
    ask (.setHashing i none)
    pure h

/-- Append what arrives, and return what was taken of it and how the stream ended. -/
def appendHashed (offset remaining : ℕ) : List (Except IoError Content) → Content →
    Op (Content × Except IoError Unit)
  | [], sent => do
    let result ← tried .flush
    pure (sent, result)
  | .error e :: _, sent => pure (sent, .error e)
  | .ok chunk :: rest, sent =>
    if remaining < sent.length + chunk.length then
      pure (sent, .error (.invalidData s!"more than the {remaining} bytes expected"))
    else do
      match ← tried (.writeAll (offset + sent.length) chunk) with
      | .error e => pure (sent, .error e)
      | .ok () => appendHashed offset remaining rest (sent ++ chunk)

/-- Write what arrives to the open part file, and record it. -/
def receive (i : ℕ) (s : Row) (h : Hashing) (body : List (Except IoError Content)) : Op ℕ := do
  file (.setLen s.received)
  file (.seek s.received)
  let (sent, streamed) ← appendHashed s.received (u.length - s.received) body []
  let received := s.received + sent.length
  let _ ← tried .flush
  -- Should the row then not be updated, the next request rebuilds the hash from the file.
  ask (.setHashing i (some ⟨received, h.seen ++ sent⟩))
  query (.setUploadReceived received sent)
  ofExcept (streamed.mapError mapUploadErr)
  if received = u.length then file .syncAll
  pure received

/-- Run `x` and close the part file, whatever comes of it. -/
def closing {α : Type} (x : Op α) : Op α := do
  let result ← Fallible.attempt x
  ask .close
  ofExcept result

/-- The part of a PATCH that holds the slot: the reply, or the hasher of a whole file. -/
def patchLocked (i offset : ℕ) (body : List (Except IoError Content)) :
    Op (Reply × Option Content) := do
  match ← Fallible.attempt (session u) with
  | .error e =>
    ask .forgetSlot
    throw e
  | .ok s =>
    if offset ≠ s.received then pure (.conflict s.received, none)
    else
      let rest := u.length - s.received
      query (.setUploadHeld none)
      match ← tried (.check rest) with
      | .error e =>
        -- Refused: the upload keeps whatever hold it had.
        let _ ← tried (.setUploadHeld s.heldSince)
        throw (refusal e)
      | .ok () =>
        resumeHash i s.received
        -- Out of the slot while bytes go in.
        let h ← takeHashing i "resume_hash sets the state"
        file .openForWriting
        let received ← closing (receive u i s h body)
        if received = u.length then
          let whole ← takeHashing i "put back above"
          pure (.noContent received, some whole.seen)
        else pure (.noContent received, none)

/-- The slot goes before its lock is released. -/
def dropFinishing (i : ℕ) : Op Unit := do
  ask .forgetSlot
  ask (.unlock i)

/-- Verify and attach an upload whose last byte has arrived, still holding its slot. -/
def finish (i : ℕ) (seen : Content) : Op Unit := do
  let sha256 := u.sha256 seen
  let attached ← Fallible.attempt do
    file .rename
    query .deleteUpload
    refuseIf (u.expectedSha256.any (· ≠ sha256)) (.badRequest
      ("checksum mismatch: the upload's SHA-256 is " ++ String.ofList sha256 ++
        "; it was discarded"))
    file (.attach sha256 u.length)
  match attached with
  | .error e =>
    let _ ← tried .removeFinished
    dropFinishing i
    throw e
  | .ok () =>
    dropFinishing i
    let _ ← tried .removeFinished

/-- `PATCH`: append bytes at `offset`, which must be exactly what has arrived so far. -/
def tusPatch (offset : ℕ) (body : List (Except IoError Content)) : Op Reply := do
  let _ ← session u
  let i ← ask .slot
  let locked ← ask (.tryLock i)
  if !locked then throw (.conflict "another request is writing this upload")
  else
    match ← Fallible.attempt (patchLocked u i offset body) with
    | .error e =>
      ask (.unlock i)
      throw e
    | .ok (reply, none) =>
      ask (.unlock i)
      pure reply
    | .ok (reply, some seen) =>
      -- The rest runs to its end whatever the client does meanwhile.
      ask .detach
      finish u i seen
      pure reply

def tusDelete : Op Unit := do
  let _ ← session u
  let i ← ask .slot
  let locked ← ask (.tryLock i)
  if !locked then throw (.conflict "the upload is being written")
  else
    let result ← Fallible.attempt do
      match ← Fallible.attempt (session u) with
      | .error e =>
        ask .forgetSlot
        throw e
      | .ok _ =>
        let _ ← tried .removePart
        query .deleteUpload
        ask .forgetSlot
    ask (.unlock i)
    ofExcept result

/-- The sweep of the expired uploads, as far as it is about this one, and how many went. -/
def sweepExpiredUploads : Op ℕ := do
  match ← tried .expiredUploads with
  | .error _ => pure 0
  | .ok false => pure 0
  | .ok true =>
    let i ← ask .slot
    let locked ← ask (.tryLock i)
    if !locked then pure 0
    else
      let _ ← tried .removePart
      let deleted ← tried .deleteUpload
      ask .forgetSlot
      ask (.unlock i)
      pure (if deleted.isOk then 1 else 0)

/-- What a request is. -/
inductive Work where
  | patch (offset : ℕ) (body : List (Except IoError Content))
  | delete
  | sweep

def Work.run : Work → Op Unit
  | patch offset body => do
    ask .arrive
    let _ ← tusPatch u offset body
  | delete => do
    ask .arrive
    tusDelete u
  | sweep => do
    ask .arrive
    let _ ← sweepExpiredUploads

/-- Any number of requests, just after the upload was created, and what happens beside them. -/
def serving (created : ℕ) (works : ℕ → Work) (happenings : List Happening) :
    Config Party Call Call.Answer Choice State where
  world := ⟨{ row := some ⟨0, some created⟩, now := created }, []⟩
  threads
    | .request t => (works t).run u |>.run.bind fun _ => .done ()
    | .environment => (happenings.forM fun h => ask (.happens h) : Op Unit).run.bind fun _ => .done ()

end YaNuget.Tus
