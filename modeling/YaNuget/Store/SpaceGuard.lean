import YaNuget.Store.Reservations

/-!
# Free space on the storage volume

A write is admitted when the volume has room for it, for all that is promised to
other writes, for what unfinished resumable uploads hold, and for a reserve. But
these are read one after the other, while others write: bytes that are taken off
the promises before these are read were still free when the volume was measured.
-/
namespace YaNuget.Space

def maxWord : ℕ := wordSize - 1

def saturatingAdd (a b : ℕ) : ℕ := min (a + b) maxWord

/-- How long an unfinished resumable upload holds the space it has still to receive. -/
def resumableHoldMinutes : ℕ := 60

/-- Whether the volume has room for everything promised, `incoming` included, and the reserve. A
volume that cannot be measured lets every write through, and so does a reserve of zero. -/
def verdict (reserve incoming : ℕ) (available : Option ℕ) (resumable pool : ℕ) :
    Except String Unit :=
  if reserve = 0 then .ok ()
  else match available with
    | none => .ok ()
    | some available =>
      let inFlight := pool - incoming
      let needed := saturatingAdd (saturatingAdd (max pool incoming) resumable) reserve
      if available < needed then
        .error (s!"{available} bytes free on the storage volume, {needed} needed: " ++
          s!"{incoming} incoming, {inFlight} promised to other uploads in progress, " ++
          s!"{resumable} held by unfinished resumable uploads (each for up to " ++
          s!"{resumableHoldMinutes} min after its last request), and the configured reserve of " ++
          s!"{reserve}")
      else .ok ()

theorem fits_of_verdict {reserve incoming available resumable pool : ℕ} (hreserve : 0 < reserve)
    (havailable : available ≤ maxShare)
    (h : verdict reserve incoming (some available) resumable pool = .ok ()) :
    max pool incoming + resumable + reserve ≤ available := by
  simp only [verdict, Nat.pos_iff_ne_zero.mp hreserve, if_false] at h
  split_ifs at h with hneeded
  have hmax : maxShare < maxWord := by norm_num [maxShare, maxWord, wordSize]
  simp only [saturatingAdd] at hneeded
  omega

/-- What a check saw when it measured the volume. -/
structure Seen where
  available : ℕ
  /-- What was reported by then and not shown by the free space. -/
  late : ℕ
  /-- What was taken off the promises by then. -/
  settled : ℕ
  deriving DecidableEq, Repr

/-- Where a check stands: what it has read so far. -/
inductive Check where
  | waiting
  | measured (seen : Seen)
  /-- It has read the rows, which had been given `raised` to hold by then. -/
  | counted (seen : Seen) (resumable raised : ℕ)
  | passed
  | refused
  deriving DecidableEq, Repr

def Check.decided : Check → Bool
  | .passed | .refused => true
  | _ => false

/-- A resumable upload: what it has still to receive, and whether it holds the space for it. -/
structure Row where
  rest : ℕ
  held : Bool
  deriving DecidableEq, Repr

def Row.hold (r : Row) : ℕ := if r.held then r.rest else 0

/-- A write in progress, at the index of its share. -/
structure Writer where
  incoming : ℕ
  check : Check := .waiting
  /-- The row of the resumable upload that it writes to, as the request has read it. -/
  row : Option (ℕ × Row) := none
  /-- What it may still write. -/
  allowed : ℕ := 0
  /-- What it has written and not reported yet. -/
  unreported : ℕ := 0
  deriving DecidableEq, Repr

/-- What its row held before it, until the write is let through. -/
def Writer.lent (w : Writer) : ℕ :=
  if w.check = .passed then 0 else (w.row.map (·.2.hold)).getD 0

structure Volume where
  pool : Reservations := {}
  writers : List Writer := []
  rows : List Row := []
  free : ℕ
  /-- Bytes that are written and that the free space does not show yet. -/
  pending : ℕ := 0
  /-- All that was ever taken off the promises, and all that rows were ever given to hold. No step
  depends on these. -/
  settled : ℕ := 0
  raised : ℕ := 0
  /-- What the check of the last write that was let through has missed. -/
  missed : ℕ := 0
  deriving DecidableEq, Repr

/-- Writes are of a declared size. -/
inductive Event where
  /-- A write begins: it promises its bytes. -/
  | reserve (bytes : ℕ)
  | measure (i : ℕ)
  /-- The volume cannot be measured. -/
  | unmeasured (i : ℕ)
  | count (i : ℕ)
  /-- The rows cannot be read. -/
  | fail (i : ℕ)
  | decide (i : ℕ)
  | write (i n : ℕ)
  /-- The free space shows what was written. -/
  | land (n : ℕ)
  /-- It never will. -/
  | lose (n : ℕ)
  /-- The two steps of `consumed`. -/
  | take (i n : ℕ)
  | settle (i : ℕ)
  | drop (i : ℕ)
  /-- Files are deleted. -/
  | release (n : ℕ)
  /-- The row of a resumable upload gives up its hold to the request that writes to it. -/
  | giveUp (i j : ℕ)
  /-- The request was refused: the row has its hold again. -/
  | restore (i : ℕ)
  /-- The row of a new upload promises the space from now on. -/
  | create (i : ℕ)
  /-- The row holds what is left when the request ends. -/
  | record (i : ℕ)
  /-- A row that has been idle for long, or is gone, holds nothing. -/
  | lapse (j : ℕ)
  deriving DecidableEq, Repr

namespace Volume

variable (s : Volume)

/-- What rows hold. -/
def resumable : ℕ := (s.rows.map Row.hold).sum

/-- What writes may still write, and what rows hold or have lent. -/
def outstanding : ℕ := (s.writers.map fun w => w.allowed + w.lent).sum + s.resumable

def unreported : ℕ := (s.writers.map (·.unreported)).sum

def setWriter (i : ℕ) (w : Writer) : Volume := { s with writers := s.writers.set i w }

def setRow (j : ℕ) (r : Row) : Volume :=
  { s with rows := s.rows.set j r, raised := s.raised + r.hold }

def seen : Seen where
  available := s.free
  late := s.pending - s.unreported
  settled := s.settled

/-- What is missed by a check that is about to decide: what was not shown as used when the volume
was measured and is not promised any more, and what rows were given to hold since they were read. -/
def missedBy (seen : Seen) (raised : ℕ) : ℕ :=
  seen.late + (s.settled - seen.settled) + (s.raised - raised)

def withPool (a : Action) (f : Reservations → Volume) : Option Volume := (s.pool.step a).map f

/-- One step, with a reserve to keep. Only one request at a time has the slot of an upload: its row
is restored as the request has read it. -/
def step (reserve : ℕ) (s : Volume) : Event → Option Volume
  | .reserve bytes => s.withPool (.reserve bytes) fun pool =>
      { s with pool := pool, writers := s.writers ++ [{ incoming := bytes }] }
  | .measure i =>
    match s.writers[i]? with
    | some w =>
      if w.check = .waiting then some (s.setWriter i { w with check := .measured s.seen }) else none
    | none => none
  | .unmeasured i =>
    match s.writers[i]? with
    | some w =>
      if w.check = .waiting then
        some (s.setWriter i { w with check := .passed, allowed := w.incoming })
      else none
    | none => none
  | .count i =>
    match s.writers[i]? with
    | some w =>
      match w.check with
      | .measured seen =>
        some (s.setWriter i { w with check := .counted seen s.resumable s.raised })
      | _ => none
    | none => none
  | .fail i =>
    match s.writers[i]? with
    | some w =>
      match w.check with
      | .measured _ => some (s.setWriter i { w with check := .refused })
      | _ => none
    | none => none
  | .decide i =>
    match s.writers[i]? with
    | some w =>
      match w.check with
      | .counted seen resumable raised =>
        match verdict reserve w.incoming (some seen.available) resumable s.pool.promised with
        | .error _ => some (s.setWriter i { w with check := .refused })
        | .ok () => some { s.setWriter i { w with check := .passed, allowed := w.incoming } with
            missed := s.missedBy seen raised }
      | _ => none
    | none => none
  | .write i n =>
    match s.writers[i]? with
    | some w =>
      if n ≤ w.allowed then
        some { s.setWriter i { w with
          allowed := w.allowed - n, unreported := w.unreported + n } with
          pending := s.pending + n }
      else none
    | none => none
  | .land n =>
    if n ≤ s.pending then some { s with pending := s.pending - n, free := s.free - n } else none
  | .lose n => some { s with pending := s.pending - n }
  | .take i n =>
    match s.writers[i]? with
    | some w =>
      if n ≤ w.unreported then s.withPool (.take i n) fun pool => { s with pool := pool } else none
    | none => none
  | .settle i =>
    match s.writers[i]?, s.pool.shares[i]? with
    | some w, some (some ⟨_, some n⟩) => s.withPool (.settle i) fun pool =>
        { s.setWriter i { w with unreported := w.unreported - n } with
          pool := pool, settled := s.settled + n }
    | _, _ => none
  | .drop i =>
    match s.writers[i]? with
    | some w =>
      if w.unreported = 0 then s.withPool (.drop i) fun pool =>
        { s.setWriter i { incoming := 0, check := .refused } with pool := pool }
      else none
    | none => none
  | .release n => if s.free + n ≤ maxShare then some { s with free := s.free + n } else none
  | .giveUp i j =>
    match s.writers[i]?, s.rows[j]? with
    | some w, some r =>
      if w.check = .waiting ∧ w.row = none ∧ w.incoming = r.rest then
        some { s.setWriter i { w with row := some (j, r) } with
          rows := s.rows.set j { r with held := false } }
      else none
    | _, _ => none
  | .restore i =>
    match s.writers[i]? with
    | some w =>
      match w.row with
      | some (j, was) =>
        match s.rows[j]? with
        | some r =>
          if w.check = .refused ∧ r.rest = was.rest then
            some ((s.setRow j { r with held := was.held }).setWriter i { w with row := none })
          else none
        | none => none
      | none => none
    | none => none
  | .create i =>
    match s.writers[i]? with
    | some w =>
      if w.check = .passed ∧ w.row = none then
        some { s.setWriter i { w with allowed := 0 } with
          rows := s.rows ++ [⟨w.allowed, true⟩], raised := s.raised + w.allowed }
      else none
    | none => none
  | .record i =>
    match s.writers[i]? with
    | some w =>
      match w.row with
      | some (j, _) =>
        if w.check = .passed ∧ j < s.rows.length then
          some ((s.setRow j ⟨w.allowed, true⟩).setWriter i { w with allowed := 0 })
        else none
      | none => none
    | none => none
  | .lapse j =>
    match s.rows[j]? with
    | some r => some { s with rows := s.rows.set j { r with held := false } }
    | none => none

end Volume

end YaNuget.Space
