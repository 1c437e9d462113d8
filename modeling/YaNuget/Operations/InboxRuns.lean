import YaNuget.Operations.InboxReads

/-!
# The inbox in every run

An import knows more with each step: what the checksum file names, what has been
staged, and that it is attached. The walk that finds the files and the reports
of failures change nothing of what is attached.
-/
namespace YaNuget.Inbox

open Concurrency Protocol

variable {site : Site} {strict : Prop} {s s' : State} {w w' : Moment} {o : Choice}
variable {d dir : ℕ} {name : Text} {h : Node} {part : Part}

theorem metadata_exec {found : Metadata}
    (hexec : exec o s (.request (.metadata h)) = some (.ok found, s')) :
    s' = s ∧ ∀ bytes, s.disk.content h = some bytes → bytes.length = found.len := by
  cases hfails : o.fails with
  | some e => simp [exec, hfails] at hexec
  | none =>
    simp only [exec, hfails, State.answer] at hexec
    cases h with
    | file inode =>
      cases hexec
      refine ⟨rfl, fun bytes hbytes => ?_⟩
      change s.disk.bytes inode = some bytes at hbytes
      rw [hbytes]
      rfl
    | dir id =>
      cases hexec
      refine ⟨rfl, fun bytes hbytes => ?_⟩
      cases hbytes
    | other =>
      cases hexec
      refine ⟨rfl, fun bytes hbytes => ?_⟩
      cases hbytes

/-- As long as the file does not change, it is as long as it was. -/
theorem metadata_spec {A : Moment → Prop} (hA : Lasting .nothing A) :
    Triple machine (protocol site strict) .scanner
      (fun w => A w ∧ ReadAt d name h w.past [] ∧ Watched d name h (fun _ => True) w)
      (request (.metadata h))
      (fun found w => A w ∧ Reading d name h (fun bytes => bytes.length = found.len) [] w)
      fun _ => True := by
  have lasting : Lasting .nothing fun w =>
      A w ∧ ReadAt d name h w.past [] ∧ Watched d name h (fun _ => True) w :=
    hA.and (lasting_readAt.and (lasting_watched nofun))
  apply request_spec (r := .metadata h) lasting fun _ _ => trivial
  intro w o found w' hp hs hw hlater
  obtain ⟨hstate, hlen⟩ := metadata_exec (machine.perform_eq_some.mp hp).1
  obtain ⟨hA', hread, -⟩ := lasting w w' hlater hw
  obtain ⟨watch, hwatch, hnode, -⟩ := hw.2.2
  refine ⟨hA', hread, watch, by rw [hstate]; exact hwatch, hnode, ?_⟩
  intro htouched bytes hcontent
  have hstands := (hs d name watch hwatch htouched).2
  rw [hnode, hcontent] at hstands
  exact hlen bytes hstands

theorem markerOf_ne (name : Text) : markerOf name ≠ name := by
  intro h
  have hlen := congrArg List.length h
  simp [markerOf] at hlen

def Stored (dir : ℕ) (name : Text) (bytes : Content) (w : Moment) : Prop :=
  ∃ a ∈ w.state.attached, a.dir = dir ∧ a.name = name ∧ a.bytes = bytes

/-- The scan has a whole copy of the file, and the checksum file names its hash. -/
def Verified (site : Site) (dir : ℕ) (name : Text) (bytes : Content) (w : Moment) : Prop :=
  Named dir (markerOf name) (site.sha256 bytes) w ∧ Staged dir name bytes w

theorem lasting_verified {bytes : Content} :
    Lasting .nothing (Verified site dir name bytes) := by
  have named : Lasting .nothing (Named dir (markerOf name) (site.sha256 bytes)) :=
    lasting_named nofun
  exact named.and (lasting_staging nofun nofun)

theorem attach_spec {c : Candidate} {bytes : Content} {sha256 : Text} {size : ℕ} :
    Triple machine (protocol site strict) .scanner (Verified site dir c.name bytes)
      (request (.attach c dir sha256 size))
      (fun _ w => Verified site dir c.name bytes w ∧ Stored dir c.name bytes w)
      fun _ => True := by
  apply request_spec (r := .attach c dir sha256 size) lasting_verified
  · rintro w ⟨⟨h, raw, hraw, hmarker⟩, hstaged, h', hfile⟩ found hfound
    obtain rfl : bytes = found := Option.some.inj (hstaged.symm.trans hfound)
    exact ⟨⟨h', hfile.1⟩, h, raw, hmarker.1, hraw⟩
  · intro w o a w' hp _ hw hlater
    refine ⟨lasting_verified w w' hlater hw, ?_⟩
    have hexec := (machine.perform_eq_some.mp hp).1
    cases hfails : o.fails with
    | some e => simp [machine, exec, hfails] at hexec
    | none =>
      simp only [machine, exec, hfails, State.answer, hw.2.1, Option.map_some,
        Option.some.injEq, Prod.mk.injEq] at hexec
      rw [Stored, ← hexec.2]
      exact ⟨_, List.mem_cons_self, rfl, rfl, rfl⟩

theorem lasting_stored {bytes : Content} :
    Lasting .nothing fun w => Verified site dir name bytes w ∧ Stored dir name bytes w :=
  lasting_verified.and lasting_attached

/-- The file that has been attached may be removed, and so may its checksum file. -/
theorem remove_spec {bytes : Content} {target : Text}
    (htarget : target = name ∨ target = markerOf name) :
    Triple machine (protocol site strict) .scanner
      (fun w => Verified site dir name bytes w ∧ Stored dir name bytes w)
      (Fallible.ignore (request (.remove dir target)))
      (fun _ w => Verified site dir name bytes w ∧ Stored dir name bytes w)
      fun _ => True := by
  apply Triple.ignore
  apply request_tries (r := .remove dir target) lasting_stored
  rintro w ⟨⟨⟨h, raw, hraw, hmarker⟩, -, h', hfile⟩, a, ha, hdir, hname, hbytes⟩
  subst hdir hname hbytes
  rcases htarget with rfl | rfl
  · refine ⟨h', _, hfile.2, Or.inr fun found hfound => ?_⟩
    exact ⟨a, ha, rfl, found, rfl, Or.inl ⟨rfl, hfound⟩⟩
  · refine ⟨h, _, hmarker.2, Or.inr fun found hfound => ?_⟩
    exact ⟨a, ha, rfl, found, rfl, Or.inr ⟨rfl, hfound ▸ hraw⟩⟩

theorem limit_spec {A : Moment → Prop} {limit : Option ℕ} {exceeds : ℕ → Bool}
    (e : ℕ → Failure) :
    Triple machine (protocol site strict) .scanner A
      (limit.forM fun n => refuseIf (exceeds n) (e n)) (fun _ => A) fun _ => True := by
  cases limit with
  | none => exact Triple.pure fun _ hw => hw
  | some n => exact refuseIf_spec.post fun _ _ hw => hw.2

theorem importFile_spec (c : Candidate) (dir : ℕ) :
    Triple machine (protocol site strict) .scanner (fun _ => True) (importFile site c dir)
      (fun _ _ => True) fun _ => True := by
  unfold importFile
  apply (ofExcept_spec (B := fun _ _ => True) fun _ _ _ _ => trivial).bind
  intro _
  apply (openRegular_spec (lasting_true _)).bind
  intro markerHandle
  apply (readMarker_spec.pre fun w hw => hw.2).bind
  intro expected
  have named : Lasting (.look dir c.name) (Named dir (markerOf c.name) expected) :=
    lasting_named fun h => markerOf_ne c.name (by injection h with _ h; exact h.symm)
  apply (openRegular_spec named).bind
  intro source
  apply (metadata_spec named.of_part).bind
  intro found
  let Ready (w : Moment) : Prop := Named dir (markerOf c.name) expected w ∧
    Reading dir c.name source (fun bytes => bytes.length = found.len) [] w
  have ready : Lasting .nothing Ready := named.of_part.and (lasting_reading nofun)
  apply refuseIf_spec.bind
  intro _
  apply Triple.of_fact
  intro _
  apply (request_keeps (r := .existsIn c) ready fun _ _ => trivial).bind
  intro known
  apply refuseIf_spec.bind
  intro _
  apply Triple.of_fact
  intro _
  apply (limit_spec (A := Ready) fun limit => payloadTooLarge
    s!"{found.len} bytes is over the {limit}-byte limit for files").bind
  intro _
  apply (request_keeps (r := .createStagingDir) ready fun _ _ => trivial).bind
  intro _
  apply (request_keeps (r := .admission found.len) ready fun _ _ => trivial).bind
  intro _
  have staging : Lasting .staging (Named dir (markerOf c.name) expected) := lasting_named nofun
  apply (copyHashed_spec staging).bind
  rintro ⟨copied, actual⟩
  apply refuseIf_spec.bind
  intro _
  apply Triple.of_fact
  intro hagree
  rw [decide_eq_false_iff_not, not_not] at hagree
  subst hagree
  intro w hw
  obtain ⟨bytes, hcopy, hnamed, hstaged⟩ := hw
  obtain ⟨-, rfl⟩ := Prod.mk.inj hcopy
  refine Triple.bind attach_spec (fun _ => ?_) w ⟨hnamed, hstaged⟩
  apply (remove_spec (Or.inl rfl)).bind
  intro _
  exact (remove_spec (Or.inr rfl)).post fun _ _ _ => trivial

theorem kind_exec {kind : Kind} (hexec : exec o s (.kind d name) = some (kind, s'))
    (hother : kind = .other) : s' = s.look d name .other := by
  simp only [exec] at hexec
  split at hexec
  · rename_i node _ hat
    cases hexec
    cases node with
    | file inode => cases hother
    | dir id => cases hother
    | other => rfl
  · cases hexec
    cases hother

theorem kind_spec {E : Moment → Prop} :
    Triple machine (protocol site strict) .scanner (fun _ => True) (ask (.kind d name))
      (fun kind w => kind = .other → Watched d name .other (fun _ => True) w) E := by
  apply ask_spec (c := .kind d name) (lasting_true _) fun _ _ => trivial
  intro w o kind w' hp _ _ _ hother
  have hstate := kind_exec (machine.perform_eq_some.mp hp).1 hother
  obtain ⟨s', past'⟩ := w'
  obtain rfl := hstate
  exact look_watched w.state past'

/-- What stands at the report's name is removed only where it is no file. -/
theorem writeReport_spec (dir : ℕ) (report : Text) (e : Failure) :
    Triple machine (protocol site strict) .scanner (fun _ => True) (writeReport dir report e)
      (fun _ _ => True) fun _ => True := by
  have written : ∀ text : String → Text, Triple machine (protocol site strict) .scanner
      (fun _ => True)
      (do
        let now ← ask .now
        Fallible.ignore do
          let h ← request (.createNew dir report)
          request (.writeAll h (text now)))
      (fun _ _ => True) fun _ => True := by
    intro text
    apply (ask_keeps (c := .now) (lasting_true _) fun _ _ => trivial).bind
    intro now
    apply Triple.ignore
    apply (request_keeps (r := .createNew dir report) (lasting_true _) fun _ _ => trivial).bind
    intro h
    exact request_keeps (r := .writeAll h (text now)) (lasting_true _) fun _ _ => trivial
  unfold writeReport
  apply kind_spec.bind
  intro kind
  dsimp only
  by_cases hother : kind = .other
  · rw [if_pos hother]
    have lasting : Lasting .nothing (Watched dir report .other fun _ => True) :=
      lasting_watched nofun
    have removed : Triple machine (protocol site strict) .scanner
        (Watched dir report .other fun _ => True)
        (Fallible.ignore (request (.remove dir report)))
        (fun _ _ => True) fun _ => True := by
      apply (Triple.ignore (request_tries (r := .remove dir report) lasting fun w hw => ?_)).post
      · exact fun _ _ _ => trivial
      · exact ⟨.other, _, hw, Or.inl rfl⟩
    apply (removed.pre fun w hw => hw hother).bind
    intro _
    exact written _
  · rw [if_neg hother]
    exact (written _).pre fun _ _ => trivial

/-- The operation keeps the protocol, whatever the scan knows. -/
abbrev Keeps (site : Site) (strict : Prop) {α : Type} (x : Op α) : Prop :=
  Maintains machine (protocol site strict) .scanner (fun _ => True) x

theorem closed_keeps : Fallible.Closed (fun {α : Type} (x : Op α) => Keeps site strict x) :=
  closed_maintains _ _ _ _

theorem keeps_request {r : Request} (hduty : ∀ w, Duty site w (.request r)) :
    Keeps site strict (request r) :=
  Triple.maintains (request_tries (lasting_true _) fun w _ => hduty w)

theorem keeps_ask {c : Call} (hduty : ∀ w, Duty site w c) : Keeps site strict (ask c) :=
  Triple.maintains (ask_keeps (lasting_true _) fun w _ => hduty w)

theorem keeps_pure {α : Type} (a : α) : Keeps site strict (pure a : Op α) :=
  closed_keeps.result (.ok a)

theorem keeps_names (d : ℕ) : Keeps site strict (names d) :=
  closed_keeps.bind (keeps_ask (c := .readDir d) fun _ => trivial) fun _ => keeps_pure _

theorem keeps_collect {α β : Type} {g : α → Op (List β)} (hg : ∀ a, Keeps site strict (g a))
    (xs : List α) : Keeps site strict (collect g xs) := by
  induction xs with
  | nil => exact keeps_pure []
  | cons x xs ih =>
    apply closed_keeps.bind (hg x)
    intro found
    exact closed_keeps.bind ih fun more => keeps_pure _

theorem keeps_within {α : Type} {g : ℕ → Op (List α)} (hg : ∀ d, Keeps site strict (g d))
    (d : ℕ) (name : Text) : Keeps site strict (within d name g) := by
  apply closed_keeps.bind
    (closed_keeps.attempt (keeps_request (r := .openDir d name) fun _ => trivial))
  intro result
  cases result with
  | ok sub => exact hg sub
  | error e => exact keeps_pure []

theorem keeps_waiting (dir : ℕ) (feed id version : Text) (v : Versions.NuGetVersion)
    (entry : Text) : Keeps site strict (waiting dir feed id version v entry) := by
  unfold waiting
  cases stripSuffix ".sha256".toList entry with
  | none => exact keeps_pure []
  | some name =>
    apply closed_keeps.bind (keeps_ask (c := .kind dir name) fun _ => trivial)
    intro kind
    split_ifs
    · exact keeps_pure []
    · apply closed_keeps.bind (keeps_ask (c := .kind dir (reportOf name)) fun _ => trivial)
      intro report
      split_ifs <;> exact keeps_pure _

theorem keeps_candidates (feeds : List Text) : Keeps site strict (candidates feeds) := by
  apply closed_keeps.bind (keeps_request (r := .openRoot) fun _ => trivial)
  intro root
  apply closed_keeps.bind (keeps_names root)
  intro feedNames
  apply keeps_collect
  intro feed
  split_ifs
  · exact keeps_pure []
  · apply keeps_within
    intro feedDir
    apply closed_keeps.bind (keeps_names feedDir)
    intro ids
    apply keeps_collect
    intro id
    cases Listings.validatePackageId id with
    | error why => exact keeps_pure []
    | ok _ =>
      apply keeps_within
      intro idDir
      apply closed_keeps.bind (keeps_names idDir)
      intro versions
      apply keeps_collect
      intro version
      cases Versions.NuGetVersion.parse version with
      | error e => exact keeps_pure []
      | ok v =>
        apply keeps_within
        intro versionDir
        apply closed_keeps.bind (keeps_names versionDir)
        intro entries
        exact keeps_collect (keeps_waiting versionDir feed id version v) entries

theorem keeps_openDir (c : Candidate) : Keeps site strict c.openDir := by
  have opened : ∀ d name, Keeps site strict (request (.openDir d name)) := fun d name =>
    keeps_request (r := .openDir d name) fun _ => trivial
  apply closed_keeps.bind (keeps_request (r := .openRoot) fun _ => trivial)
  intro root
  apply closed_keeps.bind (opened root c.feed)
  intro feedDir
  apply closed_keeps.bind (opened feedDir c.id)
  intro idDir
  exact opened idDir c.version

theorem keeps_importEach (found : List Candidate) (report : ScanReport) :
    Keeps site strict (importEach site found report) := by
  induction found generalizing report with
  | nil => exact keeps_pure report
  | cons c rest ih =>
    apply closed_keeps.bind (closed_keeps.attempt (keeps_openDir c))
    intro opened
    cases opened with
    | error e => exact ih report
    | ok dir =>
      apply closed_keeps.bind
        (closed_keeps.attempt (Triple.maintains (importFile_spec c dir)))
      intro imported
      cases imported with
      | ok _ => exact ih _
      | error e =>
        apply closed_keeps.bind (Triple.maintains (writeReport_spec dir (reportOf c.name) e))
        intro _
        exact ih _

theorem keeps_scan : Keeps site strict (scan site) := by
  apply closed_keeps.bind (closed_keeps.attempt (keeps_candidates site.feeds))
  intro result
  cases result with
  | error e => exact keeps_pure _
  | ok found => exact keeps_importEach found _

theorem keeps_scans (n : ℕ) : Keeps site strict (scans site n) := by
  induction n with
  | zero => exact keeps_pure ()
  | succ n ih => exact closed_keeps.bind keeps_scan fun _ => ih

theorem run_invariant {disk : Disk} {n : ℕ} {changes : List (Disk → Disk)}
    {c : Config Party Call Call.Answer Choice State}
    (h : machine.Reaches (fun w e _ => strict → undisturbed w e = true)
      (working site disk n changes) c) : Invariant site strict c.world := by
  have start : Protocol.Keeps machine (protocol site strict) (working site disk n changes) := by
    refine ⟨⟨fun _ _ _ => nofun, fun _ => nofun, fun _ _ => nofun⟩, fun t => ?_⟩
    cases t with
    | scanner => exact Safe.bind ((keeps_scans n _ trivial).mono fun _ _ _ => trivial)
    | uploader => exact Safe.bind ((uploader_safe changes _).mono fun _ _ _ => trivial)
  exact (start.reaches h).1

/-- Whatever the uploader does, what a scan attaches was read through one handle and has the hash
that was read from a checksum file. And whenever the uploader leaves alone what the scan has
looked at until the scan removes it, each file that it removes is one that it has attached, or the
checksum file of one. -/
theorem inbox_keeps_its_promise (site : Site) (disk : Disk) (n : ℕ)
    (changes : List (Disk → Disk)) :
    (∀ c, machine.Reaches (fun _ _ _ => True) (working site disk n changes) c →
      Promised site c.world) ∧
    ∀ c, machine.Reaches (fun w e _ => undisturbed w e = true)
        (working site disk n changes) c →
      Promised site c.world ∧ NothingLost site c.world.state := by
  constructor
  · intro c h
    have hinv : Invariant site False c.world := run_invariant (h.mono fun _ _ _ _ => False.elim)
    exact hinv.promised
  · intro c h
    have hinv : Invariant site True c.world := run_invariant (h.mono fun _ _ _ hun _ => hun)
    exact ⟨hinv.promised, hinv.lost trivial⟩

def sampleName : Text := "a.wim".toList

/-- Two files have two hashes here. -/
def sampleSite : Site where
  feeds := ["main".toList]
  allowedExtensions _ := ["wim".toList]
  maxFileSize := none
  sha256 bytes := List.replicate 64 (if bytes = [1] then 'a' else 'b')

/-- A file with its checksum file, and another one that is still on its way. -/
def sampleDisk : Disk where
  entries
    | 0 => [("main".toList, .dir 1)]
    | 1 => [("pkg".toList, .dir 2)]
    | 2 => [("1.0.0".toList, .dir 3)]
    | 3 => [(sampleName, .file 0), (markerOf sampleName, .file 1), ("new".toList, .file 2),
        ("new.sha256".toList, .file 3)]
    | _ => []
  bytes
    | 0 => some [1]
    | 1 => some (List.replicate 64 97)
    | 2 => some [2]
    | 3 => some (List.replicate 64 98)
    | _ => none
  links _ := 1

/-- The other file takes the place of the first one, and its checksum file that of the other. -/
def replace (disk : Disk) : Disk :=
  (disk.rename 3 "new".toList sampleName).rename 3 "new.sha256".toList (markerOf sampleName)

/-- The other file gets a name of its own, and so does its checksum file. -/
def otherName : Text := "b.wim".toList

def arrive (disk : Disk) : Disk :=
  (disk.rename 3 "new".toList otherName).rename 3 "new.sha256".toList (markerOf otherName)

/-- A call that goes well, where a directory is read whose names are these. -/
def meets (names : List Text) : Party × Choice := (.scanner, ⟨none, names, 4096, true, 9, ""⟩)

/-- A scan finds a file and its checksum file. -/
def sampleWalk (name : Text) : List (Party × Choice) :=
  [meets [], meets ["main".toList], meets [], meets ["pkg".toList], meets [],
    meets ["1.0.0".toList], meets [], meets [name, markerOf name]]

/-- The scan imports the file, and the uploader does one thing in between. -/
def sampleSchedule (before after : ℕ) : List (Party × Choice) :=
  sampleWalk sampleName ++ List.replicate before (meets []) ++
    [(.uploader, ⟨none, [], 0, true, 9, ""⟩)] ++ List.replicate after (meets [])

/-- While the first file is copied the other one gets a name of its own. The scan attaches the first
file and removes it with its checksum file, and the next scan does so with the other one. -/
theorem inbox_keeps_its_promise_sample :
    ∃ c, machine.run (working sampleSite sampleDisk 2 [arrive])
        (sampleSchedule 17 6 ++ sampleWalk otherName ++ List.replicate 23 (meets [])) = some c ∧
      c.world.state.attached.map (·.bytes) = [[2], [1]] ∧ c.world.state.removed.length = 4 ∧
      Promised sampleSite c.world ∧ NothingLost sampleSite c.world.state := by
  let start := working sampleSite sampleDisk 2 [arrive]
  let schedule := sampleSchedule 17 6 ++ sampleWalk otherName ++ List.replicate 23 (meets [])
  have passed : machine.runs (fun w e _ => undisturbed w e) start schedule = true := by
    decide +kernel
  obtain ⟨c, hrun, hreach⟩ : ∃ c, machine.run start schedule = some c ∧
      machine.Reaches (fun w e _ => undisturbed w e = true) start c :=
    Machine.Reaches.of_runs (fun _ _ _ h => h) passed
  have final : (machine.run start schedule).map (fun c =>
      (c.world.state.attached.map (·.bytes), c.world.state.removed.length)) =
      some ([[2], [1]], 4) := by
    decide +kernel
  rw [hrun, Option.map_some, Option.some.injEq, Prod.mk.injEq] at final
  exact ⟨c, hrun, final.1, final.2,
    (inbox_keeps_its_promise sampleSite sampleDisk 2 [arrive]).2 c hreach⟩

/-- The uploader replaces the file and its checksum file while the first file is copied. Both are
removed, and are attached to nothing. -/
theorem replaced_upload_is_lost :
    ∃ c, machine.Reaches (fun _ _ _ => True) (working sampleSite sampleDisk 1 [replace]) c ∧
      ¬ (Promised sampleSite c.world ∧ NothingLost sampleSite c.world.state) := by
  let start := working sampleSite sampleDisk 1 [replace]
  obtain ⟨c, hrun⟩ : ∃ c, machine.run start (sampleSchedule 17 6) = some c :=
    Option.isSome_iff_exists.mp (by decide +kernel)
  have final : (machine.run start (sampleSchedule 17 6)).map (fun c =>
      (c.world.state.removed.map fun r => (r.name, r.content),
        c.world.state.attached.map fun a => (a.name, a.bytes))) =
      some ([(markerOf sampleName, some (List.replicate 64 98)), (sampleName, some [2])],
        [(sampleName, [1])]) := by
    decide +kernel
  rw [hrun, Option.map_some, Option.some.injEq, Prod.mk.injEq] at final
  refine ⟨c, Machine.Reaches.of_run hrun, fun ⟨_, hlost⟩ => ?_⟩
  obtain ⟨r, hr, hremoved⟩ : ∃ r ∈ c.world.state.removed,
      (r.name, r.content) = (sampleName, some [2]) := by
    rw [← List.mem_map, final.1]
    simp
  obtain ⟨hname, hcontent⟩ := Prod.mk.inj hremoved
  rcases hlost r hr with hnone | ⟨a, ha, -, bytes, hbytes, hbelongs⟩
  · rw [hcontent] at hnone
    cases hnone
  · have hattached : (a.name, a.bytes) ∈ c.world.state.attached.map fun a => (a.name, a.bytes) :=
      List.mem_map_of_mem ha
    rw [final.2, List.mem_singleton, Prod.mk.injEq] at hattached
    rw [hcontent, Option.some.injEq] at hbytes
    rcases hbelongs with ⟨-, hsame⟩ | ⟨hmarker, -⟩
    · rw [hattached.2, ← hbytes] at hsame
      cases hsame
    · rw [hname, hattached.1] at hmarker
      exact markerOf_ne sampleName hmarker.symm

end YaNuget.Inbox
