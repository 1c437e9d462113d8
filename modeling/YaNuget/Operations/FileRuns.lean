import YaNuget.Operations.FileSections
import YaNuget.Operations.LockedSlices
import YaNuget.Operations.ServedBuilds

/-!
# Attached files in every run

Every task keeps the protocol of the attached files. So in every state the
blobs of the files of held versions are stored, and each change to the files of
an approved version is made by a request with the admin key of every feed whose
approval of it is a review.
-/
namespace YaNuget

open Concurrency Op Fallible Protocol

namespace Requester

variable {host : Host} (requester : Requester host)

theorem reviewing_guard {m : FeedSettings} (hm : m ∈ host.feeds) (hreviews : m.reviews = true) :
    m.name ∈ requester.guard.reviewing := by
  cases requester with
  | request own presents =>
    simp only [guard, ApprovalGuard.forRequest, List.mem_append, List.mem_map, List.mem_filter]
    by_cases hname : m.name = own.1.name
    · have hown : m = own.1 := List.inj_on_of_nodup_map host.feeds_nodup hm own.2 hname
      subst hown
      exact Or.inr (by simp [hreviews])
    · exact Or.inl ⟨m, ⟨hm, by simp [hname, hreviews]⟩, rfl⟩
  | inbox target =>
    exact List.mem_map.mpr ⟨m, List.mem_filter.mpr ⟨hm, hreviews⟩, rfl⟩

theorem presentsAdmin_of_adminOf {f : FeedName} (h : f ∈ requester.guard.adminOf) :
    requester.presentsAdmin f = true := by
  cases requester with
  | request own presents =>
    simp only [guard, ApprovalGuard.forRequest, List.mem_append, List.mem_map, List.mem_filter] at h
    rcases h with ⟨m, ⟨-, hm⟩, rfl⟩ | hown
    · exact (Bool.and_eq_true_iff.mp hm).2
    · split_ifs at hown with hpresents
      · rw [List.mem_singleton.mp hown]
        exact hpresents
      · simp at hown
  | inbox target => simp [guard, ApprovalGuard.withoutCredentials] at h

theorem presentsAdmin_of_guard {m : FeedSettings} (hm : m ∈ host.feeds)
    (hreviews : m.reviews = true)
    (h : requester.guard.holds m.name = true → requester.guard.mayOverride m.name = true) :
    requester.presentsAdmin m.name = true := by
  have hreviewing := requester.reviewing_guard hm hreviews
  have hmay := h (by simp [ApprovalGuard.holds, hreviewing])
  refine requester.presentsAdmin_of_adminOf ?_
  simpa [ApprovalGuard.mayOverride, hreviewing] using hmay

end Requester

/-- Who asked for a change to a version's files. -/
def Task.requester {host : Host} : Task host → Option (Requester host)
  | .attach requester _ _ _ | .detach requester _ _ => some requester
  | _ => none

variable {T : Type} [DecidableEq T] {host : Host}

def MayRefile (tasks : T → Task host) (t : T) (f : FeedName) : Prop :=
  ∀ m ∈ host.feeds, m.name = f → m.reviews = true →
    ∃ requester, (tasks t).requester = some requester ∧ requester.presentsAdmin f = true

section Runs

variable {stored : Prop} {authorized : T → FeedName → Prop} {t : T} {α : Type} {x : Op α}

omit [DecidableEq T] in
/-- A call about no files and no blobs, that lets no feed hold a version. -/
theorem Careful.of_quiet {c : Call} {w : StoreWorld T} (hhandles : ∀ sha, ¬ c.handles sha)
    (hholds : ∀ k, ¬ c.holds k) (hrefiles : ∀ k, ¬ c.refiles k) : Careful authorized t c w where
  handled sha h := (hhandles sha h).elim
  held k h := (hholds k h).elim
  refiled k h := (hrefiles k h).elim
  deleted sha h := (hhandles sha (by rw [h]; rfl)).elim
  added k file h := (hrefiles k (by rw [h]; rfl)).elim

theorem filing_ignoresLocks : IgnoresLocks (filing stored authorized) := by
  intro t c k o w w' r hc hp hinv
  refine Careful.step ?_ hp hinv
  rcases hc with rfl | rfl
  · exact .of_quiet (fun _ => id) (fun _ => id) fun _ => id
  · exact .of_quiet (fun _ => id) (fun _ => id) fun _ => id

theorem files_locked {k : VersionKey}
    (h : Files stored authorized t (Locks t k) x (fun _ => Locks t k) (Locks t k)) :
    (filing stored authorized).Maintains (server T) t (Held t []) (withVersionLock k x) := by
  refine maintains_locked filing_ignoresLocks (Triple.maintains (h.mono ?_ ?_ ?_))
  · exact fun w hw => ⟨hw k List.mem_cons_self, trivial⟩
  · rintro _ w hw k' hk'
    rw [List.mem_singleton.mp hk']
    exact hw.1
  · rintro w hw k' hk'
    rw [List.mem_singleton.mp hk']
    exact hw.1

theorem files_unlocked
    (h : Files stored authorized t (fun _ => True) x (fun _ _ => True) fun _ => True) :
    (filing stored authorized).Maintains (server T) t (Held t []) x :=
  Triple.maintains (h.mono (fun _ _ => trivial) (fun _ _ _ => by simp [Held]) fun _ _ => by
    simp [Held])

theorem files_approval {ks : List VersionKey} (hx : x.run.Calls (Call.approves ks)) :
    (filing stored authorized).Maintains (server T) t (Held t ks) x := by
  refine Protocol.Maintains.of_calls (stable_held _ t ks) ?_ hx
  intro c hc w hw hinv o r w' hp _
  have careful : Careful authorized t c w := by
    cases c with
    | db q => cases q <;> first
      | exact hc.elim
      | exact .of_quiet (fun _ => id) (fun _ => id) fun _ => id
    | _ => exact hc.elim
  obtain ⟨hinv', hguar⟩ := careful.step hp hinv
  exact ⟨hinv', hguar, fun j hj =>
    (congrFun (versionLock_of_within hp (Call.within_of_approves hc)) j).trans (hw j hj)⟩

theorem files_parts (site : Site) (t : T) :
    Parts site (fun _ _ _ => True) (fun _ => True) (fun {α : Type} (x : Op α) =>
      (filing stored authorized).Maintains (server T) t (Held t []) x) where
  query q hq := by
    refine Protocol.Maintains.of_calls (φ := fun c => c = .db q) (stable_held _ t []) ?_
      (calls_query rfl)
    rintro _ rfl w - hinv o r w' hp -
    have careful : Careful authorized t (.db q) w := by
      cases q <;> first
        | exact .of_quiet (fun _ => id) (fun _ => id) fun _ => id
        | exact hq.elim
    obtain ⟨hinv', hguar⟩ := careful.step hp hinv
    exact ⟨hinv', hguar, by simp [Held]⟩
  arrive feed k := files_unlocked (files_plain steadfast_true (calls_call trivial))
  purge feed k := files_locked (files_purgeLocked feed)
  planned feed k := files_locked (files_purgePlannedLocked feed)
  sweep k := files_locked files_sweepLocked
  index feed bytes options incoming _ _ := files_locked (files_indexLocked site feed incoming options)
  approve feed v shown :=
    maintains_locked filing_ignoresLocks (files_approval (calls_approveLocked site feed v shown))
  approveMany feed id versions shown := maintains_allLocked filing_ignoresLocks
    (files_approval (by simpa using calls_approveManyLocked site feed id versions shown))
  transfer source target k mode _ := files_locked (files_transferLocked source target mode)

theorem Call.plain_of_publishes {k : VersionKey} {c : Call} (h : c.publishes k) : c.plain := by
  cases c with
  | db q => cases q <;> first | exact h.elim | exact trivial
  | storage q => cases q <;> first | exact h.elim | exact trivial
  | lockSymbol | unlockSymbol | symbolsIndexed => exact trivial
  | _ => exact h.elim

theorem Call.plain_of_fetches {c : Call} (h : c.fetches) : c.plain := by
  cases c with
  | db q => cases q <;> first | exact h.elim | exact trivial
  | storage q => cases q <;> first | exact h.elim | exact trivial
  | respond => exact trivial
  | _ => exact h.elim

variable {tasks : T → Task host}

theorem files_task (t : T) :
    (filing stored (MayRefile tasks)).Maintains (server T) t (Held t []) (tasks t).run := by
  let J {α : Type} (x : Op α) : Prop :=
    (filing stored (MayRefile tasks)).Maintains (server T) t (Held t []) x
  have hJ : Closed J := Protocol.closed_maintains (server T) (filing stored (MayRefile tasks)) t _
  have hparts : Parts host.toSite (fun _ _ _ => True) (fun _ => True) J :=
    files_parts host.toSite t
  have hguard (requester : Requester host) (hrequester : (tasks t).requester = some requester)
      (f : FeedName) (h : requester.guard.holds f = true → requester.guard.mayOverride f = true) :
      MayRefile tasks t f := by
    rintro m hm rfl hreviews
    exact ⟨requester, hrequester, requester.presentsAdmin_of_guard hm hreviews h⟩
  cases htask : tasks t with
  | operate op => exact hparts.run hJ op (fun _ _ _ _ => trivial) fun _ _ => trivial
  | attach requester v name upload =>
    exact hJ.discard (files_locked (files_attachLocked
      (hguard requester (by rw [htask]; rfl)) _ name upload))
  | detach requester v name =>
    exact files_locked (files_detachLocked (hguard requester (by rw [htask]; rfl)) _ name)
  | sweepBlobs blobs =>
    exact files_unlocked (Triple.forM fun sha _ => files_withBlobLock steadfast_true
      (fun _ _ h => h) (files_collectBlob steadfast_true ofRows_true))
  | pushSymbols feed bytes =>
    refine hJ.bind (hJ.result _) fun a => hJ.bind ?_ fun _ =>
      hJ.bind (Op.closed_refuseIf hJ _) fun _ => hJ.bind (Op.closed_refuseIf hJ _) fun _ =>
        hJ.bind (hJ.result _) fun entries => ?_
    · exact files_unlocked (files_plain steadfast_true (calls_query trivial))
    · exact files_locked (files_upkeep _
        ((calls_indexSymbolsLocked _ _ feed entries).mono fun _ => Call.plain_of_publishes))
  | download d =>
    refine closed_downloadPackage hJ d (fun x hx => files_unlocked
      (files_plain steadfast_true (hx.mono fun _ => Call.plain_of_fetches))) fun m => ?_
    exact hparts.mirrorVersion hJ d.feed m.v m.options m.unlisted m.failedLately m.download
      fun _ _ => trivial
  | icon d =>
    exact files_unlocked (files_plain steadfast_true
      ((calls_packageIcon d).mono fun _ => Call.plain_of_fetches))

variable {s : Store T} {allow : Machine.Allowed T Call Call.Answer Bool (Store T)}
variable {c : Config T Call Call.Answer Bool (Store T)}

theorem keeps_filing (hstart : stored → s.BlobsStored)
    (h : (server T).Reaches allow (working s tasks) c) :
    (filing stored (MayRefile tasks)).Keeps (server T) c := by
  have start : (filing stored (MayRefile tasks)).Keeps (server T) (working s tasks) := by
    refine ⟨hstart, fun t => Protocol.Safe.bind ?_⟩
    exact (files_task t _ (by simp [Held])).mono fun _ _ _ => trivial
  exact start.reaches ((task_disciplined h).mono fun _ _ _ h => h.2)

/-- In every run, the blob of each attached file of a held version is stored. -/
theorem attached_blobs_stored (hstart : s.BlobsStored)
    (h : (server T).Reaches (fun _ _ _ => True) (working s tasks) c) {k : VersionKey}
    {f : FeedName} {m : Membership} (hheld : c.world.state.db.feedPackages.row (f, k) = some m)
    {file : PackageFile} (hfile : (k, file) ∈ c.world.state.db.packageFiles) :
    (c.world.state.storage.blobs file.sha256).isSome := by
  have keeps : (filing True (MayRefile tasks)).Keeps (server T) c :=
    keeps_filing (fun _ => hstart) h
  refine keeps.1 trivial k ?_ file ((Database.mem_filesFor _ k).mpr hfile)
  exact (Database.isHeld_iff _ k).mpr ⟨f, by rw [hheld]; rfl⟩

/-- Whichever step changes the files of a version while a feed that reviews
pushes has approved it, its task was asked for with that feed's admin key. -/
theorem approved_files_changed_by_admin
    (h : (server T).Reaches (fun _ _ _ => True) (working s tasks) c) {t : T} {call : Call}
    {next : call.Answer → Program Call Call.Answer Unit} (ht : c.threads t = .call call next)
    {o : Bool} {r : call.Answer} {w : StoreWorld T}
    (hp : (server T).perform t call o c.world = some (r, w)) {k : VersionKey}
    (hchange : w.state.db.filesFor k ≠ c.world.state.db.filesFor k) {m : FeedSettings}
    (hm : m ∈ host.feeds) (hreviews : m.reviews = true)
    (happroved : m.name ∈ c.world.state.db.approvedIn k) :
    ∃ requester, (tasks t).requester = some requester ∧
      requester.presentsAdmin m.name = true := by
  have keeps : (filing False (MayRefile tasks)).Keeps (server T) c := keeps_filing False.elim h
  have hguar := (keeps.step ht hp (task_disciplined_step h ht hp)).1
  have hmay := (hguar.2 k).resolve_left hchange m.name ((Database.mem_approvedIn _ k).mp happroved)
  exact hmay m hm rfl hreviews

end Runs

/-- The builds are of two versions. -/
def versionsHost : Host :=
  { sampleHost with
    readArchive := fun bytes => .ok { sampleArchive bytes with
      version := if bytes = [1] then ⟨(1, 0, 0, 0), false⟩ else ⟨(2, 0, 0, 0), false⟩
      normalized := if bytes = [1] then "1.0.0" else "2.0.0" } }

/-- The admin of a feed, who attaches and detaches files. -/
def sampleAdmin : Requester versionsHost :=
  .request ⟨⟨"a", true, .enabled⟩, by simp [versionsHost, sampleHost]⟩ fun _ => true

/-- Two versions get files of one content. The first is purged, a file of the second is detached,
and the blob is swept. -/
def sampleShared : Fin 8 → Task versionsHost
  | 0 => .operate (.push "a" [1] (sampleOptions []) [])
  | 1 => .operate (.push "a" [2] (sampleOptions []) [])
  | 2 => .attach sampleAdmin ⟨"Lib", "1.0.0"⟩ "notes.txt" ⟨[7], "seven", 1⟩
  | 3 => .attach sampleAdmin ⟨"Lib", "2.0.0"⟩ "notes.txt" ⟨[7], "seven", 1⟩
  | 4 => .operate (.purge "a" sampleKey)
  | 5 => .attach sampleAdmin ⟨"Lib", "2.0.0"⟩ "more.txt" ⟨[7], "seven", 1⟩
  | 6 => .detach sampleAdmin ⟨"Lib", "2.0.0"⟩ "notes.txt"
  | 7 => .sweepBlobs ["seven"]

theorem blobsStored_empty {T : Type} : (Store.empty T).BlobsStored := fun k _ file hfile => by
  simp [Store.empty, Database.filesFor, Database.empty] at hfile

/-- The purge deletes the blob while a file of the same content is being attached, and the sweep
looks for it while one is being detached. The file that is left has its blob. -/
theorem attached_blobs_stored_sample :
    ∃ c, (server (Fin 8)).run (working (Store.empty _) sampleShared)
        (calls 0 9 ++ calls 1 9 ++ calls 2 10 ++ calls 4 6 ++ calls 3 5 ++ calls 4 4 ++
          calls 3 5 ++ calls 4 3 ++ calls 5 10 ++ calls 6 3 ++ calls 7 1 ++ calls 6 2 ++
          calls 7 2 ++ calls 6 4) = some c ∧
      c.world.state.db.packageFiles = [(⟨"lib", "2.0.0"⟩, ⟨"more.txt", "seven", 1⟩)] ∧
      (c.world.state.storage.blobs "seven").isSome := by
  let start := working (Store.empty (Fin 8)) sampleShared
  let schedule : List (Fin 8 × Bool) :=
    calls 0 9 ++ calls 1 9 ++ calls 2 10 ++ calls 4 6 ++ calls 3 5 ++ calls 4 4 ++ calls 3 5 ++
      calls 4 3 ++ calls 5 10 ++ calls 6 3 ++ calls 7 1 ++ calls 6 2 ++ calls 7 2 ++ calls 6 4
  obtain ⟨c, hrun⟩ : ∃ c, (server (Fin 8)).run start schedule = some c :=
    Option.isSome_iff_exists.mp (by decide +kernel)
  have final : ((server (Fin 8)).run start schedule).map (fun c =>
      (c.world.state.db.packageFiles,
        (c.world.state.db.feedPackages.row ("a", ⟨"lib", "2.0.0"⟩)).isSome)) =
      some ([(⟨"lib", "2.0.0"⟩, ⟨"more.txt", "seven", 1⟩)], true) := by
    decide +kernel
  simp only [hrun, Option.map_some, Option.some.injEq, Prod.mk.injEq] at final
  obtain ⟨hfiles, hheld⟩ := final
  obtain ⟨m, hm⟩ := Option.isSome_iff_exists.mp hheld
  have hfile : (⟨"lib", "2.0.0"⟩, ⟨"more.txt", "seven", 1⟩) ∈ c.world.state.db.packageFiles := by
    rw [hfiles]
    exact List.mem_cons_self
  exact ⟨c, hrun, hfiles,
    attached_blobs_stored blobsStored_empty (Machine.Reaches.of_run hrun) hm hfile⟩

/-- A version is pushed and approved, and then its feed's admin attaches a file. -/
def sampleAttach : Fin 3 → Task sampleHost
  | 0 => .operate (.push "a" [1] { sampleOptions [] with overwrite := .enabled } [])
  | 1 => .operate (.approve "a" ⟨"Lib", "1.0.0"⟩ ⟨[], []⟩)
  | 2 => .attach (.request ⟨⟨"a", true, .enabled⟩, by simp [sampleHost]⟩ fun _ => true)
      ⟨"Lib", "1.0.0"⟩ "notes.txt" ⟨[7], "seven", 1⟩

/-- The step that attaches the file to the approved version was asked for with
the admin key. -/
theorem approved_files_changed_by_admin_sample :
    ∃ c next w, (server (Fin 3)).run (working (Store.empty _) sampleAttach)
        (calls 0 9 ++ calls 1 3 ++ calls 2 7) = some c ∧
      c.threads 2 = .call (.db (.addFile sampleKey ⟨"notes.txt", "seven", 1⟩)) next ∧
      (server (Fin 3)).perform 2 (.db (.addFile sampleKey ⟨"notes.txt", "seven", 1⟩)) false
        c.world = some (.ok (), w) ∧
      ∃ requester, (sampleAttach 2).requester = some requester ∧
        requester.presentsAdmin "a" = true := by
  let start := working (Store.empty (Fin 3)) sampleAttach
  let schedule : List (Fin 3 × Bool) := calls 0 9 ++ calls 1 3 ++ calls 2 7
  let call : Call := .db (.addFile sampleKey ⟨"notes.txt", "seven", 1⟩)
  obtain ⟨c, hrun⟩ : ∃ c, (server (Fin 3)).run start schedule = some c :=
    Option.isSome_iff_exists.mp (by decide +kernel)
  have final : ((server (Fin 3)).run start schedule).map (fun c =>
      ((c.threads 2).nextCall, c.world.state.db.approvedIn sampleKey,
        c.world.state.db.filesFor sampleKey)) = some (some call, ["a"], []) := by
    decide +kernel
  have attached : ((server (Fin 3)).run start schedule).map (fun c =>
      ((server (Fin 3)).perform 2 call false c.world).map fun a =>
        (a.1, a.2.state.db.filesFor sampleKey)) =
      some (some (.ok (), [⟨"notes.txt", "seven", 1⟩])) := by
    decide +kernel
  simp only [hrun, Option.map_some, Option.some.injEq, Prod.mk.injEq] at final attached
  obtain ⟨hnext, happroved, hbefore⟩ := final
  obtain ⟨next, ht⟩ := Program.nextCall_eq_some.mp hnext
  obtain ⟨⟨r, w⟩, hp, hafter⟩ := Option.map_eq_some_iff.mp attached
  obtain ⟨rfl, hfiles⟩ := Prod.mk.inj hafter
  have hchange : w.state.db.filesFor sampleKey ≠ c.world.state.db.filesFor sampleKey := by
    rw [hbefore, hfiles]
    exact List.cons_ne_nil _ _
  have hm : (⟨"a", true, .enabled⟩ : FeedSettings) ∈ sampleHost.feeds := List.mem_cons_self
  exact ⟨c, next, w, hrun, ht, hp, approved_files_changed_by_admin (Machine.Reaches.of_run hrun) ht
    hp hchange hm rfl (by rw [happroved]; exact List.mem_cons_self)⟩

end YaNuget
