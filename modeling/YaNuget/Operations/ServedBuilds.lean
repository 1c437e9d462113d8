import YaNuget.Operations.DownloadTraces
import YaNuget.Operations.PayloadAgreement

/-!
# What downloads serve

A download checks that the version may be served, and opens the stored file
later, while pushes move a new payload into place before they swap the rows.
What clients get is on record as servable whenever the file is opened while the
rows agree with it and the build has not been replaced since the check.
-/
namespace YaNuget

open Concurrency Op Fallible

variable {T : Type}

/-- The package row of version `k` is that of these bytes. -/
def Database.records (db : Database) (sha512 : Content → Digest) (k : VersionKey)
    (bytes : Content) : Bool :=
  (db.packages.row k).any fun p => p.packageHash = sha512 bytes

/-- The bytes are the recorded content of a version that clients of the feed may have. -/
def Database.serves (db : Database) (sha512 : Content → Digest) (f : FeedName) (k : VersionKey)
    (bytes : Content) : Bool :=
  db.isServable f k && db.records sha512 k bytes

def Call.rewrites (k : VersionKey) : Call → Bool
  | .db (.replaceVersion p _ _) | .db (.replacePendingVersion p _ _ _ _) => p.key = k
  | .db (.deletePackageData k') => k' = k
  | _ => false

/-- Whether the build was replaced since task `t` last checked that it may be served. -/
def replacedSince [DecidableEq T] (t : T) (f : FeedName) (k : VersionKey)
    (past : List (StoreEvent T)) : Bool :=
  (past.takeWhile fun e => !(e.thread = t && e.call = .db (.isServable f k))).any fun e =>
    e.call.rewrites k

section Row

variable {k : VersionKey}

theorem DbCall.row_of_not_rewrites {q : DbCall} {db : Database} {p : Package}
    (hq : (Call.db q).rewrites k = false) (hp : db.packages.row k = some p) :
    (q.run db).2.packages.row k = some p := by
  cases q with
  | addVersion p' f m =>
    rcases db.addVersion_cases f p' m with ⟨e, he⟩ | ⟨_, db', he, -, hrows, -⟩
    · simp only [run, he, hp]
    · simp only [run, he, hrows, hp]
      split_ifs <;> rfl
  | replaceVersion p' f m =>
    have hk : p'.key ≠ k := by simpa [Call.rewrites] using hq
    simp [run, hk.symm, hp]
  | replacePendingVersion p' f m dropFiles others =>
    have hk : p'.key ≠ k := by simpa [Call.rewrites] using hq
    rcases db.replacePendingVersion_cases f p' m dropFiles others with
      ⟨e, he⟩ | ⟨_, db', he, -, hrows, -⟩
    · simp only [run, he, hp]
    · simp [run, he, hrows, hk.symm, hp]
  | deletePackageData k' =>
    have hk : k' ≠ k := by simpa [Call.rewrites] using hq
    simp [run, Database.row_packages_deletePackageData, hk.symm, hp]
  | addMembership f k' m =>
    rcases db.insertMembership_cases f k' m with ⟨e, he⟩ | ⟨hp', he, -⟩
    · simp only [run, he, hp]
    · simp only [run, he]
      exact hp
  | removeMembershipForGood f k' => simp [run, hp]
  | updateMemberships f ks change =>
    rcases db.updateMemberships_cases f ks change with ⟨e, he⟩ | ⟨n, db', he, hrows, -⟩
    · simp only [run, he, hp]
    · simp only [run, he, hrows, hp]
  | renameFeed src dst hold =>
    simp only [run, Database.renameFeed]
    split_ifs
    · exact hp
    · exact hp
  | addFile k' file =>
    rcases db.addFile_cases k' file with ⟨e, he⟩ | ⟨db', he, -, hrows, -⟩
    · simp only [run, he, hp]
    · simp only [run, he, hrows, hp]
  | addSymbol s k' =>
    rcases db.addSymbol_cases k' s with ⟨e, he⟩ | ⟨-, he⟩ | ⟨db', he, -, -, hrows, -⟩
    · simp only [run, he, hp]
    · simp only [run, he, hp]
    · simp only [run, he, hrows, hp]
  | _ => exact hp

variable [DecidableEq T] {allow : Machine.Allowed T Call Call.Answer Bool (Store T)}
variable {c c' : Config T Call Call.Answer Bool (Store T)}

/-- A row stays until it is replaced. -/
theorem row_of_not_replaced {later : List (StoreEvent T)} {p : Package}
    (h : (server T).Reaches allow c c') (hpast : c'.world.past = later ++ c.world.past)
    (hnot : ∀ e ∈ later, e.call.rewrites k = false)
    (hp : c.world.state.db.packages.row k = some p) :
    c'.world.state.db.packages.row k = some p := by
  induction h generalizing later with
  | refl => exact hp
  | @step c₁ t o call r next w hr _ hperform _ ih =>
    obtain ⟨later₁, hpast₁, -⟩ := hr.ran
    obtain ⟨hexec, hlast⟩ := (server T).perform_eq_some.mp hperform
    obtain rfl : later = ⟨t, call, o, r⟩ :: later₁ := by
      rw [hlast, hpast₁, ← List.cons_append] at hpast
      exact (List.append_cancel_right hpast).symm
    have hkept := ih hpast₁ fun e he => hnot e (List.mem_cons_of_mem _ he)
    rw [(Store.exec_files hexec).1]
    have hcall := hnot _ List.mem_cons_self
    cases call with
    | db q =>
      cases o with
      | true => exact hkept
      | false => exact DbCall.row_of_not_rewrites hcall hkept
    | _ => exact hkept

end Row

section Downloads

variable [DecidableEq T] {host : Host} {s : Store T}

/-- A download without the preview key opens a package that the rows agree
with, and that may be served or was not replaced since it was checked. -/
def opensServable (tasks : T → Task host) (w : StoreWorld T) (e : StoreEvent T) : Bool :=
  match tasks e.thread with
  | .download d =>
    d.visitor.preview || e.call ≠ .storage (.openPackage d.k) ||
      (w.state.storage.payload d.k).all fun bytes =>
        w.state.db.records host.sha512 d.k bytes &&
          (w.state.db.isServable d.feed d.k || !replacedSince e.thread d.feed d.k w.past)
  | _ => true

abbrev OpensServable (tasks : T → Task host) : Machine.Allowed T Call Call.Answer Bool (Store T) :=
  fun w e _ => opensServable tasks w e = true

variable {tasks : T → Task host} {allow : Machine.Allowed T Call Call.Answer Bool (Store T)}
variable {c : Config T Call Call.Answer Bool (Store T)} {d : DownloadRequest} {r : FileResponse}
variable {e : StoreEvent T}

theorem download_of_answer (h : (server T).Reaches allow (working s tasks) c)
    (he : e ∈ c.world.past) (htask : tasks e.thread = .download d) (hr : e.call = .respond r) :
    ∃ access later earlier, (c.world.past.filter fun e' => e'.thread = e.thread) = later ++ earlier ∧
      (admitDownload host.toSite d).run.Ran earlier (.done (.ok access)) ∧
      Nonempty (Serving T host.httpDate d access later r) := by
  obtain ⟨p, hran⟩ := ran_of_reaches h e.thread
  rw [htask] at hran
  exact ran_download hran (by simpa using he) hr

theorem isServable_spec {db : Database} {f : FeedName} {k : VersionKey}
    (h : db.isServable f k = true) : ∃ p, db.packages.row k = some p := by
  obtain ⟨m, hm, -⟩ := (Option.any_eq_true _ _).mp h
  exact Option.isSome_iff_exists.mp (db.package_of_member (Option.isSome_iff_exists.mpr ⟨m, hm⟩))

/-- What happened since the check, when its events are known. -/
theorem replacedSince_eq {t : T} {f : FeedName} {k : VersionKey} {gap start : List (StoreEvent T)}
    {check : StoreEvent T} (hthread : check.thread = t) (hcheck : check.call = .db (.isServable f k))
    (hgap : ∀ e' ∈ gap, e'.thread = t → e'.call ≠ .db (.isServable f k)) :
    replacedSince t f k (gap ++ check :: start) = gap.any fun e' => e'.call.rewrites k := by
  unfold replacedSince
  rw [List.takeWhile_append_of_pos, List.takeWhile_cons_of_neg, List.append_nil]
  · simp [hthread, hcheck]
  · intro e' he'
    by_cases ht : e'.thread = t
    · simp [ht, hgap e' he' ht]
    · simp [ht]

/-- Task `t` checks at `c₁` that the version may be served, and opens its package at `c₂`. -/
structure Moments (t : T) (d : DownloadRequest) (bytes : Content) (check opens : StoreEvent T)
    (gap : List (StoreEvent T)) (c₁ c₂ : Config T Call Call.Answer Bool (Store T)) : Prop where
  check_thread : check.thread = t
  check_call : check.call = .db (.isServable d.feed d.k)
  servable : c₁.world.state.db.isServable d.feed d.k = true
  opens_thread : opens.thread = t
  opens_call : opens.call = .storage (.openPackage d.k)
  found : c₂.world.state.storage.payload d.k = some bytes
  past : c₂.world.past = gap ++ check :: c₁.world.past
  last : ∀ e' ∈ gap, e'.thread = t → e'.call ≠ .db (.isServable d.feed d.k)

/-- An answered download without the preview key was checked, and then opened what it sends. -/
theorem moments_of_download (h : (server T).Reaches allow (working s tasks) c)
    (he : e ∈ c.world.past) (htask : tasks e.thread = .download d)
    (hpublic : d.visitor.preview = false) (hpackage : d.isNuspec = false)
    (hr : e.call = .respond r) :
    ∃ bytes check opens gap c₁ c₂ w₂, r.sent.IsOf bytes ∧
      Moments e.thread d bytes check opens gap c₁ c₂ ∧ allow c₂.world opens w₂ ∧
      (server T).Reaches allow (working s tasks) c₁ ∧ (server T).Reaches allow c₁ c₂ ∧
      (server T).Reaches allow c₂ c := by
  obtain ⟨access, later, earlier, htrace, hadmitted, ⟨served⟩⟩ := download_of_answer h he htask hr
  obtain ⟨check, rest, rfl, hcheck⟩ := ran_admitDownload hpublic hadmitted
  have hopens : served.opens.Shows (.storage (.openPackage d.k)) (.ok served.bytes) := by
    simpa [OpensContent, hpackage] using served.opens_content
  rw [served.past_eq] at htrace
  have own : ∀ e' ∈ [served.answer, served.size, served.second, served.opens, served.first,
      served.look] ++ check :: rest, e'.thread = e.thread := by
    intro e' he'
    rw [← htrace] at he'
    simpa using List.of_mem_filter he'
  have hopened : (c.world.past.filter fun e' => e'.thread = e.thread) =
      [served.answer, served.size, served.second] ++
        served.opens :: ([served.first, served.look] ++ check :: rest) := htrace
  obtain ⟨after, before, hpast, -, hbefore⟩ := split_of_filter hopened
  obtain ⟨gap, start, rfl, hgap, -⟩ := split_of_filter hbefore
  have hpast' : c.world.past =
      after ++ served.opens :: ((gap ++ check :: start) ++ (working s tasks).world.past) := by
    simpa [working] using hpast
  obtain ⟨c₂, w₂, hreach₂, hpast₂, hperform₂, hallow₂, hrest₂⟩ := h.split hpast'
  have hpast₂' : c₂.world.past = gap ++ check :: (start ++ (working s tasks).world.past) := by
    simpa [working] using hpast₂
  obtain ⟨c₁, w₁, hreach₁, hpast₁, hperform₁, -, hrest₁⟩ := hreach₂.split hpast₂'
  refine ⟨served.bytes, check, served.opens, gap, c₁, c₂, w₂, served.isOf,
    ⟨own _ (by simp), hcheck.call_eq, ?_, own _ (by simp), hopens.call_eq, ?_, ?_, ?_⟩,
    hallow₂, hreach₁, hrest₁, hrest₂⟩
  · obtain ⟨t₁, o₁, rfl⟩ := hcheck
    have hanswer := perform_query_ok hperform₁
    simpa [DbCall.run] using hanswer
  · obtain ⟨t₂, o₂, hopens⟩ := hopens
    rw [hopens] at hperform₂
    exact openFile_eq_ok.mp (perform_file_ok (by simp [StorageCall.failed]) hperform₂)
  · rw [hpast₂', hpast₁]
  · intro e' he' ht
    have hmem : e' ∈ [served.first, served.look] := by
      rw [← hgap]
      exact List.mem_filter.mpr ⟨he', by simpa using ht⟩
    obtain ⟨r₁, hfirst, -⟩ := served.finds_before
    rcases List.mem_cons.mp hmem with rfl | hmem
    · simp [hfirst.call_eq]
    · rw [List.mem_singleton.mp hmem, served.looks, hpackage]
      simp

/-- A row that was not replaced since the check is the one it was checked with. -/
theorem Moments.row {t : T} {bytes : Content} {check opens : StoreEvent T}
    {gap : List (StoreEvent T)} {c₁ c₂ : Config T Call Call.Answer Bool (Store T)} {p : Package}
    (m : Moments t d bytes check opens gap c₁ c₂) (h : (server T).Reaches allow c₁ c₂)
    (hkept : replacedSince t d.feed d.k c₂.world.past = false)
    (hp : c₁.world.state.db.packages.row d.k = some p) :
    c₂.world.state.db.packages.row d.k = some p := by
  rw [m.past, replacedSince_eq m.check_thread m.check_call m.last] at hkept
  have hbetween : c₂.world.past = (gap ++ [check]) ++ c₁.world.past := by
    rw [m.past, List.append_assoc, List.singleton_append]
  refine row_of_not_replaced h hbetween ?_ hp
  intro e' he'
  rcases List.mem_append.mp he' with he' | he'
  · simpa using (List.any_eq_false.mp hkept) e' he'
  · rw [List.mem_singleton.mp he', m.check_call]
    rfl

/-- While each such open meets the condition, the bytes a download without the
preview key answers with were on record as servable at some moment before. -/
theorem downloads_serve_approved (h : (server T).Reaches (OpensServable tasks) (working s tasks) c)
    {past : List (StoreEvent T)} (hlast : c.world.past = e :: past)
    (htask : tasks e.thread = .download d) (hpublic : d.visitor.preview = false)
    (hpackage : d.isNuspec = false) (hr : e.call = .respond r) :
    ∃ bytes, r.sent.IsOf bytes ∧ ∃ c₁,
      (server T).Reaches (OpensServable tasks) (working s tasks) c₁ ∧
      (server T).Reaches (OpensServable tasks) c₁ c ∧
      c₁.world.state.db.serves host.sha512 d.feed d.k bytes = true := by
  have he : e ∈ c.world.past := by simp [hlast]
  obtain ⟨bytes, check, opens, gap, c₁, c₂, w₂, hsent, m, hcond, hreach₁, hrest₁, hrest₂⟩ :=
    moments_of_download h he htask hpublic hpackage hr
  simp only [OpensServable, opensServable, m.opens_thread, htask, hpublic, m.opens_call, m.found,
    Option.all_some, Bool.false_or, ne_eq, not_true_eq_false, decide_false, Bool.and_eq_true,
    Bool.or_eq_true, Bool.not_eq_true'] at hcond
  obtain ⟨hrecords, hservable₂ | hkept⟩ := hcond
  · exact ⟨bytes, hsent, c₂, hreach₁.trans hrest₁, hrest₂,
      by simp [Database.serves, hservable₂, hrecords]⟩
  · obtain ⟨p, hp⟩ := isServable_spec m.servable
    have hrow := m.row hrest₁ hkept hp
    refine ⟨bytes, hsent, c₁, hreach₁, hrest₁.trans hrest₂, ?_⟩
    simp only [Database.records, hrow] at hrecords
    simp only [Database.serves, m.servable, Database.records, hp]
    simpa using hrecords

end Downloads

/-! A sample: a feed that requires approval and accepts overwrites. -/

def sampleHost : Host where
  toSite := sampleSite
  feeds := [⟨"a", true, .enabled⟩]
  feeds_nodup := by simp
  symbols := ⟨fun _ => "", fun _ => .error .io, fun _ _ => .error .io⟩
  httpDate _ := ""

def sampleDownload : DownloadRequest where
  feed := "a"
  k := sampleKey
  visitor := ⟨false, true⟩
  isNuspec := false
  headers := ⟨none, none, none⟩
  contentCache := ⟨false, false⟩
  mirror := none
  miss := .packageNotFound

/-- A push, its approval, a push that overwrites it, and a download. -/
def sampleRebuild : Fin 4 → Task sampleHost
  | 0 => .operate (.push "a" [1] { sampleOptions [] with overwrite := .enabled } [])
  | 1 => .operate (.approve "a" ⟨"Lib", "1.0.0"⟩ ⟨[], []⟩)
  | 2 => .operate (.push "a" [2] { sampleOptions [] with overwrite := .enabled, now := 1 } [])
  | 3 => .download sampleDownload

/-- The answer with these bytes under the tag of the first build. -/
def sampleAnswer (bytes : Content) : FileResponse :=
  ⟨some (quotedTag "first"), "public, no-cache", some "", .whole bytes⟩

/-- A version is pushed, approved, replaced by a second build and approved again. Two downloads
ask for its package, one for its manifest, and one for its icon. -/
def sampleServing (host : Host) : Fin 8 → Task host
  | 0 => .operate (.push "a" [1] { sampleOptions [] with overwrite := .enabled } [])
  | 1 | 3 => .operate (.approve "a" ⟨"Lib", "1.0.0"⟩ ⟨[], []⟩)
  | 2 => .operate (.push "a" [2] { sampleOptions [] with overwrite := .enabled, now := 1 } [])
  | 4 | 5 => .download sampleDownload
  | 6 => .download { sampleDownload with isNuspec := true }
  | 7 => .icon ⟨"a", sampleKey, true, ⟨none, none, none⟩, ⟨false, false⟩⟩

def secondAnswer : FileResponse :=
  ⟨some (quotedTag "second"), "public, no-cache", some "", .whole [2]⟩

/-- The second build is served once it is approved. Another download was under way while it was
pushed. -/
theorem downloads_serve_approved_sample :
    ∃ c, (server (Fin 8)).run (working (Store.empty _) (sampleServing sampleHost))
        (calls 0 9 ++ calls 1 3 ++ calls 4 4 ++ calls 2 17 ++ calls 4 3 ++ calls 3 3 ++
          calls 5 7) = some c ∧
      ∃ bytes, secondAnswer.sent.IsOf bytes ∧ ∃ c₁,
        (server (Fin 8)).Reaches (OpensServable (sampleServing sampleHost))
          (working (Store.empty _) (sampleServing sampleHost)) c₁ ∧
        (server (Fin 8)).Reaches (OpensServable (sampleServing sampleHost)) c₁ c ∧
        c₁.world.state.db.serves sampleHost.sha512 "a" sampleKey bytes = true := by
  let start := working (Store.empty (Fin 8)) (sampleServing sampleHost)
  let schedule : List (Fin 8 × Bool) :=
    calls 0 9 ++ calls 1 3 ++ calls 4 4 ++ calls 2 17 ++ calls 4 3 ++ calls 3 3 ++ calls 5 7
  have passed : (server (Fin 8)).runs (fun w e _ => opensServable (sampleServing sampleHost) w e)
      start schedule = true := by
    decide +kernel
  obtain ⟨c, hrun, hreach⟩ : ∃ c, (server (Fin 8)).run start schedule = some c ∧
      (server (Fin 8)).Reaches (OpensServable (sampleServing sampleHost)) start c :=
    Machine.Reaches.of_runs (fun _ _ _ h => h) passed
  have answered : ((server (Fin 8)).run start schedule).bind (fun c =>
      c.world.past.head?.map fun e => (e.thread, e.call)) = some (5, .respond secondAnswer) := by
    decide +kernel
  rw [hrun] at answered
  obtain ⟨e, he, hanswer⟩ := Option.map_eq_some_iff.mp answered
  obtain ⟨past, hlast⟩ := List.head?_eq_some_iff.mp he
  obtain ⟨hthread, hcall⟩ := Prod.mk.inj hanswer
  have htask : sampleServing sampleHost e.thread = .download sampleDownload := by
    rw [hthread]
    rfl
  exact ⟨c, hrun, downloads_serve_approved hreach hlast htask rfl rfl hcall⟩

/-- A download is answered with a build that was never approved: it checks the
approved build, and opens the file once the overwriting push has moved its
payload into place, before that push swaps the rows. -/
theorem download_serves_unapproved :
    ∃ c e, (server (Fin 4)).Reaches (fun _ _ _ => True)
        (working (Store.empty _) sampleRebuild) c ∧ c.world.past.head? = some e ∧
      sampleRebuild e.thread = .download sampleDownload ∧ e.call = .respond (sampleAnswer [2]) ∧
      ¬ ∃ bytes, (sampleAnswer [2]).sent.IsOf bytes ∧ ∃ c₁,
        (server (Fin 4)).Reaches (fun _ _ _ => True)
          (working (Store.empty _) sampleRebuild) c₁ ∧
        (server (Fin 4)).Reaches (fun _ _ _ => True) c₁ c ∧
        c₁.world.state.db.serves sampleHost.sha512 "a" sampleKey bytes = true := by
  let start := working (Store.empty (Fin 4)) sampleRebuild
  let schedule : List (Fin 4 × Bool) :=
    calls 0 9 ++ calls 1 3 ++ calls 3 1 ++ calls 2 12 ++ calls 3 6
  have answered : ((server (Fin 4)).run start schedule).bind (fun c =>
      c.world.past.head?.map fun e => (e.thread, e.call)) =
        some (3, .respond (sampleAnswer [2])) := by
    decide +kernel
  have never : ∀ n ≤ schedule.length, ((server (Fin 4)).run start (schedule.take n)).all (fun c =>
      !c.world.state.db.serves sampleHost.sha512 "a" sampleKey [2]) = true := by
    decide +kernel
  obtain ⟨c, hrun, hlast⟩ := Option.bind_eq_some_iff.mp answered
  obtain ⟨e, he, hanswer⟩ := Option.map_eq_some_iff.mp hlast
  obtain ⟨hthread, hcall⟩ := Prod.mk.inj hanswer
  have htask : sampleRebuild e.thread = .download sampleDownload := by rw [hthread]; rfl
  refine ⟨c, e, .of_run hrun, he, htask, hcall, ?_⟩
  rintro ⟨bytes, rfl, c₁, h₁, h₂, hserves⟩
  obtain ⟨n, hn, hmoment⟩ := Machine.Reaches.moment hrun h₁ h₂
  have hnever := never n hn
  rw [hmoment] at hnever
  simp [hserves] at hnever

end YaNuget
