import YaNuget.Concurrency.Traces
import YaNuget.Operations.LockDiscipline
import YaNuget.Operations.Tasks

/-!
# What a download did before it answered

The answer of a download comes after a fixed sequence of calls: the check that
the version may be served, a look for the file, the row, the open, and the row
again. Each is an event of the download's own before the answer.
-/
namespace YaNuget

open Concurrency Op Fallible

variable {T : Type} {past : List (StoreEvent T)}

section Tasks

variable {host : Host}

theorem ran_task {task : Task host} {q : Program Call Call.Answer Unit}
    (h : task.program.Ran past q) : ∃ p, task.run.run.Ran past p := by
  rcases Program.Ran.of_bind h with ⟨p, hran, -⟩ | ⟨result, later, earlier, rfl, hran, hrest⟩
  · exact ⟨p, hran⟩
  · obtain ⟨rfl, -⟩ := Program.Ran.of_done hrest
    exact ⟨_, hran⟩

theorem ran_of_reaches [DecidableEq T] {s : Store T} {tasks : T → Task host}
    {allow : Machine.Allowed T Call Call.Answer Bool (Store T)}
    {c : Config T Call Call.Answer Bool (Store T)}
    (h : (server T).Reaches allow (working s tasks) c) (t : T) :
    ∃ p, (tasks t).run.run.Ran (c.world.past.filter fun e => e.thread = t) p := by
  obtain ⟨later, hpast, hran⟩ := h.ran
  obtain rfl : c.world.past = later := by simpa [working] using hpast
  exact ran_task (hran t)

end Tasks

section Calls

variable {α : Type}

theorem ran_query {q : DbCall} {r : Except Error q.Answer}
    (h : (query q).run.Ran past (.done r)) : ∃ e, past = [e] ∧ e.Shows (.db q) r := by
  obtain ⟨e, r', hpast, hshows, rfl⟩ := Program.Ran.of_perform h
  exact ⟨e, hpast, hshows⟩

theorem ran_file {c : StorageCall} {r : Except Error c.Answer}
    (h : (file c).run.Ran past (.done r)) : ∃ e, past = [e] ∧ e.Shows (.storage c) r := by
  obtain ⟨e, r', hpast, hshows, rfl⟩ := Program.Ran.of_perform h
  exact ⟨e, hpast, hshows⟩

theorem ran_call {c : Call} {q : Program Call Call.Answer (Except Error c.Answer)}
    (h : (call c).run.Ran past q) : past = [] ∨ ∃ e, past = [e] ∧ e.call = c := by
  have hcall : (call c).run = Program.call c fun r => .done (.ok r) := rfl
  rw [hcall] at h
  rcases Program.Ran.of_call h with ⟨hpast, -⟩ | ⟨t, o, r, later, rfl, hrest⟩
  · exact Or.inl hpast
  · obtain ⟨rfl, -⟩ := Program.Ran.of_done hrest
    exact Or.inr ⟨_, rfl, rfl⟩

theorem ran_pure {a : α} {r : Except Error α} (h : (pure a : Op α).run.Ran past (.done r)) :
    past = [] ∧ r = .ok a := by
  obtain ⟨hpast, heq⟩ := Program.Ran.of_done h
  cases heq
  exact ⟨hpast, rfl⟩

theorem ran_throw {e : Error} {a : α} (h : (throw e : Op α).run.Ran past (.done (.ok a))) :
    False := by
  cases (Program.Ran.of_done h).2

theorem ran_refuseIf {p : Prop} [Decidable p] {e : Error}
    (h : (refuseIf p e).run.Ran past (.done (.ok ()))) : past = [] ∧ ¬ p := by
  unfold refuseIf onlyIf at h
  split_ifs at h with hp
  · exact (ran_throw h).elim
  · exact ⟨(ran_pure h).1, hp⟩

end Calls

section Download

variable {feed : FeedName} {k : VersionKey}

theorem ran_findIfAny {row : Option (PackageAt k)}
    (h : (findIfAny feed k).run.Ran past (.done (.ok row))) :
    ∃ e r, past = [e] ∧ e.Shows (.db (.find feed k)) r ∧ ∀ p, row = some p → r = .ok (some p) := by
  obtain ⟨found, later, earlier, rfl, hran, hrest⟩ := ran_bind_ok h
  obtain ⟨rfl, hrow⟩ := ran_pure hrest
  obtain ⟨result, later, earlier, rfl, hran, hrest⟩ := ran_bind_ok hran
  obtain ⟨r, hr, hran⟩ := ran_attempt hran
  cases hr
  obtain ⟨e, rfl, hshows⟩ := ran_query hran
  cases result with
  | ok found' =>
    obtain ⟨rfl, hfound⟩ := ran_pure hrest
    refine ⟨e, _, rfl, hshows, fun p hp => ?_⟩
    rw [Except.ok.inj hrow, Except.ok.inj hfound] at hp
    rw [show found' = some p from hp]
  | error err =>
    obtain ⟨rfl, hfound⟩ := ran_pure hrest
    refine ⟨e, _, rfl, hshows, fun p hp => ?_⟩
    rw [Except.ok.inj hrow, Except.ok.inj hfound] at hp
    cases hp

theorem ran_openForServing {c : StorageCall} {bytes : c.Answer}
    (h : (openForServing c).run.Ran past (.done (.ok bytes))) :
    ∃ e, past = [e] ∧ e.Shows (.storage c) (.ok bytes) := by
  obtain ⟨result, later, earlier, rfl, hran, hrest⟩ := ran_bind_ok h
  obtain ⟨r, hr, hran⟩ := ran_attempt hran
  cases hr
  obtain ⟨e, rfl, hshows⟩ := ran_file hran
  cases result with
  | ok bytes' =>
    obtain ⟨rfl, heq⟩ := ran_pure hrest
    cases heq
    exact ⟨e, rfl, hshows⟩
  | error err => exact (ran_throw hrest).elim

def OpensContent (k : VersionKey) (isNuspec : Bool) (bytes : Content) (e : StoreEvent T) : Prop :=
  if isNuspec then e.Shows (.storage (.openAux k .nuspec)) (.ok bytes)
  else e.Shows (.storage (.openPackage k)) (.ok bytes)

theorem ran_openContent {isNuspec : Bool} {bytes : Content}
    (h : (openContent k isNuspec).run.Ran past (.done (.ok bytes))) :
    ∃ e, past = [e] ∧ OpensContent k isNuspec bytes e := by
  unfold openContent at h
  unfold OpensContent
  cases isNuspec with
  | true => exact ran_openForServing h
  | false => exact ran_openForServing h

def LooksForContent (k : VersionKey) (isNuspec : Bool) (e : StoreEvent T) : Prop :=
  e.call = if isNuspec then .storage (.auxContent k .nuspec) else .storage (.getPackage k)

theorem ran_lookForContent {isNuspec : Bool}
    (h : (lookForContent k isNuspec).run.Ran past (.done (.ok ()))) :
    ∃ e, past = [e] ∧ LooksForContent k isNuspec e := by
  unfold lookForContent at h
  unfold LooksForContent
  cases isNuspec with
  | true =>
    obtain ⟨e, hpast, hshows⟩ := ran_file h
    exact ⟨e, hpast, hshows.call_eq⟩
  | false =>
    obtain ⟨e, hpast, hshows⟩ := ran_file h
    exact ⟨e, hpast, hshows.call_eq⟩

/-- What a download did once it was admitted, its answer `r` last. -/
structure Serving (T : Type) (httpDate : ℕ → String) (d : DownloadRequest) (access : Access)
    (past : List (StoreEvent T)) (r : FileResponse) where
  bytes : Content
  before : Option (PackageAt d.k)
  after : Option (PackageAt d.k)
  look : StoreEvent T
  first : StoreEvent T
  opens : StoreEvent T
  second : StoreEvent T
  size : StoreEvent T
  answer : StoreEvent T
  past_eq : past = [answer, size, second, opens, first, look]
  looks : LooksForContent d.k d.isNuspec look
  finds_before : ∃ r, first.Shows (.db (.find d.feed d.k)) r ∧
    ∀ p, before = some p → r = .ok (some p)
  opens_content : OpensContent d.k d.isNuspec bytes opens
  finds_after : ∃ r, second.Shows (.db (.find d.feed d.k)) r ∧
    ∀ p, after = some p → r = .ok (some p)
  measured : ℕ
  measures : size.Shows (.storage (.metadata bytes)) (.ok measured)
  answers : answer.call = .respond r
  response_eq : r = serveOpenFile bytes d.headers (packageMeta httpDate d.isNuspec
    (access.cache d.contentCache)
    ((settledRow before after d.isNuspec measured).map Subtype.val))

theorem Serving.isOf {httpDate : ℕ → String} {d : DownloadRequest} {access : Access}
    {r : FileResponse} (served : Serving T httpDate d access past r) :
    r.sent.IsOf served.bytes := by
  have hsent := serveOpenFile_isOf served.bytes d.headers (packageMeta httpDate d.isNuspec
    (access.cache d.contentCache)
    ((settledRow served.before served.after d.isNuspec served.measured).map Subtype.val))
  rwa [← served.response_eq] at hsent

/-- An answer comes last, after all the rest. -/
theorem ran_serveVersion {httpDate : ℕ → String} {d : DownloadRequest} {access : Access}
    {q : Program Call Call.Answer (Except Error Unit)} {e : StoreEvent T} {r : FileResponse}
    (h : (serveVersion httpDate d access).run.Ran past q) (he : e ∈ past)
    (hr : e.call = .respond r) : Nonempty (Serving T httpDate d access past r) := by
  have hnot : ¬ e.call.operates := by
    rw [hr]
    exact id
  have hfind : (findIfAny d.feed d.k).run.Calls Call.operates :=
    calls_bind (calls_ok (calls_query trivial)) fun _ => calls_pure _
  have hopen {c : StorageCall} : (openForServing c).run.Calls Call.operates := by
    refine calls_bind (calls_attempt (calls_file trivial)) fun result => ?_
    cases result with
    | ok bytes => exact calls_pure _
    | error err => exact calls_throw _
  have hlook : (lookForContent d.k d.isNuspec).run.Calls Call.operates := by
    unfold lookForContent
    cases d.isNuspec with
    | true => exact calls_file trivial
    | false => exact calls_file trivial
  have hcontent : (openContent d.k d.isNuspec).run.Calls Call.operates := by
    unfold openContent
    cases d.isNuspec with
    | true => exact hopen
    | false => exact hopen
  obtain ⟨_, _, _, rfl, hlooked, he, h⟩ := ran_past h hlook he hnot
  obtain ⟨before, _, _, rfl, hbefore, he, h⟩ := ran_past h hfind he hnot
  obtain ⟨bytes, _, _, rfl, hopened, he, h⟩ := ran_past h hcontent he hnot
  obtain ⟨after, _, _, rfl, hafter, he, h⟩ := ran_past h hfind he hnot
  obtain ⟨measured, _, _, rfl, hsize, hlater, hlast⟩ := ran_past h (calls_file trivial) he hnot
  obtain ⟨look, rfl, looks⟩ := ran_lookForContent hlooked
  obtain ⟨first, r₁, rfl, hfirst, hp₁⟩ := ran_findIfAny hbefore
  obtain ⟨opens, rfl, hopens⟩ := ran_openContent hopened
  obtain ⟨second, r₂, rfl, hsecond, hp₂⟩ := ran_findIfAny hafter
  obtain ⟨size, rfl, hmeasures⟩ := ran_file hsize
  rcases ran_call hlast with rfl | ⟨answer, rfl, hanswer⟩
  · simp at hlater
  obtain rfl := List.mem_singleton.mp hlater
  have hresponse := Call.respond.inj (hr.symm.trans hanswer)
  exact ⟨⟨bytes, before, after, look, first, opens, second, size, e, rfl, looks, ⟨r₁, hfirst, hp₁⟩,
    hopens, ⟨r₂, hsecond, hp₂⟩, measured, hmeasures, hr, hresponse⟩⟩

theorem ran_downloadAccess {visitor : Visitor} (hpublic : visitor.preview = false)
    {access : Option Access} (h : (downloadAccess feed k visitor).run.Ran past (.done (.ok access))) :
    ∃ check servable, past = [check] ∧ check.Shows (.db (.isServable feed k)) (.ok servable) ∧
      access = if servable then some .anyone else none := by
  unfold downloadAccess at h
  simp only [hpublic, Bool.false_eq_true, if_false] at h
  obtain ⟨_, _, _, rfl, hrefuse, h₁⟩ := ran_bind_ok h
  obtain ⟨rfl, -⟩ := ran_refuseIf hrefuse
  obtain ⟨servable, _, _, rfl, hcheck, h₂⟩ := ran_bind_ok h₁
  obtain ⟨rfl, haccess⟩ := ran_pure h₂
  obtain ⟨check, rfl, hshows⟩ := ran_query hcheck
  exact ⟨check, servable, rfl, hshows, Except.ok.inj haccess⟩

/-- A download without the preview key is admitted by a check that the version
may be served. -/
theorem ran_admitDownload {site : Site} {d : DownloadRequest} {access : Access}
    (hpublic : d.visitor.preview = false)
    (h : (admitDownload site d).run.Ran past (.done (.ok access))) :
    ∃ check earlier, past = check :: earlier ∧
      check.Shows (.db (.isServable d.feed d.k)) (.ok true) := by
  obtain ⟨_, _, _, rfl, hrefuse, h₁⟩ := ran_bind_ok h
  obtain ⟨rfl, -⟩ := ran_refuseIf hrefuse
  obtain ⟨found, _, _, rfl, hfound, h₂⟩ := ran_bind_ok h₁
  obtain ⟨check, servable, rfl, hcheck, rfl⟩ := ran_downloadAccess hpublic hfound
  cases servable with
  | true =>
    obtain ⟨rfl, -⟩ := ran_pure h₂
    exact ⟨check, [], rfl, hcheck⟩
  | false =>
    obtain ⟨_, _, _, rfl, -, h₃⟩ := ran_bind_ok h₂
    obtain ⟨found, _, _, rfl, hfound, h₄⟩ := ran_bind_ok h₃
    obtain ⟨check', servable, rfl, hcheck', rfl⟩ := ran_downloadAccess hpublic hfound
    cases servable with
    | true =>
      obtain ⟨rfl, -⟩ := ran_pure h₄
      exact ⟨check', _, rfl, hcheck'⟩
    | false => exact (ran_throw h₄).elim

theorem calls_admitDownload (site : Site) (d : DownloadRequest) :
    (admitDownload site d).run.Calls Call.operates := by
  have hparts := calls_sections site
  have haccess : (downloadAccess d.feed d.k d.visitor).run.Calls Call.operates := by
    unfold downloadAccess
    split_ifs
    · exact calls_bind (calls_query trivial) fun _ => calls_pure _
    · exact calls_bind calls_refuseIf fun _ => calls_bind (calls_query trivial) fun _ => calls_pure _
  refine calls_bind calls_refuseIf fun _ => calls_bind haccess fun found => ?_
  cases found with
  | some access => exact calls_pure _
  | none =>
    refine calls_bind (calls_optionForM fun m => ?_) fun _ => calls_bind haccess fun found => ?_
    · exact calls_bind (hparts.parts.mirrorVersion (closed_calls _) d.feed m.v m.options m.unlisted
        m.failedLately m.download fun _ _ => trivial) fun _ => calls_pure _
    · cases found with
      | some access => exact calls_pure _
      | none => exact calls_throw _

theorem ran_download {site : Site} {httpDate : ℕ → String} {d : DownloadRequest}
    {q : Program Call Call.Answer (Except Error Unit)} {e : StoreEvent T} {r : FileResponse}
    (h : (downloadPackage site httpDate d).run.Ran past q) (he : e ∈ past)
    (hr : e.call = .respond r) :
    ∃ access later earlier, past = later ++ earlier ∧
      (admitDownload site d).run.Ran earlier (.done (.ok access)) ∧
      Nonempty (Serving T httpDate d access later r) := by
  have hnot : ¬ e.call.operates := by
    rw [hr]
    exact id
  obtain ⟨access, later, earlier, rfl, hadmitted, hlater, hserve⟩ :=
    ran_past h (calls_admitDownload site d) he hnot
  exact ⟨access, later, earlier, rfl, hadmitted, ran_serveVersion hserve hlater hr⟩

end Download

end YaNuget
