import YaNuget.Operations.LockDiscipline
import YaNuget.Operations.Tasks

/-!
# The lock discipline of every task

Attaching and detaching files, symbol pushes and downloads keep to the
discipline of the version locks as the operations on packages do, so it may be
assumed of every run of the tasks of the server.
-/
namespace YaNuget

open Concurrency Op Fallible

section Calls

variable {α : Type}

theorem calls_withSymbolLocks {φ : Call → Prop} {ss : List SymbolKey} {body : Op α}
    (hl : ∀ s, φ (.lockSymbol s)) (hu : ∀ s, φ (.unlockSymbol s)) (h : body.run.Calls φ) :
    (withSymbolLocks ss body).run.Calls φ := by
  induction ss with
  | nil => exact h
  | cons s ss ih =>
    exact calls_bind (calls_call (hl s)) fun _ => calls_bind (calls_attempt ih) fun result =>
      calls_bind (calls_call (hu s)) fun _ => calls_ofResult result

end Calls

def Call.collects : Call → Prop
  | .db (.blobReferences _) | .storage (.deleteBlob _) | .lockBlob _ | .unlockBlob _ => True
  | _ => False

def Call.attaches (k : VersionKey) : Call → Prop
  | .db (.existsIn _ _) | .db (.packageDataExists _) | .db (.getFile _ _) | .db (.approvedIn _)
  | .storage (.storeBlob _ _) => True
  | .db (.addFile k' _) | .db (.deleteFile k' _) => k' = k
  | c => c.collects

theorem Call.under_of_collects {c : Call} (h : c.collects) (ks : List VersionKey) : c.under ks := by
  cases c with
  | db q => cases q <;> first | exact h.elim | exact fun _ hk => hk.elim
  | storage q => cases q <;> first | exact h.elim | exact fun _ hk => hk.elim
  | lockBlob | unlockBlob => exact fun _ hk => hk.elim
  | _ => exact h.elim

theorem Call.attaches_of_collects {k : VersionKey} {c : Call} (h : c.collects) : c.attaches k := by
  cases c with
  | db q => cases q <;> first | exact h.elim | exact trivial
  | storage q => cases q <;> first | exact h.elim | exact trivial
  | lockBlob | unlockBlob => exact trivial
  | _ => exact h.elim

theorem Call.under_of_attaches {k : VersionKey} {c : Call} (h : c.attaches k) : c.under [k] := by
  cases c with
  | db q => cases q <;> first | exact h.elim | exact fun _ hk => hk.elim | (
      intro k' hk
      exact List.mem_singleton.mpr (hk.symm.trans h))
  | storage q => cases q <;> first | exact h.elim | exact fun _ hk => hk.elim
  | lockBlob | unlockBlob => exact fun _ hk => hk.elim
  | _ => exact h.elim

section Attachments

variable (k : VersionKey)

theorem calls_collectBlob (sha : Digest) : (collectBlob sha).run.Calls Call.collects := by
  refine calls_bind (calls_attempt (calls_query trivial)) fun references => ?_
  split
  · exact calls_ignore (calls_file trivial)
  · exact calls_pure _

theorem calls_sweepUnreferencedBlobs (blobs : List Digest) :
    (sweepUnreferencedBlobs blobs).run.Calls Call.collects :=
  calls_forM fun sha _ => calls_withBlobLock trivial trivial (calls_collectBlob sha)

theorem calls_checkNotApproved (v : VersionRef) (guard : ApprovalGuard) :
    (checkNotApproved v guard).run.Calls (Call.attaches k) :=
  calls_bind (calls_query trivial) fun _ => calls_bind calls_refuseIf fun _ => calls_pure _

theorem calls_attachRow (name : String) (upload : Finished) :
    (attachRow k name upload).run.Calls (Call.attaches k) := by
  refine calls_bind (calls_file trivial) fun _ => ?_
  refine calls_bind (calls_attempt (calls_query rfl)) fun added => ?_
  cases added with
  | ok _ => exact calls_pure _
  | error e =>
    refine calls_bind (calls_unwrapOr (calls_query trivial)) fun references => ?_
    exact calls_bind (calls_onlyIf (calls_ignore (calls_file trivial))) fun _ => calls_throw _

theorem calls_attachLocked (feed : FeedName) (guard : ApprovalGuard) (v : VersionRef) (name : String)
    (upload : Finished) :
    (attachLocked feed guard v name upload).run.Calls (Call.attaches v.key) := by
  have here : (versionHere feed v.key).run.Calls (Call.attaches v.key) := by
    refine calls_bind (calls_query trivial) fun here => ?_
    split_ifs
    · exact calls_query trivial
    · exact calls_pure _
  refine calls_bind here fun _ => calls_bind calls_refuseIf fun _ => ?_
  refine calls_bind (calls_query trivial) fun existing => ?_
  cases existing with
  | some existing =>
    dsimp only
    split_ifs
    · exact calls_pure _
    · exact calls_throw _
  | none =>
    refine calls_bind (calls_checkNotApproved _ v guard) fun _ => ?_
    exact calls_withBlobLock trivial trivial (calls_attachRow _ name upload)

theorem calls_detachLocked (feed : FeedName) (guard : ApprovalGuard) (v : VersionRef)
    (name : String) : (detachLocked feed guard v name).run.Calls (Call.attaches v.key) := by
  refine calls_bind (calls_query trivial) fun _ => calls_bind calls_refuseIf fun _ => ?_
  refine calls_bind (calls_checkNotApproved _ v guard) fun _ => ?_
  have deleted : (deleteFile v.key name).run.Calls (Call.attaches v.key) := by
    refine calls_bind (calls_query trivial) fun row => ?_
    cases row with
    | none => exact calls_pure _
    | some row => exact calls_bind (calls_query rfl) fun _ => calls_pure _
  refine calls_bind deleted fun row => ?_
  cases row with
  | none => exact calls_throw _
  | some row =>
    exact (calls_withBlobLock trivial trivial (calls_collectBlob _)).mono fun _ =>
      Call.attaches_of_collects

end Attachments

def Call.publishes (k : VersionKey) : Call → Prop
  | .db (.existsIn _ _) | .db (.findSymbol _) | .db (.deleteSymbol _) => True
  | .db (.addSymbol _ k') => k' = k
  | .storage (.getPackage _) | .storage (.openPackage _) | .storage (.getSymbol _)
  | .storage (.openSymbol _) | .storage (.storeSymbolFile _ _) | .storage (.deleteSymbol _)
  | .storage (.storeSymbolPackage _) => True
  | .lockSymbol _ | .unlockSymbol _ | .symbolsIndexed _ _ => True
  | _ => False

theorem Call.under_of_publishes {k : VersionKey} {c : Call} (h : c.publishes k) : c.under [k] := by
  cases c with
  | db q => cases q <;> first | exact h.elim | exact fun _ hk => hk.elim | (
      intro k' hk
      exact List.mem_singleton.mpr (hk.symm.trans h))
  | storage q => cases q <;> first | exact h.elim | exact fun _ hk => hk.elim
  | lockVersion | unlockVersion => exact h.elim
  | _ => exact fun _ hk => hk.elim

section Symbols

variable (reader : SymbolReader) (k : VersionKey)

theorem calls_release (claimed : List SymbolKey) :
    (release claimed).run.Calls (Call.publishes k) :=
  calls_forM fun _ _ => calls_bind (calls_ignore (calls_query trivial)) fun _ =>
    calls_ignore (calls_file trivial)

theorem calls_giveUp {α : Type} (claimed : List SymbolKey) (e : Error) :
    (giveUp claimed e : Op α).run.Calls (Call.publishes k) :=
  calls_bind (calls_release k claimed) fun _ => calls_throw _

theorem calls_storedSha256 (s : SymbolKey) :
    (storedSha256 reader s).run.Calls (Call.publishes k) := by
  refine calls_bind (calls_attempt (calls_file trivial)) fun found => ?_
  split
  · exact calls_pure _
  · exact calls_throw _
  · exact calls_bind (calls_file trivial) fun _ => calls_pure _

theorem calls_planOf (v : Verified) : (planOf reader k v).run.Calls (Call.publishes k) := by
  refine calls_bind (calls_query trivial) fun owner => ?_
  cases owner with
  | none => exact calls_pure _
  | some owner =>
    refine calls_bind calls_refuseIf fun _ => ?_
    refine calls_bind (calls_storedSha256 reader k _) fun stored => ?_
    cases stored with
    | some stored =>
      dsimp only
      split_ifs
      · exact calls_pure _
      · exact calls_throw _
    | none =>
      dsimp only
      split_ifs
      · exact calls_pure _
      · exact calls_throw _

theorem calls_planAll (verified : List Verified) :
    (planAll reader k verified).run.Calls (Call.publishes k) := by
  induction verified with
  | nil => exact calls_pure _
  | cons v rest ih =>
    exact calls_bind (calls_planOf reader k v) fun _ => calls_bind ih fun _ => calls_pure _

theorem calls_storeOr (claimed : List SymbolKey) (v : Verified) {rest : Op (List SymbolKey)}
    (h : rest.run.Calls (Call.publishes k)) : (do
      match ← Fallible.attempt (file (.storeSymbolFile v.key v.bytes)) with
      | .error e => giveUp claimed e
      | .ok () => rest : Op (List SymbolKey)).run.Calls (Call.publishes k) := by
  refine calls_bind (calls_attempt (calls_file trivial)) fun stored => ?_
  cases stored with
  | ok _ => exact h
  | error e => exact calls_giveUp k _ _

theorem calls_carryOut (plans : List (Verified × Plan)) (claimed : List SymbolKey) :
    (carryOut k plans claimed).run.Calls (Call.publishes k) := by
  induction plans generalizing claimed with
  | nil => exact calls_pure _
  | cons plan rest ih =>
    obtain ⟨v, plan⟩ := plan
    cases plan with
    | unchanged => exact ih claimed
    | restore => exact calls_storeOr k claimed v (ih _)
    | claim =>
      refine calls_bind (calls_attempt (calls_query rfl)) fun added => ?_
      rcases added with e | added
      · exact calls_giveUp k _ _
      · cases added with
        | false => exact calls_giveUp k _ _
        | true => exact calls_storeOr k _ v (ih _)

theorem calls_storeAll (verified : List Verified) :
    (storeAll reader k verified).run.Calls (Call.publishes k) :=
  calls_withSymbolLocks (fun _ => trivial) (fun _ => trivial)
    (calls_bind (calls_planAll reader k verified) fun plans => calls_carryOut k plans [])

theorem calls_indexSymbolsLocked (feed : FeedName) (entries : List (String × Content)) :
    (indexSymbolsLocked reader k feed entries).run.Calls (Call.publishes k) := by
  refine calls_bind (calls_query trivial) fun _ => calls_bind calls_refuseIf fun _ => ?_
  refine calls_bind (calls_file trivial) fun _ => calls_bind (calls_file trivial) fun _ => ?_
  refine calls_bind (calls_ofResult _) fun verified => ?_
  refine calls_bind (calls_storeAll reader k verified) fun claimed => ?_
  refine calls_bind (calls_attempt (calls_file trivial)) fun kept => ?_
  cases kept with
  | ok _ => exact calls_call trivial
  | error e => exact calls_giveUp k _ _

end Symbols

/-- A call of a request for a file. -/
def Call.fetches : Call → Prop
  | .db (.getMembership _ _) | .db (.isServable _ _) | .db (.find _ _) => True
  | .storage (.getPackage _) | .storage (.auxContent _ _) | .storage (.getAux _ _)
  | .storage (.openPackage _) | .storage (.openAux _ _) | .storage (.metadata _) => True
  | .respond _ => True
  | _ => False

theorem Call.under_of_fetches {c : Call} (h : c.fetches) (ks : List VersionKey) : c.under ks := by
  cases c with
  | db q => cases q <;> first | exact h.elim | exact fun _ hk => hk.elim
  | storage q => cases q <;> first | exact h.elim | exact fun _ hk => hk.elim
  | respond => exact fun _ hk => hk.elim
  | _ => exact h.elim

section Downloads

theorem calls_serveVersion (httpDate : ℕ → String) (d : DownloadRequest) (access : Access) :
    (serveVersion httpDate d access).run.Calls Call.fetches := by
  have finds : (findIfAny d.feed d.k).run.Calls Call.fetches :=
    calls_bind (calls_ok (calls_query trivial)) fun _ => calls_pure _
  have opens {c : StorageCall} (hc : (Call.storage c).fetches) :
      (openForServing c).run.Calls Call.fetches := by
    refine calls_bind (calls_attempt (calls_file hc)) fun result => ?_
    cases result with
    | ok bytes => exact calls_pure _
    | error err => exact calls_throw _
  have looks : (lookForContent d.k d.isNuspec).run.Calls Call.fetches := by
    unfold lookForContent
    split_ifs
    · exact calls_file trivial
    · exact calls_file trivial
  have content : (openContent d.k d.isNuspec).run.Calls Call.fetches := by
    unfold openContent
    split_ifs
    · exact opens trivial
    · exact opens trivial
  refine calls_bind looks fun _ => calls_bind finds fun _ => calls_bind content fun _ => ?_
  exact calls_bind finds fun _ => calls_bind (calls_file trivial) fun _ => calls_call trivial

theorem calls_downloadAccess (feed : FeedName) (k : VersionKey) (visitor : Visitor) :
    (downloadAccess feed k visitor).run.Calls Call.fetches := by
  unfold downloadAccess
  split_ifs
  · exact calls_bind (calls_query trivial) fun _ => calls_pure _
  · exact calls_bind calls_refuseIf fun _ => calls_bind (calls_query trivial) fun _ => calls_pure _

theorem calls_packageIcon (d : IconRequest) : (packageIcon d).run.Calls Call.fetches := by
  refine calls_bind calls_refuseIf fun _ => calls_bind (calls_query trivial) fun row => ?_
  cases row with
  | none => exact calls_throw _
  | some row =>
    dsimp only
    split_ifs
    · exact calls_call trivial
    · exact calls_bind (calls_file trivial) fun _ => calls_bind calls_refuseIf fun _ =>
        calls_call trivial

theorem closed_downloadPackage {J : ∀ {α : Type}, Op α → Prop} (hJ : Closed J) {host : Host}
    (d : DownloadRequest)
    (hfetches : ∀ {α : Type} (x : Op α), x.run.Calls Call.fetches → J x)
    (hmirror : ∀ m : MirrorRequest, J (mirrorVersion host.toSite d.feed m.v m.options m.unlisted
      m.failedLately m.download)) : J (downloadPackage host.toSite host.httpDate d) := by
  have access : J (downloadAccess d.feed d.k d.visitor) := hfetches _ (calls_downloadAccess _ _ _)
  refine hJ.bind ?_ fun access => hfetches _ (calls_serveVersion _ d access)
  refine hJ.bind (Op.closed_refuseIf hJ _) fun _ => hJ.bind access fun found => ?_
  cases found with
  | some access => exact hJ.result (.ok _)
  | none =>
    refine hJ.bind (hJ.optionForM fun m => hJ.discard (hmirror m)) fun _ =>
      hJ.bind access fun found => ?_
    cases found with
    | some access => exact hJ.result (.ok _)
    | none => exact hJ.result (.error _)

end Downloads

/-- What holds of every task. -/
theorem Scoped.task {host : Host} {J : List VersionKey → ∀ {α : Type}, Op α → Prop} (h : Scoped J)
    (task : Task host) : J [] task.run := by
  have hJ := h.closed []
  cases task with
  | operate op => exact (h.sections host.toSite).run hJ op fun _ _ _ => trivial
  | attach requester v name upload =>
    exact hJ.discard (h.locked (h.calls
      ((calls_attachLocked _ _ v name upload).mono fun _ => Call.under_of_attaches)))
  | detach requester v name =>
    exact h.locked (h.calls
      ((calls_detachLocked _ _ v name).mono fun _ => Call.under_of_attaches))
  | sweepBlobs blobs =>
    exact h.calls ((calls_sweepUnreferencedBlobs blobs).mono fun _ hc =>
      Call.under_of_collects hc [])
  | pushSymbols feed bytes =>
    refine hJ.bind (hJ.result _) fun a => hJ.bind (h.calls (calls_query fun _ hk => hk.elim))
      fun _ => hJ.bind (Op.closed_refuseIf hJ _) fun _ => hJ.bind (Op.closed_refuseIf hJ _)
        fun _ => hJ.bind (hJ.result _) fun entries => ?_
    exact h.locked (h.calls
      ((calls_indexSymbolsLocked _ _ feed entries).mono fun _ => Call.under_of_publishes))
  | download d =>
    refine closed_downloadPackage hJ d (fun x hx => h.calls
      (hx.mono fun _ hc => Call.under_of_fetches hc [])) fun m => ?_
    exact (h.sections host.toSite).parts.mirrorVersion hJ d.feed m.v m.options m.unlisted
      m.failedLately m.download fun _ _ => trivial
  | icon d => exact h.calls ((calls_packageIcon d).mono fun _ hc => Call.under_of_fetches hc [])

section Runs

variable {T : Type} [DecidableEq T] {host : Host}
variable {tasks : T → Task host} {s : Store T}
variable {allow : Machine.Allowed T Call Call.Answer Bool (Store T)}
variable {c : Config T Call Call.Answer Bool (Store T)}

theorem task_disciplined_step (h : (server T).Reaches allow (working s tasks) c) {t : T} {o : Bool}
    {call : Call} {r : call.Answer} {next : call.Answer → Program Call Call.Answer Unit}
    {w : StoreWorld T} (ht : c.threads t = .call call next)
    (hp : (server T).perform t call o c.world = some (r, w)) :
    Disciplined c.world ⟨t, call, o, r⟩ w := by
  have start : discipline.Keeps (server T) (working s tasks) := by
    refine ⟨trivial, fun t => Protocol.Safe.bind ?_⟩
    exact (scoped_guarded.task (tasks t) t _ (by simp [Held])).mono fun _ _ _ => trivial
  have keeps := start.reaches (h.mono fun _ _ _ _ => trivial)
  exact (keeps.step ht hp trivial).1 _ _ ((server T).perform_eq_some.mp hp).2

theorem task_disciplined (h : (server T).Reaches allow (working s tasks) c) :
    (server T).Reaches (fun w e w' => allow w e w' ∧ Disciplined w e w') (working s tasks) c :=
  h.strengthen fun _ hreach _ _ _ _ _ _ ht hp _ => task_disciplined_step hreach ht hp

theorem unlocked_of_done (hstart : ∀ k, s.versionLock k = none)
    (h : (server T).Reaches allow (working s tasks) c) (hdone : ∀ t, ∃ a, c.threads t = .done a)
    (k : VersionKey) : c.world.state.versionLock k = none := by
  have start : anyStep.KeepsTo (server T) (fun t => HoldsOnly t []) (working s tasks) := by
    refine ⟨trivial, fun t => Protocol.Safe.bind ?_⟩
    refine (scoped_released.task (tasks t) t _ fun k hk => ?_).mono fun _ _ h => h
    exact (Option.some_ne_none t (hk.symm.trans (hstart k))).elim
  have keeps := start.reaches (fun t => stable_holdsOnly t []) (h.mono fun _ _ _ _ => trivial)
  refine Option.eq_none_iff_forall_ne_some.mpr fun t hheld => ?_
  obtain ⟨a, ht⟩ := hdone t
  exact List.not_mem_nil (keeps.ended ht k hheld)

end Runs

end YaNuget
