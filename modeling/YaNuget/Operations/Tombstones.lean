import YaNuget.Operations.RetentionDecisions

/-!
# Deleted versions stay deleted

A removal for good leaves a tombstone, which a push takes away after it has
released the version's lock, and which the mirror and the migration look at
before they take it. A run in which none of these straddles a removal keeps
what was deleted out of the feed.
-/
namespace YaNuget

open Concurrency Op Fallible Protocol

/-- The operation copies a version of an upstream into a feed. -/
def Operation.copies : Operation → Prop
  | .mirror _ _ _ _ _ _ | .migrate _ _ _ _ _ _ => True
  | _ => False

def Operation.migrates : Operation → Prop
  | .migrate _ _ _ _ _ _ => True
  | _ => False

section Removed

variable {T : Type} (f : FeedName) (k : VersionKey)

/-- Whether version `k` counts as deleted from feed `f` after a call: a removal
for good deletes it, and a push, promotion or copy that starts later may bring
it back. -/
def Call.removes : (c : Call) → c.Answer → Bool → Bool
  | .db (.removeMembershipForGood f' k'), .ok true, b => if (f', k') = (f, k) then true else b
  | .arrive f' k', _, b => if (f', k') = (f, k) then false else b
  | _, _, b => b

/-- Version `k` was removed from feed `f` for good, and nothing that may bring
it back has started since. -/
def removed (past : List (StoreEvent T)) : Bool :=
  past.foldr (fun e b => e.call.removes f k e.answer b) false

/-- The call makes version `k` a member of feed `f`. An overwrite does not: it replaces
a version the feed holds under that version's lock, and copies never overwrite. -/
def Call.enters : (c : Call) → c.Answer → Bool
  | .db (.addVersion p f' _), r => r.isOk && (f', p.key) = (f, k)
  | _, _ => false

variable [DecidableEq T]

/-- The events since task `t` last looked for the tombstone. -/
def sinceLook (t : T) (past : List (StoreEvent T)) : List (StoreEvent T) :=
  past.takeWhile fun e => !(e.thread = t && e.call = .db (.isTombstoned f k))

/-- No push takes away the tombstone of a removal that came after it, no copy
lets a removal pass between its look for the tombstone and its own arrival, and
no migration fails to see a tombstone. -/
structure Undisturbed (copies migrates : T → Prop) (w : StoreWorld T) (e : StoreEvent T) : Prop where
  clear : e.call = .db (.clearTombstone f k) → e.call.fails e.answer = false →
    removed f k w.past = false
  enter : copies e.thread → e.call.enters f k e.answer = true →
    removed f k (sinceLook f k e.thread w.past) = false
  look : migrates e.thread → e.call = .db (.isTombstoned f k) → e.call.fails e.answer = true →
    removed f k w.past = false

/-- What was removed has a tombstone, and no copy has brought it back. -/
structure StaysDeleted (copies : T → Prop) (w : StoreWorld T) : Prop where
  tombstoned : removed f k w.past = true → w.state.db.isTombstoned f k = true
  kept_out : ∀ later e past, w.past = later ++ e :: past → copies e.thread →
    e.call.enters f k e.answer = true → removed f k past = false

def deletion (copies migrates : T → Prop) : Protocol T Call Call.Answer Bool (Store T) where
  inv := StaysDeleted f k copies
  guar _ _ _ := True
  allow w e _ := Undisturbed f k copies migrates w e

end Removed

section Step

/-- Tombstones are written by removals for good, and taken away when they are
cleared; a rename moves them. -/
theorem DbCall.tombstones_run (db : Database) (q : DbCall) :
    (∃ f k, q = .removeMembershipForGood f k) ∨ (∃ f k, q = .clearTombstone f k) ∨
      (Call.db q).renames ∨ (q.run db).2.tombstones = db.tombstones := by
  cases q with
  | addVersion p f m =>
    rcases db.addVersion_cases f p m with ⟨e, he⟩ | ⟨_, db', he, -, -, -, rest⟩
    · simp [DbCall.run, he]
    · simp [DbCall.run, he, rest.tombstones]
  | addMembership f k m =>
    rcases db.insertMembership_cases f k m with ⟨e, he⟩ | ⟨hp, he, -⟩
    · simp [DbCall.run, he]
    · simp [DbCall.run, he, Database.upsertMembership]
  | replacePendingVersion p f m dropFiles others =>
    rcases db.replacePendingVersion_cases f p m dropFiles others with
      ⟨e, he⟩ | ⟨_, db', he, -, -, -, same, -⟩
    · simp [DbCall.run, he]
    · simp [DbCall.run, he, same]
  | deletePackageData k => simp [DbCall.run, db.tombstones_deletePackageData k]
  | updateMemberships f ks change =>
    rcases db.updateMemberships_cases f ks change with ⟨e, he⟩ | ⟨n, db', he, -, rest, -⟩
    · simp [DbCall.run, he]
    · simp [DbCall.run, he, rest.tombstones]
  | removeMembershipForGood f k => exact Or.inl ⟨f, k, rfl⟩
  | clearTombstone f k => exact Or.inr (Or.inl ⟨f, k, rfl⟩)
  | renameFeed src dst hold => exact Or.inr (Or.inr (Or.inl trivial))
  | addFile k file => simp [DbCall.run]
  | addSymbol s k => simp [DbCall.run]
  | _ => exact Or.inr (Or.inr (Or.inr rfl))

theorem Database.isTombstoned_run {f : FeedName} {k : VersionKey} {db : Database} {q : DbCall}
    (hclear : q ≠ .clearTombstone f k) (hrename : ¬ (Call.db q).renames)
    (h : db.isTombstoned f k = true) : (q.run db).2.isTombstoned f k = true := by
  rcases DbCall.tombstones_run db q with ⟨f', k', rfl⟩ | ⟨f', k', rfl⟩ | h' | same
  · simp only [DbCall.run, removeMembershipForGood]
    split_ifs
    · simp only [isTombstoned, Table.row_insert]
      split_ifs
      · rfl
      · exact h
    · exact h
  · have hne : (f, k) ≠ (f', k') := by
      rintro heq
      cases heq
      exact hclear rfl
    simpa [DbCall.run, clearTombstone, isTombstoned, hne] using h
  · exact (hrename h').elim
  · rwa [isTombstoned, same]

variable {T : Type} {f : FeedName} {k : VersionKey}

theorem removed_cons (e : StoreEvent T) (past : List (StoreEvent T)) :
    removed f k (e :: past) = e.call.removes f k e.answer (removed f k past) := rfl

theorem Database.isTombstoned_removeMembershipForGood {db : Database}
    (h : (db.removeMembershipForGood f k).1 = true) :
    (db.removeMembershipForGood f k).2.isTombstoned f k = true := by
  have hexists : db.existsIn f k = true := h
  simp [removeMembershipForGood, hexists, isTombstoned]

theorem removes_query {q : DbCall} {r : (Call.db q).Answer} (b : Bool)
    (hq : q ≠ .removeMembershipForGood f k) : (Call.db q).removes f k r b = b := by
  cases q with
  | removeMembershipForGood f' k' =>
    have hne : (f', k') ≠ (f, k) := by
      rintro heq
      cases heq
      exact hq rfl
    match r with
    | .ok true => exact if_neg hne
    | .ok false => rfl
    | .error _ => rfl
  | _ => rfl

variable [DecidableEq T] {copies migrates : T → Prop}
variable {t u : T} {c : Call} {o : Bool} {w w' : StoreWorld T} {r : c.Answer}

/-- A step keeps the tombstone of what was removed, unless it clears it. -/
theorem tombstoned_step (hp : (server T).perform u c o w = some (r, w'))
    (hrename : ¬ c.renames)
    (hclear : c = .db (.clearTombstone f k) → c.fails r = false → removed f k w.past = false)
    (h : removed f k w.past = true → w.state.db.isTombstoned f k = true) :
    removed f k w'.past = true → w'.state.db.isTombstoned f k = true := by
  have hdb := (Store.exec_files ((server T).perform_eq_some.mp hp).1).1
  rw [((server T).perform_eq_some.mp hp).2, removed_cons]
  intro hremoved
  cases c with
  | db q =>
    rcases perform_query hp with ⟨rfl, hs⟩ | ⟨rfl, hs⟩
    · have same : removed f k w.past = true := by
        cases q <;> exact hremoved
      rw [hs]
      exact h same
    rw [hs]
    by_cases hq : q = .removeMembershipForGood f k
    · subst hq
      cases hfound : (w.state.db.removeMembershipForGood f k).1 with
      | true => exact Database.isTombstoned_removeMembershipForGood hfound
      | false =>
        simp only [Call.removes, DbCall.run, hfound] at hremoved
        exact Database.isTombstoned_run (by simp) id (h hremoved)
    · simp only [removes_query _ hq] at hremoved
      refine Database.isTombstoned_run ?_ hrename (h hremoved)
      rintro rfl
      simp [hclear rfl rfl] at hremoved
  | arrive f' k' =>
    rw [hdb]
    simp only [Call.removes] at hremoved
    split_ifs at hremoved
    exact h hremoved
  | _ =>
    rw [hdb]
    exact h hremoved

theorem staysDeleted_step (hp : (server T).perform u c o w = some (r, w'))
    (hrename : ¬ c.renames)
    (hallow : Undisturbed f k copies migrates w ⟨u, c, o, r⟩)
    (henter : copies u → c.enters f k r = true → removed f k w.past = false)
    (h : StaysDeleted f k copies w) : StaysDeleted f k copies w' where
  tombstoned := tombstoned_step hp hrename hallow.clear h.tombstoned
  kept_out later e past heq hcopies hentered := by
    rw [((server T).perform_eq_some.mp hp).2] at heq
    cases later with
    | nil =>
      obtain ⟨rfl, rfl⟩ := List.cons.inj heq
      exact henter hcopies hentered
    | cons e' later => exact h.kept_out later e past (List.cons.inj heq).2 hcopies hentered

end Step

section Copies

variable {T : Type} [DecidableEq T] {f : FeedName} {k : VersionKey} {copies migrates : T → Prop}
variable {t : T} {α : Type}

/-- What was removed, was removed since task `t` last looked. -/
def Vigilant (f : FeedName) (k : VersionKey) (t : T) (w : StoreWorld T) : Prop :=
  removed f k w.past = true → removed f k (sinceLook f k t w.past) = true

theorem removes_mono {c : Call} {r : c.Answer} {b b' : Bool} (h : b = true → b' = true) :
    c.removes f k r b = true → c.removes f k r b' = true := by
  unfold Call.removes
  split
  · split_ifs
    · exact id
    · exact h
  · split_ifs
    · exact id
    · exact h
  · exact h

/-- Any event but a look of the task itself keeps it vigilant. -/
theorem Vigilant.step {u : T} {c : Call} {o : Bool} {w w' : StoreWorld T} {r : c.Answer}
    (h : Vigilant f k t w) (hp : (server T).perform u c o w = some (r, w'))
    (hlook : u = t → c ≠ .db (.isTombstoned f k)) : Vigilant f k t w' := by
  have hsince : sinceLook f k t w'.past = ⟨u, c, o, r⟩ :: sinceLook f k t w.past := by
    rw [((server T).perform_eq_some.mp hp).2, sinceLook, List.takeWhile_cons_of_pos]
    · rfl
    · simp only [Bool.not_eq_true', Bool.and_eq_false_iff, decide_eq_false_iff_not]
      exact not_and_or.mp fun hand => hlook hand.1 hand.2
  unfold Vigilant
  rw [hsince, ((server T).perform_eq_some.mp hp).2, removed_cons, removed_cons]
  exact removes_mono h

theorem stable_vigilant :
    (deletion f k copies migrates).Stable (server T) t (Vigilant f k t) := by
  rintro u hu w w' ⟨c, o, r, hp, -⟩ hw
  exact hw.step hp fun h => (hu h).elim

theorem stable_anything : (deletion f k copies migrates).Stable (server T) t fun _ => True :=
  fun _ _ _ _ _ _ => trivial

/-- A part that makes the version no member, or a task that copies nothing. -/
theorem deletion_of_calls {x : Op α} (h : x.run.Calls fun c =>
    ¬ c.renames ∧ (copies t → ∀ r, c.enters f k r = false)) :
    (deletion f k copies migrates).Maintains (server T) t (fun _ => True) x := by
  refine Maintains.of_calls stable_anything ?_ h
  intro c hc w _ hinv o r w' hp hallow
  refine ⟨staysDeleted_step hp hc.1 hallow (fun hcopies hentered => ?_) hinv, trivial, trivial⟩
  rw [hc.2 hcopies r] at hentered
  contradiction

theorem deletion_of_vigilant {x : Op α} (h : x.run.Calls fun c =>
    ¬ c.renames ∧ c ≠ .db (.isTombstoned f k)) :
    (deletion f k copies migrates).Maintains (server T) t (Vigilant f k t) x := by
  refine Maintains.of_calls stable_vigilant ?_ h
  intro c hc w hw hinv o r w' hp hallow
  refine ⟨staysDeleted_step hp hc.1 hallow (fun hcopies hentered => ?_) hinv, trivial,
    hw.step hp fun _ => hc.2⟩
  by_contra hremoved
  have := hw (by simpa using hremoved)
  rw [hallow.enter hcopies hentered] at this
  contradiction

/-- A look that does not find the tombstone leaves the task vigilant. -/
theorem safe_look {default : Bool} (hdefault : migrates t ∨ default = true) (w : StoreWorld T) :
    (deletion f k copies migrates).Safe (server T) t
      (unwrapOr (query (.isTombstoned f k)) default).run
      (fun r w => r = .ok false → Vigilant f k t w) w := by
  refine Safe.bindExcept (Safe.bind (Safe.call stable_anything trivial ?_))
  rintro w - hinv o r w' hp hallow
  have hpast := ((server T).perform_eq_some.mp hp).2
  refine ⟨staysDeleted_step hp id hallow (fun _ h => by cases r <;> simp [Call.enters] at h) hinv,
    trivial, ?_⟩
  have vigilant (h : removed f k w.past = false) : Vigilant f k t w' := by
    intro hremoved
    rw [hpast, removed_cons] at hremoved
    simp [Call.removes, h] at hremoved
  cases r with
  | error e =>
    rintro hr
    rcases hdefault with hmigrates | rfl
    · exact vigilant (hallow.look hmigrates rfl rfl)
    · cases hr
  | ok b =>
    rintro hr
    obtain rfl : b = false := Except.ok.inj hr
    rcases perform_query hp with ⟨hr, -⟩ | ⟨hr, -⟩
    · simp at hr
    apply vigilant
    by_contra hremoved
    have := hinv.tombstoned (by simpa using hremoved)
    rw [← Except.ok.inj hr] at this
    contradiction

theorem not_enters_of_indexes {feed : FeedName} {k' : VersionKey} {c : Call}
    (h : c.indexes feed k') (hne : (feed, k') ≠ (f, k)) (r : c.Answer) : c.enters f k r = false := by
  unfold Call.enters
  split
  · obtain ⟨rfl, rfl⟩ := h
    simp [hne]
  · rfl

theorem not_renames_of_indexes {feed : FeedName} {k' : VersionKey} {c : Call}
    (h : c.indexes feed k') : ¬ c.renames :=
  Call.not_renames_of_operates (Call.operates_of_within (Call.within_of_indexes h))

theorem not_look_of_indexes {feed : FeedName} {k' : VersionKey} {c : Call}
    (h : c.indexes feed k') : c ≠ .db (.isTombstoned f k) := by
  rintro rfl
  exact h.elim

section Upstream

variable (site : Site) (feed : FeedName) (v : VersionRef) (options : CopyOptions)
variable (overwrite unlisted : Bool) (download : Except Error Content)

theorem calls_indexFetched {φ : Call → Prop} (hlock : φ (.lockVersion v.key))
    (hunlock : φ (.unlockVersion v.key)) (hindex : ∀ c, c.indexes feed v.key → φ c)
    (bytes : Content) :
    (do match ← attempt (indexPackage site feed bytes (options.index .disabled v unlisted)) with
        | .ok _ => pure Fetched.mirrored
        | .error _ => pure Fetched.notMirrored : Op Fetched).run.Calls φ := by
  refine calls_bind (calls_attempt (calls_indexPackage site feed bytes _ v rfl hlock hunlock hindex))
    fun indexed => ?_
  cases indexed with
  | ok _ => exact calls_pure _
  | error _ => exact calls_pure _

theorem deletion_mirror (failedLately : Bool) :
    (deletion f k copies migrates).Maintains (server T) t (fun _ => True)
      (mirrorVersion site feed v options unlisted failedLately download) := by
  have closed := Protocol.closed_maintains (ε := Error) (server T)
    (deletion f k copies migrates) t fun _ => True
  refine closed.bind (deletion_of_calls ?_) fun fetch => ?_
  · refine calls_bind (calls_unwrapOr (calls_query ⟨id, fun _ _ => rfl⟩)) fun here => ?_
    split_ifs
    · exact calls_pure _
    refine calls_bind (calls_unwrapOr (calls_query ⟨id, fun _ _ => rfl⟩)) fun deleted => ?_
    split_ifs
    · exact calls_pure _
    · exact calls_pure _
  cases fetch with
  | false => exact closed.result _
  | true =>
  cases download with
  | error e => exact closed.result _
  | ok bytes =>
  by_cases hkey : (feed, v.key) = (f, k)
  · cases hkey
    intro w _
    refine Safe.bindExcept ((safe_look (Or.inr rfl) w).mono fun deleted w hvigilant => ?_)
    cases deleted with
    | error e => trivial
    | ok deleted =>
    cases deleted with
    | true => trivial
    | false =>
      refine (deletion_of_vigilant (calls_indexFetched site _ v options unlisted ?_ ?_ ?_ bytes) w
        (hvigilant rfl)).mono fun _ _ _ => trivial
      · exact ⟨id, by simp⟩
      · exact ⟨id, by simp⟩
      · exact fun c hc => ⟨not_renames_of_indexes hc, not_look_of_indexes hc⟩
  · refine deletion_of_calls (calls_bind (calls_unwrapOr (calls_query ⟨id, fun _ _ => rfl⟩))
      fun deleted => ?_)
    split_ifs
    · exact calls_pure _
    · refine calls_indexFetched site feed v options unlisted ⟨id, fun _ _ => rfl⟩
        ⟨id, fun _ _ => rfl⟩ (fun c hc => ?_) bytes
      exact ⟨not_renames_of_indexes hc, fun _ => not_enters_of_indexes hc hkey⟩

theorem calls_migrateOne {φ : Call → Prop} (hlock : φ (.lockVersion v.key))
    (hunlock : φ (.unlockVersion v.key)) (hindex : ∀ c, c.indexes feed v.key → φ c)
    (hlisted : φ (.db (.setListed feed v.key false))) :
    (migrateOne site feed v options overwrite unlisted download).run.Calls φ := by
  cases download with
  | error e => exact calls_pure _
  | ok bytes =>
    refine calls_bind (calls_attempt (calls_indexPackage site feed bytes _ v rfl hlock hunlock hindex))
      fun indexed => ?_
    cases indexed with
    | ok _ => exact calls_onlyIf (calls_ignore (calls_query hlisted))
    | error _ => exact calls_pure _

/-- A version that is listed for copying had no tombstone. -/
theorem safe_listItem (hmigrates : migrates t) (skipExisting : Bool) (w : StoreWorld T) :
    (deletion f k copies migrates).Safe (server T) t (listItem f k skipExisting).run
      (fun r w => r = .ok true → Vigilant f k t w) w := by
  refine Safe.bindExcept ((safe_look (Or.inl hmigrates) w).mono fun deleted w hvigilant => ?_)
  cases deleted with
  | error e => exact fun h => by cases h
  | ok deleted =>
  have present {φ : Call → Prop} (h : φ (.db (.existsIn f k))) :
      (if skipExisting then unwrapOr (query (.existsIn f k)) false
        else pure false : Op Bool).run.Calls φ := by
    split_ifs
    · exact calls_unwrapOr (calls_query h)
    · exact calls_pure _
  cases deleted with
  | true =>
    refine Safe.bindExcept ((deletion_of_calls (present ⟨id, fun _ _ => rfl⟩) w trivial).mono ?_)
    rintro r w -
    cases r with
    | error e => exact fun h => by cases h
    | ok present => exact fun h => by cases h
  | false =>
    refine Safe.bindExcept ((deletion_of_vigilant (present ⟨id, by simp⟩) w (hvigilant rfl)).mono ?_)
    rintro r w hvigilant
    cases r with
    | error e => exact fun _ => hvigilant
    | ok present => exact fun _ => hvigilant

theorem deletion_migrate (hmigrates : migrates t) :
    (deletion f k copies migrates).Maintains (server T) t (fun _ => True)
      (migrateVersion site feed v options overwrite unlisted download) := by
  have copy {φ : Call → Prop} := @calls_migrateOne site feed v options overwrite unlisted download φ
  by_cases hkey : (feed, v.key) = (f, k)
  · cases hkey
    intro w _
    refine Safe.bindExcept ((safe_listItem hmigrates _ w).mono fun listed w hvigilant => ?_)
    cases listed with
    | error e => trivial
    | ok listed =>
    cases listed with
    | false => trivial
    | true =>
      refine (deletion_of_vigilant (copy ?_ ?_ ?_ ?_) w (hvigilant rfl)).mono fun _ _ _ => trivial
      · exact ⟨id, by simp⟩
      · exact ⟨id, by simp⟩
      · exact fun c hc => ⟨not_renames_of_indexes hc, not_look_of_indexes hc⟩
      · exact ⟨id, by simp⟩
  · refine deletion_of_calls (calls_bind ?_ fun listed => calls_onlyIf (copy ?_ ?_ ?_ ?_))
    · refine calls_bind (calls_unwrapOr (calls_query ⟨id, fun _ _ => rfl⟩)) fun deleted => ?_
      refine calls_bind ?_ fun present => calls_pure _
      split_ifs
      · exact calls_unwrapOr (calls_query ⟨id, fun _ _ => rfl⟩)
      · exact calls_pure _
    · exact ⟨id, fun _ _ => rfl⟩
    · exact ⟨id, fun _ _ => rfl⟩
    · exact fun c hc => ⟨not_renames_of_indexes hc, fun _ => not_enters_of_indexes hc hkey⟩
    · exact ⟨id, fun _ _ => rfl⟩

end Upstream

end Copies

section Runs

variable {T : Type} [DecidableEq T] {site : Site} {ops : T → Operation} {s : Store T}
variable {c : Config T Call Call.Answer Bool (Store T)} {f : FeedName} {k : VersionKey}

theorem deletion_operation {copies migrates : T → Prop} {t : T} {op : Operation}
    (hcopies : copies t → op.copies) (hmigrates : op.migrates → migrates t) :
    (deletion f k copies migrates).Maintains (server T) t (fun _ => True) (op.run site) := by
  by_cases hop : op.copies
  · have closed := Protocol.closed_maintains (ε := Error) (server T)
      (deletion f k copies migrates) t fun _ => True
    cases op with
    | mirror feed v options unlisted failedLately download =>
      exact closed.discard (deletion_mirror site feed v options unlisted download failedLately)
    | migrate feed v options overwrite unlisted download =>
      exact deletion_migrate site feed v options overwrite unlisted download (hmigrates trivial)
    | _ => exact hop.elim
  · exact deletion_of_calls ((calls_operation site op).mono fun c hc =>
      ⟨hc, fun h => (hop (hcopies h)).elim⟩)

/-- In an undisturbed run, what was removed for good has a tombstone, and no
mirror fetch or migration has brought it back. -/
theorem stays_deleted
    (h : (server T).Reaches (fun w e _ => Undisturbed f k (fun t => (ops t).copies)
      (fun t => (ops t).migrates) w e) (serving site s ops) c) :
    (removed f k c.world.past = true → c.world.state.db.isTombstoned f k = true) ∧
      ∀ later e past, c.world.past = later ++ e :: past → (ops e.thread).copies →
        e.call.enters f k e.answer = true → removed f k past = false := by
  have keeps : (deletion f k (fun t : T => (ops t).copies) (fun t => (ops t).migrates)).Keeps
      (server T) (serving site s ops) := by
    refine ⟨⟨fun h => (Bool.false_ne_true h).elim, fun later e past heq => ?_⟩, fun t => Safe.bind ?_⟩
    · have := congrArg List.length heq
      simp [serving] at this
    · exact (deletion_operation (t := t) id id _ trivial).mono fun _ _ _ => trivial
  have reached := (keeps.reaches h).1
  exact ⟨reached.tombstoned, reached.kept_out⟩

end Runs

/-- A version is deleted for good while it is pushed, and the mirror is asked for it. -/
def sampleDeletion : Fin 3 → Operation
  | 0 => .push "a" [1] (sampleOptions []) []
  | 1 => .purge "a" sampleKey
  | 2 => .mirror "a" ⟨"Lib", "1.0.0"⟩ ⟨false, default, [], 0⟩ false false (.ok [1])

/-- The push is over when the version is deleted, and the mirror keeps off it. -/
theorem stays_deleted_sample :
    ∃ c, (server (Fin 3)).run (serving sampleSite (Store.empty _) sampleDeletion)
        (calls 0 9 ++ calls 1 9 ++ calls 2 2) = some c ∧
      (∀ t, (c.threads t).nextCall = none) ∧
      c.world.state.db.isTombstoned "a" sampleKey = true := by
  let start := serving sampleSite (Store.empty (Fin 3)) sampleDeletion
  let schedule : List (Fin 3 × Bool) := calls 0 9 ++ calls 1 9 ++ calls 2 2
  have passed : (server (Fin 3)).runs (fun w e _ => !e.call.fails e.answer &&
      !(removed "a" sampleKey w.past && e.call = .db (.clearTombstone "a" sampleKey)) &&
      !(e.thread = 2 && e.call.enters "a" sampleKey e.answer)) start schedule = true := by
    decide +kernel
  obtain ⟨c, hrun, hreach⟩ : ∃ c, (server (Fin 3)).run start schedule = some c ∧
      (server (Fin 3)).Reaches (fun w e _ => Undisturbed "a" sampleKey
        (fun t => (sampleDeletion t).copies) (fun t => (sampleDeletion t).migrates) w e) start c := by
    refine Machine.Reaches.of_runs (fun w e _ h => ?_) passed
    simp only [Bool.and_eq_true, Bool.not_eq_true', Bool.and_eq_false_iff,
      decide_eq_false_iff_not] at h
    obtain ⟨⟨hfails, hclear⟩, henter⟩ := h
    refine ⟨fun hcall _ => hclear.resolve_right (not_not_intro hcall), fun hcopies hentered => ?_, ?_⟩
    · have hmirror : e.thread ≠ 2 := henter.resolve_right (by simp [hentered])
      match ht : e.thread with
      | 0 | 1 => simp [ht, sampleDeletion, Operation.copies] at hcopies
      | 2 => exact (hmirror ht).elim
    · simp [hfails]
  have final : ((server (Fin 3)).run start schedule).map (fun c =>
      (removed "a" sampleKey c.world.past, decide (∀ t, (c.threads t).nextCall = none))) =
      some (true, true) := by decide +kernel
  simp only [hrun, Option.map_some, Option.some.injEq, Prod.mk.injEq, decide_eq_true_eq] at final
  exact ⟨c, hrun, final.2, (stays_deleted hreach).1 final.1⟩

/-- The version is deleted after the push has released its lock, the push takes
the tombstone away, and the mirror brings the version back. No call fails. -/
theorem not_stays_deleted :
    ∃ c, (server (Fin 3)).Reaches (fun _ e _ => e.call.fails e.answer = false)
        (serving sampleSite (Store.empty _) sampleDeletion) c ∧
      removed "a" sampleKey c.world.past = true ∧
      c.world.state.db.isTombstoned "a" sampleKey = false ∧
      c.world.state.db.existsIn "a" sampleKey = true := by
  let start := serving sampleSite (Store.empty (Fin 3)) sampleDeletion
  let schedule : List (Fin 3 × Bool) := calls 0 8 ++ calls 1 9 ++ calls 0 1 ++ calls 2 10
  have passed : (server (Fin 3)).runs (fun _ e _ => !e.call.fails e.answer) start schedule = true := by
    decide +kernel
  obtain ⟨c, hrun, hreach⟩ : ∃ c, (server (Fin 3)).run start schedule = some c ∧
      (server (Fin 3)).Reaches (fun _ e _ => e.call.fails e.answer = false) start c :=
    Machine.Reaches.of_runs (fun _ _ _ h => by simpa using h) passed
  have final : ((server (Fin 3)).run start schedule).map (fun c =>
      (removed "a" sampleKey c.world.past, c.world.state.db.isTombstoned "a" sampleKey,
        c.world.state.db.existsIn "a" sampleKey)) = some (true, false, true) := by decide +kernel
  simp only [hrun, Option.map_some, Option.some.injEq, Prod.mk.injEq] at final
  exact ⟨c, hreach, final⟩

end YaNuget
