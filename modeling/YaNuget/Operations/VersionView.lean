import YaNuget.Operations.LockDiscipline
import YaNuget.Store.Effects
import YaNuget.Concurrency.Sequential

/-!
# What the holder of a version's lock can rely on

The payload of a version, its package and file rows, and which feeds hold it,
pending or not: only the holder of its lock changes these. Together with what
the holder itself has seen fail they are its view of the version, and its
operations can be followed on the view alone.
-/
namespace YaNuget

open Concurrency Op Fallible

/-- Whether the feeds hold version `k`, and if so whether it is pending there. -/
def Database.pendingIn (db : Database) (k : VersionKey) (f : FeedName) : Option Bool :=
  (db.feedPackages.row (f, k)).map Membership.pending

/-- The stores hold the same of version `k`. -/
structure SameVersion (k : VersionKey) (db db' : Database) (s s' : Storage) : Prop where
  payload : s'.payload k = s.payload k
  package : db'.packages.row k = db.packages.row k
  files : db'.filesFor k = db.filesFor k
  pending : db'.pendingIn k = db.pendingIn k

/-- The calls that change what is held of version `k`. -/
def Call.touches : Call → VersionKey → Prop
  | .db (.addVersion p _ _), k | .db (.replaceVersion p _ _), k
  | .db (.replacePendingVersion p _ _ _ _), k => p.key = k
  | .db (.deletePackageData k'), k | .db (.addMembership _ k' _), k
  | .db (.removeMembership _ k'), k | .db (.removeMembershipForGood _ k'), k
  | .db (.approveMembership _ k'), k | .db (.addFile k' _), k
  | .db (.deleteFile k' _), k => k' = k
  | .db (.updateMemberships _ ks .approve), k => k ∈ ks
  | .db (.renameFeed _ _ _), _ => True
  | .storage (.storePackage k' _), k | .storage (.delete k'), k => k' = k
  | _, _ => False

theorem Call.changes_of_touches {c : Call} {k : VersionKey} (h : c.touches k) : c.changes k := by
  unfold Call.touches at h
  split at h
  all_goals first | exact h | exact h.elim

section Frame

variable {db : Database} {k : VersionKey}

theorem Database.pendingIn_of_map {db' : Database} (change : FeedName → Membership → Membership)
    (h : ∀ f, db'.feedPackages.row (f, k) = (db.feedPackages.row (f, k)).map (change f))
    (hchange : ∀ f m, (change f m).pending = m.pending) : db'.pendingIn k = db.pendingIn k := by
  funext f
  rw [pendingIn, pendingIn, h, Option.map_map]
  congr 1
  funext m
  exact hchange f m

theorem Database.SameMembers.pendingIn {db' : Database} (h : SameMembers db db') :
    db'.pendingIn k = db.pendingIn k := by
  funext f
  rcases h (f, k) with ⟨h₁, h₂⟩ | ⟨m, m', h₁, h₂, same⟩
  · rw [Database.pendingIn, Database.pendingIn, h₁, h₂]
  · rw [Database.pendingIn, Database.pendingIn, h₁, h₂, Option.map_some, Option.map_some,
      same.pending]

/-- A query leaves the memberships of a version it does not touch, but for what
an operator sets without its lock. -/
theorem DbCall.frame_members (db : Database) {q : DbCall} (h : ¬ (Call.db q).touches k) :
    ∃ change : FeedName → Membership → Membership,
      (∀ f m, (change f m).pending = m.pending ∧ (change f m).flagged = m.flagged) ∧
        ∀ f, (q.run db).2.feedPackages.row (f, k) =
          (db.feedPackages.row (f, k)).map (change f) := by
  have same (h : ∀ f, (q.run db).2.feedPackages.row (f, k) = db.feedPackages.row (f, k)) :
      ∃ change : FeedName → Membership → Membership,
        (∀ f m, (change f m).pending = m.pending ∧ (change f m).flagged = m.flagged) ∧
          ∀ f, (q.run db).2.feedPackages.row (f, k) =
            (db.feedPackages.row (f, k)).map (change f) :=
    ⟨fun _ => id, fun _ _ => ⟨rfl, rfl⟩, fun f => by simp [h]⟩
  have other {f g : FeedName} {k' : VersionKey} (hk : k' ≠ k) : (f, k) ≠ (g, k') :=
    fun heq => hk (congrArg Prod.snd heq).symm
  have update (change : Membership → Membership) (g : FeedName) (k' : VersionKey)
      (hrun : (q.run db).2 = (db.updateMembership g k' change).2)
      (hchange : ∀ m, (change m).pending = m.pending ∧ (change m).flagged = m.flagged) :
      ∃ change : FeedName → Membership → Membership,
        (∀ f m, (change f m).pending = m.pending ∧ (change f m).flagged = m.flagged) ∧
          ∀ f, (q.run db).2.feedPackages.row (f, k) =
            (db.feedPackages.row (f, k)).map (change f) := by
    refine ⟨fun f m => if (f, k) = (g, k') then change m else m, fun f m => ?_, fun f => ?_⟩
    · dsimp only
      split_ifs
      · exact hchange m
      · exact ⟨rfl, rfl⟩
    · rw [hrun, Database.row_updateMembership]
      by_cases hrow : (f, k) = (g, k')
      · simp only [if_pos hrow]
      · simp only [if_neg hrow, Option.map_id']
  cases q with
  | addVersion p f m =>
    have hk : p.key ≠ k := h
    refine same fun g => ?_
    rcases db.addVersion_cases f p m with ⟨e, he⟩ | ⟨_, db', he, -, -, hm, -⟩
    · simp [run, he]
    · simp only [run, he]
      rw [hm, if_neg (other hk)]
  | replaceVersion p f m =>
    have hk : p.key ≠ k := h
    refine same fun g => ?_
    simp only [run, Database.row_feedPackages_replaceRows]
    rw [if_neg (other hk)]
  | replacePendingVersion p f m dropFiles others =>
    have hk : p.key ≠ k := h
    refine same fun g => ?_
    simp only [run]
    exact db.row_replacePendingVersion_of_ne f p m dropFiles others hk.symm
  | deletePackageData k' =>
    have hk : k ≠ k' := Ne.symm h
    exact same fun g => by simp [run, Database.row_feedPackages_deletePackageData, hk]
  | addMembership f k' m =>
    have hk : k' ≠ k := h
    refine same fun g => ?_
    rcases db.insertMembership_cases f k' m with ⟨e, he⟩ | ⟨hp, he, -⟩
    · simp [run, he]
    · simp only [run, he]
      rw [Database.row_upsertMembership, if_neg (other hk)]
  | removeMembership f k' =>
    have hk : k' ≠ k := h
    refine same fun g => ?_
    simp only [run, Database.row_feedPackages_removeMembership]
    rw [if_neg (other hk)]
  | removeMembershipForGood f k' =>
    have hk : k' ≠ k := h
    refine same fun g => ?_
    simp only [run, Database.row_feedPackages_removeMembershipForGood]
    rw [if_neg (other hk)]
  | approveMembership f k' =>
    have hk : k' ≠ k := h
    refine same fun g => ?_
    simp only [run, Database.approveMembership, Database.row_updateMembership]
    rw [if_neg (other hk)]
  | updateMemberships f ks change =>
    rcases db.updateMemberships_cases f ks change with ⟨e, he⟩ | ⟨n, db', he, -, -, hm⟩
    · exact same fun g => by simp [run, he]
    cases change with
    | approve =>
      refine same fun g => ?_
      simp only [run, he]
      rw [hm, if_neg fun hin => h hin.2]
    | enabled on =>
      refine ⟨fun g m => if g = f ∧ k ∈ ks then { m with enabled := on } else m, fun g m => ?_,
        fun g => ?_⟩
      · dsimp only
        split_ifs <;> exact ⟨rfl, rfl⟩
      · simp only [run, he, hm]
        split_ifs
        · rfl
        · simp
    | pinned on =>
      refine ⟨fun g m => if g = f ∧ k ∈ ks then { m with pinned := on } else m, fun g m => ?_,
        fun g => ?_⟩
      · dsimp only
        split_ifs <;> exact ⟨rfl, rfl⟩
      · simp only [run, he, hm]
        split_ifs
        · rfl
        · simp
  | setListed f k' on =>
    exact update (fun m => { m with listed := on, listingSet := true }) f k' rfl fun _ => ⟨rfl, rfl⟩
  | setEnabled f k' on =>
    exact update (fun m => { m with enabled := on }) f k' rfl fun _ => ⟨rfl, rfl⟩
  | setPinned f k' on =>
    exact update (fun m => { m with pinned := on }) f k' rfl fun _ => ⟨rfl, rfl⟩
  | renameFeed src dst hold => exact (h trivial).elim
  | addFile k' file => exact same fun g => by simp [run]
  | addSymbol s k' => exact same fun g => by simp [run]
  | _ => exact same fun _ => rfl

/-- What a query leaves of a version it does not touch. -/
theorem DbCall.frame {q : DbCall} (h : ¬ (Call.db q).touches k) :
    (q.run db).2.packages.row k = db.packages.row k ∧
      (q.run db).2.filesFor k = db.filesFor k ∧
      (q.run db).2.pendingIn k = db.pendingIn k := by
  obtain ⟨change, hchange, hrows⟩ := DbCall.frame_members db h
  have hpending := Database.pendingIn_of_map change hrows fun f m => (hchange f m).1
  refine and_assoc.mp ⟨?_, hpending⟩
  clear hpending hrows
  cases q with
  | addVersion p f m =>
    have hk : p.key ≠ k := h
    rcases db.addVersion_cases f p m with ⟨e, he⟩ | ⟨_, db', he, -, hp, hm, hrest⟩
    · simp [run, he]
    · simp only [run, he]
      exact ⟨by rw [hp, if_neg hk.symm], by simp [Database.filesFor, hrest.packageFiles]⟩
  | replaceVersion p f m =>
    have hk : p.key ≠ k := h
    exact ⟨by simp [run, hk.symm], rfl⟩
  | replacePendingVersion p f m dropFiles others =>
    have hk : p.key ≠ k := h
    rcases db.replacePendingVersion_cases f p m dropFiles others with
      ⟨e, he⟩ | ⟨_, db', he, -, hp, hm, -, -, hfiles⟩
    · simp [run, he]
    · simp only [run, he]
      refine ⟨by simp [hp, hk.symm], ?_⟩
      cases dropFiles with
      | true => exact db.filesFor_of_filter_ne p.key hk.symm db' hfiles
      | false => simp only [Database.filesFor, hfiles]; rfl
  | deletePackageData k' =>
    have hk : k ≠ k' := Ne.symm h
    refine ⟨?_, db.filesFor_deletePackageData k' hk⟩
    simp [run, Database.row_packages_deletePackageData, hk]
  | addMembership f k' m =>
    rcases db.insertMembership_cases f k' m with ⟨e, he⟩ | ⟨hp, he, -⟩
    · simp [run, he]
    · simp only [run, he]
      exact ⟨rfl, rfl⟩
  | removeMembershipForGood f k' => exact ⟨by simp [run], by simp [run]⟩
  | updateMemberships f ks change =>
    rcases db.updateMemberships_cases f ks change with ⟨e, he⟩ | ⟨n, db', he, hp, hrest, hm⟩
    · simp [run, he]
    · simp only [run, he]
      exact ⟨by rw [hp], by simp [Database.filesFor, hrest.packageFiles]⟩
  | renameFeed src dst hold => exact (h trivial).elim
  | addFile k' file =>
    have hk : k ≠ k' := Ne.symm h
    rcases db.addFile_cases k' file with ⟨e, he⟩ | ⟨db', he, -, hp, -, -, -, -, hfiles⟩
    · simp [run, he]
    · simp only [run, he]
      exact ⟨by rw [hp], hfiles k hk⟩
  | deleteFile k' name =>
    have hk : k ≠ k' := Ne.symm h
    exact ⟨rfl, db.filesFor_deleteFile_of_ne k' name hk⟩
  | addSymbol s k' =>
    rcases db.addSymbol_cases k' s with
      ⟨e, he⟩ | ⟨-, he⟩ | ⟨db', he, -, -, hp, -, -, hfiles, -⟩
    · simp [run, he]
    · simp [run, he]
    · simp only [run, he]
      exact ⟨by rw [hp], by simp [Database.filesFor, hfiles]⟩
  | _ => exact ⟨rfl, rfl⟩

theorem StorageCall.frame {c : StorageCall} {s : Storage} (h : ¬ (Call.storage c).touches k) :
    (c.run s).2.payload k = s.payload k := by
  cases c with
  | storePackage k' file => exact Function.update_of_ne (Ne.symm h) ..
  | delete k' => exact Function.update_of_ne (Ne.symm h) ..
  | hardLink k' =>
    simp only [run]
    split <;> rfl
  | getAux k' kind =>
    simp only [run]
    split <;> rfl
  | storeBlob sha bytes =>
    simp only [run]
    split_ifs <;> rfl
  | _ => rfl

theorem Call.frame {T : Type} [DecidableEq T] {t : T} {c : Call} {o : Bool} {s s' : Store T}
    {r : c.Answer} (h : Store.exec t c o s = some (r, s')) (hc : ¬ c.touches k) :
    SameVersion k s.db s'.db s.storage s'.storage := by
  obtain ⟨hdb, hstorage⟩ := Store.exec_files h
  rw [hdb, hstorage]
  cases c with
  | db q =>
    cases o with
    | true => exact ⟨rfl, rfl, rfl, rfl⟩
    | false =>
      obtain ⟨hp, hf, hm⟩ := @DbCall.frame s.db k q hc
      exact ⟨rfl, hp, hf, hm⟩
  | storage c =>
    cases o with
    | true => exact ⟨rfl, rfl, rfl, rfl⟩
    | false => exact ⟨StorageCall.frame hc, rfl, rfl, rfl⟩
  | _ => exact ⟨rfl, rfl, rfl, rfl⟩

end Frame

/-- A version as the holder of its lock knows it: what is held of it, whether
the holder could not keep its payload aside, and whether it failed to look for
the payload. -/
@[ext] structure View (k : VersionKey) where
  payload : Option Content
  package : Option (PackageAt k)
  files : List PackageFile
  pending : FeedName → Option Bool
  backupMissed : Bool
  lookMissed : Bool
  package_of_member : ∀ {f : FeedName}, (pending f).isSome → package.isSome

section View

variable {T : Type} [DecidableEq T] {k : VersionKey}

/-- What task `t` saw last, where `see` says what an event shows. -/
def lastSeen (t : T) (see : (c : Call) → c.Answer → Bool → Option Bool)
    (past : List (StoreEvent T)) : Bool :=
  (past.findSome? fun e =>
    if e.thread = t then see e.call e.answer e.choice else none).getD false

/-- Whether a call shows that the payload could not be kept aside. A new turn
at the lock starts afresh. -/
def seesBackup (k : VersionKey) : (c : Call) → c.Answer → Bool → Option Bool
  | .lockVersion k', _, _ => if k' = k then some false else none
  | .storage (.getPackage k'), r, _ => if k' = k then some !r.isOk else none
  | .storage (.hardLink k'), r, _ => if k' = k then some !r.isOk else none
  | _, _, _ => none

def seesLook (k : VersionKey) : (c : Call) → c.Answer → Bool → Option Bool
  | .packageExists k', _, fails => if k' = k then some fails else none
  | _, _, _ => none

@[simp] theorem lastSeen_cons (t : T) (see : (c : Call) → c.Answer → Bool → Option Bool)
    (e : StoreEvent T) (past : List (StoreEvent T)) :
    lastSeen t see (e :: past) =
      if e.thread = t then (see e.call e.answer e.choice).getD (lastSeen t see past)
      else lastSeen t see past := by
  unfold lastSeen
  rw [List.findSome?_cons]
  split_ifs
  · cases see e.call e.answer e.choice <;> rfl
  · rfl

theorem Database.package_of_pendingIn {db : Database} {f : FeedName}
    (h : (db.pendingIn k f).isSome) : (db.getPackageData k).isSome := by
  rw [pendingIn, Option.isSome_map] at h
  rw [Option.isSome_iff_ne_none, Ne, getPackageData_eq_none, ← Ne, ← Option.isSome_iff_ne_none]
  exact db.package_of_member h

def View.withRows (v : View k) (db : Database) : View k :=
  { v with
    package := db.getPackageData k
    files := db.filesFor k
    pending := db.pendingIn k
    package_of_member := Database.package_of_pendingIn }

def view (t : T) (k : VersionKey) (w : StoreWorld T) : View k where
  payload := w.state.storage.payload k
  package := w.state.db.getPackageData k
  files := w.state.db.filesFor k
  pending := w.state.db.pendingIn k
  backupMissed := lastSeen t (seesBackup k) w.past
  lookMissed := lastSeen t (seesLook k) w.past
  package_of_member := Database.package_of_pendingIn

/-- The view shows no more of the call than what it does to the store. -/
def Call.silent (k : VersionKey) : Call → Prop
  | .lockVersion k' | .storage (.getPackage k') | .storage (.hardLink k')
  | .packageExists k' => k' ≠ k
  | _ => True

theorem Call.sees_of_silent {c : Call} (h : c.silent k) (r : c.Answer) (o : Bool) :
    seesBackup k c r o = none ∧ seesLook k c r o = none := by
  cases c with
  | storage c => cases c <;> simp_all [silent, seesBackup, seesLook]
  | _ => simp_all [silent, seesBackup, seesLook]

theorem lastSeen_of_silent {t u : T} {c : Call} {o : Bool} {w w' : StoreWorld T} {r : c.Answer}
    (h : (server T).perform u c o w = some (r, w')) (hs : u ≠ t ∨ c.silent k) :
    lastSeen t (seesBackup k) w'.past = lastSeen t (seesBackup k) w.past ∧
      lastSeen t (seesLook k) w'.past = lastSeen t (seesLook k) w.past := by
  rw [((server T).perform_eq_some.mp h).2, lastSeen_cons, lastSeen_cons]
  by_cases hu : u = t
  · obtain ⟨h₁, h₂⟩ := Call.sees_of_silent (hs.resolve_left (not_not_intro hu)) r o
    simp [hu, h₁, h₂]
  · simp [hu]

theorem getPackageData_congr {db db' : Database} (h : db'.packages.row k = db.packages.row k) :
    db'.getPackageData k = db.getPackageData k := by
  ext p
  rw [Database.getPackageData_eq_some, Database.getPackageData_eq_some, h]

/-- A call that touches the version neither in the store nor in what its task
has seen leaves the view as it is. -/
theorem view_frame {t u : T} {c : Call} {o : Bool} {w w' : StoreWorld T} {r : c.Answer}
    (h : (server T).perform u c o w = some (r, w')) (hc : ¬ c.touches k)
    (hs : u ≠ t ∨ c.silent k) : view t k w' = view t k w := by
  have same := Call.frame ((server T).perform_eq_some.mp h).1 hc
  obtain ⟨hbackup, hlook⟩ := lastSeen_of_silent h hs
  ext1
  · exact same.payload
  · exact getPackageData_congr same.package
  · exact same.files
  · exact same.pending
  · exact hbackup
  · exact hlook

/-- A query is answered from the rows the view shows, and changes only these. -/
theorem view_query {t : T} {q : DbCall} {o : Bool} {w w' : StoreWorld T} {r : (Call.db q).Answer}
    (h : (server T).perform t (.db q) o w = some (r, w')) :
    (r = .error .database ∧ view t k w' = view t k w) ∨
      ∃ db, view t k w = (view t k w).withRows db ∧ r = (q.run db).1 ∧
        view t k w' = (view t k w).withRows (q.run db).2 := by
  obtain ⟨hbackup, hlook⟩ : lastSeen t (seesBackup k) w'.past = lastSeen t (seesBackup k) w.past ∧
      lastSeen t (seesLook k) w'.past = lastSeen t (seesLook k) w.past :=
    lastSeen_of_silent h (Or.inr trivial)
  have hexec := ((server T).perform_eq_some.mp h).1
  cases o with
  | true =>
    obtain ⟨hr, hs⟩ : .error .database = r ∧ w.state = w'.state := by
      simpa [server, Store.exec] using hexec
    refine Or.inl ⟨hr.symm, ?_⟩
    ext1 <;> simp [view, ← hs, hbackup, hlook]
  | false =>
    obtain ⟨hr, hs⟩ : (q.run w.state.db).1 = r ∧
        { w.state with db := (q.run w.state.db).2 } = w'.state := by
      simpa [server, Store.exec] using hexec
    refine Or.inr ⟨w.state.db, rfl, hr.symm, ?_⟩
    ext1 <;> simp [view, View.withRows, ← hs, hbackup, hlook]

end View

end YaNuget
