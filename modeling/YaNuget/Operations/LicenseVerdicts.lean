import YaNuget.Operations.LockedSlices
import YaNuget.Operations.VersionView

/-!
# License verdicts

The row of a version is shared by all feeds that hold it, and each feed has a
policy of its own. Whatever puts a build in or replaces one has to judge it for
every holder; what only one holder's policy has seen must not reach another.
-/
namespace YaNuget

open Concurrency Op Fallible Policy

/-- What is recorded of a version: its package row, and the flag in each feed
that holds it. -/
@[ext] structure Verdicts where
  package : Option Package
  flagged : FeedName → Option Bool

def Database.verdicts (db : Database) (k : VersionKey) : Verdicts :=
  ⟨db.packages.row k, fun f => (db.feedPackages.row (f, k)).map Membership.flagged⟩

/-- The policy allows the package, and the flag says whether it found a violation. -/
def Judges (policy : LicensePolicyConfig) (p : Package) (flagged : Bool) : Prop :=
  (evaluateLicense policy p).allowed = true ∧
    flagged = (evaluateLicense policy p).violation.isSome

def Site.Builds (site : Site) (known : Content → Prop) (p : Package) : Prop :=
  ∃ bytes a readme icon now, known bytes ∧ site.readArchive bytes = .ok a ∧ a.readme = .ok readme ∧
    a.icon = .ok icon ∧ p = buildPackage site a bytes readme icon now

/-- Known bytes have different hashes if they differ. -/
def Site.Distinguishes (site : Site) (known : Content → Prop) : Prop :=
  ∀ b b', known b → known b' → site.sha512 b = site.sha512 b' → b = b'

/-- The configured feeds' policies have judged the row for each of its holders. -/
structure Verdicts.Sound (site : Site) (known : Content → Prop)
    (policies : FeedName → Option LicensePolicyConfig) (v : Verdicts) : Prop where
  built : ∀ p, v.package = some p → site.Builds known p
  judged : ∀ f policy flagged, policies f = some policy → v.flagged f = some flagged →
    ∃ p, v.package = some p ∧ Judges policy p flagged

theorem Site.Builds.evaluateLicense_eq {site : Site} {known : Content → Prop} {p q : Package}
    (hknown : site.Distinguishes known) (hp : site.Builds known p) (hq : site.Builds known q)
    (hash : p.packageHash = q.packageHash) (policy : LicensePolicyConfig) :
    evaluateLicense policy p = evaluateLicense policy q := by
  obtain ⟨b, a, readme, icon, now, hb, ha, -, -, rfl⟩ := hp
  obtain ⟨b', a', readme', icon', now', hb', ha', -, -, rfl⟩ := hq
  obtain rfl := hknown b b' hb hb' hash
  obtain rfl : a = a' := by simpa [ha] using ha'
  rfl

theorem accept_builds {site : Site} {known : Content → Prop} {bytes : Content}
    {options : IndexOptions} {incoming : Incoming site.sha512} (hknown : known bytes)
    (h : accept site bytes options = .ok incoming) : site.Builds known incoming.package := by
  obtain ⟨a, readme, icon, ha, hreadme, hicon, hp, -⟩ := accept_spec site h
  exact ⟨bytes, a, readme, icon, options.now, hknown, ha, hreadme, hicon, hp⟩

theorem accept_judges {site : Site} {bytes : Content} {options : IndexOptions}
    {incoming : Incoming site.sha512} (h : accept site bytes options = .ok incoming) :
    Judges options.licensePolicy incoming.package incoming.violation.isSome := by
  obtain ⟨a, readme, icon, -, -, -, -, hallowed, hviolation, -⟩ := accept_spec site h
  exact ⟨hallowed, by rw [hviolation]⟩

section Frame

variable {T : Type} [DecidableEq T] {k : VersionKey}

theorem verdicts_frame {db : Database} {q : DbCall} (h : ¬ (Call.db q).touches k) :
    (q.run db).2.verdicts k = db.verdicts k := by
  obtain ⟨change, hchange, hrows⟩ := DbCall.frame_members db h
  ext f
  · rw [Database.verdicts, (DbCall.frame h).1]
    rfl
  · simp only [Database.verdicts, hrows f, Option.map_map]
    cases db.feedPackages.row (f, k) with
    | none => rfl
    | some m => simp [(hchange f m).2]

/-- Only the holder of a version's lock changes what is recorded of it. -/
theorem guarded_verdicts : GuardedBy k fun s : Store T => s.db.verdicts k := by
  intro t c o s s' r h hc
  show s'.db.verdicts k = s.db.verdicts k
  rw [(Store.exec_files h).1]
  cases c with
  | db q =>
    cases o with
    | true => rfl
    | false => exact verdicts_frame fun hk => hc (Call.changes_of_touches hk)
  | _ => rfl

end Frame

section Steps

variable {T : Type} [DecidableEq T] {k : VersionKey} {v v' : Verdicts}

abbrev Records (T : Type) [DecidableEq T] (k : VersionKey) (v : Verdicts) (c : Call)
    (r : c.Answer) (v' : Verdicts) : Prop :=
  SliceStep (fun s : Store T => s.db.verdicts k) v c r v'

theorem Records.query {q : DbCall} {r : (Call.db q).Answer} (h : Records T k v (.db q) r v') :
    (∃ e, r = .error e ∧ v' = v) ∨
      ∃ db, v = db.verdicts k ∧ r = (q.run db).1 ∧ v' = (q.run db).2.verdicts k := by
  obtain ⟨t, o, s, s', rfl, rfl, hexec⟩ := h
  rcases Store.exec_query hexec with ⟨hr, rfl⟩ | ⟨hr, rfl⟩
  · exact Or.inl ⟨_, hr, rfl⟩
  · exact Or.inr ⟨s.db, rfl, hr, rfl⟩

theorem Records.untouched {c : Call} {r : c.Answer} (h : Records T k v c r v')
    (hc : ¬ c.touches k ∨ ∀ q, c ≠ .db q) : v' = v := by
  obtain ⟨t, o, s, s', rfl, rfl, hexec⟩ := h
  show s'.db.verdicts k = s.db.verdicts k
  rw [(Store.exec_files hexec).1]
  cases c with
  | db q =>
    cases o with
    | true => rfl
    | false => exact verdicts_frame (hc.resolve_right fun h => h q rfl)
  | _ => rfl

theorem Records.upkeep {c : Call} {r : c.Answer} (h : Records T k v c r v') (hc : c.upkeep k) :
    v' = v := by
  refine h.untouched ?_
  cases c with
  | db q => cases q <;> simp_all [Call.upkeep, Call.touches, DbCall.reads]
  | _ => simp

/-- Nobody new holds the version, and its row is as it was or gone. -/
structure Verdicts.Withdraws (v v' : Verdicts) : Prop where
  package : ∀ p, v'.package = some p → v.package = some p
  flagged : ∀ f b, v'.flagged f = some b → v.flagged f = some b ∧ v'.package = v.package

theorem Verdicts.Sound.withdraws {site : Site} {known : Content → Prop}
    {policies : FeedName → Option LicensePolicyConfig} (hv : v.Sound site known policies)
    (h : v.Withdraws v') : v'.Sound site known policies := by
  refine ⟨fun p hp => hv.built p (h.package p hp), fun f policy b hf hb => ?_⟩
  obtain ⟨hb', hp⟩ := h.flagged f b hb
  rw [hp]
  exact hv.judged f policy b hf hb'

/-- A call that takes the version from a feed, or what is stored of it. -/
def Call.withdraws (k : VersionKey) : Call → Prop
  | .db (.removeMembership _ k') | .db (.removeMembershipForGood _ k')
  | .db (.getMembership _ k') => k' = k
  | c => c.purges k

theorem Call.withdraws_of_purges {c : Call} (h : c.purges k) : c.withdraws k := by
  unfold Call.withdraws
  split
  · exact h.elim
  · exact h.elim
  · exact h.elim
  · exact h

theorem Verdicts.withdraws_of_rows {db db' : Database} (hp : db'.packages = db.packages)
    (hm : ∀ f m, db'.feedPackages.row (f, k) = some m →
      ∃ n, db.feedPackages.row (f, k) = some n ∧ n.flagged = m.flagged) :
    (db.verdicts k).Withdraws (db'.verdicts k) := by
  refine ⟨fun p h => by simpa [Database.verdicts, hp] using h, fun f b hb => ?_⟩
  obtain ⟨m, hm', rfl⟩ := Option.map_eq_some_iff.mp hb
  obtain ⟨n, hn, hflag⟩ := hm f m hm'
  exact ⟨by simp [Database.verdicts, hn, hflag], by simp [Database.verdicts, hp]⟩

theorem Verdicts.Withdraws.refl (v : Verdicts) : v.Withdraws v :=
  ⟨fun _ h => h, fun _ _ h => ⟨h, rfl⟩⟩

theorem Records.withdraws {c : Call} {r : c.Answer} (h : Records T k v c r v')
    (hc : c.withdraws k) : v.Withdraws v' := by
  unfold Call.withdraws at hc
  split at hc
  · rename_i f k'
    subst hc
    rcases h.query with ⟨e, -, rfl⟩ | ⟨db, rfl, -, rfl⟩
    · exact .refl _
    refine Verdicts.withdraws_of_rows rfl fun g m hm => ?_
    simp only [DbCall.run, Database.row_feedPackages_removeMembership] at hm
    split_ifs at hm
    exact ⟨m, hm, rfl⟩
  · rename_i f k'
    subst hc
    rcases h.query with ⟨e, -, rfl⟩ | ⟨db, rfl, -, rfl⟩
    · exact .refl _
    refine Verdicts.withdraws_of_rows (by simp [DbCall.run]) fun g m hm => ?_
    simp only [DbCall.run, Database.row_feedPackages_removeMembershipForGood] at hm
    split_ifs at hm
    exact ⟨m, hm, rfl⟩
  · rw [h.untouched (Or.inl id)]
    exact .refl _
  · unfold Call.purges at hc
    split at hc
    · subst hc
      rcases h.query with ⟨e, -, rfl⟩ | ⟨db, rfl, -, rfl⟩
      · exact .refl _
      · refine ⟨fun p hp => ?_, fun f b hb => ?_⟩
        · simp [Database.verdicts, DbCall.run, Database.row_packages_deletePackageData] at hp
        · simp [Database.verdicts, DbCall.run, Database.row_feedPackages_deletePackageData] at hb
    · rw [h.upkeep hc]
      exact .refl _

/-- Approving sets no flag. -/
theorem Records.approves {ks : List VersionKey} {c : Call} {r : c.Answer}
    (h : Records T k v c r v') (hc : c.approves ks) : v.Withdraws v' := by
  cases c with
  | db q =>
    rcases h.query with ⟨e, -, rfl⟩ | ⟨db, rfl, -, rfl⟩
    · exact .refl _
    cases q with
    | approveMembership f k' =>
      refine Verdicts.withdraws_of_rows rfl fun g m hm => ?_
      simp only [DbCall.run, Database.approveMembership, Database.row_updateMembership] at hm
      split_ifs at hm
      · obtain ⟨n, hn, rfl⟩ := Option.map_eq_some_iff.mp hm
        exact ⟨n, hn, rfl⟩
      · exact ⟨m, hm, rfl⟩
    | updateMemberships f ks' change =>
      obtain ⟨rfl, -⟩ := hc
      rcases db.updateMemberships_cases f ks' .approve with ⟨e, he⟩ | ⟨n, db', he, hp, -, hm⟩
      · simp only [DbCall.run, he]
        exact .refl _
      · simp only [DbCall.run, he]
        refine Verdicts.withdraws_of_rows hp fun g m hm' => ?_
        rw [hm] at hm'
        split_ifs at hm'
        · obtain ⟨n, hn, rfl⟩ := Option.map_eq_some_iff.mp hm'
          exact ⟨n, hn, rfl⟩
        · exact ⟨m, hm', rfl⟩
    | _ => first | exact hc.elim | exact .refl _
  | _ => exact hc.elim

theorem Records.getPackageData {r : (Call.db (.getPackageData k)).Answer}
    (h : Records T k v (.db (.getPackageData k)) r v') :
    v' = v ∧ ((∃ e, r = .error e) ∨ ∃ p, r = .ok p ∧ v.package = p.map Subtype.val) := by
  refine ⟨h.untouched (Or.inl id), ?_⟩
  rcases h.query with ⟨e, rfl, -⟩ | ⟨db, rfl, rfl, -⟩
  · exact Or.inl ⟨e, rfl⟩
  · refine Or.inr ⟨_, rfl, ?_⟩
    cases hp : db.getPackageData k with
    | none => exact (db.getPackageData_eq_none k).mp hp
    | some p => exact (db.getPackageData_eq_some k p).mp hp

theorem Records.getMembership {f : FeedName} {r : (Call.db (.getMembership f k)).Answer}
    (h : Records T k v (.db (.getMembership f k)) r v') :
    v' = v ∧ ((∃ e, r = .error e) ∨ ∃ m, r = .ok m ∧ v.flagged f = m.map Membership.flagged) := by
  refine ⟨h.untouched (Or.inl id), ?_⟩
  rcases h.query with ⟨e, rfl, -⟩ | ⟨db, rfl, rfl, -⟩
  · exact Or.inl ⟨e, rfl⟩
  · exact Or.inr ⟨_, rfl, rfl⟩

theorem Records.feedCount {r : (Call.db (.feedCount k)).Answer}
    (h : Records T k v (.db (.feedCount k)) r v') :
    v' = v ∧ ((∃ e, r = .error e) ∨ ∃ n : ℕ, r = .ok n ∧
      (n ≤ 1 → ∀ f g, (v.flagged f).isSome → (v.flagged g).isSome → f = g)) := by
  refine ⟨h.untouched (Or.inl id), ?_⟩
  rcases h.query with ⟨e, rfl, -⟩ | ⟨db, rfl, rfl, -⟩
  · exact Or.inl ⟨e, rfl⟩
  · refine Or.inr ⟨_, rfl, fun hn f g hf hg => ?_⟩
    obtain ⟨m, hm⟩ := Option.isSome_iff_exists.mp (by simpa [Database.verdicts] using hf)
    obtain ⟨n, hn'⟩ := Option.isSome_iff_exists.mp (by simpa [Database.verdicts] using hg)
    exact db.eq_of_feedCount_le_one k hn hm hn'

/-- The row is `p`, and the feed `f` holds it under a flag. -/
def Verdicts.write (v : Verdicts) (p : Package) (f : FeedName) (flagged : Bool) : Verdicts :=
  ⟨some p, Function.update v.flagged f (some flagged)⟩

theorem Database.verdicts_write {db db' : Database} {p : Package} {f : FeedName} {m : Membership}
    (hp : db'.packages.row k = some p)
    (hm : ∀ g, db'.feedPackages.row (g, k) =
      if (g, k) = (f, k) then some m else db.feedPackages.row (g, k)) :
    db'.verdicts k = (db.verdicts k).write p f m.flagged := by
  ext g
  · simp [verdicts, hp, Verdicts.write]
  · by_cases hg : g = f
    · subst hg
      simp [verdicts, hm, Verdicts.write]
    · simp [verdicts, hm, Verdicts.write, hg]

theorem Records.addVersion {p : Package} (hk : p.key = k) {f : FeedName} {m : Membership}
    {r : (Call.db (.addVersion p f m)).Answer}
    (h : Records T k v (.db (.addVersion p f m)) r v') :
    v' = v ∧ (∃ e, r = .error e) ∨
      (∃ inserted, r = .ok inserted) ∧ v' = v.write (v.package.getD p) f m.flagged := by
  subst hk
  rcases h.query with ⟨e, rfl, rfl⟩ | ⟨db, rfl, rfl, rfl⟩
  · exact Or.inl ⟨rfl, e, rfl⟩
  · rcases db.addVersion_cases f p m with ⟨e, he⟩ | ⟨inserted, db', he, -, hp, hm, -⟩
    · exact Or.inl ⟨by simp [DbCall.run, he], e, by simp [DbCall.run, he]⟩
    · refine Or.inr ⟨⟨inserted, by simp [DbCall.run, he]⟩, ?_⟩
      simp only [DbCall.run, he]
      exact Database.verdicts_write ((hp p.key).trans (if_pos rfl)) fun g => hm (g, p.key)

theorem Records.addMembership {f : FeedName} {m : Membership}
    {r : (Call.db (.addMembership f k m)).Answer}
    (h : Records T k v (.db (.addMembership f k m)) r v') :
    v' = v ∨ ∃ p, v.package = some p ∧ v' = v.write p f m.flagged := by
  rcases h.query with ⟨e, rfl, rfl⟩ | ⟨db, rfl, rfl, rfl⟩
  · exact Or.inl rfl
  · rcases db.insertMembership_cases f k m with ⟨e, he⟩ | ⟨hstored, he, -⟩
    · exact Or.inl (by simp [DbCall.run, he])
    · obtain ⟨p, hp⟩ := Option.isSome_iff_exists.mp hstored
      refine Or.inr ⟨p, hp, ?_⟩
      simp only [DbCall.run, he]
      exact Database.verdicts_write hp fun g => Database.row_upsertMembership ..

/-- What a swap of the rows records for another feed that holds the version. -/
def Swap.verdict : Swap → FeedName → Option PolicyOutcome
  | .any, _ => none
  | .pendingOnly _ others, g => (others.find? fun o => o.1 = g).map Prod.snd

/-- The flags after a swap that goes through. -/
def Verdicts.swapped (v : Verdicts) (swap : Swap) (p : Package) (f : FeedName) (flagged : Bool) :
    Verdicts :=
  ⟨some p, fun g => if g = f then some flagged
    else (v.flagged g).map fun b => ((swap.verdict g).map fun o => o.violation.isSome).getD b⟩

theorem Records.replaceVersion {p : Package} (hk : p.key = k) {f : FeedName} {m : Membership}
    {r : (Call.db (.replaceVersion p f m)).Answer}
    (h : Records T k v (.db (.replaceVersion p f m)) r v') :
    v' = v ∧ (∃ e, r = .error e) ∨ r = .ok () ∧ v' = v.swapped .any p f m.flagged := by
  subst hk
  rcases h.query with ⟨e, rfl, rfl⟩ | ⟨db, rfl, rfl, rfl⟩
  · exact Or.inl ⟨rfl, e, rfl⟩
  · refine Or.inr ⟨rfl, ?_⟩
    simp only [DbCall.run]
    ext g
    · simp [Database.verdicts, Verdicts.swapped]
    · by_cases hg : g = f
      · subst hg
        simp [Database.verdicts, Verdicts.swapped]
      · simp [Database.verdicts, Verdicts.swapped, hg, Swap.verdict]

theorem Records.replacePendingVersion {p : Package} (hk : p.key = k) {f : FeedName}
    {m : Membership} {dropFiles : Bool} {others : List (FeedName × PolicyOutcome)}
    {r : (Call.db (.replacePendingVersion p f m dropFiles others)).Answer}
    (h : Records T k v (.db (.replacePendingVersion p f m dropFiles others)) r v') :
    v' = v ∧ (∃ e, r = .error e) ∨
      (∃ dropped, r = .ok dropped) ∧ v' = v.swapped (.pendingOnly dropFiles others) p f m.flagged ∧
        ∀ g, g ≠ f → (v.flagged g).isSome → ∀ o,
          (Swap.pendingOnly dropFiles others).verdict g = some o → o.allowed = true := by
  subst hk
  rcases h.query with ⟨e, rfl, rfl⟩ | ⟨db, rfl, rfl, rfl⟩
  · exact Or.inl ⟨rfl, e, rfl⟩
  rcases db.replacePendingVersion_cases f p m dropFiles others with
    ⟨e, he⟩ | ⟨dropped, db', he, -, hp, -⟩
  · exact Or.inl ⟨by simp [DbCall.run, he], e, by simp [DbCall.run, he]⟩
  obtain ⟨hallowed, hrows⟩ := db.replacePendingVersion_ok f p m he
  have hfind (g : FeedName) := db.find?_holderVerdicts f p others g
  refine Or.inr ⟨⟨dropped, by simp [DbCall.run, he]⟩, ?_, fun g hg hheld o ho => ?_⟩
  · simp only [DbCall.run, he]
    ext g
    · simp [Database.verdicts, Verdicts.swapped, hp]
    · simp only [Database.verdicts, Verdicts.swapped, hrows, Database.row_feedPackages_replaceRows]
      by_cases hg : g = f
      · subst hg
        simp only [if_true, Option.map_some, Database.flagged_judged, hfind]
        simp
      · rw [if_neg fun heq => hg (congrArg Prod.fst heq), if_neg hg]
        cases hrow : db.feedPackages.row (g, p.key) with
        | none => rfl
        | some n =>
          simp only [Option.map_some, Database.flagged_judged, hfind, hrow, Swap.verdict]
          simp [Function.comp_def, hg]
  · obtain ⟨entry, hentry, rfl⟩ := Option.map_eq_some_iff.mp ho
    have hheld' : (db.feedPackages.row (g, p.key)).isSome := by
      simpa [Database.verdicts] using hheld
    have hfound := (hfind g).trans (by rw [if_pos ⟨hg, hheld'⟩, hentry])
    exact hallowed entry (List.mem_of_find?_eq_some hfound)

end Steps

end YaNuget
