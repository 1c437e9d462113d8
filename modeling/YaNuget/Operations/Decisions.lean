import YaNuget.Operations.VersionView

/-!
# What an operator decides

A membership records decisions that only an admin operation is meant to take:
whether the version is listed, enabled and pinned. Admin operations take no
lock to change them, so a decision can land between any two steps of another
operation.
-/
namespace YaNuget

open Concurrency

/-- What an operator has decided about a version in a feed. -/
structure Decisions where
  listed : Bool
  listingSet : Bool
  enabled : Bool
  pinned : Bool
  deriving DecidableEq, Repr

def Membership.decisions (m : Membership) : Decisions := ⟨m.listed, m.listingSet, m.enabled, m.pinned⟩

/-- A decision about many versions at once. -/
def MembershipChange.decide : MembershipChange → Decisions → Decisions
  | .enabled on, d => { d with enabled := on }
  | .pinned on, d => { d with pinned := on }
  | .approve, d => d

theorem MembershipChange.decisions_apply (change : MembershipChange) (m : Membership) :
    (change.apply m).decisions = change.decide m.decisions := by
  cases change <;> rfl

def Call.decide (f : FeedName) (k : VersionKey) : (c : Call) → c.Answer → Decisions → Decisions
  | .db (.setListed f' k' on), .ok _, d =>
    if (f', k') = (f, k) then { d with listed := on, listingSet := true } else d
  | .db (.setEnabled f' k' on), .ok _, d =>
    if (f', k') = (f, k) then { d with enabled := on } else d
  | .db (.setPinned f' k' on), .ok _, d => if (f', k') = (f, k) then { d with pinned := on } else d
  | .db (.updateMemberships f' ks change), .ok _, d =>
    if f' = f ∧ k ∈ ks then change.decide d else d
  | _, _, d => d

/-- The decisions after the events `past`, the newest of which comes first. -/
def decided {T : Type} (f : FeedName) (k : VersionKey) (original : Decisions)
    (past : List (StoreEvent T)) : Decisions :=
  past.foldr (fun e d => e.call.decide f k e.answer d) original

theorem decided_cons {T : Type} (f : FeedName) (k : VersionKey) (original : Decisions)
    (e : StoreEvent T) (past : List (StoreEvent T)) :
    decided f k original (e :: past) = e.call.decide f k e.answer (decided f k original past) := rfl

def Call.clobbers (f : FeedName) (k : VersionKey) : Call → Prop
  | .db (.replaceVersion p f' _) | .db (.replacePendingVersion p f' _ _ _) => f' = f ∧ p.key = k
  | .db (.removeMembership f' k') | .db (.removeMembershipForGood f' k') => f' = f ∧ k' = k
  | .db (.deletePackageData k') => k' = k
  | .db (.renameFeed _ _ _) => True
  | _ => False

theorem Call.changes_of_clobbers {f : FeedName} {k : VersionKey} {c : Call} (h : c.clobbers f k) :
    c.changes k := by
  unfold Call.clobbers at h
  split at h
  all_goals first | exact h | exact h.2 | exact h.elim

section Frame

variable {db : Database} {f : FeedName} {k : VersionKey} {m : Membership}

/-- A query that does not replace the membership applies its decision to it. -/
theorem Database.decisions_run (hm : db.feedPackages.row (f, k) = some m) {q : DbCall}
    (hq : ¬ (Call.db q).clobbers f k) :
    ∃ m', (q.run db).2.feedPackages.row (f, k) = some m' ∧
      m'.decisions = (Call.db q).decide f k (q.run db).1 m.decisions := by
  cases q with
  | addVersion p f' m' =>
    rcases db.addVersion_cases f' p m' with ⟨e, he⟩ | ⟨_, db', he, hnone, -, hrow, -⟩
    · exact ⟨m, by simp [DbCall.run, he, hm], by simp [Call.decide]⟩
    · refine ⟨m, ?_, by simp [Call.decide]⟩
      have hne : (f, k) ≠ (f', p.key) := by
        rintro heq
        rw [← heq, hm] at hnone
        simp at hnone
      simp only [DbCall.run, he]
      rw [hrow, if_neg hne, hm]
  | addMembership f' k' m' =>
    rcases db.insertMembership_cases f' k' m' with ⟨e, he⟩ | ⟨hp, he, hnone⟩
    · exact ⟨m, by simp [DbCall.run, he, hm], by simp [Call.decide]⟩
    · refine ⟨m, ?_, by simp [Call.decide]⟩
      have hne : (f, k) ≠ (f', k') := by
        rintro heq
        rw [← heq, hm] at hnone
        simp at hnone
      simp only [DbCall.run, he]
      rw [Database.row_upsertMembership, if_neg hne, hm]
  | replaceVersion p f' m' =>
    refine ⟨m, ?_, rfl⟩
    have hne : (f, k) ≠ (f', p.key) := by
      rintro heq
      cases heq
      exact hq ⟨rfl, rfl⟩
    simp only [DbCall.run, Database.row_feedPackages_replaceRows]
    rw [if_neg hne, hm]
  | replacePendingVersion p f' m' dropFiles others =>
    have hne : (f, k) ≠ (f', p.key) := by
      rintro heq
      cases heq
      exact hq ⟨rfl, rfl⟩
    rcases db.replacePendingVersion_cases f' p m' dropFiles others with
      ⟨e, he⟩ | ⟨_, db', he, -, -, same, -⟩
    · exact ⟨m, by simp [DbCall.run, he, hm], by simp [Call.decide]⟩
    · rcases same (f, k) with ⟨hnone, -⟩ | ⟨m₁, m₂, hm₁, hm₂, same⟩
      · simp [hne, hm] at hnone
      · obtain rfl : m = m₁ := by simpa [hne, hm] using hm₁
        refine ⟨m₂, by simp [DbCall.run, he, hm₂], ?_⟩
        simp [Call.decide, Membership.decisions, same.listed, same.listingSet, same.enabled,
          same.pinned]
  | deletePackageData k' =>
    refine ⟨m, ?_, rfl⟩
    simp only [DbCall.run, Database.row_feedPackages_deletePackageData]
    rw [if_neg fun heq => hq heq.symm, hm]
  | removeMembership f' k' =>
    refine ⟨m, ?_, rfl⟩
    simp only [DbCall.run, Database.row_feedPackages_removeMembership]
    rw [if_neg fun heq => hq ⟨(congrArg Prod.fst heq).symm, (congrArg Prod.snd heq).symm⟩, hm]
  | removeMembershipForGood f' k' =>
    refine ⟨m, ?_, rfl⟩
    simp only [DbCall.run, Database.row_feedPackages_removeMembershipForGood]
    rw [if_neg fun heq => hq ⟨(congrArg Prod.fst heq).symm, (congrArg Prod.snd heq).symm⟩, hm]
  | approveMembership f' k' =>
    simp only [DbCall.run, Database.approveMembership, Database.row_updateMembership, Call.decide]
    split_ifs
    · exact ⟨{ m with pending := false }, by simp [hm], rfl⟩
    · exact ⟨m, hm, rfl⟩
  | setListed f' k' on =>
    simp only [DbCall.run, Database.setListed, Database.row_updateMembership, Call.decide]
    by_cases heq : (f, k) = (f', k')
    · exact ⟨{ m with listed := on, listingSet := true }, by simp [heq.symm, hm],
        by simp [heq.symm, Membership.decisions]⟩
    · exact ⟨m, by simp [heq, hm], by rw [if_neg (Ne.symm heq)]⟩
  | setEnabled f' k' on =>
    simp only [DbCall.run, Database.setEnabled, Database.row_updateMembership, Call.decide]
    by_cases heq : (f, k) = (f', k')
    · exact ⟨{ m with enabled := on }, by simp [heq.symm, hm],
        by simp [heq.symm, Membership.decisions]⟩
    · exact ⟨m, by simp [heq, hm], by rw [if_neg (Ne.symm heq)]⟩
  | setPinned f' k' on =>
    simp only [DbCall.run, Database.setPinned, Database.row_updateMembership, Call.decide]
    by_cases heq : (f, k) = (f', k')
    · exact ⟨{ m with pinned := on }, by simp [heq.symm, hm],
        by simp [heq.symm, Membership.decisions]⟩
    · exact ⟨m, by simp [heq, hm], by rw [if_neg (Ne.symm heq)]⟩
  | updateMemberships f' ks change =>
    rcases db.updateMemberships_cases f' ks change with ⟨e, he⟩ | ⟨n, db', he, -, -, hrow⟩
    · exact ⟨m, by simp [DbCall.run, he, hm], by simp [DbCall.run, he, Call.decide]⟩
    · simp only [DbCall.run, he, Call.decide]
      by_cases hin : f' = f ∧ k ∈ ks
      · refine ⟨change.apply m, ?_, by rw [if_pos hin, MembershipChange.decisions_apply]⟩
        rw [hrow, if_pos ⟨hin.1.symm, hin.2⟩, hm, Option.map_some]
      · refine ⟨m, ?_, by rw [if_neg hin]⟩
        rw [hrow, if_neg fun h => hin ⟨h.1.symm, h.2⟩, hm]
  | renameFeed src dst hold => exact (hq trivial).elim
  | addFile k' file => exact ⟨m, by simp [DbCall.run, hm], rfl⟩
  | addSymbol s k' => exact ⟨m, by simp [DbCall.run, hm], rfl⟩
  | _ => exact ⟨m, hm, rfl⟩

end Frame

section Read

variable {T : Type} [DecidableEq T]

def Call.showsMember (f : FeedName) (k : VersionKey) : (c : Call) → c.Answer → Option Membership
  | .db (.getMembership f' k'), .ok m => if (f', k') = (f, k) then m else none
  | _, _ => none

def lastRead (t : T) (f : FeedName) (k : VersionKey) (past : List (StoreEvent T)) :
    Option Membership :=
  past.findSome? fun e => if e.thread = t then e.call.showsMember f k e.answer else none

theorem lastRead_cons (t : T) (f : FeedName) (k : VersionKey) (e : StoreEvent T)
    (past : List (StoreEvent T)) : lastRead t f k (e :: past) =
      if e.thread = t then (e.call.showsMember f k e.answer).or (lastRead t f k past)
      else lastRead t f k past := by
  unfold lastRead
  rw [List.findSome?_cons]
  split_ifs
  · cases e.call.showsMember f k e.answer <;> rfl
  · rfl

end Read

section Perform

variable {T : Type} [DecidableEq T] {t : T} {o : Bool} {w w' : StoreWorld T}
variable {f : FeedName} {k : VersionKey}

theorem perform_query {q : DbCall} {r : (Call.db q).Answer}
    (h : (server T).perform t (.db q) o w = some (r, w')) :
    (r = .error .database ∧ w'.state = w.state) ∨
      (r = (q.run w.state.db).1 ∧ w'.state = { w.state with db := (q.run w.state.db).2 }) :=
  Store.exec_query (t := t) ((server T).perform_eq_some.mp h).1

theorem lastRead_of_other {u : T} {c : Call} {r : c.Answer}
    (h : (server T).perform u c o w = some (r, w')) (hu : u ≠ t) :
    lastRead t f k w'.past = lastRead t f k w.past := by
  rw [((server T).perform_eq_some.mp h).2, lastRead_cons, if_neg hu]

theorem decisions_of_perform {c : Call} {r : c.Answer} {m : Membership}
    (h : (server T).perform t c o w = some (r, w'))
    (hc : ¬ c.clobbers f k) (hm : w.state.db.feedPackages.row (f, k) = some m) :
    ∃ m', w'.state.db.feedPackages.row (f, k) = some m' ∧
      m'.decisions = c.decide f k r m.decisions := by
  have hdb := (Store.exec_files ((server T).perform_eq_some.mp h).1).1
  cases c with
  | db q =>
    rcases perform_query h with ⟨rfl, hs⟩ | ⟨rfl, hs⟩
    · refine ⟨m, by rw [hs, hm], ?_⟩
      cases q <;> rfl
    · obtain ⟨m', hm', hdecisions⟩ := Database.decisions_run hm hc
      exact ⟨m', by rw [hs]; exact hm', hdecisions⟩
  | _ => exact ⟨m, by rw [hdb]; exact hm, rfl⟩

end Perform

end YaNuget
