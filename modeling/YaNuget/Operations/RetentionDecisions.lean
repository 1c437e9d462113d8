import YaNuget.Operations.OverwriteDecisions

/-!
# Retention and the decisions of operators

Retention looks again at a version under its lock before it removes it. The
lock keeps pushes and approvals away until then, but not the admin operations
that disable or pin a version.
-/
namespace YaNuget

open Concurrency Op Fallible Protocol

/-- The operation removes versions that an earlier plan has chosen. -/
def Operation.plans : Operation → Prop
  | .push _ _ _ _ | .retention _ _ => True
  | _ => False

section Congr

theorem Call.decide_congr {f : FeedName} {k : VersionKey} {c : Call} {r : c.Answer}
    {d d' : Decisions} (h : d.enabled = d'.enabled ∧ d.pinned = d'.pinned) :
    (c.decide f k r d).enabled = (c.decide f k r d').enabled ∧
      (c.decide f k r d).pinned = (c.decide f k r d').pinned := by
  unfold Call.decide
  split
  · split_ifs <;> exact h
  · split_ifs
    · exact ⟨rfl, h.2⟩
    · exact h
  · split_ifs
    · exact ⟨h.1, rfl⟩
    · exact h
  · next change _ =>
    split_ifs
    · cases change <;> simp [MembershipChange.decide, h]
    · exact h
  · exact h

theorem decided_congr {T : Type} {f : FeedName} {k : VersionKey} {d d' : Decisions}
    (h : d.enabled = d'.enabled ∧ d.pinned = d'.pinned) (past : List (StoreEvent T)) :
    (decided f k d past).enabled = (decided f k d' past).enabled ∧
      (decided f k d past).pinned = (decided f k d' past).pinned := by
  induction past with
  | nil => exact h
  | cons e past ih => exact Call.decide_congr ih

end Congr

section Checked

variable {T : Type} [DecidableEq T]

/-- The events since task `t` last looked at the membership. -/
def sinceCheck (t : T) (f : FeedName) (k : VersionKey) (past : List (StoreEvent T)) :
    List (StoreEvent T) :=
  past.takeWhile fun e => !(e.thread = t && e.call = .db (.getMembership f k))

/-- After task `t` looked at the membership of a version it took for servable
and not pinned, an operator has disabled or pinned it. -/
def Withheld (t : T) (f : FeedName) (k : VersionKey) (past : List (StoreEvent T)) : Prop :=
  let d := decided f k Membership.active.decisions (sinceCheck t f k past)
  d.enabled = false ∨ d.pinned = true

/-- Task `t` found the version servable and not pinned, and only an operator's
decisions have changed its membership since. -/
def Checked (t : T) (f : FeedName) (k : VersionKey) (w : StoreWorld T) : Prop :=
  ∃ m d, w.state.db.feedPackages.row (f, k) = some m ∧ m.pending = false ∧
    d.enabled = true ∧ d.pinned = false ∧ m.decisions = decided f k d (sinceCheck t f k w.past)

theorem Checked.iff_not_withheld {t : T} {f : FeedName} {k : VersionKey} {w : StoreWorld T}
    (h : Checked t f k w) : ∃ m, w.state.db.feedPackages.row (f, k) = some m ∧
      ((m.enabled = true ∧ m.pending = false ∧ m.pinned = false) ↔ ¬ Withheld t f k w.past) := by
  obtain ⟨m, d, hm, hpending, henabled, hpinned, hdecisions⟩ := h
  have same : d.enabled = Membership.active.decisions.enabled ∧
      d.pinned = Membership.active.decisions.pinned := ⟨henabled, hpinned⟩
  obtain ⟨henabled', hpinned'⟩ := decided_congr (f := f) (k := k) same (sinceCheck t f k w.past)
  rw [← hdecisions] at henabled' hpinned'
  refine ⟨m, hm, ?_⟩
  simp only [Withheld, hpending, true_and]
  rw [← henabled', ← hpinned']
  simp [Membership.decisions]

variable {t u : T} {o : Bool} {w w' : StoreWorld T} {c : Call} {r : c.Answer}
variable {f : FeedName} {k : VersionKey}

/-- A step of another task that leaves what the version's lock guards alone. -/
theorem Checked.other (h : Checked t f k w) (hp : (server T).perform u c o w = some (r, w'))
    (hu : u ≠ t) (hc : ¬ c.changes k) : Checked t f k w' := by
  obtain ⟨m, d, hm, hpending, henabled, hpinned, hdecisions⟩ := h
  obtain ⟨m', hm', hdecisions'⟩ :=
    decisions_of_perform hp (fun h => hc (Call.changes_of_clobbers h)) hm
  refine ⟨m', d, hm', ?_, henabled, hpinned, ?_⟩
  · have same := (Call.frame ((server T).perform_eq_some.mp hp).1
      fun h => hc (Call.changes_of_touches h)).pending
    have := congrFun same f
    simpa [Database.pendingIn, hm, hm', hpending] using this
  · have hsince : sinceCheck t f k w'.past = ⟨u, c, o, r⟩ :: sinceCheck t f k w.past := by
      simp [sinceCheck, ((server T).perform_eq_some.mp hp).2, hu]
    rw [hsince, decided_cons, hdecisions', hdecisions]

theorem Checked.look {m : Membership} {r : (Call.db (.getMembership f k)).Answer}
    (hp : (server T).perform t (.db (.getMembership f k)) o w = some (r, w'))
    (hr : r = .ok (some m)) (hm : (m.pinned || m.pending || !m.enabled) = false) :
    Checked t f k w' := by
  simp only [Bool.or_eq_false_iff, Bool.not_eq_false'] at hm
  obtain ⟨⟨hpinned, hpending⟩, henabled⟩ := hm
  have hsince : sinceCheck t f k w'.past = [] := by
    simp [sinceCheck, ((server T).perform_eq_some.mp hp).2]
  rcases perform_query hp with ⟨rfl, -⟩ | ⟨rfl, hs⟩
  · simp at hr
  · refine ⟨m, m.decisions, ?_, hpending, henabled, hpinned, by rw [hsince]; rfl⟩
    rw [hs]
    exact Except.ok.inj hr

end Checked

section Protocol

variable {T : Type} [DecidableEq T]

def rechecks (plans : T → Prop) : Protocol T Call Call.Answer Bool (Store T) where
  inv _ := True
  guar t w w' := plans t → ∀ e past, w'.past = e :: past →
    ∀ f k, e.call = .db (.removeMembershipForGood f k) → Checked t f k w
  allow w e w' := Disciplined w e w'

variable {plans : T → Prop} {t : T} {α : Type}

theorem rechecks_guar {c : Call} {o : Bool} {w w' : StoreWorld T} {r : c.Answer}
    (hp : (server T).perform t c o w = some (r, w'))
    (hc : ∀ f k, c = .db (.removeMembershipForGood f k) → Checked t f k w) :
    (rechecks plans).guar t w w' := by
  intro _ e past he f k hcall
  rw [((server T).perform_eq_some.mp hp).2] at he
  obtain ⟨rfl, -⟩ := List.cons.inj he
  exact hc f k hcall

theorem stable_checked (f : FeedName) (k : VersionKey) :
    (rechecks plans).Stable (server T) t fun w => Held t [k] w ∧ Checked t f k w := by
  rintro u hu w w' ⟨c, o, r, hp, hd, -⟩ ⟨hheld, hchecked⟩
  refine ⟨fun k' hk' => versionLock_of_perform hp hu (hheld k' hk'), ?_⟩
  refine hchecked.other hp hu fun hc => hu ?_
  exact Option.some.inj ((hd k hc).symm.trans (hheld k List.mem_cons_self))

theorem rechecks_of_calls {x : Op α}
    (h : x.run.Calls fun c => ∀ f k, c ≠ .db (.removeMembershipForGood f k)) :
    (rechecks plans).Maintains (server T) t (fun _ => True) x :=
  Maintains.of_calls (fun _ _ _ _ _ _ => trivial)
    (fun _ hc _ _ _ _ _ _ hp _ => ⟨trivial, rechecks_guar hp fun f k h => (hc f k h).elim, trivial⟩) h

theorem safe_purgePlannedLocked (feed : FeedName) {k : VersionKey} {w : StoreWorld T}
    (hheld : Held t [k] w) :
    (rechecks plans).Safe (server T) t (purgePlannedLocked feed k).run (fun _ _ => True) w := by
  refine Safe.bindExcept (Safe.call (stable_held _ t [k]) hheld ?_)
  rintro w₁ hheld - o r w₂ hp -
  have hheld₂ : Held t [k] w₂ := by
    intro k' hk'
    have hlocks := @versionLock_of_within _ _ _ _ _ _ _ _ [] hp fun _ h => h.elim
    exact (congrFun hlocks k').trans (hheld k' hk')
  refine ⟨trivial, rechecks_guar hp (by simp), ?_⟩
  match r with
  | .error e => trivial
  | .ok none => trivial
  | .ok (some m) =>
    show (rechecks plans).Safe (server T) t (ExceptT.run (if _ then pure false else purgeLocked feed k)) _ w₂
    by_cases hm : (m.pinned || m.pending || !m.enabled) = true
    · rw [if_pos hm]
      trivial
    rw [if_neg hm]
    have hchecked : Checked t feed k w₂ := Checked.look hp rfl (by simpa using hm)
    refine Safe.bindExcept (Safe.call (stable_checked feed k) ⟨hheld₂, hchecked⟩ ?_)
    rintro w₃ ⟨-, hchecked⟩ - o r w₄ hp -
    refine ⟨trivial, rechecks_guar hp fun f k' h => ?_, ?_⟩
    · cases h
      exact hchecked
    cases r with
    | error e => trivial
    | ok removed =>
      refine rechecks_of_calls (calls_bind (calls_query (by simp)) fun holders =>
        calls_bind (calls_onlyIf ?_) fun _ => calls_pure removed) w₄ trivial
      refine (calls_purgeGlobalData k).mono ?_
      rintro c hc f k' rfl
      exact hc.elim

theorem rechecks_planned (feed : FeedName) (k : VersionKey) :
    (rechecks plans).Maintains (server T) t (fun _ => True)
      (withVersionLock k (purgePlannedLocked feed k)) := by
  intro w _
  refine Safe.call (A := fun _ => True) (fun _ _ _ _ _ _ => trivial) trivial ?_
  rintro w₀ - - o r w₁ hp -
  refine ⟨trivial, rechecks_guar hp (by simp), ?_⟩
  have hheld : Held t [k] w₁ := by
    intro k' hk'
    rw [(perform_lockVersion hp).2, List.mem_singleton.mp hk']
    exact Function.update_self ..
  refine Safe.bindExcept (Safe.bind ((safe_purgePlannedLocked feed hheld).mono fun result w _ => ?_))
  have rest : (rechecks plans).Maintains (server T) t (fun _ => True)
      (do call (.unlockVersion k); ofResult result) :=
    rechecks_of_calls (calls_bind (calls_call (by simp)) fun _ => calls_ofResult result)
  exact rest w trivial

theorem rechecks_applyPlan (feed : FeedName) (planned : List VersionKey) :
    (rechecks plans).Maintains (server T) t (fun _ => True) (applyPlan feed planned) :=
  have closed := Protocol.closed_maintains (ε := Error) (server T) (rechecks plans) t fun _ => True
  closed.forM fun k _ => closed.ignore (rechecks_planned feed k)

theorem rechecks_operation (site : Site) {op : Operation} (hop : op.plans) :
    (rechecks plans).Maintains (server T) t (fun _ => True) (op.run site) := by
  have closed := Protocol.closed_maintains (ε := Error) (server T) (rechecks plans) t fun _ => True
  cases op with
  | retention feed planned => exact rechecks_applyPlan feed planned
  | push feed bytes options planned =>
    refine closed.bind (closed.optionForM fun a => rechecks_of_calls (calls_call (by simp)))
      fun _ => ?_
    refine closed.bind (closed.bind (closed.result _) fun incoming => ?_) fun result => ?_
    · refine rechecks_of_calls (calls_withVersionLock (by simp) (by simp) ?_)
      refine (calls_indexLocked site feed incoming options).mono ?_
      rintro c hc f k rfl
      exact hc.elim
    refine closed.bind (closed.ignore (rechecks_of_calls (calls_query (by simp)))) fun _ => ?_
    exact rechecks_applyPlan feed planned
  | _ => exact hop.elim

end Protocol

section Runs

variable {T : Type} [DecidableEq T] {site : Site} {ops : T → Operation} {s : Store T}
variable {c : Config T Call Call.Answer Bool (Store T)}

theorem safe_of_not_plans {plans : T → Prop} {t : T} (ht : ¬ plans t)
    (p : Program Call Call.Answer Unit) (w : StoreWorld T) :
    (rechecks plans).Safe (server T) t p (fun _ _ => True) w := by
  induction p generalizing w with
  | done a => trivial
  | call c next ih => exact fun w₁ _ _ o r w' _ _ => ⟨trivial, fun h => (ht h).elim, ih r w'⟩

/-- Whenever retention is about to remove a version, the version is servable
and not pinned if and only if no operator has disabled or pinned it since the
check. -/
theorem planned_removal_iff (h : (server T).Reaches (fun _ _ _ => True) (serving site s ops) c)
    {t : T} (hop : (ops t).plans) {f : FeedName} {k : VersionKey}
    (ht : (c.threads t).nextCall = some (.db (.removeMembershipForGood f k))) :
    ∃ m, c.world.state.db.feedPackages.row (f, k) = some m ∧
      ((m.enabled = true ∧ m.pending = false ∧ m.pinned = false) ↔
        ¬ Withheld t f k c.world.past) := by
  have start : (rechecks fun t : T => (ops t).plans).Keeps (server T) (serving site s ops) := by
    refine ⟨trivial, fun u => ?_⟩
    by_cases hu : (ops u).plans
    · exact Safe.bind ((rechecks_operation site hu _ trivial).mono fun _ _ _ => trivial)
    · exact safe_of_not_plans (t := u) hu _ _
  have keeps := start.reaches ((disciplined h).mono fun _ _ _ ha => ha.2)
  obtain ⟨next, ht⟩ := Program.nextCall_eq_some.mp ht
  -- what it checked shows at the removal, even at one that would fail
  let r : (Call.db (.removeMembershipForGood f k)).Answer := .error .database
  have hp : (server T).perform t (.db (.removeMembershipForGood f k)) true c.world =
      some (r, ⟨c.world.state, ⟨t, _, true, r⟩ :: c.world.past⟩) := rfl
  have hguar := (keeps.step ht hp (disciplined_step h ht hp)).1
  exact (hguar hop _ _ rfl f k rfl).iff_not_withheld

end Runs

/-- Retention has chosen a version that an operator pins. -/
def sampleRetention : Fin 2 → Operation
  | 0 => .retention "a" [sampleKey]
  | 1 => .setPinned "a" sampleKey true

/-- The operator thinks better of the pin. -/
def sampleDecisions : Fin 3 → Operation
  | 0 => .retention "a" [sampleKey]
  | 1 => .setPinned "a" sampleKey true
  | 2 => .setPinned "a" sampleKey false

/-- Between its check and its removal the version is pinned, and then pinned no longer. -/
theorem planned_removal_iff_sample :
    ∃ c c' m m', (server (Fin 3)).run (serving sampleSite (sampleStore _) sampleDecisions)
        (calls 0 2 ++ calls 1 1) = some c ∧
      c.world.state.db.feedPackages.row ("a", sampleKey) = some m ∧
      ¬ (m.enabled = true ∧ m.pending = false ∧ m.pinned = false) ∧
      (server (Fin 3)).run c (calls 2 1) = some c' ∧
      c'.world.state.db.feedPackages.row ("a", sampleKey) = some m' ∧
      m'.enabled = true ∧ m'.pending = false ∧ m'.pinned = false := by
  let start := serving sampleSite (sampleStore (Fin 3)) sampleDecisions
  have plans : (sampleDecisions 0).plans := trivial
  obtain ⟨c, hrun⟩ : ∃ c, (server (Fin 3)).run start (calls 0 2 ++ calls 1 1) = some c :=
    Option.isSome_iff_exists.mp (by decide +kernel)
  have pinned : ((server (Fin 3)).run start (calls 0 2 ++ calls 1 1)).map (fun c =>
      ((c.threads 0).nextCall,
        decided "a" sampleKey Membership.active.decisions
          (sinceCheck 0 "a" sampleKey c.world.past))) =
      some (some (.db (.removeMembershipForGood "a" sampleKey)),
        { Membership.active with pinned := true }.decisions) := by
    decide +kernel
  have unpinned : ((server (Fin 3)).run start (calls 0 2 ++ calls 1 1 ++ calls 2 1)).map (fun c =>
      ((c.threads 0).nextCall,
        decided "a" sampleKey Membership.active.decisions
          (sinceCheck 0 "a" sampleKey c.world.past))) =
      some (some (.db (.removeMembershipForGood "a" sampleKey)), Membership.active.decisions) := by
    decide +kernel
  obtain ⟨c', hrun'⟩ : ∃ c', (server (Fin 3)).run start (calls 0 2 ++ calls 1 1 ++ calls 2 1) =
      some c' := Option.isSome_iff_exists.mp (by decide +kernel)
  have hstep : (server (Fin 3)).run c (calls 2 1) = some c' := by
    rwa [Machine.run_append, hrun] at hrun'
  simp only [hrun, Option.map_some, Option.some.injEq, Prod.mk.injEq] at pinned
  simp only [hrun', Option.map_some, Option.some.injEq, Prod.mk.injEq] at unpinned
  obtain ⟨m, hm, hiff⟩ := planned_removal_iff (Machine.Reaches.of_run hrun) plans pinned.1
  obtain ⟨m', hm', hiff'⟩ := planned_removal_iff (Machine.Reaches.of_run hrun') plans unpinned.1
  refine ⟨c, c', m, m', hrun, hm, ?_, hstep, hm', hiff'.mpr ?_⟩
  · rw [hiff, not_not]
    simp only [Withheld, pinned.2]
    decide
  · simp only [Withheld, unpinned.2]
    decide

/-- Pinned between the check and the removal, the version is removed all the same. -/
theorem planned_removal_of_pinned :
    ∃ c c', (server (Fin 2)).Reaches (fun _ _ _ => True)
        (serving sampleSite (sampleStore _) sampleRetention) c ∧
      (server (Fin 2)).step c 0 false = some c' ∧
      (c.world.state.db.feedPackages.row ("a", sampleKey)).map Membership.pinned = some true ∧
      c'.world.state.db.feedPackages.row ("a", sampleKey) = none := by
  let start := serving sampleSite (sampleStore (Fin 2)) sampleRetention
  let schedule : List (Fin 2 × Bool) := calls 0 2 ++ calls 1 1
  obtain ⟨c, hrun⟩ : ∃ c, (server (Fin 2)).run start schedule = some c :=
    Option.isSome_iff_exists.mp (by decide +kernel)
  have final : ((server (Fin 2)).run start schedule).map (fun c =>
      ((c.world.state.db.feedPackages.row ("a", sampleKey)).map Membership.pinned,
        ((server (Fin 2)).step c 0 false).map fun c' =>
          c'.world.state.db.feedPackages.row ("a", sampleKey))) =
      some (some true, some none) := by decide +kernel
  simp only [hrun, Option.map_some, Option.some.injEq, Prod.mk.injEq] at final
  obtain ⟨hpinned, hstep⟩ := final
  obtain ⟨c', hc', hremoved⟩ := Option.map_eq_some_iff.mp hstep
  exact ⟨c, c', Machine.Reaches.of_run hrun, hc', hpinned, hremoved⟩

end YaNuget
