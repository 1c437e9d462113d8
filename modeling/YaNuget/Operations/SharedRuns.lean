import YaNuget.Operations.SectionsKept

/-!
# Runs keep the shared build

A section that can be followed on the view of its version is safe among any
other tasks: the lock keeps them off what the view shows. So every operation
is, and every run of the server keeps the protocol.
-/
namespace YaNuget

open Concurrency Op Fallible

variable {T : Type} [DecidableEq T] {sha512 : Content → Digest} {careful : Prop}
variable {rights : T → FeedName → OverwriteMode → Prop} {k : VersionKey}

section Frame

variable {t u : T} {c : Call} {o : Bool} {w w' : StoreWorld T} {r : c.Answer}

theorem agrees_frame (h : (server T).perform u c o w = some (r, w')) (hc : ¬ c.touches k)
    (hv : (view t k w).Agrees sha512) : (view t k w').Agrees sha512 := by
  have same := Call.frame ((server T).perform_eq_some.mp h).1 hc
  intro f hf
  have hf' : (w.state.db.pendingIn k f).isSome := by
    rw [← same.pending]
    exact hf
  obtain ⟨p, b, hp, hb, hash⟩ := hv f hf'
  exact ⟨p, b, (getPackageData_congr same.package).trans hp, same.payload.trans hb, hash⟩

theorem sameBuild_frame (h : (server T).perform u c o w = some (r, w')) (hc : ¬ c.touches k) :
    (view t k w).SameBuild (view t k w') := by
  have same := Call.frame ((server T).perform_eq_some.mp h).1 hc
  exact ⟨fun _ b hb => same.payload.trans hb,
    fun p hp => ⟨p, (getPackageData_congr same.package).trans hp, rfl⟩, same.files⟩

omit [DecidableEq T] in
theorem not_touches_of_disciplined (hd : Disciplined w ⟨u, c, o, r⟩ w')
    (hk : w.state.versionLock k = some t) (hu : u ≠ t) : ¬ c.touches k :=
  fun hc => hu (Option.some.inj ((hd k (Call.changes_of_touches hc)).symm.trans hk))

end Frame

section Locked

def Working (sha512 : Content → Digest) (careful : Prop) (t : T) (ks : List VersionKey)
    (w : StoreWorld T) : Prop :=
  ∀ k ∈ ks, w.state.versionLock k = some t ∧ (view t k w).Sound sha512 careful

theorem stable_working (t : T) (ks : List VersionKey) :
    (shared sha512 careful rights).Stable (server T) t (Working sha512 careful t ks) := by
  rintro u hu w w' ⟨c, o, r, hp, ⟨hd, -⟩, -⟩ hw k hk
  obtain ⟨hheld, hsound⟩ := hw k hk
  have hc := not_touches_of_disciplined hd hheld hu
  exact ⟨versionLock_of_perform hp hu hheld, fun hcareful => agrees_frame hp hc (hsound hcareful)⟩

/-- A call that touches nothing but held versions, and leaves the locks alone,
keeps the protocol if it is permitted. -/
theorem shared_step {t : T} {c : Call} {o : Bool} {w w' : StoreWorld T} {r : c.Answer}
    {ks : List VersionKey} (hp : (server T).perform t c o w = some (r, w')) (hc : c.within ks)
    (hheld : ∀ k ∈ ks, w.state.versionLock k = some t) (hinv : (shared sha512 careful rights).inv w)
    (hpermitted : ∀ k ∈ ks, (view t k w).Permitted (view t k w') (rights t)) :
    (shared sha512 careful rights).inv w' ∧ (shared sha512 careful rights).guar t w w' := by
  have htouches {k : VersionKey} (hk : k ∉ ks) : ¬ c.touches k :=
    fun h => hk (Call.changes_of_within hc (Call.changes_of_touches h))
  refine ⟨fun hcareful u k hfree => ?_, fun k => ?_⟩
  · rw [versionLock_of_within hp hc] at hfree
    have hk : k ∉ ks := fun hk => by simp [hheld k hk] at hfree
    exact agrees_frame hp (htouches hk) (hinv hcareful u k hfree)
  · by_cases hk : k ∈ ks
    · exact hpermitted k hk
    · exact Or.inr (sameBuild_frame hp (htouches hk))

theorem shared_elsewhere {t : T} {c : Call} {o : Bool} {w w' : StoreWorld T} {r : c.Answer}
    (hp : (server T).perform t c o w = some (r, w')) (hc : c.within [])
    (hinv : (shared sha512 careful rights).inv w) :
    (shared sha512 careful rights).inv w' ∧ (shared sha512 careful rights).guar t w w' ∧
      Working sha512 careful t [] w' := by
  obtain ⟨hinv', hguar⟩ := shared_step hp hc (by simp) hinv (by simp)
  exact ⟨hinv', hguar, by simp [Working]⟩

theorem safe_of_ensures {α : Type} {t : T} {p : Program Call Call.Answer α}
    {Q : α → View k → Prop} {w : StoreWorld T} (hcalls : p.Calls (Call.within [k]))
    (hheld : w.state.versionLock k = some t)
    (h : p.Ensures (Step T sha512 careful) (fun v v' => v.Permitted v' (rights t)) Q (view t k w)) :
    (shared sha512 careful rights).Safe (server T) t p
      (fun a w => w.state.versionLock k = some t ∧ Q a (view t k w)) w := by
  induction p generalizing w with
  | done a => exact ⟨hheld, h⟩
  | call c next ih =>
    refine Protocol.Safe.call (A := fun w => w.state.versionLock k = some t ∧
      (Program.call c next).Ensures (Step T sha512 careful)
        (fun v v' => v.Permitted v' (rights t)) Q (view t k w)) ?_ ⟨hheld, h⟩ ?_
    · rintro u hu w w' ⟨c', o, r, hp, ⟨hd, -⟩, -⟩ ⟨hheld, h⟩
      refine ⟨versionLock_of_perform hp hu hheld, ?_⟩
      rwa [view_frame hp (not_touches_of_disciplined hd hheld hu) (Or.inl hu)]
    · rintro w ⟨hheld, h⟩ hinv o r w' hp ⟨-, hprot⟩
      obtain ⟨hpermitted, hnext⟩ := h r _ ⟨t, w, w', o, rfl, rfl, hp, hprot⟩
      obtain ⟨hinv', hguar⟩ := shared_step hp hcalls.1 (by simpa using hheld) hinv
        (by simpa using hpermitted)
      refine ⟨hinv', hguar, ih r (hcalls.2 r) ?_ hnext⟩
      rw [versionLock_of_within hp hcalls.1]
      exact hheld

theorem maintains_of_follows {α : Type} {t : T} {x : Op α} (hcalls : x.run.Calls (Call.within [k]))
    (h : ∀ v : View k, v.Sound sha512 careful →
      Follows T sha512 careful (rights t) x (fun _ v' => v'.Sound sha512 careful) v) :
    (shared sha512 careful rights).Maintains (server T) t (Working sha512 careful t [k]) x := by
  intro w hw
  obtain ⟨hheld, hsound⟩ := hw k List.mem_cons_self
  exact (safe_of_ensures hcalls hheld (h _ hsound)).mono fun r w' hw' => by simpa [Working] using hw'

theorem maintains_withVersionLock {α : Type} {t : T} {x : Op α} {ks : List VersionKey}
    (h : (shared sha512 careful rights).Maintains (server T) t (Working sha512 careful t (k :: ks)) x) :
    (shared sha512 careful rights).Maintains (server T) t (Working sha512 careful t ks)
      (withVersionLock k x) := by
  intro w hw
  refine Protocol.Safe.call (stable_working t ks) hw fun w hw hinv o _ w₁ hp _ => ?_
  obtain ⟨hfree, hstate⟩ := perform_lockVersion hp
  have hne : ∀ k' ∈ ks, k' ≠ k := by
    rintro k' hk' rfl
    simp [(hw k' hk').1] at hfree
  have hlocks (k' : VersionKey) (hk' : k' ≠ k) :
      w₁.state.versionLock k' = w.state.versionLock k' := by
    rw [hstate]
    exact Function.update_of_ne hk' ..
  have hlock : w₁.state.versionLock k = some t := by
    rw [hstate]
    exact Function.update_self ..
  refine ⟨fun hcareful u k' hfree' => ?_, fun k' => Or.inr (sameBuild_frame hp id), ?_⟩
  · have hk' : k' ≠ k := by
      rintro rfl
      simp [hlock] at hfree'
    rw [hlocks k' hk'] at hfree'
    exact agrees_frame hp id (hinv hcareful u k' hfree')
  have hworking : Working sha512 careful t (k :: ks) w₁ := by
    intro k' hk'
    rcases List.mem_cons.mp hk' with rfl | hk'
    · exact ⟨hlock, fun hcareful => agrees_frame hp id (hinv hcareful t k' hfree)⟩
    · obtain ⟨hheld, hsound⟩ := hw k' hk'
      exact ⟨(hlocks k' (hne k' hk')).trans hheld,
        fun hcareful => agrees_frame hp id (hsound hcareful)⟩
  refine Protocol.Safe.bindExcept (Protocol.Safe.bind ((h w₁ hworking).mono ?_))
  intro result w hworking
  refine Protocol.Safe.call (stable_working t (k :: ks)) hworking
    fun w hworking hinv o _ w₂ hp _ => ?_
  obtain ⟨hheld, hstate⟩ := perform_unlockVersion hp
  have hlocks (k' : VersionKey) (hk' : k' ≠ k) :
      w₂.state.versionLock k' = w.state.versionLock k' := by
    rw [hstate]
    exact Function.update_of_ne hk' ..
  refine ⟨fun hcareful u k' hfree' => ?_, fun k' => Or.inr (sameBuild_frame hp id), fun k' hk' => ?_⟩
  · by_cases hk' : k' = k
    · subst hk'
      exact agrees_frame hp id ((hworking k' List.mem_cons_self).2 hcareful)
    · rw [hlocks k' hk'] at hfree'
      exact agrees_frame hp id (hinv hcareful u k' hfree')
  · obtain ⟨hheld, hsound⟩ := hworking k' (List.mem_cons_of_mem k hk')
    exact ⟨(hlocks k' (hne k' hk')).trans hheld,
      fun hcareful => agrees_frame hp id (hsound hcareful)⟩

theorem maintains_withVersionLocks {α : Type} {t : T} {x : Op α} {locks ks : List VersionKey}
    (h : (shared sha512 careful rights).Maintains (server T) t
      (Working sha512 careful t (locks.reverse ++ ks)) x) :
    (shared sha512 careful rights).Maintains (server T) t (Working sha512 careful t ks)
      (withVersionLocks locks x) := by
  induction locks generalizing ks with
  | nil => exact h
  | cons k locks ih => exact maintains_withVersionLock (ih (by simpa using h))

/-- Approving versions whose locks are held. -/
theorem maintains_of_approves {α : Type} {t : T} {x : Op α} {ks : List VersionKey}
    (h : x.run.Calls (Call.approves ks)) :
    (shared sha512 careful rights).Maintains (server T) t (Working sha512 careful t ks) x := by
  refine Protocol.Maintains.of_calls (stable_working t ks) ?_ h
  rintro c hc w hw hinv o r w' hp ⟨-, hprot⟩
  have hwithin := Call.within_of_approves hc
  have hview (k : VersionKey) : (view t k w).Shrinks (view t k w') := by
    have hstep : Step T sha512 careful (view t k w) c r (view t k w') :=
      ⟨t, w, w', o, rfl, rfl, hp, hprot⟩
    cases c with
    | db q =>
      by_cases hq : q.shrinks
      · exact hstep.shrinks hq
      · rw [hstep.quiet (by cases q <;> simp_all [Call.approves, Call.quiet, DbCall.reads,
          DbCall.shrinks])]
        exact ⟨rfl, rfl, rfl, fun _ h => h⟩
    | _ => exact hc.elim
  obtain ⟨hinv', hguar⟩ := shared_step hp hwithin (fun k hk => (hw k hk).1) hinv
    fun k _ => (hview k).permitted
  refine ⟨hinv', hguar, fun k hk => ?_⟩
  rw [versionLock_of_within hp hwithin]
  exact ⟨(hw k hk).1, (hview k).sound (hw k hk).2⟩

end Locked

section Runs

variable (site : Site)

theorem shared_sections (t : T) :
    Sections site (rights t) (fun {α : Type} (x : Op α) =>
      (shared site.sha512 careful rights).Maintains (server T) t
        (Working site.sha512 careful t []) x) where
  query q h := by
    refine Protocol.Maintains.of_calls (φ := fun c => c = .db q) (stable_working t []) ?_
      (calls_query rfl)
    rintro c rfl w hw hinv o r w' hp -
    exact shared_elsewhere hp (Call.within_of_unchanging (DbCall.not_changes_of_unlocked h) []) hinv
  arrive feed k := by
    refine Protocol.Maintains.of_calls (φ := fun c => c = .arrive feed k) (stable_working t []) ?_
      (calls_call rfl)
    rintro c rfl w hw hinv o r w' hp -
    exact shared_elsewhere hp (fun k hk => hk.elim) hinv
  purge feed k := maintains_withVersionLock (maintains_of_follows (calls_purgeLocked feed k)
    fun _ => follows_purgeLocked site feed)
  planned feed k := maintains_withVersionLock (maintains_of_follows
    (calls_purgePlannedLocked feed k) fun _ => follows_purgePlannedLocked site feed)
  sweep k := maintains_withVersionLock (maintains_of_follows (calls_sweepLocked k)
    fun _ => follows_sweepLocked site)
  index feed incoming options hrights := maintains_withVersionLock (maintains_of_follows
    ((calls_indexLocked site feed incoming options).mono fun _ => Call.within_of_indexes)
    fun _ => follows_indexLocked site feed incoming options hrights)
  approve feed v shown := maintains_withVersionLock
    (maintains_of_approves (calls_approveLocked site feed v shown))
  approveMany feed id versions shown := maintains_withVersionLocks
    (maintains_of_approves (by simpa using calls_approveManyLocked site feed id versions shown))
  transfer source target k mode := maintains_withVersionLock (maintains_of_follows
    (calls_transferLocked source k target mode)
    fun _ => follows_transferLocked site source target mode)

def rightsOf (ops : T → Operation) (t : T) : FeedName → OverwriteMode → Prop :=
  (ops t).overwritesUnder

variable {site} {ops : T → Operation} {s : Store T}
variable {c : Config T Call Call.Answer Bool (Store T)}

/-- The server keeps the protocol from any state in which no lock is held and,
for careful runs, rows describe payloads. -/
theorem shared_start
    (h : (shared site.sha512 careful (rightsOf ops)).inv ⟨s, []⟩) :
    (shared site.sha512 careful (rightsOf ops)).Keeps (server T) (serving site s ops) := by
  refine ⟨h, fun t => Protocol.Safe.bind ?_⟩
  have sections : Sections site (rightsOf ops t) (fun {α : Type} (x : Op α) =>
      (shared site.sha512 careful (rightsOf ops)).Maintains (server T) t
        (Working site.sha512 careful t []) x) := shared_sections site t
  have maintained := sections.run (Protocol.closed_maintains _ _ t _) (ops t) fun _ _ h => h
  exact (maintained _ (by simp [Working])).mono fun _ _ _ => trivial

theorem permitted_step {allow : Machine.Allowed T Call Call.Answer Bool (Store T)}
    (h : (server T).Reaches allow (serving site s ops) c) {t : T} {o : Bool} {call : Call}
    {r : call.Answer} {next : call.Answer → Program Call Call.Answer Unit} {w : StoreWorld T}
    (ht : c.threads t = .call call next)
    (hp : (server T).perform t call o c.world = some (r, w)) (k : VersionKey) :
    (view t k c.world).Permitted (view t k w) (rightsOf ops t) := by
  have start : (shared site.sha512 False (rightsOf ops)).Keeps (server T) (serving site s ops) :=
    shared_start False.elim
  have keeps := start.reaches ((disciplined h).mono fun _ _ _ ha => ⟨ha.2, False.elim⟩)
  exact (keeps.step ht hp ⟨disciplined_step h ht hp, False.elim⟩).1 k

end Runs

end YaNuget
