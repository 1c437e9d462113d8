import YaNuget.Operations.PayloadAgreement

/-!
# Approved builds stay

While a version is approved in a feed whose served versions are immutable, no
push through any feed replaces it.
-/
namespace YaNuget

open Concurrency Machine

/-- Version `k` is approved in feed `f`. -/
def Store.Approved {T : Type} (s : Store T) (f : FeedName) (k : VersionKey) : Prop :=
  ∃ m, s.db.feedPackages.row (f, k) = some m ∧ m.pending = false

/-- The event is a failed look for the payload of version `k`. -/
def LookFailed {T : Type} (k : VersionKey) (e : StoreEvent T) : Prop :=
  e.call = .packageExists k ∧ e.choice = true

variable {T : Type} [DecidableEq T] {site : Site} {ops : T → Operation} {s : Store T}
variable {c c' : Config T Call Call.Answer Bool (Store T)} {k : VersionKey} {f : FeedName}

theorem not_mayReplace {mode : FeedName → OverwriteMode} {rights : FeedName → OverwriteMode → Prop}
    (hmode : ∀ g m, rights g m → m = mode g ∨ m = .disabled)
    (himmutable : (mode f).servedVersionsAreImmutable = true) {v : View k}
    (happroved : v.pending f = some false) : ¬ v.MayReplace rights := by
  rintro (hunheld | ⟨g, m, hm, hreplace⟩)
  · simp [hunheld f] at happroved
  · unfold View.Replaceable at hreplace
    split_ifs at hreplace with hpending
    · simpa using hreplace f false happroved
    · obtain ⟨⟨isPrerelease, hallows⟩, hholder⟩ := hreplace
      obtain rfl := hholder f (by simp [happroved])
      rcases hmode f m hm with rfl | rfl
      · simp [OverwriteMode.not_allows_of_immutable himmutable] at hallows
      · simp [OverwriteMode.allows] at hallows

theorem lookMissed_eq_false {t : T} {w : StoreWorld T} (h : ∀ e ∈ w.past, ¬ LookFailed k e) :
    (view t k w).lookMissed = false := by
  obtain ⟨state, past⟩ := w
  induction past with
  | nil => rfl
  | cons e past ih =>
    have hpast : lastSeen t (seesLook k) past = false :=
      ih fun e he => h e (List.mem_cons_of_mem _ he)
    simp only [view, lastSeen_cons]
    split_ifs
    · rw [hpast]
      obtain ⟨u, call, choice, answer⟩ := e
      cases call with
      | packageExists k' =>
        by_cases hk : k' = k
        · subst hk
          have := h ⟨u, _, choice, answer⟩ List.mem_cons_self
          simp only [LookFailed, true_and, Bool.not_eq_true] at this
          simp [seesLook, this]
        · simp [seesLook, hk]
      | _ => rfl
    · exact hpast

theorem pending_of_approved {t : T} {w : StoreWorld T} (h : w.state.Approved f k) :
    (view t k w).pending f = some false := by
  obtain ⟨m, hm, hpending⟩ := h
  simp [view, Database.pendingIn, hm, hpending]

theorem approved_of_reaches
    (h : (server T).Reaches (fun _ _ w => w.state.Approved f k) c c')
    (happroved : c.world.state.Approved f k) : c'.world.state.Approved f k := by
  cases h with
  | refl => exact happroved
  | step _ _ _ h => exact h

/-- While a version stays approved in an immutable feed, its row keeps its hash
and the version its attached files; the payload stays too, unless a failed look
for it had it stored again. -/
theorem approved_build_kept (mode : FeedName → OverwriteMode)
    (hmode : ∀ t g m, (ops t).overwritesUnder g m → m = mode g ∨ m = .disabled)
    (himmutable : (mode f).servedVersionsAreImmutable = true)
    (h : (server T).Reaches (fun _ _ _ => True) (serving site s ops) c)
    (happroved : c.world.state.Approved f k)
    (h' : (server T).Reaches (fun _ _ w => w.state.Approved f k) c c') :
    (∀ p, c.world.state.db.packages.row k = some p →
        ∃ p', c'.world.state.db.packages.row k = some p' ∧ p'.packageHash = p.packageHash) ∧
      c'.world.state.db.filesFor k = c.world.state.db.filesFor k ∧
      ((∀ e ∈ c'.world.past, ¬ LookFailed k e) → ∀ b,
        c.world.state.storage.payload k = some b → c'.world.state.storage.payload k = some b) := by
  induction h' with
  | refl => exact ⟨fun p hp => ⟨p, hp, rfl⟩, rfl, fun _ b hb => hb⟩
  | @step c₁ t o call r next w hreach ht hp _ ih =>
    obtain ⟨hpackage, hfiles, hpayload⟩ := ih
    have happroved₁ := approved_of_reaches hreach happroved
    have hpermitted := permitted_step (h.trans (hreach.mono fun _ _ _ _ => trivial)) ht hp k
    have same := hpermitted.resolve_left
      (not_mayReplace (hmode t) himmutable (pending_of_approved happroved₁))
    refine ⟨fun p hp => ?_, same.files.trans hfiles, fun hlooks b hb => ?_⟩
    · obtain ⟨p₁, hp₁, hash₁⟩ := hpackage p hp
      obtain ⟨p', hp', hash'⟩ := same.hash ⟨p₁, Database.key_of_row _ hp₁⟩
        ((Database.getPackageData_eq_some _ _ _).mpr hp₁)
      exact ⟨p'.1, (Database.getPackageData_eq_some _ _ _).mp hp', hash'.trans hash₁⟩
    · have hlooks₁ : ∀ e ∈ c₁.world.past, ¬ LookFailed k e := by
        intro e he
        apply hlooks e
        rw [((server T).perform_eq_some.mp hp).2]
        exact List.mem_cons_of_mem _ he
      exact same.payload (lookMissed_eq_false hlooks₁) b (hpayload hlooks₁ b hb)

/-- Feed `a` takes the first build in and approves it, and is sent the second one. -/
def sampleApproval : Fin 3 → Operation
  | 0 => .push "a" [1] (sampleOptions []) []
  | 1 => .approve "a" ⟨"Lib", "1.0.0"⟩ ⟨[], []⟩
  | 2 => .push "a" [2] (sampleOptions []) []

def Store.approved {T : Type} (s : Store T) (f : FeedName) (k : VersionKey) : Bool :=
  (s.db.feedPackages.row (f, k)).any fun m => !m.pending

theorem Store.approved_iff {T : Type} (s : Store T) (f : FeedName) (k : VersionKey) :
    s.approved f k = true ↔ s.Approved f k := by
  simp [approved, Approved, Option.any_eq_true]

/-- The second build is refused. -/
theorem approved_build_kept_sample :
    ∃ c c', (server (Fin 3)).run (serving sampleSite (Store.empty _) sampleApproval)
        (calls 0 9 ++ calls 1 3) = some c ∧
      (server (Fin 3)).run c (calls 2 8) = some c' ∧
      c.world.state.storage.payload sampleKey = some [1] ∧
      c'.world.state.storage.payload sampleKey = some [1] := by
  let start := serving sampleSite (Store.empty (Fin 3)) sampleApproval
  obtain ⟨c, hrun⟩ : ∃ c, (server (Fin 3)).run start (calls 0 9 ++ calls 1 3) = some c :=
    Option.isSome_iff_exists.mp (by decide +kernel)
  have middle : ((server (Fin 3)).run start (calls 0 9 ++ calls 1 3)).map (fun c =>
      (c.world.state.approved "a" sampleKey, c.world.state.storage.payload sampleKey,
        (server (Fin 3)).runs (fun _ _ w => w.state.approved "a" sampleKey) c (calls 2 8),
        ((server (Fin 3)).run c (calls 2 8)).map fun c' => c'.world.past.all fun e => !e.choice)) =
      some (true, some [1], true, some true) := by decide +kernel
  simp only [hrun, Option.map_some, Option.some.injEq, Prod.mk.injEq] at middle
  obtain ⟨happroved, hpayload, passed, hchoices⟩ := middle
  obtain ⟨c', hrun', hreach'⟩ : ∃ c', (server (Fin 3)).run c (calls 2 8) = some c' ∧
      (server (Fin 3)).Reaches (fun _ _ w => w.state.Approved "a" sampleKey) c c' :=
    Reaches.of_runs (fun _ _ w h => (w.state.approved_iff _ _).mp h) passed
  rw [hrun', Option.map_some, Option.some.injEq, List.all_eq_true] at hchoices
  have hmode : ∀ t g m, (sampleApproval t).overwritesUnder g m →
      m = OverwriteMode.pendingOnly ∨ m = .disabled := by
    rintro t g m h
    obtain rfl | rfl | rfl : t = 0 ∨ t = 1 ∨ t = 2 := by omega
    · exact Or.inl h.2
    · exact h.elim
    · exact Or.inl h.2
  have kept := approved_build_kept (fun _ => .pendingOnly) hmode rfl (Reaches.of_run hrun)
    ((c.world.state.approved_iff _ _).mp happroved) hreach'
  refine ⟨c, c', hrun, hrun', hpayload, kept.2.2 (fun e he hlook => ?_) [1] hpayload⟩
  simpa [hlook.2] using hchoices e he

end YaNuget
