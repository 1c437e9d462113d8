import YaNuget.Operations.UploadWrites

/-!
# Resumable uploads in every run

A complete upload is renamed and attached, by the request that holds the slot.
Each request keeps the protocol, whatever fails, and so do any number of them.
-/
namespace YaNuget.Tus

open Concurrency Protocol

variable {u : Upload} {strict : Prop} {s s' : State} {w w' : Moment} {o : Choice} {t i n : ℕ}
variable {seen : Content}

/-- The request holds its slot, and the upload has no part file any more. -/
def Over (t i : ℕ) (s : State) : Prop := Idle t i s ∧ s.place ≠ .part

theorem settled_over : Settled strict t (Over t i) := settled_idle.and settled_place

theorem Over.apply (h : Over t i s) (e : Effect) : Over t i (s.apply e) :=
  ⟨h.1.apply e, apply_place h.2⟩

theorem Over.late (h : Over t i s) (late : List Effect) : Over t i { s with late := late } :=
  ⟨h.1.late late, h.2⟩

theorem settled_complete : Settled strict t (Complete u strict t i seen) := by
  rintro s s' hrely ⟨hidle, howns, hkept⟩
  refine ⟨settled_idle s s' hrely hidle, settled_owns s s' hrely howns, fun hstrict => ?_⟩
  obtain ⟨-, hcontent, hack⟩ := hrely.kept hstrict howns.exclusive
  rw [hcontent, hack]
  exact hkept hstrict

theorem rename_spec :
    Spec u strict t (Complete u strict t i seen) (file .rename)
      (fun _ s => Complete u strict t i seen s ∧ s.place ≠ .part) (Over t i) := by
  apply raised_spec
  apply tried_spec settled_complete
  · rintro s - hs e ⟨⟩
    exact ⟨fun _ => hs.1.locked, fun _ => trivial⟩
  · rintro s o a s' hanswer hsteady - - ⟨hidle, howns, hkept⟩
    simp only [State.answer, State.changeIf] at hanswer
    split_ifs at hanswer with hplace
    · cases hfails : o.fails with
      | some why => simp [steady, hfails, hplace] at hsteady
      | none =>
        simp only [State.change, hfails, State.apply, hplace, if_true] at hanswer
        cases hanswer
        exact ⟨⟨hidle.of_same rfl rfl rfl, howns.of_same rfl rfl rfl rfl, hkept⟩, by simp⟩
    · cases hanswer
      exact ⟨hidle, hplace⟩

/-- The row is gone, and all that it has counted is there. -/
def Deleted (u : Upload) (strict : Prop) (t i : ℕ) (seen : Content) (s : State) : Prop :=
  Over t i s ∧ Exclusive t s ∧ (strict → s.row = none ∧ seen = s.acknowledged ∧
    s.content = s.acknowledged ∧ s.acknowledged.length = u.length)

theorem settled_deleted : Settled strict t (Deleted u strict t i seen) := by
  rintro s s' hrely ⟨hover, hex, hkept⟩
  refine ⟨settled_over s s' hrely hover, settled_exclusive s s' hrely hex, fun hstrict => ?_⟩
  obtain ⟨hrow, hcontent, hack⟩ := hrely.kept hstrict hex
  rw [hrow, hcontent, hack]
  exact hkept hstrict

theorem deleteUpload_spec :
    Spec u strict t (fun s => Complete u strict t i seen s ∧ s.place ≠ .part)
      (query .deleteUpload) (fun _ => Deleted u strict t i seen) (Over t i) := by
  apply change_spec (r := .deleteUpload) (e := fun _ => .delete)
    (fun _ _ _ _ h => change_comes h) (settled_complete.and settled_place)
  · rintro s - hs e ⟨⟩
    exact ⟨fun _ => hs.1.1.locked, fun _ => trivial⟩
  · rintro s hinv ⟨⟨hidle, howns, hkept⟩, hplace⟩
    refine ⟨⟨hidle.apply _, apply_place hplace⟩, howns.exclusive.congr (apply_memory s _), ?_⟩
    intro hstrict
    exact ⟨rfl, (hkept hstrict).1, (hkept hstrict).2, (howns.kept hinv hstrict).1⟩
  · intro s hs
    have hover : Over t i s := ⟨hs.1.1, hs.2⟩
    exact ⟨hover, hover.apply _, hover.late⟩

/-- All that was acknowledged is attached, under its hash. -/
theorem attach_spec :
    Spec u strict t (fun s => u.expectedSha256.any (· ≠ u.sha256 seen) = false ∧
      Deleted u strict t i seen s) (file (.attach (u.sha256 seen) u.length))
      (fun _ => Over t i) (Over t i) := by
  apply raised_spec
  apply tried_spec (settled_fact.and settled_deleted)
  · rintro s - ⟨hexpected, hover, hex, hkept⟩ e ⟨⟩
    refine ⟨fun _ => hex.locked, fun hstrict => ?_⟩
    obtain ⟨hrow, rfl, hcontent, hlength⟩ := hkept hstrict
    refine ⟨hrow, hcontent, by rw [hcontent, hlength], rfl, by rw [hcontent], ?_⟩
    intro want hwant
    rw [Option.mem_def.mp hwant, Option.any_some, decide_eq_false_iff_not, not_not] at hexpected
    exact hexpected.symm
  · rintro s o a s' hanswer - - - ⟨-, hover, -, -⟩
    have hover' : Over t i s' := by
      rcases changeIf_comes hanswer with rfl | ⟨-, rfl⟩ | ⟨-, rfl | rfl | ⟨-, rfl⟩⟩
      · exact hover
      · exact hover.apply _
      · exact hover
      · exact hover.apply _
      · exact hover.late _
    cases a <;> exact hover'

theorem removeFinished_spec {A E : State → Prop} (hA : Settled strict t A)
    (hkeeps : ∀ s, A s → A (s.apply (.removeFinished t)) ∧ ∀ late, A { s with late := late }) :
    Spec u strict t A (tried .removeFinished) (fun _ => A) E := by
  apply effect_keeps (r := .removeFinished) (e := fun _ => .removeFinished t)
    (fun _ _ _ _ h => Or.inr (change_comes h)) hA _ hkeeps
  rintro s - - e ⟨⟩
  exact ⟨fun hne => absurd rfl hne, fun _ => trivial⟩

theorem dropFinishing_spec {E : State → Prop} :
    Spec u strict t (Over t i) (dropFinishing i) (fun _ _ => True) E := by
  unfold dropFinishing
  apply (spec_pre forgetSlot_spec fun s hs => ⟨hs.1, Or.inr (Or.inl hs.2)⟩).bind
  intro _
  exact unlock_spec

theorem finish_spec :
    Spec u strict t (Complete u strict t i seen) (finish u i seen) (fun _ _ => True)
      fun _ => True := by
  unfold finish
  apply Triple.bind
  · apply spec_attempt (B := fun _ => Over t i) (E := Over t i)
    apply rename_spec.bind
    intro _
    apply deleteUpload_spec.bind
    intro _
    apply (refuseIf_spec fun _ hs => hs.1).bind
    intro _
    exact attach_spec
  · intro result
    cases result with
    | error e =>
      apply (removeFinished_spec settled_over fun _ hs => ⟨hs.apply _, hs.late⟩).bind
      intro _
      apply dropFinishing_spec.bind
      intro _
      exact spec_throw fun _ _ => trivial
    | ok _ =>
      apply dropFinishing_spec.bind
      intro _
      apply (removeFinished_spec settled_true fun _ _ => ⟨trivial, fun _ => trivial⟩).bind
      intro _
      exact spec_pure fun _ _ => trivial

theorem detach_spec {E : State → Prop} :
    Spec u strict t (Complete u strict t i seen) (ask .detach)
      (fun _ => Complete u strict t i seen) E := by
  apply ask_spec (c := .detach) (by simp) settled_complete (fun _ _ _ => trivial)
  rintro s o _ s' hact - - - ⟨hidle, howns, hkept⟩
  cases hact
  exact ⟨hidle.of_same rfl rfl rfl, howns.of_same rfl rfl rfl rfl, hkept⟩

theorem tusPatch_spec (offset : ℕ) (body : List (Except IoError Content)) :
    Spec u strict t (fun _ => True) (tusPatch u offset body) (fun _ _ => True)
      fun _ => True := by
  unfold tusPatch
  apply session_keeps.bind
  intro _
  apply (slot_spec settled_true fun _ _ _ _ => trivial).bind
  intro i
  apply (tryLock_spec settled_true fun _ _ _ => trivial).bind
  intro locked
  cases locked with
  | false => exact spec_throw fun _ _ => trivial
  | true =>
    apply (spec_attempt (spec_pre patchLocked_spec fun s hs => (hs rfl).2)).bind
    intro result
    match result with
    | .error e =>
      apply unlock_spec.bind
      intro _
      exact spec_throw fun _ _ => trivial
    | .ok (reply, none) =>
      apply unlock_spec.bind
      intro _
      exact spec_pure fun _ _ => trivial
    | .ok (reply, some seen) =>
      apply detach_spec.bind
      intro _
      apply finish_spec.bind
      intro _
      exact spec_pure fun _ _ => trivial

theorem removePart_spec {A E : State → Prop} (hA : Settled strict t A)
    (hlocked : ∀ s, A s → Locked t s)
    (hkeeps : ∀ s, A s → A (s.apply .remove) ∧ ∀ late, A { s with late := late }) :
    Spec u strict t A (tried .removePart) (fun _ => A) E := by
  apply effect_keeps (r := .removePart) (e := fun _ => .remove)
    (fun _ _ _ _ h => changeIf_comes h) hA _ hkeeps
  rintro s - hs e ⟨⟩
  exact ⟨fun _ => hlocked s hs, fun _ => trivial⟩

theorem deleteLocked_spec :
    Spec u strict t (Idle t i) (do
      match ← Fallible.attempt (session u) with
      | .error e =>
        ask .forgetSlot
        throw e
      | .ok _ =>
        let _ ← tried .removePart
        query .deleteUpload
        ask .forgetSlot) (fun _ => Idle t i) (Idle t i) := by
  apply (spec_attempt session_spec).bind
  intro result
  cases result with
  | error e =>
    apply forgetSlot_spec.bind
    intro _
    exact spec_throw fun _ hs => hs
  | ok row =>
    have idle : Spec u strict t (Idle t i) (tried .removePart) (fun _ => Idle t i) (Idle t i) :=
      removePart_spec settled_idle (fun _ hs => hs.locked) fun _ hs => ⟨hs.apply _, hs.late⟩
    apply (spec_pre idle fun _ hs => hs.1).bind
    intro _
    have deleted : Spec u strict t (Idle t i) (query .deleteUpload)
        (fun _ s => Idle t i s ∧ Closed u.expires s) (Idle t i) := by
      apply change_spec (r := .deleteUpload) (e := fun _ => .delete)
        (fun _ _ _ _ h => change_comes h) settled_idle
      · rintro s - hs e ⟨⟩
        exact ⟨fun _ => hs.locked, fun _ => trivial⟩
      · exact fun s _ hs => ⟨hs.apply _, Or.inl rfl⟩
      · exact fun s hs => ⟨hs, hs.apply _, hs.late⟩
    apply deleted.bind
    intro _
    exact forgetSlot_spec

theorem tusDelete_spec :
    Spec u strict t (fun _ => True) (tusDelete u) (fun _ _ => True) fun _ => True := by
  unfold tusDelete
  apply session_keeps.bind
  intro _
  apply (slot_spec settled_true fun _ _ _ _ => trivial).bind
  intro i
  apply (tryLock_spec settled_true fun _ _ _ => trivial).bind
  intro locked
  cases locked with
  | false => exact spec_throw fun _ _ => trivial
  | true =>
    apply (spec_attempt (spec_pre deleteLocked_spec fun s hs => (hs rfl).2)).bind
    intro result
    apply (spec_pre unlock_spec fun s hs => ?_).bind
    · intro _
      cases result with
      | ok _ => exact spec_pure fun _ _ => trivial
      | error e => exact spec_throw fun _ _ => trivial
    · cases result <;> exact hs

def Expired (u : Upload) (t i : ℕ) (s : State) : Prop := Idle t i s ∧ u.expires ≤ s.now

theorem settled_sweeping : Settled strict t (Expired u t i) := settled_idle.and settled_expired

theorem Expired.keeps (h : Expired u t i s) (e : Effect) :
    Expired u t i (s.apply e) ∧ ∀ late, Expired u t i { s with late := late } := by
  refine ⟨⟨h.1.apply e, ?_⟩, fun late => ⟨h.1.late late, h.2⟩⟩
  rw [(apply_memory s e).now]
  exact h.2

theorem expiredUploads_spec {E : State → Prop} :
    Spec u strict t (fun _ => True) (tried .expiredUploads)
      (fun result s => result = .ok true → u.expires ≤ s.now) E := by
  apply tried_spec settled_true (fun _ _ _ => reads_duty rfl)
  rintro s o _ s' hanswer - - - - rfl
  rw [answer_reads rfl hanswer]
  cases hfails : o.fails with
  | some e => simp [State.answer, State.tries, hfails] at hanswer
  | none =>
    simp only [State.answer, State.tries, hfails, Prod.mk.injEq, Except.ok.injEq,
      Bool.and_eq_true, decide_eq_true_eq] at hanswer
    exact Nat.le_of_lt hanswer.1.2

theorem sweepExpiredUploads_spec :
    Spec u strict t (fun _ => True) sweepExpiredUploads (fun _ _ => True) fun _ => True := by
  unfold sweepExpiredUploads
  apply expiredUploads_spec.bind
  intro result
  match result with
  | .error e => exact spec_pure fun _ _ => trivial
  | .ok false => exact spec_pure fun _ _ => trivial
  | .ok true =>
    have expired : Settled strict t fun s => u.expires ≤ s.now := settled_expired
    apply (spec_pre (slot_spec expired fun _ _ _ hs => hs) fun _ hs => hs rfl).bind
    intro i
    apply (tryLock_spec expired fun _ _ hs => hs).bind
    intro locked
    cases locked with
    | false => exact spec_pure fun _ _ => trivial
    | true =>
      have removed : Spec u strict t (Expired u t i) (tried .removePart)
          (fun _ => Expired u t i) fun _ => True :=
        removePart_spec settled_sweeping (fun _ hs => hs.1.locked) fun _ hs => hs.keeps _
      apply (spec_pre removed fun s hs => ⟨(hs rfl).2, (hs rfl).1⟩).bind
      intro _
      have deleted : Spec u strict t (Expired u t i) (tried .deleteUpload)
          (fun _ => Expired u t i) fun _ => True := by
        apply effect_keeps (r := .deleteUpload) (e := fun _ => .delete)
          (fun _ _ _ _ h => Or.inr (change_comes h)) settled_sweeping _ fun _ hs => hs.keeps _
        rintro s - hs e ⟨⟩
        exact ⟨fun _ => hs.1.locked, fun _ => trivial⟩
      apply deleted.bind
      intro went
      apply (spec_pre forgetSlot_spec fun s hs => ⟨hs.1, Or.inr (Or.inr hs.2)⟩).bind
      intro _
      apply unlock_spec.bind
      intro _
      exact spec_pure fun _ _ => trivial

theorem arrive_safe {x : Op Unit}
    (hx : Spec u strict t (fun _ => True) x (fun _ _ => True) fun _ => True) (w : Moment) :
    Safe (machine u.expires) (protocol u strict) (.request t)
      ((do ask .arrive; x : Op Unit).run.bind fun _ => .done ()) (fun _ _ => True) w := by
  apply Safe.bind
  refine Safe.call (A := fun _ => True) (fun _ _ _ _ _ => id) trivial
    fun w _ hinv o a w' hp hallow => ?_
  obtain ⟨hexec, -⟩ := (machine u.expires).perform_eq_some.mp hp
  have hdoes := act_does (exec_request.mp hexec).2
  refine ⟨hinv.does hdoes trivial hallow.2, fun v hv halive => ?_, ?_⟩
  · exact Rely.does hinv hdoes trivial (fun h => hv (by rw [h])) halive
  · exact (hx w' fun _ => trivial).mono fun _ _ _ => trivial

theorem work_safe (work : Work) (w : Moment) :
    Safe (machine u.expires) (protocol u strict) (.request t)
      ((work.run u).run.bind fun _ => .done ()) (fun _ _ => True) w := by
  cases work with
  | patch offset body =>
    exact arrive_safe ((tusPatch_spec offset body).bind fun _ => spec_pure fun _ hs => hs) w
  | delete => exact arrive_safe tusDelete_spec w
  | sweep => exact arrive_safe (sweepExpiredUploads_spec.bind fun _ => spec_pure fun _ hs => hs) w

theorem environment_safe (happenings : List Happening) (w : Moment) :
    Safe (machine u.expires) (protocol u strict) .environment
      ((happenings.forM fun h => ask (.happens h) : Op Unit).run.bind fun _ => .done ())
      (fun _ _ => True) w := by
  have hJ : Fallible.Closed (fun {α : Type} (x : Op α) =>
      x.run.Calls fun c => ∃ h, c = .happens h) := Fallible.closed_calls _
  have hcalls : (happenings.forM fun h => ask (.happens h) : Op Unit).run.Calls
      fun c => ∃ h, c = .happens h :=
    hJ.forM fun h _ => ⟨⟨h, rfl⟩, fun _ => trivial⟩
  apply Safe.bind
  refine (Safe.of_calls (A := fun _ => True) (fun _ _ _ _ _ _ => trivial) ?_ hcalls trivial).mono
    fun _ _ _ => trivial
  rintro _ ⟨h, rfl⟩ w - hinv o r w' hp -
  obtain ⟨hexec, -⟩ := (machine u.expires).perform_eq_some.mp hp
  have hstate : w'.state = w.state.happen h := exec_happens hexec
  obtain ⟨s', past'⟩ := w'
  obtain rfl := hstate
  exact ⟨Invariant.happens hinv h, fun v _ halive => Rely.happens hinv halive, trivial⟩

/-- The step is not one in which reading the row fails under the lock, or renaming a file that is
there. -/
def Steady (w : Moment) (e : Event Party Call Call.Answer Choice) : Prop :=
  ∀ t, e.thread = .request t → steady w.state t e.call e.choice = true

variable {created : ℕ} {works : ℕ → Work} {happenings : List Happening}
variable {c : Config Party Call Call.Answer Choice State}

theorem initial_invariant :
    Invariant u strict (serving u created works happenings).world.state := by
  refine ⟨fun t ht => absurd rfl ht, Or.inl ⟨rfl, rfl⟩, nofun, fun _ _ => rfl, Or.inl rfl, ?_⟩
  intro _
  refine ⟨rfl, fun r hr => ?_, fun _ => List.prefix_rfl, fun _ _ => nofun, nofun⟩
  obtain rfl := Option.some.inj hr
  rfl

theorem run_invariant
    (h : (machine u.expires).Reaches (fun w e _ => Steady w e ∧ (strict → e.choice.prompt = true))
      (serving u created works happenings) c) : Invariant u strict c.world.state := by
  have start : Protocol.Keeps (machine u.expires) (protocol u strict)
      (serving u created works happenings) := by
    refine ⟨initial_invariant, fun p => ?_⟩
    cases p with
    | request t => exact work_safe (works t) _
    | environment => exact environment_safe happenings _
  exact (start.reaches h).1

theorem run_once {allow : Machine.Allowed Party Call Call.Answer Choice State}
    (h : (machine u.expires).Reaches allow (serving u created works happenings) c) :
    Once c.world.state := by
  induction h with
  | refl => exact Or.inl rfl
  | @step _ p _ call _ _ _ _ _ hp _ ih =>
    have hexec := ((machine u.expires).perform_eq_some.mp hp).1
    cases p with
    | request t => exact ih.does (act_does (exec_request.mp hexec).2)
    | environment =>
      cases call with
      | happens happening =>
        rw [exec_happens hexec]
        exact ih.happens happening
      | _ => cases hexec

def sampleUpload : Upload where
  length := 3
  expectedSha256 := none
  expires := 100
  sha256 bytes := if bytes = [1, 2, 3] then ['a'] else ['b']

/-- The first request breaks off, the second one comes too early, and the others resume. -/
def sampleWorks : ℕ → Work
  | 0 => .patch 0 [.ok [1], .ok [2], .error (.other "connection reset")]
  | 1 => .patch 0 [.ok [4]]
  | _ => .patch 2 [.ok [3]]

def sampleStart : Config Party Call Call.Answer Choice State :=
  serving sampleUpload 0 sampleWorks [.restart]

/-- Calls that go well. -/
def goes (p : Party) (n : ℕ) : List (Party × Choice) := List.replicate n (p, ⟨none, .now, 9⟩)

/-- The second request finds the slot locked. -/
def sampleMeeting : List (Party × Choice) := goes (.request 0) 17 ++ goes (.request 1) 5

/-- The server is restarted before the upload is resumed. -/
def sampleSchedule : List (Party × Choice) :=
  sampleMeeting ++ goes (.request 0) 7 ++ goes .environment 1 ++ goes (.request 2) 34

def steadyEvent (w : Moment) (e : Event Party Call Call.Answer Choice) : Bool :=
  match e.thread with
  | .request t => steady w.state t e.call e.choice
  | .environment => true

theorem steady_of_event {w : Moment} {e : Event Party Call Call.Answer Choice}
    (h : steadyEvent w e = true) : Steady w e := by
  intro t ht
  simpa [steadyEvent, ht] using h

/-- Whatever fails, and whoever is cancelled, an upload is attached at most once; and as long as
the database answers whoever holds the slot, and a file that is complete is renamed, never do two
requests have its part file open for writing. -/
theorem one_writer (u : Upload) (created : ℕ) (works : ℕ → Work) (happenings : List Happening) :
    (∀ c, (machine u.expires).Reaches (fun _ _ _ => True)
        (serving u created works happenings) c → c.world.state.attached.length ≤ 1) ∧
    ∀ c, (machine u.expires).Reaches (fun w e _ => Steady w e)
        (serving u created works happenings) c →
      ∀ t v, c.world.state.files t ≠ none → c.world.state.files v ≠ none → t = v := by
  constructor
  · intro c h
    rcases run_once h with hnone | ⟨-, hone⟩
    · rw [hnone]
      exact Nat.zero_le 1
    · exact Nat.le_of_eq hone
  · intro c h t v ht hv
    have hinv : Invariant u False c.world.state :=
      run_invariant (h.mono fun _ _ _ ha => ⟨ha, False.elim⟩)
    exact (hinv.writers v hv).unique (hinv.writers t ht).locked

/-- The first request writes while the second one has been turned away. -/
theorem one_writer_sample :
    ∃ c, (machine 100).run sampleStart sampleMeeting = some c ∧ c.world.state.files 0 ≠ none ∧
      c.world.state.attached.length ≤ 1 ∧ ∀ v, c.world.state.files v ≠ none → v = 0 := by
  have passed : (machine 100).runs (fun w e _ => steadyEvent w e) sampleStart sampleMeeting =
      true := by
    decide +kernel
  obtain ⟨c, hrun, hreach⟩ : ∃ c, (machine 100).run sampleStart sampleMeeting = some c ∧
      (machine 100).Reaches (fun w e _ => Steady w e) sampleStart c :=
    Machine.Reaches.of_runs (fun _ _ _ h => steady_of_event h) passed
  have final : ((machine 100).run sampleStart sampleMeeting).map (·.world.state.files 0) =
      some (some false) := by
    decide +kernel
  rw [hrun, Option.map_some, Option.some.injEq] at final
  have hopen : c.world.state.files 0 ≠ none := by
    rw [final]
    exact nofun
  have results := one_writer sampleUpload 0 sampleWorks [.restart]
  exact ⟨c, hrun, hopen, results.1 c (hreach.mono fun _ _ _ _ => trivial),
    fun v hv => results.2 c hreach v 0 hv hopen⟩

/-- A request whose reading of the row fails under the lock gives its slot away, and then two
others write at once. -/
example : ((machine 100).run (serving sampleUpload 0 (fun _ => .patch 0 [.ok [1]]) [])
    (goes (.request 0) 5 ++ goes (.request 1) 4 ++
      [(.request 0, ⟨some (.other "database is locked"), .never, 0⟩)] ++ goes (.request 0) 2 ++
      goes (.request 2) 15 ++ goes (.request 1) 11)).map
      (fun c => (c.world.state.files 1, c.world.state.files 2)) =
    some (some false, some false) := by
  decide +kernel

/-- As long as, besides, what is reported to be written is, and nothing takes effect after its
request has ended, all that was acknowledged is at the front of the part file, and what is attached
is all that was acknowledged, in the declared length and under its SHA-256. -/
theorem acknowledged_is_attached (u : Upload) (created : ℕ) (works : ℕ → Work)
    (happenings : List Happening) {c : Config Party Call Call.Answer Choice State}
    (h : (machine u.expires).Reaches (fun w e _ => Steady w e ∧ e.choice.prompt = true)
      (serving u created works happenings) c) :
    (∀ r ∈ c.world.state.row, c.world.state.acknowledged.length = r.received ∧
      c.world.state.acknowledged <+: c.world.state.content) ∧
    ∀ a ∈ c.world.state.attached, Whole u c.world.state.acknowledged a := by
  have hinv : Invariant u True c.world.state :=
    run_invariant (h.mono fun _ _ _ ha => ⟨ha.1, fun _ => ha.2⟩)
  have hkept : Kept u c.world.state := hinv.kept trivial
  refine ⟨fun r hr => ⟨hkept.counted r hr, hkept.stored fun hnone => ?_⟩, fun a ha =>
    (hkept.attached a ha).2⟩
  rw [hnone] at hr
  cases hr

/-- The upload that is resumed after the restart. -/
theorem acknowledged_is_attached_sample :
    ∃ c, (machine 100).run sampleStart sampleSchedule = some c ∧
      c.world.state.attached.map (·.bytes) = [[1, 2, 3]] ∧
      ∀ a ∈ c.world.state.attached, Whole sampleUpload c.world.state.acknowledged a := by
  have passed : (machine 100).runs (fun w e _ => steadyEvent w e && e.choice.prompt) sampleStart
      sampleSchedule = true := by
    decide +kernel
  obtain ⟨c, hrun, hreach⟩ : ∃ c, (machine 100).run sampleStart sampleSchedule = some c ∧
      (machine 100).Reaches (fun w e _ => Steady w e ∧ e.choice.prompt = true) sampleStart c :=
    Machine.Reaches.of_runs (fun _ _ _ h => (Bool.and_eq_true_iff.mp h).imp_left steady_of_event)
      passed
  have final : ((machine 100).run sampleStart sampleSchedule).map
      (·.world.state.attached.map (·.bytes)) = some [[1, 2, 3]] := by
    decide +kernel
  rw [hrun, Option.map_some, Option.some.injEq] at final
  exact ⟨c, hrun, final,
    (acknowledged_is_attached sampleUpload 0 sampleWorks [.restart] hreach).2⟩

end YaNuget.Tus
