import YaNuget.Concurrency.Program

/-!
# Interleavings

A machine answers one call of one thread at a time. What the scheduler may
choose at a call (whether it fails, say) is the choice `O`; a call that cannot
be answered now, such as one waiting for a lock, has no answer. The world keeps
the events so far, newest first, so that properties of a run can speak of them.
-/
namespace YaNuget.Concurrency

/-- How the calls of thread `t` act on the shared state. -/
structure Machine (T C : Type) (R : C → Type) (O S : Type) where
  exec : T → (c : C) → O → S → Option (R c × S)

structure Event (T C : Type) (R : C → Type) (O : Type) where
  thread : T
  call : C
  choice : O
  answer : R call

structure World (T C : Type) (R : C → Type) (O S : Type) where
  state : S
  past : List (Event T C R O)

structure Config (T C : Type) (R : C → Type) (O S : Type) where
  world : World T C R O S
  threads : T → Program C R Unit

namespace Machine

variable {T C : Type} {R : C → Type} {O S : Type} (M : Machine T C R O S)

/-- One call, recorded. -/
def perform (t : T) (c : C) (o : O) (w : World T C R O S) : Option (R c × World T C R O S) :=
  (M.exec t c o w.state).map fun a => (a.1, ⟨a.2, ⟨t, c, o, a.1⟩ :: w.past⟩)

theorem perform_eq_some {t : T} {c : C} {o : O} {w w' : World T C R O S} {r : R c} :
    M.perform t c o w = some (r, w') ↔
      M.exec t c o w.state = some (r, w'.state) ∧ w'.past = ⟨t, c, o, r⟩ :: w.past := by
  cases w' with
  | mk s past =>
    cases h : M.exec t c o w.state with
    | none => simp [perform, h]
    | some a =>
      obtain ⟨r', s'⟩ := a
      simp only [perform, h, Option.map_some, Option.some.injEq, Prod.mk.injEq, World.mk.injEq]
      constructor
      · rintro ⟨rfl, rfl, rfl⟩
        exact ⟨⟨rfl, rfl⟩, rfl⟩
      · rintro ⟨⟨rfl, rfl⟩, rfl⟩
        exact ⟨rfl, rfl, rfl⟩

variable [DecidableEq T]

/-- Let thread `t` make its next call. -/
def step (c : Config T C R O S) (t : T) (o : O) : Option (Config T C R O S) :=
  match c.threads t with
  | .done _ => none
  | .call call next =>
    (M.perform t call o c.world).map fun a => ⟨a.2, Function.update c.threads t (next a.1)⟩

theorem step_of_done {c : Config T C R O S} {t : T} {o : O} {a : Unit}
    (ht : c.threads t = .done a) : M.step c t o = none := by
  unfold step
  rw [ht]

theorem step_of_call {c : Config T C R O S} {t : T} {o : O} {call : C}
    {next : R call → Program C R Unit} (ht : c.threads t = .call call next) :
    M.step c t o = (M.perform t call o c.world).map fun a =>
      ⟨a.2, Function.update c.threads t (next a.1)⟩ := by
  unfold step
  rw [ht]

abbrev Allowed (T C : Type) (R : C → Type) (O S : Type) :=
  World T C R O S → Event T C R O → World T C R O S → Prop

/-- `c'` is reached from `c` by a run whose steps all satisfy `allow`. -/
inductive Reaches (allow : Allowed T C R O S) (c : Config T C R O S) : Config T C R O S → Prop
  | refl : Reaches allow c c
  | step {c₁ : Config T C R O S} {t : T} {o : O} {call : C} {r : R call}
      {next : R call → Program C R Unit} {w : World T C R O S} :
      Reaches allow c c₁ → c₁.threads t = .call call next →
      M.perform t call o c₁.world = some (r, w) → allow c₁.world ⟨t, call, o, r⟩ w →
      Reaches allow c ⟨w, Function.update c₁.threads t (next r)⟩

variable {M}

theorem Reaches.mono {allow allow' : Allowed T C R O S} {c c' : Config T C R O S}
    (h : M.Reaches allow c c') (himp : ∀ w e w', allow w e w' → allow' w e w') :
    M.Reaches allow' c c' := by
  induction h with
  | refl => exact .refl
  | step _ ht hp ha ih => exact ih.step ht hp (himp _ _ _ ha)

theorem Reaches.trans {allow : Allowed T C R O S} {c c₁ c₂ : Config T C R O S}
    (h : M.Reaches allow c c₁) (h' : M.Reaches allow c₁ c₂) : M.Reaches allow c c₂ := by
  induction h' with
  | refl => exact h
  | step _ ht hp ha ih => exact ih.step ht hp ha

theorem Reaches.strengthen {allow fact : Allowed T C R O S} {c c' : Config T C R O S}
    (h : M.Reaches allow c c')
    (hfact : ∀ c₁, M.Reaches allow c c₁ → ∀ t o call r next w,
      c₁.threads t = .call call next → M.perform t call o c₁.world = some (r, w) →
      allow c₁.world ⟨t, call, o, r⟩ w → fact c₁.world ⟨t, call, o, r⟩ w) :
    M.Reaches (fun w e w' => allow w e w' ∧ fact w e w') c c' := by
  induction h with
  | refl => exact .refl
  | step hr ht hp ha ih => exact ih.step ht hp ⟨ha, hfact _ hr _ _ _ _ _ _ ht hp ha⟩

variable (M)

/-- Run a schedule: which thread goes next, and the choice at its call. -/
def run (c : Config T C R O S) : List (T × O) → Option (Config T C R O S)
  | [] => some c
  | e :: es => (M.step c e.1 e.2).bind fun c' => run c' es

/-- The steps of a schedule satisfy `allow`, as a test. -/
def runs (ok : World T C R O S → Event T C R O → World T C R O S → Bool)
    (c : Config T C R O S) : List (T × O) → Bool
  | [] => true
  | e :: es =>
    match c.threads e.1 with
    | .done _ => false
    | .call call next =>
      match M.perform e.1 call e.2 c.world with
      | none => false
      | some a => ok c.world ⟨e.1, call, e.2, a.1⟩ a.2 &&
          runs ok ⟨a.2, Function.update c.threads e.1 (next a.1)⟩ es

variable {M}

theorem run_append {c : Config T C R O S} (xs ys : List (T × O)) :
    M.run c (xs ++ ys) = (M.run c xs).bind fun c' => M.run c' ys := by
  induction xs generalizing c with
  | nil => rfl
  | cons e es ih => simp [run, ih, Option.bind_assoc]

/-- A schedule that passes the test runs, and its run satisfies `allow`. -/
theorem Reaches.of_runs {allow : Allowed T C R O S}
    {ok : World T C R O S → Event T C R O → World T C R O S → Bool}
    (hok : ∀ w e w', ok w e w' = true → allow w e w') {c : Config T C R O S}
    {es : List (T × O)} (h : M.runs ok c es = true) :
    ∃ c', M.run c es = some c' ∧ M.Reaches allow c c' := by
  induction es generalizing c with
  | nil => exact ⟨c, rfl, .refl⟩
  | cons e es ih =>
    cases ht : c.threads e.1 with
    | done a => simp [runs, ht] at h
    | call call next =>
      cases hp : M.perform e.1 call e.2 c.world with
      | none => simp [runs, ht, hp] at h
      | some a =>
        simp only [runs, ht, hp, Bool.and_eq_true] at h
        obtain ⟨c', hrun, hreach⟩ := ih h.2
        refine ⟨c', by simpa [run, step_of_call M ht, hp] using hrun, ?_⟩
        have first : M.Reaches allow c ⟨a.2, Function.update c.threads e.1 (next a.1)⟩ :=
          Reaches.refl.step ht hp (hok _ _ _ h.1)
        exact first.trans hreach

theorem Reaches.of_run {c c' : Config T C R O S} {es : List (T × O)}
    (h : M.run c es = some c') : M.Reaches (fun _ _ _ => True) c c' := by
  induction es generalizing c with
  | nil =>
    obtain rfl : c = c' := by simpa [run] using h
    exact .refl
  | cons e es ih =>
    simp only [run] at h
    cases ht : c.threads e.1 with
    | done a => simp [step_of_done M ht] at h
    | call call next =>
      cases hp : M.perform e.1 call e.2 c.world with
      | none => simp [step_of_call M ht, hp] at h
      | some a =>
        simp only [step_of_call M ht, hp, Option.map_some, Option.bind_some] at h
        exact (Reaches.refl.step ht hp trivial).trans (ih h)

end Machine

end YaNuget.Concurrency
