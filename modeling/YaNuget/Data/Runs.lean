import Mathlib.Data.List.Infix

/-!
# Runs of a system that steps

A step takes a state and an action to the next state, or is not possible. A run
takes the actions of a list one after another. What every step keeps, every
state that a run reaches has.
-/
namespace YaNuget.Runs

variable {σ α : Type} (step : σ → α → Option σ)

/-- The state after a list of actions, if each of them is possible. -/
def run : σ → List α → Option σ
  | s, [] => some s
  | s, a :: actions => (step s a).bind fun next => run next actions

/-- Some run leads from one state to the other. -/
def Reaches (s s' : σ) : Prop := ∃ actions, run step s actions = some s'

/-- Every action of a run is possible and passes a test. -/
def runs (ok : σ → α → Bool) : σ → List α → Bool
  | _, [] => true
  | s, a :: actions => ok s a && (step s a).any fun next => runs ok next actions

section Rules

variable {step} {s s' : σ} {a : α} {actions rest : List α}

@[simp] theorem run_nil : run step s [] = some s := rfl

theorem run_cons : run step s (a :: actions) = some s' ↔
    ∃ next, step s a = some next ∧ run step next actions = some s' :=
  Option.bind_eq_some_iff

theorem run_append : run step s (actions ++ rest) = some s' ↔
    ∃ mid, run step s actions = some mid ∧ run step mid rest = some s' := by
  induction actions generalizing s with
  | nil => simp
  | cons a actions ih =>
    simp only [List.cons_append, run_cons, ih]
    constructor
    · rintro ⟨next, hnext, mid, hmid, hrest⟩
      exact ⟨mid, ⟨next, hnext, hmid⟩, hrest⟩
    · rintro ⟨mid, ⟨next, hnext, hmid⟩, hrest⟩
      exact ⟨next, hnext, mid, hmid, hrest⟩

theorem run_concat : run step s (actions ++ [a]) = some s' ↔
    ∃ mid, run step s actions = some mid ∧ step mid a = some s' := by
  simp [run_append, run_cons]

theorem run_keeps {I : σ → Prop} (keeps : ∀ s a s', step s a = some s' → I s → I s')
    (h : run step s actions = some s') (hs : I s) : I s' := by
  induction actions generalizing s with
  | nil =>
    cases h
    exact hs
  | cons a actions ih =>
    obtain ⟨next, hnext, hrest⟩ := run_cons.mp h
    exact ih hrest (keeps s a next hnext hs)

theorem Reaches.keeps {I : σ → Prop} (keeps : ∀ s a s', step s a = some s' → I s → I s')
    (h : Reaches step s s') (hs : I s) : I s' := by
  obtain ⟨actions, hrun⟩ := h
  exact run_keeps keeps hrun hs

/-- What a step keeps as long as it meets a condition holds in every state that a run of such steps
passes. -/
theorem run_keeps_of {I : σ → Prop} {C : σ → α → Prop}
    (keeps : ∀ s a s', step s a = some s' → C s a → I s → I s') (hs : I s)
    (hC : ∀ before a, before ++ [a] <+: actions → ∀ mid, run step s before = some mid → C mid a) :
    ∀ before, before <+: actions → ∀ mid, run step s before = some mid → I mid := by
  intro before hbefore
  induction before using List.reverseRecOn with
  | nil =>
    intro mid hmid
    cases hmid
    exact hs
  | append_singleton before a ih =>
    intro mid hmid
    obtain ⟨last, hlast, hstep⟩ := run_concat.mp hmid
    have hshorter : before <+: actions := (List.prefix_append before [a]).trans hbefore
    exact keeps last a mid hstep (hC before a hbefore last hlast) (ih hshorter last hlast)

/-- A list of actions that passes the test runs, and each action passes it in the state before. -/
theorem run_of_runs {ok : σ → α → Bool} (h : runs step ok s actions = true) :
    (∃ s', run step s actions = some s') ∧ ∀ before a, before ++ [a] <+: actions →
      ∀ mid, run step s before = some mid → ok mid a = true := by
  induction actions generalizing s with
  | nil => exact ⟨⟨s, rfl⟩, fun before a hbefore => by simp at hbefore⟩
  | cons first actions ih =>
    obtain ⟨hok, hrest⟩ := Bool.and_eq_true_iff.mp h
    obtain ⟨next, hnext, hruns⟩ := (Option.any_eq_true _ _).mp hrest
    obtain ⟨⟨s', hs'⟩, hpassed⟩ := ih hruns
    refine ⟨⟨s', run_cons.mpr ⟨next, hnext, hs'⟩⟩, ?_⟩
    intro before a hbefore mid hmid
    cases before with
    | nil =>
      obtain ⟨rfl, -⟩ := List.cons_prefix_cons.mp hbefore
      cases hmid
      exact hok
    | cons b before =>
      obtain ⟨rfl, htail⟩ := List.cons_prefix_cons.mp hbefore
      obtain ⟨next', hnext', hmid⟩ := run_cons.mp hmid
      obtain rfl : next = next' := Option.some.inj (hnext.symm.trans hnext')
      exact hpassed before a htail mid hmid

end Rules

end YaNuget.Runs
