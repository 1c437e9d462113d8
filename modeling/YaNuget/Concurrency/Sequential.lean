import YaNuget.Concurrency.Machine

/-!
# Programs run alone

Pre- and postconditions for a program nobody interferes with. What a call may
answer, and how it changes the state, is a relation; each change has to be one
that `ok` admits.
-/
namespace YaNuget.Concurrency

variable {C : Type} {R : C → Type} {S ε α β : Type}
variable {step : S → (c : C) → R c → S → Prop} {ok : S → S → Prop}

namespace Program

/-- From `s`, the program makes only changes that are `ok`, and ends in `Q`. -/
def Ensures (step : S → (c : C) → R c → S → Prop) (ok : S → S → Prop) :
    Program C R α → (α → S → Prop) → S → Prop
  | .done a, Q, s => Q a s
  | .call c next, Q, s => ∀ r s', step s c r s' → ok s s' ∧ Ensures step ok (next r) Q s'

theorem Ensures.mono {p : Program C R α} {Q Q' : α → S → Prop} {s : S}
    (hQ : ∀ a s, Q a s → Q' a s) (h : p.Ensures step ok Q s) : p.Ensures step ok Q' s := by
  induction p generalizing s with
  | done a => exact hQ a s h
  | call c next ih => exact fun r s' hs => ⟨(h r s' hs).1, ih r (h r s' hs).2⟩

theorem Ensures.bind {p : Program C R α} {f : α → Program C R β} {Q : β → S → Prop} {s : S}
    (h : p.Ensures step ok (fun a s => (f a).Ensures step ok Q s) s) :
    (p >>= f).Ensures step ok Q s := by
  induction p generalizing s with
  | done a => exact h
  | call c next ih => exact fun r s' hs => ⟨(h r s' hs).1, ih r (h r s' hs).2⟩

theorem Ensures.of_calls {φ : C → Prop} {I : S → Prop} {p : Program C R α} (hp : p.Calls φ)
    (h : ∀ c, φ c → ∀ s r s', I s → step s c r s' → ok s s' ∧ I s') {s : S} (hs : I s) :
    p.Ensures step ok (fun _ s => I s) s := by
  induction p generalizing s with
  | done a => exact hs
  | call c next ih =>
    intro r s' hstep
    obtain ⟨hok, hs'⟩ := h c hp.1 s r s' hs hstep
    exact ⟨hok, ih r (hp.2 r) hs'⟩

/-- A run of the only task, to its end. -/
theorem Ensures.completed {O : Type} {M : Machine Unit C R O S}
    {allow : Machine.Allowed Unit C R O S} {start c : Config Unit C R O S} {Q : S → Prop}
    (hstep : ∀ w o call r w', M.perform () call o w = some (r, w') →
      allow w ⟨(), call, o, r⟩ w' → step w.state call r w'.state)
    (h : (start.threads ()).Ensures step ok (fun _ s => Q s) start.world.state)
    (hr : M.Reaches allow start c) (hdone : (c.threads ()).nextCall = none) : Q c.world.state := by
  have along : (c.threads ()).Ensures step ok (fun _ s => Q s) c.world.state := by
    clear hdone
    induction hr with
    | refl => exact h
    | step _ ht hp ha ih =>
      rw [ht] at ih
      simpa using (ih _ _ (hstep _ _ _ _ _ hp ha)).2
  cases hp : c.threads () with
  | done a =>
    rw [hp] at along
    exact along
  | call call next => simp [hp, nextCall] at hdone

/-- Run a program alone with the choices at its calls, until it is done. It is cut off where the
choices run out or a call is not answered. -/
def play {T O : Type} (M : Machine T C R O S) (t : T) : Program C R α → List O → S → Option α × S
  | .done a, _, s => (some a, s)
  | .call _ _, [], s => (none, s)
  | .call c next, o :: choices, s =>
    match M.exec t c o s with
    | none => (none, s)
    | some (r, s') => play M t (next r) choices s'

/-- Wherever it is cut off, a program that is run alone makes only changes that are `ok`. -/
theorem Ensures.play {T O : Type} {M : Machine T C R O S} {t : T}
    (hstep : ∀ s c o r s', M.exec t c o s = some (r, s') → step s c r s')
    (hrefl : ∀ s, ok s s) (htrans : ∀ s₁ s₂ s₃, ok s₁ s₂ → ok s₂ s₃ → ok s₁ s₃)
    {p : Program C R α} {Q : α → S → Prop} {s : S} (h : p.Ensures step ok Q s) (choices : List O) :
    ok s (p.play M t choices s).2 ∧
      ∀ a, (p.play M t choices s).1 = some a → Q a (p.play M t choices s).2 := by
  induction p generalizing s choices with
  | done a =>
    refine ⟨hrefl s, fun a' ha => ?_⟩
    obtain rfl : a = a' := by simpa [Program.play] using ha
    exact h
  | call c next ih =>
    cases choices with
    | nil => exact ⟨hrefl s, by simp [Program.play]⟩
    | cons o choices =>
      cases hexec : M.exec t c o s with
      | none =>
        have hcut : (call c next).play M t (o :: choices) s = (none, s) := by
          simp [Program.play, hexec]
        rw [hcut]
        exact ⟨hrefl s, by simp⟩
      | some answered =>
        obtain ⟨r, s'⟩ := answered
        have hgoes : (call c next).play M t (o :: choices) s = (next r).play M t choices s' := by
          simp [Program.play, hexec]
        obtain ⟨hok, hrest⟩ := h r s' (hstep _ _ _ _ _ hexec)
        obtain ⟨hchanges, hend⟩ := ih r hrest choices
        rw [hgoes]
        exact ⟨htrans _ _ _ hok hchanges, hend⟩

end Program

namespace Fallible

variable {x : Fallible C R ε α} {f : α → Fallible C R ε β} {s : S}

theorem ensures_bind {Q : Except ε β → S → Prop}
    (h : x.run.Ensures step ok (fun result s => match result with
      | .ok a => (f a).run.Ensures step ok Q s
      | .error e => Q (.error e) s) s) : (x >>= f).run.Ensures step ok Q s := by
  refine Program.Ensures.bind (Program.Ensures.mono ?_ h)
  intro result s hr
  cases result with
  | ok a => exact hr
  | error e => exact hr

theorem ensures_attempt {Q : Except ε (Except ε α) → S → Prop}
    (h : x.run.Ensures step ok (fun result s => Q (.ok result) s) s) :
    (attempt x : Fallible C R ε _).run.Ensures step ok Q s :=
  Program.Ensures.bind h

/-- `x` keeps `I`, whatever comes of it. -/
def Preserves (step : S → (c : C) → R c → S → Prop) (ok : S → S → Prop) (I : S → Prop)
    (x : Fallible C R ε α) : Prop :=
  ∀ s, I s → x.run.Ensures step ok (fun _ s => I s) s

theorem closed_preserves (step : S → (c : C) → R c → S → Prop) (ok : S → S → Prop)
    (I : S → Prop) :
    Closed (fun {α : Type} (x : Fallible C R ε α) => Preserves step ok I x) where
  result _ _ hs := hs
  bind hx hf s hs := by
    refine ensures_bind ((hx s hs).mono fun result s hs => ?_)
    cases result with
    | ok a => exact hf a s hs
    | error e => exact hs
  attempt hx s hs := ensures_attempt (hx s hs)

theorem Preserves.of_calls {φ : C → Prop} {I : S → Prop} (hx : x.run.Calls φ)
    (h : ∀ c, φ c → ∀ s r s', I s → step s c r s' → ok s s' ∧ I s') : Preserves step ok I x :=
  fun _ hs => Program.Ensures.of_calls hx h hs

end Fallible

end YaNuget.Concurrency
