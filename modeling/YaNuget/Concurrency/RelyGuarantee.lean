import YaNuget.Concurrency.Machine
import Mathlib.Logic.Relation

/-!
# Rely-guarantee proofs

A protocol fixes an invariant of every world, what the steps of each thread
may do, and which steps are considered at all. A thread is safe when its own
steps keep the protocol however the other threads move in between; if every
thread is safe from the start, every run keeps the protocol.
-/
namespace YaNuget.Concurrency

open Relation

structure Protocol (T C : Type) (R : C → Type) (O S : Type) where
  inv : World T C R O S → Prop
  guar : T → World T C R O S → World T C R O S → Prop
  allow : Machine.Allowed T C R O S

namespace Protocol

variable {T C : Type} {R : C → Type} {O S : Type} {ε α β : Type}
variable (M : Machine T C R O S) (P : Protocol T C R O S)

/-- A step of thread `u` that keeps the protocol. -/
def Moves (u : T) (w w' : World T C R O S) : Prop :=
  ∃ c o r, M.perform u c o w = some (r, w') ∧ P.allow w ⟨u, c, o, r⟩ w' ∧
    P.inv w ∧ P.inv w' ∧ P.guar u w w'

/-- What the other threads may do between two steps of `t`. -/
def Rely (t : T) : World T C R O S → World T C R O S → Prop :=
  ReflTransGen fun w w' => ∃ u, u ≠ t ∧ Moves M P u w w'

/-- No step of another thread falsifies `A`. -/
def Stable (t : T) (A : World T C R O S → Prop) : Prop :=
  ∀ u, u ≠ t → ∀ w w', Moves M P u w w' → A w → A w'

/-- Thread `t`, with `p` still to run, keeps the protocol and ends in `Q`. -/
def Safe (t : T) : Program C R α → (α → World T C R O S → Prop) → World T C R O S → Prop
  | .done a, Q, w => Q a w
  | .call c next, Q, w => ∀ w₁, Rely M P t w w₁ → P.inv w₁ → ∀ o r w',
      M.perform t c o w₁ = some (r, w') → P.allow w₁ ⟨t, c, o, r⟩ w' →
      P.inv w' ∧ P.guar t w₁ w' ∧ Safe t (next r) Q w'

variable {M P} {t : T} {w : World T C R O S} {A B : World T C R O S → Prop}

theorem Stable.rely (hA : Stable M P t A) {w w' : World T C R O S} (h : Rely M P t w w')
    (hw : A w) : A w' := by
  induction h with
  | refl => exact hw
  | tail _ hstep ih =>
    obtain ⟨u, hu, hmove⟩ := hstep
    exact hA u hu _ _ hmove ih

theorem Stable.and (hA : Stable M P t A) (hB : Stable M P t B) :
    Stable M P t fun w => A w ∧ B w :=
  fun u hu w w' hm h => ⟨hA u hu w w' hm h.1, hB u hu w w' hm h.2⟩

theorem Safe.call {c : C} {next : R c → Program C R α} {Q : α → World T C R O S → Prop}
    (hA : Stable M P t A) (hw : A w)
    (h : ∀ w, A w → P.inv w → ∀ o r w', M.perform t c o w = some (r, w') →
      P.allow w ⟨t, c, o, r⟩ w' → P.inv w' ∧ P.guar t w w' ∧ Safe M P t (next r) Q w') :
    Safe M P t (.call c next) Q w :=
  fun w₁ hrely hinv o r w' hp ha => h w₁ (hA.rely hrely hw) hinv o r w' hp ha

theorem Safe.mono {p : Program C R α} {Q Q' : α → World T C R O S → Prop}
    (hQ : ∀ a w, Q a w → Q' a w) (h : Safe M P t p Q w) : Safe M P t p Q' w := by
  induction p generalizing w with
  | done a => exact hQ a w h
  | call c next ih =>
    intro w₁ hrely hinv o r w' hp ha
    obtain ⟨hi, hg, hs⟩ := h w₁ hrely hinv o r w' hp ha
    exact ⟨hi, hg, ih r hs⟩

theorem Safe.bind {p : Program C R α} {f : α → Program C R β}
    {Q : β → World T C R O S → Prop}
    (h : Safe M P t p (fun a w => Safe M P t (f a) Q w) w) : Safe M P t (p >>= f) Q w := by
  induction p generalizing w with
  | done a => exact h
  | call c next ih =>
    intro w₁ hrely hinv o r w' hp ha
    obtain ⟨hi, hg, hs⟩ := h w₁ hrely hinv o r w' hp ha
    exact ⟨hi, hg, ih r hs⟩

theorem Safe.bindExcept {x : Fallible C R ε α} {f : α → Fallible C R ε β}
    {Q : Except ε β → World T C R O S → Prop}
    (h : Safe M P t x.run (fun a w => match a with
      | .ok a => Safe M P t (f a).run Q w
      | .error e => Q (.error e) w) w) : Safe M P t (x >>= f).run Q w := by
  refine Safe.bind (Safe.mono ?_ h)
  intro a w ha
  cases a with
  | ok a => exact ha
  | error e => exact ha

theorem Safe.of_calls {φ : C → Prop} {p : Program C R α} (hA : Stable M P t A)
    (h : ∀ c, φ c → ∀ w, A w → P.inv w → ∀ o r w', M.perform t c o w = some (r, w') →
      P.allow w ⟨t, c, o, r⟩ w' → P.inv w' ∧ P.guar t w w' ∧ A w')
    (hp : p.Calls φ) (hw : A w) : Safe M P t p (fun _ w => A w) w := by
  induction p generalizing w with
  | done a => exact hw
  | call c next ih =>
    refine Safe.call hA hw fun w hw hinv o r w' hperf ha => ?_
    obtain ⟨hi, hg, hw'⟩ := h c hp.1 w hw hinv o r w' hperf ha
    exact ⟨hi, hg, ih r (hp.2 r) hw'⟩

/-- `x` keeps the protocol from `A`, and keeps `A` too. -/
def Maintains (M : Machine T C R O S) (P : Protocol T C R O S) (t : T)
    (A : World T C R O S → Prop) (x : Fallible C R ε α) : Prop :=
  ∀ w, A w → Safe M P t x.run (fun _ w => A w) w

theorem closed_maintains (M : Machine T C R O S) (P : Protocol T C R O S) (t : T)
    (A : World T C R O S → Prop) :
    Fallible.Closed (fun {α : Type} (x : Fallible C R ε α) => Maintains M P t A x) where
  result _ _ hw := hw
  bind hx hf w hw := by
    refine Safe.bindExcept ((hx w hw).mono fun result w hw => ?_)
    cases result with
    | ok a => exact hf a w hw
    | error e => exact hw
  attempt hx w hw := Safe.bind (hx w hw)

theorem Maintains.of_calls {φ : C → Prop} {x : Fallible C R ε α} (hA : Stable M P t A)
    (h : ∀ c, φ c → ∀ w, A w → P.inv w → ∀ o r w', M.perform t c o w = some (r, w') →
      P.allow w ⟨t, c, o, r⟩ w' → P.inv w' ∧ P.guar t w w' ∧ A w')
    (hx : x.run.Calls φ) : Maintains M P t A x :=
  fun _ hw => Safe.of_calls hA h hx hw

theorem Safe.rely {p : Program C R α} {Q : α → World T C R O S → Prop} {w w' : World T C R O S}
    (hQ : ∀ a, Stable M P t (Q a)) (h : Rely M P t w w') (hs : Safe M P t p Q w) :
    Safe M P t p Q w' := by
  cases p with
  | done a => exact (hQ a).rely h hs
  | call c next => exact fun w₁ hrely => hs w₁ (h.trans hrely)

/-- The state of a proof along a run whose threads end in `Q`. -/
def KeepsTo (M : Machine T C R O S) (P : Protocol T C R O S) (Q : T → World T C R O S → Prop)
    (c : Config T C R O S) : Prop :=
  P.inv c.world ∧ ∀ t, Safe M P t (c.threads t) (fun _ => Q t) c.world

/-- The state of a proof along a run. -/
def Keeps (M : Machine T C R O S) (P : Protocol T C R O S) (c : Config T C R O S) : Prop :=
  P.inv c.world ∧ ∀ t, Safe M P t (c.threads t) (fun _ _ => True) c.world

variable {Q : T → World T C R O S → Prop} {c c' : Config T C R O S}

theorem KeepsTo.ended (h : KeepsTo M P Q c) {t : T} {a : Unit} (ht : c.threads t = .done a) :
    Q t c.world := by
  have hsafe := h.2 t
  rw [ht] at hsafe
  exact hsafe

variable [DecidableEq T]

theorem KeepsTo.step (hQ : ∀ t, Stable M P t (Q t)) (h : KeepsTo M P Q c) {t : T} {o : O}
    {call : C} {r : R call} {next : R call → Program C R Unit} {w : World T C R O S}
    (ht : c.threads t = .call call next) (hp : M.perform t call o c.world = some (r, w))
    (ha : P.allow c.world ⟨t, call, o, r⟩ w) :
    P.guar t c.world w ∧ KeepsTo M P Q ⟨w, Function.update c.threads t (next r)⟩ := by
  have hsafe := h.2 t
  rw [ht] at hsafe
  obtain ⟨hinv, hguar, hnext⟩ := hsafe c.world ReflTransGen.refl h.1 o r w hp ha
  have hmove : Moves M P t c.world w := ⟨call, o, r, hp, ha, h.1, hinv, hguar⟩
  refine ⟨hguar, hinv, fun u => ?_⟩
  by_cases hu : u = t
  · subst hu
    simpa using hnext
  · have hrely : Rely M P u c.world w := ReflTransGen.single ⟨t, Ne.symm hu, hmove⟩
    simpa [Function.update_of_ne hu] using (h.2 u).rely (fun _ => hQ u) hrely

theorem KeepsTo.reaches (hQ : ∀ t, Stable M P t (Q t)) (h : KeepsTo M P Q c)
    (hr : M.Reaches P.allow c c') : KeepsTo M P Q c' := by
  induction hr with
  | refl => exact h
  | step _ ht hp ha ih => exact (ih.step hQ ht hp ha).2

theorem Keeps.step (h : Keeps M P c) {t : T} {o : O} {call : C}
    {r : R call} {next : R call → Program C R Unit} {w : World T C R O S}
    (ht : c.threads t = .call call next) (hp : M.perform t call o c.world = some (r, w))
    (ha : P.allow c.world ⟨t, call, o, r⟩ w) :
    P.guar t c.world w ∧ Keeps M P ⟨w, Function.update c.threads t (next r)⟩ :=
  KeepsTo.step (fun _ _ _ _ _ _ => id) h ht hp ha

theorem Keeps.reaches (h : Keeps M P c) (hr : M.Reaches P.allow c c') : Keeps M P c' :=
  KeepsTo.reaches (fun _ _ _ _ _ _ => id) h hr

end Protocol

end YaNuget.Concurrency
