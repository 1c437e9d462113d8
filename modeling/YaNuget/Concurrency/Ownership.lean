import YaNuget.Concurrency.RelyGuarantee
import YaNuget.Concurrency.Sequential

/-!
# What a thread owns

While an assertion of a thread holds, the others leave a slice of the world
alone. The thread can then be followed on the slice as if it ran alone, and the
outcome carries over to every interleaving.
-/
namespace YaNuget.Concurrency

namespace Protocol

variable {T C : Type} {R : C → Type} {O S V : Type} {ε α : Type}
variable {M : Machine T C R O S} {P : Protocol T C R O S} {t : T}
variable {A : World T C R O S → Prop} {slice : World T C R O S → V} {φ : C → Prop}
variable {step : V → (c : C) → R c → V → Prop} {ok : V → V → Prop}

/-- With `A`, thread `t` owns the slice: the others change neither, and the
calls `φ` of `t` act on the slice as `step` says. A change of the slice that is
`ok` keeps the protocol. -/
structure Owns (M : Machine T C R O S) (P : Protocol T C R O S) (t : T)
    (A : World T C R O S → Prop) (slice : World T C R O S → V) (φ : C → Prop)
    (step : V → (c : C) → R c → V → Prop) (ok : V → V → Prop) : Prop where
  stable : ∀ v, P.Stable M t fun w => A w ∧ slice w = v
  acts : ∀ {w c o r w'}, φ c → A w → P.inv w → M.perform t c o w = some (r, w') →
    P.allow w ⟨t, c, o, r⟩ w' → step (slice w) c r (slice w') ∧ A w'
  keeps : ∀ {w c o r w'}, φ c → A w → P.inv w → M.perform t c o w = some (r, w') →
    P.allow w ⟨t, c, o, r⟩ w' → ok (slice w) (slice w') → P.inv w' ∧ P.guar t w w'

theorem Owns.safe (h : Owns M P t A slice φ step ok) {p : Program C R α} {Q : α → V → Prop}
    {w : World T C R O S} (hp : p.Calls φ) (hw : A w) (hQ : p.Ensures step ok Q (slice w)) :
    P.Safe M t p (fun a w => A w ∧ Q a (slice w)) w := by
  induction p generalizing w with
  | done a => exact ⟨hw, hQ⟩
  | call c next ih =>
    refine Safe.call (h.stable (slice w)) ⟨hw, rfl⟩ fun w₁ hw₁ hinv o r w' hperf ha => ?_
    obtain ⟨hA, hslice⟩ := hw₁
    obtain ⟨hstep, hA'⟩ := h.acts hp.1 hA hinv hperf ha
    rw [← hslice] at hQ
    obtain ⟨hok, hnext⟩ := hQ r _ hstep
    obtain ⟨hinv', hguar⟩ := h.keeps hp.1 hA hinv hperf ha hok
    exact ⟨hinv', hguar, ih r (hp.2 r) hA' hnext⟩

/-- A program that keeps `I` of the slice, in a protocol that has it kept. -/
theorem Owns.maintains (h : Owns M P t A slice φ step ok) {I : V → Prop}
    {x : Fallible C R ε α} (hx : x.run.Calls φ) (hinv : ∀ w, P.inv w → I (slice w))
    (hI : Fallible.Preserves step ok I x) : P.Maintains M t A x := by
  have hstable : P.Stable M t A := fun u hu w w' hm hw =>
    (h.stable (slice w) u hu w w' hm ⟨hw, rfl⟩).1
  intro w hw
  unfold Fallible.Preserves at hI
  generalize x.run = p at hx hI
  cases p with
  | done a => exact hw
  | call c next =>
    refine Safe.call hstable hw fun w₁ hw₁ hinv₁ o r w' hp ha => ?_
    have hsafe := (h.safe hx hw₁ (hI _ (hinv w₁ hinv₁))).mono fun _ _ h => h.1
    exact hsafe w₁ Relation.ReflTransGen.refl hinv₁ o r w' hp ha

end Protocol

end YaNuget.Concurrency
