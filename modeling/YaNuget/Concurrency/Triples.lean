import YaNuget.Concurrency.RelyGuarantee

/-!
# Triples

What a thread knows before and after a part of its program, among any other
threads that keep the protocol. A part that may fail ends in one of two
assertions: one of its answer, and one for its errors.
-/
namespace YaNuget.Concurrency

namespace Protocol

variable {T C : Type} {R : C → Type} {O S : Type} {ε α β : Type}
variable {M : Machine T C R O S} {P : Protocol T C R O S} {t : T}

/-- From `A`, `x` keeps the protocol, and ends in `B` of its answer or, on an
error, in `E`. -/
def Triple (M : Machine T C R O S) (P : Protocol T C R O S) (t : T) (A : World T C R O S → Prop)
    (x : Fallible C R ε α) (B : α → World T C R O S → Prop) (E : World T C R O S → Prop) : Prop :=
  ∀ w, A w → Safe M P t x.run (fun result w => match result with
    | .ok a => B a w
    | .error _ => E w) w

namespace Triple

variable {A A' E E' : World T C R O S → Prop} {x : Fallible C R ε α}
variable {B B' : α → World T C R O S → Prop} {D : β → World T C R O S → Prop}

theorem mono (h : Triple M P t A x B E) (hA : ∀ w, A' w → A w) (hB : ∀ a w, B a w → B' a w)
    (hE : ∀ w, E w → E' w) : Triple M P t A' x B' E' := by
  intro w hw
  refine (h w (hA w hw)).mono fun result w hresult => ?_
  cases result with
  | ok a => exact hB a w hresult
  | error e => exact hE w hresult

theorem pre (h : Triple M P t A x B E) (hA : ∀ w, A' w → A w) : Triple M P t A' x B E :=
  h.mono hA (fun _ _ h => h) fun _ h => h

theorem post (h : Triple M P t A x B E) (hB : ∀ a w, B a w → B' a w) : Triple M P t A x B' E :=
  h.mono (fun _ h => h) hB fun _ h => h

theorem of_fact {p : Prop} (h : p → Triple M P t A x B E) :
    Triple M P t (fun w => p ∧ A w) x B E :=
  fun w hw => h hw.1 w hw.2

theorem pure {a : α} (h : ∀ w, A w → B a w) :
    Triple M P t A (pure a : Fallible C R ε α) B E := fun w hw => h w hw

theorem throw {e : ε} (h : ∀ w, A w → E w) :
    Triple M P t A (throw e : Fallible C R ε α) B E := fun w hw => h w hw

theorem bind {f : α → Fallible C R ε β} (h : Triple M P t A x B E)
    (hf : ∀ a, Triple M P t (B a) (f a) D E) : Triple M P t A (x >>= f) D E := by
  intro w hw
  refine Safe.bindExcept ((h w hw).mono fun result w hresult => ?_)
  cases result with
  | ok a => exact hf a w hresult
  | error e => exact hresult

theorem attempt (h : Triple M P t A x B E) :
    Triple M P t A (Fallible.attempt x) (fun result w => match result with
      | .ok a => B a w
      | .error _ => E w) E' :=
  fun w hw => Safe.bind (h w hw)

theorem ignore {B : World T C R O S → Prop} (h : Triple M P t A x (fun _ => B) B) :
    Triple M P t A (Fallible.ignore x) (fun _ => B) E := by
  refine bind h.attempt fun result => ?_
  cases result with
  | ok a => exact pure fun _ h => h
  | error e => exact pure fun _ h => h

theorem of_maintains (h : Maintains M P t A x) : Triple M P t A x (fun _ => A) A := by
  intro w hw
  refine (h w hw).mono fun result w hresult => ?_
  cases result with
  | ok a => exact hresult
  | error e => exact hresult

theorem maintains (h : Triple M P t A x (fun _ => A) A) : Maintains M P t A x := by
  intro w hw
  refine (h w hw).mono fun result w hresult => ?_
  cases result with
  | ok a => exact hresult
  | error e => exact hresult

theorem forM {xs : List β} {g : β → Fallible C R ε PUnit} {A E : World T C R O S → Prop}
    (h : ∀ b ∈ xs, Triple M P t A (g b) (fun _ => A) E) :
    Triple M P t A (xs.forM g) (fun _ => A) E := by
  induction xs with
  | nil => exact pure fun _ h => h
  | cons b xs ih =>
    exact bind (h b List.mem_cons_self) fun _ => ih fun b' hb' => h b' (List.mem_cons_of_mem b hb')

end Triple

end Protocol

end YaNuget.Concurrency
