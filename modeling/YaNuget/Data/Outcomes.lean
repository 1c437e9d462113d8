import Mathlib.Data.Nat.Notation

/-!
# Outcomes of fallible code

A chain of fallible steps succeeds exactly when every step does.
-/
namespace YaNuget.Outcomes

variable {ε α β : Type}

theorem bind_eq_ok {x : Except ε α} {f : α → Except ε β} {b : β} :
    x >>= f = .ok b ↔ ∃ a, x = .ok a ∧ f a = .ok b := by
  cases x with
  | error e => simp [bind, Except.bind]
  | ok a => simp [bind, Except.bind]

theorem ok_bind (a : α) (f : α → Except ε β) : (.ok a >>= f) = f a := rfl

theorem foldlM_keeps {P : β → Prop} {f : β → α → Except ε β}
    (step : ∀ b a b', f b a = .ok b' → P b → P b') {as : List α} {b b' : β}
    (h : as.foldlM f b = .ok b') (hb : P b) : P b' := by
  induction as generalizing b with
  | nil =>
    rw [List.foldlM_nil] at h
    exact Except.ok.inj h ▸ hb
  | cons a as ih =>
    rw [List.foldlM_cons, bind_eq_ok] at h
    obtain ⟨b₁, hstep, hrest⟩ := h
    exact ih hrest (step b a b₁ hstep hb)

theorem foldlM_append_ok {f : β → α → Except ε β} {as as' : List α} {b b' : β} :
    (as ++ as').foldlM f b = .ok b' ↔ ∃ b₁, as.foldlM f b = .ok b₁ ∧ as'.foldlM f b₁ = .ok b' := by
  rw [List.foldlM_append, bind_eq_ok]

theorem foldlM_cons_ok {f : β → α → Except ε β} {a : α} {as : List α} {b b' : β} :
    (a :: as).foldlM f b = .ok b' ↔ ∃ b₁, f b a = .ok b₁ ∧ as.foldlM f b₁ = .ok b' := by
  rw [List.foldlM_cons, bind_eq_ok]

theorem foldlM_nil_ok {f : β → α → Except ε β} {b b' : β} :
    ([] : List α).foldlM f b = .ok b' ↔ b = b' := by
  rw [List.foldlM_nil]
  exact Except.ok.injEq b b' ▸ Iff.rfl

section EarlyEnds

variable {P P' Q : α → Prop}

/-- `P` holds of the value in the end, and `Q` of the one that an early end leaves. -/
def Ends (P Q : α → Prop) : Except α α → Prop
  | .ok a => P a
  | .error a => Q a

theorem Ends.bind {x : Except α α} {f : α → Except α α} (h : Ends P Q x)
    (hf : ∀ a, P a → Ends P' Q (f a)) : Ends P' Q (x >>= f) := by
  cases x with
  | ok a => exact hf a h
  | error a => exact h

theorem Ends.foldlM {f : α → β → Except α α} {bs : List β} {a : α} (ha : P a)
    (step : ∀ a, ∀ b ∈ bs, P a → Ends P Q (f a b)) : Ends P Q (bs.foldlM f a) := by
  induction bs generalizing a with
  | nil => exact ha
  | cons b bs ih =>
    rw [List.foldlM_cons]
    refine (step a b List.mem_cons_self ha).bind fun a' ha' => ?_
    exact ih ha' fun a'' b' hb' => step a'' b' (List.mem_cons_of_mem b hb')

end EarlyEnds

end YaNuget.Outcomes
