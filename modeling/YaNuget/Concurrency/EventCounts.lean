import YaNuget.Concurrency.RelyGuarantee
import Mathlib.Data.Multiset.Filter
import Mathlib.Data.Multiset.AddSub

/-!
# Counting events

How often each thread has made a kind of event. A bound on what every thread
made of one kind by what it made of another is a bound on all of them.
-/
namespace YaNuget.Concurrency

variable {T C : Type} {R : C → Type} {O S : Type} [DecidableEq T]

def madeBy (t : T) (p : Event T C R O → Bool) (past : List (Event T C R O)) : ℕ :=
  past.countP fun e => decide (e.thread = t) && p e

section Counts

variable {p q : Event T C R O → Bool} {past : List (Event T C R O)} {e : Event T C R O} {t : T}

@[simp] theorem madeBy_nil : madeBy t p [] = 0 := rfl

theorem madeBy_cons : madeBy t p (e :: past) =
    madeBy t p past + if e.thread = t ∧ p e = true then 1 else 0 := by
  simp [madeBy, List.countP_cons]

theorem madeBy_cons_of_ne (h : e.thread ≠ t) : madeBy t p (e :: past) = madeBy t p past := by
  simp [madeBy_cons, h]

theorem madeBy_cons_of_neg (h : p e = false) : madeBy t p (e :: past) = madeBy t p past := by
  simp [madeBy_cons, h]

/-- Each thread's events of the first kind are no more than its events of the second. -/
theorem countP_le_of_madeBy (h : ∀ t, madeBy t p past ≤ madeBy t q past) :
    past.countP p ≤ past.countP q := by
  have hcount : ∀ (r : Event T C R O → Bool) (u : T),
      Multiset.count u (((past.filter r).map Event.thread : List T) : Multiset T) =
        madeBy u r past := by
    intro r u
    rw [Multiset.coe_count, List.count, List.countP_map, List.countP_filter, madeBy]
    rfl
  have hle : (((past.filter p).map Event.thread : List T) : Multiset T) ≤
      ((past.filter q).map Event.thread : List T) := by
    rw [Multiset.le_iff_count]
    intro u
    rw [hcount, hcount]
    exact h u
  have hcard := Multiset.card_le_card hle
  simpa [List.countP_eq_length_filter] using hcard

end Counts

namespace Protocol

variable {M : Machine T C R O S} {P : Protocol T C R O S} {t : T}

theorem stable_madeBy (p : Event T C R O → Bool) (n : ℕ) :
    Stable M P t fun w => madeBy t p w.past = n := by
  rintro u hu w w' ⟨c, o, r, hp, -⟩ h
  rw [((M.perform_eq_some).mp hp).2, madeBy_cons_of_ne hu]
  exact h

end Protocol

end YaNuget.Concurrency
