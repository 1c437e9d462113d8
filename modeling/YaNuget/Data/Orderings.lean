import Mathlib.Data.Nat.Notation
import Mathlib.Data.List.Basic
import Mathlib.Data.List.Forall2

/-!
# Comparisons and lists

Lists compared item by item: how the usual loop over two lists computes the
lexicographic comparison, when two lists compare equal, and where two
comparisons of the same lists part. And the least and the greatest item of a
list.
-/
namespace YaNuget.Orderings

variable {α : Type} {cmp cmp' : α → α → Ordering}

/-- The first pair that is not equal decides, else the lengths do. -/
theorem find?_zipWith_eq_compareLex (a b : List α) :
    ((List.zipWith cmp a b).find? (· ≠ .eq)).getD (compare a.length b.length) =
      List.compareLex cmp a b := by
  induction a generalizing b with
  | nil =>
    cases b with
    | nil => rfl
    | cons y ys => simp [List.compareLex_nil_cons, Nat.compare_eq_lt]
  | cons x xs ih =>
    cases b with
    | nil => simp [List.compareLex_cons_nil, Nat.compare_eq_gt]
    | cons y ys =>
      rw [List.compareLex_cons_cons, ← ih ys]
      cases h : cmp x y with
      | eq => simp [h, Nat.compare_eq_ite_lt]
      | lt => simp [h]
      | gt => simp [h]

theorem lists_eq_eq (a b : List α) :
    List.compareLex cmp a b = .eq ↔ List.Forall₂ (fun x y => cmp x y = .eq) a b := by
  induction a generalizing b with
  | nil => cases b <;> simp [List.compareLex_nil_nil, List.compareLex_nil_cons]
  | cons x xs ih =>
    cases b with
    | nil => simp [List.compareLex_cons_nil]
    | cons y ys => simp [List.compareLex_cons_cons, Ordering.then_eq_eq, ih]

section Differences

variable {same : α → α → Prop} [DecidableRel same]

/-- The first items at which two lists differ. -/
def firstDifference (same : α → α → Prop) [DecidableRel same] (a b : List α) : Option (α × α) :=
  (a.zip b).find? fun e => ¬ same e.1 e.2

theorem firstDifference_mem {a b : List α} {x y : α} (h : firstDifference same a b = some (x, y)) :
    x ∈ a ∧ y ∈ b ∧ ¬ same x y := by
  have hmem := List.of_mem_zip (List.mem_of_find?_eq_some h)
  have hdiffer := List.find?_some h
  exact ⟨hmem.1, hmem.2, by simpa using hdiffer⟩

/-- Two comparisons that agree on what is equal agree on two lists exactly when
they agree on the first items that differ. -/
theorem lists_agree_iff {a b : List α} (h : ∀ x ∈ a, ∀ y ∈ b, cmp x y = .eq ↔ same x y)
    (h' : ∀ x ∈ a, ∀ y ∈ b, cmp' x y = .eq ↔ same x y) :
    List.compareLex cmp a b = List.compareLex cmp' a b ↔
      ∀ e ∈ firstDifference same a b, cmp e.1 e.2 = cmp' e.1 e.2 := by
  induction a generalizing b with
  | nil => cases b <;> simp [firstDifference, List.compareLex_nil_nil, List.compareLex_nil_cons]
  | cons x xs ih =>
    cases b with
    | nil => simp [firstDifference, List.compareLex_cons_nil]
    | cons y ys =>
      have hxy := h x List.mem_cons_self y List.mem_cons_self
      have hxy' := h' x List.mem_cons_self y List.mem_cons_self
      rw [List.compareLex_cons_cons, List.compareLex_cons_cons]
      by_cases heq : same x y
      · have rest := ih
          (fun x' hx y' hy => h x' (List.mem_cons_of_mem x hx) y' (List.mem_cons_of_mem y hy))
          (fun x' hx y' hy => h' x' (List.mem_cons_of_mem x hx) y' (List.mem_cons_of_mem y hy))
        simpa [firstDifference, heq, hxy.mpr heq, hxy'.mpr heq] using rest
      · have hne : cmp x y ≠ .eq := fun hc => heq (hxy.mp hc)
        have hne' : cmp' x y ≠ .eq := fun hc => heq (hxy'.mp hc)
        have hfirst : firstDifference same (x :: xs) (y :: ys) = some (x, y) := by
          simp [firstDifference, heq]
        rw [hfirst]
        simp only [Option.mem_def, Option.some.injEq, forall_eq']
        cases hc : cmp x y <;> cases hc' : cmp' x y <;> simp_all

end Differences

section Selection

def least (cmp : α → α → Ordering) : List α → Option α
  | [] => none
  | v :: rest => some (rest.foldl (fun x y => if cmp x y = .gt then y else x) v)

def greatest (cmp : α → α → Ordering) : List α → Option α
  | [] => none
  | v :: rest => some (rest.foldl (fun x y => if cmp x y = .gt then x else y) v)

theorem least_eq_none {l : List α} : least cmp l = none ↔ l = [] := by
  cases l <;> simp [least]

theorem greatest_eq_none {l : List α} : greatest cmp l = none ↔ l = [] := by
  cases l <;> simp [greatest]

/-- A fold that keeps the better of two items ends with one that is better than all. -/
theorem foldl_best {R : α → α → Prop} {choose : α → α → α} (refl : ∀ x, R x x)
    (trans : ∀ x y z, R x y → R y z → R x z)
    (better : ∀ x y, (choose x y = x ∨ choose x y = y) ∧ R (choose x y) x ∧ R (choose x y) y)
    (v : α) (rest : List α) :
    rest.foldl choose v ∈ v :: rest ∧ ∀ x ∈ v :: rest, R (rest.foldl choose v) x := by
  induction rest generalizing v with
  | nil => simp [refl]
  | cons w rest ih =>
    obtain ⟨hmem, hbest⟩ := ih (choose v w)
    obtain ⟨hchoice, hv, hw⟩ := better v w
    rw [List.foldl_cons]
    constructor
    · rcases List.mem_cons.mp hmem with heq | hrest
      · rw [heq]
        rcases hchoice with h | h <;> simp [h]
      · simp [hrest]
    · have hchosen := hbest _ List.mem_cons_self
      intro x hx
      simp only [List.mem_cons] at hx
      rcases hx with rfl | rfl | hx
      · exact trans _ _ _ hchosen hv
      · exact trans _ _ _ hchosen hw
      · exact hbest x (List.mem_cons_of_mem _ hx)

variable [Std.TransCmp cmp] {l : List α} {best : α}

theorem least_spec (h : least cmp l = some best) :
    best ∈ l ∧ ∀ x ∈ l, (cmp best x).isLE := by
  cases l with
  | nil => simp [least] at h
  | cons v rest =>
    obtain rfl := Option.some.inj h
    apply foldl_best (R := fun x y => (cmp x y).isLE)
    · exact fun x => Std.ReflCmp.isLE_rfl
    · exact fun x y z => Std.TransCmp.isLE_trans
    · intro x y
      have hswap : cmp y x = (cmp x y).swap := Std.OrientedCmp.eq_swap
      cases hxy : cmp x y <;> simp [hxy, hswap, Std.ReflCmp.compare_self]

theorem greatest_spec (h : greatest cmp l = some best) :
    best ∈ l ∧ ∀ x ∈ l, (cmp x best).isLE := by
  cases l with
  | nil => simp [greatest] at h
  | cons v rest =>
    obtain rfl := Option.some.inj h
    apply foldl_best (R := fun x y => (cmp y x).isLE)
    · exact fun x => Std.ReflCmp.isLE_rfl
    · exact fun x y z hxy hyz => Std.TransCmp.isLE_trans hyz hxy
    · intro x y
      have hswap : cmp y x = (cmp x y).swap := Std.OrientedCmp.eq_swap
      cases hxy : cmp x y <;> simp [hxy, hswap, Std.ReflCmp.compare_self]

end Selection

end YaNuget.Orderings
