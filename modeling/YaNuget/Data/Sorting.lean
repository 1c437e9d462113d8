import Mathlib.Data.List.Induction
import Mathlib.Data.List.Sort
import Mathlib.Data.Nat.Notation

/-!
# Sorting by a comparison

A stable sort by a comparison of items that may be equal without being the
same. Sorting goes together with filtering, and what it gives depends on the
list only through the order of the items that are equal. Where an item comes
to stand is bounded by how many items come before it, and how many are equal.
-/
namespace YaNuget.Sorting

open Std

variable {α : Type} {cmp : α → α → Ordering}

/-- `a` may stand before `b`. -/
def Le (cmp : α → α → Ordering) (a b : α) : Prop := (cmp a b).isLE = true

instance : DecidableRel (Le cmp) := fun a b => inferInstanceAs (Decidable ((cmp a b).isLE = true))

def sortBy (cmp : α → α → Ordering) (l : List α) : List α := l.insertionSort (Le cmp)

theorem perm_sortBy (l : List α) : (sortBy cmp l).Perm l := List.perm_insertionSort _ l

@[simp] theorem mem_sortBy {a : α} {l : List α} : a ∈ sortBy cmp l ↔ a ∈ l :=
  List.mem_insertionSort _

theorem sortBy_of_sorted {l : List α} (h : l.Pairwise (Le cmp)) : sortBy cmp l = l :=
  h.insertionSort_eq

variable [TransCmp cmp]

instance : IsTrans α (Le cmp) := ⟨fun _ _ _ => TransCmp.isLE_trans⟩

instance : Std.Total (Le cmp) where
  total a b := by
    have hswap : cmp b a = (cmp a b).swap := OrientedCmp.eq_swap
    cases h : cmp a b <;> simp [Le, h, hswap]

theorem sorted_sortBy (l : List α) : (sortBy cmp l).Pairwise (Le cmp) :=
  List.pairwise_insertionSort _ l

section Filter

theorem filter_orderedInsert {p : α → Bool} {a : α} (l : List α) (hl : l.Pairwise (Le cmp)) :
    (l.orderedInsert (Le cmp) a).filter p =
      if p a then (l.filter p).orderedInsert (Le cmp) a else l.filter p := by
  induction l with
  | nil => by_cases ha : p a <;> simp [ha]
  | cons b l ih =>
    obtain ⟨hb, hl⟩ := List.pairwise_cons.mp hl
    by_cases hab : Le cmp a b
    · rw [List.orderedInsert_cons_of_le _ l hab]
      by_cases ha : p a
      · rw [List.filter_cons_of_pos ha, if_pos ha]
        have hall : ∀ c ∈ (b :: l).filter p, Le cmp a c := by
          intro c hc
          rcases List.mem_cons.mp (List.mem_of_mem_filter hc) with rfl | hc
          · exact hab
          · exact IsTrans.trans _ _ _ hab (hb c hc)
        cases hrest : (b :: l).filter p with
        | nil => rfl
        | cons c rest =>
          rw [hrest] at hall
          rw [List.orderedInsert_cons_of_le _ rest (hall c List.mem_cons_self)]
      · rw [List.filter_cons_of_neg ha, if_neg ha]
    · rw [List.orderedInsert_of_not_le _ l hab]
      have hrest := ih hl
      by_cases hp : p b
      · rw [List.filter_cons_of_pos hp, List.filter_cons_of_pos hp, hrest]
        split_ifs
        · rw [List.orderedInsert_of_not_le _ _ hab]
        · rfl
      · rw [List.filter_cons_of_neg hp, List.filter_cons_of_neg hp, hrest]

theorem filter_sortBy (p : α → Bool) (l : List α) :
    (sortBy cmp l).filter p = sortBy cmp (l.filter p) := by
  induction l with
  | nil => rfl
  | cons a l ih =>
    have hinsert := filter_orderedInsert (p := p) (a := a) (sortBy cmp l) (sorted_sortBy l)
    rw [ih] at hinsert
    by_cases ha : p a
    · rw [if_pos ha] at hinsert
      rw [List.filter_cons_of_pos ha]
      exact hinsert
    · rw [if_neg ha] at hinsert
      rw [List.filter_cons_of_neg ha]
      exact hinsert

end Filter

section Ties

/-- The items of `l` that are equal to `a`, as they stand. -/
def ties (cmp : α → α → Ordering) (a : α) (l : List α) : List α := l.filter (cmp a · = .eq)

theorem ties_sortBy (a : α) (l : List α) : ties cmp a (sortBy cmp l) = ties cmp a l := by
  unfold ties
  rw [filter_sortBy]
  apply sortBy_of_sorted
  apply List.Pairwise.imp_of_mem (R := fun _ _ => True) _ (List.pairwise_of_forall fun _ _ => trivial)
  intro b c hb hc _
  have hab : cmp a b = .eq := by simpa using List.of_mem_filter hb
  have hac : cmp a c = .eq := by simpa using List.of_mem_filter hc
  have hbc : cmp b c = .eq := TransCmp.eq_trans (OrientedCmp.eq_symm hab) hac
  simp [Le, hbc]

/-- Sorted lists are the same if the items that are equal are, in each case. -/
theorem eq_of_ties {l l' : List α} (h : l.Pairwise (Le cmp)) (h' : l'.Pairwise (Le cmp))
    (hties : ∀ a, ties cmp a l = ties cmp a l') : l = l' := by
  induction l generalizing l' with
  | nil =>
    cases l' with
    | nil => rfl
    | cons b l' =>
      have hb := hties b
      simp [ties, ReflCmp.compare_self] at hb
  | cons a l ih =>
    cases l' with
    | nil =>
      have ha := hties a
      simp [ties, ReflCmp.compare_self] at ha
    | cons b l' =>
      obtain ⟨ha, hl⟩ := List.pairwise_cons.mp h
      obtain ⟨hb, hl'⟩ := List.pairwise_cons.mp h'
      -- each head is among the items that are equal to it, in the other list too
      have hle {x y : α} {ys : List α} (hy : ∀ z ∈ ys, Le cmp y z)
          (hmem : x ∈ ties cmp x (y :: ys)) : Le cmp y x := by
        rcases List.mem_cons.mp (List.mem_of_mem_filter hmem) with rfl | hmem
        · exact ReflCmp.isLE_rfl
        · exact hy x hmem
      have hmem : ∀ x (xs : List α), x ∈ ties cmp x (x :: xs) := by
        intro x xs
        simp [ties, ReflCmp.compare_self]
      have hab : Le cmp a b := hle ha (hties b ▸ hmem b l')
      have hba : Le cmp b a := hle hb (hties a ▸ hmem a l)
      have heq : cmp a b = .eq := by
        have hswap : cmp b a = (cmp a b).swap := OrientedCmp.eq_swap
        simp only [Le, hswap] at hab hba
        cases hcmp : cmp a b <;> simp_all
      have hheads := hties a
      simp only [ties, List.filter_cons, ReflCmp.compare_self, heq, decide_true, if_true,
        List.cons.injEq] at hheads
      obtain ⟨rfl, -⟩ := hheads
      congr 1
      apply ih hl hl'
      intro c
      have hc := hties c
      simp only [ties, List.filter_cons] at hc ⊢
      split_ifs at hc
      · exact (List.cons.inj hc).2
      · exact hc

theorem sortBy_congr {l l' : List α} (h : ∀ a, ties cmp a l = ties cmp a l') :
    sortBy cmp l = sortBy cmp l' := by
  apply eq_of_ties (sorted_sortBy l) (sorted_sortBy l')
  intro a
  rw [ties_sortBy, ties_sortBy, h]

theorem length_ties_le {l : List α} (h : l.Pairwise fun a b => cmp a b ≠ .eq) (a : α) :
    (ties cmp a l).length ≤ 1 := by
  have hpair : (ties cmp a l).Pairwise fun a b => cmp a b ≠ .eq := h.filter _
  have hequal : ∀ b ∈ ties cmp a l, cmp a b = .eq := fun b hb => by
    simpa using List.of_mem_filter hb
  cases hties : ties cmp a l with
  | nil => simp
  | cons b rest =>
    rw [hties] at hpair hequal
    cases rest with
    | nil => simp
    | cons c rest =>
      have hab := hequal b (by simp)
      have hac := hequal c (by simp)
      have hbc := (List.pairwise_cons.mp hpair).1 c List.mem_cons_self
      exact (hbc (TransCmp.eq_trans (OrientedCmp.eq_symm hab) hac)).elim

/-- Where no items are equal, the order of the list decides nothing. -/
theorem sortBy_perm {l l' : List α} (h : l.Perm l')
    (hdistinct : l.Pairwise fun a b => cmp a b ≠ .eq) : sortBy cmp l = sortBy cmp l' := by
  apply sortBy_congr
  intro a
  have hperm : (ties cmp a l).Perm (ties cmp a l') := h.filter _
  have hone := length_ties_le hdistinct a
  cases hties : ties cmp a l with
  | nil =>
    rw [hties] at hperm
    exact hperm.nil_eq
  | cons b rest =>
    rw [hties] at hperm hone
    obtain rfl : rest = [] := by simpa using hone
    exact List.singleton_perm.mp hperm

end Ties

section Positions

variable {l : List α} {a : α} {i : ℕ}

/-- How many items come before `a`. -/
def before (cmp : α → α → Ordering) (a : α) (l : List α) : ℕ := l.countP (cmp · a = .lt)

theorem ties_congr {b : α} (h : cmp a b = .eq) (l : List α) : ties cmp a l = ties cmp b l := by
  unfold ties
  congr 1
  funext x
  rw [TransCmp.congr_left h]

theorem before_congr {b : α} (h : cmp a b = .eq) (l : List α) :
    before cmp a l = before cmp b l := by
  unfold before
  congr 1
  funext x
  rw [TransCmp.congr_right h]

/-- In a sorted list an item stands behind those that come before it. -/
theorem before_le (h : l.Pairwise (Le cmp)) (hi : l[i]? = some a) : before cmp a l ≤ i := by
  induction l generalizing i with
  | nil => simp at hi
  | cons b l ih =>
    obtain ⟨hb, hl⟩ := List.pairwise_cons.mp h
    cases i with
    | zero =>
      obtain rfl : b = a := by simpa using hi
      have hnone : before cmp b (b :: l) = 0 := by
        unfold before
        rw [List.countP_eq_zero]
        intro c hc
        have hle : Le cmp b c := by
          rcases List.mem_cons.mp hc with rfl | hc
          · exact ReflCmp.isLE_rfl
          · exact hb c hc
        have hswap : cmp c b = (cmp b c).swap := OrientedCmp.eq_swap
        simp only [Le] at hle
        cases hbc : cmp b c <;> simp_all
      omega
    | succ i =>
      have hrest := ih hl (by simpa using hi)
      unfold before at hrest ⊢
      rw [List.countP_cons]
      split_ifs <;> omega

/-- It stands no further back than those and the ones that are equal to it go. -/
theorem lt_before_add_ties (h : l.Pairwise (Le cmp)) (hi : l[i]? = some a) :
    i < before cmp a l + (ties cmp a l).length := by
  induction l generalizing i with
  | nil => simp at hi
  | cons b l ih =>
    obtain ⟨hb, hl⟩ := List.pairwise_cons.mp h
    cases i with
    | zero =>
      obtain rfl : b = a := by simpa using hi
      have hself : b ∈ ties cmp b (b :: l) := by simp [ties, ReflCmp.compare_self]
      have hpos := List.length_pos_of_mem hself
      omega
    | succ i =>
      have hmem : a ∈ l := List.mem_of_getElem? (by simpa using hi)
      have hrest := ih hl (by simpa using hi)
      have hle : Le cmp b a := hb a hmem
      unfold before ties at hrest ⊢
      rw [List.countP_cons]
      simp only [Le] at hle
      cases hba : cmp b a with
      | lt => simp [OrientedCmp.gt_of_lt hba]; omega
      | eq => simp [OrientedCmp.eq_symm hba]; omega
      | gt => simp [hba] at hle

/-- The items that are equal to `a` stand right behind those that come before it. -/
theorem getElem?_before_add (h : l.Pairwise (Le cmp)) (hi : i < (ties cmp a l).length) :
    l[before cmp a l + i]? = (ties cmp a l)[i]? := by
  induction l generalizing i with
  | nil => simp [ties] at hi
  | cons b l ih =>
    obtain ⟨hb, hl⟩ := List.pairwise_cons.mp h
    simp only [before, ties] at ih hi ⊢
    rw [List.countP_cons]
    have hswap : cmp a b = (cmp b a).swap := OrientedCmp.eq_swap
    cases hba : cmp b a with
    | lt =>
      have hab : cmp a b = .gt := by rw [hswap, hba]; rfl
      simp only [List.filter_cons, hab, reduceCtorEq, decide_false, Bool.false_eq_true, if_false,
        decide_true, if_true] at hi ⊢
      rw [Nat.add_right_comm, List.getElem?_cons_succ]
      exact ih hl hi
    | eq =>
      have hab : cmp a b = .eq := by rw [hswap, hba]; rfl
      have hnone : l.countP (cmp · a = .lt) = 0 := by
        rw [List.countP_eq_zero]
        intro c hc
        have hac : (cmp a c).isLE := TransCmp.isLE_trans (by simp [hab]) (hb c hc)
        have hca : cmp c a = (cmp a c).swap := OrientedCmp.eq_swap
        cases hcmp : cmp a c <;> simp_all
      rw [hnone] at ih ⊢
      simp only [List.filter_cons, hab, reduceCtorEq, decide_false, Bool.false_eq_true, if_false,
        decide_true, if_true] at hi ⊢
      cases i with
      | zero => rfl
      | succ i =>
        have hrest := ih hl (by simpa using hi : i < (l.filter (cmp a · = .eq)).length)
        simpa using hrest
    | gt =>
      have hab : cmp a b = .lt := by rw [hswap, hba]; rfl
      have hnone : l.filter (cmp a · = .eq) = [] := by
        rw [List.filter_eq_nil_iff]
        intro c hc
        have hac : cmp a c = .lt := TransCmp.lt_of_lt_of_isLE hab (hb c hc)
        simp [hac]
      rw [List.filter_cons_of_neg (by simp [hab]), hnone] at hi
      simp at hi

/-- The items that are equal to `a` are those that stand there. -/
theorem eq_iff_position {x : α} (h : l.Pairwise (Le cmp)) (hi : l[i]? = some x) :
    cmp a x = .eq ↔
      before cmp a l ≤ i ∧ i < before cmp a l + (ties cmp a l).length := by
  constructor
  · intro heq
    rw [before_congr heq, ties_congr heq]
    exact ⟨before_le h hi, lt_before_add_ties h hi⟩
  · rintro ⟨hle, hlt⟩
    have hget := getElem?_before_add h (i := i - before cmp a l) (a := a) (by omega)
    rw [Nat.add_sub_cancel' hle, hi] at hget
    simpa using (List.mem_filter.mp (List.mem_of_getElem? hget.symm)).2

/-- Where no items are equal, that is where it stands. -/
theorem position_eq (h : l.Pairwise (Le cmp)) (hdistinct : l.Pairwise fun a b => cmp a b ≠ .eq)
    (hi : l[i]? = some a) : i = before cmp a l := by
  have hle := before_le h hi
  have hlt := lt_before_add_ties h hi
  have hone := length_ties_le hdistinct a
  omega

end Positions

section Selection

def firstGreatest (cmp : α → α → Ordering) : List α → Option α
  | [] => none
  | v :: rest => some (rest.foldl (fun head x => if cmp head x = .lt then x else head) v)

omit [TransCmp cmp] in
theorem firstGreatest_concat {l : List α} {best x : α} (h : firstGreatest cmp l = some best) :
    firstGreatest cmp (l ++ [x]) = some (if cmp best x = .lt then x else best) := by
  cases l with
  | nil => cases h
  | cons v rest =>
    obtain rfl := Option.some.inj h
    simp [firstGreatest, List.foldl_append]

/-- No item comes after it, and it is the first of those equal to it. -/
theorem firstGreatest_spec {l : List α} (hne : l ≠ []) : ∃ best, firstGreatest cmp l = some best ∧
    best ∈ l ∧ (∀ x ∈ l, Le cmp x best) ∧ (ties cmp best l).head? = some best := by
  induction l using List.reverseRecOn with
  | nil => exact absurd rfl hne
  | append_singleton l x ih =>
    rcases List.eq_nil_or_concat l with rfl | ⟨init, last, hl⟩
    · refine ⟨x, rfl, by simp, ?_, by simp [ties, ReflCmp.compare_self]⟩
      intro y hy
      obtain rfl : y = x := by simpa using hy
      exact ReflCmp.isLE_rfl
    · obtain ⟨best, hbest, hmem, hle, hfirst⟩ := ih (by simp [hl])
      rw [firstGreatest_concat hbest]
      refine ⟨_, rfl, ?_⟩
      split
      next hlt =>
        have hbefore : ∀ y ∈ l, cmp y x = .lt := fun y hy => TransCmp.lt_of_isLE_of_lt (hle y hy) hlt
        have hties : ties cmp x l = [] := by
          rw [ties, List.filter_eq_nil_iff]
          intro y hy
          simp [OrientedCmp.gt_of_lt (hbefore y hy)]
        refine ⟨by simp, ?_, ?_⟩
        · intro y hy
          rcases List.mem_append.mp hy with hy | hy
          · simp [Le, hbefore y hy]
          · obtain rfl : y = x := by simpa using hy
            exact ReflCmp.isLE_rfl
        · rw [ties, List.filter_append, ← ties, hties]
          simp [ReflCmp.compare_self]
      next hnot =>
        refine ⟨List.mem_append_left _ hmem, ?_, ?_⟩
        · intro y hy
          rcases List.mem_append.mp hy with hy | hy
          · exact hle y hy
          · obtain rfl : y = x := by simpa using hy
            have hswap : cmp y best = (cmp best y).swap := OrientedCmp.eq_swap
            simp only [Le, hswap]
            cases hcmp : cmp best y <;> simp_all
        · rw [ties, List.filter_append, ← ties]
          rw [List.head?_append, hfirst]
          rfl

/-- In whichever order the items come, what is found first is equal, and the same if the items equal
to it come in one order. -/
theorem firstGreatest_perm {l l' : List α} {best best' : α} (h : l.Perm l')
    (hbest : firstGreatest cmp l = some best) (hbest' : firstGreatest cmp l' = some best') :
    cmp best best' = .eq ∧ (ties cmp best l = ties cmp best l' → best = best') := by
  have hne : l ≠ [] := by
    rintro rfl
    cases hbest
  have hne' : l' ≠ [] := by
    rintro rfl
    cases hbest'
  obtain ⟨b, hb, hmem, hle, hfirst⟩ := @firstGreatest_spec _ cmp _ l hne
  obtain ⟨b', hb', hmem', hle', hfirst'⟩ := @firstGreatest_spec _ cmp _ l' hne'
  obtain rfl : b = best := Option.some.inj (hb.symm.trans hbest)
  obtain rfl : b' = best' := Option.some.inj (hb'.symm.trans hbest')
  have hleft := hle' b (h.mem_iff.mp hmem)
  have hright := hle b' (h.mem_iff.mpr hmem')
  have heq : cmp b b' = .eq := by
    have hswap : cmp b' b = (cmp b b').swap := OrientedCmp.eq_swap
    simp only [Le, hswap] at hleft hright
    cases hcmp : cmp b b' <;> simp_all
  refine ⟨heq, fun hties => ?_⟩
  have hsame : ties cmp b' l' = ties cmp b l' := by
    unfold ties
    congr 1
    funext x
    rw [TransCmp.congr_left heq]
  rw [hsame, ← hties, hfirst] at hfirst'
  exact Option.some.inj hfirst'

end Selection

end YaNuget.Sorting
