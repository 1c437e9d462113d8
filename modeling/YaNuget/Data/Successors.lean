import Mathlib.Data.List.Basic
import Mathlib.Data.Nat.Notation

/-!
# Successors

The item that comes right after another one among those with a property. Lists
of items are compared lexicographically; a list within a size comes right
before the shortest continuation of it that still fits, and else before the
list that replaces the last item that can be replaced.
-/
namespace YaNuget.Orderings

open Std

variable {α : Type} {cmp : α → α → Ordering}

/-- `next` is the least of the items with `P` after `a`, if there are any. -/
def IsSuccessor (P : α → Prop) (cmp : α → α → Ordering) (a : α) : Option α → Prop
  | none => ∀ c, P c → cmp a c ≠ .lt
  | some b => P b ∧ cmp a b = .lt ∧ ∀ c, P c → cmp a c = .lt → (cmp b c).isLE

def nextIn [DecidableEq α] (l : List α) (a : α) : Option α := (l.dropWhile (· ≠ a)).tail.head?

/-- In an ordered list the next item is the successor among all items. -/
theorem isSuccessor_nextIn [OrientedCmp cmp] [DecidableEq α] {l : List α}
    (hsorted : l.Pairwise fun a b => cmp a b = .lt) {a : α} (ha : a ∈ l) :
    IsSuccessor (· ∈ l) cmp a (nextIn l a) := by
  induction l with
  | nil => simp at ha
  | cons b l ih =>
    obtain ⟨hb, hl⟩ := List.pairwise_cons.mp hsorted
    by_cases hba : b = a
    · subst hba
      have hself : cmp b b ≠ .lt := fun h => by simp [ReflCmp.compare_self] at h
      have hnext : nextIn (b :: l) b = l.head? := by simp [nextIn]
      rw [hnext]
      cases l with
      | nil =>
        intro c hc
        rwa [List.mem_singleton.mp hc]
      | cons d l =>
        refine ⟨by simp, hb d List.mem_cons_self, fun c hc hlt => ?_⟩
        rcases List.mem_cons.mp hc with rfl | hc
        · exact (hself hlt).elim
        rcases List.mem_cons.mp hc with rfl | hc
        · simp [ReflCmp.compare_self]
        · simp [(List.pairwise_cons.mp hl).1 c hc]
    · have ha' : a ∈ l := (List.mem_cons.mp ha).resolve_left (Ne.symm hba)
      have hnext : nextIn (b :: l) a = nextIn l a := by simp [nextIn, hba]
      have hrest := ih hl ha'
      have hbefore : cmp a b ≠ .lt := by
        rw [OrientedCmp.gt_of_lt (hb a ha')]
        simp
      rw [hnext]
      cases hc : nextIn l a with
      | none =>
        rw [hc] at hrest
        intro d hd
        rcases List.mem_cons.mp hd with rfl | hd
        · exact hbefore
        · exact hrest d hd
      | some c =>
        rw [hc] at hrest
        obtain ⟨hmem, hlt, hleast⟩ := hrest
        refine ⟨List.mem_cons_of_mem b hmem, hlt, fun d hd hlt' => ?_⟩
        rcases List.mem_cons.mp hd with rfl | hd
        · exact (hbefore hlt').elim
        · exact hleast d hd hlt'

section Skipped

/-- The first of the successors that is `q`, within `fuel` steps. -/
def nextThat (q : α → Bool) (next : α → Option α) : ℕ → α → Option α
  | 0, _ => none
  | fuel + 1, a =>
    match next a with
    | none => none
    | some b => if q b then some b else nextThat q next fuel b

variable [TransCmp cmp] {P : α → Prop} {q : α → Bool} {next : α → Option α} {rank : α → ℕ}

/-- Successors without `q` come with smaller and smaller ranks, so the fuel lasts until the
first one with `q`. -/
theorem isSuccessor_nextThat (hcongr : ∀ a b, P a → P b → cmp a b = .eq → q a = q b)
    (hnext : ∀ a, P a → IsSuccessor P cmp a (next a))
    (hrank : ∀ a b, P a → next a = some b → q b = false → rank b < rank a) :
    ∀ fuel a, P a → rank a < fuel →
      IsSuccessor (fun b => P b ∧ q b = true) cmp a (nextThat q next fuel a) := by
  intro fuel
  induction fuel with
  | zero =>
    intro a _ hfuel
    omega
  | succ fuel ih =>
    intro a ha hfuel
    have hspec := hnext a ha
    unfold nextThat
    cases hb : next a with
    | none =>
      rw [hb] at hspec
      intro c hc
      exact hspec c hc.1
    | some b =>
      rw [hb] at hspec
      obtain ⟨hPb, hlt, hleast⟩ := hspec
      by_cases hq : q b = true
      · simp only [hq, if_true]
        exact ⟨⟨hPb, hq⟩, hlt, fun c hc => hleast c hc.1⟩
      · have hdrop := hrank a b ha hb (by simpa using hq)
        have hrest := ih b hPb (by omega)
        have hafter : ∀ c, P c ∧ q c = true → cmp a c = .lt → cmp b c = .lt := by
          intro c hc hac
          have hle := hleast c hc.1 hac
          cases hbc : cmp b c with
          | lt => rfl
          | eq => exact (hq ((hcongr b c hPb hc.1 hbc).trans hc.2)).elim
          | gt => simp [hbc] at hle
        simp only [hq]
        change IsSuccessor _ cmp a (nextThat q next fuel b)
        cases hres : nextThat q next fuel b with
        | none =>
          rw [hres] at hrest
          intro c hc hac
          exact hrest c hc (hafter c hc hac)
        | some d =>
          rw [hres] at hrest
          obtain ⟨hd, hbd, hleast'⟩ := hrest
          exact ⟨hd, TransCmp.lt_trans hlt hbd,
            fun c hc hac => hleast' c hc (hafter c hc hac)⟩

end Skipped

section Lists

/-- The sizes of the items together. -/
def weight (size : α → ℕ) : List α → ℕ
  | [] => 0
  | a :: l => size a + weight size l

/-- The items are `ok`, and fit in `room`. -/
def Fits (ok : α → Prop) (size : α → ℕ) (room : ℕ) (l : List α) : Prop :=
  (∀ a ∈ l, ok a) ∧ weight size l ≤ room

/-- The list right after `l` among those that fit in `room`. -/
def nextList (size : α → ℕ) (least : α) (next : ℕ → α → Option α) : ℕ → List α → Option (List α)
  | room, [] => if size least ≤ room then some [least] else none
  | room, a :: l =>
    match nextList size least next (room - size a) l with
    | some l' => some (a :: l')
    | none => (next room a).map fun b => [b]

/-- What the lists of items need to have successors: a least item, which is no larger than
others, and the successor of each item within any size. -/
structure Sized (ok : α → Prop) (size : α → ℕ) (cmp : α → α → Ordering) (least : α)
    (next : ℕ → α → Option α) : Prop where
  least_ok : ok least
  least_le : ∀ a, ok a → (cmp least a).isLE
  least_size : ∀ a, ok a → size least ≤ size a
  size_congr : ∀ a b, ok a → ok b → cmp a b = .eq → size a = size b
  successor : ∀ room a, ok a → size a ≤ room →
    IsSuccessor (fun b => ok b ∧ size b ≤ room) cmp a (next room a)

variable {ok : α → Prop} {size : α → ℕ} {least : α} {next : ℕ → α → Option α}

theorem fits_cons {room : ℕ} {a : α} {l : List α} :
    Fits ok size room (a :: l) ↔ (ok a ∧ size a ≤ room) ∧ Fits ok size (room - size a) l := by
  simp only [Fits, weight, List.forall_mem_cons]
  constructor
  · rintro ⟨⟨ha, hl⟩, hw⟩
    exact ⟨⟨ha, by omega⟩, hl, by omega⟩
  · rintro ⟨⟨ha, hsize⟩, hl, hw⟩
    exact ⟨⟨ha, hl⟩, by omega⟩

theorem fits_singleton {room : ℕ} {a : α} :
    Fits ok size room [a] ↔ ok a ∧ size a ≤ room := by
  simp [Fits, weight]

theorem nextList_append {room : ℕ} {p l l' : List α}
    (h : nextList size least next (room - weight size p) l = some l') :
    nextList size least next room (p ++ l) = some (p ++ l') := by
  induction p generalizing room with
  | nil => exact h
  | cons a p ih =>
    rw [weight, ← Nat.sub_sub] at h
    rw [List.cons_append, nextList, ih h]
    rfl

/-- What comes after a list starts with a greater item, or with an equal one and continues
with a list that comes after the rest. -/
theorem compareLex_cons_lt {a : α} {l m : List α} :
    List.compareLex cmp (a :: l) m = .lt ↔ ∃ b m', m = b :: m' ∧
      (cmp a b = .lt ∨ cmp a b = .eq ∧ List.compareLex cmp l m' = .lt) := by
  cases m with
  | nil => simp [List.compareLex_cons_nil]
  | cons b m' => simp [List.compareLex_cons_cons, Ordering.then_eq_lt]

theorem isLE_compareLex_singleton {a b : α} {l : List α} (h : (cmp a b).isLE) :
    (List.compareLex cmp [a] (b :: l)).isLE := by
  rw [List.compareLex_cons_cons]
  cases hab : cmp a b with
  | lt => simp
  | eq => cases l <;> simp [List.compareLex_nil_nil, List.compareLex_nil_cons]
  | gt => simp [hab] at h

theorem isSuccessor_nextList [ReflCmp cmp] (h : Sized ok size cmp least next) (l : List α) :
    ∀ room, Fits ok size room l →
      IsSuccessor (Fits ok size room) (List.compareLex cmp) l (nextList size least next room l) := by
  induction l with
  | nil =>
    intro room _
    unfold nextList
    split_ifs with hroom
    · refine ⟨fits_singleton.mpr ⟨h.least_ok, hroom⟩, rfl, ?_⟩
      intro m hm hlt
      cases m with
      | nil => simp [List.compareLex_nil_nil] at hlt
      | cons b m => exact isLE_compareLex_singleton (h.least_le b (hm.1 b List.mem_cons_self))
    · intro m hm hlt
      cases m with
      | nil => simp [List.compareLex_nil_nil] at hlt
      | cons b m =>
        have hb := (fits_cons.mp hm).1
        have hle := h.least_size b hb.1
        omega
  | cons a l ih =>
    intro room hfits
    obtain ⟨ha, hl⟩ := fits_cons.mp hfits
    have hrest := ih (room - size a) hl
    have hsame : ∀ b m, Fits ok size room (b :: m) → cmp a b = .eq →
        Fits ok size (room - size a) m := by
      intro b m hm hab
      obtain ⟨hb, hm⟩ := fits_cons.mp hm
      rwa [h.size_congr a b ha.1 hb.1 hab]
    unfold nextList
    cases hnext : nextList size least next (room - size a) l with
    | some l' =>
      rw [hnext] at hrest
      obtain ⟨hl', hlt, hleast⟩ := hrest
      refine ⟨fits_cons.mpr ⟨ha, hl'⟩, ?_, ?_⟩
      · simpa [List.compareLex_cons_cons, ReflCmp.compare_self] using hlt
      · intro m hm hlt
        obtain ⟨b, m', rfl, hab | ⟨hab, hm'⟩⟩ := compareLex_cons_lt.mp hlt
        · simp [List.compareLex_cons_cons, hab]
        · have hle := hleast m' (hsame b m' hm hab) hm'
          simpa [List.compareLex_cons_cons, hab] using hle
    | none =>
      rw [hnext] at hrest
      -- no continuation fits: what comes after starts with a greater item
      have hgreater : ∀ m, Fits ok size room m → List.compareLex cmp (a :: l) m = .lt →
          ∃ b m', m = b :: m' ∧ (ok b ∧ size b ≤ room) ∧ cmp a b = .lt := by
        intro m hm hlt
        obtain ⟨b, m', rfl, hab | ⟨hab, hm'⟩⟩ := compareLex_cons_lt.mp hlt
        · exact ⟨b, m', rfl, (fits_cons.mp hm).1, hab⟩
        · exact (hrest m' (hsame b m' hm hab) hm').elim
      have hitem := h.successor room a ha.1 ha.2
      cases hb : next room a with
      | none =>
        rw [hb] at hitem
        intro m hm hlt
        obtain ⟨b, m', rfl, hfit, hab⟩ := hgreater m hm hlt
        exact hitem b hfit hab
      | some b =>
        rw [hb] at hitem
        obtain ⟨hfit, hab, hleast⟩ := hitem
        refine ⟨fits_singleton.mpr hfit, ?_, ?_⟩
        · exact compareLex_cons_lt.mpr ⟨b, [], rfl, .inl hab⟩
        · intro m hm hlt
          obtain ⟨c, m', rfl, hfit', hac⟩ := hgreater m hm hlt
          exact isLE_compareLex_singleton (hleast c hfit' hac)

end Lists

end YaNuget.Orderings
