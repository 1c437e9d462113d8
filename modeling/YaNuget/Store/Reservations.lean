import Mathlib.Algebra.Order.BigOperators.Group.List
import Mathlib.Tactic.NormNum
import YaNuget.Data.Runs

/-!
# Bytes promised to writes in progress

Each upload holds a share of the bytes promised on a volume. What it writes is
taken off its share first and off the total next, and between the two any other
upload may act. The total is a word of 64 bits that wraps.
-/
namespace YaNuget.Space

/-- Additions and subtractions of the total are modulo this. -/
def wordSize : ℕ := 2 ^ 64

/-- `i64::MAX`, the most one share is given. -/
def maxShare : ℕ := 2 ^ 63 - 1

/-- One upload's share. -/
structure Reservation where
  held : ℕ
  /-- What is off the share and not yet off the total. -/
  taking : Option ℕ := none
  deriving DecidableEq, Repr

/-- What a share still holds. -/
def heldBy : Option Reservation → ℕ
  | none => 0
  | some r => r.held

def countedFor : Option Reservation → ℕ
  | none => 0
  | some r => r.held + r.taking.getD 0

/-- The total, and the shares given out, `none` once dropped. -/
structure Reservations where
  promised : ℕ := 0
  shares : List (Option Reservation) := []
  deriving DecidableEq, Repr

def fetchAdd (total n : ℕ) : ℕ := (total + n) % wordSize

def fetchSub (total n : ℕ) : ℕ := (total + wordSize - n % wordSize) % wordSize

inductive Action where
  | reserve (bytes : ℕ)
  /-- `consumed`, up to the store of what the share still holds. -/
  | take (share n : ℕ)
  /-- The end of `consumed`. -/
  | settle (share : ℕ)
  | drop (share : ℕ)
  deriving DecidableEq, Repr

namespace Reservations

/-- What the live shares hold, with what is being taken off. -/
def outstanding (s : Reservations) : ℕ := (s.shares.map countedFor).sum

def reserve (s : Reservations) (bytes : ℕ) : Reservations where
  promised := fetchAdd s.promised (min bytes maxShare)
  shares := s.shares ++ [some { held := min bytes maxShare }]

/-- The next state, if the action is possible: a share has one writer, who has returned from
`consumed` when it is dropped. -/
def step (s : Reservations) : Action → Option Reservations
  | .reserve bytes => some (s.reserve bytes)
  | .take i n =>
    match s.shares[i]? with
    | some (some ⟨held, none⟩) =>
      let take := min n held
      some { s with shares := s.shares.set i (some ⟨held - take, some take⟩) }
    | _ => none
  | .settle i =>
    match s.shares[i]? with
    | some (some ⟨held, some take⟩) =>
      some { promised := fetchSub s.promised take, shares := s.shares.set i (some ⟨held, none⟩) }
    | _ => none
  | .drop i =>
    match s.shares[i]? with
    | some (some ⟨held, none⟩) =>
      some { promised := fetchSub s.promised held, shares := s.shares.set i none }
    | _ => none

def added : Action → ℕ
  | .reserve bytes => min bytes maxShare
  | _ => 0

def subtracted (s : Reservations) : Action → ℕ
  | .reserve _ => 0
  | .take _ _ => 0
  | .settle i => (s.shares[i]?.join.bind (·.taking)).getD 0
  | .drop i => heldBy s.shares[i]?.join

/-- The share an action is about. -/
def about (s : Reservations) : Action → ℕ
  | .reserve _ => s.shares.length
  | .take i _ => i
  | .settle i => i
  | .drop i => i

/-- The total is what the shares hold, no subtraction from it goes below zero or beyond what the
share had, and the other shares stay as they are. -/
structure Sound (s : Reservations) : Prop where
  accounted : s.promised = s.outstanding
  idle : (∀ r ∈ s.shares, ∀ share ∈ r, share.taking = none) →
    s.promised = (s.shares.map heldBy).sum
  no_underflow : ∀ a s', s.step a = some s' → s.subtracted a ≤ s.promised
  own : ∀ a s', s.step a = some s' →
    s.subtracted a ≤ countedFor s.shares[s.about a]?.join ∧
      ∀ j, j ≠ s.about a → s'.shares[j]? = s.shares[j]?

/-- What is promised on top of what is outstanding stays below the size of a word. -/
def Fits (s : Reservations) (a : Action) : Prop := s.outstanding + added a < wordSize

section Sums

variable {α : Type} (f : α → ℕ)

/-- One element of a list is replaced: the sum changes by the difference. -/
theorem sum_set {l : List α} {i : ℕ} {x : α} (y : α) (h : l[i]? = some x) :
    ((l.set i y).map f).sum + f x = (l.map f).sum + f y := by
  induction l generalizing i with
  | nil => simp at h
  | cons z l ih =>
    cases i with
    | zero =>
      obtain rfl : z = x := by simpa using h
      simp only [List.set_cons_zero, List.map_cons, List.sum_cons]
      omega
    | succ i =>
      have hrest := ih (i := i) (by simpa using h)
      simp only [List.set_cons_succ, List.map_cons, List.sum_cons]
      omega

theorem le_sum {l : List α} {i : ℕ} {x : α} (h : l[i]? = some x) : f x ≤ (l.map f).sum :=
  List.le_sum_of_mem (List.mem_map_of_mem (List.mem_of_getElem? h))

end Sums

section Steps

variable {s s' : Reservations} {a : Action}

theorem step_cases (h : s.step a = some s') :
    (∃ bytes, a = .reserve bytes ∧ s' = s.reserve bytes) ∨
    (∃ i n held, a = .take i n ∧ s.shares[i]? = some (some ⟨held, none⟩) ∧
      s' = { s with shares := s.shares.set i (some ⟨held - min n held, some (min n held)⟩) }) ∨
    (∃ i held take, a = .settle i ∧ s.shares[i]? = some (some ⟨held, some take⟩) ∧
      s' = ⟨fetchSub s.promised take, s.shares.set i (some ⟨held, none⟩)⟩) ∨
    (∃ i held, a = .drop i ∧ s.shares[i]? = some (some ⟨held, none⟩) ∧
      s' = ⟨fetchSub s.promised held, s.shares.set i none⟩) := by
  cases a with
  | reserve bytes => exact .inl ⟨bytes, rfl, by simpa [step] using h.symm⟩
  | take i n =>
    simp only [step] at h
    split at h
    next held hshare => exact .inr (.inl ⟨i, n, held, rfl, hshare, by simpa using h.symm⟩)
    next => cases h
  | settle i =>
    simp only [step] at h
    split at h
    next held take hshare =>
      exact .inr (.inr (.inl ⟨i, held, take, rfl, hshare, by simpa using h.symm⟩))
    next => cases h
  | drop i =>
    simp only [step] at h
    split at h
    next held hshare => exact .inr (.inr (.inr ⟨i, held, rfl, hshare, by simpa using h.symm⟩))
    next => cases h

theorem outstanding_reserve (s : Reservations) (bytes : ℕ) :
    (s.reserve bytes).outstanding = s.outstanding + min bytes maxShare := by
  simp [outstanding, reserve, countedFor]

/-- Only a promise adds to what is outstanding, and nothing but what the action takes off goes. -/
theorem outstanding_step (h : s.step a = some s') :
    s'.outstanding + s.subtracted a = s.outstanding + added a := by
  obtain ⟨bytes, rfl, rfl⟩ | ⟨i, n, held, rfl, hshare, rfl⟩ | ⟨i, held, take, rfl, hshare, rfl⟩ |
    ⟨i, held, rfl, hshare, rfl⟩ := step_cases h
  · exact outstanding_reserve s bytes
  · have hsum := sum_set countedFor (some ⟨held - min n held, some (min n held)⟩) hshare
    simp only [countedFor, Option.getD_some, Option.getD_none] at hsum
    simp only [outstanding, subtracted, added]
    omega
  · have hsum := sum_set countedFor (some ⟨held, none⟩) hshare
    simp only [countedFor, Option.getD_some, Option.getD_none] at hsum
    simp only [outstanding, subtracted, added, hshare, Option.join_some, Option.bind_some,
      Option.getD_some]
    omega
  · have hsum := sum_set countedFor none hshare
    simp only [countedFor, Option.getD_none] at hsum
    simp only [outstanding, subtracted, added, hshare, Option.join_some, heldBy]
    omega

theorem subtracted_le_counted (s : Reservations) (a : Action) :
    s.subtracted a ≤ countedFor s.shares[s.about a]?.join := by
  cases a with
  | reserve bytes => exact Nat.zero_le _
  | take i n => exact Nat.zero_le _
  | settle i => cases hshare : s.shares[i]?.join <;> simp [subtracted, about, countedFor, hshare]
  | drop i =>
    cases hshare : s.shares[i]?.join <;> simp [subtracted, about, countedFor, heldBy, hshare]

theorem counted_le_outstanding (s : Reservations) (i : ℕ) :
    countedFor s.shares[i]?.join ≤ s.outstanding := by
  cases hshare : s.shares[i]? with
  | none => exact Nat.zero_le _
  | some r => exact le_sum countedFor hshare

theorem subtracted_le (s : Reservations) (a : Action) : s.subtracted a ≤ s.outstanding :=
  (s.subtracted_le_counted a).trans (s.counted_le_outstanding _)

theorem shares_step (h : s.step a = some s') {j : ℕ} (hj : j ≠ s.about a) :
    s'.shares[j]? = s.shares[j]? := by
  obtain ⟨bytes, rfl, rfl⟩ | ⟨i, n, held, rfl, hshare, rfl⟩ | ⟨i, held, take, rfl, hshare, rfl⟩ |
    ⟨i, held, rfl, hshare, rfl⟩ := step_cases h
  · simp only [about] at hj
    simp only [reserve, List.getElem?_append, List.getElem?_singleton]
    split
    · rfl
    · rw [if_neg (by omega), List.getElem?_eq_none (by omega)]
  all_goals exact List.getElem?_set_ne (Ne.symm hj)

theorem fetchAdd_mod (total n : ℕ) : fetchAdd (total % wordSize) n = (total + n) % wordSize :=
  Nat.mod_add_mod total wordSize n

theorem fetchSub_mod {total n : ℕ} (h : n ≤ total) :
    fetchSub (total % wordSize) n = (total - n) % wordSize := by
  have hsize : wordSize = 18446744073709551616 := by norm_num [wordSize]
  rw [fetchSub, hsize]
  omega

theorem promised_of_step (h : s.step a = some s') :
    s'.promised = fetchAdd s.promised (added a) ∧ s.subtracted a = 0 ∨
      s'.promised = fetchSub s.promised (s.subtracted a) ∧ added a = 0 ∨
      s'.promised = s.promised ∧ added a = 0 ∧ s.subtracted a = 0 := by
  obtain ⟨bytes, rfl, rfl⟩ | ⟨i, n, held, rfl, hshare, rfl⟩ | ⟨i, held, take, rfl, hshare, rfl⟩ |
    ⟨i, held, rfl, hshare, rfl⟩ := step_cases h
  · exact .inl ⟨rfl, rfl⟩
  · exact .inr (.inr ⟨rfl, rfl, rfl⟩)
  · exact .inr (.inl ⟨by simp [subtracted, hshare], rfl⟩)
  · exact .inr (.inl ⟨by simp [subtracted, hshare, heldBy], rfl⟩)

/-- The total is, up to its wrapping, what the shares hold. -/
theorem promised_step (h : s.step a = some s') (hs : s.promised = s.outstanding % wordSize) :
    s'.promised = s'.outstanding % wordSize := by
  have hsum := outstanding_step h
  have hle := s.subtracted_le a
  obtain ⟨hadd, hsub⟩ | ⟨hsub, hadd⟩ | ⟨hsame, hadd, hsub⟩ := promised_of_step h
  · rw [hadd, hs, fetchAdd_mod, ← hsum, hsub, add_zero]
  · rw [hsub, hs, fetchSub_mod hle]
    congr 1
    omega
  · rw [hsame, hs]
    congr 1
    omega

theorem outstanding_idle (h : ∀ r ∈ s.shares, ∀ share ∈ r, share.taking = none) :
    s.outstanding = (s.shares.map heldBy).sum := by
  unfold outstanding
  congr 1
  apply List.map_congr_left
  intro r hr
  cases r with
  | none => rfl
  | some share => simp [countedFor, heldBy, h _ hr share rfl]

theorem Sound.of_lt (hs : s.promised = s.outstanding % wordSize) (h : s.outstanding < wordSize) :
    s.Sound := by
  have haccounted : s.promised = s.outstanding := hs.trans (Nat.mod_eq_of_lt h)
  constructor
  · exact haccounted
  · intro hidle
    exact haccounted.trans (outstanding_idle hidle)
  · intro a s' _
    exact haccounted ▸ s.subtracted_le a
  · intro a s' hstep
    exact ⟨s.subtracted_le_counted a, fun j hj => shares_step hstep hj⟩

end Steps

section Runs

open Runs

variable {s : Reservations} {actions : List Action}

/-- The total of every state reached is, up to its wrapping, what the shares hold. -/
theorem promised_run (h : run step {} actions = some s) :
    s.promised = s.outstanding % wordSize :=
  run_keeps (I := fun s => s.promised = s.outstanding % wordSize)
    (fun _ _ _ hstep hs => promised_step hstep hs) h rfl

/-- Whatever the order of the actions, the total is exact in every state passed when, and only
when, no promise takes what is outstanding to the size of a word. -/
theorem sound_iff_fits (actions : List Action) :
    (∀ before, before <+: actions → ∀ s, run step {} before = some s → s.Sound) ↔
      ∀ before bytes, before ++ [.reserve bytes] <+: actions →
        ∀ s, run step {} before = some s → s.Fits (.reserve bytes) := by
  constructor
  · intro hsound before bytes hbefore s hs
    have hrun : run step {} (before ++ [.reserve bytes]) = some (s.reserve bytes) :=
      run_concat.mpr ⟨s, hs, rfl⟩
    have hexact := (hsound _ hbefore _ hrun).accounted
    have hmod := promised_run hrun
    have hlt : (s.reserve bytes).outstanding < wordSize := by
      rw [← hexact, hmod]
      exact Nat.mod_lt _ (by norm_num [wordSize])
    rwa [outstanding_reserve] at hlt
  · intro hfits before hbefore s hs
    have hlt : s.outstanding < wordSize := by
      apply run_keeps_of (I := fun s => s.outstanding < wordSize)
        (C := fun s a => ∀ bytes, a = .reserve bytes → s.Fits a) (s := {}) ?_ ?_ ?_
        before hbefore s hs
      · intro s a s' hstep hfit hlt
        have hsum := outstanding_step hstep
        cases a with
        | reserve bytes =>
          have := hfit bytes rfl
          unfold Fits at this
          omega
        | take i n | settle i | drop i =>
          simp only [added, add_zero] at hsum
          omega
      · norm_num [outstanding, wordSize]
      · rintro before a hbefore mid hmid bytes rfl
        exact hfits before bytes hbefore mid hmid
    exact Sound.of_lt (promised_run hs) hlt

/-- Three shares of all that a share can be given: the total shows less than any one of them. -/
theorem three_shares_wrap :
    ∃ s, run step {} (List.replicate 3 (.reserve (2 ^ 64 - 1))) = some s ∧
      s.outstanding = 3 * maxShare ∧ s.promised < maxShare ∧ ¬s.Sound := by
  have hrun : run step {} (List.replicate 3 (.reserve (2 ^ 64 - 1))) =
      some ⟨maxShare - 2, List.replicate 3 (some ⟨maxShare, none⟩)⟩ := by decide +kernel
  have hlt : maxShare - 2 < maxShare := by decide +kernel
  refine ⟨_, hrun, by decide +kernel, hlt, fun hsound => ?_⟩
  have hne : maxShare - 2 ≠ (List.replicate 3 (some ⟨maxShare, none⟩) |>.map countedFor).sum := by
    decide +kernel
  exact hne hsound.accounted

end Runs

end Reservations

end YaNuget.Space
