import Mathlib.Data.List.Basic
import Mathlib.Data.List.TakeWhile
import Mathlib.Data.Nat.Notation

/-!
# Windows

A list in the order of time, cut into windows of a fixed length. A window opens
with the first that comes after the one before has closed.
-/
namespace YaNuget.Windows

variable {α : Type} (time : α → ℕ) (length : ℕ)

def windows : List α → List (List α)
  | [] => []
  | x :: xs =>
    (x :: xs.takeWhile fun y => time y - time x < length) ::
      windows (xs.dropWhile fun y => time y - time x < length)
termination_by l => l.length
decreasing_by
  have hdrop := List.length_dropWhile_le (fun y => decide (time y - time x < length)) xs
  simp only [List.length_cons]
  omega

variable {time length} {l : List α}

@[simp] theorem flatten_windows (l : List α) : (windows time length l).flatten = l := by
  induction l using windows.induct time length with
  | case1 => simp [windows]
  | case2 x xs ih =>
    rw [windows, List.flatten_cons, ih, List.cons_append, List.takeWhile_append_dropWhile]

theorem mem_of_mem_windows {win : List α} {y : α} (hwin : win ∈ windows time length l)
    (hy : y ∈ win) : y ∈ l := by
  have hmem := List.mem_flatten_of_mem hwin hy
  rwa [flatten_windows] at hmem

/-- The window lasts from its first element until it has its length. -/
def Spans (time : α → ℕ) (length : ℕ) (win : List α) : Prop :=
  ∃ x xs, win = x :: xs ∧ ∀ y ∈ xs, time x ≤ time y ∧ time y < time x + length

theorem spans_of_mem (hsorted : l.Pairwise fun x y => time x ≤ time y) :
    ∀ win ∈ windows time length l, Spans time length win := by
  induction l using windows.induct time length with
  | case1 => simp [windows]
  | case2 x xs ih =>
    obtain ⟨hfirst, hrest⟩ := List.pairwise_cons.mp hsorted
    rw [windows]
    intro win hwin
    rcases List.mem_cons.mp hwin with rfl | hwin
    · refine ⟨x, _, rfl, fun y hy => ?_⟩
      have hin := List.mem_takeWhile_imp hy
      have hle := hfirst y ((List.takeWhile_prefix _).subset hy)
      rw [decide_eq_true_eq] at hin
      omega
    · exact ih (hrest.sublist (List.dropWhile_sublist _)) win hwin

/-- Nothing after a window is in its span. -/
theorem windows_apart (hsorted : l.Pairwise fun x y => time x ≤ time y) :
    (windows time length l).Pairwise fun win later =>
      ∀ x ∈ win.head?, ∀ y ∈ later, time x + length ≤ time y := by
  induction l using windows.induct time length with
  | case1 => simp [windows]
  | case2 x xs ih =>
    obtain ⟨hfirst, hrest⟩ := List.pairwise_cons.mp hsorted
    have hdrop := hrest.sublist (List.dropWhile_sublist fun y => time y - time x < length)
    rw [windows, List.pairwise_cons]
    refine ⟨fun later hlater x' hx' y hy => ?_, ih hdrop⟩
    obtain rfl : x = x' := by simpa using hx'
    have hmem := mem_of_mem_windows hlater hy
    cases hcut : xs.dropWhile fun y => time y - time x < length with
    | nil =>
      rw [hcut] at hmem
      cases hmem
    | cons z zs =>
      have hz : ¬ time z - time x < length := by
        have hne : xs.dropWhile (fun y => decide (time y - time x < length)) ≠ [] := by simp [hcut]
        have hout := List.head_dropWhile_not (fun y => decide (time y - time x < length)) hne
        simpa [hcut] using hout
      rw [hcut] at hmem hdrop
      have hle := hfirst z ((List.dropWhile_sublist _).subset (hcut ▸ List.mem_cons_self))
      rcases List.mem_cons.mp hmem with rfl | hmem
      · omega
      · have hlater := (List.pairwise_cons.mp hdrop).1 y hmem
        omega

end YaNuget.Windows
