import Mathlib.Data.List.Basic
import Mathlib.Data.Nat.Notation

/-!
# Reads at offsets

A program that reads pieces of a file, each at an offset that may depend on the
pieces before. Where the file can be read anywhere it has a value. Where it can
only be read forward it has the same value, if every piece starts no sooner than
the one before ends.
-/
namespace YaNuget.Reads

variable {α B : Type}

inductive Reading (B α : Type) where
  | done (a : α)
  | read (offset n : ℕ) (next : List B → Reading B α)

/-- `n` elements from `offset` on. -/
def piece (bytes : List B) (offset n : ℕ) : List B := (bytes.drop offset).take n

theorem length_piece {bytes : List B} {offset n : ℕ} (h : offset + n ≤ bytes.length) :
    (piece bytes offset n).length = n := by
  unfold piece
  rw [List.length_take, List.length_drop]
  omega

namespace Reading

/-- What is read where the file can be read anywhere. -/
def value (bytes : List B) : Reading B α → Option α
  | done a => some a
  | read offset n next =>
    if offset + n ≤ bytes.length then (next (piece bytes offset n)).value bytes else none

/-- Where the pieces lie that are asked for, up to one that is not in the file. -/
def extents (bytes : List B) : Reading B α → List (ℕ × ℕ)
  | done _ => []
  | read offset n next =>
    (offset, n) ::
      if offset + n ≤ bytes.length then (next (piece bytes offset n)).extents bytes else []

end Reading

/-- From `pos` on the pieces can be read one after the other, up to `limit`. -/
def follows (limit : ℕ) : ℕ → List (ℕ × ℕ) → Bool
  | _, [] => true
  | pos, (offset, n) :: rest =>
    decide (pos ≤ offset ∧ offset + n ≤ limit) && follows limit (offset + n) rest

variable {limit pos pos' : ℕ} {es : List (ℕ × ℕ)}

theorem follows_read {bytes : List B} {offset n : ℕ} {next : List B → Reading B α}
    (hlimit : limit ≤ bytes.length) :
    follows limit pos ((Reading.read offset n next).extents bytes) =
      (decide (pos ≤ offset ∧ offset + n ≤ limit) &&
        follows limit (offset + n) ((next (piece bytes offset n)).extents bytes)) := by
  rw [Reading.extents, follows]
  by_cases hin : offset + n ≤ bytes.length
  · rw [if_pos hin]
  · have hout : ¬ (pos ≤ offset ∧ offset + n ≤ limit) := fun h => hin (Nat.le_trans h.2 hlimit)
    rw [decide_eq_false hout, Bool.false_and, Bool.false_and]

/-- From an earlier position as much can be read. -/
theorem follows_of_le (hle : pos' ≤ pos) (h : follows limit pos es = true) :
    follows limit pos' es = true := by
  cases es with
  | nil => rfl
  | cons e rest =>
    obtain ⟨offset, n⟩ := e
    simp only [follows, Bool.and_eq_true, decide_eq_true_eq] at h ⊢
    exact ⟨⟨Nat.le_trans hle h.1.1, h.1.2⟩, h.2⟩

/-- Where only the position is in the way, it is so at the first piece. -/
theorem head_behind {e : ℕ × ℕ} (h : follows limit pos' (e :: es) = true)
    (hnot : follows limit pos (e :: es) = false) : e.1 < pos ∧ e.1 + e.2 ≤ limit := by
  obtain ⟨offset, n⟩ := e
  simp only [follows, Bool.and_eq_true, Bool.and_eq_false_iff, decide_eq_true_eq,
    decide_eq_false_iff_not] at h hnot
  rcases hnot with hnot | hnot
  · exact ⟨by omega, h.1.2⟩
  · rw [h.2] at hnot
    cases hnot

end YaNuget.Reads
