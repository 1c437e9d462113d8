import YaNuget.Data.Text

/-!
# Slices of text

Text is cut at a number of bytes of its UTF-8. The cut fails where it falls
inside a character, and never does in text of one byte a character.
-/
namespace YaNuget.Text

/-- The first `n` bytes, none when these end inside a character or after the text. -/
def sliceTo : ℕ → Text → Option Text
  | 0, _ => some []
  | _ + 1, [] => none
  | n + 1, c :: t =>
    if c.utf8Size ≤ n + 1 then (sliceTo (n + 1 - c.utf8Size) t).map (c :: ·) else none

def cut (n : ℕ) (t : Text) : Option (Text × Text) :=
  (sliceTo n t).map fun pre => (pre, t.drop pre.length)

theorem utf8Size_of_ascii {c : Char} (h : c.toNat < 128) : c.utf8Size = 1 := by
  have hval : c.val ≤ 0x7f := UInt32.le_iff_toNat_le.mpr (Nat.le_of_lt_succ h)
  simp [Char.utf8Size, hval]

theorem isAscii_append {a b : Text} :
    isAscii (a ++ b) = true ↔ isAscii a = true ∧ isAscii b = true := by
  simp [isAscii]

theorem isAscii_cons {c : Char} {t : Text} :
    isAscii (c :: t) = true ↔ c.toNat < 128 ∧ isAscii t = true := by
  simp [isAscii]

theorem isAscii_of_subset {a b : Text} (hsub : ∀ c ∈ a, c ∈ b) (h : isAscii b = true) :
    isAscii a = true := by
  simp only [isAscii, List.all_eq_true] at h ⊢
  intro c hc
  exact h c (hsub c hc)

theorem byteLen_of_ascii {t : Text} (h : isAscii t = true) : byteLen t = t.length := by
  induction t with
  | nil => rfl
  | cons c t ih =>
    obtain ⟨hc, ht⟩ := isAscii_cons.mp h
    rw [byteLen_cons, utf8Size_of_ascii hc, ih ht, List.length_cons, Nat.add_comm]

theorem sliceTo_of_ascii {t : Text} (h : isAscii t = true) {n : ℕ} (hn : n ≤ t.length) :
    sliceTo n t = some (t.take n) := by
  induction t generalizing n with
  | nil =>
    obtain rfl : n = 0 := by simpa using hn
    simp [sliceTo]
  | cons c t ih =>
    obtain ⟨hc, ht⟩ := isAscii_cons.mp h
    cases n with
    | zero => simp [sliceTo]
    | succ n =>
      have hrest : sliceTo n t = some (t.take n) := ih ht (Nat.le_of_succ_le_succ hn)
      simp [sliceTo, utf8Size_of_ascii hc, hrest]

end YaNuget.Text
