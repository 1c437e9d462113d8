import Mathlib.Data.List.Basic
import Mathlib.Data.Nat.Notation

/-!
# Words

A text of words and marks, with blanks between them. A mark ends a word, and
so does a blank, and the pieces between blanks and marks are the words of the
text wherever the blanks stand. The same pieces, of lists of words, are what
lies between the operators of an expression.
-/
namespace YaNuget.Words

variable {α : Type} {sep blank mark : α → Bool}

/-- The pieces of `t` between separators, without the empty ones. -/
def pieces (sep : α → Bool) (t : List α) : List (List α) :=
  (t.splitOnP sep).filter fun piece => !piece.isEmpty

theorem forall_of_all_not {l : List α} (h : l.all (fun c => !sep c) = true) :
    ∀ c ∈ l, sep c = false := by
  intro c hc
  simpa using List.all_eq_true.mp h c hc

section Pieces

variable {a b t : List α} {c : α}

theorem pieces_append_cons (h : sep c = true) :
    pieces sep (a ++ c :: b) = pieces sep a ++ pieces sep b := by
  unfold pieces
  rw [List.splitOnP_append_cons a b h, List.filter_append]

theorem pieces_cons (h : sep c = true) : pieces sep (c :: t) = pieces sep t :=
  pieces_append_cons h (a := [])

@[simp] theorem pieces_nil : pieces sep [] = [] := rfl

theorem pieces_append (h : ∀ c ∈ a, sep c = true) : pieces sep (a ++ t) = pieces sep t := by
  induction a with
  | nil => rfl
  | cons c a ih =>
    rw [List.cons_append, pieces_cons (h c List.mem_cons_self)]
    exact ih fun d hd => h d (List.mem_cons_of_mem c hd)

theorem pieces_of_word (hne : a ≠ []) (h : ∀ c ∈ a, sep c = false) : pieces sep a = [a] := by
  unfold pieces
  rw [List.splitOnP_eq_singleton h]
  simpa using hne

theorem pieces_word_append (hne : a ≠ []) (h : ∀ c ∈ a, sep c = false)
    (hend : ∀ c ∈ t.head?, sep c = true) : pieces sep (a ++ t) = a :: pieces sep t := by
  cases t with
  | nil => simp [pieces_of_word hne h]
  | cons c t =>
    have hc := hend c rfl
    rw [pieces_append_cons hc, pieces_of_word hne h, pieces_cons hc]
    rfl

/-- What lies between separators is of the text, and no separator. -/
theorem mem_of_mem_splitOnP (h : a ∈ t.splitOnP sep) (hc : c ∈ a) : c ∈ t ∧ sep c = false := by
  induction t generalizing a with
  | nil =>
    rw [List.splitOnP_nil, List.mem_singleton] at h
    simp [h] at hc
  | cons d t ih =>
    have hrest {b : List α} (hb : b ∈ t.splitOnP sep) (hcb : c ∈ b) :
        c ∈ d :: t ∧ sep c = false :=
      ⟨List.mem_cons_of_mem d (ih hb hcb).1, (ih hb hcb).2⟩
    rw [List.splitOnP_cons_eq_if_modifyHead] at h
    split_ifs at h with hd
    · rcases List.mem_cons.mp h with rfl | h
      · simp at hc
      · exact hrest h hc
    · cases hsplit : t.splitOnP sep with
      | nil => exact absurd hsplit (List.splitOnP_ne_nil sep t)
      | cons first rest =>
        rw [hsplit, List.modifyHead_cons] at h
        rcases List.mem_cons.mp h with rfl | h
        · rcases List.mem_cons.mp hc with rfl | hc
          · exact ⟨List.mem_cons_self, by simpa using hd⟩
          · exact hrest (hsplit ▸ List.mem_cons_self) hc
        · exact hrest (hsplit ▸ List.mem_cons_of_mem first h) hc

theorem of_mem_pieces (h : a ∈ pieces sep t) : a ≠ [] ∧ ∀ c ∈ a, sep c = false := by
  obtain ⟨hmem, hne⟩ := List.mem_filter.mp h
  exact ⟨by simpa using hne, fun c hc => (mem_of_mem_splitOnP hmem hc).2⟩

/-- What is joined by a separator comes apart again. -/
theorem pieces_intercalate {ws : List (List α)} (hc : sep c = true)
    (h : ∀ w ∈ ws, w ≠ [] ∧ ∀ d ∈ w, sep d = false) :
    pieces sep ([c].intercalate ws) = ws := by
  induction ws with
  | nil => rfl
  | cons w ws ih =>
    obtain ⟨hne, hw⟩ := h w List.mem_cons_self
    have hrest := ih fun v hv => h v (List.mem_cons_of_mem w hv)
    cases ws with
    | nil => simp [pieces_of_word hne hw]
    | cons v ws =>
      rw [List.intercalate_cons_cons, List.append_assoc, List.singleton_append,
        pieces_append_cons hc, pieces_of_word hne hw, hrest]
      rfl

theorem head?_intercalate {w : List α} {ws : List (List α)} (h : w ≠ []) :
    ([c].intercalate (w :: ws)).head? = w.head? := by
  cases ws with
  | nil => simp
  | cons v ws => rw [List.intercalate_cons_cons, List.append_assoc, List.head?_append_of_ne_nil _ h]

/-- It ends as one of its words does. -/
theorem getLast?_intercalate {ws : List (List α)} (h : ∀ w ∈ ws, w ≠ []) (hne : ws ≠ []) :
    ∃ w ∈ ws, ([c].intercalate ws).getLast? = w.getLast? := by
  induction ws with
  | nil => exact absurd rfl hne
  | cons w ws ih =>
    cases ws with
    | nil => exact ⟨w, List.mem_cons_self, by simp⟩
    | cons v ws =>
      obtain ⟨u, hu, hlast⟩ := ih (fun u hu => h u (List.mem_cons_of_mem w hu)) (by simp)
      refine ⟨u, List.mem_cons_of_mem w hu, ?_⟩
      have hrest : [c].intercalate (v :: ws) ≠ [] := by
        intro hnil
        rw [hnil, List.getLast?_nil, eq_comm, List.getLast?_eq_none_iff] at hlast
        exact h u (List.mem_cons_of_mem w hu) hlast
      rw [List.intercalate_cons_cons, List.getLast?_append_of_ne_nil _ hrest, hlast]

end Pieces

inductive Token (α : Type) where
  | word (w : List α)
  | mark (c : α)

def wordsOf : List (Token α) → List (List α)
  | [] => []
  | .word w :: ts => w :: wordsOf ts
  | .mark _ :: ts => wordsOf ts

theorem wordsOf_append (ts ts' : List (Token α)) :
    wordsOf (ts ++ ts') = wordsOf ts ++ wordsOf ts' := by
  induction ts with
  | nil => rfl
  | cons token ts ih => cases token <;> simp [wordsOf, ih]

/-- `t` is a text of these words and marks, with blanks where they are needed, and anywhere
else between them. -/
inductive Laid (blank mark : α → Bool) : List (Token α) → List α → Prop
  | nil {gap : List α} : (∀ c ∈ gap, blank c = true) → Laid blank mark [] gap
  | mark {gap t : List α} {c : α} {ts : List (Token α)} : (∀ c ∈ gap, blank c = true) →
      mark c = true → Laid blank mark ts t → Laid blank mark (.mark c :: ts) (gap ++ c :: t)
  | word {gap w t : List α} {ts : List (Token α)} : (∀ c ∈ gap, blank c = true) → w ≠ [] →
      (∀ c ∈ w, (blank c || mark c) = false) → (∀ c ∈ t.head?, (blank c || mark c) = true) →
      Laid blank mark ts t → Laid blank mark (.word w :: ts) (gap ++ (w ++ t))

section Laid

variable {ts : List (Token α)} {t : List α}

/-- A text of tokens, with its blanks before each. -/
def layOut : List (List α × Token α) → List α
  | [] => []
  | (gap, .word w) :: ts => gap ++ (w ++ layOut ts)
  | (gap, .mark c) :: ts => gap ++ c :: layOut ts

def spaced (blank mark : α → Bool) : List (List α × Token α) → Bool
  | [] => true
  | (gap, .word w) :: ts => gap.all blank && !w.isEmpty && w.all (fun c => !(blank c || mark c)) &&
      (layOut ts).head?.all (fun c => blank c || mark c) && spaced blank mark ts
  | (gap, .mark c) :: ts => gap.all blank && mark c && spaced blank mark ts

theorem Laid.of_spaced {ts : List (List α × Token α)} (h : spaced blank mark ts = true) :
    Laid blank mark (ts.map Prod.snd) (layOut ts) := by
  induction ts with
  | nil => exact .nil (by simp [layOut])
  | cons token ts ih =>
    obtain ⟨gap, token⟩ := token
    cases token with
    | word w =>
      simp only [spaced, Bool.and_eq_true, Bool.not_eq_true', List.all_eq_true] at h
      obtain ⟨⟨⟨⟨hgap, hne⟩, hw⟩, hend⟩, hrest⟩ := h
      refine .word hgap (by simpa using hne) (fun c hc => by simpa using hw c hc) ?_ (ih hrest)
      intro c hc
      rw [Option.mem_def.mp hc] at hend
      simpa using hend
    | mark c =>
      simp only [spaced, Bool.and_eq_true, List.all_eq_true] at h
      exact .mark h.1.1 h.1.2 (ih h.2)

theorem Laid.pieces_eq (h : Laid blank mark ts t) :
    pieces (fun c => blank c || mark c) t = wordsOf ts := by
  induction h with
  | @nil gap hgap =>
    have hall : pieces (fun c => blank c || mark c) (gap ++ []) = [] :=
      pieces_append fun c hc => by simp [hgap c hc]
    rwa [List.append_nil] at hall
  | mark hgap hmark _ ih =>
    rw [pieces_append fun c hc => by simp [hgap c hc], pieces_cons (by simp [hmark]), ih]
    rfl
  | word hgap hne hw hend _ ih =>
    rw [pieces_append fun c hc => by simp [hgap c hc], pieces_word_append hne hw hend, ih]
    rfl

/-- Without marks among the tokens there is none in the text. -/
theorem Laid.mark_eq_false (h : Laid blank mark ts t) (hmarks : ∀ c, .mark c ∉ ts)
    (hblank : ∀ c, blank c = true → mark c = false) : ∀ c ∈ t, mark c = false := by
  induction h with
  | nil hgap => exact fun c hc => hblank c (hgap c hc)
  | mark => exact (hmarks _ List.mem_cons_self).elim
  | word hgap _ hw _ _ ih =>
    intro c hc
    rcases List.mem_append.mp hc with hc | hc
    · exact hblank c (hgap c hc)
    · rcases List.mem_append.mp hc with hc | hc
      · have hplain := hw c hc
        simp only [Bool.or_eq_false_iff] at hplain
        exact hplain.2
      · exact ih (fun d hd => hmarks d (List.mem_cons_of_mem _ hd)) c hc

theorem Laid.pieces_blank (h : Laid blank mark ts t) (hmarks : ∀ c, .mark c ∉ ts)
    (hblank : ∀ c, blank c = true → mark c = false) : pieces blank t = wordsOf ts := by
  rw [← h.pieces_eq]
  unfold pieces
  congr 1
  have hsame : ∀ c ∈ t, blank c = (blank c || mark c) := by
    intro c hc
    rw [h.mark_eq_false hmarks hblank c hc, Bool.or_false]
  clear h hmarks
  induction t with
  | nil => rfl
  | cons c t ih =>
    rw [List.splitOnP_cons_eq_if_modifyHead, List.splitOnP_cons_eq_if_modifyHead,
      ih fun d hd => hsame d (List.mem_cons_of_mem c hd), ← hsame c List.mem_cons_self]

end Laid

end YaNuget.Words
