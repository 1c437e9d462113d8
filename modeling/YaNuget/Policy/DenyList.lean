import YaNuget.Policy.Licenses

/-!
# The deny list

A deny rule is looked for among the words of an expression. It finds its
license in every spelling, wherever the expression names it.
-/
namespace YaNuget.Policy

open Words

/-- A rule that is a single license id, with blanks around it at most. -/
structure IsLicenseRule (rule : String) : Prop where
  ne : trim rule ≠ ""
  word : IsWord (trim rule).toList
  plain : '(' ∉ (trim rule).toList ∧ ')' ∉ (trim rule).toList

def Names (rule : Text) (license : Leaf) : Prop :=
  licenseFamily license.word = licenseFamily rule ∨
    ∃ x ∈ license.exception, Text.lower x = Text.lower rule

section Scan

variable {rule : Text} {e : Expression} {ts : List (Token Char)}

def scan (rule : Text) (words : List Text) : Bool :=
  anyTokenMatches (String.ofList rule) (licenseFamily rule) false (words.map String.ofList)

theorem isOperator_eq_false {w : Text} (h : isOperator w = false) :
    eqIgnoreAsciiCase (String.ofList w) "WITH" = false ∧
      eqIgnoreAsciiCase (String.ofList w) "OR" = false ∧
      eqIgnoreAsciiCase (String.ofList w) "AND" = false := by
  simp only [isOperator, Bool.or_eq_false_iff, decide_eq_false_iff_not] at h
  simp only [← Bool.not_eq_true, eqIgnoreAsciiCase_iff, String.toList_ofList]
  exact ⟨h.2, h.1.2, h.1.1⟩

theorem scan_license {w : Text} {rest : List Text} (h : isOperator w = false) :
    scan rule (w :: rest) = true ↔ licenseFamily w = licenseFamily rule ∨ scan rule rest = true := by
  obtain ⟨hwith, hor, hand⟩ := isOperator_eq_false h
  unfold scan
  rw [List.map_cons, anyTokenMatches]
  simp only [hwith, hor, hand, Bool.false_eq_true, if_false, Bool.or_self, Bool.or_eq_true,
    beq_iff_eq]
  rfl

theorem scan_exception {op x : Text} {rest : List Text} (hop : Text.lower op = "with".toList)
    (h : isOperator x = false) : scan rule (op :: x :: rest) = true ↔
      Text.lower x = Text.lower rule ∨ scan rule rest = true := by
  have hw : eqIgnoreAsciiCase (String.ofList op) "WITH" = true := by
    rw [eqIgnoreAsciiCase_iff, String.toList_ofList, hop]
    decide
  obtain ⟨hwith, hor, hand⟩ := isOperator_eq_false h
  unfold scan
  rw [List.map_cons, List.map_cons, anyTokenMatches]
  simp only [hw, if_true]
  rw [anyTokenMatches]
  simp only [hwith, hor, hand, Bool.false_eq_true, if_false, Bool.or_self, if_true,
    Bool.or_eq_true, eqIgnoreAsciiCase_iff, String.toList_ofList]

theorem scan_operator {op : Text} {rest : List Text}
    (hop : Text.lower op = "and".toList ∨ Text.lower op = "or".toList) :
    scan rule (op :: rest) = scan rule rest := by
  have hnot : eqIgnoreAsciiCase (String.ofList op) "WITH" = false := by
    rw [← Bool.not_eq_true, eqIgnoreAsciiCase_iff, String.toList_ofList]
    rcases hop with hop | hop <;> rw [hop] <;> decide
  have hskip : (eqIgnoreAsciiCase (String.ofList op) "OR" ||
      eqIgnoreAsciiCase (String.ofList op) "AND") = true := by
    rw [Bool.or_eq_true, eqIgnoreAsciiCase_iff, eqIgnoreAsciiCase_iff, String.toList_ofList]
    rcases hop with hop | hop <;> rw [hop] <;> decide
  unfold scan
  rw [List.map_cons, anyTokenMatches]
  simp only [hnot, Bool.false_eq_true, if_false, hskip, if_true]

theorem scan_spelled (h : Expression.Spelled e ts) (rest : List Text) :
    scan rule (wordsOf ts ++ rest) = true ↔
      (∃ license ∈ e.leaves, Names rule license) ∨ scan rule rest = true := by
  induction h generalizing rest with
  | @leaf license hnone =>
    have hscan : scan rule (license.word :: rest) = true ↔ _ := scan_license license.plain
    simpa [wordsOf, Expression.leaves, Names, hnone] using hscan
  | @exception license op x hsome hop =>
    have hx := license.plain_exception x hsome
    have hscan : scan rule (license.word :: op :: x :: rest) = true ↔ _ :=
      scan_license license.plain
    rw [scan_exception hop hx] at hscan
    simpa [wordsOf, Expression.leaves, Names, hsome, or_assoc] using hscan
  | paren _ ih =>
    simp only [wordsOf, wordsOf_append, List.append_nil, Expression.leaves]
    exact ih rest
  | @and a b ts ts' op hop _ _ ih ih' =>
    simp only [wordsOf, wordsOf_append, List.append_assoc, List.cons_append, Expression.leaves]
    rw [ih, scan_operator (.inl hop), ih']
    simp only [List.mem_append, or_and_right, exists_or, or_assoc]
  | @or a b ts ts' op hop _ _ ih ih' =>
    simp only [wordsOf, wordsOf_append, List.append_assoc, List.cons_append, Expression.leaves]
    rw [ih, scan_operator (.inr hop), ih']
    simp only [List.mem_append, or_and_right, exists_or, or_assoc]

end Scan

section Matches

variable {rule license : String} {e : Expression}

def endsWord (c : Char) : Bool := isWhitespace c || (c = '(' || c = ')')

theorem not_letter_of_endsWord {c : Char} (h : endsWord c = true) :
    c.toNat < 65 ∨ 122 < c.toNat := by
  have hopen : '('.toNat = 40 := rfl
  have hclose : ')'.toNat = 41 := rfl
  simp only [endsWord, isWhitespace, Bool.or_eq_true, Bool.and_eq_true, decide_eq_true_eq,
    beq_iff_eq] at h
  by_contra hletter
  rcases h with h | rfl | rfl
  · omega
  · omega
  · omega

theorem endsWord_congr {c d : Char} (h : c.toLower = d.toLower) (hc : endsWord c = true) : c = d := by
  have hletter := not_letter_of_endsWord hc
  rcases Text.toLower_cases c with ⟨h₁, h₂, -⟩ | ⟨-, hsame⟩
  · omega
  · rcases Text.toLower_cases d with ⟨h₁, h₂, h₃⟩ | ⟨-, hsame'⟩
    · rw [← h, hsame] at h₃
      omega
    · rw [← hsame, h, hsame']

theorem plain_of_lower_eq {a b : Text} (h : Text.lower a = Text.lower b)
    (hb : ∀ c ∈ b, endsWord c = false) : ∀ c ∈ a, endsWord c = false := by
  intro c hc
  by_contra hends
  have hmem : c.toLower ∈ Text.lower b := h ▸ List.mem_map_of_mem hc
  obtain ⟨d, hd, heq⟩ := List.mem_map.mp hmem
  obtain rfl := endsWord_congr heq.symm (by simpa using hends)
  exact hends (hb c hd)

theorem IsLicenseRule.endsWord (h : IsLicenseRule rule) :
    ∀ c ∈ (trim rule).toList, endsWord c = false := by
  intro c hc
  have hopen : c ≠ '(' := fun heq => h.plain.1 (heq ▸ hc)
  have hclose : c ≠ ')' := fun heq => h.plain.2 (heq ▸ hc)
  simp [Policy.endsWord, h.word c hc, hopen, hclose]

/-- A text that is the rule is an expression of nothing but its license. -/
theorem respelled_of_whole (hrule : IsLicenseRule rule) (hsaid : e.Says license)
    (hwhole : eqIgnoreAsciiCase (trim rule) license = true) :
    ∃ l ∈ e.leaves, Respelled (trim rule).toList l.word := by
  obtain ⟨ts, hspelled, hlaid⟩ := hsaid
  rw [eqIgnoreAsciiCase_iff] at hwhole
  have hplain := plain_of_lower_eq hwhole.symm hrule.endsWord
  have hne : license.toList ≠ [] := by
    intro hnil
    rw [hnil] at hwhole
    apply hrule.ne
    simpa [Text.lower] using hwhole
  have hwords : wordsOf ts = [license.toList] := by
    rw [← hlaid.pieces_eq]
    exact pieces_of_word hne hplain
  obtain ⟨l, hl, hword⟩ := Expression.exists_word hspelled
  rw [hwords, List.mem_singleton] at hword
  refine ⟨l, hl, ?_⟩
  rw [hword]
  exact .of_lower_eq hrule.word hwhole

theorem matchesLicense_iff (hrule : IsLicenseRule rule) (hsaid : e.Says license) :
    matchesLicense rule license = true ↔ (∃ l ∈ e.leaves, Names (trim rule).toList l) ∨
      eqIgnoreAsciiCase (trim rule) license = true := by
  have hspaces : (trim rule).toList.any isWhitespace = false := by
    rw [List.any_eq_false]
    intro c hc
    simp [hrule.word c hc]
  obtain ⟨ts, hspelled, hlaid⟩ := hsaid
  have hwords : tokens (fun c => isWhitespace c || c == '(' || c == ')') license =
      (wordsOf ts ++ []).map String.ofList := by
    rw [List.append_nil, ← hlaid.pieces_eq, tokens_eq]
    congr 2
    funext c
    simp [Bool.or_assoc, beq_eq_decide]
  have hscan : scan (trim rule).toList (wordsOf ts ++ []) = true ↔ _ := scan_spelled hspelled []
  unfold scan licenseFamily at hscan
  rw [← hwords, String.ofList_toList] at hscan
  have hempty : anyTokenMatches (trim rule) (family (normalizeId (trim rule)).1) false
      (([] : List Text).map String.ofList) = false := rfl
  rw [hempty] at hscan
  unfold matchesLicense
  simp only [hrule.ne, if_false, hspaces, Bool.false_eq_true]
  split_ifs with hwhole
  · simp [hwhole]
  · rw [hscan]
    simp [hwhole]

theorem Expression.Says.isWord (hsaid : e.Says license) : ∀ l ∈ e.leaves, IsWord l.word := by
  obtain ⟨ts, hspelled, hlaid⟩ := hsaid
  intro l hl c hc
  have hword := Expression.mem_wordsOf hspelled l hl
  rw [← hlaid.pieces_eq] at hword
  have hplain := (of_mem_pieces hword).2 c hc
  exact (Bool.or_eq_false_iff.mp hplain).1

theorem names_iff (hrule : IsLicenseRule rule) (hsaid : e.Says license) :
    (∃ l ∈ e.leaves, Names (trim rule).toList l) ↔
      (∃ l ∈ e.leaves, Respelled (trim rule).toList l.word) ∨
      ∃ l ∈ e.leaves, ∃ x ∈ l.exception, Text.lower x = Text.lower (trim rule).toList := by
  have hfamily : ∀ l ∈ e.leaves, (licenseFamily l.word = licenseFamily (trim rule).toList ↔
      Respelled (trim rule).toList l.word) := by
    intro l hl
    rw [eq_comm]
    exact licenseFamily_eq_iff hrule.word (hsaid.isWord l hl)
  simp only [Names, and_or_left, exists_or]
  exact or_congr_left (exists_congr fun l => and_congr_right fun hl => hfamily l hl)

end Matches

/-- A deny rule for a license finds it in every expression that names it in any spelling, or names
the rule as an exception. So an expression that names each license of a denied one in whatever
spelling, order and parentheses, with whatever exceptions, is denied for its licenses; and one that
names each of its exceptions is denied for these. -/
theorem deny_complete {rule license : String} {e : Expression} (hrule : IsLicenseRule rule)
    (hsaid : e.Says license) :
    (matchesLicense rule license = true ↔
      (∃ l ∈ e.leaves, Respelled (trim rule).toList l.word) ∨
      (∃ l ∈ e.leaves, ∃ x ∈ l.exception, Text.lower x = Text.lower (trim rule).toList) ∨
      eqIgnoreAsciiCase (trim rule) license = true) ∧
    ∀ (license' : String) (e' : Expression), e'.Says license' →
      ((∀ l ∈ e.leaves, ∃ l' ∈ e'.leaves, Respelled l.word l'.word) →
        (∃ l ∈ e.leaves, Respelled (trim rule).toList l.word) ∨
          eqIgnoreAsciiCase (trim rule) license = true →
        matchesLicense rule license' = true) ∧
      ((∀ l ∈ e.leaves, ∀ x ∈ l.exception, ∃ l' ∈ e'.leaves, ∃ x' ∈ l'.exception,
          Text.lower x' = Text.lower x) →
        (∃ l ∈ e.leaves, ∃ x ∈ l.exception, Text.lower x = Text.lower (trim rule).toList) →
        matchesLicense rule license' = true) := by
  constructor
  · rw [matchesLicense_iff hrule hsaid, names_iff hrule hsaid, or_assoc]
  · intro license' e' hsaid'
    rw [matchesLicense_iff hrule hsaid', names_iff hrule hsaid']
    constructor
    · intro hkept hdenied
      have hnamed : ∃ l ∈ e.leaves, Respelled (trim rule).toList l.word :=
        hdenied.elim id (respelled_of_whole hrule hsaid)
      obtain ⟨l, hl, hfamily⟩ := hnamed
      obtain ⟨l', hl', hrespelled⟩ := hkept l hl
      exact .inl (.inl ⟨l', hl', hfamily.trans hrespelled (hsaid.isWord l hl)⟩)
    · rintro hkept ⟨l, hl, x, hx, heq⟩
      obtain ⟨l', hl', x', hx', hsame⟩ := hkept l hl x hx
      exact .inl (.inr ⟨l', hl', x', hx', hsame.trans heq⟩)

def iscLeaf : Leaf := ⟨"ISC".toList, none, by decide, plain_none⟩

def laterLeaf : Leaf :=
  ⟨"gpl-2.0+".toList, some "Classpath-exception-2.0".toList, by decide, by decide⟩

def classpathLeaf : Leaf :=
  ⟨"GPL-2.0-with-classpath-exception".toList, none, by decide, plain_none⟩

def nested : Expression :=
  .and (.leaf iscLeaf) (.paren (.or (.paren (.leaf laterLeaf)) (.leaf iscLeaf)))

def rewritten : Expression := .and (.paren (.or (.leaf iscLeaf) (.leaf classpathLeaf))) (.leaf iscLeaf)

theorem says_nested :
    nested.Says "ISC AND ((gpl-2.0+ with Classpath-exception-2.0)OR ISC)" := by
  let tokens : List (Text × Token Char) := [([], .word iscLeaf.word), ([' '], .word "AND".toList),
    ([' '], .mark '('), ([], .mark '('), ([], .word laterLeaf.word), ([' '], .word "with".toList),
    ([' '], .word "Classpath-exception-2.0".toList), ([], .mark ')'), ([], .word "OR".toList),
    ([' '], .word iscLeaf.word), ([], .mark ')')]
  have hlaid : Laid isWhitespace (fun c => c = '(' || c = ')') (tokens.map Prod.snd)
      (layOut tokens) := Laid.of_spaced (by decide +kernel)
  have hspelled : Expression.Spelled nested _ :=
    @Expression.Spelled.and _ _ _ _ "AND".toList (by decide) (.leaf rfl)
      (.paren (@Expression.Spelled.or _ _ _ _ "OR".toList (by decide)
        (.paren (@Expression.Spelled.exception _ "with".toList _ rfl (by decide))) (.leaf rfl)))
  have htext : layOut tokens =
      "ISC AND ((gpl-2.0+ with Classpath-exception-2.0)OR ISC)".toList := by
    decide +kernel
  exact ⟨_, hspelled, htext ▸ hlaid⟩

theorem says_rewritten :
    rewritten.Says "(ISC or GPL-2.0-with-classpath-exception) and ISC" := by
  let tokens : List (Text × Token Char) := [([], .mark '('), ([], .word iscLeaf.word),
    ([' '], .word "or".toList), ([' '], .word classpathLeaf.word), ([], .mark ')'),
    ([' '], .word "and".toList), ([' '], .word iscLeaf.word)]
  have hlaid : Laid isWhitespace (fun c => c = '(' || c = ')') (tokens.map Prod.snd)
      (layOut tokens) := Laid.of_spaced (by decide +kernel)
  have hspelled : Expression.Spelled rewritten _ :=
    @Expression.Spelled.and _ _ _ _ "and".toList (by decide)
      (.paren (@Expression.Spelled.or _ _ _ _ "or".toList (by decide) (.leaf rfl) (.leaf rfl)))
      (.leaf rfl)
  have htext : layOut tokens = "(ISC or GPL-2.0-with-classpath-exception) and ISC".toList := by
    decide +kernel
  exact ⟨_, hspelled, htext ▸ hlaid⟩

theorem isLicenseRule_gpl : IsLicenseRule "GPL-2.0-only " :=
  ⟨by decide +kernel, forall_of_all_not (by decide +kernel), by decide +kernel⟩

/-- The rule denies both, the deprecated id of the second for the license of the first. -/
theorem deny_complete_sample :
    matchesLicense "GPL-2.0-only " "ISC AND ((gpl-2.0+ with Classpath-exception-2.0)OR ISC)" = true ∧
      matchesLicense "GPL-2.0-only " "(ISC or GPL-2.0-with-classpath-exception) and ISC" = true := by
  have hword {w : Text} (h : w.all (fun c => !isWhitespace c) = true) : IsWord w :=
    forall_of_all_not h
  have hnamed : ∃ l ∈ nested.leaves, Respelled (trim "GPL-2.0-only ").toList l.word := by
    refine ⟨laterLeaf, by simp [nested, Expression.leaves], ?_⟩
    exact (licenseFamily_eq_iff isLicenseRule_gpl.word (hword (by decide +kernel))).mp
      (by decide +kernel)
  have hkept : ∀ l ∈ nested.leaves, ∃ l' ∈ rewritten.leaves, Respelled l.word l'.word := by
    intro l hl
    simp only [nested, Expression.leaves, List.mem_append, List.mem_singleton] at hl
    have hisc : Respelled iscLeaf.word iscLeaf.word := .of_lower_eq (hword (by decide +kernel)) rfl
    rcases hl with rfl | rfl | rfl
    · exact ⟨iscLeaf, by simp [rewritten, Expression.leaves], hisc⟩
    · refine ⟨classpathLeaf, by simp [rewritten, Expression.leaves], ?_⟩
      exact (licenseFamily_eq_iff (hword (by decide +kernel)) (hword (by decide +kernel))).mp
        (by decide +kernel)
    · exact ⟨iscLeaf, by simp [rewritten, Expression.leaves], hisc⟩
  have hdenied := deny_complete isLicenseRule_gpl says_nested
  exact ⟨hdenied.1.mpr (.inl hnamed), (hdenied.2 _ _ says_rewritten).1 hkept (.inl hnamed)⟩

end YaNuget.Policy
