import YaNuget.Policy.Licenses

/-!
# The allow list

An expression without parentheses is split at its operators, and each license
between them is looked up. This reads it as it is meant: `AND` before `OR`.
-/
namespace YaNuget.Policy

open Words

section Splitting

/-- Words with a space between each two. -/
def joined (ws : List Text) : String := String.ofList ([' '].intercalate ws)

def wordsIn (s : String) : List Text := pieces isWhitespace s.toList

def isOp (op : String) (w : Text) : Bool := eqIgnoreAsciiCase (String.ofList w) op

variable {ws : List Text}

theorem joined_eq (ws : List Text) : " ".intercalate (ws.map String.ofList) = joined ws := by
  rw [← String.toList_inj, String.toList_intercalate]
  simp [joined, Function.comp_def]

@[simp] theorem wordsIn_joined (h : ∀ w ∈ ws, w ≠ [] ∧ IsWord w) : wordsIn (joined ws) = ws := by
  unfold wordsIn joined
  rw [String.toList_ofList]
  exact pieces_intercalate rfl h

/-- A text that neither starts nor ends with a blank. -/
theorem trim_eq_self {t : Text} (hfirst : ∀ c ∈ t.head?, isWhitespace c = false)
    (hlast : ∀ c ∈ t.getLast?, isWhitespace c = false) :
    trim (String.ofList t) = String.ofList t := by
  have hdrop {l : Text} (h : ∀ c ∈ l.head?, isWhitespace c = false) :
      l.dropWhile isWhitespace = l := by
    cases l with
    | nil => rfl
    | cons c l => rw [List.dropWhile_cons_of_neg (by simp [h c rfl])]
  unfold trim
  rw [String.toList_ofList, hdrop hfirst, hdrop (by rwa [List.head?_reverse]),
    List.reverse_reverse]

theorem trim_joined (h : ∀ w ∈ ws, w ≠ [] ∧ IsWord w) : trim (joined ws) = joined ws := by
  cases ws with
  | nil => decide
  | cons w ws =>
    apply trim_eq_self
    · rw [head?_intercalate (h w List.mem_cons_self).1]
      exact fun c hc => (h w List.mem_cons_self).2 c (List.mem_of_mem_head? hc)
    · obtain ⟨v, hv, heq⟩ :=
        getLast?_intercalate (c := ' ') (fun v hv => (h v hv).1) (List.cons_ne_nil w ws)
      rw [heq]
      exact fun c hc => (h v hv).2 c (List.mem_of_mem_getLast? hc)

theorem joined_ne_empty (h : ∀ w ∈ ws, w ≠ [] ∧ IsWord w) (hne : ws ≠ []) : joined ws ≠ "" := by
  intro hempty
  have hwords := wordsIn_joined h
  rw [hempty] at hwords
  exact hne hwords.symm

theorem modifyHead_nil_append (gs : List (List Text)) :
    gs.modifyHead (([] : List Text).reverse ++ ·) = gs := by
  cases gs <;> rfl

theorem groupAt_eq (op : String) (current : List Text) (ws : List Text) :
    groupAt op (current.map String.ofList) (ws.map String.ofList) =
      ((ws.splitOnP (isOp op)).modifyHead (current.reverse ++ ·)).map joined := by
  induction ws generalizing current with
  | nil =>
    simp [groupAt, ← List.map_reverse, joined_eq]
  | cons w ws ih =>
    rw [List.map_cons, groupAt, List.splitOnP_cons_eq_if_modifyHead]
    unfold isOp at ih ⊢
    split_ifs with h
    · have hrest := ih []
      rw [List.map_nil, modifyHead_nil_append] at hrest
      rw [hrest, ← List.map_reverse, joined_eq]
      simp
    · have hrest := ih (w :: current)
      rw [List.map_cons] at hrest
      rw [hrest]
      simp [Function.comp_def]

/-- Splitting a text at an operator is splitting its words there. -/
theorem splitOperator_eq (s op : String) :
    splitOperator s op = (pieces (isOp op) (wordsIn s)).map joined := by
  have hwords {g : List Text} (hg : g ∈ (wordsIn s).splitOnP (isOp op)) :
      ∀ w ∈ g, w ≠ [] ∧ IsWord w := by
    intro w hw
    exact of_mem_pieces (mem_of_mem_splitOnP hg hw).1
  have hgroups : groupAt op [] (splitWhitespace s) =
      ((wordsIn s).splitOnP (isOp op)).map joined := by
    have hsame := groupAt_eq op [] (wordsIn s)
    rwa [List.map_nil, modifyHead_nil_append] at hsame
  have htrim : (((wordsIn s).splitOnP (isOp op)).map joined).map trim =
      ((wordsIn s).splitOnP (isOp op)).map joined := by
    rw [List.map_map]
    exact List.map_congr_left fun g hg => trim_joined (hwords hg)
  unfold splitOperator pieces
  rw [hgroups, htrim, List.filter_map]
  congr 1
  apply List.filter_congr
  intro g hg
  rw [Function.comp_apply]
  cases hempty : g with
  | nil => rfl
  | cons w ws =>
    have hne := joined_ne_empty (hwords hg) (by simp [hempty])
    rw [hempty] at hne
    simp [hne]

end Splitting

section Leaves

def Leaf.id (l : Leaf) : String := (normalizeId (String.ofList l.word)).1

/-- The exception that the license names, or else the one that its id implies. -/
def Leaf.exceptionId (l : Leaf) : Option String :=
  (l.exception.map fun x => toAsciiLowercase (String.ofList x)).orElse fun _ =>
    (normalizeId (String.ofList l.word)).2.map toAsciiLowercase

/-- The rule admits the license. It has its id, or the id of the one version where the license
leaves a later one open; an exception has to be known, and it has to be the rule's own where the
rule has one. -/
def Admits (rule : String) (l : Leaf) : Prop :=
  (Term.parse rule).id ≠ "" ∧
    ((Term.parse rule).id = l.id ∨
      ∃ f, (Term.parse rule).id = f ++ "-only" ∧ l.id = f ++ "-or-later") ∧
    (∀ x ∈ l.exceptionId, ∃ known ∈ knownExceptions, eqIgnoreAsciiCase known x = true) ∧
    ∀ x ∈ (Term.parse rule).exception, l.exceptionId = some x

def Leaf.term (l : Leaf) : Term := ⟨l.id, l.exceptionId, false⟩

variable {l : Leaf} {ts : List (Token Char)} {raw : String}

theorem isOp_eq_false {op : String} {w : Text} (h : Text.lower w ≠ Text.lower op.toList) :
    isOp op w = false := by
  unfold isOp
  rwa [← Bool.not_eq_true, eqIgnoreAsciiCase_iff, String.toList_ofList]

theorem isOp_eq_true {op : String} {w : Text} (h : Text.lower w = Text.lower op.toList) :
    isOp op w = true := by
  unfold isOp
  rwa [eqIgnoreAsciiCase_iff, String.toList_ofList]

theorem isOp_of_plain {op : String} {w : Text} (h : isOperator w = false)
    (hop : isOperator op.toList = true) : isOp op w = false := by
  apply isOp_eq_false
  intro heq
  unfold isOperator at h hop
  rw [heq, hop] at h
  cases h

/-- A term is parsed as the license that it says. -/
theorem parse_eq (h : Expression.Spelled (.leaf l) ts) (hwords : wordsIn raw = wordsOf ts) :
    Term.parse raw = l.term := by
  have hplain : isOp "WITH" l.word = false := isOp_of_plain l.plain (by decide)
  have hsplit := splitOperator_eq raw "WITH"
  have htokens : splitWhitespace raw = (wordsOf ts).map String.ofList := by
    rw [← hwords]
    rfl
  rw [hwords] at hsplit
  unfold Term.parse
  cases h with
  | leaf hnone =>
    have hpieces : pieces (isOp "WITH") (wordsOf [.word l.word]) = [[l.word]] :=
      pieces_of_word (by simp [wordsOf]) (by simpa [wordsOf] using hplain)
    unfold isOp at hplain
    rw [hsplit, hpieces, htokens]
    simp [wordsOf, hplain, Leaf.term, Leaf.id, Leaf.exceptionId, hnone, joined]
  | @exception _ op x hsome hop =>
    have hx : isOp "WITH" x = false := isOp_of_plain (l.plain_exception x hsome) (by decide)
    have hpieces : pieces (isOp "WITH") (wordsOf [.word l.word, .word op, .word x]) =
        [[l.word], [x]] := by
      have happ : wordsOf [.word l.word, .word op, .word x] = [l.word] ++ op :: [x] := rfl
      rw [happ, pieces_append_cons (isOp_eq_true hop), pieces_of_word (by simp) (by simpa using hplain),
        pieces_of_word (by simp) (by simpa using hx)]
      rfl
    rw [hsplit, hpieces]
    simp [Leaf.term, Leaf.id, Leaf.exceptionId, hsome, joined]

/-- A rule for one version is met by a license for that version and later ones. -/
theorem onlyOf_iff {a b : String} :
    ((stripSuffix a "-only").isSome && (stripSuffix b "-or-later").isSome &&
      family a == family b) = true ↔ ∃ f, a = f ++ "-only" ∧ b = f ++ "-or-later" := by
  simp only [Bool.and_eq_true, Option.isSome_iff_exists, stripSuffix_eq_some, beq_iff_eq]
  constructor
  · rintro ⟨⟨⟨f, ha⟩, ⟨g, hb⟩⟩, hfamily⟩
    rw [← String.ofList_toList (s := a), ← String.ofList_toList (s := b), ha, hb, family_only,
      family_orLater, String.ofList_toList, String.ofList_toList] at hfamily
    subst hfamily
    exact ⟨f, by simpa [← String.toList_inj] using ha, by simpa [← String.toList_inj] using hb⟩
  · rintro ⟨f, rfl, rfl⟩
    have honly := family_only f.toList
    have hlater := family_orLater f.toList
    rw [String.ofList_append, String.ofList_toList, String.ofList_toList] at honly hlater
    exact ⟨⟨⟨f, by simp⟩, ⟨f, by simp⟩⟩, honly.trans hlater.symm⟩

theorem exceptionIsKnown_iff : l.term.exceptionIsKnown = true ↔
    ∀ x ∈ l.exceptionId, ∃ known ∈ knownExceptions, eqIgnoreAsciiCase known x = true := by
  unfold Term.exceptionIsKnown Leaf.term
  cases l.exceptionId <;> simp

theorem allows_iff {rule : String} : (Term.parse rule).allows l.term = true ↔ Admits rule l := by
  unfold Term.allows Admits Term.family
  rw [← exceptionIsKnown_iff, ← onlyOf_iff]
  by_cases hid : (Term.parse rule).id = ""
  · simp [hid]
  · cases hknown : l.term.exceptionIsKnown with
    | false => simp
    | true => cases hrule : (Term.parse rule).exception <;> simp [hid, Leaf.term]

end Leaves

section Flat

variable {P : List Text → Bool} {Q : Leaf → Prop} {W : Text → Prop}
  {e : Expression} {ts : List (Token Char)}

theorem wordsOf_ne_nil (h : Expression.Spelled e ts) : wordsOf ts ≠ [] := by
  obtain ⟨l, -, hl⟩ := Expression.exists_word h
  exact List.ne_nil_of_mem hl

/-- Inside a license there is neither `AND` nor `OR`. -/
theorem isOp_of_leaf {l : Leaf} (h : Expression.Spelled (.leaf l) ts) :
    ∀ w ∈ wordsOf ts, isOp "AND" w = false ∧ isOp "OR" w = false := by
  have hplain {w : Text} (hw : isOperator w = false) : isOp "AND" w = false ∧ isOp "OR" w = false :=
    ⟨isOp_of_plain hw (by decide), isOp_of_plain hw (by decide)⟩
  intro w hw
  cases h with
  | leaf hnone =>
    rw [List.mem_singleton.mp hw]
    exact hplain l.plain
  | @exception _ op x hsome hop =>
    simp only [wordsOf, List.mem_cons, List.not_mem_nil, or_false] at hw
    rcases hw with rfl | rfl | rfl
    · exact hplain l.plain
    · exact ⟨isOp_eq_false (by rw [hop]; decide), isOp_eq_false (by rw [hop]; decide)⟩
    · exact hplain (l.plain_exception w hsome)

theorem isOp_of_conjunction (h : Expression.Spelled e ts) (hconj : e.isConjunction = true) :
    ∀ w ∈ wordsOf ts, isOp "OR" w = false := by
  induction h with
  | leaf hnone => exact fun w hw => (isOp_of_leaf (.leaf hnone) w hw).2
  | exception hsome hop => exact fun w hw => (isOp_of_leaf (.exception hsome hop) w hw).2
  | paren => cases hconj
  | @and a b ts ts' op hop _ _ ih ih' =>
    obtain ⟨ha, hb⟩ := Bool.and_eq_true_iff.mp hconj
    intro w hw
    rw [wordsOf_append, List.mem_append] at hw
    rcases hw with hw | hw
    · exact ih ha w hw
    · rcases List.mem_cons.mp hw with rfl | hw
      · exact isOp_eq_false (by rw [hop]; decide)
      · exact ih' hb w hw
  | or => cases hconj

theorem forall_mem_sides {ts ts' : List (Token Char)} {op : Text}
    (h : ∀ w ∈ wordsOf (ts ++ .word op :: ts'), W w) :
    (∀ w ∈ wordsOf ts, W w) ∧ ∀ w ∈ wordsOf ts', W w := by
  rw [wordsOf_append] at h
  exact ⟨fun w hw => h w (List.mem_append_left _ hw),
    fun w hw => h w (List.mem_append_right _ (List.mem_cons_of_mem op hw))⟩

/-- Every license of a conjunction is looked at. -/
theorem conjuncts (hP : ∀ l ts, Expression.Spelled (.leaf l) ts →
      (∀ w ∈ wordsOf ts, W w) → (P (wordsOf ts) = true ↔ Q l))
    (h : Expression.Spelled e ts) (hW : ∀ w ∈ wordsOf ts, W w) (hconj : e.isConjunction = true) :
    pieces (isOp "AND") (wordsOf ts) ≠ [] ∧
      ((pieces (isOp "AND") (wordsOf ts)).all P = true ↔ e.Holds Q) := by
  have hleaf {l : Leaf} {ts : List (Token Char)} (hl : Expression.Spelled (.leaf l) ts)
      (hW : ∀ w ∈ wordsOf ts, W w) : pieces (isOp "AND") (wordsOf ts) ≠ [] ∧
        ((pieces (isOp "AND") (wordsOf ts)).all P = true ↔ Q l) := by
    rw [pieces_of_word (wordsOf_ne_nil hl) fun w hw => (isOp_of_leaf hl w hw).1]
    simpa using hP l ts hl hW
  induction h with
  | leaf hnone => exact hleaf (.leaf hnone) hW
  | exception hsome hop => exact hleaf (.exception hsome hop) hW
  | paren => cases hconj
  | @and a b ts ts' op hop _ _ ih ih' =>
    obtain ⟨ha, hb⟩ := Bool.and_eq_true_iff.mp hconj
    obtain ⟨hleft, hright⟩ := forall_mem_sides hW
    obtain ⟨hne, hall⟩ := ih hleft ha
    obtain ⟨-, hall'⟩ := ih' hright hb
    rw [wordsOf_append, wordsOf, pieces_append_cons (isOp_eq_true hop)]
    constructor
    · simp [hne]
    · rw [List.all_append, Bool.and_eq_true, hall, hall']
      rfl
  | or => cases hconj

/-- The alternatives of an expression, each of them a conjunction. -/
def anyAlternative (P : List Text → Bool) (ws : List Text) : Bool :=
  (pieces (isOp "OR") ws).any fun alternative =>
    !(pieces (isOp "AND") alternative).isEmpty && (pieces (isOp "AND") alternative).all P

theorem anyAlternative_iff (hP : ∀ l ts, Expression.Spelled (.leaf l) ts →
      (∀ w ∈ wordsOf ts, W w) → (P (wordsOf ts) = true ↔ Q l))
    (h : Expression.Spelled e ts) (hW : ∀ w ∈ wordsOf ts, W w) (hflat : e.isFlat = true) :
    anyAlternative P (wordsOf ts) = true ↔ e.Holds Q := by
  have hone {e : Expression} {ts : List (Token Char)} (h : Expression.Spelled e ts)
      (hW : ∀ w ∈ wordsOf ts, W w) (hconj : e.isConjunction = true) :
      anyAlternative P (wordsOf ts) = true ↔ e.Holds Q := by
    obtain ⟨hne, hall⟩ := conjuncts hP h hW hconj
    unfold anyAlternative
    rw [pieces_of_word (wordsOf_ne_nil h) (isOp_of_conjunction h hconj)]
    simpa [hne] using hall
  induction h with
  | leaf hnone => exact hone (.leaf hnone) hW rfl
  | exception hsome hop => exact hone (.exception hsome hop) hW rfl
  | paren => cases hflat
  | and hop ha hb _ _ => exact hone (.and hop ha hb) hW hflat
  | @or a b ts ts' op hop _ _ ih ih' =>
    obtain ⟨ha, hb⟩ := Bool.and_eq_true_iff.mp hflat
    obtain ⟨hleft, hright⟩ := forall_mem_sides hW
    have hsplit : anyAlternative P (wordsOf ts ++ op :: wordsOf ts') =
        (anyAlternative P (wordsOf ts) || anyAlternative P (wordsOf ts')) := by
      unfold anyAlternative
      rw [pieces_append_cons (isOp_eq_true hop), List.any_append]
    rw [wordsOf_append, wordsOf, hsplit, Bool.or_eq_true]
    exact or_congr (ih hleft ha) (ih' hright hb)

end Flat

section Rules

theorem isFlat_of_isConjunction {e : Expression} (h : e.isConjunction = true) :
    e.isFlat = true := by
  cases e with
  | leaf => rfl
  | paren => cases h
  | and => exact h
  | or => cases h

theorem no_mark {e : Expression} {ts : List (Token Char)} (h : Expression.Spelled e ts)
    (hflat : e.isFlat = true) : ∀ c, .mark c ∉ ts := by
  induction h with
  | leaf => simp
  | exception => simp
  | paren => cases hflat
  | and _ _ _ ih ih' =>
    obtain ⟨ha, hb⟩ := Bool.and_eq_true_iff.mp hflat
    intro c
    simp [ih (isFlat_of_isConjunction ha) c, ih' (isFlat_of_isConjunction hb) c]
  | or _ _ _ ih ih' =>
    obtain ⟨ha, hb⟩ := Bool.and_eq_true_iff.mp hflat
    intro c
    simp [ih ha c, ih' hb c]

variable {allowed : List String} {license : String} {e : Expression}

/-- The code's evaluation of an expression, with its parts as words. -/
theorem expressionIsAllowed_eq (hwhole : (allowed.any fun a =>
      eqIgnoreAsciiCase (trim a) (trim license)) = false)
    (hplain : (license.toList.any fun c => c == '(' || c == ')') = false) :
    expressionIsAllowed allowed license =
      anyAlternative (fun term => (allowed.map Term.parse).any fun rule =>
        rule.allows (Term.parse (joined term))) (wordsIn license) := by
  have hparts {g : List Text} (hg : g ∈ pieces (isOp "OR") (wordsIn license)) :
      splitOperator (joined g) "AND" = (pieces (isOp "AND") g).map joined := by
    rw [splitOperator_eq, wordsIn_joined]
    intro w hw
    exact of_mem_pieces (mem_of_mem_splitOnP (List.mem_filter.mp hg).1 hw).1
  unfold expressionIsAllowed anyAlternative
  simp only [hwhole, hplain, Bool.false_eq_true, if_false]
  rw [splitOperator_eq, List.any_map]
  rw [Bool.eq_iff_iff, List.any_eq_true, List.any_eq_true]
  apply exists_congr
  intro g
  apply and_congr_right
  intro hg
  simp [hparts hg, Function.comp_def]

theorem any_allows {l : Leaf} {ts : List (Token Char)} (h : Expression.Spelled (.leaf l) ts)
    (hwords : ∀ w ∈ wordsOf ts, w ≠ [] ∧ IsWord w) :
    ((allowed.map Term.parse).any fun rule => rule.allows (Term.parse (joined (wordsOf ts)))) =
      true ↔ ∃ rule ∈ allowed, Admits rule l := by
  rw [parse_eq h (wordsIn_joined hwords), List.any_map, List.any_eq_true]
  simp only [Function.comp_apply, allows_iff]

/-- A flat expression is split and looked up as it is meant to be read. -/
theorem reads_flat (hsaid : e.Says license) (hflat : e.isFlat = true)
    (hwhole : (allowed.any fun a => eqIgnoreAsciiCase (trim a) (trim license)) = false) :
    expressionIsAllowed allowed license = true ↔
      e.Holds fun l => ∃ rule ∈ allowed, Admits rule l := by
  obtain ⟨ts, hspelled, hlaid⟩ := hsaid
  have hmarks : ∀ c, .mark c ∉ ts := no_mark hspelled hflat
  have hblank : ∀ c, isWhitespace c = true → (c = '(' || c = ')') = false := by
    intro c hc
    rw [← Bool.not_eq_true, Bool.or_eq_true, decide_eq_true_eq, decide_eq_true_eq]
    rintro (rfl | rfl) <;> cases hc
  have hplain : (license.toList.any fun c => c == '(' || c == ')') = false := by
    rw [List.any_eq_false]
    intro c hc
    simpa using hlaid.mark_eq_false hmarks hblank c hc
  have hwordsIn : wordsIn license = wordsOf ts := hlaid.pieces_blank hmarks hblank
  have hwords : ∀ w ∈ wordsOf ts, w ≠ [] ∧ IsWord w := by
    rw [← hwordsIn]
    exact fun w hw => of_mem_pieces hw
  rw [expressionIsAllowed_eq hwhole hplain, hwordsIn]
  exact anyAlternative_iff (fun _ _ hleaf hW => any_allows hleaf hW) hspelled hwords hflat

end Rules

/-- A flat expression is allowed if it is a rule, or if it holds with `AND` before `OR` and a
license true where some rule admits it. One with a parenthesis is allowed if it is a rule. -/
theorem allowed_iff (allowed : List String) (license : String) :
    (∀ e : Expression, e.Says license → e.isFlat = true →
      (expressionIsAllowed allowed license = true ↔
        (∃ rule ∈ allowed, eqIgnoreAsciiCase (trim rule) (trim license) = true) ∨
        e.Holds fun l => ∃ rule ∈ allowed, Admits rule l)) ∧
    ('(' ∈ license.toList ∨ ')' ∈ license.toList →
      (expressionIsAllowed allowed license = true ↔
        ∃ rule ∈ allowed, eqIgnoreAsciiCase (trim rule) (trim license) = true)) := by
  have hexact : (allowed.any fun a => eqIgnoreAsciiCase (trim a) (trim license)) = true ↔
      ∃ rule ∈ allowed, eqIgnoreAsciiCase (trim rule) (trim license) = true := List.any_eq_true
  rw [← hexact]
  constructor
  · intro e hsaid hflat
    cases hwhole : allowed.any fun a => eqIgnoreAsciiCase (trim a) (trim license) with
    | true => simp [expressionIsAllowed, hwhole]
    | false =>
      rw [reads_flat hsaid hflat hwhole]
      simp
  · intro hparen
    have hany : (license.toList.any fun c => c == '(' || c == ')') = true := by
      rw [List.any_eq_true]
      rcases hparen with hparen | hparen
      · exact ⟨'(', hparen, rfl⟩
      · exact ⟨')', hparen, rfl⟩
    unfold expressionIsAllowed
    simp [hany]

def mit : Leaf := ⟨"MIT".toList, none, by decide, by simp⟩

def apache : Leaf := ⟨"Apache-2.0".toList, none, by decide, by simp⟩

theorem says_mit_and_apache :
    (Expression.and (.leaf mit) (.leaf apache)).Says "MIT AND Apache-2.0" := by
  have hspelled : Expression.Spelled (.and (.leaf mit) (.leaf apache))
      ([mit.word, "AND".toList, apache.word].map .word) :=
    .and (by decide) (.leaf rfl) (.leaf rfl)
  have hlaid : spaced isWhitespace (fun c => c = '(' || c = ')')
      [([], .word mit.word), ([' '], .word "AND".toList), ([' '], .word apache.word)] = true := rfl
  exact ⟨_, hspelled, Laid.of_spaced hlaid⟩

theorem allowed_iff_sample :
    expressionIsAllowed ["apache-2.0", "MIT"] "MIT AND Apache-2.0" = true :=
  ((allowed_iff ["apache-2.0", "MIT"] "MIT AND Apache-2.0").1 _ says_mit_and_apache rfl).mpr <|
    .inr ⟨⟨"MIT", by simp, allows_iff.mp (by decide +kernel)⟩,
      ⟨"apache-2.0", by simp, allows_iff.mp (by decide +kernel)⟩⟩

/-- A rule that is the whole expression allows it, though it admits no license in it. -/
theorem whole_rule_allows : ∃ (allowed : List String) (license : String) (e : Expression),
    e.Says license ∧ e.isFlat = true ∧ expressionIsAllowed allowed license = true ∧
      ¬ e.Holds fun l => ∃ rule ∈ allowed, Admits rule l := by
  refine ⟨["MIT AND Apache-2.0"], "MIT AND Apache-2.0", _, says_mit_and_apache, rfl,
    by decide +kernel, ?_⟩
  rintro ⟨⟨rule, hrule, hadmits⟩, -⟩
  rw [List.mem_singleton] at hrule
  subst hrule
  have hnot : (Term.parse "MIT AND Apache-2.0").allows mit.term = false := by decide +kernel
  rw [← allows_iff, hnot] at hadmits
  cases hadmits

end YaNuget.Policy
