import YaNuget.Concurrency.Machine

/-!
# Traces and moments

What a run leaves behind. The events of a thread are calls of its program, in
order, so an event of a thread says which others it made before. The events of
a run say which schedule it took, so they determine every moment on the way.
-/
namespace YaNuget.Concurrency

variable {T C : Type} {R : C → Type} {O S : Type} {ε α β : Type}

def Event.Shows (e : Event T C R O) (c : C) (r : R c) : Prop := ∃ t o, e = ⟨t, c, o, r⟩

theorem Event.Shows.call_eq {e : Event T C R O} {c : C} {r : R c} (h : e.Shows c r) :
    e.call = c := by
  obtain ⟨t, o, rfl⟩ := h
  rfl

namespace Program

/-- By these events, newest first, the program `p` has come to `q`. -/
inductive Ran (p : Program C R α) : List (Event T C R O) → Program C R α → Prop
  | start : Ran p [] p
  | step {past : List (Event T C R O)} {t : T} {c : C} {o : O} {r : R c}
      {next : R c → Program C R α} :
      Ran p past (.call c next) → Ran p (⟨t, c, o, r⟩ :: past) (next r)

variable {past : List (Event T C R O)} {p q : Program C R α}

theorem Ran.of_done {a : α} (h : Ran (.done a) past q) : past = [] ∧ q = .done a := by
  induction h with
  | start => exact ⟨rfl, rfl⟩
  | step _ ih => simp at ih

theorem Ran.of_call {c : C} {next : R c → Program C R α} (h : Ran (.call c next) past q) :
    past = [] ∧ q = .call c next ∨
      ∃ (t : T) (o : O) (r : R c) (later : List (Event T C R O)),
        past = later ++ [⟨t, c, o, r⟩] ∧ Ran (next r) later q := by
  induction h with
  | start => exact Or.inl ⟨rfl, rfl⟩
  | @step past t c' o r next' _ ih =>
    right
    rcases ih with ⟨rfl, heq⟩ | ⟨t', o', r', later, rfl, hran⟩
    · cases heq
      exact ⟨t, o, r, [], rfl, .start⟩
    · exact ⟨t', o', r', _, rfl, hran.step⟩

/-- A sequence is still in its first part, or has come past it. -/
theorem Ran.of_bind {f : α → Program C R β} {q : Program C R β} (h : Ran (p >>= f) past q) :
    (∃ p', Ran p past p' ∧ q = p' >>= f) ∨
      ∃ (a : α) (later earlier : List (Event T C R O)),
        past = later ++ earlier ∧ Ran p earlier (.done a) ∧ Ran (f a) later q := by
  induction h with
  | start => exact Or.inl ⟨p, .start, rfl⟩
  | @step past t c o r next _ ih =>
    rcases ih with ⟨p', hran, heq⟩ | ⟨a, later, earlier, rfl, hran, hrest⟩
    · cases p' with
      | done a =>
        have first : Ran (f a) ([] : List (Event T C R O)) (.call c next) := by
          rw [heq]
          exact .start
        exact Or.inr ⟨a, [⟨t, c, o, r⟩], past, rfl, hran, first.step⟩
      | call c' next' =>
        cases heq
        exact Or.inl ⟨next' r, hran.step, rfl⟩
    · exact Or.inr ⟨a, _, earlier, rfl, hran, hrest.step⟩

theorem Ran.of_bind_done {f : α → Program C R β} {b : β} (h : Ran (p >>= f) past (.done b)) :
    ∃ (a : α) (later earlier : List (Event T C R O)),
      past = later ++ earlier ∧ Ran p earlier (.done a) ∧ Ran (f a) later (.done b) := by
  rcases Ran.of_bind h with ⟨p', hran, heq⟩ | hpast
  · cases p' with
    | done a =>
      refine ⟨a, [], past, rfl, hran, ?_⟩
      rw [show f a = .done b from heq.symm]
      exact .start
    | call c next => cases heq
  · exact hpast

theorem Ran.of_perform {c : C} {next : R c → α} {a : α}
    (h : Ran (.call c fun r => .done (next r)) past (.done a)) :
    ∃ e r, past = [e] ∧ e.Shows c r ∧ a = next r := by
  rcases Ran.of_call h with ⟨-, heq⟩ | ⟨t, o, r, later, rfl, hran⟩
  · cases heq
  · obtain ⟨rfl, heq⟩ := Ran.of_done hran
    cases heq
    exact ⟨_, r, rfl, ⟨t, o, rfl⟩, rfl⟩

theorem Ran.calls {φ : C → Prop} (h : Ran p past q) (hp : p.Calls φ) :
    (∀ e ∈ past, φ e.call) ∧ q.Calls φ := by
  induction h with
  | start => exact ⟨by simp, hp⟩
  | @step past t c o r next _ ih =>
    refine ⟨fun e he => ?_, ih.2.2 r⟩
    rcases List.mem_cons.mp he with rfl | he
    · exact ih.2.1
    · exact ih.1 e he

end Program

namespace Fallible

section Ran

variable {x : Fallible C R ε α} {f : α → Fallible C R ε β} {past : List (Event T C R O)}

theorem ran_past {φ : C → Prop} {q : Program C R (Except ε β)} {e : Event T C R O}
    (h : (x >>= f).run.Ran past q) (hx : x.run.Calls φ) (he : e ∈ past) (hφ : ¬ φ e.call) :
    ∃ (a : α) (later earlier : List (Event T C R O)), past = later ++ earlier ∧
      x.run.Ran earlier (.done (.ok a)) ∧ e ∈ later ∧ (f a).run.Ran later q := by
  rcases Program.Ran.of_bind h with ⟨p', hran, -⟩ | ⟨result, later, earlier, rfl, hran, hrest⟩
  · exact (hφ ((hran.calls hx).1 e he)).elim
  · have hlater : e ∈ later := by
      rcases List.mem_append.mp he with he | he
      · exact he
      · exact (hφ ((hran.calls hx).1 e he)).elim
    cases result with
    | error e' =>
      obtain ⟨rfl, -⟩ := Program.Ran.of_done hrest
      simp at hlater
    | ok a => exact ⟨a, later, earlier, rfl, hran, hlater, hrest⟩

theorem ran_bind_ok {b : β} (h : (x >>= f).run.Ran past (.done (.ok b))) :
    ∃ (a : α) (later earlier : List (Event T C R O)), past = later ++ earlier ∧
      x.run.Ran earlier (.done (.ok a)) ∧ (f a).run.Ran later (.done (.ok b)) := by
  obtain ⟨result, later, earlier, rfl, hran, hrest⟩ := Program.Ran.of_bind_done h
  cases result with
  | error e => cases (Program.Ran.of_done hrest).2
  | ok a => exact ⟨a, later, earlier, rfl, hran, hrest⟩

theorem ran_attempt {result : Except ε (Except ε α)}
    (h : (attempt x : Fallible C R ε _).run.Ran past (.done result)) :
    ∃ r, result = .ok r ∧ x.run.Ran past (.done r) := by
  obtain ⟨r, later, earlier, rfl, hran, hrest⟩ := Program.Ran.of_bind_done h
  obtain ⟨rfl, heq⟩ := Program.Ran.of_done hrest
  cases heq
  exact ⟨r, rfl, hran⟩

end Ran

end Fallible

/-- An event among some of the events, in all of them. -/
theorem split_of_filter {p : α → Bool} {xs front back : List α} {a : α}
    (h : xs.filter p = front ++ a :: back) :
    ∃ later earlier, xs = later ++ a :: earlier ∧ later.filter p = front ∧
      earlier.filter p = back := by
  obtain ⟨later, rest, rfl, hfront, hrest⟩ := List.filter_eq_append_iff.mp h
  obtain ⟨gap, earlier, rfl, hgap, -, hback⟩ := List.filter_eq_cons_iff.mp hrest
  refine ⟨later ++ gap, earlier, by simp, ?_, hback⟩
  rw [List.filter_append, hfront, List.filter_eq_nil_iff.mpr hgap, List.append_nil]

namespace Machine

variable {M : Machine T C R O S} [DecidableEq T] {allow allow' : Allowed T C R O S}
variable {c c₁ c' : Config T C R O S}

/-- A run adds events, and each thread has come as far as its own say. -/
theorem Reaches.ran (h : M.Reaches allow c c') :
    ∃ later, c'.world.past = later ++ c.world.past ∧
      ∀ t, (c.threads t).Ran (later.filter fun e => e.thread = t) (c'.threads t) := by
  induction h with
  | refl => exact ⟨[], rfl, fun t => .start⟩
  | @step c₁ t o call r next w _ ht hp _ ih =>
    obtain ⟨later, hpast, hran⟩ := ih
    refine ⟨⟨t, call, o, r⟩ :: later, ?_, fun u => ?_⟩
    · rw [((M.perform_eq_some).mp hp).2, hpast]
      rfl
    · by_cases hu : u = t
      · subst hu
        simp only [List.filter_cons, decide_true, if_true, Function.update_self]
        exact (ht ▸ hran u).step
      · simpa [List.filter_cons, Ne.symm hu, Function.update_of_ne hu] using hran u

/-- An event of a run was a step of it. -/
theorem Reaches.split {later earlier : List (Event T C R O)} {e : Event T C R O}
    (h : M.Reaches allow c c') (hpast : c'.world.past = later ++ e :: (earlier ++ c.world.past)) :
    ∃ c₁ w, M.Reaches allow c c₁ ∧ c₁.world.past = earlier ++ c.world.past ∧
      M.perform e.thread e.call e.choice c₁.world = some (e.answer, w) ∧ allow c₁.world e w ∧
      M.Reaches allow c₁ c' := by
  induction h generalizing later with
  | refl =>
    exfalso
    have hlength := congrArg List.length hpast
    simp only [List.length_append, List.length_cons] at hlength
    omega
  | @step c₁ t o call r next w hr ht hp ha ih =>
    rw [((M.perform_eq_some).mp hp).2] at hpast
    cases later with
    | nil =>
      obtain ⟨rfl, hearlier⟩ := List.cons.inj hpast
      exact ⟨c₁, w, hr, hearlier, hp, ha, Reaches.refl.step ht hp ha⟩
    | cons e' later =>
      obtain ⟨-, hearlier⟩ := List.cons.inj hpast
      obtain ⟨c₂, w₂, hr₂, hpast₂, hp₂, ha₂, hrest⟩ := ih hearlier
      exact ⟨c₂, w₂, hr₂, hpast₂, hp₂, ha₂, hrest.step ht hp ha⟩

/-- An event among some of the events of a run was a step of it, after the
earlier ones among them. -/
theorem Reaches.split_filter {p : Event T C R O → Bool} {front back : List (Event T C R O)}
    {e : Event T C R O} (h : M.Reaches allow c c') (hempty : c.world.past = [])
    (hpast : c'.world.past.filter p = front ++ e :: back) :
    ∃ c₁ w, M.Reaches allow c c₁ ∧ c₁.world.past.filter p = back ∧
      M.perform e.thread e.call e.choice c₁.world = some (e.answer, w) ∧ allow c₁.world e w ∧
      M.Reaches allow c₁ c' := by
  obtain ⟨later, earlier, hsplit, -, hback⟩ := split_of_filter hpast
  have hsplit' : c'.world.past = later ++ e :: (earlier ++ c.world.past) := by
    rw [hsplit, hempty, List.append_nil]
  obtain ⟨c₁, w, hr, hpast₁, hperform, hallow, hrest⟩ := h.split hsplit'
  refine ⟨c₁, w, hr, ?_, hperform, hallow, hrest⟩
  rw [hpast₁, hempty, List.append_nil, hback]

def schedule (past : List (Event T C R O)) : List (T × O) :=
  past.reverse.map fun e => (e.thread, e.choice)

theorem Reaches.run (h : M.Reaches allow c c') :
    ∃ later, c'.world.past = later ++ c.world.past ∧ M.run c (schedule later) = some c' := by
  induction h with
  | refl => exact ⟨[], rfl, rfl⟩
  | @step c₁ t o call r next w _ ht hp _ ih =>
    obtain ⟨later, hpast, hrun⟩ := ih
    refine ⟨⟨t, call, o, r⟩ :: later, ?_, ?_⟩
    · rw [((M.perform_eq_some).mp hp).2, hpast]
      rfl
    · have hschedule : schedule (⟨t, call, o, r⟩ :: later) = schedule later ++ [(t, o)] := by
        simp [schedule]
      rw [hschedule, run_append, hrun]
      simp [Machine.run, step_of_call M ht, hp]

theorem schedule_of_run {es : List (T × O)} (h : M.run c es = some c') :
    ∃ later, c'.world.past = later ++ c.world.past ∧ schedule later = es := by
  induction es generalizing c with
  | nil =>
    obtain rfl : c = c' := by simpa [Machine.run] using h
    exact ⟨[], rfl, rfl⟩
  | cons e es ih =>
    simp only [Machine.run] at h
    cases ht : c.threads e.1 with
    | done a => simp [step_of_done M ht] at h
    | call call next =>
      cases hp : M.perform e.1 call e.2 c.world with
      | none => simp [step_of_call M ht, hp] at h
      | some a =>
        simp only [step_of_call M ht, hp, Option.map_some, Option.bind_some] at h
        obtain ⟨later, hpast, hschedule⟩ := ih h
        refine ⟨later ++ [⟨e.1, call, e.2, a.1⟩], ?_, ?_⟩
        · rw [hpast, ((M.perform_eq_some).mp (show M.perform e.1 call e.2 c.world = some (a.1, a.2)
            from hp)).2]
          simp
        · simp [schedule, ← hschedule]

theorem Reaches.moment {es : List (T × O)} (hes : M.run c es = some c')
    (h₁ : M.Reaches allow c c₁) (h₂ : M.Reaches allow' c₁ c') :
    ∃ n ≤ es.length, M.run c (es.take n) = some c₁ := by
  obtain ⟨later, hpast, rfl⟩ := schedule_of_run hes
  obtain ⟨first, hfirst, hrun⟩ := h₁.run
  obtain ⟨rest, hrest, -⟩ := h₂.run
  have hlater : later = rest ++ first := by
    rw [hrest, hfirst, ← List.append_assoc] at hpast
    exact (List.append_cancel_right hpast).symm
  have htake : schedule later = schedule first ++ schedule rest := by
    simp [schedule, hlater]
  refine ⟨(schedule first).length, ?_, ?_⟩
  · simp [htake]
  · rw [htake, List.take_left]
    exact hrun

end Machine

end YaNuget.Concurrency
