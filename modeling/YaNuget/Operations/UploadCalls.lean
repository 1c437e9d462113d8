import YaNuget.Operations.UploadSteps

/-!
# What a request learns from its calls

A request knows more with each call: that it holds a slot, that the upload is as
it has read it. Where it cannot know, the upload has no part file any more, and
nothing can be written.
-/
namespace YaNuget.Tus

open Concurrency Protocol

variable {u : Upload} {strict : Prop} {s s' : State} {w w' : Moment} {o : Choice} {t i n : ℕ}

/-- Request `t` knows `A` as long as it is not ended. -/
def Knows (t : ℕ) (A : State → Prop) (w : Moment) : Prop := w.state.alive t = true → A w.state

/-- No other request makes `A` false. -/
def Settled (strict : Prop) (t : ℕ) (A : State → Prop) : Prop :=
  ∀ s s', Rely strict t s s' → A s → A s'

theorem Settled.stable {A : State → Prop} (hA : Settled strict t A) :
    Stable (machine u.expires) (protocol u strict) (.request t) (Knows t A) := by
  rintro p hp w w' ⟨c, o, r, -, -, -, -, hguar⟩ hw halive
  obtain ⟨halive', hrely⟩ := hguar t hp halive
  exact hA _ _ hrely (hw halive')

theorem Settled.and {A B : State → Prop} (hA : Settled strict t A) (hB : Settled strict t B) :
    Settled strict t fun s => A s ∧ B s :=
  fun s s' h hs => ⟨hA s s' h hs.1, hB s s' h hs.2⟩

theorem Settled.or {A B : State → Prop} (hA : Settled strict t A) (hB : Settled strict t B) :
    Settled strict t fun s => A s ∨ B s :=
  fun s s' h hs => hs.imp (hA s s' h) (hB s s' h)

theorem settled_true : Settled strict t fun _ => True := fun _ _ _ _ => trivial

/-- From `A`, request `t` keeps the protocol in `x`, and knows `B` of the answer after it, or `E`
after an error. -/
abbrev Spec (u : Upload) (strict : Prop) (t : ℕ) {α : Type} (A : State → Prop) (x : Op α)
    (B : α → State → Prop) (E : State → Prop) : Prop :=
  Triple (machine u.expires) (protocol u strict) (.request t) (Knows t A) x
    (fun a => Knows t (B a)) (Knows t E)

section Calls

variable {α : Type} {A E : State → Prop} {c : Call} {r : Request}

theorem spec_pure {a : α} {B : α → State → Prop} (h : ∀ s, A s → B a s) :
    Spec u strict t A (pure a) B E :=
  Triple.pure fun _ hw halive => h _ (hw halive)

theorem spec_throw {e : Error} {B : α → State → Prop} (h : ∀ s, A s → E s) :
    Spec u strict t A (throw e) B E :=
  Triple.throw fun _ hw halive => h _ (hw halive)

theorem spec_pre {A' : State → Prop} {B : α → State → Prop} {x : Op α}
    (h : Spec u strict t A x B E) (hA : ∀ s, A' s → A s) : Spec u strict t A' x B E :=
  h.pre fun _ hw halive => hA _ (hw halive)

theorem spec_post {B B' : α → State → Prop} {x : Op α} (h : Spec u strict t A x B E)
    (hB : ∀ a s, B a s → B' a s) : Spec u strict t A x B' E :=
  h.post fun _ _ hw halive => hB _ _ (hw halive)

theorem spec_attempt {B : α → State → Prop} {E' : State → Prop} {x : Op α}
    (h : Spec u strict t A x B E) :
    Spec u strict t A (Fallible.attempt x) (fun result s => match result with
      | .ok a => B a s
      | .error _ => E s) E' := by
  refine h.attempt.post fun result w hw => ?_
  cases result with
  | ok a => exact hw
  | error e => exact hw

theorem performs {B : c.Answer → State → Prop} (hc : c ≠ .arrive) (hA : Settled strict t A)
    (hduty : ∀ s, Invariant u strict s → A s → Duty u strict t s c)
    (hB : ∀ s o a s', s.act u.expires t o c = some (a, s') → steady s t c o = true →
      (strict → o.prompt = true) → Invariant u strict s → A s → B a s')
    (hw : Knows t A w) :
    Safe (machine u.expires) (protocol u strict) (.request t) (Program.perform c)
      (fun a => Knows t (B a)) w := by
  refine Safe.call hA.stable hw fun w hw hinv o a w' hp hallow => ?_
  obtain ⟨hexec, -⟩ := (machine u.expires).perform_eq_some.mp hp
  obtain ⟨hadmits, hact⟩ := exec_request.mp hexec
  have halive : w.state.alive t = true := by
    cases c with
    | arrive => exact absurd rfl hc
    | _ => exact hadmits
  have hduty' := hduty _ hinv (hw halive)
  refine ⟨hinv.does (act_does hact) hduty' hallow.2, fun v hv halive' => ?_, fun _ => ?_⟩
  · have hne : t ≠ v := fun h => hv (by rw [h])
    exact Rely.does hinv (act_does hact) hduty' hne halive'
  · exact hB _ o a _ hact (hallow.1 t rfl) hallow.2 hinv (hw halive)

theorem ask_spec {B : c.Answer → State → Prop} (hc : c ≠ .arrive) (hA : Settled strict t A)
    (hduty : ∀ s, Invariant u strict s → A s → Duty u strict t s c)
    (hB : ∀ s o a s', s.act u.expires t o c = some (a, s') → steady s t c o = true →
      (strict → o.prompt = true) → Invariant u strict s → A s → B a s') :
    Spec u strict t A (ask c) B E :=
  fun _ hw => Safe.bind ((performs hc hA hduty hB hw).mono fun _ _ h => h)

/-- What a call that may fail comes to. -/
theorem tried_spec {B : Except IoError r.Answer → State → Prop} (hA : Settled strict t A)
    (hduty : ∀ s, Invariant u strict s → A s → Duty u strict t s (.request r))
    (hB : ∀ s o a s', s.answer u.expires t o r = (a, s') → steady s t (.request r) o = true →
      (strict → o.prompt = true) → Invariant u strict s → A s → B a s') :
    Spec u strict t A (tried r) B E := by
  intro w hw
  refine Safe.bind ((performs (c := .request r) (by simp) hA hduty ?_ hw).mono fun _ _ h => h)
  intro s o a s' hact hsteady hprompt hinv hs
  exact hB s o a s' (Option.some.inj hact) hsteady hprompt hinv hs

/-- `?` on what a call that may fail comes to. -/
theorem raised_spec {B : r.Answer → State → Prop} {wrap : IoError → Error}
    (h : Spec u strict t A (tried r) (fun result s => match result with
      | .ok a => B a s
      | .error _ => E s) E) :
    Spec u strict t A (do let result ← tried r; ofExcept (result.mapError wrap)) B E := by
  apply Triple.bind h
  intro result
  cases result with
  | ok a => exact spec_pure fun _ hs => hs
  | error e => exact spec_throw fun _ hs => hs

end Calls

/-- The calls that change nothing. -/
def Request.reads : Request → Bool
  | getUpload | expiredUploads | check _ | openPart | readPart _ _ | seek _ => true
  | _ => false

theorem answer_reads {expires : ℕ} {r : Request} {a : Except IoError r.Answer}
    (hreads : r.reads = true) (h : s.answer expires t o r = (a, s')) : s' = s := by
  cases r with
  | getUpload | expiredUploads | check | readPart | seek => exact tries_state h
  | openPart =>
    simp only [State.answer] at h
    split_ifs at h
    · exact tries_state h
    · cases h
      rfl
  | _ => cases hreads

theorem reads_duty {r : Request} (hreads : r.reads = true) : Duty u strict t s (.request r) := by
  cases r with
  | getUpload | expiredUploads | check | openPart | readPart | seek => exact nofun
  | _ => cases hreads

theorem tried_reads {r : Request} {A E : State → Prop} (hreads : r.reads = true)
    (hA : Settled strict t A) : Spec u strict t A (tried r) (fun _ => A) E := by
  apply tried_spec hA fun _ _ _ => reads_duty hreads
  intro s o a s' hanswer _ _ _ hs
  rw [answer_reads hreads hanswer]
  exact hs

theorem raised_reads {r : Request} {A E : State → Prop} {wrap : IoError → Error}
    (hreads : r.reads = true) (hA : Settled strict t A) (hE : ∀ s, A s → E s) :
    Spec u strict t A (do let result ← tried r; ofExcept (result.mapError wrap))
      (fun _ => A) E := by
  apply raised_spec
  refine spec_post (tried_reads hreads hA) fun result s hs => ?_
  cases result with
  | ok a => exact hs
  | error e => exact hE s hs

/-- Request `t` holds slot `i`. -/
structure Holds (t i : ℕ) (s : State) : Prop where
  bound : i < s.next
  holder : (s.slots i).holder = some t

/-- It holds slot `i`, and does not write. -/
structure Idle (t i : ℕ) (s : State) : Prop extends Holds t i s where
  file : s.files t = none

/-- It holds the only slot there has been, and the row counts `n` bytes. -/
structure Owns (strict : Prop) (t i n : ℕ) (s : State) : Prop where
  only : i = 0
  exclusive : Exclusive t s
  row : strict → ∃ r ∈ s.row, r.received = n

theorem Idle.of_same (h : Idle t i s) (hnext : s'.next = s.next) (hslots : s'.slots = s.slots)
    (hfiles : s'.files = s.files) : Idle t i s' :=
  ⟨⟨by rw [hnext]; exact h.bound, by rw [hslots]; exact h.holder⟩, by rw [hfiles]; exact h.file⟩

theorem Owns.of_same (h : Owns strict t i n s) (hnext : s'.next = s.next)
    (hregistry : s'.registry = s.registry) (hslots : s'.slots = s.slots)
    (hrow : s'.row = s.row) : Owns strict t i n s' :=
  ⟨h.only, ⟨hnext.trans h.exclusive.next, hregistry.trans h.exclusive.registry,
    by rw [hslots]; exact h.exclusive.holder⟩, by rw [hrow]; exact h.row⟩

theorem Holds.locked (h : Holds t i s) : Locked t s := ⟨i, h.bound, h.holder⟩

theorem settled_holds : Settled strict t (Holds t i) := by
  intro s s' hrely hs
  exact ⟨Nat.lt_of_lt_of_le hs.bound hrely.next, by rw [hrely.lock i hs.holder]; exact hs.holder⟩

theorem settled_idle : Settled strict t (Idle t i) := by
  intro s s' hrely hs
  exact ⟨settled_holds s s' hrely hs.toHolds, hrely.file.trans hs.file⟩

theorem settled_exclusive : Settled strict t (Exclusive t) := by
  intro s s' hrely hs
  obtain ⟨hnext, hregistry⟩ := hrely.exclusive hs
  exact ⟨hnext.trans hs.next, hregistry.trans hs.registry,
    by rw [hrely.lock 0 hs.holder]; exact hs.holder⟩

theorem settled_owns : Settled strict t (Owns strict t i n) := by
  intro s s' hrely hs
  refine ⟨hs.only, settled_exclusive s s' hrely hs.exclusive, fun hstrict => ?_⟩
  rw [(hrely.kept hstrict hs.exclusive).1]
  exact hs.row hstrict

theorem settled_place : Settled strict t fun s => s.place ≠ .part :=
  fun _ _ hrely hs => hrely.place hs

theorem settled_row : Settled strict t fun s => s.row = none :=
  fun _ _ hrely hs => hrely.row hs

theorem settled_expired : Settled strict t fun s => u.expires ≤ s.now :=
  fun _ _ hrely hs => Nat.le_trans hs hrely.now

theorem settled_closed : Settled strict t (Closed u.expires) :=
  settled_row.or (settled_place.or settled_expired)

/-- The upload is as the request has read it, unless its part file is gone. -/
def May (strict : Prop) (t i n : ℕ) (s : State) : Prop :=
  Idle t i s ∧ (s.place ≠ .part ∨ Owns strict t i n s)

theorem settled_may : Settled strict t (May strict t i n) :=
  settled_idle.and (settled_place.or settled_owns)

theorem slot_spec {A E : State → Prop} (hA : Settled strict t A)
    (hmakes : ∀ s registry next, A s → A { s with registry := registry, next := next }) :
    Spec u strict t A (ask .slot) (fun i s => A s ∧ i < s.next) E := by
  apply ask_spec (c := .slot) (by simp) hA (fun _ _ _ => trivial)
  intro s o i s' hact _ _ hinv hs
  simp only [State.act] at hact
  split at hact
  next j hj =>
    cases hact
    exact ⟨hs, hinv.registered _ hj⟩
  next hnone =>
    cases hact
    exact ⟨hmakes s _ _ hs, Nat.lt_succ_self _⟩

theorem settled_bound : Settled strict t fun s => i < s.next :=
  fun _ _ hrely hs => Nat.lt_of_lt_of_le hs hrely.next

/-- A request that finds the slot free does not write yet. -/
theorem tryLock_spec {A E : State → Prop} (hA : Settled strict t A)
    (hlocks : ∀ s slot, A s → A (s.setSlot i slot)) :
    Spec u strict t (fun s => A s ∧ i < s.next) (ask (.tryLock i))
      (fun locked s => locked = true → A s ∧ Idle t i s) E := by
  apply ask_spec (c := .tryLock i) (by simp) (hA.and settled_bound) (fun _ _ hs => hs.2)
  intro s o locked s' hact _ _ hinv hs hlocked
  simp only [State.act] at hact
  split at hact
  next =>
    cases hact
    cases hlocked
  next hfree =>
    cases hact
    refine ⟨hlocks s _ hs.1, ⟨hs.2, by simp [State.setSlot]⟩, ?_⟩
    by_contra hfile
    have hex := hinv.writers t hfile
    have hi : i < 1 := hex.next ▸ hs.2
    obtain rfl : i = 0 := by omega
    rw [hex.holder] at hfree
    cases hfree

theorem unlock_spec {E : State → Prop} :
    Spec u strict t (Idle t i) (ask (.unlock i)) (fun _ _ => True) E :=
  ask_spec (c := .unlock i) (by simp) settled_idle (fun _ _ hs => hs.file)
    fun _ _ _ _ _ _ _ _ _ => trivial

theorem forgetSlot_spec {E : State → Prop} :
    Spec u strict t (fun s => Idle t i s ∧ Closed u.expires s) (ask .forgetSlot)
      (fun _ => Idle t i) E := by
  apply ask_spec (c := .forgetSlot) (by simp) (settled_idle.and settled_closed)
  · exact fun _ _ hs => ⟨hs.1.locked, hs.1.file, hs.2⟩
  · intro s o a s' hact _ _ _ hs
    cases hact
    exact hs.1.of_same rfl rfl rfl

theorem session_keeps : Spec u strict t (fun _ => True) (session u) (fun _ _ => True)
    fun _ => True := by
  unfold session query
  apply (raised_reads (r := .getUpload) rfl settled_true fun _ hs => hs).bind
  intro row
  cases row with
  | none => exact spec_throw fun _ _ => trivial
  | some row =>
    apply (ask_spec (c := .now) (by simp) settled_true (fun _ _ _ => trivial)
      (B := fun _ _ => True) fun _ _ _ _ _ _ _ _ _ => trivial).bind
    intro now
    dsimp only
    split_ifs
    · exact spec_pure fun _ _ => trivial
    · exact spec_throw fun _ _ => trivial

/-- What the lock holder learns when it reads the row. -/
def Found (u : Upload) (strict : Prop) (t i : ℕ) (s : State) : Option Row → Prop
  | none => s.row = none
  | some r => u.expires ≤ s.now ∨ s.place ≠ .part ∨ Owns strict t i r.received s

/-- Under the lock, the upload that is found is the request's own, unless its part file is gone. -/
theorem session_spec : Spec u strict t (Idle t i) (session u)
    (fun r => May strict t i r.received) fun s => Idle t i s ∧ Closed u.expires s := by
  have found : Spec u strict t (Idle t i) (query .getUpload)
      (fun result s => Idle t i s ∧ Found u strict t i s result)
      fun s => Idle t i s ∧ Closed u.expires s := by
    apply raised_spec
    apply tried_spec settled_idle (fun _ _ _ => reads_duty rfl)
    intro s o result s' hanswer hsteady _ hinv hs
    have hsame : s' = s := answer_reads rfl hanswer
    rw [hsame]
    cases hfails : o.fails with
    | some e => simp [steady, hfails, hs.locked] at hsteady
    | none =>
      have hresult : result = .ok s.row := by
        simpa [State.answer, State.tries, hfails, eq_comm] using congrArg Prod.fst hanswer
      subst hresult
      refine ⟨hs, ?_⟩
      cases hrow : s.row with
      | none => exact hrow
      | some r =>
        rcases hinv.phase with ⟨hnext, -⟩ | ⟨hnext, hregistry⟩ | hnone | hplace | hnow
        · exact absurd hs.bound (by omega)
        · have hi : i = 0 := by
            have := hs.bound
            omega
          subst hi
          exact Or.inr (Or.inr ⟨rfl, ⟨hnext, hregistry, hs.holder⟩, fun _ => ⟨r, hrow, rfl⟩⟩)
        · rw [hrow] at hnone
          cases hnone
        · exact Or.inr (Or.inl hplace)
        · exact Or.inl hnow
  unfold session
  apply found.bind
  intro result
  cases result with
  | none => exact spec_throw fun s hs => ⟨hs.1, Or.inl hs.2⟩
  | some r =>
    have settled : Settled strict t fun s =>
        Idle t i s ∧ (u.expires ≤ s.now ∨ s.place ≠ .part ∨ Owns strict t i r.received s) :=
      settled_idle.and (settled_expired.or (settled_place.or settled_owns))
    apply (ask_spec (c := .now) (by simp) settled (fun _ _ _ => trivial) (B := fun now s =>
      (now < u.expires → May strict t i r.received s) ∧
        (¬ now < u.expires → Idle t i s ∧ Closed u.expires s)) ?_).bind
    · intro now
      dsimp only
      split_ifs with hnow
      · exact spec_pure fun s hs => hs.1 hnow
      · exact spec_throw fun s hs => hs.2 hnow
    · intro s o now s' hact _ _ _ hs
      cases hact
      refine ⟨fun hnow => ⟨hs.1, ?_⟩, fun hnow => ⟨hs.1, Or.inr (Or.inr (Nat.not_lt.mp hnow))⟩⟩
      rcases hs.2 with hexpired | hmay
      · exact absurd hnow (Nat.not_lt.mpr hexpired)
      · exact hmay

theorem Holds.apply (h : Holds t i s) (e : Effect) : Holds t i (s.apply e) := by
  have hm := apply_memory s e
  exact ⟨by rw [hm.next]; exact h.bound, by rw [hm.slots]; exact h.holder⟩

theorem Idle.apply (h : Idle t i s) (e : Effect) : Idle t i (s.apply e) :=
  have hm := apply_memory s e
  h.of_same hm.next hm.slots hm.files

theorem Idle.late (h : Idle t i s) (late : List Effect) : Idle t i { s with late := late } :=
  h.of_same rfl rfl rfl

/-- What comes of a call with an effect: it has had it, or it has failed, and then it may have had
it all the same, or have it later. -/
def Comes {α : Type} (s : State) (o : Choice) (e : Effect) (a : Except IoError α) (s' : State) :
    Prop :=
  (∃ b, a = .ok b) ∧ s' = s.apply e ∨ (∃ why, a = .error why) ∧
    (s' = s ∨ s' = s.apply e ∨ o.effect = .later ∧ s' = { s with late := e :: s.late })

theorem change_comes {e : Effect} {a : Except IoError Unit} (h : s.change o e = (a, s')) :
    Comes s o e a s' := by
  unfold State.change at h
  cases hfails : o.fails with
  | none =>
    rw [hfails] at h
    cases h
    exact Or.inl ⟨⟨(), rfl⟩, rfl⟩
  | some why =>
    rw [hfails] at h
    cases heffect : o.effect with
    | never =>
      rw [heffect] at h
      cases h
      exact Or.inr ⟨⟨why, rfl⟩, Or.inl rfl⟩
    | now =>
      rw [heffect] at h
      cases h
      exact Or.inr ⟨⟨why, rfl⟩, Or.inr (Or.inl rfl)⟩
    | later =>
      rw [heffect] at h
      cases h
      exact Or.inr ⟨⟨why, rfl⟩, Or.inr (Or.inr ⟨heffect, rfl⟩)⟩

theorem refuseIf_spec {refused : Bool} {e : Error} {A E : State → Prop} (hE : ∀ s, A s → E s) :
    Spec u strict t A (refuseIf refused e) (fun _ s => refused = false ∧ A s) E := by
  cases refused with
  | true => exact spec_throw hE
  | false => exact spec_pure fun _ hs => ⟨rfl, hs⟩

/-- A call with an effect: what is known after it, and what is known if it has failed. -/
theorem change_spec {r : Request} {e : State → Effect} {A B E : State → Prop}
    {wrap : IoError → Error}
    (hcomes : ∀ (s : State) o a s', s.answer u.expires t o r = (a, s') → Comes s o (e s) a s')
    (hA : Settled strict t A)
    (hduty : ∀ s, Invariant u strict s → A s → Duty u strict t s (.request r))
    (hok : ∀ s, Invariant u strict s → A s → B (s.apply (e s)))
    (herror : ∀ s, A s → E s ∧ E (s.apply (e s)) ∧ ∀ late, E { s with late := late }) :
    Spec u strict t A (do let result ← tried r; ofExcept (result.mapError wrap))
      (fun _ => B) E := by
  apply raised_spec
  apply tried_spec hA hduty
  intro s o a s' hanswer _ _ hinv hs
  rcases hcomes s o a s' hanswer with ⟨⟨b, rfl⟩, rfl⟩ | ⟨⟨why, rfl⟩, hs'⟩
  · exact hok s hinv hs
  · obtain ⟨hsame, heffect, hlate⟩ := herror s hs
    rcases hs' with rfl | rfl | ⟨-, rfl⟩
    · exact hsame
    · exact heffect
    · exact hlate _

/-- A call with an effect, of which nothing is learnt. -/
theorem effect_keeps {r : Request} {e : State → Effect} {A E : State → Prop}
    (hcomes : ∀ (s : State) o a s', s.answer u.expires t o r = (a, s') →
      s' = s ∨ Comes s o (e s) a s')
    (hA : Settled strict t A)
    (hduty : ∀ s, Invariant u strict s → A s → Duty u strict t s (.request r))
    (hkeeps : ∀ s, A s → A (s.apply (e s)) ∧ ∀ late, A { s with late := late }) :
    Spec u strict t A (tried r) (fun _ => A) E := by
  apply tried_spec hA hduty
  intro s o a s' hanswer _ _ _ hs
  obtain ⟨heffect, hlate⟩ := hkeeps s hs
  rcases hcomes s o a s' hanswer with rfl | ⟨-, rfl⟩ | ⟨-, rfl | rfl | ⟨-, rfl⟩⟩
  · exact hs
  · exact heffect
  · exact hs
  · exact heffect
  · exact hlate _

theorem changeIf_comes {p : Prop} [Decidable p] {e : Effect} {a : Except IoError Unit}
    (h : s.changeIf p o e = (a, s')) : s' = s ∨ Comes s o e a s' := by
  unfold State.changeIf at h
  split_ifs at h
  · exact Or.inr (change_comes h)
  · cases h
    exact Or.inl rfl

end YaNuget.Tus
