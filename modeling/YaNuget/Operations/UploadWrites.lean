import YaNuget.Operations.UploadCalls

/-!
# What a PATCH writes

A request that has opened the part file cuts it to what the row counts, appends
what arrives, and records it with the hash of all of it.
-/
namespace YaNuget.Tus

open Concurrency Protocol

variable {u : Upload} {strict : Prop} {s s' : State} {t i n : ℕ}

theorem Owns.received_eq (h : Owns strict t i n s) (hstrict : strict) {r : Row}
    (hr : r ∈ s.row) : r.received = n := by
  obtain ⟨r', hr', hn⟩ := h.row hstrict
  obtain rfl : r' = r := Option.some.inj (hr'.symm.trans hr)
  exact hn

theorem Owns.kept (h : Owns strict t i n s) (hinv : Invariant u strict s) (hstrict : strict) :
    s.acknowledged.length = n ∧ s.acknowledged <+: s.content := by
  obtain ⟨r, hr, hn⟩ := h.row hstrict
  have hkept := hinv.kept hstrict
  refine ⟨(hkept.counted r hr).trans hn, hkept.stored fun hnone => ?_⟩
  rw [hnone] at hr
  cases hr

/-- The request has read the bytes from the part file. -/
structure Read (strict : Prop) (t i n : ℕ) (seen : Content) (s : State) : Prop
    extends Idle t i s, Owns strict t i n s where
  seen : strict → seen <+: s.content

theorem settled_read {seen : Content} : Settled strict t (Read strict t i n seen) := by
  intro s s' hrely hs
  refine ⟨settled_idle s s' hrely hs.toIdle, settled_owns s s' hrely hs.toOwns, fun hstrict => ?_⟩
  rw [(hrely.kept hstrict hs.exclusive).2.1]
  exact hs.seen hstrict

theorem settled_fact {p : Prop} : Settled strict t fun _ => p := fun _ _ _ hp => hp

theorem readPart_spec {p : Prop} {seen : Content} {m : ℕ} :
    Spec u strict t (fun s => p ∧ Read strict t i n seen s) (file (.readPart seen.length m))
      (fun bytes s => (p ∧ bytes.length ≤ m) ∧ Read strict t i n (seen ++ bytes) s)
      (Idle t i) := by
  apply raised_spec
  apply tried_spec (settled_fact.and settled_read) (fun _ _ _ => reads_duty rfl)
  rintro s o result s' hanswer - - - ⟨hp, hs⟩
  have hsame : s' = s := answer_reads rfl hanswer
  rw [hsame]
  cases hfails : o.fails with
  | some e =>
    have hresult : result = .error e := by
      simpa [State.answer, State.tries, hfails, eq_comm] using congrArg Prod.fst hanswer
    subst hresult
    exact hs.toIdle
  | none =>
    have hresult : result =
        .ok ((s.content.drop seen.length).take (min m (o.count + 1))) := by
      simpa [State.answer, State.tries, hfails, eq_comm] using congrArg Prod.fst hanswer
    subst hresult
    refine ⟨⟨hp, by simp only [List.length_take]; omega⟩, hs.toIdle, hs.toOwns, fun hstrict => ?_⟩
    obtain ⟨rest, hrest⟩ := hs.seen hstrict
    rw [← hrest, List.drop_left, List.prefix_append_right_inj]
    exact List.take_prefix _ _

/-- The first `n` bytes are read, as long as every read gets at least one of them. -/
theorem hashPart_spec (fuel : ℕ) (seen : Content) :
    Spec u strict t
      (fun s => (seen.length ≤ n ∧ n ≤ seen.length + fuel) ∧ Read strict t i n seen s)
      (hashPart n fuel seen)
      (fun bytes s => bytes.length = n ∧ Read strict t i n bytes s) (Idle t i) := by
  induction fuel generalizing seen with
  | zero => exact spec_pure fun s hs => ⟨by omega, hs.2⟩
  | succ fuel ih =>
    unfold hashPart
    split_ifs with hwhole
    · exact spec_pure fun s hs => ⟨by omega, hs.2⟩
    · apply readPart_spec.bind
      intro bytes
      split_ifs with hempty
      · exact spec_throw fun s hs => hs.2.toIdle
      · have hpos : 0 < bytes.length := by
          rw [List.isEmpty_iff] at hempty
          exact List.length_pos_iff.mpr hempty
        refine spec_pre (ih (seen ++ bytes)) fun s hs => ⟨?_, hs.2⟩
        obtain ⟨⟨hseen, hbytes⟩, -⟩ := hs
        rw [List.length_append]
        omega

def Hashed (strict : Prop) (t i n : ℕ) (s : State) : Prop :=
  May strict t i n s ∧ ∀ h ∈ (s.slots i).hashing, h.received = n

theorem settled_hashed : Settled strict t (Hashed strict t i n) := by
  intro s s' hrely hs
  refine ⟨settled_may s s' hrely hs.1, ?_⟩
  rw [hrely.lock i hs.1.1.holder]
  exact hs.2

theorem openPart_spec : Spec u strict t (May strict t i n) (file .openPart)
    (fun _ => Read strict t i n []) (Idle t i) := by
  apply raised_spec
  apply tried_spec settled_may (fun _ _ _ => reads_duty rfl)
  intro s o result s' hanswer _ _ _ hs
  have hsame : s' = s := answer_reads rfl hanswer
  rw [hsame]
  cases result with
  | error e => exact hs.1
  | ok a =>
    have hplace : s.place = .part := by
      by_contra hgone
      simp [State.answer, hgone] at hanswer
    rcases hs.2 with hgone | howns
    · exact absurd hplace hgone
    · exact ⟨hs.1, howns, fun _ => List.nil_prefix⟩

theorem Read.faithful {seen : Content} (h : Read strict t i n seen s)
    (hlength : seen.length = n) (hinv : Invariant u strict s) (hstrict : strict) :
    Faithful ⟨n, seen⟩ s := by
  refine ⟨hlength, fun _ _ _ => ?_⟩
  obtain ⟨hack, hstored⟩ := h.toOwns.kept hinv hstrict
  have hprefix : seen <+: s.acknowledged :=
    List.prefix_of_prefix_length_le (h.seen hstrict) hstored (by omega)
  exact hprefix.eq_of_length (by omega)

theorem resumeHash_spec : Spec u strict t (May strict t i n) (resumeHash i n)
    (fun _ => Hashed strict t i n) (Idle t i) := by
  unfold resumeHash
  apply (ask_spec (c := .hashing i) (by simp) settled_may (fun _ _ _ => trivial)
    (B := fun hashing s => May strict t i n s ∧ (s.slots i).hashing = hashing) ?_).bind
  · intro hashing
    by_cases hwhole : hashing.any (·.received = n) = true
    · rw [if_pos hwhole]
      refine spec_pure fun s hs => ⟨hs.1, fun h hh => ?_⟩
      rw [hs.2] at hh
      rw [Option.mem_def.mp hh] at hwhole
      simpa using hwhole
    · rw [if_neg hwhole]
      apply (spec_pre openPart_spec fun s hs => hs.1).bind
      intro _
      apply (spec_pre (hashPart_spec n []) fun s hs => ⟨⟨Nat.zero_le _, by simp⟩, hs⟩).bind
      intro seen
      apply ask_spec (c := .setHashing i (some ⟨n, seen⟩)) (by simp) (settled_fact.and settled_read)
      · rintro s hinv ⟨hlength, hs⟩
        refine ⟨hs.holder, fun hstrict h hh => ?_⟩
        obtain rfl := Option.some.inj hh
        exact hs.faithful hlength hinv hstrict
      · rintro s o _ s' hact - - - ⟨hlength, hs⟩
        cases hact
        have hidle : Idle t i (s.setSlot i { s.slots i with hashing := some ⟨n, seen⟩ }) :=
          ⟨⟨hs.bound, by simp [State.setSlot, hs.holder]⟩, hs.file⟩
        refine ⟨⟨hidle, Or.inr ⟨hs.only, hs.exclusive.setHashing, hs.row⟩⟩, fun h hh => ?_⟩
        have hset : some ⟨n, seen⟩ = some h := by simpa [State.setSlot] using hh
        exact (Option.some.inj hset) ▸ rfl
  · intro s o hashing s' hact _ _ _ hs
    cases hact
    exact ⟨hs, rfl⟩

theorem Owns.setHashing {hashing : Option Hashing} (h : Owns strict t i n s) :
    Owns strict t i n (s.setSlot i { s.slots i with hashing := hashing }) :=
  ⟨h.only, h.exclusive.setHashing, h.row⟩

theorem Idle.setHashing {hashing : Option Hashing} (h : Idle t i s) :
    Idle t i (s.setSlot i { s.slots i with hashing := hashing }) :=
  ⟨⟨h.bound, by simp [State.setSlot, h.holder]⟩, h.file⟩

/-- What the request has taken out of its slot. -/
def Taken (strict : Prop) (t i n : ℕ) (h : Hashing) (s : State) : Prop :=
  Idle t i s ∧ (s.place ≠ .part ∨ Owns strict t i n s ∧ (strict → h.seen = s.acknowledged))

theorem settled_taken {h : Hashing} : Settled strict t (Taken strict t i n h) := by
  intro s s' hrely hs
  refine ⟨settled_idle s s' hrely hs.1, ?_⟩
  rcases hs.2 with hgone | ⟨howns, hseen⟩
  · exact Or.inl (hrely.place hgone)
  · refine Or.inr ⟨settled_owns s s' hrely howns, fun hstrict => ?_⟩
    rw [(hrely.kept hstrict howns.exclusive).2.2]
    exact hseen hstrict

theorem takeHashing_spec (why : String) :
    Spec u strict t (Hashed strict t i n) (takeHashing i why) (Taken strict t i n) (Idle t i) := by
  unfold takeHashing
  apply (ask_spec (c := .hashing i) (by simp) settled_hashed (fun _ _ _ => trivial)
    (B := fun hashing s => Idle t i s ∧ ∀ h ∈ hashing, Taken strict t i n h s) ?_).bind
  · intro hashing
    cases hashing with
    | none => exact spec_throw fun s hs => hs.1
    | some h =>
      have settled : Settled strict t fun s =>
          Idle t i s ∧ ∀ h' ∈ some h, Taken strict t i n h' s :=
        settled_idle.and fun s s' hrely hs h' hh' => settled_taken s s' hrely (hs h' hh')
      apply (ask_spec (c := .setHashing i none) (by simp) settled
        (fun _ _ hs => ⟨hs.1.holder, nofun⟩)
        (B := fun _ s => Taken strict t i n h s) ?_).bind
      · intro _
        exact spec_pure fun _ hs => hs
      · intro s o _ s' hact _ _ _ hs
        cases hact
        obtain ⟨hidle, htaken⟩ := hs.2 h rfl
        refine ⟨hidle.setHashing, ?_⟩
        rcases htaken with hgone | ⟨howns, hseen⟩
        · exact Or.inl hgone
        · exact Or.inr ⟨howns.setHashing, hseen⟩
  · intro s o hashing s' hact _ _ hinv hs
    cases hact
    refine ⟨hs.1.1, fun h hh => ⟨hs.1.1, ?_⟩⟩
    rcases hs.1.2 with hgone | howns
    · exact Or.inl hgone
    · refine Or.inr ⟨howns, fun hstrict => ?_⟩
      obtain ⟨r, hr, hn⟩ := howns.row hstrict
      exact ((hinv.kept hstrict).hashed i h hh).seen r hr ((hs.2 h hh).trans hn.symm)

/-- The request has the part file open, and the bytes are in it after those that the row counts. -/
structure Writing (strict : Prop) (t i n : ℕ) (seen sent : Content) (clean : Prop) (s : State) :
    Prop extends Holds t i s, Owns strict t i n s where
  file : s.files t ≠ none
  sound : strict → s.files t = some false
  seen : strict → seen = s.acknowledged
  stored : strict → s.acknowledged ++ sent <+: s.content
  /-- And nothing is in it after them. -/
  whole : strict → clean → s.content = s.acknowledged ++ sent

variable {seen sent : Content} {clean : Prop}

theorem settled_writing : Settled strict t (Writing strict t i n seen sent clean) := by
  intro s s' hrely hs
  have hfile : s'.files t = s.files t := hrely.file
  have hkept : strict → s'.row = s.row ∧ s'.content = s.content ∧
      s'.acknowledged = s.acknowledged := fun hstrict => hrely.kept hstrict hs.exclusive
  refine ⟨settled_holds s s' hrely hs.toHolds, settled_owns s s' hrely hs.toOwns,
    ?_, ?_, ?_, ?_, ?_⟩
  · rw [hfile]
    exact hs.file
  · rw [hfile]
    exact hs.sound
  · intro hstrict
    rw [(hkept hstrict).2.2]
    exact hs.seen hstrict
  · intro hstrict
    rw [(hkept hstrict).2.1, (hkept hstrict).2.2]
    exact hs.stored hstrict
  · intro hstrict
    rw [(hkept hstrict).2.1, (hkept hstrict).2.2]
    exact hs.whole hstrict

theorem Writing.weaken {clean' : Prop} (h : Writing strict t i n seen sent clean s)
    (himp : clean' → clean) : Writing strict t i n seen sent clean' s :=
  { h with whole := fun hstrict hclean => h.whole hstrict (himp hclean) }

theorem openForWriting_spec {h : Hashing} :
    Spec u strict t (Taken strict t i n h) (file .openForWriting)
      (fun _ => Writing strict t i n h.seen [] False) (Idle t i) := by
  apply raised_spec
  apply tried_spec settled_taken
  · intro s _ hs hplace
    rcases hs.2 with hgone | ⟨howns, -⟩
    · exact absurd hplace hgone
    · exact howns.exclusive
  · intro s o result s' hanswer _ _ hinv hs
    simp only [State.answer] at hanswer
    split_ifs at hanswer with hopens
    · cases hanswer
      rcases hs.2 with hgone | ⟨howns, hseen⟩
      · exact absurd hopens.1 hgone
      · refine ⟨⟨hs.1.bound, hs.1.holder⟩,
          ⟨howns.only, ⟨howns.exclusive.next, howns.exclusive.registry, howns.exclusive.holder⟩,
            howns.row⟩, by simp [State.setFile], fun _ => by simp [State.setFile], hseen,
          fun hstrict => ?_, fun _ => False.elim⟩
        rw [List.append_nil]
        exact (howns.kept hinv hstrict).2
    · cases hanswer
      exact hs.1

theorem resized_eq {ack content : Content} (h : ack <+: content) :
    resized content ack.length = ack := by
  obtain ⟨rest, rfl⟩ := h
  simp [resized]

theorem overwritten_eq (content bytes : Content) :
    overwritten content content.length bytes = content ++ bytes := by
  simp [overwritten, resized]

theorem setLen_spec :
    Spec u strict t (Writing strict t i n seen [] False) (file (.setLen n))
      (fun _ => Writing strict t i n seen [] True) (Holds t i) := by
  apply change_spec (r := .setLen n) (e := fun _ => .length n)
    (fun _ _ _ _ h => change_comes h) settled_writing
  · rintro s - hs e ⟨⟩
    exact ⟨fun _ => hs.locked, fun hstrict r hr => (hs.received_eq hstrict hr).symm⟩
  · intro s hinv hs
    refine ⟨hs.toHolds.apply _, ⟨hs.only, hs.exclusive.congr (apply_memory s _), hs.row⟩, hs.file,
      hs.sound, hs.seen, fun hstrict => ?_, fun hstrict _ => ?_⟩
    all_goals
      obtain ⟨hlength, hstored⟩ := hs.toOwns.kept hinv hstrict
      have hcut : resized s.content n = s.acknowledged := hlength ▸ resized_eq hstored
    · rw [List.append_nil]
      exact hcut ▸ List.prefix_rfl
    · rw [List.append_nil]
      exact hcut
  · intro s hs
    exact ⟨hs.toHolds, hs.toHolds.apply _, fun _ => ⟨hs.bound, hs.holder⟩⟩

theorem Writing.write {bytes : Content} {clean' : Prop}
    (h : Writing strict t i n seen sent clean s) (hinv : Invariant u strict s) (hclean : clean) :
    Writing strict t i n seen (sent ++ bytes) clean'
      (s.apply (.write (n + sent.length) bytes)) := by
  have hcontent : strict → overwritten s.content (n + sent.length) bytes =
      s.acknowledged ++ (sent ++ bytes) := by
    intro hstrict
    have hlength : n + sent.length = (s.acknowledged ++ sent).length := by
      rw [List.length_append, (h.toOwns.kept hinv hstrict).1]
    rw [hlength, h.whole hstrict hclean, overwritten_eq, List.append_assoc]
  refine ⟨h.toHolds.apply _, ⟨h.only, h.exclusive.congr (apply_memory s _), h.row⟩, h.file,
    h.sound, h.seen, fun hstrict => ?_, fun hstrict _ => hcontent hstrict⟩
  exact hcontent hstrict ▸ List.prefix_rfl

theorem Writing.shorten {bytes : Content}
    (h : Writing strict t i n seen (sent ++ bytes) clean s) :
    Writing strict t i n seen sent False s := by
  refine ⟨h.toHolds, h.toOwns, h.file, h.sound, h.seen, fun hstrict => ?_, fun _ => False.elim⟩
  have hprefix : s.acknowledged ++ sent <+: s.acknowledged ++ (sent ++ bytes) :=
    (List.prefix_append_right_inj _).mpr (List.prefix_append _ _)
  exact hprefix.trans (h.stored hstrict)

/-- Where nothing needs to be kept, the request only has to have its file open. -/
theorem Writing.loosen {seen' sent' : Content} {clean' : Prop}
    (h : Writing strict t i n seen sent clean s) (hstrict : ¬ strict) (hnext : s'.next = s.next)
    (hregistry : s'.registry = s.registry) (hslots : s'.slots = s.slots)
    (hfile : s'.files t ≠ none) : Writing strict t i n seen' sent' clean' s' :=
  ⟨⟨by rw [hnext]; exact h.bound, by rw [hslots]; exact h.holder⟩,
    ⟨h.only, ⟨hnext.trans h.exclusive.next, hregistry.trans h.exclusive.registry,
      by rw [hslots]; exact h.exclusive.holder⟩, fun hs => absurd hs hstrict⟩,
    hfile, fun hs => absurd hs hstrict, fun hs => absurd hs hstrict, fun hs => absurd hs hstrict,
    fun hs => absurd hs hstrict⟩

theorem writeAll_spec {chunk : Content} {E : State → Prop} :
    Spec u strict t (Writing strict t i n seen sent True)
      (tried (.writeAll (n + sent.length) chunk))
      (fun result => match result with
        | .ok _ => Writing strict t i n seen (sent ++ chunk) True
        | .error _ => Writing strict t i n seen sent False) E := by
  apply tried_spec settled_writing
  · intro s _ hs
    refine ⟨hs.file, fun hstrict r hr => ?_⟩
    rw [hs.received_eq hstrict hr]
    exact Nat.le_add_right _ _
  · intro s o result s' hanswer _ hprompt hinv hs
    have wrote : ∀ bytes, Writing strict t i n seen (sent ++ bytes) True
        (s.apply (.write (n + sent.length) bytes)) :=
      fun bytes => hs.write hinv trivial
    by_cases hstrict : strict
    · simp only [State.answer, State.write, hs.sound hstrict, Option.some.injEq, Bool.false_eq_true,
        if_false] at hanswer
      have hprompt' := hprompt hstrict
      split at hanswer
      next =>
        cases hanswer
        exact wrote chunk
      next hfails heffect => simp [Choice.prompt, hfails, heffect] at hprompt'
      next hfails heffect => simp [Choice.prompt, heffect] at hprompt'
      next heffect => simp [Choice.prompt, heffect] at hprompt'
      next =>
        cases hanswer
        exact (wrote _).shorten
    · have hm : ∀ e, SameMemory s (s.apply e) := apply_memory s
      simp only [State.answer, State.write] at hanswer
      split_ifs at hanswer
      · cases hanswer
        exact hs.loosen hstrict rfl rfl rfl (by simp [State.setFile])
      · split at hanswer
        next =>
          cases hanswer
          exact hs.loosen hstrict (hm _).next (hm _).registry (hm _).slots hs.file
        next =>
          cases hanswer
          exact hs.loosen hstrict (hm _).next (hm _).registry (hm _).slots
            (by simp [State.setFile])
        next =>
          cases hanswer
          exact hs.loosen hstrict rfl rfl rfl hs.file
        next =>
          cases hanswer
          exact hs.loosen hstrict rfl rfl rfl hs.file
        next =>
          cases hanswer
          exact hs.loosen hstrict (hm _).next (hm _).registry (hm _).slots hs.file

theorem settled_writing_slot {φ : Slot → Prop} :
    Settled strict t fun s => Writing strict t i n seen sent clean s ∧ φ (s.slots i) := by
  intro s s' hrely hs
  refine ⟨settled_writing s s' hrely hs.1, ?_⟩
  rw [hrely.lock i hs.1.holder]
  exact hs.2

/-- Nothing that was written is found to be lost. -/
theorem report_spec {r : Request} {φ : Slot → Prop} {E : State → Prop}
    (hr : r = .flush ∨ r = .syncAll) :
    Spec u strict t (fun s => Writing strict t i n seen sent clean s ∧ φ (s.slots i)) (tried r)
      (fun _ s => Writing strict t i n seen sent clean s ∧ φ (s.slots i)) E := by
  apply tried_spec settled_writing_slot
  · intro s _ _
    rcases hr with rfl | rfl <;> exact nofun
  · rintro s o result s' hanswer - - - ⟨hs, hslot⟩
    have hreport : ∃ a, s.report t o = (a, s') := by
      rcases hr with rfl | rfl <;> exact ⟨result, hanswer⟩
    obtain ⟨a, hreport⟩ := hreport
    unfold State.report at hreport
    split_ifs at hreport with hlost
    · cases hreport
      have hstrict : ¬ strict := by
        intro hstrict
        rw [hs.sound hstrict] at hlost
        cases hlost
      exact ⟨hs.loosen hstrict rfl rfl rfl (by simp [State.setFile]), hslot⟩
    · rw [tries_state hreport]
      exact ⟨hs, hslot⟩

theorem flush_spec {E : State → Prop} :
    Spec u strict t (Writing strict t i n seen sent clean) (tried .flush)
      (fun _ => Writing strict t i n seen sent clean) E :=
  spec_pre (spec_post (report_spec (φ := fun _ => True) (Or.inl rfl)) fun _ _ hs => hs.1)
    fun _ hs => ⟨hs, trivial⟩

/-- What is taken of a body is in the file, and nothing else is unless the stream broke off. -/
theorem appendHashed_spec {remaining : ℕ} {E : State → Prop}
    (body : List (Except IoError Content)) (sent : Content) :
    Spec u strict t (Writing strict t i n seen sent True) (appendHashed n remaining body sent)
      (fun result => Writing strict t i n seen result.1 (result.2 = .ok ())) E := by
  induction body generalizing sent with
  | nil =>
    unfold appendHashed
    apply flush_spec.bind
    intro result
    exact spec_pure fun _ hs => hs.weaken fun _ => trivial
  | cons item rest ih =>
    cases item with
    | error e => exact spec_pure fun _ hs => hs.weaken fun _ => trivial
    | ok chunk =>
      unfold appendHashed
      split_ifs
      · exact spec_pure fun _ hs => hs.weaken fun _ => trivial
      · apply writeAll_spec.bind
        intro result
        cases result with
        | ok _ => exact ih (sent ++ chunk)
        | error e => exact spec_pure fun _ hs => hs.weaken nofun

def PutBack (strict : Prop) (t i n : ℕ) (seen sent : Content) (clean : Prop) (s : State) : Prop :=
  Writing strict t i n seen sent clean s ∧
    (s.slots i).hashing = some ⟨n + sent.length, seen ++ sent⟩

theorem settled_putBack : Settled strict t (PutBack strict t i n seen sent clean) :=
  settled_writing_slot (φ := fun slot => slot.hashing = some ⟨n + sent.length, seen ++ sent⟩)

theorem putBack_spec {E : State → Prop} :
    Spec u strict t (Writing strict t i n seen sent clean)
      (ask (.setHashing i (some ⟨n + sent.length, seen ++ sent⟩)))
      (fun _ => PutBack strict t i n seen sent clean) E := by
  apply ask_spec (c := .setHashing i (some ⟨n + sent.length, seen ++ sent⟩)) (by simp)
    settled_writing
  · intro s hinv hs
    refine ⟨hs.holder, fun hstrict h hh => ?_⟩
    obtain rfl := Option.some.inj hh
    have hlength := (hs.toOwns.kept hinv hstrict).1
    refine ⟨?_, fun r hr hsame => ?_⟩
    · rw [List.length_append, hs.seen hstrict, hlength]
    · have hr' := hs.received_eq hstrict hr
      have hnone : sent = [] := List.length_eq_zero_iff.mp (by simp only at hsame; omega)
      rw [hnone, List.append_nil]
      exact hs.seen hstrict
  · intro s o _ s' hact _ _ _ hs
    cases hact
    have hholder : ((s.setSlot i { s.slots i with
        hashing := some ⟨n + sent.length, seen ++ sent⟩ }).slots i).holder = some t := by
      simp [State.setSlot, hs.holder]
    refine ⟨⟨⟨hs.bound, hholder⟩, hs.toOwns.setHashing, hs.file, hs.sound, hs.seen, hs.stored,
      hs.whole⟩, by simp [State.setSlot]⟩

theorem setUploadReceived_spec :
    Spec u strict t (PutBack strict t i n seen sent clean)
      (query (.setUploadReceived (n + sent.length) sent))
      (fun _ => PutBack strict t i (n + sent.length) (seen ++ sent) [] clean) (Holds t i) := by
  apply change_spec (r := .setUploadReceived (n + sent.length) sent)
    (e := fun s => .received (n + sent.length) sent s.now)
    (fun _ _ _ _ h => change_comes h) settled_putBack
  · rintro s hinv ⟨hs, hhashing⟩ e ⟨⟩
    refine ⟨fun _ => hs.locked, fun hstrict r hr => ?_⟩
    refine ⟨by rw [hs.received_eq hstrict hr], hs.stored hstrict, fun j h hh hn => ?_⟩
    have hj : j = i := by
      by_contra hne
      have hfresh := hinv.fresh j (by have := hs.exclusive.next; have := hs.only; omega)
      rw [hfresh] at hh
      cases hh
    subst hj
    rw [hhashing, Option.mem_def, Option.some.injEq] at hh
    rw [← hh, hs.seen hstrict]
  · rintro s hinv ⟨hs, hhashing⟩
    have hm := apply_memory s (.received (n + sent.length) sent s.now)
    let s' := s.apply (.received (n + sent.length) sent s.now)
    have updated : strict → s'.row = some ⟨n + sent.length, some s.now⟩ ∧
        s'.acknowledged = s.acknowledged ++ sent ∧ s'.content = s.content := by
      intro hstrict
      obtain ⟨r, hr, -⟩ := hs.row hstrict
      have hlength := (hs.toOwns.kept hinv hstrict).1
      have htake : s.acknowledged.take (n + sent.length - sent.length) = s.acknowledged :=
        List.take_of_length_le (by omega)
      simp only [s', State.apply, Option.mem_def.mp hr, htake, and_self]
    have howns : Owns strict t i (n + sent.length) s' :=
      ⟨hs.only, hs.exclusive.congr hm, fun hstrict => ⟨_, (updated hstrict).1, rfl⟩⟩
    refine ⟨⟨hs.toHolds.apply _, howns, ?_, ?_, ?_, ?_, ?_⟩, ?_⟩
    · rw [hm.files]
      exact hs.file
    · rw [hm.files]
      exact hs.sound
    · intro hstrict
      rw [(updated hstrict).2.1, hs.seen hstrict]
    · intro hstrict
      rw [(updated hstrict).2.1, (updated hstrict).2.2, List.append_nil]
      exact hs.stored hstrict
    · intro hstrict hclean
      rw [(updated hstrict).2.1, (updated hstrict).2.2, List.append_nil]
      exact hs.whole hstrict hclean
    · rw [hm.slots, hhashing, List.append_nil, List.length_nil, add_zero]
  · rintro s ⟨hs, -⟩
    exact ⟨hs.toHolds, hs.toHolds.apply _, fun _ => ⟨hs.bound, hs.holder⟩⟩

/-- What has arrived is recorded, and the part file holds it and nothing else. -/
def Recorded (strict : Prop) (t i received : ℕ) (s : State) : Prop :=
  ∃ seen, PutBack strict t i received seen [] True s

theorem receive_spec {row : Row} {h : Hashing} {body : List (Except IoError Content)} :
    Spec u strict t (Writing strict t i row.received h.seen [] False)
      (receive u i row h body) (Recorded strict t i) (Holds t i) := by
  unfold receive
  apply setLen_spec.bind
  intro _
  apply (raised_reads (r := .seek row.received) rfl settled_writing fun _ hs => hs.toHolds).bind
  intro _
  apply (appendHashed_spec body []).bind
  rintro ⟨sent, streamed⟩
  apply flush_spec.bind
  intro _
  apply putBack_spec.bind
  intro _
  apply setUploadReceived_spec.bind
  intro _
  have unbroken : Spec u strict t
      (PutBack strict t i (row.received + sent.length) (h.seen ++ sent) [] (streamed = .ok ()))
      (ofExcept (streamed.mapError mapUploadErr))
      (fun _ => PutBack strict t i (row.received + sent.length) (h.seen ++ sent) [] True)
      (Holds t i) := by
    cases streamed with
    | error e => exact spec_throw fun _ hs => hs.1.toHolds
    | ok _ => exact spec_pure fun _ hs => ⟨hs.1.weaken fun _ => rfl, hs.2⟩
  apply unbroken.bind
  intro _
  dsimp only
  split_ifs
  · apply Triple.bind
    · apply raised_spec
      refine spec_post (report_spec (φ := fun slot => slot.hashing =
          some ⟨row.received + sent.length + [].length, h.seen ++ sent ++ []⟩) (Or.inr rfl))
        fun result s hs => ?_
      cases result with
      | ok _ => exact hs
      | error e => exact hs.1.toHolds
    · intro _
      exact spec_pure fun _ hs => ⟨_, hs⟩
  · exact spec_pure fun _ hs => ⟨_, hs⟩

/-- What has arrived is recorded, and the part file is closed. -/
def Settle (strict : Prop) (t i received : ℕ) (s : State) : Prop :=
  Idle t i s ∧ Owns strict t i received s ∧
    ∃ seen, (s.slots i).hashing = some ⟨received, seen⟩ ∧
      (strict → seen = s.acknowledged ∧ s.content = s.acknowledged)

theorem settled_settle : Settled strict t (Settle strict t i n) := by
  rintro s s' hrely ⟨hidle, howns, seen, hhashing, hkept⟩
  refine ⟨settled_idle s s' hrely hidle, settled_owns s s' hrely howns, seen, ?_, fun hstrict => ?_⟩
  · rw [hrely.lock i hidle.holder]
    exact hhashing
  · obtain ⟨-, hcontent, hack⟩ := hrely.kept hstrict howns.exclusive
    rw [hcontent, hack]
    exact hkept hstrict

theorem close_spec {A B E : State → Prop} (hA : Settled strict t A)
    (h : ∀ s, A s → B (s.setFile t none)) :
    Spec u strict t A (ask .close) (fun _ => B) E := by
  apply ask_spec (c := .close) (by simp) hA (fun _ _ _ => trivial)
  intro s o _ s' hact _ _ _ hs
  cases hact
  exact h s hs

theorem Holds.close (h : Holds t i s) : Idle t i (s.setFile t none) :=
  ⟨⟨h.bound, h.holder⟩, by simp [State.setFile]⟩

theorem Recorded.close {received : ℕ} (h : Recorded strict t i received s) :
    Settle strict t i received (s.setFile t none) := by
  obtain ⟨seen, hs, hhashing⟩ := h
  refine ⟨hs.toHolds.close, hs.toOwns.of_same rfl rfl rfl rfl, seen,
    by simpa [State.setFile] using hhashing, fun hstrict => ?_⟩
  exact ⟨hs.seen hstrict, by simpa [State.setFile] using hs.whole hstrict trivial⟩

theorem settled_recorded : Settled strict t (Recorded strict t i n) := by
  rintro s s' hrely ⟨seen, hs⟩
  exact ⟨seen, settled_putBack s s' hrely hs⟩

theorem closing_spec {x : Op ℕ} {A : State → Prop}
    (hx : Spec u strict t A x (Recorded strict t i) (Holds t i)) :
    Spec u strict t A (closing x) (Settle strict t i) (Idle t i) := by
  unfold closing
  apply (spec_attempt hx).bind
  intro result
  cases result with
  | ok received =>
    apply (close_spec settled_recorded fun s hs => hs.close).bind
    intro _
    exact spec_pure fun _ hs => hs
  | error e =>
    apply (close_spec settled_holds fun s hs => hs.close).bind
    intro _
    exact spec_throw fun _ hs => hs

/-- Every byte has arrived, and the hasher has seen them. -/
def Complete (u : Upload) (strict : Prop) (t i : ℕ) (seen : Content) (s : State) : Prop :=
  Idle t i s ∧ Owns strict t i u.length s ∧
    (strict → seen = s.acknowledged ∧ s.content = s.acknowledged)

theorem takeWhole_spec (why : String) :
    Spec u strict t (Settle strict t i n) (takeHashing i why)
      (fun h s => n = u.length → Complete u strict t i h.seen s) (Idle t i) := by
  unfold takeHashing
  apply (ask_spec (c := .hashing i) (by simp) settled_settle (fun _ _ _ => trivial)
    (B := fun hashing s => Settle strict t i n s ∧ (s.slots i).hashing = hashing) ?_).bind
  · intro hashing
    cases hashing with
    | none => exact spec_throw fun s hs => hs.1.1
    | some h =>
      have settled : Settled strict t fun s =>
          Settle strict t i n s ∧ (s.slots i).hashing = some h := by
        intro s s' hrely hs
        refine ⟨settled_settle s s' hrely hs.1, ?_⟩
        rw [hrely.lock i hs.1.1.holder]
        exact hs.2
      apply (ask_spec (c := .setHashing i none) (by simp) settled
        (fun _ _ hs => ⟨hs.1.1.holder, nofun⟩)
        (B := fun _ s => n = u.length → Complete u strict t i h.seen s) ?_).bind
      · intro _
        exact spec_pure fun _ hs => hs
      · rintro s o _ s' hact - - - ⟨⟨hidle, howns, seen, hhashing, hkept⟩, hh⟩ rfl
        cases hact
        obtain rfl : (⟨u.length, seen⟩ : Hashing) = h := Option.some.inj (hhashing.symm.trans hh)
        exact ⟨hidle.setHashing, howns.setHashing, hkept⟩
  · intro s o hashing s' hact _ _ _ hs
    cases hact
    exact ⟨hs, rfl⟩

theorem setUploadHeld_spec {since : Option ℕ} {E : State → Prop} :
    Spec u strict t (May strict t i n) (tried (.setUploadHeld since))
      (fun _ => May strict t i n) E := by
  apply effect_keeps (r := .setUploadHeld since) (e := fun _ => .held since)
    (fun _ _ _ _ h => Or.inr (change_comes h)) settled_may
  · rintro s - hs e ⟨⟩
    exact ⟨fun _ => hs.1.locked, fun _ => trivial⟩
  · rintro s ⟨hidle, hmay⟩
    refine ⟨⟨hidle.apply _, ?_⟩, fun late => ⟨hidle.late late, ?_⟩⟩
    · rcases hmay with hgone | howns
      · exact Or.inl hgone
      · refine Or.inr ⟨howns.only, howns.exclusive.congr (apply_memory s _), fun hstrict => ?_⟩
        obtain ⟨r, hr, hn⟩ := howns.row hstrict
        exact ⟨{ r with heldSince := since }, by simp [State.apply, Option.mem_def.mp hr], hn⟩
    · rcases hmay with hgone | howns
      · exact Or.inl hgone
      · exact Or.inr (howns.of_same rfl rfl rfl rfl)

/-- What the locked part of a PATCH ends in. -/
def Patched (u : Upload) (strict : Prop) (t i : ℕ) (result : Reply × Option Content) (s : State) :
    Prop :=
  match result.2 with
  | none => Idle t i s
  | some seen => Complete u strict t i seen s

theorem patchLocked_spec {offset : ℕ} {body : List (Except IoError Content)} :
    Spec u strict t (Idle t i) (patchLocked u i offset body) (Patched u strict t i) (Idle t i) := by
  unfold patchLocked
  apply (spec_attempt session_spec).bind
  intro result
  cases result with
  | error e =>
    apply forgetSlot_spec.bind
    intro _
    exact spec_throw fun _ hs => hs
  | ok row =>
    dsimp only
    split_ifs with hoffset
    · exact spec_pure fun _ hs => hs.1
    · apply Triple.bind
      · apply raised_spec
        refine spec_post setUploadHeld_spec fun result s hs => ?_
        cases result with
        | ok _ => exact hs
        | error e => exact hs.1
      · intro _
        apply (tried_reads (r := .check _) rfl settled_may).bind
        intro room
        cases room with
        | error e =>
          apply setUploadHeld_spec.bind
          intro _
          exact spec_throw fun _ hs => hs.1
        | ok _ =>
          apply resumeHash_spec.bind
          intro _
          apply (takeHashing_spec _).bind
          intro h
          apply openForWriting_spec.bind
          intro _
          apply (closing_spec receive_spec).bind
          intro received
          split_ifs with hwhole
          · apply (takeWhole_spec _).bind
            intro whole
            exact spec_pure fun _ hs => hs hwhole
          · exact spec_pure fun _ hs => hs.1

end YaNuget.Tus
